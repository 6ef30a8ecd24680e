import Libco.Basic

/-!
# `co_queue.h`

The intrusive queues, as lists. `coQueueRemove` of a node that is not in the
queue does nothing. A coroutine has one node for all queues, so the lists stand for
the queues while no coroutine is put into a second one. That holds in runs in which no
timed I/O wait leaves its timer behind: `Libco.Links` has the queues as linked nodes in
memory, and `Libco.Layout` shows that these runs keep the two in step.
-/

namespace Libco

def coQueueEmpty (s : St) (q : QueueRef) : Bool := (s.queues q).isEmpty

def coQueuePushBack (s : St) (q : QueueRef) (c : Nat) : St :=
  { s with queues := Function.update s.queues q (s.queues q ++ [c]) }

def coQueueRemove (s : St) (q : QueueRef) (c : Nat) : St :=
  { s with queues := Function.update s.queues q ((s.queues q).erase c) }

def coQueuePopFront (s : St) (q : QueueRef) : Option Nat × St :=
  match s.queues q with
  | [] => (none, s)
  | c :: rest => (some c, { s with queues := Function.update s.queues q rest })

theorem coQueuePopFront_nil {s : St} {q : QueueRef} (h : s.queues q = []) :
    coQueuePopFront s q = (none, s) := by
  simp [coQueuePopFront, h]

theorem coQueuePopFront_cons {s : St} {q : QueueRef} {c : Nat} {rest : List Nat}
    (h : s.queues q = c :: rest) :
    coQueuePopFront s q =
      (some c, { s with queues := Function.update s.queues q rest }) := by
  simp [coQueuePopFront, h]

end Libco
