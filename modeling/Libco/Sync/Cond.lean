import Libco.Sync.Mutex

/-!
# `co_cond.c`

`resumeCondWait` and `resumeTimedWait` are the code after the context switch;
each re-locks the mutex and may suspend a second time in that lock.
-/

namespace Libco

def coCondWait (s : St) (v m : Nat) : Outcome :=
  match s.coCurrent with
  | none => .ret (.code .inval) s
  | some c =>
    let s := s.modify c fun r => { r with state := .waiting, frame := .condWait v m }
    let s := (coQueuePushBack s (.cond v) c).emit (.waits v m c (s.co c).call)
    match coMutexUnlock s m with
    | none => .abort
    | some s => .swap s

/-- The lock at the end of a condition wait: the result is then `r`, and if the
lock suspends, its frame is `f`. -/
def relock (s : St) (c m : Nat) (f : Frame) (r : St → Ret) : Outcome :=
  match coMutexLock s m with
  | .ret _ s => .ret (r s) s
  | .swap s => .swap (s.modify c fun x => { x with frame := f })
  | .abort => .abort

def resumeCondWait (s : St) (c v m : Nat) : Outcome :=
  relock s c m (.condRelock v m) fun _ => .code .ok

def coCondTimedwait (s : St) (v m timeoutMs now : Nat) (reallocOk : Bool) : Outcome :=
  if timeoutMs = 0 then .ret (.code .timeout) s
  else match s.coCurrent with
    | none => .ret (.code .inval) s
    | some c =>
      let s := s.modify c fun r =>
        { r with state := .waiting, condWaitQueue := some v, timedOut := false }
      let s := coQueuePushBack s (.cond v) c
      let s := s.modify c fun r => { r with wakeupTime := (now + timeoutMs) % 2 ^ 64 }
      match coTimerHeapPush s.key s.timerHeap c reallocOk with
      | none =>
        let s := coQueueRemove s (.cond v) c
        .ret (.code .nomem)
          (s.modify c fun r => { r with state := .ready, condWaitQueue := none })
      | some h =>
        let s := { s.modify c (fun r => { r with frame := .timedWait v m }) with timerHeap := h }
        match coMutexUnlock (s.emit (.waits v m c (s.co c).call)) m with
        | none => .abort
        | some s => .swap s

/-- The result of a timed wait: the `timed_out` flag once the mutex is held. -/
def timedResult (s : St) (c : Nat) : Ret :=
  .code (if (s.co c).timedOut then .timeout else .ok)

def resumeTimedWait (s : St) (c v m : Nat) : Outcome :=
  let s := if !(s.co c).timedOut then
      { s with timerHeap := (coTimerHeapRemove s.key s.timerHeap c).2 }
    else s
  relock s c m (.timedRelock v m) fun s => timedResult s c

/-- The body shared by `co_cond_signal` and `co_cond_broadcast`. -/
def wakeWaiter (s : St) (c : Nat) : St :=
  wakeRoutine (s.modify c fun r => { r with condWaitQueue := none }) c

def coCondSignal (s : St) (v : Nat) : St :=
  match coQueuePopFront s (.cond v) with
  | (none, s) => s.emit (.signal v [])
  | (some c, s) => wakeWaiter (s.emit (.signal v [(s.co c).call])) c

def coCondBroadcast (s : St) (v : Nat) : St :=
  let ended := (s.queues (.cond v)).map fun c => (s.co c).call
  drainQueue wakeWaiter (.cond v) (s.queues (.cond v)).length (s.emit (.broadcast v ended))

end Libco
