import Mathlib.Logic.Relation
import Libco.Transfer

/-!
# Atomic moves

A step of the machine is a short sequence of moves, each of which concerns one
coroutine, or the coroutines it takes out of one wait queue, and at most the
objects listed with it. `Move s₀ a os p p'`: during action `a` taken in `s₀`,
the machine goes from `p` to `p'` touching the objects `os`; `p` pairs the
state with the coroutine whose own code is running. Every invariant is checked
on moves; that steps are made of moves is shown once, in `Libco.Steps`.

Moves never leave a timer behind: an action that does so is a leak, `leaks`.
-/

namespace Libco
open Lib

/-! ## Objects -/

/-- The synchronisation objects. -/
inductive Obj where
  | mutex (m : Nat)
  | cond (v : Nat)
  | chan (h : Nat)
  deriving DecidableEq

def QueueRef.obj : QueueRef → Option Obj
  | .ready => none
  | .mutex m => some (.mutex m)
  | .cond v => some (.cond v)
  | .send h | .recv h => some (.chan h)

/-- The objects a suspended call still deals with. -/
def Frame.objs : Frame → List Obj
  | .lock m => [.mutex m]
  | .condWait v _ | .timedWait v _ => [.cond v]
  | .condRelock v m | .timedRelock v m => [.cond v, .mutex m]
  | .send h | .recv h => [.chan h]
  | _ => []

/-- The object an event is about. -/
def Event.obj : Event → Option Obj
  | .take m _ | .wait m _ | .handoff m _ | .enter m _ | .release m _ => some (.mutex m)
  | .waits v _ _ _ | .signal v _ | .broadcast v _ | .expire v _ => some (.cond v)
  | .offer h _ _ | .store h _ _ _ | .recvWait h _ | .serve h _ | .close h _ => some (.chan h)
  | _ => none

/-- Events of the scheduler itself. -/
def Event.neutral : Event → Bool
  | .spawned _ | .finish _ | .tick _ | .poll _ | .runRet _ => true
  | _ => false

/-! ## Allocation failures and leaks -/

/-- The action contains a failing allocation. -/
def Act.allocFails : Act → Bool
  | .spawn e => !e.calloc || e.malloc.isNone || !e.contextInit
  | .call (.sleep _ _ ok) => !ok
  | .call (.condTimedwait _ _ _ _ ok) => !ok
  | .call (.io a) => !a.reallocOk
  | .call (.ioAsync a) => !a.reallocOk
  | _ => false

/-- The phases of the scheduler that switch to a coroutine, that poll, and that
process deadlines. -/
def Act.isSchedule : Act → Bool
  | .schedule _ => true
  | _ => false
def Act.isIdle : Act → Bool
  | .idle _ => true
  | _ => false
def Act.isTimers : Act → Bool
  | .timers _ => true
  | _ => false

/-- The call enters `co_wait_io`. -/
def IoArgs.waits (a : IoArgs) : Bool :=
  !(a.fd < 0 || (a.call != .accept && !a.argsOk)) && a.first == .fail a.call.wouldBlock

/-- A timed wait that finds room for its timer. -/
def arms (s : St) (timeoutMs : Int) (reallocOk : Bool) : Bool :=
  decide (0 ≤ timeoutMs) && (decide (s.timerHeap.entries.length < s.timerHeap.capacity) || reallocOk)

/-- An I/O wait that an error event ended. -/
def Routine.errorExit (r : Routine) : Bool :=
  match r.frame with
  | .waitIo x => !r.timedOut && x.revents.error
  | .waitAsync x => !r.timedOut && x.revents.error
  | _ => false

/-- The operation is refused after the deadline was armed. -/
def refusedAsync (s : St) (a : AsyncArgs) : Bool :=
  !((s.iocp.associatedSockets.contains a.fd || a.portOk) && a.submitOk)

/-- **Leaks**: the action leaves a timed I/O wait while its timer stays in the
heap, through an error event or through a refused registration or submission. -/
def leaks (s : St) : Act → Bool
  | .schedule _ =>
    match s.queues .ready with
    | [] => false
    | c :: _ => (s.co c).errorExit && s.timerHeap.entries.contains c
  | .call (.io a) =>
    s.coCurrent.isSome && a.waits && arms s a.timeoutMs a.reallocOk && !a.ctlOk
  | .call (.ioAsync a) =>
    s.coCurrent.isSome && a.argsOk && a.setupOk && arms s a.timeoutMs a.reallocOk &&
      refusedAsync s a
  | _ => false

/-! ## Pieces of moves -/

/-- `wakeRoutine` and `wakeWaiter` on the record. -/
def Routine.wake (r : Routine) : Routine := { r with state := .ready }
def Routine.wakeCond (r : Routine) : Routine := { r with state := .ready, condWaitQueue := none }

/-- The coroutines `ws` go from the front of `q`, of which `rest` remains, to the
ready queue. -/
def wakeAll (s : St) (q : QueueRef) (ws rest : List Nat) (g : Routine → Routine) : St :=
  { s with
    co := fun c => if c ∈ ws then g (s.co c) else s.co c
    queues := Function.update (Function.update s.queues q rest) .ready (s.queues .ready ++ ws)
    trace := s.trace ++ ws.map .ready }

/-- The records of objects and the call counter are as before. -/
structure SameObjects (s s' : St) : Prop where
  mutexes : s'.mutexes = s.mutexes
  chans : s'.chans = s.chans
  calls : s'.calls = s.calls

/-- Only fields that no invariant reads change, and the trace by neutral events. -/
structure Admin (s s' : St) : Prop where
  co : s'.co = s.co
  queues : s'.queues = s.queues
  timerHeap : s'.timerHeap = s.timerHeap
  counts : s.SameCounts s'.toSched
  objects : SameObjects s s'
  trace : ∃ es, s'.trace = s.trace ++ es ∧ ∀ e ∈ es, e.neutral = true

/-- The API function whose call a frame belongs to. -/
def Frame.fits : Frame → OpName → Bool
  | .yieldNow, .yieldNow => true
  | .yieldNow, .sleep => true
  | .sleep, .sleep => true
  | .lock m, .lock m' => m = m'
  | .condWait v m, .condWait v' m' => v = v' ∧ m = m'
  | .condRelock v m, .condWait v' m' => v = v' ∧ m = m'
  | .timedWait v m, .condTimedwait v' m' => v = v' ∧ m = m'
  | .timedRelock v m, .condTimedwait v' m' => v = v' ∧ m = m'
  | .send h, .send h' => h = h'
  | .recv h, .recv h' => h = h'
  | .waitIo x, .io call => x.call = call
  | .waitAsync x, .io call => x.opType = call
  | .drainAsync x, .io call => x.opType = call
  | _, _ => false

/-- The mutex a call unlocks. -/
def OpName.unlocked : OpName → Option Nat
  | .unlock m | .condWait _ m | .condTimedwait _ m => some m
  | _ => none

/-- The deadline of a timed call. -/
def Op.due : Op → Option Nat
  | .sleep msec now _ => some ((now + msec) % 2 ^ 64)
  | .condTimedwait _ _ timeoutMs now _ => some ((now + timeoutMs) % 2 ^ 64)
  | .io a => some ((a.now + a.timeoutMs.toNat) % 2 ^ 64)
  | .ioAsync a => some ((a.now + a.timeoutMs.toNat) % 2 ^ 64)
  | _ => none

/-- The state is the one in which the call `op` began. -/
def Begins (s₀ : St) (a : Act) (s : St) (op : Op) : Prop := a = .call op ∧ s = beginCall s₀ op

/-- Nothing has happened to mutex `m` since the call `op` began. -/
def SinceCall (s₀ s : St) (op : Op) (m : Nat) : Prop :=
  ∃ es, s.trace = s₀.trace ++ .call s₀.calls s₀.coCurrent op.name :: es ∧
    ∀ e ∈ es, e.obj ≠ some (.mutex m)

/-- The event of a coroutine that suspends with record `r`. -/
def blockEvents (s : St) (c : Nat) (r : Routine) : List Event :=
  match r.frame with
  | .lock m => [.wait m c]
  | .condWait v m | .timedWait v m => [.waits v m c r.call]
  | .send h => [.offer h r.call (r.chanData.take (s.chans h).elemSize)]
  | .recv h => [.recvWait h r.call]
  | _ => []

/-- Why a call suspends rather than returns. -/
def mustBlock (s : St) (f : Frame) : Prop :=
  match f with
  | .lock m => (s.mutexes m).locked = true
  | .send h => (s.chans h).closed = false ∧ s.queues (.recv h) = [] ∧
      (s.chans h).capacity ≤ (s.chans h).count
  | .recv h => (s.chans h).closed = false ∧ s.queues (.send h) = [] ∧ (s.chans h).count = 0
  | _ => True

/-- The running coroutine `c` suspends with record `r`. -/
structure Blocks (s s' : St) (c : Nat) (r : Routine) : Prop where
  co : s'.co = Function.update s.co c r
  state : r.state = .waiting
  blocks : r.frame.blocks = true
  direct : ∀ v m, r.frame ≠ .condRelock v m ∧ r.frame ≠ .timedRelock v m
  call : r.call = (s.co c).call
  queues : s'.queues = match r.frame.waitQueue with
    | some q => Function.update s.queues q (s.queues q ++ [c])
    | none => s.queues
  heap : s.Armed s'.toSched c r.frame.timed
  timedOut : r.frame.timed = true → r.frame ≠ .sleep → r.timedOut = false
  cond : r.condWaitQueue = r.condPtr
  io : r.ioWaiting = r.ioFlag
  nextId : s'.nextId = s.nextId
  ioCount : s'.waitingIoCount =
    if r.frame.isIo then incr32 s.waitingIoCount else s.waitingIoCount
  active : s'.activeRoutines = s.activeRoutines
  objects : SameObjects s s'
  trace : s'.trace = s.trace ++ blockEvents s c r
  must : mustBlock s r.frame

/-- The events of a dispatch out of frame `f`: a blocked lock returns. -/
def dispatchEvents (c : Nat) : Frame → List Event
  | .lock m | .condRelock _ m | .timedRelock _ m => [.dispatch c, .enter m c]
  | _ => [.dispatch c]

/-- The assertion after the context switch of `co_mutex_lock` holds. -/
def entitled (s : St) (c : Nat) : Frame → Prop
  | .lock m | .condRelock _ m | .timedRelock _ m =>
    (s.mutexes m).locked = true ∧ (s.mutexes m).owner = some c
  | _ => True

/-- The first ready coroutine `c` is switched to, `rest` being ready after it. -/
structure Dispatches (s s' : St) (c : Nat) (rest : List Nat) : Prop where
  ready : s.queues .ready = c :: rest
  co : s'.co = Function.update s.co c
    { s.co c with state := .running, frame := .user, ioWaiting := false }
  queues : s'.queues = Function.update s.queues .ready rest
  ordered : Heaped s.key s'.timerHeap.entries
  heap : s'.timerHeap.entries.Perm (s.timerHeap.entries.erase c)
  counts : s.SameCounts s'.toSched
  objects : SameObjects s s'
  trace : s'.trace = s.trace ++ dispatchEvents c (s.co c).frame
  entitled : entitled s c (s.co c).frame

/-- The frame in which a condition wait re-locks its mutex. -/
def Frame.relocking : Frame → Option (Nat × Frame)
  | .condWait v m => some (m, .condRelock v m)
  | .timedWait v m => some (m, .timedRelock v m)
  | _ => none

/-- The action may find the mutex `m` free and take it: a lock or trylock, or the end of
a condition wait. -/
def mayTake (s₀ : St) (a : Act) (m : Nat) : Prop :=
  (∃ op, a = .call op ∧ (op.name = .lock m ∨ op.name = .trylock m)) ∨
    (a.isSchedule = true ∧ ∃ c rest f, s₀.queues .ready = c :: rest ∧
      (s₀.co c).frame.relocking = some (m, f))

/-- The first ready coroutine ends its condition wait and blocks on the mutex. -/
structure Relocks (s s' : St) (c : Nat) (rest : List Nat) (m : Nat) (f : Frame) : Prop where
  ready : s.queues .ready = c :: rest
  relocking : (s.co c).frame.relocking = some (m, f)
  locked : (s.mutexes m).locked = true
  co : s'.co = Function.update s.co c { s.co c with state := .waiting, frame := f }
  queues : s'.queues = Function.update (Function.update s.queues .ready rest) (.mutex m)
    (s.queues (.mutex m) ++ [c])
  ordered : Heaped s.key s'.timerHeap.entries
  heap : s'.timerHeap.entries.Perm (s.timerHeap.entries.erase c)
  counts : s.SameCounts s'.toSched
  objects : SameObjects s s'
  trace : s'.trace = s.trace ++ [.dispatch c, .wait m c]

/-- The events of an expired deadline. -/
def expireEvents (c : Nat) (r : Routine) : List Event :=
  match r.frame with
  | .timedWait v _ => [.expire v r.call, .ready c]
  | _ => [.ready c]

/-- The deadline of the waiting coroutine `c` is processed. -/
structure Expires (s s' : St) (c : Nat) : Prop where
  waiting : (s.co c).state = .waiting
  timed : (s.co c).frame.timed = true
  co : s'.co = Function.update s.co c
    { s.co c with
      state := .ready, condWaitQueue := none, ioWaiting := false
      timedOut := if (s.co c).frame = .sleep then (s.co c).timedOut else true }
  queues : s'.queues = Function.update
    (match (s.co c).frame.waitQueue with
      | some q => Function.update s.queues q ((s.queues q).erase c)
      | none => s.queues)
    .ready (s.queues .ready ++ [c])
  ordered : Heaped s.key s'.timerHeap.entries
  heap : s'.timerHeap.entries.Perm (s.timerHeap.entries.erase c)
  nextId : s'.nextId = s.nextId
  ioCount : s'.waitingIoCount =
    if (s.co c).frame.isIo then decr32 s.waitingIoCount else s.waitingIoCount
  active : s'.activeRoutines = s.activeRoutines
  objects : SameObjects s s'
  trace : s'.trace = s.trace ++ expireEvents c (s.co c)

/-- An I/O event is written to the wait context of `c`, which it wakes if it is
waiting. -/
structure Polled (s s' : St) (c : Nat) (f : Frame) : Prop where
  like : f.Like (s.co c).frame
  fits : ∀ op, (s.co c).frame.fits op = true → f.fits op = true
  co : s'.co = Function.update s.co c
    (if (s.co c).state = .waiting then
      { s.co c with state := .ready, frame := f, ioWaiting := false }
    else { s.co c with frame := f })
  queues : s'.queues = if (s.co c).state = .waiting then
    Function.update s.queues .ready (s.queues .ready ++ [c]) else s.queues
  heap : s'.timerHeap = s.timerHeap
  nextId : s'.nextId = s.nextId
  ioCount : s'.waitingIoCount =
    if (s.co c).state = .waiting then decr32 s.waitingIoCount else s.waitingIoCount
  active : s'.activeRoutines = s.activeRoutines
  objects : SameObjects s s'
  trace : s'.trace = s.trace ++ if (s.co c).state = .waiting then [.ready c] else []

/-- The new coroutine of a successful `co_spawn`. -/
structure Spawns (s s' : St) : Prop where
  co : ∃ b n, s'.co = Function.update s.co s.nextId
    { Routine.zero with stackBase := some b, stackSize := n, frame := .entry }
  queues : s'.queues = Function.update s.queues .ready (s.queues .ready ++ [s.nextId])
  heap : s'.timerHeap = s.timerHeap
  nextId : s'.nextId = s.nextId + 1
  ioCount : s'.waitingIoCount = s.waitingIoCount
  active : s'.activeRoutines = s.activeRoutines + 1
  objects : SameObjects s s'
  trace : s'.trace = s.trace ++ [.ready s.nextId]

/-- A call that fails without suspending leaves traces in the caller's record. -/
structure Touches (s s' : St) (c : Nat) (r : Routine) : Prop where
  co : s'.co = Function.update s.co c r
  frame : r.frame = .user
  call : r.call = (s.co c).call
  cond : r.condWaitQueue = none
  io : r.ioWaiting = false
  queues : s'.queues = s.queues
  heap : s'.timerHeap = s.timerHeap
  counts : s.SameCounts s'.toSched
  objects : SameObjects s s'
  trace : s'.trace = s.trace

/-- The element of send `k` is copied to the buffer of the waiting receiver `c`. -/
def deliver (s : St) (h k c : Nat) (data : Bytes) : St :=
  let n := (s.chans h).elemSize
  let s' := s.modify c fun x => { x with chanData := memcpy x.chanData 0 data n }
  ((s'.emit (.offer h k (data.take n))).emit (.serve h (s.co c).call)).emit
    (.store h (s.co c).call k (data.take n))

/-- The oldest buffered element goes to receive `k`. -/
def St.storeHead (s : St) (h k : Nat) : St :=
  let ch := s.chans h
  s.emit (.store h k (ch.tags ch.head) ((ch.slot ch.head).take ch.elemSize))

/-! ## Moves -/

inductive Move (s₀ : St) (a : Act) : List Obj → Option Nat × St → Option Nat × St → Prop
  | admin {cur : Option Nat} {s s' : St} (h : Admin s s') : Move s₀ a [] (cur, s) (cur, s')
  | invoke {op : Op} (ha : a = .call op) :
      Move s₀ a [] (s₀.coCurrent, s₀) (s₀.coCurrent, beginCall s₀ op)
  | skipId {cur : Option Nat} {s : St} (p : StackPool) :
      Move s₀ a [] (cur, s) (cur, { s with pool := p, nextId := s.nextId + 1 })
  | spawn {cur : Option Nat} {s s' : St} (h : Spawns s s') : Move s₀ a [] (cur, s) (cur, s')
  | finish {c : Nat} {s s' : St} (h : s' = coRoutineDestroy (coRoutineFinish s c) c) :
      Move s₀ a [] (some c, s) (none, s')
  | yieldNow {c : Nat} {op : Op} {s : St} (hb : Begins s₀ a s op)
      (hf : Frame.yieldNow.fits op.name = true) :
      Move s₀ a [] (some c, s)
        (none, coSchedulerEnqueue (s.modify c fun r => { r with frame := .yieldNow }) c)
  | block {c : Nat} {op : Op} {s s' : St} {r : Routine} (hb : Begins s₀ a s op)
      (hf : r.frame.fits op.name = true) (h : Blocks s s' c r)
      (hd : r.frame.timed = true → op.due = some r.wakeupTime)
      (hto : r.frame.isIo = true → r.timedOut = false) :
      Move s₀ a r.frame.objs (some c, s) (none, s')
  | drain {c : Nat} {s s' : St} {r : Routine} {x y : AsyncCtx}
      (hold : (s₀.co c).frame = .waitAsync y ∧ (s₀.co c).call = (s.co c).call ∧
        y.opType = x.opType)
      (hf : r.frame = .drainAsync x) (h : Blocks s s' c r) (ha : a.isSchedule = true) :
      Move s₀ a [] (some c, s) (none, s')
  | touch {c : Nat} {s s' : St} {r : Routine} (h : Touches s s' c r)
      (hs : r.state = (s.co c).state ∨ a.allocFails = true) :
      Move s₀ a [] (some c, s) (some c, s')
  | dispatch {c : Nat} {rest : List Nat} {s' : St} (h : Dispatches s₀ s' c rest)
      (ha : a.isSchedule = true) :
      Move s₀ a (s₀.co c).frame.objs (none, s₀) (some c, s')
  | relock {c m : Nat} {rest : List Nat} {f : Frame} {s' : St}
      (h : Relocks s₀ s' c rest m f) (ha : a.isSchedule = true) :
      Move s₀ a f.objs (none, s₀) (none, s')
  | expire {cur : Option Nat} {c : Nat} {s s' : St} (h : Expires s s' c)
      (ha : a.isTimers = true) :
      Move s₀ a (s.co c).frame.objs (cur, s) (cur, s')
  | dropTimer {cur : Option Nat} {c : Nat} {s : St} {h : TimerHeap}
      (hs : (s.co c).state ≠ .waiting) (hord : Heaped s.key h.entries)
      (hperm : h.entries.Perm (s.timerHeap.entries.erase c)) :
      Move s₀ a [] (cur, s) (cur, { s with timerHeap := h })
  | polled {cur : Option Nat} {c : Nat} {f : Frame} {s s' : St} (h : Polled s s' c f)
      (ha : a.isIdle = true) :
      Move s₀ a [] (cur, s) (cur, s')
  | take {cur : Option Nat} {m : Nat} {s : St} (hfree : (s.mutexes m).locked = false)
      (hcur : s.coCurrent = cur) (ha : mayTake s₀ a m) :
      Move s₀ a [.mutex m] (cur, s)
        (cur, (s.setMutex m ⟨true, s.coCurrent⟩).emit (.take m s.coCurrent))
  | unlock {cur : Option Nat} {m : Nat} {op : Op} {s : St} (ha : a = .call op)
      (hop : op.name.unlocked = some m)
      (hpre : SinceCall s₀ s op m)
      (hcur : s.coCurrent = s₀.coCurrent)
      (hl : (s.mutexes m).locked = true) (hq : s.queues (.mutex m) = []) :
      Move s₀ a [.mutex m] (cur, s)
        (cur, (s.emit (.release m s.coCurrent)).setMutex m ⟨false, none⟩)
  | handoff {cur : Option Nat} {m c : Nat} {rest : List Nat} {op : Op} {s : St}
      (ha : a = .call op)
      (hop : op.name.unlocked = some m)
      (hpre : SinceCall s₀ s op m)
      (hcur : s.coCurrent = s₀.coCurrent)
      (hl : (s.mutexes m).locked = true) (hq : s.queues (.mutex m) = c :: rest) :
      Move s₀ a [.mutex m] (cur, s)
        (cur, wakeAll (((s.emit (.release m s.coCurrent)).setMutex m
          { s.mutexes m with owner := some c }).emit (.handoff m c)) (.mutex m) [c] rest .wake)
  | notify {cur : Option Nat} {v : Nat} {ws rest : List Nat} {e : Event} {s : St}
      (hq : s.queues (.cond v) = ws ++ rest)
      (he : (e = .signal v (ws.map fun c => (s.co c).call) ∧ ws = (s.queues (.cond v)).take 1) ∨
        (e = .broadcast v (ws.map fun c => (s.co c).call) ∧ rest = []))
      (ha : ∃ op, a = .call op ∧ (op.name = .condSignal v ∨ op.name = .condBroadcast v)) :
      Move s₀ a [.cond v] (cur, s) (cur, wakeAll (s.emit e) (.cond v) ws rest .wakeCond)
  | placeHand {cur : Option Nat} {h c : Nat} {rest : List Nat} {data : Bytes} {op : Op} {s : St}
      (hb : Begins s₀ a s op) (hop : op.name = .send h ∨ op.name = .trysend h)
      (hcl : (s.chans h).closed = false) (hq : s.queues (.recv h) = c :: rest) :
      Move s₀ a [.chan h] (cur, s)
        (cur, wakeAll (deliver s h s₀.calls c data) (.recv h) [c] rest .wake)
  | placeRing {cur : Option Nat} {h : Nat} {data : Bytes} {op : Op} {s : St}
      (hb : Begins s₀ a s op) (hop : op.name = .send h ∨ op.name = .trysend h)
      (hcl : (s.chans h).closed = false) (hq : s.queues (.recv h) = [])
      (hroom : (s.chans h).count < (s.chans h).capacity) :
      Move s₀ a [.chan h] (cur, s)
        (cur, (s.setChan h ((s.chans h).pushTail s₀.calls data)).emit
          (.offer h s₀.calls (data.take (s.chans h).elemSize)))
  | takeRing {cur : Option Nat} {h : Nat} {op : Op} {s : St}
      (hb : Begins s₀ a s op) (hop : op.name = .recv h ∨ op.name = .tryrecv h)
      (hpos : 0 < (s.chans h).count) (hq : s.queues (.send h) = []) :
      Move s₀ a [.chan h] (cur, s)
        (cur, (s.storeHead h s₀.calls).setChan h (s.chans h).popHead)
  | takeRefill {cur : Option Nat} {h c : Nat} {rest : List Nat} {op : Op} {s : St}
      (hb : Begins s₀ a s op) (hop : op.name = .recv h ∨ op.name = .tryrecv h)
      (hpos : 0 < (s.chans h).count) (hq : s.queues (.send h) = c :: rest) :
      Move s₀ a [.chan h] (cur, s)
        (cur, wakeAll ((s.storeHead h s₀.calls).setChan h
          ((s.chans h).popHead.pushTail (s.co c).call (s.co c).chanData)) (.send h) [c] rest .wake)
  | takeMeet {cur : Option Nat} {h c : Nat} {rest : List Nat} {op : Op} {s : St}
      (hb : Begins s₀ a s op) (hop : op.name = .recv h ∨ op.name = .tryrecv h)
      (hzero : (s.chans h).count = 0) (hq : s.queues (.send h) = c :: rest) :
      Move s₀ a [.chan h] (cur, s)
        (cur, wakeAll (s.emit (.store h s₀.calls (s.co c).call
          ((s.co c).chanData.take (s.chans h).elemSize))) (.send h) [c] rest .wake)
  | close {cur : Option Nat} {h : Nat} {op : Op} {s : St}
      (hb : Begins s₀ a s op) (hop : op.name = .close h) (hcl : (s.chans h).closed = false) :
      Move s₀ a [.chan h] (cur, s)
        (cur, wakeAll (wakeAll ((s.setChan h { s.chans h with closed := true }).emit
          (.close h ((s.queues (.send h)).map fun c => (s.co c).element (s.chans h).elemSize)))
          (.recv h) (s.queues (.recv h)) [] .wake) (.send h) (s.queues (.send h)) [] .wake)

/-- What the end of a coroutine changes: its record, a counter and the pool. -/
theorem finish_eq (s : St) (c : Nat) :
    ∃ pool, coRoutineDestroy (coRoutineFinish s c) c =
      { s with
        co := Function.update s.co c
          { s.co c with state := .dead, stackBase := none, frame := .freed }
        activeRoutines := s.activeRoutines - 1
        pool := pool } := by
  simp only [coRoutineDestroy, coRoutineFinish, St.modify, Function.update_self]
  split
  · exact ⟨_, by simp; rfl⟩
  · exact ⟨s.pool, by simp⟩

/-- A sequence of moves. -/
def Moves (s₀ : St) (a : Act) : Option Nat × St → Option Nat × St → Prop :=
  Relation.ReflTransGen fun p p' => ∃ os, Move s₀ a os p p'

end Libco
