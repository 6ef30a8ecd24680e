import Mathlib.Algebra.Group.Int.Defs
import Mathlib.Algebra.Group.Nat.Defs
import Mathlib.Data.List.Basic
import Mathlib.Logic.Function.Basic

/-!
# The data model

The records of `co.h`, `co_routine.h`, `co_scheduler.h`, `co_timer.h`,
`co_mutex.h`, `co_channel.h`, `co_iomux.h` and `co_stack_pool.c`. A condition
variable is nothing but its wait queue.

A coroutine is named by its `id` field, other objects by numbers. Queues are
lists of coroutines, all held in one table, because every coroutine has a
single `queue_node` that the ready queue and all wait queues share. What a
suspended coroutine has on its stack is its `Frame`; `call` and the `Event`s
are history, read by no function of the library. Null arguments, which every
function refuses with `CO_ERROR_INVAL`, do not occur.
-/

namespace Libco

/-- `co_error_t`. -/
inductive CoError where
  | ok | error | nomem | inval | platform | timeout | cancelled | busy | closed
  deriving DecidableEq, Repr

/-- `co_state_t`. -/
inductive CoState where
  | ready | running | sleeping | waiting | dead
  deriving DecidableEq, Repr

/-- The `co_queue_t` objects: the scheduler's `ready_queue` and the wait queues
of mutexes, condition variables and channels. -/
inductive QueueRef where
  | ready
  | mutex (m : Nat)
  | cond (v : Nat)
  | send (h : Nat)
  | recv (h : Nat)
  deriving DecidableEq, Repr

/-- Memory from a pointer on. -/
abbrev Bytes := Nat → UInt8

/-- The first `n` bytes at a pointer. -/
def Bytes.take (d : Bytes) (n : Nat) : List UInt8 := (List.range n).map d

/-! ## I/O waits -/

/-- `errno` values the library sets or tests; every other one is `other`. -/
inductive Errno where
  | eagain | einprogress | einval | etimedout | eio
  | other (n : Nat)
  deriving DecidableEq, Repr

/-- A set of `co_io_event_t` flags. -/
structure IoEvents where
  read : Bool
  write : Bool
  error : Bool
  deriving DecidableEq, Repr

/-- The four coroutine-aware calls. -/
inductive IoCall where
  | read | write | accept | connect
  deriving DecidableEq, Repr

/-- `co_io_wait_ctx_t`, epoll part, with the call it serves. -/
structure IoWaitCtx where
  call : IoCall
  fd : Int
  events : IoEvents
  revents : IoEvents
  timeoutMs : Int
  deriving DecidableEq, Repr

/-- `co_io_wait_ctx_t`, IOCP part. -/
structure AsyncCtx where
  opType : IoCall
  fd : Nat
  revents : IoEvents
  timeoutMs : Int
  bytesTransferred : Nat
  deriving DecidableEq, Repr

/-! ## Coroutines -/

/-- Where a coroutine stands in its code. `user` is its own code, `entry` the
start of it; the others are suspended inside the library, with the arguments
and locals they still need, and are written where the code sets the state of a
coroutine that goes on to switch away. `absent` was never created, `freed` has
been released. -/
inductive Frame where
  | absent
  | freed
  | user
  | entry
  | yieldNow
  | sleep
  | lock (m : Nat)
  | condWait (v m : Nat)
  | condRelock (v m : Nat)
  | timedWait (v m : Nat)
  | timedRelock (v m : Nat)
  | send (h : Nat)
  | recv (h : Nat)
  | waitIo (x : IoWaitCtx)
  | waitAsync (x : AsyncCtx)
  | drainAsync (x : AsyncCtx)
  deriving DecidableEq, Repr

/-- `co_routine_t`. `condWaitQueue` points at the wait queue of a condition
variable; `chanData` is the memory the `chan_data` pointer names. -/
structure Routine where
  state : CoState
  stackBase : Option Nat
  stackSize : Nat
  wakeupTime : Nat
  chanData : Bytes
  condWaitQueue : Option Nat
  timedOut : Bool
  ioWaiting : Bool
  frame : Frame
  call : Nat

/-- A coroutine that was never allocated; `calloc` clears every field. -/
def Routine.zero : Routine :=
  { state := .ready, stackBase := none, stackSize := 0, wakeupTime := 0,
    chanData := fun _ => 0, condWaitQueue := none, timedOut := false,
    ioWaiting := false, frame := .absent, call := 0 }

/-! ## Scheduler -/

/-- `co_timer_heap_t`: `entries` is the array below `count`. -/
structure TimerHeap where
  entries : List Nat
  capacity : Nat
  deriving DecidableEq, Repr

/-- Where control is: outside `co_scheduler_run`, at the head of its loop,
after the timer phase with the ready queue empty (`idle`, with the clock value
of this iteration) or not (`dispatch`), in a coroutine's own code, or stopped
by a failed assertion or an access to a freed coroutine. -/
inductive Ctl where
  | outside
  | loop
  | idle (now : Nat)
  | dispatch
  | running (c : Nat)
  | aborted
  deriving DecidableEq, Repr

/-- `co_scheduler_t` with its coroutines and all queues. -/
structure Sched where
  ctl : Ctl
  co : Nat → Routine
  queues : QueueRef → List Nat
  timerHeap : TimerHeap
  defaultStackSize : Nat
  shouldStop : Bool
  totalRoutines : Nat
  activeRoutines : Nat
  switchCount : Nat
  waitingIoCount : Nat
  nextId : Nat

/-! ## Synchronisation objects, multiplexers, stack pool -/

/-- `co_mutex_t` without its queue; an owner outside any coroutine is `none`. -/
structure Mutex where
  locked : Bool
  owner : Option Nat
  deriving DecidableEq, Repr

/-- `co_channel_t` without its queues. `tags` is history: the send call whose
element was last copied into a slot of the ring. -/
structure Channel where
  elemSize : Nat
  capacity : Nat
  buffer : Bytes
  head : Nat
  tail : Nat
  count : Nat
  closed : Bool
  tags : Nat → Nat

/-- A `struct epoll_event` the kernel keeps for a descriptor: the interest mask
and `data.ptr`. The wait context `data.ptr` names lives on the stack of one
coroutine during one call. -/
structure Registration where
  epollin : Bool
  epollout : Bool
  ptr : Nat × Nat
  deriving DecidableEq, Repr

/-- Events `epoll_wait` reports for a descriptor. -/
structure EpollEvents where
  epollin : Bool
  epollout : Bool
  epollerr : Bool
  epollhup : Bool
  deriving DecidableEq, Repr

/-- The IOCP multiplexer: `associated_sockets` below `associated_count`, and
the operations the kernel still owns, each by its wait context. -/
structure Iocp where
  associatedSockets : List Nat
  inFlight : List (Nat × Nat)
  deriving DecidableEq, Repr

/-- A completion packet: the wait context found from its `OVERLAPPED`, the
byte count, and whether `Internal` is non-zero. -/
structure Packet where
  ptr : Nat × Nat
  bytes : Nat
  failed : Bool
  deriving DecidableEq, Repr

/-- `co_stack_pool_t` with its statistics; `stacks` is the array below `count`. -/
structure StackPool where
  stackSize : Nat
  «stacks» : List Nat
  capacity : Nat
  totalAllocs : Nat
  totalFrees : Nat
  cacheHits : Nat
  cacheMisses : Nat
  currentUsed : Nat
  deriving DecidableEq, Repr

/-! ## History -/

/-- What an API call hands back: an error code, or the value of a system call
with `errno`. -/
inductive Ret where
  | code (e : CoError)
  | sys (n : Int) (errno : Option Errno)
  deriving DecidableEq, Repr

/-- The functions of the API, with the objects they are called on. -/
inductive OpName where
  | yieldNow
  | sleep
  | lock (m : Nat)
  | trylock (m : Nat)
  | unlock (m : Nat)
  | condWait (v m : Nat)
  | condTimedwait (v m : Nat)
  | condSignal (v : Nat)
  | condBroadcast (v : Nat)
  | send (h : Nat)
  | trysend (h : Nat)
  | recv (h : Nat)
  | tryrecv (h : Nat)
  | close (h : Nat)
  | io (call : IoCall)
  deriving DecidableEq, Repr

/-- History events. Calls are numbered; `w : Option Nat` is a caller, `none`
outside any coroutine.

* `call k w op` and `ret k r`: call `k` began, and returned `r`.
* `take m w`: a lock or trylock found `m` free; `wait m c`: `c` blocked on it;
  `handoff m c`: an unlock passed it to `c`; `enter m c`: the blocked lock of
  `c` returned; `release m w`: `w` unlocked it, or gave it up in a condition wait.
* `waits v m c k`: wait `k` of `c` on `v` with mutex `m` began; `signal` and
  `broadcast` list the waits they ended; `expire v k`: the timer phase ended `k`.
* `offer h k d`: send `k` was not refused; `store h r k d`: the element of send
  `k` was copied to the buffer of receive `r`; `recvWait h r` and `serve h r`: a
  receive blocked, and was handed its element; `close h es`: the elements of
  blocked sends that close dropped, with their calls. -/
inductive Event where
  | spawned (c : Option Nat)
  | ready (c : Nat)
  | dispatch (c : Nat)
  | finish (c : Nat)
  | tick (now : Nat)
  | poll (timeoutMs : Int)
  | runRet (e : CoError)
  | call (k : Nat) (w : Option Nat) (op : OpName)
  | ret (k : Nat) (r : Ret)
  | take (m : Nat) (w : Option Nat)
  | wait (m c : Nat)
  | handoff (m c : Nat)
  | enter (m c : Nat)
  | release (m : Nat) (w : Option Nat)
  | waits (v m c k : Nat)
  | signal (v : Nat) (ended : List Nat)
  | broadcast (v : Nat) (ended : List Nat)
  | expire (v k : Nat)
  | offer (h k : Nat) (d : List UInt8)
  | store (h r k : Nat) (d : List UInt8)
  | recvWait (h r : Nat)
  | serve (h r : Nat)
  | close (h : Nat) (dropped : List (Nat × List UInt8))
  deriving DecidableEq, Repr

/-- Everything: one scheduler, the objects its coroutines use, the kernel's
side of the multiplexers, and the history. -/
structure St extends Sched where
  mutexes : Nat → Mutex
  chans : Nat → Channel
  epoll : Int → Option Registration
  iocp : Iocp
  pool : StackPool
  calls : Nat
  trace : List Event

/-! ## Elementary updates -/

def St.emit (s : St) (e : Event) : St := { s with trace := s.trace ++ [e] }

def St.modify (s : St) (c : Nat) (f : Routine → Routine) : St :=
  { s with co := Function.update s.co c (f (s.co c)) }

def St.setMutex (s : St) (m : Nat) (x : Mutex) : St :=
  { s with mutexes := Function.update s.mutexes m x }

def St.setChan (s : St) (h : Nat) (x : Channel) : St :=
  { s with chans := Function.update s.chans h x }

/-- `co_current`: the coroutine whose code is running. -/
def St.coCurrent (s : St) : Option Nat :=
  match s.ctl with
  | .running c => some c
  | _ => none

/-- How a piece of library code ends: it returns to its caller, or switches to
the scheduler's context, or an assertion fails. -/
inductive Outcome where
  | ret (r : Ret) (s : St)
  | swap (s : St)
  | abort

end Libco
