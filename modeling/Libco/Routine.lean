import Libco.Queue
import Libco.Timer

/-!
# `co_routine.c` and `co_stack_pool.c`

Creation, yielding, sleeping and completion of coroutines, and the pool their
stacks come from. Outcomes of `malloc`, `calloc`, `realloc` and
`co_context_init`, and clock values, are arguments.
-/

namespace Libco

/-! ## Stack pool -/

def coStackPoolAlloc (p : StackPool) (malloc : Option Nat) : Option Nat × StackPool :=
  let p := { p with totalAllocs := p.totalAllocs + 1 }
  match p.stacks.getLast? with
  | some b =>
    (some b, { p with
      cacheHits := p.cacheHits + 1, currentUsed := p.currentUsed + 1,
      «stacks» := p.stacks.dropLast })
  | none =>
    (malloc, { p with cacheMisses := p.cacheMisses + 1, currentUsed := p.currentUsed + 1 })

def coStackPoolFree (p : StackPool) (stack : Nat) : StackPool :=
  let p := { p with totalFrees := p.totalFrees + 1, currentUsed := p.currentUsed - 1 }
  if p.stacks.length < p.capacity then { p with «stacks» := p.stacks ++ [stack] } else p

/-! ## Ready queue -/

/-- `co_scheduler_enqueue`. -/
def coSchedulerEnqueue (s : St) (c : Nat) : St :=
  ((coQueuePushBack s .ready c).modify c fun r => { r with state := .ready }).emit (.ready c)

/-- The wake-up of `co_channel.c`, and the same two statements in `co_mutex.c`
and `co_cond.c`. -/
def wakeRoutine (s : St) (c : Nat) : St :=
  (coQueuePushBack (s.modify c fun r => { r with state := .ready }) .ready c).emit (.ready c)

theorem wakeRoutine_eq (s : St) (c : Nat) : wakeRoutine s c = coSchedulerEnqueue s c := rfl

/-- `while ((node = co_queue_pop_front(q)) != NULL) wake(node)`, for at most as
many nodes as the first argument. -/
def drainQueue (wake : St → Nat → St) (q : QueueRef) : Nat → St → St
  | 0, s => s
  | n + 1, s =>
    match coQueuePopFront s q with
    | (none, s) => s
    | (some c, s) => drainQueue wake q n (wake s c)

/-- The order of the timer heap: the coroutines' `wakeup_time` fields. -/
def Sched.key (s : Sched) (c : Nat) : Nat := (s.co c).wakeupTime

/-! ## Creation and completion -/

/-- What the environment answers to the allocations of `co_spawn`. -/
structure SpawnEnv where
  stackSize : Nat
  calloc : Bool
  malloc : Option Nat
  contextInit : Bool

/-- `co_spawn` on the scheduler, with `co_routine_init`; the result is the new
coroutine, `none` for `NULL`. -/
def coSpawn (s : St) (e : SpawnEnv) : Option Nat × St :=
  if e.calloc then
    let size := if e.stackSize = 0 then s.defaultStackSize else e.stackSize
    match coStackPoolAlloc s.pool e.malloc with
    | (none, p) => (none, { s with pool := p })
    | (some b, p) =>
      let c := s.nextId
      let s := { s with pool := p, nextId := s.nextId + 1 }
      if e.contextInit then
        let s := s.modify c fun _ =>
          { Routine.zero with stackBase := some b, stackSize := size, frame := .entry }
        let s := { s with
          totalRoutines := s.totalRoutines + 1, activeRoutines := s.activeRoutines + 1 }
        (some c, coSchedulerEnqueue s c)
      else (none, { s with pool := coStackPoolFree p b })
  else (none, s)

/-- `co_routine_destroy` followed by `free`. -/
def coRoutineDestroy (s : St) (c : Nat) : St :=
  let s := match (s.co c).stackBase with
    | some b => { s with pool := coStackPoolFree s.pool b }
    | none => s
  s.modify c fun r => { r with stackBase := none, frame := .freed }

/-- `co_routine_finish` of the running coroutine. -/
def coRoutineFinish (s : St) (c : Nat) : St :=
  let s := s.modify c fun r => { r with state := .dead }
  { s with activeRoutines := s.activeRoutines - 1 }

/-! ## Yield and sleep -/

def coYieldNow (s : St) : Outcome :=
  match s.coCurrent with
  | none => .ret (.code .error) s
  | some c => .swap (coSchedulerEnqueue (s.modify c fun r => { r with frame := .yieldNow }) c)

def coSleep (s : St) (msec now : Nat) (reallocOk : Bool) : Outcome :=
  if msec = 0 then coYieldNow s
  else match s.coCurrent with
    | none => .ret (.code .error) s
    | some c =>
      let s := s.modify c fun r =>
        { r with wakeupTime := (now + msec) % 2 ^ 64, state := .waiting }
      match coTimerHeapPush s.key s.timerHeap c reallocOk with
      | none => .ret (.code .nomem) (s.modify c fun r => { r with state := .ready })
      | some h =>
        .swap { s.modify c (fun r => { r with frame := .sleep }) with timerHeap := h }

end Libco
