import Libco.Plain

/-!
# The timer heap and the I/O counter over whole runs

As long as no timed I/O wait leaves its timer behind, the timer heap holds
pending deadlines only, and `waiting_io_count` is the number of coroutines
suspended in I/O. A step that leaves a timer behind breaks the first of the two
at once, and the second when that timer fires.
-/

namespace Libco
open Lib

variable {run : Prop} {s s' : St} {a : Act} {c : Nat}

/-- No timed I/O wait leaves its timer behind. -/
def leakless (s : St) (a : Act) : Bool := !leaks s a

/-- States of the runs without leaks, on either backend. -/
def Leakless (cfg : Config) : St → Prop := Reach step (fun s a => leakless s a = true) (init cfg)

theorem Leakless.placed {cfg : Config} (h : Leakless cfg s) : Placed False s :=
  h.invariant (placed_init cfg) fun _ _ _ hp hg hs =>
    hp.step (fun h => h.elim) (by simpa [leakless] using hg) hs

/-! ## The timer heap -/

/-- In a timed wait, or just woken out of one and not dispatched since. -/
def inTimed (r : Routine) : Prop :=
  r.frame.timed = true ∧ (r.state = .waiting ∨ r.state = .ready)

structure TimersValid (s : St) : Prop where
  live : ∀ c ∈ s.timerHeap.entries, (s.co c).unfinished = true
  current : ∀ c ∈ s.timerHeap.entries, inTimed (s.co c)
  /-- a pending timed wait has its entry -/
  armed : ∀ c, (s.co c).mustTimer = true → c ∈ s.timerHeap.entries
  once : s.timerHeap.entries.Nodup
  ordered : Heaped s.key s.timerHeap.entries

theorem Placed.timersValid (h : Placed run s) : TimersValid s := by
  obtain ⟨cur, hi, -⟩ := h
  have hcur : ∀ c ∈ s.timerHeap.entries, inTimed (s.co c) := by
    intro c hc
    have ht := (Routine.timed_of_mayTimer (hi.mem_heap hc)).1
    refine ⟨ht, ?_⟩
    rcases (hi.seated c).state (Frame.timed_suspended ht) with h | ⟨h, -⟩
    · exact .inr h
    · exact .inl h
  refine ⟨fun c hc => ?_, hcur, fun c hc => ?_, hi.nodup_heap, hi.ordered⟩
  · exact unfinished_of_suspended (Frame.timed_suspended (hcur c hc).1)
  · exact List.count_pos_iff.mp ((hi.seated c).timer_must hc)

/-- **Timer-heap validity.** -/
theorem timer_heap_valid {cfg : Config} (h : Leakless cfg s) : TimersValid s :=
  h.placed.timersValid

/-- `co_read` on a descriptor without data. -/
def readWait (fd timeoutMs : Int) (now : Nat) : Act :=
  .call (.io ⟨.read, fd, true, timeoutMs, .fail .eagain, now, true, true⟩)

/-- One poll that reports a readable descriptor, or an error on it. -/
def pollReadable (fd : Int) : List Act :=
  [.timers 0, .idle (.events [(fd, ⟨true, false, false, false⟩)])]
def pollError (fd : Int) : List Act :=
  [.timers 0, .idle (.events [(fd, ⟨false, false, true, false⟩)])]

/-- A timed read ends by its event, and its coroutine goes to sleep. -/
def timedReadRun : List Act :=
  [spawnOk, .run] ++ turn ++ [readWait 5 10 0] ++ pollReadable 5 ++ turn ++
    [Act.call (.sleep 7 0 true)]

theorem timer_heap_valid_timed_read :
    ∃ s, runGuarded step leakless (init (byteConfig 0)) timedReadRun = some s ∧
      s.timerHeap.entries = [1] ∧ (s.co 1).wakeupTime = 7 ∧ TimersValid s := by
  have hrun : (runGuarded step leakless (init (byteConfig 0)) timedReadRun).map
      (fun s => (s.timerHeap.entries, (s.co 1).wakeupTime)) = some ([1], 7) := by
    decide +kernel
  obtain ⟨s, hs, he⟩ := Option.map_eq_some_iff.mp hrun
  simp only [Prod.mk.injEq] at he
  exact ⟨s, hs, he.1, he.2, timer_heap_valid (reach_of_runGuarded hs)⟩

/-- A timed read ends by an error event, and its coroutine finishes. -/
def errorExitRun : List Act :=
  [spawnOk, .run] ++ turn ++ [readWait 5 10 0] ++ pollError 5 ++ turn ++ [Act.finish]

/-- The freed coroutine is still in the heap, and the next timer phase reads it. -/
theorem timer_heap_freed_entry :
    ∃ s, runActs step (init (byteConfig 0)) errorExitRun = some s ∧
      s.timerHeap.entries = [1] ∧ (s.co 1).frame = .freed ∧ ¬ TimersValid s ∧
      (step s (.timers 0)).map (fun t => t.ctl) = some .aborted := by
  have hrun : (runActs step (init (byteConfig 0)) errorExitRun).map
      (fun s => (s.timerHeap.entries, (s.co 1).frame,
        (step s (.timers 0)).map fun t => t.ctl)) = some ([1], .freed, some .aborted) := by
    decide +kernel
  obtain ⟨s, hs, he⟩ := Option.map_eq_some_iff.mp hrun
  simp only [Prod.mk.injEq] at he
  obtain ⟨hheap, hf, hab⟩ := he
  refine ⟨s, hs, hheap, hf, fun hv => ?_, hab⟩
  have := hv.live 1 (by simp [hheap])
  simp [Routine.unfinished, hf] at this

/-! ## The I/O counter -/

/-- The number of coroutines suspended inside an I/O wait. -/
def ioWaiters (s : St) : Nat := countOn Routine.ioSuspended s.co s.nextId

structure IoCountExact (s : St) : Prop where
  exact : s.waitingIoCount = ioWaiters s
  /-- whoever counts has been created -/
  created : ∀ c, (s.co c).ioSuspended = true → c < s.nextId
  /-- there is something to take off while somebody waits, and nothing otherwise -/
  positive : ∀ c, (s.co c).ioSuspended = true → 0 < s.waitingIoCount
  zero : (∀ c, (s.co c).ioSuspended = false) → s.waitingIoCount = 0

theorem ioWaiters_pos (hc : c < s.nextId) (h : (s.co c).ioSuspended = true) : 0 < ioWaiters s := by
  refine Nat.pos_of_ne_zero fun hz => ?_
  have := countOn_eq_zero.mp hz c hc
  rw [h] at this
  cases this

theorem Placed.ioCountExact (h : Placed run s) (hlt : ioWaiters s < 2 ^ 32) : IoCountExact s := by
  obtain ⟨cur, hi, -⟩ := h
  have hex : s.waitingIoCount = ioWaiters s := by
    rw [hi.ioCount]
    exact Nat.mod_eq_of_lt hlt
  have hcr : ∀ c, (s.co c).ioSuspended = true → c < s.nextId := by
    intro c hc
    refine hi.lt_nextId fun hf => ?_
    simp [Routine.ioSuspended, hf, Frame.isIo] at hc
  refine ⟨hex, hcr, fun c hc => ?_, fun hn => ?_⟩
  · rw [hex]
    exact ioWaiters_pos (hcr c hc) hc
  · rw [hex]
    exact countOn_eq_zero.mpr fun c _ => hn c

/-- **The I/O counter is exact.** -/
theorem waiting_io_count_exact {cfg : Config} (h : Leakless cfg s) (hlt : ioWaiters s < 2 ^ 32) :
    IoCountExact s :=
  h.placed.ioCountExact hlt

/-- One coroutine reads with a deadline, another without. -/
def twoReadersRun : List Act :=
  [spawnOk, spawnOk, .run] ++ turn ++ [readWait 5 10 0] ++ turn ++ [readWait 6 (-1) 0]

theorem waiting_io_count_two :
    ∃ s, runGuarded step leakless (init (byteConfig 0)) twoReadersRun = some s ∧
      s.waitingIoCount = 2 ∧ IoCountExact s := by
  have hrun : (runGuarded step leakless (init (byteConfig 0)) twoReadersRun).map
      (fun s => (s.waitingIoCount, ioWaiters s)) = some (2, 2) := by
    decide +kernel
  obtain ⟨s, hs, he⟩ := Option.map_eq_some_iff.mp hrun
  simp only [Prod.mk.injEq] at he
  refine ⟨s, hs, he.1, waiting_io_count_exact (reach_of_runGuarded hs) ?_⟩
  rw [he.2]
  decide

/-- epoll: the timer an error exit left behind ends a later wait without deadline,
and nothing is taken off the counter. -/
def staleTimerRun : List Act :=
  [spawnOk, .run] ++ turn ++ [readWait 5 10 0] ++ pollError 5 ++ turn ++
    [readWait 5 (-1) 0, .timers 10]

/-- IOCP: a submission is refused with `io_waiting` set, and the timer fires in a
wait for a mutex. -/
def staleFlagRun : List Act :=
  [spawnOk, .call (.mutexLock 0), .run] ++ turn ++
    [Act.call (.ioAsync ⟨.read, 5, true, true, 10, 0, true, true, false⟩),
      .call (.mutexLock 0), .timers 10]

theorem waiting_io_count_wrong :
    (∃ s, runActs step (init (byteConfig 0)) staleTimerRun = some s ∧ ioWaiters s = 0 ∧
      s.waitingIoCount = 1 ∧ ¬ IoCountExact s) ∧
    ∃ s, runActs step (init (byteConfig 0)) staleFlagRun = some s ∧ ioWaiters s = 0 ∧
      s.waitingIoCount = 2 ^ 32 - 1 ∧ ¬ IoCountExact s := by
  have hrun : (runActs step (init (byteConfig 0)) staleTimerRun).map
      (fun s => (ioWaiters s, s.waitingIoCount)) = some (0, 1) := by
    decide +kernel
  have hrun' : (runActs step (init (byteConfig 0)) staleFlagRun).map
      (fun s => (ioWaiters s, s.waitingIoCount)) = some (0, 2 ^ 32 - 1) := by
    decide +kernel
  obtain ⟨s, hs, he⟩ := Option.map_eq_some_iff.mp hrun
  obtain ⟨s', hs', he'⟩ := Option.map_eq_some_iff.mp hrun'
  simp only [Prod.mk.injEq] at he he'
  refine ⟨⟨s, hs, he.1, he.2, fun h => ?_⟩, s', hs', he'.1, he'.2, fun h => ?_⟩
  · have := h.exact
    omega
  · have := h.exact
    omega

end Libco
