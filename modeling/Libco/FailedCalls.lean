import Libco.Deadlines

/-!
# Timed calls that fail before they suspend

`co_sleep`, `co_cond_timedwait` and an I/O wait with a deadline register themselves in
several places before they switch away, and undo that by hand when the timer heap cannot
grow or `co_iomux_add` fails. The first two then mark the running coroutine `READY`, and
the I/O wait does not take back its timer.
-/

namespace Libco
open Lib

variable {s t : St} {c : Nat}

/-- A call that suspends until a deadline. -/
def Op.timedWait : Op → Bool
  | .sleep msec _ _ => msec != 0
  | .condTimedwait _ _ timeoutMs _ _ => timeoutMs != 0
  | .io x => x.waits && decide (0 ≤ x.timeoutMs)
  | _ => false

/-- An I/O call whose timer does not fit, and the array of the heap cannot grow. -/
def Op.timerRefused (s : St) : Op → Bool
  | .io x => decide (s.timerHeap.capacity ≤ s.timerHeap.entries.length) && !x.reallocOk
  | _ => false

/-- What a failed call of `c` should leave as it was. -/
structure LeftAlone (s t : St) (c : Nat) : Prop where
  running : (t.co c).state = .running
  queues : t.queues = s.queues
  mutexes : t.mutexes = s.mutexes
  heap : t.timerHeap.entries = s.timerHeap.entries
  ioCount : t.waitingIoCount = s.waitingIoCount
  cond : (t.co c).condWaitQueue = (s.co c).condWaitQueue
  ioWaiting : (t.co c).ioWaiting = (s.co c).ioWaiting

/-! ## The timer heap -/

theorem heapSiftUpLoop_length {key : Nat → Nat} (heap : List Nat) (idx item : Nat)
    (hidx : idx < heap.length) : (heapSiftUpLoop key heap idx item hidx).length = heap.length := by
  fun_induction heapSiftUpLoop key heap idx item hidx with
  | case1 => simp
  | case2 => simp
  | case3 heap idx hidx h0 hp hgt ih => simpa using ih

/-- A push adds an entry, or fails because there is no room for it. -/
theorem coTimerHeapPush_cases (key : Nat → Nat) (h : TimerHeap) (c : Nat) (ok : Bool) :
    (coTimerHeapPush key h c ok = none ∧ h.capacity ≤ h.entries.length ∧ ok = false) ∨
      ∃ h', coTimerHeapPush key h c ok = some h' ∧ h'.entries.length = h.entries.length + 1 ∧
        ¬ (h.capacity ≤ h.entries.length ∧ ok = false) := by
  unfold coTimerHeapPush
  by_cases hfull : h.entries.length ≥ h.capacity
  · cases ok with
    | false => exact .inl ⟨by simp [hfull], hfull, rfl⟩
    | true =>
      refine .inr ⟨_, by rw [if_pos hfull]; rfl, ?_, by simp⟩
      simp [heapSiftUp, heapSiftUpLoop_length]
  · refine .inr ⟨_, by rw [if_neg hfull], ?_, fun h => hfull h.1⟩
    simp [heapSiftUp, heapSiftUpLoop_length]

/-! ## The three calls -/

/-- A failed sleep marks the coroutine `READY`. -/
theorem coSleep_failed {msec now : Nat} {ok : Bool} {r : Ret} (hcur : s.coCurrent = some c)
    (hm : msec ≠ 0) (hr : coSleep s msec now ok = .ret r t) : (t.co c).state = .ready := by
  unfold coSleep at hr
  rw [if_neg hm, hcur] at hr
  dsimp only at hr
  split at hr
  · cases hr
    simp [St.modify]
  · cases hr

theorem coCondTimedwait_failed {v m timeoutMs now : Nat} {ok : Bool} {r : Ret}
    (hcur : s.coCurrent = some c) (ht : timeoutMs ≠ 0)
    (hr : coCondTimedwait s v m timeoutMs now ok = .ret r t) : (t.co c).state = .ready := by
  unfold coCondTimedwait at hr
  rw [if_neg ht, hcur] at hr
  dsimp only at hr
  split at hr
  · cases hr
    simp [St.modify]
  · split at hr <;> cases hr

/-- The deadline part of an I/O wait leaves a timer behind, or finds no room. -/
theorem armTimer_cases {timeoutMs : Int} (now : Nat) (ok : Bool) (ht : 0 ≤ timeoutMs) :
    ∃ u, u.queues = s.queues ∧ u.mutexes = s.mutexes ∧ u.waitingIoCount = s.waitingIoCount ∧
      (u.co c).state = (s.co c).state ∧ (u.co c).condWaitQueue = (s.co c).condWaitQueue ∧
      ((armTimer s c timeoutMs now ok = (none, u) ∧ (u.co c).ioWaiting = false ∧
          u.timerHeap = s.timerHeap ∧
          s.timerHeap.capacity ≤ s.timerHeap.entries.length ∧ ok = false) ∨
        (armTimer s c timeoutMs now ok = (some c, u) ∧
          u.timerHeap.entries.length = s.timerHeap.entries.length + 1 ∧
          ¬ (s.timerHeap.capacity ≤ s.timerHeap.entries.length ∧ ok = false))) := by
  unfold armTimer
  simp only [ht, if_true]
  generalize hu : (s.modify c fun r => { r with timedOut := false, ioWaiting := false }).modify c
    (fun r => { r with wakeupTime := (now + timeoutMs.toNat) % 2 ^ 64, ioWaiting := true }) = u
  have hq : u.queues = s.queues ∧ u.mutexes = s.mutexes ∧ u.waitingIoCount = s.waitingIoCount ∧
      (u.co c).state = (s.co c).state ∧ (u.co c).condWaitQueue = (s.co c).condWaitQueue ∧
      u.timerHeap = s.timerHeap := by
    rw [← hu]
    simp [St.modify]
  obtain ⟨h1, h2, h3, h4, h5, h6⟩ := hq
  rcases coTimerHeapPush_cases u.key u.timerHeap c ok with ⟨hp, hfull⟩ | ⟨h, hp, hlen, hroom⟩
  · refine ⟨u.modify c fun r => { r with ioWaiting := false }, h1, h2, h3, ?_, ?_,
      .inl ⟨by rw [hp], ?_, h6, h6 ▸ hfull⟩⟩
    · simpa [St.modify] using h4
    · simpa [St.modify] using h5
    · simp [St.modify]
  · refine ⟨{ u with timerHeap := h }, h1, h2, h3, h4, h5, .inr ⟨by rw [hp], ?_, h6 ▸ hroom⟩⟩
    rw [← h6]
    exact hlen

theorem coWaitIo_failed {x : IoArgs} {r : Ret} (hcur : s.coCurrent = some c)
    (ht : 0 ≤ x.timeoutMs) (hr : coWaitIo s x = .ret r t) :
    LeftAlone s t c ↔ Op.timerRefused s (.io x) = true ∧ (s.co c).state = .running ∧
      (s.co c).ioWaiting = false := by
  unfold coWaitIo at hr
  rw [hcur] at hr
  dsimp only at hr
  obtain ⟨u, hq, hm, hio, hst, hcw, ⟨ha, hiw, hheap, hfull, hok⟩ | ⟨ha, hlen, hroom⟩⟩ :=
    armTimer_cases x.now x.reallocOk ht
  · rw [ha] at hr
    cases hr
    have href : Op.timerRefused s (.io x) = true := by simp [Op.timerRefused, hfull, hok]
    constructor
    · intro h
      exact ⟨href, hst.symm.trans h.running, h.ioWaiting.symm.trans hiw⟩
    · rintro ⟨-, hrun, hw⟩
      exact ⟨hst.trans hrun, hq, hm, by rw [hheap], hio, hcw, hiw.trans hw.symm⟩
  · -- the timer stays in the heap
    rw [ha] at hr
    have hkept : t.timerHeap = u.timerHeap := by
      dsimp only at hr
      split at hr
      · cases hr
      · rename_i e v _ hv
        cases hr
        unfold coIomuxAdd coIomuxMod at hv
        split at hv <;> split at hv <;> cases hv <;> rfl
    constructor
    · intro h
      have hsame := congrArg List.length h.heap
      rw [hkept] at hsame
      omega
    · rintro ⟨href, -, -⟩
      refine absurd ?_ hroom
      simpa [Op.timerRefused] using href

/-! ## Results -/

/-- The number a call gets is all it changes in a record. -/
theorem beginCall_record (s : St) (op : Op) (d : Nat) :
    (beginCall s op).co d = { s.co d with call := ((beginCall s op).co d).call } := by
  simp only [beginCall]
  split
  · rename_i c _
    by_cases hd : d = c <;> simp [St.modify, St.emit, hd]
  · rfl

theorem leftAlone_congr {u : St} (hq : u.queues = s.queues) (hm : u.mutexes = s.mutexes)
    (hh : u.timerHeap = s.timerHeap) (hio : u.waitingIoCount = s.waitingIoCount)
    (hc : (u.co c).condWaitQueue = (s.co c).condWaitQueue)
    (hw : (u.co c).ioWaiting = (s.co c).ioWaiting) : LeftAlone u t c ↔ LeftAlone s t c := by
  constructor
  · rintro ⟨h1, h2, h3, h4, h5, h6, h7⟩
    exact ⟨h1, h2.trans hq, h3.trans hm, h4.trans (by rw [hh]), h5.trans hio, h6.trans hc,
      h7.trans hw⟩
  · rintro ⟨h1, h2, h3, h4, h5, h6, h7⟩
    exact ⟨h1, h2.trans hq.symm, h3.trans hm.symm, h4.trans (by rw [hh]), h5.trans hio.symm,
      h6.trans hc.symm, h7.trans hw.symm⟩

/-- **Failed timed calls.** Of the calls with a deadline that return without suspending, in
whatever state, those leave everything alone that are I/O waits whose timer found no room,
made by a coroutine marked `RUNNING` and not `io_waiting`. -/
theorem failed_timed_call_iff {op : Op} {r : Ret} (hcur : s.coCurrent = some c)
    (hop : op.timedWait = true) (hr : runOp (beginCall s op) s.calls op = .ret r t) :
    LeftAlone s t c ↔
      op.timerRefused s = true ∧ (s.co c).state = .running ∧ (s.co c).ioWaiting = false := by
  have hcur' : (beginCall s op).coCurrent = some c := by rw [beginCall_coCurrent, hcur]
  -- a sleep and a timed wait on a condition always fail to leave the state
  have hready : (t.co c).state = .ready → op.timerRefused s = false →
      (LeftAlone s t c ↔
        op.timerRefused s = true ∧ (s.co c).state = .running ∧ (s.co c).ioWaiting = false) := by
    intro hst href
    constructor
    · intro h
      have := h.running
      rw [hst] at this
      cases this
    · rintro ⟨h, -, -⟩
      rw [href] at h
      cases h
  cases op with
  | sleep msec now ok =>
    exact hready (coSleep_failed hcur' (by simpa [Op.timedWait] using hop) hr) rfl
  | condTimedwait v m timeoutMs now ok =>
    exact hready (coCondTimedwait_failed hcur' (by simpa [Op.timedWait] using hop) hr) rfl
  | io x =>
    simp only [Op.timedWait, Bool.and_eq_true, decide_eq_true_eq] at hop
    obtain ⟨hw, ht⟩ := hop
    have hwait : ∃ r', coWaitIo (beginCall s (.io x)) x = .ret r' t := by
      simp only [runOp, coIo_of_waits hw] at hr
      split at hr
      · rename_i e u hu
        cases hr
        exact ⟨_, hu⟩
      · exact ⟨r, hr⟩
    obtain ⟨r', hwait⟩ := hwait
    have hrec := beginCall_record s (.io x) c
    have hheap := (beginCall_kernel s (.io x)).1
    have hio : (beginCall s (.io x)).waitingIoCount = s.waitingIoCount := by
      simp only [beginCall]
      split <;> rfl
    rw [← leftAlone_congr (u := beginCall s (.io x)) (beginCall_queues s _) (beginCall_mutexes s _)
      hheap hio (by rw [hrec]) (by rw [hrec]), coWaitIo_failed hcur' ht hwait, hrec]
    simp only [Op.timerRefused, hheap]
  | _ => cases hop

/-- What a call that does not suspend returns, and the state then. -/
def Outcome.result : Outcome → Option (Ret × St)
  | .ret r t => some (r, t)
  | _ => none

theorem Outcome.eq_ret {o : Outcome} {r : Ret} (h : o.result = some (r, t)) : o = .ret r t := by
  cases o with
  | ret r' t' =>
    simp only [Outcome.result, Option.some.injEq, Prod.mk.injEq] at h
    rw [h.1, h.2]
  | swap t' => cases h
  | abort => cases h

/-- Sixteen coroutines sleep, which fills the array of the timer heap, and a seventeenth
runs. -/
def sleepersRun : List Act :=
  List.replicate 17 spawnOk ++ [Act.run] ++
    (List.replicate 16 (turn ++ [Act.call (.sleep 100 0 true)])).flatten ++ turn

/-- `co_read` with a deadline when `realloc` fails. -/
def refusedRead : Op := .io ⟨.read, 5, true, 10, .fail .eagain, 0, false, true⟩

theorem failed_timed_call_iff_read :
    ∃ s t r, runActs step (init (byteConfig 0)) sleepersRun = some s ∧ s.coCurrent = some 17 ∧
      runOp (beginCall s refusedRead) s.calls refusedRead = .ret r t ∧
      refusedRead.timerRefused s = true ∧ LeftAlone s t 17 := by
  have hrun : ((runActs step (init (byteConfig 0)) sleepersRun).bind fun s =>
      (runOp (beginCall s refusedRead) s.calls refusedRead).result.map fun x =>
        (s.coCurrent, refusedRead.timerRefused s, (s.co 17).state, (s.co 17).ioWaiting)) =
      some (some 17, true, .running, false) := by
    decide +kernel
  obtain ⟨s, hs, hrun⟩ := Option.bind_eq_some_iff.mp hrun
  obtain ⟨⟨r, t⟩, hr, he⟩ := Option.map_eq_some_iff.mp hrun
  simp only [Prod.mk.injEq] at he
  obtain ⟨hcur, href, hst, hio⟩ := he
  have hret := Outcome.eq_ret hr
  exact ⟨s, t, r, hs, hcur, hret, href,
    (failed_timed_call_iff hcur rfl hret).mpr ⟨href, hst, hio⟩⟩

/-- `co_sleep` when `realloc` fails, and `co_read` with a deadline when `epoll_ctl` does. -/
def refusedSleep : Op := .sleep 100 0 false
def unregisteredRead : Op := .io ⟨.read, 5, true, 10, .fail .eagain, 0, true, false⟩

/-- The running coroutine is `READY` after the sleep that failed, and has a timer after the
read that failed. -/
theorem failed_timed_call_changes :
    (∃ s t r, runActs step (init (byteConfig 0)) sleepersRun = some s ∧ s.coCurrent = some 17 ∧
      runOp (beginCall s refusedSleep) s.calls refusedSleep = .ret r t ∧
      r = .code .nomem ∧ (s.co 17).state = .running ∧ (t.co 17).state = .ready ∧
      ¬ LeftAlone s t 17) ∧
    ∃ s t r, runActs step (init (byteConfig 0)) ([spawnOk, .run] ++ turn) = some s ∧
      s.coCurrent = some 1 ∧
      runOp (beginCall s unregisteredRead) s.calls unregisteredRead = .ret r t ∧
      r = .sys (-1) (some .eio) ∧ s.timerHeap.entries = [] ∧ t.timerHeap.entries = [1] ∧
      ¬ LeftAlone s t 1 := by
  constructor
  · have hrun : ((runActs step (init (byteConfig 0)) sleepersRun).bind fun s =>
        (runOp (beginCall s refusedSleep) s.calls refusedSleep).result.map fun x =>
          (s.coCurrent, x.1, (s.co 17).state, (x.2.co 17).state)) =
        some (some 17, .code .nomem, .running, .ready) := by
      decide +kernel
    obtain ⟨s, hs, hrun⟩ := Option.bind_eq_some_iff.mp hrun
    obtain ⟨⟨r, t⟩, hr, he⟩ := Option.map_eq_some_iff.mp hrun
    simp only [Prod.mk.injEq] at he
    obtain ⟨hcur, hret, hst, hst'⟩ := he
    refine ⟨s, t, r, hs, hcur, Outcome.eq_ret hr, hret, hst, hst', fun h => ?_⟩
    rw [h.running] at hst'
    cases hst'
  · have hrun : ((runActs step (init (byteConfig 0)) ([spawnOk, .run] ++ turn)).bind fun s =>
        (runOp (beginCall s unregisteredRead) s.calls unregisteredRead).result.map fun x =>
          (s.coCurrent, x.1, s.timerHeap.entries, x.2.timerHeap.entries)) =
        some (some 1, .sys (-1) (some .eio), [], [1]) := by
      decide +kernel
    obtain ⟨s, hs, hrun⟩ := Option.bind_eq_some_iff.mp hrun
    obtain ⟨⟨r, t⟩, hr, he⟩ := Option.map_eq_some_iff.mp hrun
    simp only [Prod.mk.injEq] at he
    obtain ⟨hcur, hret, hheap, hheap'⟩ := he
    refine ⟨s, t, r, hs, hcur, Outcome.eq_ret hr, hret, hheap, hheap', fun h => ?_⟩
    have := h.heap
    rw [hheap, hheap'] at this
    cases this

end Libco
