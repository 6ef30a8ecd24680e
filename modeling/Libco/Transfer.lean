import Libco.Placement

/-!
# Moves between containers

What the library does to a coroutine, as rules for the invariant of
`Libco.Placement`: it is woken out of a wait queue, suspends, is made ready by
its deadline or by an event, is dispatched, is created, finishes. The
hypotheses give the fields of the new state; which function of the library
brings them about does not matter here.
-/

namespace Libco
open Lib

variable {run : Prop} {cur : Option Nat} {s s' : Sched} {c : Nat} {q : QueueRef}

theorem key_of_update {r : Routine} (hco : s'.co = Function.update s.co c r)
    (hw : r.wakeupTime = (s.co c).wakeupTime) : s'.key = s.key := by
  funext d
  by_cases hd : d = c
  · subst hd
    simp [Sched.key, hco, hw]
  · simp [Sched.key, hco, hd]

theorem heaped_of_fresh_key {l : List Nat} {r : Routine} (h : Heaped s.key l)
    (hco : s'.co = Function.update s.co c r) (hc : c ∉ l) : Heaped s'.key l := by
  refine h.congr fun d hd => ?_
  have hne : d ≠ c := fun e => hc (e ▸ hd)
  simp [Sched.key, hco, hne]

/-- The coroutine whose own code runs is in no container. -/
theorem Inv.out (h : Inv run cur s) (hc : cur = some c) :
    (∀ p, (s.queues p).count c = 0) ∧ s.timerHeap.entries.count c = 0 := by
  have hf := (h.user c).mpr hc
  have hs := h.seated c
  constructor
  · intro p
    have := hs.queued p
    simpa [Routine.home, hf, Frame.suspended] using this
  · by_contra hne
    have := hs.timer_may (by omega)
    simp [Routine.mayTimer, hf, Frame.timed] at this

theorem Inv.cur_lt (h : Inv run cur s) (hc : cur = some c) : c < s.nextId :=
  h.lt_nextId (by rw [(h.user c).mpr hc]; decide)

/-- Fields that no container depends on change. -/
theorem Inv.touch {r : Routine} (h : Inv run cur s)
    (hco : s'.co = Function.update s.co c r) (hr : r.SameSeat (s.co c))
    (hw : r.wakeupTime = (s.co c).wakeupTime) (hq : s'.queues = s.queues)
    (hh : s'.timerHeap = s.timerHeap) (hid : s'.nextId = s.nextId)
    (hio : s'.waitingIoCount = s.waitingIoCount)
    (hact : s'.activeRoutines = s.activeRoutines) : Inv run cur s' := by
  have hother : ∀ d, s'.co d = s.co d ∨ (d = c ∧ s'.co d = r) := fun d => by
    by_cases hd : d = c
    · exact .inr ⟨hd, by rw [hco, hd, Function.update_self]⟩
    · exact .inl (by rw [hco, Function.update_of_ne hd])
  have hsame : ∀ d, (s'.co d).SameSeat (s.co d) := fun d => by
    rcases hother d with hd | ⟨rfl, hd⟩
    · rw [hd]
      exact .refl _
    · rw [hd]
      exact hr
  constructor
  · intro d
    rw [hq, hh]
    exact (hsame d).seated (h.seated d)
  · rw [hh, key_of_update hco hw]
    exact h.ordered
  · rw [hio, hid, h.ioCount]
    congr 1
    exact countOn_congr fun i _ => (hsame i).ioSuspended.symm
  · rw [hact, hid, h.active]
    exact countOn_congr fun i _ => (hsame i).unfinished.symm
  · intro d hd
    rw [(hsame d).frame]
    exact h.fresh d (by omega)
  · intro d
    rw [(hsame d).frame]
    exact h.user d

/-- The counters of the scheduler are as before. -/
structure Sched.SameCounts (s s' : Sched) : Prop where
  nextId : s'.nextId = s.nextId
  io : s'.waitingIoCount = s.waitingIoCount
  active : s'.activeRoutines = s.activeRoutines

/-- Nothing the invariant speaks of changes. -/
theorem Inv.same (h : Inv run cur s) (hco : s'.co = s.co) (hq : s'.queues = s.queues)
    (hh : s'.timerHeap = s.timerHeap) (hn : s.SameCounts s') : Inv run cur s' := by
  have hkey : s'.key = s.key := by
    funext d
    simp [Sched.key, hco]
  constructor
  · rw [hco, hq, hh]
    exact h.seated
  · rw [hkey, hh]
    exact h.ordered
  · rw [hn.io, hn.nextId, hco]
    exact h.ioCount
  · rw [hn.active, hn.nextId, hco]
    exact h.active
  · rw [hn.nextId, hco]
    exact h.fresh
  · rw [hco]
    exact h.user

/-- Waking changes the state to `READY` and clears `cond_wait_queue`. -/
structure Routine.Woken (r r' : Routine) : Prop where
  state : r'.state = .ready
  frame : r'.frame = r.frame
  wakeupTime : r'.wakeupTime = r.wakeupTime
  timedOut : r'.timedOut = r.timedOut
  cond : r'.condWaitQueue = none
  io : r'.ioWaiting = r.ioWaiting

/-- Occurrences of `c` after the front `ws` of the queue `q` was made ready. -/
def Sched.wokenCount (s : Sched) (q : QueueRef) (ws rest : List Nat) (c : Nat) (p : QueueRef) :
    Nat :=
  if p = .ready then (s.queues .ready).count c + ws.count c
  else if p = q then rest.count c else (s.queues p).count c

theorem count_wake {ws rest : List Nat} (hne : q ≠ .ready)
    (hqs : s'.queues =
      Function.update (Function.update s.queues q rest) .ready (s.queues .ready ++ ws))
    (c : Nat) : (fun p => (s'.queues p).count c) = s.wokenCount q ws rest c := by
  funext p
  unfold Sched.wokenCount
  rw [hqs]
  by_cases hp : p = .ready
  · simp [hp]
  · by_cases hpq : p = q
    · simp [hpq, hne]
    · simp [hp, hpq]

/-- A woken waiter sits in the ready queue. -/
theorem Inv.seated_woken {ws rest : List Nat} {r : Routine} (h : Inv run cur s)
    (hne : q ≠ .ready) (hq : s.queues q = ws ++ rest) (hc : c ∈ ws) (hw : (s.co c).Woken r) :
    Seated run r (s.wokenCount q ws rest c) (s.timerHeap.entries.count c) := by
  have hs := h.seated c
  have hhome : (s.co c).home = some q := h.mem_queue (by rw [hq]; simp [hc])
  obtain ⟨-, hwq⟩ := Routine.home_wait hhome hne
  have hzero : ∀ p, p ≠ q → (s.queues p).count c = 0 := by
    intro p hp
    have hnot : ¬ (s.co c).home = some p := by
      rw [hhome]
      simpa using hp.symm
    have := hs.queued p
    rwa [if_neg hnot] at this
  have hone : ws.count c + rest.count c = 1 := by
    have := hs.queued q
    rw [if_pos hhome] at this
    rwa [hq, List.count_append] at this
  have hpos : 0 < ws.count c := List.count_pos_iff.mpr hc
  refine seated_ready hw.state ?_ ?_ hs.timer_le ?_ hw.cond ?_
  · rw [hw.frame]
    exact (Frame.waitQueue_suspended hwq).1
  · intro p
    unfold Sched.wokenCount
    by_cases hp : p = .ready
    · simp only [hp, if_true]
      rw [hzero _ hne.symm]
      omega
    · simp only [hp, if_false]
      by_cases hpq : p = q
      · simp only [hpq, if_true]
        omega
      · simp only [hpq, if_false]
        exact hzero p hpq
  · intro hp
    obtain ⟨htimed, hto⟩ := Routine.timed_of_mayTimer (hs.timer_may hp)
    have hsl : (s.co c).frame ≠ .sleep := by
      intro hsl
      simp [hsl, Frame.waitQueue] at hwq
    rw [hw.frame, hw.timedOut]
    exact ⟨htimed, hsl, hto hsl⟩
  · rw [hw.io, hs.io]
    simp [Routine.ioFlag, (Frame.waitQueue_suspended hwq).2.2]

/-- Who is not woken sits where it sat. -/
theorem wokenCount_of_not_mem {ws rest : List Nat} (hq : s.queues q = ws ++ rest) (hc : c ∉ ws) :
    s.wokenCount q ws rest c = fun p => (s.queues p).count c := by
  have hzero : ws.count c = 0 := List.count_eq_zero_of_not_mem hc
  funext p
  unfold Sched.wokenCount
  by_cases hp : p = .ready
  · simp [hp, hzero]
  · by_cases hpq : p = q
    · have hne : q ≠ .ready := hpq ▸ hp
      simp [hpq, hne, hq, hzero]
    · simp [hp, hpq]

/-- The waiters `ws` at the front of the wait queue `q` are made ready. -/
theorem Inv.wake {g : Routine → Routine} {ws rest : List Nat} (h : Inv run cur s)
    (hne : q ≠ .ready) (hq : s.queues q = ws ++ rest)
    (hg : ∀ c ∈ ws, (s.co c).Woken (g (s.co c)))
    (hco : s'.co = fun c => if c ∈ ws then g (s.co c) else s.co c)
    (hqs : s'.queues =
      Function.update (Function.update s.queues q rest) .ready (s.queues .ready ++ ws))
    (hh : s'.timerHeap = s.timerHeap) (hn : s.SameCounts s') : Inv run cur s' := by
  have hin : ∀ c ∈ ws, s'.co c = g (s.co c) := fun c hc => by simp [hco, hc]
  have hout : ∀ c, c ∉ ws → s'.co c = s.co c := fun c hc => by simp [hco, hc]
  have hframe : ∀ c, (s'.co c).frame = (s.co c).frame := fun c => by
    by_cases hc : c ∈ ws
    · rw [hin c hc, (hg c hc).frame]
    · rw [hout c hc]
  have hio : ∀ c, (s'.co c).ioSuspended = (s.co c).ioSuspended := fun c => by
    by_cases hc : c ∈ ws
    · have hhome : (s.co c).home = some q := h.mem_queue (by rw [hq]; simp [hc])
      have := (Frame.waitQueue_suspended (Routine.home_wait hhome hne).2).2.2
      simp [Routine.ioSuspended, hframe, this]
    · rw [hout c hc]
  constructor
  · intro c
    rw [count_wake hne hqs c, hh]
    by_cases hc : c ∈ ws
    · rw [hin c hc]
      exact h.seated_woken hne hq hc (hg c hc)
    · rw [hout c hc, wokenCount_of_not_mem hq hc]
      exact h.seated c
  · rw [hh]
    refine h.ordered.congr fun c _ => ?_
    by_cases hc : c ∈ ws
    · simp only [Sched.key]
      rw [hin c hc, (hg c hc).wakeupTime]
    · simp only [Sched.key]
      rw [hout c hc]
  · rw [hn.io, hn.nextId, h.ioCount]
    congr 1
    exact countOn_congr fun c _ => (hio c).symm
  · rw [hn.active, hn.nextId, h.active]
    refine countOn_congr fun c _ => ?_
    simp [Routine.unfinished, hframe]
  · intro c hc
    rw [hframe]
    exact h.fresh c (by rw [← hn.nextId]; exact hc)
  · intro c
    rw [hframe]
    exact h.user c

/-- The heap after a timed wait was entered, or not. -/
def Sched.Armed (s s' : Sched) (c : Nat) (timed : Bool) : Prop :=
  if timed then
    Heaped s'.key s'.timerHeap.entries ∧
      s'.timerHeap.entries.Perm (c :: s.timerHeap.entries)
  else s'.timerHeap = s.timerHeap

/-- The running coroutine suspends in a frame. -/
theorem Inv.block {r : Routine} (h : Inv run (some c) s)
    (hco : s'.co = Function.update s.co c r) (hs : r.state = .waiting)
    (hb : r.frame.blocks = true)
    (hq : ∀ d p, (s'.queues p).count d =
      (s.queues p).count d + if r.frame.waitQueue = some p ∧ d = c then 1 else 0)
    (hh : s.Armed s' c r.frame.timed)
    (hto : r.frame.timed = true → r.frame ≠ .sleep → r.timedOut = false)
    (hcw : r.condWaitQueue = r.condPtr) (hiw : r.ioWaiting = r.ioFlag)
    (hid : s'.nextId = s.nextId)
    (hio : s'.waitingIoCount =
      if r.frame.isIo then incr32 s.waitingIoCount else s.waitingIoCount)
    (hact : s'.activeRoutines = s.activeRoutines) : Inv run none s' := by
  obtain ⟨hqz, hhz⟩ := h.out rfl
  have huser := (h.user c).mpr rfl
  have hnm : c ∉ s.timerHeap.entries := List.count_eq_zero.mp hhz
  have hsus : r.frame.suspended = true := by
    cases hf : r.frame <;> simp [hf, Frame.blocks, Frame.suspended] at hb ⊢
  have hold : (s.co c).ioSuspended = false := by simp [Routine.ioSuspended, huser, Frame.isIo]
  have hheap : s'.timerHeap.entries.count c = r.frame.timed.toNat ∧
      (∀ d, d ≠ c → s'.timerHeap.entries.count d = s.timerHeap.entries.count d) ∧
      Heaped s'.key s'.timerHeap.entries := by
    unfold Sched.Armed at hh
    cases ht : r.frame.timed with
    | false =>
      simp only [ht, Bool.false_eq_true, if_false] at hh
      rw [hh]
      exact ⟨hhz, fun _ _ => rfl, heaped_of_fresh_key h.ordered hco hnm⟩
    | true =>
      simp only [ht, if_true] at hh
      refine ⟨?_, fun d hd => ?_, hh.1⟩
      · rw [hh.2.count_eq]
        simp [hhz]
      · rw [hh.2.count_eq, List.count_cons_of_ne hd.symm]
  refine h.change (h.cur_lt rfl) hco hid ?_ hheap.2.1 ?_ hheap.2.2 ?_ ?_ ?_ ?_
  · intro d p hd
    rw [hq]
    simp [hd]
  · refine seated_waiting hs hsus hb ?_ hheap.1 hto hcw hiw
    intro p
    rw [hq, hqz]
    simp
  · rw [hio]
    cases hi : r.frame.isIo with
    | false =>
      simp only [Bool.false_eq_true, if_false]
      exact h.ioStep_same (by rw [hold]; simp [Routine.ioSuspended, hi])
    | true =>
      simp only [if_true]
      exact h.ioStep_incr hold (by simp [Routine.ioSuspended, hi, hs])
  · rw [hact, unfinished_of_suspended hsus]
    simp [Routine.unfinished, huser]
  · constructor
    · intro he
      simp [he, Frame.suspended] at hsus
    · intro he
      cases he
  · intro d hd
    simp [hd.symm]

/-- The running coroutine goes back to the ready queue. -/
theorem Inv.requeue {r : Routine} (h : Inv run (some c) s)
    (hco : s'.co = Function.update s.co c r) (hs : r.state = .ready) (hf : r.frame = .yieldNow)
    (hq : s'.queues = Function.update s.queues .ready (s.queues .ready ++ [c]))
    (hcw : r.condWaitQueue = (s.co c).condWaitQueue) (hiw : r.ioWaiting = (s.co c).ioWaiting)
    (hh : s'.timerHeap = s.timerHeap) (hn : s.SameCounts s') : Inv run none s' := by
  obtain ⟨hqz, hhz⟩ := h.out rfl
  have huser := (h.user c).mpr rfl
  have hseat := h.seated c
  refine h.change (h.cur_lt rfl) hco hn.nextId ?_ ?_ ?_ ?_ ?_ ?_ ?_ ?_
  · intro d p hd
    rw [hq, count_pushBack]
    simp [hd]
  · intro d _
    rw [hh]
  · refine seated_ready hs (by rw [hf]; rfl) ?_ ?_ ?_ ?_ ?_
    · intro p
      rw [hq, count_pushBack, hqz]
      simp
    · rw [hh, hhz]
      omega
    · rw [hh, hhz]
      omega
    · rw [hcw, hseat.cond]
      simp [Routine.condPtr, huser]
    · rw [hiw, hseat.io]
      simp [Routine.ioFlag, huser, Frame.isIo]
  · rw [hh]
    exact heaped_of_fresh_key h.ordered hco (List.count_eq_zero.mp hhz)
  · rw [hn.io]
    exact h.ioStep_same (by simp [Routine.ioSuspended, huser, hf, Frame.isIo])
  · rw [hn.active]
    simp [Routine.unfinished, huser, hf]
  · simp [hf]
  · intro d hd
    simp [hd.symm]

/-- A waiting coroutine is made ready by its deadline or by an I/O event. -/
theorem Inv.rouse {r : Routine} (h : Inv run cur s) (hst : (s.co c).state = .waiting)
    (hsus : (s.co c).frame.suspended = true)
    (hco : s'.co = Function.update s.co c r) (hs : r.state = .ready)
    (hsus' : r.frame.suspended = true) (hw : r.wakeupTime = (s.co c).wakeupTime)
    (hcw : r.condWaitQueue = none) (hiw : r.ioWaiting = false)
    (hq : ∀ d p, (s'.queues p).count d + (if (s.co c).home = some p ∧ d = c then 1 else 0) =
      (s.queues p).count d + if p = .ready ∧ d = c then 1 else 0)
    (hhd : ∀ d, d ≠ c → s'.timerHeap.entries.count d = s.timerHeap.entries.count d)
    (hhc : s'.timerHeap.entries.count c ≤ s.timerHeap.entries.count c)
    (hstay : 0 < s'.timerHeap.entries.count c →
      r.frame.timed = true ∧ r.frame ≠ .sleep ∧ r.timedOut = false)
    (hord : Heaped s.key s'.timerHeap.entries)
    (hid : s'.nextId = s.nextId)
    (hio : s'.waitingIoCount =
      if (s.co c).frame.isIo then decr32 s.waitingIoCount else s.waitingIoCount)
    (hact : s'.activeRoutines = s.activeRoutines) : Inv run cur s' := by
  have hseat := h.seated c
  refine h.change (h.lt_nextId (Frame.suspended_ne_absent hsus)) hco hid ?_ hhd ?_ ?_ ?_ ?_ ?_
    (fun _ _ => Iff.rfl)
  · intro d p hd
    have := hq d p
    simpa [hd] using this
  · refine seated_ready hs hsus' ?_ (Nat.le_trans hhc hseat.timer_le) hstay hcw hiw
    intro p
    have h1 := hq c p
    have h2 := hseat.queued p
    simp only [and_true] at h1
    omega
  · rw [key_of_update hco hw]
    exact hord
  · rw [hio]
    cases hi : (s.co c).frame.isIo with
    | false =>
      simp only [Bool.false_eq_true, if_false]
      exact h.ioStep_same (by simp [Routine.ioSuspended, hi, hs])
    | true =>
      simp only [if_true]
      exact h.ioStep_decr (by simp [Routine.ioSuspended, hi, hst])
        (by simp [Routine.ioSuspended, hs])
  · rw [hact, unfinished_of_suspended hsus, unfinished_of_suspended hsus']
  · rw [← h.user c]
    constructor
    · intro he
      simp [he, Frame.suspended] at hsus'
    · intro he
      simp [he, Frame.suspended] at hsus

/-- A timer whose coroutine is no longer waiting is dropped. -/
theorem Inv.dropTimer (h : Inv run cur s) (hst : (s.co c).state ≠ .waiting)
    (hco : s'.co = s.co) (hq : s'.queues = s.queues)
    (hhd : ∀ d, d ≠ c → s'.timerHeap.entries.count d = s.timerHeap.entries.count d)
    (hhc : s'.timerHeap.entries.count c ≤ s.timerHeap.entries.count c)
    (hord : Heaped s.key s'.timerHeap.entries) (hn : s.SameCounts s') : Inv run cur s' := by
  have hkey : s'.key = s.key := by
    funext d
    simp [Sched.key, hco]
  constructor
  · intro d
    rw [hco, hq]
    by_cases hd : d = c
    · subst hd
      have hs := h.seated d
      exact ⟨hs.queued, Nat.le_trans hhc hs.timer_le,
        fun hp => hs.timer_may (Nat.lt_of_lt_of_le hp hhc),
        fun hm => by simp [Routine.mustTimer, hst] at hm,
        hs.state, hs.user, hs.gone, hs.cond, hs.io⟩
    · rw [hhd d hd]
      exact h.seated d
  · rw [hkey]
    exact hord
  · rw [hn.io, hn.nextId, hco]
    exact h.ioCount
  · rw [hn.active, hn.nextId, hco]
    exact h.active
  · rw [hn.nextId, hco]
    exact h.fresh
  · rw [hco]
    exact h.user

/-- Frames that no container tells apart. -/
structure Frame.Like (f f' : Frame) : Prop where
  waitQueue : f.waitQueue = f'.waitQueue
  suspended : f.suspended = f'.suspended
  blocks : f.blocks = f'.blocks
  isIo : f.isIo = f'.isIo
  timed : f.timed = f'.timed
  io : f'.isIo = true

/-- An event is written into the wait context of an I/O wait. -/
theorem Inv.reframe {f : Frame} (h : Inv run cur s) (hl : f.Like (s.co c).frame)
    (hco : s'.co = Function.update s.co c { s.co c with frame := f })
    (hq : s'.queues = s.queues) (hh : s'.timerHeap = s.timerHeap) (hn : s.SameCounts s') :
    Inv run cur s' := by
  have hsus : (s.co c).frame.suspended = true := by
    have := hl.io
    cases hf : (s.co c).frame <;> simp [hf, Frame.isIo, Frame.suspended] at this ⊢
  have hsl : (s.co c).frame ≠ .sleep := by
    intro he
    have := hl.io
    simp [he, Frame.isIo] at this
  have hsl' : f ≠ .sleep := by
    rintro rfl
    have := hl.isIo.trans hl.io
    simp [Frame.isIo] at this
  have hsus' : f.suspended = true := hl.suspended.trans hsus
  have hu : f ≠ .user := by
    rintro rfl
    simp [Frame.suspended] at hsus'
  have hcond : ∀ f' : Frame, f'.isIo = true → ∀ st,
      ({ s.co c with frame := f', state := st } : Routine).condPtr = none := by
    intro f' hf' st
    cases f' <;> simp [Frame.isIo, Routine.condPtr] at hf' ⊢
  have hs := h.seated c
  refine h.change (h.lt_nextId (Frame.suspended_ne_absent hsus)) hco hn.nextId (by simp [hq])
    (by simp [hh]) ?_ ?_ ?_ ?_ ?_ (fun _ _ => Iff.rfl)
  · rw [hq, hh]
    constructor
    · intro p
      rw [hs.queued]
      simp only [Routine.home, hsus, hsus', if_true, hl.waitQueue]
    · exact hs.timer_le
    · intro hp
      have := hs.timer_may hp
      simpa [Routine.mayTimer, hl.timed, hsl, hsl'] using this
    · intro hm
      refine hs.timer_must ?_
      simpa [Routine.mustTimer, hl.timed] using hm
    · intro _
      simpa [hl.blocks] using hs.state hsus
    · intro he
      exact absurd he hu
    · intro hg
      simp [unfinished_of_suspended, hsus'] at hg
    · have h1 := hcond f (hl.isIo.trans hl.io) (s.co c).state
      have h2 := hcond (s.co c).frame hl.io (s.co c).state
      rw [show (s.co c).condWaitQueue = none from hs.cond.trans h2]
      exact h1.symm
    · rw [show (s.co c).ioWaiting = (s.co c).ioFlag from hs.io]
      simp [Routine.ioFlag, hl.isIo, hl.timed]
  · rw [hh, key_of_update (r := { s.co c with frame := f }) hco rfl]
    exact h.ordered
  · rw [hn.io]
    exact h.ioStep_same (by simp [Routine.ioSuspended, hl.isIo])
  · rw [hn.active, unfinished_of_suspended hsus, unfinished_of_suspended (by exact hsus')]
  · rw [← h.user c]
    constructor
    · intro he
      exact absurd he hu
    · intro he
      simp [he, Frame.suspended] at hsus

/-- The first ready coroutine is switched to; a timer it still had is removed. -/
theorem Inv.dispatch {r : Routine} {rest : List Nat} (h : Inv run none s)
    (hq : s.queues .ready = c :: rest) (hco : s'.co = Function.update s.co c r)
    (hs : r.state = .running) (hf : r.frame = .user)
    (hw : r.wakeupTime = (s.co c).wakeupTime)
    (hcw : r.condWaitQueue = (s.co c).condWaitQueue) (hiw : r.ioWaiting = false)
    (hqs : s'.queues = Function.update s.queues .ready rest)
    (hord : Heaped s.key s'.timerHeap.entries)
    (hperm : s'.timerHeap.entries.Perm (s.timerHeap.entries.erase c))
    (hn : s.SameCounts s') : Inv run (some c) s' := by
  have hhome := h.mem_queue (q := .ready) (c := c) (by rw [hq]; simp)
  obtain ⟨hsus, hst⟩ := Routine.home_ready hhome
  have hseat := h.seated c
  refine h.change (h.lt_nextId (Frame.suspended_ne_absent hsus)) hco hn.nextId ?_ ?_ ?_ ?_ ?_ ?_
    ?_ ?_
  · intro d p hd
    have := count_dropFront hq d p
    rw [hqs]
    simpa [hd] using this
  · intro d hd
    rw [hperm.count_eq, List.count_erase_of_ne hd]
  · refine seated_out (by rw [hf]; rfl) ?_ ?_ (fun _ _ => hs) ?_ ?_ hiw
    · intro p
      have h1 := count_dropFront hq c p
      have h2 := hseat.queued p
      rw [hqs]
      simp only [hhome, Option.some.injEq, and_true] at h1 h2
      by_cases hp : p = .ready
      · subst hp
        simp only [if_true] at h1 h2
        omega
      · simp only [hp, Ne.symm hp, if_false] at h1 h2
        omega
    · rw [hperm.count_eq, List.count_erase_self]
      have := hseat.timer_le
      omega
    · simp [Routine.unfinished, hf]
    · rw [hcw, hseat.cond]
      unfold Routine.condPtr
      split <;> simp_all
  · rw [key_of_update hco hw]
    exact hord
  · rw [hn.io]
    exact h.ioStep_same (by simp only [Routine.ioSuspended, hs, hst]; rfl)
  · rw [hn.active, unfinished_of_suspended hsus]
    simp [Routine.unfinished, hf]
  · simp [hf]
  · intro d hd
    simp [hd.symm]

/-- Fields of the running coroutine change. -/
theorem Inv.userTouch {r : Routine} (h : Inv run (some c) s)
    (hco : s'.co = Function.update s.co c r) (hf : r.frame = .user)
    (hs : run → r.state = .running) (hcw : r.condWaitQueue = none) (hiw : r.ioWaiting = false)
    (hq : s'.queues = s.queues) (hh : s'.timerHeap = s.timerHeap) (hn : s.SameCounts s') :
    Inv run (some c) s' := by
  obtain ⟨hqz, hhz⟩ := h.out rfl
  have huser := (h.user c).mpr rfl
  refine h.change (h.cur_lt rfl) hco hn.nextId (by simp [hq]) (by simp [hh]) ?_ ?_ ?_ ?_ ?_
    (fun _ _ => Iff.rfl)
  · refine seated_out (by rw [hf]; rfl) ?_ ?_ (fun _ => hs) ?_ hcw hiw
    · intro p
      rw [hq]
      exact hqz p
    · rw [hh]
      exact hhz
    · simp [Routine.unfinished, hf]
  · rw [hh]
    exact heaped_of_fresh_key h.ordered hco (List.count_eq_zero.mp hhz)
  · rw [hn.io]
    exact h.ioStep_same (by simp [Routine.ioSuspended, huser, hf, Frame.isIo])
  · rw [hn.active]
    simp [Routine.unfinished, huser, hf]
  · simp [hf]

/-- The running coroutine finishes and is released. -/
theorem Inv.finish {r : Routine} (h : Inv run (some c) s)
    (hco : s'.co = Function.update s.co c r) (hf : r.frame = .freed) (hs : r.state = .dead)
    (hcw : r.condWaitQueue = (s.co c).condWaitQueue) (hiw : r.ioWaiting = (s.co c).ioWaiting)
    (hq : s'.queues = s.queues) (hh : s'.timerHeap = s.timerHeap)
    (hid : s'.nextId = s.nextId) (hio : s'.waitingIoCount = s.waitingIoCount)
    (hact : s'.activeRoutines = s.activeRoutines - 1) : Inv run none s' := by
  obtain ⟨hqz, hhz⟩ := h.out rfl
  have huser := (h.user c).mpr rfl
  have hseat := h.seated c
  have hpos : 0 < s.activeRoutines := by
    rw [h.active]
    refine Nat.pos_of_ne_zero fun hz => ?_
    have := countOn_eq_zero.mp hz c (h.cur_lt rfl)
    simp [Routine.unfinished, huser] at this
  refine h.change (h.cur_lt rfl) hco hid (by simp [hq]) (by simp [hh]) ?_ ?_ ?_ ?_ ?_ ?_
  · refine seated_out (by rw [hf]; rfl) ?_ ?_ (by simp [hf]) (by simp [hs]) ?_ ?_
    · intro p
      rw [hq]
      exact hqz p
    · rw [hh]
      exact hhz
    · rw [hcw, hseat.cond]
      simp [Routine.condPtr, huser]
    · rw [hiw, hseat.io]
      simp [Routine.ioFlag, huser, Frame.isIo]
  · rw [hh]
    exact heaped_of_fresh_key h.ordered hco (List.count_eq_zero.mp hhz)
  · rw [hio]
    exact h.ioStep_same (by simp [Routine.ioSuspended, huser, hf, Frame.isIo])
  · rw [hact]
    simp only [Routine.unfinished, huser, hf, Bool.toNat_true, Bool.toNat_false]
    omega
  · simp [hf]
  · intro d hd
    simp [hd.symm]

/-- The next number is used up without a coroutine. -/
theorem Inv.skipId (h : Inv run cur s) (hco : s'.co = s.co) (hq : s'.queues = s.queues)
    (hh : s'.timerHeap = s.timerHeap) (hid : s'.nextId = s.nextId + 1)
    (hio : s'.waitingIoCount = s.waitingIoCount)
    (hact : s'.activeRoutines = s.activeRoutines) : Inv run cur s' := by
  have hf := h.fresh s.nextId (Nat.le_refl _)
  have hkey : s'.key = s.key := by
    funext d
    simp [Sched.key, hco]
  constructor
  · rw [hco, hq, hh]
    exact h.seated
  · rw [hkey, hh]
    exact h.ordered
  · rw [hio, hid, hco, countOn_succ, h.ioCount]
    simp [Routine.ioSuspended, hf, Frame.isIo]
  · rw [hact, hid, hco, countOn_succ, h.active]
    simp [Routine.unfinished, hf]
  · intro d hd
    rw [hco]
    exact h.fresh d (by omega)
  · rw [hco]
    exact h.user

/-- A new coroutine is put in the ready queue. -/
theorem Inv.spawn {r : Routine} (h : Inv run cur s)
    (hco : s'.co = Function.update s.co s.nextId r) (hs : r.state = .ready)
    (hf : r.frame = .entry) (hcw : r.condWaitQueue = none) (hiw : r.ioWaiting = false)
    (hq : s'.queues = Function.update s.queues .ready (s.queues .ready ++ [s.nextId]))
    (hh : s'.timerHeap = s.timerHeap) (hid : s'.nextId = s.nextId + 1)
    (hio : s'.waitingIoCount = s.waitingIoCount)
    (hact : s'.activeRoutines = s.activeRoutines + 1) : Inv run cur s' := by
  have habs := h.fresh s.nextId (Nat.le_refl _)
  have hseat := h.seated s.nextId
  have hqz : ∀ p, (s.queues p).count s.nextId = 0 := fun p => by
    have := hseat.queued p
    simpa [Routine.home, habs, Frame.suspended] using this
  have hhz : s.timerHeap.entries.count s.nextId = 0 := by
    by_contra hne
    have := hseat.timer_may (by omega)
    simp [Routine.mayTimer, habs, Frame.timed] at this
  have hskip : Inv run cur { s with nextId := s.nextId + 1 } :=
    h.skipId rfl rfl rfl rfl rfl rfl
  refine hskip.change (c := s.nextId) (Nat.lt_succ_self _) hco hid ?_ ?_ ?_ ?_ ?_ ?_ ?_
    (fun _ _ => Iff.rfl)
  · intro d p hd
    rw [hq, count_pushBack]
    simp [hd]
  · intro d _
    rw [hh]
  · refine seated_ready hs (by rw [hf]; rfl) ?_ ?_ ?_ hcw hiw
    · intro p
      rw [hq, count_pushBack, hqz]
      simp
    · rw [hh, hhz]
      omega
    · rw [hh, hhz]
      omega
  · rw [hh]
    exact heaped_of_fresh_key h.ordered hco (List.count_eq_zero.mp hhz)
  · rw [hio]
    exact h.ioStep_same (by simp [Routine.ioSuspended, habs, hf, Frame.isIo])
  · rw [hact]
    simp [Routine.unfinished, habs, hf]
  · have := h.user s.nextId
    simp only [habs, reduceCtorEq, false_iff] at this
    simp [hf, this]

end Libco
