import Libco.Holdings

/-!
# Teardown

`co_scheduler_destroy` releases the coroutines it finds in the ready queue and then
those in the timer heap. A coroutine blocked without a deadline is in neither, nor is
one whose context switch failed; one that was woken out of a timed wait is in both
until it is dispatched.

Context switches may fail. No step leaves a timer behind: such a timer can wake its
coroutine while its one `queue_node` is in a wait queue, and the queues are lists only as
long as every coroutine is in one of them.
-/

namespace Libco
open Lib

variable {s s' : St} {c : Nat}

/-! ## `co_scheduler_destroy` -/

/-- One call of `co_routine_destroy` and `free`, with the stack that goes back to the
pool. -/
structure Release where
  routine : Nat
  stack : Option Nat
  deriving DecidableEq

/-- The loop over the ready queue, for at most as many rounds as the first argument. -/
def destroyReady : Nat → St → List Release × St
  | 0, s => ([], s)
  | n + 1, s =>
    match coQueuePopFront s .ready with
    | (none, s) => ([], s)
    | (some c, s) =>
      let r := destroyReady n (coRoutineDestroy s c)
      (⟨c, (s.co c).stackBase⟩ :: r.1, r.2)

/-- The loop over the timer heap. -/
def destroySleeping : Nat → St → List Release × St
  | 0, s => ([], s)
  | n + 1, s =>
    match coTimerHeapPop s.key s.timerHeap with
    | (none, _) => ([], s)
    | (some c, h) =>
      let s := { s with timerHeap := h }
      let r := destroySleeping n (coRoutineDestroy s c)
      (⟨c, (s.co c).stackBase⟩ :: r.1, r.2)

/-- The releases of `co_scheduler_destroy`, in their order, and the state in which it
frees the pool and the scheduler. -/
def coSchedulerDestroy (s : St) : List Release × St :=
  let r := destroyReady (s.queues .ready).length s
  let t := destroySleeping r.2.timerHeap.entries.length r.2
  (r.1 ++ t.1, t.2)

/-! ## Histories -/

/-- `malloc` returns memory that is not in use, and no timer is left behind. -/
def sober (s : St) (a : HistAct) : Bool := mallocFresh s a && !a.leaks s

def History (cfg : Config) : St → Prop :=
  Reach histStep (fun s a => sober s a = true) (init cfg)

theorem sober_split {a : HistAct} (h : sober s a = true) :
    mallocFresh s a = true ∧ a.leaks s = false := by
  simpa [sober] using h

theorem History.sound {cfg : Config} (h : History cfg s) : s.holdings.Sound := by
  refine Reach.invariant (P := fun s => s.holdings.Sound) h ?_ fun s a s' hi hm hs => ?_
  · obtain ⟨hl, hf, hc⟩ := rooted_init cfg
    refine ⟨hl, hf, hc, ?_, ?_, ?_⟩ <;> simp [St.holdings, init, Routine.zero, initPool]
  · obtain ⟨t, he, hk⟩ := histStep_effect hi.rooted.ctl_live hs
    refine hk.sound (hi.effect ?_ he)
    rintro e rfl
    exact mallocFresh_spawn hi.rooted (sober_split hm).1

/-! ## The two loops -/

/-- The releases of the coroutines `l`, `stack` being the stacks they have. -/
def releases : (Nat → Option Nat) → List Nat → List Release
  | _, [] => []
  | stack, c :: l => ⟨c, stack c⟩ :: releases (Function.update stack c none) l

theorem releases_routine (f : Nat → Option Nat) (l : List Nat) :
    (releases f l).map Release.routine = l := by
  induction l generalizing f with
  | nil => rfl
  | cons c l ih => simp [releases, ih]

theorem releases_append (f : Nat → Option Nat) (l l' : List Nat) :
    releases f (l ++ l') =
      releases f l ++ releases (fun c => if c ∈ l then none else f c) l' := by
  induction l generalizing f with
  | nil => simp [releases]
  | cons c l ih =>
    simp only [List.cons_append, releases, ih]
    congr 3
    funext d
    by_cases hd : d = c
    · simp [hd]
    · simp [hd]

/-- Coroutines released once each give back what they have. -/
theorem releases_nodup (f : Nat → Option Nat) {l : List Nat} (h : l.Nodup) :
    releases f l = l.map fun c => ⟨c, f c⟩ := by
  induction l generalizing f with
  | nil => rfl
  | cons c l ih =>
    obtain ⟨hc, hl⟩ := List.nodup_cons.mp h
    simp only [releases, List.map_cons, ih _ hl]
    congr 1
    refine List.map_congr_left fun d hd => ?_
    have hne : d ≠ c := fun he => hc (he ▸ hd)
    simp [hne]

theorem coRoutineDestroy_stack (s : St) (c : Nat) :
    (coRoutineDestroy s c).holdings.stack = Function.update s.holdings.stack c none := by
  funext d
  simp only [coRoutineDestroy, St.holdings, St.modify]
  by_cases hd : d = c
  · simp [hd]
  · split <;> simp [hd]

theorem coRoutineDestroy_places (s : St) (c : Nat) :
    (coRoutineDestroy s c).queues = s.queues ∧ (coRoutineDestroy s c).timerHeap = s.timerHeap := by
  simp only [coRoutineDestroy, St.modify]
  split <;> exact ⟨rfl, rfl⟩

theorem destroyReady_spec (s : St) (l : List Nat) (hl : s.queues .ready = l) :
    (destroyReady l.length s).1 = releases s.holdings.stack l ∧
      (destroyReady l.length s).2.timerHeap = s.timerHeap ∧
      (destroyReady l.length s).2.holdings.stack =
        fun c => if c ∈ l then none else s.holdings.stack c := by
  induction l generalizing s with
  | nil => simp [destroyReady, releases]
  | cons c l ih =>
    simp only [List.length_cons, destroyReady, coQueuePopFront_cons hl]
    have hpl := coRoutineDestroy_places { s with queues := Function.update s.queues .ready l } c
    have hst := coRoutineDestroy_stack { s with queues := Function.update s.queues .ready l } c
    obtain ⟨h1, h2, h3⟩ := ih (coRoutineDestroy
      { s with queues := Function.update s.queues .ready l } c) (by simp [hpl.1])
    refine ⟨?_, h2.trans hpl.2, ?_⟩
    · rw [h1, hst]
      rfl
    · rw [h3, hst]
      funext d
      by_cases hd : d = c
      · simp [hd]
      · simp [hd, St.holdings]

theorem destroySleeping_spec (n : Nat) (s : St) (hn : s.timerHeap.entries.length = n) :
    ∃ l, l.Perm s.timerHeap.entries ∧
      (destroySleeping n s).1 = releases s.holdings.stack l := by
  induction n generalizing s with
  | zero =>
    refine ⟨[], ?_, rfl⟩
    rw [List.eq_nil_of_length_eq_zero hn]
  | succ n ih =>
    cases he : s.timerHeap.entries with
    | nil =>
      rw [he] at hn
      cases hn
    | cons c rest =>
      obtain ⟨hfst, hperm⟩ := coTimerHeapPop_perm s.key he
      cases hp : coTimerHeapPop s.key s.timerHeap with
      | mk o h =>
        rw [hp] at hfst hperm
        simp only at hfst hperm
        subst hfst
        have hpl := coRoutineDestroy_places { s with timerHeap := h } c
        have hst := coRoutineDestroy_stack { s with timerHeap := h } c
        have hlen : h.entries.length = n := by
          rw [hperm.length_eq]
          rw [he] at hn
          simpa using hn
        obtain ⟨l, hl, hlog⟩ := ih (coRoutineDestroy { s with timerHeap := h } c)
          (by rw [hpl.2]; exact hlen)
        rw [hpl.2] at hl
        refine ⟨c :: l, (hl.trans hperm).cons c, ?_⟩
        simp only [destroySleeping, hp]
        rw [hlog, hst]
        rfl

/-- **What is released**: the coroutines of the ready queue and of the timer heap. -/
theorem coSchedulerDestroy_releases (s : St) :
    ∃ l, l.Perm (s.queues .ready ++ s.timerHeap.entries) ∧
      (coSchedulerDestroy s).1 = releases s.holdings.stack l := by
  obtain ⟨hlog, hheap, hstack⟩ := destroyReady_spec s _ rfl
  obtain ⟨l, hl, hlog'⟩ := destroySleeping_spec _
    (destroyReady (s.queues .ready).length s).2 rfl
  rw [hheap] at hl
  refine ⟨s.queues .ready ++ l, hl.append_left _, ?_⟩
  simp only [coSchedulerDestroy]
  rw [hlog, hlog', hstack, releases_append]

/-! ## Results -/

/-- Every coroutine that is not finished is destroyed and freed once, with its stack,
and nothing else is. -/
structure ReleasesOnce (s : St) : Prop where
  once : ∀ c, (s.co c).unfinished = true → ∃ b, (s.co c).stackBase = some b ∧
    ((coSchedulerDestroy s).1.filter fun r => r.routine = c) = [⟨c, some b⟩] ∧
    ((coSchedulerDestroy s).1.map Release.stack).count (some b) = 1
  only : ∀ r ∈ (coSchedulerDestroy s).1, (s.co r.routine).unfinished = true

/-- Every coroutine that is not finished is ready and has no timer, or is not ready and
has one timer; the others are in neither place. -/
structure HeldOnce (s : St) : Prop where
  unfinished : ∀ c, (s.co c).unfinished = true →
    ((s.queues .ready).count c = 1 ∧ c ∉ s.timerHeap.entries) ∨
      (c ∉ s.queues .ready ∧ s.timerHeap.entries.count c = 1)
  finished : ∀ c, (s.co c).unfinished = false → c ∉ s.queues .ready ∧ c ∉ s.timerHeap.entries

theorem HeldOnce.count (h : HeldOnce s) (c : Nat) :
    (s.queues .ready ++ s.timerHeap.entries).count c = (s.co c).unfinished.toNat := by
  rw [List.count_append]
  cases hu : (s.co c).unfinished with
  | true =>
    rcases h.unfinished c hu with ⟨h1, h2⟩ | ⟨h1, h2⟩
    · simp [h1, List.count_eq_zero.mpr h2]
    · simp [h2, List.count_eq_zero.mpr h1]
  | false =>
    obtain ⟨h1, h2⟩ := h.finished c hu
    simp [List.count_eq_zero.mpr h1, List.count_eq_zero.mpr h2]

theorem heldOnce_of_count (h : ∀ c, (s.queues .ready ++ s.timerHeap.entries).count c =
    (s.co c).unfinished.toNat) : HeldOnce s := by
  constructor
  · intro c hu
    have hc := h c
    rw [List.count_append, hu, Bool.toNat_true] at hc
    by_cases hr : c ∈ s.queues .ready
    · have hpos := List.count_pos_iff.mpr hr
      exact .inl ⟨by omega, List.count_eq_zero.mp (by omega)⟩
    · have hzero := List.count_eq_zero.mpr hr
      exact .inr ⟨hr, by omega⟩
  · intro c hu
    have hc := h c
    rw [List.count_append, hu, Bool.toNat_false] at hc
    exact ⟨List.count_eq_zero.mp (by omega), List.count_eq_zero.mp (by omega)⟩

theorem ReleasesOnce.count (h : ReleasesOnce s) (c : Nat) :
    ((coSchedulerDestroy s).1.map Release.routine).count c = (s.co c).unfinished.toNat := by
  have hcount : ((coSchedulerDestroy s).1.map Release.routine).count c =
      ((coSchedulerDestroy s).1.filter fun r => r.routine = c).length := by
    rw [List.count, List.countP_map, List.countP_eq_length_filter]
    rfl
  cases hu : (s.co c).unfinished with
  | true =>
    obtain ⟨b, -, hf, -⟩ := h.once c hu
    rw [hcount, hf]
    rfl
  | false =>
    refine List.count_eq_zero.mpr fun hm => ?_
    obtain ⟨r, hr, rfl⟩ := List.mem_map.mp hm
    rw [h.only r hr] at hu
    cases hu

theorem HeldOnce.releases (h : HeldOnce s) (hs : s.holdings.Sound) : ReleasesOnce s := by
  obtain ⟨l, hl, hlog⟩ := coSchedulerDestroy_releases s
  have hcount : ∀ c, l.count c = (s.co c).unfinished.toNat := fun c => by
    rw [hl.count_eq, h.count]
  have hnodup : l.Nodup := List.nodup_iff_count_le_one.mpr fun c => by
    rw [hcount]
    exact Bool.toNat_le _
  rw [releases_nodup _ hnodup] at hlog
  constructor
  · intro c hu
    obtain ⟨b, hb⟩ := Option.isSome_iff_exists.mp ((hs.live c).symm.trans hu)
    have hone : l.count c = 1 := by
      rw [hcount, hu]
      rfl
    refine ⟨b, hb, ?_, ?_⟩
    · have hfilter : l.filter (fun d => d = c) = [c] := by
        rw [List.filter_eq, hone]
        rfl
      rw [hlog, List.filter_map]
      have hsame : ((fun r : Release => decide (r.routine = c)) ∘ fun c =>
          (⟨c, s.holdings.stack c⟩ : Release)) = fun d => decide (d = c) := rfl
      rw [hsame, hfilter]
      simpa using hb
    · -- no other coroutine has this stack
      have hiff : ∀ d, s.holdings.stack d = some b ↔ d = c := fun d =>
        ⟨fun hd => hs.owner d c b hd hb, fun he => he ▸ hb⟩
      rw [hlog, List.map_map, List.count, List.countP_map]
      rw [← hone, List.count]
      refine List.countP_congr fun d _ => ?_
      simpa using hiff d
  · intro r hr
    rw [hlog] at hr
    obtain ⟨c, hc, rfl⟩ := List.mem_map.mp hr
    have hpos := List.count_pos_iff.mpr hc
    rw [hcount] at hpos
    cases hu : (s.co c).unfinished with
    | true => rfl
    | false =>
      rw [hu] at hpos
      cases hpos

/-- **Teardown releases everything once** exactly when every coroutine that is not
finished has one entry in the ready queue and the timer heap together, and the others have
none. -/
theorem teardown_once_iff {cfg : Config} (h : History cfg s) :
    ReleasesOnce s ↔ HeldOnce s := by
  constructor
  · intro hr
    obtain ⟨l, hl, hlog⟩ := coSchedulerDestroy_releases s
    refine heldOnce_of_count fun c => ?_
    have hc := hr.count c
    rw [hlog, releases_routine, hl.count_eq] at hc
    exact hc
  · intro hh
    exact hh.releases h.sound

/-- Blocked with a deadline, or ready and without a timer. -/
def Settled (s : St) (c : Nat) : Prop :=
  ((s.co c).state = .waiting → (s.co c).frame.timed = true) ∧
    ((s.co c).state = .ready → c ∉ s.timerHeap.entries)

section

variable {run : Prop}

theorem Inv.finished_places (hi : Inv run none s.toSched) (hu : (s.co c).unfinished = false) :
    c ∉ s.queues .ready ∧ c ∉ s.timerHeap.entries := by
  have hsus : (s.co c).frame.suspended = false := by
    cases hs : (s.co c).frame.suspended with
    | false => rfl
    | true => rw [unfinished_of_suspended hs] at hu; cases hu
  refine ⟨fun hm => ?_, fun hm => ?_⟩
  · rw [(Routine.home_ready (hi.mem_queue hm)).1] at hsus
    cases hsus
  · rw [Frame.timed_suspended (Routine.timed_of_mayTimer (hi.mem_heap hm)).1] at hsus
    cases hsus

/-- Where a coroutine is while none is running. -/
theorem Inv.places (hi : Inv run none s.toSched) (hu : (s.co c).unfinished = true) :
    ((s.co c).state = .ready ∧ (s.queues .ready).count c = 1) ∨
      ((s.co c).state = .waiting ∧ c ∉ s.queues .ready ∧
        s.timerHeap.entries.count c = (s.co c).frame.timed.toNat) := by
  have hseat := hi.seated c
  have hsus : (s.co c).frame.suspended = true := by
    have huser : (s.co c).frame ≠ .user := fun hf => by simpa using (hi.user c).mp hf
    unfold Routine.unfinished at hu
    cases hf : (s.co c).frame <;> simp_all [Frame.suspended]
  rcases hseat.state hsus with hst | ⟨hst, -⟩
  · refine .inl ⟨hst, ?_⟩
    have hq := hseat.queued .ready
    simpa [Routine.home, hsus, hst] using hq
  · refine .inr ⟨hst, fun hm => ?_, ?_⟩
    · have := (Routine.home_ready (hi.mem_queue hm)).2
      rw [hst] at this
      cases this
    · have hle := hseat.timer_le
      cases ht : (s.co c).frame.timed with
      | true =>
        have := hseat.timer_must (by simp [Routine.mustTimer, hst, ht])
        simp only [Bool.toNat_true]
        omega
      | false =>
        refine List.count_eq_zero.mpr fun hm => ?_
        rw [(Routine.timed_of_mayTimer (hi.mem_heap hm)).1] at ht
        cases ht

theorem Inv.held_iff (hi : Inv run none s.toSched) (hu : (s.co c).unfinished = true) :
    (((s.queues .ready).count c = 1 ∧ c ∉ s.timerHeap.entries) ∨
      (c ∉ s.queues .ready ∧ s.timerHeap.entries.count c = 1)) ↔ Settled s c := by
  rcases hi.places hu with ⟨hst, hq⟩ | ⟨hst, hq, hh⟩
  · have hm : c ∈ s.queues .ready := List.count_pos_iff.mp (by omega)
    simp [Settled, hst, hq, hm]
  · have hzero := List.count_eq_zero.mpr hq
    cases ht : (s.co c).frame.timed <;> simp [Settled, hst, hzero, hq, hh, ht]

end

theorem Leakless.inv_none {cfg : Config} (h : Leakless cfg s) (hctl : s.ctl ≠ .aborted)
    (hcur : s.coCurrent = none) : Inv False none s.toSched := by
  obtain ⟨cur, hi, hc⟩ := h.placed
  have hnone : cur = none := (hc hctl).symm.trans hcur
  exact hnone ▸ hi

/-- Without a leak or a failed switch, teardown goes wrong for the coroutines that are
blocked without a deadline, and for those woken before theirs. -/
theorem Leakless.heldOnce_iff {cfg : Config} (h : Leakless cfg s) (hout : s.ctl = .outside) :
    HeldOnce s ↔ ∀ c, (s.co c).unfinished = true → Settled s c := by
  have hi := h.inv_none (by simp [hout]) (by simp [St.coCurrent, hout])
  constructor
  · exact fun hh c hu => (hi.held_iff hu).mp (hh.unfinished c hu)
  · exact fun hh => ⟨fun c hu => (hi.held_iff hu).mpr (hh c hu), fun c hu => hi.finished_places hu⟩

/-- After a failed switch, the coroutine it was made to is released only if it was woken
before its deadline. -/
theorem Leakless.heldOnce_switchFails {cfg : Config} (h : Leakless cfg s) {rest : List Nat}
    (hctl : s.ctl = .dispatch) (hq : s.queues .ready = c :: rest)
    (hs : switchFails s = some s') :
    HeldOnce s' ↔ c ∈ s.timerHeap.entries ∧
      ∀ d, d ≠ c → (s.co d).unfinished = true → Settled s d := by
  have hi := h.inv_none (by simp [hctl]) (by simp [St.coCurrent, hctl])
  obtain ⟨hready, hsus, -⟩ := hi.ready_fields hq
  have huc : (s.co c).unfinished = true := unfinished_of_suspended hsus
  have hnodup := hi.nodup_queue .ready
  rw [hq, List.nodup_cons] at hnodup
  simp only [switchFails, hctl, coQueuePopFront_cons hq, Option.some.injEq] at hs
  have hheap : s'.timerHeap = s.timerHeap := by rw [← hs]; rfl
  have hrest : s'.queues .ready = rest := by rw [← hs]; simp [St.modify, St.emit]
  have hlive : ∀ d, (s'.co d).unfinished = (s.co d).unfinished := by
    intro d
    rw [← hs]
    by_cases hd : d = c
    · simp [St.modify, St.emit, hd, Routine.unfinished]
    · simp [St.modify, St.emit, hd]
  -- the others are where they were
  have hmem : ∀ d, d ≠ c → (d ∈ rest ↔ d ∈ s.queues .ready) := by
    intro d hd
    simp [hq, hd]
  have hcount : ∀ d, d ≠ c → rest.count d = (s.queues .ready).count d := by
    intro d hd
    rw [hq, List.count_cons_of_ne (Ne.symm hd)]
  constructor
  · intro hh
    refine ⟨?_, fun d hd hu => (hi.held_iff hu).mp ?_⟩
    · have hc := hh.unfinished c ((hlive c).trans huc)
      rw [hrest, hheap] at hc
      rcases hc with ⟨hc, -⟩ | ⟨-, hc⟩
      · rw [List.count_eq_zero.mpr hnodup.1] at hc
        cases hc
      · exact List.count_pos_iff.mp (by omega)
    · have hu' := hh.unfinished d ((hlive d).trans hu)
      rw [hrest, hheap, hcount d hd, hmem d hd] at hu'
      exact hu'
  · rintro ⟨hc, hother⟩
    refine ⟨fun d hu => ?_, fun d hu => ?_⟩
    · rw [hlive] at hu
      rw [hrest, hheap]
      by_cases hd : d = c
      · subst hd
        have hpos := List.count_pos_iff.mpr hc
        have hle := (hi.seated d).timer_le
        exact .inr ⟨hnodup.1, by omega⟩
      · rw [hcount d hd, hmem d hd]
        exact (hi.held_iff hu).mpr (hother d hd hu)
    · rw [hlive] at hu
      have hd : d ≠ c := by
        rintro rfl
        rw [huc] at hu
        cases hu
      rw [hrest, hheap, hmem d hd]
      exact hi.finished_places hu

/-- A successful `co_spawn`, a new stack being at `b`. -/
def spawnAt (b : Nat) : HistAct := .act (.spawn ⟨0, true, some b, true⟩)

/-- One coroutine runs to its end, and then two are spawned that never run; the first of
them gets the stack that went back to the pool. -/
def spawnedAfterRun : List HistAct :=
  [spawnAt 10, .act .run] ++ turn.map HistAct.act ++
    [HistAct.act .finish, .act (.timers 0), .act (.idle .none), spawnAt 20, spawnAt 20]

theorem teardown_once_iff_spawned :
    ∃ s, runGuarded histStep sober (init (byteConfig 0)) spawnedAfterRun = some s ∧
      s.ctl = .outside ∧ (coSchedulerDestroy s).1 = [⟨2, some 10⟩, ⟨3, some 20⟩] ∧
      (ReleasesOnce s ↔ HeldOnce s) := by
  have hrun : ((runGuarded histStep sober (init (byteConfig 0)) spawnedAfterRun).map
      fun s => (s.ctl, (coSchedulerDestroy s).1)) =
      some (.outside, [⟨2, some 10⟩, ⟨3, some 20⟩]) := by
    decide +kernel
  obtain ⟨s, hs, he⟩ := Option.map_eq_some_iff.mp hrun
  simp only [Prod.mk.injEq] at he
  exact ⟨s, hs, he.1, he.2, teardown_once_iff (reach_of_runGuarded hs)⟩

/-- A coroutine receives on a channel nobody sends to, and `co_scheduler_run` returns. -/
def blockedRun : List HistAct :=
  [spawnAt 10, .act .run] ++ turn.map HistAct.act ++
    [HistAct.act (.call (.channelRecv 0)), .act (.timers 0), .act (.idle .none)]

/-- Coroutine 1 is woken out of a timed wait by coroutine 3, and the switch into
coroutine 2, which is ready before it, fails. -/
def wokenRun : List HistAct :=
  [spawnAt 10, spawnAt 20, spawnAt 30, .act .run] ++ turn.map HistAct.act ++
    [HistAct.act (.call (.mutexLock 0)), .act (.call (.condTimedwait 0 0 100 0 true))] ++
    turn.map HistAct.act ++ [HistAct.act (.call .yieldNow)] ++ turn.map HistAct.act ++
    [HistAct.act (.call (.condSignal 0)), .act .finish, .act (.timers 0), .switchFails]

/-- The blocked coroutine is not released; the woken one is released twice, and the one
whose switch failed not at all. -/
theorem teardown_not_once :
    (∃ s, runGuarded histStep sober (init (byteConfig 0)) blockedRun = some s ∧
      s.ctl = .outside ∧ (s.co 1).unfinished = true ∧ (coSchedulerDestroy s).1 = [] ∧
      ¬ ReleasesOnce s) ∧
    ∃ s, runGuarded histStep sober (init (byteConfig 0)) wokenRun = some s ∧
      s.ctl = .outside ∧ (s.co 2).unfinished = true ∧
      (coSchedulerDestroy s).1 = [⟨1, some 10⟩, ⟨1, none⟩] ∧ ¬ ReleasesOnce s := by
  constructor
  · have hrun : ((runGuarded histStep sober (init (byteConfig 0)) blockedRun).map
        fun s => (s.ctl, (s.co 1).unfinished, (coSchedulerDestroy s).1)) =
        some (.outside, true, []) := by
      decide +kernel
    obtain ⟨s, hs, he⟩ := Option.map_eq_some_iff.mp hrun
    simp only [Prod.mk.injEq] at he
    refine ⟨s, hs, he.1, he.2.1, he.2.2, fun h => ?_⟩
    obtain ⟨b, -, hf, -⟩ := h.once 1 he.2.1
    rw [he.2.2] at hf
    cases hf
  · have hrun : ((runGuarded histStep sober (init (byteConfig 0)) wokenRun).map
        fun s => (s.ctl, (s.co 2).unfinished, (coSchedulerDestroy s).1)) =
        some (.outside, true, [⟨1, some 10⟩, ⟨1, none⟩]) := by
      decide +kernel
    obtain ⟨s, hs, he⟩ := Option.map_eq_some_iff.mp hrun
    simp only [Prod.mk.injEq] at he
    refine ⟨s, hs, he.1, he.2.1, he.2.2, fun h => ?_⟩
    obtain ⟨b, -, hf, -⟩ := h.once 2 he.2.1
    rw [he.2.2] at hf
    cases hf

end Libco
