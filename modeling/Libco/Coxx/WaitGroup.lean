import Libco.Coxx.Monitor

/-!
# `co::WaitGroup`

The counter of `libcoxx/include/coxx/sync.hpp`, guarded by its own mutex `m` and
condition variable `v`, with `add`, `done` and `wait` statement by statement. The
point of a coroutine is the next statement it has to run; a coroutine that is
suspended in a lock or in a wait goes on from its point when the call returns. `add`
is called outside coroutines too, before the scheduler runs.

`done` notifies when it brings the counter to zero; `add` does not.
-/

namespace Libco.Coxx
open Lib

variable {m v c : Nat}

/-! ## The code -/

inductive Point where
  /-- in none of the three functions -/
  | out
  /-- `count_ += delta` -/
  | addBody (delta : Int)
  /-- `if (--count_ == 0)` -/
  | doneBody
  /-- `cv_.notify_all()` -/
  | notify
  /-- the end of the scope of the `lock_guard` -/
  | unlock
  /-- `while (!pred()) wait(lock)` -/
  | waitTest
  /-- the end of the scope of the `unique_lock`: `wait()` returns -/
  | waitReturn
  deriving DecidableEq

structure WaitGroup where
  st : St
  count : Int
  point : Nat → Point

inductive WaitGroupAct where
  | add (delta : Int)
  | done
  | wait
  /-- the running coroutine goes on inside the three functions -/
  | next
  /-- anything else the program does -/
  | other (a : Act)

/-- The range of `int`; a counter that leaves it is undefined behaviour. -/
def inInt (n : Int) : Bool := -2 ^ 31 ≤ n && n < 2 ^ 31

/-- The coroutine goes on at `p`. -/
def WaitGroup.goto (t : WaitGroup) (c : Nat) (p : Point) (n : Int) (s : St) : WaitGroup :=
  ⟨s, n, Function.update t.point c p⟩

/-- The lock at the start of each of the three functions, called by a coroutine. -/
def WaitGroup.enter (m : Nat) (p : Point) (t : WaitGroup) : Option WaitGroup :=
  match t.st.coCurrent with
  | some c =>
    if t.point c = .out then (step t.st (.call (.mutexLock m))).map (t.goto c p t.count)
    else none
  | none => none

/-- `add` called outside a coroutine, where nothing interleaves. `Mutex::lock` hands the
answer of `co_mutex_lock` to nobody, so the counter moves and the mutex is released
whether it was free or not. -/
def WaitGroup.addOutside (m : Nat) (delta : Int) (t : WaitGroup) : Option WaitGroup :=
  if inInt (t.count + delta) then do
    let s ← step t.st (.call (.mutexLock m))
    let s ← step s (.call (.mutexUnlock m))
    return { t with st := s, count := t.count + delta }
  else none

def WaitGroup.next (m v c : Nat) (t : WaitGroup) : Option WaitGroup :=
  match t.point c with
  | .out => none
  | .addBody delta =>
    if inInt (t.count + delta) then some (t.goto c .unlock (t.count + delta) t.st) else none
  | .doneBody =>
    if inInt (t.count - 1) then
      some (t.goto c (if t.count - 1 = 0 then .notify else .unlock) (t.count - 1) t.st)
    else none
  | .notify => (step t.st (.call (.condBroadcast v))).map (t.goto c .unlock t.count)
  | .unlock | .waitReturn => (step t.st (.call (.mutexUnlock m))).map (t.goto c .out t.count)
  | .waitTest =>
    if t.count = 0 then some (t.goto c .waitReturn t.count t.st)
    else (step t.st (.call (.condWait v m))).map (t.goto c .waitTest t.count)

def WaitGroup.step (m v : Nat) (t : WaitGroup) : WaitGroupAct → Option WaitGroup
  | .add delta =>
    if t.st.coCurrent = none then t.addOutside m delta else t.enter m (.addBody delta)
  | .done => t.enter m .doneBody
  | .wait => t.enter m .waitTest
  | .next =>
    match t.st.coCurrent with
    | some c => t.next m v c
    | none => none
  | .other a =>
    if foreign m v a && (t.st.coCurrent.all fun c => t.point c = .out) then
      (Libco.step t.st a).map fun s => { t with st := s }
    else none

/-! ## Runs -/

/-- No addition brings the counter to zero while somebody is queued. -/
def notified (v : Nat) (t : WaitGroup) : WaitGroupAct → Bool
  | .add delta =>
    t.st.coCurrent.isSome || t.count + delta ≠ 0 || (t.st.queues (.cond v)).isEmpty
  | .next =>
    match t.st.coCurrent with
    | some c =>
      match t.point c with
      | .addBody delta => t.count + delta ≠ 0 || (t.st.queues (.cond v)).isEmpty
      | _ => true
    | none => true
  | .other a => !leaks t.st a
  | _ => true

def WaitGroup.initial (cfg : Config) : WaitGroup := ⟨init cfg, 0, fun _ => .out⟩

def Notified (m v : Nat) (cfg : Config) : WaitGroup → Prop :=
  Reach (WaitGroup.step m v) (fun t b => notified v t b = true) (.initial cfg)

/-- The points from which a coroutine goes on without suspending. -/
def Point.held : Point → Bool
  | .notify | .unlock | .waitReturn => true
  | _ => false

structure WaitGroup.Inv (m v : Nat) (t : WaitGroup) : Prop where
  monitor : Monitor m v (fun c => t.point c ≠ .out) t.st
  held : ∀ c, (t.point c).held = true → Holds m t.st c
  leaving : ∀ c, t.point c = .waitReturn → t.count = 0
  notified : t.count = 0 → t.st.queues (.cond v) ≠ [] → ∃ c, t.point c = .notify

theorem waitGroup_init (cfg : Config) : (WaitGroup.initial cfg).Inv m v := by
  refine ⟨monitor_init cfg fun c => ?_, fun c hc => ?_, fun c hc => ?_, fun _ hq => ?_⟩
  · simp [WaitGroup.initial]
  · cases hc
  · cases hc
  · exact absurd rfl hq

/-- Whoever is past its last suspension is the running coroutine. -/
theorem WaitGroup.Inv.current {t : WaitGroup} (h : t.Inv m v) (hcur : t.st.coCurrent = some c)
    {d : Nat} (hd : (t.point d).held = true) : d = c := by
  have := (h.held d hd).1
  rw [hcur, Option.some.injEq] at this
  exact this.symm

/-- The running coroutine goes on. -/
theorem WaitGroup.Inv.goto {t : WaitGroup} {p : Point} {n : Int} {s' : St} (h : t.Inv m v)
    (hcur : t.st.coCurrent = some c) (hp : Placed False s')
    (hfr : ∀ d, d ≠ c → (s'.co d).frame = (t.st.co d).frame)
    (hc : p ≠ .out → Holds m s' c ∨ AtMonitor m v (s'.co c).frame)
    (hout : p = .out → (s'.co c).frame.mentions = [])
    (hheld : p.held = true → Holds m s' c) (hleave : p = .waitReturn → n = 0)
    (hnot : n = 0 → s'.queues (.cond v) ≠ [] → p = .notify) : (t.goto c p n s').Inv m v := by
  refine ⟨h.monitor.update hp (ne_current hcur) hfr (fun d hd => ?_) ?_ ?_, fun d hd => ?_,
    fun d hd => ?_, fun hn hq => ⟨c, ?_⟩⟩
  · simp [WaitGroup.goto, hd]
  · simpa [WaitGroup.goto] using hc
  · simpa [WaitGroup.goto] using hout
  · by_cases hdc : d = c
    · subst hdc
      exact hheld (by simpa [WaitGroup.goto] using hd)
    · simp only [WaitGroup.goto, Function.update_of_ne hdc] at hd
      exact absurd (h.current hcur hd) hdc
  · by_cases hdc : d = c
    · subst hdc
      exact hleave (by simpa [WaitGroup.goto] using hd)
    · simp only [WaitGroup.goto, Function.update_of_ne hdc] at hd
      exact absurd (h.current hcur (by rw [hd]; rfl)) hdc
  · simpa [WaitGroup.goto] using hnot hn hq

/-- While the running coroutine is not about to notify, nobody is queued at zero. -/
theorem WaitGroup.Inv.none_queued {t : WaitGroup} (h : t.Inv m v)
    (hcur : t.st.coCurrent = some c) (hne : t.point c ≠ .notify) (hn : t.count = 0) :
    t.st.queues (.cond v) = [] := by
  by_contra hq
  obtain ⟨d, hd⟩ := h.notified hn hq
  obtain rfl := h.current hcur (d := d) (by rw [hd]; rfl)
  exact hne hd

theorem WaitGroup.Inv.enter {t t' : WaitGroup} {p : Point} (h : t.Inv m v) (hp : p ≠ .out)
    (hh : p.held = false) (hs : t.enter m p = some t') : t'.Inv m v := by
  unfold WaitGroup.enter at hs
  split at hs
  swap
  · cases hs
  rename_i c hcur
  split at hs
  swap
  · cases hs
  rename_i hout
  obtain ⟨s', hstep, rfl⟩ := Option.map_eq_some_iff.mp hs
  obtain ⟨hfr, hq, hst⟩ := lock_effect (v := v) hcur hstep
  have hpl := h.monitor.placed.step (fun h => h.elim) rfl hstep
  refine h.goto hcur hpl hfr (fun _ => ?_) (fun h => absurd h hp) ?_ ?_ ?_
  · exact hst.imp_right .inl
  · rw [hh]
    exact fun h => by cases h
  · rintro rfl
    cases hh
  · intro hn hne
    rw [hq] at hne
    exact absurd (h.none_queued hcur (by rw [hout]; simp) hn) hne

theorem WaitGroup.Inv.addOutside {t t' : WaitGroup} {delta : Int} (h : t.Inv m v)
    (hcur : t.st.coCurrent = none) (hg : t.count + delta = 0 → t.st.queues (.cond v) = [])
    (hs : t.addOutside m delta = some t') : t'.Inv m v := by
  unfold WaitGroup.addOutside at hs
  split at hs
  swap
  · cases hs
  obtain ⟨s₁, hlock, hs⟩ := Option.bind_eq_some_iff.mp hs
  obtain ⟨s₂, hunlock, hs⟩ := Option.bind_eq_some_iff.mp hs
  cases hs
  obtain ⟨hfr₁, hq₁, hl⟩ := lock_outside (v := v) hcur hlock
  obtain ⟨hfr₂, hq₂, -⟩ := unlock_effect (v := v) hl hunlock
  have hp := (h.monitor.placed.step (fun h => h.elim) rfl hlock).step (fun h => h.elim) rfl hunlock
  -- whoever is past its last suspension would run
  have hnone : ∀ c, ¬ (t.point c).held = true := fun c hc => by
    have := (h.held c hc).1
    rw [hcur] at this
    cases this
  refine ⟨h.monitor.of_frames hp hcur fun d => (hfr₂ d).trans (hfr₁ d),
    fun c hc => absurd hc (hnone c), fun c hc => ?_, fun hn hq => ?_⟩
  · have hc' : t.point c = .waitReturn := hc
    exact absurd (by rw [hc']; rfl) (hnone c)
  · rw [hq₂, hq₁] at hq
    exact absurd (hg hn) hq

/-- The unlock at the end of each of the three functions. -/
theorem WaitGroup.Inv.leave {t : WaitGroup} {s' : St} (h : t.Inv m v)
    (hcur : t.st.coCurrent = some c) (hne : t.point c ≠ .out) (hnn : t.point c ≠ .notify)
    (hs : Libco.step t.st (.call (.mutexUnlock m)) = some s') :
    (t.goto c .out t.count s').Inv m v := by
  have hl : (t.st.mutexes m).locked = true := by rw [h.monitor.holds hcur hne]
  obtain ⟨hfr, hq, -⟩ := unlock_effect (v := v) hl hs
  refine h.goto hcur (h.monitor.placed.step (fun h => h.elim) rfl hs) (fun d _ => hfr d)
    (fun h => absurd rfl h) (fun _ => ?_) (by simp [Point.held]) (by simp) (fun hn hne' => ?_)
  · rw [hfr, h.monitor.user hcur]
    rfl
  · rw [hq] at hne'
    exact absurd (h.none_queued hcur hnn hn) hne'

theorem WaitGroup.Inv.next {t t' : WaitGroup} (h : t.Inv m v) (hcur : t.st.coCurrent = some c)
    (hg : ∀ delta, t.point c = .addBody delta → t.count + delta = 0 →
      t.st.queues (.cond v) = []) (hs : t.next m v c = some t') : t'.Inv m v := by
  have hin : t.point c ≠ .out → Holds m t.st c := fun hne => ⟨hcur, h.monitor.holds hcur hne⟩
  -- statements that make no call: the state of the library stays
  have hquiet : ∀ {p : Point} {n : Int}, t.point c ≠ .out → p ≠ .out → (p = .waitReturn → n = 0) →
      (n = 0 → t.st.queues (.cond v) ≠ [] → p = .notify) → (t.goto c p n t.st).Inv m v :=
    fun hne hp hl hn => h.goto hcur h.monitor.placed (fun _ _ => rfl) (fun _ => .inl (hin hne))
      (fun h => absurd h hp) (fun _ => hin hne) hl hn
  unfold WaitGroup.next at hs
  split at hs
  · cases hs
  · rename_i delta hp
    split at hs
    swap
    · cases hs
    cases hs
    exact hquiet (by simp [hp]) (by simp) (by simp) (fun hn hq => absurd (hg delta hp hn) hq)
  · rename_i hp
    split at hs
    swap
    · cases hs
    cases hs
    refine hquiet (by simp [hp]) (by split <;> simp) ?_ (fun hn _ => if_pos hn)
    split <;> simp
  · rename_i hp
    obtain ⟨s', hstep, rfl⟩ := Option.map_eq_some_iff.mp hs
    obtain ⟨hfr, hq, hmx, hcur'⟩ := broadcast_effect hstep
    have hh : Holds m s' c := ⟨hcur'.trans hcur, by rw [hmx]; exact (hin (by simp [hp])).2⟩
    exact h.goto hcur (h.monitor.placed.step (fun h => h.elim) rfl hstep) (fun d _ => hfr d)
      (fun _ => .inl hh) (by simp) (fun _ => hh) (by simp) (fun _ hne => absurd hq hne)
  · rename_i hp
    obtain ⟨s', hstep, rfl⟩ := Option.map_eq_some_iff.mp hs
    exact h.leave hcur (by simp [hp]) (by simp [hp]) hstep
  · rename_i hp
    obtain ⟨s', hstep, rfl⟩ := Option.map_eq_some_iff.mp hs
    exact h.leave hcur (by simp [hp]) (by simp [hp]) hstep
  · rename_i hp
    split at hs
    · rename_i hn
      cases hs
      refine hquiet (by simp [hp]) (by simp) (fun _ => hn) (fun _ hq => ?_)
      exact absurd (h.none_queued hcur (by simp [hp]) hn) hq
    · rename_i hn
      obtain ⟨s', hstep, rfl⟩ := Option.map_eq_some_iff.mp hs
      obtain ⟨hfr, hf, -⟩ := condWait_effect hcur (by rw [(hin (by simp [hp])).2]) hstep
      exact h.goto hcur (h.monitor.placed.step (fun h => h.elim) rfl hstep) hfr
        (fun _ => .inr (.inr (.inl hf))) (by simp) (by simp [Point.held]) (by simp)
        (fun h0 _ => absurd h0 hn)

theorem WaitGroup.Inv.other {t : WaitGroup} {a : Act} {s' : St} (h : t.Inv m v)
    (hl : leaks t.st a = false) (hf : foreign m v a = true)
    (hout : ∀ c, t.st.coCurrent = some c → t.point c = .out)
    (hs : Libco.step t.st a = some s') : WaitGroup.Inv m v { t with st := s' } := by
  obtain ⟨hmon, hq⟩ := h.monitor.step hl hf (fun c hc hne => hne (hout c hc)) hs
  have hnone : ∀ c, (t.point c).held = false := by
    intro c
    by_contra hc
    have hh := h.held c (by simpa using hc)
    simp [hout c hh.1, Point.held] at hc
  refine ⟨hmon, fun c hc => ?_, h.leaving, fun hn hne => ?_⟩
  · rw [hnone c] at hc
    cases hc
  · exact h.notified hn (by rwa [hq] at hne)

theorem WaitGroup.Inv.step {t t' : WaitGroup} {b : WaitGroupAct} (h : t.Inv m v)
    (hg : Coxx.notified v t b = true) (hs : t.step m v b = some t') : t'.Inv m v := by
  cases b with
  | add delta =>
    simp only [WaitGroup.step] at hs
    split at hs
    · rename_i hcur
      refine h.addOutside hcur (fun hn => ?_) hs
      simpa [Coxx.notified, hcur, hn] using hg
    · exact h.enter (by simp) rfl hs
  | done => exact h.enter (by simp) rfl hs
  | wait => exact h.enter (by simp) rfl hs
  | next =>
    simp only [WaitGroup.step] at hs
    split at hs
    · rename_i c hcur
      refine h.next hcur (fun delta hp hn => ?_) hs
      simpa [Coxx.notified, hcur, hp, hn] using hg
    · cases hs
  | other a =>
    simp only [WaitGroup.step] at hs
    split at hs
    · rename_i hok
      obtain ⟨s', hstep, rfl⟩ := Option.map_eq_some_iff.mp hs
      simp only [Bool.and_eq_true] at hok
      refine h.other (by simpa [Coxx.notified] using hg) hok.1 (fun c hcur => ?_) hstep
      simpa [hcur] using hok.2
    · cases hs

theorem Notified.inv {cfg : Config} {t : WaitGroup} (h : Notified m v cfg t) : t.Inv m v :=
  Reach.invariant h (waitGroup_init cfg) fun _ _ _ hi hg hs => hi.step hg hs

/-! ## Results -/

/-- `wait()` returns at zero with the mutex held; at zero, and with the mutex free, nobody
is left in the condition variable. -/
structure WaitGroup.Releases (m v : Nat) (t : WaitGroup) : Prop where
  returns : ∀ c, t.point c = .waitReturn → t.count = 0 ∧ t.st.coCurrent = some c ∧
    t.st.mutexes m = ⟨true, some c⟩
  none_left : ¬ (t.count = 0 ∧ (t.st.mutexes m).locked = false ∧ t.st.queues (.cond v) ≠ [])
  made_ready : t.count = 0 → (t.st.mutexes m).locked = false →
    ∀ c, (t.st.co c).frame = .condWait v m → c ∈ t.st.queues .ready

/-- **A `WaitGroup` releases its waiters**, as long as no `add` brings the counter to zero
while somebody is queued. -/
theorem wait_group_releases {cfg : Config} {t : WaitGroup} (h : Notified m v cfg t) :
    t.Releases m v := by
  have hi := h.inv
  have hnone : ¬ (t.count = 0 ∧ (t.st.mutexes m).locked = false ∧
      t.st.queues (.cond v) ≠ []) := by
    rintro ⟨hn, hl, hq⟩
    obtain ⟨c, hc⟩ := hi.notified hn hq
    have hh := (hi.held c (by rw [hc]; rfl)).2
    rw [hh] at hl
    cases hl
  refine ⟨fun c hc => ⟨hi.leaving c hc, hi.held c (by rw [hc]; rfl)⟩, hnone, fun hn hl c hf => ?_⟩
  obtain ⟨cur, hinv, -⟩ := hi.monitor.placed
  rcases (hinv.seated c).state (by rw [hf]; rfl) with hst | ⟨hst, -⟩
  · exact hinv.mem_of_home (by simp [Routine.home, hf, hst, Frame.suspended])
  · have hm : c ∈ t.st.queues (.cond v) :=
      hinv.mem_of_home (by simp [Routine.home, hf, hst, Frame.suspended, Frame.waitQueue])
    exact absurd ⟨hn, hl, List.ne_nil_of_mem hm⟩ hnone

/-- Coroutine 1 adds one and waits; coroutine 2 comes to run. -/
def addThenWait : List WaitGroupAct :=
  [WaitGroupAct.other spawnOk, .other spawnOk, .other .run] ++ turn.map WaitGroupAct.other ++
    [WaitGroupAct.add 1, .next, .next, .wait, .next] ++ turn.map WaitGroupAct.other

theorem wait_group_releases_done :
    ∃ t, runGuarded (WaitGroup.step 0 0) (notified 0) (.initial (byteConfig 0))
        (addThenWait ++ [.done, .next, .next, .next]) = some t ∧
      t.count = 0 ∧ t.st.queues .ready = [1] ∧ t.Releases 0 0 := by
  have hrun : (runGuarded (WaitGroup.step 0 0) (notified 0) (.initial (byteConfig 0))
      (addThenWait ++ [WaitGroupAct.done, .next, .next, .next])).map
        (fun t => (t.count, t.st.queues .ready)) = some (0, [1]) := by
    decide +kernel
  obtain ⟨t, ht, he⟩ := Option.map_eq_some_iff.mp hrun
  simp only [Prod.mk.injEq] at he
  exact ⟨t, ht, he.1, he.2, wait_group_releases (reach_of_runGuarded ht)⟩

/-- With `add(-1)` in place of `done()` the waiter stays queued at zero. -/
theorem wait_group_stuck :
    ∃ t, runActs (WaitGroup.step 0 0) (.initial (byteConfig 0))
        (addThenWait ++ [.add (-1), .next, .next]) = some t ∧
      t.count = 0 ∧ (t.st.mutexes 0).locked = false ∧ t.st.queues (.cond 0) = [1] := by
  have hrun : (runActs (WaitGroup.step 0 0) (.initial (byteConfig 0))
      (addThenWait ++ [WaitGroupAct.add (-1), .next, .next])).map
        (fun t => (t.count, (t.st.mutexes 0).locked, t.st.queues (.cond 0))) =
      some (0, false, [1]) := by
    decide +kernel
  obtain ⟨t, ht, he⟩ := Option.map_eq_some_iff.mp hrun
  simp only [Prod.mk.injEq] at he
  exact ⟨t, ht, he.1, he.2.1, he.2.2⟩

end Libco.Coxx
