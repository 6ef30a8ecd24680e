import Libco.Clock
import Libco.Registrations

/-!
# The timeout of the idle poll

When nothing is ready, `co_scheduler_run` polls until the earliest deadline. The
difference to the clock is an `int64_t` that goes through a cast to `int`: the
poll gets the low 32 bits of it, read as a signed number. It sleeps neither past
the deadline nor for no time exactly when these bits are a positive `int`.
-/

namespace Libco
open Lib

variable {run : Prop} {s s' : St} {a : Act} {c : Nat}

/-! ## How the scheduler comes to be idle -/

theorem coIo_ctl (s : St) (x : IoArgs) : (coIo s x).Ends fun t => t.ctl = s.ctl := by
  obtain ⟨r, hr⟩ | ⟨-, f, hr⟩ := coIo_cases s x
  · rw [hr]
    exact rfl
  rw [hr]
  unfold coWaitIo
  cases hc : s.coCurrent with
  | none => exact rfl
  | some c =>
    dsimp only
    cases harm : armTimer s c x.timeoutMs x.now x.reallocOk with
    | mk d t =>
      have hq := (armTimer_quiet harm).ctl
      cases d with
      | none => exact hq
      | some d =>
        dsimp only
        cases x.ctlOk with
        | false =>
          rw [coIomuxAdd_fail]
          exact hq
        | true =>
          rw [coIomuxAdd_ok]
          exact hq

theorem runOp_ctl (s : St) (k : Nat) (op : Op) : (runOp s k op).Ends fun t => t.ctl = s.ctl := by
  by_cases hio : (Act.call op).isIo = false
  · exact (runOp_quiet hio).mono fun t h => h.ctl
  · cases op with
    | io a => exact coIo_ctl s a
    | ioAsync a => exact coIoAsync_quiet.mono fun t h => h.ctl
    | _ => simp [Act.isIo] at hio

theorem resume_ctl (s : St) (c : Nat) (e : ResumeEnv) (f : Frame) :
    (resume s c e f).Ends fun t => t.ctl = s.ctl := by
  by_cases hf : ∃ x, f = .waitIo x
  · obtain ⟨x, rfl⟩ := hf
    obtain ⟨r, hr⟩ := resumeIo_eq s c x e.again
    simp only [resume, hr]
    refine (resumeWaitIo_quiet x).ctl.trans ?_
    unfold coIomuxDel
    split <;> rfl
  · exact (resume_quiet fun x hx => hf ⟨x, hx⟩).mono fun t h => h.ctl

theorem settle_not_idle {o : Outcome} {k n : Nat} {ctl : Ctl} (ho : o.Ends fun t => t.ctl = ctl)
    (hn : ctl ≠ .idle n) : (settle s k o).ctl ≠ .idle n := by
  cases o with
  | ret r t =>
    simp only [settle, St.emit]
    rw [show t.ctl = ctl from ho]
    exact hn
  | swap t => simp [settle]
  | abort => simp [settle]

/-- The timer loop ends at a deadline that has not come yet, unless everything stops. -/
theorem timerLoop_top {now : Nat} (n : Nat) (s : St) (hn : s.timerHeap.entries.length ≤ n) :
    (timerLoop now n s).ctl = .aborted ∨
      ∀ c, coTimerHeapPeek (timerLoop now n s).timerHeap = some c →
        now < ((timerLoop now n s).co c).wakeupTime := by
  induction n generalizing s with
  | zero =>
    have hnil : s.timerHeap.entries = [] := List.eq_nil_of_length_eq_zero (by omega)
    simp [timerLoop, coTimerHeapPeek, hnil]
  | succ n ih =>
    simp only [timerLoop, coTimerHeapPeek]
    cases he : s.timerHeap.entries with
    | nil => simp [he]
    | cons d rest =>
      simp only [List.head?_cons]
      split
      · exact .inl rfl
      split
      · rename_i hlt
        right
        intro c hc
        simp only [he, List.head?_cons, Option.some.injEq] at hc
        exact hc ▸ hlt
      · refine ih _ ?_
        have hlen : (coTimerHeapPop s.key s.timerHeap).2.entries.length = rest.length :=
          (coTimerHeapPop_perm s.key he).2.length_eq
        rw [he, List.length_cons] at hn
        rw [(expireTop_heap_ctl s d).1, hlen]
        omega

/-- The scheduler becomes idle by a timer phase, with every due deadline processed and
nobody ready. -/
theorem step_idle {n : Nat} (hp : Placed run s) (hs : step s a = some s')
    (hidle : s'.ctl = .idle n) :
    a = .timers n ∧ (∀ c, coTimerHeapPeek s'.timerHeap = some c → n < (s'.co c).wakeupTime) ∧
      s'.queues .ready = [] := by
  cases a with
  | run =>
    obtain ⟨-, rfl⟩ := step_run hs
    cases hidle
  | timers now =>
    obtain ⟨cur, hi, -⟩ := hp
    have htop := @timerLoop_top now s.timerHeap.entries.length (s.emit (.tick now))
      (Nat.le_refl _)
    obtain ⟨-, ⟨-, rfl⟩ | ⟨-, t, ht, hloop, rfl⟩⟩ := hi.timers_eq hs
    · cases hidle
    rw [← ht, hloop] at htop
    have htop := htop.resolve_left (by simp)
    dsimp only at hidle
    split at hidle
    · rename_i hempty
      cases hidle
      exact ⟨rfl, htop, List.isEmpty_iff.mp hempty⟩
    · cases hidle
  | idle p =>
    obtain ⟨now, -, -, rfl⟩ := step_idlePhase hs
    rcases idlePhase_ctl s now p with h | h <;> rw [h] at hidle <;> cases hidle
  | schedule e =>
    obtain ⟨-, rfl⟩ := step_schedule hs
    obtain ⟨-, he⟩ | ⟨c, rest, -, ⟨-, he⟩ | ⟨-, he⟩⟩ := schedule_cases s e
    · rw [he] at hidle
      cases hidle
    · rw [he] at hidle
      cases hidle
    · rw [he] at hidle
      exact absurd hidle (settle_not_idle (resume_ctl _ c e _) (by simp [switchTo, St.emit]))
  | spawn e =>
    obtain ⟨hu, rfl⟩ := step_spawn hs
    have := (coSpawn_quiet (s := s) e).ctl
    simp only [St.emit] at hidle
    rw [this] at hidle
    simp [inUserCode, hidle] at hu
  | call op =>
    obtain ⟨hu, rfl⟩ := step_call hs
    have hctl : (beginCall s op).ctl = s.ctl := by
      simp only [beginCall]
      split <;> rfl
    refine absurd hidle (settle_not_idle (runOp_ctl _ s.calls op) fun hn => ?_)
    rw [hctl] at hn
    simp [inUserCode, hn] at hu
  | finish =>
    obtain ⟨c, -, rfl⟩ := step_finish hs
    cases hidle

/-! ## Runs -/

/-- The ranges of the argument types: `uint32_t`, and `int64_t` for I/O. -/
def Act.inRange : Act → Bool
  | .call (.sleep msec _ _) => msec < 2 ^ 32
  | .call (.condTimedwait _ _ timeoutMs _ _) => timeoutMs < 2 ^ 32
  | .call (.io a) => a.timeoutMs < 2 ^ 63
  | .call (.ioAsync a) => a.timeoutMs < 2 ^ 63
  | _ => true

/-- A non-decreasing clock below `2 ^ 63`, and no timer left behind. -/
def clocked (t : Timed) (a : Act) : Bool :=
  t.monotone a && (a.clock.all fun n => n < 2 ^ 63) && a.inRange && leakless t.st a

def Clocked (cfg : Config) : Timed → Prop :=
  Reach Timed.step (fun t a => clocked t a = true) ⟨init cfg, 0⟩

structure Timed.Inv (t : Timed) : Prop where
  placed : Placed False t.st
  now : t.now < 2 ^ 63
  due : Due (fun w => w < t.now + 2 ^ 63) t.st
  idle : ∀ n, t.st.ctl = .idle n → n = t.now ∧
    ∀ c, coTimerHeapPeek t.st.timerHeap = some c → n < (t.st.co c).wakeupTime

/-- A deadline set at a clock value lies less than `2 ^ 63` after it. -/
theorem due_lt {op : Op} {w n : Nat} (hr : (Act.call op).inRange = true) (hw : op.due = some w)
    (hn : (Act.call op).clock.getD n < 2 ^ 63) : w < (Act.call op).clock.getD n + 2 ^ 63 := by
  cases op with
  | sleep msec now ok | condTimedwait _ _ msec now ok =>
    simp only [Op.due, Option.some.injEq] at hw
    simp only [Act.inRange, decide_eq_true_eq] at hr
    simp only [Act.clock, Option.getD_some] at hn ⊢
    omega
  | io a | ioAsync a =>
    simp only [Op.due, Option.some.injEq] at hw
    simp only [Act.inRange, decide_eq_true_eq] at hr
    simp only [Act.clock, Option.getD_some] at hn ⊢
    omega
  | _ => cases hw

theorem Timed.Inv.step {t t' : Timed} (h : t.Inv) (hg : clocked t a = true)
    (hs : t.step a = some t') : t'.Inv := by
  simp only [clocked, Bool.and_eq_true] at hg
  obtain ⟨⟨⟨hmono, hlt⟩, hrange⟩, hleak⟩ := hg
  have hl : leaks t.st a = false := by simpa [leakless] using hleak
  have hst := t.step_st hs
  have hnow := t.step_now hs
  have hle := t.now_le hs hmono
  have hlt' : t'.now < 2 ^ 63 := by
    rw [hnow]
    cases hc : a.clock with
    | none => exact h.now
    | some n => simpa [hc] using hlt
  refine ⟨h.placed.step (fun h => h.elim) hl hst, hlt', ?_, fun n hn => ?_⟩
  · have hdue : Due (fun w => w < t'.now + 2 ^ 63) t.st := by
      intro c hc
      have := h.due c hc
      omega
    refine hdue.step h.placed hl hst ?_
    rintro op rfl w hw
    rw [hnow] at hlt' ⊢
    exact due_lt hrange hw hlt'
  · obtain ⟨rfl, htop, -⟩ := step_idle h.placed hst hn
    exact ⟨hnow.symm, htop⟩

theorem Clocked.inv {cfg : Config} {t : Timed} (h : Clocked cfg t) : t.Inv := by
  refine Reach.invariant h ⟨placed_init cfg, Nat.two_pow_pos 63, fun c hc => ?_, fun n hn => ?_⟩
    fun _ _ _ hi hg hs => hi.step hg hs
  · cases hc
  · cases hn

/-! ## The value -/

/-- The earliest deadline in the timer heap. -/
def Earliest (s : St) (w : Nat) : Prop :=
  (∃ c ∈ s.timerHeap.entries, (s.co c).wakeupTime = w) ∧
    ∀ c ∈ s.timerHeap.entries, w ≤ (s.co c).wakeupTime

/-- The poll neither sleeps past the earliest deadline nor spins. -/
def PollTimely (s : St) (now : Nat) : Prop :=
  ∀ w, Earliest s w → 1 ≤ ioTimeoutMs s now ∧ ioTimeoutMs s now ≤ (w : Int) - now

/-- The low 32 bits of the time to the earliest deadline are a positive `int`. -/
def FitsInt (s : St) (now : Nat) : Prop :=
  ∀ w, Earliest s w → 1 ≤ (w - now) % 2 ^ 32 ∧ (w - now) % 2 ^ 32 < 2 ^ 31

theorem toInt64_sub {w now : Nat} (hlt : now < w) (hw : w < now + 2 ^ 63) :
    toInt64 (w + (2 ^ 64 - now % 2 ^ 64)) = (w : Int) - now := by
  unfold toInt64
  split <;> omega

theorem Timed.Inv.poll_value {t : Timed} {now : Nat} (h : t.Inv) (hidle : t.st.ctl = .idle now)
    (hne : t.st.timerHeap.entries ≠ []) :
    ∃ w, Earliest t.st w ∧ now < w ∧ ioTimeoutMs t.st now = toInt32 ((w : Int) - now) := by
  obtain ⟨rfl, htop⟩ := h.idle now hidle
  cases he : t.st.timerHeap.entries with
  | nil => exact absurd he hne
  | cons c rest =>
    have hpeek : coTimerHeapPeek t.st.timerHeap = some c := by simp [coTimerHeapPeek, he]
    obtain ⟨cur, hi, -⟩ := h.placed
    obtain ⟨-, -, -, hmin⟩ := coTimerHeapPop_spec hi.ordered he
    have hc : c ∈ t.st.timerHeap.entries := by simp [he]
    have hlt := htop c hpeek
    have hdue := h.due c (Routine.timed_of_mayTimer (hi.mem_heap hc)).1
    refine ⟨(t.st.co c).wakeupTime, ⟨⟨c, hc, rfl⟩, hmin⟩, hlt, ?_⟩
    simp only [ioTimeoutMs, hpeek]
    rw [toInt64_sub hlt hdue, if_pos (by omega)]

theorem Earliest.unique {w w' : Nat} (h : Earliest s w) (h' : Earliest s w') : w = w' := by
  obtain ⟨⟨c, hc, rfl⟩, hmin⟩ := h
  obtain ⟨⟨d, hd, rfl⟩, hmin'⟩ := h'
  exact Nat.le_antisymm (hmin d hd) (hmin' c hc)

/-- **The idle poll is timely** exactly when the cast to `int` keeps a positive number. -/
theorem poll_timely_iff {cfg : Config} {t : Timed} {now : Nat} (h : Clocked cfg t)
    (hidle : t.st.ctl = .idle now) (hne : t.st.timerHeap.entries ≠ []) :
    PollTimely t.st now ↔ FitsInt t.st now := by
  obtain ⟨w, hw, hlt, hv⟩ := h.inv.poll_value hidle hne
  have hcast : 1 ≤ toInt32 ((w : Int) - now) ∧ toInt32 ((w : Int) - now) ≤ (w : Int) - now ↔
      1 ≤ (w - now) % 2 ^ 32 ∧ (w - now) % 2 ^ 32 < 2 ^ 31 := by
    unfold toInt32
    split <;> omega
  constructor
  · intro hp w' hw'
    rw [hw'.unique hw]
    exact hcast.mp (hv ▸ hp w hw)
  · intro hf w' hw'
    rw [hw'.unique hw, hv]
    exact hcast.mpr (hf w hw)

/-- One coroutine sleeps; the scheduler becomes idle at the same time. -/
def sleepRun (msec : Nat) : List Act :=
  [spawnOk, .run] ++ turn ++ [Act.call (.sleep msec 0 true), .timers 0]

theorem poll_timely_iff_sleep :
    ∃ t, runGuarded Timed.step clocked ⟨init (byteConfig 0), 0⟩ (sleepRun 1000) = some t ∧
      t.st.ctl = .idle 0 ∧ t.st.timerHeap.entries = [1] ∧ ioTimeoutMs t.st 0 = 1000 ∧
      (PollTimely t.st 0 ↔ FitsInt t.st 0) := by
  have hrun : (runGuarded Timed.step clocked ⟨init (byteConfig 0), 0⟩ (sleepRun 1000)).map
      (fun t => (t.st.ctl, t.st.timerHeap.entries, ioTimeoutMs t.st 0)) =
      some (.idle 0, [1], 1000) := by
    decide +kernel
  obtain ⟨t, ht, he⟩ := Option.map_eq_some_iff.mp hrun
  simp only [Prod.mk.injEq] at he
  exact ⟨t, ht, he.1, he.2.1, he.2.2, poll_timely_iff (reach_of_runGuarded ht) he.1
    (by simp [he.2.1])⟩

/-- `co_sleep(UINT32_MAX)`: the poll gets -1 and waits for ever. -/
theorem poll_waits_forever :
    ∃ t, runActs Timed.step ⟨init (byteConfig 0), 0⟩ (sleepRun (2 ^ 32 - 1)) = some t ∧
      t.st.ctl = .idle 0 ∧ t.st.timerHeap.entries = [1] ∧ ioTimeoutMs t.st 0 = -1 ∧
      ¬ PollTimely t.st 0 := by
  have hrun : (runActs Timed.step ⟨init (byteConfig 0), 0⟩ (sleepRun (2 ^ 32 - 1))).map
      (fun t => (t.st.ctl, t.st.timerHeap.entries, ioTimeoutMs t.st 0)) =
      some (.idle 0, [1], -1) := by
    decide +kernel
  obtain ⟨t, ht, he⟩ := Option.map_eq_some_iff.mp hrun
  simp only [Prod.mk.injEq] at he
  refine ⟨t, ht, he.1, he.2.1, he.2.2, fun hp => ?_⟩
  have hw : Earliest t.st (t.st.co 1).wakeupTime :=
    ⟨⟨1, by simp [he.2.1], rfl⟩, fun c hc => by simp_all⟩
  have := (hp _ hw).1
  rw [he.2.2] at this
  omega

end Libco
