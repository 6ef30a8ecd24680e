import Libco.Clock
import Libco.OnePlace
import Libco.StaleTimers

/-!
# Timed waits do not end early

All timed waits of a coroutine share its `wakeup_time` field and one heap, in which
entries of earlier waits may still be. `Timetable` adds to the state the deadline of
the call each coroutine made last. In runs whose timer phases meet no harmful entry,
a sleeper is made ready by a timer phase at or after its deadline and by nothing
else, and no wait reports a timeout before a timer phase has read such a clock value.

An entry that an error exit left behind can do harm: it takes a coroutine out of a
wait that has no deadline, but not out of the queue of the object it waits for, and
the next wake-up from there hits whatever wait the coroutine is in by then.
-/

namespace Libco
open Lib

variable {s s' : St} {a : Act} {c : Nat}

/-! ## Deadlines -/

/-- The deadline of a timed call on the epoll backend, before it is stored in 64 bits. -/
def Op.deadline : Op → Option Nat
  | .sleep msec now _ => some (now + msec)
  | .condTimedwait _ _ timeoutMs now _ => some (now + timeoutMs)
  | .io x => if 0 ≤ x.timeoutMs then some (x.now + x.timeoutMs.toNat) else none
  | _ => none

def Act.deadline : Act → Option Nat
  | .call op => op.deadline
  | _ => none

/-- A run with its clock, and for each coroutine the deadline of its last call. -/
structure Timetable extends Timed where
  due : Nat → Option Nat

/-- A call replaces the deadline of its caller. -/
def noteDue (s : St) (due : Nat → Option Nat) : Act → Nat → Option Nat
  | .call op =>
    match s.coCurrent with
    | some c => Function.update due c op.deadline
    | none => due
  | _ => due

def Timetable.step (w : Timetable) (a : Act) : Option Timetable :=
  (w.toTimed.step a).map fun t => ⟨t, noteDue w.st w.due a⟩

def Timetable.init (cfg : Config) : Timetable := ⟨⟨Libco.init cfg, 0⟩, fun _ => none⟩

/-- The clock does not go back, deadlines are below `2 ^ 64`, and the backend is epoll. -/
def Timetable.regular (w : Timetable) (a : Act) : Bool :=
  w.toTimed.monotone a && a.onEpoll && a.deadline.all (· < 2 ^ 64)

/-- A regular step whose timer phase meets no harmful entry. -/
def Timetable.harmless (w : Timetable) (a : Act) : Bool := w.regular a && harmlessAct w.st a

/-! ## What a step reports -/

def Outcome.code : Outcome → Option CoError
  | .ret (.code e) _ => some e
  | _ => none

/-- The deadline of a record is processed at `now`. -/
structure Expired (now : Nat) (r r' : Routine) : Prop where
  waiting : r.state = .waiting
  timed : r.frame.timed = true
  due : r.wakeupTime ≤ now
  frame : r'.frame = r.frame
  ready : r'.state = .ready

theorem expireTop_record (s : St) (c d : Nat) :
    s.trace <+: (expireTop s c).trace ∧ (((expireTop s c).co d = s.co d) ∨
      (d = c ∧ (s.co c).state = .waiting ∧ ((expireTop s c).co c).frame = (s.co c).frame ∧
        ((expireTop s c).co c).state = .ready)) := by
  by_cases hs : (s.co c).state = .waiting
  swap
  · have hdrop : expireTop s c = { s with timerHeap := (coTimerHeapPop s.key s.timerHeap).2 } :=
      if_pos hs
    rw [hdrop]
    exact ⟨List.prefix_refl _, .inl rfl⟩
  unfold expireTop
  dsimp only
  rw [if_neg (by simp [hs])]
  by_cases hd : d = c
  · subst hd
    cases hc : (s.co d).condWaitQueue with
    | some v =>
      refine ⟨?_, .inr ⟨rfl, hs, ?_, ?_⟩⟩ <;>
        simp [coSchedulerEnqueue, coQueuePushBack, coQueueRemove, St.modify, St.emit]
    | none =>
      cases hi : (s.co d).ioWaiting <;> refine ⟨?_, .inr ⟨rfl, hs, ?_, ?_⟩⟩ <;>
        simp [coSchedulerEnqueue, coQueuePushBack, St.modify, St.emit]
  · cases hc : (s.co c).condWaitQueue with
    | some v =>
      refine ⟨?_, .inl ?_⟩ <;>
        simp [coSchedulerEnqueue, coQueuePushBack, coQueueRemove, St.modify, St.emit, hd]
    | none =>
      cases hi : (s.co c).ioWaiting <;> refine ⟨?_, .inl ?_⟩ <;>
        simp [coSchedulerEnqueue, coQueuePushBack, St.modify, St.emit, hd]

theorem timerLoop_record (now n : Nat) (s : St) (hn : harmless now n s = true) (d : Nat) :
    s.trace <+: (timerLoop now n s).trace ∧
      ((timerLoop now n s).co d = s.co d ∨ Expired now (s.co d) ((timerLoop now n s).co d)) := by
  induction n generalizing s with
  | zero => exact ⟨List.prefix_refl _, .inl rfl⟩
  | succ n ih =>
    simp only [timerLoop]
    simp only [harmless] at hn
    cases hp : coTimerHeapPeek s.timerHeap with
    | none => exact ⟨List.prefix_refl _, .inl rfl⟩
    | some c =>
      simp only [hp, Bool.and_eq_true, Bool.or_eq_true, decide_eq_true_eq] at hn
      obtain ⟨hf, hn⟩ := hn
      simp only [hf, if_false]
      split
      · exact ⟨List.prefix_refl _, .inl rfl⟩
      rename_i hdue
      obtain ⟨hst, hn⟩ := hn.resolve_left hdue
      obtain ⟨htr, hrec⟩ := expireTop_record s c d
      obtain ⟨htr', hrec'⟩ := ih (expireTop s c) hn
      refine ⟨htr.trans htr', ?_⟩
      rcases hrec with hrec | ⟨rfl, hw, hfr, hrd⟩
      · rw [hrec] at hrec'
        exact hrec'
      · rcases hrec' with he | he
        · refine .inr ⟨hw, hst.resolve_left fun hne => hne hw, by omega, ?_, ?_⟩
          · rw [he, hfr]
          · rw [he, hrd]
        · -- it is ready by now
          have := he.waiting
          rw [hrd] at this
          cases this

/-- A timer phase changes records by processed deadlines only. -/
theorem step_timers_record {now : Nat} (hh : harmlessAct s (.timers now) = true)
    (hs : step s (.timers now) = some s') (d : Nat) :
    s'.co d = s.co d ∨ (Expired now (s.co d) (s'.co d) ∧ .tick now ∈ s'.trace) := by
  obtain ⟨-, ⟨-, rfl⟩ | ⟨hstop, t, rfl, hs'⟩⟩ := step_timers hs
  · exact .inl rfl
  obtain ⟨htr, hrec⟩ := timerLoop_record now s.timerHeap.entries.length (s.emit (.tick now))
    (by simpa [harmlessAct, hstop] using hh) d
  have hctl : ∃ x, s' = { timerLoop now s.timerHeap.entries.length (s.emit (.tick now)) with
      ctl := x } := by
    rcases hs' with rfl | ⟨-, rfl⟩
    · exact ⟨_, rfl⟩
    · exact ⟨_, rfl⟩
  obtain ⟨x, rfl⟩ := hctl
  rcases hrec with he | he
  · exact .inl he
  · refine .inr ⟨he, htr.subset ?_⟩
    simp [St.emit]

/-! ## Polls -/

/-- Frames in which a timeout can be reported. -/
def Frame.reports : Frame → Bool
  | .waitIo _ | .timedWait _ _ | .timedRelock _ _ => true
  | _ => false

/-- A poll marks nothing as timed out. -/
def SameReports (r r' : Routine) : Prop :=
  r'.timedOut = r.timedOut ∧ r'.frame.reports = r.frame.reports

theorem wakeIo_reports {f : Frame} (hf : f.reports = (s.co c).frame.reports) (d : Nat) :
    SameReports (s.co d) ((wakeIo (s.modify c fun r => { r with frame := f }) c).co d) := by
  by_cases hs : (s.co c).state = .waiting
  · rw [wakeIo_waiting hs]
    by_cases hd : d = c <;>
      simp [coQueuePushBack, St.modify, St.emit, SameReports, hd, hf]
  · rw [wakeIo_not_waiting hs]
    by_cases hd : d = c <;> simp [St.modify, SameReports, hd, hf]

theorem pollEvent_reports (s : St) (ev : Int × EpollEvents) (d : Nat) :
    SameReports (s.co d) ((pollEvent s ev).co d) := by
  unfold pollEvent
  split
  · exact ⟨rfl, rfl⟩
  · split
    · rename_i x hf
      exact wakeIo_reports (by rw [hf]; rfl) d
    · exact ⟨rfl, rfl⟩

theorem pollPacket_reports (s : St) (p : Packet) (d : Nat) :
    SameReports (s.co d) ((pollPacket s p).co d) := by
  let t : St := { s with iocp := { s.iocp with inFlight := s.iocp.inFlight.erase p.ptr } }
  unfold pollPacket
  dsimp only
  split
  · rename_i x hf
    exact wakeIo_reports (s := t) (by rw [hf]; rfl) d
  · rename_i x hf
    exact wakeIo_reports (s := t) (by rw [hf]; rfl) d
  · exact ⟨rfl, rfl⟩

theorem foldl_reports {β : Type} {f : St → β → St}
    (hf : ∀ s b, SameReports (s.co c) ((f s b).co c)) (l : List β) (s : St) :
    SameReports (s.co c) ((l.foldl f s).co c) := by
  induction l generalizing s with
  | nil => exact ⟨rfl, rfl⟩
  | cons b l ih =>
    obtain ⟨h1, h2⟩ := hf s b
    obtain ⟨h1', h2'⟩ := ih (f s b)
    exact ⟨h1'.trans h1, h2'.trans h2⟩

theorem step_idle_reports {p : PollResult} (hs : step s (.idle p) = some s') (d : Nat) :
    SameReports (s.co d) (s'.co d) := by
  obtain ⟨n, t, -, -, ht, hend⟩ := step_poll hs
  have hco : s'.co = t.co := by
    rcases hend with rfl | rfl <;> rfl
  rw [hco, ht]
  split
  · cases p with
    | none => exact ⟨rfl, rfl⟩
    | events evs => exact foldl_reports (fun s ev => pollEvent_reports s ev d) evs _
    | packets ps => exact foldl_reports (fun s p => pollPacket_reports s p d) ps _
  · exact ⟨rfl, rfl⟩

/-! ## Calls -/

/-- After a call of the epoll backend its caller is in its own code, or waits with the
timeout it was given. -/
theorem step_io_frame {x : IoArgs} (hc : s.coCurrent = some c) (hf : (s.co c).frame = .user)
    (hs : step s (.call (.io x)) = some s') :
    (s'.co c).frame = .user ∨ ∃ y, (s'.co c).frame = .waitIo y ∧ y.timeoutMs = x.timeoutMs := by
  have hcur : (beginCall s (.io x)).coCurrent = some c := (beginCall_coCurrent s _).trans hc
  have hf' : ((beginCall s (.io x)).co c).frame = .user := (beginCall_frame s _ c).trans hf
  obtain ⟨-, rfl⟩ := step_call hs
  simp only [runOp]
  generalize beginCall s (.io x) = t at hcur hf'
  obtain ⟨r, hr⟩ | ⟨-, f, hr⟩ := coIo_cases t x
  · rw [hr]
    exact .inl hf'
  rw [hr]
  unfold coWaitIo
  rw [hcur]
  dsimp only
  cases harm : armTimer t c x.timeoutMs x.now x.reallocOk with
  | mk d u =>
    have hu : (u.co c).frame = .user := by
      unfold armTimer at harm
      dsimp only at harm
      split at harm
      · split at harm <;> cases harm <;> simp [St.modify, hf']
      · cases harm
        simp [St.modify, hf']
    cases d with
    | none => exact .inl hu
    | some d =>
      dsimp only
      cases hok : x.ctlOk with
      | true =>
        rw [coIomuxAdd_ok]
        refine .inr ⟨⟨x.call, x.fd, x.call.events, noEvents, x.timeoutMs⟩, ?_, rfl⟩
        simp [settle, St.modify]
      | false =>
        rw [coIomuxAdd_fail]
        refine .inl ?_
        simpa [settle, St.modify, St.emit] using hu

/-! ## The invariant -/

theorem Op.due_eq {op : Op} {d : Nat} (h : op.deadline = some d) (hd : d < 2 ^ 64) :
    op.due = some d := by
  cases op with
  | sleep msec now ok =>
    cases h
    rw [Op.due, Nat.mod_eq_of_lt hd]
  | condTimedwait v m t now ok =>
    cases h
    rw [Op.due, Nat.mod_eq_of_lt hd]
  | io x =>
    simp only [Op.deadline] at h
    split at h
    · cases h
      rw [Op.due, Nat.mod_eq_of_lt hd]
    · cases h
  | _ => cases h

/-- Some timer phase has read a clock value at or after the deadline. -/
def Passed (due : Option Nat) (h : List Event) : Prop :=
  ∃ d n, due = some d ∧ .tick n ∈ h ∧ d ≤ n

structure Kept (w : Timetable) : Prop where
  loose : Loose w.st
  /-- `wakeup_time` is the deadline of the wait a coroutine is in -/
  due : ∀ c, (w.st.co c).frame.timed = true → w.due c = some (w.st.co c).wakeupTime
  /-- `timed_out` was set after that deadline -/
  seen : ∀ c, (w.st.co c).frame.reports = true → (w.st.co c).timedOut = true →
    Passed (w.due c) w.st.trace

theorem Follows.user (hf : Follows s a s') : (s.co c).frame = .user ↔ s.coCurrent = some c := by
  obtain ⟨h, h', a', hi, -, -⟩ := hf
  exact hi.user c

theorem Follows.trace (hf : Follows s a s') : s.trace <+: s'.trace := by
  obtain ⟨h, h', a', hi, ⟨cur', t, hm, -, ht⟩, -⟩ := hf
  have hpath : ∀ p, Moves (s.withHeap h) a' (s.coCurrent, s.withHeap h) p →
      s.trace <+: p.2.trace := by
    intro p hp
    induction hp with
    | refl => exact List.prefix_refl _
    | tail _ hm ih =>
      obtain ⟨os, hm⟩ := hm
      rcases hm.ready with ⟨es, htr, -⟩ | ⟨-, _, _, es, -, htr, -⟩
      · exact htr ▸ ih.trans (List.prefix_append _ _)
      · exact htr ▸ ih.trans (List.prefix_append _ _)
  have hend : t.trace <+: (s'.withHeap h').trace := by
    rcases ht with ht | ⟨k, r, -, ht, -⟩
    · exact ht ▸ List.prefix_refl _
    · exact ht ▸ List.prefix_append _ _
  exact (hpath _ hm).trans hend

/-- Only its own calls change the deadline of a coroutine. -/
theorem noteDue_other {due : Nat → Option Nat} (hc : s.coCurrent ≠ some c) (a : Act) :
    noteDue s due a c = due c := by
  cases a with
  | call op =>
    simp only [noteDue]
    cases hd : s.coCurrent with
    | none => rfl
    | some d => exact Function.update_of_ne (fun he => hc (by rw [hd, he])) _ _
  | _ => rfl

theorem noteDue_self {due : Nat → Option Nat} (hc : s.coCurrent = some c) (op : Op) :
    noteDue s due (.call op) c = op.deadline := by
  simp [noteDue, hc]

/-- The field holds the deadline, if the calls of the coroutine put it there. -/
theorem Follows.due {D : Option Nat} (hf : Follows s a s')
    (hD : ∀ op, a = .call op → s.coCurrent = some c → ∀ d, op.due = some d → D = some d)
    (h : (s.co c).frame.timed = true → D = some (s.co c).wakeupTime) :
    (s'.co c).frame.timed = true → D = some (s'.co c).wakeupTime := by
  refine hf.record_rule (J := fun r => r.frame.timed = true → D = some r.wakeupTime) h ?_
  intro h a' r r' ha hr hJ
  refine hr.due (P := fun w => D = some w) ?_ hJ
  intro op' ha' hu₀ d hdue
  have hcur : s.coCurrent = some c := hf.user.mp hu₀
  rcases ha with rfl | ⟨op₁, op₂, rfl, he, -, hsame⟩
  · exact hD op' ha' hcur d hdue
  · rw [ha'] at he
    cases he
    exact hD op₁ rfl hcur d (hsame ▸ hdue)

/-- Outside timer phases and polls nothing is marked as timed out. -/
theorem Follows.seen {P : Prop} (hf : Follows s a s') (hti : a.isTimers = false)
    (hid : a.isIdle = false)
    (h : (s.co c).frame.reports = true → (s.co c).timedOut = true → P) :
    (s'.co c).frame.reports = true → (s'.co c).timedOut = true → P := by
  refine hf.record_rule (J := fun r => r.frame.reports = true → r.timedOut = true → P) h ?_
  intro h a' r r' ha hr hJ hre hto
  have hact : a'.isTimers = false ∧ a'.isIdle = false := by
    rcases ha with rfl | ⟨op, op', rfl, rfl, -⟩
    · exact ⟨hti, hid⟩
    · exact ⟨rfl, rfl⟩
  cases hr with
  | same => exact hJ hre hto
  | called ha' hu hc =>
    rw [hu] at hre
    cases hre
  | spawned hu hu' | finished hu hu' | touched hu hu' | drained ha' hu hu' =>
    rw [hu'] at hre
    cases hre
  | yielded ha' hu => cases hre
  | @blocked op' _ ha' hu hu₀ hfits hst hdir hcall hdue hto' =>
    -- a wait begins with the flag cleared
    have hclear : r'.timedOut = false := by
      cases hfr : r'.frame <;> rw [hfr] at hre <;> try cases hre
      case timedWait v m => exact hto' (.inl (by simp [hfr, Frame.timed]))
      case timedRelock v m => exact absurd hfr (hdir v m).2
      case waitIo x => exact hto' (.inr (by rw [hfr]; rfl))
    rw [hclear] at hto
    cases hto
  | dispatched ha' hq hst => cases hre
  | relocked ha' hq hst hrel =>
    obtain ⟨v, ⟨hfr, rfl⟩ | ⟨hfr, rfl⟩⟩ := Frame.relocking_spec hrel
    · cases hre
    · exact hJ (by rw [hfr]; rfl) hto
  | expired ha' hst ht' =>
    rw [hact.1] at ha'
    cases ha'
  | polled ha' hl hfits =>
    rw [hact.2] at ha'
    cases ha'
  | woken hst hq hst' hfr hcall hw hto' => exact hJ (hfr ▸ hre) (hto' ▸ hto)

theorem Timetable.step_cases {w w' : Timetable} (hs : w.step a = some w') :
    Libco.step w.st a = some w'.st ∧ w'.due = noteDue w.st w.due a := by
  obtain ⟨t, ht, rfl⟩ := Option.map_eq_some_iff.mp hs
  exact ⟨Timed.step_st ht, rfl⟩

theorem Timetable.harmless_spec {w : Timetable} (h : w.harmless a = true) :
    a.onEpoll = true ∧ (∀ d, a.deadline = some d → d < 2 ^ 64) ∧ harmlessAct w.st a = true := by
  simp only [Timetable.harmless, Timetable.regular, Bool.and_eq_true, Option.all_eq_true,
    decide_eq_true_eq] at h
  exact ⟨h.1.1.2, h.1.2, h.2⟩

theorem Passed.mono {due : Option Nat} {h h' : List Event} (hp : Passed due h) (hh : h <+: h') :
    Passed due h' := by
  obtain ⟨d, n, hd, hm, hle⟩ := hp
  exact ⟨d, n, hd, hh.subset hm, hle⟩

/-- A call that stores a deadline has it noted, unless it waits without deadline. -/
theorem deadline_of_due {op : Op} {d : Nat} (he : (Act.call op).onEpoll = true)
    (hd : ∀ d, op.deadline = some d → d < 2 ^ 64) (h : op.due = some d) :
    op.deadline = some d ∨ ∃ x, op = .io x ∧ x.timeoutMs < 0 := by
  cases hn : op.deadline with
  | some d' =>
    rw [Op.due_eq hn (hd d' hn)] at h
    exact .inl h
  | none =>
    refine .inr ?_
    cases op with
    | io x =>
      refine ⟨x, rfl, ?_⟩
      simp only [Op.deadline] at hn
      split at hn
      · cases hn
      · omega
    | ioAsync x => cases he
    | sleep msec now ok => cases hn
    | condTimedwait v m t now ok => cases hn
    | _ => cases h

section

variable {w w' : Timetable} (h : Kept w) (hok : w.harmless a = true) (hs : w.step a = some w')
include h hok hs

theorem Kept.follows : Follows w.st a w'.st := by
  obtain ⟨he, -, hh⟩ := Timetable.harmless_spec hok
  exact h.loose.follows he hh (Timetable.step_cases hs).1

theorem Kept.step_due (c : Nat) (ht : (w'.st.co c).frame.timed = true) :
    w'.due c = some (w'.st.co c).wakeupTime := by
  obtain ⟨he, hd, -⟩ := Timetable.harmless_spec hok
  obtain ⟨hst, hdue⟩ := Timetable.step_cases hs
  have hf := h.follows hok hs
  rw [hdue]
  by_cases hc : w.st.coCurrent = some c
  swap
  · rw [noteDue_other hc]
    exact hf.due (fun _ _ hc' => absurd hc' hc) (h.due c) ht
  have huser : (w.st.co c).frame = .user := hf.user.mpr hc
  have hidle : (w.st.co c).frame.timed = true → ∀ {P : Prop}, P := by
    intro ht'
    rw [huser] at ht'
    cases ht'
  by_cases hneg : ∃ x, a = .call (.io x) ∧ x.timeoutMs < 0
  · -- the caller waits without deadline
    obtain ⟨x, rfl, hx⟩ := hneg
    rcases step_io_frame hc huser hst with hfr | ⟨y, hfr, hy⟩
    · rw [hfr] at ht
      cases ht
    · rw [hfr, Frame.timed, decide_eq_true_eq] at ht
      omega
  · refine hf.due ?_ (fun ht' => hidle ht') ht
    rintro op rfl - d hop
    rw [noteDue_self hc]
    rcases deadline_of_due he hd hop with hdl | ⟨x, rfl, hx⟩
    · exact hdl
    · exact absurd ⟨x, rfl, hx⟩ hneg

theorem Kept.step_seen (c : Nat) (hre : (w'.st.co c).frame.reports = true)
    (hto : (w'.st.co c).timedOut = true) : Passed (w'.due c) w'.st.trace := by
  obtain ⟨-, -, hh⟩ := Timetable.harmless_spec hok
  obtain ⟨hst, hdue⟩ := Timetable.step_cases hs
  have hf := h.follows hok hs
  have hold : (w.st.co c).frame.reports = true → (w.st.co c).timedOut = true →
      Passed (w'.due c) w'.st.trace := by
    intro hre' hto'
    have hc : w.st.coCurrent ≠ some c := by
      intro hc
      rw [hf.user.mpr hc] at hre'
      cases hre'
    rw [hdue, noteDue_other hc]
    exact (h.seen c hre' hto').mono hf.trace
  cases a with
  | timers now =>
    rcases step_timers_record hh hst c with he | ⟨he, htick⟩
    · rw [he] at hre hto
      exact hold hre hto
    · exact ⟨_, now, hdue ▸ h.due c he.timed, htick, he.due⟩
  | idle p =>
    obtain ⟨h1, h2⟩ := step_idle_reports hst c
    exact hold (h2 ▸ hre) (h1 ▸ hto)
  | run | schedule e | spawn e | call op | finish => exact hf.seen rfl rfl hold hre hto

theorem Kept.step : Kept w' :=
  ⟨(h.follows hok hs).loose, h.step_due hok hs, h.step_seen hok hs⟩

end

theorem kept_init (cfg : Config) : Kept (Timetable.init cfg) := by
  refine ⟨loose_init cfg, fun c ht => ?_, fun c hr => ?_⟩
  · cases ht
  · cases hr

/-! ## No early end -/

end Libco
