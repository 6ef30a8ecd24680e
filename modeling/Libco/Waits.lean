import Libco.Kernel
import Libco.StaleTimers

/-!
# I/O waits, one by one

What a step can do to a coroutine inside `co_wait_io`: `WaitStep` lists it once, for the
epoll backend and for every step that can be followed, and the invariants of waits are
checked on it. `step_registrations` does the same for the registrations.
-/

namespace Libco
open Lib

variable {s s' t : St} {a : Act} {c : Nat}

/-- A wait of `co_wait_io`: its context, the state of its coroutine and `timed_out`. -/
structure IoWait where
  ctx : IoWaitCtx
  state : CoState
  timedOut : Bool
  deriving DecidableEq

/-- The wait a coroutine is in, also when it was woken and not resumed yet. -/
def Routine.ioWait (r : Routine) : Option IoWait :=
  match r.frame with
  | .waitIo x => some ⟨x, r.state, r.timedOut⟩
  | _ => none

theorem Routine.ioWait_of_frame {r : Routine} {x : IoWaitCtx} (h : r.frame = .waitIo x) :
    r.ioWait = some ⟨x, r.state, r.timedOut⟩ := by
  simp [Routine.ioWait, h]

theorem Routine.ioWait_eq_some {r : Routine} {i : IoWait} (h : r.ioWait = some i) :
    r.frame = .waitIo i.ctx ∧ r.state = i.state ∧ r.timedOut = i.timedOut := by
  unfold Routine.ioWait at h
  split at h
  · rename_i x hx
    cases h
    exact ⟨hx, rfl, rfl⟩
  · cases h

theorem Routine.ioWait_eq_none {r : Routine} (h : ∀ x, r.frame ≠ .waitIo x) : r.ioWait = none := by
  cases hi : r.ioWait with
  | none => rfl
  | some i => exact absurd (Routine.ioWait_eq_some hi).1 (h _)

/-- The context that `co_wait_io` makes for a call. -/
def IoArgs.ctx (y : IoArgs) : IoWaitCtx := ⟨y.call, y.fd, y.call.events, noEvents, y.timeoutMs⟩

/-- An event is written into a wait, which it ends if it is pending. -/
def IoWait.report (i : IoWait) (e : EpollEvents) : IoWait :=
  { i with
    ctx := { i.ctx with revents := e.revents }
    state := if i.state = .waiting then .ready else i.state }

/-- What a step does to the wait of `c`. -/
inductive WaitStep (s : St) (a : Act) (c : Nat) : Option IoWait → Option IoWait → Prop
  | same {i : Option IoWait} : WaitStep s a c i i
  | began {y : IoArgs} (ha : a = .call (.io y)) (hc : s.coCurrent = some c) :
      WaitStep s a c none (some ⟨y.ctx, .waiting, false⟩)
  | reported {i : IoWait} {evs : List (Int × EpollEvents)} {ev : Int × EpollEvents}
      {reg : Registration} (ha : a = .idle (.events evs)) (hev : ev ∈ evs)
      (hreg : s.epoll ev.1 = some reg) (hptr : reg.ptr.1 = c) :
      WaitStep s a c (some i) (some (i.report ev.2))
  | expired {i : IoWait} (ha : a.isTimers = true) (hst : i.state = .waiting)
      (hto : 0 ≤ i.ctx.timeoutMs) :
      WaitStep s a c (some i) (some { i with state := .ready, timedOut := true })
  | ended {i : IoWait} {rest : List Nat} (ha : a.isSchedule = true)
      (hq : s.queues .ready = c :: rest) : WaitStep s a c (some i) none

/-! ## Polls -/

theorem wakeIo_ioWait {f : Frame} (d : Nat) :
    ((wakeIo (s.modify c fun r => { r with frame := f }) c).co d).ioWait =
      if d = c then
        ({ s.co c with
          frame := f
          state := if (s.co c).state = .waiting then .ready else (s.co c).state } : Routine).ioWait
      else (s.co d).ioWait := by
  by_cases hs : (s.co c).state = .waiting
  · rw [wakeIo_waiting hs]
    by_cases hd : d = c <;> simp [hd, hs, coQueuePushBack, St.modify, St.emit, Routine.ioWait]
  · rw [wakeIo_not_waiting hs]
    by_cases hd : d = c <;> simp [hd, hs, St.modify, Routine.ioWait]

theorem pollEvent_ioWait (s : St) (ev : Int × EpollEvents) (d : Nat) :
    ((pollEvent s ev).co d).ioWait = (s.co d).ioWait ∨
      ∃ reg i, s.epoll ev.1 = some reg ∧ reg.ptr.1 = d ∧ (s.co d).ioWait = some i ∧
        ((pollEvent s ev).co d).ioWait = some (i.report ev.2) := by
  unfold pollEvent
  split
  · exact .inl rfl
  rename_i reg hreg
  split
  · rename_i x hx
    rw [wakeIo_ioWait]
    split
    · rename_i hd
      subst hd
      refine .inr ⟨reg, _, hreg, rfl, Routine.ioWait_of_frame hx, ?_⟩
      simp [Routine.ioWait, IoWait.report]
    · exact .inl rfl
  · exact .inl rfl

theorem pollPacket_ioWait (s : St) (p : Packet) (d : Nat) :
    ((pollPacket s p).co d).ioWait = (s.co d).ioWait := by
  let t : St := { s with iocp := { s.iocp with inFlight := s.iocp.inFlight.erase p.ptr } }
  unfold pollPacket
  dsimp only
  split
  · rename_i x hx
    refine (wakeIo_ioWait (s := t) d).trans ?_
    split
    · rename_i hd
      simp [Routine.ioWait, hd, hx]
    · rfl
  · rename_i x hx
    refine (wakeIo_ioWait (s := t) d).trans ?_
    split
    · rename_i hd
      simp [Routine.ioWait, hd, hx]
    · rfl
  · rfl

/-- Two reports of a poll are as good as the second. -/
theorem IoWait.report_report (i : IoWait) (e e' : EpollEvents) :
    (i.report e).report e' = i.report e' := by
  by_cases hs : i.state = .waiting <;> simp [IoWait.report, hs]

theorem poll_ioWait (evs : List (Int × EpollEvents)) (s : St) (d : Nat) :
    ((evs.foldl pollEvent s).co d).ioWait = (s.co d).ioWait ∨
      ∃ ev ∈ evs, ∃ reg i, s.epoll ev.1 = some reg ∧ reg.ptr.1 = d ∧ (s.co d).ioWait = some i ∧
        ((evs.foldl pollEvent s).co d).ioWait = some (i.report ev.2) := by
  induction evs generalizing s with
  | nil => exact .inl rfl
  | cons ev evs ih =>
    rw [List.foldl_cons]
    rcases ih (pollEvent s ev) with he | ⟨ev', hev', reg', i', hreg', hptr', hi', hr'⟩
    · rw [he]
      rcases pollEvent_ioWait s ev d with he' | ⟨reg, i, hreg, hptr, hi, hr⟩
      · exact .inl he'
      · exact .inr ⟨ev, by simp, reg, i, hreg, hptr, hi, hr⟩
    · rw [pollEvent_epoll] at hreg'
      refine .inr ⟨ev', by simp [hev'], reg', ?_⟩
      rcases pollEvent_ioWait s ev d with he | ⟨reg, i, hreg, hptr, hi, hr⟩
      · exact ⟨i', hreg', hptr', he ▸ hi', hr'⟩
      · rw [hr, Option.some.injEq] at hi'
        rw [← hi', IoWait.report_report] at hr'
        exact ⟨i, hreg', hptr', hi, hr'⟩

theorem step_idle_ioWait {p : PollResult} (hs : step s (.idle p) = some s') (d : Nat) :
    WaitStep s (.idle p) d (s.co d).ioWait (s'.co d).ioWait := by
  obtain ⟨n, t, -, -, ht, hend⟩ := step_poll hs
  have hco : s'.co = t.co := by
    rcases hend with rfl | rfl <;> rfl
  rw [hco, ht]
  split
  swap
  · exact .same
  cases p with
  | none => exact .same
  | events evs =>
    rcases poll_ioWait evs (s.emit (.poll (ioTimeoutMs s n))) d with
      he | ⟨ev, hev, reg, i, hreg, hptr, hi, hr⟩
    · rw [PollResult.apply, coIomuxPoll, he]
      exact .same
    · rw [PollResult.apply, coIomuxPoll, hr, show (s.co d).ioWait = some i from hi]
      exact .reported rfl hev hreg hptr
  | packets ps =>
    have hps : ∀ (ps : List Packet) (s : St),
        ((ps.foldl pollPacket s).co d).ioWait = (s.co d).ioWait := by
      intro ps
      induction ps with
      | nil => exact fun s => rfl
      | cons p ps ih => exact fun s => (ih _).trans (pollPacket_ioWait s p d)
    rw [PollResult.apply, coIomuxPollPackets, hps]
    exact .same

/-! ## Calls -/

theorem armTimer_record {timeoutMs : Int} {now : Nat} {ok : Bool} {o : Option Nat}
    (h : armTimer s c timeoutMs now ok = (o, t)) :
    (t.co c).frame = (s.co c).frame ∧ (t.co c).timedOut = false ∧ (t.co c).call = (s.co c).call := by
  unfold armTimer at h
  dsimp only at h
  split at h
  · split at h <;> cases h <;> simp [St.modify]
  · cases h
    simp [St.modify]

/-- `co_wait_io` in a coroutine fails before it waits, or registers its caller. -/
theorem coWaitIo_cases (x : IoArgs) (hc : s.coCurrent = some c) :
    (∃ e t, coWaitIo s x = .ret (.code e) t ∧ t.epoll = s.epoll ∧
      (t.co c).frame = (s.co c).frame ∧ (x.timeoutMs < 0 → x.ctlOk = false)) ∨
    ∃ t, coWaitIo s x = .swap t ∧ (t.co c).ioWait = some ⟨x.ctx, .waiting, false⟩ ∧
      t.epoll = Function.update s.epoll x.fd
        (some ⟨x.call.events.read, x.call.events.write, (c, (s.co c).call)⟩) := by
  unfold coWaitIo
  rw [hc]
  dsimp only
  cases harm : armTimer s c x.timeoutMs x.now x.reallocOk with
  | mk o t =>
    have hq := armTimer_quiet harm
    obtain ⟨hf, hto, hcall⟩ := armTimer_record harm
    cases o with
    | none =>
      refine .inl ⟨_, t, rfl, hq.epoll, hf, fun hneg => ?_⟩
      simp [armTimer, Int.not_le.mpr hneg] at harm
    | some d =>
      dsimp only
      cases hok : x.ctlOk with
      | false =>
        rw [coIomuxAdd_fail]
        exact .inl ⟨_, _, rfl, hq.epoll, by simpa [St.modify] using hf, fun _ => rfl⟩
      | true =>
        rw [coIomuxAdd_ok]
        refine .inr ⟨_, rfl, ?_, ?_⟩
        · simp [St.modify, Routine.ioWait, IoArgs.ctx, hto]
        · simp only [St.modify, hq.epoll, hcall]

theorem step_io_cases {y : IoArgs} (hc : s.coCurrent = some c) (hf : (s.co c).frame = .user)
    (hs : step s (.call (.io y)) = some s') :
    ((s'.co c).frame = .user ∧ s'.epoll = s.epoll) ∨
      (0 ≤ y.fd ∧ (s'.co c).ioWait = some ⟨y.ctx, .waiting, false⟩ ∧
        s'.epoll = Function.update s.epoll y.fd
          (some ⟨y.call.events.read, y.call.events.write, (c, s.calls)⟩)) := by
  have hcur : (beginCall s (.io y)).coCurrent = some c := (beginCall_coCurrent s _).trans hc
  have hf' : ((beginCall s (.io y)).co c).frame = .user := (beginCall_frame s _ c).trans hf
  have hcall : ((beginCall s (.io y)).co c).call = s.calls := by
    simp [beginCall, hc, St.modify]
  obtain ⟨-, rfl⟩ := step_call hs
  rw [← (beginCall_kernel s (.io y)).2.2, ← hcall]
  simp only [runOp]
  generalize beginCall s (.io y) = t at hcur hf'
  obtain ⟨r, hr⟩ | ⟨hw, f, hr⟩ := coIo_cases t y
  · rw [hr]
    exact .inl ⟨hf', rfl⟩
  rw [hr]
  obtain ⟨e, u, hu, he, hfr, -⟩ | ⟨u, hu, hi, he⟩ := coWaitIo_cases y hcur
  · rw [hu]
    exact .inl ⟨hfr.trans hf', he⟩
  · rw [hu]
    have hfd : 0 ≤ y.fd := by
      simp only [IoArgs.waits, Bool.and_eq_true, Bool.not_eq_true', Bool.or_eq_false_iff,
        decide_eq_false_iff_not, Int.not_lt] at hw
      exact hw.1.1
    exact .inr ⟨hfd, hi, he⟩

/-! ## Every step -/

/-- The wait of `c` in the course of a step: as before it, or its deadline was processed,
or it has ended. -/
def WaitMoved (s : St) (a : Act) (c : Nat) (r : Routine) : Prop :=
  r.ioWait = (s.co c).ioWait ∨
    (a.isTimers = true ∧ ∃ i, (s.co c).ioWait = some i ∧ i.state = .waiting ∧
      0 ≤ i.ctx.timeoutMs ∧ r.ioWait = some { i with state := .ready, timedOut := true }) ∨
    (a.isSchedule = true ∧ r.ioWait = none ∧ ∃ i rest, (s.co c).ioWait = some i ∧
      s.queues .ready = c :: rest)

/-- The other steps leave a wait alone, but for its deadline and its resumption. -/
theorem Follows.ioWait_rule (hf : Follows s a s') (hidle : a.isIdle = false)
    (hio : ∀ y, a = .call (.io y) → s.coCurrent ≠ some c) (he : a.onEpoll = true) :
    WaitStep s a c (s.co c).ioWait (s'.co c).ioWait := by
  have huser : (s.co c).frame = .user ↔ s.coCurrent = some c := by
    obtain ⟨h, h', a', hi, -, -⟩ := id hf
    exact hi.user c
  have hrule := hf.record_rule (c := c) (J := WaitMoved s a c) (.inl rfl) ?_
  · rcases hrule with h | ⟨ha, i, hi, hst, hto, h⟩ | ⟨ha, h, i, rest, hi, hq⟩
    · rw [h]
      exact .same
    · rw [h, hi]
      exact .expired ha hst hto
    · rw [h, hi]
      exact .ended ha hq
  intro h a' r r' halike hstep hJ
  have hsched : a'.isSchedule = true → a.isSchedule = true := by
    rcases halike with rfl | ⟨op, op', rfl, rfl, -⟩
    · exact id
    · exact fun h => by cases h
  have htimers : a'.isTimers = true → a.isTimers = true := by
    rcases halike with rfl | ⟨op, op', rfl, rfl, -⟩
    · exact id
    · exact fun h => by cases h
  -- a record that is in no wait, before and after
  have hout : r.ioWait = none → r'.ioWait = none → WaitMoved s a c r' := by
    intro h1 h2
    rcases hJ with hJ | ⟨-, i, -, -, -, hJ⟩ | ⟨ha, -, hJ⟩
    · exact .inl (h2.trans (h1.symm.trans hJ))
    · rw [h1] at hJ
      cases hJ
    · exact .inr (.inr ⟨ha, h2, hJ⟩)
  have hnone : ∀ {q : Routine} {f : Frame}, q.frame = f → (∀ x, f ≠ .waitIo x) → q.ioWait = none :=
    fun hq hf => Routine.ioWait_eq_none (hq ▸ hf)
  cases hstep with
  | same => exact hJ
  | called ha hfr hc => exact hout (hnone hfr (by simp)) (hnone hfr (by simp))
  | spawned hfr hfr' => exact hout (hnone hfr (by simp)) (hnone hfr' (by simp))
  | finished hfr hfr' => exact hout (hnone hfr (by simp)) (hnone hfr' (by simp))
  | yielded ha hfr => exact hout (hnone hfr (by simp)) (hnone rfl (by simp))
  | @blocked op r' ha hfr hf₀ hfits hst hdir hcall hdue hto =>
    refine hout (hnone hfr (by simp)) (Routine.ioWait_eq_none fun x hx => ?_)
    rw [hx] at hfits
    have hcur : s.coCurrent = some c := huser.mp hf₀
    rcases halike with rfl | ⟨op₁, op₂, rfl, rfl, hname, -⟩
    · subst ha
      cases op <;> simp only [Op.name, Frame.fits, Bool.false_eq_true] at hfits
      · exact hio _ rfl hcur
      · cases he
    · cases ha
      rw [hname] at hfits
      cases op₁ <;> simp only [Op.name, Frame.fits, Bool.false_eq_true] at hfits
      · exact hio _ rfl hcur
      · cases he
  | drained ha hfr hfr' => exact hout (hnone hfr (by simp)) (hnone hfr' (by simp))
  | touched hfr hfr' hcall => exact hout (hnone hfr (by simp)) (hnone hfr' (by simp))
  | @dispatched rest ha hq hst =>
    rcases hJ with hJ | ⟨ha', -⟩ | ⟨ha', -, hJ⟩
    · cases hi : (s.co c).ioWait with
      | none => exact .inl hi.symm
      | some i => exact .inr (.inr ⟨hsched ha, rfl, i, rest, hi, hq⟩)
    · have hs := hsched ha
      cases a <;> simp only [Act.isTimers, Act.isSchedule, Bool.false_eq_true] at ha' hs
    · exact .inr (.inr ⟨ha', rfl, hJ⟩)
  | @relocked rest m f ha hq hst hfr =>
    have hne : ∀ x, r.frame ≠ .waitIo x := by
      intro x hx
      rw [hx] at hfr
      cases hfr
    refine hout (Routine.ioWait_eq_none hne) (hnone (f := f) rfl fun x hx => ?_)
    have := Frame.relocking_isIo hfr
    rw [hx] at this
    cases this
  | expired ha hst ht =>
    cases hi : r.ioWait with
    | none =>
      refine hout hi (Routine.ioWait_eq_none fun x hx => ?_)
      rw [Routine.ioWait_of_frame (r := r) hx] at hi
      cases hi
    | some i =>
      obtain ⟨hfr, hst', hto⟩ := Routine.ioWait_eq_some hi
      rcases hJ with hJ | ⟨-, i', -, -, -, hJ⟩ | ⟨-, hJ, -⟩
      · refine .inr (.inl ⟨htimers ha, i, hJ ▸ hi, hst' ▸ hst, ?_, ?_⟩)
        · rw [hfr, Frame.timed, decide_eq_true_eq] at ht
          exact ht
        · simp [Routine.ioWait, hfr]
      · rw [hi, Option.some.injEq] at hJ
        rw [hst, hJ] at hst'
        cases hst'
      · rw [hi] at hJ
        cases hJ
  | polled ha hl hfits =>
    rcases halike with rfl | ⟨op, op', rfl, rfl, -⟩
    · rw [ha] at hidle
      cases hidle
    · cases ha
  | woken hst hq hst' hfr hcall hw hto =>
    have hne : ∀ x, r.frame ≠ .waitIo x := by
      intro x hx
      rw [hx] at hq
      cases hq
    exact hout (Routine.ioWait_eq_none hne) (Routine.ioWait_eq_none (hfr ▸ hne))

/-- **Inversion of steps, wait by wait.** -/
theorem Follows.ioWait (hf : Follows s a s') (hs : step s a = some s') (he : a.onEpoll = true)
    (c : Nat) : WaitStep s a c (s.co c).ioWait (s'.co c).ioWait := by
  by_cases hidle : a.isIdle = true
  · cases a <;> simp only [Act.isIdle, Bool.false_eq_true] at hidle
    exact step_idle_ioWait hs c
  by_cases hio : ∃ y, a = .call (.io y) ∧ s.coCurrent = some c
  · obtain ⟨y, rfl, hc⟩ := hio
    have huser : (s.co c).frame = .user := by
      obtain ⟨h, h', a', hi, -, -⟩ := hf
      exact (hi.user c).mpr hc
    rw [Routine.ioWait_eq_none (r := s.co c) (by simp [huser])]
    rcases step_io_cases hc huser hs with ⟨h, -⟩ | ⟨-, h, -⟩
    · rw [Routine.ioWait_eq_none (r := s'.co c) (by simp [h])]
      exact .same
    · rw [h]
      exact .began rfl hc
  · exact hf.ioWait_rule (by simpa using hidle) (fun y ha hc => hio ⟨y, ha, hc⟩) he

/-- **Registrations** are made by calls that begin to wait, and removed by those that are
resumed. -/
theorem step_registrations (hs : step s a = some s') (he : a.onEpoll = true)
    (huser : ∀ c, s.coCurrent = some c → (s.co c).frame = .user) :
    (s'.epoll = s.epoll ∧ ∀ c rest, a.isSchedule = true → s.queues .ready = c :: rest →
      (s.co c).ioWait = none) ∨
    (∃ y c, a = .call (.io y) ∧ s.coCurrent = some c ∧ 0 ≤ y.fd ∧
      (s'.co c).ioWait = some ⟨y.ctx, .waiting, false⟩ ∧
      s'.epoll = Function.update s.epoll y.fd
        (some ⟨y.call.events.read, y.call.events.write, (c, s.calls)⟩)) ∨
    ∃ c rest x, a.isSchedule = true ∧ s.queues .ready = c :: rest ∧
      (s.co c).frame = .waitIo x ∧ s'.epoll = (coIomuxDel s x.fd).epoll := by
  cases a with
  | idle p =>
    obtain ⟨n, t, -, -, ht, hend⟩ := step_poll hs
    refine .inl ⟨?_, fun _ _ h => by cases h⟩
    have hep : s'.epoll = t.epoll := by
      rcases hend with rfl | rfl <;> rfl
    rw [hep, ht]
    split
    · exact p.apply_epoll _
    · rfl
  | schedule e =>
    obtain ⟨-, rfl⟩ := step_schedule hs
    cases hq : s.queues .ready with
    | nil =>
      refine .inl ⟨?_, fun _ _ _ h => by cases h⟩
      rw [schedule_nil hq]
    | cons c rest =>
      rcases (schedule_epoll (e := e) hq).2 with ⟨hn, h⟩ | ⟨x, hx, h⟩
      · refine .inl ⟨h, fun d rest' _ hd => ?_⟩
        cases hd
        exact Routine.ioWait_eq_none hn
      · exact .inr (.inr ⟨c, rest, x, rfl, rfl, hx, h⟩)
  | call op =>
    have hcall : ∀ c rest, (Act.call op).isSchedule = true → s.queues .ready = c :: rest →
        (s.co c).ioWait = none := fun _ _ h => by cases h
    by_cases hop : (Act.call op).isIo = true
    swap
    · exact .inl ⟨(step_kernel hs (by simpa using hop) rfl rfl).1, hcall⟩
    cases op <;> simp only [Act.isIo, Bool.false_eq_true] at hop
    · rename_i y
      cases hc : s.coCurrent with
      | none =>
        refine .inl ⟨?_, hcall⟩
        have hcur : (beginCall s (.io y)).coCurrent = none := (beginCall_coCurrent s _).trans hc
        obtain ⟨-, rfl⟩ := step_call hs
        rw [← (beginCall_kernel s (.io y)).2.2]
        simp only [runOp]
        generalize beginCall s (.io y) = t at hcur
        obtain ⟨r, hr⟩ | ⟨-, f, hr⟩ := coIo_cases t y
        · rw [hr]
          rfl
        · rw [hr]
          simp only [coWaitIo, hcur]
          rfl
      | some c =>
        rcases step_io_cases hc (huser c hc) hs with ⟨-, h⟩ | ⟨h0, hi, h⟩
        · exact .inl ⟨h, hcall⟩
        · exact .inr (.inl ⟨y, c, rfl, rfl, h0, hi, h⟩)
    · cases he
  | run => exact .inl ⟨(step_kernel hs rfl rfl rfl).1, fun _ _ h => by cases h⟩
  | timers now => exact .inl ⟨(step_kernel hs rfl rfl rfl).1, fun _ _ h => by cases h⟩
  | spawn e => exact .inl ⟨(step_kernel hs rfl rfl rfl).1, fun _ _ h => by cases h⟩
  | finish => exact .inl ⟨(step_kernel hs rfl rfl rfl).1, fun _ _ h => by cases h⟩

/-! ## I/O frames -/

theorem coMutexLock_frame (m : Nat) : (coMutexLock s m).Ends fun t =>
    ∀ d, (t.co d).frame.isIo = true → (s.co d).frame.isIo = true := by
  unfold coMutexLock
  split <;> split
  · exact fun _ => id
  · exact fun _ => id
  · exact fun _ => id
  · rename_i c _ _
    intro d
    by_cases hd : d = c <;> simp [hd, coQueuePushBack, St.modify, St.emit, Frame.isIo]

theorem relock_frame {m : Nat} {f : Frame} {r : St → Ret} (hf : f.isIo = false) :
    (relock s c m f r).Ends fun t =>
      ∀ d, (t.co d).frame.isIo = true → (s.co d).frame.isIo = true := by
  have hlock := coMutexLock_frame (s := s) m
  unfold relock
  split
  · rename_i ho
    rw [ho] at hlock
    exact hlock
  · rename_i t ho
    rw [ho] at hlock
    intro d hd
    by_cases hdc : d = c
    · simp [hdc, St.modify, hf] at hd
    · exact hlock d (by simpa [hdc, St.modify] using hd)
  · trivial

/-- A resumption begins no I/O wait, apart from the second one of an asynchronous call. -/
theorem resume_frame {e : ResumeEnv} {f : Frame} (hf : ∀ x, f ≠ .waitAsync x) :
    (resume s c e f).Ends fun t =>
      ∀ d, (t.co d).frame.isIo = true → (s.co d).frame.isIo = true := by
  have hlock : ∀ m, (resumeLock s c m).Ends fun t =>
      ∀ d, (t.co d).frame.isIo = true → (s.co d).frame.isIo = true := by
    intro m
    unfold resumeLock
    split
    · exact fun _ => id
    · trivial
  cases f with
  | absent | freed | user => trivial
  | entry | yieldNow | sleep | send h | recv h | drainAsync x => exact fun _ => id
  | lock m => exact hlock m
  | condRelock v m => exact hlock m
  | timedRelock v m =>
    have hm := hlock m
    simp only [resume]
    split
    · rename_i ho
      rw [ho] at hm
      exact hm
    · exact hm
  | condWait v m => exact relock_frame rfl
  | timedWait v m =>
    simp only [resume, resumeTimedWait]
    split
    · exact relock_frame rfl
    · exact relock_frame rfl
  | waitIo x =>
    have hdel : (coIomuxDel s x.fd).co = s.co := by
      unfold coIomuxDel
      split <;> rfl
    obtain ⟨r, hr⟩ := resumeIo_eq s c x e.again
    simp only [resume, hr, Outcome.Ends, resumeWaitIo]
    intro d
    split
    · rw [hdel]
      exact id
    split
    · rw [hdel]
      exact id
    split
    · by_cases hd : d = c <;> simp [hd, St.modify, hdel]
    · rw [hdel]
      exact id
  | waitAsync x => exact absurd rfl (hf x)

/-- Whoever is in an I/O wait after a dispatch was in one before, and was not the one
switched to. -/
theorem schedule_isIo {e : ResumeEnv} {rest : List Nat} {d : Nat}
    (hq : s.queues .ready = c :: rest) (hf : ∀ x, (s.co c).frame ≠ .waitAsync x)
    (hio : ((coSchedulerSchedule s e).co d).frame.isIo = true) :
    d ≠ c ∧ (s.co d).frame.isIo = true := by
  let t : St := switchTo { s with queues := Function.update s.queues .ready rest } c
  have hswitch : (t.co d).frame.isIo = true → d ≠ c ∧ (s.co d).frame.isIo = true := by
    intro h
    by_cases hd : d = c
    · simp [t, hd, switchTo, St.modify, St.emit, Frame.isIo] at h
    · exact ⟨hd, by simpa [t, hd, switchTo, St.modify, St.emit] using h⟩
  rw [coSchedulerSchedule, coQueuePopFront_cons hq] at hio
  dsimp only at hio
  split at hio
  · exact hswitch hio
  · have hends := resume_frame (s := t) (c := c) (e := e) hf
    change ((settle s (s.co c).call (resume t c e (s.co c).frame)).co d).frame.isIo = true at hio
    cases ho : resume t c e (s.co c).frame with
    | ret r u =>
      rw [ho] at hio hends
      exact hswitch (hends d hio)
    | swap u =>
      rw [ho] at hio hends
      exact hswitch (hends d hio)
    | abort =>
      rw [ho] at hio
      refine ⟨?_, hio⟩
      rintro rfl
      -- code after an I/O wait has no assertion
      cases hfr : (s.co d).frame with
      | waitIo x =>
        obtain ⟨r, hr⟩ := resumeIo_eq t d x e.again
        rw [hfr, resume, hr] at ho
        cases ho
      | waitAsync x => exact hf x hfr
      | drainAsync x =>
        rw [hfr] at ho
        cases ho
      | _ =>
        simp only [settle] at hio
        rw [hfr] at hio
        cases hio

/-- All I/O waits are those of `co_wait_io`. -/
def EpollWaits (s : St) : Prop := ∀ c, (s.co c).frame.isIo = true → ∃ i, (s.co c).ioWait = some i

theorem EpollWaits.not_async (h : EpollWaits s) (c : Nat) (x : AsyncCtx) :
    (s.co c).frame ≠ .waitAsync x := by
  intro hx
  obtain ⟨i, hi⟩ := h c (by rw [hx]; rfl)
  rw [(Routine.ioWait_eq_some hi).1] at hx
  cases hx

/-- Other steps put nobody in an I/O wait. -/
theorem Follows.isIo_rule (hf : Follows s a s') (hsch : a.isSchedule = false)
    (hio : ∀ y, a = .call (.io y) → s.coCurrent ≠ some c) (he : a.onEpoll = true)
    (h : (s'.co c).frame.isIo = true) : (s.co c).frame.isIo = true := by
  have huser : (s.co c).frame = .user ↔ s.coCurrent = some c := by
    obtain ⟨g, g', a', hi, -, -⟩ := id hf
    exact hi.user c
  refine hf.record_rule (c := c)
    (J := fun r => r.frame.isIo = true → (s.co c).frame.isIo = true) id ?_ h
  intro g a' r r' halike hstep hJ hr'
  cases hstep with
  | same => exact hJ hr'
  | called ha hfr hc => exact hJ hr'
  | spawned hfr hfr' | finished hfr hfr' | touched hfr hfr' hcall =>
    rw [hfr'] at hr'
    cases hr'
  | yielded ha hfr => cases hr'
  | @blocked op r' ha hfr hf₀ hfits hst hdir hcall hdue hto =>
    have hcur : s.coCurrent = some c := huser.mp hf₀
    have hop : (Act.call op).isIo = true := by
      by_contra hno
      rw [Frame.isIo_of_fits hfits (by simpa using hno)] at hr'
      cases hr'
    rcases halike with rfl | ⟨op₁, op₂, rfl, rfl, hname, -⟩
    · subst ha
      cases op <;> simp only [Act.isIo, Bool.false_eq_true] at hop
      · exact absurd hcur (hio _ rfl)
      · cases he
    · cases ha
      cases op₁ <;> cases op <;> simp only [Act.isIo, Op.name, Bool.false_eq_true, reduceCtorEq] at hop hname
      · exact absurd hcur (hio _ rfl)
      · exact absurd hcur (hio _ rfl)
      · cases he
      · cases he
  | drained ha hfr hfr' =>
    rcases halike with rfl | ⟨op, op', rfl, rfl, -⟩
    · rw [ha] at hsch
      cases hsch
    · cases ha
  | dispatched ha hq hst => cases hr'
  | relocked ha hq hst hfr =>
    rw [Frame.relocking_isIo hfr] at hr'
    cases hr'
  | expired ha hst ht => exact hJ hr'
  | polled ha hl hfits =>
    refine hJ ?_
    split at hr'
    · exact hl.isIo ▸ hr'
    · exact hl.isIo ▸ hr'
  | woken hst hq hst' hfr hcall hw hto =>
    rw [hfr] at hr'
    exact hJ hr'

theorem EpollWaits.step (h : EpollWaits s) (hf : Follows s a s') (hs : step s a = some s')
    (he : a.onEpoll = true) : EpollWaits s' := by
  intro c hio
  have hw := hf.ioWait hs he c
  by_cases hcall : ∃ y, a = .call (.io y) ∧ s.coCurrent = some c
  · obtain ⟨y, rfl, hc⟩ := hcall
    have huser : (s.co c).frame = .user := by
      obtain ⟨g, g', a', hi, -, -⟩ := hf
      exact (hi.user c).mpr hc
    rcases step_io_cases hc huser hs with ⟨hu, -⟩ | ⟨-, hi, -⟩
    · rw [hu] at hio
      cases hio
    · exact ⟨_, hi⟩
  have hbefore : (s.co c).frame.isIo = true ∧
      ∀ rest, a.isSchedule = true → s.queues .ready ≠ c :: rest := by
    by_cases hsch : a.isSchedule = true
    · cases a <;> simp only [Act.isSchedule, Bool.false_eq_true] at hsch
      rename_i e
      rw [(step_schedule hs).2] at hio
      cases hq : s.queues .ready with
      | nil =>
        rw [schedule_nil hq] at hio
        exact ⟨hio, fun _ _ h => by cases h⟩
      | cons d rest =>
        obtain ⟨hne, hb⟩ := schedule_isIo hq (h.not_async d) hio
        refine ⟨hb, fun rest' _ he => ?_⟩
        cases he
        exact hne rfl
    · exact ⟨hf.isIo_rule (by simpa using hsch) (fun y ha hc => hcall ⟨y, ha, hc⟩) he hio,
        fun _ ha => absurd ha hsch⟩
  obtain ⟨i, hi⟩ := h c hbefore.1
  rw [hi] at hw
  generalize hj : (s'.co c).ioWait = j at hw
  cases hw with
  | same => exact ⟨i, rfl⟩
  | reported ha hev hreg hptr => exact ⟨_, rfl⟩
  | expired ha hst hto => exact ⟨_, rfl⟩
  | ended ha hq => exact absurd hq (hbefore.2 _ ha)

end Libco
