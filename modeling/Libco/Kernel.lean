import Libco.Records
import Libco.Registrations

/-!
# What the kernel holds

In runs without leaks, every epoll registration belongs to a coroutine inside
`co_wait_io` on that descriptor, and every IOCP operation in flight to a coroutine
that waits for its packet. Coroutines in I/O waits are left alone by everything
but polls, deadlines and their own resumption (`RecordStep.ioStays`).
-/

namespace Libco
open Lib

variable {run : Prop} {cur : Option Nat} {s s' t s₀ : St} {a : Act} {c : Nat}

/-! ## Coroutines in I/O keep their frames -/

/-- The kernel still owns the operation of this IOCP wait. -/
def Routine.inFlight (r : Routine) : Bool :=
  match r.frame with
  | .waitAsync _ => r.state == .waiting || r.timedOut
  | .drainAsync _ => r.state == .waiting
  | _ => false

/-- A coroutine in an I/O wait stays as it is, or its deadline is processed. -/
def IoStays (timers : Bool) (r r' : Routine) : Prop :=
  r.frame.isIo = true →
    (r'.frame = r.frame ∧ r'.state = r.state ∧ r'.timedOut = r.timedOut ∧ r'.call = r.call) ∨
    (timers = true ∧ (r.state = .waiting ∧ r.frame.timed = true) ∧ r'.state = .ready ∧
      r'.timedOut = true ∧ r'.frame = r.frame ∧ r'.call = r.call)

theorem IoStays.refl (timers : Bool) (r : Routine) : IoStays timers r r :=
  fun _ => .inl ⟨rfl, rfl, rfl, rfl⟩

theorem IoStays.frame {timers : Bool} {r r' : Routine} (h : IoStays timers r r')
    (hio : r.frame.isIo = true) : r'.frame = r.frame ∧ r'.call = r.call := by
  rcases h hio with ⟨hf, -, -, hc⟩ | ⟨-, -, -, -, hf, hc⟩
  · exact ⟨hf, hc⟩
  · exact ⟨hf, hc⟩

theorem IoStays.trans {timers : Bool} {r r' r'' : Routine} (h : IoStays timers r r')
    (h' : IoStays timers r' r'') : IoStays timers r r'' := by
  intro hio
  have hio' : r'.frame.isIo = true := by
    rw [(h.frame hio).1]
    exact hio
  rcases h hio with ⟨hf, hs, ht, hc⟩ | ⟨hti, hs, hs', ht, hf, hc⟩
  · rcases h' hio' with ⟨hf', hst', ht', hc'⟩ | ⟨hti', hw, hs', ht', hf', hc'⟩
    · exact .inl ⟨hf'.trans hf, hst'.trans hs, ht'.trans ht, hc'.trans hc⟩
    · exact .inr ⟨hti', ⟨hs ▸ hw.1, hf ▸ hw.2⟩, hs', ht', hf'.trans hf, hc'.trans hc⟩
  · rcases h' hio' with ⟨hf', hst', ht', hc'⟩ | ⟨-, hw, -, -, -, -⟩
    · exact .inr ⟨hti, hs, hst'.trans hs', ht'.trans ht, hf'.trans hf, hc'.trans hc⟩
    · rw [hs'] at hw
      cases hw.1

theorem ioStays_of_not_io {timers : Bool} {r r' : Routine} (h : r.frame.isIo = false) :
    IoStays timers r r' := by
  intro hio
  rw [h] at hio
  cases hio

/-- A coroutine in an I/O wait keeps its frame and its operation. -/
def IoKept (r r' : Routine) : Prop :=
  r.frame.isIo = true → r'.frame = r.frame ∧ (r.inFlight = true → r'.inFlight = true)

theorem IoStays.kept {timers : Bool} {r r' : Routine} (h : IoStays timers r r') :
    IoKept r r' := by
  intro hio
  refine ⟨(h.frame hio).1, fun hfl => ?_⟩
  rcases h hio with ⟨hf, hs, ht, -⟩ | ⟨-, hw, hs, ht, hf, -⟩
  · simpa [Routine.inFlight, hf, hs, ht] using hfl
  · unfold Routine.inFlight at hfl ⊢
    rw [hf]
    have htimed := hw.2
    split at hfl
    · simp [ht]
    · rename_i hd
      rw [hd] at htimed
      cases htimed
    · cases hfl

/-- Outside polls, a coroutine in an I/O wait is left alone, unless it is switched to or its
deadline is processed. -/
theorem RecordStep.ioStays {r r' : Routine} (h : RecordStep s₀ a c r r')
    (hidle : a.isIdle = false)
    (hhead : a.isSchedule = true → ∀ rest, s₀.queues .ready ≠ c :: rest) :
    IoStays a.isTimers r r' := by
  have huser : ∀ {f : Frame}, r.frame = f → f.isIo = false → IoStays a.isTimers r r' := by
    intro f hf hio
    exact ioStays_of_not_io (hf ▸ hio)
  cases h with
  | same => exact .refl _ _
  | called ha hf hc => exact huser hf rfl
  | spawned hf hf' => exact huser hf rfl
  | finished hf hf' => exact huser hf rfl
  | yielded ha hf => exact huser hf rfl
  | blocked ha hf => exact huser hf rfl
  | drained ha hf hf' => exact huser hf rfl
  | touched hf hf' hcall => exact huser hf rfl
  | dispatched ha hq hst => exact absurd hq (hhead ha _)
  | relocked ha hq hst hf => exact absurd hq (hhead ha _)
  | expired ha hst ht =>
    intro hio
    have hsl : r.frame ≠ .sleep := (Frame.io_suspended hio).2.2
    exact .inr ⟨ha, ⟨hst, ht⟩, rfl, by simp [hsl], rfl, rfl⟩
  | polled ha hl hfits =>
    rw [hidle] at ha
    cases ha
  | woken hst hq hst' hf hcall hw hto =>
    exact ioStays_of_not_io (Frame.waitQueue_suspended hq).2.2

theorem step_ioStays (hp : Placed run s) (hl : leaks s a = false) (hs : step s a = some s')
    (hidle : a.isIdle = false) (d : Nat)
    (hhead : a.isSchedule = true → ∀ rest, s.queues .ready ≠ d :: rest) :
    IoStays a.isTimers (s.co d) (s'.co d) :=
  step_invariant (J := fun t => IoStays a.isTimers (s.co d) (t.co d)) hp hl hs (.refl _ _)
    (fun _ _ _ hm hi h => h.trans ((hm.record hi d).ioStays hidle hhead)) fun _ _ _ _ h _ => h

/-! ## What the kernel holds -/

structure Kernel (s : St) : Prop where
  /-- a registration belongs to a coroutine inside `co_wait_io` on its descriptor -/
  owner : ∀ fd reg, s.epoll fd = some reg →
    0 ≤ fd ∧ ∃ x, (s.co reg.ptr.1).frame = .waitIo x ∧ x.fd = fd
  /-- an operation in flight belongs to a coroutine that waits for its packet -/
  flight : ∀ p ∈ s.iocp.inFlight, (s.co p.1).inFlight = true
  once : (s.iocp.inFlight.map Prod.fst).Nodup

theorem Routine.inFlight_isIo {r : Routine} (h : r.inFlight = true) : r.frame.isIo = true := by
  unfold Routine.inFlight at h
  cases hf : r.frame <;> simp [hf, Frame.isIo] at h ⊢

/-- Registrations may go, and the owners of those that stay are kept. -/
theorem Kernel.keep (h : Kernel s) (he : ∀ fd reg, s'.epoll fd = some reg →
      s.epoll fd = some reg ∧ IoKept (s.co reg.ptr.1) (s'.co reg.ptr.1))
    (hf : s'.iocp.inFlight = s.iocp.inFlight)
    (hfl : ∀ p ∈ s.iocp.inFlight, (s'.co p.1).inFlight = true) : Kernel s' := by
  refine ⟨fun fd reg hr => ?_, ?_, hf ▸ h.once⟩
  · obtain ⟨hr', hk⟩ := he fd reg hr
    obtain ⟨h0, x, hx, hfd⟩ := h.owner fd reg hr'
    refine ⟨h0, x, ?_, hfd⟩
    rw [(hk (by rw [hx]; rfl)).1, hx]
  · rw [hf]
    exact hfl

theorem Kernel.same (h : Kernel s) (he : s'.epoll = s.epoll) (hf : s'.iocp = s.iocp)
    (hk : ∀ d, IoKept (s.co d) (s'.co d)) : Kernel s' := by
  refine h.keep (fun fd reg hr => ⟨he ▸ hr, hk _⟩) (by rw [hf]) fun p hp => ?_
  have hfl := h.flight p hp
  exact (hk p.1 (Routine.inFlight_isIo hfl)).2 hfl

/-! ## Calls -/

theorem settle_kernel {o : Outcome} {k : Nat}
    (ho : o.Ends fun t => t.epoll = s.epoll ∧ t.iocp = s.iocp) :
    (settle s k o).epoll = s.epoll ∧ (settle s k o).iocp = s.iocp := by
  cases o with
  | ret r t => exact ho
  | swap t => exact ho
  | abort => exact ⟨rfl, rfl⟩

theorem timerLoop_kernel (now n : Nat) (s : St) :
    (timerLoop now n s).epoll = s.epoll ∧ (timerLoop now n s).iocp = s.iocp := by
  induction n generalizing s with
  | zero => exact ⟨rfl, rfl⟩
  | succ n ih =>
    simp only [timerLoop]
    split
    · exact ⟨rfl, rfl⟩
    split
    · exact ⟨rfl, rfl⟩
    split
    · exact ⟨rfl, rfl⟩
    · rename_i c _ _ _
      have hq := expireTop_quiet (s := s) (c := c)
      exact ⟨(ih _).1.trans hq.epoll, (ih _).2.trans hq.iocp⟩

/-- Most actions do not reach the kernel. -/
theorem step_kernel (hs : step s a = some s') (hio : a.isIo = false) (hidle : a.isIdle = false)
    (hsch : a.isSchedule = false) : s'.epoll = s.epoll ∧ s'.iocp = s.iocp := by
  cases a with
  | run =>
    obtain ⟨-, rfl⟩ := step_run hs
    exact ⟨rfl, rfl⟩
  | timers now =>
    have hk := timerLoop_kernel now s.timerHeap.entries.length (s.emit (.tick now))
    obtain ⟨-, ⟨-, rfl⟩ | ⟨-, t, rfl, rfl | ⟨-, rfl⟩⟩⟩ := step_timers hs
    · exact ⟨rfl, rfl⟩
    · exact hk
    · exact hk
  | idle p => cases hidle
  | schedule e => cases hsch
  | spawn e =>
    obtain ⟨-, rfl⟩ := step_spawn hs
    have hq := coSpawn_quiet (s := s) e
    exact ⟨hq.epoll, hq.iocp⟩
  | call op =>
    obtain ⟨-, rfl⟩ := step_call hs
    refine settle_kernel ((runOp_quiet hio).mono fun t hq => ?_)
    rw [hq.epoll, hq.iocp]
    exact ⟨(beginCall_kernel s op).2.2, (beginCall_kernel s op).2.1⟩
  | finish =>
    obtain ⟨c, -, rfl⟩ := step_finish hs
    obtain ⟨pool, he⟩ := finish_eq s c
    rw [he]
    exact ⟨rfl, rfl⟩

/-- What a call of `co_read` and the others does to the kernel: nothing, or it
registers its caller, which then waits. -/
theorem coIo_kernel (s : St) (x : IoArgs) :
    (coIo s x).Ends fun t => t.iocp = s.iocp ∧ (t.epoll = s.epoll ∨
      ∃ reg y, 0 ≤ x.fd ∧ (t.co reg.ptr.1).frame = .waitIo y ∧ y.fd = x.fd ∧
        t.epoll = Function.update s.epoll x.fd (some reg)) := by
  obtain ⟨r, hr⟩ | ⟨hwaits, f, hr⟩ := coIo_cases s x
  · rw [hr]
    exact ⟨rfl, .inl rfl⟩
  have hfd : 0 ≤ x.fd := by
    simp only [IoArgs.waits, Bool.and_eq_true, Bool.not_eq_true', Bool.or_eq_false_iff,
      decide_eq_false_iff_not, Int.not_lt] at hwaits
    exact hwaits.1.1
  rw [hr]
  unfold coWaitIo
  cases hc : s.coCurrent with
  | none => exact ⟨rfl, .inl rfl⟩
  | some c =>
    dsimp only
    cases harm : armTimer s c x.timeoutMs x.now x.reallocOk with
    | mk d t =>
      have hq := armTimer_quiet harm
      cases d with
      | none => exact ⟨hq.iocp, .inl hq.epoll⟩
      | some d =>
        dsimp only
        cases x.ctlOk with
        | false =>
          rw [coIomuxAdd_fail]
          exact ⟨hq.iocp, .inl hq.epoll⟩
        | true =>
          rw [coIomuxAdd_ok]
          refine ⟨hq.iocp, .inr
            ⟨⟨x.call.events.read, x.call.events.write, (c, (t.co c).call)⟩,
              ⟨x.call, x.fd, x.call.events, noEvents, x.timeoutMs⟩, hfd, ?_, rfl, ?_⟩⟩
          · simp [St.modify]
          · rw [← hq.epoll]
            rfl

/-- An asynchronous call starts at most the operation its caller then waits for. -/
theorem coIoAsync_kernel (s : St) (x : AsyncArgs) :
    (coIoAsync s x).Ends fun t => t.epoll = s.epoll ∧
      (t.iocp.inFlight = s.iocp.inFlight ∨ ∃ c k, s.coCurrent = some c ∧
        (t.co c).inFlight = true ∧ t.iocp.inFlight = s.iocp.inFlight ++ [(c, k)]) := by
  unfold coIoAsync
  split
  · exact ⟨rfl, .inl rfl⟩
  split
  · exact ⟨rfl, .inl rfl⟩
  unfold coWaitIoAsync
  cases hc : s.coCurrent with
  | none =>
    dsimp only
    split <;> exact ⟨rfl, .inl rfl⟩
  | some c =>
    dsimp only
    cases harm : armTimer s c x.timeoutMs x.now x.reallocOk with
    | mk d t =>
      have hq := armTimer_quiet harm
      cases d with
      | none => exact ⟨hq.epoll, .inl (by rw [hq.iocp])⟩
      | some d =>
        have hassoc : ∀ e u, coIomuxAssociate t x.fd x.portOk = (e, u) →
            u.epoll = s.epoll ∧ u.iocp.inFlight = s.iocp.inFlight := by
          intro e u hu
          rw [← hq.epoll, ← hq.iocp]
          unfold coIomuxAssociate at hu
          split at hu
          · cases hu
            exact ⟨rfl, rfl⟩
          split at hu
          · split at hu <;> cases hu <;> exact ⟨rfl, rfl⟩
          · cases hu
            exact ⟨rfl, rfl⟩
        dsimp only
        split
        · rename_i u hu
          obtain ⟨he, hf⟩ := hassoc _ _ hu
          split
          · refine ⟨he, .inr ⟨c, (u.co c).call, rfl, ?_, ?_⟩⟩
            · simp [Routine.inFlight, St.modify]
            · simp [St.modify, hf]
          split <;> exact ⟨he, .inl hf⟩
        · rename_i e u _ hu
          obtain ⟨he, hf⟩ := hassoc _ _ hu
          exact ⟨he, .inl hf⟩

theorem Kernel.call_io {x : IoArgs} (h : Kernel s) (hs : step s (.call (.io x)) = some s')
    (hk : ∀ d, IoKept (s.co d) (s'.co d)) : Kernel s' := by
  have hend := coIo_kernel (beginCall s (.io x)) x
  rw [(beginCall_kernel s _).2.1, (beginCall_kernel s _).2.2] at hend
  have hfl : s'.iocp = s.iocp ∧ (s'.epoll = s.epoll ∨
      ∃ reg y, 0 ≤ x.fd ∧ (s'.co reg.ptr.1).frame = .waitIo y ∧ y.fd = x.fd ∧
        s'.epoll = Function.update s.epoll x.fd (some reg)) := by
    obtain ⟨-, rfl⟩ := step_call hs
    simp only [runOp]
    cases ho : coIo (beginCall s (.io x)) x with
    | ret r t =>
      rw [ho] at hend
      exact hend
    | swap t =>
      rw [ho] at hend
      exact hend
    | abort => exact ⟨rfl, .inl rfl⟩
  obtain ⟨hiocp, he | ⟨reg, y, h0, hy, hfd, he⟩⟩ := hfl
  · exact h.same he hiocp hk
  · have hold : Kernel { s' with epoll := s.epoll } := h.same rfl hiocp hk
    refine ⟨fun fd reg' hr => ?_, hold.flight, hold.once⟩
    by_cases hfd' : fd = x.fd
    · subst hfd'
      rw [he, Function.update_self, Option.some.injEq] at hr
      subst hr
      exact ⟨h0, y, hy, hfd⟩
    · rw [he, Function.update_of_ne hfd'] at hr
      exact hold.owner fd reg' hr

theorem Kernel.call_ioAsync {x : AsyncArgs} (h : Kernel s) (hp : Placed run s)
    (hs : step s (.call (.ioAsync x)) = some s') (hk : ∀ d, IoKept (s.co d) (s'.co d)) :
    Kernel s' := by
  have hend := coIoAsync_kernel (beginCall s (.ioAsync x)) x
  rw [(beginCall_kernel s _).2.1, (beginCall_kernel s _).2.2, beginCall_coCurrent] at hend
  have hfl : s'.epoll = s.epoll ∧
      (s'.iocp.inFlight = s.iocp.inFlight ∨ ∃ c k, s.coCurrent = some c ∧
        (s'.co c).inFlight = true ∧ s'.iocp.inFlight = s.iocp.inFlight ++ [(c, k)]) := by
    obtain ⟨-, rfl⟩ := step_call hs
    simp only [runOp]
    cases ho : coIoAsync (beginCall s (.ioAsync x)) x with
    | ret r t =>
      rw [ho] at hend
      exact hend
    | swap t =>
      rw [ho] at hend
      exact hend
    | abort => exact ⟨rfl, .inl rfl⟩
  have hold : ∀ p ∈ s.iocp.inFlight, (s'.co p.1).inFlight = true := fun p hp =>
    (hk p.1 (Routine.inFlight_isIo (h.flight p hp))).2 (h.flight p hp)
  obtain ⟨he, hf | ⟨c, k, hc, hci, hf⟩⟩ := hfl
  · exact h.keep (fun fd reg hr => ⟨he ▸ hr, hk _⟩) hf hold
  · obtain ⟨cur, hi, hcur⟩ := hp
    have hcn : c ∉ s.iocp.inFlight.map Prod.fst := by
      intro hm
      obtain ⟨p, hp, rfl⟩ := List.mem_map.mp hm
      have huser := (hi.user p.1).mpr ((hcur (step_ne_aborted hs)).symm.trans hc)
      have := h.flight p hp
      simp [Routine.inFlight, huser] at this
    have hown : Kernel { s' with iocp := s.iocp } :=
      h.keep (fun fd reg hr => ⟨he ▸ hr, hk _⟩) rfl hold
    refine ⟨hown.owner, ?_, ?_⟩
    · rw [hf]
      intro p hp
      rcases List.mem_append.mp hp with hp | hp
      · exact hold p hp
      · rw [List.mem_singleton.mp hp]
        exact hci
    · rw [hf, List.map_append, List.map_singleton, List.nodup_append]
      refine ⟨h.once, by simp, ?_⟩
      rintro d hd e he rfl
      rw [List.mem_singleton] at he
      rw [he] at hd
      exact hcn hd

/-! ## Resumptions -/

/-- A coroutine resumed out of `co_wait_io` deletes its registration; nobody else
touches one. -/
theorem schedule_epoll {rest : List Nat} {e : ResumeEnv} (hq : s.queues .ready = c :: rest) :
    (coSchedulerSchedule s e).iocp = s.iocp ∧
    (((∀ x, (s.co c).frame ≠ .waitIo x) ∧ (coSchedulerSchedule s e).epoll = s.epoll) ∨
      ∃ x, (s.co c).frame = .waitIo x ∧
        (coSchedulerSchedule s e).epoll = (coIomuxDel s x.fd).epoll) := by
  unfold coSchedulerSchedule
  rw [coQueuePopFront_cons hq]
  dsimp only
  split
  · rename_i hf
    exact ⟨rfl, .inl ⟨by simp [hf], rfl⟩⟩
  · by_cases hf : ∃ x, (s.co c).frame = .waitIo x
    · obtain ⟨x, hx⟩ := hf
      rw [hx]
      simp only [resume]
      obtain ⟨r, hr⟩ := resumeIo_eq
        (switchTo { s with queues := Function.update s.queues .ready rest } c) c x e.again
      have hw := resumeWaitIo_quiet (c := c)
        (s := switchTo { s with queues := Function.update s.queues .ready rest } c) x
      have hdel : ∀ t : St, (coIomuxDel t x.fd).iocp = t.iocp ∧ (t.epoll = s.epoll →
          (coIomuxDel t x.fd).epoll = (coIomuxDel s x.fd).epoll) := by
        intro t
        unfold coIomuxDel
        split
        · exact ⟨rfl, id⟩
        · exact ⟨rfl, fun h => by simp only [h]⟩
      rw [hr]
      exact ⟨hw.iocp.trans (hdel _).1, .inr ⟨x, rfl, hw.epoll.trans ((hdel _).2 rfl)⟩⟩
    · have hends : (resume (switchTo { s with queues := Function.update s.queues .ready rest } c) c e
          (s.co c).frame).Ends fun t => t.epoll = s.epoll ∧ t.iocp = s.iocp :=
        (resume_quiet fun x hx => hf ⟨x, hx⟩).mono fun t hq => ⟨hq.epoll, hq.iocp⟩
      have hk := settle_kernel (k := (s.co c).call) hends
      exact ⟨hk.2, .inl ⟨fun x hx => hf ⟨x, hx⟩, hk.1⟩⟩

/-- A timed-out asynchronous call goes on waiting for its packet. -/
theorem schedule_inFlight {rest : List Nat} {e : ResumeEnv} (hq : s.queues .ready = c :: rest)
    (hst : (s.co c).state = .ready) (hfl : (s.co c).inFlight = true) :
    ((coSchedulerSchedule s e).co c).inFlight = true := by
  unfold Routine.inFlight at hfl
  split at hfl
  · rename_i x hx
    have hto : (s.co c).timedOut = true := by simpa [hst] using hfl
    have hrun : coSchedulerSchedule s e = settle s (s.co c).call
        (resumeAsync (switchTo { s with queues := Function.update s.queues .ready rest } c) c x
          e.again) := by
      rw [schedule_resumes hq (by simp [hx]), hx]
      rfl
    rw [hrun]
    unfold resumeAsync
    rw [if_pos (by simpa [switchTo, St.modify, St.emit] using hto)]
    simp [settle, Routine.inFlight, St.modify]
  · simp [hst] at hfl
  · cases hfl

theorem Kernel.schedule {rest : List Nat} {e : ResumeEnv} (h : Kernel s)
    (hi : Inv run cur s.toSched) (hq : s.queues .ready = c :: rest)
    (hk : ∀ d, d ≠ c → IoKept (s.co d) ((coSchedulerSchedule s e).co d)) :
    Kernel (coSchedulerSchedule s e) := by
  obtain ⟨hiocp, hep⟩ := schedule_epoll (e := e) hq
  have hst := (hi.ready_fields hq).1
  refine h.keep (fun fd reg hr => ?_) (by rw [hiocp]) fun p hp => ?_
  · have hold : s.epoll fd = some reg ∧ reg.ptr.1 ≠ c := by
      rcases hep with ⟨hn, he⟩ | ⟨x, hx, he⟩
      · rw [he] at hr
        obtain ⟨-, y, hy, -⟩ := h.owner fd reg hr
        exact ⟨hr, fun hc => hn y (hc ▸ hy)⟩
      · rw [he] at hr
        have hne : fd ≠ x.fd := by
          rintro rfl
          unfold coIomuxDel at hr
          split at hr
          · rename_i hneg
            exact absurd (h.owner _ reg hr).1 (by omega)
          · simp at hr
        have hr' : s.epoll fd = some reg := by
          unfold coIomuxDel at hr
          split at hr
          · exact hr
          · simpa [hne] using hr
        refine ⟨hr', fun hc => ?_⟩
        obtain ⟨-, y, hy, hfd⟩ := h.owner fd reg hr'
        rw [hc, hx, Frame.waitIo.injEq] at hy
        exact hne (by rw [← hfd, hy])
    exact ⟨hold.1, hk _ hold.2⟩
  · have hfl := h.flight p hp
    by_cases hpc : p.1 = c
    · rw [hpc] at hfl ⊢
      exact schedule_inFlight hq hst hfl
    · exact (hk p.1 hpc (Routine.inFlight_isIo hfl)).2 hfl

/-! ## Polls -/

/-- An event written to a wait context: the record of its coroutine, and the ready
queue. -/
theorem wakeIo_spec (s : St) (c : Nat) (f : Frame) :
    let t := wakeIo (s.modify c fun r => { r with frame := f }) c
    (t.epoll = s.epoll ∧ t.iocp = s.iocp ∧ t.timerHeap = s.timerHeap) ∧
      (∃ r, t.co = Function.update s.co c r ∧ r.frame = f) ∧
      t.queues .ready = s.queues .ready ++ if (s.co c).state = .waiting then [c] else [] := by
  by_cases hs : (s.co c).state = .waiting
  · rw [wakeIo_waiting hs]
    refine ⟨⟨rfl, rfl, rfl⟩, ⟨_, rfl, rfl⟩, ?_⟩
    simp [hs, coQueuePushBack, St.modify, St.emit]
  · rw [wakeIo_not_waiting hs]
    refine ⟨⟨rfl, rfl, rfl⟩, ⟨_, rfl, rfl⟩, ?_⟩
    simp [hs, St.modify]

theorem pollEvent_epoll (s : St) (ev : Int × EpollEvents) : (pollEvent s ev).epoll = s.epoll := by
  unfold pollEvent
  split
  · rfl
  split
  · exact (wakeIo_spec s _ _).1.1
  · rfl

theorem pollPacket_epoll (s : St) (p : Packet) : (pollPacket s p).epoll = s.epoll := by
  unfold pollPacket
  dsimp only
  split
  · exact (wakeIo_spec _ _ _).1.1
  · exact (wakeIo_spec _ _ _).1.1
  · rfl

theorem PollResult.apply_epoll (p : PollResult) (s : St) : (p.apply s).epoll = s.epoll := by
  cases p with
  | none => rfl
  | events evs =>
    simp only [PollResult.apply, coIomuxPoll]
    induction evs generalizing s with
    | nil => rfl
    | cons ev evs ih => exact (ih _).trans (pollEvent_epoll s ev)
  | packets ps =>
    simp only [PollResult.apply, coIomuxPollPackets]
    induction ps generalizing s with
    | nil => rfl
    | cons p ps ih => exact (ih _).trans (pollPacket_epoll s p)

theorem pollEvent_kernel (ev : Int × EpollEvents) (h : Kernel s) : Kernel (pollEvent s ev) := by
  unfold pollEvent
  split
  · exact h
  rename_i reg _
  split
  · rename_i x hx
    obtain ⟨⟨he, hf, -⟩, ⟨r, hco, hr⟩, -⟩ :=
      wakeIo_spec s reg.ptr.1 (.waitIo { x with revents := ev.2.revents })
    refine ⟨fun fd reg' hreg => ?_, ?_, hf ▸ h.once⟩
    · rw [he] at hreg
      obtain ⟨h0, y, hy, hfd⟩ := h.owner fd reg' hreg
      rw [hco]
      by_cases hc : reg'.ptr.1 = reg.ptr.1
      · rw [hc, hx, Frame.waitIo.injEq] at hy
        exact ⟨h0, { x with revents := ev.2.revents }, by rw [hc, Function.update_self, hr],
          by rw [← hfd, ← hy]⟩
      · exact ⟨h0, y, by rw [Function.update_of_ne hc, hy], hfd⟩
    · rw [hf]
      intro p hp
      have hfl := h.flight p hp
      have hne : p.1 ≠ reg.ptr.1 := by
        intro hc
        simp [hc, Routine.inFlight, hx] at hfl
      rw [hco, Function.update_of_ne hne]
      exact hfl
  · exact h

theorem mem_erase_fst {l : List (Nat × Nat)} (hn : (l.map Prod.fst).Nodup) {p q : Nat × Nat}
    (hp : p ∈ l) (hq : q ∈ l.erase p) : q ∈ l ∧ q.1 ≠ p.1 := by
  have hl : l.Nodup := List.Nodup.of_map _ hn
  rw [hl.mem_erase_iff] at hq
  exact ⟨hq.2, fun he => hq.1 (List.inj_on_of_nodup_map hn hq.2 hp he)⟩

theorem pollPacket_kernel {p : Packet} (h : Kernel s) (hp : p.ptr ∈ s.iocp.inFlight) :
    Kernel (pollPacket s p) ∧
      (pollPacket s p).iocp.inFlight = s.iocp.inFlight.erase p.ptr := by
  have hrest : ∀ q ∈ s.iocp.inFlight.erase p.ptr, q ∈ s.iocp.inFlight ∧ q.1 ≠ p.ptr.1 :=
    fun q hq => mem_erase_fst h.once hp hq
  have honce : ((s.iocp.inFlight.erase p.ptr).map Prod.fst).Nodup :=
    (List.Sublist.map _ (List.erase_sublist ..)).nodup h.once
  have hpoll : ∀ {f g : Frame}, (s.co p.ptr.1).frame = f → (∀ x, f ≠ .waitIo x) →
      let t := wakeIo (St.modify
        { s with iocp := { s.iocp with inFlight := s.iocp.inFlight.erase p.ptr } } p.ptr.1 fun r =>
        { r with frame := g }) p.ptr.1
      Kernel t ∧ t.iocp.inFlight = s.iocp.inFlight.erase p.ptr := by
    intro f g hfr hne
    obtain ⟨⟨he, hf, -⟩, ⟨r, hco, -⟩, -⟩ := wakeIo_spec
      { s with iocp := { s.iocp with inFlight := s.iocp.inFlight.erase p.ptr } } p.ptr.1 g
    refine ⟨⟨fun fd reg hreg => ?_, ?_, ?_⟩, by rw [hf]⟩
    · rw [he] at hreg
      obtain ⟨h0, y, hy, hfd⟩ := h.owner fd reg hreg
      have hc : reg.ptr.1 ≠ p.ptr.1 := fun hc => hne y (by rw [← hfr, ← hc, hy])
      exact ⟨h0, y, by rw [hco, Function.update_of_ne hc, hy], hfd⟩
    · rw [hf]
      intro q hq
      rw [hco, Function.update_of_ne (hrest q hq).2]
      exact h.flight q (hrest q hq).1
    · rw [hf]
      exact honce
  unfold pollPacket
  dsimp only
  split
  · rename_i x hx
    exact hpoll hx (by simp)
  · rename_i x hx
    exact hpoll hx (by simp)
  · exact ⟨⟨h.owner, fun q hq => h.flight q (hrest q hq).1, honce⟩, rfl⟩

theorem PollResult.apply_kernel {p : PollResult} (h : Kernel s) (hp : p.possible s = true) :
    Kernel (p.apply s) := by
  cases p with
  | none => exact h
  | events evs =>
    have hev : ∀ (evs : List (Int × EpollEvents)) (s : St), Kernel s → Kernel (evs.foldl pollEvent s) := by
      intro evs
      induction evs with
      | nil => exact fun s h => h
      | cons ev evs ih => exact fun s h => ih _ (pollEvent_kernel ev h)
    exact hev evs s h
  | packets ps =>
    have hps : ∀ (ps : List Packet) (s : St), Kernel s → (∀ p ∈ ps, p.ptr ∈ s.iocp.inFlight) →
        (ps.map (·.ptr)).Nodup → Kernel (ps.foldl pollPacket s) := by
      intro ps
      induction ps with
      | nil => exact fun s h _ _ => h
      | cons p ps ih =>
        intro s h hin hnd
        obtain ⟨hk, hfl⟩ := pollPacket_kernel h (hin p (by simp))
        rw [List.map_cons, List.nodup_cons] at hnd
        refine ih _ hk (fun q hq => ?_) hnd.2
        rw [hfl]
        refine (List.mem_erase_of_ne ?_).mpr (hin q (by simp [hq]))
        intro he
        exact hnd.1 (List.mem_map.mpr ⟨q, hq, he⟩)
    simp only [PollResult.possible, Bool.and_eq_true, List.all_eq_true, decide_eq_true_eq,
      List.contains_iff_mem] at hp
    exact hps ps s h hp.1 hp.2

theorem Kernel.step (h : Kernel s) (hp : Placed run s) (hl : leaks s a = false)
    (hs : step s a = some s') : Kernel s' := by
  by_cases hidle : a.isIdle = true
  · cases a <;> simp only [Act.isIdle, Bool.false_eq_true] at hidle
    rename_i p
    obtain ⟨now, t, -, hpos, ht, hend⟩ := step_poll hs
    have hk : Kernel t := by
      rw [ht]
      split
      · refine PollResult.apply_kernel (s := s.emit _) ⟨h.owner, h.flight, h.once⟩ ?_
        cases p <;> exact hpos
      · exact h
    rcases hend with rfl | rfl <;> exact ⟨hk.owner, hk.flight, hk.once⟩
  rw [Bool.not_eq_true] at hidle
  by_cases hsch : a.isSchedule = true
  · cases a <;> simp only [Act.isSchedule, Bool.false_eq_true] at hsch
    rename_i e
    obtain ⟨-, rfl⟩ := step_schedule hs
    cases hq : s.queues .ready with
    | nil =>
      rw [schedule_nil hq]
      exact ⟨h.owner, h.flight, h.once⟩
    | cons c rest =>
      have hkept := fun d hd => (step_ioStays hp hl hs rfl d hd).kept
      obtain ⟨cur, hi, -⟩ := hp
      refine h.schedule hi hq fun d hd => hkept d fun _ rest' he => ?_
      rw [hq] at he
      exact hd (List.cons.inj he).1.symm
  rw [Bool.not_eq_true] at hsch
  have hk : ∀ d, IoKept (s.co d) (s'.co d) := fun d =>
    (step_ioStays hp hl hs hidle d fun hc => by
      rw [hsch] at hc
      cases hc).kept
  by_cases hio : a.isIo = true
  · cases a with
    | call op =>
      cases op <;> simp only [Act.isIo, Bool.false_eq_true] at hio
      · exact h.call_io hs hk
      · exact h.call_ioAsync hp hs hk
    | _ => simp [Act.isIo] at hio
  · have hker := step_kernel hs (by simpa using hio) hidle hsch
    exact h.same hker.1 hker.2 hk

end Libco
