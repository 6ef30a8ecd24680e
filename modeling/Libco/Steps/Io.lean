import Libco.Steps.Calls

/-!
# I/O calls and polls are made of moves

Unless the call leaks its timer.
-/

namespace Libco
open Lib

variable {run : Prop} {cur : Option Nat} {s s' s₀ : St} {a : Act} {c : Nat}

/-! ## Deadlines -/

/-- The record of a coroutine whose deadline has been prepared. -/
def Routine.prepared (r : Routine) (timeoutMs : Int) (now : Nat) : Routine :=
  if 0 ≤ timeoutMs then
    { r with
      timedOut := false, wakeupTime := (now + timeoutMs.toNat) % 2 ^ 64, ioWaiting := true }
  else { r with timedOut := false, ioWaiting := false }

theorem armTimer_none {timeoutMs : Int} {now : Nat} {ok : Bool}
    (h : armTimer s c timeoutMs now ok = (none, s')) :
    ok = false ∧ s' = s.modify c fun r =>
      { r with
        timedOut := false, wakeupTime := (now + timeoutMs.toNat) % 2 ^ 64, ioWaiting := false } := by
  unfold armTimer at h
  dsimp only at h
  split at h
  · split at h
    · rename_i hpush
      simp only [Prod.mk.injEq, true_and, St.modify_modify] at h
      exact ⟨(coTimerHeapPush_none hpush).1, h.symm⟩
    · simp at h
  · simp at h

theorem coTimerHeapPush_room {key : Nat → Nat} {h h' : TimerHeap} {ok : Bool}
    (hp : coTimerHeapPush key h c ok = some h') :
    (decide (h.entries.length < h.capacity) || ok) = true := by
  unfold coTimerHeapPush at hp
  split at hp
  · split at hp
    · rename_i hok
      simp [hok]
    · cases hp
  · rename_i hlt
    simp [Nat.lt_of_not_ge hlt]

/-- A wait that goes on found room for its deadline, if it has one. -/
theorem armTimer_room {timeoutMs : Int} {now d : Nat} {ok : Bool}
    (h : armTimer s c timeoutMs now ok = (some d, s')) :
    (decide (timeoutMs < 0) || arms s timeoutMs ok) = true := by
  unfold armTimer at h
  dsimp only at h
  split at h
  · rename_i ht
    split at h
    · simp at h
    · rename_i hpush
      have hroom := coTimerHeapPush_room hpush
      simp only [arms, ht, decide_true, Bool.true_and, Bool.or_eq_true, decide_eq_true_eq] at hroom ⊢
      exact .inr hroom
  · rename_i ht
    simp only [Int.not_le] at ht
    simp [ht]

/-- A prepared deadline: the record is `prepared`, and a timed one is in the heap. -/
structure Arms (s s' : St) (c : Nat) (timeoutMs : Int) (now : Nat) (ok : Bool) : Prop where
  eq : s' = { s.modify c (fun r => r.prepared timeoutMs now) with timerHeap := s'.timerHeap }
  armed : s.Armed s'.toSched c (decide (0 ≤ timeoutMs))
  room : arms s timeoutMs ok = decide (0 ≤ timeoutMs)

theorem armTimer_some {timeoutMs : Int} {now d : Nat} {ok : Bool}
    (hi : Inv run (some c) s.toSched) (h : armTimer s c timeoutMs now ok = (some d, s')) :
    Arms s s' c timeoutMs now ok := by
  unfold armTimer at h
  dsimp only at h
  split at h
  · rename_i ht
    split at h
    · simp at h
    · rename_i hp hpush
      simp only [Prod.mk.injEq] at h
      obtain ⟨-, rfl⟩ := h
      refine ⟨?_, ?_, ?_⟩
      · simp [St.modify, Routine.prepared, ht]
      · have hco : ((s.modify c fun r => { r with timedOut := false, ioWaiting := false }).modify c
            fun r => { r with
              wakeupTime := (now + timeoutMs.toNat) % 2 ^ 64, ioWaiting := true }).co =
            Function.update s.co c { s.co c with
              timedOut := false, wakeupTime := (now + timeoutMs.toNat) % 2 ^ 64
              ioWaiting := true } := by
          simp [St.modify]
        simp only [ht, decide_true]
        refine hi.armed hco ?_ hpush ?_ <;> rfl
      · simp only [arms, ht, decide_true, Bool.true_and]
        exact coTimerHeapPush_room hpush
  · rename_i ht
    simp only [Prod.mk.injEq] at h
    obtain ⟨-, rfl⟩ := h
    refine ⟨?_, ?_, ?_⟩
    · simp [St.modify, Routine.prepared, ht]
    · simp [Sched.Armed, ht, St.modify]
    · simp [arms, ht]

theorem Routine.prepared_fields (r : Routine) (timeoutMs : Int) (now : Nat) :
    (r.prepared timeoutMs now).timedOut = false ∧ (r.prepared timeoutMs now).frame = r.frame ∧
      (r.prepared timeoutMs now).call = r.call ∧ (r.prepared timeoutMs now).state = r.state ∧
      (r.prepared timeoutMs now).condWaitQueue = r.condWaitQueue ∧
      (r.prepared timeoutMs now).ioWaiting = decide (0 ≤ timeoutMs) := by
  unfold Routine.prepared
  split
  · rename_i h
    simp [h]
  · rename_i h
    simp [h]

theorem Routine.prepared_wakeupTime (r : Routine) {timeoutMs : Int} (h : 0 ≤ timeoutMs) (now : Nat) :
    (r.prepared timeoutMs now).wakeupTime = (now + timeoutMs.toNat) % 2 ^ 64 := by
  rw [Routine.prepared, if_pos h]

/-- A prepared coroutine suspends in an I/O wait. -/
theorem Arms.blocks {timeoutMs : Int} {now : Nat} {ok : Bool} {f : Frame} {t : St}
    (h : Arms s s' c timeoutMs now ok) (hi : Inv run (some c) s.toSched)
    (hf : f.isIo = true) (hft : f.timed = decide (0 ≤ timeoutMs))
    (hco : t.co = Function.update s'.co c { s'.co c with state := .waiting, frame := f })
    (hq : t.queues = s'.queues) (hh : t.timerHeap = s'.timerHeap) (hid : t.nextId = s'.nextId)
    (hio : t.waitingIoCount = incr32 s'.waitingIoCount)
    (hact : t.activeRoutines = s'.activeRoutines) (ho : SameObjects s' t)
    (htr : t.trace = s'.trace) :
    Blocks s t c { (s.co c).prepared timeoutMs now with state := .waiting, frame := f } := by
  obtain ⟨huser, hcw, hiw⟩ := hi.cur_fields
  obtain ⟨hto, -, hcall, -, hcw', hiw'⟩ := (s.co c).prepared_fields timeoutMs now
  have heq := h.eq
  have hself : s'.co c = (s.co c).prepared timeoutMs now := by
    rw [heq]
    simp [St.modify]
  have hco' : t.co = Function.update s.co c
      { (s.co c).prepared timeoutMs now with state := .waiting, frame := f } := by
    rw [hco, hself, heq]
    simp [St.modify]
  have hb : f.blocks = true ∧ f.waitQueue = none := by
    cases f <;> simp [Frame.isIo, Frame.blocks, Frame.waitQueue] at hf ⊢
  have hnt : ∀ v m, f ≠ .timedWait v m ∧ f ≠ .condRelock v m ∧ f ≠ .timedRelock v m := by
    intro v m
    refine ⟨?_, ?_, ?_⟩ <;> rintro rfl <;> cases hf
  refine ⟨hco', rfl, hb.1, fun v m => (hnt v m).2, hcall, ?_, ?_, fun _ _ => hto, ?_, ?_, ?_, ?_,
    ?_, ?_, ?_, ?_⟩
  · simp only [hb.2]
    rw [hq, heq]
    rfl
  · have hkey : t.key = s'.key := by
      funext d
      by_cases hd : d = c
      · simp [Sched.key, hco, hd]
      · simp [Sched.key, hco, hd]
    have := h.armed
    unfold Sched.Armed at this ⊢
    rw [hkey, hh, hft]
    exact this
  · show ((s.co c).prepared timeoutMs now).condWaitQueue = _
    rw [hcw', hcw]
    unfold Routine.condPtr
    split
    · rename_i hfr _
      exact absurd hfr (hnt _ _).1
    · rfl
  · show ((s.co c).prepared timeoutMs now).ioWaiting = _
    rw [hiw']
    simp [Routine.ioFlag, hf, hft]
  · rw [hid, heq]
    rfl
  · simp only [hf, if_true]
    rw [hio, heq]
    rfl
  · rw [hact, heq]
    rfl
  · refine ⟨?_, ?_, ?_⟩
    · rw [ho.mutexes, heq]
      rfl
    · rw [ho.chans, heq]
      rfl
    · rw [ho.calls, heq]
      rfl
  · rw [htr, heq]
    cases f <;> simp [Frame.isIo] at hf <;> simp [blockEvents, St.modify]
  · cases f <;> simp [Frame.isIo] at hf <;> trivial

/-- A prepared coroutine without deadline goes on running. -/
theorem Arms.touches {timeoutMs : Int} {now : Nat} {ok : Bool} {t : St}
    (h : Arms s s' c timeoutMs now ok) (hi : Inv run (some c) s.toSched)
    (ht : arms s timeoutMs ok = false)
    (hco : t.co = s'.co ∨
      t.co = Function.update s'.co c { s'.co c with ioWaiting := false })
    (hq : t.queues = s'.queues) (hh : t.timerHeap = s'.timerHeap) (hn : s'.SameCounts t.toSched)
    (ho : SameObjects s' t) (htr : t.trace = s'.trace) :
    Touches s t c ((s.co c).prepared timeoutMs now) := by
  obtain ⟨huser, hcw, hiw⟩ := hi.cur_fields
  have hnt : decide (0 ≤ timeoutMs) = false := h.room ▸ ht
  obtain ⟨hto, hfr, hcall, -, hcw', hiw'⟩ := (s.co c).prepared_fields timeoutMs now
  rw [hnt] at hiw'
  have heq := h.eq
  have hself : s'.co = Function.update s.co c ((s.co c).prepared timeoutMs now) := by
    rw [heq]
    rfl
  have hrec : ({ (s.co c).prepared timeoutMs now with ioWaiting := false } : Routine) =
      (s.co c).prepared timeoutMs now := by
    rw [← hiw']
  have hheap : s'.timerHeap = s.timerHeap := by
    have := h.armed
    simpa [Sched.Armed, hnt] using this
  refine ⟨?_, ?_, hcall, ?_, hiw', ?_, ?_, ?_, ?_, ?_⟩
  · rcases hco with hco | hco
    · rw [hco, hself]
    · rw [hco, hself]
      simp [hrec]
  · rw [hfr, huser]
  · rw [hcw', hcw]
  · rw [hq, heq]
    rfl
  · rw [hh, hheap]
  · refine ⟨?_, ?_, ?_⟩
    · rw [hn.nextId, heq]
      rfl
    · rw [hn.io, heq]
      rfl
    · rw [hn.active, heq]
      rfl
  · refine ⟨?_, ?_, ?_⟩
    · rw [ho.mutexes, heq]
      rfl
    · rw [ho.chans, heq]
      rfl
    · rw [ho.calls, heq]
      rfl
  · rw [htr, heq]
    rfl

/-- The timer heap cannot grow: the call fails, and the coroutine goes on. -/
theorem armTimer_none_moves {timeoutMs : Int} {now : Nat} {ok : Bool}
    (hi : Inv run (some c) s.toSched) (h : armTimer s c timeoutMs now ok = (none, s')) :
    Moves s₀ a (some c, s) (some c, s') ∧ s'.coCurrent = s.coCurrent := by
  obtain ⟨huser, hcw, hiw⟩ := hi.cur_fields
  obtain ⟨-, rfl⟩ := armTimer_none h
  let r : Routine :=
    { s.co c with
      timedOut := false, wakeupTime := (now + timeoutMs.toNat) % 2 ^ 64, ioWaiting := false }
  refine ⟨Move.moves (.touch (r := r) ?_ (.inl rfl)), rfl⟩
  exact ⟨rfl, huser, rfl, hcw, rfl, rfl, rfl, ⟨rfl, rfl, rfl⟩, ⟨rfl, rfl, rfl⟩, rfl⟩

/-! ## Waiting -/

theorem coIomuxAdd_ok (fd : Int) (events : IoEvents) (ptr : Nat × Nat) :
    coIomuxAdd s fd events ptr true = (.ok, { s with
      epoll := Function.update s.epoll fd (some ⟨events.read, events.write, ptr⟩) }) := by
  unfold coIomuxAdd coIomuxMod
  cases s.epoll fd <;> rfl

theorem coIomuxAdd_fail (fd : Int) (events : IoEvents) (ptr : Nat × Nat) :
    coIomuxAdd s fd events ptr false = (.platform, s) := by
  unfold coIomuxAdd coIomuxMod
  cases s.epoll fd <;> rfl

theorem beginCall_kernel (s₀ : St) (op : Op) :
    (beginCall s₀ op).timerHeap = s₀.timerHeap ∧ (beginCall s₀ op).iocp = s₀.iocp ∧
      (beginCall s₀ op).epoll = s₀.epoll := by
  simp only [beginCall]
  split <;> exact ⟨rfl, rfl, rfl⟩

theorem coWaitIo_via {x : IoArgs} (hi : Inv run s.coCurrent s.toSched)
    (hb : Begins s₀ a s (.io x))
    (hl : s.coCurrent.isSome = true → arms s x.timeoutMs x.reallocOk = true → x.ctlOk = true) :
    (coWaitIo s x).Via (Moves s₀ a (s.coCurrent, s)) s.coCurrent := by
  unfold coWaitIo
  cases hc : s.coCurrent with
  | none => exact ⟨.refl _, hc⟩
  | some c =>
    dsimp only
    rw [hc] at hi hl
    cases harm : armTimer s c x.timeoutMs x.now x.reallocOk with
    | mk d t =>
      cases d with
      | none =>
        have : Moves s₀ a (some c, s) (some c, t) ∧ _ := armTimer_none_moves hi harm
        exact ⟨this.1, this.2.trans hc⟩
      | some d =>
        have hA := armTimer_some hi harm
        have hctl : t.ctl = s.ctl := by
          rw [hA.eq]
          rfl
        have hto := ((s.co c).prepared_fields x.timeoutMs x.now).1
        dsimp only
        cases hok : x.ctlOk with
        | true =>
          rw [coIomuxAdd_ok]
          refine Move.moves (.block hb ?_ (hA.blocks hi
            (f := .waitIo ⟨x.call, x.fd, x.call.events, noEvents, x.timeoutMs⟩) rfl rfl rfl rfl rfl
            rfl rfl rfl ⟨rfl, rfl, rfl⟩ rfl) (fun ht => ?_) (fun _ => hto))
          · simp [Frame.fits, Op.name]
          · rw [Op.due, Routine.prepared_wakeupTime _ (by simpa [Frame.timed] using ht)]
        | false =>
          rw [coIomuxAdd_fail]
          have harms : arms s x.timeoutMs x.reallocOk = false := by
            by_contra hne
            have := hl rfl (by simpa using hne)
            rw [hok] at this
            cases this
          refine ⟨Move.moves (.touch (hA.touches hi harms (.inr rfl) rfl rfl ⟨rfl, rfl, rfl⟩
            ⟨rfl, rfl, rfl⟩ rfl) (.inl ?_)), ?_⟩
          · exact ((s.co c).prepared_fields x.timeoutMs x.now).2.2.2.1
          · simpa [St.coCurrent, St.modify, hctl] using hc

theorem coIo_of_waits {x : IoArgs} (hw : x.waits = true) :
    coIo s x = match coWaitIo s x with
      | .ret (.code e) t => .ret (failedWait e) t
      | o => o := by
  simp only [IoArgs.waits, Bool.and_eq_true, Bool.not_eq_true', Bool.or_eq_false_iff,
    decide_eq_false_iff_not, beq_iff_eq] at hw
  obtain ⟨⟨hfd, hargs⟩, hfirst⟩ := hw
  have hbad : ¬ (x.fd < 0 ∨ (x.call ≠ .accept ∧ (!x.argsOk) = true)) := by
    rintro (h | ⟨h1, h2⟩)
    · exact hfd h
    · simp [h1, h2] at hargs
  unfold coIo
  rw [if_neg hbad]
  cases coWaitIo s x with
  | ret r t => cases r <;> simp [hfirst]
  | swap t => simp [hfirst]
  | abort => simp [hfirst]

/-- What the callers of `co_wait_io` make of its result. -/
def Ret.afterWait : Ret → Ret
  | .code e => failedWait e
  | r => r

/-- `co_read` and the others return at once, or make what they want of `co_wait_io`. -/
theorem coIo_cases (s : St) (x : IoArgs) :
    (∃ r, coIo s x = .ret r s) ∨ (x.waits = true ∧ ∃ f : Ret → Ret,
      coIo s x = match coWaitIo s x with
        | .ret r s => .ret (f r) s
        | o => o) := by
  unfold coIo
  split
  · exact .inl ⟨_, rfl⟩
  rename_i hargs
  split
  · exact .inl ⟨_, rfl⟩
  rename_i e hfirst
  split
  · rename_i he
    refine .inr ⟨?_, Ret.afterWait, ?_⟩
    · simp only [not_or, not_and] at hargs
      have h1 : ¬ x.fd < 0 := hargs.1
      have h2 : x.call ≠ .accept → x.argsOk = true := by simpa using hargs.2
      by_cases hacc : x.call = .accept
      · simp [IoArgs.waits, hfirst, he, hacc, h1]
      · simp [IoArgs.waits, hfirst, he, h1, h2 hacc]
    · cases coWaitIo s x with
      | ret r t => cases r <;> rfl
      | swap t => rfl
      | abort => rfl
  · exact .inl ⟨_, rfl⟩

theorem coIo_via {x : IoArgs} (hi : Inv run s.coCurrent s.toSched)
    (hb : Begins s₀ a s (.io x)) (hl : leaks s₀ (.call (.io x)) = false) :
    (coIo s x).Via (Moves s₀ a (s.coCurrent, s)) s.coCurrent := by
  obtain ⟨r, hr⟩ | ⟨hwaits, f, hr⟩ := coIo_cases s x
  · rw [hr]
    exact ⟨.refl _, rfl⟩
  rw [hr]
  have hvia := coWaitIo_via hi hb (fun hc ha => by
    rw [hb.2, beginCall_coCurrent] at hc
    have harms : arms s₀ x.timeoutMs x.reallocOk = true := by
      rw [hb.2] at ha
      simpa only [arms, (beginCall_kernel s₀ _).1] using ha
    simpa [leaks, hc, hwaits, harms] using hl)
  cases hw : coWaitIo s x with
  | ret r t =>
    rw [hw] at hvia
    exact hvia
  | swap t =>
    rw [hw] at hvia
    exact hvia
  | abort => trivial

theorem coIomuxAssociate_ok {fd : Nat} {portOk : Bool}
    (h : (s.iocp.associatedSockets.contains fd || portOk) = true) :
    ∃ l, coIomuxAssociate s fd portOk =
      (.ok, { s with iocp := { s.iocp with associatedSockets := l } }) := by
  unfold coIomuxAssociate
  split
  · exact ⟨_, rfl⟩
  · rename_i hc
    simp only [hc, Bool.false_or] at h
    simp only [h, if_true]
    split
    · exact ⟨_, rfl⟩
    · exact ⟨_, rfl⟩

theorem coIomuxAssociate_fail {fd : Nat} {portOk : Bool}
    (h : (s.iocp.associatedSockets.contains fd || portOk) = false) :
    coIomuxAssociate s fd portOk = (.platform, s) := by
  simp only [Bool.or_eq_false_iff] at h
  simp only [coIomuxAssociate, h.1, h.2, Bool.false_eq_true, if_false]

theorem coWaitIoAsync_via {x : AsyncArgs} (hi : Inv run s.coCurrent s.toSched)
    (hb : Begins s₀ a s (.ioAsync x))
    (hl : s.coCurrent.isSome = true → arms s x.timeoutMs x.reallocOk = true →
      refusedAsync s x = false) :
    (coWaitIoAsync s x).Via (Moves s₀ a (s.coCurrent, s)) s.coCurrent := by
  unfold coWaitIoAsync
  cases hc : s.coCurrent with
  | none =>
    dsimp only
    split <;> exact ⟨.refl _, hc⟩
  | some c =>
    dsimp only
    rw [hc] at hi hl
    cases harm : armTimer s c x.timeoutMs x.now x.reallocOk with
    | mk d t =>
      cases d with
      | none =>
        have : Moves s₀ a (some c, s) (some c, t) ∧ _ := armTimer_none_moves hi harm
        exact ⟨this.1, this.2.trans hc⟩
      | some d =>
        have hA := armTimer_some hi harm
        have hctl : t.ctl = s.ctl := by
          rw [hA.eq]
          rfl
        have hiocp : t.iocp = s.iocp := by
          rw [hA.eq]
          rfl
        have hstate := ((s.co c).prepared_fields x.timeoutMs x.now).2.2.2.1
        have hto := ((s.co c).prepared_fields x.timeoutMs x.now).1
        have harms : refusedAsync s x = true → arms s x.timeoutMs x.reallocOk = false := by
          intro hr
          by_contra hne
          have := hl rfl (by simpa using hne)
          rw [hr] at this
          cases this
        dsimp only
        by_cases hport : (t.iocp.associatedSockets.contains x.fd || x.portOk) = true
        · obtain ⟨l, heq⟩ := coIomuxAssociate_ok hport
          rw [heq]
          dsimp only
          split
          · refine Move.moves (.block hb ?_ (hA.blocks hi
              (f := .waitAsync ⟨x.opType, x.fd, noEvents, x.timeoutMs, 0⟩) rfl rfl rfl rfl rfl
              rfl rfl rfl ⟨rfl, rfl, rfl⟩ rfl) (fun ht => ?_) (fun _ => hto))
            · simp [Frame.fits, Op.name]
            · rw [Op.due, Routine.prepared_wakeupTime _ (by simpa [Frame.timed] using ht)]
          · rename_i hsub
            have hr := harms (by simp [refusedAsync, hsub])
            split
            · refine ⟨Move.moves (.touch (hA.touches hi hr (.inl rfl) rfl rfl ⟨rfl, rfl, rfl⟩
                ⟨rfl, rfl, rfl⟩ rfl) (.inl hstate)), ?_⟩
              simpa [St.coCurrent, hctl] using hc
            · refine ⟨Move.moves (.touch (hA.touches hi hr (.inl rfl) rfl rfl ⟨rfl, rfl, rfl⟩
                ⟨rfl, rfl, rfl⟩ rfl) (.inl hstate)), ?_⟩
              simpa [St.coCurrent, hctl] using hc
            · refine ⟨Move.moves (.touch (hA.touches hi hr (.inr rfl) rfl rfl ⟨rfl, rfl, rfl⟩
                ⟨rfl, rfl, rfl⟩ rfl) (.inl hstate)), ?_⟩
              simpa [St.coCurrent, St.modify, hctl] using hc
            · refine ⟨Move.moves (.touch (hA.touches hi hr (.inr rfl) rfl rfl ⟨rfl, rfl, rfl⟩
                ⟨rfl, rfl, rfl⟩ rfl) (.inl hstate)), ?_⟩
              simpa [St.coCurrent, St.modify, hctl] using hc
        · rw [Bool.not_eq_true] at hport
          rw [coIomuxAssociate_fail hport]
          rw [hiocp] at hport
          have hr := harms (by simp only [refusedAsync, hport, Bool.false_and, Bool.not_false])
          refine ⟨Move.moves (.touch (hA.touches hi hr (.inr rfl) rfl rfl ⟨rfl, rfl, rfl⟩
            ⟨rfl, rfl, rfl⟩ rfl) (.inl hstate)), ?_⟩
          simpa [St.coCurrent, St.modify, hctl] using hc

theorem coIoAsync_via {x : AsyncArgs} (hi : Inv run s.coCurrent s.toSched)
    (hb : Begins s₀ a s (.ioAsync x)) (hl : leaks s₀ (.call (.ioAsync x)) = false) :
    (coIoAsync s x).Via (Moves s₀ a (s.coCurrent, s)) s.coCurrent := by
  unfold coIoAsync
  split
  · exact ⟨.refl _, rfl⟩
  rename_i hargs
  split
  · exact ⟨.refl _, rfl⟩
  rename_i hsetup
  refine coWaitIoAsync_via hi hb fun hc ha => ?_
  rw [hb.2, beginCall_coCurrent] at hc
  rw [hb.2] at ha
  have harms : arms s₀ x.timeoutMs x.reallocOk = true := by
    simpa only [arms, (beginCall_kernel s₀ _).1] using ha
  have hr : refusedAsync s₀ x = false := by
    have h1 : x.argsOk = true := by simpa using hargs
    have h2 : x.setupOk = true := by simpa using hsetup
    simpa [leaks, hc, harms, h1, h2] using hl
  rw [hb.2]
  simpa only [refusedAsync, (beginCall_kernel s₀ _).2.1] using hr

/-! ## Polling -/

theorem wakeIo_waiting {f : Frame} (hs : (s.co c).state = .waiting) :
    wakeIo (s.modify c fun r => { r with frame := f }) c =
      (coQueuePushBack { s.modify c (fun r =>
        { r with state := .ready, frame := f, ioWaiting := false }) with
          waitingIoCount := decr32 s.waitingIoCount } .ready c).emit (.ready c) := by
  unfold wakeIo
  have hs' : ((s.modify c fun r => { r with frame := f }).co c).state = .waiting := by
    simpa [St.modify] using hs
  rw [if_pos hs']
  simp only [St.modify_modify]
  rfl

theorem wakeIo_not_waiting {f : Frame} (hs : (s.co c).state ≠ .waiting) :
    wakeIo (s.modify c fun r => { r with frame := f }) c =
      s.modify c fun r => { r with frame := f } := by
  unfold wakeIo
  have hs' : ((s.modify c fun r => { r with frame := f }).co c).state ≠ .waiting := by
    simpa [St.modify] using hs
  rw [if_neg hs']

theorem wakeIo_polled {f : Frame} (hl : f.Like (s.co c).frame)
    (hf : ∀ op, (s.co c).frame.fits op = true → f.fits op = true) :
    Polled s (wakeIo (s.modify c fun r => { r with frame := f }) c) c f := by
  by_cases hs : (s.co c).state = .waiting
  · rw [wakeIo_waiting hs]
    refine ⟨hl, hf, ?_, ?_, ?_, ?_, ?_, ?_, ⟨?_, ?_, ?_⟩, ?_⟩ <;>
      simp [coQueuePushBack, St.modify, St.emit, hs]
  · rw [wakeIo_not_waiting hs]
    refine ⟨hl, hf, ?_, ?_, ?_, ?_, ?_, ?_, ⟨?_, ?_, ?_⟩, ?_⟩ <;> simp [St.modify, hs]

theorem wakeIo_ctl (s : St) (c : Nat) : (wakeIo s c).ctl = s.ctl := by
  unfold wakeIo
  split <;> rfl

theorem pollEvent_moves (ha : a.isIdle = true) (ev : Int × EpollEvents) :
    Moves s₀ a (cur, s) (cur, pollEvent s ev) ∧ (pollEvent s ev).ctl = s.ctl := by
  unfold pollEvent
  split
  · exact ⟨.refl _, rfl⟩
  · rename_i reg hreg
    split
    · rename_i x hf
      refine ⟨Move.moves (.polled (wakeIo_polled ?_ ?_) ha), wakeIo_ctl _ _⟩
      · rw [hf]
        exact ⟨rfl, rfl, rfl, rfl, rfl, rfl⟩
      · rw [hf]
        exact fun op => by cases op <;> exact id
    · exact ⟨.refl _, rfl⟩

theorem coIomuxPoll_moves (ha : a.isIdle = true) (evs : List (Int × EpollEvents)) (s : St) :
    Moves s₀ a (cur, s) (cur, coIomuxPoll s evs) ∧ (coIomuxPoll s evs).ctl = s.ctl := by
  induction evs generalizing s with
  | nil => exact ⟨.refl _, rfl⟩
  | cons ev evs ih =>
    have h1 : Moves s₀ a (cur, s) (cur, pollEvent s ev) ∧ _ := pollEvent_moves ha ev
    have h2 := ih (pollEvent s ev)
    exact ⟨h1.1.trans h2.1, h2.2.trans h1.2⟩

theorem pollPacket_moves (ha : a.isIdle = true) (p : Packet) :
    Moves s₀ a (cur, s) (cur, pollPacket s p) ∧ (pollPacket s p).ctl = s.ctl := by
  unfold pollPacket
  dsimp only
  have hadmin : Move s₀ a [] (cur, s)
      (cur, { s with iocp := { s.iocp with inFlight := s.iocp.inFlight.erase p.ptr } }) :=
    .admin ⟨rfl, rfl, rfl, ⟨rfl, rfl, rfl⟩, ⟨rfl, rfl, rfl⟩, [], by simp, by simp⟩
  split
  · rename_i x hf
    refine ⟨hadmin.moves.trans (Move.moves (.polled (wakeIo_polled ?_ ?_) ha)), wakeIo_ctl _ _⟩
    · simp only [hf]
      exact ⟨rfl, rfl, rfl, rfl, rfl, rfl⟩
    · simp only [hf]
      exact fun op => by cases op <;> exact id
  · rename_i x hf
    refine ⟨hadmin.moves.trans (Move.moves (.polled (wakeIo_polled ?_ ?_) ha)), wakeIo_ctl _ _⟩
    · simp only [hf]
      exact ⟨rfl, rfl, rfl, rfl, rfl, rfl⟩
    · simp only [hf]
      exact fun op => by cases op <;> exact id
  · exact ⟨hadmin.moves, rfl⟩

theorem coIomuxPollPackets_moves (ha : a.isIdle = true) (ps : List Packet) (s : St) :
    Moves s₀ a (cur, s) (cur, coIomuxPollPackets s ps) ∧
      (coIomuxPollPackets s ps).ctl = s.ctl := by
  induction ps generalizing s with
  | nil => exact ⟨.refl _, rfl⟩
  | cons p ps ih =>
    have h1 : Moves s₀ a (cur, s) (cur, pollPacket s p) ∧ _ := pollPacket_moves ha p
    have h2 := ih (pollPacket s p)
    exact ⟨h1.1.trans h2.1, h2.2.trans h1.2⟩

end Libco
