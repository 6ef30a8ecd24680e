import Libco.Steps

/-!
# What moves do to one record

Invariants that concern the records of the coroutines one by one, and not the
containers, are checked on `RecordStep`: it says what a move may do to the
record of `c`, which coroutine it does it to, and during which action.
-/

namespace Libco
open Lib

variable {run : Prop} {cur : Option Nat} {s s' s₀ : St} {a : Act} {c d : Nat}

/-- From `r` to `r'`, the record of `c`. -/
inductive RecordStep (s₀ : St) (a : Act) (c : Nat) (r : Routine) : Routine → Prop
  | same : RecordStep s₀ a c r r
  | called {op : Op} (ha : a = .call op) (hf : r.frame = .user) (hc : s₀.coCurrent = some c) :
      RecordStep s₀ a c r { r with call := s₀.calls }
  | spawned {r' : Routine} (hf : r.frame = .absent) (hf' : r'.frame = .entry) :
      RecordStep s₀ a c r r'
  | finished {r' : Routine} (hf : r.frame = .user) (hf' : r'.frame = .freed) :
      RecordStep s₀ a c r r'
  | yielded {op : Op} (ha : a = .call op) (hf : r.frame = .user) :
      RecordStep s₀ a c r { r with frame := .yieldNow, state := .ready }
  | blocked {op : Op} {r' : Routine} (ha : a = .call op) (hf : r.frame = .user)
      (hf₀ : (s₀.co c).frame = .user) (hfits : r'.frame.fits op.name = true) (hst : r'.state = .waiting)
      (hdir : ∀ v m, r'.frame ≠ .condRelock v m ∧ r'.frame ≠ .timedRelock v m)
      (hcall : r'.call = r.call) (hdue : r'.frame.timed = true → op.due = some r'.wakeupTime)
      (hto : (r'.frame.timed = true ∧ r'.frame ≠ .sleep) ∨ r'.frame.isIo = true →
        r'.timedOut = false) :
      RecordStep s₀ a c r r'
  | drained {r' : Routine} {x : AsyncCtx} (ha : a.isSchedule = true) (hf : r.frame = .user)
      (hf' : r'.frame = .drainAsync x) : RecordStep s₀ a c r r'
  | touched {r' : Routine} (hf : r.frame = .user) (hf' : r'.frame = .user)
      (hcall : r'.call = r.call) : RecordStep s₀ a c r r'
  | dispatched {rest : List Nat} (ha : a.isSchedule = true) (hq : s₀.queues .ready = c :: rest)
      (hst : r.state = .ready) :
      RecordStep s₀ a c r { r with state := .running, frame := .user, ioWaiting := false }
  | relocked {rest : List Nat} {m : Nat} {f : Frame} (ha : a.isSchedule = true)
      (hq : s₀.queues .ready = c :: rest) (hst : r.state = .ready)
      (hf : r.frame.relocking = some (m, f)) :
      RecordStep s₀ a c r { r with state := .waiting, frame := f }
  | expired (ha : a.isTimers = true) (hst : r.state = .waiting) (ht : r.frame.timed = true) :
      RecordStep s₀ a c r
        { r with
          state := .ready, condWaitQueue := none, ioWaiting := false
          timedOut := if r.frame = .sleep then r.timedOut else true }
  | polled {f : Frame} (ha : a.isIdle = true) (hl : f.Like r.frame)
      (hfits : ∀ op, r.frame.fits op = true → f.fits op = true) :
      RecordStep s₀ a c r
        (if r.state = .waiting then { r with state := .ready, frame := f, ioWaiting := false }
        else { r with frame := f })
  | woken {q : QueueRef} {r' : Routine} (hst : r.state = .waiting)
      (hq : r.frame.waitQueue = some q) (hst' : r'.state = .ready) (hf : r'.frame = r.frame)
      (hcall : r'.call = r.call) (hw : r'.wakeupTime = r.wakeupTime)
      (hto : r'.timedOut = r.timedOut) : RecordStep s₀ a c r r'

theorem recordStep_update {r : Routine} (hco : s'.co = Function.update s.co c r)
    (h : RecordStep s₀ a c (s.co c) r) (d : Nat) : RecordStep s₀ a d (s.co d) (s'.co d) := by
  rw [hco]
  by_cases hd : d = c
  · subst hd
    simpa using h
  · simpa [hd] using RecordStep.same

/-- Whoever leaves a wait queue was waiting in it. -/
theorem Inv.recordStep_woken {q : QueueRef} {r : Routine} (hi : Inv run cur s.toSched)
    (hq : q ≠ .ready) (hm : c ∈ s.queues q)
    (hr : r = { s.co c with
      state := .ready, condWaitQueue := r.condWaitQueue, chanData := r.chanData }) :
    RecordStep s₀ a c (s.co c) r := by
  obtain ⟨hst, hw⟩ := Routine.home_wait (hi.mem_queue hm) hq
  refine .woken hst hw ?_ ?_ ?_ ?_ ?_ <;> rw [hr]

theorem Inv.recordStep_wakeAll {q : QueueRef} {ws rest : List Nat} {g : Routine → Routine}
    {t : St} (hi : Inv run cur s.toSched) (hq : q ≠ .ready) (hws : ∀ c ∈ ws, c ∈ s.queues q)
    (hco : t.co = s.co) (hg : g = .wake ∨ g = .wakeCond) (d : Nat) :
    RecordStep s₀ a d (s.co d) ((wakeAll t q ws rest g).co d) := by
  by_cases hd : d ∈ ws
  · refine hi.recordStep_woken hq (hws d hd) ?_
    rcases hg with rfl | rfl <;>
      simp [wakeAll, hd, hco, Routine.wake, Routine.wakeCond]
  · simpa [wakeAll, hd, hco] using RecordStep.same

/-- **Inversion of moves, record by record.** -/
theorem Move.record {os : List Obj} {p p' : Option Nat × St} (hm : Move s₀ a os p p')
    (hi : Inv run p.1 p.2.toSched) (d : Nat) : RecordStep s₀ a d (p.2.co d) (p'.2.co d) := by
  have hcur : ∀ {c : Nat}, p.1 = some c → (p.2.co c).frame = .user := fun hc => (hi.user _).mpr hc
  have hfront : ∀ {c : Nat} {rest : List Nat}, p.2.queues .ready = c :: rest →
      (p.2.co c).state = .ready := fun hq => (hi.ready_fields hq).1
  cases hm with
  | admin had =>
    rw [had.co]
    exact .same
  | @invoke op ha =>
    simp only [beginCall]
    split
    · rename_i c hc
      exact recordStep_update (s := s₀) rfl (.called ha (hcur hc) hc) d
    · exact .same
  | skipId p => exact .same
  | spawn hs =>
    obtain ⟨b, n, hco⟩ := hs.co
    exact recordStep_update hco (.spawned (hi.fresh _ (Nat.le_refl _)) rfl) d
  | @finish c s s' hs' =>
    obtain ⟨pool, he⟩ := finish_eq s c
    rw [hs', he]
    exact recordStep_update rfl (.finished (hcur rfl) rfl) d
  | @yieldNow c op s hb hf =>
    refine recordStep_update (s := s) (c := c) ?_ (.yielded hb.1 (hcur rfl)) d
    simp [coSchedulerEnqueue, coQueuePushBack, St.modify, St.emit]
  | @block c op s s' r hb hf hbl hd hto =>
    have hf₀ : (s₀.co c).frame = .user := by
      rw [← beginCall_frame s₀ op, ← hb.2]
      exact hcur rfl
    refine recordStep_update hbl.co (.blocked hb.1 (hcur rfl) hf₀ hf hbl.state hbl.direct hbl.call
      hd fun h => ?_) d
    rcases h with ⟨ht, hne⟩ | hio
    · exact hbl.timedOut ht hne
    · exact hto hio
  | drain hold hf hbl ha => exact recordStep_update hbl.co (.drained ha (hcur rfl) hf) d
  | touch ht hs => exact recordStep_update ht.co (.touched (hcur rfl) ht.frame ht.call) d
  | dispatch hd ha =>
    exact recordStep_update hd.co (.dispatched ha hd.ready (hfront hd.ready)) d
  | relock hr ha =>
    exact recordStep_update hr.co (.relocked ha hr.ready (hfront hr.ready) hr.relocking) d
  | expire he ha => exact recordStep_update he.co (.expired ha he.waiting he.timed) d
  | dropTimer hs hord hperm => exact .same
  | polled hp ha => exact recordStep_update hp.co (.polled ha hp.like hp.fits) d
  | take hfree hcur => exact .same
  | unlock ha hop hpre hcur hl hq => exact .same
  | handoff ha hop hpre hcur hl hq =>
    exact hi.recordStep_wakeAll (by simp) (by simp [hq]) rfl (.inl rfl) d
  | notify hq he =>
    exact hi.recordStep_wakeAll (by simp) (fun c hc => by rw [hq]; simp [hc]) rfl (.inr rfl) d
  | @placeHand cur h' c rest data op s hb hop hcl hq =>
    by_cases hd : d = c
    · subst hd
      refine hi.recordStep_woken (q := .recv h') (by simp) (by simp [hq]) ?_
      simp [wakeAll, deliver, St.modify, St.emit, Routine.wake]
    · simpa [wakeAll, deliver, St.modify, St.emit, hd] using RecordStep.same
  | placeRing hb hop hcl hq hroom => exact .same
  | takeRing hb hop hpos hq => exact .same
  | takeRefill hb hop hpos hq =>
    exact hi.recordStep_wakeAll (by simp) (by simp [hq]) rfl (.inl rfl) d
  | takeMeet hb hop hzero hq =>
    exact hi.recordStep_wakeAll (by simp) (by simp [hq]) rfl (.inl rfl) d
  | @close cur h' op s hb hop hcl =>
    by_cases hr : d ∈ s.queues (.recv h')
    · refine hi.recordStep_woken (by simp) hr ?_
      by_cases hs : d ∈ s.queues (.send h') <;>
        simp [wakeAll, St.setChan, St.emit, Routine.wake, hr, hs]
    · by_cases hs : d ∈ s.queues (.send h')
      · refine hi.recordStep_woken (by simp) hs ?_
        simp [wakeAll, St.setChan, St.emit, Routine.wake, hr, hs]
      · simpa [wakeAll, St.setChan, St.emit, hr, hs] using RecordStep.same

/-! ## Deadlines in records -/

theorem Frame.relocking_timed {f f' : Frame} {m : Nat} (h : f.relocking = some (m, f')) :
    f'.timed = false := by
  obtain ⟨v, ⟨-, rfl⟩ | ⟨-, rfl⟩⟩ := Frame.relocking_spec h <;> rfl

/-- The deadline of a timed wait is one that its call has set. -/
theorem RecordStep.due {P : Nat → Prop} {r r' : Routine} (h : RecordStep s₀ a c r r')
    (hset : ∀ op, a = .call op → (s₀.co c).frame = .user → ∀ d, op.due = some d → P d)
    (hr : r.frame.timed = true → P r.wakeupTime) (ht : r'.frame.timed = true) :
    P r'.wakeupTime := by
  cases h with
  | same => exact hr ht
  | called ha hf hc => exact hr ht
  | spawned hf hf' | finished hf hf' | touched hf hf' | drained ha hf hf' =>
    rw [hf'] at ht
    cases ht
  | yielded ha hf => cases ht
  | blocked ha hf hf₀ hfits hst hdir hcall hdue hto => exact hset _ ha hf₀ _ (hdue ht)
  | dispatched ha hq hst => cases ht
  | relocked ha hq hst hf =>
    rw [Frame.relocking_timed hf] at ht
    cases ht
  | expired ha hst ht' => exact hr ht'
  | polled ha hl hfits =>
    split at ht
    · rename_i hst
      rw [if_pos hst]
      exact hr (hl.timed ▸ ht)
    · rename_i hst
      rw [if_neg hst]
      exact hr (hl.timed ▸ ht)
  | woken hst hq hst' hf hcall hw hto =>
    rw [hw]
    exact hr (hf ▸ ht)

end Libco
