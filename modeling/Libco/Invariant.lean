import Libco.Moves

/-!
# Moves keep every coroutine in its place

Each move is an instance of a rule of `Libco.Transfer`.
-/

namespace Libco
open Lib

variable {run : Prop} {cur : Option Nat} {s s' s₀ : St} {a : Act} {c : Nat}

theorem Inv.cond_none (h : Inv run cur s.toSched) {q : QueueRef} (hq : ∀ v, q ≠ .cond v)
    (hne : q ≠ .ready) (hm : c ∈ s.queues q) : (s.co c).condWaitQueue = none := by
  obtain ⟨-, hw⟩ := Routine.home_wait (h.mem_queue hm) hne
  rw [(h.seated c).cond]
  cases hf : (s.co c).frame <;> simp [hf, Routine.condPtr]
  case timedWait v m =>
    simp only [hf, Frame.waitQueue, Option.some.injEq] at hw
    exact absurd hw.symm (hq v)

/-- Wake-ups out of the queue of a mutex or channel. -/
theorem Inv.wakeAll_wake (h : Inv run cur s.toSched) {q : QueueRef} {ws rest : List Nat}
    (hc : ∀ v, q ≠ .cond v) (hne : q ≠ .ready) (hq : s.queues q = ws ++ rest) :
    Inv run cur (wakeAll s q ws rest .wake).toSched := by
  refine h.wake hne hq ?_ rfl rfl rfl ⟨rfl, rfl, rfl⟩
  intro c hm
  exact ⟨rfl, rfl, rfl, rfl, h.cond_none hc hne (by rw [hq]; simp [hm]), rfl⟩

/-- Wake-ups out of the queue of a condition variable. -/
theorem Inv.wakeAll_cond (h : Inv run cur s.toSched) {v : Nat} {ws rest : List Nat}
    (hq : s.queues (.cond v) = ws ++ rest) :
    Inv run cur (wakeAll s (.cond v) ws rest .wakeCond).toSched :=
  h.wake (by simp) hq (fun _ _ => ⟨rfl, rfl, rfl, rfl, rfl, rfl⟩) rfl rfl rfl ⟨rfl, rfl, rfl⟩

theorem Blocks.inv {r : Routine} (hb : Blocks s s' c r) (h : Inv run (some c) s.toSched) :
    Inv run none s'.toSched := by
  refine h.block hb.co hb.state hb.blocks ?_ hb.heap hb.timedOut hb.cond hb.io hb.nextId
    hb.ioCount hb.active
  intro d p
  rw [hb.queues]
  cases hw : r.frame.waitQueue with
  | none => simp
  | some q =>
    rw [count_pushBack]
    simp only [Option.some.injEq, eq_comm]

theorem Dispatches.inv {rest : List Nat} (hd : Dispatches s s' c rest)
    (h : Inv run none s.toSched) : Inv run (some c) s'.toSched :=
  h.dispatch hd.ready hd.co rfl rfl rfl rfl rfl hd.queues hd.ordered hd.heap hd.counts

theorem Frame.relocking_spec {f f' : Frame} {m : Nat} (h : f.relocking = some (m, f')) :
    (∃ v, (f = .condWait v m ∧ f' = .condRelock v m) ∨
      (f = .timedWait v m ∧ f' = .timedRelock v m)) := by
  cases f <;> simp [Frame.relocking] at h
  case condWait v m' =>
    obtain ⟨rfl, rfl⟩ := h
    exact ⟨v, .inl ⟨rfl, rfl⟩⟩
  case timedWait v m' =>
    obtain ⟨rfl, rfl⟩ := h
    exact ⟨v, .inr ⟨rfl, rfl⟩⟩

theorem Relocks.inv {rest : List Nat} {m : Nat} {f : Frame} (hr : Relocks s s' c rest m f)
    (h : Inv run none s.toSched) : Inv run none s'.toSched := by
  obtain ⟨hsus, hst⟩ := Routine.home_ready
    (h.mem_queue (q := .ready) (c := c) (by rw [hr.ready]; simp))
  have hseat := h.seated c
  have hcw : (s.co c).condWaitQueue = none := by
    rw [hseat.cond]
    simp [Routine.condPtr, hst]
  have hiw : (s.co c).ioWaiting = false := by
    rw [hseat.io]
    simp [Routine.ioFlag, hst]
  have hf : f.blocks = true ∧ f.waitQueue = some (.mutex m) ∧ f.timed = false ∧
      f.isIo = false ∧ ∀ v m, f ≠ .timedWait v m := by
    obtain ⟨v, ⟨-, rfl⟩ | ⟨-, rfl⟩⟩ := Frame.relocking_spec hr.relocking <;>
      exact ⟨rfl, rfl, rfl, rfl, by simp⟩
  -- the coroutine runs for a moment, between the dispatch and the lock
  have hmid : Inv run (some c) { s.toSched with
      co := Function.update s.co c { s.co c with state := .running, frame := .user }
      queues := Function.update s.queues .ready rest
      timerHeap := s'.timerHeap } :=
    h.dispatch hr.ready rfl rfl rfl rfl rfl hiw rfl hr.ordered hr.heap ⟨rfl, rfl, rfl⟩
  refine hmid.block (r := { s.co c with state := .waiting, frame := f }) ?_ rfl hf.1 ?_ ?_ ?_ ?_ ?_
    hr.counts.nextId ?_ hr.counts.active
  · simp [hr.co]
  · intro d p
    rw [hr.queues, hf.2.1]
    have := count_pushBack (Q := Function.update s.queues .ready rest) (q := .mutex m) (c := c) d p
    simp only [Function.update_of_ne (show (QueueRef.mutex m) ≠ .ready by simp)] at this
    rw [this]
    simp only [Option.some.injEq, eq_comm]
  · simp [Sched.Armed, hf.2.2.1]
  · simp [hf.2.2.1]
  · show (s.co c).condWaitQueue = _
    rw [hcw]
    unfold Routine.condPtr
    split
    · rename_i hfr _
      exact absurd hfr (hf.2.2.2.2 _ _)
    · rfl
  · show (s.co c).ioWaiting = _
    rw [hiw]
    simp [Routine.ioFlag, hf.2.2.2.1]
  · simp [hf.2.2.2.1, hr.counts.io]

theorem Inv.mem_heap_of_waiting (h : Inv run cur s.toSched) (hs : (s.co c).state = .waiting)
    (ht : (s.co c).frame.timed = true) : c ∈ s.timerHeap.entries :=
  List.count_pos_iff.mp ((h.seated c).timer_must (by simp [Routine.mustTimer, hs, ht]))

theorem Frame.timed_suspended {f : Frame} (h : f.timed = true) : f.suspended = true := by
  cases f <;> simp [Frame.timed, Frame.suspended] at h ⊢

theorem Frame.waitQueue_ne_ready {f : Frame} {q : QueueRef} (h : f.waitQueue = some q) :
    q ≠ .ready := by
  cases f <;> simp [Frame.waitQueue] at h <;> simp [← h]

theorem count_erase_le {l l' : List Nat} (h : l'.Perm (l.erase c)) :
    (∀ d, d ≠ c → l'.count d = l.count d) ∧ l'.count c = l.count c - 1 :=
  ⟨fun d hd => by rw [h.count_eq, List.count_erase_of_ne hd],
    by rw [h.count_eq, List.count_erase_self]⟩

theorem Expires.inv (he : Expires s s' c) (h : Inv run cur s.toSched) :
    Inv run cur s'.toSched := by
  have hsus := Frame.timed_suspended he.timed
  have hseat := h.seated c
  obtain ⟨hhd, hhc⟩ := count_erase_le he.heap
  have hhome : (s.co c).home = (s.co c).frame.waitQueue := by
    simp [Routine.home, hsus, he.waiting]
  refine h.rouse he.waiting hsus he.co rfl hsus rfl rfl rfl ?_ hhd (by omega) ?_ he.ordered
    he.nextId he.ioCount he.active
  · intro d p
    rw [he.queues, hhome]
    cases hw : (s.co c).frame.waitQueue with
    | none =>
      simp only [reduceCtorEq, false_and, if_false, Nat.add_zero]
      exact count_pushBack d p
    | some q =>
      have hne := Frame.waitQueue_ne_ready hw
      have hm : c ∈ s.queues q := by
        rw [← List.count_pos_iff]
        have := hseat.queued q
        rw [hhome, hw, if_pos rfl] at this
        omega
      have h1 := count_pushBack (c := c) (q := .ready)
        (Q := Function.update s.queues q ((s.queues q).erase c)) d p
      have h2 := count_remove hm d p
      simp only [Function.update_of_ne hne.symm] at h1
      simp only [Option.some.injEq, eq_comm (a := q)]
      omega
  · intro hp
    have := hseat.timer_le
    omega

theorem Frame.io_suspended {f : Frame} (h : f.isIo = true) :
    f.suspended = true ∧ f.waitQueue = none ∧ f ≠ .sleep := by
  cases f <;> simp [Frame.isIo, Frame.suspended, Frame.waitQueue] at h ⊢

theorem Polled.inv {f : Frame} (hp : Polled s s' c f) (h : Inv run cur s.toSched) :
    Inv run cur s'.toSched := by
  obtain ⟨hsus, hwq, hsl⟩ := Frame.io_suspended hp.like.io
  obtain ⟨hsus', -, hsl'⟩ := Frame.io_suspended (hp.like.isIo.trans hp.like.io)
  have hco := hp.co
  have hqs := hp.queues
  have hn := hp.ioCount
  have hseat := h.seated c
  by_cases hst : (s.co c).state = .waiting
  · simp only [hst, if_true] at hco hqs hn
    refine h.rouse hst hsus hco rfl hsus' rfl ?_ rfl ?_ ?_ ?_ ?_ ?_ hp.nextId ?_ hp.active
    · show (s.co c).condWaitQueue = none
      rw [hseat.cond]
      cases hf : (s.co c).frame <;> simp [hf, Routine.condPtr]
      simp [hf, Frame.waitQueue] at hwq
    · intro d p
      rw [hqs, count_pushBack]
      simp [Routine.home, hsus, hst, hwq]
    · intro d _
      rw [hp.heap]
    · rw [hp.heap]
    · intro hpos
      rw [hp.heap] at hpos
      obtain ⟨ht, hto⟩ := Routine.timed_of_mayTimer (hseat.timer_may hpos)
      exact ⟨hp.like.timed.trans ht, hsl', hto hsl⟩
    · rw [hp.heap]
      exact h.ordered
    · rw [hn, hp.like.io, if_pos rfl]
  · simp only [hst, if_false] at hco hqs hn
    exact h.reframe hp.like hco hqs hp.heap ⟨hp.nextId, hn, hp.active⟩

theorem Spawns.inv (hs : Spawns s s') (h : Inv run cur s.toSched) : Inv run cur s'.toSched := by
  obtain ⟨b, n, hco⟩ := hs.co
  exact h.spawn hco rfl rfl rfl rfl hs.queues hs.heap hs.nextId hs.ioCount hs.active

/-- **Moves keep the invariant.** -/
theorem Move.inv {os : List Obj} {p p' : Option Nat × St} (hm : Move s₀ a os p p')
    (hal : run → a.allocFails = false) (h : Inv run p.1 p.2.toSched) :
    Inv run p'.1 p'.2.toSched := by
  cases hm with
  | admin had => exact h.same had.co had.queues had.timerHeap had.counts
  | invoke ha =>
    simp only [beginCall]
    split
    · exact h.touch rfl ⟨rfl, rfl, rfl, rfl, rfl⟩ rfl rfl rfl rfl rfl rfl
    · exact h.same rfl rfl rfl ⟨rfl, rfl, rfl⟩
  | skipId p => exact h.skipId rfl rfl rfl rfl rfl rfl
  | spawn hs => exact hs.inv h
  | @finish c s s' hs' =>
    subst hs'
    obtain ⟨pool, he⟩ := finish_eq s c
    rw [he]
    exact h.finish rfl rfl rfl rfl rfl rfl rfl rfl rfl rfl
  | @yieldNow c op s hb hf =>
    refine h.requeue (r := { s.co c with frame := .yieldNow, state := .ready }) ?_ rfl rfl
      rfl rfl rfl rfl ⟨rfl, rfl, rfl⟩
    simp [coSchedulerEnqueue, coQueuePushBack, St.modify, St.emit]
  | block hb hf hbl => exact hbl.inv h
  | drain hold hf hbl => exact hbl.inv h
  | touch ht hs =>
    refine h.userTouch ht.co ht.frame ?_ ht.cond ht.io ht.queues ht.heap ht.counts
    intro hrun
    rcases hs with hs | hs
    · rw [hs]
      exact (h.seated _).user ((h.user _).mpr rfl) hrun
    · rw [hal hrun] at hs
      cases hs
  | dispatch hd => exact hd.inv h
  | relock hr => exact hr.inv h
  | expire he => exact he.inv h
  | dropTimer hs hord hperm =>
    obtain ⟨hhd, hhc⟩ := count_erase_le hperm
    exact h.dropTimer hs rfl rfl hhd (by simp only; omega) hord ⟨rfl, rfl, rfl⟩
  | polled hp => exact hp.inv h
  | take hfree hcur => exact h.same rfl rfl rfl ⟨rfl, rfl, rfl⟩
  | unlock ha hop hpre hcur hl hq => exact h.same rfl rfl rfl ⟨rfl, rfl, rfl⟩
  | handoff ha hop hpre hcur hl hq =>
    refine Inv.wakeAll_wake ?_ (by simp) (by simp) hq
    exact h.same rfl rfl rfl ⟨rfl, rfl, rfl⟩
  | notify hq he =>
    refine Inv.wakeAll_cond ?_ hq
    exact h.same rfl rfl rfl ⟨rfl, rfl, rfl⟩
  | placeHand hb hop hcl hq =>
    refine Inv.wakeAll_wake ?_ (by simp) (by simp) hq
    exact h.touch rfl ⟨rfl, rfl, rfl, rfl, rfl⟩ rfl rfl rfl rfl rfl rfl
  | placeRing hb hop hcl hq hroom => exact h.same rfl rfl rfl ⟨rfl, rfl, rfl⟩
  | takeRing hb hop hpos hq => exact h.same rfl rfl rfl ⟨rfl, rfl, rfl⟩
  | takeRefill hb hop hpos hq =>
    refine Inv.wakeAll_wake ?_ (by simp) (by simp) hq
    exact h.same rfl rfl rfl ⟨rfl, rfl, rfl⟩
  | takeMeet hb hop hzero hq =>
    refine Inv.wakeAll_wake ?_ (by simp) (by simp) hq
    exact h.same rfl rfl rfl ⟨rfl, rfl, rfl⟩
  | close hb hop hcl =>
    refine Inv.wakeAll_wake (Inv.wakeAll_wake ?_ (by simp) (by simp) (List.append_nil _).symm)
      (by simp) (by simp) ?_
    · exact h.same rfl rfl rfl ⟨rfl, rfl, rfl⟩
    · simp [wakeAll, St.emit, St.setChan]

end Libco
