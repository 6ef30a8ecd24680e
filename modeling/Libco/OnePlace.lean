import Libco.Exclusion

/-!
# Every coroutine is in exactly one place

Between two dispatches an unfinished coroutine is ready, asleep, or in one wait
queue. Wake-ups and dispatches match: the coroutines that were made ready are
those that were dispatched followed by those in the ready queue.
-/

namespace Libco
open Lib

variable {run : Prop} {cur : Option Nat} {s s' s₀ : St} {a : Act} {c : Nat}

/-! ## Wake-ups and dispatches -/

/-- The coroutines put in the ready queue, in order. -/
def readySeq (h : List Event) : List Nat :=
  h.filterMap fun
    | .ready c => some c
    | _ => none

/-- The coroutines dispatched, in order. -/
def dispatchSeq (h : List Event) : List Nat :=
  h.filterMap fun
    | .dispatch c => some c
    | _ => none

def ReadyFifo (s : St) : Prop := readySeq s.trace = dispatchSeq s.trace ++ s.queues .ready

theorem readySeq_append (h es : List Event) : readySeq (h ++ es) = readySeq h ++ readySeq es := by
  simp [readySeq]

theorem dispatchSeq_append (h es : List Event) :
    dispatchSeq (h ++ es) = dispatchSeq h ++ dispatchSeq es := by
  simp [dispatchSeq]

/-- Coroutines are made ready, nobody is dispatched. -/
def Readied (s s' : St) : Prop :=
  ∃ es, s'.trace = s.trace ++ es ∧ dispatchSeq es = [] ∧
    s'.queues .ready = s.queues .ready ++ readySeq es

/-- The first ready coroutine is dispatched. -/
def Popped (s s' : St) : Prop :=
  ∃ c rest es, s.queues .ready = c :: rest ∧ s'.trace = s.trace ++ es ∧ readySeq es = [] ∧
    dispatchSeq es = [c] ∧ s'.queues .ready = rest

theorem readied_of_keep {es : List Event} (htr : s'.trace = s.trace ++ es)
    (hr : readySeq es = []) (hd : dispatchSeq es = []) (hq : s'.queues .ready = s.queues .ready) :
    Readied s s' :=
  ⟨es, htr, hd, by rw [hq, hr, List.append_nil]⟩

theorem Readied.trans {s'' : St} (h : Readied s s') (h' : Readied s' s'') : Readied s s'' := by
  obtain ⟨es, htr, hd, hq⟩ := h
  obtain ⟨es', htr', hd', hq'⟩ := h'
  refine ⟨es ++ es', by rw [htr', htr, List.append_assoc], ?_, ?_⟩
  · rw [dispatchSeq_append, hd, hd', List.append_nil]
  · rw [hq', hq, readySeq_append, List.append_assoc]

theorem readied_wakeAll (q : QueueRef) (ws rest : List Nat) (g : Routine → Routine) :
    Readied s (wakeAll s q ws rest g) := by
  have hseq : readySeq (ws.map .ready) = ws ∧ dispatchSeq (ws.map .ready) = [] := by
    induction ws with
    | nil => exact ⟨rfl, rfl⟩
    | cons c ws ih => exact ⟨congrArg (c :: ·) ih.1, ih.2⟩
  refine ⟨ws.map .ready, rfl, hseq.2, ?_⟩
  rw [hseq.1]
  simp [Libco.wakeAll]

theorem neutral_seqs {es : List Event} (h : ∀ e ∈ es, e.neutral = true) :
    readySeq es = [] ∧ dispatchSeq es = [] := by
  refine ⟨List.filterMap_eq_nil_iff.mpr fun e he => ?_, List.filterMap_eq_nil_iff.mpr fun e he => ?_⟩
  all_goals
    have := h e he
    cases e <;> simp [Event.neutral] at this ⊢

theorem Blocks.readied {r : Routine} (hb : Blocks s s' c r) : Readied s s' := by
  refine readied_of_keep hb.trace ?_ ?_ ?_
  · unfold blockEvents
    cases r.frame <;> rfl
  · unfold blockEvents
    cases r.frame <;> rfl
  · rw [hb.queues]
    cases hw : r.frame.waitQueue with
    | none => rfl
    | some q => exact Function.update_of_ne (Frame.waitQueue_ne_ready hw).symm _ _

/-- A move makes coroutines ready, at the end of the queue, or the scheduler takes its
front. -/
theorem Move.ready {os : List Obj} {p p' : Option Nat × St} (hm : Move s₀ a os p p') :
    Readied p.2 p'.2 ∨ (a.isSchedule = true ∧ Popped p.2 p'.2) := by
  cases hm with
  | admin had =>
    obtain ⟨es, hes, hn⟩ := had.trace
    exact .inl (readied_of_keep hes (neutral_seqs hn).1 (neutral_seqs hn).2 (by rw [had.queues]))
  | @invoke op ha =>
    refine .inl (readied_of_keep (beginCall_trace s₀ op) rfl rfl ?_)
    simp only [beginCall]
    split <;> rfl
  | skipId p => exact .inl (readied_of_keep (List.append_nil _).symm rfl rfl rfl)
  | spawn hs => exact .inl ⟨_, hs.trace, rfl, by rw [hs.queues, Function.update_self]; rfl⟩
  | @finish c s s' hs' =>
    obtain ⟨pool, he⟩ := finish_eq s c
    rw [hs', he]
    exact .inl (readied_of_keep (List.append_nil _).symm rfl rfl rfl)
  | @yieldNow c op s hb hf =>
    have htr : (coSchedulerEnqueue (s.modify c fun r => { r with frame := .yieldNow }) c).trace =
        s.trace ++ [Event.ready c] := rfl
    refine .inl ⟨_, htr, rfl, ?_⟩
    simp [coSchedulerEnqueue, coQueuePushBack, St.modify, St.emit, readySeq]
  | block hb hf hbl => exact .inl hbl.readied
  | drain hold hf hbl => exact .inl hbl.readied
  | touch ht hs =>
    exact .inl (readied_of_keep (ht.trace.trans (List.append_nil _).symm) rfl rfl
      (by rw [ht.queues]))
  | @dispatch c rest s' hd ha =>
    refine .inr ⟨ha, c, rest, _, hd.ready, hd.trace, ?_, ?_, ?_⟩
    · cases (s₀.co c).frame <;> rfl
    · cases (s₀.co c).frame <;> rfl
    · rw [hd.queues, Function.update_self]
  | @relock c m rest f s' hr ha =>
    refine .inr ⟨ha, c, rest, _, hr.ready, hr.trace, rfl, rfl, ?_⟩
    rw [hr.queues, Function.update_of_ne (by simp), Function.update_self]
  | @expire cur c s s' he =>
    have hseq : readySeq (expireEvents c (s.co c)) = [c] ∧
        dispatchSeq (expireEvents c (s.co c)) = [] := by
      unfold expireEvents
      cases (s.co c).frame <;> exact ⟨rfl, rfl⟩
    refine .inl ⟨_, he.trace, hseq.2, ?_⟩
    rw [he.queues, Function.update_self, hseq.1]
  | dropTimer hs hord hperm => exact .inl (readied_of_keep (List.append_nil _).symm rfl rfl rfl)
  | @polled cur c f s s' hp =>
    have htr := hp.trace
    have hq := hp.queues
    by_cases hst : (s.co c).state = .waiting
    · simp only [hst, if_true] at htr hq
      refine .inl ⟨_, htr, rfl, ?_⟩
      rw [hq, Function.update_self]
      rfl
    · simp only [hst, if_false] at htr hq
      exact .inl (readied_of_keep htr rfl rfl (by rw [hq]))
  | take hfree hcur => exact .inl (readied_of_keep rfl rfl rfl rfl)
  | unlock ha hop hpre hcur hl hq => exact .inl (readied_of_keep rfl rfl rfl rfl)
  | @handoff cur m c rest op s ha hop hpre hcur hl hq =>
    have htr : (((s.emit (.release m s.coCurrent)).setMutex m
        { s.mutexes m with owner := some c }).emit (.handoff m c)).trace =
        s.trace ++ [Event.release m s.coCurrent, .handoff m c] := by
      simp [St.emit, St.setMutex]
    exact .inl ((readied_of_keep htr rfl rfl rfl).trans (readied_wakeAll _ _ _ _))
  | @notify cur v ws rest e s hq he =>
    have hseq : readySeq [e] = [] ∧ dispatchSeq [e] = [] := by
      rcases he with ⟨rfl, -⟩ | ⟨rfl, -⟩ <;> exact ⟨rfl, rfl⟩
    have hemit : Readied s (s.emit e) := readied_of_keep rfl hseq.1 hseq.2 rfl
    exact .inl (hemit.trans (readied_wakeAll _ _ _ _))
  | @placeHand cur h c rest data op s hb hop hcl hq =>
    have hdel : Readied s (deliver s h s₀.calls c data) :=
      readied_of_keep (deliver_trace _ _ _ _ _) rfl rfl rfl
    exact .inl (hdel.trans (readied_wakeAll _ _ _ _))
  | placeRing hb hop hcl hq hroom => exact .inl (readied_of_keep rfl rfl rfl rfl)
  | takeRing hb hop hpos hq => exact .inl (readied_of_keep rfl rfl rfl rfl)
  | @takeRefill cur h c rest op s hb hop hpos hq =>
    have hst : Readied s ((s.storeHead h s₀.calls).setChan h
        ((s.chans h).popHead.pushTail (s.co c).call (s.co c).chanData)) :=
      readied_of_keep rfl rfl rfl rfl
    exact .inl (hst.trans (readied_wakeAll _ _ _ _))
  | @takeMeet cur h c rest op s hb hop hzero hq =>
    have hst : Readied s (s.emit (.store h s₀.calls (s.co c).call
        ((s.co c).chanData.take (s.chans h).elemSize))) := readied_of_keep rfl rfl rfl rfl
    exact .inl (hst.trans (readied_wakeAll _ _ _ _))
  | @close cur h op s hb hop hcl =>
    have hst : Readied s ((s.setChan h { s.chans h with closed := true }).emit
        (.close h ((s.queues (.send h)).map fun c => (s.co c).element (s.chans h).elemSize))) :=
      readied_of_keep rfl rfl rfl rfl
    exact .inl ((hst.trans (readied_wakeAll _ _ _ _)).trans (readied_wakeAll _ _ _ _))

theorem readied_ret (t : St) (k : Nat) (r : Ret) : Readied t (t.emit (.ret k r)) :=
  readied_of_keep rfl rfl rfl rfl

theorem Readied.readyFifo (hr : Readied s s') (h : ReadyFifo s) : ReadyFifo s' := by
  obtain ⟨es, htr, hd, hq⟩ := hr
  unfold ReadyFifo at h ⊢
  rw [htr, readySeq_append, dispatchSeq_append, hd, hq, h]
  simp

theorem Popped.readyFifo (hv : Popped s s') (h : ReadyFifo s) : ReadyFifo s' := by
  obtain ⟨c, rest, es, hq, htr, hr, hd, hq'⟩ := hv
  unfold ReadyFifo at h ⊢
  rw [htr, readySeq_append, dispatchSeq_append, hr, hd, hq', h, hq]
  simp

theorem Move.readyFifo {os : List Obj} {p p' : Option Nat × St} (hm : Move s₀ a os p p')
    (h : ReadyFifo p.2) : ReadyFifo p'.2 :=
  hm.ready.elim (fun hr => hr.readyFifo h) (fun hv => hv.2.readyFifo h)

theorem ReadyFifo.step (h : ReadyFifo s) (hp : Placed run s) (hl : leaks s a = false)
    (hs : step s a = some s') : ReadyFifo s' :=
  step_invariant hp hl hs h (fun _ _ _ hm _ h => hm.readyFifo h)
    fun t k r _ h _ => (readied_ret t k r).readyFifo h

/-- Only the scheduler takes coroutines out of the ready queue. -/
theorem step_readied (hp : Placed run s) (hl : leaks s a = false) (hs : step s a = some s')
    (hsch : a.isSchedule = false) : Readied s s' := by
  refine step_invariant (J := Readied s) hp hl hs
    (readied_of_keep (List.append_nil _).symm rfl rfl rfl) (fun os p p' hm _ h => ?_)
    fun t k r _ h _ => h.trans (readied_ret t k r)
  rcases hm.ready with hr | ⟨ha, -⟩
  · exact h.trans hr
  · rw [hsch] at ha
    cases ha

/-! ## The places -/

/-- In the ready queue, exactly once. -/
def isReady (s : St) (c : Nat) : Prop :=
  (s.co c).state = .ready ∧ (s.queues .ready).count c = 1 ∧
    ∀ q, q ≠ .ready → c ∉ s.queues q

/-- Asleep: in the timer heap only. -/
def isAsleep (s : St) (c : Nat) : Prop :=
  (s.co c).frame = .sleep ∧ (s.co c).state = .waiting ∧ c ∈ s.timerHeap.entries ∧
    ∀ q, c ∉ s.queues q

/-- In exactly one wait queue, exactly once. -/
def isQueued (s : St) (c : Nat) : Prop :=
  ∃ q, q ≠ .ready ∧ (s.co c).state = .waiting ∧ (s.queues q).count c = 1 ∧
    ∀ p, p ≠ q → c ∉ s.queues p

/-- In a condition queue through `co_cond_timedwait`, or `READY` after it. -/
def inTimedWait (s : St) (c : Nat) : Prop :=
  ∃ v m, (s.co c).frame = .timedWait v m ∧
    (((s.co c).state = .waiting ∧ c ∈ s.queues (.cond v)) ∨
      ((s.co c).state = .ready ∧ c ∈ s.queues .ready))

structure ExactlyOnePlace (s : St) : Prop where
  /-- a coroutine that is neither finished nor running is in exactly one place -/
  place : ∀ c, (s.co c).unfinished = true → s.coCurrent ≠ some c →
    isReady s c ∨ isAsleep s c ∨ isQueued s c
  /-- the running coroutine is in no container, and is the only `RUNNING` one -/
  current : ∀ c, s.coCurrent = some c → (∀ q, c ∉ s.queues q) ∧ c ∉ s.timerHeap.entries
  running : ∀ c, (s.co c).state = .running ↔ s.coCurrent = some c
  /-- only unfinished coroutines are in a queue -/
  members : ∀ c q, c ∈ s.queues q → (s.co c).unfinished = true
  /-- timers: at most one each, of sleepers and of timed condition waits -/
  timer_once : s.timerHeap.entries.Nodup
  timer : ∀ c ∈ s.timerHeap.entries, isAsleep s c ∨ inTimedWait s c
  /-- the number of unfinished coroutines -/
  active : s.activeRoutines = countOn Routine.unfinished s.co s.nextId ∧
    ∀ c, (s.co c).unfinished = true → c < s.nextId
  /-- every wake-up is answered by one dispatch -/
  once : readySeq s.trace = dispatchSeq s.trace ++ s.queues .ready

theorem not_mem_of_home {q : QueueRef} (hi : Inv run cur s.toSched)
    (h : (s.co c).home ≠ some q) : c ∉ s.queues q :=
  fun hm => h (hi.mem_queue hm)

theorem count_of_home {q : QueueRef} (hi : Inv run cur s.toSched)
    (h : (s.co c).home = some q) : (s.queues q).count c = 1 := by
  have := (hi.seated c).queued q
  rwa [if_pos h] at this

theorem Inv.place (hi : Inv run cur s.toSched) (hn : NoIo s)
    (hu : (s.co c).unfinished = true) (hc : cur ≠ some c) :
    isReady s c ∨ isAsleep s c ∨ isQueued s c := by
  have hne : (s.co c).frame ≠ .user := fun hf => hc ((hi.user c).mp hf)
  have hsus : (s.co c).frame.suspended = true := by
    cases hf : (s.co c).frame <;> simp [hf, Routine.unfinished, Frame.suspended] at hu hne ⊢
  rcases (hi.seated c).state hsus with hst | ⟨hst, hb⟩
  · have hhome : (s.co c).home = some .ready := by simp [Routine.home, hsus, hst]
    refine .inl ⟨hst, count_of_home hi hhome, fun q hq => not_mem_of_home hi ?_⟩
    rw [hhome]
    simpa using hq.symm
  · have hhome : (s.co c).home = (s.co c).frame.waitQueue := by simp [Routine.home, hsus, hst]
    cases hw : (s.co c).frame.waitQueue with
    | some q =>
      refine .inr (.inr ⟨q, Frame.waitQueue_ne_ready hw, hst,
        count_of_home hi (hhome.trans hw), fun p hp => not_mem_of_home hi ?_⟩)
      rw [hhome, hw]
      simpa using hp.symm
    | none =>
      have hf : (s.co c).frame = .sleep := by
        have hio := hn c
        cases hf : (s.co c).frame <;>
          simp [hf, Frame.waitQueue, Frame.blocks, Frame.isIo] at hw hb hio ⊢
      refine .inr (.inl ⟨hf, hst, hi.mem_heap_of_waiting hst (by rw [hf]; rfl), fun q =>
        not_mem_of_home hi ?_⟩)
      rw [hhome, hw]
      simp

theorem Inv.timer_place (hi : Inv run cur s.toSched) (hn : NoIo s)
    (hm : c ∈ s.timerHeap.entries) : isAsleep s c ∨ inTimedWait s c := by
  have hmay := hi.mem_heap hm
  have ht := (Routine.timed_of_mayTimer hmay).1
  have hsus := Frame.timed_suspended ht
  have hio := hn c
  cases hf : (s.co c).frame <;> simp [hf, Frame.timed, Frame.isIo] at ht hio
  case sleep =>
    have hst : (s.co c).state = .waiting := by simpa [Routine.mayTimer, hf, Frame.timed] using hmay
    refine .inl ⟨hf, hst, hm, fun q => not_mem_of_home hi ?_⟩
    simp [Routine.home, hst, hf, Frame.suspended, Frame.waitQueue]
  case timedWait v m =>
    refine .inr ⟨v, m, hf, ?_⟩
    have hmem : ∀ q, (s.co c).home = some q → c ∈ s.queues q := fun q hq => by
      rw [← List.count_pos_iff, count_of_home hi hq]
      exact Nat.one_pos
    rcases (hi.seated c).state hsus with hst | ⟨hst, -⟩
    · exact .inr ⟨hst, hmem _ (by simp [Routine.home, hf, hst, Frame.suspended])⟩
    · exact .inl ⟨hst, hmem _ (by simp [Routine.home, hf, hst, Frame.suspended, Frame.waitQueue])⟩

theorem Inv.running_iff (hi : Inv True cur s.toSched) :
    (s.co c).state = .running ↔ cur = some c := by
  have hs := hi.seated c
  constructor
  · intro hr
    by_contra hne
    have hnu : (s.co c).frame ≠ .user := fun hf => hne ((hi.user c).mp hf)
    by_cases hsus : (s.co c).frame.suspended = true
    · rcases hs.state hsus with h | ⟨h, -⟩ <;> rw [hr] at h <;> cases h
    · refine hs.gone ?_ hr
      cases hf : (s.co c).frame <;> simp [hf, Frame.suspended, Routine.unfinished] at hsus hnu ⊢
  · intro hc
    exact hs.user ((hi.user c).mpr hc) trivial

/-- **Exactly one place.** -/
theorem exactly_one_place {cfg : Config} (h : Plain cfg s) : ExactlyOnePlace s := by
  obtain ⟨⟨cur, hi, hcur⟩, hn, -, hna⟩ := h.inv
  obtain rfl := hcur hna
  refine ⟨fun c hu hc => hi.place hn hu hc, fun c hc => ?_, fun c => hi.running_iff, ?_,
    hi.nodup_heap, fun c hm => hi.timer_place hn hm, ⟨hi.active, fun c hu => ?_⟩, ?_⟩
  · obtain ⟨hq, hh⟩ := hi.out hc
    exact ⟨fun q => List.count_eq_zero.mp (hq q), List.count_eq_zero.mp hh⟩
  · intro c q hm
    refine unfinished_of_suspended ?_
    have hhome := hi.mem_queue hm
    unfold Routine.home at hhome
    split at hhome
    · assumption
    · cases hhome
  · refine hi.lt_nextId fun hf => ?_
    simp [Routine.unfinished, hf] at hu
  · refine h.invariant (P := fun s => (Placed True s ∧ NoIo s) ∧ ReadyFifo s)
      ⟨⟨placed_init cfg, fun _ => rfl⟩, rfl⟩ ?_ |>.2
    rintro s a s' ⟨⟨hp, hn⟩, hr⟩ hg hs
    obtain ⟨hio, hal, -⟩ := plain_split hg
    exact ⟨⟨hp.step (fun _ => hal) (hn.leaks hio) hs, hn.step hp hio hs⟩,
      hr.step hp (hn.leaks hio) hs⟩

/-- Coroutine 1 waits on a condition variable with a deadline, 2 sleeps, 3 runs. -/
def threePlacesRun : List Act :=
  [spawnOk, spawnOk, spawnOk, .run] ++ turn ++
    [Act.call (.mutexLock 0), .call (.condTimedwait 0 0 10 0 true)] ++ turn ++
    [Act.call (.sleep 5 0 true)] ++ turn

theorem exactly_one_place_three :
    ∃ s, runGuarded step plain (init (byteConfig 0)) threePlacesRun = some s ∧
      s.queues (.cond 0) = [1] ∧ s.timerHeap.entries = [2, 1] ∧ s.coCurrent = some 3 ∧
      ExactlyOnePlace s := by
  have hrun : (runGuarded step plain (init (byteConfig 0)) threePlacesRun).map
      (fun s => (s.queues (.cond 0), s.timerHeap.entries, s.coCurrent)) =
        some ([1], [2, 1], some 3) := by
    decide +kernel
  obtain ⟨s, hs, he⟩ := Option.map_eq_some_iff.mp hrun
  simp only [Prod.mk.injEq] at he
  exact ⟨s, hs, he.1, he.2.1, he.2.2, exactly_one_place (reach_of_runGuarded hs)⟩

end Libco
