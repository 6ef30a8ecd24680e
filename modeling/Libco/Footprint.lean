import Libco.Steps

/-!
# Footprints

A move changes nothing about an object it does not list: neither its record and
its queues, nor the coroutines whose calls deal with it, nor its history.
-/

namespace Libco
open Lib

variable {run : Prop} {cur : Option Nat} {s s' s₀ : St} {a : Act} {c : Nat} {o : Obj}

/-- A call that deals with `o` has not moved. The state only counts while the
coroutine is queued at `o` or was woken from it. -/
structure Routine.SameFor (o : Obj) (r r' : Routine) : Prop where
  frame : r'.frame = r.frame
  call : r'.call = r.call
  chanData : r'.chanData = r.chanData
  timedOut : r'.timedOut = r.timedOut
  state : ∀ q, r.frame.waitQueue = some q → q.obj = some o → r'.state = r.state

theorem Routine.SameFor.refl (o : Obj) (r : Routine) : r.SameFor o r :=
  ⟨rfl, rfl, rfl, rfl, fun _ _ _ => rfl⟩

structure SameFor (o : Obj) (s s' : St) : Prop where
  queues : ∀ q, q.obj = some o → s'.queues q = s.queues q
  co : ∀ c, o ∈ (s.co c).frame.objs ∨ o ∈ (s'.co c).frame.objs → (s.co c).SameFor o (s'.co c)
  mutex : ∀ m, o = .mutex m → s'.mutexes m = s.mutexes m
  chan : ∀ h, o = .chan h → s'.chans h = s.chans h
  trace : ∃ es, s'.trace = s.trace ++ es ∧ ∀ e ∈ es, e.obj ≠ some o

/-- Coroutines that do not deal with `o`, before or after, may change. -/
theorem co_update {r : Routine} (hco : s'.co = Function.update s.co c r)
    (hold : o ∉ (s.co c).frame.objs) (hnew : o ∉ r.frame.objs) :
    ∀ d, o ∈ (s.co d).frame.objs ∨ o ∈ (s'.co d).frame.objs →
      (s.co d).SameFor o (s'.co d) := by
  intro d hd
  by_cases hdc : d = c
  · subst hdc
    rw [hco, Function.update_self] at hd
    rcases hd with hd | hd
    · exact absurd hd hold
    · exact absurd hd hnew
  · rw [hco, Function.update_of_ne hdc]
    exact .refl o _

theorem queues_update {q : QueueRef} {l : List Nat} (hqs : s'.queues = Function.update s.queues q l)
    (hq : q.obj ≠ some o) : ∀ p, p.obj = some o → s'.queues p = s.queues p := by
  intro p hp
  rw [hqs, Function.update_of_ne]
  rintro rfl
  exact hq hp

theorem Frame.objs_of_waitQueue {f : Frame} {q : QueueRef} (h : f.waitQueue = some q) :
    ∃ o, q.obj = some o ∧ o ∈ f.objs := by
  cases f <;> simp [Frame.waitQueue] at h <;> subst h <;> simp [QueueRef.obj, Frame.objs]

theorem Frame.objs_eq_nil {f : Frame} (h : f.isIo = true ∨ f.suspended = false) : f.objs = [] := by
  cases f <;> simp [Frame.isIo, Frame.suspended, Frame.objs] at h ⊢

theorem SameObjects.mutex_at (h : SameObjects s s') (m : Nat) :
    s'.mutexes m = s.mutexes m := by rw [h.mutexes]

theorem SameObjects.chan_at (h : SameObjects s s') (k : Nat) :
    s'.chans k = s.chans k := by rw [h.chans]

theorem event_ready_obj (ws : List Nat) : ∀ e ∈ ws.map Event.ready, e.obj ≠ some o := by
  intro e he
  obtain ⟨c, -, rfl⟩ := List.mem_map.mp he
  simp [Event.obj]

/-- Waking out of a queue of another object. -/
theorem wakeAll_sameFor {q : QueueRef} {ws rest : List Nat} {g : Routine → Routine}
    (hi : Inv run cur s.toSched) (hq : s.queues q = ws ++ rest) (hne : q ≠ .ready)
    (ho : q.obj ≠ some o) (hg : g = .wake ∨ g = .wakeCond) :
    SameFor o s (wakeAll s q ws rest g) := by
  have hgs : ∀ r : Routine, (g r).frame = r.frame ∧ (g r).call = r.call ∧
      (g r).chanData = r.chanData ∧ (g r).timedOut = r.timedOut := by
    rcases hg with rfl | rfl <;> exact fun r => ⟨rfl, rfl, rfl, rfl⟩
  refine ⟨?_, ?_, fun _ _ => rfl, fun _ _ => rfl, ws.map .ready, rfl, event_ready_obj ws⟩
  · intro p hp
    have hpr : p ≠ .ready := by
      rintro rfl
      cases hp
    have hpq : p ≠ q := by
      rintro rfl
      exact ho hp
    simp [wakeAll, hpr, hpq]
  · intro d hd
    by_cases hm : d ∈ ws
    · obtain ⟨-, hw⟩ := Routine.home_wait
        (hi.mem_queue (q := q) (c := d) (by rw [hq]; simp [hm])) hne
      obtain ⟨h1, h2, h3, h4⟩ := hgs (s.co d)
      simp only [wakeAll, hm, if_true]
      refine ⟨h1, h2, h3, h4, fun p hp hpo => ?_⟩
      rw [hw, Option.some.injEq] at hp
      exact absurd (hp ▸ hpo) ho
    · simp only [wakeAll, hm, if_false]
      exact .refl o _

theorem SameFor.trans {s'' : St} (h : SameFor o s s') (h' : SameFor o s' s'') :
    SameFor o s s'' := by
  obtain ⟨es, hes, he⟩ := h.trace
  obtain ⟨es', hes', he'⟩ := h'.trace
  refine ⟨fun q hq => (h'.queues q hq).trans (h.queues q hq), fun c hc => ?_,
    fun m hm => (h'.mutex m hm).trans (h.mutex m hm), fun k hk => (h'.chan k hk).trans (h.chan k hk),
    es ++ es', by rw [hes', hes, List.append_assoc], ?_⟩
  · have hmid : o ∈ (s'.co c).frame.objs := by
      rcases hc with hc | hc
      · rw [(h.co c (.inl hc)).frame]
        exact hc
      · rw [← (h'.co c (.inr hc)).frame]
        exact hc
    have h1 := h.co c (.inr hmid)
    have h2 := h'.co c (.inl hmid)
    refine ⟨h2.frame.trans h1.frame, h2.call.trans h1.call, h2.chanData.trans h1.chanData,
      h2.timedOut.trans h1.timedOut, fun q hq hqo => ?_⟩
    exact (h2.state q (by rw [h1.frame]; exact hq) hqo).trans (h1.state q hq hqo)
  · intro e hm
    rcases List.mem_append.mp hm with hm | hm
    · exact he e hm
    · exact he' e hm

/-- Only records of other objects and their history change. -/
theorem sameFor_of_co (hco : s'.co = s.co) (hq : s'.queues = s.queues)
    (hm : ∀ m, o = .mutex m → s'.mutexes m = s.mutexes m)
    (hc : ∀ h, o = .chan h → s'.chans h = s.chans h)
    (ht : ∃ es, s'.trace = s.trace ++ es ∧ ∀ e ∈ es, e.obj ≠ some o) : SameFor o s s' :=
  ⟨fun q _ => by rw [hq], fun c _ => by rw [hco]; exact .refl o _, hm, hc, ht⟩

theorem neutral_obj {e : Event} (h : e.neutral = true) : e.obj ≠ some o := by
  cases e <;> simp [Event.neutral, Event.obj] at h ⊢

theorem Blocks.sameFor {r : Routine} (hb : Blocks s s' c r) (hi : Inv run (some c) s.toSched)
    (ho : o ∉ r.frame.objs) : SameFor o s s' := by
  have huser := (hi.user c).mpr rfl
  refine ⟨?_, co_update hb.co (by rw [huser]; simp [Frame.objs]) ho,
    fun m _ => hb.objects.mutex_at m, fun k _ => hb.objects.chan_at k, _, hb.trace, ?_⟩
  · intro q hq
    rw [hb.queues]
    cases hw : r.frame.waitQueue with
    | none => rfl
    | some p =>
      obtain ⟨o', ho', hm⟩ := Frame.objs_of_waitQueue hw
      refine Function.update_of_ne ?_ _ _
      rintro rfl
      rw [hq, Option.some.injEq] at ho'
      exact ho (ho' ▸ hm)
  · intro e he
    unfold blockEvents at he
    cases hf : r.frame <;> simp [hf] at he <;> subst he <;>
      simpa [hf, Frame.objs, Event.obj, eq_comm] using ho

theorem dispatchEvents_obj {f : Frame} (ho : o ∉ f.objs) :
    ∀ e ∈ dispatchEvents c f, e.obj ≠ some o := by
  intro e he
  cases f <;> simp only [dispatchEvents, List.mem_cons, List.not_mem_nil, or_false] at he <;>
    simp only [Frame.objs, List.mem_cons, List.not_mem_nil, or_false, not_or] at ho <;>
    first
    | (rcases he with rfl | rfl <;> simp [Event.obj, Ne.symm ho])
    | (rcases he with rfl | rfl <;> simp [Event.obj, Ne.symm ho.2])
    | (subst he; simp [Event.obj])

theorem deliver_trace (s : St) (h k c : Nat) (data : Bytes) :
    (deliver s h k c data).trace = s.trace ++
      [Event.offer h k (data.take (s.chans h).elemSize), .serve h (s.co c).call,
        .store h (s.co c).call k (data.take (s.chans h).elemSize)] := by
  simp [deliver, St.emit, St.modify]

/-- Only the record of another mutex changes. -/
theorem sameFor_mutex {m : Nat} {x : Mutex} (ho : o ≠ .mutex m) (hco : s'.co = s.co)
    (hq : s'.queues = s.queues) (hm : s'.mutexes = Function.update s.mutexes m x)
    (hc : s'.chans = s.chans)
    (ht : ∃ es, s'.trace = s.trace ++ es ∧ ∀ e ∈ es, e.obj ≠ some o) : SameFor o s s' := by
  refine sameFor_of_co hco hq (fun k hk => ?_) (fun _ _ => by rw [hc]) ht
  rw [hm]
  refine Function.update_of_ne ?_ _ _
  rintro rfl
  exact ho hk

/-- Only the record of another channel changes. -/
theorem sameFor_chan {h : Nat} {x : Channel} (ho : o ≠ .chan h) (hco : s'.co = s.co)
    (hq : s'.queues = s.queues) (hm : s'.mutexes = s.mutexes)
    (hc : s'.chans = Function.update s.chans h x)
    (ht : ∃ es, s'.trace = s.trace ++ es ∧ ∀ e ∈ es, e.obj ≠ some o) : SameFor o s s' := by
  refine sameFor_of_co hco hq (fun _ _ => by rw [hm]) (fun k hk => ?_) ht
  rw [hc]
  refine Function.update_of_ne ?_ _ _
  rintro rfl
  exact ho hk

theorem beginCall_sameFor {op : Op} (hi : Inv run s.coCurrent s.toSched) :
    SameFor o s (beginCall s op) := by
  have htr : ∃ es, (beginCall s op).trace = s.trace ++ es ∧ ∀ e ∈ es, e.obj ≠ some o :=
    ⟨_, beginCall_trace s op, by simp [Event.obj]⟩
  simp only [beginCall] at htr ⊢
  cases hc : s.coCurrent with
  | none =>
    rw [hc] at htr
    exact sameFor_of_co rfl rfl (fun _ _ => rfl) (fun _ _ => rfl) htr
  | some c =>
    rw [hc] at htr hi
    have huser : (s.co c).frame = .user := (hi.user c).mpr rfl
    have hno : o ∉ (s.co c).frame.objs := by
      rw [huser]
      simp [Frame.objs]
    exact ⟨fun _ _ => rfl, co_update rfl hno hno, fun _ _ => rfl, fun _ _ => rfl, htr⟩

theorem Spawns.sameFor (hs : Spawns s s') (hi : Inv run cur s.toSched) : SameFor o s s' := by
  obtain ⟨b, n, hco⟩ := hs.co
  have habs := hi.fresh s.nextId (Nat.le_refl _)
  refine ⟨queues_update hs.queues (by simp [QueueRef.obj]),
    co_update hco (by rw [habs]; simp [Frame.objs]) (by simp [Frame.objs]),
    fun m _ => hs.objects.mutex_at m, fun k _ => hs.objects.chan_at k, _, hs.trace, ?_⟩
  simp [Event.obj]

theorem Dispatches.sameFor {rest : List Nat} (hd : Dispatches s s' c rest)
    (ho : o ∉ (s.co c).frame.objs) : SameFor o s s' :=
  ⟨queues_update hd.queues (by simp [QueueRef.obj]), co_update hd.co ho (by simp [Frame.objs]),
    fun m _ => hd.objects.mutex_at m, fun k _ => hd.objects.chan_at k, _, hd.trace,
    dispatchEvents_obj ho⟩

theorem Relocks.sameFor {m : Nat} {rest : List Nat} {f : Frame} (hr : Relocks s s' c rest m f)
    (ho : o ∉ f.objs) : SameFor o s s' := by
  have hfs : o ∉ (s.co c).frame.objs ∧ o ≠ .mutex m := by
    obtain ⟨v, ⟨hf, rfl⟩ | ⟨hf, rfl⟩⟩ := Frame.relocking_spec hr.relocking
    all_goals
      simp only [Frame.objs, List.mem_cons, List.not_mem_nil, or_false, not_or] at ho
      rw [hf]
      simp [Frame.objs, ho]
  refine ⟨fun q hq => ?_, co_update hr.co hfs.1 ho, fun k _ => hr.objects.mutex_at k,
    fun k _ => hr.objects.chan_at k, _, hr.trace, by simp [Event.obj, Ne.symm hfs.2]⟩
  rw [hr.queues, Function.update_of_ne, Function.update_of_ne]
  · rintro rfl
    cases hq
  · rintro rfl
    simp only [QueueRef.obj, Option.some.injEq] at hq
    exact hfs.2 hq.symm

theorem expireEvents_obj {r : Routine} (ho : o ∉ r.frame.objs) :
    ∀ e ∈ expireEvents c r, e.obj ≠ some o := by
  intro e hm
  unfold expireEvents at hm
  cases hf : r.frame <;> simp [hf] at hm <;> simp [hf, Frame.objs] at ho
  all_goals first
    | (rcases hm with rfl | rfl <;> simp [Event.obj, Ne.symm ho])
    | (subst hm; simp [Event.obj])

theorem Expires.sameFor (he : Expires s s' c) (ho : o ∉ (s.co c).frame.objs) : SameFor o s s' := by
  refine ⟨fun q hq => ?_, co_update he.co ho ho, fun m _ => he.objects.mutex_at m,
    fun k _ => he.objects.chan_at k, _, he.trace, expireEvents_obj ho⟩
  rw [he.queues, Function.update_of_ne]
  · cases hw : (s.co c).frame.waitQueue with
    | none => rfl
    | some p =>
      obtain ⟨o', ho', hm⟩ := Frame.objs_of_waitQueue hw
      refine Function.update_of_ne ?_ _ _
      rintro rfl
      rw [hq, Option.some.injEq] at ho'
      exact ho (ho' ▸ hm)
  · rintro rfl
    cases hq

theorem Polled.sameFor {f : Frame} (hp : Polled s s' c f) : SameFor o s s' := by
  have hold : (s.co c).frame.objs = [] := Frame.objs_eq_nil (.inl hp.like.io)
  have hnew : f.objs = [] := Frame.objs_eq_nil (.inl (hp.like.isIo.trans hp.like.io))
  refine ⟨fun q hq => ?_, co_update hp.co (by rw [hold]; simp) ?_,
    fun m _ => hp.objects.mutex_at m, fun k _ => hp.objects.chan_at k, _, hp.trace, ?_⟩
  · rw [hp.queues]
    split
    · refine Function.update_of_ne ?_ _ _
      rintro rfl
      cases hq
    · rfl
  · split <;> simp [hnew]
  · split <;> simp [Event.obj]

/-- The receiver whose buffer is written deals with the channel itself. -/
theorem deliver_sameFor {h k : Nat} {data : Bytes} (hi : Inv run cur s.toSched)
    (hc : c ∈ s.queues (.recv h)) (ho : o ≠ .chan h) : SameFor o s (deliver s h k c data) := by
  have hw := (Routine.home_wait (hi.mem_queue hc) (by simp)).2
  have hf : (s.co c).frame = .recv h := by
    cases hfr : (s.co c).frame <;> simp [hfr, Frame.waitQueue] at hw
    rw [hw]
  refine ⟨fun _ _ => rfl, co_update rfl (by rw [hf]; simpa [Frame.objs] using ho)
    (by simp only [hf]; simpa [Frame.objs] using ho), fun _ _ => rfl, fun _ _ => rfl,
    _, deliver_trace _ _ _ _ _, ?_⟩
  simpa [Event.obj, eq_comm] using ho

/-- Closing wakes out of two queues of the channel. -/
theorem close_sameFor {h : Nat} {e : Event} (hi : Inv run cur s.toSched) (ho : o ≠ .chan h)
    (he : e.obj = some (.chan h)) :
    SameFor o s (wakeAll (wakeAll ((s.setChan h { s.chans h with closed := true }).emit e)
      (.recv h) (s.queues (.recv h)) [] .wake) (.send h) (s.queues (.send h)) [] .wake) := by
  have hshut : SameFor o s ((s.setChan h { s.chans h with closed := true }).emit e) := by
    refine sameFor_chan ho rfl rfl rfl rfl ⟨_, rfl, ?_⟩
    simpa [he, eq_comm] using ho
  have hi₁ : Inv run cur ((s.setChan h { s.chans h with closed := true }).emit e).toSched :=
    hi.same rfl rfl rfl ⟨rfl, rfl, rfl⟩
  have hi₂ := hi₁.wakeAll_wake (q := .recv h) (by simp) (by simp) (List.append_nil _).symm
  have hrecv := wakeAll_sameFor (o := o) hi₁ (q := .recv h) (List.append_nil _).symm (by simp)
    (by simpa [QueueRef.obj, eq_comm] using ho) (.inl rfl)
  have hsend := wakeAll_sameFor (o := o) hi₂ (q := .send h) (List.append_nil _).symm (by simp)
    (by simpa [QueueRef.obj, eq_comm] using ho) (.inl rfl)
  exact (hshut.trans hrecv).trans hsend

/-- **Footprint.** -/
theorem Move.footprint {os : List Obj} {p p' : Option Nat × St} (hm : Move s₀ a os p p')
    (hi : Inv run p.1 p.2.toSched) (ho : o ∉ os) : SameFor o p.2 p'.2 := by
  cases hm with
  | admin had =>
    obtain ⟨es, hes, hn⟩ := had.trace
    exact sameFor_of_co had.co had.queues (fun m _ => had.objects.mutex_at m)
      (fun k _ => had.objects.chan_at k) ⟨es, hes, fun e he => neutral_obj (hn e he)⟩
  | invoke ha => exact beginCall_sameFor hi
  | skipId p => exact sameFor_of_co rfl rfl (fun _ _ => rfl) (fun _ _ => rfl) ⟨[], by simp, by simp⟩
  | spawn hs => exact hs.sameFor hi
  | @finish c s s' hs' =>
    subst hs'
    have huser := (hi.user c).mpr rfl
    obtain ⟨pool, he⟩ := finish_eq s c
    rw [he]
    exact ⟨fun _ _ => rfl, co_update rfl (by rw [huser]; simp [Frame.objs]) (by simp [Frame.objs]),
      fun _ _ => rfl, fun _ _ => rfl, [], by simp, by simp⟩
  | @yieldNow c op s hb hf =>
    have huser := (hi.user c).mpr rfl
    refine ⟨queues_update rfl (by simp [QueueRef.obj]), co_update (c := c)
      (r := { s.co c with frame := .yieldNow, state := .ready }) ?_ (by rw [huser]; simp [Frame.objs])
      (by simp [Frame.objs]), fun _ _ => rfl, fun _ _ => rfl, [.ready c], rfl, by simp [Event.obj]⟩
    simp [coSchedulerEnqueue, coQueuePushBack, St.modify, St.emit]
  | block hb hf hbl => exact hbl.sameFor hi ho
  | drain hold hf hbl => exact hbl.sameFor hi (by rw [hf]; simp [Frame.objs])
  | @touch c s s' r ht hs =>
    have huser := (hi.user c).mpr rfl
    exact ⟨fun q _ => by rw [ht.queues], co_update ht.co (by rw [huser]; simp [Frame.objs])
      (by rw [ht.frame]; simp [Frame.objs]), fun m _ => ht.objects.mutex_at m,
      fun k _ => ht.objects.chan_at k, [], by rw [ht.trace]; simp, by simp⟩
  | dispatch hd => exact hd.sameFor ho
  | relock hr => exact hr.sameFor ho
  | expire he => exact he.sameFor ho
  | dropTimer hs hord hperm =>
    exact sameFor_of_co rfl rfl (fun _ _ => rfl) (fun _ _ => rfl) ⟨[], by simp, by simp⟩
  | polled hp => exact hp.sameFor
  | @take cur m s hfree hcur =>
    refine sameFor_mutex (by simpa using ho) rfl rfl rfl rfl ⟨[.take m s.coCurrent], rfl, ?_⟩
    simpa [Event.obj, eq_comm] using ho
  | @unlock cur m op s ha hop hpre hcur hl hq =>
    refine sameFor_mutex (by simpa using ho) rfl rfl rfl rfl ⟨[.release m s.coCurrent], rfl, ?_⟩
    simpa [Event.obj, eq_comm] using ho
  | @handoff cur m c rest op s ha hop hpre hcur hl hq =>
    refine SameFor.trans ?_
      (wakeAll_sameFor (hi.same rfl rfl rfl ⟨rfl, rfl, rfl⟩) hq (by simp) ?_ (.inl rfl))
    · refine sameFor_mutex (by simpa using ho) rfl rfl rfl rfl
        ⟨[.release m s.coCurrent, .handoff m c], by simp [St.emit, St.setMutex], ?_⟩
      simpa [Event.obj, eq_comm] using ho
    · simpa [QueueRef.obj, eq_comm] using ho
  | @notify cur v ws rest e s hq he =>
    refine SameFor.trans ?_
      (wakeAll_sameFor (hi.same rfl rfl rfl ⟨rfl, rfl, rfl⟩) hq (by simp) ?_ (.inr rfl))
    · refine sameFor_of_co rfl rfl (fun _ _ => rfl) (fun _ _ => rfl) ⟨[e], rfl, ?_⟩
      rcases he with ⟨rfl, -⟩ | ⟨rfl, -⟩ <;> simpa [Event.obj, eq_comm] using ho
    · simpa [QueueRef.obj, eq_comm] using ho
  | @placeHand cur h c rest data op s hb hop hcl hq =>
    have hc : c ∈ s.queues (.recv h) := by simp [hq]
    refine (deliver_sameFor hi hc (by simpa using ho)).trans
      (wakeAll_sameFor (hi.touch rfl ⟨rfl, rfl, rfl, rfl, rfl⟩ rfl rfl rfl rfl rfl rfl) hq
        (by simp) ?_ (.inl rfl))
    simpa [QueueRef.obj, eq_comm] using ho
  | placeRing hb hop hcl hq hroom =>
    refine sameFor_chan (by simpa using ho) rfl rfl rfl rfl ⟨_, rfl, ?_⟩
    simpa [Event.obj, eq_comm] using ho
  | takeRing hb hop hpos hq =>
    refine sameFor_chan (by simpa using ho) rfl rfl rfl rfl ⟨_, rfl, ?_⟩
    simpa [Event.obj, eq_comm] using ho
  | takeRefill hb hop hpos hq =>
    refine SameFor.trans ?_
      (wakeAll_sameFor (hi.same rfl rfl rfl ⟨rfl, rfl, rfl⟩) hq (by simp) ?_ (.inl rfl))
    · refine sameFor_chan (by simpa using ho) rfl rfl rfl rfl ⟨_, rfl, ?_⟩
      simpa [Event.obj, eq_comm] using ho
    · simpa [QueueRef.obj, eq_comm] using ho
  | takeMeet hb hop hzero hq =>
    refine SameFor.trans ?_
      (wakeAll_sameFor (hi.same rfl rfl rfl ⟨rfl, rfl, rfl⟩) hq (by simp) ?_ (.inl rfl))
    · refine sameFor_of_co rfl rfl (fun _ _ => rfl) (fun _ _ => rfl) ⟨_, rfl, ?_⟩
      simpa [Event.obj, eq_comm] using ho
    · simpa [QueueRef.obj, eq_comm] using ho
  | close hb hop hcl => exact close_sameFor hi (by simpa using ho) rfl

/-! ## Steps -/

/-- The objects an API function is called on. -/
def OpName.objs : OpName → List Obj
  | .lock m | .trylock m | .unlock m => [.mutex m]
  | .condWait v m | .condTimedwait v m => [.cond v, .mutex m]
  | .condSignal v | .condBroadcast v => [.cond v]
  | .send h | .trysend h | .recv h | .tryrecv h | .close h => [.chan h]
  | .yieldNow | .sleep | .io _ => []

/-- The objects of the call a frame belongs to. -/
def Frame.mentions : Frame → List Obj
  | .lock m => [.mutex m]
  | .condWait v m | .condRelock v m | .timedWait v m | .timedRelock v m => [.cond v, .mutex m]
  | .send h | .recv h => [.chan h]
  | _ => []

/-- The action is a call on `o`, or resumes one, or may process its deadline. -/
def Act.names (s : St) (o : Obj) : Act → Prop
  | .call op => o ∈ op.name.objs
  | .schedule _ => ∃ c rest, s.queues .ready = c :: rest ∧ o ∈ (s.co c).frame.mentions
  | .timers _ => ∃ c, (s.co c).frame.timed = true ∧ o ∈ (s.co c).frame.objs
  | _ => False

theorem Frame.objs_mentions {f : Frame} (h : o ∈ f.objs) : o ∈ f.mentions := by
  cases f <;> simp [Frame.objs, Frame.mentions] at h ⊢ <;> simp [h]

theorem Frame.mentions_of_fits {f : Frame} {op : OpName} (h : f.fits op = true) :
    f.mentions = op.objs := by
  cases f <;> cases op <;> simp [Frame.fits] at h <;> simp [Frame.mentions, OpName.objs, h]

theorem Frame.mentions_of_relocking {f f' : Frame} {m : Nat} (h : f.relocking = some (m, f')) :
    f'.mentions = f.mentions ∧ Obj.mutex m ∈ f.mentions := by
  obtain ⟨v, ⟨rfl, rfl⟩ | ⟨rfl, rfl⟩⟩ := Frame.relocking_spec h <;> simp [Frame.mentions]

theorem Act.names_schedule {rest : List Nat} (ha : a.isSchedule = true)
    (hq : s₀.queues .ready = c :: rest) (ho : o ∈ (s₀.co c).frame.mentions) : a.names s₀ o := by
  cases a <;> simp [Act.isSchedule] at ha
  exact ⟨c, rest, hq, ho⟩

theorem unlocked_objs {op : OpName} {m : Nat} (h : op.unlocked = some m) :
    Obj.mutex m ∈ op.objs := by
  cases op <;> simp [OpName.unlocked] at h <;> simp [OpName.objs, h]

/-- A move that deals with `o` is part of an action that names it. -/
theorem Move.names {os : List Obj} {p p' : Option Nat × St} (hm : Move s₀ a os p p')
    (hsame : SameFor o s₀ p.2) (ho : o ∈ os) : a.names s₀ o := by
  cases hm with
  | admin _ | invoke _ | skipId _ | spawn _ | finish _ | yieldNow _ _ | drain _ _ _ | touch _ _
  | dropTimer _ _ _ | polled _ => simp at ho
  | block hb hf hbl =>
    rw [hb.1]
    have := Frame.objs_mentions ho
    rwa [Frame.mentions_of_fits hf] at this
  | dispatch hd ha => exact Act.names_schedule ha hd.ready (Frame.objs_mentions ho)
  | relock hr ha =>
    refine Act.names_schedule ha hr.ready ?_
    rw [← (Frame.mentions_of_relocking hr.relocking).1]
    exact Frame.objs_mentions ho
  | @expire cur c s s' he ha =>
    have hf := (hsame.co c (.inr ho)).frame
    cases a <;> simp [Act.isTimers] at ha
    exact ⟨c, hf ▸ he.timed, hf ▸ ho⟩
  | take hfree hcur ha =>
    simp only [List.mem_singleton] at ho
    subst ho
    rcases ha with ⟨op, rfl, hop⟩ | ⟨ha, c, rest, f, hq, hf⟩
    · rcases hop with hop | hop <;> simp [Act.names, hop, OpName.objs]
    · exact Act.names_schedule ha hq (Frame.mentions_of_relocking hf).2
  | unlock ha hop | handoff ha hop =>
    simp only [List.mem_singleton] at ho
    subst ho
    rw [ha]
    exact unlocked_objs hop
  | notify hq he ha =>
    simp only [List.mem_singleton] at ho
    subst ho
    obtain ⟨op, rfl, hop⟩ := ha
    rcases hop with hop | hop <;> simp [Act.names, hop, OpName.objs]
  | placeHand hb hop | placeRing hb hop | takeRing hb hop | takeRefill hb hop | takeMeet hb hop =>
    simp only [List.mem_singleton] at ho
    subst ho
    rw [hb.1]
    rcases hop with hop | hop <;> simp [Act.names, hop, OpName.objs]
  | close hb hop =>
    simp only [List.mem_singleton] at ho
    subst ho
    rw [hb.1]
    simp [Act.names, hop, OpName.objs]

/-- **Frame rule.** A step changes nothing about an object its action does not name. -/
theorem step_sameFor (hp : Placed run s) (hl : leaks s a = false) (hs : step s a = some s')
    (ho : ¬ a.names s o) : SameFor o s s' := by
  refine step_invariant (J := fun t => SameFor o s t) hp hl hs
    (sameFor_of_co rfl rfl (fun _ _ => rfl) (fun _ _ => rfl) ⟨[], by simp, by simp⟩) ?_ ?_
  · intro os p p' hm hi h
    by_cases hos : o ∈ os
    · exact absurd (hm.names h hos) ho
    · exact h.trans (hm.footprint hi hos)
  · intro t k r _ h _
    exact h.trans (sameFor_of_co rfl rfl (fun _ _ => rfl) (fun _ _ => rfl)
      ⟨[.ret k r], rfl, by simp [Event.obj]⟩)

end Libco
