import Libco.Channels

/-!
# Sends and receives that return

What the callers of a channel are told. A suspended send has offered its
element, and a suspended receive began while the channel was open; both read
the result of their call off the `closed` flag when they are dispatched. The
results are about whole runs: which elements were stored, and what the calls
they belong to returned.
-/

namespace Libco
open Lib

variable {run : Prop} {cur : Option Nat} {s s' s₀ : St} {a : Act} {c h k : Nat}
  {t : List Event}

/-! ## Members of the history -/

theorem mem_offers {x : Nat × List UInt8} : x ∈ offers h t ↔ .offer h x.1 x.2 ∈ t := by
  obtain ⟨k, d⟩ := x
  simp only [offers, List.mem_filterMap]
  constructor
  · rintro ⟨e, he, hx⟩
    cases e <;> simp at hx
    obtain ⟨rfl, rfl, rfl⟩ := hx
    exact he
  · intro he
    exact ⟨_, he, by simp⟩

theorem mem_stores {x : Nat × Nat × List UInt8} :
    x ∈ stores h t ↔ .store h x.1 x.2.1 x.2.2 ∈ t := by
  obtain ⟨r, k, d⟩ := x
  simp only [stores, List.mem_filterMap]
  constructor
  · rintro ⟨e, he, hx⟩
    cases e <;> simp at hx
    obtain ⟨rfl, rfl, rfl, rfl⟩ := hx
    exact he
  · intro he
    exact ⟨_, he, by simp⟩

/-- The calls whose elements were offered, and those whose elements have left
their sender. -/
def offered (h : Nat) (s : St) : List Nat := (offers h s.trace).map Prod.fst
def placed (h : Nat) (s : St) : List Nat := (view Prod.fst h s).placed

/-- The receives that elements were stored for. -/
def storedFor (h : Nat) (s : St) : List Nat := (stores h s.trace).map Prod.fst

/-- Call `r` began before the channel was closed. -/
def beganOpen (h r : Nat) (t : List Event) : Prop :=
  ∃ past, past <+: t ∧ (∃ w op, .call r w op ∈ past) ∧ ∀ es, .close h es ∉ past

theorem beganOpen.mono {es : List Event} (hb : beganOpen h k t) : beganOpen h k (t ++ es) := by
  obtain ⟨past, hp, hc⟩ := hb
  exact ⟨past, hp.trans (List.prefix_append t es), hc⟩

/-! ## Suspended sends and receives -/

structure Ledger (h : Nat) (s : St) : Prop where
  ok : ViewOk Prod.fst h s
  good : (view Prod.fst h s).Good
  /-- sends are offered in the order of their calls -/
  increasing : (offered h s).Pairwise (· < ·)
  sender : ∀ c, (s.co c).frame = .send h → (s.co c).call ∈ offered h s
  receiver : ∀ c, (s.co c).frame = .recv h → beganOpen h (s.co c).call s.trace
  opened : (s.chans h).closed = false → ∀ es, .close h es ∉ s.trace

theorem Ledger.nodup (hl : Ledger h s) : (offered h s).Nodup :=
  hl.increasing.imp fun hlt => Nat.ne_of_lt hlt

/-- Events about calls that are still to begin. -/
theorem Begins.fresh {op : Op} {e : Event} {P : Option Nat → OpName → Prop}
    (hb : Begins s₀ a s op) (h₀ : CallInv s₀) (he : e ∈ s.trace) (hc : e.caller = some (k, P)) :
    k < s₀.calls := by
  rw [hb.2, beginCall_trace, List.mem_append, List.mem_singleton] at he
  rcases he with he | rfl
  · obtain ⟨w, op', hcall, -⟩ := h₀.attributed _ he _ _ hc
    exact h₀.call_lt _ w op' hcall
  · cases hc

theorem Begins.offered_lt {op : Op} (hb : Begins s₀ a s op) (h₀ : CallInv s₀) :
    ∀ j ∈ offered h s, j < s₀.calls := by
  intro j hj
  obtain ⟨x, hx, rfl⟩ := List.mem_map.mp hj
  exact hb.fresh h₀ (mem_offers.mp hx) rfl

/-- What a move adds to the history of a channel. -/
structure ChanEvents (h : Nat) (s₀ : St) (a : Act) (s s' : St) (es : List Event) : Prop where
  trace : s'.trace = s.trace ++ es
  offers : offers h es = [] ∨ ∃ d op, Begins s₀ a s op ∧ offers h es = [(s₀.calls, d)]
  close : ∀ es', .close h es' ∈ es → (s'.chans h).closed = true

theorem ChanMove.events {p p' : Option Nat × St} (hm : ChanMove h s₀ a p p')
    (hi₀ : Inv False s₀.coCurrent s₀.toSched) (hi : Inv False p.1 p.2.toSched) :
    ∃ es, ChanEvents h s₀ a p.2 p'.2 es := by
  cases hm with
  | other hsame =>
    obtain ⟨es, htr, he⟩ := hsame.trace
    exact ⟨es, htr, .inl (silent_of_obj he).offers, fun es' hm => absurd rfl (he _ hm)⟩
  | @send c op s s' r hb hbl hf =>
    refine ⟨_, hbl.trace, .inr ⟨r.chanData.take (s.chans h).elemSize, op, hb, ?_⟩, ?_⟩
    · have hcall : r.call = s₀.calls := hbl.call.trans (hb.current hi₀ hi).2
      simp [blockEvents, hf, Libco.offers, hcall]
    · simp [blockEvents, hf]
  | recv hb hbl hf =>
    refine ⟨_, hbl.trace, .inl ?_, ?_⟩
    · simp [blockEvents, hf, Libco.offers]
    · simp [blockEvents, hf]
  | dispatch hd =>
    refine ⟨_, hd.trace, .inl ?_, ?_⟩ <;> unfold dispatchEvents <;> split <;> simp [Libco.offers]
  | @hand cur c rest data op s s' hb hop hcl hq hs' =>
    refine ⟨[.offer h s₀.calls (data.take (s.chans h).elemSize), .serve h (s.co c).call,
        .store h (s.co c).call s₀.calls (data.take (s.chans h).elemSize), .ready c], ?_,
      .inr ⟨data.take (s.chans h).elemSize, op, hb, ?_⟩, ?_⟩
    · simp [hs', wakeAll, deliver_trace]
    · simp [Libco.offers]
    · simp
  | @push cur data op s s' hb hop hcl hq hroom hs' =>
    refine ⟨[.offer h s₀.calls (data.take (s.chans h).elemSize)], ?_,
      .inr ⟨data.take (s.chans h).elemSize, op, hb, ?_⟩, ?_⟩
    · rw [hs']
      rfl
    · simp [Libco.offers]
    · simp
  | pop hb hop hpos hq hs' =>
    refine ⟨_, by rw [hs']; rfl, .inl ?_, ?_⟩
    · simp [Libco.offers]
    · simp
  | @refill cur c rest op s s' hb hop hpos hq hs' =>
    refine ⟨_, by rw [hs']; exact List.append_assoc _ _ _, .inl ?_, ?_⟩
    · simp [Libco.offers]
    · simp
  | @meet cur c rest op s s' hb hop hzero hq hs' =>
    refine ⟨_, by rw [hs']; exact List.append_assoc _ _ _, .inl ?_, ?_⟩
    · simp [Libco.offers]
    · simp
  | @close cur op s s' hb hop hcl hs' =>
    refine ⟨.close h ((s.queues (.send h)).map fun c => (s.co c).element (s.chans h).elemSize) ::
        (s.queues (.recv h) ++ s.queues (.send h)).map .ready, ?_, .inl ?_, fun _ _ => ?_⟩
    · simp [hs', wakeAll, St.setChan, St.emit]
    · rw [← List.singleton_append, offers_append, (silent_ready _).offers]
      simp [Libco.offers]
    · simp [hs', wakeAll, St.setChan, St.emit]

/-- Coroutines suspended on the channel after a move: they were so before, or their
call has just begun. -/
inductive SuspendedAfter (h : Nat) (s₀ : St) (a : Act) (s s' : St) (d : Nat) : Prop
  | stays (hf : (s.co d).frame = (s'.co d).frame) (hc : (s'.co d).call = (s.co d).call)
      (hst : (s.co d).state = .ready → (s'.co d).state = .ready)
  | begun {op : Op} (hb : Begins s₀ a s op) (hc : (s'.co d).call = s₀.calls)
      (ho : (s.chans h).closed = false) (hch : s'.chans h = s.chans h)
      (hoff : (s'.co d).frame = .send h → s₀.calls ∈ offered h s')
      (hst : storedFor h s' = storedFor h s)

theorem suspendedAfter_update {r : Routine} {d : Nat} (hco : s'.co = Function.update s.co c r)
    (hr : d = c → SuspendedAfter h s₀ a s s' d) : SuspendedAfter h s₀ a s s' d := by
  by_cases hdc : d = c
  · exact hr hdc
  · have : s'.co d = s.co d := by rw [hco, Function.update_of_ne hdc]
    exact .stays (by rw [this]) (by rw [this]) (by rw [this]; exact id)

theorem wakeAll_ready {q : QueueRef} {ws rest : List Nat} {r : Routine} {d : Nat}
    (hr : s.co d = r) (hst : r.state = .ready) :
    ((wakeAll s q ws rest .wake).co d).state = .ready := by
  simp only [wakeAll]
  split
  · rfl
  · rw [hr]
    exact hst

theorem ChanMove.suspended {p p' : Option Nat × St} (hm : ChanMove h s₀ a p p')
    (hi₀ : Inv False s₀.coCurrent s₀.toSched) (hi : Inv False p.1 p.2.toSched) {d : Nat}
    (hf : Obj.chan h ∈ (p'.2.co d).frame.objs) : SuspendedAfter h s₀ a p.2 p'.2 d := by
  cases hm with
  | @other cur cur' s s' hsame =>
    have hrec := hsame.co d (.inr hf)
    refine .stays hrec.frame.symm hrec.call fun hst => ?_
    have hq : ∃ q, (s.co d).frame.waitQueue = some q ∧ q.obj = some (.chan h) := by
      rw [hrec.frame] at hf
      rcases chan_mem_objs.mp hf with hfr | hfr <;> rw [hfr] <;> exact ⟨_, rfl, rfl⟩
    obtain ⟨q, hw, hqo⟩ := hq
    exact (hrec.state q hw hqo).trans hst
  | @send c op s s' r hb hbl hfr =>
    refine suspendedAfter_update hbl.co fun hd => ?_
    subst hd
    have hcall : r.call = s₀.calls := hbl.call.trans (hb.current hi₀ hi).2
    have hmust := hbl.must
    rw [hfr] at hmust
    have hself : s'.co d = r := by rw [hbl.co, Function.update_self]
    refine .begun hb (by rw [hself, hcall]) hmust.1 (hbl.objects.chan_at h) (fun _ => ?_) ?_
    · unfold offered
      rw [hbl.trace, offers_append, List.map_append, List.mem_append]
      exact .inr (by simp [blockEvents, hfr, offers, hcall])
    · unfold storedFor
      rw [hbl.trace]
      simp [blockEvents, hfr, stores]
  | @recv c op s s' r hb hbl hfr =>
    refine suspendedAfter_update hbl.co fun hd => ?_
    subst hd
    have hcall : r.call = s₀.calls := hbl.call.trans (hb.current hi₀ hi).2
    have hmust := hbl.must
    rw [hfr] at hmust
    have hself : s'.co d = r := by rw [hbl.co, Function.update_self]
    refine .begun hb (by rw [hself, hcall]) hmust.1 (hbl.objects.chan_at h) (fun hsend => ?_) ?_
    · rw [hself, hfr] at hsend
      cases hsend
    · unfold storedFor
      rw [hbl.trace]
      simp [blockEvents, hfr, stores]
  | @dispatch c rest s' hd =>
    refine suspendedAfter_update hd.co fun hdc => ?_
    rw [hd.co, hdc, Function.update_self] at hf
    simp [Frame.objs] at hf
  | @hand cur c rest data op s s' hb hop hcl hq hs' =>
    have hrec : (s'.co d).frame = (s.co d).frame ∧ (s'.co d).call = (s.co d).call ∧
        ((s.co d).state = .ready → (s'.co d).state = .ready) := by
      subst hs'
      simp only [wakeAll, deliver, St.modify, St.emit]
      by_cases hdc : d = c
      · simp [hdc, Routine.wake]
      · simp [hdc]
    exact .stays hrec.1.symm hrec.2.1 hrec.2.2
  | push hb hop hcl hq hroom hs' =>
    subst hs'
    exact .stays rfl rfl id
  | pop hb hop hpos hq hs' =>
    subst hs'
    exact .stays rfl rfl id
  | refill hb hop hpos hq hs' =>
    subst hs'
    refine .stays ?_ (wakeAll_call _ d) (wakeAll_ready rfl)
    simp only [wakeAll]
    split <;> rfl
  | meet hb hop hzero hq hs' =>
    subst hs'
    refine .stays ?_ (wakeAll_call _ d) (wakeAll_ready rfl)
    simp only [wakeAll]
    split <;> rfl
  | close hb hop hcl hs' =>
    subst hs'
    refine .stays ?_ ?_ fun hst => wakeAll_ready rfl (wakeAll_ready rfl hst)
    · simp only [wakeAll]
      split <;> split <;> rfl
    · rw [wakeAll_call, wakeAll_call]
      rfl

theorem frame_send_objs {r : Routine} (hf : r.frame = .send h) : Obj.chan h ∈ r.frame.objs := by
  simp [hf, Frame.objs]

theorem frame_recv_objs {r : Routine} (hf : r.frame = .recv h) : Obj.chan h ∈ r.frame.objs := by
  simp [hf, Frame.objs]

theorem ChanMove.ledger {p p' : Option Nat × St} (hm : ChanMove h s₀ a p p')
    (hi₀ : Inv False s₀.coCurrent s₀.toSched) (hi : Inv False p.1 p.2.toSched)
    (h₀ : CallInv s₀) (hl : Ledger h p.2) : Ledger h p'.2 := by
  obtain ⟨hok, hstep⟩ := hm.view hi hl.ok
  obtain ⟨es, hev⟩ := hm.events hi₀ hi
  have hoff : offered h p'.2 = offered h p.2 ++ (offers h es).map Prod.fst := by
    unfold offered
    rw [hev.trace, offers_append, List.map_append]
  refine ⟨hok, hl.good.run hstep.to_reflTransGen, ?_, fun d hf => ?_, fun d hf => ?_,
    fun ho es' hcl => ?_⟩
  · rw [hoff]
    rcases hev.offers with he | ⟨d, op, hb, he⟩
    · simpa [he] using hl.increasing
    · simp only [he, List.map_cons, List.map_nil]
      refine List.pairwise_append.mpr ⟨hl.increasing, by simp, ?_⟩
      intro j hj i hi
      rw [List.mem_singleton] at hi
      rw [hi]
      exact hb.offered_lt h₀ j hj
  · cases hm.suspended hi₀ hi (frame_send_objs hf) with
    | stays hfr hc hst =>
      rw [hc, hoff]
      exact List.mem_append_left _ (hl.sender d (hfr.trans hf))
    | begun hb hc ho hch hin hsto =>
      rw [hc]
      exact hin hf
  · rw [hev.trace]
    cases hm.suspended hi₀ hi (frame_recv_objs hf) with
    | stays hfr hc hst =>
      rw [hc]
      exact (hl.receiver d (hfr.trans hf)).mono
    | begun hb hc ho hch hin hsto =>
      rw [hc]
      exact ⟨p.2.trace, List.prefix_append _ _, ⟨_, _, hb.call_mem⟩, hl.opened ho⟩
  · have hold : (p.2.chans h).closed = false := by
      cases hc : (p.2.chans h).closed with
      | false => rfl
      | true =>
        have : (p'.2.chans h).closed = true := Fifo.closed_run hstep.to_reflTransGen hc
        rw [this] at ho
        cases ho
    rw [hev.trace, List.mem_append] at hcl
    rcases hcl with hcl | hcl
    · exact hl.opened hold es' hcl
    · rw [hev.close es' hcl] at ho
      cases ho

/-! ## Returns -/

/-- Call `k` is a send on `h`. -/
def sendCall (t : List Event) (h k : Nat) : Prop :=
  ∃ w op, .call k w op ∈ t ∧ (op = .send h ∨ op = .trysend h)

/-- Call `r` is a receive on `h`. -/
def recvCall (t : List Event) (h r : Nat) : Prop :=
  ∃ w op, .call r w op ∈ t ∧ (op = .recv h ∨ op = .tryrecv h)

/-- An offered element of an open channel whose sender is not suspended. -/
theorem Ledger.placed_of_offered (hl : Ledger h s) (hi : Inv run cur s.toSched)
    (ho : (s.chans h).closed = false) (hk : k ∈ offered h s)
    (hout : ∀ c, (s.co c).inCall = true → (s.co c).call ≠ k) : k ∈ placed h s := by
  rcases hl.good.cases_offered hk with hp | hs | hd
  · exact hp
  · obtain ⟨d, hd, hc⟩ := List.mem_map.mp hs
    obtain ⟨-, hw⟩ := Routine.home_wait (hi.mem_queue hd) (by simp)
    have hin : (s.co d).inCall = true := by
      cases hf : (s.co d).frame <;> simp [hf, Frame.waitQueue] at hw
      simp [Routine.inCall, hf, Frame.suspended]
    exact absurd hc (hout d hin)
  · rw [hl.good.kept ho] at hd
    cases hd

/-- A send that is over at once. -/
theorem runOp_send {op : Op} {t : St} {r : Ret} (hr : runOp s k op = .ret r t)
    (hop : op.name = .send h ∨ op.name = .trysend h) :
    (r = .code .ok ∧ k ∈ offered h t ∧ (t.chans h).closed = false) ∨ (r ≠ .code .ok ∧ t = s) := by
  have hplace : ∀ {data : Bytes} {t : St}, (s.chans h).closed = false →
      placeElement s h k data = some t → k ∈ offered h t ∧ (t.chans h).closed = false := by
    intro data t ho hp
    unfold offered
    obtain ⟨c, rest, hq, rfl⟩ | ⟨hq, hroom, rfl⟩ := placeElement_cases hp
    · refine ⟨?_, ho⟩
      simp [wakeAll, deliver_trace, offers]
    · refine ⟨?_, ?_⟩
      · simp [St.emit, St.setChan, offers]
      · simpa [St.emit, St.setChan, Channel.pushTail] using ho
  cases op <;> simp [Op.name] at hop
  case channelSend h' data =>
    subst hop
    simp only [runOp, coChannelSend] at hr
    split at hr
    · cases hr
      exact .inr ⟨by simp, rfl⟩
    rename_i ho
    rw [Bool.not_eq_true] at ho
    cases hp : placeElement s h' k data with
    | some t' =>
      rw [hp] at hr
      cases hr
      exact .inl ⟨rfl, hplace ho hp⟩
    | none =>
      rw [hp] at hr
      dsimp only at hr
      split at hr
      · cases hr
        exact .inr ⟨by simp, rfl⟩
      · cases hr
  case channelTrysend h' data =>
    subst hop
    simp only [runOp, coChannelTrysend] at hr
    split at hr
    · cases hr
      exact .inr ⟨by simp, rfl⟩
    rename_i ho
    rw [Bool.not_eq_true] at ho
    cases hp : placeElement s h' k data with
    | some t' =>
      rw [hp] at hr
      cases hr
      exact .inl ⟨rfl, hplace ho hp⟩
    | none =>
      rw [hp] at hr
      cases hr
      exact .inr ⟨by simp, rfl⟩

/-- A receive that is over at once. -/
theorem runOp_recv {op : Op} {t : St} {r : Ret} (hr : runOp s k op = .ret r t)
    (hop : op.name = .recv h ∨ op.name = .tryrecv h) :
    r = .code .ok ∨ (t = s ∧ s.queues (.send h) = [] ∧ (s.chans h).count = 0) := by
  cases op <;> simp [Op.name] at hop
  case channelRecv h' =>
    subst hop
    simp only [runOp, coChannelRecv] at hr
    cases ht : takeElement s h' k with
    | some t' =>
      rw [ht] at hr
      cases hr
      exact .inl rfl
    | none =>
      rw [ht] at hr
      obtain ⟨hq, hz⟩ := takeElement_none ht
      dsimp only at hr
      split at hr
      · cases hr
        exact .inr ⟨rfl, hq, hz⟩
      · split at hr
        · cases hr
          exact .inr ⟨rfl, hq, hz⟩
        · cases hr
  case channelTryrecv h' =>
    subst hop
    simp only [runOp, coChannelTryrecv] at hr
    cases ht : takeElement s h' k with
    | some t' =>
      rw [ht] at hr
      cases hr
      exact .inl rfl
    | none =>
      rw [ht] at hr
      obtain ⟨hq, hz⟩ := takeElement_none ht
      dsimp only at hr
      split at hr <;> cases hr <;> exact .inr ⟨rfl, hq, hz⟩

/-- The channel as a coroutine sees it that has just been switched to. -/
theorem switchTo_view {κ : Type} {f : Nat × List UInt8 → κ} {rest : List Nat}
    (hi : Inv run cur s.toSched) (hq : s.queues .ready = c :: rest) :
    view f h (switchTo { s with queues := Function.update s.queues .ready rest } c) =
      view f h s := by
  have htr : (switchTo { s with queues := Function.update s.queues .ready rest } c).trace =
      s.trace ++ [Event.dispatch c] := rfl
  refine view_same rfl (fun q hqo => ?_) (fun q hqo d hd => ?_) htr
    (silent_of_obj (by simp [Event.obj]))
  · exact queues_update rfl (by simp [QueueRef.obj]) q hqo
  · have hne : q ≠ .ready := by
      rintro rfl
      cases hqo
    have hdc : d ≠ c := by
      rintro rfl
      exact hi.ready_not_queued hq hne hd
    simp [switchTo, St.modify, St.emit, hdc]

/-- A send that returns `CO_OK` has its element placed; otherwise it was refused, or it
was dispatched after the channel was closed. -/
theorem Returns.send {t : St} {r : Ret} (hr : Returns s a t k r)
    (hi₀ : Inv False s.coCurrent s.toSched) (hi : Inv False t.coCurrent t.toSched)
    (h₀ : CallInv s) (hext : Extends s t) (hcall : CallInv t) (hl₀ : Ledger h s) (hl : Ledger h t)
    (hsend : sendCall t.trace h k) :
    (r = .code .ok ∧ k ∈ placed h t) ∨ (r ≠ .code .ok ∧ (k ∉ offered h t ∨
      ∃ c, (s.co c).frame = .send h ∧ (s.co c).call = k ∧ (s.chans h).closed = true ∧
        placed h t = placed h s)) := by
  obtain ⟨w, op, hmem, hop⟩ := hsend
  have hout := (hr.caller hi₀ hi h₀ hext hcall).2
  obtain ⟨o, hname, rfl, hrun⟩ | ⟨c, rest, e, hq, rfl, hfits, hres⟩ :=
    hr.origin hi₀ h₀ hext hcall hmem
  · have hb : Begins s (.call o) (beginCall s o) o := ⟨rfl, rfl⟩
    obtain ⟨rfl, hoff, ho⟩ | ⟨hne, rfl⟩ := runOp_send hrun (hname ▸ hop)
    · exact .inl ⟨rfl, hl.placed_of_offered hi ho hoff hout⟩
    · refine .inr ⟨hne, .inl fun hoff => ?_⟩
      exact Nat.lt_irrefl _ (hb.offered_lt h₀ _ hoff)
  · have hfr : (s.co c).frame = .send h := by
      rcases hop with rfl | rfl <;> cases hf : (s.co c).frame <;> simp [hf, Frame.fits] at hfits
      rw [hfits]
    rw [hfr] at hres
    cases hres
    have hview : view Prod.fst h _ = view Prod.fst h s := switchTo_view hi₀ hq
    cases ho : (s.chans h).closed with
    | false =>
      refine .inl ⟨?_, hl.placed_of_offered hi ho ?_ hout⟩
      · show Ret.code (if (s.chans h).closed then .closed else .ok) = _
        rw [ho]
        rfl
      · show (s.co c).call ∈ (view Prod.fst h _).offered
        rw [hview]
        exact hl₀.sender c hfr
    | true =>
      refine .inr ⟨?_, .inr ⟨c, hfr, rfl, rfl, ?_⟩⟩
      · show Ret.code (if (s.chans h).closed then .closed else .ok) ≠ _
        rw [ho]
        simp
      · unfold placed
        rw [hview]

/-- A receive that returns `CO_ERROR_CLOSED` began before the channel was closed, or
finds nothing left. -/
theorem Returns.recvClosed {t : St} {κ : Type} {f : Nat × List UInt8 → κ}
    (hr : Returns s a t k (.code .closed))
    (hi₀ : Inv False s.coCurrent s.toSched) (h₀ : CallInv s) (hext : Extends s t)
    (hcall : CallInv t) (hl₀ : Ledger h s) (hrecv : recvCall t.trace h k) :
    beganOpen h k t.trace ∨ ((view f h t).ring = [] ∧ (view f h t).senders = []) := by
  obtain ⟨w, op, hmem, hop⟩ := hrecv
  obtain ⟨o, hname, rfl, hrun⟩ | ⟨c, rest, e, hq, rfl, hfits, hres⟩ :=
    hr.origin hi₀ h₀ hext hcall hmem
  · obtain hok | ⟨rfl, hq, hz⟩ := runOp_recv hrun (hname ▸ hop)
    · cases hok
    · refine .inr ⟨?_, ?_⟩
      · simp [view, Channel.contents, hz]
      · simp [view, hq]
  · have hfr : (s.co c).frame = .recv h := by
      rcases hop with rfl | rfl <;> cases hf : (s.co c).frame <;> simp [hf, Frame.fits] at hfits
      rw [hfits]
    obtain ⟨es, hes, -⟩ := hext
    rw [hes]
    exact .inl (hl₀.receiver c hfr).mono

theorem Ledger.ret {r : Ret} (hl : Ledger h s) : Ledger h (s.emit (.ret k r)) := by
  have hoff : offered h (s.emit (.ret k r)) = offered h s := congrArg Fifo.offered view_ret
  refine ⟨hl.ok.same rfl, by rw [view_ret]; exact hl.good, hoff ▸ hl.increasing, fun c hf => ?_, fun c hf => ?_,
    fun ho es hm => ?_⟩
  · rw [hoff]
    exact hl.sender c hf
  · exact (hl.receiver c hf).mono
  · exact hl.opened ho es (by simpa [St.emit] using hm)

theorem ledger_init (cfg : Config) (h : Nat) : Ledger h (init cfg) := by
  have hshape : ((init cfg).chans h).Shaped ∧ ((init cfg).chans h).count = 0 := by
    simp only [init, initChannel, coChannelCreate]
    split <;> simp <;> exact ⟨fun h => h, by simp, by simp⟩
  refine ⟨⟨hshape.1, apart_fst _ _⟩, ?_, ?_, ?_, ?_, ?_⟩
  · refine ⟨?_, ?_, ?_, ?_, ?_, ?_, ?_⟩ <;>
      simp [view, Channel.contents, hshape.2] <;>
      simp [init, offers, stores, drops, recvWaits, serves]
  all_goals simp [init, offered, offers, Routine.zero]

/-! ## Runs -/

/-- The step rule, with the calls and the channel at hand. -/
theorem Ledger.step_rule {K J : St → Prop} (hl : Ledger h s) (hc : CallInv s) (hp : Placed run s)
    (hleak : leaks s a = false) (hs : step s a = some s') (hK : K s)
    (hmove : ∀ p p', ChanMove h s a p p' → Inv False p.1 p.2.toSched → CallInv p.2 →
      Extends s p.2 → Ledger h p.2 → K p.2 → K p'.2)
    (hend : ∀ t, CallInv t → Extends s t → K t → J t)
    (hret : ∀ t k r, Inv False t.coCurrent t.toSched → CallInv t → Extends s t → Ledger h t →
      K t → Returns s a t k r → J (t.emit (.ret k r))) : Ledger h s' ∧ J s' := by
  have hi₀ : Inv False s.coCurrent s.toSched := (hp.current hs).mono fun h => h.elim
  refine hc.step_rule (K := fun t => Ledger h t ∧ K t) (J := fun t => Ledger h t ∧ J t) hp hleak hs
    ⟨hl, hK⟩ ?_ ?_ ?_
  · rintro os p p' hm hi hcp hext ⟨hlp, hkp⟩
    have hcm := hm.atChan hi h
    exact ⟨hcm.ledger hi₀ hi hc hlp, hmove p p' hcm hi hcp hext hlp hkp⟩
  · rintro t hct hext ⟨hlt, hkt⟩
    exact ⟨hlt, hend t hct hext hkt⟩
  · rintro t k r hi hct hext ⟨hlt, hkt⟩ hr -
    exact ⟨hlt.ret, hret t k r hi hct hext hlt hkt hr⟩

theorem Ledger.step (hl : Ledger h s) (hc : CallInv s) (hp : Placed run s)
    (hleak : leaks s a = false) (hs : step s a = some s') : Ledger h s' :=
  (hl.step_rule (K := fun _ => True) (J := fun _ => True) hc hp hleak hs trivial
    (fun _ _ _ _ _ _ _ _ => trivial) (fun _ _ _ _ => trivial)
    fun _ _ _ _ _ _ _ _ _ => trivial).1

theorem Leakless.ledger {cfg : Config} (hr : Leakless cfg s) (h : Nat) :
    CallInv s ∧ Ledger h s := by
  refine (hr.invariant (P := fun s => Leakless cfg s ∧ CallInv s ∧ Ledger h s)
    ⟨.init, callInv_init cfg, ledger_init cfg h⟩ ?_).2
  rintro s a s' ⟨hr, hc, hl⟩ hg hs
  have hleak : leaks s a = false := by simpa [leakless] using hg
  exact ⟨hr.next a hg hs, hc.step hr.placed hleak hs, hl.step hc hr.placed hleak hs⟩

end Libco
