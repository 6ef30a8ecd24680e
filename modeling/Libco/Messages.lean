import Libco.Delivery

/-!
# Messages over whole runs

A channel refines a FIFO queue, whatever its callers do. What a caller is told
about its element or its receive is right unless the channel is closed while
somebody has been served and was not dispatched since: a suspended call reads its
result off the `closed` flag of that later moment.
-/

namespace Libco
open Lib

variable {s s' s₀ : St} {a : Act} {c h k : Nat}

/-! ## Refinement of a FIFO queue -/

/-- Sends that return `CO_OK` were offered. A receive that was called after the close
returns `CO_ERROR_CLOSED` only when all that was not dropped has been stored. -/
def answerLaw (h : Nat) (past : List Event) (e : Event) : Prop :=
  (∀ k, e = .ret k (.code .ok) → sendCall past h k → k ∈ (offers h past).map Prod.fst) ∧
    ∀ r, e = .ret r (.code .closed) → recvCall past h r → beganOpen h r past ∨
      (stores h past).map Prod.snd ++ drops h past = offers h past

/-- What a channel is for. -/
structure ChannelSound (h : Nat) (s : St) : Prop where
  /-- what was stored, then the ring from its head, then the data of the blocked senders,
  is what was offered, up to what closing dropped -/
  fifo : (stores h s.trace).map Prod.snd ++ ((s.chans h).contents id ++
    (s.queues (.send h)).map (fun c => (s.co c).element (s.chans h).elemSize)) ++
      drops h s.trace = offers h s.trace
  kept : (s.chans h).closed = false → drops h s.trace = []
  /-- elements are offered in the order of the calls -/
  callOrder : ((offers h s.trace).map Prod.fst).Pairwise (· < ·)
  /-- receivers are served in the order they blocked; closing releases the others -/
  served : ∃ rest, recvWaits h s.trace =
    serves h s.trace ++ (s.queues (.recv h)).map (fun c => (s.co c).call) ++ rest ∧
      ((s.chans h).closed = false → rest = [])
  answers : Lawful (answerLaw h) s.trace

theorem initChannel_sizes (cfg : Config) (h : Nat) :
    ((init cfg).chans h).elemSize = cfg.elemSize h ∧
      ((init cfg).chans h).capacity = cfg.capacity h := by
  have := cfg.elemSize_pos h
  simp [init, initChannel, coChannelCreate, Nat.ne_of_gt this]

structure FifoInv (cfg : Config) (h : Nat) (s : St) : Prop where
  ok : ViewOk id h s
  run : Relation.ReflTransGen Fifo.Step (view id h (init cfg)) (view id h s)
  answers : Lawful (answerLaw h) s.trace

theorem fifoInv_init {cfg : Config} (hfit : cfg.elemSize h * cfg.capacity h < 2 ^ 64) :
    FifoInv cfg h (init cfg) := by
  obtain ⟨h1, h2⟩ := initChannel_sizes cfg h
  refine ⟨⟨(ledger_init cfg h).ok.shaped, ?_⟩, .refl, lawful_nil _⟩
  rw [h1, h2]
  exact apart_id hfit

theorem view_good_init (cfg : Config) (h : Nat) : (view id h (init cfg)).Good := by
  have hz : ((init cfg).chans h).count = 0 := by
    simp only [init, initChannel, coChannelCreate]
    split <;> simp
  refine ⟨?_, ?_, ?_, ?_, ?_, ?_, ?_⟩ <;> simp [view, Channel.contents, hz] <;>
    simp [init, offers, stores, drops, recvWaits, serves]

theorem FifoInv.step {cfg : Config} {run : Prop} (hf : FifoInv cfg h s) (hl : Ledger h s)
    (hc : CallInv s) (hp : Placed run s) (hleak : leaks s a = false)
    (hs : step s a = some s') : FifoInv cfg h s' := by
  have hi₀ : Inv False s.coCurrent s.toSched := (hp.current hs).mono fun h => h.elim
  have hquiet : ∀ e past, (∀ k r, e ≠ .ret k r) → answerLaw h past e := by
    intro e past he
    exact ⟨fun k hr => absurd hr (he k _), fun r hr => absurd hr (he r _)⟩
  refine (hl.step_rule (K := fun t => ViewOk id h t ∧
      Relation.ReflTransGen Fifo.Step (view id h (init cfg)) (view id h t))
    (J := FifoInv cfg h) hc hp hleak hs ⟨hf.ok, hf.run⟩ ?_ ?_ ?_).2
  · rintro p p' hm hi - - - ⟨hok, hrun⟩
    obtain ⟨hok', hstep⟩ := hm.view hi hok
    exact ⟨hok', hrun.trans hstep.to_reflTransGen⟩
  · rintro t - hext ⟨hok, hrun⟩
    exact ⟨hok, hrun, hext.lawful hf.answers hquiet⟩
  · rintro t k r hi hct hext hlt ⟨hok, hrun⟩ hr
    refine ⟨hok.same rfl, by rw [view_ret]; exact hrun,
      lawful_snoc.mpr ⟨hext.lawful hf.answers hquiet, fun j hj hsend => ?_, fun j hj hrecv => ?_⟩⟩
    · cases hj
      rcases hr.send hi₀ hi hc hext hct hl hlt hsend with ⟨-, hpl⟩ | ⟨hne, -⟩
      · exact hlt.good.placed_sub hpl
      · exact absurd rfl hne
    · cases hj
      refine (hr.recvClosed (f := id) hi₀ hc hext hct hl hrecv).imp id fun ⟨hring, hsend⟩ => ?_
      have hfifo := ((view_good_init cfg h).run hrun).fifo
      rw [hring, hsend, List.append_nil, List.append_nil] at hfifo
      simpa [view] using hfifo.symm

/-- No I/O calls. -/
def noIoCalls (_ : St) (a : Act) : Bool := !a.isIo

theorem noIo_leakless {cfg : Config}
    (hr : Reach step (fun s a => noIoCalls s a = true) (init cfg) s) :
    Leakless cfg s ∧ NoIo s := by
  refine hr.invariant (P := fun s => Leakless cfg s ∧ NoIo s) ⟨.init, fun _ => rfl⟩ ?_
  rintro s a s' ⟨hr, hn⟩ hg hs
  have hio : a.isIo = false := by simpa [noIoCalls] using hg
  have hleak : leaks s a = false := hn.leaks hio
  exact ⟨hr.next a (by simp [leakless, hleak]) hs, hn.step hr.placed hio hs⟩

theorem FifoInv.sound {cfg : Config} (hf : FifoInv cfg h s) (hl : Ledger h s) :
    ChannelSound h s := by
  have hgood := (view_good_init cfg h).run hf.run
  refine ⟨?_, fun ho => ?_, hl.increasing, hgood.order, hf.answers⟩
  · have := hgood.fifo
    simpa [view] using this.symm
  · have := hgood.kept ho
    simpa [view] using this

/-- A receive that blocks and is served, a buffered send, a blocked send that the close
drops, and two receives after the close. -/
def orderlyRun : List Act :=
  [spawnOk, spawnOk, .run] ++ turn ++ [Act.call (.channelRecv 0)] ++ turn ++
    [Act.call (.channelSend 0 fun _ => 5), .call (.channelSend 0 fun _ => 6),
      .call (.channelSend 0 fun _ => 7)] ++ turn ++
    [Act.call (.channelClose 0), .call (.channelTryrecv 0), .call (.channelTryrecv 0), .finish] ++
    turn

/-- A move that finds the channel closed afterwards. -/
theorem ChanMove.closes {p p' : Option Nat × St} (hm : ChanMove h s₀ a p p')
    (hc : (p'.2.chans h).closed = true) :
    (p.2.chans h).closed = true ∨ ∃ op, Begins s₀ a p.2 op ∧ op.name = .close h ∧
      (p.2.chans h).closed = false ∧ placed h p'.2 = placed h p.2 := by
  cases hm with
  | other hsame =>
    rw [hsame.chan h rfl] at hc
    exact .inl hc
  | send hb hbl hf | recv hb hbl hf =>
    rw [hbl.objects.chan_at h] at hc
    exact .inl hc
  | dispatch hd =>
    rw [hd.objects.chan_at h] at hc
    exact .inl hc
  | hand hb hop hcl hq hs' | meet hb hop hzero hq hs' =>
    subst hs'
    exact .inl hc
  | push hb hop hcl hq hroom hs' | pop hb hop hpos hq hs' | refill hb hop hpos hq hs' =>
    refine .inl ?_
    subst hs'
    simpa [wakeAll, St.setChan, St.emit, Channel.pushTail, Channel.popHead] using hc
  | @close cur op s s' hb hop hcl hs' =>
    refine .inr ⟨op, hb, hop, hcl, ?_⟩
    unfold placed
    rw [view_closed hs']
    rfl

/-- The action closes an open channel while a coroutine that waits on it in `f` has
been woken and was not dispatched since. -/
def closesOver (f : Nat → Frame) (s : St) : Act → Bool
  | .call (.channelClose h) =>
    !(s.chans h).closed && (s.queues .ready).any fun c => (s.co c).frame == f h
  | _ => false

/-- Whoever is suspended at a guarded close is still in its queue. -/
theorem Begins.not_woken {f : Nat → Frame} {op : Op} {run : Prop} {cur : Option Nat}
    (hb : Begins s₀ a s op) (hop : op.name = .close h) (hi : Inv run cur s.toSched)
    (ho : (s.chans h).closed = false) (hg : closesOver f s₀ a = false)
    (hf : (s.co c).frame = f h) (hsus : (f h).suspended = true) : (s.co c).state = .waiting := by
  rcases (hi.seated c).state (hf ▸ hsus) with hst | hst
  · exfalso
    have hmem : c ∈ s.queues .ready := hi.mem_of_home (by simp [Routine.home, hf, hsus, hst])
    obtain ⟨ha, hs⟩ := hb
    have hop' : op = .channelClose h := by
      cases op <;> simp [Op.name] at hop
      rw [hop]
    subst hop' ha
    have hq : (beginCall s₀ (.channelClose h)).queues = s₀.queues ∧
        (beginCall s₀ (.channelClose h)).chans = s₀.chans := by
      simp only [beginCall]
      split <;> exact ⟨rfl, rfl⟩
    rw [hs, hq.1] at hmem
    rw [hs, hq.2] at ho
    rw [hs, beginCall_frame] at hf
    have : closesOver f s₀ (.call (.channelClose h)) = true := by
      simp only [closesOver, ho, Bool.not_false, Bool.true_and, List.any_eq_true, beq_iff_eq]
      exact ⟨c, hmem, hf⟩
    rw [this] at hg
    cases hg
  · exact hst.1

/-! ## Failed sends -/

/-- A suspended send that finds the channel closed keeps its element. -/
def Undelivered (h : Nat) (s : St) : Prop :=
  ∀ c, (s.co c).frame = .send h → (s.chans h).closed = true → (s.co c).call ∉ placed h s

theorem ChanMove.undelivered {p p' : Option Nat × St} (hm : ChanMove h s₀ a p p')
    (hi₀ : Inv False s₀.coCurrent s₀.toSched) (hi : Inv False p.1 p.2.toSched)
    (hl : Ledger h p.2) (hg : closesOver .send s₀ a = false) (hu : Undelivered h p.2) :
    Undelivered h p'.2 := by
  intro d hf hc
  have hstep := (hm.view hi hl.ok).2
  cases hm.suspended hi₀ hi (frame_send_objs hf) with
  | begun hb hcall ho hch hoff hsto =>
    rw [hch, ho] at hc
    cases hc
  | stays hfr hcall hst =>
    rw [hcall]
    have hfr := hfr.trans hf
    rcases hm.closes hc with hc' | ⟨op, hb, hop, ho, hpl⟩
    · intro hk
      exact hu d hfr hc' (hl.good.placed_closed_run hstep.to_reflTransGen hc' hk)
    · have hwait := hb.not_woken hop hi ho hg hfr rfl
      have hq : d ∈ p.2.queues (.send h) :=
        hi.mem_of_home (by simp [Routine.home, hfr, hwait, Frame.suspended, Frame.waitQueue])
      rw [hpl]
      refine hl.good.not_placed_of_sender hl.nodup (List.mem_map.mpr ⟨d, hq, rfl⟩)

/-- A send that failed has not placed its element. -/
def FailedKept (h : Nat) (s : St) : Prop :=
  ∀ k r, sendCall s.trace h k → .ret k r ∈ s.trace → r ≠ .code .ok → k ∉ placed h s

/-- Elements are placed before their send returns. -/
theorem ChanMove.placed_new {p p' : Option Nat × St} (hm : ChanMove h s₀ a p p')
    (hi₀ : Inv False s₀.coCurrent s₀.toSched) (hi : Inv False p.1 p.2.toSched) (h₀ : CallInv s₀)
    (hext : Extends s₀ p.2) (hc : CallInv p.2) (hl : Ledger h p.2) (hk : k ∈ placed h p'.2) :
    k ∈ placed h p.2 ∨ ∀ r, .ret k r ∉ s₀.trace := by
  obtain ⟨es, hev⟩ := hm.events hi₀ hi
  rcases Fifo.placed_new_refl (hm.view hi hl.ok).2 hk with hk | hk | hk
  · exact .inl hk
  · right
    obtain ⟨d, hd, rfl⟩ := List.mem_map.mp hk
    obtain ⟨-, hw⟩ := Routine.home_wait (hi.mem_queue hd) (by simp)
    have hin : (p.2.co d).inCall = true := by
      cases hf : (p.2.co d).frame <;> simp [hf, Frame.waitQueue] at hw
      simp [Routine.inCall, hf, Frame.suspended]
    exact fun r hr => hc.unreturned d hin r (hext.mem hr)
  · right
    have hoff : offered h p'.2 = offered h p.2 ++ (offers h es).map Prod.fst := by
      unfold offered
      rw [hev.trace, offers_append, List.map_append]
    have hone : (offers h es).map Prod.fst = [k] := List.append_cancel_left (hoff.symm.trans hk)
    rcases hev.offers with he | ⟨d, op, hb, he⟩
    · rw [he] at hone
      cases hone
    · rw [he] at hone
      cases hone
      exact fun r hr => Nat.lt_irrefl _ (h₀.ret_lt hr)

/-- Returned calls are known from before. -/
theorem Extends.sendCall {t : St} {r : Ret} (hext : Extends s t) (hc : CallInv s) (hct : CallInv t)
    (hr : .ret k r ∈ s.trace) (hs : sendCall t.trace h k) : sendCall s.trace h k := by
  obtain ⟨w, op, hmem, hop⟩ := hs
  obtain ⟨w', op', hcall⟩ := hc.returned k r hr
  obtain ⟨-, rfl⟩ := hct.unique _ _ _ _ _ hmem (hext.mem hcall)
  exact ⟨w', op, hcall, hop⟩

theorem FailedKept.step {run : Prop} (hf : FailedKept h s) (hu : Undelivered h s) (hl : Ledger h s)
    (hc : CallInv s) (hp : Placed run s) (hleak : leaks s a = false)
    (hg : closesOver .send s a = false) (hs : step s a = some s') :
    FailedKept h s' ∧ Undelivered h s' := by
  have hi₀ : Inv False s.coCurrent s.toSched := (hp.current hs).mono fun h => h.elim
  have hkeep : ∀ t, CallInv t → Extends s t →
      (∀ k ∈ placed h t, k ∈ placed h s ∨ ∀ r, .ret k r ∉ s.trace) → FailedKept h t := by
    intro t hct hext hnew k r hsend hr hne hk
    have hr' := hext.ret hr
    rcases hnew k hk with hk | hk
    · exact hf k r (hext.sendCall hc hct hr' hsend) hr' hne hk
    · exact hk r hr'
  refine (hl.step_rule (K := fun t => Undelivered h t ∧
      ∀ k ∈ placed h t, k ∈ placed h s ∨ ∀ r, .ret k r ∉ s.trace)
    (J := fun t => FailedKept h t ∧ Undelivered h t) hc hp hleak hs
    ⟨hu, fun k hk => .inl hk⟩ ?_ ?_ ?_).2
  · rintro p p' hm hi hcp hext hlp ⟨hup, hnew⟩
    refine ⟨hm.undelivered hi₀ hi hlp hg hup, fun k hk => ?_⟩
    exact (hm.placed_new hi₀ hi hc hext hcp hlp hk).elim (hnew k) .inr
  · rintro t hct hext ⟨hut, hnew⟩
    exact ⟨hkeep t hct hext hnew, hut⟩
  · rintro t k r hi hct hext hlt ⟨hut, hnew⟩ hr
    have hpl : placed h (t.emit (.ret k r)) = placed h t := congrArg Fifo.placed view_ret
    refine ⟨fun j r' hsend' hret hne => ?_, fun c hf ho => hpl ▸ hut c hf ho⟩
    have hsend : sendCall t.trace h j := by simpa [sendCall, St.emit] using hsend'
    rw [hpl]
    simp only [St.emit, List.mem_append, List.mem_singleton, Event.ret.injEq] at hret
    rcases hret with hret | ⟨rfl, rfl⟩
    · exact hkeep t hct hext hnew j r' hsend hret hne
    · rcases hr.send hi₀ hi hc hext hct hl hlt hsend with ⟨hok, -⟩ | ⟨-, hoff | hclosed⟩
      · exact absurd hok hne
      · exact fun hk => hoff (hlt.good.placed_sub hk)
      · obtain ⟨c, hfr, rfl, ho, heq⟩ := hclosed
        rw [heq]
        exact hu c hfr ho

/-- No channel is closed while the element of a blocked send was taken and the send was
not dispatched since; and no timer is left behind. -/
def promptSends (s : St) (a : Act) : Bool := leakless s a && !closesOver .send s a

theorem failedKept_run {cfg : Config} {h : Nat}
    (hr : Reach step (fun s a => promptSends s a = true) (init cfg) s) :
    Leakless cfg s ∧ FailedKept h s ∧ Undelivered h s := by
  refine hr.invariant (P := fun s => Leakless cfg s ∧ FailedKept h s ∧ Undelivered h s)
    ⟨.init, ?_, ?_⟩ ?_
  · simp [FailedKept, init]
  · simp [Undelivered, init, Routine.zero]
  · rintro s a s' ⟨hr, hf, hu⟩ hg hs
    simp only [promptSends, Bool.and_eq_true, Bool.not_eq_true'] at hg
    obtain ⟨hc, hl⟩ := hr.ledger h
    have hleak : leaks s a = false := by simpa [leakless] using hg.1
    exact ⟨hr.next a hg.1 hs, hf.step hu hl hc hr.placed hleak hg.2 hs⟩

/-- **A failed send delivers nothing.** -/
theorem failed_send_delivers_nothing {cfg : Config} {h k : Nat} {e : CoError}
    (hr : Reach step (fun s a => promptSends s a = true) (init cfg) s)
    (hsend : sendCall s.trace h k) (hret : .ret k (.code e) ∈ s.trace)
    (he : e = .closed ∨ e = .busy) :
    k ∉ ((s.chans h).contents Prod.fst) ∧ ∀ r d, .store h r k d ∉ s.trace := by
  have hk := (failedKept_run hr).2.1 k _ hsend hret (by rcases he with rfl | rfl <;> simp)
  refine ⟨fun hm => hk (List.mem_append_right _ hm), fun r d hm => hk (List.mem_append_left _ ?_)⟩
  simp only [view, List.map_map, List.mem_map]
  exact ⟨(r, k, d), mem_stores.mpr hm, rfl⟩

theorem failed_send_delivers_nothing_orderly :
    ∃ s, runGuarded step promptSends (init (byteConfig 1)) orderlyRun = some s ∧
      .ret 3 (.code .closed) ∈ s.trace ∧ 3 ∉ (s.chans 0).contents Prod.fst ∧
      ∀ r d, .store 0 r 3 d ∉ s.trace := by
  have hrun : (runGuarded step promptSends (init (byteConfig 1)) orderlyRun).map
      (fun s => (decide (.call 3 (some 2) (.send 0) ∈ s.trace),
        decide (.ret 3 (.code .closed) ∈ s.trace))) = some (true, true) := by
    decide +kernel
  obtain ⟨s, hs, he⟩ := Option.map_eq_some_iff.mp hrun
  simp only [Prod.mk.injEq, decide_eq_true_eq] at he
  exact ⟨s, hs, he.2, failed_send_delivers_nothing (reach_of_runGuarded hs)
    ⟨_, _, he.1, .inl rfl⟩ he.2 (.inl rfl)⟩

/-- The element of a blocked send is taken, and the channel closed before the sender
is dispatched. -/
def takenClosedRun : List Act :=
  [spawnOk, spawnOk, .run] ++ turn ++ [Act.call (.channelSend 0 fun _ => 5)] ++ turn ++
    [Act.call (.channelRecv 0), .call (.channelClose 0), .call .yieldNow] ++ turn

theorem failed_send_delivered :
    ∃ s, runActs step (init (byteConfig 0)) takenClosedRun = some s ∧ sendCall s.trace 0 0 ∧
      .ret 0 (.code .closed) ∈ s.trace ∧ .store 0 1 0 [5] ∈ s.trace ∧
      .ret 1 (.code .ok) ∈ s.trace := by
  have hrun : (runActs step (init (byteConfig 0)) takenClosedRun).map
      (fun s => (decide (.call 0 (some 1) (.send 0) ∈ s.trace),
        decide (.ret 0 (.code .closed) ∈ s.trace), decide (.store 0 1 0 [5] ∈ s.trace),
        decide (.ret 1 (.code .ok) ∈ s.trace))) = some (true, true, true, true) := by
    decide +kernel
  obtain ⟨s, hs, he⟩ := Option.map_eq_some_iff.mp hrun
  simp only [Prod.mk.injEq, decide_eq_true_eq] at he
  exact ⟨s, hs, ⟨_, _, he.1, .inl rfl⟩, he.2.1, he.2.2.1, he.2.2.2⟩

/-! ## Receives that were served -/

/-- The receive a move stores an element for: the one that just began, or the one that
waits longest. -/
theorem ChanMove.storedFor_new {p p' : Option Nat × St} (hm : ChanMove h s₀ a p p') :
    storedFor h p'.2 = storedFor h p.2 ∨
    (∃ op, Begins s₀ a p.2 op ∧ storedFor h p'.2 = storedFor h p.2 ++ [s₀.calls]) ∨
    ∃ c rest, p.2.queues (.recv h) = c :: rest ∧ (p'.2.co c).state = .ready ∧
      (p'.2.chans h).closed = false ∧ storedFor h p'.2 = storedFor h p.2 ++ [(p.2.co c).call] := by
  have hadd : ∀ es, p'.2.trace = p.2.trace ++ es →
      storedFor h p'.2 = storedFor h p.2 ++ (stores h es).map Prod.fst := by
    intro es htr
    unfold storedFor
    rw [htr, stores_append, List.map_append]
  cases hm with
  | other hsame =>
    obtain ⟨es, htr, he⟩ := hsame.trace
    refine .inl ((hadd es htr).trans ?_)
    simp [(silent_of_obj he).stores]
  | send hb hbl hf | recv hb hbl hf =>
    refine .inl ((hadd _ hbl.trace).trans ?_)
    simp [blockEvents, hf, stores]
  | dispatch hd =>
    refine .inl ((hadd _ hd.trace).trans ?_)
    unfold dispatchEvents
    split <;> simp [stores]
  | @hand cur c rest data op s s' hb hop hcl hq hs' =>
    refine .inr (.inr ⟨c, rest, hq, ?_, ?_, (hadd
      [Event.offer h s₀.calls (data.take (s.chans h).elemSize), .serve h (s.co c).call,
        .store h (s.co c).call s₀.calls (data.take (s.chans h).elemSize), .ready c] ?_).trans ?_⟩)
    · simp [hs', wakeAll, Routine.wake]
    · rw [hs']
      exact hcl
    · simp [hs', wakeAll, deliver_trace]
    · simp [stores]
  | push hb hop hcl hq hroom hs' =>
    refine .inl ((hadd _ (by rw [hs']; rfl)).trans ?_)
    simp [stores]
  | @pop cur op s s' hb hop hpos hq hs' =>
    refine .inr (.inl ⟨op, hb, (hadd _ (by rw [hs']; rfl)).trans ?_⟩)
    simp [stores]
  | @refill cur c rest op s s' hb hop hpos hq hs' =>
    refine .inr (.inl ⟨op, hb,
      (hadd _ (by rw [hs']; exact List.append_assoc _ _ _)).trans ?_⟩)
    simp [stores]
  | @meet cur c rest op s s' hb hop hzero hq hs' =>
    refine .inr (.inl ⟨op, hb,
      (hadd _ (by rw [hs']; exact List.append_assoc _ _ _)).trans ?_⟩)
    simp [stores]
  | @close cur op s s' hb hop hcl hs' =>
    refine .inl ((hadd (.close h ((s.queues (.send h)).map fun c =>
      (s.co c).element (s.chans h).elemSize) ::
        (s.queues (.recv h) ++ s.queues (.send h)).map .ready) ?_).trans ?_)
    · simp [hs', wakeAll, St.setChan, St.emit]
    · rw [← List.singleton_append, stores_append, (silent_ready _).stores]
      simp [stores]

/-- Nobody else is inside the call that just began. -/
theorem Begins.others {op : Op} (hb : Begins s₀ a s op) (hc : CallInv s)
    (hi₀ : Inv False s₀.coCurrent s₀.toSched) (hin : (s.co c).inCall = true) :
    (s.co c).call ≠ s₀.calls := by
  intro he
  obtain ⟨op', hop', -⟩ := hc.inside c hin
  rw [he] at hop'
  have hcur : s₀.coCurrent = some c := (hc.unique _ _ _ _ _ hb.call_mem hop').1
  have huser : (s.co c).frame = .user := by
    rw [hb.2, beginCall_frame]
    exact (hi₀.user c).mpr hcur
  rw [not_inCall_user huser] at hin
  cases hin

theorem CallInv.caller_unique {d : Nat} (hc : CallInv s) (h1 : (s.co c).inCall = true)
    (h2 : (s.co d).inCall = true) (he : (s.co c).call = (s.co d).call) : c = d := by
  obtain ⟨op, hop, -⟩ := hc.inside c h1
  obtain ⟨op', hop', -⟩ := hc.inside d h2
  rw [he] at hop
  exact Option.some.inj (hc.unique _ _ _ _ _ hop hop').1

theorem inCall_recv (hf : (s.co c).frame = .recv h) : (s.co c).inCall = true := by
  simp [Routine.inCall, hf, Frame.suspended]

/-- A suspended receive that got its element is ready, and the channel is open. -/
def Served (h : Nat) (s : St) : Prop :=
  ∀ c, (s.co c).frame = .recv h → (s.co c).call ∈ storedFor h s →
    (s.co c).state = .ready ∧ (s.chans h).closed = false

theorem ChanMove.served {p p' : Option Nat × St} (hm : ChanMove h s₀ a p p')
    (hi₀ : Inv False s₀.coCurrent s₀.toSched) (hi : Inv False p.1 p.2.toSched) (h₀ : CallInv s₀)
    (hc : CallInv p.2) (hg : closesOver .recv s₀ a = false) (hsv : Served h p.2) :
    Served h p'.2 := by
  intro d hf hk
  cases hm.suspended hi₀ hi (frame_recv_objs hf) with
  | begun hb hcall ho hch hoff hsto =>
    -- a call that just began has not been served
    exfalso
    rw [hcall, hsto] at hk
    obtain ⟨x, hx, he⟩ := List.mem_map.mp hk
    have := hb.fresh h₀ (mem_stores.mp hx) rfl
    rw [he] at this
    exact Nat.lt_irrefl _ this
  | stays hfr hcall hst =>
    have hfr := hfr.trans hf
    have hin := inCall_recv hfr
    have hold : (p.2.co d).call ∈ storedFor h p.2 →
        (p'.2.co d).state = .ready ∧ (p'.2.chans h).closed = false := by
      intro hk
      obtain ⟨hready, ho⟩ := hsv d hfr hk
      refine ⟨hst hready, ?_⟩
      cases hcl : (p'.2.chans h).closed with
      | false => rfl
      | true =>
        rcases hm.closes hcl with hc' | ⟨op, hb, hop, -, -⟩
        · rw [hc'] at ho
          cases ho
        · have hwait := hb.not_woken hop hi ho hg hfr rfl
          rw [hready] at hwait
          cases hwait
    rw [hcall] at hk
    rcases hm.storedFor_new with he | ⟨op, hb, he⟩ | ⟨c, rest, hq, hready, ho, he⟩
    · exact hold (he ▸ hk)
    · rw [he, List.mem_append, List.mem_singleton] at hk
      exact hk.elim hold fun heq => absurd heq (hb.others hc hi₀ hin)
    · rw [he, List.mem_append, List.mem_singleton] at hk
      refine hk.elim hold fun heq => ?_
      have hcin : (p.2.co c).inCall = true := inCall_recv (hc.receiver hi hq).1
      obtain rfl := hc.caller_unique hin hcin heq
      exact ⟨hready, ho⟩

/-- Elements are stored for receives that have not returned. -/
theorem ChanMove.storedFor_unreturned {p p' : Option Nat × St} (hm : ChanMove h s₀ a p p')
    (hi : Inv False p.1 p.2.toSched) (h₀ : CallInv s₀) (hext : Extends s₀ p.2) (hc : CallInv p.2)
    (hk : k ∈ storedFor h p'.2) : k ∈ storedFor h p.2 ∨ ∀ r, .ret k r ∉ s₀.trace := by
  rcases hm.storedFor_new with he | ⟨op, hb, he⟩ | ⟨c, rest, hq, -, -, he⟩
  · exact .inl (he ▸ hk)
  · rw [he, List.mem_append, List.mem_singleton] at hk
    refine hk.imp id ?_
    rintro rfl r hr
    exact Nat.lt_irrefl _ (h₀.ret_lt hr)
  · rw [he, List.mem_append, List.mem_singleton] at hk
    refine hk.imp id ?_
    rintro rfl r hr
    exact hc.unreturned c (inCall_recv (hc.receiver hi hq).1) r (hext.mem hr)

/-- Sends that returned `CO_OK`, and receives that elements were stored for. -/
structure Received (h : Nat) (s : St) : Prop where
  sent : ∀ k, sendCall s.trace h k → .ret k (.code .ok) ∈ s.trace → k ∈ placed h s
  told : ∀ r res, r ∈ storedFor h s → .ret r res ∈ s.trace → res = .code .ok
  served : Served h s

/-- A receive that an element was stored for. -/
theorem Returns.recv {t : St} {r : Ret} (hr : Returns s a t k r)
    (hi₀ : Inv False s.coCurrent s.toSched) (h₀ : CallInv s) (hext : Extends s t)
    (hcall : CallInv t) (hsv : Served h s) (hk : k ∈ storedFor h t) : r = .code .ok := by
  obtain ⟨x, hx, rfl⟩ := List.mem_map.mp hk
  obtain ⟨w, op, hmem, hop⟩ := hcall.attributed _ (mem_stores.mp hx) _ _ rfl
  obtain ⟨o, hname, hk', hrun⟩ | ⟨c, rest, e, hq, hk', hfits, hres⟩ :=
    hr.origin hi₀ h₀ hext hcall hmem
  · refine (runOp_recv hrun (hname ▸ hop)).resolve_right ?_
    rintro ⟨rfl, -, -⟩
    have hb : Begins s (.call o) (beginCall s o) o := ⟨rfl, rfl⟩
    have := hb.fresh h₀ (mem_stores.mp hx) rfl
    omega
  · have hfr : (s.co c).frame = .recv h := by
      rcases hop with rfl | rfl <;> cases hf : (s.co c).frame <;> simp [hf, Frame.fits] at hfits
      rw [hfits]
    rw [hfr] at hres
    cases hres
    have hold : (s.co c).call ∈ storedFor h s := by
      rw [hk']
      simpa [storedFor, switchTo, St.modify, St.emit, stores] using hk
    show Ret.code (if (s.chans h).closed then .closed else .ok) = _
    rw [(hsv c hfr hold).2]
    rfl

theorem Received.step {run : Prop} (hv : Received h s) (hl : Ledger h s) (hc : CallInv s)
    (hp : Placed run s) (hleak : leaks s a = false) (hg : closesOver .recv s a = false)
    (hs : step s a = some s') : Received h s' := by
  have hi₀ : Inv False s.coCurrent s.toSched := (hp.current hs).mono fun h => h.elim
  have hsent : ∀ t k, CallInv t → Extends s t → (∀ k ∈ placed h s, k ∈ placed h t) →
      sendCall t.trace h k → .ret k (.code .ok) ∈ t.trace → k ∈ placed h t := by
    intro t k hct hext hmono hsend hr
    exact hmono k (hv.sent k (hext.sendCall hc hct (hext.ret hr) hsend) (hext.ret hr))
  have htold : ∀ t r res, Extends s t →
      (∀ r ∈ storedFor h t, r ∈ storedFor h s ∨ ∀ res, .ret r res ∉ s.trace) →
      r ∈ storedFor h t → .ret r res ∈ t.trace → res = .code .ok := by
    intro t r res hext hnew hk hr
    rcases hnew r hk with hk | hk
    · exact hv.told r res hk (hext.ret hr)
    · exact absurd (hext.ret hr) (hk res)
  refine (hl.step_rule (K := fun t => Served h t ∧ (∀ k ∈ placed h s, k ∈ placed h t) ∧
      ∀ r ∈ storedFor h t, r ∈ storedFor h s ∨ ∀ res, .ret r res ∉ s.trace)
    (J := Received h) hc hp hleak hs ⟨hv.served, fun _ hk => hk, fun _ hk => .inl hk⟩ ?_ ?_ ?_).2
  · rintro p p' hm hi hcp hext hlp ⟨hsv, hmono, hnew⟩
    refine ⟨hm.served hi₀ hi hc hcp hg hsv, fun k hk => ?_, fun r hk => ?_⟩
    · exact Fifo.placed_run (hm.view hi hlp.ok).2.to_reflTransGen (hmono k hk)
    · exact (hm.storedFor_unreturned hi hc hext hcp hk).elim (hnew r) .inr
  · rintro t hct hext ⟨hsv, hmono, hnew⟩
    exact ⟨fun k => hsent t k hct hext hmono, fun r res => htold t r res hext hnew, hsv⟩
  · rintro t k r hi hct hext hlt ⟨hsv, hmono, hnew⟩ hr
    have hpl : placed h (t.emit (.ret k r)) = placed h t := congrArg Fifo.placed view_ret
    have hst : storedFor h (t.emit (.ret k r)) = storedFor h t := by
      simp [storedFor, St.emit, stores]
    refine ⟨fun j hsend' hret => ?_, fun j res hk hret => ?_, fun c hf hk => ?_⟩
    · have hsend : sendCall t.trace h j := by simpa [sendCall, St.emit] using hsend'
      rw [hpl]
      simp only [St.emit, List.mem_append, List.mem_singleton, Event.ret.injEq] at hret
      rcases hret with hret | ⟨rfl, rfl⟩
      · exact hsent t j hct hext hmono hsend hret
      · rcases hr.send hi₀ hi hc hext hct hl hlt hsend with ⟨-, hk⟩ | ⟨hne, -⟩
        · exact hk
        · exact absurd rfl hne
    · rw [hst] at hk
      simp only [St.emit, List.mem_append, List.mem_singleton, Event.ret.injEq] at hret
      rcases hret with hret | ⟨rfl, rfl⟩
      · exact htold t j res hext hnew hk hret
      · exact hr.recv hi₀ hc hext hct hv.served hk
    · rw [hst] at hk
      exact hsv c hf hk

/-- No channel is closed while a blocked receive has been handed its element and was not
dispatched since; and no timer is left behind. -/
def promptReceives (s : St) (a : Act) : Bool := leakless s a && !closesOver .recv s a

theorem received_run {cfg : Config}
    (hr : Reach step (fun s a => promptReceives s a = true) (init cfg) s) (h : Nat) :
    Leakless cfg s ∧ Received h s := by
  refine hr.invariant (P := fun s => Leakless cfg s ∧ Received h s) ⟨.init, ?_, ?_, ?_⟩ ?_
  · simp [init]
  · simp [init]
  · simp [Served, init, Routine.zero]
  · rintro s a s' ⟨hr, hv⟩ hg hs
    simp only [promptReceives, Bool.and_eq_true, Bool.not_eq_true'] at hg
    obtain ⟨hc, hl⟩ := hr.ledger h
    have hleak : leaks s a = false := by simpa [leakless] using hg.1
    exact ⟨hr.next a hg.1 hs, hv.step hl hc hr.placed hleak hg.2 hs⟩

/-! ## The buffer of a blocked receive -/

/-- What was stored for a suspended receive is in its buffer. -/
def Buffered (h : Nat) (s : St) : Prop :=
  ∀ c x, (s.co c).frame = .recv h → x ∈ stores h s.trace → x.1 = (s.co c).call →
    (s.co c).chanData.take (s.chans h).elemSize = x.2.2

/-- The elements a move stores, and what it leaves in the buffers of the receives that
are suspended before and after it. -/
inductive StoresAfter (h : Nat) (s₀ : St) (a : Act) (s s' : St) : Prop
  | none (hst : stores h s'.trace = stores h s.trace)
      (hd : ∀ d, (s'.co d).frame = .recv h → (s.co d).frame = .recv h →
        (s'.co d).chanData = (s.co d).chanData)
  | begun {op : Op} (hb : Begins s₀ a s op) (x : Nat × List UInt8)
      (hst : stores h s'.trace = stores h s.trace ++ [(s₀.calls, x)])
      (hd : ∀ d, (s'.co d).chanData = (s.co d).chanData)
  | handed {c : Nat} {rest : List Nat} (hq : s.queues (.recv h) = c :: rest)
      (x : Nat × List UInt8) (hst : stores h s'.trace = stores h s.trace ++ [((s.co c).call, x)])
      (hc : (s'.co c).chanData.take (s.chans h).elemSize = x.2)
      (hd : ∀ d, d ≠ c → (s'.co d).chanData = (s.co d).chanData)

theorem wakeAll_chanData {q : QueueRef} {ws rest : List Nat} (s : St) (d : Nat) :
    ((wakeAll s q ws rest .wake).co d).chanData = (s.co d).chanData := by
  simp only [wakeAll]
  split <;> rfl

/-- Copied bytes. -/
theorem memcpy_take (dst src : Bytes) (n : Nat) : (memcpy dst 0 src n).take n = src.take n :=
  take_congr fun m hm => by simp [memcpy, hm]

theorem ChanMove.storesAfter {p p' : Option Nat × St} (hm : ChanMove h s₀ a p p')
    (hi : Inv False p.1 p.2.toSched) : StoresAfter h s₀ a p.2 p'.2 := by
  have hupdate : ∀ {s s' : St} {c : Nat} {r : Routine}, s'.co = Function.update s.co c r →
      (r.frame = .recv h → (s.co c).frame = .recv h → r.chanData = (s.co c).chanData) →
      ∀ d, (s'.co d).frame = .recv h → (s.co d).frame = .recv h →
        (s'.co d).chanData = (s.co d).chanData := by
    intro s s' c r hco hr d hf hf'
    by_cases hdc : d = c
    · subst hdc
      rw [hco, Function.update_self] at hf ⊢
      exact hr hf hf'
    · rw [hco, Function.update_of_ne hdc]
  cases hm with
  | other hsame =>
    obtain ⟨es, htr, he⟩ := hsame.trace
    refine .none ?_ fun d hf _ => ?_
    · rw [htr, stores_append, (silent_of_obj he).stores, List.append_nil]
    · exact (hsame.co d (.inr (frame_recv_objs hf))).chanData
  | send hb hbl hf =>
    refine .none ?_ (hupdate hbl.co fun hr _ => ?_)
    · rw [hbl.trace, stores_append]
      simp [blockEvents, hf, stores]
    · rw [hf] at hr
      cases hr
  | @recv c op s s' r hb hbl hf =>
    refine .none ?_ (hupdate hbl.co fun _ hold => ?_)
    · rw [hbl.trace, stores_append]
      simp [blockEvents, hf, stores]
    · -- the caller of the receive was in its own code
      rw [(hi.user c).mpr rfl] at hold
      cases hold
  | dispatch hd =>
    refine .none ?_ (hupdate hd.co fun hr _ => by cases hr)
    rw [hd.trace, stores_append]
    unfold dispatchEvents
    split <;> simp [stores]
  | @hand cur c rest data op s s' hb hop hcl hq hs' =>
    refine .handed hq (s₀.calls, data.take (s.chans h).elemSize) ?_ ?_ fun d hdc => ?_
    · simp [hs', wakeAll, deliver_trace, stores]
    · rw [hs', wakeAll_chanData]
      simp [deliver, St.modify, St.emit, memcpy_take]
    · rw [hs', wakeAll_chanData]
      simp [deliver, St.modify, St.emit, hdc]
  | @push cur data op s s' hb hop hcl hq hroom hs' =>
    refine .none ?_ fun d _ _ => by rw [hs']; rfl
    rw [hs']
    simp [St.emit, St.setChan, stores]
  | @pop cur op s s' hb hop hpos hq hs' =>
    refine .begun hb ((s.chans h).element (s.chans h).head) ?_ fun d => by rw [hs']; rfl
    rw [hs']
    simp [St.storeHead, St.emit, St.setChan, stores, Channel.element]
  | @refill cur c rest op s s' hb hop hpos hq hs' =>
    refine .begun hb ((s.chans h).element (s.chans h).head) ?_ fun d => ?_
    · rw [hs']
      simp [wakeAll, St.storeHead, St.emit, St.setChan, stores, Channel.element]
    · rw [hs', wakeAll_chanData]
      rfl
  | @meet cur c rest op s s' hb hop hzero hq hs' =>
    refine .begun hb ((s.co c).element (s.chans h).elemSize) ?_ fun d => ?_
    · rw [hs']
      simp [wakeAll, St.emit, stores, Routine.element]
    · rw [hs', wakeAll_chanData]
      rfl
  | @close cur op s s' hb hop hcl hs' =>
    refine .none ?_ fun d _ _ => ?_
    · have htr : s'.trace = s.trace ++
          (Event.close h ((s.queues (.send h)).map fun c => (s.co c).element (s.chans h).elemSize) ::
            (s.queues (.recv h) ++ s.queues (.send h)).map Event.ready) := by
        simp [hs', wakeAll, St.setChan, St.emit]
      rw [htr, ← List.singleton_append, stores_append, stores_append, (silent_ready _).stores]
      simp [stores]
    · rw [hs', wakeAll_chanData, wakeAll_chanData]
      rfl

theorem ChanMove.elemSize {p p' : Option Nat × St} (hm : ChanMove h s₀ a p p') :
    (p'.2.chans h).elemSize = (p.2.chans h).elemSize := by
  cases hm with
  | other hsame => rw [hsame.chan h rfl]
  | send hb hbl hf | recv hb hbl hf => rw [hbl.objects.chan_at h]
  | dispatch hd => rw [hd.objects.chan_at h]
  | hand hb hop hcl hq hs' | meet hb hop hzero hq hs' =>
    rw [hs']
    rfl
  | push hb hop hcl hq hroom hs' | pop hb hop hpos hq hs' =>
    rw [hs']
    simp [St.emit, St.setChan, Channel.pushTail, Channel.popHead]
  | refill hb hop hpos hq hs' | close hb hop hcl hs' =>
    rw [hs']
    simp [wakeAll, St.emit, St.setChan, Channel.pushTail, Channel.popHead]

theorem ChanMove.buffered {p p' : Option Nat × St} (hm : ChanMove h s₀ a p p')
    (hi₀ : Inv False s₀.coCurrent s₀.toSched) (hi : Inv False p.1 p.2.toSched) (h₀ : CallInv s₀)
    (hc : CallInv p.2) (hsv : Served h p.2) (hbuf : Buffered h p.2) : Buffered h p'.2 := by
  intro d x hf hx hcall
  rw [hm.elemSize]
  cases hm.suspended hi₀ hi (frame_recv_objs hf) with
  | begun hb hcall' ho hch hoff hsto =>
    -- nothing is stored yet for a call that just began
    exfalso
    have hk : x.1 ∈ storedFor h p'.2 := List.mem_map_of_mem hx
    rw [hsto] at hk
    obtain ⟨y, hy, he⟩ := List.mem_map.mp hk
    have hlt := hb.fresh h₀ (mem_stores.mp hy) rfl
    rw [he, hcall, hcall'] at hlt
    exact Nat.lt_irrefl _ hlt
  | stays hfr hcall' hst =>
    have hfr := hfr.trans hf
    have hin := inCall_recv hfr
    have hcall := hcall.trans hcall'
    cases hm.storesAfter hi with
    | none hsto hd =>
      rw [hd d hf hfr]
      exact hbuf d x hfr (hsto ▸ hx) hcall
    | begun hb y hsto hd =>
      rw [hd d]
      rw [hsto, List.mem_append, List.mem_singleton] at hx
      rcases hx with hx | rfl
      · exact hbuf d x hfr hx hcall
      · exact absurd hcall.symm (hb.others hc hi₀ hin)
    | @handed c rest hq y hsto hdata hd =>
      obtain ⟨hcf, hwait, -⟩ := hc.receiver hi hq
      rw [hsto, List.mem_append, List.mem_singleton] at hx
      by_cases hdc : d = c
      · subst hdc
        rcases hx with hx | rfl
        · -- a receive that still waits has got nothing
          have hready := (hsv d hfr (hcall ▸ List.mem_map_of_mem hx)).1
          rw [hwait] at hready
          cases hready
        · exact hdata
      · rw [hd d hdc]
        rcases hx with hx | rfl
        · exact hbuf d x hfr hx hcall
        · exact absurd (hc.caller_unique hin (inCall_recv hcf) hcall.symm) hdc

theorem Buffered.step {run : Prop} (hbuf : Buffered h s) (hv : Received h s) (hl : Ledger h s)
    (hc : CallInv s) (hp : Placed run s) (hleak : leaks s a = false)
    (hg : closesOver .recv s a = false) (hs : step s a = some s') : Buffered h s' := by
  have hi₀ : Inv False s.coCurrent s.toSched := (hp.current hs).mono fun h => h.elim
  refine (hl.step_rule (K := fun t => Served h t ∧ Buffered h t) (J := Buffered h) hc hp hleak hs
    ⟨hv.served, hbuf⟩ ?_ (fun t _ _ hk => hk.2) ?_).2
  · rintro p p' hm hi hcp hext hlp ⟨hsv, hbp⟩
    exact ⟨hm.served hi₀ hi hc hcp hg hsv, hm.buffered hi₀ hi hc hcp hsv hbp⟩
  · rintro t k r hi hct hext hlt ⟨-, hbt⟩ hr c x hf hx hcall
    exact hbt c x hf (by simpa [St.emit, stores] using hx) hcall

theorem buffered_run {cfg : Config}
    (hr : Reach step (fun s a => promptReceives s a = true) (init cfg) s) (h : Nat) :
    Buffered h s := by
  refine (hr.invariant (P := fun s => Reach step (fun s a => promptReceives s a = true) (init cfg) s
    ∧ Buffered h s) ⟨.init, ?_⟩ ?_).2
  · simp [Buffered, init, Routine.zero]
  · rintro s a s' ⟨hr, hbuf⟩ hg hs
    obtain ⟨hleak, hv⟩ := received_run hr h
    obtain ⟨hc, hl⟩ := hleak.ledger h
    have hg' := hg
    simp only [promptReceives, Bool.and_eq_true, Bool.not_eq_true'] at hg'
    have hno : leaks s a = false := by simpa [leakless] using hg'.1
    exact ⟨hr.next a hg hs, hbuf.step hv hl hc hleak.placed hno hg'.2 hs⟩

theorem fifoInv_run {cfg : Config}
    (hr : Reach step (fun s a => promptReceives s a = true) (init cfg) s)
    (hfit : cfg.elemSize h * cfg.capacity h < 2 ^ 64) : FifoInv cfg h s := by
  refine (hr.invariant (P := fun s => Reach step (fun s a => promptReceives s a = true) (init cfg) s
    ∧ FifoInv cfg h s) ⟨.init, fifoInv_init hfit⟩ ?_).2
  rintro s a s' ⟨hr, hf⟩ hg hs
  obtain ⟨hleak, -⟩ := received_run hr h
  obtain ⟨hc, hl⟩ := hleak.ledger h
  have hg' := hg
  simp only [promptReceives, Bool.and_eq_true] at hg'
  have hno : leaks s a = false := by simpa [leakless] using hg'.1
  exact ⟨hr.next a hg hs, hf.step hl hc hleak.placed hno hs⟩

/-! ## No message is lost -/

/-- The bytes a call offers. -/
def Op.sends (h : Nat) : Op → Option Bytes
  | .channelSend h' data | .channelTrysend h' data => if h' = h then some data else none
  | _ => none

/-- The receives the element of send `k` was stored for, with what was stored. -/
def storedAs (h k : Nat) (s : St) : List (Nat × List UInt8) :=
  (stores h s.trace).filterMap fun x => if x.2.1 = k then some (x.1, x.2.2) else none

/-- What a channel does with the elements it accepted. -/
structure NoneLost (h : Nat) (s : St) : Prop where
  /-- the element of a send that returned `CO_OK` is in the ring, byte for byte, or it was
  stored by exactly one receive -/
  kept : ∀ k, sendCall s.trace h k → .ret k (.code .ok) ∈ s.trace → ∃ d, (k, d) ∈ offers h s.trace ∧
    (((k, d) ∈ (s.chans h).contents id ∧ storedAs h k s = []) ∨
      (k ∉ (s.chans h).contents Prod.fst ∧ ∃ r, storedAs h k s = [(r, d)]))
  /-- an element has the bytes its send was called with -/
  bytes : ∀ op data s', op.sends h = some data → step s (.call op) = some s' →
    ∀ d, (s.calls, d) ∈ offers h s'.trace → d = data.take (s.chans h).elemSize
  /-- what was stored for a suspended receive is in its buffer -/
  buffer : Buffered h s
  /-- and the receive returns `CO_OK` -/
  told : ∀ r k d res, .store h r k d ∈ s.trace → .ret r res ∈ s.trace → res = .code .ok

theorem placed_fst : placed h s = (view id h s).placed.map Prod.fst := by
  have hring : (s.chans h).contents Prod.fst = ((s.chans h).contents id).map Prod.fst := by
    simp [Channel.contents, ring, Function.comp_def]
  simp [placed, Fifo.placed, view, hring, Function.comp_def]

/-- The stores of one element. -/
theorem storedAs_eq_nil : storedAs h k s = [] ↔ k ∉ (view Prod.fst h s).stored.map Prod.snd := by
  simp only [storedAs, view, List.filterMap_eq_nil_iff, List.map_map, List.mem_map,
    Function.comp_apply, not_exists, not_and]
  constructor
  · rintro hn x hx rfl
    simpa using hn x hx
  · intro hn x hx
    simpa using hn x hx

theorem storedAs_eq_singleton {r : Nat} {d : List UInt8}
    (hn : ((view Prod.fst h s).stored.map Prod.snd).Nodup) (hm : (r, k, d) ∈ stores h s.trace) :
    storedAs h k s = [(r, d)] := by
  obtain ⟨l, l', he⟩ := List.append_of_mem hm
  have hne : ∀ x ∈ l ++ l', x.2.1 ≠ k := by
    simp only [view, List.map_map, he, List.map_append, List.map_cons] at hn
    rw [List.nodup_middle, List.nodup_cons] at hn
    intro x hx hk
    rw [← List.map_append] at hn
    exact hn.1 (List.mem_map.mpr ⟨x, hx, hk⟩)
  have hnil : ∀ ys ⊆ l ++ l', ys.filterMap (fun x : Nat × Nat × List UInt8 =>
      if x.2.1 = k then some (x.1, x.2.2) else none) = [] := by
    intro ys hys
    refine List.filterMap_eq_nil_iff.mpr fun x hx => ?_
    rw [if_neg (hne x (hys hx))]
  unfold storedAs
  rw [he, List.filterMap_append, List.filterMap_cons, hnil l (List.subset_append_left l l'),
    hnil l' (List.subset_append_right l l')]
  simp

theorem placeElement_offers {data : Bytes} (hp : placeElement s h k data = some s') :
    offers h s'.trace = offers h s.trace ++ [(k, data.take (s.chans h).elemSize)] := by
  obtain ⟨c, rest, -, rfl⟩ | ⟨-, -, rfl⟩ := placeElement_cases hp
  · simp [wakeAll, deliver_trace, offers]
  · simp [St.emit, St.setChan, offers]

/-- A send offers its bytes or nothing. -/
theorem step_sends {op : Op} {data : Bytes} (hop : op.sends h = some data)
    (hs : step s (.call op) = some s') : offers h s'.trace = offers h s.trace ∨
      offers h s'.trace = offers h s.trace ++ [(s.calls, data.take (s.chans h).elemSize)] := by
  obtain ⟨-, rfl⟩ := step_call hs
  have hch := congrFun (beginCall_chans s op) h
  have hoff : offers h (beginCall s op).trace = offers h s.trace := by
    simp [beginCall_trace, offers]
  have hret : ∀ (t : St) (r : Ret), offers h (t.emit (.ret s.calls r)).trace = offers h t.trace := by
    simp [St.emit, offers]
  rw [← hch, ← hoff]
  generalize beginCall s op = t
  cases op <;> simp only [Op.sends, reduceCtorEq] at hop
  case channelSend h' data' =>
    obtain ⟨rfl, rfl⟩ : h' = h ∧ data' = data := by simpa using hop
    simp only [runOp, coChannelSend]
    split
    · exact .inl (hret _ _)
    cases hp : placeElement t h' s.calls data' with
    | some t' => exact .inr ((hret _ _).trans (placeElement_offers hp))
    | none =>
      dsimp only
      split
      · exact .inl (hret _ _)
      · right
        simp [settle, coQueuePushBack, St.modify, St.emit, offers]
  case channelTrysend h' data' =>
    obtain ⟨rfl, rfl⟩ : h' = h ∧ data' = data := by simpa using hop
    simp only [runOp, coChannelTrysend]
    split
    · exact .inl (hret _ _)
    cases hp : placeElement t h' s.calls data' with
    | some t' => exact .inr ((hret _ _).trans (placeElement_offers hp))
    | none => exact .inl (hret _ _)

/-- **No message is lost.** -/
theorem no_message_lost {cfg : Config}
    (hr : Reach step (fun s a => promptReceives s a = true) (init cfg) s)
    (hfit : cfg.elemSize h * cfg.capacity h < 2 ^ 64) : NoneLost h s := by
  obtain ⟨hleak, hv⟩ := received_run hr h
  obtain ⟨hc, hl⟩ := hleak.ledger h
  have hgood := (view_good_init cfg h).run (fifoInv_run hr hfit).run
  have hn := hl.good.placed_nodup hl.nodup
  rw [Fifo.placed, List.nodup_append] at hn
  refine ⟨fun k hsend hret => ?_, fun op data s' hop hs d hd => ?_, buffered_run hr h,
    fun r k d res hst hret => ?_⟩
  · have hk := hv.sent k hsend hret
    rw [placed_fst] at hk
    obtain ⟨⟨j, d⟩, hd, hj⟩ := List.mem_map.mp hk
    obtain rfl : j = k := hj
    refine ⟨d, by simpa [view] using hgood.placed_sub hd, ?_⟩
    rcases List.mem_append.mp hd with hst | hring
    · right
      simp only [view, List.map_map, List.mem_map, Function.comp_apply, id_eq] at hst
      obtain ⟨⟨r, x⟩, hx, rfl⟩ := hst
      have hmem : j ∈ (view Prod.fst h s).stored.map Prod.snd := by
        simp only [view, List.map_map, List.mem_map]
        exact ⟨_, hx, rfl⟩
      exact ⟨fun hring => hn.2.2 j hmem j hring rfl, r, storedAs_eq_singleton hn.1 hx⟩
    · left
      refine ⟨hring, storedAs_eq_nil.mpr fun hst => hn.2.2 j hst j ?_ rfl⟩
      have : (view Prod.fst h s).ring = (view id h s).ring.map Prod.fst := by
        simp [view, Channel.contents, ring, Function.comp_def]
      rw [this]
      exact List.mem_map_of_mem hring
  · rcases step_sends hop hs with he | he
    · rw [he] at hd
      obtain ⟨w, op', hcall, -⟩ := hc.attributed _ (mem_offers.mp hd) _ _ rfl
      exact absurd (hc.call_lt _ w op' hcall) (Nat.lt_irrefl _)
    · rw [he, List.mem_append, List.mem_singleton] at hd
      rcases hd with hd | hd
      · obtain ⟨w, op', hcall, -⟩ := hc.attributed _ (mem_offers.mp hd) _ _ rfl
        exact absurd (hc.call_lt _ w op' hcall) (Nat.lt_irrefl _)
      · exact (Prod.mk.inj hd).2
  · exact hv.told r res (List.mem_map.mpr ⟨(r, k, d), mem_stores.mpr hst, rfl⟩) hret

theorem no_message_lost_orderly :
    ∃ s, runGuarded step promptReceives (init (byteConfig 1)) orderlyRun = some s ∧
      .ret 0 (.code .ok) ∈ s.trace ∧ storedAs 0 1 s = [(0, [5])] ∧ NoneLost 0 s := by
  have hrun : (runGuarded step promptReceives (init (byteConfig 1)) orderlyRun).map
      (fun s => (decide (.ret 0 (.code .ok) ∈ s.trace), storedAs 0 1 s)) =
        some (true, [(0, [5])]) := by
    decide +kernel
  obtain ⟨s, hs, he⟩ := Option.map_eq_some_iff.mp hrun
  simp only [Prod.mk.injEq, decide_eq_true_eq] at he
  exact ⟨s, hs, he.1, he.2, no_message_lost (reach_of_runGuarded hs) (by decide)⟩

/-- A blocked receive is handed an element, and the channel closed before the receiver
is dispatched. -/
def servedClosedRun : List Act :=
  [spawnOk, spawnOk, .run] ++ turn ++ [Act.call (.channelRecv 0)] ++ turn ++
    [Act.call (.channelSend 0 fun _ => 5), .call (.channelClose 0), .call .yieldNow] ++ turn

theorem message_lost :
    ∃ s, runActs step (init (byteConfig 0)) servedClosedRun = some s ∧ sendCall s.trace 0 1 ∧
      .ret 1 (.code .ok) ∈ s.trace ∧ .store 0 0 1 [5] ∈ s.trace ∧
      .ret 0 (.code .closed) ∈ s.trace := by
  have hrun : (runActs step (init (byteConfig 0)) servedClosedRun).map
      (fun s => (decide (.call 1 (some 2) (.send 0) ∈ s.trace),
        decide (.ret 1 (.code .ok) ∈ s.trace), decide (.store 0 0 1 [5] ∈ s.trace),
        decide (.ret 0 (.code .closed) ∈ s.trace))) = some (true, true, true, true) := by
    decide +kernel
  obtain ⟨s, hs, he⟩ := Option.map_eq_some_iff.mp hrun
  simp only [Prod.mk.injEq, decide_eq_true_eq] at he
  exact ⟨s, hs, ⟨_, _, he.1, .inl rfl⟩, he.2.1, he.2.2.1, he.2.2.2⟩

end Libco
