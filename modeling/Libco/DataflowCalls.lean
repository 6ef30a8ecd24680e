import Libco.Dataflow

/-!
# Channel calls in a network

`co_channel_send`, `co_channel_recv` and `co_channel_close` up to their return or
context switch: each is one answer of the network, except for a receive that blocks.
-/

namespace Libco
open Lib

variable {N : Network Nat Nat (List UInt8)} {cfg : Config} {s s' t : St} {c h k : Nat}

section

variable {op : Op} {q : Request Nat (List UInt8)} (hr : Rest N cfg s s')
  (hl : leaks s (.call op) = false) (hs : step s (.call op) = some s')
  (hcur : s.coCurrent = some c) (hop : op.name.objs = [.chan h])
include hr hs hcur

theorem Rest.user : (s.co c).frame = .user :=
  ((hr.placed.current hs).user c).mpr hcur

theorem Rest.replies_caller : replies s c = told c s.trace :=
  replies_user (by rw [hr.user hs hcur]; rfl)

include hl hop

theorem Rest.call_turn (hothers : ∀ d, d ≠ c → told d s'.trace = told d s.trace)
    (hx : replies s' = replies s ∨ ∃ q y, N.prog c (told c s.trace) = some q ∧ q.stream = h ∧
      N.reply (replies s) q = some y ∧ replies s' = Network.answer (replies s) c y)
    (hh : Streams N h s' (replies s')) : Flows N cfg s' := by
  have huser := hr.user hs hcur
  refine hr.turn hl hs (fun h' hne hn => ?_) (by simp) hothers (fun h' _ hm => ?_) ?_ ?_ hh
  · rw [Act.names, hop, List.mem_singleton] at hn
    cases hn
    exact hne rfl
  · rw [huser] at hm
    cases hm
  · rw [huser]
    simp
  · rw [hr.replies_caller hs hcur]
    exact hx

omit hl hop in
/-- A call that returns at once has one answer for its caller. -/
theorem Rest.returns {es : List Event} {r : Ret} {y : Answer (List UInt8)}
    (htr : t.trace = s.trace ++ .call s.calls (some c) op.name :: es) (hes : ∀ k r, .ret k r ∉ es)
    (he : s' = t.emit (.ret s.calls r)) (hans : answerTo t.trace s.calls op.name r = some y)
    (hframe : ∀ d, (s'.co d).frame = (s.co d).frame) :
    (∀ d, d ≠ c → told d s'.trace = told d s.trace) ∧ told c s'.trace = told c s.trace ++ [y] ∧
      replies s' = Network.answer (replies s) c y := by
  have hcalls := hr.calls'
  rw [he] at hcalls
  have htold : ∀ d, told d s'.trace = told d s.trace ++ if c = d then [y] else [] := by
    intro d
    rw [he, told_call hcalls htr hes, hans]
    rfl
  have hothers : ∀ d, d ≠ c → told d s'.trace = told d s.trace := by
    intro d hd
    rw [htold d, if_neg (Ne.symm hd), List.append_nil]
  have hself : told c s'.trace = told c s.trace ++ [y] := by
    rw [htold c, if_pos rfl]
  refine ⟨hothers, hself, replies_answer ?_ fun d hd =>
    replies_same (by rw [hframe]) (hothers d hd)⟩
  rw [hr.replies_caller hs hcur, replies_user, hself]
  rw [hframe, hr.user hs hcur]
  rfl

omit hl hop in
/-- A coroutine that is blocked on the channel is not the caller. -/
theorem Rest.notCaller {d : Nat} (hf : (s.co d).frame ≠ .user) : d ≠ c := by
  rintro rfl
  exact hf (hr.user hs hcur)

omit hl hop in
theorem Rest.stillReceives (hframe : ∀ d, (s'.co d).frame = (s.co d).frame)
    (hothers : ∀ d, d ≠ c → told d s'.trace = told d s.trace) {d : Nat}
    (hf : (s'.co d).frame = .recv h) : N.prog d (told d s'.trace) = some (.receive h) := by
  rw [hframe] at hf
  rw [hothers d (hr.notCaller hs hcur (by rw [hf]; simp))]
  exact (hr.flows.streams h).receiving d hf

/-- A call that finds the channel closed. -/
theorem Rest.refused (hq : N.prog c (told c s.trace) = some q) (hqh : q.stream = h)
    (hy : N.reply (replies s) q = some .closed)
    (hans : ∀ tr k, answerTo tr k op.name (.code .closed) = some .closed)
    (hs' : s' = (beginCall s op).emit (.ret s.calls (.code .closed))) : Flows N cfg s' := by
  have htr : (beginCall s op).trace = s.trace ++ .call s.calls (some c) op.name :: [] := by
    rw [beginCall_trace, hcur]
  have hframe : ∀ d, (s'.co d).frame = (s.co d).frame := by
    intro d
    rw [hs']
    exact beginCall_frame s op d
  obtain ⟨hothers, -, hx⟩ := hr.returns hs hcur htr (by simp) hs' (hans _ _) hframe
  have hsame : SameFor (.chan h) s s' := by
    have hb : SameFor (.chan h) s (beginCall s op) :=
      (Move.invoke (a := .call op) rfl).footprint (hr.placed.current hs) (by simp)
    rw [hs']
    exact hb.trans (sameFor_of_co rfl rfl (fun _ _ => rfl) (fun _ _ => rfl)
      ⟨[.ret _ _], rfl, by simp [Event.obj]⟩)
  refine hr.call_turn hl hs hcur hop hothers (.inr ⟨q, _, hq, hqh, hy, hx⟩) ?_
  rw [hx]
  refine (hr.flows.streams h).same hsame (fun d hd => hothers d ?_) ?_
  · refine hr.notCaller hs hcur fun hf => ?_
    rw [hf] at hd
    cases hd
  · exact Network.answer_closed (by rw [hr.replies_caller hs hcur]; exact hq) hy

end

/-! ## Sends -/

section

variable {op : Op} {d : List UInt8} (hr : Rest N cfg s s') (hl : leaks s (.call op) = false)
  (hs : step s (.call op) = some s') (hcur : s.coCurrent = some c) (hop : op.name = .send h)
  (hq : N.prog c (told c s.trace) = some (.send h d)) (hopen : (s.chans h).closed = false)
include hr hl hs hcur hop hq hopen

/-- A send whose element was accepted. -/
theorem Rest.accepted (hoff : offers h s'.trace = offers h s.trace ++ [(s.calls, d)])
    (hdrop : drops h s'.trace = drops h s.trace)
    (hcl : (s'.chans h).closed = (s.chans h).closed)
    (hothers : ∀ e, e ≠ c →
      (s'.co e).frame = (s.co e).frame ∧ told e s'.trace = told e s.trace)
    (hself : ((s'.co c).frame = .user ∧ told c s'.trace = told c s.trace ++ [.done]) ∨
      ((s'.co c).frame = .send h ∧ told c s'.trace = told c s.trace))
    (hphase : RecvPhase N h s' (Network.answer (replies s) c .done)) : Flows N cfg s' := by
  have huser := hr.user hs hcur
  have hold := hr.flows.streams h
  have hcaller := hr.replies_caller hs hcur
  have hq' : N.prog c (replies s c) = some (.send h d) := by rw [hcaller]; exact hq
  have hy : N.reply (replies s) (.send h d) = some .done := by
    simp [Network.reply, hold.closed, hopen]
  have hx : replies s' = Network.answer (replies s) c .done := by
    refine replies_answer ?_ fun e he =>
      replies_same (by rw [(hothers e he).1]) (hothers e he).2
    rw [hcaller]
    rcases hself with ⟨hf, ht⟩ | ⟨hf, ht⟩
    · simp [replies, hf, ht, Frame.isSend]
    · simp [replies, hf, ht, Frame.isSend]
  refine hr.call_turn (h := h) hl hs hcur (by rw [hop]; rfl) (fun e he => (hothers e he).2)
    (.inr ⟨_, _, hq, rfl, hy, hx⟩) ?_
  rw [hx]
  refine ⟨hdrop.trans hold.whole, ?_, ?_, fun e hf => ?_, fun e hf => ?_, hphase⟩
  · rw [Network.sent_answer hq', hold.sent, hoff, List.map_append]
    simp [Network.sentIn]
  · rw [Network.isClosed_answer hq', hold.closed, hcl]
    simp [Network.closedIn]
  · by_cases he : e = c
    · subst he
      rcases hself with ⟨hf', -⟩ | ⟨-, ht⟩
      · rw [hf] at hf'
        cases hf'
      · exact ⟨hcl.trans hopen, d, by rw [ht]; exact hq⟩
    · rw [(hothers e he).2, hcl]
      rw [(hothers e he).1] at hf
      exact hold.sending e hf
  · have he : e ≠ c := by
      rintro rfl
      rcases hself with ⟨hf', -⟩ | ⟨hf', -⟩ <;> rw [hf] at hf' <;> cases hf'
    rw [(hothers e he).2]
    rw [(hothers e he).1] at hf
    exact hold.receiving e hf

end

/-- What handing an element to the receiver `e` does. -/
theorem deliver_effect {u : St} {data : Bytes} {e : Nat} {rest : List Nat}
    (ht : wakeAll (deliver u h k e data) (.recv h) [e] rest .wake = t) :
    t.trace = u.trace ++ [.offer h k (data.take (u.chans h).elemSize), .serve h (u.co e).call,
      .store h (u.co e).call k (data.take (u.chans h).elemSize), .ready e] ∧
      (∀ d, (t.co d).frame = (u.co d).frame) ∧
      (t.co e).state = .ready ∧ (t.co e).call = (u.co e).call ∧ t.chans = u.chans := by
  subst ht
  refine ⟨?_, fun d => ?_, ?_, ?_, rfl⟩
  · simp [wakeAll, deliver_trace]
  · by_cases hd : d = e <;> simp [wakeAll, deliver, St.modify, St.emit, hd, Routine.wake]
  · simp [wakeAll, deliver, St.modify, St.emit, Routine.wake]
  · simp [wakeAll, deliver, St.modify, St.emit, Routine.wake]

section

variable {data : Bytes} (hr : Rest N cfg s s')
  (hl : leaks s (.call (.channelSend h data)) = false)
  (hs : step s (.call (.channelSend h data)) = some s') (hcur : s.coCurrent = some c)
  (hq : N.prog c (told c s.trace) = some (.send h (data.take (s.chans h).elemSize)))
  (hopen : (s.chans h).closed = false)
include hr hl hs hcur hq hopen

omit hl in
/-- The receiver of the channel keeps its phase unless the element is for it. -/
theorem Rest.sendPhase (hqe : s.queues (.recv h) = []) (hle : s.trace <+: s'.trace)
    (hst : stores h s'.trace = stores h s.trace)
    (hcl : (s'.chans h).closed = (s.chans h).closed) (hself : (s'.co c).frame ≠ .recv h)
    (hco : ∀ d, d ≠ c → s'.co d = s.co d) :
    RecvPhase N h s' (Network.answer (replies s) c .done) := by
  have huser := hr.user hs hcur
  have hq' : N.prog c (replies s c) = some (.send h (data.take (s.chans h).elemSize)) := by
    rw [hr.replies_caller hs hcur]
    exact hq
  refine (hr.flows.streams h).phase.keep hle hst hcl ?_ (fun hf => ?_) (fun hf => ?_)
    fun hf hw => ?_
  · rw [Network.got_answer hq']
    simp [Network.gotIn]
  · by_cases hrc : N.receiver h = c
    · rw [hrc]
      exact hself
    · rw [hco _ hrc]
      exact hf
  · have hrc : N.receiver h ≠ c := by
      intro hrc
      rw [hrc, huser] at hf
      cases hf
    rw [hco _ hrc]
    exact ⟨hf, rfl, rfl⟩
  · rcases hw with hw | hw
    · have hm := queued_of_waits (hr.placed.current hs) hf hw
      rw [hqe] at hm
      cases hm
    · rw [hopen] at hw
      cases hw

/-- The element is handed to the receiver, which waits. -/
theorem Rest.handed {e : Nat} {rest : List Nat} (hqe : s.queues (.recv h) = e :: rest)
    (he : s' = (wakeAll (deliver (beginCall s (.channelSend h data)) h s.calls e data) (.recv h)
      [e] rest .wake).emit (.ret s.calls (.code .ok))) : Flows N cfg s' := by
  have hold := hr.flows.streams h
  have huser := hr.user hs hcur
  obtain ⟨hfe, hste, -⟩ := hr.calls.receiver (hr.placed.current hs) hqe
  have hec : e ≠ c := by
    rintro rfl
    rw [huser] at hfe
    cases hfe
  have hrecv : N.receiver h = e := N.receive_own (hold.receiving e hfe)
  have hut := beginCall_trace s (.channelSend h data)
  rw [hcur] at hut
  have huc := beginCall_chans s (.channelSend h data)
  have huf := beginCall_frame s (.channelSend h data)
  have hue : (beginCall s (.channelSend h data)).co e = s.co e := by
    simp [beginCall, hcur, St.modify, St.emit, hec]
  obtain ⟨t, ht⟩ : ∃ t, wakeAll (deliver (beginCall s (.channelSend h data)) h s.calls e data)
    (.recv h) [e] rest .wake = t := ⟨_, rfl⟩
  rw [ht] at he
  obtain ⟨htr, hf, hst', hcall', hch⟩ := deliver_effect ht
  rw [hut, huc, hue, List.append_assoc] at htr
  have hframe : ∀ d, (s'.co d).frame = (s.co d).frame := by
    intro d
    rw [he, ← huf d]
    exact hf d
  have hself : (s'.co e).state = .ready ∧ (s'.co e).call = (s.co e).call := by
    rw [he, ← hue]
    exact ⟨hst', hcall'⟩
  rw [huc] at hch
  have hch' : s'.chans = s.chans := by
    rw [he]
    exact hch
  have hst : stores h s'.trace = stores h s.trace ++
      [((s.co e).call, s.calls, data.take (s.chans h).elemSize)] := by
    rw [he]
    simp [St.emit, htr, stores]
  have hle : s.trace <+: s'.trace := by
    rw [he, St.emit, htr, List.append_assoc]
    exact List.prefix_append _ _
  obtain ⟨hothers, htold, -⟩ := hr.returns hs hcur htr (by simp) he rfl hframe
  have hgot : N.got h (Network.answer (replies s) c .done) = N.got h (replies s) := by
    rw [Network.got_answer (by rw [hr.replies_caller hs hcur]; exact hq)]
    simp [Network.gotIn]
  refine hr.accepted hl hs hcur rfl hq hopen ?_ ?_ (by rw [hch'])
    (fun d hd => ⟨hframe d, hothers d hd⟩) (.inl ⟨(hframe c).trans huser, htold⟩) ?_
  · rw [he]
    simp [St.emit, htr, offers]
  · rw [he]
    simp [St.emit, htr, drops]
  · obtain ⟨hg, hret, -⟩ := hold.phase.blocked (by rw [hrecv]; exact hfe) (by rw [hrecv]; exact hste)
    refine .served ?_ ?_ hst ?_ (hg.trans hgot.symm) (hret.mono hle) (by rw [hch', hopen])
    · rw [hframe, hrecv]
      exact hfe
    · rw [hrecv, hself.1]
    · rw [hrecv, hself.2]

/-- The element goes to the ring. -/
theorem Rest.buffered (hqe : s.queues (.recv h) = [])
    (he : s' = (((beginCall s (.channelSend h data)).setChan h
      (((beginCall s (.channelSend h data)).chans h).pushTail s.calls data)).emit
        (.offer h s.calls (data.take ((beginCall s (.channelSend h data)).chans h).elemSize))).emit
          (.ret s.calls (.code .ok))) : Flows N cfg s' := by
  have huser := hr.user hs hcur
  have hut := beginCall_trace s (.channelSend h data)
  rw [hcur] at hut
  have huc := beginCall_chans s (.channelSend h data)
  have huf := beginCall_frame s (.channelSend h data)
  have huo : ∀ d, d ≠ c → (beginCall s (.channelSend h data)).co d = s.co d := by
    intro d hd
    simp [beginCall, hcur, St.modify, St.emit, hd]
  generalize beginCall s (.channelSend h data) = u at he hut huc huf huo
  rw [huc] at he
  generalize ht : (u.setChan h ((s.chans h).pushTail s.calls data)).emit
    (.offer h s.calls (data.take (s.chans h).elemSize)) = t at he
  have htr : t.trace = s.trace ++ .call s.calls (some c) (.send h) ::
      [Event.offer h s.calls (data.take (s.chans h).elemSize)] := by
    rw [← ht]
    simp [St.emit, St.setChan, hut, Op.name]
  have hco : s'.co = u.co := by
    rw [he, ← ht]
    rfl
  have hcl : (s'.chans h).closed = (s.chans h).closed := by
    rw [he, ← ht]
    simp [St.emit, St.setChan, Channel.pushTail]
  have hframe : ∀ d, (s'.co d).frame = (s.co d).frame := by
    intro d
    rw [hco, huf]
  have hself : (s'.co c).frame = .user := by
    rw [hframe, huser]
  obtain ⟨hothers, htold, -⟩ := hr.returns hs hcur htr (by simp) he rfl hframe
  refine hr.accepted hl hs hcur rfl hq hopen ?_ ?_ hcl
    (fun d hd => ⟨hframe d, hothers d hd⟩) (.inl ⟨hself, htold⟩)
    (hr.sendPhase hs hcur hq hopen hqe ?_ ?_ hcl ?_ fun d hd => ?_)
  · rw [he]
    simp [St.emit, htr, offers]
  · rw [he]
    simp [St.emit, htr, drops]
  · rw [he, St.emit, htr, List.append_assoc]
    exact List.prefix_append _ _
  · rw [he]
    simp [St.emit, htr, stores]
  · rw [hself]
    simp
  · rw [hco, huo d hd]

/-- A send that blocks. -/
theorem Rest.sendBlocks (hqe : s.queues (.recv h) = [])
    (hco : s'.co = Function.update (beginCall s (.channelSend h data)).co c
      { (beginCall s (.channelSend h data)).co c with
        chanData := data, state := .waiting, frame := .send h })
    (hch : s'.chans = s.chans)
    (htr : s'.trace = s.trace ++ [.call s.calls (some c) (.send h),
      Event.offer h s.calls (data.take (s.chans h).elemSize)]) : Flows N cfg s' := by
  have htold : ∀ d, told d s'.trace = told d s.trace := by
    intro d
    rw [htr, told_append (by simp)]
  have hothers : ∀ d, d ≠ c → s'.co d = s.co d := by
    intro d hd
    rw [hco, Function.update_of_ne hd]
    simp [beginCall, hcur, St.modify, St.emit, hd]
  have hself : (s'.co c).frame = .send h := by
    rw [hco, Function.update_self]
  refine hr.accepted hl hs hcur rfl hq hopen ?_ ?_ (by rw [hch])
    (fun d hd => ⟨by rw [hothers d hd], htold d⟩) (.inr ⟨hself, htold c⟩)
    (hr.sendPhase hs hcur hq hopen hqe ?_ ?_ (by rw [hch]) ?_ hothers)
  · rw [htr]
    simp [offers]
  · rw [htr]
    simp [drops]
  · rw [htr]
    exact List.prefix_append _ _
  · rw [htr]
    simp [stores]
  · rw [hself]
    simp

omit hopen in
/-- `co_channel_send` by the sender of the channel. -/
theorem Rest.send : Flows N cfg s' := by
  have hold := hr.flows.streams h
  obtain ⟨-, he⟩ := step_call hs
  have hut := beginCall_trace s (.channelSend h data)
  rw [hcur] at hut
  have huc := beginCall_chans s (.channelSend h data)
  have huq := beginCall_queues s (.channelSend h data)
  have hucur := (beginCall_coCurrent s (.channelSend h data)).trans hcur
  simp only [runOp, coChannelSend, huc] at he
  cases hcl : (s.chans h).closed with
  | true =>
    refine hr.refused hl hs hcur rfl hq rfl ?_ (fun _ _ => rfl) ?_
    · simp [Network.reply, hold.closed, hcl]
    · rw [he, if_pos hcl]
      rfl
  | false =>
    rw [if_neg (by simp [hcl])] at he
    cases hp : placeElement (beginCall s (.channelSend h data)) h s.calls data with
    | some t =>
      rw [hp] at he
      obtain ⟨e, rest, hqe, rfl⟩ | ⟨hqe, hroom, rfl⟩ := placeElement_cases hp
      · rw [huq] at hqe
        exact hr.handed hl hs hcur hq hcl hqe he
      · rw [huq] at hqe
        exact hr.buffered hl hs hcur hq hcl hqe he
    | none =>
      rw [hp, hucur] at he
      simp only [settle] at he
      obtain ⟨hqe, -⟩ := placeElement_none hp
      rw [huq] at hqe
      refine hr.sendBlocks hl hs hcur hq hcl hqe ?_ ?_ ?_
      · rw [he]
        simp [coQueuePushBack, St.modify, St.emit]
      · rw [he]
        exact huc
      · rw [he]
        simp [coQueuePushBack, St.modify, St.emit, hut, huc, Op.name]

end

/-! ## Receives -/

/-- What a receive that succeeds at once does. -/
theorem takeElement_effect (ht : takeElement s h k = some t) :
    ∃ (j : Nat) (v : List UInt8) (ws : List Nat),
      t.trace = s.trace ++ ([Event.store h k j v] ++ ws.map .ready) ∧
      (∀ d, (t.co d).frame = (s.co d).frame) ∧ (t.chans h).closed = (s.chans h).closed := by
  obtain ⟨hpos, hq, rfl⟩ | ⟨c, rest, hpos, hq, rfl⟩ | ⟨c, rest, hzero, hq, rfl⟩ :=
    takeElement_cases ht
  · refine ⟨_, _, [], rfl, fun _ => rfl, ?_⟩
    simp [St.setChan, Channel.popHead]
  · refine ⟨_, _, [c], List.append_assoc _ _ _, fun d => ?_, ?_⟩
    · by_cases hd : d = c <;> simp [wakeAll, St.storeHead, St.setChan, St.emit, hd, Routine.wake]
    · simp [wakeAll, St.setChan, Channel.pushTail, Channel.popHead]
  · refine ⟨_, _, [c], List.append_assoc _ _ _, fun d => ?_, rfl⟩
    by_cases hd : d = c <;> simp [wakeAll, St.emit, hd, Routine.wake]

/-- A channel with an empty ring and no blocked sender. -/
theorem Flows.drained (hf : Flows N cfg s) (hq : s.queues (.send h) = [])
    (hz : (s.chans h).count = 0) : (stores h s.trace).map Prod.snd = offers h s.trace := by
  have hfifo := ((hf.fifo h).sound (hf.leakless.ledger h).2).fifo
  simpa [hq, Channel.contents, hz, (hf.streams h).whole] using hfifo

/-- The element of the receive that returns. -/
theorem elementFor_last {tr : List Event} {past : List (Nat × Nat × List UInt8)}
    {y : Nat × Nat × List UInt8} (hst : stores h tr = past ++ [y])
    (hold : ∀ z ∈ past, z.1 ≠ y.1) : elementFor h y.1 tr = some y.2.2 := by
  have hnone : past.find? (fun z => z.1 == y.1) = none := by
    rw [List.find?_eq_none]
    intro z hz
    simpa using hold z hz
  rw [elementFor, hst, List.find?_append, hnone]
  simp

/-- What the network answers to the receive an element was stored for. -/
theorem reply_receive {x : Nat → List (Answer (List UInt8))}
    {past : List (Nat × Nat × List UInt8)} {y : Nat × Nat × List UInt8} {more : List (Nat × List UInt8)}
    {off : List (Nat × List UInt8)} (hsent : N.sent h x = off.map Prod.snd)
    (hgot : past.map (fun z => z.2.2) = N.got h x)
    (hoff : off = (past ++ [y]).map Prod.snd ++ more) :
    N.reply x (.receive h) = some (.value y.2.2) := by
  have hlen : (N.got h x).length = past.length := by rw [← hgot, List.length_map]
  have hat : (N.sent h x)[(N.got h x).length]? = some y.2.2 := by
    rw [hsent, hoff, hlen]
    simp
  simp [Network.reply, hat]

/-- What it answers when nothing is left. -/
theorem reply_drained {x : Nat → List (Answer (List UInt8))}
    {past : List (Nat × Nat × List UInt8)} {off : List (Nat × List UInt8)}
    (hsent : N.sent h x = off.map Prod.snd) (hgot : past.map (fun z => z.2.2) = N.got h x)
    (hall : past.map Prod.snd = off) (hclosed : N.isClosed h x = true) :
    N.reply x (.receive h) = some .closed := by
  have hat : (N.sent h x)[(N.got h x).length]? = none := by
    rw [hsent, ← hall, ← hgot]
    simp
  simp [Network.reply, hat, hclosed]

section

variable {op : Op} (hr : Rest N cfg s s') (hl : leaks s (.call (.channelRecv h)) = false)
  (hs : step s (.call (.channelRecv h)) = some s') (hcur : s.coCurrent = some c)
  (hq : N.prog c (told c s.trace) = some (.receive h))
include hr hs hcur hq

/-- The receiver of a channel that is about to receive has got all that was stored. -/
theorem Rest.idle : (stores h s.trace).map (fun y => y.2.2) = N.got h (replies s) ∧
    Returned (stores h s.trace) s.trace := by
  have huser := hr.user hs hcur
  have hrecv : N.receiver h = c := N.receive_own hq
  cases (hr.flows.streams h).phase with
  | away hf hg hret => exact ⟨hg, hret⟩
  | waits hf | served hf | shut hf =>
    rw [hrecv, huser] at hf
    cases hf

include hl

/-- A receive that finds an element. -/
theorem Rest.received
    (ht : takeElement (beginCall s (.channelRecv h)) h s.calls = some t)
    (he : s' = t.emit (.ret s.calls (.code .ok))) : Flows N cfg s' := by
  have huser := hr.user hs hcur
  have hold := hr.flows.streams h
  have hcaller := hr.replies_caller hs hcur
  have hq' : N.prog c (replies s c) = some (.receive h) := by rw [hcaller]; exact hq
  obtain ⟨hgot, hret⟩ := hr.idle hs hcur hq
  obtain ⟨j, v, ws, htr, hframe, hcl⟩ := takeElement_effect ht
  rw [beginCall_trace, hcur, List.append_assoc] at htr
  rw [beginCall_chans] at hcl
  have hst : stores h t.trace = stores h s.trace ++ [(s.calls, j, v)] := by
    rw [htr]
    simp only [stores_append, (silent_ready ws).stores]
    simp [stores]
  have hst' : stores h s'.trace = stores h s.trace ++ [(s.calls, j, v)] := by
    rw [he, St.emit, stores_append, hst]
    simp [stores]
  have hoff : offers h s'.trace = offers h s.trace := by
    rw [he, St.emit, htr]
    simp only [offers_append, (silent_ready ws).offers]
    simp [offers]
  have hdrop : drops h s'.trace = drops h s.trace := by
    rw [he, St.emit, htr]
    simp only [drops_append, (silent_ready ws).drops]
    simp [drops]
  have hframe' : ∀ d, (s'.co d).frame = (s.co d).frame := by
    intro d
    rw [he, ← beginCall_frame s (.channelRecv h) d]
    exact hframe d
  have hcl' : (s'.chans h).closed = (s.chans h).closed := by
    rw [he]
    exact hcl
  have hans : answerTo t.trace s.calls (.recv h) (.code .ok) = some (.value v) := by
    have := elementFor_last (y := (s.calls, j, v)) hst fun z hz heq => by
      obtain ⟨r, hr'⟩ := hret z hz
      have := hr.calls.ret_lt hr'
      dsimp only at heq
      omega
    simp [answerTo, this]
  obtain ⟨hothers, -, hx⟩ := hr.returns hs hcur htr (by simp) he hans hframe'
  have hy : N.reply (replies s) (.receive h) = some (.value v) := by
    have hfifo := ((hr.fifo h).sound (hr.leakless.ledger h).2).fifo
    rw [hst', hoff, List.append_assoc] at hfifo
    exact reply_receive (y := (s.calls, j, v)) hold.sent hgot hfifo.symm
  have hrecv : N.receiver h = c := N.receive_own hq
  refine hr.call_turn (h := h) hl hs hcur rfl hothers (.inr ⟨_, _, hq, rfl, hy, hx⟩) ?_
  rw [hx]
  refine ⟨hdrop.trans hold.whole, ?_, ?_, fun d hf => ?_,
    fun d hf => hr.stillReceives hs hcur hframe' hothers hf, ?_⟩
  · rw [Network.sent_answer hq', hold.sent, hoff]
    simp [Network.sentIn]
  · rw [Network.isClosed_answer hq', hold.closed, hcl']
    simp [Network.closedIn]
  · rw [hframe'] at hf
    rw [hothers d (hr.notCaller hs hcur (by rw [hf]; simp)), hcl']
    exact hold.sending d hf
  · refine .away ?_ ?_ fun y hy => ?_
    · rw [hrecv, hframe', huser]
      simp
    · rw [hst', List.map_append, hgot, Network.got_answer hq']
      simp [Network.gotIn]
    · rw [he]
      simp only [St.emit, List.mem_append, List.mem_singleton]
      rw [hst', List.mem_append, List.mem_singleton] at hy
      rcases hy with hy | rfl
      · obtain ⟨r, hr'⟩ := hret y hy
        refine ⟨r, .inl ?_⟩
        rw [htr]
        exact List.mem_append_left _ hr'
      · exact ⟨_, .inr rfl⟩

/-- A receive that blocks. -/
theorem Rest.receiveBlocks (hqs : s.queues (.send h) = []) (hz : (s.chans h).count = 0)
    (hco : s'.co = Function.update (beginCall s (.channelRecv h)).co c
      { (beginCall s (.channelRecv h)).co c with state := .waiting, frame := .recv h })
    (hch : s'.chans = s.chans)
    (htr : s'.trace = s.trace ++ [.call s.calls (some c) (.recv h), .recvWait h s.calls]) :
    Flows N cfg s' := by
  have huser := hr.user hs hcur
  have hold := hr.flows.streams h
  obtain ⟨hgot, hret⟩ := hr.idle hs hcur hq
  have htold : ∀ d, told d s'.trace = told d s.trace := by
    intro d
    rw [htr, told_append (by simp)]
  have hframe : ∀ d, d ≠ c → (s'.co d).frame = (s.co d).frame := by
    intro d hd
    rw [hco, Function.update_of_ne hd]
    exact beginCall_frame s (.channelRecv h) d
  have hself : (s'.co c).frame = .recv h ∧ (s'.co c).state = .waiting := by
    rw [hco, Function.update_self]
    exact ⟨rfl, rfl⟩
  have hx : replies s' = replies s := by
    funext d
    refine replies_same ?_ (htold d)
    by_cases hd : d = c
    · rw [hd, hself.1, huser]
      rfl
    · rw [hframe d hd]
  have hst : stores h s'.trace = stores h s.trace := by
    rw [htr]
    simp [stores]
  have hoff : offers h s'.trace = offers h s.trace := by
    rw [htr]
    simp [offers]
  refine hr.call_turn (h := h) hl hs hcur rfl (fun d _ => htold d) (.inl hx) ?_
  rw [hx]
  refine ⟨?_, by rw [hold.sent, hoff], by rw [hold.closed, hch], fun d hf => ?_, fun d hf => ?_, ?_⟩
  · rw [htr, drops_append, hold.whole]
    simp [drops]
  · have hd : d ≠ c := by
      rintro rfl
      rw [hself.1] at hf
      cases hf
    rw [htold, hch]
    rw [hframe d hd] at hf
    exact hold.sending d hf
  · rw [htold]
    by_cases hd : d = c
    · rw [hd]
      exact hq
    · rw [hframe d hd] at hf
      exact hold.receiving d hf
  · have hrecv : N.receiver h = c := N.receive_own hq
    refine .waits ?_ ?_ (by rw [hst, hgot]) ?_ ?_
    · rw [hrecv]
      exact hself.1
    · rw [hrecv]
      exact hself.2
    · rw [hst, htr]
      exact hret.mono (List.prefix_append _ _)
    · rw [hst, hoff]
      exact hr.flows.drained hqs hz

/-- `co_channel_recv` by the receiver of the channel. -/
theorem Rest.recv : Flows N cfg s' := by
  have hold := hr.flows.streams h
  obtain ⟨hgot, -⟩ := hr.idle hs hcur hq
  obtain ⟨-, he⟩ := step_call hs
  have hut := beginCall_trace s (.channelRecv h)
  rw [hcur] at hut
  have huc := beginCall_chans s (.channelRecv h)
  have huq := beginCall_queues s (.channelRecv h)
  have hucur := (beginCall_coCurrent s (.channelRecv h)).trans hcur
  simp only [runOp, coChannelRecv, huc] at he
  cases ht : takeElement (beginCall s (.channelRecv h)) h s.calls with
  | some t =>
    rw [ht] at he
    exact hr.received hl hs hcur hq ht he
  | none =>
    rw [ht] at he
    obtain ⟨hqs, hz⟩ := takeElement_none ht
    rw [huq] at hqs
    rw [huc] at hz
    cases hcl : (s.chans h).closed with
    | true =>
      refine hr.refused hl hs hcur rfl hq rfl ?_ (fun _ _ => rfl) ?_
      · exact reply_drained hold.sent hgot (hr.flows.drained hqs hz) (hold.closed.trans hcl)
      · simpa [hcl, settle] using he
    | false =>
      simp only [hcl, Bool.false_eq_true, if_false, hucur, settle] at he
      refine hr.receiveBlocks hl hs hcur hq hqs hz ?_ ?_ ?_
      · rw [he]
        simp [coQueuePushBack, St.modify, St.emit]
      · rw [he]
        exact huc
      · rw [he]
        simp [coQueuePushBack, St.modify, St.emit, hut, Op.name]

end

/-! ## Closing -/

/-- The sender of a channel that runs is not blocked on it. -/
theorem Streams.noSender {run : Prop} {cur : Option Nat} {x : Nat → List (Answer (List UInt8))}
    (hold : Streams N h s x) (hi : Inv run cur s.toSched)
    (huser : (s.co (N.sender h)).frame = .user) : s.queues (.send h) = [] := by
  refine List.eq_nil_iff_forall_not_mem.mpr fun e he => ?_
  have hfe : (s.co e).frame = .send h := by
    obtain ⟨-, hw⟩ := Routine.home_wait (hi.mem_queue he) (by simp)
    cases hf : (s.co e).frame <;> simp [hf, Frame.waitQueue] at hw ⊢
    exact hw
  obtain ⟨-, d, hd⟩ := hold.sending e hfe
  rw [N.send_own hd, hfe] at huser
  cases huser

/-- What the close does, with nobody blocked in a send. -/
theorem close_effect {u : St} {ws : List Nat} (ht : wakeAll (wakeAll
    ((u.setChan h { u.chans h with closed := true }).emit (.close h [])) (.recv h) ws [] .wake)
      (.send h) [] [] .wake = t) :
    t.trace = u.trace ++ ([.close h []] ++ ws.map .ready) ∧
      (∀ d, t.co d = if d ∈ ws then (u.co d).wake else u.co d) ∧ (t.chans h).closed = true := by
  subst ht
  refine ⟨?_, fun d => ?_, ?_⟩ <;> simp [wakeAll, St.setChan, St.emit]

/-- The receiver of a channel that is closed, unless it was handed an element and is not
dispatched yet. -/
theorem RecvPhase.close {x x' : Nat → List (Answer (List UInt8))} (hp : RecvPhase N h s x)
    (hi : Inv run cur s.toSched) (hcl : (s.chans h).closed = false)
    (hg : closesOver .recv s (.call (.channelClose h)) = false) (hle : s.trace <+: s'.trace)
    (hst : stores h s'.trace = stores h s.trace) (hoff : offers h s'.trace = offers h s.trace)
    (hframe : ∀ d, (s'.co d).frame = (s.co d).frame)
    (hwoken : ∀ d, d ∈ s.queues (.recv h) → (s'.co d).state = .ready)
    (hcl' : (s'.chans h).closed = true) (hgot : N.got h x' = N.got h x) :
    RecvPhase N h s' x' := by
  cases hp with
  | away hf hg' hret =>
    refine .away ?_ ?_ ?_
    · rw [hframe]
      exact hf
    · rw [hst, hg', hgot]
    · rw [hst]
      exact hret.mono hle
  | waits hf hw hg' hret hall =>
    refine .shut ?_ (hwoken _ (queued_of_waits hi hf hw)) ?_ ?_ ?_ hcl'
    · rw [hframe]
      exact hf
    · rw [hst, hg', hgot]
    · rw [hst]
      exact hret.mono hle
    · rw [hst, hoff, hall]
  | served hf hw =>
    have hm : N.receiver h ∈ s.queues .ready :=
      hi.mem_of_home (by simp [Routine.home, hf, hw, Frame.suspended])
    have hover : closesOver .recv s (.call (.channelClose h)) = true := by
      simp only [closesOver, hcl, Bool.not_false, Bool.true_and, List.any_eq_true, beq_iff_eq]
      exact ⟨_, hm, hf⟩
    rw [hover] at hg
    cases hg
  | shut _ _ _ _ _ hclosed =>
    rw [hcl] at hclosed
    cases hclosed

section

variable (hr : Rest N cfg s s') (hl : leaks s (.call (.channelClose h)) = false)
  (hs : step s (.call (.channelClose h)) = some s') (hcur : s.coCurrent = some c)
  (hq : N.prog c (told c s.trace) = some (.close h))
  (hg : closesOver .recv s (.call (.channelClose h)) = false)
include hr hl hs hcur hq hg

/-- The close of an open channel. -/
theorem Rest.closed (hcl : (s.chans h).closed = false)
    (ht : wakeAll (wakeAll (((beginCall s (.channelClose h)).setChan h
      { (beginCall s (.channelClose h)).chans h with closed := true }).emit (.close h []))
        (.recv h) (s.queues (.recv h)) [] .wake) (.send h) [] [] .wake = t)
    (he : s' = t.emit (.ret s.calls (.code .ok))) : Flows N cfg s' := by
  have huser := hr.user hs hcur
  have hold := hr.flows.streams h
  have hcaller := hr.replies_caller hs hcur
  have hq' : N.prog c (replies s c) = some (.close h) := by rw [hcaller]; exact hq
  obtain ⟨htr, hco, hch⟩ := close_effect ht
  rw [beginCall_trace, hcur, List.append_assoc] at htr
  have hframe : ∀ d, (s'.co d).frame = (s.co d).frame := by
    intro d
    rw [he, ← beginCall_frame s (.channelClose h) d]
    change (t.co d).frame = _
    rw [hco]
    split <;> rfl
  obtain ⟨hothers, -, hx⟩ := hr.returns hs hcur htr (by simp) he rfl hframe
  have hy : N.reply (replies s) (.close h) = some .done := by
    simp [Network.reply, hold.closed, hcl]
  have hst : stores h s'.trace = stores h s.trace := by
    rw [he, St.emit, htr]
    simp only [stores_append, (silent_ready _).stores]
    simp [stores]
  have hoff : offers h s'.trace = offers h s.trace := by
    rw [he, St.emit, htr]
    simp only [offers_append, (silent_ready _).offers]
    simp [offers]
  have hdrop : drops h s'.trace = drops h s.trace := by
    rw [he, St.emit, htr]
    simp only [drops_append, (silent_ready _).drops]
    simp [drops]
  have hle : s.trace <+: s'.trace := by
    rw [he, St.emit, htr, List.append_assoc]
    exact List.prefix_append _ _
  have hch' : (s'.chans h).closed = true := by
    rw [he]
    exact hch
  refine hr.call_turn (h := h) hl hs hcur rfl hothers (.inr ⟨_, _, hq, rfl, hy, hx⟩) ?_
  rw [hx]
  refine ⟨hdrop.trans hold.whole, ?_, ?_, fun d hf => ?_,
    fun d hf => hr.stillReceives hs hcur hframe hothers hf, ?_⟩
  · rw [Network.sent_answer hq', hold.sent, hoff]
    simp [Network.sentIn]
  · rw [Network.isClosed_answer hq', hch']
    simp [Network.closedIn]
  · -- the sender is the one that closes
    rw [hframe] at hf
    obtain ⟨-, x, hd⟩ := hold.sending d hf
    have hcd : c = d := (N.close_own hq).symm.trans (N.send_own hd)
    rw [← hcd, huser] at hf
    cases hf
  · refine hold.phase.close (hr.placed.current hs) hcl hg hle hst hoff hframe (fun d hd => ?_) hch' ?_
    · rw [he]
      change (t.co d).state = _
      rw [hco, if_pos hd]
      rfl
    · rw [Network.got_answer hq']
      simp [Network.gotIn]

/-- `co_channel_close` by the sender of the channel. -/
theorem Rest.close : Flows N cfg s' := by
  have hold := hr.flows.streams h
  obtain ⟨-, he⟩ := step_call hs
  have huc := beginCall_chans s (.channelClose h)
  have huq := beginCall_queues s (.channelClose h)
  cases hcl : (s.chans h).closed with
  | true =>
    refine hr.refused hl hs hcur rfl hq rfl ?_ (fun _ _ => rfl) ?_
    · simp [Network.reply, hold.closed, hcl]
    · simpa [runOp, coChannelClose, huc, hcl, settle] using he
  | false =>
    have huser := hr.user hs hcur
    have hsend : s.queues (.send h) = [] :=
      hold.noSender (hr.placed.current hs) (by rw [N.close_own hq]; exact huser)
    simp only [runOp] at he
    rw [coChannelClose_eq (by rw [huc]; exact hcl), huq, hsend] at he
    exact hr.closed hl hs hcur hq hg hcl rfl he

end

end Libco
