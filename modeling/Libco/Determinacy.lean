import Libco.DataflowCalls

/-!
# Networks of coroutines are determinate

The dispatch of a coroutine that was suspended on a channel ends the case analysis:
every step is a turn of the process network, or none. Two runs of one program then
agree as far as both have come.
-/

namespace Libco
open Lib

variable {N : Network Nat Nat (List UInt8)} {cfg : Config} {s s' : St} {a : Act} {c h : Nat}

/-! ## Dispatches -/

/-- The dispatch of a coroutine that is suspended on a channel. -/
structure Resumes (h c : Nat) (r : CoError) (s s' : St) : Prop where
  trace : s'.trace = s.trace ++ [Event.dispatch c, .ret (s.co c).call (.code r)]
  frame : (s'.co c).frame = .user
  others : ∀ d, d ≠ c → s'.co d = s.co d
  chans : s'.chans = s.chans
  learned : ∀ d op, (s.co c).frame.fits op = true → told d s'.trace = told d s.trace ++
    if c = d then (answerTo (s.trace ++ [.dispatch c]) (s.co c).call op (.code r)).toList else []

theorem Rest.resumes {e : ResumeEnv} {rest : List Nat} (hr : Rest N cfg s s')
    (hs : step s (.schedule e) = some s') (hq : s.queues .ready = c :: rest)
    (hf : (s.co c).frame = .send h ∨ (s.co c).frame = .recv h) :
    Resumes h c (if (s.chans h).closed then .closed else .ok) s s' := by
  have hne : (s.co c).frame ≠ .entry := by
    rcases hf with hf | hf <;> rw [hf] <;> simp
  have hin : (s.co c).inCall = true := by
    rcases hf with hf | hf <;> simp [Routine.inCall, hf, Frame.suspended]
  have he := (step_schedule hs).2.trans (schedule_resumes hq hne)
  generalize ht : switchTo { s with queues := Function.update s.queues .ready rest } c = t at he
  have htr : t.trace = s.trace ++ [.dispatch c] := by rw [← ht]; rfl
  have htc : t.chans = s.chans := by rw [← ht]; rfl
  have htf : (t.co c).frame = .user := by
    rw [← ht]
    simp [switchTo, St.modify, St.emit]
  have hto : ∀ d, d ≠ c → t.co d = s.co d := by
    intro d hd
    rw [← ht]
    simp [switchTo, St.modify, St.emit, hd]
  have hres : s' = t.emit (.ret (s.co c).call
      (.code (if (s.chans h).closed then .closed else .ok))) := by
    rw [he]
    rcases hf with hf | hf <;> rw [hf] <;> simp only [resume, resumeChannel, settle, htc]
  have hcalls := hr.calls'
  rw [hres] at hcalls
  refine ⟨?_, ?_, ?_, ?_, ?_⟩
  · rw [hres, St.emit, htr, List.append_assoc]
    rfl
  · rw [hres]
    exact htf
  · rw [hres]
    exact hto
  · rw [hres]
    exact htc
  · intro d op hfits
    obtain ⟨op', hop, hfits'⟩ := hr.calls.inside c hin
    have hsame : op' = op := by
      rcases hf with hf | hf <;> rw [hf] at hfits hfits' <;>
        cases op <;> simp [Frame.fits] at hfits <;> cases op' <;> simp [Frame.fits] at hfits' <;>
        rw [← hfits, ← hfits']
    subst hsame
    have hm : .call (s.co c).call (some c) op' ∈ t.trace := by
      rw [htr]
      exact List.mem_append_left _ hop
    rw [hres, told_ret hcalls hm, htr, told_append (by simp)]
    simp

/-- The history of the channel, and those that are not dispatched. -/
theorem Resumes.streams {r : CoError} {x x' : Nat → List (Answer (List UInt8))}
    (hres : Resumes h c r s s') (hold : Streams N h s x)
    (hothers : ∀ d, d ≠ c → told d s'.trace = told d s.trace)
    (hx : N.sent h x' = N.sent h x) (hx' : N.isClosed h x' = N.isClosed h x)
    (hphase : RecvPhase N h s' x') : Streams N h s' x' := by
  have hne : ∀ {d : Nat} {f : Frame}, (s'.co d).frame = f → f ≠ .user → d ≠ c := by
    rintro d f hf hu rfl
    exact hu (hf ▸ hres.frame)
  refine ⟨?_, ?_, ?_, fun d hf => ?_, fun d hf => ?_, hphase⟩
  · rw [hres.trace, drops_append, hold.whole]
    simp [drops]
  · rw [hx, hold.sent, hres.trace, offers_append]
    simp [offers]
  · rw [hx', hold.closed, hres.chans]
  · have hd := hne hf (by simp)
    rw [hres.others d hd] at hf
    rw [hothers d hd, hres.chans]
    exact hold.sending d hf
  · have hd := hne hf (by simp)
    rw [hres.others d hd] at hf
    rw [hothers d hd]
    exact hold.receiving d hf

/-- A step at the channel a dispatched coroutine was suspended on. -/
theorem Rest.scheduled {e : ResumeEnv} {rest : List Nat} (hr : Rest N cfg s s')
    (hl : leaks s (.schedule e) = false) (hs : step s (.schedule e) = some s')
    (hq : s.queues .ready = c :: rest)
    (hf : (s.co c).frame = .send h ∨ (s.co c).frame = .recv h)
    (hx : replies s' = replies s ∨ ∃ q y, N.prog c (replies s c) = some q ∧ q.stream = h ∧
      N.reply (replies s) q = some y ∧ replies s' = Network.answer (replies s) c y)
    (hothers : ∀ d, d ≠ c → told d s'.trace = told d s.trace)
    (hh : Streams N h s' (replies s')) : Flows N cfg s' := by
  have hobjs : ∀ h', h' ≠ h → Obj.chan h' ∉ (s.co c).frame.mentions ∧
      Obj.chan h' ∉ (s.co c).frame.objs := by
    intro h' hne
    rcases hf with hf | hf <;> simp [hf, Frame.mentions, Frame.objs, hne]
  refine hr.turn (h := h) hl hs (fun h' hne hn => ?_) (by simp) hothers
    (fun h' hne => (hobjs h' hne).2) ?_ hx hh
  · obtain ⟨c', rest', hq', hm⟩ := hn
    rw [hq, List.cons.injEq] at hq'
    exact (hobjs h' hne).1 (hq'.1 ▸ hm)
  · rcases hf with hf | hf <;> rw [hf] <;> simp

/-- A send that blocked returns. -/
theorem Rest.sendReturns {e : ResumeEnv} {rest : List Nat} (hr : Rest N cfg s s')
    (hl : leaks s (.schedule e) = false) (hs : step s (.schedule e) = some s')
    (hq : s.queues .ready = c :: rest) (hf : (s.co c).frame = .send h) : Flows N cfg s' := by
  have hold := hr.flows.streams h
  obtain ⟨hopen, d, hd⟩ := hold.sending c hf
  have hres := hr.resumes hs hq (.inl hf)
  rw [hopen] at hres
  have htold : ∀ d, told d s'.trace = told d s.trace ++ if c = d then [.done] else [] := by
    intro d
    exact hres.learned d (.send h) (by simp [hf, Frame.fits])
  have hothers : ∀ d, d ≠ c → told d s'.trace = told d s.trace := by
    intro d hd
    rw [htold d, if_neg (Ne.symm hd), List.append_nil]
  have hx : replies s' = replies s := by
    funext d
    by_cases hdc : d = c
    · subst hdc
      simp [replies, htold, hf, hres.frame, Frame.isSend]
    · exact replies_same (by rw [hres.others d hdc]) (hothers d hdc)
  refine hr.scheduled hl hs hq (.inl hf) (.inl hx) hothers ?_
  rw [hx]
  refine hres.streams hold hothers rfl rfl ?_
  refine hold.phase.keep ?_ ?_ (by rw [hres.chans]) rfl (fun hf' => ?_) (fun hf' => ?_)
    fun _ _ => ?_
  · rw [hres.trace]
    exact List.prefix_append _ _
  · rw [hres.trace, stores_append]
    simp [stores]
  · by_cases hrc : N.receiver h = c
    · rw [hrc, hres.frame]
      simp
    · rw [hres.others _ hrc]
      exact hf'
  · have hrc : N.receiver h ≠ c := by
      intro hrc
      rw [hrc, hf] at hf'
      cases hf'
    rw [hres.others _ hrc]
    exact ⟨hf', rfl, rfl⟩
  · rw [hres.trace, offers_append]
    simp [offers]

section

variable {e : ResumeEnv} {rest : List Nat} (hr : Rest N cfg s s')
  (hl : leaks s (.schedule e) = false) (hs : step s (.schedule e) = some s')
  (hq : s.queues .ready = c :: rest) (hf : (s.co c).frame = .recv h)
include hr hl hs hq hf

/-- A receive that blocked returns with the answer `y` of the network. -/
theorem Rest.receiveTold {y : Answer (List UInt8)} (hy : N.reply (replies s) (.receive h) = some y)
    (htold : ∀ d, told d s'.trace = told d s.trace ++ if c = d then [y] else [])
    (hgot : (stores h s.trace).map (fun z => z.2.2) =
      N.got h (replies s) ++ Network.gotIn h [(.receive h, y)])
    (hret : Returned (stores h s.trace) s'.trace) : Flows N cfg s' := by
  have hold := hr.flows.streams h
  have hprog := hold.receiving c hf
  have hres := hr.resumes hs hq (.inr hf)
  have hcaller : replies s c = told c s.trace := replies_user (by rw [hf]; rfl)
  have hprog' : N.prog c (replies s c) = some (.receive h) := by rw [hcaller]; exact hprog
  have hst : stores h s'.trace = stores h s.trace := by
    rw [hres.trace, stores_append]
    simp [stores]
  have hothers : ∀ d, d ≠ c → told d s'.trace = told d s.trace := by
    intro d hd
    rw [htold d, if_neg (Ne.symm hd), List.append_nil]
  have hx : replies s' = Network.answer (replies s) c y := by
    refine replies_answer ?_ fun d hd =>
      replies_same (by rw [hres.others d hd]) (hothers d hd)
    rw [hcaller, replies_user (by rw [hres.frame]; rfl), htold c, if_pos rfl]
  refine hr.scheduled hl hs hq (.inr hf) (.inr ⟨_, _, hprog', rfl, hy, hx⟩) hothers ?_
  rw [hx]
  refine hres.streams hold hothers ?_ ?_ (.away ?_ ?_ (by rw [hst]; exact hret))
  · rw [Network.sent_answer hprog']
    simp [Network.sentIn]
  · rw [Network.isClosed_answer hprog']
    simp [Network.closedIn]
  · rw [N.receive_own hprog, hres.frame]
    simp
  · rw [hst, hgot, Network.got_answer hprog']

/-- A receive that blocked returns. -/
theorem Rest.receiveReturns : Flows N cfg s' := by
  have hold := hr.flows.streams h
  have hrecv : N.receiver h = c := N.receive_own (hold.receiving c hf)
  have hres := hr.resumes hs hq (.inr hf)
  have hready : (s.co c).state = .ready := by
    refine (Routine.home_ready ((hr.placed.current hs).mem_queue (q := .ready) (c := c) ?_)).2
    rw [hq]
    simp
  have hle : s.trace <+: s'.trace := by
    rw [hres.trace]
    exact List.prefix_append _ _
  cases hold.phase with
  | away hf' =>
    rw [hrecv] at hf'
    exact absurd hf hf'
  | waits hf' hst' =>
    rw [hrecv, hready] at hst'
    cases hst'
  | @served past y hf' hst' hs' hcall hg hr' ho =>
    rw [hrecv] at hcall
    rw [ho] at hres
    refine hr.receiveTold hl hs hq hf (y := .value y.2.2) ?_ (fun d => ?_) ?_ fun z hz => ?_
    · have hfifo := ((hr.flows.fifo h).sound (hr.flows.leakless.ledger h).2).fifo
      rw [hs', List.append_assoc] at hfifo
      exact reply_receive hold.sent hg hfifo.symm
    · have hlast : elementFor h (s.co c).call (s.trace ++ [.dispatch c]) = some y.2.2 := by
        rw [← hcall]
        have hlater : stores h (s.trace ++ [.dispatch c]) = past ++ [y] := by
          rw [stores_append, hs']
          simp [stores]
        refine elementFor_last hlater fun z hz heq => ?_
        obtain ⟨r, hr''⟩ := hr' z hz
        rw [heq, hcall] at hr''
        exact hr.calls.unreturned c (inCall_recv hf) r hr''
      rw [hres.learned d (.recv h) (by simp [hf, Frame.fits])]
      simp [answerTo, hlast]
    · rw [hs', List.map_append, hg]
      simp [Network.gotIn]
    · rw [hs', List.mem_append, List.mem_singleton] at hz
      rcases hz with hz | rfl
      · exact hr'.mono hle z hz
      · refine ⟨.code .ok, ?_⟩
        rw [hcall, hres.trace]
        exact List.mem_append_right _ (List.mem_cons_of_mem _ (List.mem_singleton_self _))
  | shut hf' hst' hg hr' hall hcl =>
    rw [hcl] at hres
    refine hr.receiveTold hl hs hq hf (y := .closed) ?_ (fun d => ?_) ?_ (hr'.mono hle)
    · exact reply_drained hold.sent hg hall (hold.closed.trans hcl)
    · exact hres.learned d (.recv h) (by simp [hf, Frame.fits])
    · rw [hg]
      simp [Network.gotIn]

end

/-! ## Determinacy -/

theorem obeys_current {op : Op} {q : Request Nat (List UInt8)} (ho : obeys N s (.call op) = true)
    (hq : op.request s = some q) :
    ∃ c, s.coCurrent = some c ∧ N.prog c (told c s.trace) = some q := by
  simp only [obeys, hq] at ho
  cases hc : s.coCurrent with
  | none => simp [hc] at ho
  | some c => exact ⟨c, rfl, by simpa [hc] using ho⟩

theorem Flows.step (hf : Flows N cfg s) (hg : networkAct N s a = true)
    (hs : step s a = some s') : Flows N cfg s' := by
  simp only [networkAct, Bool.and_eq_true] at hg
  obtain ⟨hg, ho⟩ := hg
  obtain ⟨hl, hr⟩ := hf.rest hg hs
  have hquiet := fun hn hend => hr.quiet hl hs hn hend
  cases a with
  | run | timers now | idle p | spawn e =>
    refine hquiet (fun h hn => ?_) (fun ha => by cases ha)
    first
    | exact hn
    | obtain ⟨c, ht, hm⟩ := hn
      rcases chan_mem_objs.mp hm with hfr | hfr <;> rw [hfr] at ht <;> cases ht
  | finish =>
    refine hquiet (fun h hn => hn) fun _ c hc => ?_
    simpa [obeys, hc] using ho
  | call op =>
    cases hop : op.request s with
    | none =>
      refine hquiet (fun h hn => ?_) (fun ha => by cases ha)
      cases op <;> simp [Op.request] at hop <;> simp [obeys, Op.request, Op.tries] at ho <;>
        simp [Act.names, Op.name, OpName.objs] at hn
    | some q =>
      obtain ⟨c, hcur, hq⟩ := obeys_current ho hop
      cases op <;> simp [Op.request] at hop
      · subst hop
        exact hr.send hl hs hcur hq
      · subst hop
        exact hr.recv hl hs hcur hq
      · subst hop
        refine hr.close hl hs hcur hq ?_
        simp only [promptReceives, Bool.and_eq_true, Bool.not_eq_true'] at hg
        exact hg.2
  | schedule e =>
    by_cases hch : ∃ h c rest, s.queues .ready = c :: rest ∧
        Obj.chan h ∈ (s.co c).frame.mentions
    · obtain ⟨h, c, rest, hq, hm⟩ := hch
      have hfr : (s.co c).frame = .send h ∨ (s.co c).frame = .recv h := by
        cases hfr : (s.co c).frame <;> simp [hfr, Frame.mentions] at hm <;> simp [hm]
      rcases hfr with hfr | hfr
      · exact hr.sendReturns hl hs hq hfr
      · exact hr.receiveReturns hl hs hq hfr
    · refine hquiet (fun h hn => ?_) (fun ha => by cases ha)
      obtain ⟨c, rest, hq, hm⟩ := hn
      exact hch ⟨h, c, rest, hq, hm⟩

theorem flows_init (hfit : ∀ h, cfg.elemSize h * cfg.capacity h < 2 ^ 64) :
    Flows N cfg (init cfg) := by
  have hx : replies (init cfg) = fun _ => [] := by
    funext c
    rfl
  refine ⟨.init, fun h => fifoInv_init (hfit h), hx ▸ .refl, fun h => ?_, fun c hf => ?_⟩
  · rw [hx]
    refine ⟨rfl, rfl, ?_, fun c hf => ?_, fun c hf => ?_, .away ?_ rfl ?_⟩
    · have hopen : ((init cfg).chans h).closed = false := by
        simp only [init, initChannel, coChannelCreate]
        split <;> simp
      rw [hopen]
      rfl
    · simp [init, Routine.zero] at hf
    · simp [init, Routine.zero] at hf
    · simp [init, Routine.zero]
    · intro y hy
      cases hy
  · simp [init, Routine.zero] at hf

theorem NetworkRun.flows (hr : NetworkRun N cfg s)
    (hfit : ∀ h, cfg.elemSize h * cfg.capacity h < 2 ^ 64) : Flows N cfg s := by
  induction hr with
  | init => exact flows_init hfit
  | next a _ hg hs ih => exact ih.step hg hs

theorem told_le_replies (s : St) (c : Nat) : told c s.trace <+: replies s c :=
  List.prefix_append _ _

/-- **Networks of coroutines are determinate.** Two runs of one program, with channels of
whatever capacities, never disagree about what a coroutine was told or what was sent on
a channel; what a finished coroutine was told, every run can only come to. -/
theorem network_determinate {cfg' : Config} {s' : St} (hr : NetworkRun N cfg s)
    (hr' : NetworkRun N cfg' s') (hfit : ∀ h, cfg.elemSize h * cfg.capacity h < 2 ^ 64)
    (hfit' : ∀ h, cfg'.elemSize h * cfg'.capacity h < 2 ^ 64) :
    (∀ c, told c s.trace <+: told c s'.trace ∨ told c s'.trace <+: told c s.trace) ∧
    (∀ h, (offers h s.trace).map Prod.snd <+: (offers h s'.trace).map Prod.snd ∨
      (offers h s'.trace).map Prod.snd <+: (offers h s.trace).map Prod.snd) ∧
    ∀ c, (s.co c).frame = .freed → told c s'.trace <+: told c s.trace ∧
      ((s'.co c).frame = .freed → told c s'.trace = told c s.trace) := by
  have hf := hr.flows hfit
  have hf' := hr'.flows hfit'
  obtain ⟨hcomp, hsent, hhalt⟩ := Network.determinate hf.reached hf'.reached
  have hfreed : ∀ {u : St}, Flows N cfg u ∨ Flows N cfg' u → ∀ c, (u.co c).frame = .freed →
      replies u c = told c u.trace ∧ N.prog c (replies u c) = none := by
    intro u hu c hc
    have heq : replies u c = told c u.trace := replies_user (by rw [hc]; rfl)
    rw [heq]
    exact ⟨rfl, hu.elim (fun hu => hu.ended c hc) fun hu => hu.ended c hc⟩
  refine ⟨fun c => ?_, fun h => ?_, fun c hc => ?_⟩
  · rcases hcomp c with hle | hle
    · exact List.prefix_or_prefix_of_prefix ((told_le_replies s c).trans hle) (told_le_replies s' c)
    · exact List.prefix_or_prefix_of_prefix (told_le_replies s c) ((told_le_replies s' c).trans hle)
  · rw [← (hf.streams h).sent, ← (hf'.streams h).sent]
    exact hsent h
  · obtain ⟨heq, hnone⟩ := hfreed (.inl hf) c hc
    have hle : replies s' c <+: told c s.trace := heq ▸ hhalt c hnone
    refine ⟨(told_le_replies s' c).trans hle, fun hc' => ?_⟩
    obtain ⟨heq', hnone'⟩ := hfreed (.inr hf') c hc'
    have hge := (Network.determinate hf'.reached hf.reached).2.2 c hnone'
    rw [heq, heq'] at hge
    rw [heq'] at hle
    exact (hge.eq_of_length_le hle.length_le).symm

/-! ## A producer and a consumer -/

/-- Coroutine 1 sends two elements and closes the channel, and coroutine 2 receives until
it is closed. -/
def pairProg (c : Nat) (l : List (Answer (List UInt8))) : Option (Request Nat (List UInt8)) :=
  if c = 1 then [.send 0 [5], .send 0 [6], .close 0][l.length]?
  else if c = 2 ∧ .closed ∉ l then some (.receive 0)
  else none

theorem pairProg_cases {q : Request Nat (List UInt8)} {l : List (Answer (List UInt8))}
    (hq : pairProg c l = some q) :
    (c = 1 ∧ q ∈ [.send 0 [5], .send 0 [6], .close 0]) ∨ (c = 2 ∧ q = .receive 0) := by
  unfold pairProg at hq
  split at hq
  · exact .inl ⟨‹_›, List.mem_of_getElem? hq⟩
  · split at hq
    · rename_i hc
      cases hq
      exact .inr ⟨hc.1, rfl⟩
    · cases hq

theorem pairProg_send {l : List (Answer (List UInt8))} {d : List UInt8}
    (hq : pairProg c l = some (.send h d)) : 1 = c := by
  rcases pairProg_cases hq with ⟨hc, -⟩ | ⟨-, hq⟩
  · exact hc.symm
  · cases hq

theorem pairProg_close {l : List (Answer (List UInt8))} (hq : pairProg c l = some (.close h)) :
    1 = c := by
  rcases pairProg_cases hq with ⟨hc, -⟩ | ⟨-, hq⟩
  · exact hc.symm
  · cases hq

theorem pairProg_receive {l : List (Answer (List UInt8))}
    (hq : pairProg c l = some (.receive h)) : 2 = c := by
  rcases pairProg_cases hq with ⟨-, hq⟩ | ⟨hc, -⟩
  · simp at hq
  · exact hc.symm

def pairNetwork : Network Nat Nat (List UInt8) where
  prog := pairProg
  sender _ := 1
  receiver _ := 2
  send_own := pairProg_send
  close_own := pairProg_close
  receive_own := pairProg_receive

/-- On a channel without a buffer the producer blocks, the consumer blocks for the second
element, and the producer yields before it closes. -/
def rendezvousRun : List Act :=
  [spawnOk, spawnOk, .run] ++ turn ++ [Act.call (.channelSend 0 fun _ => 5)] ++ turn ++
    [Act.call (.channelRecv 0), .call (.channelRecv 0)] ++ turn ++
    [Act.call (.channelSend 0 fun _ => 6), .call .yieldNow] ++ turn ++
    [Act.call (.channelRecv 0)] ++ turn ++ [Act.call (.channelClose 0), .finish] ++ turn ++
    [Act.finish]

/-- With a buffer the producer has finished before the consumer begins. -/
def bufferedRun : List Act :=
  [spawnOk, spawnOk, .run] ++ turn ++ [Act.call (.channelSend 0 fun _ => 5),
    .call (.channelSend 0 fun _ => 6), .call (.channelClose 0), .finish] ++ turn ++
    [Act.call (.channelRecv 0), .call (.channelRecv 0), .call (.channelRecv 0), .finish]

theorem network_determinate_pair :
    ∃ s s', runGuarded step (networkAct pairNetwork) (init (byteConfig 0)) rendezvousRun = some s ∧
      runGuarded step (networkAct pairNetwork) (init (byteConfig 2)) bufferedRun = some s' ∧
      told 2 s.trace = [.value [5], .value [6], .closed] ∧
      told 2 s'.trace = told 2 s.trace := by
  have hrun : (runGuarded step (networkAct pairNetwork) (init (byteConfig 0)) rendezvousRun).map
      (fun s => ((s.co 2).frame, told 2 s.trace)) =
        some (.freed, [.value [5], .value [6], .closed]) := by
    decide +kernel
  have hrun' : (runGuarded step (networkAct pairNetwork) (init (byteConfig 2)) bufferedRun).map
      (fun s => (s.co 2).frame) = some .freed := by
    decide +kernel
  obtain ⟨s, hs, he⟩ := Option.map_eq_some_iff.mp hrun
  obtain ⟨s', hs', he'⟩ := Option.map_eq_some_iff.mp hrun'
  simp only [Prod.mk.injEq] at he
  exact ⟨s, s', hs, hs', he.2, ((network_determinate (reach_of_runGuarded hs)
    (reach_of_runGuarded hs') (fun _ => (by decide : 1 * 0 < 2 ^ 64))
    (fun _ => (by decide : 1 * 2 < 2 ^ 64))).2.2 2 he.1).2 he'⟩

end Libco
