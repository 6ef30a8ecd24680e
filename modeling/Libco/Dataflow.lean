import Libco.Told

/-!
# Networks of coroutines

Coroutines that talk over channels, each channel with one coroutine that sends on it
and closes it and one that receives from it. A program says for each coroutine which
channel call comes next, given what the earlier ones returned; in between the
coroutine may yield, sleep, lock and do whatever else does not touch a channel.

`Flows` connects a state to a process network (`Lib.Dataflow`), whatever the capacities
of the channels, the clock, the spawns and the allocator: a send that blocks counts as
replies, since its element can be received at once. No channel may be closed over a
receive that was handed its element and is not dispatched yet; such a receive would
return `CO_ERROR_CLOSED`.
-/

namespace Libco
open Lib

variable {N : Network Nat Nat (List UInt8)} {cfg : Config} {s s' t : St} {a : Act} {c h k : Nat}

/-! ## Programs -/

/-- The request a channel call makes. -/
def Op.request (s : St) : Op → Option (Request Nat (List UInt8))
  | .channelSend h data => some (.send h (data.take (s.chans h).elemSize))
  | .channelRecv h => some (.receive h)
  | .channelClose h => some (.close h)
  | _ => none

/-- Calls whose result depends on who came first. -/
def Op.tries : Op → Bool
  | .channelTrysend _ _ | .channelTryrecv _ => true
  | _ => false

/-- Coroutines make the channel calls of their programs, in order, and return when there
is none left; and nobody else calls the channels. -/
def obeys (N : Network Nat Nat (List UInt8)) (s : St) : Act → Bool
  | .call op =>
    match op.request s with
    | some q => s.coCurrent.any fun c => decide (N.prog c (told c s.trace) = some q)
    | none => !op.tries
  | .finish => s.coCurrent.all fun c => (N.prog c (told c s.trace)).isNone
  | _ => true

/-- And no channel is closed over a receive that was handed its element. -/
def networkAct (N : Network Nat Nat (List UInt8)) (s : St) (a : Act) : Bool :=
  promptReceives s a && obeys N s a

/-- The runs of a network of coroutines. -/
def NetworkRun (N : Network Nat Nat (List UInt8)) (cfg : Config) : St → Prop :=
  Reach step (fun s a => networkAct N s a = true) (init cfg)

/-! ## The network behind a state -/

def Frame.isSend : Frame → Bool
  | .send _ => true
  | _ => false

/-- What the network has answered: a suspended send counts as done. -/
def replies (s : St) (c : Nat) : List (Answer (List UInt8)) :=
  told c s.trace ++ if (s.co c).frame.isSend then [.done] else []

/-- The receives these elements were stored for have returned. -/
def Returned (l : List (Nat × Nat × List UInt8)) (t : List Event) : Prop :=
  ∀ y ∈ l, ∃ r, .ret y.1 r ∈ t

theorem Returned.mono {l : List (Nat × Nat × List UInt8)} {t t' : List Event}
    (h : Returned l t) (hle : t <+: t') : Returned l t' := by
  intro y hy
  obtain ⟨r, hr⟩ := h y hy
  exact ⟨r, hle.subset hr⟩

/-- Where the receiver of a channel is, and which elements it has got. -/
inductive RecvPhase (N : Network Nat Nat (List UInt8)) (h : Nat) (s : St)
    (x : Nat → List (Answer (List UInt8))) : Prop
  | away (hf : (s.co (N.receiver h)).frame ≠ .recv h)
      (hgot : (stores h s.trace).map (fun y => y.2.2) = N.got h x)
      (hret : Returned (stores h s.trace) s.trace)
  | waits (hf : (s.co (N.receiver h)).frame = .recv h)
      (hst : (s.co (N.receiver h)).state = .waiting)
      (hgot : (stores h s.trace).map (fun y => y.2.2) = N.got h x)
      (hret : Returned (stores h s.trace) s.trace)
      (hall : (stores h s.trace).map Prod.snd = offers h s.trace)
  /-- handed its element -/
  | served {past : List (Nat × Nat × List UInt8)} {y : Nat × Nat × List UInt8}
      (hf : (s.co (N.receiver h)).frame = .recv h) (hst : (s.co (N.receiver h)).state = .ready)
      (hstores : stores h s.trace = past ++ [y]) (hcall : y.1 = (s.co (N.receiver h)).call)
      (hgot : past.map (fun y => y.2.2) = N.got h x)
      (hret : Returned past s.trace) (hopen : (s.chans h).closed = false)
  /-- released by the close -/
  | shut (hf : (s.co (N.receiver h)).frame = .recv h)
      (hst : (s.co (N.receiver h)).state = .ready)
      (hgot : (stores h s.trace).map (fun y => y.2.2) = N.got h x)
      (hret : Returned (stores h s.trace) s.trace)
      (hall : (stores h s.trace).map Prod.snd = offers h s.trace)
      (hclosed : (s.chans h).closed = true)

/-- Channel `h` and its stream. -/
structure Streams (N : Network Nat Nat (List UInt8)) (h : Nat) (s : St)
    (x : Nat → List (Answer (List UInt8))) : Prop where
  whole : drops h s.trace = []
  sent : N.sent h x = (offers h s.trace).map Prod.snd
  closed : N.isClosed h x = (s.chans h).closed
  sending : ∀ c, (s.co c).frame = .send h → (s.chans h).closed = false ∧
    ∃ d, N.prog c (told c s.trace) = some (.send h d)
  receiving : ∀ c, (s.co c).frame = .recv h → N.prog c (told c s.trace) = some (.receive h)
  phase : RecvPhase N h s x

structure Flows (N : Network Nat Nat (List UInt8)) (cfg : Config) (s : St) : Prop where
  leakless : Leakless cfg s
  fifo : ∀ h, FifoInv cfg h s
  reached : N.Reached (replies s)
  streams : ∀ h, Streams N h s (replies s)
  ended : ∀ c, (s.co c).frame = .freed → N.prog c (told c s.trace) = none

/-! ## Channels that a step leaves alone -/

/-- The frame of a coroutine that deals with a channel the step leaves alone. -/
theorem SameFor.chanFrame (hsame : SameFor (.chan h) s s') (c : Nat) :
    ((s'.co c).frame = .send h ↔ (s.co c).frame = .send h) ∧
      ((s'.co c).frame = .recv h ↔ (s.co c).frame = .recv h) := by
  refine ⟨⟨fun hf => ?_, fun hf => ?_⟩, fun hf => ?_, fun hf => ?_⟩
  · rw [← (hsame.co c (.inr (frame_send_objs hf))).frame]
    exact hf
  · rw [(hsame.co c (.inl (frame_send_objs hf))).frame]
    exact hf
  · rw [← (hsame.co c (.inr (frame_recv_objs hf))).frame]
    exact hf
  · rw [(hsame.co c (.inl (frame_recv_objs hf))).frame]
    exact hf

/-- A phase lasts while nothing is stored and the receiver stays where it is; new elements
are offered only while it does not wait for one. -/
theorem RecvPhase.keep {x x' : Nat → List (Answer (List UInt8))} (hp : RecvPhase N h s x)
    (hle : s.trace <+: s'.trace) (hst : stores h s'.trace = stores h s.trace)
    (hcl : (s'.chans h).closed = (s.chans h).closed) (hgot : N.got h x' = N.got h x)
    (haway : (s.co (N.receiver h)).frame ≠ .recv h → (s'.co (N.receiver h)).frame ≠ .recv h)
    (hrec : (s.co (N.receiver h)).frame = .recv h →
      (s'.co (N.receiver h)).frame = .recv h ∧
        (s'.co (N.receiver h)).state = (s.co (N.receiver h)).state ∧
        (s'.co (N.receiver h)).call = (s.co (N.receiver h)).call)
    (hoff : (s.co (N.receiver h)).frame = .recv h →
      (s.co (N.receiver h)).state = .waiting ∨ (s.chans h).closed = true →
        offers h s'.trace = offers h s.trace) : RecvPhase N h s' x' := by
  cases hp with
  | away hf hg hret =>
    refine .away (haway hf) ?_ ?_
    · rw [hst, hg, hgot]
    · rw [hst]
      exact hret.mono hle
  | waits hf hw hg hret hall =>
    obtain ⟨h1, h2, -⟩ := hrec hf
    refine .waits h1 (h2.trans hw) ?_ ?_ ?_
    · rw [hst, hg, hgot]
    · rw [hst]
      exact hret.mono hle
    · rw [hst, hoff hf (.inl hw), hall]
  | served hf hw hs hcall hg hret hopen =>
    obtain ⟨h1, h2, h3⟩ := hrec hf
    exact .served h1 (h2.trans hw) (hst.trans hs) (hcall.trans h3.symm) (hg.trans hgot.symm)
      (hret.mono hle) (hcl.trans hopen)
  | shut hf hw hg hret hall hclosed =>
    obtain ⟨h1, h2, -⟩ := hrec hf
    refine .shut h1 (h2.trans hw) ?_ ?_ ?_ (hcl.trans hclosed)
    · rw [hst, hg, hgot]
    · rw [hst]
      exact hret.mono hle
    · rw [hst, hoff hf (.inr hclosed), hall]

/-- A receiver that waits has got all that was offered. -/
theorem RecvPhase.blocked {x : Nat → List (Answer (List UInt8))} (hp : RecvPhase N h s x)
    (hf : (s.co (N.receiver h)).frame = .recv h)
    (hst : (s.co (N.receiver h)).state = .waiting) :
    (stores h s.trace).map (fun y => y.2.2) = N.got h x ∧ Returned (stores h s.trace) s.trace ∧
      (stores h s.trace).map Prod.snd = offers h s.trace := by
  cases hp with
  | away hf' => exact absurd hf hf'
  | waits _ _ hg hret hall => exact ⟨hg, hret, hall⟩
  | served _ hst' | shut _ hst' =>
    rw [hst] at hst'
    cases hst'

theorem RecvPhase.same {x x' : Nat → List (Answer (List UInt8))} (hp : RecvPhase N h s x)
    (hsame : SameFor (.chan h) s s') (hgot : N.got h x' = N.got h x) : RecvPhase N h s' x' := by
  obtain ⟨es, htr, hes⟩ := hsame.trace
  have hquiet := silent_of_obj hes
  refine hp.keep (by rw [htr]; exact List.prefix_append _ _) ?_ (by rw [hsame.chan h rfl]) hgot
    (fun hf hf' => hf ((hsame.chanFrame _).2.mp hf')) (fun hf => ?_) fun _ _ => ?_
  · rw [htr, stores_append, hquiet.stores, List.append_nil]
  · have := hsame.co _ (.inl (frame_recv_objs hf))
    exact ⟨this.frame.trans hf, this.state (.recv h) (by rw [hf]; rfl) rfl, this.call⟩
  · rw [htr, offers_append, hquiet.offers, List.append_nil]

theorem Streams.same {x x' : Nat → List (Answer (List UInt8))} (hst : Streams N h s x)
    (hsame : SameFor (.chan h) s s')
    (htold : ∀ c, Obj.chan h ∈ (s.co c).frame.objs → told c s'.trace = told c s.trace)
    (hx : N.sent h x' = N.sent h x ∧ N.got h x' = N.got h x ∧ N.isClosed h x' = N.isClosed h x) :
    Streams N h s' x' := by
  obtain ⟨es, htr, hes⟩ := hsame.trace
  have hquiet := silent_of_obj hes
  have hch := hsame.chan h rfl
  refine ⟨?_, ?_, ?_, fun c hf => ?_, fun c hf => ?_, hst.phase.same hsame hx.2.1⟩
  · rw [htr, drops_append, hquiet.drops, hst.whole]
    rfl
  · rw [hx.1, hst.sent, htr, offers_append, hquiet.offers, List.append_nil]
  · rw [hx.2.2, hst.closed, hch]
  · have hf₀ := (hsame.chanFrame c).1.mp hf
    rw [htold c (frame_send_objs hf₀), hch]
    exact hst.sending c hf₀
  · have hf₀ := (hsame.chanFrame c).2.mp hf
    rw [htold c (frame_recv_objs hf₀)]
    exact hst.receiving c hf₀

/-! ## Assembling a step -/

theorem Frame.isSend_iff {f : Frame} : f.isSend = true ↔ ∃ h, f = .send h := by
  cases f <;> simp [Frame.isSend]

theorem replies_user (hf : (s.co c).frame.isSend = false) : replies s c = told c s.trace := by
  simp [replies, hf]

theorem replies_same (hf : (s'.co c).frame.isSend = (s.co c).frame.isSend)
    (ht : told c s'.trace = told c s.trace) : replies s' c = replies s c := by
  simp only [replies, hf, ht]

/-- One coroutine is answered. -/
theorem replies_answer {y : Answer (List UInt8)} (hc : replies s' c = replies s c ++ [y])
    (ho : ∀ d, d ≠ c → replies s' d = replies s d) :
    replies s' = Network.answer (replies s) c y := by
  funext d
  by_cases hd : d = c
  · rw [hd, Network.answer, Function.update_self, hc]
  · rw [Network.answer, Function.update_of_ne hd, ho d hd]

/-- What every step keeps. -/
structure Rest (N : Network Nat Nat (List UInt8)) (cfg : Config) (s s' : St) : Prop where
  flows : Flows N cfg s
  leakless : Leakless cfg s'
  fifo : ∀ h, FifoInv cfg h s'
  placed : Placed False s
  calls : CallInv s
  calls' : CallInv s'

theorem Flows.rest (hf : Flows N cfg s) (hg : promptReceives s a = true)
    (hs : step s a = some s') : leaks s a = false ∧ Rest N cfg s s' := by
  simp only [promptReceives, Bool.and_eq_true] at hg
  have hl : leaks s a = false := by simpa [Libco.leakless] using hg.1
  have hp := hf.leakless.placed
  obtain ⟨hc, -⟩ := hf.leakless.ledger 0
  exact ⟨hl, hf, hf.leakless.next a hg.1 hs,
    fun h => (hf.fifo h).step (hf.leakless.ledger h).2 hc hp hl hs, hp, hc, hc.step hp hl hs⟩

/-- A step that touches no channel. -/
theorem Rest.quiet (hr : Rest N cfg s s') (hl : leaks s a = false) (hs : step s a = some s')
    (hn : ∀ h, ¬ a.names s (.chan h))
    (hend : a = .finish → ∀ c, s.coCurrent = some c → N.prog c (told c s.trace) = none) :
    Flows N cfg s' := by
  have htold := told_quiet hr.placed hl hs hr.calls hn
  have hsame : ∀ h, SameFor (.chan h) s s' := fun h => step_sameFor hr.placed hl hs (hn h)
  have hx : replies s' = replies s := by
    funext c
    refine replies_same ?_ (htold c)
    rw [Bool.eq_iff_iff, Frame.isSend_iff, Frame.isSend_iff]
    exact exists_congr fun h => ((hsame h).chanFrame c).1
  refine ⟨hr.leakless, hr.fifo, hx ▸ hr.flows.reached, fun h => ?_, fun c hf => ?_⟩
  · rw [hx]
    exact (hr.flows.streams h).same (hsame h) (fun c _ => htold c) ⟨rfl, rfl, rfl⟩
  · rw [htold c]
    rcases step_freed hr.placed hl hs hf with hf | ⟨ha, hc⟩
    · exact hr.flows.ended c hf
    · exact hend ha c hc

/-- A step of coroutine `c` at channel `h`: the network goes on by one answer, or not. -/
theorem Rest.turn (hr : Rest N cfg s s') (hl : leaks s a = false) (hs : step s a = some s')
    (hn : ∀ h', h' ≠ h → ¬ a.names s (.chan h')) (hact : a ≠ .finish)
    (hothers : ∀ d, d ≠ c → told d s'.trace = told d s.trace)
    (hat : ∀ h', h' ≠ h → Obj.chan h' ∉ (s.co c).frame.objs)
    (hfree : (s.co c).frame ≠ .freed)
    (hx : replies s' = replies s ∨ ∃ q y, N.prog c (replies s c) = some q ∧ q.stream = h ∧
      N.reply (replies s) q = some y ∧ replies s' = Network.answer (replies s) c y)
    (hh : Streams N h s' (replies s')) : Flows N cfg s' := by
  refine ⟨hr.leakless, hr.fifo, ?_, fun h' => ?_, fun d hf => ?_⟩
  · rcases hx with hx | ⟨q, y, hq, -, hy, hx⟩
    · exact hx ▸ hr.flows.reached
    · rw [hx]
      exact hr.flows.reached.tail (.turn hq hy)
  · by_cases hh' : h' = h
    · rw [hh']
      exact hh
    refine (hr.flows.streams h').same (step_sameFor hr.placed hl hs (hn h' hh')) (fun d hd => ?_) ?_
    · refine hothers d ?_
      rintro rfl
      exact hat h' hh' hd
    · rcases hx with hx | ⟨q, y, hq, hqh, -, hx⟩
      · rw [hx]
        exact ⟨rfl, rfl, rfl⟩
      · rw [hx]
        exact Network.answer_other hq (hqh ▸ Ne.symm hh')
  · rcases step_freed hr.placed hl hs hf with hf | ⟨ha, -⟩
    · rw [hothers d]
      · exact hr.flows.ended d hf
      · rintro rfl
        exact hfree hf
    · exact absurd ha hact

end Libco
