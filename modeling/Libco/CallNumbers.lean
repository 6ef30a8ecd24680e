import Libco.Lib.History
import Libco.Plain

/-!
# Calls and their numbers

Every API call has a number of its own. The history tells who made it and of
which function (`call k w op`); a coroutine suspended in the library is inside
the call whose number it carries, which has not returned; and an event that
names a call names one of the right function (`Event.caller`).
-/

namespace Libco
open Lib

variable {run : Prop} {cur : Option Nat} {s s' s₀ : St} {a : Act} {c : Nat}

/-- Suspended inside a call. -/
def Routine.inCall (r : Routine) : Bool := r.frame.suspended && r.frame != .entry

/-- The call an event belongs to, and who may have made which call. -/
def Event.caller : Event → Option (Nat × (Option Nat → OpName → Prop))
  | .waits v m c k => some (k, fun w op => w = some c ∧ (op = .condWait v m ∨ op = .condTimedwait v m))
  | .offer h k _ => some (k, fun _ op => op = .send h ∨ op = .trysend h)
  | .store h r _ _ => some (r, fun _ op => op = .recv h ∨ op = .tryrecv h)
  | .recvWait h r | .serve h r => some (r, fun _ op => op = .recv h)
  | _ => none

/-- Events of calls and returns. -/
def Event.isCall : Event → Bool
  | .call _ _ _ | .ret _ _ => true
  | _ => false

/-- The call an event belongs to is in the history. -/
def Event.attributed (h : List Event) (e : Event) : Prop :=
  ∀ k P, e.caller = some (k, P) → ∃ w op, .call k w op ∈ h ∧ P w op

structure CallInv (s : St) : Prop where
  call_lt : ∀ k w op, .call k w op ∈ s.trace → k < s.calls
  returned : ∀ k r, .ret k r ∈ s.trace → ∃ w op, .call k w op ∈ s.trace
  unique : ∀ k w op w' op', .call k w op ∈ s.trace → .call k w' op' ∈ s.trace →
    w = w' ∧ op = op'
  inside : ∀ c, (s.co c).inCall = true →
    ∃ op, .call (s.co c).call (some c) op ∈ s.trace ∧ (s.co c).frame.fits op = true
  unreturned : ∀ c, (s.co c).inCall = true → ∀ r, .ret (s.co c).call r ∉ s.trace
  attributed : ∀ e ∈ s.trace, e.attributed s.trace

theorem CallInv.ret_lt {k : Nat} {r : Ret} (h : CallInv s) (hr : .ret k r ∈ s.trace) :
    k < s.calls := by
  obtain ⟨w, op, hc⟩ := h.returned k r hr
  exact h.call_lt k w op hc

/-! ## Who is inside a call after a move -/

/-- The coroutine stays inside its call. -/
def Routine.StaysIn (r r' : Routine) : Prop :=
  r.inCall = true ∧ r'.call = r.call ∧ ∀ op, r.frame.fits op = true → r'.frame.fits op = true

theorem Routine.StaysIn.of_eq {r r' : Routine} (h : r'.inCall = true) (hf : r'.frame = r.frame)
    (hc : r'.call = r.call) : r.StaysIn r' := by
  refine ⟨?_, hc, fun op ho => hf ▸ ho⟩
  unfold Routine.inCall at h ⊢
  rwa [← hf]

theorem Inv.ready_not_queued {rest : List Nat} {q : QueueRef} (hi : Inv run cur s.toSched)
    (hq : s.queues .ready = c :: rest) (hne : q ≠ .ready) : c ∉ s.queues q := by
  intro hm
  have hst := (Routine.home_wait (hi.mem_queue hm) hne).1
  rw [(hi.ready_fields hq).1] at hst
  cases hst

/-- The caller of the call that just began. -/
theorem Begins.current {op : Op} (hb : Begins s₀ a s op) (hi₀ : Inv run s₀.coCurrent s₀.toSched)
    (hi : Inv run (some c) s.toSched) : s₀.coCurrent = some c ∧ (s.co c).call = s₀.calls := by
  have huser : (s.co c).frame = .user := (hi.user c).mpr rfl
  have hc : s₀.coCurrent = some c := by
    rw [hb.2, beginCall_frame] at huser
    exact (hi₀.user c).mp huser
  refine ⟨hc, beginCall_call hb ?_⟩
  rw [hb.2, beginCall_coCurrent, hc]

theorem Begins.call_mem {op : Op} (hb : Begins s₀ a s op) :
    .call s₀.calls s₀.coCurrent op.name ∈ s.trace := by
  rw [hb.2, beginCall_trace]
  simp

/-- The cases of a coroutine that is inside a call after a move. -/
inductive InCallAfter (s₀ : St) (a : Act) (p p' : Option Nat × St) (d : Nat) : Prop
  | stays (h : (p.2.co d).StaysIn (p'.2.co d))
  | begun {op : Op} (hb : Begins s₀ a p.2 op) (hc : s₀.coCurrent = some d)
      (hcall : (p'.2.co d).call = s₀.calls) (hf : (p'.2.co d).frame.fits op.name = true)
  | resumed (h : (s₀.co d).StaysIn (p'.2.co d))

theorem inCallAfter_update {p p' : Option Nat × St} {r : Routine} {d : Nat}
    (hco : p'.2.co = Function.update p.2.co c r) (hd : (p'.2.co d).inCall = true)
    (hr : r.inCall = true → InCallAfter s₀ a p p' c) : InCallAfter s₀ a p p' d := by
  by_cases hdc : d = c
  · subst hdc
    rw [hco, Function.update_self] at hd
    exact hr hd
  · have : p'.2.co d = p.2.co d := by rw [hco, Function.update_of_ne hdc]
    exact .stays (.of_eq hd (by rw [this]) (by rw [this]))

theorem staysIn_wakeAll {q : QueueRef} {ws rest : List Nat} {g : Routine → Routine} {t : St}
    {d : Nat} (hg : ∀ r, (g r).frame = r.frame ∧ (g r).call = r.call)
    (hco : ∀ c, (t.co c).frame = (s.co c).frame ∧ (t.co c).call = (s.co c).call)
    (hd : ((wakeAll t q ws rest g).co d).inCall = true) :
    (s.co d).StaysIn ((wakeAll t q ws rest g).co d) := by
  refine .of_eq hd ?_ ?_
  · simp only [wakeAll]
    split
    · rw [(hg _).1, (hco d).1]
    · exact (hco d).1
  · simp only [wakeAll]
    split
    · rw [(hg _).2, (hco d).2]
    · exact (hco d).2

theorem not_inCall_user {r : Routine} (h : r.frame = .user) : r.inCall = false := by
  simp [Routine.inCall, h, Frame.suspended]

theorem Move.inCall {os : List Obj} {p p' : Option Nat × St} (hm : Move s₀ a os p p')
    (hi₀ : Inv False s₀.coCurrent s₀.toSched) (hi : Inv False p.1 p.2.toSched) (d : Nat)
    (hd : (p'.2.co d).inCall = true) : InCallAfter s₀ a p p' d := by
  cases hm with
  | admin had => exact .stays (.of_eq hd (by rw [had.co]) (by rw [had.co]))
  | @invoke op ha =>
    -- the caller is in its own code
    have hne : s₀.coCurrent ≠ some d := by
      intro hc
      have : ((beginCall s₀ op).co d).frame = .user := by
        rw [beginCall_frame]
        exact (hi₀.user d).mpr hc
      rw [not_inCall_user this] at hd
      cases hd
    refine .stays (.of_eq hd (beginCall_frame s₀ op d) ?_)
    simp only [beginCall]
    split
    · rename_i c hc
      have hdc : d ≠ c := by
        rintro rfl
        exact hne hc
      simp [St.modify, St.emit, hdc]
    · rfl
  | skipId p => exact .stays (.of_eq hd rfl rfl)
  | spawn hs =>
    obtain ⟨b, n, hco⟩ := hs.co
    refine inCallAfter_update hco hd fun hr => ?_
    simp [Routine.inCall] at hr
  | @finish c s s' hs' =>
    obtain ⟨pool, he⟩ := finish_eq s c
    rw [hs', he] at hd ⊢
    refine inCallAfter_update rfl hd fun hr => ?_
    simp [Routine.inCall, Frame.suspended] at hr
  | @yieldNow c op s hb hf =>
    obtain ⟨hc, hcall⟩ := hb.current hi₀ hi
    by_cases hdc : d = c
    · subst hdc
      refine .begun hb hc ?_ ?_
      · simpa [coSchedulerEnqueue, coQueuePushBack, St.modify, St.emit] using hcall
      · simpa [coSchedulerEnqueue, coQueuePushBack, St.modify, St.emit] using hf
    · refine .stays (.of_eq hd ?_ ?_) <;>
        simp [coSchedulerEnqueue, coQueuePushBack, St.modify, St.emit, hdc]
  | @block c op s s' r hb hf hbl =>
    obtain ⟨hc, hcall⟩ := hb.current hi₀ hi
    refine inCallAfter_update hbl.co hd fun hr => .begun hb hc ?_ ?_
    · rw [hbl.co, Function.update_self, hbl.call, hcall]
    · rw [hbl.co, Function.update_self]
      exact hf
  | @drain c s s' r x y hold hf hbl =>
    refine inCallAfter_update hbl.co hd fun hr => .resumed ⟨?_, ?_, ?_⟩
    · simp [Routine.inCall, hold.1, Frame.suspended]
    · rw [hbl.co, Function.update_self, hbl.call, hold.2.1]
    · intro op ho
      rw [hbl.co, Function.update_self, hf]
      rw [hold.1] at ho
      cases op <;> simp [Frame.fits] at ho ⊢
      rw [← hold.2.2, ho]
  | @touch c s s' r ht hs =>
    refine inCallAfter_update ht.co hd fun hr => ?_
    rw [not_inCall_user ht.frame] at hr
    cases hr
  | @dispatch c rest s' hdis ha =>
    refine inCallAfter_update hdis.co hd fun hr => ?_
    simp [Routine.inCall, Frame.suspended] at hr
  | @relock c m rest f s' hr ha =>
    refine inCallAfter_update hr.co hd fun _ => .stays ⟨?_, ?_, ?_⟩
    · obtain ⟨v, ⟨hf, -⟩ | ⟨hf, -⟩⟩ := Frame.relocking_spec hr.relocking <;>
        simp [Routine.inCall, hf, Frame.suspended]
    · rw [hr.co, Function.update_self]
    · intro op ho
      rw [hr.co, Function.update_self]
      obtain ⟨v, ⟨hf, rfl⟩ | ⟨hf, rfl⟩⟩ := Frame.relocking_spec hr.relocking <;>
        rw [hf] at ho <;> cases op <;> exact ho
  | @expire cur c s s' he =>
    refine inCallAfter_update he.co hd fun hr => .stays (.of_eq ?_ ?_ ?_) <;>
      rw [he.co, Function.update_self]
    exact hr
  | dropTimer hs hord hperm => exact .stays (.of_eq hd rfl rfl)
  | @polled cur c f s s' hp ha =>
    have hself : (s'.co c).frame = f ∧ (s'.co c).call = (s.co c).call := by
      rw [hp.co, Function.update_self]
      split <;> exact ⟨rfl, rfl⟩
    refine inCallAfter_update hp.co hd fun hr => .stays ⟨?_, hself.2, ?_⟩
    · have hsus := (Frame.io_suspended hp.like.io).1
      have hne : (s.co c).frame ≠ .entry := by
        intro he
        have := hp.like.io
        simp [he, Frame.isIo] at this
      simp [Routine.inCall, hsus, hne]
    · intro op ho
      rw [hself.1]
      exact hp.fits op ho
  | take hfree hcur => exact .stays (.of_eq hd rfl rfl)
  | unlock hop1 hop hpre hcur hl hq => exact .stays (.of_eq hd rfl rfl)
  | handoff hop1 hop hpre hcur hl hq =>
    exact .stays (staysIn_wakeAll (fun _ => ⟨rfl, rfl⟩) (fun _ => ⟨rfl, rfl⟩) hd)
  | notify hq he => exact .stays (staysIn_wakeAll (fun _ => ⟨rfl, rfl⟩) (fun _ => ⟨rfl, rfl⟩) hd)
  | @placeHand cur h' c rest data op s hb hop hcl hq =>
    refine .stays (staysIn_wakeAll (fun _ => ⟨rfl, rfl⟩) (fun e => ?_) hd)
    by_cases hec : e = c
    · simp [deliver, St.modify, St.emit, hec]
    · simp [deliver, St.modify, St.emit, hec]
  | placeRing hb hop hcl hq hroom => exact .stays (.of_eq hd rfl rfl)
  | takeRing hb hop hpos hq => exact .stays (.of_eq hd rfl rfl)
  | takeRefill hb hop hpos hq =>
    exact .stays (staysIn_wakeAll (fun _ => ⟨rfl, rfl⟩) (fun _ => ⟨rfl, rfl⟩) hd)
  | takeMeet hb hop hzero hq =>
    exact .stays (staysIn_wakeAll (fun _ => ⟨rfl, rfl⟩) (fun _ => ⟨rfl, rfl⟩) hd)
  | @close cur h' op s hb hop hcl =>
    refine .stays (staysIn_wakeAll (fun _ => ⟨rfl, rfl⟩) (fun e => ?_) hd)
    simp only [wakeAll]
    split <;> exact ⟨rfl, rfl⟩

/-! ## Events of a move -/

theorem attributed_of_none {h : List Event} {e : Event} (he : e.caller = none) :
    e.attributed h := by
  intro k P hk
  rw [he] at hk
  cases hk

theorem Routine.StaysIn.trans {r r' r'' : Routine} (h : r.StaysIn r') (h' : r'.StaysIn r'') :
    r.StaysIn r'' :=
  ⟨h.1, h'.2.1.trans h.2.1, fun op ho => h'.2.2 op (h.2.2 op ho)⟩

theorem Frame.exists_fits {f : Frame} (h : f.suspended = true) (he : f ≠ .entry) :
    ∃ op, f.fits op = true := by
  cases f with
  | absent | freed | user => cases h
  | entry => exact absurd rfl he
  | yieldNow => exact ⟨.yieldNow, rfl⟩
  | sleep => exact ⟨.sleep, rfl⟩
  | lock m => exact ⟨.lock m, by simp [Frame.fits]⟩
  | condWait v m | condRelock v m => exact ⟨.condWait v m, by simp [Frame.fits]⟩
  | timedWait v m | timedRelock v m => exact ⟨.condTimedwait v m, by simp [Frame.fits]⟩
  | send n => exact ⟨.send n, by simp [Frame.fits]⟩
  | recv n => exact ⟨.recv n, by simp [Frame.fits]⟩
  | waitIo x => exact ⟨.io x.call, by simp [Frame.fits]⟩
  | waitAsync x | drainAsync x => exact ⟨.io x.opType, by simp [Frame.fits]⟩

/-- Staying inside a call is staying with its objects. -/
theorem Routine.StaysIn.mentions {r r' : Routine} (h : r.StaysIn r') :
    r'.frame.mentions = r.frame.mentions := by
  obtain ⟨hin, -, hfits⟩ := h
  simp only [Routine.inCall, Bool.and_eq_true, bne_iff_ne, ne_eq] at hin
  obtain ⟨op, hop⟩ := Frame.exists_fits hin.1 hin.2
  rw [Frame.mentions_of_fits hop, Frame.mentions_of_fits (hfits op hop)]

theorem inCall_of_mentions {r : Routine} {o : Obj} (h : o ∈ r.frame.mentions) :
    r.inCall = true := by
  cases hf : r.frame <;> simp [hf, Frame.mentions] at h <;>
    simp [Routine.inCall, hf, Frame.suspended]

/-- Whoever is inside a call after a step was inside it before, or has just made it. -/
theorem step_inCall (hp : Placed run s) (hl : leaks s a = false) (hs : step s a = some s')
    (hc : (s'.co c).inCall = true) :
    (s.co c).StaysIn (s'.co c) ∨
      ∃ op, a = .call op ∧ s.coCurrent = some c ∧ (s'.co c).frame.fits op.name = true := by
  have hi₀ : Inv False s.coCurrent s.toSched := (hp.current hs).mono fun h => h.elim
  refine step_invariant (J := fun t => ∀ c, (t.co c).inCall = true → (s.co c).StaysIn (t.co c) ∨
    ∃ op, a = .call op ∧ s.coCurrent = some c ∧ (t.co c).frame.fits op.name = true) hp hl hs
    (fun c hc => .inl (.of_eq hc rfl rfl)) ?_ (fun _ _ _ _ h _ => h) c hc
  intro os p p' hm hi hJ c hc
  cases hm.inCall hi₀ hi c hc with
  | stays hst =>
    rcases hJ c hst.1 with h | ⟨op, ha, hcur, hf⟩
    · exact .inl (h.trans hst)
    · exact .inr ⟨op, ha, hcur, hst.2.2 _ hf⟩
  | begun hb hcur hcall hf => exact .inr ⟨_, hb.1, hcur, hf⟩
  | resumed hst => exact .inl hst

theorem Event.neutral_plain {e : Event} (h : e.neutral = true) :
    e.isCall = false ∧ e.caller = none := by
  cases e <;> simp [Event.neutral] at h <;> exact ⟨rfl, rfl⟩

/-- An event about the call that just began. -/
theorem Begins.attributed {op : Op} {e : Event} {k : Nat} {P : Option Nat → OpName → Prop}
    (hb : Begins s₀ a s op) (he : e.caller = some (k, P)) (hk : k = s₀.calls)
    (hP : P s₀.coCurrent op.name) : e.attributed s.trace := by
  intro k' Q hk'
  rw [he] at hk'
  cases hk'
  exact ⟨_, _, hk ▸ hb.call_mem, hP⟩

/-- What a move other than the beginning of a call adds to the history. -/
structure Adds (s s' : St) (es : List Event) : Prop where
  trace : s'.trace = s.trace ++ es
  calls : s'.calls = s.calls
  plain : ∀ e ∈ es, e.isCall = false ∧ e.attributed s.trace

theorem adds_silent {es : List Event} (htr : s'.trace = s.trace ++ es) (hc : s'.calls = s.calls)
    (he : ∀ e ∈ es, e.isCall = false ∧ e.caller = none) : Adds s s' es :=
  ⟨htr, hc, fun e hm => ⟨(he e hm).1, attributed_of_none (he e hm).2⟩⟩

theorem Adds.wakeAll {t : St} {q : QueueRef} {ws rest : List Nat} {g : Routine → Routine}
    {es : List Event} (h : Adds s t es) :
    Adds s (wakeAll t q ws rest g) (es ++ ws.map .ready) := by
  refine ⟨?_, h.calls, fun e hm => ?_⟩
  · simp [Libco.wakeAll, h.trace]
  · rcases List.mem_append.mp hm with hm | hm
    · exact h.plain e hm
    · obtain ⟨c, -, rfl⟩ := List.mem_map.mp hm
      exact ⟨rfl, attributed_of_none rfl⟩

theorem adds_one {e : Event} (htr : s'.trace = s.trace ++ [e]) (hc : s'.calls = s.calls)
    (hcall : e.isCall = false) (he : e.attributed s.trace) : Adds s s' [e] :=
  ⟨htr, hc, fun e' hm => by rw [List.mem_singleton.mp hm]; exact ⟨hcall, he⟩⟩

theorem Blocks.adds {r : Routine} {op : Op} (hbl : Blocks s s' c r) (hb : Begins s₀ a s op)
    (hc : s₀.coCurrent = some c) (hcall : (s.co c).call = s₀.calls)
    (hf : r.frame.fits op.name = true) : Adds s s' (blockEvents s c r) := by
  have hr : r.call = s₀.calls := hbl.call.trans hcall
  refine ⟨hbl.trace, hbl.objects.calls, fun e he => ?_⟩
  unfold blockEvents at he
  cases hfr : r.frame <;> simp only [hfr, List.not_mem_nil, List.mem_singleton] at he hf <;>
    subst he
  case lock => exact ⟨rfl, attributed_of_none rfl⟩
  case condWait v m =>
    refine ⟨rfl, hb.attributed rfl hr ⟨hc, ?_⟩⟩
    cases ho : op.name <;> simp [ho, Frame.fits] at hf
    rw [hf.1, hf.2]
    exact .inl rfl
  case timedWait v m =>
    refine ⟨rfl, hb.attributed rfl hr ⟨hc, ?_⟩⟩
    cases ho : op.name <;> simp [ho, Frame.fits] at hf
    rw [hf.1, hf.2]
    exact .inr rfl
  case send h =>
    refine ⟨rfl, hb.attributed rfl hr ?_⟩
    cases ho : op.name <;> simp [ho, Frame.fits] at hf
    rw [hf]
    exact .inl rfl
  case recv h =>
    refine ⟨rfl, hb.attributed rfl hr ?_⟩
    cases ho : op.name <;> simp [ho, Frame.fits] at hf
    rw [hf]

/-- A receiver in the queue is inside a receive call. -/
theorem CallInv.receiver {h : Nat} {rest : List Nat} (hc : CallInv s)
    (hi : Inv run cur s.toSched) (hq : s.queues (.recv h) = c :: rest) :
    (s.co c).frame = .recv h ∧ (s.co c).state = .waiting ∧
      .call (s.co c).call (some c) (.recv h) ∈ s.trace := by
  obtain ⟨hst, hw⟩ := Routine.home_wait
    (hi.mem_queue (q := .recv h) (c := c) (by rw [hq]; simp)) (by simp)
  have hf : (s.co c).frame = .recv h := by
    cases hf : (s.co c).frame <;> simp [hf, Frame.waitQueue] at hw ⊢
    exact hw
  obtain ⟨op, hop, hfits⟩ := hc.inside c (by simp [Routine.inCall, hf, Frame.suspended])
  rw [hf] at hfits
  refine ⟨hf, hst, ?_⟩
  cases op <;> simp [Frame.fits] at hfits
  rw [hfits]
  exact hop

theorem Move.adds {os : List Obj} {p p' : Option Nat × St} (hm : Move s₀ a os p p')
    (hi₀ : Inv False s₀.coCurrent s₀.toSched) (hi : Inv False p.1 p.2.toSched)
    (h : CallInv p.2) :
    (∃ op, a = .call op ∧ p.2 = s₀ ∧ p'.2 = beginCall s₀ op) ∨ ∃ es, Adds p.2 p'.2 es := by
  cases hm with
  | @invoke op ha => exact .inl ⟨op, ha, rfl, rfl⟩
  | admin had =>
    obtain ⟨es, hes, hn⟩ := had.trace
    exact .inr ⟨es, adds_silent hes had.objects.calls fun e he => Event.neutral_plain (hn e he)⟩
  | skipId p => exact .inr ⟨[], adds_silent (by simp) rfl (by simp)⟩
  | spawn hs =>
    exact .inr ⟨_, adds_silent hs.trace hs.objects.calls (by simp [Event.isCall, Event.caller])⟩
  | @finish c s s' hs' =>
    obtain ⟨pool, he⟩ := finish_eq s c
    rw [hs', he]
    exact .inr ⟨[], adds_silent (List.append_nil _).symm rfl (by simp)⟩
  | @yieldNow c op s hb hf =>
    exact .inr ⟨[.ready c], adds_silent rfl rfl (by simp [Event.isCall, Event.caller])⟩
  | block hb hf hbl =>
    obtain ⟨hc, hcall⟩ := hb.current hi₀ hi
    exact .inr ⟨_, hbl.adds hb hc hcall hf⟩
  | @drain c s s' r x y hold hf hbl =>
    refine .inr ⟨_, adds_silent hbl.trace hbl.objects.calls ?_⟩
    simp [blockEvents, hf]
  | touch ht hs =>
    exact .inr ⟨[], adds_silent (by simpa using ht.trace) ht.objects.calls (by simp)⟩
  | @dispatch c rest s' hdis ha =>
    refine .inr ⟨_, adds_silent hdis.trace hdis.objects.calls ?_⟩
    unfold dispatchEvents
    split <;> simp [Event.isCall, Event.caller]
  | relock hr ha =>
    exact .inr ⟨_, adds_silent hr.trace hr.objects.calls (by simp [Event.isCall, Event.caller])⟩
  | @expire cur c s s' he =>
    refine .inr ⟨_, adds_silent he.trace he.objects.calls ?_⟩
    unfold expireEvents
    split <;> simp [Event.isCall, Event.caller]
  | dropTimer hs hord hperm => exact .inr ⟨[], adds_silent (by simp) rfl (by simp)⟩
  | @polled cur c f s s' hp ha =>
    refine .inr ⟨_, adds_silent hp.trace hp.objects.calls ?_⟩
    split <;> simp [Event.isCall, Event.caller]
  | take hfree hcur =>
    exact .inr ⟨[_], adds_silent rfl rfl (by simp [Event.isCall, Event.caller])⟩
  | unlock hop1 hop hpre hcur hl hq =>
    exact .inr ⟨[_], adds_silent rfl rfl (by simp [Event.isCall, Event.caller])⟩
  | @handoff cur m c rest op s hop1 hop hpre hcur hl hq =>
    have htr : (((s.emit (.release m s.coCurrent)).setMutex m
        { s.mutexes m with owner := some c }).emit (.handoff m c)).trace =
        s.trace ++ [Event.release m s.coCurrent, .handoff m c] := by
      simp [St.emit, St.setMutex]
    exact .inr ⟨_, Adds.wakeAll (adds_silent htr rfl (by simp [Event.isCall, Event.caller]))⟩
  | @notify cur v ws rest e s hq he =>
    have htr : (s.emit e).trace = s.trace ++ [e] := rfl
    refine .inr ⟨_, Adds.wakeAll (adds_silent htr rfl ?_)⟩
    rcases he with ⟨rfl, -⟩ | ⟨rfl, -⟩ <;> simp [Event.isCall, Event.caller]
  | @placeHand cur h' c rest data op s hb hop hcl hq =>
    have hrecv := (h.receiver hi hq).2.2
    refine .inr ⟨_, Adds.wakeAll ⟨deliver_trace _ _ _ _ _, rfl, ?_⟩⟩
    simp only [List.mem_cons, List.not_mem_nil, or_false]
    rintro e (rfl | rfl | rfl)
    · exact ⟨rfl, hb.attributed rfl rfl hop⟩
    · refine ⟨rfl, fun k P hk => ?_⟩
      cases hk
      exact ⟨_, _, hrecv, rfl⟩
    · refine ⟨rfl, fun k P hk => ?_⟩
      cases hk
      exact ⟨_, _, hrecv, .inl rfl⟩
  | placeRing hb hop hcl hq hroom =>
    exact .inr ⟨_, adds_one rfl rfl rfl (hb.attributed rfl rfl hop)⟩
  | takeRing hb hop hpos hq =>
    exact .inr ⟨_, adds_one rfl rfl rfl (hb.attributed rfl rfl hop)⟩
  | takeRefill hb hop hpos hq =>
    exact .inr ⟨_, Adds.wakeAll (adds_one rfl rfl rfl (hb.attributed rfl rfl hop))⟩
  | takeMeet hb hop hzero hq =>
    exact .inr ⟨_, Adds.wakeAll (adds_one rfl rfl rfl (hb.attributed rfl rfl hop))⟩
  | @close cur h' op s hb hop hcl =>
    exact .inr ⟨_, Adds.wakeAll (Adds.wakeAll
      (adds_one rfl rfl rfl (attributed_of_none rfl)))⟩

/-! ## The invariant -/

/-- The history of `s` goes on from that of `s₀`, and no call has returned since. -/
def Extends (s₀ s : St) : Prop :=
  ∃ es, s.trace = s₀.trace ++ es ∧ ∀ k r, .ret k r ∉ es

theorem Extends.refl (s : St) : Extends s s := ⟨[], by simp, by simp⟩

theorem Extends.trans {t : St} (h : Extends s₀ s) (h' : Extends s t) : Extends s₀ t := by
  obtain ⟨es, he, hn⟩ := h
  obtain ⟨es', he', hn'⟩ := h'
  exact ⟨es ++ es', by rw [he', he, List.append_assoc], fun k r hm =>
    (List.mem_append.mp hm).elim (hn k r) (hn' k r)⟩

theorem Extends.mem {e : Event} (h : Extends s₀ s) (he : e ∈ s₀.trace) : e ∈ s.trace := by
  obtain ⟨es, hes, -⟩ := h
  rw [hes]
  exact List.mem_append_left _ he

theorem Extends.ret {k : Nat} {r : Ret} (h : Extends s₀ s) (hr : .ret k r ∈ s.trace) :
    .ret k r ∈ s₀.trace := by
  obtain ⟨es, hes, hn⟩ := h
  rw [hes] at hr
  exact (List.mem_append.mp hr).elim id fun hm => absurd hm (hn k r)

/-- No call returns: nothing to obey. -/
theorem Extends.lawful {law : List Event → Event → Prop} (h : Extends s₀ s)
    (hl : Lawful law s₀.trace) (hlaw : ∀ e past, (∀ k r, e ≠ .ret k r) → law past e) :
    Lawful law s.trace := by
  obtain ⟨es, hes, hn⟩ := h
  rw [hes]
  refine hl.extend fun e he past => hlaw e past fun k r hr => ?_
  exact hn k r (hr ▸ he)

theorem Adds.extends {es : List Event} (h : Adds s s' es) : Extends s s' := by
  refine ⟨es, h.trace, fun k r hm => ?_⟩
  have := (h.plain _ hm).1
  cases this

theorem beginCall_extends (s : St) (op : Op) : Extends s (beginCall s op) :=
  ⟨_, beginCall_trace s op, by simp⟩

theorem Event.attributed.mono {h h' : List Event} {e : Event} (ha : e.attributed h)
    (hsub : ∀ e ∈ h, e ∈ h') : e.attributed h' := by
  intro k P hk
  obtain ⟨w, op, hc, hP⟩ := ha k P hk
  exact ⟨w, op, hsub _ hc, hP⟩

theorem Adds.call_mem {es : List Event} (h : Adds s s' es) {k : Nat} {w : Option Nat} {op : OpName}
    (hc : .call k w op ∈ s'.trace) : .call k w op ∈ s.trace := by
  rw [h.trace] at hc
  refine (List.mem_append.mp hc).elim id fun hm => ?_
  have := (h.plain _ hm).1
  cases this

theorem calls_beginCall (s : St) (op : Op) : (beginCall s op).calls = s.calls + 1 := by
  simp only [beginCall]
  split <;> rfl

/-- The facts about the history alone. -/
theorem CallInv.beginCall_history (h : CallInv s) (op : Op) :
    (∀ k w o, .call k w o ∈ (beginCall s op).trace → k < (beginCall s op).calls) ∧
    (∀ k w o w' o', .call k w o ∈ (beginCall s op).trace →
      .call k w' o' ∈ (beginCall s op).trace → w = w' ∧ o = o') ∧
    ∀ e ∈ (beginCall s op).trace, e.attributed (beginCall s op).trace := by
  have hmem : ∀ k w o, .call k w o ∈ (beginCall s op).trace →
      .call k w o ∈ s.trace ∨ (k = s.calls ∧ w = s.coCurrent ∧ o = op.name) := by
    intro k w o hc
    rw [beginCall_trace] at hc
    simpa using hc
  refine ⟨fun k w o hc => ?_, fun k w o w' o' hc hc' => ?_, fun e he => ?_⟩
  · rw [calls_beginCall]
    rcases hmem k w o hc with hc | ⟨rfl, -⟩
    · have := h.call_lt k w o hc
      omega
    · omega
  · rcases hmem k w o hc with hc | ⟨rfl, rfl, rfl⟩ <;>
      rcases hmem _ w' o' hc' with hc' | ⟨he, rfl, rfl⟩
    · exact h.unique k w o w' o' hc hc'
    · exact absurd (h.call_lt k w o hc) (by omega)
    · exact absurd (h.call_lt _ w' o' hc') (by omega)
    · exact ⟨rfl, rfl⟩
  · rw [beginCall_trace] at he
    rcases List.mem_append.mp he with he | he
    · exact (h.attributed e he).mono fun e' he' => (beginCall_extends s op).mem he'
    · rw [List.mem_singleton.mp he]
      exact attributed_of_none rfl

theorem Move.callInv {os : List Obj} {p p' : Option Nat × St} (hm : Move s₀ a os p p')
    (hi₀ : Inv False s₀.coCurrent s₀.toSched) (hi : Inv False p.1 p.2.toSched)
    (h₀ : CallInv s₀) (hext : Extends s₀ p.2) (h : CallInv p.2) :
    CallInv p'.2 ∧ Extends p.2 p'.2 := by
  have hhist : (∀ k w o, .call k w o ∈ p'.2.trace → k < p'.2.calls) ∧
      (∀ k w o w' o', .call k w o ∈ p'.2.trace → .call k w' o' ∈ p'.2.trace → w = w' ∧ o = o') ∧
      (∀ e ∈ p'.2.trace, e.attributed p'.2.trace) ∧ Extends p.2 p'.2 := by
    rcases hm.adds hi₀ hi h with ⟨op, -, hp, hp'⟩ | ⟨es, hadd⟩
    · rw [hp', hp]
      obtain ⟨h1, h2, h3⟩ := h₀.beginCall_history op
      exact ⟨h1, h2, h3, beginCall_extends s₀ op⟩
    · refine ⟨fun k w o hc => ?_, fun k w o w' o' hc hc' => ?_, fun e he => ?_, hadd.extends⟩
      · rw [hadd.calls]
        exact h.call_lt k w o (hadd.call_mem hc)
      · exact h.unique k w o w' o' (hadd.call_mem hc) (hadd.call_mem hc')
      · rw [hadd.trace] at he
        have hmono : ∀ e ∈ p.2.trace, e ∈ p'.2.trace := fun e he => hadd.extends.mem he
        rcases List.mem_append.mp he with he | he
        · exact (h.attributed e he).mono hmono
        · exact (hadd.plain e he).2.mono hmono
  obtain ⟨h1, h2, h3, hext'⟩ := hhist
  refine ⟨⟨h1, fun k r hr => ?_, h2, fun c hc => ?_, fun c hc r hr => ?_, h3⟩, hext'⟩
  · obtain ⟨w, op, hc⟩ := h.returned k r (hext'.ret hr)
    exact ⟨w, op, hext'.mem hc⟩
  · cases hm.inCall hi₀ hi c hc with
    | stays hs =>
      obtain ⟨hin, hcall, hfits⟩ := hs
      obtain ⟨op, hop, hf⟩ := h.inside c hin
      exact ⟨op, hcall ▸ hext'.mem hop, hfits op hf⟩
    | begun hb hcur hcall hf =>
      refine ⟨_, ?_, hf⟩
      have := hext'.mem hb.call_mem
      rwa [hcur, ← hcall] at this
    | resumed hs =>
      obtain ⟨hin, hcall, hfits⟩ := hs
      obtain ⟨op, hop, hf⟩ := h₀.inside c hin
      exact ⟨op, hcall ▸ hext'.mem (hext.mem hop), hfits op hf⟩
  · have hr' := hext'.ret hr
    cases hm.inCall hi₀ hi c hc with
    | stays hs => exact h.unreturned c hs.1 r (hs.2.1 ▸ hr')
    | begun hb hcur hcall hf =>
      have hlt := h₀.ret_lt (hext.ret hr')
      rw [hcall] at hlt
      exact Nat.lt_irrefl _ hlt
    | resumed hs => exact h₀.unreturned c hs.1 r (hs.2.1 ▸ hext.ret hr')

/-- What a call has done by the time it returns. -/
theorem Moves.callInv {p p' : Option Nat × St} (hm : Moves s₀ a p p')
    (hi₀ : Inv False s₀.coCurrent s₀.toSched) (hi : Inv False p.1 p.2.toSched)
    (h₀ : CallInv s₀) (hext : Extends s₀ p.2) (h : CallInv p.2) :
    Inv False p'.1 p'.2.toSched ∧ CallInv p'.2 ∧ Extends p.2 p'.2 := by
  induction hm with
  | refl => exact ⟨hi, h, .refl _⟩
  | tail _ hm ih =>
    obtain ⟨os, hm⟩ := hm
    obtain ⟨hi', hc, he⟩ := ih
    obtain ⟨hc', he'⟩ := hm.callInv hi₀ hi' h₀ (hext.trans he) hc
    exact ⟨hm.inv (fun h => h.elim) hi', hc', he.trans he'⟩

/-- The call that did them is in the history. -/
theorem Moves.begun {op : Op} {t : St}
    (hm : Moves s (.call op) (s.coCurrent, beginCall s op) (cur, t))
    (hi₀ : Inv False s.coCurrent s.toSched) (h₀ : CallInv s) :
    .call s.calls s.coCurrent op.name ∈ t.trace := by
  have hb : Begins s (.call op) (beginCall s op) op := ⟨rfl, rfl⟩
  have hinv : Move s (.call op) [] (s.coCurrent, s) (s.coCurrent, beginCall s op) := .invoke rfl
  obtain ⟨hcb, heb⟩ := hinv.callInv hi₀ hi₀ h₀ (.refl s) h₀
  have hib : Inv False s.coCurrent (beginCall s op).toSched := hinv.inv (fun h => h.elim) hi₀
  obtain ⟨-, -, he⟩ := hm.callInv hi₀ hib h₀ heb hcb
  exact he.mem hb.call_mem

/-- The call that returns, and that nobody else is inside it. -/
theorem Returns.caller {t : St} {k : Nat} {r : Ret} (hr : Returns s a t k r)
    (hi₀ : Inv False s.coCurrent s.toSched) (hi : Inv False t.coCurrent t.toSched)
    (h₀ : CallInv s) (hext : Extends s t) (h : CallInv t) :
    (∃ w op, .call k w op ∈ t.trace) ∧ ∀ c, (t.co c).inCall = true → (t.co c).call ≠ k := by
  have hout : ∀ w op, .call k w op ∈ t.trace → t.coCurrent = w → ∀ c, (t.co c).inCall = true →
      (t.co c).call ≠ k := by
    intro w op hc hw c hin he
    obtain ⟨op', hop', -⟩ := h.inside c hin
    rw [he] at hop'
    have hcur : t.coCurrent = some c := hw.trans (h.unique _ _ _ _ _ hc hop').1
    rw [not_inCall_user ((hi.user c).mpr hcur)] at hin
    cases hin
  cases hr with
  | @call op r t hrun hm hcur =>
    have hcall := hm.begun hi₀ h₀
    exact ⟨⟨_, _, hcall⟩, hout _ _ hcall hcur⟩
  | @resumed c rest e r t hq hf hres hcur =>
    obtain ⟨hst, hsus, -⟩ := hi₀.ready_fields hq
    obtain ⟨op, hop, -⟩ := h₀.inside c (by simp [Routine.inCall, hsus, hf])
    exact ⟨⟨_, _, hext.mem hop⟩, hout _ _ (hext.mem hop) hcur⟩

/-- Who returns from a call: the caller of the call that began, or the coroutine that
was dispatched out of it. -/
theorem Returns.origin {t : St} {k : Nat} {r : Ret} {w : Option Nat} {op : OpName} (hr : Returns s a t k r)
    (hi₀ : Inv False s.coCurrent s.toSched) (h₀ : CallInv s) (hext : Extends s t)
    (hcall : CallInv t) (hmem : .call k w op ∈ t.trace) :
    (∃ o : Op, o.name = op ∧ k = s.calls ∧ runOp (beginCall s o) k o = .ret r t) ∨
    ∃ c rest e, s.queues .ready = c :: rest ∧ (s.co c).call = k ∧ (s.co c).frame.fits op = true ∧
      resume (switchTo { s with queues := Function.update s.queues .ready rest } c) c e
        (s.co c).frame = .ret r t := by
  cases hr with
  | @call o r t hrun hmv hcur =>
    obtain ⟨-, hname⟩ := hcall.unique _ _ _ _ _ (hmv.begun hi₀ h₀) hmem
    exact .inl ⟨o, hname, rfl, hrun⟩
  | @resumed c rest e r t hq hf hres hcur =>
    obtain ⟨-, hsus, -⟩ := hi₀.ready_fields hq
    obtain ⟨op', hop', hfits⟩ := h₀.inside c (by simp [Routine.inCall, hsus, hf])
    obtain ⟨-, hname⟩ := hcall.unique _ _ _ _ _ (hext.mem hop') hmem
    exact .inr ⟨c, rest, e, hq, rfl, hname ▸ hfits, hres⟩

theorem CallInv.ret {k : Nat} {r : Ret} (h : CallInv s) (hk : ∃ w op, .call k w op ∈ s.trace)
    (hout : ∀ c, (s.co c).inCall = true → (s.co c).call ≠ k) : CallInv (s.emit (.ret k r)) := by
  have hcall : ∀ {k w op}, .call k w op ∈ (s.emit (.ret k r)).trace → .call k w op ∈ s.trace := by
    intro k w op hm
    simpa [St.emit] using hm
  have hmono : ∀ e ∈ s.trace, e ∈ (s.emit (.ret k r)).trace := fun e he =>
    List.mem_append_left _ he
  refine ⟨fun k w op hc => h.call_lt k w op (by simpa [St.emit] using hc), fun k' r' hr => ?_,
    fun k w op w' op' hc hc' => h.unique k w op w' op' (by simpa [St.emit] using hc)
      (by simpa [St.emit] using hc'), fun c hc => ?_, fun c hc r' hr => ?_, fun e he => ?_⟩
  · simp only [St.emit, List.mem_append, List.mem_singleton, Event.ret.injEq] at hr
    rcases hr with hr | ⟨rfl, -⟩
    · obtain ⟨w, op, hc⟩ := h.returned k' r' hr
      exact ⟨w, op, hmono _ hc⟩
    · obtain ⟨w, op, hc⟩ := hk
      exact ⟨w, op, hmono _ hc⟩
  · obtain ⟨op, hop, hf⟩ := h.inside c hc
    exact ⟨op, hmono _ hop, hf⟩
  · simp only [St.emit, List.mem_append, List.mem_singleton, Event.ret.injEq] at hr
    rcases hr with hr | ⟨he, -⟩
    · exact h.unreturned c hc r' hr
    · exact hout c hc he
  · simp only [St.emit, List.mem_append, List.mem_singleton] at he
    rcases he with he | rfl
    · exact (h.attributed e he).mono hmono
    · exact attributed_of_none rfl

/-- The step rule, with the numbers of calls at hand. -/
theorem CallInv.step_rule {K J : St → Prop} (h : CallInv s) (hp : Placed run s)
    (hl : leaks s a = false) (hs : step s a = some s') (hK : K s)
    (hmove : ∀ os p p', Move s a os p p' → Inv False p.1 p.2.toSched → CallInv p.2 →
      Extends s p.2 → K p.2 → K p'.2)
    (hend : ∀ t, CallInv t → Extends s t → K t → J t)
    (hret : ∀ t k r, Inv False t.coCurrent t.toSched → CallInv t → Extends s t → K t →
      Returns s a t k r → CallInv (t.emit (.ret k r)) → J (t.emit (.ret k r))) : J s' := by
  have hi₀ : Inv False s.coCurrent s.toSched := (hp.current hs).mono fun h => h.elim
  refine Libco.step_rule (K := fun t => (CallInv t ∧ Extends s t) ∧ K t) hp hl hs
    ⟨⟨h, .refl s⟩, hK⟩ ?_ ?_ ?_
  · rintro os p p' hm hi ⟨⟨hc, he⟩, hk⟩
    obtain ⟨hc', he'⟩ := hm.callInv hi₀ hi h he hc
    exact ⟨⟨hc', he.trans he'⟩, hmove os p p' hm hi hc he hk⟩
  · rintro t ⟨⟨hc, he⟩, hk⟩
    exact hend t hc he hk
  · rintro t k r hi ⟨⟨hc, he⟩, hk⟩ hr
    obtain ⟨hcaller, hout⟩ := hr.caller hi₀ hi h he hc
    exact hret t k r hi hc he hk hr (hc.ret hcaller hout)

/-! ## Looking up a call -/

/-- Who made call `k`, and of which function. -/
def callOf (h : List Event) (k : Nat) : Option (Option Nat × OpName) :=
  h.findSome? fun
    | .call k' w op => if k' = k then some (w, op) else none
    | _ => none

theorem callOf_eq {h : List Event} {k : Nat} {w : Option Nat} {op : OpName} (hm : .call k w op ∈ h)
    (hu : ∀ w' op', .call k w' op' ∈ h → w' = w ∧ op' = op) : callOf h k = some (w, op) := by
  cases hc : callOf h k with
  | none =>
    have := List.findSome?_eq_none_iff.mp hc _ hm
    simp at this
  | some p =>
    obtain ⟨e, he, hp⟩ := List.exists_of_findSome?_eq_some hc
    cases e <;> simp at hp
    obtain ⟨rfl, rfl⟩ := hp
    obtain ⟨rfl, rfl⟩ := hu _ _ he
    rfl

theorem CallInv.callOf {k : Nat} {w : Option Nat} {op : OpName} (h : CallInv s)
    (hm : .call k w op ∈ s.trace) : callOf s.trace k = some (w, op) :=
  callOf_eq hm fun w' op' hm' => h.unique k w' op' w op hm' hm

/-! ## What a step adds to the history -/

/-- Step `a` taken in `s₀` has begun its call, if it is one, and has made no other call
and no return. -/
def Added (s₀ s : St) (a : Act) : Prop :=
  ∃ es, (∀ e ∈ es, e.isCall = false) ∧
    (s.trace = s₀.trace ++ es ∨
      ∃ op, a = .call op ∧ s.trace = s₀.trace ++ .call s₀.calls s₀.coCurrent op.name :: es)

theorem Added.refl (s : St) (a : Act) : Added s s a := ⟨[], by simp, .inl (by simp)⟩

theorem Move.added {os : List Obj} {p p' : Option Nat × St} (hm : Move s₀ a os p p')
    (hi₀ : Inv False s₀.coCurrent s₀.toSched) (hi : Inv False p.1 p.2.toSched) (h : CallInv p.2)
    (hadd : Added s₀ p.2 a) : Added s₀ p'.2 a := by
  rcases hm.adds hi₀ hi h with ⟨op, ha, -, hp'⟩ | ⟨es', hes'⟩
  · refine ⟨[], by simp, .inr ⟨op, ha, ?_⟩⟩
    rw [hp', beginCall_trace]
  · obtain ⟨es, hn, hes⟩ := hadd
    have hquiet : ∀ e ∈ es ++ es', e.isCall = false := by
      intro e he
      rcases List.mem_append.mp he with he | he
      · exact hn e he
      · exact (hes'.plain e he).1
    refine ⟨es ++ es', hquiet, ?_⟩
    rcases hes with hes | ⟨op, ha, hes⟩
    · left
      rw [hes'.trace, hes, List.append_assoc]
    · right
      refine ⟨op, ha, ?_⟩
      rw [hes'.trace, hes, List.append_assoc, List.cons_append]

theorem CallInv.step (h : CallInv s) (hp : Placed run s) (hl : leaks s a = false)
    (hs : step s a = some s') : CallInv s' :=
  h.step_rule (K := fun _ => True) hp hl hs trivial (fun _ _ _ _ _ _ _ _ => trivial)
    (fun _ hc _ _ => hc) fun _ _ _ _ _ _ _ _ hc => hc

theorem callInv_init (cfg : Config) : CallInv (init cfg) := by
  refine ⟨?_, ?_, ?_, ?_, ?_, ?_⟩ <;> simp [init, Routine.zero, Routine.inCall, Frame.suspended]

end Libco
