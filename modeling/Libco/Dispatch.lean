import Libco.OnePlace

/-!
# Dispatch is first come, first served

The history tells who is in the ready queue at any moment: those made ready
and not dispatched since (`ReadyAt`). Whoever is made ready is dispatched
right after those who were in the queue then, each of them once, whatever made
it ready; a coroutine that yields is an instance.
-/

namespace Libco
open Lib

variable {run : Prop} {s s' t : St} {a : Act} {c : Nat}

/-! ## Histories -/

/-- After the history `h` the coroutines `q` are made ready and not yet dispatched. -/
def ReadyAt (h : List Event) (q : List Nat) : Prop := readySeq h = dispatchSeq h ++ q

/-- A coroutine is made ready while others are, and it is not one of them. -/
def readyLaw (past : List Event) (e : Event) : Prop :=
  ∀ c, e = .ready c → ∃ q, ReadyAt past q ∧ (q ++ [c]).Nodup

/-- Those who are ready when `c` is made ready are dispatched first, then `c`; so far
either all of them and `c` were dispatched, or only some of them. -/
def ServedInTurn (q : List Nat) (c : Nat) (future : List Event) : Prop :=
  q ++ [c] <+: dispatchSeq future ∨ dispatchSeq future <+: q

/-- **Turns.** A history that dispatches in the order of readiness serves everybody in
turn. -/
theorem servedInTurn_of_prefix {past future : List Event} {q : List Nat} (hq : ReadyAt past q)
    (hp : dispatchSeq (past ++ .ready c :: future) <+: readySeq (past ++ .ready c :: future)) :
    ServedInTurn q c future := by
  have hd : dispatchSeq (past ++ .ready c :: future) = dispatchSeq past ++ dispatchSeq future := by
    rw [dispatchSeq_append]
    rfl
  have hr : readySeq (past ++ .ready c :: future) =
      dispatchSeq past ++ ((q ++ [c]) ++ readySeq future) := by
    rw [readySeq_append, hq]
    simp [readySeq]
  rw [hd, hr, List.prefix_append_right_inj] at hp
  rcases List.prefix_or_prefix_of_prefix hp (List.prefix_append (q ++ [c]) _) with h | h
  · rcases List.prefix_concat_iff.mp h with h | h
    · exact .inl (h ▸ List.prefix_refl _)
    · exact .inr h
  · exact .inl h

theorem lawful_ready {past es : List Event} {q : List Nat} (hl : Lawful readyLaw past)
    (hq : ReadyAt past q) (hd : dispatchSeq es = []) (hn : (q ++ readySeq es).Nodup) :
    Lawful readyLaw (past ++ es) := by
  induction es generalizing past q with
  | nil => simpa using hl
  | cons e es ih =>
    have hd' : dispatchSeq [e] = [] ∧ dispatchSeq es = [] := by
      rw [← List.singleton_append, dispatchSeq_append] at hd
      exact List.append_eq_nil_iff.mp hd
    have hseq : readySeq (e :: es) = readySeq [e] ++ readySeq es := readySeq_append [e] es
    rw [hseq, ← List.append_assoc] at hn
    rw [← List.singleton_append, ← List.append_assoc]
    refine ih (q := q ++ readySeq [e]) (lawful_snoc.mpr ⟨hl, ?_⟩) ?_ hd'.2 hn
    · rintro c rfl
      exact ⟨q, hq, (List.nodup_append.mp hn).1⟩
    · rw [ReadyAt, readySeq_append, dispatchSeq_append, hd'.1, hq]
      simp

/-! ## Steps -/

/-- The ready queue is what the history says, and every wake-up obeyed the law. -/
structure InTurn (s : St) : Prop where
  fifo : ReadyFifo s
  law : Lawful readyLaw s.trace

theorem Readied.inTurn (hr : Readied s s') (hn : (s'.queues .ready).Nodup) (h : InTurn s) :
    InTurn s' := by
  refine ⟨hr.readyFifo h.fifo, ?_⟩
  obtain ⟨es, htr, hd, hq⟩ := hr
  rw [htr]
  exact lawful_ready h.law h.fifo hd (hq ▸ hn)

theorem Popped.inTurn (hv : Popped s s') (h : InTurn s) : InTurn s' := by
  refine ⟨hv.readyFifo h.fifo, ?_⟩
  obtain ⟨c, rest, es, -, htr, hr, -, -⟩ := hv
  rw [htr]
  refine h.law.extend fun e he past c hc => ?_
  subst hc
  have : c ∈ readySeq es := List.mem_filterMap.mpr ⟨_, he, rfl⟩
  simp [hr] at this

theorem InTurn.step (h : InTurn s) (hp : Placed run s) (hl : leaks s a = false)
    (hs : step s a = some s') : InTurn s' := by
  refine step_invariant hp hl hs h (fun os p p' hm hi h => ?_) fun t k r hi h _ => ?_
  · rcases hm.ready with hr | ⟨-, hv⟩
    · exact hr.inTurn ((hm.inv (fun h => h.elim) hi).nodup_queue .ready) h
    · exact hv.inTurn h
  · exact (readied_ret t k r).inTurn (hi.nodup_queue .ready) h

theorem inTurn_init (cfg : Config) : InTurn (init cfg) := ⟨rfl, lawful_nil _⟩

/-! ## Runs without I/O calls -/

/-- Neither an I/O call nor an allocation that fails. -/
def fair (_ : St) (a : Act) : Bool := !a.isIo && !a.allocFails

def Fair (s₀ : St) : St → Prop := Reach step (fun s a => fair s a = true) s₀

theorem fair_split (h : fair s a = true) : a.isIo = false ∧ a.allocFails = false := by
  simpa [fair] using h

/-- What every state of such a run has. -/
structure FairInv (s : St) : Prop where
  placed : Placed True s
  noIo : NoIo s
  inTurn : InTurn s

theorem FairInv.step (h : FairInv s) (hg : fair s a = true) (hs : step s a = some s') :
    FairInv s' := by
  obtain ⟨hio, hal⟩ := fair_split hg
  have hl := h.noIo.leaks hio
  exact ⟨h.placed.step (fun _ => hal) hl hs, h.noIo.step h.placed hio hs,
    h.inTurn.step h.placed hl hs⟩

theorem Fair.inv {s₀ : St} (h₀ : FairInv s₀) (h : Fair s₀ s) : FairInv s :=
  h.invariant h₀ fun _ _ _ hi hg hs => hi.step hg hs

theorem fairInv_init (cfg : Config) : FairInv (init cfg) :=
  ⟨placed_init cfg, fun _ => rfl, inTurn_init cfg⟩

/-- Histories only grow. -/
theorem step_trace (hp : Placed run s) (hl : leaks s a = false) (hs : step s a = some s') :
    s.trace <+: s'.trace := by
  refine step_invariant (J := fun t => s.trace <+: t.trace) hp hl hs (List.prefix_refl _) ?_ ?_
  · intro os p p' hm _ h
    rcases hm.ready with ⟨es, htr, -⟩ | ⟨-, _, _, es, -, htr, -⟩
    · exact htr ▸ h.trans (List.prefix_append _ _)
    · exact htr ▸ h.trans (List.prefix_append _ _)
  · exact fun t k r _ h _ => h.trans (List.prefix_append _ _)

theorem Fair.trace {s₀ : St} (h₀ : FairInv s₀) (h : Fair s₀ s) : s₀.trace <+: s.trace := by
  refine (h.invariant (P := fun s => FairInv s ∧ s₀.trace <+: s.trace)
    ⟨h₀, List.prefix_refl _⟩ ?_).2
  rintro s a s' ⟨hi, hp⟩ hg hs
  exact ⟨hi.step hg hs, hp.trans (step_trace hi.placed (hi.noIo.leaks (fair_split hg).1) hs)⟩

structure FirstComeFirstServed (s : St) : Prop where
  /-- coroutines are dispatched in the order they were made ready, and those made
  ready and not dispatched are the ready queue -/
  order : readySeq s.trace = dispatchSeq s.trace ++ s.queues .ready
  /-- a coroutine made ready behind `q` is dispatched right after `q` -/
  turn : ∀ past c future, s.trace = past ++ .ready c :: future →
    ∃ q, ReadyAt past q ∧ q.Nodup ∧ c ∉ q ∧ ServedInTurn q c future

theorem InTurn.served (h : InTurn s) : FirstComeFirstServed s := by
  refine ⟨h.fifo, fun past c future htr => ?_⟩
  obtain ⟨q, hq, hn⟩ := h.law past _ future htr c rfl
  have hpre : dispatchSeq s.trace <+: readySeq s.trace := by
    rw [h.fifo]
    exact List.prefix_append _ _
  rw [List.nodup_append] at hn
  refine ⟨q, hq, hn.1, fun hm => hn.2.2 c hm c (by simp) rfl, servedInTurn_of_prefix hq ?_⟩
  rwa [htr] at hpre

/-- `co_yield_now` goes to the end of the ready queue. -/
theorem yield_trace (hc : s.coCurrent = some c) (hs : step s (.call .yieldNow) = some s') :
    s'.trace = (s.trace ++ [Event.call s.calls (some c) .yieldNow]) ++ Event.ready c :: [] := by
  have huser : inUserCode s = true := by
    unfold St.coCurrent at hc
    split at hc
    · rename_i hctl
      simp [inUserCode, hctl]
    · cases hc
  have hcur : (beginCall s .yieldNow).coCurrent = some c := (beginCall_coCurrent s _).trans hc
  simp only [step, huser, if_true, Option.some.injEq, runOp, coYieldNow, hcur] at hs
  subst hs
  have htr : (beginCall s .yieldNow).trace =
      s.trace ++ [Event.call s.calls (some c) .yieldNow] := by
    rw [← hc]
    exact beginCall_trace s .yieldNow
  rw [← htr]
  rfl

/-- **Dispatch is first come, first served.** At a yield with `s.queues .ready` in the
ready queue, these are dispatched before the yielding coroutine, each once. -/
theorem dispatch_in_order {cfg : Config} (h : Fair (init cfg) s) :
    FirstComeFirstServed s ∧
      ∀ c s₁ s₂, s.coCurrent = some c → step s (.call .yieldNow) = some s₁ → Fair s₁ s₂ →
        ∃ future, s₂.trace = s₁.trace ++ future ∧ (s.queues .ready).Nodup ∧
          c ∉ s.queues .ready ∧ ServedInTurn (s.queues .ready) c future := by
  have hi := h.inv (fairInv_init cfg)
  refine ⟨hi.inTurn.served, fun c s₁ s₂ hc hs hf => ?_⟩
  have hi₁ := hi.step (a := .call .yieldNow) rfl hs
  have hi₂ := hf.inv hi₁
  obtain ⟨future, hfut⟩ := hf.trace hi₁
  have htr := yield_trace hc hs
  rw [htr, List.append_assoc, List.cons_append, List.nil_append] at hfut
  obtain ⟨q, hq, hn, hm, hturn⟩ := hi₂.inTurn.served.turn _ c future hfut.symm
  have hq' : q = s.queues .ready := by
    have hfifo := hi.inTurn.fifo
    unfold ReadyAt at hq
    unfold ReadyFifo at hfifo
    rw [readySeq_append, dispatchSeq_append, hfifo] at hq
    simpa [readySeq, dispatchSeq] using hq.symm
  subst hq'
  refine ⟨future, ?_, hn, hm, hturn⟩
  rw [htr, ← hfut]
  simp

/-- Three coroutines; the first yields, and runs again after the other two. -/
def yieldRun : List Act := [spawnOk, spawnOk, spawnOk, .run] ++ turn
def afterYieldRun : List Act := turn ++ [Act.call .yieldNow] ++ turn ++ [Act.finish] ++ turn

theorem dispatch_in_order_three :
    ∃ s s₁ s₂, runGuarded step fair (init (byteConfig 0)) yieldRun = some s ∧
      s.coCurrent = some 1 ∧ s.queues .ready = [2, 3] ∧
      step s (.call .yieldNow) = some s₁ ∧ runGuarded step fair s₁ afterYieldRun = some s₂ ∧
      dispatchSeq s₂.trace = [1, 2, 3, 1] ∧
      FirstComeFirstServed s ∧ ∃ future, s₂.trace = s₁.trace ++ future ∧
        ServedInTurn [2, 3] 1 future := by
  have hrun : (runGuarded step fair (init (byteConfig 0)) yieldRun).bind (fun s =>
      (step s (.call .yieldNow)).bind fun s₁ =>
        (runGuarded step fair s₁ afterYieldRun).map fun s₂ =>
          (s.coCurrent, s.queues .ready, dispatchSeq s₂.trace)) =
      some (some 1, [2, 3], [1, 2, 3, 1]) := by
    decide +kernel
  obtain ⟨s, hs, hrun⟩ := Option.bind_eq_some_iff.mp hrun
  obtain ⟨s₁, hs₁, hrun⟩ := Option.bind_eq_some_iff.mp hrun
  obtain ⟨s₂, hs₂, he⟩ := Option.map_eq_some_iff.mp hrun
  simp only [Prod.mk.injEq] at he
  obtain ⟨hc, hq, hd⟩ := he
  obtain ⟨h1, h2⟩ := dispatch_in_order (reach_of_runGuarded hs)
  obtain ⟨future, hf, -, -, hturn⟩ := h2 1 s₁ s₂ hc hs₁ (reach_of_runGuarded hs₂)
  exact ⟨s, s₁, s₂, hs, hc, hq, hs₁, hs₂, hd, h1, future, hf, hq ▸ hturn⟩

end Libco
