import Mathlib.Data.Set.Function
import Libco.Links
import Libco.Deadlines

/-!
# The queues of the scheduler in memory

The list model of `Libco.Queue` names queues by what they belong to and nodes by
their coroutine. Here both lie in one memory of links. A coroutine has one node for
all queues, so the lists mean what the code does only as long as a coroutine is in one
queue at a time; runs in which no timer is left behind keep it so, and in these the
memory holds the lists. The calls of `co_queue.h` that change nothing are left out: a
pop of an empty queue, and the push and the remove of a wait that gets no timer.
-/

namespace Libco
open Lib

variable {w : Nat}

/-! ## Calls -/

/-- A call of `co_queue.h`; a pop with the coroutine it takes out. -/
inductive QueueCall where
  | pushBack (q : QueueRef) (c : Nat)
  | popFront (q : QueueRef) (c : Nat)
  | remove (q : QueueRef) (c : Nat)

/-- `co_queue_pop_front` and the wake-up, for each of `ws`. -/
def wakeCalls (q : QueueRef) (ws : List Nat) : List QueueCall :=
  ws.flatMap fun c => [.popFront q c, .pushBack .ready c]

/-- The calls by which a move changes the queues `Q`, and the queues after them. -/
inductive QueueMove (Q : QueueRef → List Nat) : List QueueCall → (QueueRef → List Nat) → Prop
  /-- a coroutine that is in no queue is queued -/
  | join {q : QueueRef} {c : Nat} (hc : ∀ p, c ∉ Q p) :
      QueueMove Q [.pushBack q c] (Function.update Q q (Q q ++ [c]))
  | dispatch {c : Nat} {rest : List Nat} (hq : Q .ready = c :: rest) :
      QueueMove Q [.popFront .ready c] (Function.update Q .ready rest)
  /-- a dispatched coroutine that finds its mutex taken -/
  | relock {m c : Nat} {rest : List Nat} (hq : Q .ready = c :: rest) :
      QueueMove Q [.popFront .ready c, .pushBack (.mutex m) c]
        (Function.update (Function.update Q .ready rest) (.mutex m) (Q (.mutex m) ++ [c]))
  /-- a wait that ran into its deadline -/
  | expire {q : QueueRef} {c : Nat} (hne : q ≠ .ready) (hc : c ∈ Q q) :
      QueueMove Q [.remove q c, .pushBack .ready c]
        (Function.update (Function.update Q q ((Q q).erase c)) .ready (Q .ready ++ [c]))
  | wake {q : QueueRef} {ws rest : List Nat} (hne : q ≠ .ready) (hq : Q q = ws ++ rest) :
      QueueMove Q (wakeCalls q ws)
        (Function.update (Function.update Q q rest) .ready (Q .ready ++ ws))

inductive QueueMoves (Q : QueueRef → List Nat) : List QueueCall → (QueueRef → List Nat) → Prop
  | none : QueueMoves Q [] Q
  | next {xs ys : List QueueCall} {Q' Q'' : QueueRef → List Nat} (h : QueueMoves Q xs Q')
      (hm : QueueMove Q' ys Q'') : QueueMoves Q (xs ++ ys) Q''

/-! ## The memory -/

/-- Where the queues and the nodes of the coroutines lie. -/
structure Layout (w : Nat) where
  queues : Set QueueRef
  routines : Set Nat
  head : QueueRef → BitVec w
  node : Nat → BitVec w
  head_inj : Set.InjOn head queues
  node_inj : Set.InjOn node routines
  apart : ∀ q ∈ queues, ∀ c ∈ routines, head q ≠ node c

namespace Layout

variable {L : Layout w} {m m' : Links w} {Q Q' : QueueRef → List Nat} {q : QueueRef} {c : Nat}
  {xs : List QueueCall}

/-- The memory holds the queues `Q`. -/
structure Holds (L : Layout w) (m : Links w) (Q : QueueRef → List Nat) : Prop where
  members : ∀ q ∈ L.queues, ∀ c ∈ Q q, c ∈ L.routines
  shared : m.Shared (Set.image L.node L.routines) (fun q : L.queues => L.head q)
    fun q : L.queues => (Q q).map L.node

/-- Initialised queues and nodes. -/
theorem holds_empty (hq : ∀ q ∈ L.queues, m.WellFormed (L.head q) [])
    (hn : ∀ c ∈ L.routines, m.SelfLinked (L.node c)) : L.Holds m fun _ => [] := by
  refine ⟨by simp, Links.shared_nil (fun p q he => Subtype.ext (L.head_inj p.2 q.2 he)) ?_
    (fun q => hq q q.2) ?_⟩
  · rintro q ⟨c, hc, he⟩
    exact L.apart q q.2 c hc he.symm
  · rintro x ⟨c, hc, rfl⟩
    exact hn c hc

/-- A node is in the memory's queue when its coroutine is in the list. -/
theorem Holds.node_mem_iff (h : L.Holds m Q) (hq : q ∈ L.queues) (hc : c ∈ L.routines) :
    L.node c ∈ (Q q).map L.node ↔ c ∈ Q q := by
  constructor
  · intro hm
    obtain ⟨d, hd, he⟩ := List.mem_map.mp hm
    exact L.node_inj (h.members q hq d hd) hc he ▸ hd
  · exact List.mem_map_of_mem

/-- What a call has done to one queue of the memory, seen on the lists. -/
theorem Holds.update (h : L.Holds m Q) (hq : q ∈ L.queues) {l : List Nat}
    (hl : ∀ c ∈ l, c ∈ L.routines)
    (hm : m'.Shared (Set.image L.node L.routines) (fun q : L.queues => L.head q)
      (Function.update (fun p : L.queues => (Q p).map L.node) ⟨q, hq⟩ (l.map L.node))) :
    L.Holds m' (Function.update Q q l) := by
  constructor
  · intro p hp c hc
    by_cases hpq : p = q
    · rw [hpq, Function.update_self] at hc
      exact hl c hc
    · rw [Function.update_of_ne hpq] at hc
      exact h.members p hp c hc
  · convert hm using 1
    funext p
    by_cases hp : p = ⟨q, hq⟩
    · rw [hp, Function.update_self, Function.update_self]
    · rw [Function.update_of_ne hp, Function.update_of_ne]
      intro he
      exact hp (Subtype.ext he)

/-- A call in the memory. A pop must return the node of the coroutine it is said to. -/
def exec (L : Layout w) (m : Links w) : QueueCall → Option (Links w)
  | .pushBack q c => some (m.coQueuePushBack (L.head q) (L.node c))
  | .popFront q c =>
    if (m.coQueuePopFront (L.head q)).1 = some (L.node c) then
      some (m.coQueuePopFront (L.head q)).2
    else none
  | .remove q c => some (m.coQueueRemove (L.head q) (L.node c))

/-- The queue and the coroutine of the call lie in the memory. -/
def Covers (L : Layout w) : QueueCall → Prop
  | .pushBack q c | .popFront q c | .remove q c => q ∈ L.queues ∧ c ∈ L.routines

/-! ## Single calls -/

theorem Holds.push (h : L.Holds m Q) (hx : L.Covers (.pushBack q c))
    (hn : ∀ p ∈ L.queues, c ∉ Q p) :
    ∃ m', L.exec m (.pushBack q c) = some m' ∧
      L.Holds m' (Function.update Q q (Q q ++ [c])) := by
  obtain ⟨hq, hc⟩ := hx
  have hx : ∀ p : L.queues, L.node c ∉ (Q p).map L.node := by
    intro p hm
    exact hn p p.2 ((h.node_mem_iff p.2 hc).mp hm)
  have hpush := (h.shared.pushBack (Set.mem_image_of_mem _ hc) hx ⟨q, hq⟩).shared
  refine ⟨_, rfl, h.update hq (fun d hd => ?_) ?_⟩
  · rcases List.mem_append.mp hd with hd | hd
    · exact h.members q hq d hd
    · rw [List.mem_singleton.mp hd]
      exact hc
  · rw [List.map_append]
    exact hpush

theorem Holds.pop {rest : List Nat} (h : L.Holds m Q) (hq : q ∈ L.queues) (hl : Q q = c :: rest) :
    ∃ m', L.exec m (.popFront q c) = some m' ∧ L.Holds m' (Function.update Q q rest) := by
  have hfst := (h.shared.wellFormed ⟨q, hq⟩).popFront_eq
  have hpop := (h.shared.popFront ⟨q, hq⟩).shared
  dsimp only at hfst hpop
  rw [hl] at hfst hpop
  refine ⟨_, if_pos hfst, h.update hq (fun d hd => ?_) hpop⟩
  exact h.members q hq d (by rw [hl]; exact List.mem_cons_of_mem _ hd)

theorem Holds.erase_map (h : L.Holds m Q) (hq : q ∈ L.queues) (hc : c ∈ L.routines) :
    ((Q q).map L.node).erase (L.node c) = ((Q q).erase c).map L.node := by
  by_cases hm : c ∈ Q q
  · have hsub := h.members q hq
    obtain ⟨l₁, l₂, hn, hl, he⟩ := List.exists_erase_eq hm
    rw [he, hl, List.map_append, List.map_cons, List.erase_append_right, List.erase_cons_head,
      List.map_append]
    intro hd
    obtain ⟨d, hd, heq⟩ := List.mem_map.mp hd
    exact hn (L.node_inj (hsub d (by simp [hl, hd])) hc heq ▸ hd)
  · rw [List.erase_of_not_mem hm]
    apply List.erase_of_not_mem
    intro hd
    exact hm ((h.node_mem_iff hq hc).mp hd)

theorem Holds.remove (h : L.Holds m Q) (hx : L.Covers (.remove q c))
    (hn : ∀ p ∈ L.queues, p ≠ q → c ∉ Q p) :
    ∃ m', L.exec m (.remove q c) = some m' ∧
      L.Holds m' (Function.update Q q ((Q q).erase c)) := by
  obtain ⟨hq, hc⟩ := hx
  have hx : ∀ p : L.queues, p ≠ ⟨q, hq⟩ → L.node c ∉ (Q p).map L.node := by
    intro p hp hm
    exact hn p p.2 (fun he => hp (Subtype.ext he)) ((h.node_mem_iff p.2 hc).mp hm)
  have hrem := h.shared.remove_any (Set.mem_image_of_mem _ hc) hx
  refine ⟨_, rfl, h.update hq (fun d hd => ?_) ?_⟩
  · exact h.members q hq d (List.mem_of_mem_erase hd)
  · rw [← h.erase_map hq hc]
    exact hrem

/-- A coroutine is in one queue, once. -/
theorem Holds.apart (h : L.Holds m Q) {p : QueueRef} (hq : q ∈ L.queues) (hp : p ∈ L.queues)
    (hne : p ≠ q) (hc : c ∈ Q q) : c ∉ Q p := by
  intro hcp
  refine h.shared.disjoint ⟨q, hq⟩ ⟨p, hp⟩ (fun he => hne (Subtype.ext_iff.mp he).symm)
    (List.mem_map_of_mem hc) (List.mem_map_of_mem hcp)

theorem Holds.nodup (h : L.Holds m Q) (hq : q ∈ L.queues) : (Q q).Nodup :=
  ((List.nodup_cons.mp (h.shared.wellFormed ⟨q, hq⟩).distinct).2).of_map _

/-- Whoever has been taken out of its queue is in none. -/
theorem Holds.taken {l : List Nat} (h : L.Holds m Q) (hq : q ∈ L.queues) (hc : c ∈ Q q)
    (hl : c ∉ l) (p : QueueRef) (hp : p ∈ L.queues) : c ∉ Function.update Q q l p := by
  by_cases hpq : p = q
  · rw [hpq, Function.update_self]
    exact hl
  · rw [Function.update_of_ne hpq]
    exact h.apart hq hp hpq hc

/-! ## Moves and runs -/

/-- The loop of the wake-ups. -/
theorem Holds.wake {ws rest : List Nat} (h : L.Holds m Q) (hne : q ≠ .ready)
    (hq : Q q = ws ++ rest) (hx : ∀ x ∈ wakeCalls q ws, L.Covers x) :
    ∃ m', runActs L.exec m (wakeCalls q ws) = some m' ∧
      L.Holds m' (Function.update (Function.update Q q rest) .ready (Q .ready ++ ws)) := by
  induction ws generalizing m Q with
  | nil =>
    rw [List.nil_append] at hq
    refine ⟨m, rfl, ?_⟩
    rw [← hq, List.append_nil, Function.update_eq_self, Function.update_eq_self]
    exact h
  | cons c ws ih =>
    have hpop : L.Covers (.popFront q c) := hx _ (by simp [wakeCalls])
    have hpush : L.Covers (.pushBack .ready c) := hx _ (by simp [wakeCalls])
    have hc : c ∈ Q q := by simp [hq]
    have hfresh : c ∉ ws ++ rest := by
      have hd := h.nodup hpop.1
      rw [hq] at hd
      exact (List.nodup_cons.mp hd).1
    obtain ⟨m₁, he₁, h₁⟩ := h.pop hpop.1 hq
    obtain ⟨m₂, he₂, h₂⟩ := h₁.push hpush (h.taken hpop.1 hc hfresh)
    obtain ⟨m', he, h'⟩ := ih h₂ (by simp [hne]) fun x hm => hx x (by
      simp only [wakeCalls, List.flatMap_cons]
      exact List.mem_append_right _ hm)
    refine ⟨m', (runActs_two he₁ he₂).trans he, ?_⟩
    convert h' using 1
    funext p
    by_cases hp : p = .ready
    · subst hp
      simp [hne.symm]
    · by_cases hpq : p = q
      · subst hpq
        simp [hp]
      · simp [hp, hpq]

/-- The memory follows a move. -/
theorem Holds.move (h : L.Holds m Q) (hm : QueueMove Q xs Q') (hx : ∀ x ∈ xs, L.Covers x) :
    ∃ m', runActs L.exec m xs = some m' ∧ L.Holds m' Q' := by
  cases hm with
  | @join q c hc =>
    obtain ⟨m', he, h'⟩ := h.push (hx _ List.mem_cons_self) fun p _ => hc p
    exact ⟨m', by simp [runActs, he], h'⟩
  | @dispatch c rest hq =>
    have hpop : L.Covers (.popFront .ready c) := hx _ List.mem_cons_self
    obtain ⟨m', he, h'⟩ := h.pop hpop.1 hq
    exact ⟨m', by simp [runActs, he], h'⟩
  | @relock mu c rest hq =>
    have hpop : L.Covers (.popFront .ready c) := hx _ (by simp)
    obtain ⟨m₁, he₁, h₁⟩ := h.pop hpop.1 hq
    have hfresh : c ∉ rest := by
      have hd := h.nodup hpop.1
      rw [hq] at hd
      exact (List.nodup_cons.mp hd).1
    obtain ⟨m₂, he₂, h₂⟩ := h₁.push (q := .mutex mu) (hx _ (by simp))
      (h.taken hpop.1 (by simp [hq]) hfresh)
    refine ⟨m₂, runActs_two he₁ he₂, ?_⟩
    rwa [Function.update_of_ne (by simp)] at h₂
  | @expire q c hne hc =>
    have hrem : L.Covers (.remove q c) := hx _ (by simp)
    obtain ⟨m₁, he₁, h₁⟩ := h.remove hrem fun p hp hpq => h.apart hrem.1 hp hpq hc
    obtain ⟨m₂, he₂, h₂⟩ := h₁.push (q := .ready) (hx _ (by simp))
      (h.taken hrem.1 hc (h.nodup hrem.1).not_mem_erase)
    refine ⟨m₂, runActs_two he₁ he₂, ?_⟩
    rwa [Function.update_of_ne hne.symm] at h₂
  | wake hne hq => exact h.wake hne hq hx

theorem Holds.moves (h : L.Holds m Q) (hm : QueueMoves Q xs Q') (hx : ∀ x ∈ xs, L.Covers x) :
    ∃ m', runActs L.exec m xs = some m' ∧ L.Holds m' Q' := by
  induction hm with
  | none => exact ⟨m, rfl, h⟩
  | next _ hm ih =>
    obtain ⟨m₁, he₁, h₁⟩ := ih fun x hm => hx x (List.mem_append_left _ hm)
    obtain ⟨m₂, he₂, h₂⟩ := h₁.move hm fun x hm => hx x (List.mem_append_right _ hm)
    exact ⟨m₂, (runActs_append he₁).trans he₂, h₂⟩

end Layout

/-! ## The scheduler's calls -/

variable {run : Prop} {s s' s₀ : St} {a : Act} {c : Nat} {cur : Option Nat}

theorem QueueMove.moves {Q Q' : QueueRef → List Nat} {xs : List QueueCall}
    (h : QueueMove Q xs Q') : QueueMoves Q xs Q' := .next .none h

theorem Inv.not_queued (hi : Inv run cur s.toSched) (hc : (s.co c).home = none) (q : QueueRef) :
    c ∉ s.queues q := by
  intro hm
  rw [hi.mem_queue hm] at hc
  cases hc

theorem Blocks.queueMoves {r : Routine} (h : Blocks s s' c r)
    (hi : Inv run (some c) s.toSched) : ∃ xs, QueueMoves s.queues xs s'.queues := by
  have hq := h.queues
  cases hw : r.frame.waitQueue with
  | none =>
    rw [hw] at hq
    exact ⟨_, by rw [hq]; exact .none⟩
  | some q =>
    rw [hw] at hq
    rw [hq]
    exact ⟨_, (QueueMove.join fun p => List.count_eq_zero.mp ((hi.out rfl).1 p)).moves⟩

theorem Expires.queueMoves (h : Expires s s' c) (hi : Inv run cur s.toSched) :
    ∃ xs, QueueMoves s.queues xs s'.queues := by
  have hhome : (s.co c).home = (s.co c).frame.waitQueue := by
    simp [Routine.home, Frame.timed_suspended h.timed, h.waiting]
  have hq := h.queues
  cases hw : (s.co c).frame.waitQueue with
  | none =>
    rw [hw] at hq hhome
    rw [hq]
    exact ⟨_, (QueueMove.join (hi.not_queued hhome)).moves⟩
  | some q =>
    rw [hw] at hq hhome
    rw [hq]
    exact ⟨_, (QueueMove.expire (Frame.waitQueue_ne_ready hw) (hi.mem_of_home hhome)).moves⟩

theorem Polled.queueMoves {f : Frame} (h : Polled s s' c f) (hi : Inv run cur s.toSched) :
    ∃ xs, QueueMoves s.queues xs s'.queues := by
  obtain ⟨hsus, hwq, -⟩ := Frame.io_suspended h.like.io
  rw [h.queues]
  split
  · rename_i hst
    exact ⟨_, (QueueMove.join (hi.not_queued (by simp [Routine.home, hsus, hst, hwq]))).moves⟩
  · exact ⟨_, .none⟩

/-- **Each move is a sequence of calls that the memory can follow.** -/
theorem Move.queueMoves {os : List Obj} {p p' : Option Nat × St} (hm : Move s₀ a os p p')
    (hi : Inv run p.1 p.2.toSched) : ∃ xs, QueueMoves p.2.queues xs p'.2.queues := by
  cases hm with
  | admin had => exact ⟨_, by rw [had.queues]; exact .none⟩
  | invoke ha => exact ⟨_, by rw [beginCall_queues]; exact .none⟩
  | finish hs' =>
    obtain ⟨pool, he⟩ := finish_eq _ _
    exact ⟨_, by rw [hs', he]; exact .none⟩
  | touch ht hs => exact ⟨_, by rw [ht.queues]; exact .none⟩
  | skipId | dropTimer | take | unlock | placeRing | takeRing => exact ⟨_, .none⟩
  | spawn hs =>
    rw [hs.queues]
    refine ⟨_, (QueueMove.join (hi.not_queued ?_)).moves⟩
    have hnew := hi.fresh _ (le_refl _)
    dsimp only at hnew ⊢
    simp [Routine.home, hnew, Frame.suspended]
  | @yieldNow c op s hb hf =>
    refine ⟨[.pushBack .ready c], ?_⟩
    have hout : ∀ p, c ∉ s.queues p := fun p => List.count_eq_zero.mp ((hi.out rfl).1 p)
    have hjoin := (QueueMove.join (q := .ready) hout).moves
    simpa [coSchedulerEnqueue, coQueuePushBack, St.modify, St.emit] using hjoin
  | block hb hf hbl => exact hbl.queueMoves hi
  | drain hold hf hbl => exact hbl.queueMoves hi
  | dispatch hd =>
    rw [hd.queues]
    exact ⟨_, (QueueMove.dispatch hd.ready).moves⟩
  | relock hr =>
    rw [hr.queues]
    exact ⟨_, (QueueMove.relock hr.ready).moves⟩
  | expire he => exact he.queueMoves hi
  | polled hp => exact hp.queueMoves hi
  | handoff ha hop hpre hcur hl hq => exact ⟨_, (QueueMove.wake (by simp) hq).moves⟩
  | notify hq he => exact ⟨_, (QueueMove.wake (by simp) hq).moves⟩
  | placeHand hb hop hcl hq => exact ⟨_, (QueueMove.wake (by simp) hq).moves⟩
  | takeRefill hb hop hpos hq => exact ⟨_, (QueueMove.wake (by simp) hq).moves⟩
  | takeMeet hb hop hzero hq => exact ⟨_, (QueueMove.wake (by simp) hq).moves⟩
  | @close cur h op s hb hop hcl =>
    -- the receivers first, then the senders
    exact ⟨_, .next (QueueMove.wake (by simp) (List.append_nil _).symm).moves
      (@QueueMove.wake _ (.send h) (s.queues (.send h)) [] (by simp) (by simp))⟩

theorem QueueMoves.trans {Q Q' Q'' : QueueRef → List Nat} {xs ys : List QueueCall}
    (h : QueueMoves Q xs Q') (h' : QueueMoves Q' ys Q'') : QueueMoves Q (xs ++ ys) Q'' := by
  induction h' with
  | none => rwa [List.append_nil]
  | next _ hm ih =>
    rw [← List.append_assoc]
    exact .next ih hm

theorem step_queueMoves (hp : Placed run s) (hl : leaks s a = false) (hs : step s a = some s') :
    ∃ xs, QueueMoves s.queues xs s'.queues := by
  refine step_invariant (J := fun t => ∃ xs, QueueMoves s.queues xs t.queues) hp hl hs
    ⟨_, .none⟩ ?_ (fun _ _ _ _ h _ => h)
  rintro os p p' hm hi ⟨xs, hxs⟩
  obtain ⟨ys, hys⟩ := hm.queueMoves hi
  exact ⟨_, hxs.trans hys⟩

/-- **The lists are the queues in memory** in every run that leaves no timer behind: the
calls of the run, made in a memory of empty queues and unlinked nodes, pop the nodes of the
coroutines the lists pop, and leave the lists of the state. -/
theorem memory_holds_queues {cfg : Config} (h : Leakless cfg s) :
    ∃ xs, QueueMoves (fun _ => []) xs s.queues ∧
      ∀ (w : Nat) (L : Layout w) (m : Links w), (∀ x ∈ xs, L.Covers x) →
        (∀ q ∈ L.queues, m.WellFormed (L.head q) []) →
        (∀ c ∈ L.routines, m.SelfLinked (L.node c)) →
        ∃ m', runActs L.exec m xs = some m' ∧ L.Holds m' s.queues := by
  have hrun : ∃ xs, QueueMoves (fun _ => []) xs s.queues := by
    refine (Reach.invariant (P := fun t => Placed False t ∧
      ∃ xs, QueueMoves (fun _ => []) xs t.queues) h ⟨placed_init cfg, _, .none⟩ ?_).2
    rintro t a t' ⟨hp, xs, hxs⟩ hg hs
    have hl : leaks t a = false := by simpa [leakless] using hg
    obtain ⟨ys, hys⟩ := step_queueMoves hp hl hs
    exact ⟨hp.step (fun h => h.elim) hl hs, _, hxs.trans hys⟩
  obtain ⟨xs, hxs⟩ := hrun
  exact ⟨xs, hxs, fun w L m hx hq hn => (Layout.holds_empty hq hn).moves hxs hx⟩

end Libco
