import Mathlib.Data.List.Infix
import Mathlib.Logic.Function.Basic
import Mathlib.Logic.Relation

/-!
# Deterministic process networks

Processes that talk over unbounded first-in first-out streams. A stream has one
process that sends on it and closes it, and one that receives from it; what a
process does next depends on nothing but the answers it got so far. The order in
which the processes take their turns then does not matter: two runs of a network
never disagree about an answer, one has only come further than the other
(`determinate`).
-/

namespace Libco.Lib

variable {ε β : Type}

/-! ## Lists read with their past -/

/-- What `f` says about each element of a list, given those before it. -/
def annotate (f : List ε → ε → List β) : List ε → List ε → List β
  | _, [] => []
  | past, e :: es => f past e ++ annotate f (past ++ [e]) es

theorem annotate_append (f : List ε → ε → List β) (past es fs : List ε) :
    annotate f past (es ++ fs) = annotate f past es ++ annotate f (past ++ es) fs := by
  induction es generalizing past with
  | nil => simp [annotate]
  | cons e es ih =>
    rw [List.cons_append, annotate, annotate, ih, List.append_assoc, List.append_assoc,
      List.singleton_append]

theorem annotate_snoc (f : List ε → ε → List β) (past es : List ε) (e : ε) :
    annotate f past (es ++ [e]) = annotate f past es ++ f (past ++ es) e := by
  rw [annotate_append]
  simp [annotate]

/-- Elements that `f` says nothing about. -/
theorem annotate_eq_nil {f : List ε → ε → List β} {es : List ε}
    (h : ∀ e ∈ es, ∀ past, f past e = []) (past : List ε) : annotate f past es = [] := by
  induction es generalizing past with
  | nil => rfl
  | cons e es ih =>
    rw [annotate, h e (by simp), ih fun e' he' => h e' (by simp [he'])]
    rfl

/-! ## Networks -/

inductive Request (η α : Type) where
  | send (h : η) (x : α)
  | receive (h : η)
  | close (h : η)
  deriving DecidableEq

def Request.stream {η α : Type} : Request η α → η
  | .send h _ | .receive h | .close h => h

inductive Answer (α : Type) where
  | done
  /-- the stream is closed, and for a receive also empty -/
  | closed
  | value (x : α)
  deriving DecidableEq, Repr

/-- The program of each process: its next request after the answers it got, if it has
not come to its end. -/
structure Network (ι η α : Type) where
  prog : ι → List (Answer α) → Option (Request η α)
  sender : η → ι
  receiver : η → ι
  send_own : ∀ {i l h x}, prog i l = some (.send h x) → sender h = i
  close_own : ∀ {i l h}, prog i l = some (.close h) → sender h = i
  receive_own : ∀ {i l h}, prog i l = some (.receive h) → receiver h = i

namespace Network

variable {ι η α : Type} [DecidableEq ι] [DecidableEq η] {N : Network ι η α}
  {x y z : ι → List (Answer α)} {i j : ι} {h : η} {q : Request η α} {a : Answer α}

/-- The requests behind a list of answers. -/
def log (N : Network ι η α) (i : ι) (l : List (Answer α)) : List (Request η α × Answer α) :=
  annotate (fun past a => ((N.prog i past).map fun q => (q, a)).toList) [] l

/-- What was sent on a stream. -/
def sentIn (h : η) (l : List (Request η α × Answer α)) : List α :=
  l.filterMap fun
    | (.send h' v, .done) => if h' = h then some v else none
    | _ => none

/-- What was received from it. -/
def gotIn (h : η) (l : List (Request η α × Answer α)) : List α :=
  l.filterMap fun
    | (.receive h', .value v) => if h' = h then some v else none
    | _ => none

def closedIn (h : η) (l : List (Request η α × Answer α)) : Bool :=
  l.any fun
    | (.close h', _) => h' = h
    | _ => false

/-! A state of the network is what each process was answered so far. -/

def sent (N : Network ι η α) (h : η) (x : ι → List (Answer α)) : List α :=
  sentIn h (N.log (N.sender h) (x (N.sender h)))
def got (N : Network ι η α) (h : η) (x : ι → List (Answer α)) : List α :=
  gotIn h (N.log (N.receiver h) (x (N.receiver h)))
def isClosed (N : Network ι η α) (h : η) (x : ι → List (Answer α)) : Bool :=
  closedIn h (N.log (N.sender h) (x (N.sender h)))

/-- The answer to a request; a receive has none while there is nothing to receive. -/
def reply (N : Network ι η α) (x : ι → List (Answer α)) : Request η α → Option (Answer α)
  | .send h _ | .close h => some (if N.isClosed h x then .closed else .done)
  | .receive h =>
    match (N.sent h x)[(N.got h x).length]? with
    | some v => some (.value v)
    | none => if N.isClosed h x then some .closed else none

/-- Process `i` is answered. -/
def answer (x : ι → List (Answer α)) (i : ι) (a : Answer α) : ι → List (Answer α) :=
  Function.update x i (x i ++ [a])

inductive Step (N : Network ι η α) (x : ι → List (Answer α)) : (ι → List (Answer α)) → Prop
  | turn {i : ι} {q : Request η α} {a : Answer α} (hq : N.prog i (x i) = some q)
      (ha : N.reply x q = some a) : Step N x (answer x i a)

/-- The states of the runs of the network. -/
def Reached (N : Network ι η α) : (ι → List (Answer α)) → Prop :=
  Relation.ReflTransGen N.Step fun _ => []

/-! ## One turn -/

omit [DecidableEq ι] [DecidableEq η] in
theorem log_snoc (hq : N.prog i (x i) = some q) :
    N.log i (x i ++ [a]) = N.log i (x i) ++ [(q, a)] := by
  unfold log
  rw [annotate_snoc]
  simp [hq]

theorem sent_answer (hq : N.prog i (x i) = some q) :
    N.sent h (answer x i a) = N.sent h x ++ sentIn h [(q, a)] := by
  unfold sent answer
  by_cases hi : N.sender h = i
  · subst hi
    rw [Function.update_self, log_snoc hq, sentIn, List.filterMap_append]
    rfl
  · rw [Function.update_of_ne hi]
    have hnone : sentIn h [(q, a)] = [] := by
      cases q with
      | send h' v =>
        have hne : h' ≠ h := by
          rintro rfl
          exact hi (N.send_own hq)
        cases a <;> simp [sentIn, hne]
      | receive h' => simp [sentIn]
      | close h' => simp [sentIn]
    rw [hnone, List.append_nil]

theorem got_answer (hq : N.prog i (x i) = some q) :
    N.got h (answer x i a) = N.got h x ++ gotIn h [(q, a)] := by
  unfold got answer
  by_cases hi : N.receiver h = i
  · subst hi
    rw [Function.update_self, log_snoc hq, gotIn, List.filterMap_append]
    rfl
  · rw [Function.update_of_ne hi]
    have hnone : gotIn h [(q, a)] = [] := by
      cases q with
      | receive h' =>
        have hne : h' ≠ h := by
          rintro rfl
          exact hi (N.receive_own hq)
        cases a <;> simp [gotIn, hne]
      | send h' v => simp [gotIn]
      | close h' => simp [gotIn]
    rw [hnone, List.append_nil]

theorem isClosed_answer (hq : N.prog i (x i) = some q) :
    N.isClosed h (answer x i a) = (N.isClosed h x || closedIn h [(q, a)]) := by
  unfold isClosed answer
  by_cases hi : N.sender h = i
  · subst hi
    rw [Function.update_self, log_snoc hq, closedIn, List.any_append]
    rfl
  · rw [Function.update_of_ne hi]
    have hnone : closedIn h [(q, a)] = false := by
      cases q with
      | close h' =>
        have hne : h' ≠ h := by
          rintro rfl
          exact hi (N.close_own hq)
        simp [closedIn, hne]
      | send h' v => simp [closedIn]
      | receive h' => simp [closedIn]
    rw [hnone, Bool.or_false]

omit [DecidableEq ι] in
/-- Nothing is sent on a closed stream. -/
theorem sentIn_closed (ha : N.reply x q = some a) (hc : N.isClosed h x = true) :
    sentIn h [(q, a)] = [] := by
  cases q with
  | send h' v =>
    by_cases hh : h' = h
    · subst hh
      simp only [reply, hc, if_true, Option.some.injEq] at ha
      simp [sentIn, ← ha]
    · cases a <;> simp [sentIn, hh]
  | receive h' => simp [sentIn]
  | close h' => simp [sentIn]

/-- The other streams. -/
theorem answer_other (hq : N.prog i (x i) = some q) (hne : q.stream ≠ h) :
    N.sent h (answer x i a) = N.sent h x ∧ N.got h (answer x i a) = N.got h x ∧
      N.isClosed h (answer x i a) = N.isClosed h x := by
  rw [sent_answer hq, got_answer hq, isClosed_answer hq]
  have hnone : sentIn h [(q, a)] = [] ∧ gotIn h [(q, a)] = [] ∧ closedIn h [(q, a)] = false := by
    cases q <;> cases a <;> simp [Request.stream] at hne <;>
      simp [sentIn, gotIn, closedIn, hne]
  rw [hnone.1, hnone.2.1, hnone.2.2, List.append_nil, List.append_nil, Bool.or_false]
  exact ⟨rfl, rfl, rfl⟩

/-- A refused request changes no stream. -/
theorem answer_closed (hq : N.prog i (x i) = some q) (ha : N.reply x q = some .closed) :
    N.sent h (answer x i .closed) = N.sent h x ∧ N.got h (answer x i .closed) = N.got h x ∧
      N.isClosed h (answer x i .closed) = N.isClosed h x := by
  rw [sent_answer hq, got_answer hq, isClosed_answer hq]
  cases q with
  | send h' v => simp [sentIn, gotIn, closedIn]
  | receive h' => simp [sentIn, gotIn, closedIn]
  | close h' =>
    by_cases hh : h' = h
    · subst hh
      have hc : N.isClosed h' x = true := by
        by_contra hn
        simp [reply, hn] at ha
      simp [sentIn, gotIn, hc]
    · simp [sentIn, gotIn, closedIn, hh]

/-- The turn of one process does not change the answer another one gets. -/
theorem reply_answer {q' : Request η α} {a' : Answer α} (hij : i ≠ j)
    (hq : N.prog i (x i) = some q) (ha : N.reply x q = some a)
    (hq' : N.prog j (x j) = some q') (ha' : N.reply x q' = some a') :
    N.reply (answer x i a) q' = some a' := by
  have hclosed : ∀ h, N.sender h = j → N.isClosed h (answer x i a) = N.isClosed h x := by
    intro h hj
    unfold isClosed answer
    rw [hj, Function.update_of_ne (Ne.symm hij)]
  cases q' with
  | send h v =>
    simp only [reply] at ha' ⊢
    rw [hclosed h (N.send_own hq')]
    exact ha'
  | close h =>
    simp only [reply] at ha' ⊢
    rw [hclosed h (N.close_own hq')]
    exact ha'
  | receive h =>
    have hgot : N.got h (answer x i a) = N.got h x := by
      unfold got answer
      rw [N.receive_own hq', Function.update_of_ne (Ne.symm hij)]
    simp only [reply] at ha' ⊢
    rw [hgot, sent_answer hq, isClosed_answer hq]
    cases hv : (N.sent h x)[(N.got h x).length]? with
    | some v =>
      have hlt := (List.getElem?_eq_some_iff.mp hv).1
      rw [List.getElem?_append_left hlt, hv]
      rw [hv] at ha'
      exact ha'
    | none =>
      rw [hv] at ha'
      cases hc : N.isClosed h x with
      | false =>
        rw [hc] at ha'
        cases ha'
      | true =>
        rw [sentIn_closed ha hc, List.append_nil, hv, Bool.true_or]
        rw [hc] at ha'
        exact ha'

/-! ## Runs -/

theorem Step.le (hs : N.Step x y) (i : ι) : x i <+: y i := by
  cases hs with
  | @turn j q a hq ha =>
    unfold answer
    by_cases hi : i = j
    · rw [hi, Function.update_self]
      exact List.prefix_append _ _
    · rw [Function.update_of_ne hi]

theorem Step.sent_le (hs : N.Step x y) (h : η) : N.sent h x <+: N.sent h y := by
  cases hs with
  | turn hq ha =>
    rw [sent_answer hq]
    exact List.prefix_append _ _

/-- A process that has come to its end is not answered any more. -/
theorem Step.halted (hs : N.Step x y) (hi : N.prog i (x i) = none) : y i = x i := by
  cases hs with
  | @turn j q a hq ha =>
    have hne : i ≠ j := by
      rintro rfl
      rw [hi] at hq
      cases hq
    exact Function.update_of_ne hne _ _

/-- **Diamond.** -/
theorem Step.diamond (hy : N.Step x y) (hz : N.Step x z) :
    ∃ w, Relation.ReflGen N.Step y w ∧ Relation.ReflTransGen N.Step z w := by
  cases hy with
  | @turn i q a hq ha =>
    cases hz with
    | @turn j q' a' hq' ha' =>
      by_cases hij : i = j
      · subst hij
        rw [hq] at hq'
        cases hq'
        rw [ha] at ha'
        cases ha'
        exact ⟨_, .refl, .refl⟩
      have hyj : answer x i a j = x j := Function.update_of_ne (Ne.symm hij) _ _
      have hzi : answer x j a' i = x i := Function.update_of_ne hij _ _
      refine ⟨answer (answer x i a) j a', .single (.turn (hyj ▸ hq') ?_), ?_⟩
      · exact reply_answer hij hq ha hq' ha'
      · have hcomm : answer (answer x i a) j a' = answer (answer x j a') i a := by
          unfold answer
          rw [Function.update_of_ne (Ne.symm hij), Function.update_of_ne hij,
            Function.update_comm hij]
        rw [hcomm]
        exact .single (.turn (hzi ▸ hq) (reply_answer (Ne.symm hij) hq' ha' hq ha))

/-- What holds along a step holds along a run. -/
theorem run_rule {R : (ι → List (Answer α)) → (ι → List (Answer α)) → Prop}
    (hs : Relation.ReflTransGen N.Step x y) (hrefl : R x x)
    (htail : ∀ y z, R x y → N.Step y z → R x z) : R x y := by
  induction hs with
  | refl => exact hrefl
  | tail _ hs ih => exact htail _ _ ih hs

/-- Two runs can be continued to one state. -/
theorem Reached.join (hx : N.Reached x) (hy : N.Reached y) :
    ∃ w, Relation.ReflTransGen N.Step x w ∧ Relation.ReflTransGen N.Step y w :=
  Relation.church_rosser (fun _ _ _ h h' => h.diamond h') hx hy

/-- **Determinacy.** -/
theorem determinate (hx : N.Reached x) (hy : N.Reached y) :
    (∀ i, x i <+: y i ∨ y i <+: x i) ∧ (∀ h, N.sent h x <+: N.sent h y ∨ N.sent h y <+: N.sent h x) ∧
      ∀ i, N.prog i (x i) = none → y i <+: x i := by
  obtain ⟨w, hxw, hyw⟩ := hx.join hy
  have hle : ∀ {u : ι → List (Answer α)}, Relation.ReflTransGen N.Step u w → ∀ i, u i <+: w i := by
    intro u hu i
    exact run_rule (R := fun u w => u i <+: w i) hu (List.prefix_refl _)
      fun _ _ h hs => h.trans (hs.le i)
  have hsent : ∀ {u : ι → List (Answer α)}, Relation.ReflTransGen N.Step u w →
      ∀ h, N.sent h u <+: N.sent h w := by
    intro u hu h
    exact run_rule (R := fun u w => N.sent h u <+: N.sent h w) hu (List.prefix_refl _)
      fun _ _ hl hs => hl.trans (hs.sent_le h)
  refine ⟨fun i => List.prefix_or_prefix_of_prefix (hle hxw i) (hle hyw i),
    fun h => List.prefix_or_prefix_of_prefix (hsent hxw h) (hsent hyw h), fun i hi => ?_⟩
  have hstay : w i = x i := run_rule (R := fun u w => N.prog i (u i) = none → w i = u i) hxw
    (fun _ => rfl) (fun y z h hs hu => by
      have hy := h hu
      rw [← hy] at hu ⊢
      exact hs.halted hu) hi
  rw [← hstay]
  exact hle hyw i

end Network
end Libco.Lib
