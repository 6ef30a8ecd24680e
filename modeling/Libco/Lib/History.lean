import Mathlib.Data.List.Basic

/-!
# Histories and their laws

A history is the list of events a system has emitted, oldest first. A *law*
says which event may follow which past; `Lawful law h` says that every event
of `h` obeyed it when it happened. Appending one event is the only way a
history grows, so a law is kept by one condition per emitted event.
-/

namespace Libco.Lib

variable {ε : Type}

def Lawful (law : List ε → ε → Prop) (h : List ε) : Prop :=
  ∀ past e rest, h = past ++ e :: rest → law past e

theorem lawful_nil (law : List ε → ε → Prop) : Lawful law [] := by
  intro past e rest h
  simp at h

theorem lawful_snoc {law : List ε → ε → Prop} {h : List ε} {e : ε} :
    Lawful law (h ++ [e]) ↔ Lawful law h ∧ law h e := by
  constructor
  · intro hl
    refine ⟨?_, hl h e [] rfl⟩
    rintro past a rest rfl
    exact hl past a (rest ++ [e]) (by simp)
  · rintro ⟨hl, he⟩ past a rest heq
    rcases List.eq_nil_or_concat rest with rfl | ⟨rest', b, rfl⟩
    · obtain ⟨rfl, hae⟩ := List.append_inj' heq rfl
      simp only [List.cons.injEq, and_true] at hae
      exact hae ▸ he
    · have hsplit : h ++ [e] = (past ++ a :: rest') ++ [b] := by simp [heq]
      obtain ⟨rfl, -⟩ := List.append_inj' hsplit rfl
      exact hl past a rest' rfl

/-- Events that obey the law after any past. -/
theorem Lawful.extend {law : List ε → ε → Prop} {h es : List ε} (hl : Lawful law h)
    (he : ∀ e ∈ es, ∀ past, law past e) : Lawful law (h ++ es) := by
  induction es generalizing h with
  | nil => simpa using hl
  | cons e es ih =>
    rw [← List.singleton_append, ← List.append_assoc]
    exact ih (lawful_snoc.mpr ⟨hl, he e (by simp) h⟩) fun e' he' => he e' (by simp [he'])

end Libco.Lib
