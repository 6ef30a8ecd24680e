import Mathlib.Data.List.Basic

/-!
# Runs of a partial step function

`Reach step ok s₀ s`: some run of `step` from `s₀` ends in `s`, and every step
of it was taken from a state and by an action that meet `ok`. The guard `ok`
carries the assumptions a result makes about the caller or the environment,
so that one machine serves results with different assumptions.
-/

namespace Libco.Lib

variable {σ α : Type}

/-- Run a list of actions, stopping at the first one that is not enabled. -/
def runActs (step : σ → α → Option σ) : σ → List α → Option σ
  | s, [] => some s
  | s, a :: as => (step s a).bind fun s' => runActs step s' as

theorem runActs_two {step : σ → α → Option σ} {x y : α} {s s₁ s₂ : σ} {xs : List α}
    (h₁ : step s x = some s₁) (h₂ : step s₁ y = some s₂) :
    runActs step s (x :: y :: xs) = runActs step s₂ xs := by
  simp [runActs, h₁, h₂]

theorem runActs_append {step : σ → α → Option σ} {s s' : σ} {xs ys : List α}
    (h : runActs step s xs = some s') : runActs step s (xs ++ ys) = runActs step s' ys := by
  induction xs generalizing s with
  | nil =>
    cases h
    rfl
  | cons x xs ih =>
    obtain ⟨t, ht, hr⟩ := Option.bind_eq_some_iff.mp h
    simp only [List.cons_append, runActs, ht, Option.bind_some]
    exact ih hr

/-- States reached by runs all of whose steps meet `ok`. -/
inductive Reach (step : σ → α → Option σ) (ok : σ → α → Prop) (s₀ : σ) : σ → Prop
  | init : Reach step ok s₀ s₀
  | next {s s' : σ} (a : α) : Reach step ok s₀ s → ok s a → step s a = some s' →
      Reach step ok s₀ s'

/-- **Invariant rule.** -/
theorem Reach.invariant {step : σ → α → Option σ} {ok : σ → α → Prop} {s₀ s : σ}
    {P : σ → Prop} (h : Reach step ok s₀ s) (h₀ : P s₀)
    (hstep : ∀ s a s', P s → ok s a → step s a = some s' → P s') : P s := by
  induction h with
  | init => exact h₀
  | next a _ hok hs ih => exact hstep _ a _ ih hok hs

theorem Reach.trans_run {step : σ → α → Option σ} {ok : σ → α → Prop} {s₀ s s' : σ}
    {as : List α} (h : Reach step ok s₀ s) (hok : ∀ t, ∀ a ∈ as, ok t a)
    (hr : runActs step s as = some s') : Reach step ok s₀ s' := by
  induction as generalizing s with
  | nil =>
    simp only [runActs, Option.some.injEq] at hr
    exact hr ▸ h
  | cons a as ih =>
    obtain ⟨t, ht, hr'⟩ := Option.bind_eq_some_iff.mp hr
    exact ih (h.next a (hok s a (by simp)) ht) (fun u b hb => hok u b (by simp [hb])) hr'

/-- Run a list of actions, stopping also at the first one that does not meet the
guard. -/
def runGuarded (step : σ → α → Option σ) (ok : σ → α → Bool) : σ → List α → Option σ
  | s, [] => some s
  | s, a :: as => if ok s a then (step s a).bind fun s' => runGuarded step ok s' as else none

theorem Reach.trans_guarded {step : σ → α → Option σ} {ok : σ → α → Bool} {s₀ s s' : σ}
    {as : List α} (h : Reach step (fun s a => ok s a = true) s₀ s)
    (hr : runGuarded step ok s as = some s') : Reach step (fun s a => ok s a = true) s₀ s' := by
  induction as generalizing s with
  | nil =>
    simp only [runGuarded, Option.some.injEq] at hr
    exact hr ▸ h
  | cons a as ih =>
    simp only [runGuarded] at hr
    split at hr
    · rename_i hok
      obtain ⟨t, ht, hr'⟩ := Option.bind_eq_some_iff.mp hr
      exact ih (h.next a hok ht) hr'
    · cases hr

/-- A concrete run that meets a decidable guard. -/
theorem reach_of_runGuarded {step : σ → α → Option σ} {ok : σ → α → Bool} {s₀ s : σ}
    {as : List α} (hr : runGuarded step ok s₀ as = some s) :
    Reach step (fun s a => ok s a = true) s₀ s := Reach.init.trans_guarded hr

/-- A concrete run whose actions meet the guard in every state is a run. -/
theorem reach_of_runActs {step : σ → α → Option σ} {ok : σ → α → Prop} {s₀ s : σ}
    {as : List α} (hok : ∀ t, ∀ a ∈ as, ok t a) (hr : runActs step s₀ as = some s) :
    Reach step ok s₀ s := Reach.init.trans_run hok hr

end Libco.Lib
