import Mathlib.Logic.Function.Basic
import Libco.Lib.Runs

/-!
# Runs that pay for their steps

A metered run counts its steps and the credit its actions bring in. If every
step lowers a potential, up to the credit of its action, then no run takes more
steps than it has credit for, whatever its length. Potentials here are sums of
weights over a finite family.
-/

namespace Libco.Lib

variable {σ α β : Type}

/-! ## Metered runs -/

structure Metered (σ : Type) where
  st : σ
  steps : Nat
  credit : Nat

def meter (step : σ → α → Option σ) (charge : σ → α → Nat) (x : Metered σ) (a : α) :
    Option (Metered σ) :=
  (step x.st a).map fun s => ⟨s, x.steps + 1, x.credit + charge x.st a⟩

/-- A run that has taken no step yet. -/
def Metered.start (s : σ) : Metered σ := ⟨s, 0, 0⟩

/-- The metered runs of a machine from `s₀`. -/
def Metered.Reaches (step : σ → α → Option σ) (charge : σ → α → Nat) (ok : σ → α → Prop)
    (s₀ : σ) : Metered σ → Prop :=
  Reach (meter step charge) (fun x a => ok x.st a) (.start s₀)

/-- **Budget rule.** -/
theorem Metered.budget {step : σ → α → Option σ} {charge : σ → α → Nat} {ok : σ → α → Prop}
    (I : σ → Prop) (Φ : σ → Nat) {s₀ : σ} {x : Metered σ}
    (h : Metered.Reaches step charge ok s₀ x) (h₀ : I s₀)
    (hstep : ∀ s a s', I s → ok s a → step s a = some s' →
      I s' ∧ Φ s' + 1 ≤ Φ s + charge s a) :
    I x.st ∧ x.steps + Φ x.st ≤ x.credit + Φ s₀ := by
  induction h with
  | init => exact ⟨h₀, by simp [Metered.start]⟩
  | @next x x' a _ hok hs ih =>
    obtain ⟨s', hs', rfl⟩ := Option.map_eq_some_iff.mp hs
    obtain ⟨hI, hpay⟩ := hstep x.st a s' ih.1 hok hs'
    refine ⟨hI, ?_⟩
    have := ih.2
    show x.steps + 1 + Φ s' ≤ x.credit + charge x.st a + Φ s₀
    omega

/-! ## Sums of weights -/

variable {w : β → Nat} {f : Nat → β} {n c : Nat}

/-- The weight of the members below `n`. -/
def sumOn (w : β → Nat) (f : Nat → β) : Nat → Nat
  | 0 => 0
  | n + 1 => sumOn w f n + w (f n)

theorem sumOn_update_ge (hc : n ≤ c) (r : β) : sumOn w (Function.update f c r) n = sumOn w f n := by
  induction n with
  | zero => rfl
  | succ n ih =>
    have hne : n ≠ c := by omega
    simp only [sumOn]
    rw [ih (by omega), Function.update_of_ne hne]

theorem sumOn_update (hc : c < n) (r : β) :
    sumOn w (Function.update f c r) n + w (f c) = sumOn w f n + w r := by
  induction n with
  | zero => omega
  | succ n ih =>
    simp only [sumOn]
    by_cases hn : c = n
    · subst hn
      rw [sumOn_update_ge (Nat.le_refl c), Function.update_self]
      omega
    · have hne : n ≠ c := fun h => hn h.symm
      have := ih (by omega)
      rw [Function.update_of_ne hne]
      omega

/-- One member changes, below `n` or not. -/
theorem sumOn_update_le {r : β} {k : Nat} (hr : w r ≤ w (f c) + k) :
    sumOn w (Function.update f c r) n ≤ sumOn w f n + k := by
  by_cases hc : c < n
  · have := sumOn_update (w := w) (f := f) hc r
    omega
  · rw [sumOn_update_ge (Nat.le_of_not_lt hc)]
    omega

theorem sumOn_mono {g : Nat → β} (h : ∀ i, w (g i) ≤ w (f i)) : sumOn w g n ≤ sumOn w f n := by
  induction n with
  | zero => exact Nat.le_refl _
  | succ n ih =>
    have := h n
    simp only [sumOn]
    omega

end Libco.Lib
