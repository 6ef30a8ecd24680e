import Mathlib.Data.List.Basic
import Mathlib.Logic.Function.Basic

/-!
# Counting the members of a finite family

`countOn p f n` is the number of indices below `n` whose member satisfies `p`.
Changing one member changes the count by at most one.
-/

namespace Libco.Lib

variable {α : Type} {p : α → Bool} {f g : Nat → α} {n c : Nat}

def countOn (p : α → Bool) (f : Nat → α) (n : Nat) : Nat := (List.range n).countP fun i => p (f i)

@[simp] theorem countOn_zero : countOn p f 0 = 0 := rfl

theorem countOn_succ : countOn p f (n + 1) = countOn p f n + (p (f n)).toNat := by
  cases h : p (f n) <;> simp [countOn, List.range_succ, h]

theorem countOn_congr (h : ∀ i, i < n → p (f i) = p (g i)) : countOn p f n = countOn p g n := by
  induction n with
  | zero => rfl
  | succ n ih =>
    rw [countOn_succ, countOn_succ, ih (fun i hi => h i (by omega)), h n (by omega)]

theorem countOn_update (h : c < n) (r : α) :
    countOn p (Function.update f c r) n + (p (f c)).toNat = countOn p f n + (p r).toNat := by
  induction n with
  | zero => omega
  | succ n ih =>
    rw [countOn_succ, countOn_succ]
    by_cases hc : c = n
    · subst hc
      have hsame : countOn p (Function.update f c r) c = countOn p f c :=
        countOn_congr fun i hi => by rw [Function.update_of_ne (by omega)]
      rw [hsame, Function.update_self]
      omega
    · have := ih (by omega)
      rw [Function.update_of_ne (fun e => hc e.symm)]
      omega

theorem countOn_eq_zero : countOn p f n = 0 ↔ ∀ i, i < n → p (f i) = false := by
  simp [countOn, List.countP_eq_zero]

end Libco.Lib
