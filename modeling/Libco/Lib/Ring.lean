import Mathlib.Data.List.Range
import Mathlib.Data.Nat.ModEq

/-!
# Ring buffers

A ring of `cap` slots is read from `head` on, with indices modulo `cap`. What
is known of the slots is only how they are read, so the same two lemmas serve
slots that are array cells and slots that are stretches of raw memory.
-/

namespace Libco.Lib

variable {α : Type} {slots slots' : Nat → α} {cap head count : Nat} {x : α}

/-- The contents of a ring, oldest first. -/
def ring (slots : Nat → α) (cap head count : Nat) : List α :=
  (List.range count).map fun i => slots ((head + i) % cap)

@[simp] theorem ring_length : (ring slots cap head count).length = count := by
  simp [ring]

@[simp] theorem ring_zero : ring slots cap head 0 = [] := rfl

/-- Different places of a ring are different slots. -/
theorem ring_index_ne {i : Nat} (hi : i < count) (hc : count < cap) :
    (head + i) % cap ≠ (head + count) % cap := by
  intro he
  have hmod : i ≡ count [MOD cap] := Nat.ModEq.add_left_cancel' head he
  have := Nat.ModEq.eq_of_lt_of_lt hmod (by omega) hc
  omega

/-- Writing the slot after the last one. -/
theorem ring_push (hc : count < cap) (hx : slots' ((head + count) % cap) = x)
    (hold : ∀ i, i < cap → i ≠ (head + count) % cap → slots' i = slots i) :
    ring slots' cap head (count + 1) = ring slots cap head count ++ [x] := by
  unfold ring
  rw [List.range_succ, List.map_append, List.map_singleton, hx]
  congr 1
  refine List.map_congr_left fun i hi => ?_
  rw [List.mem_range] at hi
  exact hold _ (Nat.mod_lt _ (by omega)) (ring_index_ne hi hc)

/-- Moving the head past the first slot. -/
theorem ring_pop (hh : head < cap) (hc : 0 < count) :
    ring slots cap head count =
      slots head :: ring slots cap ((head + 1) % cap) (count - 1) := by
  obtain ⟨n, rfl⟩ : ∃ n, count = n + 1 := ⟨count - 1, by omega⟩
  unfold ring
  rw [List.range_succ_eq_map, List.map_cons, List.map_map, Nat.add_zero, Nat.mod_eq_of_lt hh]
  congr 1
  refine List.map_congr_left fun i _ => ?_
  have hidx : (head + (i + 1)) % cap = ((head + 1) % cap + i) % cap := by
    rw [Nat.mod_add_mod]
    congr 1
    omega
  show slots ((head + (i + 1)) % cap) = _
  rw [hidx]

end Libco.Lib
