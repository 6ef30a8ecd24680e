import Mathlib.Data.List.Basic
import Mathlib.Order.Lattice

/-!
# Array min-heaps with one element out of place

`Heaped key l` is the heap order of an array: every entry is at or after its
parent. `UpHeaped` and `DownHeaped` are that order with one position excused,
towards its parent and towards its children; they are what a sift keeps while
it moves an entry, and each sift step exchanges the entry with a neighbour.
-/

namespace Libco.Lib

variable {α β : Type} [LinearOrder β] {key : α → β} {l : List α} {idx : Nat}

def Heaped (key : α → β) (l : List α) : Prop :=
  ∀ i (_ : i < l.length), 0 < i → key l[(i - 1) / 2] ≤ key l[i]

/-- Only `idx` may be before its parent. -/
structure UpHeaped (key : α → β) (l : List α) (idx : Nat) : Prop where
  off : ∀ i (_ : i < l.length), 0 < i → i ≠ idx → key l[(i - 1) / 2] ≤ key l[i]
  grand : ∀ i (_ : i < l.length) (_ : idx < l.length), 0 < i → (i - 1) / 2 = idx → 0 < idx →
    key l[(idx - 1) / 2] ≤ key l[i]

/-- Only the children of `idx` may be before `idx`. -/
structure DownHeaped (key : α → β) (l : List α) (idx : Nat) : Prop where
  off : ∀ i (_ : i < l.length), 0 < i → (i - 1) / 2 ≠ idx → key l[(i - 1) / 2] ≤ key l[i]
  grand : ∀ i (_ : i < l.length) (_ : idx < l.length), 0 < i → (i - 1) / 2 = idx → 0 < idx →
    key l[(idx - 1) / 2] ≤ key l[i]

theorem heaped_nil : Heaped key ([] : List α) := by
  intro i hi
  simp at hi

theorem Heaped.congr {key' : α → β} (h : Heaped key l) (hk : ∀ x ∈ l, key' x = key x) :
    Heaped key' l := by
  intro i hi h0
  rw [hk _ (List.getElem_mem _), hk _ (List.getElem_mem _)]
  exact h i hi h0

/-- The root of a heap is a minimum. -/
theorem Heaped.root_le (h : Heaped key l) (i : Nat) (hi : i < l.length) :
    key l[0] ≤ key l[i] := by
  induction i using Nat.strongRecOn with
  | ind i ih =>
    rcases Nat.eq_zero_or_pos i with rfl | hpos
    · exact le_refl _
    · exact le_trans (ih ((i - 1) / 2) (by omega) (by omega)) (h i hi hpos)

theorem UpHeaped.heaped (h : UpHeaped key l idx)
    (hp : ∀ (_ : idx < l.length), 0 < idx → key l[(idx - 1) / 2] ≤ key l[idx]) :
    Heaped key l := by
  intro i hi h0
  by_cases hie : i = idx
  · subst hie
    exact hp hi h0
  · exact h.off i hi h0 hie

theorem DownHeaped.heaped (h : DownHeaped key l idx)
    (hc : ∀ i (_ : i < l.length) (_ : idx < l.length), 0 < i → (i - 1) / 2 = idx →
      key l[idx] ≤ key l[i]) :
    Heaped key l := by
  intro i hi h0
  by_cases hie : (i - 1) / 2 = idx
  · subst hie
    exact hc i hi (by omega) h0 rfl
  · exact h.off i hi h0 hie

/-- One step of an upward sift: the entry, before its parent, changes places
with it. The array is given with the hole at `idx` and the entry `x` aside. -/
theorem UpHeaped.move {x : α} (hidx : idx < l.length) (hpos : 0 < idx)
    (h : UpHeaped key (l.set idx x) idx) (hlt : key x < key l[(idx - 1) / 2]) :
    UpHeaped key ((l.set idx l[(idx - 1) / 2]).set ((idx - 1) / 2) x) ((idx - 1) / 2) := by
  have hoff := h.off
  have hgrand := h.grand
  simp only [List.length_set, List.getElem_set] at hoff hgrand
  constructor
  · intro i hi h0 hne
    simp only [List.length_set] at hi
    simp only [List.getElem_set]
    by_cases hie : i = idx
    · subst hie
      simpa [show (i - 1) / 2 ≠ i by omega] using le_of_lt hlt
    · have hi' : idx ≠ i := fun e => hie e.symm
      have hpi : (idx - 1) / 2 ≠ i := fun e => hne e.symm
      rw [if_neg hpi, if_neg hi']
      by_cases hsib : (idx - 1) / 2 = (i - 1) / 2
      · have := hoff i hi h0 hie
        rw [if_neg (by omega), if_neg hi'] at this
        rw [if_pos hsib]
        refine le_trans (le_of_lt hlt) ?_
        simpa only [hsib] using this
      · rw [if_neg hsib]
        by_cases hch : idx = (i - 1) / 2
        · have := hgrand i hi hidx h0 hch.symm hpos
          rw [if_neg (by omega), if_neg hi'] at this
          rw [if_pos hch]
          exact this
        · have := hoff i hi h0 hie
          rw [if_neg hch, if_neg hi'] at this
          rw [if_neg hch]
          exact this
  · intro i hi hp h0 hpar hppos
    simp only [List.length_set] at hi hp
    simp only [List.getElem_set]
    have hpp := hoff ((idx - 1) / 2) (by omega) hppos (by omega)
    rw [if_neg (by omega), if_neg (by omega)] at hpp
    rw [if_neg (by omega), if_neg (by omega), if_neg (by omega)]
    by_cases hie : idx = i
    · rw [if_pos hie]
      exact hpp
    · rw [if_neg hie]
      have := hoff i hi h0 (fun e => hie e.symm)
      rw [if_neg (by omega), if_neg hie] at this
      refine le_trans hpp ?_
      simpa only [hpar] using this

/-- One step of a downward sift: the entry, after its earliest child `c`,
changes places with it. -/
theorem DownHeaped.move {x : α} {c : Nat} (hidx : idx < l.length) (hc : c < l.length)
    (hc0 : 0 < c) (hpar : (c - 1) / 2 = idx) (h : DownHeaped key (l.set idx x) idx)
    (hlt : key l[c] < key x)
    (hmin : ∀ i (_ : i < l.length), 0 < i → (i - 1) / 2 = idx → key l[c] ≤ key l[i]) :
    DownHeaped key ((l.set idx l[c]).set c x) c := by
  have hoff := h.off
  have hgrand := h.grand
  simp only [List.length_set, List.getElem_set] at hoff hgrand
  constructor
  · intro i hi h0 hne
    simp only [List.length_set] at hi
    simp only [List.getElem_set]
    rw [if_neg (fun e => hne e.symm)]
    by_cases hic : c = i
    · subst hic
      rw [if_pos rfl, if_pos hpar.symm]
      exact le_of_lt hlt
    · rw [if_neg hic]
      by_cases hch : (i - 1) / 2 = idx
      · rw [if_pos hch.symm, if_neg (by omega)]
        exact hmin i hi h0 hch
      · rw [if_neg (fun e => hch e.symm)]
        by_cases hie : idx = i
        · subst hie
          have := hgrand c hc hidx hc0 hpar h0
          rw [if_neg (by omega), if_neg (by omega)] at this
          rw [if_pos rfl]
          exact this
        · rw [if_neg hie]
          have := hoff i hi h0 hch
          rw [if_neg (fun e => hch e.symm), if_neg hie] at this
          exact this
  · intro i hi _ h0 hpi _
    simp only [List.length_set] at hi
    simp only [List.getElem_set]
    rw [if_neg (by omega), if_pos hpar.symm, if_neg (by omega), if_neg (by omega)]
    have := hoff i hi h0 (by omega)
    rw [if_neg (by omega), if_neg (by omega)] at this
    simpa only [hpi] using this

end Libco.Lib
