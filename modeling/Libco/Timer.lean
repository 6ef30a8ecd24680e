import Mathlib.Data.Nat.Basic
import Libco.Basic
import Libco.Lib.MinHeap

/-!
# `co_timer.c`

The array heap of coroutines ordered by their `wakeup_time` fields, here the
parameter `key`; the field of a coroutine that was freed while its entry stayed keeps
its value. Both sifts move a hole: the displaced entry `item` is kept aside and stored
when its place is found. Every array access carries its bound.

`coTimerHeapPush_spec`, `coTimerHeapPop_spec` and `coTimerHeapRemove_spec` say
what each operation does to the entries and that the heap order is kept.
-/

namespace Libco
open Lib

variable {key : Nat → Nat}

/-- The loop of `heap_sift_up`. -/
def heapSiftUpLoop (key : Nat → Nat) (heap : List Nat) (idx item : Nat)
    (hidx : idx < heap.length) : List Nat :=
  if h0 : idx = 0 then heap.set idx item
  else
    have hp : (idx - 1) / 2 < heap.length := by omega
    if key heap[(idx - 1) / 2] ≤ key item then heap.set idx item
    else
      heapSiftUpLoop key (heap.set idx heap[(idx - 1) / 2]) ((idx - 1) / 2) item
        (by simpa using hp)
termination_by idx
decreasing_by omega

def heapSiftUp (key : Nat → Nat) (heap : List Nat) (idx : Nat) (hidx : idx < heap.length) :
    List Nat :=
  heapSiftUpLoop key heap idx heap[idx] hidx

/-- The child `heap_sift_down` compares with. -/
def smallerChild (key : Nat → Nat) (heap : List Nat) (idx : Nat)
    (hc : 2 * idx + 1 < heap.length) : Nat :=
  if hr : 2 * idx + 2 < heap.length then
    if key heap[2 * idx + 2] < key heap[2 * idx + 1] then 2 * idx + 2 else 2 * idx + 1
  else 2 * idx + 1

theorem smallerChild_bounds (key : Nat → Nat) (heap : List Nat) (idx : Nat)
    (hc : 2 * idx + 1 < heap.length) :
    smallerChild key heap idx hc < heap.length ∧ idx < smallerChild key heap idx hc ∧
      (smallerChild key heap idx hc - 1) / 2 = idx := by
  unfold smallerChild
  split
  · split <;> omega
  · omega

theorem smallerChild_min (key : Nat → Nat) (heap : List Nat) (idx : Nat)
    (hc : 2 * idx + 1 < heap.length) (hb : smallerChild key heap idx hc < heap.length)
    (i : Nat) (hi : i < heap.length) (h0 : 0 < i) (hpar : (i - 1) / 2 = idx) :
    key heap[smallerChild key heap idx hc] ≤ key heap[i] := by
  have hcase : i = 2 * idx + 1 ∨ i = 2 * idx + 2 := by omega
  unfold smallerChild
  rcases hcase with rfl | rfl
  · split
    · split
      · exact Nat.le_of_lt (by assumption)
      · exact Nat.le_refl _
    · exact Nat.le_refl _
  · simp only [hi, ↓reduceDIte]
    split
    · exact Nat.le_refl _
    · exact Nat.le_of_not_lt (by assumption)

/-- The loop of `heap_sift_down`. -/
def heapSiftDownLoop (key : Nat → Nat) (heap : List Nat) (idx item : Nat)
    (_ : idx < heap.length) : List Nat :=
  if hhalf : idx < heap.length / 2 then
    have hc : 2 * idx + 1 < heap.length := by omega
    have hb := smallerChild_bounds key heap idx hc
    have hlt : smallerChild key heap idx hc < heap.length := hb.1
    if key item ≤ key heap[smallerChild key heap idx hc] then heap.set idx item
    else
      heapSiftDownLoop key (heap.set idx heap[smallerChild key heap idx hc])
        (smallerChild key heap idx hc) item (by simpa using hlt)
  else heap.set idx item
termination_by heap.length - idx
decreasing_by
  simp only [List.length_set]
  omega

def heapSiftDown (key : Nat → Nat) (heap : List Nat) (idx : Nat) (hidx : idx < heap.length) :
    List Nat :=
  heapSiftDownLoop key heap idx heap[idx] hidx

/-- `co_timer_heap_push`; `none` is `false`. `reallocOk` is the outcome of
`realloc`, asked only when the array is full. -/
def coTimerHeapPush (key : Nat → Nat) (h : TimerHeap) (c : Nat) (reallocOk : Bool) :
    Option TimerHeap :=
  if h.entries.length ≥ h.capacity then
    if reallocOk then
      some ⟨heapSiftUp key (h.entries ++ [c]) h.entries.length (by simp), h.capacity * 2⟩
    else none
  else some ⟨heapSiftUp key (h.entries ++ [c]) h.entries.length (by simp), h.capacity⟩

/-- With the last element at the root, the array is not empty. -/
theorem movedLast_pos {r x : Nat} {rest : List Nat} (hr : 0 < rest.length) :
    0 < ((r :: rest).dropLast.set 0 x).length := by
  simp only [List.length_set, List.length_dropLast, List.length_cons]
  omega

/-- `co_timer_heap_pop`. -/
def coTimerHeapPop (key : Nat → Nat) (h : TimerHeap) : Option Nat × TimerHeap :=
  match h.entries with
  | [] => (none, h)
  | r :: rest =>
    if hr : 0 < rest.length then
      -- the last element goes to the root, and the array is one shorter
      let a := (r :: rest).dropLast.set 0 (getElem rest (rest.length - 1) (Nat.sub_one_lt_of_lt hr))
      (some r, ⟨heapSiftDown key a 0 (movedLast_pos hr), h.capacity⟩)
    else (some r, ⟨[], h.capacity⟩)

def coTimerHeapPeek (h : TimerHeap) : Option Nat := h.entries.head?

def coTimerHeapEmpty (h : TimerHeap) : Bool := h.entries.isEmpty

/-- The body of `co_timer_heap_remove` at the index where the routine was found. -/
def removeAt (key : Nat → Nat) (heap : List Nat) (i : Nat) (hi : i < heap.length) : List Nat :=
  if hlast : i < heap.length - 1 then
    let a := heap.dropLast.set i heap[heap.length - 1]
    have ha : i < a.length := by simp only [a, List.length_set, List.length_dropLast]; exact hlast
    if 0 < i ∧ key a[i] < key a[(i - 1) / 2] then heapSiftUp key a i ha
    else heapSiftDown key a i ha
  else heap.dropLast

/-- `co_timer_heap_remove`: the first occurrence goes. -/
def coTimerHeapRemove (key : Nat → Nat) (h : TimerHeap) (c : Nat) : Bool × TimerHeap :=
  if hm : h.entries.idxOf c < h.entries.length then
    (true, ⟨removeAt key h.entries (h.entries.idxOf c) hm, h.capacity⟩)
  else (false, h)

/-! ## The sifts -/

theorem heapSiftUpLoop_spec (heap : List Nat) (idx item : Nat) (hidx : idx < heap.length)
    (h : UpHeaped key (heap.set idx item) idx) :
    Heaped key (heapSiftUpLoop key heap idx item hidx) ∧
      (heapSiftUpLoop key heap idx item hidx).Perm (heap.set idx item) := by
  induction idx using Nat.strongRecOn generalizing heap with
  | ind idx ih =>
    rw [heapSiftUpLoop]
    split
    · rename_i h0
      exact ⟨h.heaped (fun _ hpos => by omega), List.Perm.refl _⟩
    · rename_i h0
      have hp : (idx - 1) / 2 < heap.length := by omega
      by_cases hle : key heap[(idx - 1) / 2] ≤ key item
      · simp only [hle, ↓reduceIte]
        refine ⟨h.heaped (fun hl hpos => ?_), List.Perm.refl _⟩
        simpa [List.getElem_set, show idx ≠ (idx - 1) / 2 by omega] using hle
      · simp only [hle, ↓reduceIte]
        have hm := UpHeaped.move hidx (by omega) h (by omega)
        obtain ⟨hh, hperm⟩ := ih ((idx - 1) / 2) (by omega)
          (heap.set idx heap[(idx - 1) / 2]) (by simpa using hp) hm
        refine ⟨hh, hperm.trans ?_⟩
        have hswap := @List.set_set_perm _ (heap.set idx item) idx ((idx - 1) / 2)
          (by simpa using hidx) (by simpa using hp)
        simpa [List.getElem_set, show idx ≠ (idx - 1) / 2 by omega] using hswap

theorem heapSiftDownLoop_spec (heap : List Nat) (idx item : Nat) (hidx : idx < heap.length)
    (h : DownHeaped key (heap.set idx item) idx) :
    Heaped key (heapSiftDownLoop key heap idx item hidx) ∧
      (heapSiftDownLoop key heap idx item hidx).Perm (heap.set idx item) := by
  generalize hn : heap.length - idx = n
  induction n using Nat.strongRecOn generalizing heap idx with
  | ind n ih =>
    rw [heapSiftDownLoop]
    split
    · rename_i hhalf
      have hc : 2 * idx + 1 < heap.length := by omega
      obtain ⟨hlt, hgt, hpar⟩ := smallerChild_bounds key heap idx hc
      have hmin := smallerChild_min key heap idx hc hlt
      by_cases hle : key item ≤ key heap[smallerChild key heap idx hc]
      · simp only [hle, ↓reduceIte]
        refine ⟨h.heaped (fun i hi _ h0 hi0 => ?_), List.Perm.refl _⟩
        simp only [List.length_set] at hi
        have := hmin i hi h0 hi0
        simp only [List.getElem_set, ↓reduceIte, show idx ≠ i by omega]
        omega
      · simp only [hle, ↓reduceIte]
        have hm := DownHeaped.move hidx hlt (by omega) hpar h (by omega) hmin
        obtain ⟨hh, hperm⟩ := ih (heap.length - smallerChild key heap idx hc) (by omega)
          (heap.set idx heap[smallerChild key heap idx hc]) _ (by simpa using hlt) hm (by simp)
        refine ⟨hh, hperm.trans ?_⟩
        have hswap := @List.set_set_perm _ (heap.set idx item) idx
          (smallerChild key heap idx hc) (by simpa using hidx) (by simpa using hlt)
        simpa [List.getElem_set, show idx ≠ smallerChild key heap idx hc by omega] using hswap
    · refine ⟨h.heaped (fun i hi _ h0 hpar => ?_), List.Perm.refl _⟩
      simp only [List.length_set] at hi
      omega

theorem heapSiftUp_spec (heap : List Nat) (idx : Nat) (hidx : idx < heap.length)
    (h : UpHeaped key heap idx) :
    Heaped key (heapSiftUp key heap idx hidx) ∧ (heapSiftUp key heap idx hidx).Perm heap := by
  have := heapSiftUpLoop_spec heap idx heap[idx] hidx (by simpa using h)
  simpa [heapSiftUp] using this

theorem heapSiftDown_spec (heap : List Nat) (idx : Nat) (hidx : idx < heap.length)
    (h : DownHeaped key heap idx) :
    Heaped key (heapSiftDown key heap idx hidx) ∧
      (heapSiftDown key heap idx hidx).Perm heap := by
  have := heapSiftDownLoop_spec heap idx heap[idx] hidx (by simpa using h)
  simpa [heapSiftDown] using this

/-! ## Push, pop, remove -/

theorem upHeaped_snoc {l : List Nat} (h : Heaped key l) (c : Nat) :
    UpHeaped key (l ++ [c]) l.length := by
  constructor
  · intro i hi h0 hne
    simp only [List.length_append, List.length_singleton] at hi
    rw [List.getElem_append_left (by omega), List.getElem_append_left (by omega)]
    exact h i (by omega) h0
  · intro i hi _ h0 hpar
    simp only [List.length_append, List.length_singleton] at hi
    omega

theorem coTimerHeapPush_spec {h h' : TimerHeap} {c : Nat} {ok : Bool}
    (hh : Heaped key h.entries) (hp : coTimerHeapPush key h c ok = some h') :
    Heaped key h'.entries ∧ h'.entries.Perm (c :: h.entries) := by
  have hs := heapSiftUp_spec (h.entries ++ [c]) h.entries.length (by simp) (upHeaped_snoc hh c)
  have hperm : (h.entries ++ [c]).Perm (c :: h.entries) := List.perm_append_singleton c h.entries
  unfold coTimerHeapPush at hp
  split at hp
  · split at hp
    · cases hp
      exact ⟨hs.1, hs.2.trans hperm⟩
    · cases hp
  · cases hp
    exact ⟨hs.1, hs.2.trans hperm⟩

/-- An array whose last entry is moved to position `i`, one shorter. -/
theorem moveLast_perm {l : List Nat} {i : Nat} (hi : i < l.length - 1) :
    (l.dropLast.set i l[l.length - 1]).Perm (l.erase l[i]) := by
  have hne : l ≠ [] := by
    rintro rfl
    simp at hi
  have hsplit : l = l.dropLast ++ [l[l.length - 1]] := by
    rw [← List.getLast_eq_getElem hne]
    exact (List.dropLast_append_getLast hne).symm
  have hid : i < l.dropLast.length := by simpa using hi
  have hget : l[i] = l.dropLast[i] := by simp
  apply List.Perm.symm
  apply List.Perm.trans (List.Perm.erase l[i] (List.Perm.of_eq hsplit))
  have hcons : (l.dropLast ++ [l[l.length - 1]]).Perm
      (l.dropLast[i] :: (l.dropLast.set i l[l.length - 1])) := by
    refine (List.perm_append_singleton _ _).trans ?_
    have := @List.set_set_perm _ (l[l.length - 1] :: l.dropLast) 0 (i + 1)
      (by simp) (by simpa using hid)
    exact this.symm
  rw [hget]
  have := List.Perm.erase l.dropLast[i] hcons
  simpa using this

theorem coTimerHeapPop_spec {h : TimerHeap} {c : Nat} {rest : List Nat}
    (hh : Heaped key h.entries) (he : h.entries = c :: rest) :
    (coTimerHeapPop key h).1 = some c ∧ Heaped key (coTimerHeapPop key h).2.entries ∧
      (coTimerHeapPop key h).2.entries.Perm rest ∧ ∀ x ∈ h.entries, key c ≤ key x := by
  have hmin : ∀ x ∈ h.entries, key c ≤ key x := by
    intro x hx
    obtain ⟨i, hi, rfl⟩ := List.getElem_of_mem hx
    have := hh.root_le i hi
    simpa [he] using this
  rw [coTimerHeapPop, he]
  by_cases hr : 0 < rest.length
  · simp only [hr, ↓reduceDIte, true_and]
    rw [he] at hmin
    have hlast : (c :: rest)[(c :: rest).length - 1] = rest[rest.length - 1] := by
      simp only [List.length_cons, Nat.add_sub_cancel]
      rw [List.getElem_cons]
      simp [show rest.length ≠ 0 by omega]
    have hdown : DownHeaped key ((c :: rest).dropLast.set 0 rest[rest.length - 1]) 0 := by
      constructor
      · intro i hi h0 hpar
        simp only [List.length_set, List.length_dropLast, List.length_cons] at hi
        rw [List.getElem_set_ne (by omega), List.getElem_set_ne (by omega)]
        simp only [List.getElem_dropLast]
        have := hh i (by simp [he]; omega) h0
        simpa [he] using this
      · intro i _ _ _ _ h0
        omega
    obtain ⟨h1, h2⟩ := heapSiftDown_spec _ 0 (by simp; omega) hdown
    refine ⟨h1, h2.trans ?_, hmin⟩
    have := moveLast_perm (l := c :: rest) (i := 0) (by simpa using hr)
    rw [hlast] at this
    simpa using this
  · have : rest = [] := List.eq_nil_of_length_eq_zero (by omega)
    subst this
    simp [heaped_nil]

/-- Sifting permutes the array, in whatever order it is. -/
theorem heapSiftDownLoop_perm (key : Nat → Nat) (heap : List Nat) (idx item : Nat)
    (hidx : idx < heap.length) :
    (heapSiftDownLoop key heap idx item hidx).Perm (heap.set idx item) := by
  fun_induction heapSiftDownLoop key heap idx item hidx with
  | case1 heap idx hidx hhalf hc hb hlt hle => exact .refl _
  | case2 heap idx hidx hhalf hc hb hlt hle ih =>
    refine ih.trans ?_
    have hne : idx ≠ smallerChild key heap idx hc := by omega
    have hswap := @List.set_set_perm _ (heap.set idx item) idx
      (smallerChild key heap idx hc) (by simpa using hidx) (by simpa using hlt)
    simpa [List.getElem_set, hne] using hswap
  | case3 heap idx hidx hhalf => exact .refl _

theorem coTimerHeapPop_perm (key : Nat → Nat) {h : TimerHeap} {c : Nat} {rest : List Nat}
    (he : h.entries = c :: rest) :
    (coTimerHeapPop key h).1 = some c ∧ (coTimerHeapPop key h).2.entries.Perm rest := by
  rw [coTimerHeapPop, he]
  by_cases hr : 0 < rest.length
  · simp only [hr, ↓reduceDIte, true_and]
    refine (heapSiftDownLoop_perm key _ 0 _ (by simp; omega)).trans ?_
    have hlast : (c :: rest)[(c :: rest).length - 1] = rest[rest.length - 1] := by
      simp only [List.length_cons, Nat.add_sub_cancel]
      rw [List.getElem_cons]
      simp [show rest.length ≠ 0 by omega]
    have := moveLast_perm (l := c :: rest) (i := 0) (by simpa using hr)
    rw [hlast] at this
    simpa using this
  · have hnil : rest = [] := List.eq_nil_of_length_eq_zero (by omega)
    subst hnil
    simp

theorem removeAt_spec {l : List Nat} (hh : Heaped key l) (i : Nat) (hi : i < l.length) :
    Heaped key (removeAt key l i hi) ∧ (removeAt key l i hi).Perm (l.erase l[i]) := by
  unfold removeAt
  by_cases hlast : i < l.length - 1
  · have hperm := moveLast_perm hlast
    simp only [hlast, ↓reduceDIte]
    -- away from `i` the shortened array is the old one
    have hold : ∀ j (hj : j < (l.dropLast.set i l[l.length - 1]).length), j ≠ i →
        (l.dropLast.set i l[l.length - 1])[j] =
          l.get ⟨j, by simp only [List.length_set, List.length_dropLast] at hj; omega⟩ := by
      intro j hj hne
      simp [List.getElem_set_ne (Ne.symm hne)]
    have hgrand : ∀ j (_ : j < (l.dropLast.set i l[l.length - 1]).length)
        (_ : i < (l.dropLast.set i l[l.length - 1]).length), 0 < j → (j - 1) / 2 = i → 0 < i →
        key (l.dropLast.set i l[l.length - 1])[(i - 1) / 2] ≤
          key (l.dropLast.set i l[l.length - 1])[j] := by
      intro j hj hi' h0 hpar hpos
      simp only [List.length_set, List.length_dropLast] at hj
      rw [hold _ (by simp; omega) (by omega), hold _ (by simp; omega) (by omega)]
      have h1 := hh i hi hpos
      have h2 := hh j (by omega) h0
      simp only [hpar] at h2
      exact Nat.le_trans h1 h2
    split
    · rename_i hup
      have hu : UpHeaped key (l.dropLast.set i l[l.length - 1]) i := by
        refine ⟨fun j hj h0 hne => ?_, hgrand⟩
        simp only [List.length_set, List.length_dropLast] at hj
        by_cases hp : (j - 1) / 2 = i
        · -- below the replacement: it is before its parent, which is before this child
          have := hgrand j (by simpa using hj) (by simp; omega) h0 hp hup.1
          simp only [hp]
          exact Nat.le_trans (Nat.le_of_lt hup.2) this
        · rw [hold _ (by simp; omega) hp, hold _ (by simp; omega) hne]
          exact hh j (by omega) h0
      obtain ⟨h1, h2⟩ := heapSiftUp_spec _ i (by simp; omega) hu
      exact ⟨h1, h2.trans hperm⟩
    · rename_i hdown
      have hd : DownHeaped key (l.dropLast.set i l[l.length - 1]) i := by
        refine ⟨fun j hj h0 hp => ?_, hgrand⟩
        by_cases hne : j = i
        · subst hne
          have : ¬ key (l.dropLast.set j l[l.length - 1])[j] <
              key (l.dropLast.set j l[l.length - 1])[(j - 1) / 2] := fun hlt => hdown ⟨h0, hlt⟩
          omega
        · simp only [List.length_set, List.length_dropLast] at hj
          rw [hold _ (by simp; omega) hp, hold _ (by simp; omega) hne]
          exact hh j (by omega) h0
      obtain ⟨h1, h2⟩ := heapSiftDown_spec _ i (by simp; omega) hd
      exact ⟨h1, h2.trans hperm⟩
  · simp only [hlast, ↓reduceDIte]
    have hie : i = l.length - 1 := by omega
    constructor
    · intro j hj h0
      simp only [List.length_dropLast] at hj
      simp only [List.getElem_dropLast]
      exact hh j (by omega) h0
    · have hne : l ≠ [] := by
        rintro rfl
        simp at hi
      have hsplit : l = l.dropLast ++ [l[i]] := by
        have : l[i] = l.getLast hne := by simp [List.getLast_eq_getElem, hie]
        rw [this]
        exact (List.dropLast_append_getLast hne).symm
      have hcons : l.Perm (l[i] :: l.dropLast) :=
        (List.Perm.of_eq hsplit).trans (List.perm_append_singleton _ _)
      have := List.Perm.erase l[i] hcons
      simpa using this.symm

theorem coTimerHeapRemove_spec {h : TimerHeap} (hh : Heaped key h.entries) (c : Nat) :
    Heaped key (coTimerHeapRemove key h c).2.entries ∧
      (coTimerHeapRemove key h c).2.entries.Perm (h.entries.erase c) ∧
      ((coTimerHeapRemove key h c).1 = true ↔ c ∈ h.entries) := by
  unfold coTimerHeapRemove
  by_cases hm : c ∈ h.entries
  · have hlt : h.entries.idxOf c < h.entries.length := List.idxOf_lt_length_iff.mpr hm
    simp only [hlt, ↓reduceDIte, hm, and_true]
    obtain ⟨h1, h2⟩ := removeAt_spec hh (h.entries.idxOf c) hlt
    refine ⟨h1, h2.trans ?_⟩
    rw [List.getElem_idxOf hlt]
  · have hlt : ¬ h.entries.idxOf c < h.entries.length := by
      rw [List.idxOf_lt_length_iff]
      exact hm
    simp [hm, hh, List.erase_of_not_mem hm]

end Libco
