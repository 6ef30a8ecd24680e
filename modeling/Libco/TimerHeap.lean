import Libco.Timer
import Libco.Lib.Runs

/-!
# The timer heap as a data structure

`co_timer.c` by itself: any sequence of pushes, pops and removals from
`co_timer_heap_init`, with the `wakeup_time` of a routine changing only while
the routine is not in the heap. The array stays a heap below its capacity, and
every operation does to the entries what its name says (`timer_heap_correct`).
-/

namespace Libco
open Lib

variable {key : Nat → Nat}

/-! ## Array accesses -/

theorem parent_lt {idx n : Nat} (h : idx < n) : (idx - 1) / 2 < n := by omega
theorem leftChild_lt {idx n : Nat} (h : idx < n / 2) : 2 * idx + 1 < n := by omega

/-- The positions the loop of `heap_sift_up` reads and writes, in order. -/
def siftUpTouched (key : Nat → Nat) (heap : List Nat) (idx item : Nat)
    (hidx : idx < heap.length) : List Nat :=
  if h0 : idx = 0 then [idx]
  else
    have hp : (idx - 1) / 2 < heap.length := parent_lt hidx
    if key heap[(idx - 1) / 2] ≤ key item then [(idx - 1) / 2, idx]
    else
      (idx - 1) / 2 :: idx ::
        siftUpTouched key (heap.set idx heap[(idx - 1) / 2]) ((idx - 1) / 2) item
          (by simpa using hp)
termination_by idx
decreasing_by omega

/-- The positions a round of `heap_sift_down` reads to choose a child. -/
def childrenTouched (heap : List Nat) (idx : Nat) : List Nat :=
  if 2 * idx + 2 < heap.length then [2 * idx + 2, 2 * idx + 1] else [2 * idx + 1]

/-- The positions the loop of `heap_sift_down` reads and writes, in order. -/
def siftDownTouched (key : Nat → Nat) (heap : List Nat) (idx item : Nat)
    (_ : idx < heap.length) : List Nat :=
  if hhalf : idx < heap.length / 2 then
    have hc : 2 * idx + 1 < heap.length := leftChild_lt hhalf
    have hb := smallerChild_bounds key heap idx hc
    have hlt : smallerChild key heap idx hc < heap.length := hb.1
    if key item ≤ key heap[smallerChild key heap idx hc] then childrenTouched heap idx ++ [idx]
    else
      childrenTouched heap idx ++ idx ::
        siftDownTouched key (heap.set idx heap[smallerChild key heap idx hc])
          (smallerChild key heap idx hc) item (by simpa using hlt)
  else [idx]
termination_by heap.length - idx
decreasing_by
  simp only [List.length_set]
  omega

/-- Every access of `heap_sift_up` is below the count, and its loop goes round at
most `idx` times. -/
theorem siftUpTouched_spec (heap : List Nat) (idx item : Nat) (hidx : idx < heap.length) :
    (∀ i ∈ siftUpTouched key heap idx item hidx, i < heap.length) ∧
      (siftUpTouched key heap idx item hidx).length ≤ 2 * idx + 1 := by
  induction idx using Nat.strongRecOn generalizing heap with
  | ind idx ih =>
    have hp : (idx - 1) / 2 < heap.length := by omega
    rw [siftUpTouched]
    split
    · simpa using hidx
    · rename_i h0
      dsimp only
      split
      · refine ⟨fun i hi => ?_, by simp; omega⟩
        simp only [List.mem_cons, List.not_mem_nil, or_false] at hi
        omega
      · obtain ⟨h1, h2⟩ := ih ((idx - 1) / 2) (by omega)
          (heap.set idx heap[(idx - 1) / 2]) (by simpa using hp)
        refine ⟨fun i hi => ?_, by simp only [List.length_cons]; omega⟩
        simp only [List.mem_cons] at hi
        rcases hi with rfl | rfl | hi
        · exact hp
        · exact hidx
        · simpa using h1 i hi

theorem childrenTouched_spec {heap : List Nat} {idx : Nat} (hc : 2 * idx + 1 < heap.length) :
    (∀ i ∈ childrenTouched heap idx, i < heap.length) ∧ (childrenTouched heap idx).length ≤ 2 := by
  unfold childrenTouched
  split
  · refine ⟨fun i hi => ?_, by simp⟩
    simp only [List.mem_cons, List.not_mem_nil, or_false] at hi
    omega
  · simpa using hc

/-- Every access of `heap_sift_down` is below the count, and its loop goes round at
most as many times as there are positions after `idx`. -/
theorem siftDownTouched_spec (heap : List Nat) (idx item : Nat) (hidx : idx < heap.length) :
    (∀ i ∈ siftDownTouched key heap idx item hidx, i < heap.length) ∧
      (siftDownTouched key heap idx item hidx).length ≤ 3 * (heap.length - idx) := by
  generalize hn : heap.length - idx = n
  induction n using Nat.strongRecOn generalizing heap idx with
  | ind n ih =>
    rw [siftDownTouched]
    split
    · rename_i hhalf
      have hc : 2 * idx + 1 < heap.length := by omega
      obtain ⟨hlt, hgt, -⟩ := smallerChild_bounds key heap idx hc
      obtain ⟨hch, hlen⟩ := childrenTouched_spec hc
      dsimp only
      split
      · refine ⟨fun i hi => ?_, by simp only [List.length_append, List.length_singleton]; omega⟩
        rcases List.mem_append.mp hi with hi | hi
        · exact hch i hi
        · simp only [List.mem_singleton] at hi
          omega
      · obtain ⟨h1, h2⟩ := ih (heap.length - smallerChild key heap idx hc) (by omega)
          (heap.set idx heap[smallerChild key heap idx hc]) _ (by simpa using hlt) (by simp)
        refine ⟨fun i hi => ?_, by
          simp only [List.length_append, List.length_cons]
          omega⟩
        rcases List.mem_append.mp hi with hi | hi
        · exact hch i hi
        · rcases List.mem_cons.mp hi with rfl | hi
          · exact hidx
          · simpa using h1 i hi
    · refine ⟨fun i hi => ?_, by simp; omega⟩
      simp only [List.mem_singleton] at hi
      omega

theorem siftUpTouched_self (heap : List Nat) (idx item : Nat) (hidx : idx < heap.length) :
    idx ∈ siftUpTouched key heap idx item hidx := by
  rw [siftUpTouched]
  split
  · simp
  · dsimp only
    split <;> simp

/-- The loop of `heap_sift_up` writes to no other position. -/
theorem siftUp_writes (heap : List Nat) (idx item : Nat) (hidx : idx < heap.length) (j : Nat)
    (hj : j ∉ siftUpTouched key heap idx item hidx) :
    (heapSiftUpLoop key heap idx item hidx)[j]? = heap[j]? := by
  induction idx using Nat.strongRecOn generalizing heap with
  | ind idx ih =>
    have hne : idx ≠ j := fun he => hj (he ▸ siftUpTouched_self heap idx item hidx)
    rw [siftUpTouched] at hj
    rw [heapSiftUpLoop]
    split
    · exact List.getElem?_set_ne hne
    rename_i h0
    simp only [h0, ↓reduceDIte] at hj
    dsimp only
    split
    · exact List.getElem?_set_ne hne
    rename_i hle
    simp only [hle, ↓reduceIte, List.mem_cons, not_or] at hj
    rw [ih _ (by omega) _ (by simp; omega) hj.2.2]
    exact List.getElem?_set_ne hne

theorem get_of_getElem? {heap heap' : List Nat} {i : Nat} (h : i < heap.length)
    (h' : i < heap'.length) (he : heap'[i]? = heap[i]?) : heap'[i] = heap[i] := by
  rw [List.getElem?_eq_getElem h, List.getElem?_eq_getElem h', Option.some.injEq] at he
  exact he

theorem getElem?_set_congr {heap heap' : List Nat} {i j x : Nat}
    (hlen : heap'.length = heap.length) (he : heap'[j]? = heap[j]?) :
    (heap'.set i x)[j]? = (heap.set i x)[j]? := by
  rw [List.getElem?_set, List.getElem?_set, hlen, he]

/-- What the loop of `heap_sift_up` does depends on no other position. -/
theorem siftUp_reads (heap heap' : List Nat) (idx item : Nat) (hidx : idx < heap.length)
    (hidx' : idx < heap'.length) (hlen : heap'.length = heap.length)
    (hsame : ∀ j ∈ siftUpTouched key heap idx item hidx, heap'[j]? = heap[j]?) :
    siftUpTouched key heap' idx item hidx' = siftUpTouched key heap idx item hidx ∧
      ∀ j ∈ siftUpTouched key heap idx item hidx,
        (heapSiftUpLoop key heap' idx item hidx')[j]? =
          (heapSiftUpLoop key heap idx item hidx)[j]? := by
  induction idx using Nat.strongRecOn generalizing heap heap' with
  | ind idx ih =>
    have hin : idx ∈ siftUpTouched key heap idx item hidx := siftUpTouched_self heap idx item hidx
    by_cases h0 : idx = 0
    · subst h0
      rw [siftUpTouched, siftUpTouched, heapSiftUpLoop, heapSiftUpLoop]
      simp only [↓reduceDIte, true_and]
      intro j hj
      exact getElem?_set_congr hlen (hsame j (by rw [siftUpTouched]; simpa using hj))
    · have hp : (idx - 1) / 2 < heap.length := by omega
      have hp' : (idx - 1) / 2 < heap'.length := by omega
      have hpar : heap'[(idx - 1) / 2] = heap[(idx - 1) / 2] := by
        refine get_of_getElem? hp hp' (hsame _ ?_)
        rw [siftUpTouched]
        simp only [h0, ↓reduceDIte]
        split <;> simp
      rw [siftUpTouched] at hsame
      rw [siftUpTouched, siftUpTouched, heapSiftUpLoop, heapSiftUpLoop]
      simp only [h0, ↓reduceDIte, hpar] at hsame ⊢
      by_cases hle : key heap[(idx - 1) / 2] ≤ key item
      · simp only [hle, ↓reduceIte, true_and] at hsame ⊢
        exact fun j hj => getElem?_set_congr hlen (hsame j hj)
      · simp only [hle, ↓reduceIte] at hsame ⊢
        obtain ⟨htouched, hloop⟩ := ih ((idx - 1) / 2) (by omega)
          (heap.set idx heap[(idx - 1) / 2]) (heap'.set idx heap[(idx - 1) / 2])
          (by simpa using hp) (by simpa using hp') (by simpa using hlen) fun j hj =>
            getElem?_set_congr hlen
              (hsame j (List.mem_cons_of_mem _ (List.mem_cons_of_mem _ hj)))
        refine ⟨by rw [htouched], fun j hj => ?_⟩
        by_cases hrest : j ∈ siftUpTouched key (heap.set idx heap[(idx - 1) / 2]) ((idx - 1) / 2)
            item (by simpa using hp)
        · exact hloop j hrest
        · rw [siftUp_writes _ _ _ _ j hrest, siftUp_writes _ _ _ _ j (htouched ▸ hrest)]
          exact getElem?_set_congr hlen (hsame j hj)

theorem siftDownTouched_self (heap : List Nat) (idx item : Nat) (hidx : idx < heap.length) :
    idx ∈ siftDownTouched key heap idx item hidx := by
  rw [siftDownTouched]
  split
  · dsimp only
    split <;> simp
  · simp

/-- The loop of `heap_sift_down` writes to no other position. -/
theorem siftDown_writes (heap : List Nat) (idx item : Nat) (hidx : idx < heap.length) (j : Nat)
    (hj : j ∉ siftDownTouched key heap idx item hidx) :
    (heapSiftDownLoop key heap idx item hidx)[j]? = heap[j]? := by
  generalize hn : heap.length - idx = n
  induction n using Nat.strongRecOn generalizing heap idx with
  | ind n ih =>
    have hne : idx ≠ j := fun he => hj (he ▸ siftDownTouched_self heap idx item hidx)
    rw [siftDownTouched] at hj
    rw [heapSiftDownLoop]
    split
    swap
    · exact List.getElem?_set_ne hne
    rename_i hhalf
    have hc : 2 * idx + 1 < heap.length := by omega
    obtain ⟨hlt, hgt, -⟩ := smallerChild_bounds key heap idx hc
    simp only [hhalf, ↓reduceDIte] at hj
    dsimp only
    split
    · exact List.getElem?_set_ne hne
    rename_i hle
    simp only [hle, ↓reduceIte, List.mem_append, List.mem_cons, not_or] at hj
    rw [ih (heap.length - smallerChild key heap idx hc) (by omega) _ _ (by simpa using hlt) hj.2.2
      (by simp)]
    exact List.getElem?_set_ne hne

/-- The comparison of the children reads them only. -/
theorem smallerChild_reads {heap heap' : List Nat} {idx : Nat} (hc : 2 * idx + 1 < heap.length)
    (hc' : 2 * idx + 1 < heap'.length) (hlen : heap'.length = heap.length)
    (hsame : ∀ j ∈ childrenTouched heap idx, heap'[j]? = heap[j]?) :
    smallerChild key heap' idx hc' = smallerChild key heap idx hc ∧
      heap'[smallerChild key heap idx hc]? = heap[smallerChild key heap idx hc]? := by
  unfold childrenTouched at hsame
  by_cases hr : 2 * idx + 2 < heap.length
  · have hr' : 2 * idx + 2 < heap'.length := by omega
    simp only [hr, if_true, List.mem_cons, List.not_mem_nil, or_false, forall_eq_or_imp,
      forall_eq] at hsame
    have hright := get_of_getElem? hr hr' hsame.1
    have hleft := get_of_getElem? hc hc' hsame.2
    unfold smallerChild
    simp only [hr, hr', ↓reduceDIte, hright, hleft, true_and]
    split
    · exact hsame.1
    · exact hsame.2
  · have hr' : ¬ 2 * idx + 2 < heap'.length := by omega
    unfold smallerChild
    simp only [hr, hr', ↓reduceDIte, true_and]
    simpa [hr] using hsame

/-- What the loop of `heap_sift_down` does depends on no other position. -/
theorem siftDown_reads (heap heap' : List Nat) (idx item : Nat) (hidx : idx < heap.length)
    (hidx' : idx < heap'.length) (hlen : heap'.length = heap.length)
    (hsame : ∀ j ∈ siftDownTouched key heap idx item hidx, heap'[j]? = heap[j]?) :
    siftDownTouched key heap' idx item hidx' = siftDownTouched key heap idx item hidx ∧
      ∀ j ∈ siftDownTouched key heap idx item hidx,
        (heapSiftDownLoop key heap' idx item hidx')[j]? =
          (heapSiftDownLoop key heap idx item hidx)[j]? := by
  generalize hn : heap.length - idx = n
  induction n using Nat.strongRecOn generalizing heap heap' idx with
  | ind n ih =>
    by_cases hhalf : idx < heap.length / 2
    swap
    · have hhalf' : ¬ idx < heap'.length / 2 := by omega
      rw [siftDownTouched] at hsame
      rw [siftDownTouched, siftDownTouched, heapSiftDownLoop, heapSiftDownLoop]
      simp only [hhalf, hhalf', ↓reduceDIte, true_and] at hsame ⊢
      exact fun j hj => getElem?_set_congr hlen (hsame j hj)
    have hhalf' : idx < heap'.length / 2 := by omega
    have hc : 2 * idx + 1 < heap.length := by omega
    have hc' : 2 * idx + 1 < heap'.length := by omega
    obtain ⟨hlt, hgt, -⟩ := smallerChild_bounds key heap idx hc
    have hchildren : childrenTouched heap' idx = childrenTouched heap idx := by
      simp only [childrenTouched, hlen]
    rw [siftDownTouched] at hsame
    simp only [hhalf, ↓reduceDIte] at hsame
    obtain ⟨hsm, hch⟩ := @smallerChild_reads key _ _ _ hc hc' hlen fun j hj => hsame j (by
      split <;> simp [hj])
    have hval := get_of_getElem? hlt (by omega) hch
    rw [siftDownTouched, siftDownTouched, heapSiftDownLoop, heapSiftDownLoop]
    simp only [hhalf, hhalf', ↓reduceDIte, hsm, hval, hchildren]
    by_cases hle : key item ≤ key heap[smallerChild key heap idx hc]
    · simp only [hle, ↓reduceIte, true_and] at hsame ⊢
      exact fun j hj => getElem?_set_congr hlen (hsame j hj)
    · simp only [hle, ↓reduceIte] at hsame ⊢
      obtain ⟨htouched, hloop⟩ := ih (heap.length - smallerChild key heap idx hc) (by omega)
        (heap.set idx heap[smallerChild key heap idx hc])
        (heap'.set idx heap[smallerChild key heap idx hc]) (smallerChild key heap idx hc)
        (by simpa using hlt) (by simpa [hlen] using hlt) (by simpa using hlen) (fun j hj =>
          getElem?_set_congr hlen (hsame j (by simp [hj]))) (by simp)
      refine ⟨by rw [htouched], fun j hj => ?_⟩
      by_cases hrest : j ∈ siftDownTouched key (heap.set idx heap[smallerChild key heap idx hc])
          (smallerChild key heap idx hc) item (by simpa using hlt)
      · exact hloop j hrest
      · rw [siftDown_writes _ _ _ _ j hrest, siftDown_writes _ _ _ _ j (htouched ▸ hrest)]
        exact getElem?_set_congr hlen (hsame j hj)
/-- The positions `touched` are those at which the loop of a sift reads and writes: they lie
in the array, there are at most `bound` of them, what the loop stores there depends on what
was there, and the rest of the array stays. -/
structure Accesses (idx bound : Nat)
    (touched loop : (heap : List Nat) → idx < heap.length → List Nat) (heap : List Nat)
    (hidx : idx < heap.length) : Prop where
  below : ∀ i ∈ touched heap hidx, i < heap.length
  rounds : (touched heap hidx).length ≤ bound
  writes : ∀ j ∉ touched heap hidx, (loop heap hidx)[j]? = heap[j]?
  reads : ∀ (heap' : List Nat) (hidx' : idx < heap'.length), heap'.length = heap.length →
    (∀ j ∈ touched heap hidx, heap'[j]? = heap[j]?) → touched heap' hidx' = touched heap hidx ∧
      ∀ j ∈ touched heap hidx, (loop heap' hidx')[j]? = (loop heap hidx)[j]?

theorem siftUp_accesses (heap : List Nat) (idx item : Nat) (hidx : idx < heap.length) :
    Accesses idx (2 * idx + 1) (fun l h => siftUpTouched key l idx item h)
      (fun l h => heapSiftUpLoop key l idx item h) heap hidx :=
  ⟨(siftUpTouched_spec heap idx item hidx).1, (siftUpTouched_spec heap idx item hidx).2,
    siftUp_writes heap idx item hidx, fun heap' => siftUp_reads heap heap' idx item hidx⟩

theorem siftDown_accesses (heap : List Nat) (idx item : Nat) (hidx : idx < heap.length) :
    Accesses idx (3 * (heap.length - idx)) (fun l h => siftDownTouched key l idx item h)
      (fun l h => heapSiftDownLoop key l idx item h) heap hidx :=
  ⟨(siftDownTouched_spec heap idx item hidx).1, (siftDownTouched_spec heap idx item hidx).2,
    siftDown_writes heap idx item hidx, fun heap' => siftDown_reads heap heap' idx item hidx⟩

/-! ## Runs of heap operations -/

/-- `co_timer_heap_init`; `none` is `false`. -/
def coTimerHeapInit (initialCapacity : Nat) (calloc : Bool) : Option TimerHeap :=
  if initialCapacity = 0 then none
  else if calloc then some ⟨[], initialCapacity⟩
  else none

/-- A heap, and the `wakeup_time` fields of all routines. -/
structure HeapSt where
  heap : TimerHeap
  wakeupTime : Nat → Nat

inductive HeapOp where
  | push (c : Nat) (reallocOk : Bool)
  | pop
  | remove (c : Nat)
  | setWakeupTime (c w : Nat)

/-- A push that answers `false` leaves the heap as it is; the `wakeup_time` of a
routine in the heap does not change. -/
def HeapSt.step (t : HeapSt) : HeapOp → Option HeapSt
  | .push c ok =>
    match coTimerHeapPush t.wakeupTime t.heap c ok with
    | some h => some { t with heap := h }
    | none => some t
  | .pop => some { t with heap := (coTimerHeapPop t.wakeupTime t.heap).2 }
  | .remove c => some { t with heap := (coTimerHeapRemove t.wakeupTime t.heap c).2 }
  | .setWakeupTime c w =>
    if c ∈ t.heap.entries then none
    else some { t with wakeupTime := Function.update t.wakeupTime c w }

/-- The heaps reached from `h₀`. -/
def HeapReach (h₀ : TimerHeap) (w₀ : Nat → Nat) : HeapSt → Prop :=
  Reach HeapSt.step (fun _ _ => True) ⟨h₀, w₀⟩

structure HeapSt.Valid (t : HeapSt) : Prop where
  capacity : 0 < t.heap.capacity
  count : t.heap.entries.length ≤ t.heap.capacity
  ordered : Heaped t.wakeupTime t.heap.entries

theorem coTimerHeapPush_count {h h' : TimerHeap} {c : Nat} {ok : Bool} (hpos : 0 < h.capacity)
    (hle : h.entries.length ≤ h.capacity) (hh : Heaped key h.entries)
    (hp : coTimerHeapPush key h c ok = some h') :
    0 < h'.capacity ∧ h'.entries.length ≤ h'.capacity := by
  have hlen := (coTimerHeapPush_spec hh hp).2.length_eq
  rw [List.length_cons] at hlen
  unfold coTimerHeapPush at hp
  split at hp
  · split at hp
    · cases hp
      simp only at hlen ⊢
      omega
    · cases hp
  · cases hp
    simp only at hlen ⊢
    omega

theorem coTimerHeapPop_count (h : TimerHeap) (hh : Heaped key h.entries) :
    (coTimerHeapPop key h).2.capacity = h.capacity ∧
      (coTimerHeapPop key h).2.entries.length ≤ h.entries.length ∧
      Heaped key (coTimerHeapPop key h).2.entries := by
  cases he : h.entries with
  | nil => simpa [coTimerHeapPop, he] using heaped_nil
  | cons c rest =>
    obtain ⟨-, h2, h3, -⟩ := coTimerHeapPop_spec hh he
    refine ⟨?_, by rw [h3.length_eq]; simp, h2⟩
    simp only [coTimerHeapPop, he]
    split <;> rfl

theorem coTimerHeapRemove_count (h : TimerHeap) (c : Nat) (hh : Heaped key h.entries) :
    (coTimerHeapRemove key h c).2.capacity = h.capacity ∧
      (coTimerHeapRemove key h c).2.entries.length ≤ h.entries.length := by
  refine ⟨?_, ?_⟩
  · unfold coTimerHeapRemove
    split <;> rfl
  · rw [(coTimerHeapRemove_spec hh c).2.1.length_eq]
    exact List.length_erase_le

theorem HeapSt.Valid.step {t t' : HeapSt} {op : HeapOp} (h : t.Valid) (hs : t.step op = some t') :
    t'.Valid := by
  cases op with
  | push c ok =>
    simp only [HeapSt.step] at hs
    split at hs
    · rename_i h' hp
      cases hs
      obtain ⟨h1, h2⟩ := coTimerHeapPush_count h.capacity h.count h.ordered hp
      exact ⟨h1, h2, (coTimerHeapPush_spec h.ordered hp).1⟩
    · cases hs
      exact h
  | pop =>
    cases hs
    obtain ⟨h1, h2, h3⟩ := coTimerHeapPop_count t.heap h.ordered
    exact ⟨h1 ▸ h.capacity, h1 ▸ Nat.le_trans h2 h.count, h3⟩
  | remove c =>
    cases hs
    obtain ⟨h1, h2⟩ := coTimerHeapRemove_count t.heap c h.ordered
    exact ⟨h1 ▸ h.capacity, h1 ▸ Nat.le_trans h2 h.count, (coTimerHeapRemove_spec h.ordered c).1⟩
  | setWakeupTime c w =>
    simp only [HeapSt.step] at hs
    split at hs
    · cases hs
    · rename_i hm
      cases hs
      refine ⟨h.capacity, h.count, h.ordered.congr fun x hx => Function.update_of_ne ?_ _ _⟩
      rintro rfl
      exact hm hx

theorem HeapReach.valid {h₀ : TimerHeap} {w₀ : Nat → Nat} {n : Nat} {ok : Bool} {t : HeapSt}
    (hinit : coTimerHeapInit n ok = some h₀) (h : HeapReach h₀ w₀ t) : t.Valid := by
  refine h.invariant ?_ fun _ _ _ hv _ hs => hv.step hs
  unfold coTimerHeapInit at hinit
  split at hinit
  · cases hinit
  · rename_i hn
    split at hinit
    · cases hinit
      exact ⟨Nat.pos_of_ne_zero hn, Nat.zero_le _, heaped_nil⟩
    · cases hinit

/-! ## What every reachable heap does -/

structure HeapSt.Correct (t : HeapSt) : Prop where
  count : t.heap.entries.length ≤ t.heap.capacity
  ordered : ∀ i (_ : i < t.heap.entries.length), 0 < i →
    t.wakeupTime t.heap.entries[(i - 1) / 2] ≤ t.wakeupTime t.heap.entries[i]
  /-- a push that succeeds adds the routine once -/
  push : ∀ c ok h', coTimerHeapPush t.wakeupTime t.heap c ok = some h' →
    t.step (.push c ok) = some { t with heap := h' } ∧ h'.entries.Perm (c :: t.heap.entries)
  /-- a push fails only when the array is full and cannot grow, and changes nothing -/
  push_fails : ∀ c ok, coTimerHeapPush t.wakeupTime t.heap c ok = none →
    t.heap.entries.length = t.heap.capacity ∧ ok = false ∧ t.step (.push c ok) = some t
  /-- a pop takes out one occurrence of an entry of minimum `wakeup_time` -/
  pop : t.heap.entries ≠ [] → ∃ c ∈ t.heap.entries,
    (coTimerHeapPop t.wakeupTime t.heap).1 = some c ∧
      (∀ x ∈ t.heap.entries, t.wakeupTime c ≤ t.wakeupTime x) ∧
      (coTimerHeapPop t.wakeupTime t.heap).2.entries.Perm (t.heap.entries.erase c)
  pop_empty : t.heap.entries = [] → coTimerHeapPop t.wakeupTime t.heap = (none, t.heap)
  /-- a removal answers whether the routine is there, and takes out one occurrence -/
  remove : ∀ c, ((coTimerHeapRemove t.wakeupTime t.heap c).1 = true ↔ c ∈ t.heap.entries) ∧
    (coTimerHeapRemove t.wakeupTime t.heap c).2.entries.Perm (t.heap.entries.erase c)
  remove_absent : ∀ c, c ∉ t.heap.entries →
    coTimerHeapRemove t.wakeupTime t.heap c = (false, t.heap)
  peek : t.heap.entries ≠ [] → ∃ c ∈ t.heap.entries, coTimerHeapPeek t.heap = some c ∧
    ∀ x ∈ t.heap.entries, t.wakeupTime c ≤ t.wakeupTime x
  /-- the sifts stay inside the array, whatever array and position they are given -/
  sift_up : ∀ heap idx item (hidx : idx < heap.length),
    Accesses idx (2 * idx + 1) (fun l h => siftUpTouched t.wakeupTime l idx item h)
      (fun l h => heapSiftUpLoop t.wakeupTime l idx item h) heap hidx
  sift_down : ∀ heap idx item (hidx : idx < heap.length),
    Accesses idx (3 * (heap.length - idx)) (fun l h => siftDownTouched t.wakeupTime l idx item h)
      (fun l h => heapSiftDownLoop t.wakeupTime l idx item h) heap hidx

theorem HeapSt.Valid.pop {t : HeapSt} (h : t.Valid) (hne : t.heap.entries ≠ []) :
    ∃ c ∈ t.heap.entries, (coTimerHeapPop t.wakeupTime t.heap).1 = some c ∧
      (∀ x ∈ t.heap.entries, t.wakeupTime c ≤ t.wakeupTime x) ∧
      (coTimerHeapPop t.wakeupTime t.heap).2.entries.Perm (t.heap.entries.erase c) ∧
      coTimerHeapPeek t.heap = some c := by
  obtain ⟨c, rest, he⟩ := List.exists_cons_of_ne_nil hne
  obtain ⟨h1, -, h3, h4⟩ := coTimerHeapPop_spec h.ordered he
  refine ⟨c, by rw [he]; simp, h1, h4, ?_, by rw [coTimerHeapPeek, he]; rfl⟩
  rw [he, List.erase_cons_head]
  exact h3

theorem HeapSt.Valid.push_fails {t : HeapSt} (h : t.Valid) {c : Nat} {ok : Bool}
    (hp : coTimerHeapPush t.wakeupTime t.heap c ok = none) :
    t.heap.entries.length = t.heap.capacity ∧ ok = false := by
  have hle := h.count
  unfold coTimerHeapPush at hp
  split at hp
  · split at hp
    · cases hp
    · rename_i hok
      exact ⟨by omega, by simpa using hok⟩
  · cases hp

theorem coTimerHeapRemove_absent {h : TimerHeap} {c : Nat} (hm : c ∉ h.entries) :
    coTimerHeapRemove key h c = (false, h) := by
  unfold coTimerHeapRemove
  split
  · rename_i hlt
    exact absurd (List.idxOf_lt_length_iff.mp hlt) hm
  · rfl

/-- **The timer heap is correct.** -/
theorem timer_heap_correct {h₀ : TimerHeap} {w₀ : Nat → Nat} {n : Nat} {ok : Bool} {t : HeapSt}
    (hinit : coTimerHeapInit n ok = some h₀) (h : HeapReach h₀ w₀ t) : t.Correct := by
  have hv := h.valid hinit
  constructor
  · exact hv.count
  · exact hv.ordered
  · intro c ok h' hp
    refine ⟨?_, (coTimerHeapPush_spec hv.ordered hp).2⟩
    simp only [HeapSt.step, hp]
  · intro c ok hp
    obtain ⟨h1, h2⟩ := hv.push_fails hp
    refine ⟨h1, h2, ?_⟩
    simp only [HeapSt.step, hp]
  · intro hne
    obtain ⟨c, hm, h1, h2, h3, -⟩ := hv.pop hne
    exact ⟨c, hm, h1, h2, h3⟩
  · intro he
    simp [coTimerHeapPop, he]
  · intro c
    exact ⟨(coTimerHeapRemove_spec hv.ordered c).2.2, (coTimerHeapRemove_spec hv.ordered c).2.1⟩
  · intro c hm
    exact coTimerHeapRemove_absent hm
  · intro hne
    obtain ⟨c, hm, -, h2, -, h3⟩ := hv.pop hne
    exact ⟨c, hm, h3, h2⟩
  · exact siftUp_accesses
  · exact siftDown_accesses

/-- Seven routines in an array of two; the removal of routine 5 moves the last entry
up. -/
def siftingOps : List HeapOp :=
  [.push 1 true, .push 4 true, .push 2 true, .push 5 true, .push 6 true, .push 3 true, .push 7 true,
    .remove 5]

/-- The `wakeup_time` fields of `siftingOps`. -/
def siftingTimes : Nat → Nat
  | 1 => 1
  | 4 => 10
  | 2 => 2
  | 5 => 11
  | 6 => 12
  | 3 => 3
  | 7 => 4
  | _ => 0

theorem timer_heap_correct_sifting :
    coTimerHeapInit 2 true = some ⟨[], 2⟩ ∧
      ∃ t, runActs HeapSt.step ⟨⟨[], 2⟩, siftingTimes⟩ siftingOps = some t ∧
        t.heap = ⟨[1, 7, 2, 4, 6, 3], 8⟩ ∧ t.Correct := by
  have hrun : (runActs HeapSt.step ⟨⟨[], 2⟩, siftingTimes⟩ siftingOps).map (fun t => t.heap) =
      some ⟨[1, 7, 2, 4, 6, 3], 8⟩ := by
    decide +kernel
  have hinit : coTimerHeapInit 2 true = some ⟨[], 2⟩ := rfl
  obtain ⟨t, ht, he⟩ := Option.map_eq_some_iff.mp hrun
  exact ⟨hinit, t, ht, he,
    timer_heap_correct hinit (reach_of_runActs (fun _ _ _ => trivial) ht)⟩

end Libco
