import Mathlib.Data.List.Iterate
import Mathlib.Data.List.Nodup
import Mathlib.Logic.Function.Basic

/-!
# Segments of doubly linked lists

A memory of links is two functions `next` and `prev`. `Path next a l b`: from
`a`, `next` visits `l` and then reaches `b`. `Seg next prev a l b` adds that
`prev` leads back over every link of the path. A circular list with sentinel
`a` is a segment from `a` to `a`. The lemmas say what a segment becomes when a
link of it is redirected, which is all that insertion and removal do.
-/

namespace Libco.Lib

variable {α : Type}

def Path (next : α → α) : α → List α → α → Prop
  | a, [], b => next a = b
  | a, x :: l, b => next a = x ∧ Path next x l b

/-- A path has the nodes that iterating `next` visits. -/
theorem Path.iterate {next : α → α} {a b : α} {l : List α} (h : Path next a l b) :
    List.iterate next (next a) l.length = l := by
  induction l generalizing a with
  | nil => rfl
  | cons x l ih =>
    obtain ⟨hx, hl⟩ := h
    rw [List.length_cons, List.iterate, hx, ih hl]

def Seg (next prev : α → α) : α → List α → α → Prop
  | a, [], b => next a = b ∧ prev b = a
  | a, x :: l, b => (next a = x ∧ prev x = a) ∧ Seg next prev x l b

/-- A segment is a path on which `prev` undoes `next`. -/
theorem seg_iff {next prev : α → α} {a b : α} {l : List α} :
    Seg next prev a l b ↔ Path next a l b ∧ ∀ x ∈ a :: l, prev (next x) = x := by
  induction l generalizing a with
  | nil =>
    simp only [Seg, Path, List.mem_singleton, forall_eq]
    constructor
    · rintro ⟨rfl, hp⟩
      exact ⟨rfl, hp⟩
    · rintro ⟨rfl, hp⟩
      exact ⟨rfl, hp⟩
  | cons x l ih =>
    simp only [Seg, Path, ih]
    constructor
    · rintro ⟨⟨rfl, hp⟩, hl, hi⟩
      refine ⟨⟨rfl, hl⟩, ?_⟩
      intro y hy
      rcases List.mem_cons.mp hy with rfl | hy
      · exact hp
      · exact hi y hy
    · rintro ⟨⟨rfl, hl⟩, hi⟩
      exact ⟨⟨rfl, hi a (by simp)⟩, hl, fun y hy => hi y (List.mem_cons_of_mem a hy)⟩

theorem seg_append {next prev : α → α} {a x b : α} {l₁ l₂ : List α} :
    Seg next prev a (l₁ ++ x :: l₂) b ↔ Seg next prev a l₁ x ∧ Seg next prev x l₂ b := by
  induction l₁ generalizing a with
  | nil => exact Iff.rfl
  | cons y l₁ ih =>
    rw [List.cons_append, Seg, ih, ← and_assoc]
    exact Iff.rfl

section

variable {next prev : α → α} {a b : α} {l : List α}

/-- A segment reads `next` from its start and its nodes only, `prev` from its
nodes and its end only. -/
theorem Seg.congr {next' prev' : α → α} (h : Seg next prev a l b)
    (hn : ∀ x ∈ a :: l, next' x = next x) (hp : ∀ x ∈ l ++ [b], prev' x = prev x) :
    Seg next' prev' a l b := by
  induction l generalizing a with
  | nil => exact ⟨(hn a (by simp)).trans h.1, (hp b (by simp)).trans h.2⟩
  | cons x l ih =>
    obtain ⟨⟨hx, hpx⟩, hl⟩ := h
    refine ⟨⟨(hn a (by simp)).trans hx, (hp x (by simp)).trans hpx⟩, ?_⟩
    apply ih hl
    · intro y hy
      exact hn y (List.mem_cons_of_mem a hy)
    · intro y hy
      exact hp y (List.mem_cons_of_mem x hy)

/-- The first link of a segment goes into it, or to its end. -/
theorem Seg.next_mem (h : Seg next prev a l b) : next a ∈ l ++ [b] := by
  cases l with
  | nil => simp [h.1]
  | cons x l => simp [h.1.1]

theorem Seg.prev_mem (h : Seg next prev a l b) : prev b ∈ a :: l := by
  induction l generalizing a with
  | nil => simp [h.2]
  | cons x l ih => exact List.mem_cons_of_mem a (ih h.2)

/-- The first node. -/
theorem Seg.head_eq (h : Seg next prev a l b) (hl : l ≠ []) : l.head? = some (next a) := by
  cases l with
  | nil => exact absurd rfl hl
  | cons x l => rw [h.1.1, List.head?_cons]

theorem Seg.last_eq (h : Seg next prev a l b) (hl : l ≠ []) : l.getLast? = some (prev b) := by
  induction l generalizing a with
  | nil => exact absurd rfl hl
  | cons x l ih =>
    cases l with
    | nil => rw [h.2.2, List.getLast?_singleton]
    | cons y l => rw [List.getLast?_cons_cons, ih h.2 (List.cons_ne_nil y l)]

/-- No node of a segment of distinct nodes links to itself. -/
theorem Seg.next_ne {x : α} (h : Seg next prev a l b) (hd : l.Nodup) (hb : b ∉ l)
    (hx : x ∈ l) : next x ≠ x := by
  obtain ⟨l₁, l₂, rfl⟩ := List.append_of_mem hx
  obtain ⟨-, h₂⟩ := seg_append.mp h
  have hnot : x ∉ l₂ := by
    have := List.nodup_append.mp hd
    exact (List.nodup_cons.mp this.2.1).1
  intro heq
  have hm := h₂.next_mem
  rw [heq] at hm
  rcases List.mem_append.mp hm with hm | hm
  · exact hnot hm
  · exact hb (List.mem_singleton.mp hm ▸ hx)

theorem Seg.prev_ne {x : α} (h : Seg next prev a l b) (hd : (a :: l).Nodup) (hx : x ∈ l) :
    prev x ≠ x := by
  obtain ⟨l₁, l₂, rfl⟩ := List.append_of_mem hx
  obtain ⟨h₁, -⟩ := seg_append.mp h
  rw [← List.cons_append, List.nodup_append] at hd
  intro heq
  have hm := h₁.prev_mem
  rw [heq] at hm
  exact hd.2.2 x hm x (by simp) rfl

variable [DecidableEq α]

/-- The end is redirected: the last link now goes to `c`. -/
theorem Seg.setEnd (h : Seg next prev a l b) (hd : (a :: l).Nodup) {c : α} (hc : c ∉ l) :
    Seg (Function.update next (prev b) c) (Function.update prev c (prev b)) a l c := by
  induction l generalizing a with
  | nil => simp [Seg, h.2]
  | cons x l ih =>
    obtain ⟨⟨hx, hpx⟩, hl⟩ := h
    have ha : a ≠ prev b := by
      intro heq
      exact (List.nodup_cons.mp hd).1 (heq ▸ hl.prev_mem)
    have hxc : x ≠ c := fun heq => hc (by simp [heq])
    refine ⟨⟨?_, ?_⟩, ih hl (List.nodup_cons.mp hd).2 (fun hm => hc (by simp [hm]))⟩
    · rw [Function.update_of_ne ha, hx]
    · rw [Function.update_of_ne hxc, hpx]

/-- The start is redirected: the first link now comes from `c`. -/
theorem Seg.setStart (h : Seg next prev a l b) (hd : (l ++ [b]).Nodup) {c : α} (hc : c ∉ l) :
    Seg (Function.update next c (next a)) (Function.update prev (next a) c) c l b := by
  cases l with
  | nil => simp [Seg, h.1]
  | cons x l =>
    obtain ⟨⟨hx, -⟩, hl⟩ := h
    rw [List.cons_append, List.nodup_cons] at hd
    refine ⟨⟨by simp [hx], by simp [hx]⟩, ?_⟩
    apply hl.congr
    · intro y hy
      apply Function.update_of_ne
      intro heq
      exact hc (heq ▸ hy)
    · intro y hy
      rw [hx]
      apply Function.update_of_ne
      intro heq
      exact hd.1 (heq ▸ hy)

/-- A node is cut out: the link into it now skips it. -/
theorem Seg.cut {x : α} {l₁ l₂ : List α} (h : Seg next prev a (l₁ ++ x :: l₂) b)
    (hd : (a :: (l₁ ++ x :: l₂)).Nodup) (hb : b ∉ l₁ ++ x :: l₂) :
    Seg (Function.update next (prev x) (next x)) (Function.update prev (next x) (prev x))
      a (l₁ ++ l₂) b := by
  obtain ⟨h₁, h₂⟩ := seg_append.mp h
  have hd₁ : (a :: l₁).Nodup := by
    rw [← List.cons_append] at hd
    exact (List.nodup_append.mp hd).1
  cases l₂ with
  | nil =>
    rw [List.append_nil, h₂.1]
    exact h₁.setEnd hd₁ (fun hm => hb (by simp [hm]))
  | cons y l₂ =>
    obtain ⟨⟨hy, -⟩, h₂⟩ := h₂
    have hp := h₁.prev_mem
    rw [hy, seg_append]
    simp only [List.nodup_cons, List.nodup_append, List.mem_cons, List.mem_append] at hd hb hp
    refine ⟨h₁.setEnd hd₁ (by grind), h₂.congr ?_ ?_⟩
    · intro z hz
      apply Function.update_of_ne
      grind
    · intro z hz
      apply Function.update_of_ne
      grind

end

end Libco.Lib
