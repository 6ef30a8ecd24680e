import Mathlib.Data.List.Perm.Subperm
import Mathlib.Data.Set.Insert
import Libco.Lib.Segment
import Libco.Queue

/-!
# `co_queue.h` over an explicit memory

The intrusive queues as the code has them: circular doubly linked lists with a
sentinel, whose nodes are embedded in the coroutines, in one memory shared by
all queues. An address is a word of `w` bits and so is a `size_t`. A queue is
named by the address of its `head`, its first field.

Over this memory every operation does what the list operation of the same name
does, to the queue it is called on and to no other.
-/

namespace Libco
open Lib

variable {w : Nat}

/-- The fields `next` and `prev` of the node at an address and `size` of the
queue at an address. -/
structure Links (w : Nat) where
  next : BitVec w → BitVec w
  prev : BitVec w → BitVec w
  size : BitVec w → BitVec w

namespace Links

variable {m m' : Links w} {queue node x : BitVec w} {l l' : List (BitVec w)}

def setNext (m : Links w) (p x : BitVec w) : Links w :=
  { m with next := Function.update m.next p x }

def setPrev (m : Links w) (p x : BitVec w) : Links w :=
  { m with prev := Function.update m.prev p x }

def setSize (m : Links w) (p n : BitVec w) : Links w :=
  { m with size := Function.update m.size p n }

def coQueueNodeInit (m : Links w) (node : BitVec w) : Links w :=
  let m := m.setNext node node
  m.setPrev node node

def coQueueNodeIsLinked (m : Links w) (node : BitVec w) : Bool := m.next node != node

def coQueueInit (m : Links w) (queue : BitVec w) : Links w :=
  let m := m.coQueueNodeInit queue
  m.setSize queue 0

def coQueueEmpty (m : Links w) (queue : BitVec w) : Bool := m.size queue == 0

def coQueueSize (m : Links w) (queue : BitVec w) : BitVec w := m.size queue

def coQueuePushBack (m : Links w) (queue node : BitVec w) : Links w :=
  let tail := m.prev queue
  let m := m.setNext node queue
  let m := m.setPrev node tail
  let m := m.setNext tail node
  let m := m.setPrev queue node
  m.setSize queue (m.size queue + 1)

def coQueuePushFront (m : Links w) (queue node : BitVec w) : Links w :=
  let front := m.next queue
  let m := m.setNext node front
  let m := m.setPrev node queue
  let m := m.setPrev front node
  let m := m.setNext queue node
  m.setSize queue (m.size queue + 1)

def coQueueRemove (m : Links w) (queue node : BitVec w) : Links w :=
  if !m.coQueueNodeIsLinked node then m
  else
    let m := m.setNext (m.prev node) (m.next node)
    let m := m.setPrev (m.next node) (m.prev node)
    let m := m.coQueueNodeInit node
    m.setSize queue (m.size queue - 1)

/-- `none` is the null pointer. -/
def coQueuePopFront (m : Links w) (queue : BitVec w) : Option (BitVec w) × Links w :=
  if m.coQueueEmpty queue then (none, m)
  else
    let node := m.next queue
    (some node, m.coQueueRemove queue node)

def coQueueFront (m : Links w) (queue : BitVec w) : Option (BitVec w) :=
  if m.coQueueEmpty queue then none else some (m.next queue)

def coQueueBack (m : Links w) (queue : BitVec w) : Option (BitVec w) :=
  if m.coQueueEmpty queue then none else some (m.prev queue)

/-! ## One queue -/

/-- A node in no queue, as `co_queue_node_init` leaves it. -/
def SelfLinked (m : Links w) (x : BitVec w) : Prop := m.next x = x ∧ m.prev x = x

/-- From the sentinel, `next` visits the distinct nodes `l` and returns, `prev`
is the inverse, and `size` is the length. -/
structure WellFormed (m : Links w) (queue : BitVec w) (l : List (BitVec w)) : Prop where
  path : Path m.next queue l queue
  inverse : ∀ x ∈ queue :: l, m.prev (m.next x) = x
  distinct : (queue :: l).Nodup
  size : (m.size queue).toNat = l.length

/-- The nodes of a queue, read off the memory. -/
def contents (m : Links w) (queue : BitVec w) : List (BitVec w) :=
  List.iterate m.next (m.next queue) (m.size queue).toNat

theorem WellFormed.contents_eq (h : m.WellFormed queue l) : m.contents queue = l := by
  unfold contents
  rw [h.size, h.path.iterate]

theorem WellFormed.seg (h : m.WellFormed queue l) : Seg m.next m.prev queue l queue :=
  seg_iff.mpr ⟨h.path, h.inverse⟩

theorem WellFormed.of_seg (h : Seg m.next m.prev queue l queue) (hd : (queue :: l).Nodup)
    (hs : (m.size queue).toNat = l.length) : m.WellFormed queue l := by
  obtain ⟨hp, hi⟩ := seg_iff.mp h
  exact ⟨hp, hi, hd, hs⟩

/-- A queue reads the links of its own sentinel and nodes only. -/
theorem WellFormed.congr (h : m.WellFormed queue l)
    (hn : ∀ x ∈ queue :: l, m'.next x = m.next x) (hp : ∀ x ∈ queue :: l, m'.prev x = m.prev x)
    (hs : m'.size queue = m.size queue) : m'.WellFormed queue l := by
  apply WellFormed.of_seg
  · apply h.seg.congr hn
    intro x hx
    apply hp
    simpa [or_comm] using hx
  · exact h.distinct
  · rw [hs, h.size]

theorem selfLinked_nodeInit (m : Links w) (x : BitVec w) :
    (m.coQueueNodeInit x).SelfLinked x :=
  ⟨Function.update_self _ _ _, Function.update_self _ _ _⟩

theorem SelfLinked.nodeInit {y : BitVec w} (h : m.SelfLinked y) (hy : y ≠ x) :
    (m.coQueueNodeInit x).SelfLinked y :=
  ⟨(Function.update_of_ne hy _ _).trans h.1, (Function.update_of_ne hy _ _).trans h.2⟩

theorem WellFormed.nodeInit (h : m.WellFormed queue l) (hx : x ∉ queue :: l) :
    (m.coQueueNodeInit x).WellFormed queue l := by
  have hne : ∀ y ∈ queue :: l, y ≠ x := by
    rintro y hy rfl
    exact hx hy
  apply h.congr
  · intro y hy
    exact Function.update_of_ne (hne y hy) _ _
  · intro y hy
    exact Function.update_of_ne (hne y hy) _ _
  · rfl

theorem wellFormed_init (m : Links w) (queue : BitVec w) :
    (m.coQueueInit queue).WellFormed queue [] := by
  apply WellFormed.of_seg
  · exact selfLinked_nodeInit m queue
  · exact List.nodup_singleton queue
  · show (Function.update m.size queue 0 queue).toNat = 0
    rw [Function.update_self]
    rfl

theorem WellFormed.init (h : m.WellFormed queue l) (hx : x ∉ queue :: l) :
    (m.coQueueInit x).WellFormed queue l := by
  have hne : queue ≠ x := fun he => hx (by simp [he])
  apply (h.nodeInit hx).congr
  · intro y _
    rfl
  · intro y _
    rfl
  · exact Function.update_of_ne hne _ _

/-- Distinct words are at most as many as there are words. -/
theorem length_le_of_nodup (h : l.Nodup) : l.length ≤ 2 ^ w := by
  have hn : (l.map BitVec.toNat).Nodup := h.map fun x y hxy => BitVec.eq_of_toNat_eq hxy
  have hs : l.map BitVec.toNat ⊆ List.range (2 ^ w) := by
    intro n hn
    obtain ⟨x, -, rfl⟩ := List.mem_map.mp hn
    exact List.mem_range.mpr x.isLt
  have hle := (hn.subperm hs).length_le
  rwa [List.length_map, List.length_range] at hle

/-- `size++` does not wrap: the nodes and the sentinel are distinct words. -/
theorem toNat_size_succ (h : (m.size queue).toNat = l.length) (hd : (queue :: x :: l).Nodup) :
    (m.size queue + 1).toNat = l.length + 1 := by
  have hle := length_le_of_nodup hd
  rw [List.length_cons, List.length_cons] at hle
  have h1 : (1 : BitVec w).toNat = 1 % 2 ^ w := BitVec.toNat_ofNat 1 w
  rw [BitVec.toNat_add, h1, h, Nat.add_mod_mod, Nat.mod_eq_of_lt (by omega)]

theorem toNat_size_pred {n : Nat} (h : (m.size queue).toNat = n + 1) :
    (m.size queue - 1).toNat = n := by
  have hlt := (m.size queue).isLt
  have h1 : (1 : BitVec w).toNat = 1 % 2 ^ w := BitVec.toNat_ofNat 1 w
  rw [BitVec.toNat_sub, h1, h, Nat.mod_eq_of_lt (a := 1) (by omega)]
  rw [show 2 ^ w - 1 + (n + 1) = n + 2 ^ w by omega, Nat.add_mod_right]
  exact Nat.mod_eq_of_lt (by omega)

/-- `m'` differs from `m` in that the queue, which held `l`, holds `l'`: the
words of other nodes and queues are as they were, and the nodes it lost are
self-linked. -/
structure Relinks (m m' : Links w) (queue : BitVec w) (l l' : List (BitVec w)) : Prop where
  wellFormed : m'.WellFormed queue l'
  next_eq : ∀ x ∉ queue :: (l ++ l'), m'.next x = m.next x
  prev_eq : ∀ x ∉ queue :: (l ++ l'), m'.prev x = m.prev x
  size_eq : ∀ p ≠ queue, m'.size p = m.size p
  dropped : ∀ x ∈ l, x ∉ l' → m'.SelfLinked x

theorem WellFormed.pushBack (h : m.WellFormed queue l) (hx : x ∉ queue :: l) :
    (m.coQueuePushBack queue x).WellFormed queue (l ++ [x]) := by
  have hd := h.distinct
  simp only [List.mem_cons, List.nodup_cons] at hx hd
  have hfresh : Seg (Function.update m.next x queue) m.prev queue l queue := by
    apply h.seg.congr
    · intro y hy
      apply Function.update_of_ne
      grind
    · intro y _
      rfl
  -- the link that closed the circle now goes to the new node
  have hopen := hfresh.setEnd h.distinct (c := x) (by tauto)
  apply WellFormed.of_seg
  · rw [show l ++ [x] = l ++ x :: [] from rfl, seg_append]
    constructor
    · apply hopen.congr
      · intro y _
        rfl
      · intro y hy
        apply Function.update_of_ne
        grind
    · have hne : x ≠ m.prev queue := by
        have := h.seg.prev_mem
        grind
      constructor
      · show Function.update (Function.update m.next x queue) (m.prev queue) x x = queue
        rw [Function.update_of_ne hne, Function.update_self]
      · exact Function.update_self _ _ _
  · grind [List.nodup_append]
  · show (Function.update m.size queue (m.size queue + 1) queue).toNat = _
    rw [Function.update_self, toNat_size_succ h.size (x := x) (by grind), List.length_append,
      List.length_singleton]

theorem WellFormed.pushFront (h : m.WellFormed queue l) (hx : x ∉ queue :: l) :
    (m.coQueuePushFront queue x).WellFormed queue (x :: l) := by
  have hd := h.distinct
  simp only [List.mem_cons, List.nodup_cons] at hx hd
  have hfresh : Seg m.next (Function.update m.prev x queue) queue l queue := by
    apply h.seg.congr
    · intro y _
      rfl
    · intro y hy
      apply Function.update_of_ne
      grind
  -- the link out of the sentinel now comes from the new node
  have hopen := hfresh.setStart (by grind [List.nodup_append]) (c := x) (by tauto)
  apply WellFormed.of_seg
  · rw [show x :: l = [] ++ x :: l from rfl, seg_append]
    constructor
    · have hne : x ≠ m.next queue := by
        have := h.seg.next_mem
        grind
      constructor
      · exact Function.update_self _ _ _
      · show Function.update (Function.update m.prev x queue) (m.next queue) x x = queue
        rw [Function.update_of_ne hne, Function.update_self]
    · apply hopen.congr
      · intro y hy
        apply Function.update_of_ne
        grind
      · intro y _
        rfl
  · grind
  · show (Function.update m.size queue (m.size queue + 1) queue).toNat = _
    rw [Function.update_self, toNat_size_succ h.size (x := x) (by grind), List.length_cons]

theorem WellFormed.isLinked (h : m.WellFormed queue l) (hx : x ∈ l) :
    m.coQueueNodeIsLinked x = true := by
  obtain ⟨hq, hd⟩ := List.nodup_cons.mp h.distinct
  exact bne_iff_ne.mpr (h.seg.next_ne hd hq hx)

theorem WellFormed.prev_ne (h : m.WellFormed queue l) (hx : x ∈ l) : m.prev x ≠ x :=
  h.seg.prev_ne h.distinct hx

/-- The two stores that take a node out, when its neighbours are others. -/
theorem coQueueRemove_eq (hl : m.coQueueNodeIsLinked x = true) (hp : m.prev x ≠ x) :
    m.coQueueRemove queue x =
      { next := Function.update (Function.update m.next (m.prev x) (m.next x)) x x
        prev := Function.update (Function.update m.prev (m.next x) (m.prev x)) x x
        size := Function.update m.size queue (m.size queue - 1) } := by
  simp [coQueueRemove, hl, coQueueNodeInit, setNext, setPrev, setSize,
    Function.update_of_ne hp.symm]

theorem WellFormed.remove (h : m.WellFormed queue l) (hx : x ∈ l) :
    (m.coQueueRemove queue x).WellFormed queue (l.erase x) := by
  obtain ⟨hq, hd⟩ := List.nodup_cons.mp h.distinct
  rw [coQueueRemove_eq (h.isLinked hx) (h.prev_ne hx)]
  obtain ⟨l₁, l₂, hx₁, rfl, he⟩ := List.exists_erase_eq hx
  rw [he]
  have hd := h.distinct
  have hcut := h.seg.cut h.distinct (List.nodup_cons.mp h.distinct).1
  simp only [List.nodup_cons, List.nodup_append, List.mem_cons, List.mem_append] at hd
  apply WellFormed.of_seg
  · apply hcut.congr
    · intro y hy
      apply Function.update_of_ne
      grind
    · intro y hy
      apply Function.update_of_ne
      grind
  · grind [List.nodup_append]
  · show (Function.update m.size queue (m.size queue - 1) queue).toNat = _
    rw [Function.update_self, toNat_size_pred (n := (l₁ ++ l₂).length)]
    rw [h.size]
    simp only [List.length_append, List.length_cons]
    omega

/-! What each operation leaves alone. -/

theorem WellFormed.relinks_pushBack (h : m.WellFormed queue l) (hx : x ∉ queue :: l) :
    m.Relinks (m.coQueuePushBack queue x) queue l (l ++ [x]) where
  wellFormed := h.pushBack hx
  next_eq := by
    intro y hy
    have hmem := h.seg.prev_mem
    show Function.update (Function.update m.next x queue) (m.prev queue) x y = m.next y
    rw [Function.update_of_ne (by grind), Function.update_of_ne (by grind)]
  prev_eq := by
    intro y hy
    show Function.update (Function.update m.prev x (m.prev queue)) queue x y = m.prev y
    rw [Function.update_of_ne (by grind), Function.update_of_ne (by grind)]
  size_eq := by
    intro p hp
    exact Function.update_of_ne hp _ _
  dropped := by
    intro y hy hn
    exact absurd (List.mem_append_left [x] hy) hn

theorem WellFormed.relinks_pushFront (h : m.WellFormed queue l) (hx : x ∉ queue :: l) :
    m.Relinks (m.coQueuePushFront queue x) queue l (x :: l) where
  wellFormed := h.pushFront hx
  next_eq := by
    intro y hy
    show Function.update (Function.update m.next x (m.next queue)) queue x y = m.next y
    rw [Function.update_of_ne (by grind), Function.update_of_ne (by grind)]
  prev_eq := by
    intro y hy
    have hmem := h.seg.next_mem
    show Function.update (Function.update m.prev x queue) (m.next queue) x y = m.prev y
    rw [Function.update_of_ne (by grind), Function.update_of_ne (by grind)]
  size_eq := by
    intro p hp
    exact Function.update_of_ne hp _ _
  dropped := by
    intro y hy hn
    exact absurd (List.mem_cons_of_mem x hy) hn

theorem WellFormed.selfLinked_remove (h : m.WellFormed queue l) (hx : x ∈ l) :
    (m.coQueueRemove queue x).SelfLinked x := by
  rw [coQueueRemove_eq (h.isLinked hx) (h.prev_ne hx)]
  exact ⟨Function.update_self _ _ _, Function.update_self _ _ _⟩

theorem WellFormed.relinks_remove (h : m.WellFormed queue l) (hx : x ∈ l) :
    m.Relinks (m.coQueueRemove queue x) queue l (l.erase x) where
  wellFormed := h.remove hx
  next_eq := by
    intro y hy
    obtain ⟨l₁, l₂, rfl⟩ := List.append_of_mem hx
    have hmem := (seg_append.mp h.seg).1.prev_mem
    rw [coQueueRemove_eq (h.isLinked hx) (h.prev_ne hx)]
    show Function.update (Function.update m.next (m.prev x) (m.next x)) x x y = m.next y
    rw [Function.update_of_ne (by grind), Function.update_of_ne (by grind)]
  prev_eq := by
    intro y hy
    obtain ⟨l₁, l₂, rfl⟩ := List.append_of_mem hx
    have hmem := (seg_append.mp h.seg).2.next_mem
    rw [coQueueRemove_eq (h.isLinked hx) (h.prev_ne hx)]
    show Function.update (Function.update m.prev (m.next x) (m.prev x)) x x y = m.prev y
    rw [Function.update_of_ne (by grind), Function.update_of_ne (by grind)]
  size_eq := by
    intro p hp
    rw [coQueueRemove_eq (h.isLinked hx) (h.prev_ne hx)]
    exact Function.update_of_ne hp _ _
  dropped := by
    intro y hy hn
    have hyx : y = x := by
      by_contra hne
      exact hn ((List.mem_erase_of_ne hne).mpr hy)
    rw [hyx]
    exact h.selfLinked_remove hx

theorem WellFormed.empty_iff (h : m.WellFormed queue l) :
    m.coQueueEmpty queue = true ↔ l = [] := by
  rw [coQueueEmpty, beq_iff_eq, ← List.length_eq_zero_iff, ← h.size]
  exact BitVec.toNat_eq.trans (by simp)

theorem WellFormed.front (h : m.WellFormed queue l) : m.coQueueFront queue = l.head? := by
  unfold coQueueFront
  split
  · rename_i he
    rw [h.empty_iff.mp he, List.head?_nil]
  · rename_i hne
    exact (h.seg.head_eq fun hl => hne (h.empty_iff.mpr hl)).symm

theorem WellFormed.back (h : m.WellFormed queue l) : m.coQueueBack queue = l.getLast? := by
  unfold coQueueBack
  split
  · rename_i he
    rw [h.empty_iff.mp he, List.getLast?_nil]
  · rename_i hne
    exact (h.seg.last_eq fun hl => hne (h.empty_iff.mpr hl)).symm

theorem coQueuePopFront_fst (m : Links w) (queue : BitVec w) :
    (m.coQueuePopFront queue).1 = m.coQueueFront queue := by
  unfold coQueuePopFront coQueueFront
  split <;> rfl

theorem WellFormed.relinks_refl (h : m.WellFormed queue l) : m.Relinks m queue l l where
  wellFormed := h
  next_eq := fun _ _ => rfl
  prev_eq := fun _ _ => rfl
  size_eq := fun _ _ => rfl
  dropped := fun _ hx hn => absurd hx hn

theorem WellFormed.popFront_eq (h : m.WellFormed queue l) :
    (m.coQueuePopFront queue).1 = l.head? :=
  (coQueuePopFront_fst m queue).trans h.front

/-- `co_queue_pop_front` takes the first node out. -/
theorem WellFormed.relinks_popFront (h : m.WellFormed queue l) :
    m.Relinks (m.coQueuePopFront queue).2 queue l l.tail := by
  cases l with
  | nil =>
    rw [coQueuePopFront, if_pos (h.empty_iff.mpr rfl)]
    exact h.relinks_refl
  | cons x l =>
    have hne : ¬m.coQueueEmpty queue = true := by
      intro he
      cases h.empty_iff.mp he
    have hx : m.next queue = x := h.path.1
    have hr := h.relinks_remove (List.mem_cons_self (a := x))
    rw [List.erase_cons_head] at hr
    rw [coQueuePopFront, if_neg hne, hx]
    exact hr

/-! ## All queues -/

section

variable {ι : Type} {nodes : Set (BitVec w)} {head : ι → BitVec w}
  {lists : ι → List (BitVec w)} {q : ι}

/-- The queues with sentinels `head` are well formed and hold `lists`, no node
is in two of them, and every node in none of them is self-linked. -/
structure Shared (m : Links w) (nodes : Set (BitVec w)) (head : ι → BitVec w)
    (lists : ι → List (BitVec w)) : Prop where
  sentinel_inj : Function.Injective head
  sentinel : ∀ q, head q ∉ nodes
  members : ∀ q, ∀ x ∈ lists q, x ∈ nodes
  wellFormed : ∀ q, m.WellFormed (head q) (lists q)
  disjoint : ∀ q q', q ≠ q' → (lists q).Disjoint (lists q')
  unlinked : ∀ x ∈ nodes, (∀ q, x ∉ lists q) → m.SelfLinked x

/-- `co_queue_node_is_linked` tells whether the node is in a queue. -/
theorem Shared.isLinked_iff (h : m.Shared nodes head lists) (hx : x ∈ nodes) :
    m.coQueueNodeIsLinked x = true ↔ ∃ q, x ∈ lists q := by
  constructor
  · intro hl
    by_contra hn
    have hself := h.unlinked x hx (fun q hq => hn ⟨q, hq⟩)
    exact bne_iff_ne.mp hl hself.1
  · rintro ⟨q, hq⟩
    exact (h.wellFormed q).isLinked hq

theorem Shared.not_mem_of_unlinked (h : m.Shared nodes head lists) (hx : x ∈ nodes)
    (hl : m.coQueueNodeIsLinked x = false) (q : ι) : x ∉ lists q := by
  intro hq
  have := (h.isLinked_iff hx).mpr ⟨q, hq⟩
  rw [hl] at this
  cases this

theorem Shared.not_mem_cons (h : m.Shared nodes head lists) (hx : x ∈ nodes)
    (hn : x ∉ lists q) : x ∉ head q :: lists q := by
  intro hm
  rcases List.mem_cons.mp hm with rfl | hm
  · exact h.sentinel q hx
  · exact hn hm

/-- A list that may replace the one of `q`: its nodes are of `q` or of no queue. -/
def Fresh (nodes : Set (BitVec w)) (lists : ι → List (BitVec w)) (q : ι)
    (l : List (BitVec w)) : Prop :=
  ∀ x ∈ l, x ∈ lists q ∨ (x ∈ nodes ∧ ∀ p, x ∉ lists p)

theorem Shared.fresh_mem (h : m.Shared nodes head lists) (hnew : Fresh nodes lists q l')
    (hx : x ∈ l') : x ∈ nodes := by
  rcases hnew x hx with hm | hm
  · exact h.members q x hm
  · exact hm.1

theorem Shared.fresh_disjoint (h : m.Shared nodes head lists) (hnew : Fresh nodes lists q l')
    {q' : ι} (hq : q' ≠ q) : (lists q').Disjoint l' := by
  intro x hx hx'
  rcases hnew x hx' with hm | hm
  · exact h.disjoint q' q hq hx hm
  · exact hm.2 q' hx

/-- The words of another queue are outside of what an operation touches. -/
theorem Shared.outside (h : m.Shared nodes head lists) (hnew : Fresh nodes lists q l')
    {q' : ι} (hq : q' ≠ q) (hx : x ∈ head q' :: lists q') :
    x ∉ head q :: (lists q ++ l') := by
  intro hm
  simp only [List.mem_cons, List.mem_append] at hx hm
  rcases hx with rfl | hx
  · rcases hm with he | hm | hm
    · exact hq (h.sentinel_inj he)
    · exact h.sentinel q' (h.members q _ hm)
    · exact h.sentinel q' (h.fresh_mem hnew hm)
  · rcases hm with rfl | hm | hm
    · exact h.sentinel q (h.members q' _ hx)
    · exact h.disjoint q' q hq hx hm
    · exact h.fresh_disjoint hnew hq hx hm

theorem Shared.size_other (h : m.Shared nodes head lists)
    (hr : m.Relinks m' (head q) (lists q) l') {q' : ι} (hq : q' ≠ q) :
    m'.size (head q') = m.size (head q') :=
  hr.size_eq _ fun he => hq (h.sentinel_inj he)

theorem Shared.wellFormed_other (h : m.Shared nodes head lists)
    (hr : m.Relinks m' (head q) (lists q) l') (hnew : Fresh nodes lists q l') {q' : ι}
    (hq : q' ≠ q) : m'.WellFormed (head q') (lists q') := by
  apply (h.wellFormed q').congr
  · intro x hx
    exact hr.next_eq x (h.outside hnew hq hx)
  · intro x hx
    exact hr.prev_eq x (h.outside hnew hq hx)
  · exact h.size_other hr hq

/-- Initialised queues and nodes. -/
theorem shared_nil (hi : Function.Injective head) (hs : ∀ q, head q ∉ nodes)
    (hq : ∀ q, m.WellFormed (head q) []) (hn : ∀ x ∈ nodes, m.SelfLinked x) :
    m.Shared nodes head fun _ => [] where
  sentinel_inj := hi
  sentinel := hs
  members := by simp
  wellFormed := hq
  disjoint := by simp
  unlinked := fun x hx _ => hn x hx

/-- `co_queue_node_init` of the node of a new coroutine. -/
theorem Shared.nodeInit (h : m.Shared nodes head lists) (hx : ∀ q, x ∉ head q :: lists q) :
    (m.coQueueNodeInit x).Shared (insert x nodes) head lists where
  sentinel_inj := h.sentinel_inj
  sentinel := by
    intro q hm
    rcases Set.mem_insert_iff.mp hm with he | hm
    · exact hx q (by simp [he])
    · exact h.sentinel q hm
  members := fun q y hy => Set.mem_insert_of_mem x (h.members q y hy)
  wellFormed := fun q => (h.wellFormed q).nodeInit (hx q)
  disjoint := h.disjoint
  unlinked := by
    intro y hy hn
    by_cases he : y = x
    · rw [he]
      exact selfLinked_nodeInit m x
    · have hy' : y ∈ nodes := (Set.mem_insert_iff.mp hy).resolve_left he
      exact (h.unlinked y hy' hn).nodeInit he

/-- `co_queue_init` of a new queue. -/
theorem Shared.queueInit (h : m.Shared nodes head lists) (hx : x ∉ nodes)
    (hq : ∀ q, head q ≠ x) :
    (m.coQueueInit x).Shared nodes (fun o : Option ι => o.elim x head)
      fun o => o.elim [] lists where
  sentinel_inj := by
    intro o o' he
    cases o with
    | none =>
      cases o' with
      | none => rfl
      | some q => exact absurd he.symm (hq q)
    | some q =>
      cases o' with
      | none => exact absurd he (hq q)
      | some q' => rw [h.sentinel_inj he]
  sentinel := by
    intro o
    cases o with
    | none => exact hx
    | some q => exact h.sentinel q
  members := by
    intro o
    cases o with
    | none => simp
    | some q => exact h.members q
  wellFormed := by
    intro o
    cases o with
    | none => exact wellFormed_init m x
    | some q =>
      apply (h.wellFormed q).init
      intro hm
      rcases List.mem_cons.mp hm with he | hm
      · exact hq q he.symm
      · exact hx (h.members q x hm)
  disjoint := by
    intro o o' hne
    cases o with
    | none => simp
    | some q =>
      cases o' with
      | none => simp
      | some q' => exact h.disjoint q q' fun he => hne (congrArg some he)
  unlinked := by
    intro y hy hn
    have hne : y ≠ x := fun he => hx (he ▸ hy)
    exact (h.unlinked y hy fun q => hn (some q)).nodeInit hne

variable [DecidableEq ι]

theorem Shared.selfLinked (h : m.Shared nodes head lists)
    (hr : m.Relinks m' (head q) (lists q) l') (hx : x ∈ nodes)
    (hn : ∀ q', x ∉ Function.update lists q l' q') : m'.SelfLinked x := by
  have hl' : x ∉ l' := by
    have := hn q
    rwa [Function.update_self] at this
  by_cases hq : x ∈ lists q
  · exact hr.dropped x hq hl'
  · have hself : m.SelfLinked x := by
      apply h.unlinked x hx
      intro q' hm
      by_cases hqq : q' = q
      · exact hq (hqq ▸ hm)
      · apply hn q'
        rwa [Function.update_of_ne hqq]
    have hout : x ∉ head q :: (lists q ++ l') := by
      have := h.sentinel q
      grind
    exact ⟨(hr.next_eq x hout).trans hself.1, (hr.prev_eq x hout).trans hself.2⟩

theorem Shared.update (h : m.Shared nodes head lists)
    (hr : m.Relinks m' (head q) (lists q) l') (hnew : Fresh nodes lists q l') :
    m'.Shared nodes head (Function.update lists q l') where
  sentinel_inj := h.sentinel_inj
  sentinel := h.sentinel
  members := by
    intro q' x hx
    by_cases hq : q' = q
    · rw [hq, Function.update_self] at hx
      exact h.fresh_mem hnew hx
    · rw [Function.update_of_ne hq] at hx
      exact h.members q' x hx
  wellFormed := by
    intro q'
    by_cases hq : q' = q
    · rw [hq, Function.update_self]
      exact hr.wellFormed
    · rw [Function.update_of_ne hq]
      exact h.wellFormed_other hr hnew hq
  disjoint := by
    intro q₁ q₂ hne
    by_cases h₁ : q₁ = q
    · have h₂ : q₂ ≠ q := fun he => hne (h₁.trans he.symm)
      rw [h₁, Function.update_self, Function.update_of_ne h₂]
      intro x hx hx'
      exact h.fresh_disjoint hnew h₂ hx' hx
    · rw [Function.update_of_ne h₁]
      by_cases h₂ : q₂ = q
      · rw [h₂, Function.update_self]
        exact h.fresh_disjoint hnew h₁
      · rw [Function.update_of_ne h₂]
        exact h.disjoint q₁ q₂ hne
  unlinked := fun _ hx hn => h.selfLinked hr hx hn

/-- An operation has replaced the list of `q` by `l`: the queues are well formed
and disjoint as before, those other than `q` have the list and the size they
had, and a node that was taken out is self-linked. -/
structure Replaced (m m' : Links w) (nodes : Set (BitVec w)) (head : ι → BitVec w)
    (lists : ι → List (BitVec w)) (q : ι) (l : List (BitVec w)) : Prop where
  shared : m'.Shared nodes head (Function.update lists q l)
  contents : m'.contents (head q) = l
  others : ∀ q' ≠ q, m'.contents (head q') = m.contents (head q')
  others_size : ∀ q' ≠ q, m'.coQueueSize (head q') = m.coQueueSize (head q')
  removed : ∀ x ∈ lists q, x ∉ l → m'.SelfLinked x

theorem Shared.replaced (h : m.Shared nodes head lists)
    (hr : m.Relinks m' (head q) (lists q) l') (hnew : Fresh nodes lists q l') :
    m.Replaced m' nodes head lists q l' where
  shared := h.update hr hnew
  contents := hr.wellFormed.contents_eq
  others := by
    intro q' hq
    rw [(h.wellFormed_other hr hnew hq).contents_eq, (h.wellFormed q').contents_eq]
  others_size := fun _ hq => h.size_other hr hq
  removed := hr.dropped

theorem Shared.pushBack (h : m.Shared nodes head lists) (hx : x ∈ nodes)
    (hn : ∀ q, x ∉ lists q) (q : ι) :
    m.Replaced (m.coQueuePushBack (head q) x) nodes head lists q (lists q ++ [x]) := by
  apply h.replaced ((h.wellFormed q).relinks_pushBack (h.not_mem_cons hx (hn q)))
  intro y hy
  rcases List.mem_append.mp hy with hy | hy
  · exact .inl hy
  · rw [List.mem_singleton.mp hy]
    exact .inr ⟨hx, hn⟩

theorem Shared.pushFront (h : m.Shared nodes head lists) (hx : x ∈ nodes)
    (hn : ∀ q, x ∉ lists q) (q : ι) :
    m.Replaced (m.coQueuePushFront (head q) x) nodes head lists q (x :: lists q) := by
  apply h.replaced ((h.wellFormed q).relinks_pushFront (h.not_mem_cons hx (hn q)))
  intro y hy
  rcases List.mem_cons.mp hy with rfl | hy
  · exact .inr ⟨hx, hn⟩
  · exact .inl hy

theorem Shared.remove (h : m.Shared nodes head lists) (hx : x ∈ lists q) :
    m.Replaced (m.coQueueRemove (head q) x) nodes head lists q ((lists q).erase x) := by
  apply h.replaced ((h.wellFormed q).relinks_remove hx)
  intro y hy
  exact .inl (List.mem_of_mem_erase hy)

theorem Shared.popFront (h : m.Shared nodes head lists) (q : ι) :
    m.Replaced (m.coQueuePopFront (head q)).2 nodes head lists q (lists q).tail := by
  apply h.replaced (h.wellFormed q).relinks_popFront
  intro y hy
  exact .inl (List.mem_of_mem_tail hy)

theorem coQueueRemove_unlinked (hl : m.coQueueNodeIsLinked x = false) :
    m.coQueueRemove queue x = m := by
  simp [coQueueRemove, hl]

/-- Removing a node that is in no other queue. -/
theorem Shared.remove_any (h : m.Shared nodes head lists) (hx : x ∈ nodes)
    (hn : ∀ p ≠ q, x ∉ lists p) :
    (m.coQueueRemove (head q) x).Shared nodes head
      (Function.update lists q ((lists q).erase x)) := by
  by_cases hq : x ∈ lists q
  · exact (h.remove hq).shared
  · have hl : m.coQueueNodeIsLinked x = false := by
      rw [Bool.eq_false_iff]
      intro hl
      obtain ⟨p, hp⟩ := (h.isLinked_iff hx).mp hl
      by_cases hpq : p = q
      · exact hq (hpq ▸ hp)
      · exact hn p hpq hp
    rw [coQueueRemove_unlinked hl, List.erase_of_not_mem hq, Function.update_eq_self]
    exact h

/-- **The intrusive queue refines a list.** -/
theorem co_queue_refines_list (h : m.Shared nodes head lists) (q : ι) :
    (∀ x ∈ nodes, m.coQueueNodeIsLinked x = false →
      m.Replaced (m.coQueuePushBack (head q) x) nodes head lists q (lists q ++ [x]) ∧
      m.Replaced (m.coQueuePushFront (head q) x) nodes head lists q (x :: lists q) ∧
      m.coQueueRemove (head q) x = m) ∧
    (∀ x ∈ lists q,
      m.Replaced (m.coQueueRemove (head q) x) nodes head lists q ((lists q).erase x) ∧
      (m.coQueueRemove (head q) x).SelfLinked x) ∧
    (m.coQueuePopFront (head q)).1 = (lists q).head? ∧
    ((m.coQueuePopFront (head q)).1 = none ↔ lists q = []) ∧
    m.Replaced (m.coQueuePopFront (head q)).2 nodes head lists q (lists q).tail ∧
    ∀ x, (m.coQueuePopFront (head q)).1 = some x → (m.coQueuePopFront (head q)).2.SelfLinked x := by
  have hwf := h.wellFormed q
  refine ⟨?_, ?_, hwf.popFront_eq, ?_, h.popFront q, ?_⟩
  · intro x hx hl
    have hn := h.not_mem_of_unlinked hx hl
    exact ⟨h.pushBack hx hn q, h.pushFront hx hn q, coQueueRemove_unlinked hl⟩
  · intro x hx
    exact ⟨h.remove hx, hwf.selfLinked_remove hx⟩
  · rw [hwf.popFront_eq, List.head?_eq_none_iff]
  · intro x hx
    rw [hwf.popFront_eq] at hx
    obtain ⟨l, hl⟩ := List.head?_eq_some_iff.mp hx
    apply hwf.relinks_popFront.dropped
    · rw [hl]
      exact List.mem_cons_self
    · have hd := (List.nodup_cons.mp hwf.distinct).2
      rw [hl] at hd ⊢
      exact (List.nodup_cons.mp hd).1

def pairHead (b : Bool) : BitVec 64 := if b then 8 else 16

def pairNodes : Set (BitVec 64) := { x | x ≠ 8 ∧ x ≠ 16 }

/-- A memory where every queue is empty and every node in none. -/
def blank : Links 64 := ⟨id, id, fun _ => 0⟩

/-- Two nodes in the one queue, one in the other. -/
def pairLinks : Links 64 :=
  ((blank.coQueuePushBack 8 32).coQueuePushBack 8 40).coQueuePushFront 16 48

theorem shared_blank : blank.Shared pairNodes pairHead fun _ => [] := by
  apply shared_nil
  · intro b b' h
    cases b <;> cases b' <;> first | rfl | exact absurd h (by decide)
  · intro b hb
    cases b
    · exact hb.2 rfl
    · exact hb.1 rfl
  · intro b
    exact .of_seg ⟨rfl, rfl⟩ (List.nodup_singleton _) rfl
  · intro x _
    exact ⟨rfl, rfl⟩

theorem shared_pairLinks :
    pairLinks.Shared pairNodes pairHead fun b => if b then [32, 40] else [48] := by
  have h₁ := (shared_blank.pushBack (x := 32) ⟨by decide, by decide⟩ (by simp) true).shared
  have h₂ := (h₁.pushBack (x := 40) ⟨by decide, by decide⟩ (by decide) true).shared
  have h₃ := (h₂.pushFront (x := 48) ⟨by decide, by decide⟩ (by decide) false).shared
  have hlists : (fun b => if b then [32, 40] else [48]) =
      Function.update (Function.update (Function.update (fun _ => []) true [32]) true [32, 40])
        false [(48 : BitVec 64)] := by
    funext b
    cases b <;> rfl
  rw [hlists]
  exact h₃

/-- The front of the longer queue is popped; the other queue keeps its node. -/
theorem co_queue_refines_list_pair :
    (pairLinks.coQueuePopFront 8).1 = some 32 ∧
    (pairLinks.coQueuePopFront 8).2.contents 8 = [40] ∧
    (pairLinks.coQueuePopFront 8).2.contents 16 = [48] ∧
    (pairLinks.coQueuePopFront 8).2.SelfLinked 32 := by
  obtain ⟨-, -, hfst, -, hpop, hself⟩ := co_queue_refines_list shared_pairLinks true
  refine ⟨hfst, hpop.contents, ?_, hself 32 hfst⟩
  exact (hpop.others false (by decide)).trans (shared_pairLinks.wellFormed false).contents_eq

end

end Links

end Libco
