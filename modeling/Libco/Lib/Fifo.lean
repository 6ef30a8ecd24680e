import Mathlib.Data.List.Nodup
import Mathlib.Logic.Relation

/-!
# Bounded FIFO queues with blocking senders and receivers

The abstract object: a buffer of bounded capacity, the elements of blocked
senders and the blocked receivers, each in order, with the history of what was
offered, what was stored for which receiver, and what closing dropped.
`Fifo.Good` says that nothing gets lost, doubled or out of order; it is kept by
every step.
-/

namespace Libco.Lib

variable {ρ κ : Type}

@[ext]
structure Fifo (ρ κ : Type) where
  capacity : Nat
  closed : Bool
  /-- the buffer, oldest element first -/
  ring : List κ
  /-- the elements of blocked senders -/
  senders : List κ
  /-- blocked receivers -/
  receivers : List ρ
  /-- the elements of sends that were not refused -/
  offered : List κ
  stored : List (ρ × κ)
  dropped : List κ
  /-- the receivers that blocked, and those that got their element -/
  waited : List ρ
  served : List ρ

namespace Fifo

/-- The elements that left their senders. -/
def placed (x : Fifo ρ κ) : List κ := x.stored.map Prod.snd ++ x.ring

inductive Step : Fifo ρ κ → Fifo ρ κ → Prop
  /-- an element goes to a blocked receiver -/
  | hand {x : Fifo ρ κ} (k : κ) {r : ρ} {rs : List ρ} (ho : x.closed = false)
      (hr : x.receivers = r :: rs) :
      Step x { x with
        receivers := rs, offered := x.offered ++ [k], stored := x.stored ++ [(r, k)]
        served := x.served ++ [r] }
  /-- an element goes to the buffer -/
  | push {x : Fifo ρ κ} (k : κ) (ho : x.closed = false) (hr : x.receivers = [])
      (hc : x.ring.length < x.capacity) :
      Step x { x with ring := x.ring ++ [k], offered := x.offered ++ [k] }
  /-- a sender blocks -/
  | blockSend {x : Fifo ρ κ} (k : κ) (ho : x.closed = false) (hr : x.receivers = [])
      (hc : x.capacity ≤ x.ring.length) :
      Step x { x with senders := x.senders ++ [k], offered := x.offered ++ [k] }
  /-- a receiver takes the oldest element -/
  | pop {x : Fifo ρ κ} (r : ρ) {k : κ} {ks : List κ} (hk : x.ring = k :: ks)
      (hs : x.senders = []) :
      Step x { x with ring := ks, stored := x.stored ++ [(r, k)] }
  /-- and a blocked sender fills the gap -/
  | refill {x : Fifo ρ κ} (r : ρ) {k j : κ} {ks js : List κ} (hk : x.ring = k :: ks)
      (hs : x.senders = j :: js) :
      Step x { x with ring := ks ++ [j], senders := js, stored := x.stored ++ [(r, k)] }
  /-- a receiver takes the element of a blocked sender -/
  | meet {x : Fifo ρ κ} (r : ρ) {k : κ} {ks : List κ} (hk : x.ring = [])
      (hs : x.senders = k :: ks) :
      Step x { x with senders := ks, stored := x.stored ++ [(r, k)] }
  /-- a receiver blocks -/
  | blockRecv {x : Fifo ρ κ} (r : ρ) (ho : x.closed = false) (hk : x.ring = [])
      (hs : x.senders = []) :
      Step x { x with receivers := x.receivers ++ [r], waited := x.waited ++ [r] }
  /-- the senders and receivers that are blocked give up -/
  | close {x : Fifo ρ κ} (ho : x.closed = false) :
      Step x { x with
        closed := true, senders := [], receivers := [], dropped := x.dropped ++ x.senders }

structure Good (x : Fifo ρ κ) : Prop where
  fifo : x.offered = x.stored.map Prod.snd ++ x.ring ++ x.senders ++ x.dropped
  bounded : x.ring.length ≤ x.capacity
  /-- senders block on a full buffer -/
  full : x.senders ≠ [] → x.ring.length = x.capacity
  /-- receivers block when there is nothing to receive -/
  empty : x.receivers ≠ [] → x.ring = [] ∧ x.senders = []
  shut : x.closed = true → x.senders = [] ∧ x.receivers = []
  kept : x.closed = false → x.dropped = []
  order : ∃ rest, x.waited = x.served ++ x.receivers ++ rest ∧ (x.closed = false → rest = [])

variable {x y : Fifo ρ κ} {k : κ}

theorem Good.step (h : x.Good) (hs : Step x y) : y.Good := by
  have hfifo := h.fifo
  cases hs with
  | @hand k r rs ho hr =>
    obtain ⟨hring, hsend⟩ := h.empty (by rw [hr]; simp)
    obtain ⟨rest, hw, hrest⟩ := h.order
    obtain rfl := hrest ho
    refine ⟨?_, h.bounded, h.full, fun _ => ⟨hring, hsend⟩, fun hc => ?_, h.kept, [], ?_, ?_⟩
    · simp [hfifo, hring, hsend, h.kept ho]
    · simp [ho] at hc
    · simp [hw, hr]
    · simp
  | @push k ho hr hc =>
    have hsend : x.senders = [] := by
      by_contra hne
      have := h.full hne
      omega
    refine ⟨?_, ?_, fun hne => absurd hsend hne, fun hne => absurd hr hne, h.shut, h.kept, h.order⟩
    · simp [hfifo, hsend, h.kept ho]
    · simp only [List.length_append, List.length_singleton]
      omega
  | @blockSend k ho hr hc =>
    refine ⟨?_, h.bounded, fun _ => ?_, fun hne => absurd hr hne, fun hcl => ?_, h.kept, h.order⟩
    · simp [hfifo, h.kept ho]
    · have := h.bounded
      show x.ring.length = x.capacity
      omega
    · simp [ho] at hcl
  | @pop r k ks hk hs =>
    refine ⟨?_, ?_, fun hne => absurd hs hne, fun hne => ?_, h.shut, h.kept, h.order⟩
    · simp [hfifo, hk]
    · have := h.bounded
      simp only [hk, List.length_cons] at this
      show ks.length ≤ x.capacity
      omega
    · rw [(h.empty hne).1] at hk
      cases hk
  | @refill r k j ks js hk hs =>
    have hlen := h.full (by rw [hs]; simp)
    refine ⟨?_, ?_, fun _ => ?_, fun hne => ?_, fun hcl => ?_, h.kept, h.order⟩
    · simp [hfifo, hk, hs]
    · simp [hk] at hlen ⊢
      omega
    · simpa [hk] using hlen
    · rw [(h.empty hne).1] at hk
      cases hk
    · rw [(h.shut hcl).1] at hs
      cases hs
  | @meet r k ks hk hs =>
    refine ⟨?_, h.bounded, fun _ => h.full (by rw [hs]; simp), fun hne => ?_, fun hcl => ?_,
      h.kept, h.order⟩
    · simp [hfifo, hk, hs]
    · rw [(h.empty hne).2] at hs
      cases hs
    · rw [(h.shut hcl).1] at hs
      cases hs
  | @blockRecv r ho hk hs =>
    obtain ⟨rest, hw, hrest⟩ := h.order
    obtain rfl := hrest ho
    refine ⟨hfifo, h.bounded, h.full, fun _ => ⟨hk, hs⟩, fun hcl => ?_, h.kept, [], ?_, ?_⟩
    · simp [ho] at hcl
    · simp [hw]
    · simp
  | @close ho =>
    obtain ⟨rest, hw, hrest⟩ := h.order
    refine ⟨?_, h.bounded, fun hne => absurd rfl hne, fun hne => absurd rfl hne,
      fun _ => ⟨rfl, rfl⟩, fun hcl => ?_, x.receivers, ?_, fun hcl => ?_⟩
    · simp [hfifo, h.kept ho]
    · cases hcl
    · simp [hw, hrest ho]
    · cases hcl

theorem Good.run (h : x.Good) (hs : Relation.ReflTransGen Step x y) : y.Good := by
  induction hs with
  | refl => exact h
  | tail _ hs ih => exact ih.step hs

theorem closed_run (hs : Relation.ReflTransGen Step x y) (hc : x.closed = true) :
    y.closed = true := by
  induction hs with
  | refl => exact hc
  | tail _ hs ih => cases hs <;> first | exact ih | rfl

/-- What is placed stays placed. -/
theorem Step.placed_mono (hs : Step x y) (hk : k ∈ x.placed) : k ∈ y.placed := by
  cases hs with
  | hand _ _ _ | push _ _ _ _ | blockSend _ _ _ _ | blockRecv _ _ _ _ | close _ =>
    simp only [placed, List.map_append, List.mem_append] at hk ⊢
    tauto
  | pop r hr hsn | refill r hr hsn | meet r hr hsn =>
    simp only [placed, hr, List.map_append, List.mem_append, List.mem_cons, List.map_cons,
      List.map_nil, List.not_mem_nil] at hk ⊢
    tauto

theorem placed_run (hs : Relation.ReflTransGen Step x y) (hk : k ∈ x.placed) : k ∈ y.placed := by
  induction hs with
  | refl => exact hk
  | tail _ hs ih => exact hs.placed_mono ih

/-- An element is placed when it is offered, or out of a blocked sender. -/
theorem Step.placed_new (hs : Step x y) (hk : k ∈ y.placed) :
    k ∈ x.placed ∨ k ∈ x.senders ∨ y.offered = x.offered ++ [k] := by
  cases hs with
  | hand j _ _ | push j _ _ _ =>
    simp only [placed, List.map_append, List.mem_append, List.map_cons, List.map_nil,
      List.mem_singleton] at hk ⊢
    by_cases hj : k = j
    · exact .inr (.inr (by rw [hj]))
    · tauto
  | blockSend _ _ _ _ | blockRecv _ _ _ _ | close _ => exact .inl hk
  | pop r hr hsn | refill r hr hsn | meet r hr hsn =>
    simp only [placed, hr, hsn, List.map_append, List.mem_append, List.mem_cons, List.map_cons,
      List.map_nil, List.not_mem_nil] at hk ⊢
    tauto

theorem placed_new_refl (hs : Relation.ReflGen Step x y) (hk : k ∈ y.placed) :
    k ∈ x.placed ∨ k ∈ x.senders ∨ y.offered = x.offered ++ [k] := by
  cases hs with
  | refl => exact .inl hk
  | single hs => exact hs.placed_new hk

/-- Nothing new is placed once the queue is closed. -/
theorem Good.placed_closed (h : x.Good) (hs : Step x y) (hc : x.closed = true) (hk : k ∈ y.placed) :
    k ∈ x.placed := by
  rcases hs.placed_new hk with hp | hsn | hoff
  · exact hp
  · rw [(h.shut hc).1] at hsn
    cases hsn
  · cases hs with
    | hand _ ho _ | push _ ho _ _ | blockSend _ ho _ _ =>
      rw [hc] at ho
      cases ho
    | pop | refill | meet | blockRecv | close => simp at hoff

theorem Good.placed_closed_run (h : x.Good) (hs : Relation.ReflTransGen Step x y)
    (hc : x.closed = true) (hk : k ∈ y.placed) : k ∈ x.placed := by
  induction hs with
  | refl => exact hk
  | tail hxz hs ih => exact ih ((h.run hxz).placed_closed hs (closed_run hxz hc) hk)

theorem Good.placed_sub (h : x.Good) (hk : k ∈ x.placed) : k ∈ x.offered := by
  rw [h.fifo]
  simp only [placed, List.mem_append] at hk ⊢
  tauto

/-- Where an offered element can be. -/
theorem Good.cases_offered (h : x.Good) (hk : k ∈ x.offered) :
    k ∈ x.placed ∨ k ∈ x.senders ∨ k ∈ x.dropped := by
  rw [h.fifo] at hk
  simp only [placed, List.mem_append] at hk ⊢
  tauto

theorem Good.not_placed_of_sender (h : x.Good) (hn : x.offered.Nodup) (hk : k ∈ x.senders) :
    k ∉ x.placed := by
  intro hp
  rw [h.fifo, List.append_assoc, List.nodup_append] at hn
  exact hn.2.2 k hp k (by simp [hk]) rfl

theorem Good.placed_nodup (h : x.Good) (hn : x.offered.Nodup) : x.placed.Nodup := by
  rw [h.fifo, List.append_assoc, List.nodup_append] at hn
  exact hn.1

end Fifo

end Libco.Lib
