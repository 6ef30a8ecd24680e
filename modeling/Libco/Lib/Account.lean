import Mathlib.Data.Multiset.AddSub

/-!
# Accounts

An account records what has been acquired and not released, and counts the faults: the
release of something that is not held, or the acquisition of something that is.
`Account.Holds l m` says that there was no fault and that `m` is held. A sequence of
releases empties an account without a fault exactly when it names what is held, each once
(`Account.Holds.releaseAll_iff`).
-/

namespace Libco.Lib

variable {ρ : Type} [DecidableEq ρ]

structure Account (ρ : Type) where
  live : Multiset ρ
  faults : Nat

namespace Account

def empty : Account ρ := ⟨0, 0⟩

def acquire (l : Account ρ) (r : ρ) : Account ρ :=
  ⟨r ::ₘ l.live, if r ∈ l.live then l.faults + 1 else l.faults⟩

def release (l : Account ρ) (r : ρ) : Account ρ :=
  if r ∈ l.live then ⟨l.live.erase r, l.faults⟩ else ⟨l.live, l.faults + 1⟩

def releaseAll (l : Account ρ) (rs : List ρ) : Account ρ := rs.foldl release l

/-- No fault so far, and `m` is held. -/
structure Holds (l : Account ρ) (m : Multiset ρ) : Prop where
  faults : l.faults = 0
  live : l.live = m

variable {l : Account ρ} {m : Multiset ρ} {r : ρ}

omit [DecidableEq ρ] in
theorem holds_empty : Holds (empty : Account ρ) 0 := ⟨rfl, rfl⟩

theorem Holds.acquire (h : l.Holds m) (hr : r ∉ m) : (l.acquire r).Holds (r ::ₘ m) := by
  obtain ⟨hf, hl⟩ := h
  refine ⟨?_, ?_⟩
  · simp [Account.acquire, hl, hr, hf]
  · simp [Account.acquire, hl]

theorem Holds.release (h : l.Holds (r ::ₘ m)) : (l.release r).Holds m := by
  obtain ⟨hf, hl⟩ := h
  have hmem : r ∈ l.live := by simp [hl]
  refine ⟨?_, ?_⟩
  · simp [Account.release, hmem, hf]
  · simp [Account.release, hl]

/-- Faults are not forgotten. -/
theorem releaseAll_faults (l : Account ρ) (rs : List ρ) : l.faults ≤ (l.releaseAll rs).faults := by
  induction rs generalizing l with
  | nil => exact Nat.le_refl _
  | cons r rs ih =>
    refine Nat.le_trans ?_ (ih (l.release r))
    unfold Account.release
    split
    · exact Nat.le_refl _
    · exact Nat.le_succ _

omit [DecidableEq ρ] in
theorem Holds.of_eq {m' : Multiset ρ} (h : l.Holds m) (he : m = m') : l.Holds m' := he ▸ h

theorem Holds.releaseAll {rs : List ρ} (h : l.Holds (rs + m)) : (l.releaseAll rs).Holds m := by
  induction rs generalizing l with
  | nil => exact h.of_eq (by simp)
  | cons r rs ih =>
    have hr : l.Holds (r ::ₘ (rs + m)) := h.of_eq (by rw [← Multiset.cons_coe, Multiset.cons_add])
    exact ih hr.release

/-- **Releases and what is held.** -/
theorem Holds.releaseAll_iff (h : l.Holds m) (rs : List ρ) :
    (l.releaseAll rs).Holds 0 ↔ (rs : Multiset ρ) = m := by
  induction rs generalizing l m with
  | nil =>
    constructor
    · intro h0
      exact h0.live.symm.trans h.live
    · rintro rfl
      exact h
  | cons r rs ih =>
    by_cases hr : r ∈ m
    · obtain ⟨m', rfl⟩ := Multiset.exists_cons_of_mem hr
      rw [← Multiset.cons_coe, Multiset.cons_inj_right]
      exact ih h.release
    · constructor
      · intro h0
        have hone : (l.release r).faults = 1 := by
          simp [Account.release, h.live, hr, h.faults]
        have hle := releaseAll_faults (l.release r) rs
        rw [hone] at hle
        have hzero : ((l.release r).releaseAll rs).faults = 0 := h0.faults
        omega
      · rintro rfl
        exact absurd (by simp) hr

end Account

end Libco.Lib
