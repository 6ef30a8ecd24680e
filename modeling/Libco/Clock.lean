import Libco.Deadlines
import Libco.Records

/-!
# The clock

Every timed call and every timer phase reads the monotonic clock; an action
carries the value it read. `Timed` adds the last value read to the state, so that
a run with a non-decreasing clock is a run whose steps meet a guard.
-/

namespace Libco
open Lib

variable {run : Prop} {s s' s₀ : St} {a : Act} {c : Nat}

/-- The clock value an action reads. -/
def Act.clock : Act → Option Nat
  | .timers now => some now
  | .call (.sleep _ now _) | .call (.condTimedwait _ _ _ now _) => some now
  | .call (.io a) => some a.now
  | .call (.ioAsync a) => some a.now
  | _ => none

structure Timed where
  st : St
  now : Nat

def Timed.step (t : Timed) (a : Act) : Option Timed :=
  (Libco.step t.st a).map fun s => ⟨s, a.clock.getD t.now⟩

/-- The clock does not go back. -/
def Timed.monotone (t : Timed) (a : Act) : Bool := a.clock.all fun n => t.now ≤ n

theorem Timed.step_st {t t' : Timed} (h : t.step a = some t') : Libco.step t.st a = some t'.st := by
  obtain ⟨s, hs, rfl⟩ := Option.map_eq_some_iff.mp h
  exact hs

theorem Timed.step_now {t t' : Timed} (h : t.step a = some t') : t'.now = a.clock.getD t.now := by
  obtain ⟨s, hs, rfl⟩ := Option.map_eq_some_iff.mp h
  rfl

theorem Timed.now_le {t t' : Timed} (h : t.step a = some t') (hm : t.monotone a = true) :
    t.now ≤ t'.now := by
  rw [t.step_now h]
  unfold Timed.monotone at hm
  cases hc : a.clock with
  | none => exact Nat.le_refl _
  | some n => simpa [hc] using hm

/-! ## Deadlines of the timed waits -/

/-- Whoever is in a timed wait has a deadline that meets `P`. -/
def Due (P : Nat → Prop) (s : St) : Prop :=
  ∀ c, (s.co c).frame.timed = true → P (s.co c).wakeupTime

variable {P : Nat → Prop}

theorem Due.same (h : Due P s) (hco : s'.co = s.co) : Due P s' := by
  intro d hd
  rw [hco] at hd ⊢
  exact h d hd

/-- The deadlines that the call of an action may set meet `P`. -/
theorem Due.step (h : Due P s) (hp : Placed run s) (hl : leaks s a = false)
    (hs : Libco.step s a = some s')
    (ha : ∀ op, a = .call op → ∀ w, op.due = some w → P w) : Due P s' := by
  refine step_invariant hp hl hs h ?_ ?_
  · exact fun os p p' hm hi hd c => (hm.record hi c).due (fun op hop _ => ha op hop) (hd c)
  · exact fun t k r _ hd _ => hd.same rfl

end Libco
