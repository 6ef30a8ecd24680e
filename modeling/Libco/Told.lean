import Libco.Lib.Dataflow
import Libco.Messages
import Libco.Records
import Libco.Holdings

/-!
# What coroutines are told

The answers a coroutine gets from its channel calls, read off the history at each
return: that a send or a close was done, the element of a receive, or that the channel
is closed. A step that touches no channel tells nobody anything.
-/

namespace Libco
open Lib

variable {s s' t : St} {a : Act} {c h k : Nat}

/-! ## What a coroutine is told -/

/-- The element that was stored for receive `r`. -/
def elementFor (h r : Nat) (t : List Event) : Option (List UInt8) :=
  ((stores h t).find? fun x => x.1 == r).map fun x => x.2.2

/-- What the result of call `k` says. -/
def answerTo (t : List Event) (k : Nat) : OpName → Ret → Option (Answer (List UInt8))
  | .send _, .code .ok | .close _, .code .ok => some .done
  | .recv h, .code .ok => (elementFor h k t).map .value
  | .send _, .code .closed | .close _, .code .closed | .recv _, .code .closed => some .closed
  | _, _ => none

/-- What coroutine `c` learns from an event. -/
def learns (c : Nat) (past : List Event) : Event → List (Answer (List UInt8))
  | .ret k r =>
    match callOf past k with
    | some (w, op) => if w = some c then (answerTo past k op r).toList else []
    | none => []
  | _ => []

/-- The answers to the channel calls of coroutine `c`, in order. -/
def told (c : Nat) (t : List Event) : List (Answer (List UInt8)) := annotate (learns c) [] t

theorem told_append {t es : List Event} (hes : ∀ k r, .ret k r ∉ es) :
    told c (t ++ es) = told c t := by
  have hquiet : ∀ e ∈ es, ∀ past, learns c past e = [] := by
    intro e he past
    cases e with
    | ret k r => exact absurd he (hes k r)
    | _ => rfl
  unfold told
  rw [annotate_append, annotate_eq_nil hquiet ([] ++ t), List.append_nil]

theorem told_extends (hext : Extends s t) (c : Nat) : told c t.trace = told c s.trace := by
  obtain ⟨es, he, hn⟩ := hext
  rw [he, told_append hn]

/-- The return from a call. -/
theorem told_ret {w : Option Nat} {op : OpName} {r : Ret} (hc : CallInv (t.emit (.ret k r)))
    (hm : .call k w op ∈ t.trace) (c : Nat) : told c (t.emit (.ret k r)).trace =
      told c t.trace ++ if w = some c then (answerTo t.trace k op r).toList else [] := by
  have hmono : ∀ e ∈ t.trace, e ∈ (t.emit (.ret k r)).trace := fun e he =>
    List.mem_append_left _ he
  have hcall : callOf t.trace k = some (w, op) :=
    callOf_eq hm fun w' op' hm' => hc.unique _ _ _ _ _ (hmono _ hm') (hmono _ hm)
  unfold told
  rw [St.emit, annotate_snoc]
  simp [learns, hcall]

theorem told_call {es : List Event} {op : OpName} {r : Ret}
    (hc : CallInv (t.emit (.ret k r))) (htr : t.trace = s.trace ++ .call k (some c) op :: es)
    (hes : ∀ k r, .ret k r ∉ es) (d : Nat) : told d (t.emit (.ret k r)).trace =
      told d s.trace ++ if c = d then (answerTo t.trace k op r).toList else [] := by
  have hmem : .call k (some c) op ∈ t.trace := by
    rw [htr]
    simp
  have hquiet : told d t.trace = told d s.trace := by
    rw [htr, told_append]
    intro k' r' hm
    rcases List.mem_cons.mp hm with hm | hm
    · cases hm
    · exact hes k' r' hm
  rw [told_ret hc hmem, hquiet]
  simp

/-! ## Steps that touch no channel -/

theorem answerTo_none {tr : List Event} {op : OpName} {r : Ret}
    (hn : ∀ h, Obj.chan h ∉ op.objs) : answerTo tr k op r = none := by
  cases op <;> simp [OpName.objs] at hn <;> simp [answerTo]

section

variable {run : Prop} (hp : Placed run s) (hl : leaks s a = false) (hs : step s a = some s')
include hp hl hs

theorem told_quiet (hc : CallInv s) (hn : ∀ h, ¬ a.names s (.chan h)) (c : Nat) :
    told c s'.trace = told c s.trace := by
  have hi₀ : Inv False s.coCurrent s.toSched := (hp.current hs).mono fun h => h.elim
  refine hc.step_rule (K := fun _ => True) (J := fun t => told c t.trace = told c s.trace) hp hl hs
    trivial (fun _ _ _ _ _ _ _ _ => trivial) (fun t _ hext _ => told_extends hext c) ?_
  rintro t k r hi hct hext - hr hret
  have hobjs : ∃ w op, .call k w op ∈ t.trace ∧ ∀ h, Obj.chan h ∉ op.objs := by
    cases hr with
    | @call op r t hrun hm hcur =>
      exact ⟨_, _, hm.begun hi₀ hc, hn⟩
    | @resumed d rest e r t hq hf hres hcur =>
      obtain ⟨-, hsus, -⟩ := hi₀.ready_fields hq
      obtain ⟨op, hop, hfits⟩ := hc.inside d (by simp [Routine.inCall, hsus, hf])
      refine ⟨_, _, hext.mem hop, fun h hm => hn h ⟨d, rest, hq, ?_⟩⟩
      rw [Frame.mentions_of_fits hfits]
      exact hm
  obtain ⟨w, op, hm, hop⟩ := hobjs
  rw [told_ret hret hm, answerTo_none hop, told_extends hext]
  simp

/-- A coroutine that was not there is not at its end. -/
theorem absent_step (hf : (s.co c).frame = .absent) : (s'.co c).frame ≠ .freed := by
  have hi₀ : Inv False s.coCurrent s.toSched := (hp.current hs).mono fun h => h.elim
  have hready : ∀ rest, s.queues .ready ≠ c :: rest := by
    intro rest hq
    have hsus := (hi₀.ready_fields hq).2.1
    rw [hf] at hsus
    cases hsus
  have hnew : (s'.co c).frame = .absent ∨ (s'.co c).frame = .entry := by
    refine step_invariant (J := fun t => (t.co c).frame = .absent ∨ (t.co c).frame = .entry)
      hp hl hs (.inl hf) ?_ (fun _ _ _ _ h _ => h)
    intro os p p' hm hi hJ
    have hrec := hm.record hi c
    generalize p'.2.co c = r' at hrec
    cases hrec with
    | same => exact hJ
    | spawned _ hf' => exact .inr hf'
    | called _ hu | finished hu _ | yielded _ hu | blocked _ hu | drained _ hu | touched hu _ =>
      rcases hJ with h | h <;> rw [h] at hu <;> cases hu
    | dispatched _ hq | relocked _ hq => exact absurd hq (hready _)
    | expired _ _ ht => rcases hJ with h | h <;> rw [h] at ht <;> cases ht
    | polled _ hlike =>
      have hio := hlike.io
      rcases hJ with h | h <;> rw [h] at hio <;> cases hio
    | woken _ hq => rcases hJ with h | h <;> rw [h] at hq <;> cases hq
  rcases hnew with h | h <;> rw [h] <;> simp

/-- Only the end of a coroutine ends it. -/
theorem step_freed (hf : (s'.co c).frame = .freed) :
    (s.co c).frame = .freed ∨ (a = .finish ∧ s.coCurrent = some c) := by
  have hi₀ : Inv run s.coCurrent s.toSched := hp.current hs
  have hlive : s.ctl.Live s := by
    intro d hd
    have huser : (s.co d).frame = .user := (hi₀.user d).mpr (by simp [St.coCurrent, hd])
    simp [Routine.unfinished, huser]
  have hgone : (s'.co c).unfinished = false := by simp [Routine.unfinished, hf]
  have hkept : (s.co c).unfinished = false → (s.co c).frame = .freed := by
    intro hu
    cases hfr : (s.co c).frame with
    | freed => rfl
    | absent => exact absurd hf (absent_step hp hl hs hfr)
    | _ => simp [Routine.unfinished, hfr] at hu
  obtain ⟨t, he, hk⟩ := histStep_effect (a := .act a) hlive hs
  rw [hk.live c] at hgone
  cases he with
  | moves hx ha => exact .inl (hkept hgone)
  | @spawns e hu =>
    refine .inl (hkept ?_)
    rcases coSpawn_cases s e with ⟨-, he⟩ | ⟨-, p, -, he⟩ | ⟨-, b, p, -, ⟨-, he⟩ | ⟨-, -, hsp⟩⟩
    · rwa [he] at hgone
    · rwa [he] at hgone
    · rwa [he] at hgone
    · rw [hsp.live c] at hgone
      by_cases hcn : c = s.nextId
      · rw [hcn, spawnedWith_co_self] at hgone
        cases hgone
      · rwa [spawnedWith_co_ne e b p hcn] at hgone
  | @ends d hd =>
    by_cases hcd : c = d
    · exact .inr ⟨rfl, by simp [St.coCurrent, hd, hcd]⟩
    · obtain ⟨pool, he⟩ := finish_eq s d
      rw [he] at hgone
      exact .inl (hkept (by simpa [hcd] using hgone))

end

end Libco
