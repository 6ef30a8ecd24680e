import Libco.Holders

/-!
# Signals are neither lost nor counted twice

The history of a condition variable tells which waits are pending (`pending`):
begun, and neither ended by a signal or broadcast nor expired. Its queue holds
exactly those, in order. A coroutine that was woken out of the queue carries the
way its wait ended in `timed_out` until it returns, also while it re-locks the
mutex (`Routine.Settled`).
-/

namespace Libco
open Lib

variable {run : Prop} {cur : Option Nat} {s s' s₀ : St} {a : Act} {c v m k : Nat}
  {h : List Event} {e : Event}

/-! ## The history of a condition variable -/

def pendingStep (v : Nat) (ks : List Nat) : Event → List Nat
  | .waits v' _ _ k => if v' = v then ks ++ [k] else ks
  | .signal v' ended => if v' = v then ks.filter fun k => !ended.contains k else ks
  | .broadcast v' ended => if v' = v then ks.filter fun k => !ended.contains k else ks
  | .expire v' k => if v' = v then ks.erase k else ks
  | _ => ks

/-- The waits that are pending, the longest pending one first. -/
def pending (v : Nat) (h : List Event) : List Nat := h.foldl (pendingStep v) []

/-- Wait `k` was ended by a signal or a broadcast. -/
def endedBy (v k : Nat) (h : List Event) : Prop :=
  ∃ ks, k ∈ ks ∧ (.signal v ks ∈ h ∨ .broadcast v ks ∈ h)

/-- Wait `k` on `v` has begun. -/
def begunOn (v k : Nat) (h : List Event) : Prop := ∃ m c, .waits v m c k ∈ h

/-- The pending waits are those that were neither signalled nor timed out. -/
def PendingExact (v : Nat) (h : List Event) : Prop :=
  ∀ k, k ∈ pending v h ↔ begunOn v k h ∧ ¬ endedBy v k h ∧ .expire v k ∉ h

/-- A signal ends the longest pending wait if there is one, a broadcast all of them;
the deadline of a timed wait is processed only while it is pending. -/
def wakeLaw (v : Nat) (past : List Event) (e : Event) : Prop :=
  PendingExact v past ∧
    (∀ ks, e = .signal v ks → ks = (pending v past).take 1) ∧
    (∀ ks, e = .broadcast v ks → ks = pending v past) ∧
    ∀ k, e = .expire v k → k ∈ pending v past ∧
      ∃ w m, .call k w (.condTimedwait v m) ∈ past

structure CondHistory (v : Nat) (h : List Event) : Prop where
  mem_iff : PendingExact v h
  nodup : (pending v h).Nodup
  ended : ∀ k, endedBy v k h → begunOn v k h ∧ .expire v k ∉ h
  expired : ∀ k, .expire v k ∈ h → begunOn v k h
  law : Lawful (wakeLaw v) h

theorem pending_snoc : pending v (h ++ [e]) = pendingStep v (pending v h) e := by
  simp [pending]

theorem endedBy_snoc :
    endedBy v k (h ++ [e]) ↔
      endedBy v k h ∨ ∃ ks, k ∈ ks ∧ (e = .signal v ks ∨ e = .broadcast v ks) := by
  simp only [endedBy, List.mem_append, List.mem_singleton]
  constructor
  · rintro ⟨ks, hk, (hs | hs) | hb | hb⟩
    · exact .inl ⟨ks, hk, .inl hs⟩
    · exact .inr ⟨ks, hk, .inl hs.symm⟩
    · exact .inl ⟨ks, hk, .inr hb⟩
    · exact .inr ⟨ks, hk, .inr hb.symm⟩
  · rintro (⟨ks, hk, hs | hb⟩ | ⟨ks, hk, hs | hb⟩)
    · exact ⟨ks, hk, .inl (.inl hs)⟩
    · exact ⟨ks, hk, .inr (.inl hb)⟩
    · exact ⟨ks, hk, .inl (.inr hs.symm)⟩
    · exact ⟨ks, hk, .inr (.inr hb.symm)⟩

theorem begunOn_snoc : begunOn v k (h ++ [e]) ↔ begunOn v k h ∨ ∃ m c, e = .waits v m c k := by
  simp only [begunOn, List.mem_append, List.mem_singleton]
  constructor
  · rintro ⟨m, c, hm | he⟩
    · exact .inl ⟨m, c, hm⟩
    · exact .inr ⟨m, c, he.symm⟩
  · rintro (⟨m, c, hm⟩ | ⟨m, c, he⟩)
    · exact ⟨m, c, .inl hm⟩
    · exact ⟨m, c, .inr he.symm⟩

/-- Nothing about this condition variable happens. -/
theorem pending_other (he : e.obj ≠ some (.cond v)) :
    pending v (h ++ [e]) = pending v h ∧ (∀ k, endedBy v k (h ++ [e]) ↔ endedBy v k h) ∧
      (∀ k, begunOn v k (h ++ [e]) ↔ begunOn v k h) ∧
      ∀ k, .expire v k ∈ h ++ [e] ↔ .expire v k ∈ h := by
  refine ⟨?_, fun k => ?_, fun k => ?_, fun k => ?_⟩
  · rw [pending_snoc]
    cases e <;> simp [Event.obj, pendingStep] at he ⊢ <;> simp [he]
  · rw [endedBy_snoc, or_iff_left]
    rintro ⟨ks, -, rfl | rfl⟩ <;> exact he rfl
  · rw [begunOn_snoc, or_iff_left]
    rintro ⟨m, c, rfl⟩
    exact he rfl
  · rw [List.mem_append, or_iff_left]
    intro hm
    rw [List.mem_singleton] at hm
    subst hm
    exact he rfl

theorem CondHistory.other (hh : CondHistory v h) (he : e.obj ≠ some (.cond v)) :
    CondHistory v (h ++ [e]) := by
  obtain ⟨hp, hend, hbeg, hexp⟩ := pending_other (h := h) he
  refine ⟨fun k => ?_, ?_, fun k => ?_, fun k => ?_, ?_⟩
  · rw [hp, hend, hbeg, hexp]
    exact hh.mem_iff k
  · rw [hp]
    exact hh.nodup
  · rw [hend, hbeg, hexp]
    exact hh.ended k
  · rw [hbeg, hexp]
    exact hh.expired k
  · refine lawful_snoc.mpr ⟨hh.law, hh.mem_iff, ?_, ?_, ?_⟩
    · rintro ks rfl
      exact absurd rfl he
    · rintro ks rfl
      exact absurd rfl he
    · rintro k rfl
      exact absurd rfl he

/-- A wait begins. -/
theorem CondHistory.wait (hh : CondHistory v h) (hk : ¬ begunOn v k h) :
    CondHistory v (h ++ [Event.waits v m c k]) ∧
      pending v (h ++ [Event.waits v m c k]) = pending v h ++ [k] := by
  have hp : pending v (h ++ [Event.waits v m c k]) = pending v h ++ [k] := by
    rw [pending_snoc]
    simp [pendingStep]
  have hend : ∀ k', endedBy v k' (h ++ [Event.waits v m c k]) ↔ endedBy v k' h := by
    intro k'
    rw [endedBy_snoc, or_iff_left]
    rintro ⟨ks, -, h | h⟩ <;> cases h
  have hbeg : ∀ k', begunOn v k' (h ++ [Event.waits v m c k]) ↔ begunOn v k' h ∨ k' = k := by
    intro k'
    rw [begunOn_snoc]
    refine or_congr_right ⟨?_, ?_⟩
    · rintro ⟨m', c', he⟩
      cases he
      rfl
    · rintro rfl
      exact ⟨m, c, rfl⟩
  have hexp : ∀ k', .expire v k' ∈ h ++ [Event.waits v m c k] ↔ .expire v k' ∈ h := by
    intro k'
    simp
  refine ⟨⟨fun k' => ?_, ?_, fun k' hk' => ?_, fun k' hk' => ?_, ?_⟩, hp⟩
  · rw [hp, hend, hbeg, hexp, List.mem_append, List.mem_singleton, hh.mem_iff]
    constructor
    · rintro (⟨h1, h2, h3⟩ | rfl)
      · exact ⟨.inl h1, h2, h3⟩
      · exact ⟨.inr rfl, fun he => hk (hh.ended _ he).1, fun he => hk (hh.expired _ he)⟩
    · rintro ⟨h1 | rfl, h2, h3⟩
      · exact .inl ⟨h1, h2, h3⟩
      · exact .inr rfl
  · rw [hp, List.nodup_append]
    refine ⟨hh.nodup, by simp, ?_⟩
    rintro x hx y hy rfl
    rw [List.mem_singleton] at hy
    subst hy
    exact hk ((hh.mem_iff x).mp hx).1
  · rw [hend] at hk'
    obtain ⟨h1, h2⟩ := hh.ended k' hk'
    exact ⟨(hbeg k').mpr (.inl h1), (hexp k').not.mpr h2⟩
  · exact (hbeg k').mpr (.inl (hh.expired k' ((hexp k').mp hk')))
  · refine lawful_snoc.mpr ⟨hh.law, hh.mem_iff, ?_, ?_, ?_⟩ <;> rintro x hx <;> cases hx

theorem filter_prefix {l ks rest : List Nat} (hl : l = ks ++ rest) (hn : l.Nodup) :
    l.filter (fun k => !ks.contains k) = rest := by
  subst hl
  rw [List.nodup_append] at hn
  have h1 : ks.filter (fun k => !ks.contains k) = [] := by simp
  have h2 : rest.filter (fun k => !ks.contains k) = rest := by
    rw [List.filter_eq_self]
    intro k hk
    simpa using fun hks => hn.2.2 k hks k hk rfl
  rw [List.filter_append, h1, h2, List.nil_append]

/-- A signal or broadcast ends the waits at the front. -/
theorem CondHistory.wake {ks rest : List Nat} (hh : CondHistory v h)
    (hp : pending v h = ks ++ rest)
    (he : (e = .signal v ks ∧ ks = (pending v h).take 1) ∨
      (e = .broadcast v ks ∧ ks = pending v h)) :
    CondHistory v (h ++ [e]) ∧ pending v (h ++ [e]) = rest ∧
      ∀ k ∈ ks, endedBy v k (h ++ [e]) := by
  have hpend : pending v (h ++ [e]) = rest := by
    rw [pending_snoc]
    have := filter_prefix hp hh.nodup
    rcases he with ⟨rfl, -⟩ | ⟨rfl, -⟩ <;> simpa [pendingStep] using this
  have hend : ∀ k, endedBy v k (h ++ [e]) ↔ endedBy v k h ∨ k ∈ ks := by
    intro k
    rw [endedBy_snoc]
    refine or_congr_right ⟨?_, fun hk => ⟨ks, hk, ?_⟩⟩
    · rintro ⟨ks', hk, hs⟩
      rcases he with ⟨rfl, -⟩ | ⟨rfl, -⟩ <;> rcases hs with hs | hs <;> cases hs <;> exact hk
    · rcases he with ⟨rfl, -⟩ | ⟨rfl, -⟩
      · exact .inl rfl
      · exact .inr rfl
  have hbeg : ∀ k, begunOn v k (h ++ [e]) ↔ begunOn v k h := by
    intro k
    rw [begunOn_snoc, or_iff_left]
    rintro ⟨m, c, rfl⟩
    rcases he with ⟨he, -⟩ | ⟨he, -⟩ <;> cases he
  have hexp : ∀ k, .expire v k ∈ h ++ [e] ↔ .expire v k ∈ h := by
    intro k
    rw [List.mem_append, or_iff_left]
    intro hm
    rw [List.mem_singleton] at hm
    subst hm
    rcases he with ⟨he, -⟩ | ⟨he, -⟩ <;> cases he
  have hsplit : ∀ k, k ∈ pending v h ↔ k ∈ ks ∨ k ∈ rest := by
    intro k
    rw [hp, List.mem_append]
  have hdisj : ∀ k ∈ rest, k ∉ ks := by
    intro k hr hk
    have := hh.nodup
    rw [hp, List.nodup_append] at this
    exact this.2.2 k hk k hr rfl
  refine ⟨⟨fun k => ?_, ?_, fun k hk => ?_, fun k hk => ?_, ?_⟩, hpend, fun k hk =>
    (hend k).mpr (.inr hk)⟩
  · rw [hpend, hend, hbeg, hexp]
    constructor
    · intro hk
      obtain ⟨h1, h2, h3⟩ := (hh.mem_iff k).mp ((hsplit k).mpr (.inr hk))
      exact ⟨h1, fun ho => ho.elim h2 (hdisj k hk), h3⟩
    · rintro ⟨h1, h2, h3⟩
      rw [not_or] at h2
      exact ((hsplit k).mp ((hh.mem_iff k).mpr ⟨h1, h2.1, h3⟩)).resolve_left h2.2
  · rw [hpend]
    have := hh.nodup
    rw [hp, List.nodup_append] at this
    exact this.2.1
  · rw [hbeg, hexp]
    rcases (hend k).mp hk with hk | hk
    · exact hh.ended k hk
    · obtain ⟨h1, -, h3⟩ := (hh.mem_iff k).mp ((hsplit k).mpr (.inl hk))
      exact ⟨h1, h3⟩
  · rw [hbeg]
    exact hh.expired k ((hexp k).mp hk)
  · refine lawful_snoc.mpr ⟨hh.law, hh.mem_iff, ?_, ?_, ?_⟩
    · intro ks' hs
      rcases he with ⟨rfl, he⟩ | ⟨rfl, -⟩ <;> cases hs
      exact he
    · intro ks' hb
      rcases he with ⟨rfl, -⟩ | ⟨rfl, he⟩ <;> cases hb
      exact he
    · rintro k rfl
      rcases he with ⟨he, -⟩ | ⟨he, -⟩ <;> cases he

/-- The deadline of a pending wait is processed. -/
theorem CondHistory.expire (hh : CondHistory v h) (hk : k ∈ pending v h)
    (hcall : ∃ w m, .call k w (.condTimedwait v m) ∈ h) :
    CondHistory v (h ++ [Event.expire v k]) ∧
      pending v (h ++ [Event.expire v k]) = (pending v h).erase k := by
  have hp : pending v (h ++ [Event.expire v k]) = (pending v h).erase k := by
    rw [pending_snoc]
    simp [pendingStep]
  have hend : ∀ k', endedBy v k' (h ++ [Event.expire v k]) ↔ endedBy v k' h := by
    intro k'
    rw [endedBy_snoc, or_iff_left]
    rintro ⟨ks, -, h | h⟩ <;> cases h
  have hbeg : ∀ k', begunOn v k' (h ++ [Event.expire v k]) ↔ begunOn v k' h := by
    intro k'
    rw [begunOn_snoc, or_iff_left]
    rintro ⟨m, c, h⟩
    cases h
  have hexp : ∀ k', .expire v k' ∈ h ++ [Event.expire v k] ↔ .expire v k' ∈ h ∨ k' = k := by
    intro k'
    simp
  obtain ⟨hkb, hke, hkx⟩ := (hh.mem_iff k).mp hk
  refine ⟨⟨fun k' => ?_, ?_, fun k' hk' => ?_, fun k' hk' => ?_, ?_⟩, hp⟩
  · rw [hp, hend, hbeg, hexp, hh.nodup.mem_erase_iff, hh.mem_iff, not_or]
    exact ⟨fun ⟨h1, h2, h3, h4⟩ => ⟨h2, h3, h4, h1⟩, fun ⟨h2, h3, h4, h1⟩ => ⟨h1, h2, h3, h4⟩⟩
  · rw [hp]
    exact hh.nodup.erase k
  · rw [hend] at hk'
    obtain ⟨h1, h2⟩ := hh.ended k' hk'
    rw [hbeg, hexp, not_or]
    refine ⟨h1, h2, ?_⟩
    rintro rfl
    exact hke hk'
  · rw [hbeg]
    rcases (hexp k').mp hk' with hk' | rfl
    · exact hh.expired k' hk'
    · exact hkb
  · refine lawful_snoc.mpr ⟨hh.law, hh.mem_iff, ?_, ?_, ?_⟩
    · rintro x hx
      cases hx
    · rintro x hx
      cases hx
    · rintro x hx
      cases hx
      exact ⟨hk, hcall⟩

/-! ## Waiters -/

/-- The condition variable and the mutex of a wait that has not returned. -/
def Frame.condOf : Frame → Option (Nat × Nat)
  | .condWait v m | .timedWait v m | .condRelock v m | .timedRelock v m => some (v, m)
  | _ => none

/-- Still in the queue, with `timed_out` clear. -/
def Routine.Awaits (v : Nat) (r : Routine) : Prop :=
  r.state = .waiting ∧ r.frame.waitQueue = some (.cond v) ∧
    (r.frame.timedCond = true → r.timedOut = false)

/-- How the wait ended is in `timed_out`. -/
def Routine.Settled (v : Nat) (h : List Event) (r : Routine) : Prop :=
  (endedBy v r.call h ∧ (r.frame.timedCond = true → r.timedOut = false)) ∨
    (.expire v r.call ∈ h ∧ r.frame.timedCond = true ∧ r.timedOut = true)

structure CondInv (v : Nat) (s : St) : Prop where
  hist : CondHistory v s.trace
  queue : pending v s.trace = (s.queues (.cond v)).map fun c => (s.co c).call
  waiter : ∀ c m, (s.co c).frame.condOf = some (v, m) →
    .waits v m c (s.co c).call ∈ s.trace ∧
      ((s.co c).Awaits v ∨ (s.co c).Settled v s.trace)

theorem cond_mem_objs {f : Frame} : Obj.cond v ∈ f.objs ↔ ∃ m, f.condOf = some (v, m) := by
  cases f <;> simp [Frame.objs, Frame.condOf, eq_comm]

theorem Frame.condOf_of_waitQueue {f : Frame} (hw : f.waitQueue = some (.cond v)) :
    ∃ m, f.condOf = some (v, m) := by
  cases f <;> simp [Frame.waitQueue, Frame.condOf] at hw ⊢
  · exact hw
  · exact hw

theorem endedBy_mono {h' : List Event} (hsub : ∀ e ∈ h, e ∈ h') (he : endedBy v k h) :
    endedBy v k h' := by
  obtain ⟨ks, hk, hs | hb⟩ := he
  · exact ⟨ks, hk, .inl (hsub _ hs)⟩
  · exact ⟨ks, hk, .inr (hsub _ hb)⟩

theorem Routine.Settled.mono {r r' : Routine} {h' : List Event} (hs : r.Settled v h)
    (hsub : ∀ e ∈ h, e ∈ h') (hc : r'.call = r.call)
    (ht : r'.frame.timedCond = r.frame.timedCond) (hto : r'.timedOut = r.timedOut) :
    r'.Settled v h' := by
  unfold Routine.Settled at hs ⊢
  rw [hc, ht, hto]
  rcases hs with ⟨h1, h2⟩ | ⟨h1, h2⟩
  · exact .inl ⟨endedBy_mono hsub h1, h2⟩
  · exact .inr ⟨hsub _ h1, h2⟩

/-- The histories of a condition variable before and after events about others. -/
theorem CondHistory.others {es : List Event} (hh : CondHistory v h)
    (he : ∀ e ∈ es, e.obj ≠ some (.cond v)) :
    CondHistory v (h ++ es) ∧ pending v (h ++ es) = pending v h := by
  induction es generalizing h with
  | nil => simpa using hh
  | cons e es ih =>
    obtain ⟨h1, h2⟩ := ih (hh.other (he e (by simp))) fun e' he' => he e' (by simp [he'])
    rw [List.append_assoc, List.singleton_append] at h1 h2
    exact ⟨h1, h2.trans (pending_other (he e (by simp))).1⟩

/-- A member of the queue is in a wait on this condition variable. -/
theorem Inv.cond_member (hi : Inv run cur s.toSched) (hm : c ∈ s.queues (.cond v)) :
    (s.co c).state = .waiting ∧ (s.co c).frame.waitQueue = some (.cond v) ∧
      ∃ m, (s.co c).frame.condOf = some (v, m) := by
  obtain ⟨hst, hw⟩ := Routine.home_wait (hi.mem_queue hm) (by simp)
  exact ⟨hst, hw, Frame.condOf_of_waitQueue hw⟩

theorem CondInv.same (hc : CondInv v s) (hi : Inv run cur s.toSched)
    (hsame : SameFor (.cond v) s s') : CondInv v s' := by
  obtain ⟨es, hes, he⟩ := hsame.trace
  obtain ⟨h1, h2⟩ := hc.hist.others he
  have hsub : ∀ e ∈ s.trace, e ∈ s'.trace := fun e hm => by
    rw [hes]
    exact List.mem_append_left _ hm
  refine ⟨hes ▸ h1, ?_, fun c m hf => ?_⟩
  · rw [hes, h2, hc.queue, hsame.queues (.cond v) rfl]
    refine List.map_congr_left fun c hm => ?_
    obtain ⟨-, -, m, hf⟩ := hi.cond_member hm
    exact (hsame.co c (.inl (cond_mem_objs.mpr ⟨m, hf⟩))).call.symm
  · have hrec := hsame.co c (.inr (cond_mem_objs.mpr ⟨m, hf⟩))
    rw [hrec.frame] at hf
    obtain ⟨hw, hst⟩ := hc.waiter c m hf
    rw [hrec.call]
    refine ⟨hsub _ hw, ?_⟩
    rcases hst with ⟨hst, hq, hto⟩ | hst
    · refine .inl ⟨(hrec.state _ hq rfl).trans hst, by rw [hrec.frame]; exact hq, ?_⟩
      rw [hrec.frame, hrec.timedOut]
      exact hto
    · exact .inr (hst.mono hsub hrec.call (by rw [hrec.frame]) hrec.timedOut)

/-! ## Moves at the condition variable -/

/-- The record of `c` changes, and `c` is not in the queue. -/
theorem CondInv.change {r : Routine} {es : List Event} (hc : CondInv v s)
    (hco : s'.co = Function.update s.co c r) (hcq : c ∉ s.queues (.cond v)) (hq : s'.queues (.cond v) = s.queues (.cond v))
    (htr : s'.trace = s.trace ++ es) (hes : ∀ e ∈ es, e.obj ≠ some (.cond v))
    (hr : ∀ m, r.frame.condOf = some (v, m) →
      .waits v m c r.call ∈ s.trace ∧ r.Settled v s.trace) : CondInv v s' := by
  obtain ⟨h1, h2⟩ := hc.hist.others hes
  have hsub : ∀ e ∈ s.trace, e ∈ s'.trace := fun e hm => by
    rw [htr]
    exact List.mem_append_left _ hm
  refine ⟨htr ▸ h1, ?_, fun d m hf => ?_⟩
  · rw [htr, h2, hc.queue, hq]
    refine List.map_congr_left fun d hd => ?_
    have hdc : d ≠ c := by
      rintro rfl
      exact hcq hd
    rw [hco, Function.update_of_ne hdc]
  · by_cases hdc : d = c
    · subst hdc
      rw [hco, Function.update_self] at hf ⊢
      obtain ⟨hw, hs⟩ := hr m hf
      exact ⟨hsub _ hw, .inr (hs.mono hsub rfl rfl rfl)⟩
    · rw [hco, Function.update_of_ne hdc] at hf ⊢
      obtain ⟨hw, hs⟩ := hc.waiter d m hf
      exact ⟨hsub _ hw, hs.imp id fun hs => hs.mono hsub rfl rfl rfl⟩

/-- `c` begins to wait. -/
theorem CondInv.join {r : Routine} (hc : CondInv v s) (hco : s'.co = Function.update s.co c r)
    (hcq : c ∉ s.queues (.cond v)) (hq : s'.queues (.cond v) = s.queues (.cond v) ++ [c])
    (htr : s'.trace = s.trace ++ [Event.waits v m c r.call]) (hfresh : ¬ begunOn v r.call s.trace)
    (hf : r.frame.condOf = some (v, m)) (hr : r.Awaits v) : CondInv v s' := by
  obtain ⟨h1, h2⟩ := hc.hist.wait (m := m) (c := c) hfresh
  have hsub : ∀ e ∈ s.trace, e ∈ s'.trace := fun e hm => by
    rw [htr]
    exact List.mem_append_left _ hm
  refine ⟨htr ▸ h1, ?_, fun d m' hf' => ?_⟩
  · rw [htr, h2, hc.queue, hq, List.map_append, List.map_singleton, hco, Function.update_self]
    congr 1
    refine List.map_congr_left fun d hd => ?_
    have hdc : d ≠ c := by
      rintro rfl
      exact hcq hd
    rw [Function.update_of_ne hdc]
  · by_cases hdc : d = c
    · subst hdc
      rw [hco, Function.update_self] at hf' ⊢
      rw [hf, Option.some.injEq, Prod.mk.injEq] at hf'
      refine ⟨?_, .inl hr⟩
      rw [htr, ← hf'.2]
      simp
    · rw [hco, Function.update_of_ne hdc] at hf' ⊢
      obtain ⟨hw, hs⟩ := hc.waiter d m' hf'
      exact ⟨hsub _ hw, hs.imp id fun hs => hs.mono hsub rfl rfl rfl⟩

theorem map_erase_of_nodup {f : Nat → Nat} {l : List Nat} (hn : (l.map f).Nodup) (hm : c ∈ l) :
    (l.erase c).map f = (l.map f).erase (f c) := by
  induction l with
  | nil => simp at hm
  | cons d l ih =>
    rw [List.map_cons, List.nodup_cons] at hn
    by_cases hd : d = c
    · subst hd
      simp
    · have hml : c ∈ l := by
        rcases List.mem_cons.mp hm with rfl | hm
        · exact absurd rfl hd
        · exact hm
      have hne : f d ≠ f c := by
        intro he
        exact hn.1 (he ▸ List.mem_map_of_mem hml)
      rw [List.erase_cons_tail (by simpa using hd), List.map_cons, List.map_cons,
        List.erase_cons_tail (by simpa using hne), ih hn.2 hml]

/-- The deadline of `c` is processed. -/
theorem CondInv.expire (hc : CondInv v s) (hcall : CallInv s) (hi : Inv run cur s.toSched)
    (he : Expires s s' c) (hf : (s.co c).frame = .timedWait v m) : CondInv v s' := by
  have hmem : c ∈ s.queues (.cond v) := by
    have hcount := (hi.seated c).queued (.cond v)
    have hhome : (s.co c).home = some (.cond v) := by
      simp [Routine.home, hf, he.waiting, Frame.suspended, Frame.waitQueue]
    rw [if_pos hhome] at hcount
    exact List.count_pos_iff.mp (by omega)
  have hk : (s.co c).call ∈ pending v s.trace := by
    rw [hc.queue]
    exact List.mem_map_of_mem hmem
  have hop : ∃ w m', .call (s.co c).call w (.condTimedwait v m') ∈ s.trace := by
    obtain ⟨op, hop, hfits⟩ := hcall.inside c (by simp [Routine.inCall, hf, Frame.suspended])
    rw [hf] at hfits
    cases op <;> simp [Frame.fits] at hfits
    exact ⟨_, _, hfits.1 ▸ hop⟩
  obtain ⟨h1, h2⟩ := hc.hist.expire hk hop
  have htr : s'.trace = (s.trace ++ [Event.expire v (s.co c).call]) ++ [Event.ready c] := by
    rw [he.trace, expireEvents, hf]
    simp
  have hready : Event.obj (.ready c) ≠ some (.cond v) := by simp [Event.obj]
  have hsub : ∀ e ∈ s.trace ++ [Event.expire v (s.co c).call], e ∈ s'.trace := fun e hm => by
    rw [htr]
    exact List.mem_append_left _ hm
  have hsub' : ∀ e ∈ s.trace, e ∈ s'.trace := fun e hm => hsub e (List.mem_append_left _ hm)
  refine ⟨htr ▸ h1.other hready, ?_, fun d m' hf' => ?_⟩
  · have hq : s'.queues (.cond v) = (s.queues (.cond v)).erase c := by
      rw [he.queues, hf]
      simp [Frame.waitQueue]
    rw [htr, (pending_other hready).1, h2, hc.queue, hq]
    have hn : ((s.queues (.cond v)).map fun c => (s.co c).call).Nodup := by
      rw [← hc.queue]
      exact hc.hist.nodup
    rw [← map_erase_of_nodup hn hmem]
    refine List.map_congr_left fun d hd => ?_
    have hdc : d ≠ c := by
      rintro rfl
      exact (hi.nodup_queue (.cond v)).not_mem_erase hd
    rw [he.co, Function.update_of_ne hdc]
  · by_cases hdc : d = c
    · subst hdc
      have hold : (s.co d).frame.condOf = some (v, m') := by
        rw [he.co, Function.update_self] at hf'
        exact hf'
      obtain ⟨hw, -⟩ := hc.waiter d m' hold
      rw [he.co, Function.update_self]
      refine ⟨hsub' _ hw, .inr (.inr ⟨hsub _ (by simp), ?_, ?_⟩)⟩
      · simp [hf, Frame.timedCond]
      · simp [hf]
    · rw [he.co, Function.update_of_ne hdc] at hf' ⊢
      obtain ⟨hw, hs⟩ := hc.waiter d m' hf'
      exact ⟨hsub' _ hw, hs.imp id fun hs => hs.mono hsub' rfl rfl rfl⟩

/-- Waits at the front of the queue are ended. -/
theorem CondInv.notify {ws rest : List Nat} (hc : CondInv v s) (hi : Inv run cur s.toSched)
    (hq : s.queues (.cond v) = ws ++ rest)
    (he : (e = .signal v (ws.map fun c => (s.co c).call) ∧ ws = (s.queues (.cond v)).take 1) ∨
      (e = .broadcast v (ws.map fun c => (s.co c).call) ∧ rest = [])) :
    CondInv v (wakeAll (s.emit e) (.cond v) ws rest .wakeCond) := by
  have hp : pending v s.trace =
      (ws.map fun c => (s.co c).call) ++ rest.map fun c => (s.co c).call := by
    rw [hc.queue, hq, List.map_append]
  have he' : (e = .signal v (ws.map fun c => (s.co c).call) ∧
        (ws.map fun c => (s.co c).call) = (pending v s.trace).take 1) ∨
      (e = .broadcast v (ws.map fun c => (s.co c).call) ∧
        (ws.map fun c => (s.co c).call) = pending v s.trace) := by
    rcases he with ⟨h1, h2⟩ | ⟨h1, h2⟩
    · refine .inl ⟨h1, ?_⟩
      rw [hc.queue, ← List.map_take, ← h2]
    · refine .inr ⟨h1, ?_⟩
      rw [hp, h2]
      simp
  obtain ⟨h1, h2, h3⟩ := hc.hist.wake hp he'
  obtain ⟨h4, h5⟩ := h1.others (event_ready_obj (o := .cond v) ws)
  have hsub : ∀ e' ∈ s.trace ++ [e], e' ∈ (wakeAll (s.emit e) (.cond v) ws rest .wakeCond).trace :=
    fun e' hm => List.mem_append_left _ hm
  have hsub' : ∀ e' ∈ s.trace, e' ∈ (wakeAll (s.emit e) (.cond v) ws rest .wakeCond).trace :=
    fun e' hm => hsub e' (List.mem_append_left _ hm)
  have hdisj : ∀ d ∈ rest, d ∉ ws := by
    intro d hr hw
    have := hi.nodup_queue (.cond v)
    rw [hq, List.nodup_append] at this
    exact this.2.2 d hw d hr rfl
  refine ⟨h4, ?_, fun d m hf => ?_⟩
  · refine (h5.trans h2).trans ?_
    have hq' : (wakeAll (s.emit e) (.cond v) ws rest .wakeCond).queues (.cond v) = rest := by
      simp [wakeAll]
    rw [hq']
    refine List.map_congr_left fun d hd => ?_
    simp [wakeAll, St.emit, hdisj d hd]
  · by_cases hd : d ∈ ws
    · have hmem : d ∈ s.queues (.cond v) := by
        rw [hq]
        exact List.mem_append_left _ hd
      have hold : (s.co d).frame.condOf = some (v, m) := by
        simpa [wakeAll, St.emit, hd, Routine.wakeCond] using hf
      obtain ⟨hw, hs⟩ := hc.waiter d m hold
      have hrec : (wakeAll (s.emit e) (.cond v) ws rest .wakeCond).co d = (s.co d).wakeCond := by
        simp [wakeAll, St.emit, hd]
      rw [hrec]
      refine ⟨hsub' _ hw, .inr ?_⟩
      rcases hs with hs | hs
      · refine .inl ⟨?_, hs.2.2⟩
        exact endedBy_mono hsub (h3 _ (List.mem_map_of_mem (f := fun c => (s.co c).call) hd))
      · exact hs.mono hsub' rfl rfl rfl
    · have hrec : (wakeAll (s.emit e) (.cond v) ws rest .wakeCond).co d = s.co d := by
        simp [wakeAll, St.emit, hd]
      rw [hrec] at hf ⊢
      obtain ⟨hw, hs⟩ := hc.waiter d m hf
      exact ⟨hsub' _ hw, hs.imp id fun hs => hs.mono hsub' rfl rfl rfl⟩

/-- The waits of earlier calls. -/
theorem Begins.not_begun {op : Op} (hb : Begins s₀ a s op) (h₀ : CallInv s₀) :
    ¬ begunOn v s₀.calls s.trace := by
  rintro ⟨m, c, hw⟩
  rw [hb.2, beginCall_trace, List.mem_append, List.mem_singleton] at hw
  rcases hw with hw | hw
  · obtain ⟨w, op', hc, -⟩ := h₀.attributed _ hw _ _ rfl
    exact Nat.lt_irrefl _ (h₀.call_lt _ w op' hc)
  · cases hw

theorem Move.condInv {os : List Obj} {p p' : Option Nat × St} (hm : Move s₀ a os p p')
    (hi₀ : Inv False s₀.coCurrent s₀.toSched) (hi : Inv False p.1 p.2.toSched)
    (h₀ : CallInv s₀) (hcall : CallInv p.2) (hc : CondInv v p.2) : CondInv v p'.2 := by
  by_cases ho : Obj.cond v ∈ os
  swap
  · exact hc.same hi (hm.footprint hi ho)
  cases hm with
  | admin _ | invoke _ | skipId _ | spawn _ | finish _ | yieldNow _ _ | drain _ _ _ | touch _ _
  | dropTimer _ _ _ | polled _ => simp at ho
  | take _ _ | unlock _ _ _ _ _ _ | handoff _ _ _ _ _ _ | placeHand _ _ _ _
  | placeRing _ _ _ _ _ | takeRing _ _ _ _ | takeRefill _ _ _ _ | takeMeet _ _ _ _
  | close _ _ _ => simp at ho
  | @block c op s s' r hb hf hbl =>
    obtain ⟨m, hcond⟩ := cond_mem_objs.mp ho
    have hcq : c ∉ s.queues (.cond v) := List.count_eq_zero.mp ((hi.out rfl).1 (.cond v))
    have hk : r.call = s₀.calls := hbl.call.trans (hb.current hi₀ hi).2
    have hwq : r.frame.waitQueue = some (.cond v) ∧ blockEvents s c r = [.waits v m c r.call] ∧
        (r.frame.timedCond = true → r.frame.timed = true ∧ r.frame ≠ .sleep) := by
      have hdir := hbl.direct
      unfold blockEvents
      cases hfr : r.frame <;> simp [hfr, Frame.condOf] at hcond hdir <;>
        simp [hcond, Frame.waitQueue, Frame.timedCond, Frame.timed]
    refine hc.join hbl.co hcq ?_ (hwq.2.1 ▸ hbl.trace) (hk ▸ hb.not_begun h₀) hcond
      ⟨hbl.state, hwq.1, fun ht => hbl.timedOut (hwq.2.2 ht).1 (hwq.2.2 ht).2⟩
    rw [hbl.queues, hwq.1]
    exact Function.update_self _ _ _
  | @dispatch c rest s' hdis ha =>
    refine hc.change hdis.co (hi.ready_not_queued hdis.ready (by simp)) ?_ hdis.trace ?_ ?_
    · rw [hdis.queues, Function.update_of_ne (by simp)]
    · unfold dispatchEvents
      split <;> simp [Event.obj]
    · simp [Frame.condOf]
  | @relock c m rest f s' hr ha =>
    have hst := (hi.ready_fields hr.ready).1
    refine hc.change hr.co (hi.ready_not_queued hr.ready (by simp)) ?_ hr.trace
      (by simp [Event.obj]) fun m' hf => ?_
    · rw [hr.queues, Function.update_of_ne (by simp), Function.update_of_ne (by simp)]
    · have hold : (s₀.co c).frame.condOf = some (v, m') ∧
          f.timedCond = (s₀.co c).frame.timedCond := by
        obtain ⟨v', ⟨hfr, rfl⟩ | ⟨hfr, rfl⟩⟩ := Frame.relocking_spec hr.relocking <;>
          rw [hfr] <;> exact ⟨hf, rfl⟩
      obtain ⟨hw, hs⟩ := hc.waiter c m' hold.1
      refine ⟨hw, ?_⟩
      rcases hs with hs | hs
      · have hwait : (s₀.co c).state = .waiting := hs.1
        rw [hst] at hwait
        cases hwait
      · exact hs.mono (fun e he => he) rfl hold.2 rfl
  | @expire cur c s s' he =>
    have ht := he.timed
    have hfr : ∃ m, (s.co c).frame = .timedWait v m := by
      cases hf : (s.co c).frame <;> simp [hf, Frame.objs, Frame.timed] at ho ht ⊢
      exact ho.symm
    obtain ⟨m, hfr⟩ := hfr
    exact hc.expire hcall hi he hfr
  | @notify cur v' ws rest e s hq he =>
    simp only [List.mem_singleton, Obj.cond.injEq] at ho
    subst ho
    exact hc.notify hi hq he

/-! ## Calls to signal and to broadcast -/

/-- The event that must come next: a call to signal ends the longest pending wait, if there
is one, and a call to broadcast all of them. -/
def owes (v : Nat) (past : List Event) : Option Event :=
  match past.getLast? with
  | some (.call _ _ (.condSignal v')) =>
    if v' = v then some (.signal v ((pending v past).take 1)) else none
  | some (.call _ _ (.condBroadcast v')) =>
    if v' = v then some (.broadcast v (pending v past)) else none
  | _ => none

/-- Waits are ended by an event of this kind. -/
def Event.isNotice (v : Nat) : Event → Bool
  | .signal v' _ | .broadcast v' _ => v' == v
  | _ => false

/-- A call to signal or to broadcast is followed at once by what it does, and nothing else
ends a wait before its deadline. -/
def notifyLaw (v : Nat) (past : List Event) (e : Event) : Prop :=
  (∀ x, owes v past = some x → e = x) ∧ (e.isNotice v = true → owes v past = some e)

def Notified (v : Nat) (h : List Event) : Prop := Lawful (notifyLaw v) h ∧ owes v h = none

def OpName.notifies (v : Nat) : OpName → Bool
  | .condSignal v' | .condBroadcast v' => v' == v
  | _ => false

/-- Neither a call that ends waits on `v`, nor what it does. -/
def Event.unnotified (v : Nat) : Event → Bool
  | .call _ _ op => !op.notifies v
  | e => !e.isNotice v

theorem owes_snoc (he : ∀ k w op, e = .call k w op → op.notifies v = false) :
    owes v (h ++ [e]) = none := by
  unfold owes
  rw [List.getLast?_concat]
  cases e with
  | call k w op =>
    have hop := he k w op rfl
    cases op <;> simp [OpName.notifies] at hop ⊢ <;> exact hop
  | _ => rfl

theorem Notified.snoc (hn : Notified v h) (he : e.unnotified v = true) :
    Notified v (h ++ [e]) := by
  have hnotice : e.isNotice v = false := by
    cases e <;> simp [Event.unnotified, Event.isNotice] at he ⊢ <;> exact he
  refine ⟨lawful_snoc.mpr ⟨hn.1, ?_, ?_⟩, ?_⟩
  · intro x hx
    rw [hn.2] at hx
    cases hx
  · intro ht
    rw [hnotice] at ht
    cases ht
  · refine owes_snoc fun k w op hop => ?_
    subst hop
    simpa [Event.unnotified] using he

theorem Notified.append {es : List Event} (hn : Notified v h)
    (he : ∀ e ∈ es, e.unnotified v = true) : Notified v (h ++ es) := by
  induction es generalizing h with
  | nil => simpa using hn
  | cons e es ih =>
    rw [List.append_cons]
    exact ih (hn.snoc (he e (by simp))) fun e' he' => he e' (by simp [he'])

/-- A call that ends waits does so at once. -/
theorem Notified.notify {w : Option Nat} {op : OpName} {es : List Event} (hn : Notified v h)
    (ho : owes v (h ++ [.call k w op]) = some e) (he : e.isCall = false)
    (hes : ∀ e ∈ es, e.unnotified v = true) : Notified v (h ++ .call k w op :: e :: es) := by
  have hcall : Lawful (notifyLaw v) (h ++ [Event.call k w op]) := by
    refine lawful_snoc.mpr ⟨hn.1, fun x hx => ?_, fun ht => ?_⟩
    · rw [hn.2] at hx
      cases hx
    · cases ht
  have hnotice : Notified v (h ++ [Event.call k w op] ++ [e]) := by
    refine ⟨lawful_snoc.mpr ⟨hcall, fun x hx => ?_, fun _ => ho⟩, owes_snoc ?_⟩
    · rw [ho] at hx
      exact Option.some.inj hx
    · rintro k w op rfl
      cases he
  rw [List.append_cons, List.append_cons]
  exact hnotice.append hes

/-- The action is a call that ends waits on `v`. -/
def Act.notifies (v : Nat) : Act → Bool
  | .call op => op.name.notifies v
  | _ => false

theorem Event.not_notice (he : e.obj ≠ some (.cond v)) : e.isNotice v = false := by
  cases e <;> simp [Event.obj, Event.isNotice] at he ⊢ <;> exact he

/-- Only calls to signal and to broadcast end waits. -/
theorem Move.noNotice {os : List Obj} {p p' : Option Nat × St} (hm : Move s₀ a os p p')
    (hn : a.notifies v = false) (hi : Inv run p.1 p.2.toSched) :
    ∃ es, p'.2.trace = p.2.trace ++ es ∧ ∀ e ∈ es, e.isNotice v = false := by
  by_cases ho : Obj.cond v ∈ os
  swap
  · obtain ⟨es, hes, he⟩ := (hm.footprint hi ho).trace
    exact ⟨es, hes, fun e hm => Event.not_notice (he e hm)⟩
  cases hm with
  | admin _ | invoke _ | skipId _ | spawn _ | finish _ | yieldNow _ _ | drain _ _ _ _ | touch _ _
  | dropTimer _ _ _ | polled _ _ | take _ _ _ | unlock _ _ _ _ _ _ | handoff _ _ _ _ _ _
  | placeHand _ _ _ _ | placeRing _ _ _ _ _ | takeRing _ _ _ _ | takeRefill _ _ _ _
  | takeMeet _ _ _ _ | close _ _ _ => simp at ho
  | @block c op s s' r hb hf hbl =>
    refine ⟨_, hbl.trace, ?_⟩
    unfold blockEvents
    split <;> simp [Event.isNotice]
  | @dispatch c rest s' hdis ha =>
    refine ⟨_, hdis.trace, ?_⟩
    unfold dispatchEvents
    split <;> simp [Event.isNotice]
  | relock hr ha => exact ⟨_, hr.trace, by simp [Event.isNotice]⟩
  | expire he ha =>
    refine ⟨_, he.trace, ?_⟩
    unfold expireEvents
    split <;> simp [Event.isNotice]
  | @notify cur v' ws rest e s hq he ha =>
    simp only [List.mem_singleton, Obj.cond.injEq] at ho
    subst ho
    obtain ⟨op, rfl, hop | hop⟩ := ha <;>
      simp [Act.notifies, hop, OpName.notifies] at hn

/-- Steps that end no wait by a signal or broadcast. -/
theorem notified_other (hp : Placed run s) (hl : leaks s a = false) (hs : step s a = some s')
    (hcall : CallInv s) (hn : a.notifies v = false) (h : Notified v s.trace) :
    Notified v s'.trace := by
  have hi₀ : Inv False s.coCurrent s.toSched := (hp.current hs).mono fun h => h.elim
  have hend : ∀ t, Added s t a →
      (∃ es, t.trace = s.trace ++ es ∧ ∀ e ∈ es, e.isNotice v = false) → Notified v t.trace := by
    rintro t ⟨es, he, htr⟩ ⟨es', htr', hno⟩
    rw [htr']
    refine h.append fun e hm => ?_
    have hnotice := hno e hm
    have hcalls : e.isCall = false ∨ ∃ op, a = .call op ∧
        e = .call s.calls s.coCurrent op.name := by
      rcases htr with htr | ⟨op, ha, htr⟩
      · rw [htr', List.append_cancel_left_eq] at htr
        exact .inl (he e (htr ▸ hm))
      · rw [htr', List.append_cancel_left_eq] at htr
        rw [htr, List.mem_cons] at hm
        exact hm.elim (fun hm => .inr ⟨op, ha, hm⟩) fun hm => .inl (he e hm)
    rcases hcalls with hc | ⟨op, rfl, rfl⟩
    · cases e <;> simp [Event.unnotified, Event.isNotice] at hnotice ⊢ <;> first
        | exact hnotice
        | cases hc
    · simpa [Event.unnotified, Act.notifies] using hn
  refine hcall.step_rule (K := fun t => Added s t a ∧
      ∃ es, t.trace = s.trace ++ es ∧ ∀ e ∈ es, e.isNotice v = false)
    (J := fun t => Notified v t.trace) hp hl hs ⟨.refl s a, [], by simp, by simp⟩ ?_ ?_ ?_
  · rintro os p p' hm hi hc - ⟨hadd, es, htr, he⟩
    obtain ⟨es', htr', he'⟩ := hm.noNotice hn hi
    refine ⟨hm.added hi₀ hi hc hadd, es ++ es', ?_, ?_⟩
    · rw [htr', htr, List.append_assoc]
    · intro e hm
      exact (List.mem_append.mp hm).elim (he e) (he' e)
  · rintro t - - ⟨hadd, hno⟩
    exact hend t hadd hno
  · rintro t k r - - - ⟨hadd, hno⟩ - -
    exact (hend t hadd hno).snoc rfl

theorem coCondSignal_trace (u : St) (v : Nat) :
    ∃ ws : List Nat, (coCondSignal u v).trace = u.trace ++
      .signal v (((u.queues (.cond v)).map fun c => (u.co c).call).take 1) :: ws.map .ready := by
  unfold coCondSignal
  cases hq : u.queues (.cond v) with
  | nil =>
    rw [coQueuePopFront_nil hq]
    exact ⟨[], rfl⟩
  | cons c rest =>
    rw [coQueuePopFront_cons hq]
    exact ⟨[c], by simp [wakeWaiter, wakeRoutine, St.emit, St.modify, coQueuePushBack]⟩

theorem coCondBroadcast_trace (u : St) (v : Nat) :
    (coCondBroadcast u v).trace = u.trace ++
      .broadcast v ((u.queues (.cond v)).map fun c => (u.co c).call) ::
        (u.queues (.cond v)).map .ready := by
  have hw : ∀ (s : St) (c : Nat), wakeWaiter s c =
      (coQueuePushBack (s.modify c Routine.wakeCond) .ready c).emit (.ready c) := by
    intro s c
    simp only [wakeWaiter, wakeRoutine, St.modify_modify]
    rfl
  have hdrain := drainQueue_eq Routine.wakeCond (q := .cond v) (by simp) (fun _ => rfl) hw
    (u.emit (.broadcast v ((u.queues (.cond v)).map fun c => (u.co c).call)))
  refine (congrArg (fun t : St => t.trace) hdrain).trans ?_
  show u.trace ++ [_] ++ _ = _
  rw [List.append_assoc, List.singleton_append]
  rfl

/-- **Calls that end waits.** -/
theorem notified_called {op : Op} (hi : Inv run s.coCurrent s.toSched) (hc : CondInv v s)
    (hop : op.name.notifies v = true) (hs : step s (.call op) = some s')
    (h : Notified v s.trace) : Notified v s'.trace := by
  obtain ⟨-, rfl⟩ := step_call hs
  have hu : (beginCall s op).trace = s.trace ++ [.call s.calls s.coCurrent op.name] :=
    beginCall_trace s op
  have hinvoke : Move s (.call op) [] (s.coCurrent, s) (s.coCurrent, beginCall s op) := .invoke rfl
  have hpend : pending v (s.trace ++ [.call s.calls s.coCurrent op.name]) =
      ((beginCall s op).queues (.cond v)).map fun c => ((beginCall s op).co c).call := by
    rw [← hu]
    exact (hc.same hi (hinvoke.footprint hi (by simp))).queue
  have hready : ∀ ws : List Nat, ∀ r : Ret, ∀ e ∈ ws.map Event.ready ++ [Event.ret s.calls r],
      e.unnotified v = true := by
    intro ws r e he
    rcases List.mem_append.mp he with he | he
    · obtain ⟨c, -, rfl⟩ := List.mem_map.mp he
      rfl
    · rw [List.mem_singleton.mp he]
      rfl
  have howes : ∀ e, owes v (s.trace ++ [.call s.calls s.coCurrent op.name]) = some e →
      e.isCall = false → ∀ (t : St) (ws : List Nat) (r : Ret),
      t.trace = (beginCall s op).trace ++ e :: ws.map .ready →
      Notified v (t.emit (.ret s.calls r)).trace := by
    intro e ho he t ws r ht
    have htr : (t.emit (.ret s.calls r)).trace = s.trace ++
        .call s.calls s.coCurrent op.name :: e :: (ws.map .ready ++ [.ret s.calls r]) := by
      simp [St.emit, ht, hu]
    rw [htr]
    exact h.notify ho he (hready ws r)
  cases op <;> simp only [Op.name, OpName.notifies, beq_iff_eq, reduceCtorEq] at hop
  case condSignal v' =>
    subst hop
    obtain ⟨ws, ht⟩ := coCondSignal_trace (beginCall s (.condSignal v')) v'
    refine howes _ ?_ rfl _ ws _ ht
    rw [← hpend]
    simp [owes, Op.name]
  case condBroadcast v' =>
    subst hop
    refine howes _ ?_ rfl _ _ _ (coCondBroadcast_trace _ v')
    rw [← hpend]
    simp [owes, Op.name]

theorem notified_step (hp : Placed run s) (hl : leaks s a = false) (hs : step s a = some s')
    (hcall : CallInv s) (hc : CondInv v s) (h : Notified v s.trace) : Notified v s'.trace := by
  cases hn : a.notifies v with
  | false => exact notified_other hp hl hs hcall hn h
  | true =>
    cases a <;> simp [Act.notifies] at hn
    case call op => exact notified_called (hp.current hs) hc hn hs h

/-! ## Returns -/

/-- Call `k` is a wait of `c` on `v` with mutex `m`. -/
def waitCall (h : List Event) (k c v m : Nat) : Prop :=
  .call k (some c) (.condWait v m) ∈ h ∨ .call k (some c) (.condTimedwait v m) ∈ h

/-- A wait that returns was ended in one of the two ways, its result says in which,
and its caller holds the mutex. -/
def returnLaw (past : List Event) (e : Event) : Prop :=
  ∀ v m c k r, e = .ret k r → waitCall past k c v m →
    .waits v m c k ∈ past ∧ holders m past = [some c] ∧
      ((endedBy v k past ∧ .expire v k ∉ past ∧ r = .code .ok) ∨
        (.expire v k ∈ past ∧ ¬ endedBy v k past ∧ r = .code .timeout))

theorem MutexInv.holder (h : MutexInv m s) (hi : Inv run (some c) s.toSched)
    (hm : s.mutexes m = ⟨true, some c⟩) : holders m s.trace = [some c] := by
  cases h.phase with
  | free hl _ _ _ _ =>
    rw [hm] at hl
    cases hl
  | held w hl hh _ _ =>
    rw [hm] at hl
    cases hl
    exact hh
  | handed d hl _ hw _ =>
    rw [hm] at hl
    cases hl
    have huser : (s.co c).frame = .user := (hi.user c).mpr rfl
    have hwait := ((hw c).mpr rfl).2
    rw [huser] at hwait
    cases hwait

theorem Frame.lockOf_of_condOf {f : Frame} (hf : f.condOf = some (v, m)) : f.lockOf = some m := by
  cases f <;> simp [Frame.condOf] at hf <;> simp [Frame.lockOf, hf]

theorem Frame.condOf_of_fits {f : Frame} {op : OpName}
    (hop : op = .condWait v m ∨ op = .condTimedwait v m) (hf : f.fits op = true) :
    f.condOf = some (v, m) := by
  rcases hop with rfl | rfl <;> cases f <;> simp [Frame.fits, Frame.condOf] at hf ⊢ <;> exact hf

/-- The call is a timed wait that is given no time. -/
def Act.waitsZero : Act → Bool
  | .call (.condTimedwait _ _ timeoutMs _ _) => timeoutMs == 0
  | _ => false

/-- A wait called by a coroutine does not return at once. -/
theorem runOp_wait {op : Op} {t : St} {r : Ret} (hcur : s.coCurrent = some c)
    (hop : op.name = .condWait v m ∨ op.name = .condTimedwait v m)
    (hal : (Act.call op).allocFails = false) (hz : (Act.call op).waitsZero = false) :
    runOp s k op ≠ .ret r t := by
  cases op <;> simp [Op.name] at hop
  case condWait v' m' =>
    obtain ⟨rfl, rfl⟩ := hop
    simp only [runOp, coCondWait, hcur]
    split <;> simp
  case condTimedwait v' m' timeoutMs now ok =>
    obtain ⟨rfl, rfl⟩ := hop
    have hok : ok = true := by simpa [Act.allocFails] using hal
    have hpos : timeoutMs ≠ 0 := by simpa [Act.waitsZero] using hz
    simp only [runOp, coCondTimedwait, hcur, hpos, if_false]
    split
    · rename_i hpush
      have := (coTimerHeapPush_none hpush).1
      rw [hok] at this
      cases this
    · split <;> simp

/-- A wait that returns. -/
theorem Returns.waitLaw {t : St} {r : Ret} (hr : Returns s a t k r)
    (hi₀ : Inv False s.coCurrent s.toSched) (hi : Inv False t.coCurrent t.toSched)
    (h₀ : CallInv s) (hext : Extends s t) (hcall : CallInv t) (hm : ∀ m, MutexInv m t)
    (hc : ∀ v, CondInv v s) (hal : a.allocFails = false) (hz : a.waitsZero = false) :
    returnLaw t.trace (.ret k r) := by
  rintro v m d k' r' hret hw
  cases hret
  have hcallOf : ∃ op, .call k (some d) op ∈ t.trace ∧
      (op = .condWait v m ∨ op = .condTimedwait v m) := by
    rcases hw with hw | hw
    · exact ⟨_, hw, .inl rfl⟩
    · exact ⟨_, hw, .inr rfl⟩
  obtain ⟨op', hw, hop'⟩ := hcallOf
  cases hr with
  | @call op r t hrun hmv hcur =>
    obtain ⟨hd, hname⟩ := hcall.unique _ _ _ _ _ (hmv.begun hi₀ h₀) hw
    have hcur : (beginCall s op).coCurrent = some d := by rw [beginCall_coCurrent, hd]
    exact absurd hrun (runOp_wait hcur (hname ▸ hop') hal hz)
  | @resumed c rest e r t hq hf hres hcur =>
    obtain ⟨hst, hsus, -⟩ := hi₀.ready_fields hq
    obtain ⟨op, hop, hfits⟩ := h₀.inside c (by simp [Routine.inCall, hsus, hf])
    obtain ⟨hd, hname⟩ := hcall.unique _ _ _ _ _ (hext.mem hop) hw
    obtain rfl : d = c := (Option.some.inj hd).symm
    have hcond := Frame.condOf_of_fits hop' (hname ▸ hfits)
    obtain ⟨hwaits, hsettled⟩ := (hc v).waiter d m hcond
    have hsettled : (s.co d).Settled v s.trace := by
      refine hsettled.resolve_left fun hw => ?_
      have := hw.1
      rw [hst] at this
      cases this
    obtain ⟨⟨x, htr, hx⟩, hmut, hres⟩ := resume_lockOf (Frame.lockOf_of_condOf hcond) rfl hres
    have htr : t.trace = (s.trace ++ [Event.dispatch d]) ++ [x] := htr
    have hto : ((switchTo { s with queues := Function.update s.queues .ready rest } d).co d).timedOut
        = (s.co d).timedOut := by
      simp [switchTo, St.modify, St.emit]
    rw [hto] at hres
    have hx' : x.obj ≠ some (.cond v) := by
      rcases hx with rfl | rfl <;> simp [Event.obj]
    have hdis : (Event.dispatch d).obj ≠ some (.cond v) := by simp [Event.obj]
    obtain ⟨-, hend1, -, hexp1⟩ := pending_other (h := s.trace ++ [Event.dispatch d]) hx'
    obtain ⟨-, hend2, -, hexp2⟩ := pending_other (h := s.trace) hdis
    refine ⟨hext.mem hwaits, (hm m).holder (hcur ▸ hi) hmut, ?_⟩
    rw [htr, hend1, hexp1, hend2, hexp2]
    rcases hsettled with ⟨hend, hclear⟩ | ⟨hexp, htimed, hout⟩
    · refine .inl ⟨hend, ((hc v).hist.ended _ hend).2, ?_⟩
      cases htc : (s.co d).frame.timedCond with
      | false => simpa [htc] using hres
      | true => simpa [htc, hclear htc] using hres
    · refine .inr ⟨hexp, fun hend => ((hc v).hist.ended _ hend).2 hexp, ?_⟩
      simpa [htimed, hout] using hres

/-! ## Runs -/

theorem condInv_init (cfg : Config) : CondInv v (init cfg) := by
  refine ⟨⟨?_, ?_, ?_, ?_, lawful_nil _⟩, ?_, ?_⟩ <;>
    simp [init, PendingExact, pending, begunOn, endedBy, Routine.zero, Frame.condOf]

theorem CondInv.ret {r : Ret} (h : CondInv v s) : CondInv v (s.emit (.ret k r)) := by
  have hobj : (Event.ret k r).obj ≠ some (.cond v) := by simp [Event.obj]
  refine ⟨h.hist.other hobj, (pending_other hobj).1.trans h.queue, fun c m hf => ?_⟩
  obtain ⟨hw, hs⟩ := h.waiter c m hf
  exact ⟨List.mem_append_left _ hw, hs.imp id fun hs =>
    hs.mono (fun e he => List.mem_append_left _ he) rfl rfl rfl⟩

/-- As in `plain`, and timed waits are given time. -/
def plainWaits (s : St) (a : Act) : Bool := plain s a && !a.waitsZero

/-- States of the runs the results on condition variables are about. -/
def PlainWaits (cfg : Config) : St → Prop :=
  Reach step (fun s a => plainWaits s a = true) (init cfg)

theorem PlainWaits.inv {cfg : Config} (h : PlainWaits cfg s) :
    Plain cfg s ∧ CallInv s ∧ (∀ v, CondInv v s) ∧ (∀ v, Notified v s.trace) ∧
      Lawful returnLaw s.trace := by
  refine h.invariant
    (P := fun s => Plain cfg s ∧ CallInv s ∧ (∀ v, CondInv v s) ∧ (∀ v, Notified v s.trace) ∧
      Lawful returnLaw s.trace)
    ⟨.init, callInv_init cfg, fun _ => condInv_init cfg, fun _ => ⟨lawful_nil _, rfl⟩,
      lawful_nil _⟩ ?_
  rintro s a s' ⟨hpl, hcall, hc, hnot, hlaw⟩ hg hs
  simp only [plainWaits, Bool.and_eq_true, Bool.not_eq_true'] at hg
  obtain ⟨hp, hn, hm, -⟩ := hpl.inv
  obtain ⟨hio, hal, hd⟩ := plain_split hg.1
  have hi₀ : Inv False s.coCurrent s.toSched := (hp.current hs).mono fun h => h.elim
  have hquiet : ∀ e past, (∀ k r, e ≠ .ret k r) → returnLaw past e :=
    fun e past he v m c k r hr => absurd hr (he k r)
  have hstep : CallInv s' ∧ (∀ v, CondInv v s') ∧ Lawful returnLaw s'.trace := by
    refine hcall.step_rule (K := fun t => (∀ m, MutexInv m t) ∧ ∀ v, CondInv v t)
      (J := fun t => CallInv t ∧ (∀ v, CondInv v t) ∧ Lawful returnLaw t.trace) hp
      (hn.leaks hio) hs ⟨hm, hc⟩ ?_ ?_ ?_
    · rintro os p p' hmv hi hcp - ⟨hmp, hvp⟩
      exact ⟨fun m => hmv.mutexInv (disciplinedAt hd m) (hm m) hi (hmp m), fun v =>
        hmv.condInv hi₀ hi hcall hcp (hvp v)⟩
    · rintro t hct hext ⟨-, hvt⟩
      exact ⟨hct, hvt, hext.lawful hlaw hquiet⟩
    · rintro t k r hi hct hext ⟨hmt, hvt⟩ hr hcr
      refine ⟨hcr, fun v => (hvt v).ret, lawful_snoc.mpr ⟨hext.lawful hlaw hquiet, ?_⟩⟩
      exact hr.waitLaw hi₀ hi hcall hext hct hmt hc hal hg.2
  obtain ⟨h1, h2, h3⟩ := hstep
  exact ⟨hpl.next a hg.1 hs, h1, h2, fun v =>
    notified_step hp (hn.leaks hio) hs hcall (hc v) (hnot v), h3⟩

/-- A wait that has not returned is pending, or its coroutine is on its way back. -/
theorem CondInv.woken (h : CondInv v s) (hp : Placed run s)
    (hf : (s.co c).frame.condOf = some (v, m)) (hk : (s.co c).call ∉ pending v s.trace) :
    c ∈ s.queues .ready ∨ c ∈ s.queues (.mutex m) := by
  obtain ⟨cur, hi, -⟩ := hp
  have hsus : (s.co c).frame.suspended = true := by
    cases hfr : (s.co c).frame <;> simp [hfr, Frame.condOf] at hf <;> rfl
  rcases (hi.seated c).state hsus with hst | ⟨hst, -⟩
  · exact .inl (hi.mem_of_home (by simp [Routine.home, hsus, hst]))
  · have hhome : (s.co c).home = (s.co c).frame.waitQueue := by simp [Routine.home, hsus, hst]
    have hq : (s.co c).frame.waitQueue = some (.mutex m) ∨
        (s.co c).frame.waitQueue = some (.cond v) := by
      cases hfr : (s.co c).frame <;> simp [hfr, Frame.condOf] at hf <;>
        simp [Frame.waitQueue, hf]
    rcases hq with hq | hq
    · exact .inr (hi.mem_of_home (hhome.trans hq))
    · refine absurd ?_ hk
      rw [h.queue]
      exact List.mem_map_of_mem (hi.mem_of_home (hhome.trans hq))

/-- What a condition variable is for. -/
structure CondSound (v : Nat) (s : St) : Prop where
  /-- a wait is pending if it has begun and was neither signalled nor timed out -/
  pendingExact : PendingExact v s.trace
  /-- the queue holds the waits that are pending -/
  queued : (s.queues (.cond v)).map (fun c => (s.co c).call) = pending v s.trace
  /-- each call to signal or to broadcast ends waits at once, and nothing else but their
  deadlines ends them -/
  notified : Notified v s.trace
  /-- a signal ends the longest pending wait, a broadcast all of them, the timer
  phase only pending ones -/
  wakes : Lawful (wakeLaw v) s.trace
  /-- a wait that was signalled did not time out -/
  consumed : ∀ k, endedBy v k s.trace → .expire v k ∉ s.trace
  /-- a wait that ended and has not returned is ready, or queued at its mutex -/
  woken : ∀ c m, (s.co c).frame.condOf = some (v, m) → (s.co c).call ∉ pending v s.trace →
    c ∈ s.queues .ready ∨ c ∈ s.queues (.mutex m)

/-- **Signals are neither lost nor counted twice.** -/
theorem signals_exact {cfg : Config} (h : PlainWaits cfg s) :
    (∀ v, CondSound v s) ∧ Lawful returnLaw s.trace := by
  obtain ⟨hpl, -, hc, hnot, hlaw⟩ := h.inv
  refine ⟨fun v => ⟨(hc v).hist.mem_iff, (hc v).queue.symm, hnot v, (hc v).hist.law, ?_, ?_⟩, hlaw⟩
  · exact fun k hk => ((hc v).hist.ended k hk).2
  · exact fun c m hf hk => (hc v).woken hpl.inv.1 hf hk

/-- Two timed waits, one signal, and both deadlines over before anyone is dispatched. -/
def signalRun : List Act :=
  let late := [Act.timers 10, .schedule ⟨.done 0⟩]
  [spawnOk, spawnOk, spawnOk, .run] ++
    turn ++ [Act.call (.mutexLock 0), .call (.condTimedwait 0 0 5 0 true)] ++
    turn ++ [Act.call (.mutexLock 0), .call (.condTimedwait 0 0 5 0 true)] ++
    turn ++ [Act.call (.condSignal 0), .call .yieldNow] ++
    late ++ [Act.call (.mutexUnlock 0), .finish] ++ late ++ [Act.finish] ++ late

theorem signals_exact_late :
    ∃ s, runGuarded step plainWaits (init (byteConfig 0)) signalRun = some s ∧
      .ret 1 (.code .ok) ∈ s.trace ∧ .ret 3 (.code .timeout) ∈ s.trace ∧
      (∀ v, CondSound v s) ∧ Lawful returnLaw s.trace := by
  have hrun : (runGuarded step plainWaits (init (byteConfig 0)) signalRun).map
      (fun s => (decide (.ret 1 (.code .ok) ∈ s.trace), decide (.ret 3 (.code .timeout) ∈ s.trace)))
        = some (true, true) := by
    decide +kernel
  obtain ⟨s, hs, he⟩ := Option.map_eq_some_iff.mp hrun
  simp only [Prod.mk.injEq, decide_eq_true_eq] at he
  exact ⟨s, hs, he.1, he.2, signals_exact (reach_of_runGuarded hs)⟩

end Libco
