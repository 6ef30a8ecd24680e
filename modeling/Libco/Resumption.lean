import Libco.Conditions

/-!
# Waits return in the order in which they ended

A condition wait that was signalled or timed out is dispatched, re-locks its mutex and
returns. Between its end and its return it is in the ready queue, then perhaps in the
queue of the mutex, then in the ready queue again. Waits that share a mutex do not
overtake one another there, whichever condition variables they waited for and in
whichever way they ended: `Lineup.InOrder`.
-/

namespace Libco
open Lib

variable {run : Prop} {cur : Option Nat} {s s' s₀ : St} {a : Act} {c k m v : Nat}
  {h es : List Event} {p : Frame → Bool} {co co' : Nat → Routine} {l : List Nat}

/-! ## The history of the waits with a mutex -/

/-- The waits an event ends. -/
def Event.ended : Event → List Nat
  | .signal _ ks | .broadcast _ ks => ks
  | .expire _ k => [k]
  | _ => []

/-- The call that returns. -/
def Event.returned : Event → List Nat
  | .ret k _ => [k]
  | _ => []

/-- The call is a wait with mutex `m`. -/
def Event.isWait (m k : Nat) : Event → Bool
  | .call k' (some _) (.condWait _ m') | .call k' (some _) (.condTimedwait _ m') =>
    k' == k && m' == m
  | _ => false

/-- Call `k` is a wait of a coroutine with mutex `m`. -/
def waitsWith (m : Nat) (h : List Event) (k : Nat) : Bool := h.any (Event.isWait m k)

/-- The waits with mutex `m` that were signalled or timed out, in this order. -/
def endedSeq (m : Nat) (h : List Event) : List Nat :=
  (h.flatMap Event.ended).filter (waitsWith m h)

/-- Those that returned, in this order. -/
def returnedSeq (m : Nat) (h : List Event) : List Nat :=
  (h.flatMap Event.returned).filter (waitsWith m h)

/-- Neither begins, ends nor returns from a call. -/
def Event.silent : Event → Bool
  | .call _ _ _ | .ret _ _ | .signal _ _ | .broadcast _ _ | .expire _ _ => false
  | _ => true

theorem waitsWith_append (hes : ∀ e ∈ es, e.isWait m k = false) :
    waitsWith m (h ++ es) k = waitsWith m h k := by
  have : es.any (Event.isWait m k) = false := by
    simpa [List.any_eq_false] using hes
  simp [waitsWith, this]

/-- Events that are no calls add what they end and what returns. -/
theorem seqs_append (hes : ∀ e ∈ es, ∀ k, e.isWait m k = false) :
    endedSeq m (h ++ es) = endedSeq m h ++ (es.flatMap Event.ended).filter (waitsWith m h) ∧
      returnedSeq m (h ++ es) =
        returnedSeq m h ++ (es.flatMap Event.returned).filter (waitsWith m h) := by
  have hw : waitsWith m (h ++ es) = waitsWith m h :=
    funext fun k => waitsWith_append fun e he => hes e he k
  simp only [endedSeq, returnedSeq, hw, List.flatMap_append, List.filter_append, and_self]

theorem Event.silent_spec {e : Event} (he : e.silent = true) :
    e.ended = [] ∧ e.returned = [] ∧ ∀ m k, e.isWait m k = false := by
  cases e <;> simp [Event.silent] at he <;> exact ⟨rfl, rfl, fun _ _ => rfl⟩

theorem seqs_silent (he : ∀ e ∈ es, e.silent = true) :
    endedSeq m (h ++ es) = endedSeq m h ∧ returnedSeq m (h ++ es) = returnedSeq m h := by
  have hadd := seqs_append (h := h) fun e hm k => (Event.silent_spec (he e hm)).2.2 m k
  have hended : es.flatMap Event.ended = [] :=
    List.flatMap_eq_nil_iff.mpr fun e hm => (Event.silent_spec (he e hm)).1
  have hreturned : es.flatMap Event.returned = [] :=
    List.flatMap_eq_nil_iff.mpr fun e hm => (Event.silent_spec (he e hm)).2.1
  rw [hadd.1, hadd.2, hended, hreturned]
  simp

/-! ## The calls of the coroutines in a queue -/

/-- The calls of those coroutines of `l` whose frame meets `p`. -/
def callsOf (p : Frame → Bool) (co : Nat → Routine) (l : List Nat) : List Nat :=
  (l.filter fun c => p (co c).frame).map fun c => (co c).call

theorem callsOf_append (l l' : List Nat) :
    callsOf p co (l ++ l') = callsOf p co l ++ callsOf p co l' := by
  simp [callsOf]

theorem callsOf_cons (c : Nat) (l : List Nat) : callsOf p co (c :: l) =
    (if p (co c).frame then [(co c).call] else []) ++ callsOf p co l := by
  unfold callsOf
  cases hp : p (co c).frame <;> simp [hp]

theorem callsOf_none (hl : ∀ c ∈ l, p (co c).frame = false) : callsOf p co l = [] := by
  induction l with
  | nil => rfl
  | cons c l ih =>
    rw [callsOf_cons, hl c (by simp), ih fun d hd => hl d (by simp [hd])]
    rfl

theorem callsOf_congr (hl : ∀ c ∈ l, (co' c).frame = (co c).frame ∧ (co' c).call = (co c).call) :
    callsOf p co' l = callsOf p co l := by
  induction l with
  | nil => rfl
  | cons c l ih =>
    obtain ⟨hf, hc⟩ := hl c (by simp)
    rw [callsOf_cons, callsOf_cons, hf, hc, ih fun d hd => hl d (by simp [hd])]

theorem callsOf_update {r : Routine} (hc : c ∉ l) :
    callsOf p (Function.update co c r) l = callsOf p co l := by
  refine callsOf_congr fun d hd => ?_
  have hdc : d ≠ c := fun he => hc (he ▸ hd)
  simp [hdc]

/-! ## Where the ended waits are -/

/-- A wait with mutex `m` that was dispatched and suspended again to re-lock it. -/
def Frame.relocks (m : Nat) : Frame → Bool
  | .condRelock _ m' | .timedRelock _ m' => m' == m
  | _ => false

/-- A wait with mutex `m` that has not been dispatched. -/
def Frame.undispatched (m : Nat) : Frame → Bool
  | .condWait _ m' | .timedWait _ m' => m' == m
  | _ => false

/-- The ended waits with a mutex: all of them, those that returned, those that re-lock
the mutex (the one it was handed to, then those in its queue) and those that are ready
and were not dispatched since. -/
structure Lineup where
  ended : List Nat
  returned : List Nat
  relocking : List Nat
  undispatched : List Nat

def lineup (m : Nat) (s : St) : Lineup where
  ended := endedSeq m s.trace
  returned := returnedSeq m s.trace
  relocking := callsOf (Frame.relocks m) s.co (s.queues .ready ++ s.queues (.mutex m))
  undispatched := callsOf (Frame.undispatched m) s.co (s.queues .ready)

def Lineup.InOrder (f : Lineup) : Prop := f.ended = f.returned ++ f.relocking ++ f.undispatched

/-- The waits `ks` end. -/
def Lineup.add (f : Lineup) (ks : List Nat) : Lineup :=
  { f with ended := f.ended ++ ks, undispatched := f.undispatched ++ ks }

theorem Lineup.InOrder.add {f : Lineup} (h : f.InOrder) (ks : List Nat) : (f.add ks).InOrder := by
  simp only [Lineup.InOrder, Lineup.add] at h ⊢
  rw [h]
  simp

/-- The ready queue grows by `new`, and the queue of the mutex by `old`, of which no
re-locking wait is one; nobody else in them changes. -/
theorem lineup_grow (new old : List Nat) (hr : s'.queues .ready = s.queues .ready ++ new)
    (hm : s'.queues (.mutex m) = s.queues (.mutex m) ++ old)
    (hco : ∀ d, d ∈ s.queues .ready ∨ d ∈ s.queues (.mutex m) →
      (s'.co d).frame = (s.co d).frame ∧ (s'.co d).call = (s.co d).call)
    (hnew : ∀ d ∈ new, (s'.co d).frame.relocks m = false)
    (hold : ∀ d ∈ old, (s'.co d).frame.relocks m = false) :
    (lineup m s').relocking = (lineup m s).relocking ∧
      (lineup m s').undispatched =
        (lineup m s).undispatched ++ callsOf (Frame.undispatched m) s'.co new := by
  have hready : ∀ p : Frame → Bool, callsOf p s'.co (s.queues .ready) =
      callsOf p s.co (s.queues .ready) := fun p =>
    callsOf_congr fun d hd => hco d (.inl hd)
  have hmutex : callsOf (Frame.relocks m) s'.co (s.queues (.mutex m)) =
      callsOf (Frame.relocks m) s.co (s.queues (.mutex m)) :=
    callsOf_congr fun d hd => hco d (.inr hd)
  constructor
  · simp only [lineup, hr, hm, callsOf_append, hready, hmutex, callsOf_none hnew, callsOf_none hold,
      List.append_nil]
  · simp only [lineup, hr, callsOf_append, hready]

theorem lineup_eq (htr : s'.trace = s.trace ++ es) (hes : ∀ e ∈ es, e.silent = true)
    (hrel : (lineup m s').relocking = (lineup m s).relocking)
    (hun : (lineup m s').undispatched = (lineup m s).undispatched) : lineup m s' = lineup m s := by
  obtain ⟨hend, hret⟩ := seqs_silent (m := m) (h := s.trace) hes
  have he : (lineup m s').ended = (lineup m s).ended := by simp only [lineup, htr, hend]
  have hr : (lineup m s').returned = (lineup m s).returned := by simp only [lineup, htr, hret]
  cases hf : lineup m s'
  cases hg : lineup m s
  rw [hf, hg] at he hr hrel hun
  simp only at he hr hrel hun
  rw [he, hr, hrel, hun]

/-- Nothing about the waits with the mutex happens. -/
theorem lineup_quiet (new old : List Nat) (htr : s'.trace = s.trace ++ es)
    (hes : ∀ e ∈ es, e.silent = true) (hr : s'.queues .ready = s.queues .ready ++ new)
    (hm : s'.queues (.mutex m) = s.queues (.mutex m) ++ old)
    (hco : ∀ d, d ∈ s.queues .ready ∨ d ∈ s.queues (.mutex m) →
      (s'.co d).frame = (s.co d).frame ∧ (s'.co d).call = (s.co d).call)
    (hnew : ∀ d ∈ new, (s'.co d).frame.condOf = none)
    (hold : ∀ d ∈ old, (s'.co d).frame.condOf = none) : lineup m s' = lineup m s := by
  have hrel : ∀ f : Frame, f.condOf = none → f.relocks m = false ∧ f.undispatched m = false := by
    intro f hf
    cases f <;> simp [Frame.condOf] at hf <;> exact ⟨rfl, rfl⟩
  obtain ⟨h1, h2⟩ := lineup_grow new old hr hm hco (fun d hd => (hrel _ (hnew d hd)).1)
    fun d hd => (hrel _ (hold d hd)).1
  refine lineup_eq htr hes h1 (h2.trans ?_)
  rw [callsOf_none fun d hd => (hrel _ (hnew d hd)).2, List.append_nil]

theorem lineup_rest (htr : s'.trace = s.trace ++ es) (hes : ∀ e ∈ es, e.silent = true)
    (hq : s'.queues = s.queues) (hco : s'.co = s.co) : lineup m s' = lineup m s :=
  lineup_quiet [] [] htr hes (by simp [hq]) (by simp [hq])
    (fun d _ => by simp [hco]) (by simp) (by simp)

/-- The record of a coroutine in neither queue changes. -/
theorem lineup_record {r : Routine} (htr : s'.trace = s.trace ++ es)
    (hes : ∀ e ∈ es, e.silent = true) (hco : s'.co = Function.update s.co c r)
    (hq : s'.queues = s.queues) (hout : ∀ q, c ∉ s.queues q) : lineup m s' = lineup m s := by
  refine lineup_quiet [] [] htr hes (by simp [hq]) (by simp [hq]) (fun d hd => ?_)
    (by simp) (by simp)
  have hdc : d ≠ c := by
    rintro rfl
    exact hd.elim (hout _) (hout _)
  simp [hco, hdc]

/-! ## Calls and the waits they are -/

theorem CallInv.ended_lt (hcall : CallInv s) (hc : ∀ v, CondInv v s)
    (hk : k ∈ s.trace.flatMap Event.ended) : k < s.calls := by
  have hbegun : ∀ v, begunOn v k s.trace → k < s.calls := by
    rintro v ⟨m, c, hw⟩
    obtain ⟨w, op, hop, -⟩ := hcall.attributed _ hw _ _ rfl
    exact hcall.call_lt k w op hop
  obtain ⟨e, he, hke⟩ := List.mem_flatMap.mp hk
  cases e <;> simp [Event.ended] at hke
  case signal v ks => exact hbegun v ((hc v).hist.ended k ⟨ks, hke, .inl he⟩).1
  case broadcast v ks => exact hbegun v ((hc v).hist.ended k ⟨ks, hke, .inr he⟩).1
  case expire v k' =>
    subst hke
    exact hbegun v ((hc v).hist.expired k he)

theorem CallInv.returned_lt (hcall : CallInv s) (hk : k ∈ s.trace.flatMap Event.returned) :
    k < s.calls := by
  obtain ⟨e, he, hke⟩ := List.mem_flatMap.mp hk
  cases e <;> simp [Event.returned] at hke
  subst hke
  exact hcall.ret_lt he

/-- A new call is none of the waits that ended or returned. -/
theorem seqs_call (w : Option Nat) (op : OpName) (hcall : CallInv s) (hc : ∀ v, CondInv v s) :
    endedSeq m (s.trace ++ [.call s.calls w op]) = endedSeq m s.trace ∧
      returnedSeq m (s.trace ++ [.call s.calls w op]) = returnedSeq m s.trace := by
  have hold : ∀ k, k < s.calls →
      waitsWith m (s.trace ++ [.call s.calls w op]) k = waitsWith m s.trace k := by
    intro k hk
    refine waitsWith_append fun e he => ?_
    rw [List.mem_singleton] at he
    subst he
    have hne : (s.calls == k) = false := beq_eq_false_iff_ne.mpr (by omega)
    unfold Event.isWait
    split
    · rename_i heq
      cases heq
      simp [hne]
    · rename_i heq
      cases heq
      simp [hne]
    · rfl
  simp only [endedSeq, returnedSeq, List.flatMap_append, List.flatMap_singleton, Event.ended,
    Event.returned, List.append_nil]
  exact ⟨List.filter_congr fun k hk => hold k (hcall.ended_lt hc hk),
    List.filter_congr fun k hk => hold k (hcall.returned_lt hk)⟩

theorem waitsWith_iff : waitsWith m h k = true ↔
    ∃ c op, .call k (some c) op ∈ h ∧ ∃ v, op = .condWait v m ∨ op = .condTimedwait v m := by
  simp only [waitsWith, List.any_eq_true]
  constructor
  · rintro ⟨e, he, hw⟩
    unfold Event.isWait at hw
    split at hw
    · rename_i k' c v m'
      simp only [Bool.and_eq_true, beq_iff_eq] at hw
      obtain ⟨rfl, rfl⟩ := hw
      exact ⟨c, _, he, v, .inl rfl⟩
    · rename_i k' c v m'
      simp only [Bool.and_eq_true, beq_iff_eq] at hw
      obtain ⟨rfl, rfl⟩ := hw
      exact ⟨c, _, he, v, .inr rfl⟩
    · cases hw
  · rintro ⟨c, op, he, v, rfl | rfl⟩
    · exact ⟨_, he, by simp [Event.isWait]⟩
    · exact ⟨_, he, by simp [Event.isWait]⟩

/-- The call a coroutine is suspended in is a wait with the mutex of its frame. -/
theorem CallInv.waitsWith_call (hcall : CallInv s) (hin : (s.co c).inCall = true) :
    waitsWith m s.trace (s.co c).call = true ↔ ∃ v, (s.co c).frame.condOf = some (v, m) := by
  obtain ⟨op, hop, hfits⟩ := hcall.inside c hin
  rw [waitsWith_iff]
  constructor
  · rintro ⟨d, op', hop', v, hv⟩
    obtain ⟨-, rfl⟩ := hcall.unique _ _ _ _ _ hop hop'
    exact ⟨v, Frame.condOf_of_fits hv hfits⟩
  · rintro ⟨v, hv⟩
    refine ⟨c, op, hop, v, ?_⟩
    cases hf : (s.co c).frame <;> simp [hf, Frame.condOf] at hv <;>
      cases op <;> simp [hf, Frame.fits] at hfits <;> simp [← hfits, hv]

/-- A member of the queue of a condition variable. -/
theorem Inv.waiter_frame (hi : Inv run cur s.toSched) (hm : c ∈ s.queues (.cond v)) :
    (s.co c).inCall = true ∧ (∀ m, (s.co c).frame.relocks m = false) ∧
      ∀ m, (s.co c).frame.undispatched m = true ↔ ∃ v, (s.co c).frame.condOf = some (v, m) := by
  have hw := (hi.cond_member hm).2.1
  cases hf : (s.co c).frame <;> simp [hf, Frame.waitQueue] at hw <;>
    simp [hf, Routine.inCall, Frame.suspended, Frame.relocks, Frame.undispatched, Frame.condOf]

/-- The ended waits with the mutex, by their calls and by their frames. -/
theorem CallInv.waits_filter (hcall : CallInv s) (hi : Inv run cur s.toSched)
    (hl : ∀ c ∈ l, c ∈ s.queues (.cond v)) :
    (l.map fun c => (s.co c).call).filter (waitsWith m s.trace) =
      callsOf (Frame.undispatched m) s.co l := by
  induction l with
  | nil => rfl
  | cons c l ih =>
    obtain ⟨hin, -, hun⟩ := hi.waiter_frame (hl c (by simp))
    have hiff : waitsWith m s.trace (s.co c).call = (s.co c).frame.undispatched m := by
      rw [Bool.eq_iff_iff, hun m]
      exact hcall.waitsWith_call hin
    rw [callsOf_cons, List.map_cons, List.filter_cons, hiff,
      ih fun d hd => hl d (by simp [hd])]
    split <;> rfl

/-! ## Moves -/

theorem Lineup.add_nil (f : Lineup) : f.add [] = f := by
  simp [Lineup.add]

theorem neutral_silent {e : Event} (he : e.neutral = true) : e.silent = true := by
  cases e <;> simp [Event.neutral] at he <;> rfl

theorem blockEvents_silent (s : St) (c : Nat) (r : Routine) :
    ∀ e ∈ blockEvents s c r, e.silent = true := by
  unfold blockEvents
  split <;> simp [Event.silent]

theorem dispatchEvents_silent (f : Frame) : ∀ e ∈ dispatchEvents c f, e.silent = true := by
  unfold dispatchEvents
  split <;> simp [Event.silent]

theorem map_ready_silent (ws : List Nat) : ∀ e ∈ ws.map Event.ready, e.silent = true := by
  intro e he
  obtain ⟨c, -, rfl⟩ := List.mem_map.mp he
  rfl

/-- Coroutines leave the queue of a channel. -/
theorem lineup_wakeAll {q : QueueRef} {ws rest : List Nat} {t : St} (hi : Inv run cur s.toSched)
    (hws : ∀ c ∈ ws, c ∈ s.queues q) (hq : (∃ h, q = .send h) ∨ ∃ h, q = .recv h)
    (hqs : t.queues = s.queues)
    (hco : ∀ c, (t.co c).frame = (s.co c).frame ∧ (t.co c).call = (s.co c).call)
    (htr : t.trace = s.trace ++ es) (hes : ∀ e ∈ es, e.silent = true) :
    lineup m (wakeAll t q ws rest .wake) = lineup m s := by
  have hne : q ≠ .ready ∧ q ≠ .mutex m := by
    obtain ⟨h, rfl⟩ | ⟨h, rfl⟩ := hq <;> simp
  have hrec : ∀ d, ((wakeAll t q ws rest .wake).co d).frame = (s.co d).frame ∧
      ((wakeAll t q ws rest .wake).co d).call = (s.co d).call := by
    intro d
    simp only [wakeAll]
    split
    · exact hco d
    · exact hco d
  have htr' : (wakeAll t q ws rest .wake).trace = s.trace ++ (es ++ ws.map Event.ready) := by
    simp [wakeAll, htr]
  refine lineup_quiet ws [] htr' ?_ ?_ ?_ (fun d _ => hrec d) (fun d hd => ?_) (by simp)
  · intro e he
    rcases List.mem_append.mp he with he | he
    · exact hes e he
    · exact map_ready_silent ws e he
  · simp [wakeAll, hqs]
  · simp [wakeAll, hqs, hne.2.symm]
  · rw [(hrec d).1]
    have hw := (Routine.home_wait (hi.mem_queue (hws d hd)) hne.1).2
    obtain ⟨h, rfl⟩ | ⟨h, rfl⟩ := hq <;>
      cases hf : (s.co d).frame <;> simp [hf, Frame.waitQueue] at hw <;> rfl

/-- The front of the queue of a mutex is handed the mutex. -/
theorem lineup_handoff {m' : Nat} {rest : List Nat} {t : St} (hqs : t.queues = s.queues)
    (hco : t.co = s.co) (htr : t.trace = s.trace ++ es) (hes : ∀ e ∈ es, e.silent = true)
    (hq : s.queues (.mutex m') = c :: rest) (hi : Inv run cur s.toSched) :
    lineup m (wakeAll t (.mutex m') [c] rest .wake) = lineup m s := by
  have hrec : ∀ d, ((wakeAll t (.mutex m') [c] rest .wake).co d).frame = (s.co d).frame ∧
      ((wakeAll t (.mutex m') [c] rest .wake).co d).call = (s.co d).call := by
    intro d
    simp only [wakeAll, hco]
    split <;> exact ⟨rfl, rfl⟩
  have hw := (Routine.home_wait (hi.mem_queue (c := c) (by rw [hq]; simp)) (by simp)).2
  have hun : (s.co c).frame.undispatched m = false := by
    cases hf : (s.co c).frame <;> simp [hf, Frame.waitQueue] at hw <;> rfl
  have htr' : (wakeAll t (.mutex m') [c] rest .wake).trace =
      s.trace ++ (es ++ [Event.ready c]) := by
    simp [wakeAll, htr]
  refine lineup_eq htr' ?_ ?_ ?_
  · intro e he
    rcases List.mem_append.mp he with he | he
    · exact hes e he
    · exact map_ready_silent [c] e he
  · simp only [lineup]
    rw [callsOf_congr fun d _ => hrec d]
    by_cases hm : m' = m
    · subst hm
      simp [wakeAll, hqs, hq]
    · have hrel : (s.co c).frame.relocks m = false := by
        cases hf : (s.co c).frame <;> simp [hf, Frame.waitQueue] at hw <;> simp [Frame.relocks] <;>
          rw [hw] <;> exact hm
      have hne : (QueueRef.mutex m) ≠ .mutex m' := by simpa using fun he => hm he.symm
      simp [wakeAll, hqs, hne, callsOf_append, callsOf_cons, hrel]
  · simp only [lineup]
    rw [callsOf_congr fun d _ => hrec d]
    simp [wakeAll, hqs, callsOf_append, callsOf_cons, hun]
    rfl

/-- Waits are signalled. -/
theorem lineup_notify {ws rest : List Nat} {e : Event} (hcall : CallInv s)
    (hi : Inv run cur s.toSched) (hq : s.queues (.cond v) = ws ++ rest)
    (he : e = .signal v (ws.map fun c => (s.co c).call) ∨
      e = .broadcast v (ws.map fun c => (s.co c).call)) :
    lineup m (wakeAll (s.emit e) (.cond v) ws rest .wakeCond) =
      (lineup m s).add (callsOf (Frame.undispatched m) s.co ws) := by
  have hws : ∀ c ∈ ws, c ∈ s.queues (.cond v) := fun c hc => by
    rw [hq]
    exact List.mem_append_left _ hc
  have hrec : ∀ d, ((wakeAll (s.emit e) (.cond v) ws rest .wakeCond).co d).frame =
      (s.co d).frame ∧ ((wakeAll (s.emit e) (.cond v) ws rest .wakeCond).co d).call =
      (s.co d).call := by
    intro d
    simp only [wakeAll, St.emit]
    split <;> exact ⟨rfl, rfl⟩
  have hready : (wakeAll (s.emit e) (.cond v) ws rest .wakeCond).queues .ready =
      s.queues .ready ++ ws := by
    simp [wakeAll, St.emit]
  have hmutex : (wakeAll (s.emit e) (.cond v) ws rest .wakeCond).queues (.mutex m) =
      s.queues (.mutex m) ++ [] := by
    simp [wakeAll, St.emit]
  obtain ⟨hrel, hun⟩ := lineup_grow ws [] hready hmutex (fun d _ => hrec d)
    (fun d hd => by rw [(hrec d).1]; exact (hi.waiter_frame (hws d hd)).2.1 m) (by simp)
  have htr : (wakeAll (s.emit e) (.cond v) ws rest .wakeCond).trace =
      s.trace ++ (e :: ws.map Event.ready) := by
    simp [wakeAll, St.emit]
  have hnowait : ∀ x ∈ e :: ws.map Event.ready, ∀ k, x.isWait m k = false := by
    intro x hx k
    rcases List.mem_cons.mp hx with rfl | hx
    · rcases he with rfl | rfl <;> rfl
    · exact (Event.silent_spec (map_ready_silent ws x hx)).2.2 m k
  have hended : (e :: ws.map Event.ready).flatMap Event.ended = ws.map fun c => (s.co c).call := by
    have hnil : (ws.map Event.ready).flatMap Event.ended = [] :=
      List.flatMap_eq_nil_iff.mpr fun x hx => (Event.silent_spec (map_ready_silent ws x hx)).1
    rw [List.flatMap_cons, hnil, List.append_nil]
    rcases he with rfl | rfl <;> rfl
  have hreturned : (e :: ws.map Event.ready).flatMap Event.returned = [] := by
    have hnil : (ws.map Event.ready).flatMap Event.returned = [] :=
      List.flatMap_eq_nil_iff.mpr fun x hx => (Event.silent_spec (map_ready_silent ws x hx)).2.1
    rw [List.flatMap_cons, hnil, List.append_nil]
    rcases he with rfl | rfl <;> rfl
  obtain ⟨hend, hret⟩ := seqs_append (h := s.trace) hnowait
  rw [hended, hcall.waits_filter hi hws] at hend
  rw [hreturned, List.filter_nil, List.append_nil] at hret
  rw [callsOf_congr fun d _ => hrec d] at hun
  simp only [lineup, Lineup.add, Lineup.mk.injEq] at hrel hun ⊢
  rw [htr]
  exact ⟨hend, hret, hrel, hun⟩

/-- A deadline is processed. -/
theorem lineup_expire (hcall : CallInv s) (hi : Inv run cur s.toSched) (he : Expires s s' c)
    (hn : NoIo s) : ∃ ks, lineup m s' = (lineup m s).add ks := by
  have hrec : ∀ d, (s'.co d).frame = (s.co d).frame ∧ (s'.co d).call = (s.co d).call := by
    intro d
    by_cases hd : d = c
    · subst hd
      simp [he.co]
    · simp [he.co, hd]
  have hready : s'.queues .ready = s.queues .ready ++ [c] := by simp [he.queues]
  have hmutex : (s.co c).frame.waitQueue ≠ some (.mutex m) := by
    have ht := he.timed
    have hio := hn c
    cases hf : (s.co c).frame <;> simp [hf, Frame.timed, Frame.waitQueue, Frame.isIo] at ht hio ⊢
  have hqm : s'.queues (.mutex m) = s.queues (.mutex m) ++ [] := by
    rw [he.queues]
    cases hw : (s.co c).frame.waitQueue with
    | none => simp
    | some q =>
      have hne : (QueueRef.mutex m) ≠ q := fun h => hmutex (by rw [hw, h])
      simp [hne]
  have hrel : (s.co c).frame.relocks m = false := by
    have ht := he.timed
    cases hf : (s.co c).frame <;> simp [hf, Frame.timed] at ht <;> rfl
  obtain ⟨h1, h2⟩ := lineup_grow [c] [] hready hqm (fun d _ => hrec d)
    (fun d hd => by
      rw [List.mem_singleton] at hd
      subst hd
      rw [(hrec d).1]
      exact hrel) (by simp)
  rw [callsOf_congr fun d _ => hrec d] at h2
  by_cases hf : ∃ v m', (s.co c).frame = .timedWait v m'
  · obtain ⟨v, m', hf⟩ := hf
    have hmem : c ∈ s.queues (.cond v) := hi.mem_of_home (c := c) (q := .cond v)
      (by simp [Routine.home, hf, he.waiting, Frame.suspended, Frame.waitQueue])
    have htr : s'.trace = s.trace ++ [Event.expire v (s.co c).call, .ready c] := by
      rw [he.trace, expireEvents, hf]
    have hnowait : ∀ e ∈ [Event.expire v (s.co c).call, .ready c], ∀ k, e.isWait m k = false := by
      simp [Event.isWait]
    obtain ⟨hend, hret⟩ := seqs_append (h := s.trace) hnowait
    have hfilter := hcall.waits_filter (m := m) (v := v) (l := [c]) hi (by simpa using hmem)
    simp only [List.flatMap_cons, Event.ended, List.flatMap_nil, List.append_nil,
      Event.returned, List.filter_nil] at hend hret
    simp only [List.map_cons, List.map_nil] at hfilter
    rw [hfilter] at hend
    refine ⟨callsOf (Frame.undispatched m) s.co [c], ?_⟩
    simp only [lineup, Lineup.add, Lineup.mk.injEq] at h1 h2 ⊢
    rw [htr]
    exact ⟨hend, hret, h1, h2⟩
  · have hev : expireEvents c (s.co c) = [.ready c] := by
      unfold expireEvents
      split
      · rename_i v m' hf'
        exact absurd ⟨v, m', hf'⟩ hf
      · rfl
    have hun : (s.co c).frame.undispatched m = false := by
      have ht := he.timed
      cases hf' : (s.co c).frame <;> simp [hf', Frame.timed] at ht hf <;> rfl
    refine ⟨[], ?_⟩
    rw [Lineup.add_nil]
    refine lineup_eq (hev ▸ he.trace) (by simp [Event.silent]) h1 (h2.trans ?_)
    simp [callsOf_cons, hun]
    rfl

/-- A coroutine suspends. -/
theorem Blocks.lineup {r : Routine} (hbl : Blocks s s' c r) (hout : ∀ q, c ∉ s.queues q) :
    Libco.lineup m s' = Libco.lineup m s := by
  have hdir := hbl.direct
  have hrec : ∀ d q, d ∈ s.queues q → s'.co d = s.co d := by
    intro d q hd
    have hdc : d ≠ c := fun he => hout q (he ▸ hd)
    simp [hbl.co, hdc]
  have hready : s'.queues .ready = s.queues .ready ++ [] := by
    rw [hbl.queues]
    cases hw : r.frame.waitQueue with
    | none => simp
    | some q => simp [(Frame.waitQueue_ne_ready hw).symm]
  obtain ⟨old, hold, hmem⟩ : ∃ old, s'.queues (.mutex m) = s.queues (.mutex m) ++ old ∧
      ∀ d ∈ old, d = c ∧ r.frame.waitQueue = some (.mutex m) := by
    rw [hbl.queues]
    cases hw : r.frame.waitQueue with
    | none => exact ⟨[], by simp, by simp⟩
    | some q =>
      by_cases hq : q = .mutex m
      · exact ⟨[c], by simp [hq], by simp [hq]⟩
      · have hne : (QueueRef.mutex m) ≠ q := fun he => hq he.symm
        exact ⟨[], by simp [hne], by simp⟩
  refine lineup_quiet _ _ hbl.trace (blockEvents_silent s c r) hready hold (fun d hd => ?_) (by simp)
    fun d hd => ?_
  · rw [hd.elim (hrec d _) (hrec d _)]
    exact ⟨rfl, rfl⟩
  · obtain ⟨rfl, hw⟩ := hmem d hd
    rw [hbl.co, Function.update_self]
    cases hf : r.frame <;> simp [hf, Frame.waitQueue] at hw hdir
    rfl

/-- The front of the ready queue, which is no wait with the mutex, leaves it. -/
theorem lineup_dispatch_other {rest : List Nat} {r : Routine} (hi : Inv run cur s.toSched)
    (hq : s.queues .ready = c :: rest) (hne : ∀ v, (s.co c).frame.condOf ≠ some (v, m))
    (hco : s'.co = Function.update s.co c r) (hready : s'.queues .ready = rest)
    (hmutex : s'.queues (.mutex m) = s.queues (.mutex m)) (htr : s'.trace = s.trace ++ es)
    (hes : ∀ e ∈ es, e.silent = true) : Libco.lineup m s' = Libco.lineup m s := by
  have hrest : c ∉ rest := by
    have := hi.nodup_queue .ready
    rw [hq, List.nodup_cons] at this
    exact this.1
  have hqueue : c ∉ s.queues (.mutex m) := hi.ready_not_queued hq (by simp)
  have hnot : (s.co c).frame.relocks m = false ∧ (s.co c).frame.undispatched m = false := by
    cases hf : (s.co c).frame <;> simp [hf, Frame.condOf] at hne <;>
      simp [Frame.relocks, Frame.undispatched, hne]
  refine lineup_eq htr hes ?_ ?_
  · simp only [Libco.lineup, hready, hmutex, hq, hco, callsOf_append, callsOf_update hrest,
      callsOf_update hqueue, callsOf_cons, hnot.1]
    rfl
  · simp only [Libco.lineup, hready, hq, hco, callsOf_update hrest, callsOf_cons, hnot.2]
    rfl

theorem lineup_beginCall {op : Op} (hcall : CallInv s) (hc : ∀ v, CondInv v s)
    (hout : ∀ c, s.coCurrent = some c → ∀ q, c ∉ s.queues q) :
    Libco.lineup m (beginCall s op) = Libco.lineup m s := by
  obtain ⟨hend, hret⟩ := seqs_call (m := m) s.coCurrent op.name hcall hc
  have hrec : ∀ d, d ∈ s.queues .ready ++ s.queues (.mutex m) →
      ((beginCall s op).co d).frame = (s.co d).frame ∧
        ((beginCall s op).co d).call = (s.co d).call := by
    intro d hd
    refine ⟨beginCall_frame s op d, ?_⟩
    simp only [beginCall]
    split
    · rename_i c hcur
      have hdc : d ≠ c := by
        rintro rfl
        exact (List.mem_append.mp hd).elim (hout d hcur _) (hout d hcur _)
      simp [St.modify, St.emit, hdc]
    · rfl
  simp only [Libco.lineup, beginCall_trace, beginCall_queues, Lineup.mk.injEq]
  refine ⟨hend, hret, callsOf_congr hrec, callsOf_congr fun d hd => hrec d ?_⟩
  exact List.mem_append_left _ hd

theorem Spawns.lineup (hs : Spawns s s') (hi : Inv run cur s.toSched) :
    Libco.lineup m s' = Libco.lineup m s := by
  obtain ⟨b, n, hco⟩ := hs.co
  have hfresh : ∀ d q, d ∈ s.queues q → d ≠ s.nextId := by
    intro d q hd
    have hlt : d < s.nextId := hi.lt_nextId fun hf => by
      have hh := hi.mem_queue hd
      simp [Routine.home, hf, Frame.suspended] at hh
    omega
  refine lineup_quiet [s.nextId] [] hs.trace (by simp [Event.silent]) (by simp [hs.queues])
    (by simp [hs.queues]) (fun d hd => ?_) ?_ (by simp)
  · have hne : d ≠ s.nextId := hd.elim (hfresh d _) (hfresh d _)
    simp [hco, hne]
  · simp [hco, Frame.condOf]

theorem lineup_yieldNow (hout : ∀ q, c ∉ s.queues q) :
    Libco.lineup m (coSchedulerEnqueue (s.modify c fun r => { r with frame := .yieldNow }) c) =
      Libco.lineup m s := by
  have htr : (coSchedulerEnqueue (s.modify c fun r => { r with frame := .yieldNow }) c).trace =
      s.trace ++ [.ready c] := rfl
  refine lineup_quiet [c] [] htr (by simp [Event.silent]) ?_ ?_ (fun d hd => ?_) ?_ (by simp)
  · simp [coSchedulerEnqueue, coQueuePushBack, St.modify, St.emit]
  · simp [coSchedulerEnqueue, coQueuePushBack, St.modify, St.emit]
  · have hdc : d ≠ c := by
      rintro rfl
      exact hd.elim (hout _) (hout _)
    simp [coSchedulerEnqueue, coQueuePushBack, St.modify, St.emit, hdc]
  · simp [coSchedulerEnqueue, coQueuePushBack, St.modify, St.emit, Frame.condOf]

/-- The coroutine relocks another mutex. -/
theorem Relocks.lineup {m' : Nat} {rest : List Nat} {f : Frame} (hr : Relocks s s' c rest m' f)
    (hi : Inv run cur s.toSched) (hne : ∀ v, (s.co c).frame.condOf ≠ some (v, m)) :
    Libco.lineup m s' = Libco.lineup m s := by
  obtain ⟨v, hv⟩ := Frame.relocking_spec hr.relocking
  have hmm : m' ≠ m := by
    rintro rfl
    rcases hv with ⟨hf, -⟩ | ⟨hf, -⟩ <;> exact hne v (by rw [hf]; rfl)
  refine lineup_dispatch_other hi hr.ready hne hr.co ?_ ?_ hr.trace (by simp [Event.silent])
  · simp [hr.queues]
  · have : (QueueRef.mutex m) ≠ .mutex m' := by simpa using fun he => hmm he.symm
    simp [hr.queues, this]

/-- Closing a channel wakes nobody who waits with the mutex. -/
theorem lineup_close {h : Nat} {e : Event} (hi : Inv run cur s.toSched) (he : e.silent = true) :
    Libco.lineup m (wakeAll (wakeAll ((s.setChan h { s.chans h with closed := true }).emit e)
      (.recv h) (s.queues (.recv h)) [] .wake) (.send h) (s.queues (.send h)) [] .wake) =
      Libco.lineup m s := by
  have hopen : Inv run cur ((s.setChan h { s.chans h with closed := true }).emit e).toSched :=
    hi.same rfl rfl rfl ⟨rfl, rfl, rfl⟩
  have hrecv := hopen.wakeAll_wake (q := .recv h) (by simp) (by simp)
    (List.append_nil (s.queues (.recv h))).symm
  refine Eq.trans (lineup_wakeAll hrecv (fun d hd => ?_) (.inl ⟨h, rfl⟩) rfl
    (fun d => ⟨rfl, rfl⟩) (List.append_nil _).symm (by simp)) ?_
  · simpa [wakeAll, St.setChan, St.emit] using hd
  · exact lineup_wakeAll (s := s) hi (fun d hd => hd) (.inr ⟨h, rfl⟩) rfl (fun d => ⟨rfl, rfl⟩)
      rfl (by simpa using he)

/-- **What a move does to the waits with a mutex**, unless it dispatches one of them. -/
theorem Move.lineup {os : List Obj} {p p' : Option Nat × St} (hm : Move s₀ a os p p')
    (hi : Inv False p.1 p.2.toSched) (hn : NoIo p.2) (h₀ : NoIo s₀) (hcall : CallInv p.2)
    (hc : ∀ v, CondInv v p.2)
    (hother : a.isSchedule = true → ∀ c rest, s₀.queues .ready = c :: rest →
      ∀ v, (s₀.co c).frame.condOf ≠ some (v, m)) :
    ∃ ks, Libco.lineup m p'.2 = (Libco.lineup m p.2).add ks := by
  have hsame : Libco.lineup m p'.2 = Libco.lineup m p.2 →
      ∃ ks, Libco.lineup m p'.2 = (Libco.lineup m p.2).add ks :=
    fun h => ⟨[], by rw [h, Lineup.add_nil]⟩
  have hout : ∀ {c : Nat}, p.1 = some c → ∀ q, c ∉ p.2.queues q :=
    fun hcur q => List.count_eq_zero.mp ((hi.out hcur).1 q)
  cases hm with
  | admin had =>
    obtain ⟨es, hes, hneu⟩ := had.trace
    exact hsame (lineup_rest hes (fun e he => neutral_silent (hneu e he)) had.queues had.co)
  | invoke ha => exact hsame (lineup_beginCall hcall hc fun c hcur => hout hcur)
  | skipId p => exact hsame (lineup_rest (List.append_nil _).symm (by simp) rfl rfl)
  | spawn hs => exact hsame (hs.lineup hi)
  | @finish c s s' hs' =>
    obtain ⟨pool, he⟩ := finish_eq s c
    refine hsame ?_
    show Libco.lineup m s' = Libco.lineup m s
    rw [hs', he]
    exact lineup_record (List.append_nil _).symm (by simp) rfl rfl (hout rfl)
  | yieldNow hb hf => exact hsame (lineup_yieldNow (hout rfl))
  | @block c op s s' r hb hf hbl =>
    exact hsame (hbl.lineup (hout rfl))
  | @drain c s s' r x y hold hf hbl =>
    have := h₀ c
    rw [hold.1] at this
    cases this
  | touch ht hs =>
    exact hsame (lineup_record (ht.trace.trans (List.append_nil _).symm) (by simp) ht.co ht.queues
      (hout rfl))
  | @dispatch c rest s' hd ha =>
    refine hsame (lineup_dispatch_other hi hd.ready (hother ha c rest hd.ready) hd.co ?_ ?_ hd.trace
      (dispatchEvents_silent _))
    · simp [hd.queues]
    · simp [hd.queues]
  | @relock c m' rest f s' hr ha => exact hsame (hr.lineup hi (hother ha c rest hr.ready))
  | expire he ha => exact lineup_expire hcall hi he hn
  | dropTimer hs hord hperm =>
    exact hsame (lineup_rest (List.append_nil _).symm (by simp) rfl rfl)
  | @polled cur c f s s' hp =>
    have := hn c
    rw [hp.like.io] at this
    cases this
  | take hfree hcur => exact hsame (lineup_rest rfl (by simp [Event.silent]) rfl rfl)
  | unlock ha hop hpre hcur hl hq => exact hsame (lineup_rest rfl (by simp [Event.silent]) rfl rfl)
  | @handoff cur m' c rest op s ha hop hpre hcur hl hq =>
    have htr : (((s.emit (.release m' s.coCurrent)).setMutex m'
        { s.mutexes m' with owner := some c }).emit (.handoff m' c)).trace =
        s.trace ++ [.release m' s.coCurrent, .handoff m' c] := by
      simp [St.emit, St.setMutex]
    exact hsame (lineup_handoff (s := s) rfl rfl htr (by simp [Event.silent]) hq hi)
  | @notify cur v ws rest e s hq he =>
    exact ⟨_, lineup_notify hcall hi hq (he.imp And.left And.left)⟩
  | @placeHand cur h' c rest data op s hb hop hcl hq =>
    refine hsame (lineup_wakeAll (s := s) hi (by simp [hq]) (.inr ⟨h', rfl⟩) rfl (fun d => ?_)
      (deliver_trace _ _ _ _ _) (by simp [Event.silent]))
    by_cases hd : d = c <;> simp [deliver, St.modify, St.emit, hd]
  | placeRing hb hop hcl hq hroom =>
    exact hsame (lineup_rest rfl (by simp [Event.silent]) rfl rfl)
  | takeRing hb hop hpos hq =>
    exact hsame (lineup_rest rfl (by simp [Event.silent]) rfl rfl)
  | @takeRefill cur h' c rest op s hb hop hpos hq =>
    exact hsame (lineup_wakeAll (s := s) hi (by simp [hq]) (.inl ⟨h', rfl⟩) rfl
      (fun d => ⟨rfl, rfl⟩) rfl (by simp [Event.silent]))
  | @takeMeet cur h' c rest op s hb hop hzero hq =>
    exact hsame (lineup_wakeAll (s := s) hi (by simp [hq]) (.inl ⟨h', rfl⟩) rfl
      (fun d => ⟨rfl, rfl⟩) rfl (by simp [Event.silent]))
  | close hb hop hcl => exact hsame (lineup_close hi rfl)

/-! ## The dispatch of a wait -/

theorem resumeLock_cases (u : St) (c m : Nat) : resumeLock u c m = .abort ∨
    resumeLock u c m = .ret (.code .ok) (u.emit (.enter m c)) := by
  unfold resumeLock
  split
  · exact .inr rfl
  · exact .inl rfl

section

variable {rest : List Nat} (hi : Inv run none s.toSched) (hq : s.queues .ready = c :: rest)
include hi hq

/-- The wait that is dispatched takes the mutex and returns. -/
theorem lineup_returns {x : Event} {ret : Ret} (h : (lineup m s).InOrder)
    (hcall : CallInv s) (hf : (s.co c).frame.condOf = some (v, m))
    (hfirst : (lineup m s).relocking ++ (lineup m s).undispatched = (s.co c).call ::
      ((lineup m s').relocking ++ (lineup m s').undispatched))
    (htr : s'.trace = s.trace ++ [.dispatch c, x, .ret (s.co c).call ret])
    (hx : x.silent = true) : (lineup m s').InOrder := by
  have hin : (s.co c).inCall = true := by
    obtain ⟨-, hsus, -⟩ := hi.ready_fields hq
    cases hfr : (s.co c).frame <;> simp [hfr, Frame.condOf] at hf <;>
      simp [Routine.inCall, hfr, Frame.suspended]
  have hwait : waitsWith m s.trace (s.co c).call = true :=
    (hcall.waitsWith_call hin).mpr ⟨v, hf⟩
  obtain ⟨hxe, hxr, hxw⟩ := Event.silent_spec hx
  have hnowait : ∀ e ∈ [Event.dispatch c, x, .ret (s.co c).call ret], ∀ k, e.isWait m k = false := by
    intro e he k
    simp only [List.mem_cons, List.not_mem_nil, or_false] at he
    obtain rfl | rfl | rfl := he
    · rfl
    · exact hxw m k
    · rfl
  obtain ⟨hend, hret⟩ := seqs_append (h := s.trace) hnowait
  rw [List.flatMap_cons, List.flatMap_cons, hxe] at hend
  rw [List.flatMap_cons, List.flatMap_cons, hxr] at hret
  have hlast : ([(s.co c).call] : List Nat).filter (waitsWith m s.trace) = [(s.co c).call] := by
    rw [List.filter_cons, hwait]
    rfl
  have hends : (lineup m s').ended = (lineup m s).ended := by
    simp only [lineup, htr, hend]
    exact List.append_nil _
  have hrets : (lineup m s').returned = (lineup m s).returned ++ [(s.co c).call] := by
    simp only [lineup, htr, hret]
    exact congrArg (returnedSeq m s.trace ++ ·) hlast
  unfold Lineup.InOrder at h ⊢
  rw [hends, hrets, h, List.append_assoc, hfirst]
  simp

theorem lineup_popped {r : Routine} (hco : s'.co = Function.update s.co c r)
    (hready : s'.queues .ready = rest) (hmutex : s'.queues (.mutex m) = s.queues (.mutex m)) :
    (lineup m s).relocking =
        (if (s.co c).frame.relocks m then [(s.co c).call] else []) ++ (lineup m s').relocking ∧
      (lineup m s).undispatched =
        (if (s.co c).frame.undispatched m then [(s.co c).call] else []) ++
          (lineup m s').undispatched := by
  have hrest : c ∉ rest := by
    have := hi.nodup_queue .ready
    rw [hq, List.nodup_cons] at this
    exact this.1
  have hqueue : c ∉ s.queues (.mutex m) := hi.ready_not_queued hq (by simp)
  constructor
  · simp only [lineup, hready, hmutex, hq, hco, callsOf_append, callsOf_update hrest,
      callsOf_update hqueue, callsOf_cons, List.append_assoc]
  · simp only [lineup, hready, hq, hco, callsOf_update hrest, callsOf_cons]

/-- A re-locking wait was handed the mutex. -/
theorem lineup_enters {r : Routine} (ret : Ret) (h : (lineup m s).InOrder) (hcall : CallInv s)
    (hf : (s.co c).frame = .condRelock v m ∨ (s.co c).frame = .timedRelock v m)
    (hco : s'.co = Function.update s.co c r) (hready : s'.queues .ready = rest)
    (hmutex : s'.queues (.mutex m) = s.queues (.mutex m))
    (htr : s'.trace = s.trace ++ [.dispatch c, .enter m c, .ret (s.co c).call ret]) :
    (lineup m s').InOrder := by
  obtain ⟨hrel, hun⟩ := lineup_popped hi hq hco hready hmutex
  have hfr : (s.co c).frame.relocks m = true ∧ (s.co c).frame.undispatched m = false ∧
      (s.co c).frame.condOf = some (v, m) := by
    rcases hf with hf | hf <;> simp [hf, Frame.relocks, Frame.undispatched, Frame.condOf]
  refine lineup_returns hi hq h hcall hfr.2.2 ?_ htr rfl
  rw [hrel, hun, hfr.1, hfr.2.1]
  simp

/-- A wait that finds the mutex free is the first one: nobody re-locks it. -/
theorem lineup_takes {r : Routine} (ret : Ret) (h : (lineup m s).InOrder) (hcall : CallInv s)
    (hm : MutexInv m s) (hfree : (s.mutexes m).locked = false)
    (hf : (s.co c).frame = .condWait v m ∨ (s.co c).frame = .timedWait v m)
    (hco : s'.co = Function.update s.co c r) (hready : s'.queues .ready = rest)
    (hmutex : s'.queues (.mutex m) = s.queues (.mutex m))
    (htr : s'.trace = s.trace ++ [.dispatch c, .take m (some c), .ret (s.co c).call ret]) :
    (lineup m s').InOrder := by
  obtain ⟨hrel, hun⟩ := lineup_popped hi hq hco hready hmutex
  have hfr : (s.co c).frame.relocks m = false ∧ (s.co c).frame.undispatched m = true ∧
      (s.co c).frame.condOf = some (v, m) := by
    rcases hf with hf | hf <;> simp [hf, Frame.relocks, Frame.undispatched, Frame.condOf]
  have hnone : (lineup m s).relocking = [] := by
    cases hm.phase with
    | held w hl hh hw hs =>
      rw [hl] at hfree
      cases hfree
    | handed d hl hh hw hs =>
      rw [hl] at hfree
      cases hfree
    | free hl hh hqm hw hs =>
      simp only [lineup, hqm, List.append_nil]
      refine callsOf_none fun d hd => ?_
      -- a ready coroutine that re-locks would have been handed the mutex
      have hst := (Routine.home_ready (hi.mem_queue hd)).2
      by_contra hrl
      refine hw d ⟨hst, ?_⟩
      cases hfd : (s.co d).frame <;> simp [hfd, Frame.relocks] at hrl <;>
        simp [Frame.waitQueue, hrl]
  simp only [hfr.1, Bool.false_eq_true, if_false, List.nil_append, hnone] at hrel
  refine lineup_returns hi hq h hcall hfr.2.2 ?_ htr rfl
  rw [hnone, hun, hfr.2.1, ← hrel]
  simp

/-- A wait that finds the mutex locked goes to the end of its queue. -/
theorem lineup_relocks {r : Routine} (h : (lineup m s).InOrder)
    (hf : (s.co c).frame = .condWait v m ∧ r.frame = .condRelock v m ∨
      (s.co c).frame = .timedWait v m ∧ r.frame = .timedRelock v m)
    (hrc : r.call = (s.co c).call)
    (hco : s'.co = Function.update s.co c r) (hready : s'.queues .ready = rest)
    (hmutex : s'.queues (.mutex m) = s.queues (.mutex m) ++ [c])
    (htr : s'.trace = s.trace ++ [.dispatch c, .wait m c]) : (lineup m s').InOrder := by
  have hrest : c ∉ rest := by
    have := hi.nodup_queue .ready
    rw [hq, List.nodup_cons] at this
    exact this.1
  have hqueue : c ∉ s.queues (.mutex m) := hi.ready_not_queued hq (by simp)
  have hfr : (s.co c).frame.relocks m = false ∧ (s.co c).frame.undispatched m = true ∧
      r.frame.relocks m = true := by
    rcases hf with ⟨hf, hr⟩ | ⟨hf, hr⟩ <;> simp [hf, hr, Frame.relocks, Frame.undispatched]
  have hes : ∀ e ∈ [Event.dispatch c, .wait m c], e.silent = true := by simp [Event.silent]
  obtain ⟨hend, hret⟩ := seqs_silent (m := m) (h := s.trace) hes
  have hrel : (lineup m s').relocking = (lineup m s).relocking ++ [(s.co c).call] := by
    simp only [lineup, hready, hmutex, hq, hco, callsOf_append, callsOf_update hrest,
      callsOf_update hqueue, callsOf_cons, hfr.1, Function.update_self, hfr.2.2, hrc]
    simp [callsOf]
  have hun : (lineup m s).undispatched = (s.co c).call :: (lineup m s').undispatched := by
    simp only [lineup, hready, hq, hco, callsOf_update hrest, callsOf_cons, hfr.2.1]
    rfl
  have hends : (lineup m s').ended = (lineup m s).ended := by simp only [lineup, htr, hend]
  have hrets : (lineup m s').returned = (lineup m s).returned := by simp only [lineup, htr, hret]
  unfold Lineup.InOrder at h ⊢
  rw [hends, hrets, h, hrel, hun]
  simp

/-- The end of a wait, after the timer is gone: the mutex is taken, or waited for. -/
theorem relock_inOrder {u : St} {f : Frame} {q : St → Ret} (h : (lineup m s).InOrder)
    (hcall : CallInv s) (hm : MutexInv m s) (hcur : u.coCurrent = some c)
    (hco : u.co = Function.update s.co c { s.co c with state := .running, frame := .user })
    (hqs : u.queues = Function.update s.queues .ready rest) (hmx : u.mutexes = s.mutexes)
    (htr : u.trace = s.trace ++ [.dispatch c])
    (hf : (s.co c).frame = .condWait v m ∧ f = .condRelock v m ∨
      (s.co c).frame = .timedWait v m ∧ f = .timedRelock v m) :
    (lineup m (settle s (s.co c).call (relock u c m f q))).InOrder := by
  unfold relock coMutexLock
  rw [hcur, hmx]
  dsimp only
  cases hl : (s.mutexes m).locked with
  | false =>
    simp only [Bool.not_false, if_true, settle]
    refine lineup_takes hi hq (q ((u.setMutex m ⟨true, some c⟩).emit (.take m (some c)))) h hcall
      hm hl (hf.imp And.left And.left) hco ?_ ?_ ?_
    · simp [St.emit, St.setMutex, hqs]
    · simp [St.emit, St.setMutex, hqs]
    · simp [St.emit, St.setMutex, htr]
  | true =>
    simp only [Bool.not_true, Bool.false_eq_true, if_false, settle]
    refine lineup_relocks hi hq (r := { s.co c with state := .waiting, frame := f }) h hf rfl ?_ ?_ ?_ ?_
    · simp [coQueuePushBack, St.modify, St.emit, hco]
    · simp [coQueuePushBack, St.modify, St.emit, hqs]
    · simp [coQueuePushBack, St.modify, St.emit, hqs]
    · simp [coQueuePushBack, St.modify, St.emit, htr]

/-- The end of a re-lock: the mutex was handed over, or the assertion fails. -/
theorem resumeLock_inOrder {u : St} (ret : Ret) (h : (lineup m s).InOrder) (hcall : CallInv s)
    (hco : u.co = Function.update s.co c { s.co c with state := .running, frame := .user })
    (hqs : u.queues = Function.update s.queues .ready rest)
    (htr : u.trace = s.trace ++ [.dispatch c])
    (hf : (s.co c).frame = .condRelock v m ∨ (s.co c).frame = .timedRelock v m) :
    (lineup m ((u.emit (.enter m c)).emit (.ret (s.co c).call ret))).InOrder := by
  refine lineup_enters hi hq ret h hcall hf hco ?_ ?_ ?_
  · simp [St.emit, hqs]
  · simp [St.emit, hqs]
  · simp [St.emit, htr]

/-- **The dispatch of a wait with the mutex keeps the order.** -/
theorem dispatch_inOrder {e : ResumeEnv} (h : (lineup m s).InOrder) (hcall : CallInv s)
    (hm : MutexInv m s) (hf : (s.co c).frame.condOf = some (v, m)) :
    (lineup m (coSchedulerSchedule s e)).InOrder := by
  have hne : (s.co c).frame ≠ .entry := by
    intro he
    simp [he, Frame.condOf] at hf
  rw [schedule_resumes hq hne]
  cases hfr : (s.co c).frame <;> simp [hfr, Frame.condOf] at hf
  case condWait v' m' =>
    obtain ⟨rfl, rfl⟩ := hf
    exact relock_inOrder hi hq h hcall hm rfl rfl rfl rfl rfl (.inl ⟨hfr, rfl⟩)
  case timedWait v' m' =>
    obtain ⟨rfl, rfl⟩ := hf
    simp only [resume, resumeTimedWait]
    split
    · exact relock_inOrder hi hq h hcall hm rfl rfl rfl rfl rfl (.inr ⟨hfr, rfl⟩)
    · exact relock_inOrder hi hq h hcall hm rfl rfl rfl rfl rfl (.inr ⟨hfr, rfl⟩)
  case condRelock v' m' =>
    obtain ⟨rfl, rfl⟩ := hf
    rcases resumeLock_cases (switchTo { s with queues := Function.update s.queues .ready rest } c) c
      m' with ho | ho
    · simp only [resume, ho]
      exact h
    · simp only [resume, ho]
      exact resumeLock_inOrder hi hq _ h hcall rfl rfl rfl (.inl hfr)
  case timedRelock v' m' =>
    obtain ⟨rfl, rfl⟩ := hf
    rcases resumeLock_cases (switchTo { s with queues := Function.update s.queues .ready rest } c) c
      m' with ho | ho
    · simp only [resume, ho]
      exact h
    · simp only [resume, ho]
      exact resumeLock_inOrder hi hq _ h hcall rfl rfl rfl (.inr hfr)

end

/-! ## Runs -/

/-- The call that returns, when no wait with the mutex is dispatched, is none of them. -/
theorem Returns.not_wait {t : St} {r : Ret} (hr : Returns s a t k r)
    (hi₀ : Inv False s.coCurrent s.toSched) (h₀ : CallInv s) (hext : Extends s t)
    (hcall : CallInv t) (hal : a.allocFails = false) (hz : a.waitsZero = false)
    (hother : a.isSchedule = true → ∀ c rest, s.queues .ready = c :: rest →
      ∀ v, (s.co c).frame.condOf ≠ some (v, m)) : waitsWith m t.trace k = false := by
  by_contra hw
  obtain ⟨d, op', hop', v, hv⟩ := waitsWith_iff.mp (by simpa using hw)
  cases hr with
  | @call op r t hrun hmv hcur =>
    obtain ⟨hd, hname⟩ := hcall.unique _ _ _ _ _ (hmv.begun hi₀ h₀) hop'
    have hcur' : (beginCall s op).coCurrent = some d := by rw [beginCall_coCurrent, hd]
    exact absurd hrun (runOp_wait hcur' (hname ▸ hv) hal hz)
  | @resumed c rest e r t hq hf hres hcur =>
    obtain ⟨-, hsus, -⟩ := hi₀.ready_fields hq
    obtain ⟨op, hop, hfits⟩ := h₀.inside c (by simp [Routine.inCall, hsus, hf])
    obtain ⟨-, hname⟩ := hcall.unique _ _ _ _ _ (hext.mem hop) hop'
    exact hother rfl c rest hq v (Frame.condOf_of_fits hv (hname ▸ hfits))

theorem inOrder_ret {t : St} {r : Ret} (h : (lineup m t).InOrder)
    (hk : waitsWith m t.trace k = false) : (lineup m (t.emit (.ret k r))).InOrder := by
  have hnowait : ∀ e ∈ [Event.ret k r], ∀ k, e.isWait m k = false := by simp [Event.isWait]
  obtain ⟨hend, hret⟩ := seqs_append (h := t.trace) hnowait
  simp only [List.flatMap_cons, List.flatMap_nil, Event.ended, Event.returned, List.append_nil,
    List.filter_nil, List.filter_cons, hk, Bool.false_eq_true, if_false] at hend hret
  simp only [Lineup.InOrder, lineup, St.emit, hend, hret] at h ⊢
  exact h

/-- Steps that dispatch no wait with the mutex. -/
theorem inOrder_step_other {cfg : Config} (h : (lineup m s).InOrder) (hw : PlainWaits cfg s)
    (hg : plainWaits s a = true) (hs : step s a = some s')
    (hother : a.isSchedule = true → ∀ c rest, s.queues .ready = c :: rest →
      ∀ v, (s.co c).frame.condOf ≠ some (v, m)) : (lineup m s').InOrder := by
  obtain ⟨hpl, hcall, hc, -⟩ := hw.inv
  obtain ⟨hp, hn, -, -⟩ := hpl.inv
  simp only [plainWaits, Bool.and_eq_true, Bool.not_eq_true'] at hg
  obtain ⟨hio, hal, -⟩ := plain_split hg.1
  have hi₀ : Inv False s.coCurrent s.toSched := (hp.current hs).mono fun h => h.elim
  refine hcall.step_rule
    (K := fun t => NoIo t ∧ (∀ v, CondInv v t) ∧ (lineup m t).InOrder)
    (J := fun t => (lineup m t).InOrder) hp (hn.leaks hio) hs ⟨hn, hc, h⟩ ?_ ?_ ?_
  · rintro os p p' hmv hi hcp - ⟨hnp, hvp, hord⟩
    obtain ⟨ks, hks⟩ := hmv.lineup hi hnp hn hcp hvp hother
    refine ⟨hmv.noIo hio hn hnp, fun v => hmv.condInv hi₀ hi hcall hcp (hvp v), ?_⟩
    rw [hks]
    exact hord.add ks
  · rintro t - - ⟨-, -, hord⟩
    exact hord
  · rintro t k r hi hct hext ⟨-, -, hord⟩ hr -
    exact inOrder_ret hord (hr.not_wait hi₀ hcall hext hct hal hg.2 hother)

/-- **Every step keeps the order.** -/
theorem inOrder_step {cfg : Config} (h : (lineup m s).InOrder) (hw : PlainWaits cfg s)
    (hg : plainWaits s a = true) (hs : step s a = some s') : (lineup m s').InOrder := by
  by_cases hd : a.isSchedule = true ∧ ∃ c rest v, s.queues .ready = c :: rest ∧
      (s.co c).frame.condOf = some (v, m)
  · obtain ⟨ha, c, rest, v, hq, hf⟩ := hd
    cases a <;> cases ha
    obtain ⟨hctl, rfl⟩ := step_schedule hs
    obtain ⟨hpl, hcall, -, -⟩ := hw.inv
    obtain ⟨hp, -, hm, -⟩ := hpl.inv
    have hi := hp.current hs
    rw [show s.coCurrent = none by simp [St.coCurrent, hctl]] at hi
    exact dispatch_inOrder hi hq h hcall (hm m) hf
  · refine inOrder_step_other h hw hg hs fun ha c rest hq v hf => hd ?_
    exact ⟨ha, c, rest, v, hq, hf⟩

/-- **Waits with one mutex return in the order in which they ended**, whatever condition
variables they waited for, and whether they were signalled or timed out. -/
theorem waits_return_in_order {cfg : Config} (h : PlainWaits cfg s) (m : Nat) :
    endedSeq m s.trace = returnedSeq m s.trace ++ (lineup m s).relocking ++
      (lineup m s).undispatched := by
  have hord : (lineup m s).InOrder := by
    induction h with
    | init => rfl
    | next a hr hg hs ih => exact inOrder_step ih hr hg hs
  exact hord

/-- A waiter is signalled, the deadline of a second one passes on another condition
variable, and both return to a mutex that is held meanwhile. -/
def overtakenRun : List Act :=
  let late := [Act.timers 10, .schedule ⟨.done 0⟩]
  [spawnOk, spawnOk, spawnOk, .run] ++
    turn ++ [Act.call (.mutexLock 0), .call (.condTimedwait 1 0 5 0 true)] ++
    turn ++ [Act.call (.mutexLock 0), .call (.condWait 0 0)] ++
    turn ++ [Act.call (.mutexLock 0), .call (.condSignal 0), .call .yieldNow] ++
    late ++ late ++ [Act.call (.mutexUnlock 0), .finish] ++ late ++ late ++
    [Act.call (.mutexUnlock 0), .finish] ++ late

theorem waits_return_in_order_overtaken :
    ∃ s, runGuarded step plainWaits (init (byteConfig 0)) overtakenRun = some s ∧
      endedSeq 0 s.trace = [3, 1] ∧ returnedSeq 0 s.trace = [3, 1] ∧
      endedSeq 0 s.trace = returnedSeq 0 s.trace ++ (lineup 0 s).relocking ++
        (lineup 0 s).undispatched := by
  have hrun : (runGuarded step plainWaits (init (byteConfig 0)) overtakenRun).map
      (fun s => (endedSeq 0 s.trace, returnedSeq 0 s.trace)) = some ([3, 1], [3, 1]) := by
    decide +kernel
  obtain ⟨s, hs, he⟩ := Option.map_eq_some_iff.mp hrun
  simp only [Prod.mk.injEq] at he
  exact ⟨s, hs, he.1, he.2, waits_return_in_order (reach_of_runGuarded hs) 0⟩

end Libco
