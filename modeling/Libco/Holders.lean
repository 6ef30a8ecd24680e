import Libco.Exclusion

/-!
# Who holds a mutex, by what the calls answer

A caller holds a mutex from the `CO_OK` of its lock or trylock, or from the return of its
condition wait, to its unlock or next condition wait. `held` reads that off the calls and
their returns alone. It agrees with `holders`, which reads off who took the mutex, was let
in and released it: an answer never promises a mutex that was not given.
-/

namespace Libco
open Lib

variable {run : Prop} {s s' s₀ : St} {a : Act} {c m k : Nat} {h es : List Event}
  {w : Option Nat} {op : OpName} {r : Ret}

/-! ## Holding, by calls and returns -/

/-- The call returns with mutex `m` held, if it returns `r`. -/
def OpName.acquires (m : Nat) (r : Ret) : OpName → Bool
  | .lock m' | .trylock m' => m' == m && r == .code .ok
  | .condWait _ m' | .condTimedwait _ m' => m' == m
  | _ => false

def heldNext (m : Nat) (past : List Event) (hs : List (Option Nat)) : Event → List (Option Nat)
  | .call _ w op => if op.unlocked = some m then hs.erase w else hs
  | .ret k r =>
    match callOf past k with
    | some (w, op) => if op.acquires m r then hs ++ [w] else hs
    | none => hs
  | _ => hs

def heldFrom (m : Nat) (past : List Event) (hs : List (Option Nat)) :
    List Event → List (Option Nat)
  | [] => hs
  | e :: es => heldFrom m (past ++ [e]) (heldNext m past hs e) es

/-- Who holds the mutex, by what the calls have returned. -/
def held (m : Nat) (h : List Event) : List (Option Nat) := heldFrom m [] [] h

theorem heldFrom_append (past : List Event) (hs : List (Option Nat)) (es es' : List Event) :
    heldFrom m past hs (es ++ es') = heldFrom m (past ++ es) (heldFrom m past hs es) es' := by
  induction es generalizing past hs with
  | nil => simp [heldFrom]
  | cons e es ih =>
    simp only [List.cons_append, heldFrom]
    rw [ih]
    simp

theorem held_append (h es : List Event) : held m (h ++ es) = heldFrom m h (held m h) es := by
  rw [held, heldFrom_append]
  rfl

/-- Only calls and returns matter. -/
theorem heldFrom_quiet (he : ∀ e ∈ es, e.isCall = false) (past : List Event)
    (hs : List (Option Nat)) : heldFrom m past hs es = hs := by
  induction es generalizing past hs with
  | nil => rfl
  | cons e es ih =>
    have hn : heldNext m past hs e = hs := by
      have := he e (by simp)
      cases e <;> first | rfl | cases this
    rw [heldFrom, hn]
    exact ih (fun e' he' => he e' (by simp [he'])) _ _

theorem held_quiet (h : List Event) (he : ∀ e ∈ es, e.isCall = false) :
    held m (h ++ es) = held m h := by
  rw [held_append, heldFrom_quiet he]

/-- A call gives up the mutex it unlocks. -/
def OpName.gives (m : Nat) (w : Option Nat) (hs : List (Option Nat)) (op : OpName) :
    List (Option Nat) :=
  if op.unlocked = some m then hs.erase w else hs

theorem held_call (h : List Event) (he : ∀ e ∈ es, e.isCall = false) :
    held m (h ++ .call k w op :: es) = op.gives m w (held m h) := by
  rw [held_append, heldFrom, heldFrom_quiet he]
  rfl

theorem held_ret (hc : callOf h k = some (w, op)) :
    held m (h ++ [.ret k r]) = if op.acquires m r then held m h ++ [w] else held m h := by
  rw [held_append]
  simp only [heldFrom, heldNext, hc]

/-- The call that the step began returns. -/
theorem held_answer (hi : CallInv s') (he : ∀ e ∈ es, e.isCall = false)
    (htr : s'.trace = h ++ .call k w op :: es ++ [.ret k r]) :
    held m s'.trace = if op.acquires m r then op.gives m w (held m h) ++ [w]
      else op.gives m w (held m h) := by
  have hm : .call k w op ∈ h ++ .call k w op :: es := by simp
  have hc : Libco.callOf (h ++ .call k w op :: es) k = some (w, op) := by
    refine callOf_eq hm fun w' op' hm' => hi.unique k w' op' w op ?_ ?_ <;> rw [htr]
    · exact List.mem_append_left _ hm'
    · exact List.mem_append_left _ hm
  rw [htr, held_ret hc, held_call h he]

/-! ## Steps that do not concern the mutex -/

/-- The mutex of a call. -/
def OpName.mutexOf : OpName → Option Nat
  | .lock m | .trylock m | .unlock m | .condWait _ m | .condTimedwait _ m => some m
  | _ => none

/-- The mutex that a suspended call locks before it returns. -/
def Frame.lockOf : Frame → Option Nat
  | .lock m | .condWait _ m | .timedWait _ m | .condRelock _ m | .timedRelock _ m => some m
  | _ => none

/-- The step calls a function on mutex `m`, or dispatches a coroutine suspended in one. -/
def Concerns (m : Nat) (s : St) : Act → Prop
  | .call op => op.name.mutexOf = some m
  | .schedule _ => ∃ c rest, s.queues .ready = c :: rest ∧ (s.co c).frame.lockOf = some m
  | _ => False

theorem OpName.mutexOf_of_unlocked (hop : op.unlocked = some m) : op.mutexOf = some m := by
  cases op <;> simp [OpName.unlocked] at hop <;> simp [OpName.mutexOf, hop]

theorem OpName.mutexOf_of_acquires (hop : op.acquires m r = true) : op.mutexOf = some m := by
  cases op <;> simp [OpName.acquires] at hop <;> simp [OpName.mutexOf, hop]

theorem Frame.mutexOf_of_fits {f : Frame} (hf : f.fits op = true) : op.mutexOf = f.lockOf := by
  cases f <;> cases op <;> simp [Frame.fits] at hf <;> simp [OpName.mutexOf, Frame.lockOf, hf]

theorem Frame.lockOf_of_objs {f : Frame} (hf : Obj.mutex m ∈ f.objs) : f.lockOf = some m := by
  cases f <;> simp [Frame.objs] at hf <;> simp [Frame.lockOf, hf]

theorem Concerns.of_frame {rest : List Nat} (ha : a.isSchedule = true)
    (hq : s.queues .ready = c :: rest) (hf : (s.co c).frame.lockOf = some m) : Concerns m s a := by
  cases a <;> simp [Act.isSchedule] at ha
  exact ⟨c, rest, hq, hf⟩

/-- A move that has nothing to do with the mutex leaves its holders alone. -/
theorem Move.holders {os : List Obj} {p p' : Option Nat × St} (hm : Move s₀ a os p p')
    (hn : ¬ Concerns m s₀ a) (hi : Inv run p.1 p.2.toSched) :
    Libco.holders m p'.2.trace = Libco.holders m p.2.trace := by
  by_cases ho : Obj.mutex m ∈ os
  swap
  · obtain ⟨es, hes, he⟩ := (hm.footprint hi ho).trace
    rw [hes, holders_other he]
  exfalso
  apply hn
  cases hm with
  | admin _ | invoke _ | skipId _ | spawn _ | finish _ | yieldNow _ _ | drain _ _ _ _ | touch _ _
  | dropTimer _ _ _ | polled _ _ => simp at ho
  | notify _ _ _ | placeHand _ _ _ _ | placeRing _ _ _ _ _ | takeRing _ _ _ _
  | takeRefill _ _ _ _ | takeMeet _ _ _ _ | close _ _ _ => simp at ho
  | @block c op s s' r hb hf hbl =>
    have hlock := Frame.lockOf_of_objs ho
    rw [hb.1]
    exact (Frame.mutexOf_of_fits hf).trans hlock
  | @dispatch c rest s' hdis ha => exact .of_frame ha hdis.ready (Frame.lockOf_of_objs ho)
  | @relock c m' rest f s' hr ha =>
    refine .of_frame ha hr.ready ?_
    obtain ⟨v, ⟨hf, rfl⟩ | ⟨hf, rfl⟩⟩ := Frame.relocking_spec hr.relocking <;>
      rw [hf] <;> simpa [Frame.objs, Frame.lockOf, eq_comm] using ho
  | @expire cur c s s' he =>
    have ht := he.timed
    cases hf : (s.co c).frame <;> simp [hf, Frame.objs, Frame.timed] at ho ht
  | @take cur m' s hfree hcur ha =>
    simp only [List.mem_singleton, Obj.mutex.injEq] at ho
    subst ho
    rcases ha with ⟨op, rfl, hop | hop⟩ | ⟨ha, c, rest, f, hq, hf⟩
    · simp [Concerns, hop, OpName.mutexOf]
    · simp [Concerns, hop, OpName.mutexOf]
    · refine .of_frame ha hq ?_
      obtain ⟨v, ⟨hf, -⟩ | ⟨hf, -⟩⟩ := Frame.relocking_spec hf <;> rw [hf] <;> rfl
  | @unlock cur m' op s ha hop hpre hcur hl hq =>
    simp only [List.mem_singleton, Obj.mutex.injEq] at ho
    subst ho ha
    exact OpName.mutexOf_of_unlocked hop
  | @handoff cur m' c rest op s ha hop hpre hcur hl hq =>
    simp only [List.mem_singleton, Obj.mutex.injEq] at ho
    subst ho ha
    exact OpName.mutexOf_of_unlocked hop

/-- Neither does it change who holds the mutex by what the calls return. -/
theorem Added.held {t : St} (ha : Added s t a) (hn : ¬ Concerns m s a) :
    Libco.held m t.trace = Libco.held m s.trace := by
  obtain ⟨es, he, htr | ⟨op, rfl, htr⟩⟩ := ha
  · rw [htr, held_quiet _ he]
  · have hop : op.name.unlocked ≠ some m := fun hop => hn (OpName.mutexOf_of_unlocked hop)
    rw [htr, held_call _ he, OpName.gives, if_neg hop]

theorem Returns.held {t : St} (hr : Returns s a t k r) (hn : ¬ Concerns m s a)
    (hi₀ : Inv False s.coCurrent s.toSched) (hi : Inv False t.coCurrent t.toSched)
    (h₀ : CallInv s) (hext : Extends s t) (hc : CallInv t) :
    Libco.held m (t.trace ++ [.ret k r]) = Libco.held m t.trace := by
  obtain ⟨⟨w, op, hmem⟩, -⟩ := hr.caller hi₀ hi h₀ hext hc
  have hop : op.mutexOf ≠ some m := by
    intro hop
    apply hn
    cases hr with
    | @call o r t hrun hm hcur =>
      obtain ⟨-, rfl⟩ := hc.unique _ _ _ _ _ (hm.begun hi₀ h₀) hmem
      exact hop
    | @resumed c rest e r t hq hf hres hcur =>
      obtain ⟨-, hsus, -⟩ := hi₀.ready_fields hq
      obtain ⟨op', hop', hfits⟩ := h₀.inside c (by simp [Routine.inCall, hsus, hf])
      obtain ⟨-, rfl⟩ := hc.unique _ _ _ _ _ (hext.mem hop') hmem
      exact ⟨c, rest, hq, (Frame.mutexOf_of_fits hfits).symm.trans hop⟩
  have hacq : op.acquires m r = false := by
    cases hacq : op.acquires m r with
    | false => rfl
    | true => exact absurd (OpName.mutexOf_of_acquires hacq) hop
  rw [held_ret (hc.callOf hmem), hacq, if_neg Bool.false_ne_true]

/-- **Steps that do not concern the mutex.** -/
theorem held_other (hp : Placed run s) (hl : leaks s a = false) (hs : step s a = some s')
    (hcall : CallInv s) (hn : ¬ Concerns m s a) (h : held m s.trace = holders m s.trace) :
    held m s'.trace = holders m s'.trace := by
  have hi₀ : Inv False s.coCurrent s.toSched := (hp.current hs).mono fun h => h.elim
  refine hcall.step_rule (K := fun t => Added s t a ∧ holders m t.trace = holders m s.trace)
    (J := fun t => held m t.trace = holders m t.trace) hp hl hs ⟨.refl s a, rfl⟩ ?_ ?_ ?_
  · rintro os p p' hm hi hc - ⟨hadd, hh⟩
    exact ⟨hm.added hi₀ hi hc hadd, (hm.holders hn hi).trans hh⟩
  · rintro t - - ⟨hadd, hh⟩
    rw [hadd.held hn, hh, h]
  · rintro t k r hi hc hext ⟨hadd, hh⟩ hr -
    have hhold : holders m (t.trace ++ [Event.ret k r]) = holders m t.trace :=
      holders_other (by simp [Event.obj])
    show held m (t.trace ++ [.ret k r]) = holders m (t.trace ++ [.ret k r])
    rw [hr.held hn hi₀ hi hcall hext hc, hhold, hadd.held hn, hh, h]

/-! ## Calls on the mutex -/

/-- A lock takes the mutex, finds it busy, or queues. -/
def LockHistory (m : Nat) (u : St) : Outcome → Prop
  | .ret r t => (r = .code .busy ∧ t.trace = u.trace) ∨
      (r = .code .ok ∧ t.trace = u.trace ++ [.take m u.coCurrent])
  | .swap t => ∃ c, t.trace = u.trace ++ [.wait m c]
  | .abort => True

theorem coMutexLock_history (u : St) (m : Nat) : LockHistory m u (coMutexLock u m) := by
  unfold coMutexLock
  cases hc : u.coCurrent with
  | none =>
    cases (u.mutexes m).locked with
    | true => exact .inl ⟨rfl, rfl⟩
    | false => exact .inr ⟨rfl, by rw [hc]; rfl⟩
  | some c =>
    cases (u.mutexes m).locked with
    | true => exact ⟨c, rfl⟩
    | false => exact .inr ⟨rfl, by rw [hc]; rfl⟩

theorem coMutexTrylock_history (u : St) (m : Nat) : LockHistory m u (coMutexTrylock u m) := by
  unfold coMutexTrylock
  cases (u.mutexes m).locked with
  | true => exact .inl ⟨rfl, rfl⟩
  | false => exact .inr ⟨rfl, rfl⟩

/-- Events that are neither calls nor returns and do not move a mutex. -/
def Idle (m : Nat) (es : List Event) : Prop :=
  ∀ e ∈ es, e.isCall = false ∧ ∀ hs, holdersStep m hs e = hs

theorem coMutexUnlock_history {u t : St} (hu : coMutexUnlock u m = some t) :
    ∃ es, t.trace = u.trace ++ .release m u.coCurrent :: es ∧ Idle m es := by
  obtain ⟨-, ⟨-, rfl⟩ | ⟨c, rest, -, rfl⟩⟩ := coMutexUnlock_cases hu
  · exact ⟨[], rfl, by simp [Idle]⟩
  · refine ⟨[.handoff m c, .ready c], ?_, by simp [Idle, Event.isCall, holdersStep]⟩
    simp [wakeAll, St.emit, St.setMutex]

/-- A condition wait returns at once and leaves no trace, or it queues and unlocks. -/
def WaitHistory (v m : Nat) (u : St) : Outcome → Prop
  | .ret _ t => t.trace = u.trace
  | .swap t => ∃ c k es, t.trace = u.trace ++ .waits v m c k :: .release m u.coCurrent :: es ∧
      Idle m es
  | .abort => True

theorem waits_history {u u' : St} {v m c k : Nat} (htr : u'.trace = u.trace ++ [.waits v m c k])
    (hcur : u'.coCurrent = u.coCurrent) :
    WaitHistory v m u (match coMutexUnlock u' m with
      | none => .abort
      | some t => .swap t) := by
  cases hu : coMutexUnlock u' m with
  | none => trivial
  | some t =>
    obtain ⟨es, hes, hidle⟩ := coMutexUnlock_history hu
    refine ⟨c, k, es, ?_, hidle⟩
    rw [hes, htr, hcur, List.append_assoc, List.singleton_append]

theorem coCondWait_history (u : St) (v m : Nat) : WaitHistory v m u (coCondWait u v m) := by
  unfold coCondWait
  split
  · rfl
  · exact waits_history rfl rfl

theorem coCondTimedwait_history (u : St) (v m timeoutMs now : Nat) (ok : Bool) :
    WaitHistory v m u (coCondTimedwait u v m timeoutMs now ok) := by
  unfold coCondTimedwait
  split
  · rfl
  split
  · rfl
  dsimp only
  split
  · rfl
  · exact waits_history rfl rfl

section

variable {u t : St} (hu : u.trace = h ++ [.call k w op]) (htr : t.trace = u.trace ++ es)
  (he : ∀ e ∈ es, e.isCall = false)
include hu htr he

/-- The history of a call that returns. -/
theorem history_answered (hi : CallInv (t.emit (.ret k r))) :
    held m (t.emit (.ret k r)).trace =
      (if op.acquires m r then op.gives m w (held m h) ++ [w] else op.gives m w (held m h)) ∧
    holders m (t.emit (.ret k r)).trace = es.foldl (holdersStep m) (holders m h) := by
  have hall : (t.emit (.ret k r)).trace = h ++ .call k w op :: es ++ [.ret k r] := by
    simp [St.emit, htr, hu]
  refine ⟨held_answer hi he hall, ?_⟩
  rw [hall, holders_append, holders_append]
  simp [holdersStep]

/-- The history of a call that suspends. -/
theorem history_suspended (y : Ctl) :
    held m { t with ctl := y }.trace = op.gives m w (held m h) ∧
      holders m { t with ctl := y }.trace = es.foldl (holdersStep m) (holders m h) := by
  have hall : t.trace = h ++ .call k w op :: es := by simp [htr, hu]
  show held m t.trace = _ ∧ holders m t.trace = _
  rw [hall, held_call h he, holders_append]
  simp [holdersStep]

end

theorem Idle.holders {es : List Event} (he : Idle m es) (hs : List (Option Nat)) :
    es.foldl (holdersStep m) hs = hs := by
  induction es generalizing hs with
  | nil => rfl
  | cons e es ih =>
    rw [List.foldl_cons, (he e (by simp)).2]
    exact ih (fun e' he' => he e' (by simp [he'])) hs

/-- A lock answers `CO_OK` when it took the mutex, and only then. -/
theorem LockHistory.held {u : St} {o : Outcome} (ho : LockHistory m u o)
    (hu : u.trace = s.trace ++ [.call k w op]) (hcur : u.coCurrent = w)
    (hi : CallInv (settle s k o)) (hop : op = .lock m ∨ op = .trylock m)
    (h : held m s.trace = holders m s.trace) :
    Libco.held m (settle s k o).trace = Libco.holders m (settle s k o).trace := by
  have hgive : ∀ hs, op.gives m w hs = hs := by
    intro hs
    rcases hop with rfl | rfl <;> rfl
  cases o with
  | ret r t =>
    rcases ho with ⟨rfl, htr⟩ | ⟨rfl, htr⟩
    · have hacq : op.acquires m (.code .busy) = false := by
        rcases hop with rfl | rfl <;> simp [OpName.acquires]
      have htr' : t.trace = u.trace ++ [] := by simpa using htr
      obtain ⟨h1, h2⟩ := history_answered (m := m) hu htr' (by simp) hi
      rw [settle, h1, h2, hacq, if_neg Bool.false_ne_true, hgive, h]
      rfl
    · have hacq : op.acquires m (.code .ok) = true := by
        rcases hop with rfl | rfl <;> simp [OpName.acquires]
      obtain ⟨h1, h2⟩ := history_answered (m := m) hu htr (by simp [Event.isCall]) hi
      rw [settle, h1, h2, hacq, if_pos rfl, hgive, h, hcur]
      simp [holdersStep]
  | swap t =>
    obtain ⟨c, htr⟩ := ho
    obtain ⟨h1, h2⟩ := history_suspended (m := m) hu htr (by simp [Event.isCall]) .loop
    rw [settle, h1, h2, hgive, h]
    simp [holdersStep]
  | abort => exact h

/-- The holder gives up the mutex in a condition wait, or is back in its own code. -/
theorem WaitHistory.held {u : St} {v : Nat} {o : Outcome} (ho : WaitHistory v m u o)
    (hu : u.trace = s.trace ++ [.call k w op]) (hcur : u.coCurrent = w)
    (hi : CallInv (settle s k o)) (hop : op = .condWait v m ∨ op = .condTimedwait v m)
    (hw : held m s.trace = [w]) (hh : holders m s.trace = [w]) :
    Libco.held m (settle s k o).trace = Libco.holders m (settle s k o).trace := by
  have hgive : op.gives m w [w] = [] := by
    rcases hop with rfl | rfl <;> simp [OpName.gives, OpName.unlocked]
  cases o with
  | ret r t =>
    have hacq : op.acquires m r = true := by
      rcases hop with rfl | rfl <;> simp [OpName.acquires]
    have htr : t.trace = u.trace ++ [] := by simpa [WaitHistory] using ho
    obtain ⟨h1, h2⟩ := history_answered (m := m) hu htr (by simp) hi
    rw [settle, h1, h2, hacq, if_pos rfl, hw, hgive, hh]
    rfl
  | swap t =>
    obtain ⟨c, k', es, htr, hidle⟩ := ho
    have hquiet : ∀ e ∈ Event.waits v m c k' :: .release m u.coCurrent :: es,
        e.isCall = false := by
      simp only [List.mem_cons]
      rintro e (rfl | rfl | he)
      · rfl
      · rfl
      · exact (hidle e he).1
    obtain ⟨h1, h2⟩ := history_suspended (m := m) hu htr hquiet .loop
    rw [settle, h1, h2, hw, hgive, List.foldl_cons, List.foldl_cons, hidle.holders, hh, hcur]
    simp [holdersStep]
  | abort =>
    show Libco.held m s.trace = Libco.holders m s.trace
    rw [hw, hh]

/-- **Calls on the mutex.** -/
theorem held_called {op : Op} (hi : CallInv s') (hm : MutexInv m s)
    (hd : DisciplinedAt m s (.call op)) (hop : op.name.mutexOf = some m)
    (hs : step s (.call op) = some s') (h : held m s.trace = holders m s.trace) :
    held m s'.trace = holders m s'.trace := by
  obtain ⟨-, rfl⟩ := step_call hs
  have hu : (beginCall s op).trace = s.trace ++ [.call s.calls s.coCurrent op.name] :=
    beginCall_trace s op
  have hcur : (beginCall s op).coCurrent = s.coCurrent := beginCall_coCurrent s op
  have hmine : op.name.unlocked = some m → holders m s.trace = [s.coCurrent] := by
    intro hun
    have hmem := hd op rfl hun
    cases hm.phase with
    | free _ hh _ _ _ => simp [hh] at hmem
    | held w _ hh _ _ =>
      rw [hh, List.mem_singleton] at hmem
      rw [hh, hmem]
    | handed _ _ hh _ _ => simp [hh] at hmem
  cases op <;> simp only [Op.name, OpName.mutexOf, Option.some.injEq, reduceCtorEq] at hop
  case mutexLock m' =>
    subst hop
    exact (coMutexLock_history _ m').held hu hcur hi (.inl rfl) h
  case mutexTrylock m' =>
    subst hop
    exact (coMutexTrylock_history _ m').held hu hcur hi (.inr rfl) h
  case mutexUnlock m' =>
    subst hop
    cases hun : coMutexUnlock (beginCall s (.mutexUnlock m')) m' with
    | none =>
      simp only [runOp, hun, settle]
      exact h
    | some t =>
      obtain ⟨es, htr, hidle⟩ := coMutexUnlock_history hun
      have hquiet : ∀ e ∈ Event.release m' (beginCall s (.mutexUnlock m')).coCurrent :: es,
          e.isCall = false := by
        simp only [List.mem_cons]
        rintro e (rfl | he)
        · rfl
        · exact (hidle e he).1
      simp only [runOp, hun, settle] at hi ⊢
      obtain ⟨h1, h2⟩ := history_answered (m := m') hu htr hquiet hi
      rw [h1, h2, List.foldl_cons, hidle.holders, hcur, h]
      simp [OpName.acquires, OpName.gives, OpName.unlocked, Op.name, holdersStep]
  case condWait v m' =>
    subst hop
    exact (coCondWait_history _ v m').held hu hcur hi (.inl rfl) (h.trans (hmine rfl)) (hmine rfl)
  case condTimedwait v m' timeoutMs now ok =>
    subst hop
    exact (coCondTimedwait_history _ v m' timeoutMs now ok).held hu hcur hi (.inr rfl)
      (h.trans (hmine rfl)) (hmine rfl)

/-! ## The end of a suspended call -/

/-- The wait is a `co_cond_timedwait`. -/
def Frame.timedCond : Frame → Bool
  | .timedWait _ _ | .timedRelock _ _ => true
  | _ => false

/-- The lock at the end of a suspended call. -/
structure Locked (m c : Nat) (u t : St) : Prop where
  trace : ∃ x, t.trace = u.trace ++ [x] ∧ (x = .take m (some c) ∨ x = .enter m c)
  owner : t.mutexes m = ⟨true, some c⟩
  co : t.co = u.co

theorem resumeLock_locked {u t : St} (hr : resumeLock u c m = .ret r t) :
    Locked m c u t ∧ r = .code .ok := by
  unfold resumeLock at hr
  split at hr
  · rename_i hown
    cases hr
    simp only [Bool.and_eq_true, beq_iff_eq] at hown
    refine ⟨⟨⟨_, rfl, .inr rfl⟩, ?_, rfl⟩, rfl⟩
    show u.mutexes m = _
    rw [← hown.1, ← hown.2]
  · cases hr

theorem relock_locked {u t : St} {g : Frame} {q : St → Ret} (hcur : u.coCurrent = some c)
    (hr : relock u c m g q = .ret r t) : Locked m c u t ∧ r = q t := by
  unfold relock coMutexLock at hr
  rw [hcur] at hr
  dsimp only at hr
  cases hl : (u.mutexes m).locked with
  | false =>
    simp only [hl, Bool.not_false, if_true] at hr
    cases hr
    exact ⟨⟨⟨_, rfl, .inl rfl⟩, by simp [St.setMutex, St.emit], rfl⟩, rfl⟩
  | true =>
    simp only [hl, Bool.not_true, Bool.false_eq_true, if_false] at hr
    cases hr

theorem relock_suspends {u t : St} {g : Frame} {q : St → Ret}
    (hr : relock u c m g q = .swap t) : ∃ d, t.trace = u.trace ++ [.wait m d] := by
  have hlock := coMutexLock_history u m
  unfold relock at hr
  split at hr
  · cases hr
  · rename_i t' ht
    rw [ht] at hlock
    cases hr
    exact hlock
  · cases hr

/-- A call suspended in a lock, or before one, gets to its end. -/
theorem resume_lockOf {e : ResumeEnv} {f : Frame} {t u : St} (hf : f.lockOf = some m)
    (hctl : u.ctl = .running c) (hr : resume u c e f = .ret r t) :
    (∃ x, t.trace = u.trace ++ [x] ∧ (x = .take m (some c) ∨ x = .enter m c)) ∧
      t.mutexes m = ⟨true, some c⟩ ∧
      r = .code (if f.timedCond && (u.co c).timedOut then .timeout else .ok) := by
  have hcur : u.coCurrent = some c := by simp [St.coCurrent, hctl]
  cases f <;> simp [Frame.lockOf] at hf
  case lock m' =>
    subst hf
    obtain ⟨h1, h2⟩ := resumeLock_locked hr
    exact ⟨h1.trace, h1.owner, h2⟩
  case condWait v m' =>
    subst hf
    obtain ⟨h1, h2⟩ := relock_locked hcur hr
    exact ⟨h1.trace, h1.owner, h2⟩
  case condRelock v m' =>
    subst hf
    obtain ⟨h1, h2⟩ := resumeLock_locked hr
    exact ⟨h1.trace, h1.owner, h2⟩
  case timedWait v m' =>
    subst hf
    simp only [resume, resumeTimedWait] at hr
    obtain ⟨h1, h2⟩ := relock_locked (by split <;> exact hcur) hr
    have hsame : ∀ x : St, (if !(u.co c).timedOut then
        { u with timerHeap := (coTimerHeapRemove u.key u.timerHeap c).2 } else u) = x →
        x.trace = u.trace ∧ x.co = u.co := by
      rintro x rfl
      split <;> exact ⟨rfl, rfl⟩
    obtain ⟨ht1, ht2⟩ := hsame _ rfl
    refine ⟨ht1 ▸ h1.trace, h1.owner, ?_⟩
    rw [h2, timedResult, h1.co, ht2]
    simp [Frame.timedCond]
  case timedRelock v m' =>
    subst hf
    simp only [resume] at hr
    cases ho : resumeLock u c m' with
    | ret r' t' =>
      rw [ho] at hr
      cases hr
      obtain ⟨h1, -⟩ := resumeLock_locked ho
      refine ⟨h1.trace, h1.owner, ?_⟩
      rw [timedResult, h1.co]
      simp [Frame.timedCond]
    | swap t' =>
      rw [ho] at hr
      cases hr
    | abort =>
      rw [ho] at hr
      cases hr

/-- It finds the mutex taken, and suspends once more. -/
theorem resume_lockOf_suspends {e : ResumeEnv} {f : Frame} {t u : St} (hf : f.lockOf = some m)
    (hr : resume u c e f = .swap t) : ∃ d, t.trace = u.trace ++ [.wait m d] := by
  have hnot : ∀ {x : Nat} {t' : St}, resumeLock u c x ≠ .swap t' := by
    intro x t'
    unfold resumeLock
    split <;> simp
  cases f <;> simp [Frame.lockOf] at hf
  case lock m' => exact absurd hr hnot
  case condRelock v m' => exact absurd hr hnot
  case condWait v m' =>
    subst hf
    exact relock_suspends hr
  case timedWait v m' =>
    subst hf
    simp only [resume, resumeTimedWait] at hr
    obtain ⟨d, hd⟩ := relock_suspends hr
    refine ⟨d, hd.trans ?_⟩
    split <;> rfl
  case timedRelock v m' =>
    simp only [resume] at hr
    split at hr
    · cases hr
    · rename_i o ho
      rw [hr] at ho
      exact absurd hr hnot

/-- **A call on the mutex goes on.** -/
theorem held_resumed {e : ResumeEnv} {rest : List Nat} (hi₀ : Inv False s.coCurrent s.toSched)
    (hcall : CallInv s) (hi : CallInv s') (hq : s.queues .ready = c :: rest)
    (hf : (s.co c).frame.lockOf = some m) (hs : step s (.schedule e) = some s')
    (h : held m s.trace = holders m s.trace) : held m s'.trace = holders m s'.trace := by
  obtain ⟨-, rfl⟩ := step_schedule hs
  have hne : (s.co c).frame ≠ .entry := by
    intro he
    rw [he] at hf
    cases hf
  obtain ⟨-, hsus, -⟩ := hi₀.ready_fields hq
  obtain ⟨op, hop, hfits⟩ := hcall.inside c (by simp [Routine.inCall, hsus, hne])
  have hsched : coSchedulerSchedule s e = settle s (s.co c).call
      (resume (switchTo { s with queues := Function.update s.queues .ready rest } c) c e
        (s.co c).frame) := by
    rcases schedule_cases s e with ⟨hnil, -⟩ | ⟨c', rest', hq', ⟨hent, -⟩ | ⟨-, hx⟩⟩
    · rw [hq] at hnil
      cases hnil
    · rw [hq] at hq'
      cases hq'
      exact absurd hent hne
    · rw [hq] at hq'
      cases hq'
      exact hx
  rw [hsched] at hi ⊢
  have hu : (switchTo { s with queues := Function.update s.queues .ready rest } c).trace =
      s.trace ++ [.dispatch c] := rfl
  have hdis : held m (s.trace ++ [Event.dispatch c]) = holders m (s.trace ++ [Event.dispatch c]) := by
    rw [held_quiet _ (by simp [Event.isCall]), holders_append]
    simpa [holdersStep] using h
  cases hr : resume (switchTo { s with queues := Function.update s.queues .ready rest } c) c e
      (s.co c).frame with
  | ret r t =>
    obtain ⟨⟨x, htr, hx⟩, -, hres⟩ := resume_lockOf hf rfl hr
    rw [hu] at htr
    have hxq : ∀ e ∈ [x], e.isCall = false := by
      rcases hx with rfl | rfl <;> simp [Event.isCall]
    have hxh : ∀ hs, holdersStep m hs x = hs ++ [some c] := by
      rcases hx with rfl | rfl <;> simp [holdersStep]
    have hacq : op.acquires m r = true := by
      cases hfr : (s.co c).frame <;> rw [hfr] at hf hfits hres <;> cases op <;>
        simp [Frame.fits, Frame.lockOf] at hf hfits <;>
        simp [OpName.acquires, Frame.timedCond, hres, ← hf, hfits]
    rw [hr] at hi
    have hc : Libco.callOf t.trace (s.co c).call = some (some c, op) := by
      have hmem : .call (s.co c).call (some c) op ∈ t.trace := by
        rw [htr]
        simp [hop]
      refine callOf_eq hmem fun w' op' hm' => hi.unique (s.co c).call w' op' (some c) op ?_ ?_
      · exact List.mem_append_left _ hm'
      · exact List.mem_append_left _ hmem
    show held m (t.trace ++ [.ret (s.co c).call r]) = holders m (t.trace ++ [.ret (s.co c).call r])
    rw [held_ret hc, hacq, if_pos rfl, holders_other (by simp [Event.obj]), htr,
      held_quiet _ hxq, holders_append, hdis]
    simp [hxh]
  | swap t =>
    obtain ⟨d, htr⟩ := resume_lockOf_suspends hf hr
    show held m t.trace = holders m t.trace
    rw [htr, hu, held_quiet _ (by simp [Event.isCall]), holders_append, hdis]
    simp [holdersStep]
  | abort => exact h

/-! ## Runs -/

theorem held_step (hp : Placed run s) (hl : leaks s a = false) (hs : step s a = some s')
    (hcall : CallInv s) (hm : MutexInv m s) (hd : DisciplinedAt m s a)
    (h : held m s.trace = holders m s.trace) : held m s'.trace = holders m s'.trace := by
  by_cases hn : Concerns m s a
  swap
  · exact held_other hp hl hs hcall hn h
  have hi : CallInv s' := hcall.step hp hl hs
  have hi₀ : Inv False s.coCurrent s.toSched := (hp.current hs).mono fun h => h.elim
  cases a <;> simp only [Concerns] at hn
  case call op => exact held_called hi hm hd hn hs h
  case schedule e =>
    obtain ⟨c, rest, hq, hf⟩ := hn
    exact held_resumed hi₀ hcall hi hq hf hs h

/-- What a mutex is for. -/
structure MutexSound (m : Nat) (s : St) : Prop where
  /-- the calls that returned with the mutex and have not given it up are those that took
  it, or were let in, and have not released it -/
  answers : held m s.trace = holders m s.trace
  /-- at most one caller holds it -/
  exclusive : (held m s.trace).length ≤ 1
  /-- the holder is the owner -/
  holder_owns : ∀ w ∈ held m s.trace, s.mutexes m = ⟨true, w⟩
  /-- the owner holds it, or has been handed it and was not dispatched since -/
  owner : (s.mutexes m).locked = true → held m s.trace = [(s.mutexes m).owner] ∨
    ∃ c, (s.mutexes m).owner = some c ∧ wokenAt s (.mutex m) c
  /-- nobody waits for an unlocked mutex -/
  unlocked : (s.mutexes m).locked = false → s.queues (.mutex m) = [] ∧ held m s.trace = []
  /-- blocked locks return in the order they blocked: those that returned, the one
  that was handed the mutex, those still queued -/
  fifo : ∃ handed, waitSeq m s.trace = enterSeq m s.trace ++ handed ++ s.queues (.mutex m) ∧
    handed.length ≤ 1 ∧ ∀ c, c ∈ handed ↔ wokenAt s (.mutex m) c
  /-- no lock or trylock overtakes a blocked one -/
  no_overtaking : Lawful (takeLaw m) s.trace

theorem MutexInv.sound (h : MutexInv m s) (ha : held m s.trace = holders m s.trace) :
    MutexSound m s := by
  obtain ⟨hex, hown⟩ := h.exclusive
  rw [← ha] at hex hown
  cases h.phase with
  | free hl hh hq hw hs =>
    rw [← ha] at hh
    refine ⟨ha, hex, hown, by simp [hl], fun _ => ⟨hq, hh⟩, ⟨[], ?_⟩, h.law⟩
    simpa [hs, hq] using hw
  | held w hl hh hw hs =>
    rw [← ha] at hh
    refine ⟨ha, hex, hown, by simp [hh, hl], by simp [hl], ⟨[], ?_⟩, h.law⟩
    simpa [hs] using hw
  | handed c hl hh hw hs =>
    refine ⟨ha, hex, hown, fun _ => .inr ⟨c, by rw [hl], (hw c).mpr rfl⟩, by simp [hl],
      ⟨[c], ?_⟩, h.law⟩
    simp [hs, hw]

theorem Plain.held {cfg : Config} (h : Plain cfg s) :
    CallInv s ∧ ∀ m, Libco.held m s.trace = Libco.holders m s.trace := by
  have hall : Plain cfg s ∧ CallInv s ∧ ∀ m, Libco.held m s.trace = Libco.holders m s.trace := by
    refine h.invariant
      (P := fun s => Plain cfg s ∧ CallInv s ∧ ∀ m, Libco.held m s.trace = Libco.holders m s.trace)
      ⟨.init, callInv_init cfg, fun _ => rfl⟩ ?_
    rintro s a s' ⟨hpl, hcall, hh⟩ hg hs
    obtain ⟨hp, hn, hm, -⟩ := hpl.inv
    obtain ⟨hio, -, hd⟩ := plain_split hg
    have hl : leaks s a = false := hn.leaks hio
    exact ⟨hpl.next a hg hs, hcall.step hp hl hs, fun m =>
      held_step hp hl hs hcall (hm m) (disciplinedAt hd m) (hh m)⟩
  exact hall.2

/-- **Mutual exclusion with FIFO hand-off.** -/
theorem mutual_exclusion_fifo {cfg : Config} (h : Plain cfg s) (m : Nat) :
    MutexSound m s ∧ s.ctl ≠ .aborted :=
  ⟨(h.inv.2.2.1 m).sound (h.held.2 m), h.inv.2.2.2⟩

/-- Coroutine 1 locks and yields, 2 blocks, 1 unlocks and finishes, 2 enters. -/
def handoffRun : List Act :=
  [spawnOk, spawnOk, .run] ++ turn ++ [Act.call (.mutexLock 0), .call .yieldNow] ++ turn ++
    [Act.call (.mutexLock 0)] ++ turn ++ [Act.call (.mutexUnlock 0), .finish] ++ turn

theorem mutual_exclusion_fifo_handoff :
    ∃ s, runGuarded step plain (init (byteConfig 0)) handoffRun = some s ∧
      enterSeq 0 s.trace = [2] ∧ held 0 s.trace = [some 2] ∧
      MutexSound 0 s ∧ s.ctl ≠ .aborted := by
  have hrun : (runGuarded step plain (init (byteConfig 0)) handoffRun).map
      (fun s => (enterSeq 0 s.trace, held 0 s.trace)) = some ([2], [some 2]) := by
    decide +kernel
  obtain ⟨s, hs, he⟩ := Option.map_eq_some_iff.mp hrun
  simp only [Prod.mk.injEq] at he
  exact ⟨s, hs, he.1, he.2, mutual_exclusion_fifo (reach_of_runGuarded hs) 0⟩

end Libco
