import Libco.CallNumbers
import Libco.Exclusion

/-!
# `co::Mutex`

The C++ wrapper of one mutex `m` (`libcoxx/src/sync.cpp`). `lock()` is `void`:
it hands nothing on of what `co_mutex_lock` answers. `inside` lists the callers
between a `lock()` that returned, or a `try_lock()` that answered true, and
their `unlock()`; a caller outside any coroutine is `none`.

The list is the list of holders the history of the mutex gives, as long as no
`lock()` outside a coroutine finds the mutex taken.
-/

namespace Libco.Coxx
open Lib

variable {s s' : St} {a : Act} {c m : Nat}

/-! ## The wrapper -/

structure MutexUse where
  st : St
  inside : List (Option Nat)

inductive MutexAct where
  | lock
  | unlock
  | tryLock
  /-- anything else the program does -/
  | other (a : Act)

/-- `Mutex::lock`. It has returned when control is still with its caller. -/
def MutexUse.lock (m : Nat) (t : MutexUse) : Option MutexUse :=
  (step t.st (.call (.mutexLock m))).map fun s =>
    ⟨s, if s.ctl = t.st.ctl then t.inside ++ [t.st.coCurrent] else t.inside⟩

/-- `Mutex::try_lock`. -/
def tryLock (m : Nat) (s : St) : Bool :=
  match runOp (beginCall s (.mutexTrylock m)) s.calls (.mutexTrylock m) with
  | .ret r _ => r = .code .ok
  | _ => false

/-- Called by somebody who has locked the mutex. -/
def MutexUse.unlock (m : Nat) (t : MutexUse) : Option MutexUse :=
  if t.inside.contains t.st.coCurrent then
    (step t.st (.call (.mutexUnlock m))).map fun s => ⟨s, t.inside.erase t.st.coCurrent⟩
  else none

/-- The coroutine whose blocked `lock()` returns in the step from `s` to `s'`. -/
def returnsFrom (m : Nat) (s : St) (a : Act) (s' : St) : List (Option Nat) :=
  match a, s.queues .ready with
  | .schedule _, c :: _ =>
    if (s.co c).frame = .lock m ∧ s'.coCurrent = some c then [some c] else []
  | _, _ => []

/-- The program uses the mutex through the wrapper only. -/
def usesMutex (m : Nat) : Act → Bool
  | .call op => op.name.objs.contains (.mutex m)
  | _ => false

def MutexUse.step (m : Nat) (t : MutexUse) : MutexAct → Option MutexUse
  | .lock => t.lock m
  | .unlock => t.unlock m
  | .tryLock =>
    (Libco.step t.st (.call (.mutexTrylock m))).map fun s =>
      ⟨s, if tryLock m t.st then t.inside ++ [t.st.coCurrent] else t.inside⟩
  | .other a =>
    if usesMutex m a then none
    else (Libco.step t.st a).map fun s => ⟨s, t.inside ++ returnsFrom m t.st a s⟩

/-- The machine's own action. -/
def MutexAct.act (m : Nat) : MutexAct → Act
  | .lock => .call (.mutexLock m)
  | .unlock => .call (.mutexUnlock m)
  | .tryLock => .call (.mutexTrylock m)
  | .other a => a

theorem MutexUse.step_st {t t' : MutexUse} {b : MutexAct} (h : t.step m b = some t') :
    Libco.step t.st (b.act m) = some t'.st := by
  cases b with
  | lock | tryLock =>
    obtain ⟨s, hs, rfl⟩ := Option.map_eq_some_iff.mp h
    exact hs
  | unlock =>
    simp only [MutexUse.step, MutexUse.unlock] at h
    split at h
    · obtain ⟨s, hs, rfl⟩ := Option.map_eq_some_iff.mp h
      exact hs
    · cases h
  | other a =>
    simp only [MutexUse.step] at h
    split at h
    · cases h
    · obtain ⟨s, hs, rfl⟩ := Option.map_eq_some_iff.mp h
      exact hs

/-! ## Runs -/

/-- No timed I/O wait leaves its timer behind (only other calls can do that), and no
`lock()` outside a coroutine finds the mutex taken. -/
def lockable (m : Nat) (t : MutexUse) (b : MutexAct) : Bool :=
  !leaks t.st (b.act m) &&
    match b with
    | .lock => t.st.coCurrent.isSome || !(t.st.mutexes m).locked
    | _ => true

def Lockable (m : Nat) (cfg : Config) : MutexUse → Prop :=
  Reach (MutexUse.step m) (fun t b => lockable m t b = true) ⟨init cfg, []⟩

/-- Only `lock()` waits for this mutex. -/
def OnlyLocks (m : Nat) (s : St) : Prop :=
  ∀ c, Obj.mutex m ∈ (s.co c).frame.mentions → (s.co c).frame = .lock m

structure MutexUse.Inv (m : Nat) (t : MutexUse) : Prop where
  placed : Placed False t.st
  mutex : MutexInv m t.st
  only : OnlyLocks m t.st
  inside : t.inside = holders m t.st.trace

theorem Frame.fits_lock {f : Frame} : f.fits (.lock m) = true ↔ f = .lock m := by
  cases f <;> simp [Frame.fits]

/-- What a call of the wrapper, or another call, leaves waiting for the mutex. -/
theorem OnlyLocks.step (h : OnlyLocks m s) (hp : Placed False s) (hl : leaks s a = false)
    (hs : Libco.step s a = some s')
    (ha : ∀ op, a = .call op → Obj.mutex m ∈ op.name.objs →
      op.name = .lock m ∨ op.name = .trylock m ∨ op.name = .unlock m) : OnlyLocks m s' := by
  intro c hc
  rcases step_inCall hp hl hs (inCall_of_mentions hc) with hst | ⟨op, rfl, -, hf⟩
  · rw [hst.mentions] at hc
    exact Frame.fits_lock.mp (hst.2.2 _ (Frame.fits_lock.mpr (h c hc)))
  · rw [Frame.mentions_of_fits hf] at hc
    rcases ha op rfl hc with hop | hop | hop
    · rw [hop] at hf
      exact Frame.fits_lock.mp hf
    · rw [hop] at hf
      cases hfr : (s'.co c).frame <;> simp [hfr, Frame.fits] at hf
    · rw [hop] at hf
      cases hfr : (s'.co c).frame <;> simp [hfr, Frame.fits] at hf

/-- An action that does not name the mutex leaves its holders alone. -/
theorem holders_of_other (h : MutexInv m s) (hp : Placed False s) (hl : leaks s a = false)
    (hs : Libco.step s a = some s') (ha : ¬ a.names s (.mutex m)) :
    holders m s'.trace = holders m s.trace := by
  obtain ⟨es, hes, he⟩ := (step_sameFor hp hl hs ha).trace
  rw [hes]
  exact (mutex_history_other he h.law).1

/-! ## The calls -/

theorem holders_beginCall (h : MutexInv m s) (op : Op) :
    holders m (beginCall s op).trace = holders m s.trace := by
  rw [beginCall_trace]
  exact (mutex_history_other (by simp [Event.obj]) h.law).1

/-- `lock()`: a coroutine gets the mutex or blocks; outside, it is free. -/
theorem MutexUse.lock_inside {t t' : MutexUse} (h : t.Inv m)
    (hfree : t.st.coCurrent.isSome = true ∨ (t.st.mutexes m).locked = false)
    (hs : t.lock m = some t') : t'.inside = holders m t'.st.trace := by
  obtain ⟨s, hstep, rfl⟩ := Option.map_eq_some_iff.mp hs
  have hbegin := holders_beginCall h.mutex (.mutexLock m)
  have hctl := beginCall_ctl t.st (.mutexLock m)
  obtain ⟨-, rfl⟩ := step_call hstep
  simp only [runOp, coMutexLock, beginCall_coCurrent, beginCall_mutexes, h.inside]
  cases hc : t.st.coCurrent with
  | none =>
    have hl : (t.st.mutexes m).locked = false := by simpa [hc] using hfree
    simp only [hl, Bool.false_eq_true, if_false, settle, St.emit, St.setMutex, hctl, if_true]
    rw [holders_append, holders_append, hbegin]
    simp [holdersStep]
  | some c =>
    have hrun := coCurrent_ctl hc
    cases hl : (t.st.mutexes m).locked with
    | false =>
      simp only [Bool.not_false, if_true, settle, St.emit, St.setMutex, hctl]
      rw [holders_append, holders_append, hbegin]
      simp [holdersStep]
    | true =>
      simp only [Bool.not_true, Bool.false_eq_true, if_false, settle, coQueuePushBack, St.modify,
        St.emit, hrun, reduceCtorEq]
      rw [holders_append, hbegin]
      simp [holdersStep]

theorem MutexUse.tryLock_inside {t t' : MutexUse} (h : t.Inv m)
    (hs : t.step m .tryLock = some t') : t'.inside = holders m t'.st.trace := by
  obtain ⟨s, hstep, rfl⟩ := Option.map_eq_some_iff.mp hs
  have hbegin := holders_beginCall h.mutex (.mutexTrylock m)
  obtain ⟨-, rfl⟩ := step_call hstep
  simp only [tryLock, runOp, coMutexTrylock, beginCall_coCurrent, beginCall_mutexes, h.inside]
  cases hl : (t.st.mutexes m).locked with
  | false =>
    simp only [Bool.false_eq_true, if_false, settle, St.emit, St.setMutex, decide_true, if_true]
    rw [holders_append, holders_append, hbegin]
    simp [holdersStep]
  | true =>
    simp only [if_true, settle, St.emit, Ret.code.injEq, reduceCtorEq, decide_false,
      Bool.false_eq_true, if_false]
    rw [holders_append, hbegin]
    simp [holdersStep]

theorem MutexUse.unlock_inside {t t' : MutexUse} (h : t.Inv m) (hs : t.unlock m = some t') :
    t'.inside = holders m t'.st.trace := by
  unfold MutexUse.unlock at hs
  split at hs
  swap
  · cases hs
  rename_i hin
  obtain ⟨s, hstep, rfl⟩ := Option.map_eq_some_iff.mp hs
  have hbegin := holders_beginCall h.mutex (.mutexUnlock m)
  have hl : ((beginCall t.st (.mutexUnlock m)).mutexes m).locked = true := by
    rw [beginCall_mutexes]
    rw [h.inside] at hin
    cases h.mutex.phase with
    | free _ hh _ _ _ => simp [hh] at hin
    | held w hl _ _ _ => rw [hl]
    | handed c hl _ _ _ => rw [hl]
  obtain ⟨-, rfl⟩ := step_call hstep
  simp only [runOp]
  cases hu : coMutexUnlock (beginCall t.st (.mutexUnlock m)) m with
  | none => simp [coMutexUnlock, hl, coQueuePopFront] at hu; split at hu <;> cases hu
  | some u =>
    obtain ⟨-, ⟨-, rfl⟩ | ⟨c, rest, -, rfl⟩⟩ := coMutexUnlock_cases hu
    · simp only [settle, St.emit, St.setMutex, beginCall_coCurrent, h.inside]
      rw [holders_append, holders_append, hbegin]
      simp [holdersStep]
    · simp only [settle, St.emit, St.setMutex, wakeAll, beginCall_coCurrent, h.inside]
      rw [holders_append, holders_append, holders_append, holders_append, hbegin]
      simp [holdersStep]

/-! ## Everything else -/

/-- The dispatch of a coroutine that is suspended in a call. -/
theorem schedule_settles {rest : List Nat} {e : ResumeEnv} (hq : s.queues .ready = c :: rest)
    (hf : (s.co c).frame ≠ .entry) (hs : Libco.step s (.schedule e) = some s') :
    s' = settle s (s.co c).call (resume
      (switchTo { s with queues := Function.update s.queues .ready rest } c) c e (s.co c).frame) := by
  rw [(step_schedule hs).2, schedule_resumes hq hf]

/-- The dispatch of a coroutine blocked in `co_mutex_lock`: the assertion fails, or the
lock returns and the coroutine owns the mutex. -/
theorem schedule_lock {rest : List Nat} {e : ResumeEnv} (hq : s.queues .ready = c :: rest)
    (hf : (s.co c).frame = .lock m ∨ ∃ v, (s.co c).frame = .condRelock v m)
    (hs : Libco.step s (.schedule e) = some s') :
    s' = { s with ctl := .aborted } ∨
      (s.mutexes m = ⟨true, some c⟩ ∧
        s' = ((switchTo { s with queues := Function.update s.queues .ready rest } c).emit
          (.enter m c)).emit (.ret (s.co c).call (.code .ok))) := by
  have hres : ∀ t, resume t c e (s.co c).frame = resumeLock t c m := by
    intro t
    rcases hf with hf | ⟨v, hf⟩ <;> rw [hf] <;> rfl
  have hne : (s.co c).frame ≠ .entry := by
    rcases hf with hf | ⟨v, hf⟩ <;> simp [hf]
  rw [schedule_settles hq hne hs, hres]
  unfold resumeLock
  split
  · rename_i hown
    simp only [switchTo, St.emit, St.modify, Bool.and_eq_true, beq_iff_eq] at hown
    refine .inr ⟨?_, rfl⟩
    rw [← hown.1, ← hown.2]
  · exact .inl rfl

theorem MutexUse.other_inside {t t' : MutexUse} (h : t.Inv m) (hl : leaks t.st a = false)
    (hs : t.step m (.other a) = some t') : t'.inside = holders m t'.st.trace := by
  simp only [MutexUse.step] at hs
  split at hs
  · cases hs
  rename_i hu
  obtain ⟨s, hstep, rfl⟩ := Option.map_eq_some_iff.mp hs
  simp only [h.inside]
  by_cases hn : a.names t.st (.mutex m)
  · cases a with
    | call op => exact absurd hn (by simpa [usesMutex, Act.names] using hu)
    | timers now =>
      obtain ⟨c, ht, ho⟩ := hn
      cases hf : (t.st.co c).frame <;> simp [hf, Frame.timed, Frame.objs] at ht ho
    | schedule e =>
      obtain ⟨c, rest, hq, ho⟩ := hn
      have hf := h.only c ho
      rcases schedule_lock hq (.inl hf) hstep with rfl | ⟨-, rfl⟩
      · simp [returnsFrom, hq, St.coCurrent]
      · simp only [returnsFrom, hq, hf, St.emit, switchTo, St.modify, St.coCurrent, and_self, if_true]
        rw [holders_append, holders_append, holders_append]
        simp [holdersStep]
    | run | idle p | spawn e | finish => cases hn
  · rw [holders_of_other h.mutex h.placed hl hstep hn]
    have : returnsFrom m t.st a s = [] := by
      unfold returnsFrom
      split
      · rename_i c rest hq
        refine if_neg fun hc => hn ⟨c, rest, hq, ?_⟩
        simp [hc.1, Frame.mentions]
      · rfl
    rw [this, List.append_nil]

theorem MutexUse.Inv.step {t t' : MutexUse} {b : MutexAct} (h : t.Inv m)
    (hg : lockable m t b = true) (hs : t.step m b = some t') : t'.Inv m := by
  simp only [lockable, Bool.and_eq_true, Bool.not_eq_true'] at hg
  obtain ⟨hl, hfree⟩ := hg
  have hst := t.step_st hs
  have honly : ∀ op, b.act m = .call op → Obj.mutex m ∈ op.name.objs →
      op.name = .lock m ∨ op.name = .trylock m ∨ op.name = .unlock m := by
    intro op hop hm
    cases b with
    | lock | unlock | tryLock =>
      cases hop
      simp [Op.name]
    | other a =>
      simp only [MutexAct.act] at hop
      subst hop
      simp [MutexUse.step, usesMutex, hm] at hs
  have hdisc : DisciplinedAt m t.st (b.act m) := by
    intro op hop hun
    cases b with
    | lock | tryLock =>
      cases hop
      cases hun
    | unlock =>
      rw [← h.inside]
      simp only [MutexUse.step, MutexUse.unlock] at hs
      split at hs
      · rename_i hin
        simpa using hin
      · cases hs
    | other a =>
      simp only [MutexAct.act] at hop
      subst hop
      simp [MutexUse.step, usesMutex, unlocked_objs hun] at hs
  refine ⟨h.placed.step (fun h => h.elim) hl hst, h.mutex.step h.placed hl hdisc hst,
    h.only.step h.placed hl hst honly, ?_⟩
  cases b with
  | lock => exact t.lock_inside h (by simpa using hfree) hs
  | unlock => exact t.unlock_inside h hs
  | tryLock => exact t.tryLock_inside h hs
  | other a => exact t.other_inside h hl hs

theorem Lockable.inv {cfg : Config} {t : MutexUse} (h : Lockable m cfg t) : t.Inv m := by
  refine h.invariant ⟨placed_init cfg, mutexInv_init cfg, fun c hc => ?_, rfl⟩
    fun _ _ _ hi hg hs => hi.step hg hs
  simp [init, Routine.zero, Frame.mentions] at hc

/-- **`co::Mutex` excludes**, as long as no `lock()` outside a coroutine finds the mutex
taken: at most one caller is inside, and it is the owner. -/
theorem mutex_excludes {cfg : Config} {t : MutexUse} (h : Lockable m cfg t) :
    t.inside.length ≤ 1 ∧ ∀ w ∈ t.inside, t.st.mutexes m = ⟨true, w⟩ := by
  have hi := h.inv
  rw [hi.inside]
  exact hi.mutex.exclusive

/-- A coroutine locks the mutex and blocks in a receive for ever; `run()` returns. -/
def heldAfterRun : List MutexAct :=
  [MutexAct.other spawnOk, .other .run] ++ turn.map MutexAct.other ++
    [MutexAct.lock, .other (.call (.channelRecv 0)), .other (.timers 0), .other (.idle .none)]

theorem mutex_excludes_held :
    ∃ t, runGuarded (MutexUse.step 0) (lockable 0) ⟨init (byteConfig 0), []⟩ heldAfterRun = some t ∧
      t.inside = [some 1] ∧ t.st.ctl = .outside ∧ t.inside.length ≤ 1 := by
  have hrun : (runGuarded (MutexUse.step 0) (lockable 0) ⟨init (byteConfig 0), []⟩
      heldAfterRun).map (fun t => (t.inside, t.st.ctl)) = some ([some 1], .outside) := by
    decide +kernel
  obtain ⟨t, ht, he⟩ := Option.map_eq_some_iff.mp hrun
  simp only [Prod.mk.injEq] at he
  exact ⟨t, ht, he.1, he.2, (mutex_excludes (reach_of_runGuarded ht)).1⟩

/-- Then the code after `run()` calls `lock()`: it returns, with two callers inside. -/
theorem mutex_shared :
    ∃ t, runActs (MutexUse.step 0) ⟨init (byteConfig 0), []⟩ (heldAfterRun ++ [.lock]) = some t ∧
      t.inside = [some 1, none] ∧ t.st.mutexes 0 = ⟨true, some 1⟩ ∧ ¬ t.inside.length ≤ 1 := by
  have hrun : (runActs (MutexUse.step 0) ⟨init (byteConfig 0), []⟩
      (heldAfterRun ++ [MutexAct.lock])).map (fun t => (t.inside, t.st.mutexes 0)) =
      some ([some 1, none], ⟨true, some 1⟩) := by
    decide +kernel
  obtain ⟨t, ht, he⟩ := Option.map_eq_some_iff.mp hrun
  simp only [Prod.mk.injEq] at he
  exact ⟨t, ht, he.1, he.2, by simp [he.1]⟩

end Libco.Coxx
