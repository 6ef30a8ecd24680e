import Libco.Coxx.Monitor
import Libco.Records
import Libco.Registrations

/-!
# `co::CondVar` with predicates

The two waits of `libcoxx/include/coxx/sync.hpp` that take a predicate,
`while (!pred()) wait(lock)` and its timed sister, over any data that is guarded by a
mutex `m` and a condition variable `v`. Coroutines lock the mutex, change the data,
wait in either way for any predicate, and unlock, in any order; they may suspend in
anything else while they hold the mutex, and anybody may notify. The spot of a coroutine
is the next statement it has to run. `dirty` remembers that the data changed and nobody
called `notify_all` since.
-/

namespace Libco.Coxx
open Lib

variable {δ : Type} {s s' : St} {a : Act} {c m v : Nat}

/-! ## The code -/

inductive Spot (δ : Type) where
  /-- not under the mutex -/
  | out
  /-- in code of its own under the mutex -/
  | inside
  /-- `while (!pred())`, in a wait with or without a timeout -/
  | test (p : δ → Bool) (timeoutMs : Option Nat)
  /-- `if (!wait_for(lock, timeout_ms)) return pred()` -/
  | result (p : δ → Bool) (timeoutMs : Nat)
  /-- under the mutex, the wait having returned `b` -/
  | got (p : δ → Bool) (b : Bool)

structure Guarded (δ : Type) where
  st : St
  data : δ
  dirty : Bool
  spot : Nat → Spot δ

inductive GuardedAct (δ : Type) where
  | lock
  | unlock
  | update (f : δ → δ)
  | notifyOne
  | notifyAll
  | wait (p : δ → Bool)
  | waitFor (p : δ → Bool) (timeoutMs : Nat)
  /-- the running coroutine goes on inside a wait; the clock and the allocator answer -/
  | next (now : Nat) (reallocOk : Bool)
  /-- anything else the program does -/
  | other (a : Act)

/-- In code of its own under the mutex. -/
def Spot.free : Spot δ → Bool
  | .inside | .got _ _ => true
  | _ => false

def Spot.isOut : Spot δ → Bool
  | .out => true
  | _ => false

/-- The predicate a wait is for. -/
def Spot.awaits : Spot δ → Option (δ → Bool)
  | .test p _ | .result p _ => some p
  | _ => none

/-- The value a wait has returned. -/
def Spot.outcome : Spot δ → Option Bool
  | .got _ b => some b
  | _ => none

/-- The result of the last call of a coroutine. -/
def lastResult (s : St) (c : Nat) : Option Ret :=
  s.trace.findSome? fun
    | .ret k r => if k = (s.co c).call then some r else none
    | _ => none

def Act.returns : Act → Bool
  | .finish => true
  | _ => false

namespace Guarded

/-- The running coroutine `c` goes on at `q`. -/
def goto (t : Guarded δ) (c : Nat) (q : Spot δ) (s : St) : Guarded δ :=
  { t with st := s, spot := Function.update t.spot c q }

/-- `wait`, `wait_for` and the loops of their sisters, from the statement at which `c` is. -/
def next (m v now : Nat) (ok : Bool) (c : Nat) (t : Guarded δ) : Option (Guarded δ) :=
  match t.spot c with
  | .test p timeoutMs =>
    if p t.data then some (t.goto c (.got p true) t.st)
    else match timeoutMs with
      | none => (step t.st (.call (.condWait v m))).map (t.goto c (.test p none))
      | some ms =>
        (step t.st (.call (.condTimedwait v m ms now ok))).map (t.goto c (.result p ms))
  | .result p ms =>
    if lastResult t.st c = some (.code .ok) then some (t.goto c (.test p (some ms)) t.st)
    else some (t.goto c (.got p (p t.data)) t.st)
  | _ => none

/-- What the running coroutine `c` does. A guard releases the mutex before its coroutine
returns. -/
def act (m v c : Nat) (t : Guarded δ) : GuardedAct δ → Option (Guarded δ)
  | .lock =>
    if (t.spot c).isOut then (step t.st (.call (.mutexLock m))).map (t.goto c .inside) else none
  | .unlock =>
    if (t.spot c).free then (step t.st (.call (.mutexUnlock m))).map (t.goto c .out) else none
  | .update f =>
    if (t.spot c).free then
      some { t.goto c .inside t.st with data := f t.data, dirty := true }
    else none
  | .wait p => if (t.spot c).free then some (t.goto c (.test p none) t.st) else none
  | .waitFor p ms => if (t.spot c).free then some (t.goto c (.test p (some ms)) t.st) else none
  | .next now ok => t.next m v now ok c
  | .other a =>
    if foreign m v a && ((t.spot c).isOut || ((t.spot c).free && !Act.returns a)) then
      (step t.st a).map fun s => { t with st := s }
    else none
  | .notifyOne | .notifyAll => none

/-- Code of the program runs, not that of a wait. -/
def ownCode (t : Guarded δ) : Bool :=
  match t.st.coCurrent with
  | some c => (t.spot c).isOut || (t.spot c).free
  | none => true

/-- `notify_one` and `notify_all`, under the mutex or not, in a coroutine or not. -/
def notify (op : Op) (dirty : Bool) (t : Guarded δ) : Option (Guarded δ) :=
  if t.ownCode then
    (step t.st (.call op)).map fun s => { t with st := s, dirty := dirty }
  else none

def step (m v : Nat) (t : Guarded δ) (b : GuardedAct δ) : Option (Guarded δ) :=
  match b, t.st.coCurrent with
  | .notifyOne, _ => t.notify (.condSignal v) t.dirty
  | .notifyAll, _ => t.notify (.condBroadcast v) false
  | b, some c => t.act m v c b
  | .other a, none =>
    if foreign m v a then (Libco.step t.st a).map fun s => { t with st := s } else none
  | _, none => none

def initial (cfg : Config) (d : δ) : Guarded δ := ⟨init cfg, d, false, fun _ => .out⟩

end Guarded

/-- Nothing leaks a timer. -/
def tidy (t : Guarded δ) : GuardedAct δ → Bool
  | .other a => !leaks t.st a
  | _ => true

def Tidy (m v : Nat) (cfg : Config) (d : δ) : Guarded δ → Prop :=
  Reach (Guarded.step m v) (fun t b => tidy t b = true) (.initial cfg d)

/-! ## The calls of a guard -/

/-- Suspended in a lock or a wait of the guard. -/
def AtGuard (m v : Nat) (f : Frame) : Prop :=
  AtMonitor m v f ∨ f = .timedWait v m ∨ f = .timedRelock v m

/-- `co_cond_signal` wakes one at most. -/
theorem signal_effect (hs : Libco.step s (.call (.condSignal v)) = some s') :
    (∀ d, (s'.co d).frame = (s.co d).frame) ∧
      (∀ d ∈ s'.queues (.cond v), d ∈ s.queues (.cond v)) ∧ s'.mutexes = s.mutexes := by
  obtain ⟨-, rfl⟩ := step_call hs
  have hbq := beginCall_queues s (.condSignal v)
  have hbm := beginCall_mutexes s (.condSignal v)
  have hbf := beginCall_frame s (.condSignal v)
  generalize beginCall s (.condSignal v) = u at hbq hbm hbf
  simp only [runOp, coCondSignal, settle]
  cases hq : u.queues (.cond v) with
  | nil =>
    rw [coQueuePopFront_nil hq]
    refine ⟨hbf, fun d hd => ?_, hbm⟩
    rw [← hbq]
    simpa [St.emit] using hd
  | cons e rest =>
    rw [coQueuePopFront_cons hq]
    refine ⟨fun d => ?_, fun d hd => ?_, hbm⟩
    · rw [← hbf d]
      by_cases hd : d = e <;> simp [wakeWaiter, wakeRoutine, coQueuePushBack, St.modify, St.emit, hd]
    · rw [← hbq, hq]
      have hd' : d ∈ rest := by
        simpa [wakeWaiter, wakeRoutine, coQueuePushBack, St.modify, St.emit] using hd
      exact List.mem_cons_of_mem _ hd'

/-! ## A mutex that is held -/

theorem coMutexLock_keeps (hl : (s.mutexes m).locked = true) :
    (coMutexLock s m).Ends fun t => t.mutexes = s.mutexes := by
  unfold coMutexLock
  rw [hl]
  split <;> rfl

theorem resumeLock_keeps (s : St) (c m : Nat) :
    (resumeLock s c m).Ends fun t => t.mutexes = s.mutexes := by
  unfold resumeLock
  split
  · rfl
  · trivial

theorem relock_keeps {f : Frame} {r : St → Ret} (hl : (s.mutexes m).locked = true) :
    (relock s c m f r).Ends fun t => t.mutexes = s.mutexes := by
  have hk := coMutexLock_keeps hl
  unfold relock
  cases hr : coMutexLock s m with
  | ret x t =>
    rw [hr] at hk
    exact hk
  | swap t =>
    rw [hr] at hk
    exact hk
  | abort => trivial

theorem settle_mutexes {o : Outcome} {k : Nat} {u : St}
    (ho : o.Ends fun t => t.mutexes = u.mutexes) (hu : u.mutexes = s.mutexes) :
    (settle s k o).mutexes = s.mutexes := by
  cases o with
  | ret r t => exact Eq.trans ho hu
  | swap t => exact Eq.trans ho hu
  | abort => rfl

/-- A lock that finds the mutex taken leaves it as it is. -/
theorem lock_keeps (hl : (s.mutexes m).locked = true)
    (hs : Libco.step s (.call (.mutexLock m)) = some s') : s'.mutexes = s.mutexes := by
  obtain ⟨-, rfl⟩ := step_call hs
  have hbm := beginCall_mutexes s (.mutexLock m)
  exact settle_mutexes (coMutexLock_keeps (by rw [hbm]; exact hl)) hbm

theorem unlock_answers (hl : (s.mutexes m).locked = true) : coMutexUnlock s m ≠ none := by
  obtain ⟨t, ht, -⟩ := coMutexUnlock_effect (v := 0) hl
  rw [ht]
  simp

theorem unlock_frames {t : St} (hu : coMutexUnlock s m = some t) :
    (∀ d, (t.co d).frame = (s.co d).frame) ∧ t.queues (.cond v) = s.queues (.cond v) := by
  obtain ⟨hl, -⟩ := coMutexUnlock_cases hu
  obtain ⟨t', ht', hfr, hq, -⟩ := coMutexUnlock_effect (v := v) hl
  rw [ht'] at hu
  cases hu
  exact ⟨hfr, hq⟩

/-- `co_cond_timedwait` by the owner: it returns at once, or it joins the queue. -/
theorem timedwait_effect {ms now : Nat} {ok : Bool} (hcur : s.coCurrent = some c)
    (hl : s.mutexes m = ⟨true, some c⟩)
    (hs : Libco.step s (.call (.condTimedwait v m ms now ok)) = some s') :
    (∀ d, d ≠ c → (s'.co d).frame = (s.co d).frame) ∧
      ((Holds m s' c ∧ ∀ d ∈ s'.queues (.cond v), d ∈ s.queues (.cond v)) ∨
        ((s'.co c).frame = .timedWait v m ∧ s'.queues (.cond v) = s.queues (.cond v) ++ [c])) := by
  obtain ⟨-, rfl⟩ := step_call hs
  have hctl := beginCall_ctl s (.condTimedwait v m ms now ok)
  rw [coCurrent_ctl hcur] at hctl
  have hbq := beginCall_queues s (.condTimedwait v m ms now ok)
  have hbm := beginCall_mutexes s (.condTimedwait v m ms now ok)
  have hbf := beginCall_frame s (.condTimedwait v m ms now ok)
  have hbc := beginCall_coCurrent s (.condTimedwait v m ms now ok)
  simp only [runOp]
  generalize beginCall s (.condTimedwait v m ms now ok) = u at hctl hbq hbm hbf hbc
  unfold coCondTimedwait
  split
  · refine ⟨fun d _ => hbf d, .inl ⟨?_, ?_⟩⟩
    · simp [Holds, settle, St.coCurrent, St.emit, hctl, hbm, hl]
    · intro d hd
      rw [← hbq]
      exact hd
  rw [hbc, hcur]
  dsimp only
  split
  · -- the timer heap cannot grow
    refine ⟨fun d hd => ?_, .inl ⟨?_, ?_⟩⟩
    · rw [← hbf d]
      simp [settle, coQueueRemove, coQueuePushBack, St.modify, St.emit, hd]
    · simp [Holds, settle, coQueueRemove, coQueuePushBack, St.modify, St.emit, St.coCurrent, hctl,
        hbm, hl]
    · intro d hd
      have hd' : d ∈ (s.queues (.cond v) ++ [c]).erase c := by
        simpa [settle, coQueueRemove, coQueuePushBack, St.modify, St.emit, hbq] using hd
      by_cases hc : c ∈ s.queues (.cond v)
      · rcases List.mem_append.mp (List.mem_of_mem_erase hd') with hd' | hd'
        · exact hd'
        · rwa [List.mem_singleton.mp hd']
      · rw [List.erase_append_right _ hc] at hd'
        simpa using hd'
  · split
    · rename_i hnone
      refine absurd hnone (unlock_answers ?_)
      simp [coQueuePushBack, St.modify, St.emit, hbm, hl]
    · rename_i t ht
      obtain ⟨hfr, hq⟩ := unlock_frames (v := v) ht
      refine ⟨fun d hd => ?_, .inr ⟨?_, ?_⟩⟩
      · rw [← hbf d]
        simp only [settle]
        rw [hfr]
        simp [coQueuePushBack, St.modify, St.emit, hd]
      · simp only [settle]
        rw [hfr]
        simp [coQueuePushBack, St.modify, St.emit]
      · simp only [settle]
        rw [hq]
        simp [coQueuePushBack, St.modify, St.emit, hbq]

/-! ## The dispatch of a coroutine that waits -/

/-- The end of a timed wait: the mutex is taken, or the coroutine waits for it. -/
theorem schedule_timedWait {rest : List Nat} {e : ResumeEnv} (hq : s.queues .ready = c :: rest)
    (hf : (s.co c).frame = .timedWait v m) (hs : Libco.step s (.schedule e) = some s') :
    (∀ d, d ≠ c → (s'.co d).frame = (s.co d).frame) ∧
      s'.queues (.cond v) = s.queues (.cond v) ∧
      (Holds m s' c ∨ (s'.co c).frame = .timedRelock v m) := by
  have hs' := schedule_settles hq (by simp [hf]) hs
  rw [hf] at hs'
  -- the timer of a wait that was signalled is removed
  have hu : ∃ u : St, resumeTimedWait
      (switchTo { s with queues := Function.update s.queues .ready rest } c) c v m =
        relock u c m (.timedRelock v m) (fun s => timedResult s c) ∧
      u.coCurrent = some c ∧ u.ctl = .running c ∧ u.mutexes = s.mutexes ∧
      (∀ d, d ≠ c → (u.co d).frame = (s.co d).frame) ∧
      u.queues (.cond v) = s.queues (.cond v) := by
    unfold resumeTimedWait
    dsimp only
    split
    · refine ⟨_, rfl, rfl, rfl, rfl, fun d hd => ?_, ?_⟩
      · simp [switchTo, St.modify, St.emit, hd]
      · simp [switchTo, St.modify, St.emit]
    · refine ⟨_, rfl, rfl, rfl, rfl, fun d hd => ?_, ?_⟩
      · simp [switchTo, St.modify, St.emit, hd]
      · simp [switchTo, St.modify, St.emit]
  obtain ⟨u, hu, hcur, hctl, hmx, hfr, hcq⟩ := hu
  simp only [resume, hu, relock, coMutexLock, hcur, hmx] at hs'
  cases hl : (s.mutexes m).locked with
  | false =>
    simp only [hl, Bool.not_false, if_true] at hs'
    subst hs'
    refine ⟨hfr, hcq, .inl ?_⟩
    simp [Holds, settle, St.emit, St.setMutex, St.coCurrent, hctl]
  | true =>
    simp only [hl, Bool.not_true, Bool.false_eq_true, if_false] at hs'
    subst hs'
    refine ⟨fun d hd => ?_, ?_, .inr ?_⟩
    · rw [← hfr d hd]
      simp [settle, St.modify, St.emit, coQueuePushBack, hd]
    · rw [← hcq]
      simp [settle, St.modify, St.emit, coQueuePushBack]
    · simp [settle, St.modify, St.emit, coQueuePushBack]

theorem schedule_timedRelock {rest : List Nat} {e : ResumeEnv} (hq : s.queues .ready = c :: rest)
    (hf : (s.co c).frame = .timedRelock v m) (hs : Libco.step s (.schedule e) = some s') :
    (∀ d, d ≠ c → (s'.co d).frame = (s.co d).frame) ∧
      s'.queues (.cond v) = s.queues (.cond v) ∧
      (Holds m s' c ∨ (s'.co c).frame = .timedRelock v m) := by
  have hs' := schedule_settles hq (by simp [hf]) hs
  rw [hf] at hs'
  have hmx : (switchTo { s with queues := Function.update s.queues .ready rest } c).mutexes =
      s.mutexes := rfl
  simp only [resume, resumeLock, hmx] at hs'
  by_cases hown : ((s.mutexes m).locked && (s.mutexes m).owner == some c) = true
  · rw [if_pos hown] at hs'
    subst hs'
    refine ⟨fun d hd => ?_, ?_, .inl ⟨rfl, ?_⟩⟩
    · simp [settle, switchTo, St.modify, St.emit, hd]
    · simp [settle, switchTo, St.modify, St.emit]
    · show s.mutexes m = ⟨true, some c⟩
      simp only [Bool.and_eq_true, beq_iff_eq] at hown
      rw [← hown.1, ← hown.2]
  · rw [if_neg hown] at hs'
    subst hs'
    exact ⟨fun _ _ => rfl, rfl, .inr hf⟩

/-- The dispatch of a coroutine suspended under the guard. -/
theorem schedule_guard {rest : List Nat} {e : ResumeEnv} (hq : s.queues .ready = c :: rest)
    (hf : AtGuard m v (s.co c).frame) (hs : Libco.step s (.schedule e) = some s') :
    (∀ d, d ≠ c → (s'.co d).frame = (s.co d).frame) ∧
      s'.queues (.cond v) = s.queues (.cond v) ∧
      (Holds m s' c ∨ AtGuard m v (s'.co c).frame) := by
  rcases hf with hf | hf | hf
  · obtain ⟨h1, h2, h3⟩ := schedule_effect hq hf hs
    exact ⟨h1, h2, h3.imp_right .inl⟩
  · obtain ⟨h1, h2, h3⟩ := schedule_timedWait hq hf hs
    exact ⟨h1, h2, h3.imp_right fun h => .inr (.inr h)⟩
  · obtain ⟨h1, h2, h3⟩ := schedule_timedRelock hq hf hs
    exact ⟨h1, h2, h3.imp_right fun h => .inr (.inr h)⟩

/-- If somebody has the mutex, its dispatch leaves the mutex as it is. -/
theorem schedule_keeps {rest : List Nat} {e : ResumeEnv} (hq : s.queues .ready = c :: rest)
    (hf : AtGuard m v (s.co c).frame) (hl : (s.mutexes m).locked = true)
    (hs : Libco.step s (.schedule e) = some s') : s'.mutexes = s.mutexes := by
  have hne : (s.co c).frame ≠ .entry := by
    rcases hf with (hf | hf | hf) | hf | hf <;> simp [hf]
  rw [schedule_settles hq hne hs]
  refine settle_mutexes
    (u := switchTo { s with queues := Function.update s.queues .ready rest } c) ?_ rfl
  generalize hu : switchTo { s with queues := Function.update s.queues .ready rest } c = u
  have hlu : (u.mutexes m).locked = true := by
    rw [← hu]
    exact hl
  rcases hf with (hf | hf | hf) | hf | hf <;> rw [hf]
  · exact resumeLock_keeps u c m
  · exact relock_keeps hlu
  · exact resumeLock_keeps u c m
  · simp only [resume, resumeTimedWait]
    split
    · exact relock_keeps (s := { u with timerHeap := _ }) hlu
    · exact relock_keeps hlu
  · have hk := resumeLock_keeps u c m
    simp only [resume]
    cases hr : resumeLock u c m with
    | ret x t =>
      rw [hr] at hk
      exact hk
    | swap t =>
      rw [hr] at hk
      exact hk
    | abort => trivial

/-! ## Everything else -/

theorem AtGuard.spec {f : Frame} (h : AtGuard m v f) :
    Obj.mutex m ∈ f.mentions ∧ f ≠ .user ∧ f ≠ .absent ∧ f.isIo = false ∧ f.suspended = true := by
  rcases h with (rfl | rfl | rfl) | rfl | rfl <;>
    simp [Frame.mentions, Frame.isIo, Frame.suspended]

/-- Whoever waits under the guard and is not dispatched stays where it is, or is woken. -/
theorem suspended_stays {run : Prop} (hp : Placed run s) (hl : leaks s a = false)
    (hs : Libco.step s a = some s') (hf : AtGuard m v (s.co c).frame)
    (hfront : a.isSchedule = true → ∀ rest, s.queues .ready ≠ c :: rest) :
    (s'.co c).frame = (s.co c).frame ∧
      ((s.co c).state = .ready → (s'.co c).state = .ready) := by
  obtain ⟨-, huser, habs, hio, -⟩ := hf.spec
  refine step_invariant (J := fun t => (t.co c).frame = (s.co c).frame ∧
    ((s.co c).state = .ready → (t.co c).state = .ready)) hp hl hs ⟨rfl, id⟩ ?_
    (fun _ _ _ _ h _ => h)
  rintro os p p' hm hi ⟨hfr, hst⟩
  have hrec := hm.record hi c
  rw [← hfr] at huser habs hio
  generalize p'.2.co c = r' at hrec
  cases hrec with
  | same => exact ⟨hfr, hst⟩
  | called ha hu hc => exact absurd hu huser
  | spawned hu hu' => exact absurd hu habs
  | finished hu hu' => exact absurd hu huser
  | yielded ha hu => exact absurd hu huser
  | blocked ha hu => exact absurd hu huser
  | drained ha hu hu' => exact absurd hu huser
  | touched hu hu' hcall => exact absurd hu huser
  | dispatched ha hq hst' => exact absurd hq (hfront ha _)
  | relocked ha hq hst' hu => exact absurd hq (hfront ha _)
  | expired ha hst' ht => exact ⟨hfr, fun _ => rfl⟩
  | polled ha hlike hfits =>
    rw [hlike.io] at hio
    cases hio
  | woken hst' hq hready hu => exact ⟨hu.trans hfr, fun _ => hready⟩

namespace Guarded

variable {t t' : Guarded δ}

theorem AtGuard.not_clear {f : Frame} (h : AtGuard m v f) : ¬ Clear m v f :=
  fun hc => hc.1 h.spec.1

structure Inv (m v : Nat) (t : Guarded δ) : Prop where
  placed : Placed False t.st
  outside : ∀ c, t.spot c = .out → Clear m v (t.st.co c).frame
  /-- under the mutex a coroutine owns it, or is suspended in a lock or wait of the guard -/
  busy : ∀ c, t.spot c ≠ .out →
    (t.st.mutexes m = ⟨true, some c⟩ ∧ Clear m v (t.st.co c).frame) ∨
      AtGuard m v (t.st.co c).frame
  kept : ∀ c p b, t.spot c = .got p b → Clear m v (t.st.co c).frame ∧ p t.data = b
  queued : ∀ c ∈ t.st.queues (.cond v), ∃ p, (t.spot c).awaits = some p ∧
    (t.dirty = false → p t.data = false)

/-- Who is in the queue of the condition variable. -/
theorem queue_frame {run : Prop} {cur : Option Nat} (hi : Libco.Inv run cur s.toSched)
    (hc : c ∈ s.queues (.cond v)) : (s.co c).state = .waiting ∧
      (s.co c).frame.waitQueue = some (.cond v) ∧ Obj.cond v ∈ (s.co c).frame.mentions := by
  obtain ⟨hst, hw⟩ := Routine.home_wait (hi.mem_queue hc) (by simp)
  refine ⟨hst, hw, ?_⟩
  cases hf : (s.co c).frame <;> simp [hf, Frame.waitQueue] at hw <;> simp [Frame.mentions, hw]

theorem Inv.at_guard (h : t.Inv m v) (hf : ¬ Clear m v (t.st.co c).frame) :
    t.spot c ≠ .out ∧ AtGuard m v (t.st.co c).frame := by
  have hin : t.spot c ≠ .out := fun hout => hf (h.outside c hout)
  refine ⟨hin, (h.busy c hin).resolve_left ?_⟩
  rintro ⟨-, hclear⟩
  exact hf hclear

/-- What others do leaves the mutex with its owner. -/
theorem Inv.mutex_step (h : t.Inv m v) (hl : leaks t.st a = false)
    (ha : foreign m v a = true) (hs : Libco.step t.st a = some s')
    (hlock : (t.st.mutexes m).locked = true) : s'.mutexes m = t.st.mutexes m := by
  by_cases hn : a.names t.st (.mutex m)
  swap
  · exact (step_sameFor h.placed hl hs hn).mutex m rfl
  cases a with
  | call op =>
    simp only [foreign, Act.names, Bool.and_eq_true, Bool.not_eq_true', List.contains_eq_mem,
      decide_eq_false_iff_not] at ha hn
    exact absurd hn ha.1
  | timers now =>
    obtain ⟨c, ht, ho⟩ := hn
    have hg := (h.at_guard fun hc => hc.1 (Frame.objs_mentions ho)).2
    rcases hg with (hf | hf | hf) | hf | hf <;>
      simp [hf, Frame.timed, Frame.objs] at ht ho
  | schedule e =>
    obtain ⟨c, rest, hq, ho⟩ := hn
    have hg := (h.at_guard fun hc => hc.1 ho).2
    rw [schedule_keeps hq hg hlock hs]
  | run | idle p | spawn e | finish => cases hn

/-- **What others do**, and what a coroutine does besides under the mutex, leaves those
under the guard where they are, dispatches them or wakes them. -/
theorem Inv.foreign (h : t.Inv m v) (hl : leaks t.st a = false) (ha : Coxx.foreign m v a = true)
    (hs : Libco.step t.st a = some s') : Guarded.Inv m v { t with st := s' } := by
  have hp : Placed False s' := h.placed.step (fun h => h.elim) hl hs
  have hclear : ∀ c, Clear m v (t.st.co c).frame → Clear m v (s'.co c).frame :=
    fun _ => clear_step h.placed hl ha hs
  have hguard : ∀ c, AtGuard m v (t.st.co c).frame →
      (s'.mutexes m = ⟨true, some c⟩ ∧ Clear m v (s'.co c).frame) ∨ AtGuard m v (s'.co c).frame := by
    intro c hc
    by_cases hfront : ∃ e rest, a = .schedule e ∧ t.st.queues .ready = c :: rest
    · obtain ⟨e, rest, rfl, hq⟩ := hfront
      obtain ⟨-, -, hh | hg⟩ := schedule_guard hq hc hs
      · exact .inl ⟨hh.2, clear_user (placed_user hp hh.1)⟩
      · exact .inr hg
    · right
      rw [(suspended_stays h.placed hl hs hc fun hsch rest hq => hfront ?_).1]
      · exact hc
      · cases a with
        | schedule e => exact ⟨e, rest, rfl, hq⟩
        | _ => cases hsch
  refine ⟨hp, fun c hc => hclear c (h.outside c hc), fun c hc => ?_, fun c p b hc => ?_,
    fun d hd => h.queued d ?_⟩
  · rcases h.busy c hc with ⟨hown, hcl⟩ | hg
    · left
      refine ⟨?_, hclear c hcl⟩
      rw [h.mutex_step hl ha hs (by rw [hown]), hown]
    · exact hguard c hg
  · exact ⟨hclear c (h.kept c p b hc).1, (h.kept c p b hc).2⟩
  · -- who is queued now was queued before
    obtain ⟨cur', hi', -⟩ := hp
    obtain ⟨cur, hi, -⟩ := h.placed
    obtain ⟨hst, hw, hmem⟩ := queue_frame hi' hd
    obtain ⟨-, hg⟩ := h.at_guard (c := d) fun hc => (hclear d hc).2 hmem
    by_cases hfront : ∃ e rest, a = .schedule e ∧ t.st.queues .ready = d :: rest
    · obtain ⟨e, rest, rfl, hq⟩ := hfront
      rw [← (schedule_guard hq hg hs).2.1]
      exact hd
    · obtain ⟨hfr, hready⟩ := suspended_stays h.placed hl hs hg fun hsch rest hq => hfront (by
        cases a with
        | schedule e => exact ⟨e, rest, rfl, hq⟩
        | _ => cases hsch)
      have hsus := hg.spec.2.2.2.2
      rcases (hi.seated d).state hsus with hr | ⟨hr, -⟩
      · have := hready hr
        rw [hst] at this
        cases this
      · refine hi.mem_of_home ?_
        rw [hfr] at hw
        simp [Routine.home, hsus, hr, hw]

/-! ## The running coroutine -/

theorem Inv.user (h : t.Inv m v) (hcur : t.st.coCurrent = some c) :
    (t.st.co c).frame = .user := placed_user h.placed hcur

/-- A running coroutine that is under the guard owns the mutex. -/
theorem Inv.holds (h : t.Inv m v) (hcur : t.st.coCurrent = some c) (hc : t.spot c ≠ .out) :
    t.st.mutexes m = ⟨true, some c⟩ := by
  rcases h.busy c hc with hh | hf
  · exact hh.1
  · exact absurd (h.user hcur) hf.spec.2.1

/-- A running coroutine is in no queue. -/
theorem Inv.not_queued (h : t.Inv m v) (hcur : t.st.coCurrent = some c) :
    c ∉ t.st.queues (.cond v) := by
  intro hm
  obtain ⟨cur, hi, -⟩ := h.placed
  obtain ⟨-, hw, -⟩ := queue_frame hi hm
  rw [h.user hcur] at hw
  cases hw

/-- The running coroutine goes on at `q`, and the data is `d` then. -/
theorem Inv.goto (h : t.Inv m v) {q : Spot δ} {d : δ} {b : Bool}
    (hp : Placed False s') (hfr : ∀ e, e ≠ c → (s'.co e).frame = (t.st.co e).frame)
    (hin : q ≠ .out → (s'.mutexes m = ⟨true, some c⟩ ∧ Clear m v (s'.co c).frame) ∨
      AtGuard m v (s'.co c).frame)
    (hout : q = .out → Clear m v (s'.co c).frame)
    (hkept : ∀ p x, q = .got p x → Clear m v (s'.co c).frame ∧ p d = x)
    (hmut : ∀ e, e ≠ c → t.st.mutexes m = ⟨true, some e⟩ →
      s'.mutexes m = ⟨true, some e⟩ ∧ d = t.data)
    (hold : ∀ e ∈ s'.queues (.cond v), e ≠ c → e ∈ t.st.queues (.cond v))
    (hdata : b = false → t.dirty = false ∧ d = t.data)
    (hself : c ∈ s'.queues (.cond v) → ∃ p, q.awaits = some p ∧ p d = false) :
    Guarded.Inv m v { t with st := s', data := d, dirty := b, spot := Function.update t.spot c q } := by
  refine ⟨hp, fun e he => ?_, fun e he => ?_, fun e p x he => ?_, fun e he => ?_⟩
  · by_cases hec : e = c
    · subst hec
      exact hout (by simpa using he)
    · simp only [Function.update_of_ne hec] at he
      rw [hfr e hec]
      exact h.outside e he
  · by_cases hec : e = c
    · subst hec
      exact hin (by simpa using he)
    · simp only [Function.update_of_ne hec] at he
      rw [hfr e hec]
      exact (h.busy e he).imp_left fun hh => ⟨(hmut e hec hh.1).1, hh.2⟩
  · by_cases hec : e = c
    · subst hec
      exact hkept p x (by simpa using he)
    · simp only [Function.update_of_ne hec] at he
      rw [hfr e hec]
      obtain ⟨hcl, hpd⟩ := h.kept e p x he
      have hown : t.st.mutexes m = ⟨true, some e⟩ := by
        rcases h.busy e (by simp [he]) with hh | hg
        · exact hh.1
        · exact absurd hcl (AtGuard.not_clear hg)
      exact ⟨hcl, by rw [(hmut e hec hown).2]; exact hpd⟩
  · by_cases hec : e = c
    · subst hec
      obtain ⟨p, hq, hd⟩ := hself he
      exact ⟨p, by simpa using hq, fun _ => hd⟩
    · obtain ⟨p, hq, hd⟩ := h.queued e (hold e he hec)
      refine ⟨p, by simpa [hec] using hq, fun hb => ?_⟩
      obtain ⟨hclean, rfl⟩ := hdata hb
      exact hd hclean

/-- Nobody else owns what `c` owns. -/
theorem owned_once {e : Nat} {P : Prop} (hc : s.mutexes m = ⟨true, some c⟩) (hec : e ≠ c)
    (he : s.mutexes m = ⟨true, some e⟩) : P := by
  rw [hc] at he
  cases he
  exact absurd rfl hec

/-- Statements that make no call. -/
theorem Inv.quiet (h : t.Inv m v) (hcur : t.st.coCurrent = some c) (hc : t.spot c ≠ .out)
    {q : Spot δ} (hq : q ≠ .out) (hkept : ∀ p x, q = .got p x → p t.data = x) :
    (t.goto c q t.st).Inv m v := by
  have hh := h.holds hcur hc
  have hcl : Clear m v (t.st.co c).frame := clear_user (h.user hcur)
  refine h.goto h.placed (fun _ _ => rfl) (fun _ => .inl ⟨hh, hcl⟩) (fun h => absurd h hq)
    (fun p x he => ⟨hcl, hkept p x he⟩) (fun _ hec he => owned_once hh hec he)
    (fun e he _ => he) (fun hb => ⟨hb, rfl⟩) ?_
  exact fun hm => absurd hm (h.not_queued hcur)

theorem Inv.next {now : Nat} {ok : Bool} (h : t.Inv m v) (hcur : t.st.coCurrent = some c)
    (hs : t.next m v now ok c = some t') : t'.Inv m v := by
  unfold Guarded.next at hs
  split at hs
  · rename_i p ms hspot
    have hne : t.spot c ≠ .out := by simp [hspot]
    have hh := h.holds hcur hne
    split at hs
    · rename_i hp
      cases hs
      refine h.quiet hcur hne (by simp) fun p' x he => ?_
      cases he
      exact hp
    rename_i hp
    split at hs
    · obtain ⟨s', hstep, rfl⟩ := Option.map_eq_some_iff.mp hs
      obtain ⟨hfr, hf, hq⟩ := condWait_effect hcur (by rw [hh]) hstep
      refine h.goto (h.placed.step (fun h => h.elim) rfl hstep) hfr
        (fun _ => .inr (.inl (.inr (.inl hf)))) (by simp) (by simp)
        (fun _ hec he => owned_once hh hec he) (fun e he hec => ?_)
        (fun hb => ⟨hb, rfl⟩) fun _ => ⟨p, rfl, by simpa using hp⟩
      rw [hq] at he
      simpa [hec] using he
    · rename_i ms'
      obtain ⟨s', hstep, rfl⟩ := Option.map_eq_some_iff.mp hs
      obtain ⟨hfr, hcase⟩ := timedwait_effect hcur hh hstep
      have hp' : Placed False s' := h.placed.step (fun h => h.elim) rfl hstep
      refine h.goto hp' hfr (fun _ => ?_) (by simp) (by simp)
        (fun _ hec he => owned_once hh hec he) (fun e he hec => ?_) (fun hb => ⟨hb, rfl⟩)
        fun _ => ⟨p, rfl, by simpa using hp⟩
      · rcases hcase with ⟨hh', -⟩ | ⟨hf, -⟩
        · exact .inl ⟨hh'.2, clear_user (placed_user hp' hh'.1)⟩
        · exact .inr (.inr (.inl hf))
      · rcases hcase with ⟨-, hq⟩ | ⟨-, hq⟩
        · exact hq e he
        · rw [hq] at he
          simpa [hec] using he
  · rename_i p ms hspot
    have hne : t.spot c ≠ .out := by simp [hspot]
    split at hs
    · cases hs
      exact h.quiet hcur hne (by simp) (by simp)
    · cases hs
      refine h.quiet hcur hne (by simp) fun p' x he => ?_
      cases he
      rfl
  · cases hs

theorem free_ne_out {q : Spot δ} (hq : q.free = true) : q ≠ .out := by
  rintro rfl
  cases hq

theorem Inv.act {b : GuardedAct δ} (h : t.Inv m v) (hcur : t.st.coCurrent = some c)
    (hg : tidy t b = true) (hs : t.act m v c b = some t') : t'.Inv m v := by
  cases b with
  | lock =>
    simp only [Guarded.act] at hs
    split at hs
    swap
    · cases hs
    obtain ⟨s', hstep, rfl⟩ := Option.map_eq_some_iff.mp hs
    obtain ⟨hfr, hq, hst⟩ := lock_effect (v := v) hcur hstep
    have hp' : Placed False s' := h.placed.step (fun h => h.elim) rfl hstep
    refine h.goto hp' hfr (fun _ => ?_) (by simp) (by simp) (fun e _ he => ?_)
      (fun e he _ => by rwa [hq] at he) (fun hb => ⟨hb, rfl⟩) fun hm => ?_
    · rcases hst with hh | hf
      · exact .inl ⟨hh.2, clear_user (placed_user hp' hh.1)⟩
      · exact .inr (.inl (.inl hf))
    · rw [lock_keeps (by rw [he]) hstep]
      exact ⟨he, rfl⟩
    · rw [hq] at hm
      exact absurd hm (h.not_queued hcur)
  | unlock =>
    simp only [Guarded.act] at hs
    split at hs
    swap
    · cases hs
    rename_i hfree
    have hh := h.holds hcur (free_ne_out hfree)
    obtain ⟨s', hstep, rfl⟩ := Option.map_eq_some_iff.mp hs
    obtain ⟨hfr, hq, -⟩ := unlock_effect (v := v) (by rw [hh]) hstep
    refine h.goto (h.placed.step (fun h => h.elim) rfl hstep) (fun e _ => hfr e)
      (fun h => absurd rfl h) (fun _ => ?_) (by simp) (fun _ hec he => owned_once hh hec he)
      (fun e he _ => by rwa [hq] at he) (fun hb => ⟨hb, rfl⟩) fun hm => ?_
    · exact clear_user ((hfr c).trans (h.user hcur))
    · rw [hq] at hm
      exact absurd hm (h.not_queued hcur)
  | update f =>
    simp only [Guarded.act] at hs
    split at hs
    swap
    · cases hs
    rename_i hfree
    have hh := h.holds hcur (free_ne_out hfree)
    cases hs
    exact h.goto h.placed (fun _ _ => rfl) (fun _ => .inl ⟨hh, clear_user (h.user hcur)⟩)
      (by simp) (by simp) (fun _ hec he => owned_once hh hec he) (fun e he _ => he) (by simp)
      fun hm => absurd hm (h.not_queued hcur)
  | notifyOne | notifyAll => cases hs
  | wait p =>
    simp only [Guarded.act] at hs
    split at hs
    · rename_i hfree
      cases hs
      exact h.quiet hcur (free_ne_out hfree) (by simp) (by simp)
    · cases hs
  | waitFor p ms =>
    simp only [Guarded.act] at hs
    split at hs
    · rename_i hfree
      cases hs
      exact h.quiet hcur (free_ne_out hfree) (by simp) (by simp)
    · cases hs
  | next now ok => exact h.next hcur hs
  | other a =>
    simp only [Guarded.act] at hs
    split at hs
    swap
    · cases hs
    rename_i hok
    rw [Bool.and_eq_true] at hok
    obtain ⟨s', hstep, rfl⟩ := Option.map_eq_some_iff.mp hs
    exact h.foreign (by simpa [tidy] using hg) hok.1 hstep

/-- Whoever notifies takes waiters out of the queue, and does nothing else. -/
theorem Inv.notify {op : Op} {b : Bool} (h : t.Inv m v)
    (hop : op = .condSignal v ∧ b = t.dirty ∨ op = .condBroadcast v ∧ b = false)
    (hs : t.notify op b = some t') : t'.Inv m v := by
  unfold Guarded.notify at hs
  split at hs
  swap
  · cases hs
  obtain ⟨s', hstep, rfl⟩ := Option.map_eq_some_iff.mp hs
  have heffect : (∀ d, (s'.co d).frame = (t.st.co d).frame) ∧ s'.mutexes = t.st.mutexes ∧
      (∀ d ∈ s'.queues (.cond v), d ∈ t.st.queues (.cond v)) ∧
      (b = false → s'.queues (.cond v) = [] ∨ t.dirty = false) ∧ leaks t.st (.call op) = false := by
    rcases hop with ⟨rfl, rfl⟩ | ⟨rfl, rfl⟩
    · obtain ⟨hfr, hq, hmx⟩ := signal_effect hstep
      exact ⟨hfr, hmx, hq, fun hb => .inr hb, rfl⟩
    · obtain ⟨hfr, hq, hmx, -⟩ := broadcast_effect hstep
      exact ⟨hfr, hmx, by simp [hq], fun _ => .inl hq, rfl⟩
  obtain ⟨hfr, hmx, hq, hb, hl⟩ := heffect
  refine ⟨h.placed.step (fun h => h.elim) hl hstep, fun e he => ?_, fun e he => ?_,
    fun e p x he => ?_, fun e he => ?_⟩
  · rw [hfr]
    exact h.outside e he
  · rw [hfr, hmx]
    exact h.busy e he
  · rw [hfr]
    exact h.kept e p x he
  · obtain ⟨p, hp, hd⟩ := h.queued e (hq e he)
    refine ⟨p, hp, fun hclean => ?_⟩
    rcases hb hclean with hnil | hold
    · rw [hnil] at he
      cases he
    · exact hd hold

theorem Inv.step {b : GuardedAct δ} (h : t.Inv m v) (hg : tidy t b = true)
    (hs : t.step m v b = some t') : t'.Inv m v := by
  unfold Guarded.step at hs
  split at hs
  · exact h.notify (.inl ⟨rfl, rfl⟩) hs
  · exact h.notify (.inr ⟨rfl, rfl⟩) hs
  · rename_i c _ _ hcur
    exact h.act hcur hg hs
  · rename_i a hcur
    split at hs
    · rename_i hok
      obtain ⟨s', hstep, rfl⟩ := Option.map_eq_some_iff.mp hs
      exact h.foreign (by simpa [tidy] using hg) hok hstep
    · cases hs
  · cases hs

theorem inv_initial (cfg : Config) (d : δ) : (initial cfg d).Inv m v := by
  refine ⟨placed_init cfg, fun c _ => ?_, fun c hc => absurd rfl hc, fun c p b hc => ?_,
    fun c hc => ?_⟩
  · simp [initial, init, Routine.zero, Clear, Frame.mentions]
  · cases hc
  · simp [initial, init] at hc

/-! ## Results -/

/-- What the waits with a predicate promise. -/
structure Sound (m v : Nat) (t : Guarded δ) : Prop where
  /-- a wait that returned `b` left its caller with the mutex, and the predicate is `b` for
  as long as the caller does not change the data or release the mutex -/
  returned : ∀ c p b, t.spot c = .got p b → p t.data = b ∧ t.st.mutexes m = ⟨true, some c⟩
  /-- whoever is under the mutex, running or suspended elsewhere, owns it, unless it is
  suspended in a lock or wait of the guard -/
  owned : ∀ c, t.spot c ≠ .out → ¬ AtGuard m v (t.st.co c).frame →
    t.st.mutexes m = ⟨true, some c⟩
  /-- whoever runs is not suspended -/
  running : ∀ c, t.st.coCurrent = some c → ¬ AtGuard m v (t.st.co c).frame
  /-- unless the data changed and nobody has been told, nobody is queued whose predicate
  is true -/
  notLost : t.dirty = false → ∀ c ∈ t.st.queues (.cond v), ∃ p, (t.spot c).awaits = some p ∧
    p t.data = false
  /-- a waiter whose predicate is true is on its way then -/
  awake : t.dirty = false → ∀ c p, (t.spot c).awaits = some p → p t.data = true →
    (t.st.co c).frame = .condWait v m ∨ (t.st.co c).frame = .timedWait v m →
    c ∈ t.st.queues .ready

/-- **Waits with predicates.** -/
theorem predicate_waits {cfg : Config} {d : δ} (h : Tidy m v cfg d t) : t.Sound m v := by
  have hi : t.Inv m v := Reach.invariant h (inv_initial cfg d) fun _ _ _ hi hg hs => hi.step hg hs
  have howned : ∀ c, t.spot c ≠ .out → ¬ AtGuard m v (t.st.co c).frame →
      t.st.mutexes m = ⟨true, some c⟩ := fun c hc hn => ((hi.busy c hc).resolve_right hn).1
  refine ⟨fun c p b hc => ?_, howned, fun c hcur hg => ?_, fun hb c hc => ?_,
    fun hb c p hc hp hf => ?_⟩
  · obtain ⟨hcl, hp⟩ := hi.kept c p b hc
    exact ⟨hp, howned c (by simp [hc]) fun hg => AtGuard.not_clear hg hcl⟩
  · exact hg.spec.2.1 (hi.user hcur)
  · obtain ⟨p, hp, hd⟩ := hi.queued c hc
    exact ⟨p, hp, hd hb⟩
  · obtain ⟨cur, hinv, -⟩ := hi.placed
    have hsus : (t.st.co c).frame.suspended = true ∧
        (t.st.co c).frame.waitQueue = some (.cond v) := by
      rcases hf with hf | hf <;> rw [hf] <;> exact ⟨rfl, rfl⟩
    rcases (hinv.seated c).state hsus.1 with hst | ⟨hst, -⟩
    · exact hinv.mem_of_home (by simp [Routine.home, hsus.1, hst])
    · -- it would be queued with a predicate that is false
      have hm : c ∈ t.st.queues (.cond v) :=
        hinv.mem_of_home (by simp [Routine.home, hsus.1, hsus.2, hst])
      obtain ⟨p', hp', hd⟩ := hi.queued c hm
      rw [hc, Option.some.injEq] at hp'
      subst hp'
      rw [hd hb] at hp
      cases hp

/-- Coroutine 1 waits, for 50 ms, for a number that is not 0, and coroutine 2 makes it so. -/
def timelyRun : List (GuardedAct Nat) :=
  [.other spawnOk, .other spawnOk, .other .run] ++ turn.map GuardedAct.other ++
    [GuardedAct.lock, .waitFor (· != 0) 50, .next 0 true] ++ turn.map GuardedAct.other ++
    [GuardedAct.lock, .update (· + 1), .notifyAll, .unlock, .other .finish] ++
    turn.map GuardedAct.other ++ [GuardedAct.next 0 true, .next 0 true]

theorem predicate_waits_timely : ∃ t, Tidy 0 0 (byteConfig 0) 0 t ∧ t.data = 1 ∧
    (t.spot 1).outcome = some true ∧ t.Sound 0 0 := by
  have hrun : (runGuarded (Guarded.step 0 0) tidy (initial (byteConfig 0) 0) timelyRun).map
      (fun t => (t.data, (t.spot 1).outcome)) = some (1, some true) := by
    decide +kernel
  obtain ⟨t, ht, he⟩ := Option.map_eq_some_iff.mp hrun
  simp only [Prod.mk.injEq] at he
  have hreach : Tidy 0 0 (byteConfig 0) 0 t := reach_of_runGuarded ht
  exact ⟨t, hreach, he.1, he.2, predicate_waits hreach⟩

end Guarded

end Libco.Coxx
