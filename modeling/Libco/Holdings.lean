import Libco.Registrations

/-!
# Stacks and their owners

What the library holds in stacks: every coroutine that is not finished has one, and the
pool keeps others. Nothing here depends on where the coroutines are, so runs may leak
timers and context switches may fail. `HoldingsStep` says what a step does to the
holdings: it moves control, or spawns, or ends the running coroutine.
-/

namespace Libco
open Lib

variable {s s' t : St} {a : Act} {c : Nat}

/-! ## Failing context switches -/

inductive HistAct where
  | act (a : Act)
  /-- `co_scheduler_schedule` when `co_context_swap` fails -/
  | switchFails

/-- The coroutine taken from the ready queue stays marked `RUNNING`, and
`co_scheduler_run` returns the error. -/
def switchFails (s : St) : Option St :=
  match s.ctl, coQueuePopFront s .ready with
  | .dispatch, (some c, s') =>
    let t := s'.modify c fun r => { r with state := .running }
    some ({ t with ctl := .outside, switchCount := t.switchCount + 1 }.emit (.runRet .platform))
  | _, _ => none

def histStep (s : St) : HistAct → Option St
  | .act a => step s a
  | .switchFails => switchFails s

/-! ## What the library holds -/

structure Holdings where
  ctl : Ctl
  pool : StackPool
  nextId : Nat
  stack : Nat → Option Nat
  live : Nat → Bool

def St.holdings (s : St) : Holdings :=
  { ctl := s.ctl, pool := s.pool, nextId := s.nextId
    stack := fun c => (s.co c).stackBase, live := fun c => (s.co c).unfinished }

/-- The code between `s` and `t` spawns and releases nobody. -/
def Keeps (s t : St) : Prop := t.holdings = s.holdings

/-- It also leaves the extents of the stacks, and ends nobody. -/
structure Carries (s t : St) : Prop where
  keeps : Keeps s t
  size : ∀ c, (t.co c).stackSize = (s.co c).stackSize
  dead : ∀ c, (t.co c).state = .dead → (s.co c).state = .dead
  default : t.defaultStackSize = s.defaultStackSize

theorem Carries.refl (s : St) : Carries s s := ⟨rfl, fun _ => rfl, fun _ h => h, rfl⟩

theorem Carries.trans (h : Carries s t) (h' : Carries t s') : Carries s s' :=
  ⟨Eq.trans h'.keeps h.keeps, fun c => (h'.size c).trans (h.size c),
    fun c hc => h.dead c (h'.dead c hc), h'.default.trans h.default⟩

theorem Carries.live (h : Carries s t) (c : Nat) : (t.co c).unfinished = (s.co c).unfinished :=
  congrFun (congrArg Holdings.live h.keeps) c

theorem Carries.base (h : Carries s t) (c : Nat) : (t.co c).stackBase = (s.co c).stackBase :=
  congrFun (congrArg Holdings.stack h.keeps) c

theorem Carries.pool (h : Carries s t) : t.pool = s.pool := congrArg Holdings.pool h.keeps

/-- Whatever else changes. -/
theorem Carries.same (h : Carries s t) (hco : s'.co = t.co) (hctl : s'.ctl = t.ctl)
    (hp : s'.pool = t.pool) (hn : s'.nextId = t.nextId)
    (hd : s'.defaultStackSize = t.defaultStackSize) : Carries s s' := by
  refine h.trans ⟨?_, ?_, ?_, hd⟩
  · simp [Keeps, St.holdings, hco, hctl, hp, hn]
  · simp [hco]
  · simp [hco]

theorem carries_rest (hco : t.co = s.co) (hctl : t.ctl = s.ctl) (hp : t.pool = s.pool)
    (hn : t.nextId = s.nextId) (hd : t.defaultStackSize = s.defaultStackSize) : Carries s t :=
  (Carries.refl s).same hco hctl hp hn hd

/-- A record changes and keeps its stack. -/
theorem Carries.modify {f : Routine → Routine} (h : Carries s t)
    (hf : (f (t.co c)).stackBase = (t.co c).stackBase ∧
      (f (t.co c)).stackSize = (t.co c).stackSize ∧
      ((f (t.co c)).state = .dead → (t.co c).state = .dead) ∧
      (f (t.co c)).unfinished = (t.co c).unfinished) : Carries s (t.modify c f) := by
  obtain ⟨hbase, hsize, hdead, hlive⟩ := hf
  have hco : ∀ d, (t.modify c f).co d = if d = c then f (t.co c) else t.co d := by
    intro d
    by_cases hd : d = c <;> simp [St.modify, hd]
  refine h.trans ⟨?_, fun d => ?_, fun d => ?_, rfl⟩
  · have hst : (t.modify c f).holdings.stack = t.holdings.stack := by
      funext d
      simp only [St.holdings, hco]
      split
      · rename_i hd
        rw [hd, hbase]
      · rfl
    have hli : (t.modify c f).holdings.live = t.holdings.live := by
      funext d
      simp only [St.holdings, hco]
      split
      · rename_i hd
        rw [hd, hlive]
      · rfl
    unfold Keeps
    exact (congrArg₂ (fun x y => Holdings.mk t.ctl t.pool t.nextId x y) hst hli)
  · rw [hco]
    split
    · rename_i hd
      rw [hd, hsize]
    · rfl
  · rw [hco]
    split
    · rename_i hd
      rw [hd]
      exact hdead
    · exact id

/-- A coroutine that is not finished gets another frame. -/
theorem Carries.reframe {f : Routine → Routine} (h : Carries s t) (hc : (s.co c).unfinished = true)
    (hf : (f (t.co c)).stackBase = (t.co c).stackBase ∧
      (f (t.co c)).stackSize = (t.co c).stackSize ∧
      ((f (t.co c)).state = .dead → (t.co c).state = .dead) ∧
      (f (t.co c)).unfinished = true) : Carries s (t.modify c f) :=
  h.modify ⟨hf.1, hf.2.1, hf.2.2.1, by rw [hf.2.2.2, h.live, hc]⟩

theorem Carries.emit (h : Carries s t) (e : Event) : Carries s (t.emit e) := h.same rfl rfl rfl rfl rfl

theorem Carries.push (h : Carries s t) (q : QueueRef) : Carries s (coQueuePushBack t q c) :=
  h.same rfl rfl rfl rfl rfl

theorem Carries.heap (h : Carries s t) (p : TimerHeap) : Carries s { t with timerHeap := p } :=
  h.same rfl rfl rfl rfl rfl

theorem Carries.remove (h : Carries s t) (q : QueueRef) : Carries s (coQueueRemove t q c) :=
  h.same rfl rfl rfl rfl rfl

theorem Carries.waiters (h : Carries s t) (n : Nat) : Carries s { t with waitingIoCount := n } :=
  h.same rfl rfl rfl rfl rfl

theorem Carries.wake (h : Carries s t) : Carries s (wakeRoutine t c) :=
  Carries.emit (Carries.push (h.modify ⟨rfl, rfl, by simp, rfl⟩) _) _

theorem Carries.wakeAll {q : QueueRef} {ws rest : List Nat} (h : Carries s t) :
    Carries s (wakeAll t q ws rest .wake) := by
  have hco : ∀ d, ((Libco.wakeAll t q ws rest .wake).co d).stackBase = (t.co d).stackBase ∧
      ((Libco.wakeAll t q ws rest .wake).co d).stackSize = (t.co d).stackSize ∧
      (((Libco.wakeAll t q ws rest .wake).co d).state = .dead → (t.co d).state = .dead) ∧
      ((Libco.wakeAll t q ws rest .wake).co d).unfinished = (t.co d).unfinished := by
    intro d
    simp only [Libco.wakeAll]
    split
    · exact ⟨rfl, rfl, by simp [Routine.wake], rfl⟩
    · exact ⟨rfl, rfl, id, rfl⟩
  refine h.trans ⟨?_, fun d => (hco d).2.1, fun d => (hco d).2.2.1, rfl⟩
  have hst : (Libco.wakeAll t q ws rest .wake).holdings.stack = t.holdings.stack :=
    funext fun d => (hco d).1
  have hli : (Libco.wakeAll t q ws rest .wake).holdings.live = t.holdings.live :=
    funext fun d => (hco d).2.2.2
  exact (congrArg₂ (fun x y => Holdings.mk t.ctl t.pool t.nextId x y) hst hli)

/-! ## Calls -/

/-- The running coroutine is not finished. -/
def CurrentLive (s : St) : Prop := ∀ c, s.coCurrent = some c → (s.co c).unfinished = true

theorem coYieldNow_carries (hc : CurrentLive s) : (coYieldNow s).Ends (Carries s) := by
  unfold coYieldNow
  split
  · exact .refl s
  · rename_i c hcur
    exact Carries.wake ((Carries.refl s).reframe (hc c hcur) ⟨rfl, rfl, by simp, rfl⟩)

theorem coMutexUnlock_carries {m : Nat} (h : coMutexUnlock s m = some t) : Carries s t := by
  obtain ⟨-, ⟨-, rfl⟩ | ⟨c, rest, -, rfl⟩⟩ := coMutexUnlock_cases h
  · exact carries_rest rfl rfl rfl rfl rfl
  · exact Carries.wakeAll (carries_rest rfl rfl rfl rfl rfl)

theorem unlock_carries {m : Nat} (h : Carries s t) :
    Outcome.Ends (Carries s) (match coMutexUnlock t m with
      | none => .abort
      | some s => .swap s) := by
  split
  · trivial
  · rename_i u hu
    exact h.trans (coMutexUnlock_carries hu)

theorem coCondSignal_carries (v : Nat) : Carries s (coCondSignal s v) := by
  unfold coCondSignal
  cases hq : s.queues (.cond v) with
  | nil =>
    rw [coQueuePopFront_nil hq]
    exact carries_rest rfl rfl rfl rfl rfl
  | cons c rest =>
    rw [coQueuePopFront_cons hq]
    exact Carries.wake (Carries.modify (carries_rest rfl rfl rfl rfl rfl) ⟨rfl, rfl, by simp, rfl⟩)

theorem drainQueue_carries {wake : St → Nat → St} {q : QueueRef}
    (hw : ∀ s t c, Carries s t → Carries s (wake t c)) (n : Nat) (h : Carries s t) :
    Carries s (drainQueue wake q n t) := by
  induction n generalizing t with
  | zero => exact h
  | succ n ih =>
    simp only [drainQueue]
    cases hq : t.queues q with
    | nil =>
      rw [coQueuePopFront_nil hq]
      exact h
    | cons c rest =>
      rw [coQueuePopFront_cons hq]
      exact ih (hw _ _ c (h.same rfl rfl rfl rfl rfl))

theorem placeElement_carries {h k : Nat} {data : Bytes} (hp : placeElement s h k data = some t) :
    Carries s t := by
  obtain ⟨c, rest, -, rfl⟩ | ⟨-, -, rfl⟩ := placeElement_cases hp
  · exact Carries.wakeAll (Carries.emit (Carries.emit (Carries.emit
      ((Carries.refl s).modify ⟨rfl, rfl, by simp, rfl⟩) _) _) _)
  · exact carries_rest rfl rfl rfl rfl rfl

theorem takeElement_carries {h k : Nat} (ht : takeElement s h k = some t) : Carries s t := by
  obtain ⟨-, -, rfl⟩ | ⟨c, rest, -, -, rfl⟩ | ⟨c, rest, -, -, rfl⟩ := takeElement_cases ht
  · exact carries_rest rfl rfl rfl rfl rfl
  · exact Carries.wakeAll (carries_rest rfl rfl rfl rfl rfl)
  · exact Carries.wakeAll (carries_rest rfl rfl rfl rfl rfl)

theorem armTimer_carries {timeoutMs : Int} {now : Nat} {ok : Bool} {o : Option Nat}
    (h : armTimer s c timeoutMs now ok = (o, t)) : Carries s t := by
  have hk : Carries s (s.modify c fun r => { r with timedOut := false, ioWaiting := false }) :=
    (Carries.refl s).modify ⟨rfl, rfl, by simp, rfl⟩
  unfold armTimer at h
  dsimp only at h
  split at h
  · split at h
    · cases h
      exact (hk.modify ⟨rfl, rfl, by simp, rfl⟩).modify ⟨rfl, rfl, by simp, rfl⟩
    · cases h
      exact Carries.heap (hk.modify ⟨rfl, rfl, by simp, rfl⟩) _
  · cases h
    exact hk

theorem coWaitIo_carries (hc : CurrentLive s) (x : IoArgs) : (coWaitIo s x).Ends (Carries s) := by
  unfold coWaitIo
  split
  · exact .refl s
  rename_i c hcur
  split
  · rename_i t ht
    exact armTimer_carries ht
  rename_i t ht
  have hk := armTimer_carries ht
  have hadd : ∀ e u, coIomuxAdd t x.fd x.call.events (c, (t.co c).call) x.ctlOk = (e, u) →
      Carries s u := by
    intro e u hu
    unfold coIomuxAdd coIomuxMod at hu
    split at hu <;> split at hu <;> cases hu <;> exact hk.same rfl rfl rfl rfl rfl
  split
  · rename_i u hu
    exact Carries.waiters ((hadd _ _ hu).reframe (hc c hcur) ⟨rfl, rfl, by simp, rfl⟩) _
  · rename_i e u _ hu
    exact (hadd _ _ hu).modify ⟨rfl, rfl, by simp, rfl⟩

theorem coIo_carries (hc : CurrentLive s) (x : IoArgs) : (coIo s x).Ends (Carries s) := by
  have hw := coWaitIo_carries hc x
  unfold coIo
  split
  · exact .refl s
  split
  · exact .refl s
  split
  · split
    · rename_i ho
      rw [ho] at hw
      exact hw
    · exact hw
  · exact .refl s

theorem coWaitIoAsync_carries (hc : CurrentLive s) (x : AsyncArgs) :
    (coWaitIoAsync s x).Ends (Carries s) := by
  unfold coWaitIoAsync
  split
  · split <;> exact .refl s
  rename_i c hcur
  split
  · rename_i t ht
    exact armTimer_carries ht
  rename_i t ht
  have hk := armTimer_carries ht
  have hassoc : ∀ e u, coIomuxAssociate t x.fd x.portOk = (e, u) → Carries s u := by
    intro e u hu
    unfold coIomuxAssociate at hu
    split at hu
    · cases hu
      exact hk
    split at hu
    · split at hu <;> cases hu <;> exact hk.same rfl rfl rfl rfl rfl
    · cases hu
      exact hk
  split
  · rename_i u hu
    have hk' := hassoc _ _ hu
    split
    · have hsub : Carries s (u.modify c fun r =>
          { r with
            state := .waiting
            frame := .waitAsync ⟨x.opType, x.fd, noEvents, x.timeoutMs, 0⟩ }) :=
        hk'.reframe (hc c hcur) ⟨rfl, rfl, by simp, rfl⟩
      exact hsub.same rfl rfl rfl rfl rfl
    split
    · exact hk'
    · exact hk'
    · exact hk'.modify ⟨rfl, rfl, by simp, rfl⟩
    · exact hk'.modify ⟨rfl, rfl, by simp, rfl⟩
  · rename_i e u _ hu
    exact (hassoc _ _ hu).modify ⟨rfl, rfl, by simp, rfl⟩

theorem coMutexLock_carries (hc : CurrentLive s) (m : Nat) : (coMutexLock s m).Ends (Carries s) := by
  unfold coMutexLock
  split <;> split
  · exact .refl s
  · exact carries_rest rfl rfl rfl rfl rfl
  · exact carries_rest rfl rfl rfl rfl rfl
  · rename_i c hcur _
    exact Carries.emit (Carries.push ((Carries.refl s).reframe (hc c hcur) ⟨rfl, rfl, by simp, rfl⟩) _) _

theorem coSleep_carries (hc : CurrentLive s) (msec now : Nat) (ok : Bool) :
    (coSleep s msec now ok).Ends (Carries s) := by
  unfold coSleep
  split
  · exact coYieldNow_carries hc
  split
  · exact .refl s
  rename_i c hcur
  have hk : Carries s (s.modify c fun r =>
      { r with wakeupTime := (now + msec) % 2 ^ 64, state := .waiting }) :=
    (Carries.refl s).modify ⟨rfl, rfl, by simp, rfl⟩
  dsimp only
  split
  · exact hk.modify ⟨rfl, rfl, by simp, rfl⟩
  · exact Carries.heap (hk.reframe (hc c hcur) ⟨rfl, rfl, by simp, rfl⟩) _

theorem coCondTimedwait_carries (hc : CurrentLive s) (v m timeoutMs now : Nat) (ok : Bool) :
    (coCondTimedwait s v m timeoutMs now ok).Ends (Carries s) := by
  unfold coCondTimedwait
  split
  · exact .refl s
  split
  · exact .refl s
  rename_i c hcur
  have hk : Carries s (coQueuePushBack (s.modify c fun r =>
      { r with state := .waiting, condWaitQueue := some v, timedOut := false }) (.cond v) c) :=
    Carries.push ((Carries.refl s).modify ⟨rfl, rfl, by simp, rfl⟩) _
  dsimp only
  split
  · exact Carries.modify (Carries.remove (hk.modify ⟨rfl, rfl, by simp, rfl⟩) _) ⟨rfl, rfl, by simp, rfl⟩
  · exact unlock_carries (Carries.emit
      (Carries.heap (Carries.reframe (hk.modify ⟨rfl, rfl, by simp, rfl⟩) (hc c hcur) ⟨rfl, rfl, by simp, rfl⟩) _) _)

theorem runOp_carries {k : Nat} {op : Op} (hc : CurrentLive s) : (runOp s k op).Ends (Carries s) := by
  cases op with
  | yieldNow => exact coYieldNow_carries hc
  | sleep msec now ok => exact coSleep_carries hc msec now ok
  | mutexLock m => exact coMutexLock_carries hc m
  | mutexTrylock m =>
    simp only [runOp, coMutexTrylock]
    split <;> exact carries_rest rfl rfl rfl rfl rfl
  | mutexUnlock m =>
    simp only [runOp]
    split
    · rename_i hu
      exact coMutexUnlock_carries hu
    · trivial
  | condWait v m =>
    simp only [runOp, coCondWait]
    split
    · exact .refl s
    · rename_i c hcur
      exact unlock_carries (Carries.emit (Carries.push
        ((Carries.refl s).reframe (hc c hcur) ⟨rfl, rfl, by simp, rfl⟩) _) _)
  | condTimedwait v m t now ok => exact coCondTimedwait_carries hc v m t now ok
  | condSignal v => exact coCondSignal_carries v
  | condBroadcast v =>
    exact drainQueue_carries (fun _ _ _ h => Carries.wake (h.modify ⟨rfl, rfl, by simp, rfl⟩)) _
      (carries_rest rfl rfl rfl rfl rfl)
  | channelSend h d =>
    simp only [runOp, coChannelSend]
    split
    · exact .refl s
    split
    · rename_i hp
      exact placeElement_carries hp
    split
    · exact .refl s
    · rename_i c hcur
      exact Carries.emit (Carries.push ((Carries.refl s).reframe (hc c hcur) ⟨rfl, rfl, by simp, rfl⟩) _) _
  | channelTrysend h d =>
    simp only [runOp, coChannelTrysend]
    split
    · exact .refl s
    split
    · rename_i hp
      exact placeElement_carries hp
    · exact .refl s
  | channelRecv h =>
    simp only [runOp, coChannelRecv]
    split
    · rename_i ht
      exact takeElement_carries ht
    split
    · exact .refl s
    split
    · exact .refl s
    · rename_i c hcur
      exact Carries.emit (Carries.push ((Carries.refl s).reframe (hc c hcur) ⟨rfl, rfl, by simp, rfl⟩) _) _
  | channelTryrecv h =>
    simp only [runOp, coChannelTryrecv]
    split
    · rename_i ht
      exact takeElement_carries ht
    · split <;> exact .refl s
  | channelClose h =>
    simp only [runOp, coChannelClose]
    split
    · exact .refl s
    · have hw : ∀ (s t : St) (c : Nat), Carries s t → Carries s (wakeRoutine t c) :=
        fun _ _ _ h => h.wake
      exact drainQueue_carries hw _ (drainQueue_carries hw _
        (carries_rest rfl rfl rfl rfl rfl))
  | io x => exact coIo_carries hc x
  | ioAsync x =>
    simp only [runOp, coIoAsync]
    split
    · exact .refl s
    split
    · exact .refl s
    · exact coWaitIoAsync_carries hc x

/-! ## Resumptions and phases -/

theorem relock_carries {m : Nat} {f : Frame} {r : St → Ret} (hcur : t.coCurrent = some c)
    (hc : (t.co c).unfinished = true) (hf : ∀ x : Routine, { x with frame := f }.unfinished = true) :
    (relock t c m f r).Ends (Carries t) := by
  have hlive : CurrentLive t := by
    intro d hd
    rw [hcur, Option.some.injEq] at hd
    exact hd ▸ hc
  have hlock := coMutexLock_carries hlive m
  unfold relock
  cases ho : coMutexLock t m with
  | ret _ u =>
    rw [ho] at hlock
    exact hlock
  | swap u =>
    rw [ho] at hlock
    exact Carries.reframe hlock hc ⟨rfl, rfl, by simp, hf _⟩
  | abort => trivial

theorem resumeIo_carries (x : IoWaitCtx) (again : SysRes) :
    (resumeIo s c x again).Ends (Carries s) := by
  have hdel : Carries s (coIomuxDel s x.fd) := by
    unfold coIomuxDel
    split <;> exact carries_rest rfl rfl rfl rfl rfl
  have hwait : Carries s (resumeWaitIo s c x).2 := by
    simp only [resumeWaitIo]
    split
    · exact hdel
    split
    · exact hdel
    split
    · exact Carries.heap (hdel.modify ⟨rfl, rfl, by simp, rfl⟩) _
    · exact hdel
  obtain ⟨r, hr⟩ := resumeIo_eq s c x again
  rw [hr]
  exact hwait

theorem resume_carries {e : ResumeEnv} {f : Frame} (hcur : s.coCurrent = some c)
    (hc : (s.co c).unfinished = true) : (resume s c e f).Ends (Carries s) := by
  have hlock : ∀ m, (resumeLock s c m).Ends (Carries s) := by
    intro m
    unfold resumeLock
    split
    · exact (Carries.refl s).emit _
    · trivial
  cases f with
  | absent | freed | user => trivial
  | entry | yieldNow | sleep => exact .refl s
  | lock m => exact hlock m
  | condRelock v m => exact hlock m
  | timedRelock v m =>
    have hm := hlock m
    simp only [resume]
    cases ho : resumeLock s c m with
    | ret r t | swap t =>
      rw [ho] at hm
      exact hm
    | abort => trivial
  | condWait v m => exact relock_carries hcur hc fun _ => rfl
  | timedWait v m =>
    simp only [resume, resumeTimedWait]
    split
    · have hheap := Carries.heap (.refl s) (coTimerHeapRemove s.key s.timerHeap c).2
      refine Outcome.Ends.mono (relock_carries ?_ ?_ fun _ => rfl) fun t => hheap.trans
      · exact hcur
      · exact hc
    · exact relock_carries hcur hc fun _ => rfl
  | send h | recv h => exact .refl s
  | waitIo x => exact resumeIo_carries x e.again
  | waitAsync x =>
    simp only [resume, resumeAsync]
    split
    · exact Carries.waiters ((Carries.refl s).reframe hc ⟨rfl, rfl, by simp, rfl⟩) _
    split
    · exact .refl s
    · split <;> split <;>
        first | exact .refl s | exact Carries.heap ((Carries.refl s).modify ⟨rfl, rfl, by simp, rfl⟩) _
  | drainAsync x => exact .refl s

theorem expireTop_carries : Carries s (expireTop s c) := by
  have hpop : Carries s { s with timerHeap := (coTimerHeapPop s.key s.timerHeap).2 } :=
    carries_rest rfl rfl rfl rfl rfl
  unfold expireTop
  dsimp only
  split
  · exact hpop
  split
  · exact Carries.wake (Carries.emit (Carries.modify (hpop.remove _) ⟨rfl, rfl, by simp, rfl⟩) _)
  split
  · exact Carries.wake (Carries.waiters (hpop.modify ⟨rfl, rfl, by simp, rfl⟩) _)
  · exact Carries.wake hpop

theorem Carries.wakeIo (h : Carries s t) : Carries s (wakeIo t c) := by
  unfold Libco.wakeIo
  split
  · exact Carries.emit (Carries.push (Carries.waiters (h.modify ⟨rfl, rfl, by simp, rfl⟩) _) _) _
  · exact h

theorem pollEvent_carries (ev : Int × EpollEvents) : Carries s (pollEvent s ev) := by
  unfold pollEvent
  split
  · exact carries_rest rfl rfl rfl rfl rfl
  split
  · rename_i x hf
    refine Carries.wakeIo ((Carries.refl s).modify ⟨rfl, rfl, by simp, ?_⟩)
    simp [Routine.unfinished, hf]
  · exact carries_rest rfl rfl rfl rfl rfl

theorem pollPacket_carries (p : Packet) : Carries s (pollPacket s p) := by
  simp only [pollPacket]
  split
  · rename_i x hf
    refine Carries.wakeIo (Carries.modify (carries_rest rfl rfl rfl rfl rfl) ⟨rfl, rfl, by simp, ?_⟩)
    simp [Routine.unfinished, hf]
  · rename_i x hf
    refine Carries.wakeIo (Carries.modify (carries_rest rfl rfl rfl rfl rfl) ⟨rfl, rfl, by simp, ?_⟩)
    simp [Routine.unfinished, hf]
  · exact carries_rest rfl rfl rfl rfl rfl

theorem PollResult.apply_carries (p : PollResult) (s : St) : Carries s (p.apply s) := by
  cases p with
  | none => exact .refl s
  | events evs =>
    simp only [PollResult.apply, coIomuxPoll]
    induction evs generalizing s with
    | nil => exact .refl s
    | cons ev evs ih => exact (pollEvent_carries ev).trans (ih _)
  | packets ps =>
    simp only [PollResult.apply, coIomuxPollPackets]
    induction ps generalizing s with
    | nil => exact .refl s
    | cons p ps ih => exact (pollPacket_carries p).trans (ih _)

/-! ## What a step does -/

/-- If control goes to a coroutine, it is not finished. -/
def Ctl.Live (x : Ctl) (s : St) : Prop := ∀ c, x = .running c → (s.co c).unfinished = true

theorem Ctl.live_of_ne {x : Ctl} (h : ∀ c, x ≠ .running c) : x.Live s := fun c hc => absurd hc (h c)

theorem Ctl.Live.current (h : s.ctl.Live s) : CurrentLive s := fun c hc => h c (coCurrent_ctl hc)

theorem Carries.setCtl (h : Carries s t) (x : Ctl) :
    Carries { s with ctl := x } { t with ctl := x } := by
  refine ⟨?_, h.size, h.dead, h.default⟩
  have hk : t.holdings = s.holdings := h.keeps
  exact congrArg (fun y : Holdings => { y with ctl := x }) hk

/-- A step moves control, or spawns, or ends the running coroutine; the state it ends in
differs from the third argument in what `Carries` leaves open. -/
inductive Effect (s : St) : HistAct → St → Prop
  | moves {a : HistAct} {x : Ctl} (hx : x.Live s) (ha : ∀ e, a ≠ .act (.spawn e)) :
      Effect s a { s with ctl := x }
  | spawns {e : SpawnEnv} (hu : inUserCode s = true) : Effect s (.act (.spawn e)) (coSpawn s e).2
  | ends {c : Nat} (hc : s.ctl = .running c) :
      Effect s (.act .finish) { coRoutineDestroy (coRoutineFinish s c) c with ctl := .loop }

/-- The code of a call or of a resumption moves control. -/
theorem settle_moves {u : St} {y : Ctl} {k : Nat} {o : Outcome} (hy : y.Live s)
    (hu : Carries { s with ctl := y } u) (ho : o.Ends (Carries u)) :
    ∃ x : Ctl, x.Live s ∧ Carries { s with ctl := x } (settle s k o) := by
  cases o with
  | ret r v => exact ⟨y, hy, (hu.trans ho).emit _⟩
  | swap v => exact ⟨.loop, Ctl.live_of_ne (by simp), (hu.trans ho).setCtl .loop⟩
  | abort => exact ⟨.aborted, Ctl.live_of_ne (by simp), Carries.refl _⟩

/-- A coroutine that is not finished is switched to. -/
theorem switchTo_carries (rest : List Nat) (hu : (s.co c).unfinished = true) :
    (Ctl.running c).Live s ∧ Carries { s with ctl := .running c }
      (switchTo { s with queues := Function.update s.queues .ready rest } c) := by
  have hk : Carries s ({ s with queues := Function.update s.queues .ready rest }.modify c
      fun r => { r with state := .running, frame := .user }) :=
    Carries.reframe (carries_rest rfl rfl rfl rfl rfl) hu ⟨rfl, rfl, by simp, rfl⟩
  refine ⟨?_, (hk.setCtl (.running c)).same rfl rfl rfl rfl rfl⟩
  intro d hd
  cases hd
  exact hu

/-- A finished one has no code to go on with. -/
theorem resume_finished {t : St} {e : ResumeEnv} {r : Routine} (hu : r.unfinished ≠ true) :
    resume t c e r.frame = .abort := by
  unfold Routine.unfinished at hu
  split at hu
  · rename_i hf
    rw [hf]
    rfl
  · rename_i hf
    rw [hf]
    rfl
  · exact absurd rfl hu

theorem schedule_moves (e : ResumeEnv) :
    ∃ x : Ctl, x.Live s ∧ Carries { s with ctl := x } (coSchedulerSchedule s e) := by
  obtain ⟨-, he⟩ | ⟨c, rest, -, ⟨hf, he⟩ | ⟨-, he⟩⟩ := schedule_cases s e
  · rw [he]
    exact ⟨.loop, Ctl.live_of_ne (by simp), Carries.refl _⟩
  · rw [he]
    have hu : (s.co c).unfinished = true := by simp [Routine.unfinished, hf]
    exact ⟨.running c, switchTo_carries rest hu⟩
  · rw [he]
    by_cases hu : (s.co c).unfinished = true
    · obtain ⟨hlive, hswitch⟩ := switchTo_carries rest hu
      have hu' := hswitch.live c
      exact settle_moves hlive hswitch (resume_carries rfl (hu'.trans hu))
    · rw [resume_finished hu]
      exact ⟨.aborted, Ctl.live_of_ne (by simp), Carries.refl _⟩

theorem call_moves {op : Op} {k : Nat} (h : s.ctl.Live s) :
    ∃ x : Ctl, x.Live s ∧ Carries { s with ctl := x } (settle s k (runOp (beginCall s op) k op)) := by
  have hb : Carries s (beginCall s op) := by
    unfold beginCall
    split
    · exact Carries.modify (carries_rest rfl rfl rfl rfl rfl) ⟨rfl, rfl, by simp, rfl⟩
    · exact carries_rest rfl rfl rfl rfl rfl
  have hcur : CurrentLive (beginCall s op) := by
    intro c hc
    rw [beginCall_coCurrent] at hc
    rw [hb.live]
    exact h.current c hc
  exact settle_moves (u := beginCall s op) h hb (runOp_carries hcur)

theorem timers_move (now n : Nat) (s : St) :
    ∃ x : Ctl, (x = s.ctl ∨ x = .aborted) ∧ Carries { s with ctl := x } (timerLoop now n s) := by
  induction n generalizing s with
  | zero => exact ⟨s.ctl, .inl rfl, .refl s⟩
  | succ n ih =>
    simp only [timerLoop]
    split
    · exact ⟨s.ctl, .inl rfl, .refl s⟩
    rename_i c _
    split
    · exact ⟨.aborted, .inr rfl, .refl _⟩
    split
    · exact ⟨s.ctl, .inl rfl, .refl s⟩
    · obtain ⟨x, hx, hk⟩ := ih (expireTop s c)
      have hctl : (expireTop s c).ctl = s.ctl :=
        congrArg Holdings.ctl (expireTop_carries (s := s) (c := c)).keeps
      rw [hctl] at hx
      exact ⟨x, hx, (expireTop_carries.setCtl x).trans hk⟩

theorem step_effect (h : s.ctl.Live s) (hs : step s a = some s') :
    ∃ t, Effect s (.act a) t ∧ Carries t s' := by
  -- what is left is where control goes
  have hmove : (∀ e, a ≠ .spawn e) → (∃ x : Ctl, x.Live s ∧ Carries { s with ctl := x } s') →
      ∃ t, Effect s (.act a) t ∧ Carries t s' := by
    rintro ha ⟨x, hx, hk⟩
    exact ⟨_, .moves hx fun e he => ha e (by cases he; rfl), hk⟩
  cases a with
  | run =>
    refine hmove (by simp) ?_
    obtain ⟨-, rfl⟩ := step_run hs
    exact ⟨.loop, Ctl.live_of_ne (by simp), carries_rest rfl rfl rfl rfl rfl⟩
  | timers now =>
    refine hmove (by simp) ?_
    obtain ⟨hctl, ⟨-, rfl⟩ | ⟨-, t, rfl, hs'⟩⟩ := step_timers hs
    · exact ⟨.outside, Ctl.live_of_ne (by simp), carries_rest rfl rfl rfl rfl rfl⟩
    obtain ⟨x, hx, hk⟩ := timers_move now s.timerHeap.entries.length (s.emit (.tick now))
    have htick : Carries s (s.emit (.tick now)) := (Carries.refl s).emit _
    rcases hs' with rfl | ⟨-, rfl⟩
    · refine ⟨_, ?_, (htick.setCtl _).trans (hk.setCtl _)⟩
      intro c hc
      split at hc <;> cases hc
    · refine ⟨x, ?_, (htick.setCtl x).trans hk⟩
      rintro c rfl
      simp [St.emit, hctl] at hx
  | idle p =>
    refine hmove (by simp) ?_
    obtain ⟨n, u, -, -, hu, hend⟩ := step_poll hs
    have hpoll : Carries s u := by
      rw [hu]
      split
      · exact ((Carries.refl s).emit _).trans (p.apply_carries _)
      · exact .refl s
    rcases hend with rfl | rfl
    · exact ⟨.outside, Ctl.live_of_ne (by simp), (hpoll.setCtl .outside).emit _⟩
    · exact ⟨.loop, Ctl.live_of_ne (by simp), hpoll.setCtl .loop⟩
  | schedule e =>
    refine hmove (by simp) ?_
    obtain ⟨-, rfl⟩ := step_schedule hs
    exact schedule_moves e
  | spawn e =>
    obtain ⟨hu, rfl⟩ := step_spawn hs
    exact ⟨_, .spawns hu, (Carries.refl _).emit _⟩
  | call op =>
    refine hmove (by simp) ?_
    obtain ⟨-, rfl⟩ := step_call hs
    exact call_moves h
  | finish =>
    obtain ⟨c, hc, rfl⟩ := step_finish hs
    exact ⟨_, .ends hc, (Carries.refl _).emit _⟩

theorem switchFails_carries (hs : switchFails s = some s') :
    Carries { s with ctl := .outside } s' := by
  unfold switchFails at hs
  split at hs
  · rename_i c t _ hq
    cases hs
    have hpop : Carries s t := by
      unfold coQueuePopFront at hq
      split at hq
      · cases hq
      · cases hq
        exact carries_rest rfl rfl rfl rfl rfl
    have hk : Carries s (t.modify c fun r => { r with state := .running }) :=
      hpop.modify ⟨rfl, rfl, by simp, rfl⟩
    exact (hk.setCtl .outside).same rfl rfl rfl rfl rfl
  · cases hs

theorem histStep_effect {a : HistAct} (h : s.ctl.Live s) (hs : histStep s a = some s') :
    ∃ t, Effect s a t ∧ Carries t s' := by
  cases a with
  | act a => exact step_effect h hs
  | switchFails =>
    exact ⟨_, .moves (Ctl.live_of_ne (by simp)) (by simp), switchFails_carries hs⟩

/-! ## Spawning and ending -/

/-- The state in which `co_spawn` enqueues the new coroutine, its stack being at `b`. -/
def spawnedWith (s : St) (e : SpawnEnv) (b : Nat) (p : StackPool) : St :=
  { s with
    pool := p
    nextId := s.nextId + 1
    co := Function.update s.co s.nextId
      { Routine.zero with
        stackBase := some b
        stackSize := if e.stackSize = 0 then s.defaultStackSize else e.stackSize
        frame := .entry } }

/-- The steps of `co_spawn` at which it can fail, and its success. -/
theorem coSpawn_cases (s : St) (e : SpawnEnv) :
    (e.calloc = false ∧ coSpawn s e = (none, s)) ∨
    (e.calloc = true ∧ ∃ p, coStackPoolAlloc s.pool e.malloc = (none, p) ∧
      coSpawn s e = (none, { s with pool := p })) ∨
    (e.calloc = true ∧ ∃ b p, coStackPoolAlloc s.pool e.malloc = (some b, p) ∧
      ((e.contextInit = false ∧
          coSpawn s e = (none, { s with pool := coStackPoolFree p b, nextId := s.nextId + 1 })) ∨
        (e.contextInit = true ∧ (coSpawn s e).1 = some s.nextId ∧
          Carries (spawnedWith s e b p) (coSpawn s e).2))) := by
  cases hc : e.calloc with
  | false => exact .inl ⟨rfl, by simp [coSpawn, hc]⟩
  | true =>
    cases ha : coStackPoolAlloc s.pool e.malloc with
    | mk o p =>
      cases o with
      | none => exact .inr (.inl ⟨rfl, p, rfl, by simp [coSpawn, hc, ha]⟩)
      | some b =>
        refine .inr (.inr ⟨rfl, b, p, rfl, ?_⟩)
        cases hi : e.contextInit with
        | false => exact .inl ⟨rfl, by simp [coSpawn, hc, ha, hi]⟩
        | true =>
          refine .inr ⟨rfl, by simp [coSpawn, hc, ha, hi], ?_⟩
          have hsp : (coSpawn s e).2 = coSchedulerEnqueue { spawnedWith s e b p with
              totalRoutines := s.totalRoutines + 1
              activeRoutines := s.activeRoutines + 1 } s.nextId := by
            simp [coSpawn, hc, ha, hi, spawnedWith, St.modify]
          rw [hsp, ← wakeRoutine_eq]
          exact Carries.wake (carries_rest rfl rfl rfl rfl rfl)

@[simp] theorem spawnedWith_co_self (e : SpawnEnv) (b : Nat) (p : StackPool) :
    (spawnedWith s e b p).co s.nextId =
      { Routine.zero with
        stackBase := some b
        stackSize := if e.stackSize = 0 then s.defaultStackSize else e.stackSize
        frame := .entry } := by
  simp [spawnedWith]

theorem spawnedWith_co_ne (e : SpawnEnv) (b : Nat) (p : StackPool) (hc : c ≠ s.nextId) :
    (spawnedWith s e b p).co c = s.co c := by
  simp [spawnedWith, hc]

/-- A new coroutine gets the stack `b`, the pool being `p` then. -/
def Holdings.grant (h : Holdings) (b : Nat) (p : StackPool) : Holdings :=
  { h with
    pool := p
    nextId := h.nextId + 1
    stack := Function.update h.stack h.nextId (some b)
    live := Function.update h.live h.nextId true }

/-- The stack `b` of `c` goes back. -/
def Holdings.drop (h : Holdings) (c b : Nat) : Holdings :=
  { h with
    pool := coStackPoolFree h.pool b
    stack := Function.update h.stack c none
    live := Function.update h.live c false }

theorem spawnedWith_holdings (e : SpawnEnv) (b : Nat) (p : StackPool) :
    (spawnedWith s e b p).holdings = s.holdings.grant b p := by
  simp only [St.holdings, spawnedWith, Holdings.grant]
  congr 1
  · funext d
    by_cases hd : d = s.nextId <;> simp [hd]
  · funext d
    by_cases hd : d = s.nextId
    · simp [hd, Routine.unfinished]
    · simp [hd]

theorem coRoutineDestroy_co (s : St) (c d : Nat) : (coRoutineDestroy s c).co d =
    if d = c then { s.co c with stackBase := none, frame := .freed } else s.co d := by
  unfold coRoutineDestroy
  by_cases hd : d = c
  · cases hb : (s.co c).stackBase <;> simp [St.modify, hd]
  · cases hb : (s.co c).stackBase <;> simp [St.modify, hd]

theorem coRoutineFinish_co (s : St) (c d : Nat) : (coRoutineFinish s c).co d =
    if d = c then { s.co c with state := .dead } else s.co d := by
  by_cases hd : d = c <;> simp [coRoutineFinish, St.modify, hd]

theorem coRoutineFinish_holdings (s : St) (c : Nat) :
    (coRoutineFinish s c).holdings = s.holdings := by
  simp only [St.holdings, coRoutineFinish, St.modify]
  congr 1
  · funext d
    by_cases hd : d = c <;> simp [hd]
  · funext d
    by_cases hd : d = c
    · simp [hd, Routine.unfinished]
    · simp [hd]

theorem coRoutineDestroy_holdings {b : Nat} (hb : (s.co c).stackBase = some b) :
    (coRoutineDestroy s c).holdings = s.holdings.drop c b := by
  unfold coRoutineDestroy
  rw [hb]
  simp only [St.holdings, St.modify, Holdings.drop]
  congr 1
  · funext d
    by_cases hd : d = c <;> simp [hd]
  · funext d
    by_cases hd : d = c
    · simp [hd, Routine.unfinished]
    · simp [hd]

/-- The end of a coroutine gives its stack back. -/
theorem ended_holdings {b : Nat} (hb : (s.co c).stackBase = some b) :
    { coRoutineDestroy (coRoutineFinish s c) c with ctl := .loop }.holdings =
      { s.holdings with ctl := .loop }.drop c b := by
  have hfin : ((coRoutineFinish s c).co c).stackBase = some b := by
    simpa [coRoutineFinish, St.modify] using hb
  have hd := coRoutineDestroy_holdings hfin
  rw [coRoutineFinish_holdings] at hd
  exact congrArg (fun y : Holdings => { y with ctl := .loop }) hd

/-! ## The pool -/

/-- A stack goes back. -/
theorem mem_coStackPoolFree {p : StackPool} {b d : Nat} (h : d ∈ (coStackPoolFree p b).stacks) :
    d ∈ p.stacks ∨ d = b := by
  unfold coStackPoolFree at h
  dsimp only at h
  split at h
  · simpa using h
  · exact .inl h

theorem nodup_coStackPoolFree {p : StackPool} {b : Nat} (h : p.stacks.Nodup) (hb : b ∉ p.stacks) :
    (coStackPoolFree p b).stacks.Nodup := by
  unfold coStackPoolFree
  dsimp only
  split
  · exact (List.nodup_append.mpr ⟨h, by simp, fun d hd e he => by
      rw [List.mem_singleton] at he
      rw [he]
      exact fun heq => hb (heq ▸ hd)⟩)
  · exact h

/-- A stack that the pool hands out is nobody's. -/
theorem coStackPoolAlloc_spec {p p' : StackPool} {m : Option Nat} {b : Nat} (hn : p.stacks.Nodup)
    (hm : ∀ b, m = some b → b ∉ p.stacks) (h : coStackPoolAlloc p m = (some b, p')) :
    (b ∈ p.stacks ∨ m = some b) ∧ b ∉ p'.stacks ∧ p'.stacks.Nodup ∧ ∀ d ∈ p'.stacks, d ∈ p.stacks := by
  unfold coStackPoolAlloc at h
  dsimp only at h
  split at h
  · rename_i d hd
    simp only [Prod.mk.injEq, Option.some.injEq] at h
    obtain ⟨rfl, rfl⟩ := h
    obtain ⟨l, hl⟩ := List.getLast?_eq_some_iff.mp hd
    rw [hl] at hn
    simp only [hl, List.dropLast_concat]
    refine ⟨.inl (by simp), fun hmem => ?_, (List.nodup_append.mp hn).1, fun x hx => by simp [hx]⟩
    exact (List.nodup_append.mp hn).2.2 d hmem d (by simp) rfl
  · simp only [Prod.mk.injEq] at h
    obtain ⟨rfl, rfl⟩ := h
    exact ⟨.inr rfl, hm b rfl, hn, fun _ hd => hd⟩

/-! ## Who has a stack -/

/-- A coroutine has a stack from its creation to its end. -/
structure Holdings.Rooted (h : Holdings) : Prop where
  live : ∀ c, h.live c = (h.stack c).isSome
  fresh : ∀ c, h.nextId ≤ c → h.stack c = none
  current : ∀ c, h.ctl = .running c → h.live c = true

theorem Holdings.Rooted.ctl_live (h : s.holdings.Rooted) : s.ctl.Live s := h.current

theorem Holdings.Rooted.base (h : s.holdings.Rooted) (hc : (s.co c).unfinished = true) :
    ∃ b, (s.co c).stackBase = some b :=
  Option.isSome_iff_exists.mp ((h.live c).symm.trans hc)

/-- The coroutines that are there are below `next_id`. -/
theorem Holdings.Rooted.below (h : s.holdings.Rooted) {b : Nat}
    (hb : (s.co c).stackBase = some b) : c < s.nextId := by
  by_contra hlt
  have := h.fresh c (Nat.le_of_not_lt hlt)
  rw [show s.holdings.stack c = some b from hb] at this
  cases this

theorem Carries.rooted (h : Carries s t) (hs : s.holdings.Rooted) : t.holdings.Rooted := by
  have hk : t.holdings = s.holdings := h.keeps
  rw [hk]
  exact hs

theorem Holdings.Rooted.grant {h : Holdings} {b : Nat} {p : StackPool} (hr : h.Rooted) :
    (h.grant b p).Rooted := by
  constructor
  · intro d
    by_cases hd : d = h.nextId
    · simp [Holdings.grant, hd]
    · simpa [Holdings.grant, hd] using hr.live d
  · intro d hd
    have hne : d ≠ h.nextId := Nat.ne_of_gt hd
    simpa [Holdings.grant, hne] using hr.fresh d (Nat.le_of_succ_le hd)
  · intro d hd
    by_cases hdn : d = h.nextId
    · simp [Holdings.grant, hdn]
    · simpa [Holdings.grant, hdn] using hr.current d hd

theorem Holdings.Rooted.drop {h : Holdings} {b : Nat} (hr : h.Rooted)
    (hc : h.ctl ≠ .running c) : (h.drop c b).Rooted := by
  constructor
  · intro d
    by_cases hd : d = c
    · simp [Holdings.drop, hd]
    · simpa [Holdings.drop, hd] using hr.live d
  · intro d hd
    by_cases hdc : d = c
    · simp [Holdings.drop, hdc]
    · simpa [Holdings.drop, hdc] using hr.fresh d hd
  · intro d hd
    have hdc : d ≠ c := by
      rintro rfl
      exact hc hd
    simpa [Holdings.drop, hdc] using hr.current d hd

theorem Holdings.Rooted.spawn (h : s.holdings.Rooted) (e : SpawnEnv) :
    (coSpawn s e).2.holdings.Rooted := by
  rcases coSpawn_cases s e with ⟨-, he⟩ | ⟨-, p, -, he⟩ | ⟨-, b, p, -, ⟨-, he⟩ | ⟨-, -, hk⟩⟩
  · rw [he]
    exact h
  · rw [he]
    exact ⟨h.live, h.fresh, h.current⟩
  · rw [he]
    exact ⟨h.live, fun c hc => h.fresh c (Nat.le_of_succ_le hc), h.current⟩
  · refine hk.rooted ?_
    rw [spawnedWith_holdings]
    exact h.grant

theorem Holdings.Rooted.effect {a : HistAct} (h : s.holdings.Rooted) (he : Effect s a t) :
    t.holdings.Rooted := by
  cases he with
  | moves hx ha => exact ⟨h.live, h.fresh, hx⟩
  | spawns hu => exact h.spawn _
  | @ends c hc =>
    obtain ⟨b, hb⟩ := h.base (h.current c hc)
    rw [ended_holdings hb]
    have hloop : Holdings.Rooted { s.holdings with ctl := .loop } :=
      ⟨h.live, h.fresh, by simp⟩
    exact hloop.drop (by simp)

theorem rooted_init (cfg : Config) : (init cfg).holdings.Rooted := by
  refine ⟨fun c => rfl, fun c _ => rfl, ?_⟩
  simp [St.holdings, init]

/-! ## Every stack has one owner -/

structure Holdings.Sound (h : Holdings) : Prop where
  live : ∀ c, h.live c = (h.stack c).isSome
  fresh : ∀ c, h.nextId ≤ c → h.stack c = none
  current : ∀ c, h.ctl = .running c → h.live c = true
  owner : ∀ c d b, h.stack c = some b → h.stack d = some b → c = d
  pooled : ∀ c b, h.stack c = some b → b ∉ h.pool.stacks
  nodup : h.pool.stacks.Nodup

theorem Holdings.Sound.rooted {h : Holdings} (hs : h.Sound) : h.Rooted :=
  ⟨hs.live, hs.fresh, hs.current⟩

theorem Carries.sound (h : Carries s t) (hs : s.holdings.Sound) : t.holdings.Sound := by
  have hk : t.holdings = s.holdings := h.keeps
  rw [hk]
  exact hs

/-- The control state changes, and with it the running coroutine. -/
theorem Holdings.Sound.setCtl {h : Holdings} (hs : h.Sound) (x : Ctl)
    (hx : ∀ c, x = .running c → h.live c = true) : Holdings.Sound { h with ctl := x } :=
  ⟨hs.live, hs.fresh, hx, hs.owner, hs.pooled, hs.nodup⟩

theorem Holdings.Sound.drop {h : Holdings} {b : Nat} (hs : h.Sound) (hc : h.ctl ≠ .running c)
    (hb : h.stack c = some b) : (h.drop c b).Sound := by
  have hr := hs.rooted.drop (b := b) hc
  have hne : ∀ d e, (h.drop c b).stack d = some e → d ≠ c ∧ h.stack d = some e := by
    intro d e hd
    by_cases hdc : d = c
    · subst hdc
      simp [Holdings.drop] at hd
    · exact ⟨hdc, by simpa [Holdings.drop, hdc] using hd⟩
  refine ⟨hr.live, hr.fresh, hr.current, fun d e x hd he => ?_, fun d x hd hx => ?_, ?_⟩
  · exact hs.owner d e x (hne d x hd).2 (hne e x he).2
  · obtain ⟨hdc, hds⟩ := hne d x hd
    rcases mem_coStackPoolFree hx with hx | rfl
    · exact hs.pooled d x hds hx
    · exact hdc (hs.owner d c x hds hb)
  · exact nodup_coStackPoolFree hs.nodup (hs.pooled c b hb)

/-- A new coroutine gets a stack. -/
theorem Holdings.Sound.grant {h : Holdings} {p : StackPool} {b : Nat} (hs : h.Sound)
    (hb : ∀ d, h.stack d ≠ some b) (hbp : b ∉ p.stacks) (hn : p.stacks.Nodup)
    (hsub : ∀ d ∈ p.stacks, d ∈ h.pool.stacks) :
    (h.grant b p).Sound := by
  have hold : ∀ d x, Function.update h.stack h.nextId (some b) d = some x →
      (d = h.nextId ∧ x = b) ∨ h.stack d = some x := by
    intro d x hd
    by_cases hdn : d = h.nextId
    · subst hdn
      exact .inl ⟨rfl, by simpa [eq_comm] using hd⟩
    · exact .inr (by simpa [hdn] using hd)
  have hr := hs.rooted.grant (b := b) (p := p)
  refine ⟨hr.live, hr.fresh, hr.current, ?_, ?_, hn⟩
  · intro d e x hd he
    rcases hold d x hd with ⟨rfl, rfl⟩ | hd'
    · rcases hold e x he with ⟨rfl, -⟩ | he'
      · rfl
      · exact absurd he' (hb e)
    · rcases hold e x he with ⟨rfl, rfl⟩ | he'
      · exact absurd hd' (hb d)
      · exact hs.owner d e x hd' he'
  · intro d x hd hx
    rcases hold d x hd with ⟨rfl, rfl⟩ | hd'
    · exact hbp hx
    · exact hs.pooled d x hd' (hsub x hx)

/-- What `malloc` answers is in nobody's use. -/
def FreshFor (m : Option Nat) (s : St) : Prop :=
  ∀ b, m = some b → b ∉ s.pool.stacks ∧ ∀ d, (s.co d).stackBase ≠ some b

/-- The step leaves a timer behind; a failed switch does not. -/
def HistAct.leaks (s : St) : HistAct → Bool
  | .act a => Libco.leaks s a
  | .switchFails => false

/-- `malloc` returns memory that is not in use. -/
def mallocFresh (s : St) : HistAct → Bool
  | .act (.spawn e) =>
    e.malloc.all fun b => !s.pool.stacks.contains b &&
      (List.range s.nextId).all fun c => (s.co c).stackBase != some b
  | _ => true

theorem mallocFresh_spawn {e : SpawnEnv} (h : s.holdings.Rooted)
    (hm : mallocFresh s (.act (.spawn e)) = true) : FreshFor e.malloc s := by
  intro b hb
  simp only [mallocFresh, hb, Option.all_some, Bool.and_eq_true, Bool.not_eq_true',
    List.all_eq_true, List.mem_range, bne_iff_ne] at hm
  refine ⟨by simpa using hm.1, fun d hd => ?_⟩
  exact hm.2 d (h.below hd) hd

theorem Holdings.Sound.spawn {e : SpawnEnv} (h : s.holdings.Sound) (hm : FreshFor e.malloc s) :
    (coSpawn s e).2.holdings.Sound := by
  rcases coSpawn_cases s e with ⟨-, he⟩ | ⟨-, p, ha, he⟩ | ⟨-, b, p, ha, hb⟩
  · rw [he]
    exact h
  · have hp : p.stacks = s.pool.stacks := by
      unfold coStackPoolAlloc at ha
      dsimp only at ha
      split at ha
      · simp at ha
      · rw [← (Prod.mk.inj ha).2]
    rw [he]
    exact ⟨h.live, h.fresh, h.current, h.owner, by simpa [St.holdings, hp] using h.pooled,
      by simpa [St.holdings, hp] using h.nodup⟩
  obtain ⟨hfrom, hbp, hnp, hsub⟩ := coStackPoolAlloc_spec h.nodup (fun b hb => (hm b hb).1) ha
  have hnobody : ∀ d, (s.co d).stackBase ≠ some b := by
    intro d hd
    rcases hfrom with hfrom | hfrom
    · exact h.pooled d b hd hfrom
    · exact (hm b hfrom).2 d hd
  rcases hb with ⟨-, he⟩ | ⟨-, -, hk⟩
  · rw [he]
    refine ⟨h.live, fun d hd => h.fresh d (Nat.le_of_succ_le hd), h.current, h.owner, ?_, ?_⟩
    · intro d x hd hx
      rcases mem_coStackPoolFree hx with hx | rfl
      · exact h.pooled d x hd (hsub x hx)
      · exact hnobody d hd
    · exact nodup_coStackPoolFree hnp hbp
  · refine hk.sound ?_
    rw [spawnedWith_holdings]
    exact h.grant hnobody hbp hnp hsub

theorem Holdings.Sound.effect {a : HistAct} (h : s.holdings.Sound)
    (hm : ∀ e, a = .act (.spawn e) → FreshFor e.malloc s) (he : Effect s a t) :
    t.holdings.Sound := by
  cases he with
  | moves hx ha => exact h.setCtl _ hx
  | spawns hu => exact h.spawn (hm _ rfl)
  | @ends c hc =>
    obtain ⟨b, hb⟩ := h.rooted.base (h.current c hc)
    rw [ended_holdings hb]
    exact (h.setCtl .loop (by simp)).drop (by simp) hb

end Libco
