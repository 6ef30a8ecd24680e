import Libco.Lib.Runs
import Libco.Sync.Cond
import Libco.Sync.Channel
import Libco.Platform.Iocp

/-!
# `co_scheduler.c` and the whole machine

`step` is one step of the library with its environment. Coroutines switch only
inside library calls, so a step is a library call up to its return or its
context switch, the resumption of a suspended call, or one of the scheduler's
own phases. An action carries what the callers, the clock, the allocator and
the kernel choose; an action the kernel or the control state excludes gives
`none`.
-/

namespace Libco
open Lib

/-! ## Timer phase -/

/-- One round of the timer loop, for the expired coroutine at the heap top. -/
def expireTop (s : St) (c : Nat) : St :=
  let s := { s with timerHeap := (coTimerHeapPop s.key s.timerHeap).2 }
  if (s.co c).state ≠ .waiting then s
  else
    let s := match (s.co c).condWaitQueue with
      | some v =>
        let s := coQueueRemove s (.cond v) c
        (s.modify c fun r => { r with timedOut := true, condWaitQueue := none }).emit
          (.expire v (s.co c).call)
      | none =>
        if (s.co c).ioWaiting then
          let s := s.modify c fun r => { r with ioWaiting := false, timedOut := true }
          { s with waitingIoCount := decr32 s.waitingIoCount }
        else s
    coSchedulerEnqueue s c

/-- The timer loop, for at most as many rounds as the first argument. A freed
coroutine at the top is an access to freed memory. -/
def timerLoop (now : Nat) : Nat → St → St
  | 0, s => s
  | n + 1, s =>
    match coTimerHeapPeek s.timerHeap with
    | none => s
    | some c =>
      if (s.co c).frame = .freed then { s with ctl := .aborted }
      else if now < (s.co c).wakeupTime then s
      else timerLoop now n (expireTop s c)

/-! ## Idle phase -/

/-- Conversion to `int64_t` and to `int`. -/
def toInt64 (n : Nat) : Int := if n % 2 ^ 64 < 2 ^ 63 then n % 2 ^ 64 else n % 2 ^ 64 - 2 ^ 64
def toInt32 (n : Int) : Int := if n % 2 ^ 32 < 2 ^ 31 then n % 2 ^ 32 else n % 2 ^ 32 - 2 ^ 32

/-- `io_timeout_ms`. -/
def ioTimeoutMs (s : St) (now : Nat) : Int :=
  match coTimerHeapPeek s.timerHeap with
  | none => -1
  | some c =>
    let waitMs := toInt64 ((s.co c).wakeupTime + (2 ^ 64 - now % 2 ^ 64))
    if 0 < waitMs then toInt32 waitMs else 0

/-- Result of a poll on either backend. -/
inductive PollResult where
  | none
  | events (evs : List (Int × EpollEvents))
  | packets (ps : List Packet)

/-- What the kernel can report: events of registered descriptors, packets of
operations it owns, each once. -/
def PollResult.possible (s : St) : PollResult → Bool
  | .none => true
  | .events evs => evs.all fun ev => (s.epoll ev.1).isSome
  | .packets ps => ps.all (fun p => s.iocp.inFlight.contains p.ptr) && (ps.map (·.ptr)).Nodup

def PollResult.apply (s : St) : PollResult → St
  | .none => s
  | .events evs => coIomuxPoll s evs
  | .packets ps => coIomuxPollPackets s ps

/-- Whether the loop polls at all. -/
def polls (s : St) : Bool := 0 < s.waitingIoCount || !coTimerHeapEmpty s.timerHeap

/-- The body of the loop when the ready queue is empty after the timer phase. -/
def idlePhase (s : St) (now : Nat) (p : PollResult) : St :=
  let s := if polls s then p.apply (s.emit (.poll (ioTimeoutMs s now))) else s
  if coQueueEmpty s .ready && coTimerHeapEmpty s.timerHeap then
    { s with ctl := .outside }.emit (.runRet .ok)
  else { s with ctl := .loop }

/-! ## Dispatch -/

/-- What the environment answers while a suspended call finishes. -/
structure ResumeEnv where
  again : SysRes

/-- The code a suspended coroutine runs when it is switched to. -/
def resume (s : St) (c : Nat) (e : ResumeEnv) : Frame → Outcome
  | .lock m => resumeLock s c m
  | .condWait v m => resumeCondWait s c v m
  | .condRelock _ m => resumeLock s c m
  | .timedWait v m => resumeTimedWait s c v m
  | .timedRelock _ m =>
    match resumeLock s c m with
    | .ret _ s => .ret (timedResult s c) s
    | o => o
  | .send h | .recv h => resumeChannel s h
  | .waitIo x => resumeIo s c x e.again
  | .waitAsync x => resumeAsync s c x e.again
  | .drainAsync _ => resumeDrain s
  | .entry | .yieldNow | .sleep => .ret (.code .ok) s
  | .absent | .freed | .user => .abort

/-- End of a piece of library code run for call `k`, entered in `s₀`: the call
returns, or the scheduler goes on, or everything stops. -/
def settle (s₀ : St) (k : Nat) : Outcome → St
  | .ret r s => s.emit (.ret k r)
  | .swap s => { s with ctl := .loop }
  | .abort => { s₀ with ctl := .aborted }

/-- `co_scheduler_schedule` up to the switch into `c`. -/
def switchTo (s : St) (c : Nat) : St :=
  let s := s.modify c fun r => { r with state := .running, frame := .user }
  { s with ctl := .running c, switchCount := s.switchCount + 1 }.emit (.dispatch c)

/-- `co_scheduler_schedule`, and the resumed code of the coroutine up to its
own code or its next switch. -/
def coSchedulerSchedule (s : St) (e : ResumeEnv) : St :=
  match coQueuePopFront s .ready with
  | (none, s) => { s with ctl := .loop }
  | (some c, s') =>
    match (s.co c).frame with
    | .entry => switchTo s' c
    | f => settle s (s.co c).call (resume (switchTo s' c) c e f)

/-! ## Actions -/

/-- API calls with their arguments and the environment's answers. -/
inductive Op where
  | yieldNow
  | sleep (msec now : Nat) (reallocOk : Bool)
  | mutexLock (m : Nat)
  | mutexTrylock (m : Nat)
  | mutexUnlock (m : Nat)
  | condWait (v m : Nat)
  | condTimedwait (v m timeoutMs now : Nat) (reallocOk : Bool)
  | condSignal (v : Nat)
  | condBroadcast (v : Nat)
  | channelSend (h : Nat) (data : Bytes)
  | channelTrysend (h : Nat) (data : Bytes)
  | channelRecv (h : Nat)
  | channelTryrecv (h : Nat)
  | channelClose (h : Nat)
  | io (a : IoArgs)
  | ioAsync (a : AsyncArgs)

/-- The code of a call `k` up to its return or context switch. -/
def runOp (s : St) (k : Nat) : Op → Outcome
  | .yieldNow => coYieldNow s
  | .sleep msec now ok => coSleep s msec now ok
  | .mutexLock m => coMutexLock s m
  | .mutexTrylock m => coMutexTrylock s m
  | .mutexUnlock m =>
    match coMutexUnlock s m with
    | some s => .ret (.code .ok) s
    | none => .abort
  | .condWait v m => coCondWait s v m
  | .condTimedwait v m t now ok => coCondTimedwait s v m t now ok
  | .condSignal v => .ret (.code .ok) (coCondSignal s v)
  | .condBroadcast v => .ret (.code .ok) (coCondBroadcast s v)
  | .channelSend h d => coChannelSend s h k d
  | .channelTrysend h d => coChannelTrysend s h k d
  | .channelRecv h => coChannelRecv s h k
  | .channelTryrecv h => coChannelTryrecv s h k
  | .channelClose h => coChannelClose s h
  | .io a => coIo s a
  | .ioAsync a => coIoAsync s a

def Op.name : Op → OpName
  | .yieldNow => .yieldNow
  | .sleep _ _ _ => .sleep
  | .mutexLock m => .lock m
  | .mutexTrylock m => .trylock m
  | .mutexUnlock m => .unlock m
  | .condWait v m => .condWait v m
  | .condTimedwait v m _ _ _ => .condTimedwait v m
  | .condSignal v => .condSignal v
  | .condBroadcast v => .condBroadcast v
  | .channelSend h _ => .send h
  | .channelTrysend h _ => .trysend h
  | .channelRecv h => .recv h
  | .channelTryrecv h => .tryrecv h
  | .channelClose h => .close h
  | .io a => .io a.call
  | .ioAsync a => .io a.opType

/-- The number a call gets, noted in its coroutine. -/
def beginCall (s : St) (op : Op) : St :=
  let s' := { s with calls := s.calls + 1 }.emit (.call s.calls s.coCurrent op.name)
  match s.coCurrent with
  | some c => s'.modify c fun r => { r with call := s.calls }
  | none => s'

inductive Act where
  | run
  | timers (now : Nat)
  | idle (p : PollResult)
  | schedule (e : ResumeEnv)
  | spawn (e : SpawnEnv)
  | call (op : Op)
  | finish

/-- Code outside the library runs in a coroutine or outside `co_scheduler_run`. -/
def inUserCode (s : St) : Bool :=
  match s.ctl with
  | .running _ | .outside => true
  | _ => false

def step (s : St) : Act → Option St
  | .run =>
    match s.ctl with
    | .outside => some { s with ctl := .loop, shouldStop := false }
    | _ => none
  | .timers now =>
    match s.ctl with
    | .loop =>
      if s.shouldStop then some ({ s with ctl := .outside }.emit (.runRet .ok))
      else
        let s := timerLoop now s.timerHeap.entries.length (s.emit (.tick now))
        match s.ctl with
        | .loop => some { s with ctl := if coQueueEmpty s .ready then .idle now else .dispatch }
        | _ => some s
    | _ => none
  | .idle p =>
    match s.ctl with
    | .idle now => if p.possible s then some (idlePhase s now p) else none
    | _ => none
  | .schedule e =>
    match s.ctl with
    | .dispatch => some (coSchedulerSchedule s e)
    | _ => none
  | .spawn e =>
    if inUserCode s then
      let r := coSpawn s e
      some (r.2.emit (.spawned r.1))
    else none
  | .call op =>
    if inUserCode s then
      some (settle s s.calls (runOp (beginCall s op) s.calls op))
    else none
  | .finish =>
    match s.ctl with
    | .running c =>
      some ({ coRoutineDestroy (coRoutineFinish s c) c with ctl := .loop }.emit (.finish c))
    | _ => none

/-! ## What a step can be -/

section

variable {s s' : St}

theorem step_run (hs : step s .run = some s') :
    s.ctl = .outside ∧ s' = { s with ctl := .loop, shouldStop := false } := by
  simp only [step] at hs
  split at hs
  · rename_i hctl
    cases hs
    exact ⟨hctl, rfl⟩
  · cases hs

theorem step_timers {now : Nat} (hs : step s (.timers now) = some s') :
    s.ctl = .loop ∧
      ((s.shouldStop = true ∧ s' = { s with ctl := .outside }.emit (.runRet .ok)) ∨
        (s.shouldStop = false ∧
          ∃ t, t = timerLoop now s.timerHeap.entries.length (s.emit (.tick now)) ∧
            (s' = { t with ctl := if coQueueEmpty t .ready then .idle now else .dispatch } ∨
              t.ctl ≠ .loop ∧ s' = t))) := by
  simp only [step] at hs
  split at hs
  swap
  · cases hs
  rename_i hctl
  refine ⟨hctl, ?_⟩
  split at hs
  · rename_i hstop
    cases hs
    exact .inl ⟨hstop, rfl⟩
  rename_i hstop
  refine .inr ⟨Bool.eq_false_iff.mpr hstop, _, rfl, ?_⟩
  split at hs
  · cases hs
    exact .inl rfl
  · rename_i hne
    cases hs
    exact .inr ⟨hne, rfl⟩

theorem step_idlePhase {p : PollResult} (hs : step s (.idle p) = some s') :
    ∃ now, s.ctl = .idle now ∧ p.possible s = true ∧ s' = idlePhase s now p := by
  simp only [step] at hs
  split at hs
  swap
  · cases hs
  rename_i now hctl
  split at hs
  · rename_i hpos
    cases hs
    exact ⟨now, hctl, hpos, rfl⟩
  · cases hs

/-- An idle phase polls, or does not, and then leaves the loop or goes on. -/
theorem step_poll {p : PollResult} (hs : step s (.idle p) = some s') :
    ∃ n t, s.ctl = .idle n ∧ p.possible s = true ∧
      t = (if polls s then p.apply (s.emit (.poll (ioTimeoutMs s n))) else s) ∧
      (s' = { t with ctl := .outside }.emit (.runRet .ok) ∨ s' = { t with ctl := .loop }) := by
  obtain ⟨n, hctl, hp, rfl⟩ := step_idlePhase hs
  refine ⟨n, _, hctl, hp, rfl, ?_⟩
  unfold idlePhase
  dsimp only
  generalize (if polls s then p.apply (s.emit (.poll (ioTimeoutMs s n))) else s) = t
  split
  · exact .inl rfl
  · exact .inr rfl

theorem idlePhase_ctl (s : St) (now : Nat) (p : PollResult) :
    (idlePhase s now p).ctl = .outside ∨ (idlePhase s now p).ctl = .loop := by
  unfold idlePhase
  generalize (if polls s then p.apply (s.emit (.poll (ioTimeoutMs s now))) else s) = t
  dsimp only
  split
  · exact .inl rfl
  · exact .inr rfl

theorem step_schedule {e : ResumeEnv} (hs : step s (.schedule e) = some s') :
    s.ctl = .dispatch ∧ s' = coSchedulerSchedule s e := by
  simp only [step] at hs
  split at hs
  · rename_i hctl
    cases hs
    exact ⟨hctl, rfl⟩
  · cases hs

/-- `co_scheduler_schedule` finds nobody, starts a coroutine, or resumes one. -/
theorem schedule_cases (s : St) (e : ResumeEnv) :
    (s.queues .ready = [] ∧ coSchedulerSchedule s e = { s with ctl := .loop }) ∨
      ∃ c rest, s.queues .ready = c :: rest ∧
        (((s.co c).frame = .entry ∧ coSchedulerSchedule s e =
            switchTo { s with queues := Function.update s.queues .ready rest } c) ∨
          ((s.co c).frame ≠ .entry ∧ coSchedulerSchedule s e = settle s (s.co c).call
            (resume (switchTo { s with queues := Function.update s.queues .ready rest } c) c e
              (s.co c).frame))) := by
  unfold coSchedulerSchedule
  cases hq : s.queues .ready with
  | nil =>
    rw [coQueuePopFront_nil hq]
    exact .inl ⟨rfl, rfl⟩
  | cons c rest =>
    rw [coQueuePopFront_cons hq]
    refine .inr ⟨c, rest, rfl, ?_⟩
    dsimp only
    split
    · rename_i hf
      exact .inl ⟨hf, rfl⟩
    · rename_i hf
      exact .inr ⟨hf, rfl⟩

theorem schedule_nil {e : ResumeEnv} (hq : s.queues .ready = []) :
    coSchedulerSchedule s e = { s with ctl := .loop } := by
  unfold coSchedulerSchedule
  rw [coQueuePopFront_nil hq]

/-- The dispatch of a coroutine that was suspended. -/
theorem schedule_resumes {c : Nat} {rest : List Nat} {e : ResumeEnv} (hq : s.queues .ready = c :: rest)
    (hf : (s.co c).frame ≠ .entry) :
    coSchedulerSchedule s e = settle s (s.co c).call
      (resume (switchTo { s with queues := Function.update s.queues .ready rest } c) c e
        (s.co c).frame) := by
  unfold coSchedulerSchedule
  rw [coQueuePopFront_cons hq]
  dsimp only
  split
  · rename_i he
    exact absurd he hf
  · rfl

theorem step_spawn {e : SpawnEnv} (hs : step s (.spawn e) = some s') :
    inUserCode s = true ∧ s' = (coSpawn s e).2.emit (.spawned (coSpawn s e).1) := by
  simp only [step] at hs
  split at hs
  · rename_i huser
    cases hs
    exact ⟨huser, rfl⟩
  · cases hs

theorem step_call {op : Op} (hs : step s (.call op) = some s') :
    inUserCode s = true ∧ s' = settle s s.calls (runOp (beginCall s op) s.calls op) := by
  simp only [step] at hs
  split at hs
  · rename_i huser
    cases hs
    exact ⟨huser, rfl⟩
  · cases hs

theorem step_finish (hs : step s .finish = some s') :
    ∃ c, s.ctl = .running c ∧
      s' = { coRoutineDestroy (coRoutineFinish s c) c with ctl := .loop }.emit (.finish c) := by
  simp only [step] at hs
  split at hs
  · rename_i c hctl
    cases hs
    exact ⟨c, hctl, rfl⟩
  · cases hs

end

/-- Sizes of the channels that exist, a channel being made by
`co_channel_create`. -/
structure Config where
  elemSize : Nat → Nat
  capacity : Nat → Nat
  elemSize_pos : ∀ h, 0 < elemSize h

/-- Channels of bytes, all of one capacity. -/
def byteConfig (capacity : Nat) : Config := ⟨fun _ => 1, fun _ => capacity, fun _ => by decide⟩

/-- A successful `co_spawn`, and one iteration of the scheduler loop, at time 0. -/
def spawnOk : Act := .spawn ⟨0, true, some 0, true⟩
def turn : List Act := [.timers 0, .schedule ⟨.done 0⟩]

/-- The stack pool of a new scheduler. -/
def initPool : StackPool :=
  { stackSize := 128 * 1024, «stacks» := [], capacity := 16, totalAllocs := 0, totalFrees := 0,
    cacheHits := 0, cacheMisses := 0, currentUsed := 0 }

/-- A channel fresh from `co_channel_create`. -/
def initChannel (cfg : Config) (h : Nat) : Channel :=
  (coChannelCreate (cfg.elemSize h) (cfg.capacity h) true true).getD
    ⟨0, 0, fun _ => 0, 0, 0, 0, false, fun _ => 0⟩

/-- After `co_scheduler_create` and the creation of mutexes, condition
variables and channels. -/
def init (cfg : Config) : St :=
  { ctl := .outside, co := fun _ => .zero, queues := fun _ => [], timerHeap := ⟨[], 16⟩,
    defaultStackSize := 128 * 1024, shouldStop := false, totalRoutines := 0,
    activeRoutines := 0, switchCount := 0, waitingIoCount := 0, nextId := 1,
    mutexes := fun _ => ⟨false, none⟩, chans := initChannel cfg, epoll := fun _ => none,
    iocp := ⟨[], []⟩, pool := initPool, calls := 0, trace := [] }

end Libco
