import Libco.Lib.Budget
import Libco.FailedCalls
import Libco.Holdings
import Libco.Kernel
import Libco.PollTimeout

/-!
# The scheduler does no work of its own

Every iteration of `co_scheduler_run` is paid for by something the program did: it
spawned a coroutine, made a call, let a coroutine finish, or entered the loop. The
potential counts the dispatches each suspended call still needs, the I/O waits that
can still wake somebody, the entries of the timer heap and the phase of the loop.
Nothing here depends on where the coroutines are: allocations, registrations and
context switches may fail.
-/

namespace Libco
open Lib

variable {s s' t u : St} {a : Act} {c : Nat}

/-! ## Lengths of the heap -/

theorem heapSiftDownLoop_length (key : Nat → Nat) (heap : List Nat) (idx item : Nat)
    (hidx : idx < heap.length) :
    (heapSiftDownLoop key heap idx item hidx).length = heap.length := by
  fun_induction heapSiftDownLoop key heap idx item hidx <;> simp_all

theorem coTimerHeapPush_length {key : Nat → Nat} {h h' : TimerHeap} {ok : Bool}
    (hp : coTimerHeapPush key h c ok = some h') : h'.entries.length = h.entries.length + 1 := by
  rcases coTimerHeapPush_cases key h c ok with ⟨hnone, -, -⟩ | ⟨h₁, hsome, hlen, -⟩
  · rw [hnone] at hp
    cases hp
  · rw [hsome] at hp
    cases hp
    exact hlen

theorem removeAt_length (key : Nat → Nat) (heap : List Nat) (i : Nat) (hi : i < heap.length) :
    (removeAt key heap i hi).length ≤ heap.length := by
  unfold removeAt
  split
  · dsimp only
    split
    · simp [heapSiftUp, heapSiftUpLoop_length]
    · simp [heapSiftDown, heapSiftDownLoop_length]
  · simp

theorem coTimerHeapRemove_length (key : Nat → Nat) (h : TimerHeap) :
    (coTimerHeapRemove key h c).2.entries.length ≤ h.entries.length := by
  unfold coTimerHeapRemove
  split
  · rename_i hm
    exact removeAt_length key h.entries _ hm
  · exact Nat.le_refl _

theorem coTimerHeapPop_length {key : Nat → Nat} {h : TimerHeap} {rest : List Nat}
    (he : h.entries = c :: rest) : (coTimerHeapPop key h).2.entries.length = rest.length :=
  (coTimerHeapPop_perm key he).2.length_eq

/-! ## The load of a state -/

/-- The dispatches a suspended coroutine needs until its call returns. -/
def Frame.owed : Frame → Nat
  | .absent | .freed | .user => 0
  | .condWait _ _ | .timedWait _ _ | .waitAsync _ => 2
  | _ => 1

def Routine.weight (r : Routine) : Nat :=
  5 * r.frame.owed + if r.state = .waiting ∧ r.frame.isIo = true then 3 else 0

def St.load (s : St) : Nat :=
  sumOn Routine.weight s.co s.nextId + 3 * s.timerHeap.entries.length

theorem Routine.weight_le (r : Routine) : r.weight ≤ 13 := by
  unfold Routine.weight
  have : r.frame.owed ≤ 2 := by
    cases r.frame <;> simp [Frame.owed]
  split <;> omega

/-- Only what a record does not weigh changes. -/
theorem Routine.weight_of_not_waiting {r r' : Routine} (hf : r'.frame = r.frame)
    (hs : r'.state ≠ .waiting) : r'.weight ≤ r.weight := by
  simp [Routine.weight, hf, hs]

theorem Routine.weight_same {r r' : Routine} (hf : r'.frame = r.frame)
    (hs : r'.state = r.state) : r'.weight = r.weight := by
  simp [Routine.weight, hf, hs]

theorem Routine.weight_waiting {r r' : Routine} (hf : r'.frame = r.frame) :
    r'.weight ≤ r.weight + 3 := by
  simp only [Routine.weight, hf]
  split <;> split <;> omega

/-- The code between `s` and `t` adds at most `k` to the load. -/
structure Costs (k : Nat) (s t : St) : Prop where
  nextId : t.nextId = s.nextId
  ctl : t.ctl = s.ctl
  stop : t.shouldStop = s.shouldStop
  load : t.load ≤ s.load + k

theorem Costs.refl (s : St) : Costs 0 s s := ⟨rfl, rfl, rfl, Nat.le_refl _⟩

theorem Costs.trans {j k : Nat} (h : Costs j s t) (h' : Costs k t u) : Costs (j + k) s u := by
  refine ⟨h'.nextId.trans h.nextId, h'.ctl.trans h.ctl, h'.stop.trans h.stop, ?_⟩
  have := h.load
  have := h'.load
  omega

theorem Costs.mono {j k : Nat} (h : Costs j s t) (hjk : j ≤ k) : Costs k s t :=
  ⟨h.nextId, h.ctl, h.stop, Nat.le_trans h.load (by omega)⟩

/-- Whatever else changes. -/
theorem Costs.same {k : Nat} (h : Costs k s t) (hco : u.co = t.co) (hn : u.nextId = t.nextId)
    (hc : u.ctl = t.ctl) (hstop : u.shouldStop = t.shouldStop)
    (hh : u.timerHeap = t.timerHeap) : Costs k s u := by
  refine ⟨hn.trans h.nextId, hc.trans h.ctl, hstop.trans h.stop, ?_⟩
  have := h.load
  simpa only [St.load, hco, hn, hh] using this

theorem costs_rest (hco : t.co = s.co) (hn : t.nextId = s.nextId) (hc : t.ctl = s.ctl)
    (hstop : t.shouldStop = s.shouldStop) (hh : t.timerHeap = s.timerHeap) : Costs 0 s t :=
  (Costs.refl s).same hco hn hc hstop hh

theorem Costs.modify {j k : Nat} {f : Routine → Routine} (h : Costs k s t)
    (hf : (f (t.co c)).weight ≤ (t.co c).weight + j) : Costs (k + j) s (t.modify c f) := by
  refine h.trans ⟨rfl, rfl, rfl, ?_⟩
  have hsum : sumOn Routine.weight (Function.update t.co c (f (t.co c))) t.nextId ≤
      sumOn Routine.weight t.co t.nextId + j := sumOn_update_le hf
  simp only [St.load, St.modify]
  omega

/-- A record gets lighter, or keeps its weight. -/
theorem Costs.lighten {k : Nat} {f : Routine → Routine} (h : Costs k s t)
    (hf : (f (t.co c)).weight ≤ (t.co c).weight) : Costs k s (t.modify c f) :=
  Costs.modify (j := 0) h hf

theorem Costs.emit {k : Nat} (h : Costs k s t) (e : Event) : Costs k s (t.emit e) :=
  h.same rfl rfl rfl rfl rfl

theorem Costs.push {k : Nat} (h : Costs k s t) (q : QueueRef) : Costs k s (coQueuePushBack t q c) :=
  h.same rfl rfl rfl rfl rfl

theorem Costs.remove {k : Nat} (h : Costs k s t) (q : QueueRef) : Costs k s (coQueueRemove t q c) :=
  h.same rfl rfl rfl rfl rfl

theorem Costs.waiters {k : Nat} (h : Costs k s t) (n : Nat) :
    Costs k s { t with waitingIoCount := n } := h.same rfl rfl rfl rfl rfl

theorem Costs.heap {j k : Nat} {p : TimerHeap} (h : Costs k s t)
    (hp : 3 * p.entries.length ≤ 3 * t.timerHeap.entries.length + j) :
    Costs (k + j) s { t with timerHeap := p } := by
  refine h.trans ⟨rfl, rfl, rfl, ?_⟩
  simp only [St.load]
  omega

/-- The timer of `c` is taken out of the heap. -/
theorem Costs.untimed {k : Nat} (h : Costs k s t) :
    Costs k s { t with timerHeap := (coTimerHeapRemove t.key t.timerHeap c).2 } := by
  have := coTimerHeapRemove_length (c := c) t.key t.timerHeap
  exact Costs.heap (j := 0) h (by omega)

theorem Costs.wake {k : Nat} (h : Costs k s t) : Costs k s (wakeRoutine t c) := by
  refine Costs.emit (Costs.push (h.lighten ?_) _) _
  exact Routine.weight_of_not_waiting rfl (by simp)

theorem Costs.wakeAll {k : Nat} {q : QueueRef} {ws rest : List Nat} (h : Costs k s t) :
    Costs k s (wakeAll t q ws rest .wake) := by
  refine h.trans (k := 0) ⟨rfl, rfl, rfl, ?_⟩
  have hsum : sumOn Routine.weight (Libco.wakeAll t q ws rest .wake).co t.nextId ≤
      sumOn Routine.weight t.co t.nextId := by
    refine sumOn_mono fun d => ?_
    simp only [Libco.wakeAll]
    split
    · exact Routine.weight_of_not_waiting rfl (by simp [Routine.wake])
    · exact Nat.le_refl _
  have hn : (Libco.wakeAll t q ws rest .wake).nextId = t.nextId := rfl
  have hh : (Libco.wakeAll t q ws rest .wake).timerHeap = t.timerHeap := rfl
  simp only [St.load, hn, hh]
  omega

/-! ## Calls -/

theorem coYieldNow_costs : (coYieldNow s).Ends (Costs 19 s) := by
  unfold coYieldNow
  split
  · exact (Costs.refl s).mono (by decide)
  · rename_i c _
    refine Costs.wake (Costs.mono (j := 0 + 13) (Costs.modify (Costs.refl s) ?_) (by decide))
    exact Nat.le_trans (Routine.weight_le _) (by omega)

theorem coMutexUnlock_costs {m : Nat} (h : coMutexUnlock s m = some t) : Costs 0 s t := by
  obtain ⟨-, ⟨-, rfl⟩ | ⟨c, rest, -, rfl⟩⟩ := coMutexUnlock_cases h
  · exact costs_rest rfl rfl rfl rfl rfl
  · exact Costs.wakeAll (costs_rest rfl rfl rfl rfl rfl)

theorem unlock_costs {m k : Nat} (h : Costs k s t) :
    Outcome.Ends (Costs k s) (match coMutexUnlock t m with
      | none => .abort
      | some s => .swap s) := by
  split
  · trivial
  · rename_i u hu
    exact h.trans (coMutexUnlock_costs hu)

theorem coCondSignal_costs (v : Nat) : Costs 0 s (coCondSignal s v) := by
  unfold coCondSignal
  cases hq : s.queues (.cond v) with
  | nil =>
    rw [coQueuePopFront_nil hq]
    exact costs_rest rfl rfl rfl rfl rfl
  | cons c rest =>
    rw [coQueuePopFront_cons hq]
    refine Costs.wake (Costs.lighten (costs_rest rfl rfl rfl rfl rfl) ?_)
    exact Nat.le_of_eq (Routine.weight_same rfl rfl)

theorem drainQueue_costs {wake : St → Nat → St} {q : QueueRef}
    (hw : ∀ s t c, Costs 0 s t → Costs 0 s (wake t c)) (n : Nat) (h : Costs 0 s t) :
    Costs 0 s (drainQueue wake q n t) := by
  induction n generalizing t with
  | zero => exact h
  | succ n ih =>
    simp only [drainQueue]
    cases hq : t.queues q with
    | nil =>
      rw [coQueuePopFront_nil hq]
      exact h
    | cons c rest =>
      rw [coQueuePopFront_cons hq]
      exact ih (hw _ _ c (h.same rfl rfl rfl rfl rfl))

theorem placeElement_costs {h k : Nat} {data : Bytes} (hp : placeElement s h k data = some t) :
    Costs 0 s t := by
  obtain ⟨c, rest, -, rfl⟩ | ⟨-, -, rfl⟩ := placeElement_cases hp
  · refine Costs.wakeAll (Costs.emit (Costs.emit (Costs.emit ((Costs.refl s).lighten ?_) _) _) _)
    exact Nat.le_of_eq (Routine.weight_same rfl rfl)
  · exact costs_rest rfl rfl rfl rfl rfl

theorem takeElement_costs {h k : Nat} (ht : takeElement s h k = some t) : Costs 0 s t := by
  obtain ⟨-, -, rfl⟩ | ⟨c, rest, -, -, rfl⟩ | ⟨c, rest, -, -, rfl⟩ := takeElement_cases ht
  · exact costs_rest rfl rfl rfl rfl rfl
  · exact Costs.wakeAll (costs_rest rfl rfl rfl rfl rfl)
  · exact Costs.wakeAll (costs_rest rfl rfl rfl rfl rfl)

/-- A timer is pushed. -/
theorem Costs.timed {k : Nat} {key : Nat → Nat} {ok : Bool} {p : TimerHeap} (h : Costs k s t)
    (hp : coTimerHeapPush key t.timerHeap c ok = some p) :
    Costs (k + 3) s { t with timerHeap := p } := by
  have := coTimerHeapPush_length hp
  exact h.heap (by omega)

theorem armTimer_costs {timeoutMs : Int} {now : Nat} {ok : Bool} {o : Option Nat}
    (h : armTimer s c timeoutMs now ok = (o, t)) : Costs 3 s t := by
  have hk : Costs 0 s (s.modify c fun r => { r with timedOut := false, ioWaiting := false }) :=
    (Costs.refl s).lighten (Nat.le_of_eq (Routine.weight_same rfl rfl))
  unfold armTimer at h
  dsimp only at h
  split at h
  · split at h
    · cases h
      refine Costs.mono (j := 0) (Costs.lighten (hk.lighten ?_) ?_) (by decide)
      · exact Nat.le_of_eq (Routine.weight_same rfl rfl)
      · exact Nat.le_of_eq (Routine.weight_same rfl rfl)
    · rename_i p hp
      cases h
      refine Costs.timed (hk.lighten ?_) hp
      exact Nat.le_of_eq (Routine.weight_same rfl rfl)
  · cases h
    exact hk.mono (by decide)

/-- A coroutine suspends with whatever frame. -/
theorem Costs.reframe {k : Nat} {f : Routine → Routine} (h : Costs k s t) :
    Costs (k + 13) s (t.modify c f) :=
  h.modify (Nat.le_trans (Routine.weight_le _) (by omega))

theorem coWaitIo_costs (x : IoArgs) : (coWaitIo s x).Ends (Costs 19 s) := by
  unfold coWaitIo
  split
  · exact (Costs.refl s).mono (by decide)
  rename_i c _
  split
  · rename_i t ht
    exact (armTimer_costs ht).mono (by decide)
  rename_i t ht
  have hk := armTimer_costs ht
  have hadd : ∀ e u, coIomuxAdd t x.fd x.call.events (c, (t.co c).call) x.ctlOk = (e, u) →
      Costs 3 s u := by
    intro e u hu
    unfold coIomuxAdd coIomuxMod at hu
    split at hu <;> split at hu <;> cases hu <;> exact hk.same rfl rfl rfl rfl rfl
  split
  · rename_i u hu
    exact Costs.mono (j := 3 + 13) (Costs.waiters (hadd _ _ hu).reframe _) (by decide)
  · rename_i e u _ hu
    refine Costs.mono (j := 3) ((hadd _ _ hu).lighten ?_) (by decide)
    exact Nat.le_of_eq (Routine.weight_same rfl rfl)

theorem coIo_costs (x : IoArgs) : (coIo s x).Ends (Costs 19 s) := by
  have hw := coWaitIo_costs (s := s) x
  have hrefl : Costs 19 s s := (Costs.refl s).mono (by decide)
  unfold coIo
  split
  · exact hrefl
  split
  · exact hrefl
  split
  · split
    · rename_i ho
      rw [ho] at hw
      exact hw
    · exact hw
  · exact hrefl

theorem coWaitIoAsync_costs (x : AsyncArgs) : (coWaitIoAsync s x).Ends (Costs 19 s) := by
  unfold coWaitIoAsync
  split
  · split <;> exact (Costs.refl s).mono (by decide)
  rename_i c _
  split
  · rename_i t ht
    exact (armTimer_costs ht).mono (by decide)
  rename_i t ht
  have hk := armTimer_costs ht
  have hassoc : ∀ e u, coIomuxAssociate t x.fd x.portOk = (e, u) → Costs 3 s u := by
    intro e u hu
    unfold coIomuxAssociate at hu
    split at hu
    · cases hu
      exact hk
    split at hu
    · split at hu <;> cases hu <;> exact hk.same rfl rfl rfl rfl rfl
    · cases hu
      exact hk
  have hclear : ∀ u, Costs 3 s u →
      Costs 19 s (u.modify c fun r => { r with ioWaiting := false }) := by
    intro u hu
    exact (hu.lighten (Nat.le_of_eq (Routine.weight_same rfl rfl))).mono (by decide)
  split
  · rename_i u hu
    have hk' := hassoc _ _ hu
    split
    · have hsub : Costs (3 + 13) s (u.modify c fun r =>
          { r with
            state := .waiting
            frame := .waitAsync ⟨x.opType, x.fd, noEvents, x.timeoutMs, 0⟩ }) := hk'.reframe
      exact Costs.mono (k := 19) (hsub.same rfl rfl rfl rfl rfl) (by decide)
    split
    · exact hk'.mono (by decide)
    · exact hk'.mono (by decide)
    · exact hclear u hk'
    · exact hclear u hk'
  · rename_i e u _ hu
    exact hclear u (hassoc _ _ hu)

theorem coMutexLock_costs (m : Nat) : (coMutexLock s m).Ends (Costs 5 s) := by
  unfold coMutexLock
  split <;> split
  · exact (Costs.refl s).mono (by decide)
  · exact Costs.mono (j := 0) (k := 5) (costs_rest rfl rfl rfl rfl rfl) (by decide)
  · exact Costs.mono (j := 0) (k := 5) (costs_rest rfl rfl rfl rfl rfl) (by decide)
  · refine Costs.emit (Costs.push (Costs.mono (j := 0 + 5) (Costs.modify (Costs.refl s) ?_)
      (by decide)) _) _
    simp [Routine.weight, Frame.owed, Frame.isIo]

theorem coSleep_costs (msec now : Nat) (ok : Bool) : (coSleep s msec now ok).Ends (Costs 19 s) := by
  unfold coSleep
  split
  · exact coYieldNow_costs
  split
  · exact (Costs.refl s).mono (by decide)
  rename_i c _
  have hk : Costs (0 + 3) s (s.modify c fun r =>
      { r with wakeupTime := (now + msec) % 2 ^ 64, state := .waiting }) :=
    (Costs.refl s).modify (Routine.weight_waiting rfl)
  dsimp only
  split
  · refine Costs.mono (j := 0 + 3) (hk.lighten ?_) (by decide)
    exact Routine.weight_of_not_waiting rfl (by simp)
  · rename_i p hp
    exact Costs.mono (j := 0 + 3 + 13 + 3) (Costs.timed hk.reframe hp) (by decide)

theorem coCondTimedwait_costs (v m timeoutMs now : Nat) (ok : Bool) :
    (coCondTimedwait s v m timeoutMs now ok).Ends (Costs 19 s) := by
  unfold coCondTimedwait
  split
  · exact (Costs.refl s).mono (by decide)
  split
  · exact (Costs.refl s).mono (by decide)
  rename_i c _
  have hpush : Costs (0 + 3) s (coQueuePushBack (s.modify c fun r =>
      { r with state := .waiting, condWaitQueue := some v, timedOut := false }) (.cond v) c) :=
    Costs.push ((Costs.refl s).modify (Routine.weight_waiting rfl)) _
  dsimp only
  split
  · refine Costs.mono (j := 0 + 3) (Costs.lighten (Costs.remove (hpush.lighten ?_) _) ?_) (by decide)
    · exact Nat.le_of_eq (Routine.weight_same rfl rfl)
    · exact Routine.weight_of_not_waiting rfl (by simp)
  · rename_i p hp
    refine unlock_costs (Costs.mono (j := 0 + 3 + 13 + 3) (Costs.emit
      (Costs.timed (Costs.reframe (hpush.lighten ?_)) hp) _) (by decide))
    exact Nat.le_of_eq (Routine.weight_same rfl rfl)

theorem runOp_costs {k : Nat} {op : Op} : (runOp s k op).Ends (Costs 19 s) := by
  have hrefl : Costs 19 s s := (Costs.refl s).mono (by decide)
  have hzero : ∀ {t : St}, Costs 0 s t → Costs 19 s t := fun h => h.mono (by decide)
  cases op with
  | yieldNow => exact coYieldNow_costs
  | sleep msec now ok => exact coSleep_costs msec now ok
  | mutexLock m => exact (coMutexLock_costs m).mono fun t h => h.mono (by decide)
  | mutexTrylock m =>
    simp only [runOp, coMutexTrylock]
    split
    · exact hrefl
    · exact hzero (costs_rest rfl rfl rfl rfl rfl)
  | mutexUnlock m =>
    simp only [runOp]
    split
    · rename_i hu
      exact hzero (coMutexUnlock_costs hu)
    · trivial
  | condWait v m =>
    simp only [runOp, coCondWait]
    split
    · exact hrefl
    · refine unlock_costs (Costs.mono (j := 0 + 13) (Costs.emit (Costs.push ?_ _) _) (by decide))
      exact (Costs.refl s).reframe
  | condTimedwait v m t now ok => exact coCondTimedwait_costs v m t now ok
  | condSignal v => exact hzero (coCondSignal_costs v)
  | condBroadcast v =>
    refine hzero (drainQueue_costs (fun _ _ _ h => Costs.wake (h.lighten ?_)) _
      (costs_rest rfl rfl rfl rfl rfl))
    exact Nat.le_of_eq (Routine.weight_same rfl rfl)
  | channelSend h d =>
    simp only [runOp, coChannelSend]
    split
    · exact hrefl
    split
    · rename_i hp
      exact hzero (placeElement_costs hp)
    split
    · exact hrefl
    · refine Costs.mono (j := 0 + 13) (Costs.emit (Costs.push ?_ _) _) (by decide)
      exact (Costs.refl s).reframe
  | channelTrysend h d =>
    simp only [runOp, coChannelTrysend]
    split
    · exact hrefl
    split
    · rename_i hp
      exact hzero (placeElement_costs hp)
    · exact hrefl
  | channelRecv h =>
    simp only [runOp, coChannelRecv]
    split
    · rename_i ht
      exact hzero (takeElement_costs ht)
    split
    · exact hrefl
    split
    · exact hrefl
    · refine Costs.mono (j := 0 + 13) (Costs.emit (Costs.push ?_ _) _) (by decide)
      exact (Costs.refl s).reframe
  | channelTryrecv h =>
    simp only [runOp, coChannelTryrecv]
    split
    · rename_i ht
      exact hzero (takeElement_costs ht)
    · split <;> exact hrefl
  | channelClose h =>
    simp only [runOp, coChannelClose]
    split
    · exact hrefl
    · have hw : ∀ (s t : St) (c : Nat), Costs 0 s t → Costs 0 s (wakeRoutine t c) :=
        fun _ _ _ h => h.wake
      exact hzero (drainQueue_costs hw _ (drainQueue_costs hw _ (costs_rest rfl rfl rfl rfl rfl)))
  | io x => exact coIo_costs x
  | ioAsync x =>
    simp only [runOp, coIoAsync]
    split
    · exact hrefl
    split
    · exact hrefl
    · exact coWaitIoAsync_costs x

/-! ## Resumptions -/

/-- What a resumed call may add when it suspends once more: a condition wait that finds
its mutex taken, and an asynchronous operation that timed out. -/
def Frame.again : Frame → Nat
  | .condWait _ _ | .timedWait _ _ => 5
  | .waitAsync _ => 8
  | _ => 0

theorem Frame.again_lt {f : Frame} (h : 0 < f.owed) : f.again + 2 ≤ 5 * f.owed := by
  cases f <;> simp [Frame.owed, Frame.again] at h ⊢

theorem relock_costs {m : Nat} {f : Frame} {r : St → Ret} (hf : f.owed = 1 ∧ f.isIo = false)
    (hcur : t.coCurrent = some c) : (relock t c m f r).Ends (Costs 5 t) := by
  have hlock := coMutexLock_costs (s := t) m
  unfold relock
  unfold coMutexLock at hlock ⊢
  rw [hcur] at hlock ⊢
  dsimp only at hlock ⊢
  cases hl : (t.mutexes m).locked with
  | false =>
    simp only [hl, Bool.not_false, if_true] at hlock ⊢
    exact hlock
  | true =>
    simp only [hl, Bool.not_true, Bool.false_eq_true, if_false] at hlock ⊢
    refine Costs.lighten hlock ?_
    have howed : (Frame.lock m).owed = 1 ∧ (Frame.lock m).isIo = false := ⟨rfl, rfl⟩
    simp [coQueuePushBack, St.modify, St.emit, Routine.weight, howed, hf]

theorem resumeIo_costs (x : IoWaitCtx) (again : SysRes) :
    (resumeIo s c x again).Ends (Costs 0 s) := by
  have hdel : Costs 0 s (coIomuxDel s x.fd) := by
    unfold coIomuxDel
    split <;> exact costs_rest rfl rfl rfl rfl rfl
  have hwait : Costs 0 s (resumeWaitIo s c x).2 := by
    simp only [resumeWaitIo]
    split
    · exact hdel
    split
    · exact hdel
    split
    · exact Costs.untimed (hdel.lighten (Nat.le_of_eq (Routine.weight_same rfl rfl)))
    · exact hdel
  obtain ⟨r, hr⟩ := resumeIo_eq s c x again
  rw [hr]
  exact hwait

theorem resumeAsync_costs (x : AsyncCtx) (after : SysRes) :
    (resumeAsync s c x after).Ends (Costs 8 s) := by
  have hrefl : Costs 8 s s := (Costs.refl s).mono (by decide)
  have hdone : Costs 8 s { s.modify c (fun r => { r with ioWaiting := false }) with
      timerHeap := (coTimerHeapRemove (s.modify c fun r => { r with ioWaiting := false }).key
        (s.modify c fun r => { r with ioWaiting := false }).timerHeap c).2 } :=
    Costs.mono (Costs.untimed ((Costs.refl s).lighten
      (Nat.le_of_eq (Routine.weight_same rfl rfl)))) (by decide)
  unfold resumeAsync
  split
  · refine Costs.mono (j := 0 + 8) (Costs.waiters (Costs.modify (Costs.refl s) ?_) _) (by decide)
    simp [Routine.weight, Frame.owed, Frame.isIo]
  split
  · exact hrefl
  · split <;> split <;> first | exact hrefl | exact hdone

theorem resume_costs {e : ResumeEnv} {f : Frame} (hcur : s.coCurrent = some c) :
    (resume s c e f).Ends (Costs f.again s) := by
  have hlock : ∀ m, (resumeLock s c m).Ends (Costs 0 s) := by
    intro m
    unfold resumeLock
    split
    · exact (Costs.refl s).emit _
    · trivial
  cases f with
  | absent | freed | user => trivial
  | entry | yieldNow | sleep => exact .refl s
  | lock m => exact hlock m
  | condRelock v m => exact hlock m
  | timedRelock v m =>
    have hm := hlock m
    simp only [resume]
    cases ho : resumeLock s c m with
    | ret r t | swap t =>
      rw [ho] at hm
      exact hm
    | abort => trivial
  | condWait v m => exact relock_costs ⟨rfl, rfl⟩ hcur
  | timedWait v m =>
    simp only [resume, resumeTimedWait]
    split
    · refine Outcome.Ends.mono (relock_costs ⟨rfl, rfl⟩ ?_) fun t h =>
        Costs.trans (j := 0) (Costs.untimed (.refl s)) h
      exact hcur
    · exact relock_costs ⟨rfl, rfl⟩ hcur
  | send h | recv h => exact .refl s
  | waitIo x => exact resumeIo_costs x e.again
  | waitAsync x => exact resumeAsync_costs x e.again
  | drainAsync x => exact .refl s

/-! ## Phases of the loop -/

theorem expireTop_costs : Costs 0 { s with timerHeap := (coTimerHeapPop s.key s.timerHeap).2 }
    (expireTop s c) := by
  unfold expireTop
  dsimp only
  split
  · exact .refl _
  split
  · refine Costs.wake (Costs.emit (Costs.lighten (Costs.remove (.refl _) _) ?_) _)
    exact Nat.le_of_eq (Routine.weight_same rfl rfl)
  split
  · refine Costs.wake (Costs.waiters (Costs.lighten (.refl _) ?_) _)
    exact Nat.le_of_eq (Routine.weight_same rfl rfl)
  · exact Costs.wake (.refl _)

/-- One round of the timer loop takes an entry from the heap. -/
theorem expireTop_load {rest : List Nat} (he : s.timerHeap.entries = c :: rest) :
    (expireTop s c).load + 3 ≤ s.load := by
  have hpop : (coTimerHeapPop s.key s.timerHeap).2.entries.length = rest.length :=
    coTimerHeapPop_length he
  have hcost := (expireTop_costs (s := s) (c := c)).load
  simp only [St.load, hpop] at hcost ⊢
  rw [he, List.length_cons]
  omega

/-- The timer loop, its first round being due or not. -/
theorem timerLoop_load (now n : Nat) (s : St) :
    (timerLoop now n s).load ≤ s.load ∧ (timerLoop now n s).shouldStop = s.shouldStop ∧
      ((timerLoop now n s).ctl = s.ctl ∨ (timerLoop now n s).ctl = .aborted) := by
  induction n generalizing s with
  | zero => exact ⟨Nat.le_refl _, rfl, .inl rfl⟩
  | succ n ih =>
    simp only [timerLoop, coTimerHeapPeek]
    cases he : s.timerHeap.entries with
    | nil => exact ⟨Nat.le_refl _, rfl, .inl rfl⟩
    | cons c rest =>
      dsimp only [List.head?_cons]
      split
      · exact ⟨Nat.le_refl _, rfl, .inr rfl⟩
      split
      · exact ⟨Nat.le_refl _, rfl, .inl rfl⟩
      · obtain ⟨hload, hstop, hctl⟩ := ih (expireTop s c)
        have hround := expireTop_load he
        have hcost := expireTop_costs (s := s) (c := c)
        rw [hcost.stop] at hstop
        rw [hcost.ctl] at hctl
        exact ⟨by omega, hstop, hctl⟩

/-- A due entry at the top is taken, unless it is an access to freed memory. -/
theorem timerLoop_due {now n : Nat} {rest : List Nat} (he : s.timerHeap.entries = c :: rest)
    (hdue : (s.co c).wakeupTime ≤ now) :
    (timerLoop now (n + 1) s).load + 3 ≤ s.load ∨
      (timerLoop now (n + 1) s).ctl = .aborted ∧ (timerLoop now (n + 1) s).load ≤ s.load := by
  have hnot : ¬ now < (s.co c).wakeupTime := by omega
  simp only [timerLoop, coTimerHeapPeek, he, List.head?_cons, hnot, if_false]
  split
  · exact .inr ⟨rfl, Nat.le_refl _⟩
  · have := (timerLoop_load now n (expireTop s c)).1
    have := expireTop_load he
    exact .inl (by omega)

/-- A poll trades I/O waits for ready coroutines. -/
structure Trades (s t : St) : Prop where
  carries : Carries s t
  stop : t.shouldStop = s.shouldStop
  heap : t.timerHeap = s.timerHeap
  wakeupTime : ∀ c, (t.co c).wakeupTime = (s.co c).wakeupTime
  load : t.load + 3 * (t.queues .ready).length ≤ s.load + 3 * (s.queues .ready).length

theorem Trades.refl (s : St) : Trades s s := ⟨.refl s, rfl, rfl, fun _ => rfl, Nat.le_refl _⟩

theorem Trades.trans (h : Trades s t) (h' : Trades t u) : Trades s u := by
  refine ⟨h.carries.trans h'.carries, h'.stop.trans h.stop, h'.heap.trans h.heap, fun c =>
    (h'.wakeupTime c).trans (h.wakeupTime c), ?_⟩
  have := h.load
  have := h'.load
  omega

/-- The wake-up of a coroutine in an I/O wait. -/
theorem wakeIo_trades {f : Frame} (hn : c < s.nextId) (hio : (s.co c).frame.isIo = true)
    (hf : f.owed = (s.co c).frame.owed ∧ f.isIo = true ∧
      ∀ r : Routine, { r with frame := f }.unfinished = true) :
    Trades s (wakeIo (s.modify c fun r => { r with frame := f }) c) := by
  have hmod : Carries s (s.modify c fun r => { r with frame := f }) := by
    refine (Carries.refl s).modify ⟨rfl, rfl, id, ?_⟩
    rw [hf.2.2]
    cases hfr : (s.co c).frame <;> simp [Routine.unfinished, hfr, Frame.isIo] at hio ⊢
  by_cases hw : (s.co c).state = .waiting
  · have hsum := sumOn_update (w := Routine.weight) (f := s.co) hn
      { s.co c with state := .ready, frame := f, ioWaiting := false }
    have hweight : (s.co c).weight = 5 * f.owed + 3 := by
      simp [Routine.weight, hw, hio, hf.1]
    have hlight : Routine.weight { s.co c with state := .ready, frame := f, ioWaiting := false } =
        5 * f.owed := by
      simp [Routine.weight]
    refine ⟨Carries.wakeIo hmod, ?_, ?_, fun d => ?_, ?_⟩ <;> rw [wakeIo_waiting hw]
    · rfl
    · rfl
    · by_cases hd : d = c <;> simp [St.modify, St.emit, coQueuePushBack, hd]
    rw [hweight] at hsum
    dsimp only at hsum hlight ⊢
    rw [hlight] at hsum
    simp only [St.load, St.modify, St.emit, coQueuePushBack, Function.update_self,
      List.length_append, List.length_singleton]
    omega
  · have hsum := sumOn_update (w := Routine.weight) (f := s.co) hn { s.co c with frame := f }
    have hweight : Routine.weight { s.co c with frame := f } = (s.co c).weight := by
      simp [Routine.weight, hw, hf.1]
    refine ⟨Carries.wakeIo hmod, ?_, ?_, fun d => ?_, ?_⟩ <;> rw [wakeIo_not_waiting hw]
    · rfl
    · rfl
    · by_cases hd : d = c <;> simp [St.modify, hd]
    dsimp only at hsum hweight
    rw [hweight] at hsum
    simp only [St.load, St.modify]
    omega

theorem Holdings.Rooted.io_below (h : s.holdings.Rooted) (hio : (s.co c).frame.isIo = true) :
    c < s.nextId := by
  have hu : (s.co c).unfinished = true := by
    cases hf : (s.co c).frame <;> simp [Routine.unfinished, hf, Frame.isIo] at hio ⊢
  obtain ⟨b, hb⟩ := h.base hu
  exact h.below hb

theorem pollEvent_trades (h : s.holdings.Rooted) (ev : Int × EpollEvents) :
    Trades s (pollEvent s ev) := by
  unfold pollEvent
  split
  · exact .refl s
  split
  · rename_i reg _ _ x hf
    have hio : (s.co reg.ptr.1).frame.isIo = true := by rw [hf]; rfl
    exact wakeIo_trades (h.io_below hio) hio ⟨by rw [hf]; rfl, rfl, fun _ => rfl⟩
  · exact .refl s

theorem pollPacket_trades (h : s.holdings.Rooted) (p : Packet) : Trades s (pollPacket s p) := by
  have hdrop : Trades s
      { s with iocp := { s.iocp with inFlight := s.iocp.inFlight.erase p.ptr } } :=
    ⟨carries_rest rfl rfl rfl rfl rfl, rfl, rfl, fun _ => rfl, Nat.le_refl _⟩
  have hr := hdrop.carries.rooted h
  unfold pollPacket
  dsimp only
  split
  · rename_i x hf
    have hio : (s.co p.ptr.1).frame.isIo = true := by rw [hf]; rfl
    exact hdrop.trans (wakeIo_trades (hr.io_below hio) hio ⟨by rw [hf]; rfl, rfl, fun _ => rfl⟩)
  · rename_i x hf
    have hio : (s.co p.ptr.1).frame.isIo = true := by rw [hf]; rfl
    exact hdrop.trans (wakeIo_trades (hr.io_below hio) hio ⟨by rw [hf]; rfl, rfl, fun _ => rfl⟩)
  · exact hdrop

theorem foldl_trades {α : Type} {f : St → α → St}
    (hf : ∀ s x, s.holdings.Rooted → Trades s (f s x)) (l : List α) (h : s.holdings.Rooted) :
    Trades s (l.foldl f s) := by
  induction l generalizing s with
  | nil => exact .refl s
  | cons x l ih => exact (hf s x h).trans (ih ((hf s x h).carries.rooted h))

theorem PollResult.apply_trades (p : PollResult) (h : s.holdings.Rooted) : Trades s (p.apply s) := by
  cases p with
  | none => exact .refl s
  | events evs => exact foldl_trades (fun _ _ h => pollEvent_trades h _) evs h
  | packets ps => exact foldl_trades (fun _ _ h => pollPacket_trades h _) ps h

/-! ## What a step costs -/

/-- What is left to pay for in an iteration of the loop. -/
def Ctl.rest : Ctl → Nat
  | .loop => 4
  | .idle _ | .dispatch => 3
  | .running _ => 2
  | .outside | .aborted => 1

theorem Ctl.rest_bounds (x : Ctl) : 1 ≤ x.rest ∧ x.rest ≤ 4 := by
  cases x <;> simp [Ctl.rest]

/-- Code entered in `u` on behalf of `s` ends with the load it has added, or everything
stops. -/
theorem settle_load {o : Outcome} {k n : Nat} (ho : o.Ends (Costs k u)) :
    ((settle s n o).load ≤ u.load + k ∧ (settle s n o).shouldStop = u.shouldStop ∧
      ((settle s n o).ctl = u.ctl ∨ (settle s n o).ctl = .loop)) ∨
      settle s n o = { s with ctl := .aborted } := by
  cases o with
  | ret r v =>
    have hk : Costs k u (v.emit (.ret n r)) := Costs.emit ho _
    exact .inl ⟨hk.load, hk.stop, .inl hk.ctl⟩
  | swap v =>
    have hk : Costs k u v := ho
    exact .inl ⟨hk.load, hk.stop, .inr rfl⟩
  | abort => exact .inr rfl

theorem beginCall_costs (op : Op) : Costs 0 s (beginCall s op) := by
  unfold beginCall
  split
  · refine Costs.lighten (costs_rest rfl rfl rfl rfl rfl) ?_
    exact Nat.le_of_eq (Routine.weight_same rfl rfl)
  · exact costs_rest rfl rfl rfl rfl rfl

theorem Holdings.Rooted.weight_fresh (h : s.holdings.Rooted) : (s.co s.nextId).weight = 0 := by
  have hu : (s.co s.nextId).unfinished = false := by
    have hl := h.live s.nextId
    rw [h.fresh s.nextId (Nat.le_refl _)] at hl
    exact hl
  cases hf : (s.co s.nextId).frame <;>
    simp [Routine.unfinished, hf, Routine.weight, Frame.owed, Frame.isIo] at hu ⊢

theorem coSpawn_load (h : s.holdings.Rooted) (e : SpawnEnv) :
    (coSpawn s e).2.load ≤ s.load + 5 ∧ (coSpawn s e).2.ctl = s.ctl ∧
      (coSpawn s e).2.shouldStop = s.shouldStop := by
  have hskip : sumOn Routine.weight s.co (s.nextId + 1) = sumOn Routine.weight s.co s.nextId := by
    simp [sumOn, h.weight_fresh]
  unfold coSpawn
  split
  · dsimp only
    split
    · exact ⟨by simp [St.load], rfl, rfl⟩
    · split
      · refine ⟨?_, rfl, rfl⟩
        simp only [coSchedulerEnqueue, coQueuePushBack, St.modify, St.emit, St.load, sumOn,
          Function.update_self, Function.update_idem]
        rw [sumOn_update_ge (Nat.le_refl _)]
        simp [Routine.weight, Frame.owed, Frame.isIo]
        omega
      · refine ⟨?_, rfl, rfl⟩
        simp only [St.load, hskip]
        omega
  · exact ⟨Nat.le_add_right _ _, rfl, rfl⟩

/-- The dispatch of `c` takes its weight off. -/
theorem switchTo_load (rest : List Nat) (hn : c < s.nextId) :
    (switchTo { s with queues := Function.update s.queues .ready rest } c).load +
      (s.co c).weight = s.load := by
  have hsum := sumOn_update (w := Routine.weight) (f := s.co) hn
    { s.co c with state := .running, frame := .user }
  have hzero : Routine.weight { s.co c with state := .running, frame := .user } = 0 := by
    simp [Routine.weight, Frame.owed]
  dsimp only at hsum hzero
  rw [hzero] at hsum
  simp only [switchTo, St.modify, St.emit, St.load]
  omega

theorem schedule_load (h : s.holdings.Rooted) (hq : s.queues .ready ≠ []) (e : ResumeEnv) :
    ((coSchedulerSchedule s e).load + 2 ≤ s.load ∧
      (coSchedulerSchedule s e).shouldStop = s.shouldStop ∧
      (coSchedulerSchedule s e).ctl.rest ≠ 3) ∨
      coSchedulerSchedule s e = { s with ctl := .aborted } := by
  have hweight : ∀ c, 0 < (s.co c).frame.owed → c < s.nextId ∧
      (s.co c).frame.again + 2 ≤ (s.co c).weight := by
    intro c hc
    have hu : (s.co c).unfinished = true := by
      cases hf : (s.co c).frame <;> simp [Routine.unfinished, hf, Frame.owed] at hc ⊢
    obtain ⟨b, hb⟩ := h.base hu
    refine ⟨h.below hb, Nat.le_trans (Frame.again_lt hc) ?_⟩
    unfold Routine.weight
    omega
  obtain ⟨hnil, -⟩ | ⟨c, rest, -, ⟨hf, he⟩ | ⟨hne, he⟩⟩ := schedule_cases s e
  · exact absurd hnil hq
  · obtain ⟨hn, hw⟩ := hweight c (by simp [hf, Frame.owed])
    have hload := switchTo_load rest hn
    rw [he]
    exact .inl ⟨by omega, rfl, by simp [switchTo, St.emit, Ctl.rest]⟩
  · rw [he]
    by_cases hpos : 0 < (s.co c).frame.owed
    · obtain ⟨hn, hw⟩ := hweight c hpos
      have hload := switchTo_load rest hn
      rcases settle_load (s := s) (n := (s.co c).call) (resume_costs (e := e) (c := c)
        (s := switchTo { s with queues := Function.update s.queues .ready rest } c) rfl) with
        ⟨hl, hstop, hctl⟩ | ho
      · refine .inl ⟨by omega, hstop, ?_⟩
        rcases hctl with hctl | hctl <;> rw [hctl] <;> simp [switchTo, St.emit, Ctl.rest]
      · exact .inr ho
    · right
      cases hf : (s.co c).frame <;> simp [Frame.owed, hf] at hpos <;> rfl

/-! ## Runs -/

/-- The machine and, if its last step was a poll after which nobody is ready and the loop
goes on, the clock value at which the poll began and its timeout. -/
structure Vigil where
  st : St
  idled : Option (Nat × Int)

/-- What is remembered of a step from `s` to `s'`. -/
def idledBy (s s' : St) : HistAct → Option (Nat × Int)
  | .act (.idle _) =>
    match s.ctl with
    | .idle began =>
      if s'.ctl = .loop ∧ coQueueEmpty s' .ready = true then some (began, ioTimeoutMs s began)
      else none
    | _ => none
  | _ => none

def Vigil.step (x : Vigil) (a : HistAct) : Option Vigil :=
  (histStep x.st a).map fun s => ⟨s, idledBy x.st s a⟩

/-- The poll came back before its own timeout, by the clock that is read next. -/
def Vigil.early (x : Vigil) : HistAct → Bool
  | .act (.timers now) =>
    match x.idled with
    | some (began, timeout) => decide (timeout < 0 ∨ (now : Int) < began + timeout)
    | none => false
  | _ => false

/-- The deadline that the last poll waited for was less than `2 ^ 31` ms away. -/
def Vigil.near (x : Vigil) : Bool :=
  match x.idled, coTimerHeapPeek x.st.timerHeap with
  | some (began, _), some c => decide ((x.st.co c).wakeupTime - began < 2 ^ 31)
  | _, _ => true

/-- What an action of the program pays for; the scheduler's own steps are free, save for
early polls. -/
def Vigil.charge (x : Vigil) : HistAct → Nat
  | .act .run => 4
  | .act (.spawn _) => 6
  | .act (.call _) => 23
  | .act .finish => 3
  | a => if x.early a then 2 else 0

def Vigil.potential (x : Vigil) : Nat :=
  x.st.load + if x.idled.isSome then 2 else x.st.ctl.rest

/-- The earliest deadline has not come. -/
def NotDue (now : Nat) (s : St) : Prop :=
  ∀ c, coTimerHeapPeek s.timerHeap = some c → now < (s.co c).wakeupTime

structure Vigil.Ok (x : Vigil) : Prop where
  rooted : x.st.holdings.Rooted
  stop : x.st.shouldStop = false
  idle : ∀ n, x.st.ctl = .idle n → x.st.queues .ready = [] ∧ NotDue n x.st
  dispatch : x.st.ctl = .dispatch → x.st.queues .ready ≠ []
  idled : ∀ n timeout, x.idled = some (n, timeout) →
    x.st.ctl = .loop ∧ x.st.timerHeap.entries ≠ [] ∧ NotDue n x.st ∧
      timeout = ioTimeoutMs x.st n

/-- The timers are as before. -/
structure SameDeadlines (s t : St) : Prop where
  heap : t.timerHeap = s.timerHeap
  wakeupTime : ∀ c, (t.co c).wakeupTime = (s.co c).wakeupTime

theorem SameDeadlines.notDue {n : Nat} (h : SameDeadlines s t) (hn : NotDue n s) : NotDue n t := by
  intro c hc
  rw [h.wakeupTime c]
  exact hn c (h.heap ▸ hc)

theorem SameDeadlines.timeout (h : SameDeadlines s t) (n : Nat) :
    ioTimeoutMs t n = ioTimeoutMs s n := by
  unfold ioTimeoutMs
  rw [h.heap]
  cases coTimerHeapPeek s.timerHeap with
  | none => rfl
  | some c =>
    dsimp only
    rw [h.wakeupTime c]

/-- The timeout of a poll whose deadline is near is the time that is left. -/
theorem ioTimeoutMs_near {n : Nat} (hc : coTimerHeapPeek s.timerHeap = some c)
    (hn : NotDue n s) (hnear : (s.co c).wakeupTime - n < 2 ^ 31) :
    ioTimeoutMs s n = ((s.co c).wakeupTime : Int) - n := by
  have hlt := hn c hc
  simp only [ioTimeoutMs, hc]
  rw [toInt64_sub hlt (by omega), if_pos (by omega)]
  unfold toInt32
  rw [if_pos (by omega)]
  omega

/-- After a poll the loop leaves, or finds somebody ready, or waits for a deadline. -/
theorem idlePhase_load (h : s.holdings.Rooted) (now : Nat) (p : PollResult)
    (hr : s.queues .ready = []) : SameDeadlines s (idlePhase s now p) ∧
    (idlePhase s now p).shouldStop = s.shouldStop ∧ (idlePhase s now p).load ≤ s.load ∧
      ((idlePhase s now p).ctl = .outside ∨
        (idlePhase s now p).ctl = .loop ∧
          (coQueueEmpty (idlePhase s now p) .ready = true ∧
              (idlePhase s now p).timerHeap.entries ≠ [] ∨
            coQueueEmpty (idlePhase s now p) .ready = false ∧
              (idlePhase s now p).load + 3 ≤ s.load)) := by
  have htrade : Trades s (if polls s then p.apply (s.emit (.poll (ioTimeoutMs s now))) else s) := by
    split
    · have hemit : Trades s (s.emit (.poll (ioTimeoutMs s now))) :=
        ⟨(Carries.refl s).emit _, rfl, rfl, fun _ => rfl, Nat.le_refl _⟩
      exact hemit.trans (p.apply_trades (hemit.carries.rooted h))
    · exact .refl s
  unfold idlePhase
  generalize (if polls s then p.apply (s.emit (.poll (ioTimeoutMs s now))) else s) = v at htrade
  have hload := htrade.load
  rw [hr, List.length_nil, Nat.mul_zero, Nat.add_zero] at hload
  have hv : ∀ x e, ({ v with ctl := x } : St).load = v.load ∧
      (({ v with ctl := x } : St).emit e).load = v.load := fun _ _ => ⟨rfl, rfl⟩
  dsimp only
  split
  · exact ⟨⟨htrade.heap, htrade.wakeupTime⟩, htrade.stop, by rw [(hv _ _).2]; omega, .inl rfl⟩
  · rename_i hend
    refine ⟨⟨htrade.heap, htrade.wakeupTime⟩, htrade.stop, by rw [(hv _ (.runRet .ok)).1]; omega,
      .inr ⟨rfl, ?_⟩⟩
    cases hq : coQueueEmpty v .ready with
    | true =>
      refine .inl ⟨hq, fun hnil => hend ?_⟩
      rw [hq, coTimerHeapEmpty, hnil]
      rfl
    | false =>
      refine .inr ⟨hq, ?_⟩
      have hpos : 0 < (v.queues .ready).length := by
        cases hl : v.queues .ready with
        | nil => simp [coQueueEmpty, hl] at hq
        | cons d rest => simp
      rw [(hv _ (.runRet .ok)).1]
      omega

/-- A state in which no phase of the loop is under way, and no poll has just ended. -/
theorem Vigil.ok_of_rest (hr : s.holdings.Rooted) (hstop : s.shouldStop = false)
    (hrest : s.ctl.rest ≠ 3) : Vigil.Ok ⟨s, none⟩ := by
  refine ⟨hr, hstop, fun n hn => ?_, fun hd => ?_, by simp⟩
  · have hctl : s.ctl = .idle n := hn
    exact absurd (by rw [hctl]; rfl) hrest
  · have hctl : s.ctl = .dispatch := hd
    exact absurd (by rw [hctl]; rfl) hrest

/-- The entry a poll waited for is taken, unless the poll was early. -/
theorem Vigil.Ok.timerLoop_paid {x : Vigil} {now : Nat} (h : x.Ok) (hnear : x.near = true)
    (hctl : x.st.ctl = .loop)
    (ht : t = timerLoop now x.st.timerHeap.entries.length (x.st.emit (.tick now))) :
    t.load + (if t.ctl = .aborted then 1 else 3) + 1 ≤
      x.potential + x.charge (.act (.timers now)) := by
  have hload := (timerLoop_load now x.st.timerHeap.entries.length (x.st.emit (.tick now))).1
  have hemit : (x.st.emit (.tick now)).load = x.st.load := rfl
  have hthree : (if t.ctl = Ctl.aborted then 1 else 3) ≤ 3 := by split <;> omega
  rw [← ht] at hload
  simp only [Vigil.potential, hctl, Ctl.rest]
  cases hi : x.idled with
  | none =>
    simp only [Option.isSome_none, Bool.false_eq_true, if_false]
    omega
  | some poll =>
    obtain ⟨n, timeout⟩ := poll
    obtain ⟨-, hne, hdue, htime⟩ := h.idled n timeout hi
    obtain ⟨c, rest, he⟩ := List.exists_cons_of_ne_nil hne
    have hpeek : coTimerHeapPeek x.st.timerHeap = some c := by simp [coTimerHeapPeek, he]
    simp only [Option.isSome_some, if_true]
    by_cases hpast : (x.st.co c).wakeupTime ≤ now
    · have hround := timerLoop_due (s := x.st.emit (.tick now)) (n := rest.length) he hpast
      rw [he, List.length_cons] at ht
      rw [← ht] at hround
      rcases hround with hround | ⟨habort, hround⟩
      · omega
      · rw [if_pos habort]
        omega
    · -- the poll was given the time to the deadline, which has not come
      have hclose : (x.st.co c).wakeupTime - n < 2 ^ 31 := by
        simpa [Vigil.near, hi, hpeek] using hnear
      rw [ioTimeoutMs_near hpeek hdue hclose] at htime
      have hearly : x.early (.act (.timers now)) = true := by
        simp only [Vigil.early, hi, decide_eq_true_eq]
        right
        omega
      simp only [Vigil.charge, hearly, if_true]
      omega

/-- A timer phase of a loop that is not told to stop goes on, or has stopped. -/
theorem step_timers_ends {now : Nat} (hs : step s (.timers now) = some s')
    (hstop : s.shouldStop = false) :
    s.ctl = .loop ∧ ∃ t, t = timerLoop now s.timerHeap.entries.length (s.emit (.tick now)) ∧
      (t.ctl = .loop ∧
          s' = { t with ctl := if coQueueEmpty t .ready then .idle now else .dispatch } ∨
        t.ctl ≠ .loop ∧ s' = t) := by
  simp only [step, hstop, Bool.false_eq_true, if_false] at hs
  split at hs
  · rename_i hctl
    refine ⟨hctl, _, rfl, ?_⟩
    split at hs
    · rename_i ht
      cases hs
      exact .inl ⟨ht, rfl⟩
    · rename_i ht
      cases hs
      exact .inr ⟨ht, rfl⟩
  · cases hs

theorem Vigil.Ok.timers {x : Vigil} {now : Nat} (h : x.Ok)
    (hs : Libco.step x.st (.timers now) = some s') (hr : s'.holdings.Rooted) :
    Vigil.Ok ⟨s', none⟩ ∧ (x.near = true → Vigil.potential ⟨s', none⟩ + 1 ≤
      x.potential + x.charge (.act (.timers now))) := by
  obtain ⟨hctl, t, ht, hs'⟩ := step_timers_ends hs h.stop
  obtain ⟨-, hst, hcases⟩ :=
    timerLoop_load now x.st.timerHeap.entries.length (x.st.emit (.tick now))
  rw [← ht] at hst hcases
  have hst' : t.shouldStop = false := hst.trans h.stop
  have hpaid := fun hnear => h.timerLoop_paid hnear hctl ht
  have htop := @timerLoop_top now x.st.timerHeap.entries.length (x.st.emit (.tick now))
    (Nat.le_refl _)
  rw [← ht] at htop
  rcases hs' with ⟨hgo, rfl⟩ | ⟨hne, rfl⟩
  · refine ⟨⟨hr, hst', ?_, ?_, by simp⟩, fun hnear => ?_⟩
    · intro n hn
      dsimp only at hn ⊢
      split at hn
      · rename_i hempty
        cases hn
        exact ⟨List.isEmpty_iff.mp hempty, htop.resolve_left (by simp [hgo])⟩
      · cases hn
    · intro hd
      dsimp only at hd ⊢
      split at hd
      · cases hd
      · rename_i hempty
        simpa [coQueueEmpty] using hempty
    · have hrest : (if coQueueEmpty t .ready then Ctl.idle now else .dispatch).rest = 3 := by
        split <;> rfl
      have hpaid := hpaid hnear
      simp only [hgo, reduceCtorEq, if_false] at hpaid
      show t.load + (if coQueueEmpty t .ready then Ctl.idle now else .dispatch).rest + 1 ≤ _
      rw [hrest]
      exact hpaid
  · have habort : s'.ctl = .aborted := by
      rcases hcases with hc | hc
      · exact absurd (hc.trans hctl) hne
      · exact hc
    refine ⟨Vigil.ok_of_rest hr hst' (by simp [habort, Ctl.rest]), fun hnear => ?_⟩
    have hpaid := hpaid hnear
    simp only [habort, if_true] at hpaid
    show s'.load + s'.ctl.rest + 1 ≤ _
    rw [habort]
    exact hpaid

theorem Vigil.Ok.idlePhase {x : Vigil} {p : PollResult} {now : Nat} (h : x.Ok)
    (hctl : x.st.ctl = .idle now) (hs : s' = Libco.idlePhase x.st now p)
    (hr : s'.holdings.Rooted) :
    Vigil.Ok ⟨s', idledBy x.st s' (.act (.idle p))⟩ ∧
      Vigil.potential ⟨s', idledBy x.st s' (.act (.idle p))⟩ + 1 ≤ x.potential := by
  have hnot : x.idled = none := by
    cases hi : x.idled with
    | none => rfl
    | some poll =>
      have hl := (h.idled poll.1 poll.2 hi).1
      rw [hctl] at hl
      cases hl
  obtain ⟨hready, hdue⟩ := h.idle now hctl
  obtain ⟨hsame, hstop, hload, hcases⟩ := idlePhase_load h.rooted now p hready
  rw [← hs] at hsame hstop hload hcases
  rw [h.stop] at hstop
  simp only [Vigil.potential, hnot, hctl, Ctl.rest, Option.isSome_none, Bool.false_eq_true,
    if_false]
  rcases hcases with hout | ⟨hloop, ⟨hq, hheap⟩ | ⟨hq, hthree⟩⟩
  · have hby : idledBy x.st s' (.act (.idle p)) = none := by simp [idledBy, hctl, hout]
    rw [hby]
    exact ⟨Vigil.ok_of_rest hr hstop (by simp [hout, Ctl.rest]), by simp [hout]; omega⟩
  · have hby : idledBy x.st s' (.act (.idle p)) = some (now, ioTimeoutMs x.st now) := by
      simp [idledBy, hctl, hloop, hq]
    rw [hby]
    refine ⟨⟨hr, hstop, ?_, ?_, ?_⟩, by simp; omega⟩
    · intro n hn
      rw [show s'.ctl = Ctl.idle n from hn] at hloop
      cases hloop
    · intro hd
      rw [show s'.ctl = Ctl.dispatch from hd] at hloop
      cases hloop
    · rintro n timeout he
      cases he
      exact ⟨hloop, hheap, hsame.notDue hdue, (hsame.timeout _).symm⟩
  · have hby : idledBy x.st s' (.act (.idle p)) = none := by simp [idledBy, hctl, hq]
    rw [hby]
    exact ⟨Vigil.ok_of_rest hr hstop (by simp [hloop, Ctl.rest]), by simp [hloop]; omega⟩

/-- No poll has just ended unless the loop is at its head. -/
theorem Vigil.Ok.not_idled {x : Vigil} (h : x.Ok) (hne : x.st.ctl ≠ .loop) : x.idled = none := by
  cases hi : x.idled with
  | none => rfl
  | some poll => exact absurd (h.idled poll.1 poll.2 hi).1 hne

/-- A step outside the phases of the loop: what is left to see is the load it adds and
where control goes. -/
theorem Vigil.Ok.pays {x : Vigil} {a : HistAct} {k y : Nat} (h : x.Ok) (hr : s'.holdings.Rooted)
    (hne : x.st.ctl ≠ .loop) (hload : s'.load ≤ x.st.load + k) (hy : s'.ctl.rest ≤ y)
    (hthree : s'.ctl.rest ≠ 3) (hstop : s'.shouldStop = x.st.shouldStop)
    (hsum : k + y + 1 ≤ x.st.ctl.rest + x.charge a) :
    Vigil.Ok ⟨s', none⟩ ∧ Vigil.potential ⟨s', none⟩ + 1 ≤ x.potential + x.charge a := by
  refine ⟨Vigil.ok_of_rest hr (hstop.trans h.stop) hthree, ?_⟩
  simp only [Vigil.potential, h.not_idled hne, Option.isSome_none, Bool.false_eq_true, if_false]
  omega

theorem inUserCode_rest (hu : inUserCode s = true) : s.ctl.rest ≠ 3 ∧ s.ctl ≠ .loop := by
  unfold inUserCode at hu
  split at hu
  · rename_i hc
    simp [hc, Ctl.rest]
  · rename_i hc
    simp [hc, Ctl.rest]
  · cases hu

theorem Vigil.Ok.switchFails {x : Vigil} (h : x.Ok) (hs : Libco.switchFails x.st = some s')
    (hr : s'.holdings.Rooted) :
    Vigil.Ok ⟨s', none⟩ ∧
      Vigil.potential ⟨s', none⟩ + 1 ≤ x.potential + x.charge .switchFails := by
  unfold Libco.switchFails at hs
  split at hs
  · rename_i c u hctl hq
    cases hs
    have hpop : Costs 0 x.st u := by
      unfold coQueuePopFront at hq
      split at hq
      · cases hq
      · cases hq
        exact costs_rest rfl rfl rfl rfl rfl
    have hmod : Costs 0 x.st (u.modify c fun r => { r with state := .running }) :=
      hpop.lighten (Routine.weight_of_not_waiting rfl (by simp))
    have hrest : x.st.ctl.rest = 3 := by rw [hctl]; rfl
    exact h.pays (k := 0) (y := 1) hr (by simp [hctl]) hmod.load (Nat.le_refl _)
      (by simp [St.emit, Ctl.rest]) hmod.stop (by omega)
  · cases hs

theorem Vigil.Ok.schedule {x : Vigil} {e : ResumeEnv} (h : x.Ok) (hctl : x.st.ctl = .dispatch)
    (hr : (coSchedulerSchedule x.st e).holdings.Rooted) :
    Vigil.Ok ⟨coSchedulerSchedule x.st e, none⟩ ∧
      Vigil.potential ⟨coSchedulerSchedule x.st e, none⟩ + 1 ≤
        x.potential + x.charge (.act (.schedule e)) := by
  have hne : x.st.ctl ≠ .loop := by simp [hctl]
  have hrest : x.st.ctl.rest = 3 := by rw [hctl]; rfl
  rcases schedule_load h.rooted (h.dispatch hctl) e with ⟨hload, hstop, hthree⟩ | ho
  · refine ⟨Vigil.ok_of_rest hr (hstop.trans h.stop) hthree, ?_⟩
    have := (coSchedulerSchedule x.st e).ctl.rest_bounds.2
    simp only [Vigil.potential, h.not_idled hne, hrest, Option.isSome_none, Bool.false_eq_true,
      if_false]
    omega
  · rw [ho] at hr ⊢
    exact h.pays (k := 0) (y := 1) hr hne (Nat.le_refl _) (Nat.le_refl _) (by simp [Ctl.rest]) rfl
      (by omega)

theorem Vigil.Ok.spawn {x : Vigil} {e : SpawnEnv} (h : x.Ok) (hu : inUserCode x.st = true)
    (hr : ((coSpawn x.st e).2.emit (.spawned (coSpawn x.st e).1)).holdings.Rooted) :
    Vigil.Ok ⟨(coSpawn x.st e).2.emit (.spawned (coSpawn x.st e).1), none⟩ ∧
      Vigil.potential ⟨(coSpawn x.st e).2.emit (.spawned (coSpawn x.st e).1), none⟩ + 1 ≤
        x.potential + x.charge (.act (.spawn e)) := by
  obtain ⟨hthree, hne⟩ := inUserCode_rest hu
  obtain ⟨hload, hctl, hstop⟩ := coSpawn_load h.rooted e
  have hrest : ((coSpawn x.st e).2.emit (.spawned (coSpawn x.st e).1)).ctl.rest = x.st.ctl.rest :=
    congrArg Ctl.rest hctl
  exact h.pays (k := 5) (y := x.st.ctl.rest) hr hne hload (Nat.le_of_eq hrest)
    (by rw [hrest]; exact hthree) hstop (by simp only [Vigil.charge]; omega)

theorem Vigil.Ok.call {x : Vigil} {op : Op} (h : x.Ok) (hu : inUserCode x.st = true)
    (hs : s' = settle x.st x.st.calls (runOp (beginCall x.st op) x.st.calls op))
    (hr : s'.holdings.Rooted) :
    Vigil.Ok ⟨s', none⟩ ∧
      Vigil.potential ⟨s', none⟩ + 1 ≤ x.potential + x.charge (.act (.call op)) := by
  obtain ⟨hthree, hne⟩ := inUserCode_rest hu
  have hone := x.st.ctl.rest_bounds.1
  have hbegin := beginCall_costs (s := x.st) op
  have hcosts : (runOp (beginCall x.st op) x.st.calls op).Ends (Costs 19 (beginCall x.st op)) :=
    runOp_costs
  rcases settle_load (s := x.st) (n := x.st.calls) hcosts with ⟨hload, hstop, hctl⟩ | ho
  · rw [← hs] at hload hstop hctl
    have hload' := hbegin.load
    refine h.pays (k := 19) (y := 4) hr hne (by omega) (Ctl.rest_bounds _).2 ?_
      (hstop.trans hbegin.stop) (by simp only [Vigil.charge]; omega)
    rcases hctl with hctl | hctl
    · rw [hctl, hbegin.ctl]
      exact hthree
    · rw [hctl]
      simp [Ctl.rest]
  · rw [← hs] at ho
    rw [ho] at hr ⊢
    exact h.pays (k := 0) (y := 1) hr hne (Nat.le_refl _) (Nat.le_refl _) (by simp [Ctl.rest]) rfl
      (by simp only [Vigil.charge]; omega)

theorem finish_load (s : St) (c : Nat) :
    (coRoutineDestroy (coRoutineFinish s c) c).load ≤ s.load ∧
      (coRoutineDestroy (coRoutineFinish s c) c).shouldStop = s.shouldStop := by
  obtain ⟨pool, he⟩ := finish_eq s c
  have hsum : sumOn Routine.weight (Function.update s.co c
      { s.co c with state := .dead, stackBase := none, frame := .freed }) s.nextId ≤
      sumOn Routine.weight s.co s.nextId + 0 := by
    refine sumOn_update_le ?_
    simp [Routine.weight, Frame.owed, Frame.isIo]
  dsimp only at hsum
  rw [he]
  refine ⟨?_, rfl⟩
  simp only [St.load]
  omega

/-- **Every step is paid for.** -/
theorem Vigil.Ok.step {x x' : Vigil} {a : HistAct} (h : x.Ok) (hs : x.step a = some x') :
    x'.Ok ∧ (x.near = true → x'.potential + 1 ≤ x.potential + x.charge a) := by
  obtain ⟨s', hs', rfl⟩ := Option.map_eq_some_iff.mp hs
  obtain ⟨t, heff, hk⟩ := histStep_effect h.rooted.ctl_live hs'
  have hr : s'.holdings.Rooted := hk.rooted (h.rooted.effect heff)
  cases a with
  | switchFails => exact (h.switchFails hs' hr).imp id fun hp _ => hp
  | act a =>
    have hstep : Libco.step x.st a = some s' := hs'
    cases a with
    | run =>
      obtain ⟨hctl, rfl⟩ := step_run hstep
      have hrest : x.st.ctl.rest = 1 := by rw [hctl]; rfl
      exact (h.pays (k := 0) (y := 4) hr (by simp [hctl]) (Nat.le_refl _) (Nat.le_refl _)
        (by simp [Ctl.rest]) h.stop.symm (by simp only [Vigil.charge]; omega)).imp id fun hp _ => hp
    | timers now => exact h.timers hstep hr
    | idle p =>
      obtain ⟨now, hctl, -, hphase⟩ := step_idlePhase hstep
      obtain ⟨hok, hpay⟩ := h.idlePhase hctl hphase hr
      exact ⟨hok, fun _ => Nat.le_trans hpay (Nat.le_add_right _ _)⟩
    | schedule e =>
      obtain ⟨hctl, rfl⟩ := step_schedule hstep
      exact (h.schedule hctl hr).imp id fun hp _ => hp
    | spawn e =>
      obtain ⟨hu, rfl⟩ := step_spawn hstep
      exact (h.spawn hu hr).imp id fun hp _ => hp
    | call op =>
      obtain ⟨hu, hcall⟩ := step_call hstep
      exact (h.call hu hcall hr).imp id fun hp _ => hp
    | finish =>
      obtain ⟨c, hctl, rfl⟩ := step_finish hstep
      obtain ⟨hload, hstop⟩ := finish_load x.st c
      have hrest : x.st.ctl.rest = 2 := by rw [hctl]; rfl
      exact (h.pays (k := 0) (y := 4) hr (by simp [hctl]) hload (Nat.le_refl _)
        (by simp [St.emit, Ctl.rest]) hstop (by simp only [Vigil.charge]; omega)).imp id
          fun hp _ => hp

/-- No step leaves a timer behind, and polls wait for deadlines less than `2 ^ 31` ms away. -/
def vigilant (x : Vigil) (a : HistAct) : Bool := !a.leaks x.st && x.near

/-- The runs of the library from its start, metered. -/
def MeteredRun (cfg : Config) : Metered Vigil → Prop :=
  Metered.Reaches Vigil.step Vigil.charge (fun x a => vigilant x a = true) ⟨init cfg, none⟩

/-- **No run is longer than what the program pays for.** In particular the loop of
`co_scheduler_run` comes to an end, or to the code of a coroutine, after boundedly many
steps if no poll comes back before its timeout. -/
theorem steps_paid_for {cfg : Config} {x : Metered Vigil} (h : MeteredRun cfg x) :
    x.steps ≤ x.credit := by
  have hinit : Vigil.Ok ⟨init cfg, none⟩ :=
    Vigil.ok_of_rest (rooted_init cfg) rfl (by simp [init, Ctl.rest])
  have hstart : Vigil.potential ⟨init cfg, none⟩ = 1 := by
    simp [Vigil.potential, St.load, sumOn, init, Ctl.rest, Routine.weight, Routine.zero,
      Frame.owed, Frame.isIo]
  obtain ⟨-, hbudget⟩ := Metered.budget Vigil.Ok Vigil.potential h hinit fun y a y' hy hg hs => by
    have hnear : y.near = true := by
      simp only [vigilant, Bool.and_eq_true] at hg
      exact hg.2
    exact (hy.step hs).imp id fun hp => hp hnear
  have hpos : 1 ≤ x.st.potential := by
    have := x.st.st.ctl.rest_bounds.1
    unfold Vigil.potential
    split <;> omega
  omega

/-- Two coroutines; one sleeps, an interrupted poll is followed by one that lasts until
the deadline, and both finish. -/
def sleepingActs : List Act :=
  [spawnOk, spawnOk, .run] ++ turn ++ [Act.call (.sleep 10 0 true)] ++ turn ++
    [Act.finish, .timers 0, .idle .none, .timers 5, .idle .none, .timers 10, .schedule ⟨.done 0⟩,
      .finish, .timers 10, .idle .none]

def sleepingRun : List HistAct := sleepingActs.map HistAct.act

theorem steps_paid_for_sleeping :
    ∃ x, runGuarded (meter Vigil.step Vigil.charge) (fun x a => vigilant x.st a)
        (.start ⟨init (byteConfig 0), none⟩) sleepingRun = some x ∧
      x.steps = 18 ∧ x.credit = 47 ∧ x.st.st.ctl = .outside ∧ x.steps ≤ x.credit := by
  have hrun : (runGuarded (meter Vigil.step Vigil.charge) (fun x a => vigilant x.st a)
      (.start ⟨init (byteConfig 0), none⟩) sleepingRun).map
      (fun x => (x.steps, x.credit, x.st.st.ctl)) = some (18, 47, .outside) := by
    decide +kernel
  obtain ⟨x, hx, he⟩ := Option.map_eq_some_iff.mp hrun
  simp only [Prod.mk.injEq] at he
  obtain ⟨hsteps, hcredit, hctl⟩ := he
  exact ⟨x, hx, hsteps, hcredit, hctl, steps_paid_for (reach_of_runGuarded hx)⟩

end Libco
