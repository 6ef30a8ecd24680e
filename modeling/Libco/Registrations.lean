import Libco.Deadlines

/-!
# epoll registrations

A coroutine in `co_wait_io` has a registration of its descriptor, with its own
wait context as `data.ptr`, as long as no second coroutine enters `co_wait_io` on
that descriptor: `co_iomux_add` would replace the registration, and the first of
the two to resume would delete it. Nothing here depends on the timer heap, so
the runs are not restricted to those without leaks; the proof goes through the
functions themselves. `Quiet`: no registration changes and nobody new waits.
-/

namespace Libco
open Lib

variable {s s' t s₀ : St} {a : Act} {c : Nat}

structure Quiet (s t : St) : Prop where
  ctl : t.ctl = s.ctl
  epoll : t.epoll = s.epoll
  iocp : t.iocp = s.iocp
  waiters : ∀ d x, (t.co d).frame = .waitIo x →
    (s.co d).frame = .waitIo x ∧ (t.co d).call = (s.co d).call

theorem Quiet.refl (s : St) : Quiet s s := ⟨rfl, rfl, rfl, fun _ _ h => ⟨h, rfl⟩⟩

theorem Quiet.trans (h : Quiet s t) (h' : Quiet t s') : Quiet s s' := by
  refine ⟨h'.ctl.trans h.ctl, h'.epoll.trans h.epoll, h'.iocp.trans h.iocp, fun d x hx => ?_⟩
  obtain ⟨hf, hc⟩ := h'.waiters d x hx
  obtain ⟨hf', hc'⟩ := h.waiters d x hf
  exact ⟨hf', hc.trans hc'⟩

theorem quiet_of_co (hco : t.co = s.co) (hctl : t.ctl = s.ctl) (he : t.epoll = s.epoll)
    (hi : t.iocp = s.iocp) : Quiet s t :=
  ⟨hctl, he, hi, fun d x h => by rw [hco] at h ⊢; exact ⟨h, rfl⟩⟩

/-- The record of `c` keeps its frame and call. -/
theorem Quiet.modify {f : Routine → Routine} (h : Quiet s t)
    (hf : (f (t.co c)).frame = (t.co c).frame ∧ (f (t.co c)).call = (t.co c).call) :
    Quiet s (t.modify c f) := by
  refine h.trans ⟨rfl, rfl, rfl, fun d x hx => ?_⟩
  by_cases hd : d = c
  · subst hd
    simp only [St.modify, Function.update_self, hf.1] at hx ⊢
    exact ⟨hx, hf.2⟩
  · simp only [St.modify, Function.update_of_ne hd] at hx ⊢
    exact ⟨hx, trivial⟩

/-- The record of `c` gets a frame of another kind. -/
theorem Quiet.reframe {f : Routine → Routine} (h : Quiet s t)
    (hf : ∀ x, (f (t.co c)).frame ≠ .waitIo x) : Quiet s (t.modify c f) := by
  refine h.trans ⟨rfl, rfl, rfl, fun d x hx => ?_⟩
  by_cases hd : d = c
  · subst hd
    simp only [St.modify, Function.update_self] at hx
    exact absurd hx (hf x)
  · simp only [St.modify, Function.update_of_ne hd] at hx ⊢
    exact ⟨hx, trivial⟩

theorem Quiet.same (h : Quiet s t) (hco : s'.co = t.co) (hctl : s'.ctl = t.ctl)
    (he : s'.epoll = t.epoll) (hi : s'.iocp = t.iocp) : Quiet s s' :=
  h.trans (quiet_of_co hco hctl he hi)

theorem quiet_wakeAll {q : QueueRef} {ws rest : List Nat} {g : Routine → Routine}
    (hg : ∀ r, (g r).frame = r.frame ∧ (g r).call = r.call) : Quiet s (wakeAll s q ws rest g) := by
  refine ⟨rfl, rfl, rfl, fun d x h => ?_⟩
  simp only [wakeAll] at h ⊢
  split
  · rename_i hd
    simp only [hd, if_true, (hg _).1] at h
    exact ⟨h, (hg _).2⟩
  · rename_i hd
    simp only [hd, if_false] at h
    exact ⟨h, rfl⟩

theorem Quiet.emit (h : Quiet s t) (e : Event) : Quiet s (t.emit e) := h.same rfl rfl rfl rfl

theorem Quiet.push (h : Quiet s t) (q : QueueRef) : Quiet s (coQueuePushBack t q c) :=
  h.same rfl rfl rfl rfl

theorem Quiet.remove (h : Quiet s t) (q : QueueRef) : Quiet s (coQueueRemove t q c) :=
  h.same rfl rfl rfl rfl

theorem Quiet.heap (h : Quiet s t) (p : TimerHeap) : Quiet s { t with timerHeap := p } :=
  h.same rfl rfl rfl rfl

theorem Quiet.enqueue (h : Quiet s t) : Quiet s (coSchedulerEnqueue t c) :=
  ((h.push _).modify ⟨rfl, rfl⟩).emit _

/-- `wakeRoutine`, the same two statements in the other order. -/
theorem Quiet.wake (h : Quiet s t) : Quiet s (wakeRoutine t c) :=
  Quiet.emit (Quiet.push (h.modify ⟨rfl, rfl⟩) _) _

theorem quiet_wake_front {q : QueueRef} {rest : List Nat} (h : Quiet s t) :
    Quiet s (wakeAll t q [c] rest .wake) :=
  h.trans (quiet_wakeAll (g := .wake) fun _ => ⟨rfl, rfl⟩)

/-- The state in which code returns or switches away has the property. -/
def Outcome.Ends (P : St → Prop) : Outcome → Prop
  | .ret _ t => P t
  | .swap t => P t
  | .abort => True

theorem Outcome.Ends.mono {P Q : St → Prop} {o : Outcome} (h : o.Ends P) (hpq : ∀ t, P t → Q t) :
    o.Ends Q := by
  cases o with
  | ret r t => exact hpq t h
  | swap t => exact hpq t h
  | abort => trivial

/-! ## Calls -/

theorem coYieldNow_quiet (s : St) : (coYieldNow s).Ends (Quiet s) := by
  unfold coYieldNow
  split
  · exact .refl s
  · exact ((Quiet.refl s).reframe (by simp)).enqueue

theorem coSleep_quiet (msec now : Nat) (ok : Bool) : (coSleep s msec now ok).Ends (Quiet s) := by
  unfold coSleep
  split
  · exact coYieldNow_quiet s
  split
  · exact .refl s
  · dsimp only
    split
    · exact ((Quiet.refl s).modify ⟨rfl, rfl⟩).modify ⟨rfl, rfl⟩
    · exact Quiet.heap (Quiet.reframe ((Quiet.refl s).modify ⟨rfl, rfl⟩) (by simp)) _

theorem coMutexLock_quiet (m : Nat) : (coMutexLock s m).Ends (Quiet s) := by
  unfold coMutexLock
  split <;> split
  · exact .refl s
  · exact quiet_of_co rfl rfl rfl rfl
  · exact quiet_of_co rfl rfl rfl rfl
  · exact Quiet.emit (Quiet.push ((Quiet.refl s).reframe (by simp)) _) _

theorem coMutexUnlock_quiet {m : Nat} (h : coMutexUnlock s m = some t) : Quiet s t := by
  obtain ⟨-, ⟨-, rfl⟩ | ⟨c, rest, -, rfl⟩⟩ := coMutexUnlock_cases h
  · exact quiet_of_co rfl rfl rfl rfl
  · exact quiet_wake_front (quiet_of_co rfl rfl rfl rfl)

theorem unlock_quiet {m : Nat} (h : Quiet s t) :
    Outcome.Ends (Quiet s) (match coMutexUnlock t m with
      | none => .abort
      | some s => .swap s) := by
  split
  · trivial
  · rename_i u hu
    exact h.trans (coMutexUnlock_quiet hu)

theorem coCondWait_quiet (v m : Nat) : (coCondWait s v m).Ends (Quiet s) := by
  unfold coCondWait
  split
  · exact .refl s
  · exact unlock_quiet (Quiet.emit (Quiet.push ((Quiet.refl s).reframe (by simp)) _) _)

theorem coCondTimedwait_quiet (v m timeoutMs now : Nat) (ok : Bool) :
    (coCondTimedwait s v m timeoutMs now ok).Ends (Quiet s) := by
  unfold coCondTimedwait
  split
  · exact .refl s
  split
  · exact .refl s
  rename_i c _
  have hq : Quiet s (coQueuePushBack (s.modify c fun r =>
      { r with state := .waiting, condWaitQueue := some v, timedOut := false }) (.cond v) c) :=
    Quiet.push ((Quiet.refl s).modify ⟨rfl, rfl⟩) _
  dsimp only
  split
  · exact Quiet.modify (Quiet.remove (hq.modify ⟨rfl, rfl⟩) _) ⟨rfl, rfl⟩
  · exact unlock_quiet (Quiet.emit (Quiet.heap (Quiet.reframe (hq.modify ⟨rfl, rfl⟩) (by simp)) _) _)

theorem coCondSignal_quiet (v : Nat) : Quiet s (coCondSignal s v) := by
  unfold coCondSignal
  cases hq : s.queues (.cond v) with
  | nil =>
    rw [coQueuePopFront_nil hq]
    exact quiet_of_co rfl rfl rfl rfl
  | cons c rest =>
    rw [coQueuePopFront_cons hq]
    exact Quiet.wake (Quiet.modify (quiet_of_co rfl rfl rfl rfl) ⟨rfl, rfl⟩)

theorem drainQueue_quiet {wake : St → Nat → St} {q : QueueRef}
    (hw : ∀ s t c, Quiet s t → Quiet s (wake t c)) (n : Nat) (h : Quiet s t) :
    Quiet s (drainQueue wake q n t) := by
  induction n generalizing t with
  | zero => exact h
  | succ n ih =>
    simp only [drainQueue]
    cases hq : t.queues q with
    | nil =>
      rw [coQueuePopFront_nil hq]
      exact h
    | cons c rest =>
      rw [coQueuePopFront_cons hq]
      exact ih (hw _ _ c (h.same rfl rfl rfl rfl))

theorem coCondBroadcast_quiet (v : Nat) : Quiet s (coCondBroadcast s v) :=
  drainQueue_quiet (fun _ _ _ h => Quiet.wake (h.modify ⟨rfl, rfl⟩)) _
    (quiet_of_co rfl rfl rfl rfl)

theorem placeElement_quiet {h k : Nat} {data : Bytes} (hp : placeElement s h k data = some t) :
    Quiet s t := by
  obtain ⟨c, rest, -, rfl⟩ | ⟨-, -, rfl⟩ := placeElement_cases hp
  · exact quiet_wake_front (Quiet.emit (Quiet.emit (Quiet.emit
      ((Quiet.refl s).modify ⟨rfl, rfl⟩) _) _) _)
  · exact quiet_of_co rfl rfl rfl rfl

theorem takeElement_quiet {h k : Nat} (ht : takeElement s h k = some t) : Quiet s t := by
  obtain ⟨-, -, rfl⟩ | ⟨c, rest, -, -, rfl⟩ | ⟨c, rest, -, -, rfl⟩ := takeElement_cases ht
  · exact quiet_of_co rfl rfl rfl rfl
  · exact quiet_wake_front (quiet_of_co rfl rfl rfl rfl)
  · exact quiet_wake_front (quiet_of_co rfl rfl rfl rfl)

theorem coChannelSend_quiet (h k : Nat) (data : Bytes) : (coChannelSend s h k data).Ends (Quiet s) := by
  unfold coChannelSend
  split
  · exact .refl s
  split
  · rename_i hp
    exact placeElement_quiet hp
  split
  · exact .refl s
  · exact Quiet.emit (Quiet.push ((Quiet.refl s).reframe (by simp)) _) _

theorem coChannelTrysend_quiet (h k : Nat) (data : Bytes) :
    (coChannelTrysend s h k data).Ends (Quiet s) := by
  unfold coChannelTrysend
  split
  · exact .refl s
  split
  · rename_i hp
    exact placeElement_quiet hp
  · exact .refl s

theorem coChannelRecv_quiet (h k : Nat) : (coChannelRecv s h k).Ends (Quiet s) := by
  unfold coChannelRecv
  split
  · rename_i hp
    exact takeElement_quiet hp
  split
  · exact .refl s
  split
  · exact .refl s
  · exact Quiet.emit (Quiet.push ((Quiet.refl s).reframe (by simp)) _) _

theorem coChannelTryrecv_quiet (h k : Nat) : (coChannelTryrecv s h k).Ends (Quiet s) := by
  unfold coChannelTryrecv
  split
  · rename_i hp
    exact takeElement_quiet hp
  · split <;> exact .refl s

theorem coChannelClose_quiet (h : Nat) : (coChannelClose s h).Ends (Quiet s) := by
  unfold coChannelClose
  split
  · exact .refl s
  · have hw : ∀ (s t : St) (c : Nat), Quiet s t → Quiet s (wakeRoutine t c) :=
      fun _ _ _ h => h.wake
    exact drainQueue_quiet hw _ (drainQueue_quiet hw _ (quiet_of_co rfl rfl rfl rfl))

theorem armTimer_quiet {timeoutMs : Int} {now : Nat} {ok : Bool} {o : Option Nat}
    (h : armTimer s c timeoutMs now ok = (o, t)) : Quiet s t := by
  have hq : Quiet s (s.modify c fun r => { r with timedOut := false, ioWaiting := false }) :=
    (Quiet.refl s).modify ⟨rfl, rfl⟩
  unfold armTimer at h
  dsimp only at h
  split at h
  · split at h
    · cases h
      exact (hq.modify ⟨rfl, rfl⟩).modify ⟨rfl, rfl⟩
    · cases h
      exact Quiet.heap (hq.modify ⟨rfl, rfl⟩) _
  · cases h
    exact hq

theorem coWaitIoAsync_quiet {a : AsyncArgs} :
    (coWaitIoAsync s a).Ends fun t => Quiet { s with iocp := t.iocp } t := by
  have hsame : ∀ {t u : St}, Quiet t u → Quiet { t with iocp := u.iocp } u :=
    fun h => ⟨h.ctl, h.epoll, rfl, h.waiters⟩
  unfold coWaitIoAsync
  split
  · split <;> exact .refl s
  rename_i c _
  split
  · rename_i t ht
    exact hsame (armTimer_quiet ht)
  rename_i t ht
  have hq := armTimer_quiet ht
  have hassoc : ∀ e u, coIomuxAssociate t a.fd a.portOk = (e, u) →
      Quiet { s with iocp := u.iocp } u := by
    intro e u hu
    unfold coIomuxAssociate at hu
    split at hu
    · cases hu
      exact hsame hq
    split at hu
    · split at hu <;> cases hu <;> exact ⟨hq.ctl, hq.epoll, rfl, hq.waiters⟩
    · cases hu
      exact hsame hq
  split
  · rename_i u hu
    have hq' := hassoc _ _ hu
    split
    · have hr : Quiet { s with iocp := u.iocp } (u.modify c fun r =>
          { r with
            state := .waiting
            frame := .waitAsync ⟨a.opType, a.fd, noEvents, a.timeoutMs, 0⟩ }) :=
        hq'.reframe (by simp)
      exact ⟨hr.ctl, hr.epoll, rfl, hr.waiters⟩
    split
    · exact hq'
    · exact hq'
    · exact hq'.modify ⟨rfl, rfl⟩
    · exact hq'.modify ⟨rfl, rfl⟩
  · rename_i e u _ hu
    exact (hassoc _ _ hu).modify ⟨rfl, rfl⟩

theorem coIoAsync_quiet {a : AsyncArgs} :
    (coIoAsync s a).Ends fun t => Quiet { s with iocp := t.iocp } t := by
  unfold coIoAsync
  split
  · exact .refl s
  split
  · exact .refl s
  · exact coWaitIoAsync_quiet

theorem runOp_quiet {k : Nat} {op : Op} (hop : (Act.call op).isIo = false) :
    (runOp s k op).Ends (Quiet s) := by
  cases op with
  | yieldNow => exact coYieldNow_quiet s
  | sleep msec now ok => exact coSleep_quiet msec now ok
  | mutexLock m => exact coMutexLock_quiet m
  | mutexTrylock m =>
    simp only [runOp, coMutexTrylock]
    split
    · exact .refl s
    · exact quiet_of_co rfl rfl rfl rfl
  | mutexUnlock m =>
    simp only [runOp]
    split
    · rename_i hu
      exact coMutexUnlock_quiet hu
    · trivial
  | condWait v m => exact coCondWait_quiet v m
  | condTimedwait v m t now ok => exact coCondTimedwait_quiet v m t now ok
  | condSignal v => exact coCondSignal_quiet v
  | condBroadcast v => exact coCondBroadcast_quiet v
  | channelSend h d => exact coChannelSend_quiet h k d
  | channelTrysend h d => exact coChannelTrysend_quiet h k d
  | channelRecv h => exact coChannelRecv_quiet h k
  | channelTryrecv h => exact coChannelTryrecv_quiet h k
  | channelClose h => exact coChannelClose_quiet h
  | io a => cases hop
  | ioAsync a => cases hop

/-! ## Resumptions -/

theorem relock_quiet {m : Nat} {f : Frame} {r : St → Ret} (hf : ∀ x, f ≠ .waitIo x)
    (h : Quiet s t) : (relock t c m f r).Ends (Quiet s) := by
  have hlock := coMutexLock_quiet (s := t) m
  unfold relock
  cases ho : coMutexLock t m with
  | ret _ u =>
    rw [ho] at hlock
    exact h.trans hlock
  | swap u =>
    rw [ho] at hlock
    exact (h.trans hlock).reframe hf
  | abort => trivial

theorem resumeLock_quiet (m : Nat) : (resumeLock s c m).Ends (Quiet s) := by
  unfold resumeLock
  split
  · exact (Quiet.refl s).emit _
  · trivial

theorem resumeAsync_quiet (x : AsyncCtx) (after : SysRes) :
    (resumeAsync s c x after).Ends (Quiet s) := by
  unfold resumeAsync
  split
  · exact Quiet.same ((Quiet.refl s).reframe (c := c) (f := fun r =>
      { r with state := .waiting, frame := .drainAsync x }) (by simp)) rfl rfl rfl rfl
  split
  · exact .refl s
  · have hq : Quiet s (if 0 ≤ x.timeoutMs then
        let s := s.modify c fun r => { r with ioWaiting := false }
        { s with timerHeap := (coTimerHeapRemove s.key s.timerHeap c).2 }
      else s) := by
      split
      · exact Quiet.heap ((Quiet.refl s).modify ⟨rfl, rfl⟩) _
      · exact .refl s
    dsimp only
    split <;> exact hq

/-- Everything but `co_wait_io` resumes without touching a registration. -/
theorem resume_quiet {e : ResumeEnv} {f : Frame} (hf : ∀ x, f ≠ .waitIo x) :
    (resume s c e f).Ends (Quiet s) := by
  cases f with
  | absent | freed | user => trivial
  | entry | yieldNow | sleep => exact .refl s
  | lock m => exact resumeLock_quiet m
  | condRelock v m => exact resumeLock_quiet m
  | timedRelock v m =>
    have hlock := resumeLock_quiet (s := s) (c := c) m
    simp only [resume]
    cases ho : resumeLock s c m with
    | ret r t =>
      rw [ho] at hlock
      exact hlock
    | swap t =>
      rw [ho] at hlock
      exact hlock
    | abort => trivial
  | condWait v m => exact relock_quiet (by simp) (.refl s)
  | timedWait v m =>
    simp only [resume, resumeTimedWait]
    refine relock_quiet (by simp) ?_
    split
    · exact (Quiet.refl s).heap _
    · exact .refl s
  | send h | recv h => exact .refl s
  | waitIo x => exact absurd rfl (hf x)
  | waitAsync x => exact resumeAsync_quiet x e.again
  | drainAsync x => exact .refl s

/-! ## The invariant -/

/-- Every coroutine inside `co_wait_io`, also one that was woken and not resumed
yet, owns the registration of its descriptor. -/
def Owned (s : St) : Prop :=
  ∀ c x, (s.co c).frame = .waitIo x →
    s.epoll x.fd = some ⟨x.events.read, x.events.write, (c, (s.co c).call)⟩

/-- And the running coroutine is in its own code. -/
structure Registered (s : St) : Prop where
  own : Owned s
  current : ∀ c, s.ctl = .running c → ∀ x, (s.co c).frame ≠ .waitIo x

theorem Quiet.registered (hq : Quiet s t) (h : Registered s) : Registered t := by
  refine ⟨fun c x hx => ?_, fun c hc x hx => ?_⟩
  · obtain ⟨hf, hcall⟩ := hq.waiters c x hx
    rw [hq.epoll, hcall]
    exact h.own c x hf
  · exact h.current c (hq.ctl ▸ hc) x (hq.waiters c x hx).1

theorem Registered.setIocp (h : Registered s) (p : Iocp) : Registered { s with iocp := p } :=
  ⟨h.own, h.current⟩

/-- Control leaves the coroutines. -/
theorem Owned.setCtl (h : Owned s) (hco : t.co = s.co) (he : t.epoll = s.epoll)
    (hctl : ∀ c, t.ctl ≠ .running c) : Registered t := by
  refine ⟨fun c x hx => ?_, fun c hc => absurd hc (hctl c)⟩
  rw [hco] at hx
  rw [he, hco]
  exact h c x hx

/-- A coroutine that switches away may have become a waiter. -/
def Outcome.Registered : Outcome → Prop
  | .ret _ t => Libco.Registered t
  | .swap t => Owned t
  | .abort => True

theorem Outcome.Ends.registered {o : Outcome} (ho : o.Ends (Quiet s)) (h : Libco.Registered s) :
    o.Registered := by
  cases o with
  | ret r t => exact Quiet.registered ho h
  | swap t => exact (Quiet.registered ho h).own
  | abort => trivial

theorem Outcome.Registered.settle {o : Outcome} {k : Nat} (h : Owned s) (ho : o.Registered) :
    Libco.Registered (settle s k o) := by
  cases o with
  | ret r t => exact ((Quiet.refl t).emit _).registered ho
  | swap t => exact Owned.setCtl ho rfl rfl (by simp [Libco.settle])
  | abort => exact h.setCtl rfl rfl (by simp [Libco.settle])

theorem Registered.beginCall (h : Registered s) (op : Op) : Registered (beginCall s op) := by
  unfold Libco.beginCall
  cases hc : s.coCurrent with
  | none => exact ⟨h.own, h.current⟩
  | some c =>
    have hctl := coCurrent_ctl hc
    refine ⟨fun d x hx => ?_, fun d hd x hx => ?_⟩
    · by_cases hdc : d = c
      · subst hdc
        exact absurd (by simpa [St.modify, St.emit] using hx) (h.current d hctl x)
      · simp only [St.modify, St.emit, Function.update_of_ne hdc] at hx ⊢
        exact h.own d x hx
    · by_cases hdc : d = c
      · subst hdc
        exact h.current d hctl x (by simpa [St.modify, St.emit] using hx)
      · simp only [St.modify, St.emit, Function.update_of_ne hdc] at hx
        exact h.current d hd x hx

/-- The call adds a registration: it enters `co_wait_io`, its deadline if any can be
armed, and `epoll_ctl` accepts. -/
def IoArgs.registers (s : St) (a : IoArgs) : Bool :=
  s.coCurrent.isSome && a.waits && (a.timeoutMs < 0 || arms s a.timeoutMs a.reallocOk) && a.ctlOk

/-- No registration is replaced: the descriptor is free, so that `co_iomux_add` does
not turn into `EPOLL_CTL_MOD`. -/
def unshared (s : St) : Act → Bool
  | .call (.io a) => !a.registers s || (s.epoll a.fd).isNone
  | _ => true

/-- A wait on a descriptor without registration registers its caller. -/
theorem coWaitIo_registered {x : IoArgs} (h : Registered s)
    (hfree : s.coCurrent.isSome = true →
      (decide (x.timeoutMs < 0) || arms s x.timeoutMs x.reallocOk) = true → x.ctlOk = true →
      s.epoll x.fd = none) : (coWaitIo s x).Registered := by
  unfold coWaitIo
  cases hc : s.coCurrent with
  | none => exact h
  | some c =>
    rw [hc] at hfree
    dsimp only
    cases harm : armTimer s c x.timeoutMs x.now x.reallocOk with
    | mk d t =>
      have ht : Registered t := (armTimer_quiet harm).registered h
      cases d with
      | none => exact ht
      | some d =>
        dsimp only
        cases hok : x.ctlOk with
        | false =>
          rw [coIomuxAdd_fail]
          exact ((Quiet.refl t).modify ⟨rfl, rfl⟩).registered ht
        | true =>
          rw [coIomuxAdd_ok]
          have hnone : t.epoll x.fd = none := by
            rw [(armTimer_quiet harm).epoll]
            exact hfree rfl (armTimer_room harm) hok
          intro d y hy
          by_cases hdc : d = c
          · subst hdc
            simp only [St.modify, Function.update_self, Frame.waitIo.injEq] at hy ⊢
            subst hy
            simp
          · simp only [St.modify, Function.update_of_ne hdc] at hy ⊢
            have hown := ht.own d y hy
            have hne : y.fd ≠ x.fd := by
              intro he
              rw [he, hnone] at hown
              cases hown
            rw [Function.update_of_ne hne]
            exact hown

theorem coIo_registered {x : IoArgs} (h : Registered s) (hu : unshared s (.call (.io x)) = true) :
    (coIo s x).Registered := by
  obtain ⟨r, hr⟩ | ⟨hwaits, f, hr⟩ := coIo_cases s x
  · rw [hr]
    exact h
  rw [hr]
  have hreg := coWaitIo_registered (x := x) h (fun hc hroom hok => by
    simpa [unshared, IoArgs.registers, hc, hwaits, hroom, hok] using hu)
  cases hw : coWaitIo s x with
  | ret r t =>
    rw [hw] at hreg
    exact hreg
  | swap t =>
    rw [hw] at hreg
    exact hreg
  | abort => trivial

theorem unshared_beginCall {op : Op} (hu : unshared s (.call op) = true) :
    unshared (beginCall s op) (.call op) = true := by
  have harms : ∀ t ok, arms (beginCall s op) t ok = arms s t ok := by
    intro t ok
    simp only [arms, (beginCall_kernel s op).1]
  cases op <;> try rfl
  rename_i x
  simpa only [unshared, IoArgs.registers, beginCall_coCurrent, harms, (beginCall_kernel s _).2.2]
    using hu

theorem runOp_registered {k : Nat} {op : Op} (h : Registered s)
    (hu : unshared s (.call op) = true) : (runOp s k op).Registered := by
  by_cases hio : (Act.call op).isIo = false
  · exact (runOp_quiet hio).registered h
  cases op <;> simp [Act.isIo] at hio
  · exact coIo_registered h hu
  · rename_i x
    have hq := coIoAsync_quiet (s := s) (a := x)
    simp only [runOp]
    cases ho : coIoAsync s x with
    | ret r t =>
      rw [ho] at hq
      exact Quiet.registered hq (h.setIocp _)
    | swap t =>
      rw [ho] at hq
      exact (Quiet.registered hq (h.setIocp _)).own
    | abort => trivial

/-! ## The scheduler -/

theorem resumeWaitIo_quiet (x : IoWaitCtx) :
    Quiet (coIomuxDel s x.fd) (resumeWaitIo s c x).2 := by
  unfold resumeWaitIo
  dsimp only
  split
  · exact .refl _
  split
  · exact .refl _
  split
  · exact Quiet.heap (Quiet.modify (Quiet.refl _) ⟨rfl, rfl⟩) _
  · exact .refl _

theorem resumeIo_eq (s : St) (c : Nat) (x : IoWaitCtx) (again : SysRes) :
    ∃ r, resumeIo s c x again = .ret r (resumeWaitIo s c x).2 := by
  unfold resumeIo
  rcases resumeWaitIo s c x with ⟨e, t⟩
  cases e <;> exact ⟨_, rfl⟩

/-- The coroutine switched to owned its registration alone, and deletes it. -/
theorem resumeIo_registered {x : IoWaitCtx} {again : SysRes} (h : Registered s)
    (hno : ∀ d y, (s.co d).frame = .waitIo y → y.fd ≠ x.fd) :
    (resumeIo s c x again).Registered := by
  have hdel : Registered (coIomuxDel s x.fd) := by
    unfold coIomuxDel
    split
    · exact h
    · refine ⟨fun d y hy => ?_, h.current⟩
      exact (Function.update_of_ne (hno d y hy) _ _).trans (h.own d y hy)
  obtain ⟨r, hr⟩ := resumeIo_eq s c x again
  rw [hr]
  exact (resumeWaitIo_quiet x).registered hdel

theorem Registered.switchTo (h : Owned s) (hco : t.co = s.co) (he : t.epoll = s.epoll) :
    Registered (switchTo t c) := by
  have hne : ∀ d y, ((Libco.switchTo t c).co d).frame = .waitIo y →
      d ≠ c ∧ (Libco.switchTo t c).co d = s.co d := by
    intro d y hy
    by_cases hdc : d = c
    · simp [Libco.switchTo, St.modify, St.emit, hdc] at hy
    · simp [Libco.switchTo, St.modify, St.emit, hdc, hco]
  refine ⟨fun d y hy => ?_, fun d hd y hy => ?_⟩
  · obtain ⟨-, hd⟩ := hne d y hy
    rw [hd] at hy ⊢
    exact (congrFun he y.fd).trans (h d y hy)
  · have : c = d := by simpa [Libco.switchTo, St.emit] using hd
    exact (hne d y hy).1 this.symm

/-- Two owners of one registration are the same coroutine. -/
theorem Registered.owner_eq {d : Nat} {x y : IoWaitCtx} (h : Registered s)
    (hx : (s.co c).frame = .waitIo x) (hy : (s.co d).frame = .waitIo y) (hfd : y.fd = x.fd) :
    d = c := by
  have hown := h.own d y hy
  rw [hfd, h.own c x hx] at hown
  simp only [Option.some.injEq, Registration.mk.injEq, Prod.mk.injEq] at hown
  exact hown.2.2.1.symm

theorem coSchedulerSchedule_registered {e : ResumeEnv} (h : Registered s) :
    Registered (coSchedulerSchedule s e) := by
  obtain ⟨-, he⟩ | ⟨c, rest, -, hcase⟩ := schedule_cases s e
  · rw [he]
    exact h.own.setCtl rfl rfl (by simp)
  have hsw : Registered
      (switchTo { s with queues := Function.update s.queues .ready rest } c) :=
    .switchTo h.own rfl rfl
  obtain ⟨-, he⟩ | ⟨-, he⟩ := hcase
  · rw [he]
    exact hsw
  rw [he]
  refine Outcome.Registered.settle h.own ?_
  by_cases hf : ∃ x, (s.co c).frame = .waitIo x
  · obtain ⟨x, hx⟩ := hf
    rw [hx]
    refine resumeIo_registered hsw fun d y hy hfd => ?_
    by_cases hdc : d = c
    · simp [switchTo, St.modify, St.emit, hdc] at hy
    · have hd : (s.co d).frame = .waitIo y := by
        simpa [switchTo, St.modify, St.emit, hdc] using hy
      exact hdc (h.owner_eq hx hd hfd)
  · exact (resume_quiet fun x hx => hf ⟨x, hx⟩).registered hsw

theorem expireTop_quiet : Quiet s (expireTop s c) := by
  have hpop : Quiet s { s with timerHeap := (coTimerHeapPop s.key s.timerHeap).2 } :=
    (Quiet.refl s).heap _
  unfold expireTop
  dsimp only
  split
  · exact hpop
  · refine Quiet.enqueue ?_
    split
    · exact Quiet.emit (Quiet.modify (hpop.remove _) ⟨rfl, rfl⟩) _
    · split
      · exact Quiet.same (Quiet.modify (f := fun r =>
          { r with ioWaiting := false, timedOut := true }) hpop ⟨rfl, rfl⟩) rfl rfl rfl rfl
      · exact hpop

theorem timerLoop_registered (now n : Nat) (h : Registered s) :
    Registered (timerLoop now n s) := by
  induction n generalizing s with
  | zero => exact h
  | succ n ih =>
    simp only [timerLoop]
    split
    · exact h
    split
    · exact h.own.setCtl rfl rfl (by simp)
    split
    · exact h
    · exact ih (expireTop_quiet.registered h)

theorem Quiet.wakeIo (h : Quiet s t) : Quiet s (wakeIo t c) := by
  unfold Libco.wakeIo
  split
  · refine Quiet.emit (Quiet.push ?_ _) _
    exact Quiet.same (Quiet.modify (c := c) (f := fun r =>
      { r with state := .ready, ioWaiting := false }) h ⟨rfl, rfl⟩) rfl rfl rfl rfl
  · exact h

theorem pollEvent_registered (ev : Int × EpollEvents) (h : Registered s) :
    Registered (pollEvent s ev) := by
  unfold pollEvent
  split
  · exact h
  rename_i reg _
  split
  · rename_i x hx
    refine Quiet.registered (Quiet.refl _).wakeIo ⟨fun d y hy => ?_, fun d hd y hy => ?_⟩
    · by_cases hdc : d = reg.ptr.1
      · rw [hdc] at hy ⊢
        simp only [St.modify, Function.update_self, Frame.waitIo.injEq] at hy ⊢
        subst hy
        exact h.own _ x hx
      · simp only [St.modify, Function.update_of_ne hdc] at hy ⊢
        exact h.own d y hy
    · by_cases hdc : d = reg.ptr.1
      · exact h.current d hd x (hdc ▸ hx)
      · simp only [St.modify, Function.update_of_ne hdc] at hy
        exact h.current d hd y hy
  · exact h

theorem pollPacket_registered (p : Packet) (h : Registered s) : Registered (pollPacket s p) := by
  unfold pollPacket
  dsimp only
  have h' := h.setIocp { s.iocp with inFlight := s.iocp.inFlight.erase p.ptr }
  split
  · exact (Quiet.wakeIo (Quiet.reframe (Quiet.refl _) (by simp))).registered h'
  · exact (Quiet.wakeIo (Quiet.reframe (Quiet.refl _) (by simp))).registered h'
  · exact h'

theorem PollResult.apply_registered (p : PollResult) (h : Registered s) :
    Registered (p.apply s) := by
  cases p with
  | none => exact h
  | events evs =>
    show Registered (evs.foldl pollEvent s)
    induction evs generalizing s with
    | nil => exact h
    | cons ev evs ih => exact ih (pollEvent_registered ev h)
  | packets ps =>
    show Registered (ps.foldl pollPacket s)
    induction ps generalizing s with
    | nil => exact h
    | cons p ps ih => exact ih (pollPacket_registered p h)

theorem coSpawn_quiet (e : SpawnEnv) : Quiet s (coSpawn s e).2 := by
  unfold coSpawn
  split
  · dsimp only
    split
    · exact quiet_of_co rfl rfl rfl rfl
    · rename_i b p _
      split
      · have hnew : Quiet s ({ s with pool := p, nextId := s.nextId + 1 }.modify s.nextId fun _ =>
            { Routine.zero with
              stackBase := some b
              stackSize := if e.stackSize = 0 then s.defaultStackSize else e.stackSize
              frame := .entry }) :=
          Quiet.reframe (quiet_of_co rfl rfl rfl rfl) (by simp)
        exact Quiet.enqueue (hnew.same rfl rfl rfl rfl)
      · exact quiet_of_co rfl rfl rfl rfl
  · exact .refl s

theorem Registered.step (h : Registered s) (hu : unshared s a = true)
    (hs : step s a = some s') : Registered s' := by
  cases a with
  | run =>
    obtain ⟨-, rfl⟩ := step_run hs
    exact h.own.setCtl rfl rfl (by simp)
  | timers now =>
    have ht := timerLoop_registered now s.timerHeap.entries.length
      (((Quiet.refl s).emit (.tick now)).registered h)
    obtain ⟨-, ⟨-, rfl⟩ | ⟨-, t, rfl, rfl | ⟨-, rfl⟩⟩⟩ := step_timers hs
    · exact h.own.setCtl rfl rfl (by simp [St.emit])
    · refine ht.own.setCtl rfl rfl fun c => ?_
      dsimp only
      split <;> simp
    · exact ht
  | idle p =>
    obtain ⟨n, t, -, -, ht, hend⟩ := step_poll hs
    have hr : Registered t := by
      rw [ht]
      split
      · exact p.apply_registered (((Quiet.refl s).emit _).registered h)
      · exact h
    rcases hend with rfl | rfl
    · exact hr.own.setCtl rfl rfl (by simp [St.emit])
    · exact hr.own.setCtl rfl rfl (by simp)
  | schedule e =>
    obtain ⟨-, rfl⟩ := step_schedule hs
    exact coSchedulerSchedule_registered h
  | spawn e =>
    obtain ⟨-, rfl⟩ := step_spawn hs
    exact ((coSpawn_quiet e).emit _).registered h
  | call op =>
    obtain ⟨-, rfl⟩ := step_call hs
    exact Outcome.Registered.settle h.own
      (runOp_registered (h.beginCall op) (unshared_beginCall hu))
  | finish =>
    obtain ⟨c, -, rfl⟩ := step_finish hs
    have hq : Quiet s (coRoutineDestroy (coRoutineFinish s c) c) := by
      have hfin : Quiet s (coRoutineFinish s c) :=
        Quiet.same (Quiet.modify (f := fun r => { r with state := .dead }) (Quiet.refl s)
          ⟨rfl, rfl⟩) rfl rfl rfl rfl
      unfold coRoutineDestroy
      refine Quiet.reframe ?_ (by simp)
      split
      · exact hfin.same rfl rfl rfl rfl
      · exact hfin
    exact (hq.registered h).own.setCtl rfl rfl (by simp [St.emit])

/-! ## Runs -/

/-- States of the runs in which no registration is replaced. -/
def Unshared (cfg : Config) : St → Prop := Reach step (fun s a => unshared s a = true) (init cfg)

theorem Unshared.registered {cfg : Config} (h : Unshared cfg s) : Registered s := by
  refine h.invariant ⟨fun c x hx => ?_, fun c hc => ?_⟩ fun _ _ _ hr hu hs => hr.step hu hs
  · cases hx
  · cases hc

/-- Every coroutine suspended in `co_wait_io` has a registration of its descriptor
with its own wait context and the events it asked for. -/
def NoOrphans (s : St) : Prop :=
  ∀ c x, (s.co c).frame = .waitIo x → (s.co c).state = .waiting →
    ∃ reg, s.epoll x.fd = some reg ∧ reg.ptr = (c, (s.co c).call) ∧
      (x.events.read = true → reg.epollin = true) ∧
      (x.events.write = true → reg.epollout = true)

/-- **No I/O waiter is orphaned.** -/
theorem no_orphaned_waiter {cfg : Config} (h : Unshared cfg s) : NoOrphans s :=
  fun c x hx _ => ⟨_, h.registered.own c x hx, rfl, id, id⟩

/-- A reader and a writer on two descriptors; the reader's event arrives. -/
def twoDescriptorsRun : List Act :=
  [spawnOk, spawnOk, .run] ++ turn ++ [readWait 5 10 0] ++ turn ++ [readWait 6 (-1) 0] ++
    pollReadable 5 ++ turn

theorem no_orphaned_waiter_two :
    ∃ s, runGuarded step unshared (init (byteConfig 0)) twoDescriptorsRun = some s ∧
      ioWaiters s = 1 ∧ (s.epoll 5).isNone = true ∧ (s.epoll 6).isSome = true ∧ NoOrphans s := by
  have hrun : (runGuarded step unshared (init (byteConfig 0)) twoDescriptorsRun).map
      (fun s => (ioWaiters s, (s.epoll 5).isNone, (s.epoll 6).isSome)) =
        some (1, true, true) := by
    decide +kernel
  obtain ⟨s, hs, he⟩ := Option.map_eq_some_iff.mp hrun
  simp only [Prod.mk.injEq] at he
  exact ⟨s, hs, he.1, he.2.1, he.2.2, no_orphaned_waiter (reach_of_runGuarded hs)⟩

/-- `co_write` on a descriptor whose buffer is full. -/
def writeWait (fd timeoutMs : Int) (now : Nat) : Act :=
  .call (.io ⟨.write, fd, true, timeoutMs, .fail .eagain, now, true, true⟩)

/-- A reader and a writer on one descriptor. -/
def fullDuplexRun : List Act :=
  [spawnOk, spawnOk, .run] ++ turn ++ [readWait 5 (-1) 0] ++ turn ++ [writeWait 5 (-1) 0]

/-- The writer replaced the reader's registration. -/
theorem reader_orphaned :
    ∃ s x, runActs step (init (byteConfig 0)) fullDuplexRun = some s ∧
      (s.co 1).frame = .waitIo x ∧ (s.co 1).state = .waiting ∧
      s.epoll x.fd = some ⟨false, true, (2, 1)⟩ ∧ ¬ NoOrphans s := by
  let x : IoWaitCtx := ⟨.read, 5, ⟨true, false, false⟩, noEvents, -1⟩
  have hrun : (runActs step (init (byteConfig 0)) fullDuplexRun).map
      (fun s => ((s.co 1).frame, (s.co 1).state, s.epoll 5)) =
        some (.waitIo x, .waiting, some ⟨false, true, (2, 1)⟩) := by
    decide +kernel
  obtain ⟨s, hs, he⟩ := Option.map_eq_some_iff.mp hrun
  simp only [Prod.mk.injEq] at he
  refine ⟨s, x, hs, he.1, he.2.1, he.2.2, fun h => ?_⟩
  obtain ⟨reg, hreg, hptr, -⟩ := h 1 x he.1 he.2.1
  rw [show s.epoll x.fd = _ from he.2.2, Option.some.injEq] at hreg
  subst hreg
  simp at hptr

end Libco
