import Libco.Records
import Libco.TimerHeap

/-!
# Timers that waits have left behind

An I/O wait that ends by an error event, or whose registration is refused, leaves
its entry in the timer heap. Everything else the library does depends on the heap
only through the outcome of a push, so the machine can be followed with another
heap, from which such entries are missing: `Loose s` says that every coroutine
of `s` would be in its place with some other heap. It is kept by every step of
the epoll backend, whatever waits leave behind, as long as the timer loop meets no
entry of a coroutine that is freed, or blocked in a wait without deadline.

An entry left behind outlives its coroutine. A sift that passes it reads the
`wakeup_time` of freed memory, which is taken to be the old value here; only the entry
at the top, whose coroutine the timer loop would go on to use, aborts.
-/

namespace Libco
open Lib

variable {run : Prop} {cur : Option Nat} {s s' s₀ : St} {a : Act} {c : Nat} {h h' : TimerHeap}

/-! ## Another heap -/

def St.withHeap (s : St) (h : TimerHeap) : St := { s with timerHeap := h }

def Outcome.withHeap (h : TimerHeap) : Outcome → Outcome
  | .ret r s => .ret r (s.withHeap h)
  | .swap s => .swap (s.withHeap h)
  | .abort => .abort

section

variable (s h)

@[simp] theorem withHeap_ctl : (s.withHeap h).ctl = s.ctl := rfl
@[simp] theorem withHeap_co : (s.withHeap h).co = s.co := rfl
@[simp] theorem withHeap_queues : (s.withHeap h).queues = s.queues := rfl
@[simp] theorem withHeap_timerHeap : (s.withHeap h).timerHeap = h := rfl
@[simp] theorem withHeap_key : (s.withHeap h).key = s.key := rfl
@[simp] theorem withHeap_mutexes : (s.withHeap h).mutexes = s.mutexes := rfl
@[simp] theorem withHeap_chans : (s.withHeap h).chans = s.chans := rfl
@[simp] theorem withHeap_epoll : (s.withHeap h).epoll = s.epoll := rfl
@[simp] theorem withHeap_pool : (s.withHeap h).pool = s.pool := rfl
@[simp] theorem withHeap_calls : (s.withHeap h).calls = s.calls := rfl
@[simp] theorem withHeap_coCurrent : (s.withHeap h).coCurrent = s.coCurrent := rfl

@[simp] theorem withHeap_emit (e : Event) : (s.withHeap h).emit e = (s.emit e).withHeap h := rfl
@[simp] theorem withHeap_modify (c : Nat) (f : Routine → Routine) :
    (s.withHeap h).modify c f = (s.modify c f).withHeap h := rfl

@[simp] theorem withHeap_setChan (q : Nat) (x : Channel) :
    (s.withHeap h).setChan q x = (s.setChan q x).withHeap h := rfl
@[simp] theorem withHeap_pushBack (q : QueueRef) (c : Nat) :
    coQueuePushBack (s.withHeap h) q c = (coQueuePushBack s q c).withHeap h := rfl

theorem coQueuePopFront_withHeap (q : QueueRef) :
    coQueuePopFront (s.withHeap h) q =
      ((coQueuePopFront s q).1, (coQueuePopFront s q).2.withHeap h) := by
  simp only [coQueuePopFront, withHeap_queues]
  cases s.queues q <;> rfl

theorem coMutexLock_withHeap (m : Nat) :
    coMutexLock (s.withHeap h) m = (coMutexLock s m).withHeap h := by
  unfold coMutexLock
  cases hc : s.coCurrent <;> cases hl : (s.mutexes m).locked <;> simp [hc, hl] <;> rfl

theorem coMutexTrylock_withHeap (m : Nat) :
    coMutexTrylock (s.withHeap h) m = (coMutexTrylock s m).withHeap h := by
  unfold coMutexTrylock
  cases hl : (s.mutexes m).locked <;> simp [hl] <;> rfl

theorem coMutexUnlock_withHeap (m : Nat) :
    coMutexUnlock (s.withHeap h) m = (coMutexUnlock s m).map (·.withHeap h) := by
  unfold coMutexUnlock
  cases hl : (s.mutexes m).locked with
  | false => simp [hl]
  | true =>
    simp only [withHeap_mutexes, hl, if_true, withHeap_coCurrent, withHeap_emit,
      coQueuePopFront_withHeap]
    rcases coQueuePopFront (s.emit (.release m s.coCurrent)) (.mutex m) with ⟨d, t⟩
    cases d <;> rfl

theorem drainQueue_withHeap {wake : St → Nat → St} (q : QueueRef)
    (hw : ∀ t c, wake (t.withHeap h) c = (wake t c).withHeap h) (n : Nat) :
    drainQueue wake q n (s.withHeap h) = (drainQueue wake q n s).withHeap h := by
  induction n generalizing s with
  | zero => rfl
  | succ n ih =>
    simp only [drainQueue, coQueuePopFront_withHeap]
    rcases coQueuePopFront s q with ⟨d, t⟩
    cases d with
    | none => rfl
    | some c =>
      simp only [hw]
      exact ih _

theorem coCondWait_withHeap (v m : Nat) :
    coCondWait (s.withHeap h) v m = (coCondWait s v m).withHeap h := by
  unfold coCondWait
  cases hc : s.coCurrent with
  | none => simp [hc, Outcome.withHeap]
  | some c =>
    simp only [withHeap_coCurrent, hc, withHeap_modify, withHeap_pushBack, withHeap_co,
      withHeap_emit, coMutexUnlock_withHeap]
    generalize coMutexUnlock _ m = o
    cases o <;> rfl

theorem relock_withHeap {r : St → Ret} (hr : ∀ t, r (t.withHeap h) = r t) (c m : Nat) (f : Frame) :
    relock (s.withHeap h) c m f r = (relock s c m f r).withHeap h := by
  simp only [relock, coMutexLock_withHeap]
  cases coMutexLock s m with
  | ret e t => simp [Outcome.withHeap, hr]
  | swap t => rfl
  | abort => rfl

theorem coCondSignal_withHeap (v : Nat) :
    coCondSignal (s.withHeap h) v = (coCondSignal s v).withHeap h := by
  simp only [coCondSignal, coQueuePopFront_withHeap]
  rcases coQueuePopFront s (.cond v) with ⟨d, t⟩
  cases d <;> rfl

theorem coCondBroadcast_withHeap (v : Nat) :
    coCondBroadcast (s.withHeap h) v = (coCondBroadcast s v).withHeap h := by
  have hw : ∀ (t : St) (c : Nat), wakeWaiter (t.withHeap h) c = (wakeWaiter t c).withHeap h :=
    fun _ _ => rfl
  exact drainQueue_withHeap (s.emit (.broadcast v ((s.queues (.cond v)).map fun c => (s.co c).call)))
    h (.cond v) hw _

theorem placeElement_withHeap (q k : Nat) (data : Bytes) :
    placeElement (s.withHeap h) q k data = (placeElement s q k data).map (·.withHeap h) := by
  simp only [placeElement, coQueuePopFront_withHeap]
  rcases coQueuePopFront s (.recv q) with ⟨d, t⟩
  cases d with
  | none =>
    by_cases hr : (s.chans q).count < (s.chans q).capacity
    · simp only [withHeap_chans, hr, if_true]
      rfl
    · simp [hr]
  | some c => rfl

theorem takeElement_withHeap (q k : Nat) :
    takeElement (s.withHeap h) q k = (takeElement s q k).map (·.withHeap h) := by
  by_cases hr : 0 < (s.chans q).count
  · simp only [takeElement, withHeap_chans, hr, if_true, withHeap_emit, coQueuePopFront_withHeap]
    generalize coQueuePopFront _ (QueueRef.send q) = p
    obtain ⟨d, t⟩ := p
    cases d <;> rfl
  · simp only [takeElement, withHeap_chans, hr, if_false, coQueuePopFront_withHeap]
    rcases coQueuePopFront s (.send q) with ⟨d, t⟩
    cases d <;> rfl

theorem coChannelSend_withHeap (q k : Nat) (data : Bytes) :
    coChannelSend (s.withHeap h) q k data = (coChannelSend s q k data).withHeap h := by
  simp only [coChannelSend, placeElement_withHeap]
  cases hcl : (s.chans q).closed with
  | true => simp [hcl, Outcome.withHeap]
  | false =>
    simp only [withHeap_chans, hcl, Bool.false_eq_true, if_false]
    cases placeElement s q k data with
    | some t => rfl
    | none =>
      simp only [Option.map_none, withHeap_coCurrent]
      cases s.coCurrent <;> rfl

theorem coChannelTrysend_withHeap (q k : Nat) (data : Bytes) :
    coChannelTrysend (s.withHeap h) q k data = (coChannelTrysend s q k data).withHeap h := by
  simp only [coChannelTrysend, placeElement_withHeap]
  cases hcl : (s.chans q).closed with
  | true => simp [hcl, Outcome.withHeap]
  | false =>
    simp only [withHeap_chans, hcl, Bool.false_eq_true, if_false]
    cases placeElement s q k data <;> rfl

theorem coChannelRecv_withHeap (q k : Nat) :
    coChannelRecv (s.withHeap h) q k = (coChannelRecv s q k).withHeap h := by
  simp only [coChannelRecv, takeElement_withHeap]
  cases takeElement s q k with
  | some t => rfl
  | none =>
    cases hcl : (s.chans q).closed <;> cases hc : s.coCurrent <;> simp [hcl, hc] <;> rfl

theorem coChannelTryrecv_withHeap (q k : Nat) :
    coChannelTryrecv (s.withHeap h) q k = (coChannelTryrecv s q k).withHeap h := by
  simp only [coChannelTryrecv, takeElement_withHeap]
  cases takeElement s q k with
  | some t => rfl
  | none => cases hcl : (s.chans q).closed <;> simp [hcl] <;> rfl

theorem coChannelClose_withHeap (q : Nat) :
    coChannelClose (s.withHeap h) q = (coChannelClose s q).withHeap h := by
  have hw : ∀ (t : St) (c : Nat), wakeRoutine (t.withHeap h) c = (wakeRoutine t c).withHeap h :=
    fun _ _ => rfl
  unfold coChannelClose
  cases hcl : (s.chans q).closed with
  | true => simp [hcl, Outcome.withHeap]
  | false =>
    simp only [withHeap_chans, withHeap_co, withHeap_queues, hcl, Bool.false_eq_true, if_false,
      withHeap_setChan, withHeap_emit, drainQueue_withHeap _ h _ hw]
    rfl

end

/-! ## Pushes that come out alike -/

/-- The other heap is given the room it needs for the push to come out alike. -/
theorem push_alike (key : Nat → Nat) (h : TimerHeap) (es : List Nat) (c : Nat) (ok : Bool) :
    ∃ cap, (coTimerHeapPush key h c ok = none ∧ coTimerHeapPush key ⟨es, cap⟩ c ok = none) ∨
      ∃ x y, coTimerHeapPush key h c ok = some x ∧ coTimerHeapPush key ⟨es, cap⟩ c ok = some y := by
  cases hp : coTimerHeapPush key h c ok with
  | none =>
    obtain ⟨rfl, -⟩ := coTimerHeapPush_none hp
    exact ⟨es.length, .inl ⟨rfl, by simp [coTimerHeapPush]⟩⟩
  | some x =>
    exact ⟨es.length + 1, .inr ⟨x, ⟨heapSiftUp key (es ++ [c]) es.length (by simp), es.length + 1⟩,
      rfl, if_neg (by simp)⟩⟩

variable (s)

theorem coSleep_withHeap (es : List Nat) (msec now : Nat) (ok : Bool) :
    ∃ cap h', coSleep (s.withHeap ⟨es, cap⟩) msec now ok = (coSleep s msec now ok).withHeap h' := by
  unfold coSleep
  by_cases hz : msec = 0
  · refine ⟨0, ⟨es, 0⟩, ?_⟩
    simp only [hz, if_true, coYieldNow, withHeap_coCurrent]
    cases s.coCurrent <;> rfl
  simp only [hz, if_false, withHeap_coCurrent]
  cases s.coCurrent with
  | none => exact ⟨0, ⟨es, 0⟩, rfl⟩
  | some c =>
    simp only [withHeap_modify, withHeap_key, withHeap_timerHeap]
    generalize s.modify c (fun r =>
      { r with wakeupTime := (now + msec) % 2 ^ 64, state := .waiting }) = t
    obtain ⟨cap, ⟨h1, h2⟩ | ⟨x, y, h1, h2⟩⟩ := push_alike t.key t.timerHeap es c ok
    · exact ⟨cap, ⟨es, cap⟩, by rw [h1, h2]; rfl⟩
    · exact ⟨cap, y, by rw [h1, h2]; rfl⟩

/-- The end of both waits on a condition variable. -/
theorem unlock_swap_withHeap (u : St) (y : TimerHeap) (m : Nat) :
    (match coMutexUnlock (u.withHeap y) m with
      | none => Outcome.abort
      | some s => .swap s) =
    Outcome.withHeap y (match coMutexUnlock u m with
      | none => Outcome.abort
      | some s => .swap s) := by
  rw [coMutexUnlock_withHeap]
  cases coMutexUnlock u m <;> rfl

theorem coCondTimedwait_withHeap (es : List Nat) (v m timeoutMs now : Nat) (ok : Bool) :
    ∃ cap h', coCondTimedwait (s.withHeap ⟨es, cap⟩) v m timeoutMs now ok =
      (coCondTimedwait s v m timeoutMs now ok).withHeap h' := by
  unfold coCondTimedwait
  by_cases hz : timeoutMs = 0
  · exact ⟨0, ⟨es, 0⟩, by simp [hz, Outcome.withHeap]⟩
  simp only [hz, if_false, withHeap_coCurrent]
  cases s.coCurrent with
  | none => exact ⟨0, ⟨es, 0⟩, rfl⟩
  | some c =>
    simp only [withHeap_modify, withHeap_pushBack, withHeap_key, withHeap_timerHeap]
    generalize (coQueuePushBack (s.modify c fun r =>
      { r with state := .waiting, condWaitQueue := some v, timedOut := false }) (.cond v) c).modify c
      (fun r => { r with wakeupTime := (now + timeoutMs) % 2 ^ 64 }) = t
    obtain ⟨cap, ⟨h1, h2⟩ | ⟨x, y, h1, h2⟩⟩ := push_alike t.key t.timerHeap es c ok
    · exact ⟨cap, ⟨es, cap⟩, by rw [h1, h2]; rfl⟩
    · refine ⟨cap, y, ?_⟩
      rw [h1, h2]
      let u := t.modify c fun r => { r with frame := .timedWait v m }
      exact unlock_swap_withHeap ({ u with timerHeap := x }.emit (.waits v m c (u.co c).call)) y m

theorem armTimer_withHeap (es : List Nat) (c : Nat) (timeoutMs : Int) (now : Nat) (ok : Bool) :
    ∃ cap h', armTimer (s.withHeap ⟨es, cap⟩) c timeoutMs now ok =
      ((armTimer s c timeoutMs now ok).1, (armTimer s c timeoutMs now ok).2.withHeap h') := by
  unfold armTimer
  by_cases ht : 0 ≤ timeoutMs
  · simp only [ht, if_true, withHeap_modify, withHeap_key, withHeap_timerHeap]
    generalize (s.modify c fun r => { r with timedOut := false, ioWaiting := false }).modify c
      (fun r => { r with wakeupTime := (now + timeoutMs.toNat) % 2 ^ 64, ioWaiting := true }) = t
    obtain ⟨cap, ⟨h1, h2⟩ | ⟨x, y, h1, h2⟩⟩ := push_alike t.key t.timerHeap es c ok
    · exact ⟨cap, ⟨es, cap⟩, by rw [h1, h2]⟩
    · exact ⟨cap, y, by rw [h1, h2]; rfl⟩
  · refine ⟨0, ⟨es, 0⟩, ?_⟩
    simp only [ht, if_false, withHeap_modify]

/-- A registration that succeeds. -/
theorem coWaitIo_withHeap (es : List Nat) {x : IoArgs} (hx : x.ctlOk = true) :
    ∃ cap h', coWaitIo (s.withHeap ⟨es, cap⟩) x = (coWaitIo s x).withHeap h' := by
  unfold coWaitIo
  cases hc : s.coCurrent with
  | none => exact ⟨0, ⟨es, 0⟩, by simp [hc, Outcome.withHeap]⟩
  | some c =>
    obtain ⟨cap, h', he⟩ := armTimer_withHeap s es c x.timeoutMs x.now x.reallocOk
    refine ⟨cap, h', ?_⟩
    simp only [withHeap_coCurrent, hc, he]
    rcases armTimer s c x.timeoutMs x.now x.reallocOk with ⟨d, t⟩
    cases d with
    | none => rfl
    | some d =>
      simp only [hx, coIomuxAdd_ok]
      rfl

/-- A registration that is refused: the wait fails as if the heap could not grow. -/
theorem coWaitIo_refused (es : List Nat) {x : IoArgs} (hx : x.ctlOk = false) :
    ∃ e e' t, coWaitIo s x = .ret (.code e) t ∧ failedWait e' = failedWait e ∧
      coWaitIo (s.withHeap ⟨es, es.length⟩) { x with reallocOk := false } =
        .ret (.code e') (t.withHeap ⟨es, es.length⟩) := by
  unfold coWaitIo
  cases hc : s.coCurrent with
  | none => exact ⟨.inval, .inval, s, rfl, rfl, by simp [hc]⟩
  | some c =>
    simp only [withHeap_coCurrent, hc]
    by_cases ht : 0 ≤ x.timeoutMs
    · have hfull : ∀ key, coTimerHeapPush key ⟨es, es.length⟩ c false = none := by
        simp [coTimerHeapPush]
      simp only [armTimer, ht, if_true, withHeap_modify, withHeap_key, withHeap_timerHeap, hfull]
      generalize (s.modify c fun r => { r with timedOut := false, ioWaiting := false }).modify c
        (fun r => { r with wakeupTime := (x.now + x.timeoutMs.toNat) % 2 ^ 64, ioWaiting := true }) =
        t
      cases coTimerHeapPush t.key t.timerHeap c x.reallocOk with
      | none => exact ⟨.nomem, .nomem, _, rfl, rfl, rfl⟩
      | some y =>
        simp only [hx, coIomuxAdd_fail]
        exact ⟨.platform, .nomem, _, rfl, rfl, rfl⟩
    · simp only [armTimer, ht, if_false, hx, coIomuxAdd_fail]
      exact ⟨.platform, .platform, _, rfl, rfl, rfl⟩

/-- Calls with the same arguments differ by their waits only. -/
theorem coIo_of_wait {x y : IoArgs} (hy : y.call = x.call ∧ y.fd = x.fd ∧ y.argsOk = x.argsOk ∧
      y.first = x.first)
    (hw : ∃ h', (match coWaitIo (s.withHeap h) y with
        | .ret (.code e) s => Outcome.ret (failedWait e) s
        | o => o) =
      (match coWaitIo s x with
        | .ret (.code e) s => Outcome.ret (failedWait e) s
        | o => o).withHeap h') :
    ∃ h', coIo (s.withHeap h) y = (coIo s x).withHeap h' := by
  unfold coIo
  rw [hy.1, hy.2.1, hy.2.2.1, hy.2.2.2]
  by_cases hargs : x.fd < 0 ∨ (x.call ≠ .accept ∧ !x.argsOk)
  · exact ⟨h, by rw [if_pos hargs, if_pos hargs]; rfl⟩
  rw [if_neg hargs, if_neg hargs]
  cases x.first with
  | done n => exact ⟨h, rfl⟩
  | fail e =>
    simp only
    by_cases he : e = x.call.wouldBlock
    · rw [if_pos he, if_pos he]
      exact hw
    · exact ⟨h, by rw [if_neg he, if_neg he]; rfl⟩

theorem coIo_withHeap (es : List Nat) (x : IoArgs) :
    ∃ cap h' y, coIo (s.withHeap ⟨es, cap⟩) y = (coIo s x).withHeap h' ∧ y.call = x.call ∧
      y.now = x.now ∧ y.timeoutMs = x.timeoutMs ∧
      ∀ t : St, leaks (t.withHeap ⟨es, cap⟩) (.call (.io y)) = false := by
  cases hx : x.ctlOk with
  | true =>
    obtain ⟨cap, h', hw⟩ := coWaitIo_withHeap s es hx
    obtain ⟨h'', he⟩ := coIo_of_wait s (h := ⟨es, cap⟩) (x := x) ⟨rfl, rfl, rfl, rfl⟩ ⟨h', by
      rw [hw]
      cases coWaitIo s x with
      | ret r t => cases r <;> rfl
      | swap t => rfl
      | abort => rfl⟩
    exact ⟨cap, h'', x, he, rfl, rfl, rfl, by simp [leaks, hx]⟩
  | false =>
    obtain ⟨e, e', t, h1, h2, h3⟩ := coWaitIo_refused s es hx
    obtain ⟨h'', he⟩ := coIo_of_wait s (h := ⟨es, es.length⟩) (x := x)
      (y := { x with reallocOk := false }) ⟨rfl, rfl, rfl, rfl⟩ ⟨⟨es, es.length⟩, by
        rw [h1, h3]
        simp [Outcome.withHeap, h2]⟩
    exact ⟨es.length, h'', { x with reallocOk := false }, he, rfl, rfl, rfl, by simp [leaks, arms]⟩

/-- An API call of the epoll backend comes out alike with the other heap, and leaves
nothing behind there. -/
theorem runOp_withHeap (es : List Nat) (k : Nat) {op : Op} (hop : ∀ x, op ≠ .ioAsync x) :
    ∃ cap h' op', runOp (s.withHeap ⟨es, cap⟩) k op' = (runOp s k op).withHeap h' ∧
      op'.name = op.name ∧ op'.due = op.due ∧
      ∀ t : St, leaks (t.withHeap ⟨es, cap⟩) (.call op') = false := by
  have hblind : (∀ t : St, leaks (t.withHeap ⟨es, 0⟩) (.call op) = false) →
      runOp (s.withHeap ⟨es, 0⟩) k op = (runOp s k op).withHeap ⟨es, 0⟩ →
      ∃ cap h' op', runOp (s.withHeap ⟨es, cap⟩) k op' = (runOp s k op).withHeap h' ∧
        op'.name = op.name ∧ op'.due = op.due ∧
        ∀ t : St, leaks (t.withHeap ⟨es, cap⟩) (.call op') = false :=
    fun hl he => ⟨0, ⟨es, 0⟩, op, he, rfl, rfl, hl⟩
  cases op with
  | yieldNow =>
    refine hblind (fun _ => rfl) ?_
    simp only [runOp, coYieldNow, withHeap_coCurrent]
    cases s.coCurrent <;> rfl
  | sleep msec now ok =>
    obtain ⟨cap, h', he⟩ := coSleep_withHeap s es msec now ok
    exact ⟨cap, h', .sleep msec now ok, he, rfl, rfl, fun _ => rfl⟩
  | mutexLock m => exact hblind (fun _ => rfl) (coMutexLock_withHeap s _ m)
  | mutexTrylock m => exact hblind (fun _ => rfl) (coMutexTrylock_withHeap s _ m)
  | mutexUnlock m =>
    refine hblind (fun _ => rfl) ?_
    simp only [runOp, coMutexUnlock_withHeap]
    cases coMutexUnlock s m <;> rfl
  | condWait v m => exact hblind (fun _ => rfl) (coCondWait_withHeap s _ v m)
  | condTimedwait v m t now ok =>
    obtain ⟨cap, h', he⟩ := coCondTimedwait_withHeap s es v m t now ok
    exact ⟨cap, h', .condTimedwait v m t now ok, he, rfl, rfl, fun _ => rfl⟩
  | condSignal v =>
    exact hblind (fun _ => rfl) (congrArg (Outcome.ret _) (coCondSignal_withHeap s _ v))
  | condBroadcast v =>
    exact hblind (fun _ => rfl) (congrArg (Outcome.ret _) (coCondBroadcast_withHeap s _ v))
  | channelSend q d => exact hblind (fun _ => rfl) (coChannelSend_withHeap s _ q k d)
  | channelTrysend q d => exact hblind (fun _ => rfl) (coChannelTrysend_withHeap s _ q k d)
  | channelRecv q => exact hblind (fun _ => rfl) (coChannelRecv_withHeap s _ q k)
  | channelTryrecv q => exact hblind (fun _ => rfl) (coChannelTryrecv_withHeap s _ q k)
  | channelClose q => exact hblind (fun _ => rfl) (coChannelClose_withHeap s _ q)
  | io x =>
    obtain ⟨cap, h', y, he, hcall, hnow, hto, hl⟩ := coIo_withHeap s es x
    exact ⟨cap, h', .io y, he, by simp [Op.name, hcall], by simp [Op.due, hnow, hto], hl⟩
  | ioAsync x => exact absurd rfl (hop x)

/-! ## Resumptions -/

variable {s}

theorem resumeLock_withHeap (m : Nat) :
    resumeLock (s.withHeap h) c m = (resumeLock s c m).withHeap h := by
  unfold resumeLock
  rw [withHeap_mutexes]
  split <;> rfl

theorem resumeTimedWait_withHeap (hc : c ∉ h.entries) (v m : Nat) :
    resumeTimedWait (s.withHeap h) c v m = (resumeTimedWait s c v m).withHeap h := by
  have hr : ∀ t : St, timedResult (t.withHeap h) c = timedResult t c := fun _ => rfl
  -- there is nothing to remove from the other heap
  simp only [resumeTimedWait, withHeap_co, withHeap_timerHeap, coTimerHeapRemove_absent hc]
  cases (s.co c).timedOut with
  | false =>
    exact relock_withHeap { s with timerHeap := (coTimerHeapRemove s.key s.timerHeap c).2 } h hr c m _
  | true => exact relock_withHeap s h hr c m _

theorem coIomuxDel_withHeap (fd : Int) :
    coIomuxDel (s.withHeap h) fd = (coIomuxDel s fd).withHeap h := by
  unfold coIomuxDel
  split <;> rfl

theorem resumeWaitIo_withHeap (hc : c ∉ h.entries) (x : IoWaitCtx) :
    resumeWaitIo (s.withHeap h) c x =
      ((resumeWaitIo s c x).1, (resumeWaitIo s c x).2.withHeap h) := by
  simp only [resumeWaitIo, coIomuxDel_withHeap, withHeap_co, withHeap_modify, withHeap_timerHeap,
    coTimerHeapRemove_absent hc]
  generalize coIomuxDel s x.fd = t
  cases (t.co c).timedOut <;> cases x.revents.error <;> by_cases ht : 0 ≤ x.timeoutMs <;>
    simp only [ht, if_true, if_false, Bool.false_eq_true]
  rfl

theorem resumeAsync_withHeap (hc : c ∉ h.entries) (x : AsyncCtx) (after : SysRes) :
    resumeAsync (s.withHeap h) c x after = (resumeAsync s c x after).withHeap h := by
  simp only [resumeAsync, withHeap_co, withHeap_modify, withHeap_timerHeap,
    coTimerHeapRemove_absent hc]
  cases (s.co c).timedOut <;> cases x.revents.error <;> by_cases ht : 0 ≤ x.timeoutMs <;>
    simp only [ht, if_true, if_false, Bool.false_eq_true] <;> cases x.opType <;> rfl

theorem resume_withHeap (hc : c ∉ h.entries) (e : ResumeEnv) (f : Frame) :
    resume (s.withHeap h) c e f = (resume s c e f).withHeap h := by
  cases f with
  | lock m => exact resumeLock_withHeap m
  | condWait v m => exact relock_withHeap s h (fun _ => rfl) c m _
  | condRelock v m => exact resumeLock_withHeap m
  | timedWait v m => exact resumeTimedWait_withHeap hc v m
  | timedRelock v m =>
    simp only [resume, resumeLock_withHeap]
    cases resumeLock s c m <;> rfl
  | waitIo x =>
    simp only [resume, resumeIo, resumeWaitIo_withHeap hc]
    rcases resumeWaitIo s c x with ⟨e, t⟩
    cases e <;> rfl
  | waitAsync x => exact resumeAsync_withHeap hc x _
  | _ => rfl

/-! ## Polls -/

theorem wakeIo_withHeap (s : St) (h : TimerHeap) (c : Nat) :
    wakeIo (s.withHeap h) c = (wakeIo s c).withHeap h := by
  unfold wakeIo
  rw [withHeap_co]
  split <;> rfl

theorem pollEvent_withHeap (s : St) (h : TimerHeap) (ev : Int × EpollEvents) :
    pollEvent (s.withHeap h) ev = (pollEvent s ev).withHeap h := by
  simp only [pollEvent, withHeap_epoll, withHeap_co, withHeap_modify, wakeIo_withHeap]
  cases s.epoll ev.1 with
  | none => rfl
  | some reg => cases hf : (s.co reg.ptr.1).frame <;> simp [hf]

theorem pollPacket_withHeap (s : St) (h : TimerHeap) (p : Packet) :
    pollPacket (s.withHeap h) p = (pollPacket s p).withHeap h := by
  let t : St := { s with iocp := { s.iocp with inFlight := s.iocp.inFlight.erase p.ptr } }
  have hw := fun f => wakeIo_withHeap (t.modify p.ptr.1 fun r => { r with frame := f }) h p.ptr.1
  unfold pollPacket
  cases hf : (s.co p.ptr.1).frame <;> simp only [withHeap_co, hf]
  case waitAsync x => exact hw _
  case drainAsync x => exact hw _
  all_goals rfl

theorem foldl_withHeap {β : Type} {f : St → β → St}
    (hf : ∀ s b, f (s.withHeap h) b = (f s b).withHeap h) (l : List β) (s : St) :
    l.foldl f (s.withHeap h) = (l.foldl f s).withHeap h := by
  induction l generalizing s with
  | nil => rfl
  | cons b l ih =>
    rw [List.foldl_cons, List.foldl_cons, hf]
    exact ih _

theorem PollResult.apply_withHeap (p : PollResult) (s : St) (h : TimerHeap) :
    p.apply (s.withHeap h) = (p.apply s).withHeap h := by
  cases p with
  | none => rfl
  | events evs => exact foldl_withHeap (fun t ev => pollEvent_withHeap t h ev) evs s
  | packets ps => exact foldl_withHeap (fun t p => pollPacket_withHeap t h p) ps s

/-! ## The timer loop -/

theorem expireTop_withHeap (s : St) (c : Nat) (h h' : TimerHeap) :
    { expireTop (s.withHeap h) c with timerHeap := h' } = (expireTop s c).withHeap h' := by
  unfold expireTop
  by_cases hs : (s.co c).state = .waiting
  · cases hc : (s.co c).condWaitQueue with
    | some v =>
      simp only [withHeap_co, hs, hc, ne_eq, not_true_eq_false, if_false]
      rfl
    | none =>
      by_cases hi : (s.co c).ioWaiting = true
      · simp only [withHeap_co, hs, hc, hi, ne_eq, not_true_eq_false, if_false, if_true]
        rfl
      · simp only [withHeap_co, hs, hc, hi, ne_eq, not_true_eq_false, if_false]
        rfl
  · simp only [withHeap_co, hs, ne_eq, not_false_eq_true, if_true]
    rfl

/-- **Stale entries that do no harm.** Every entry the timer loop takes off the heap
belongs to a coroutine that is not freed, and not blocked in a wait without deadline. -/
def harmless (now : Nat) : Nat → St → Bool
  | 0, _ => true
  | n + 1, s =>
    match coTimerHeapPeek s.timerHeap with
    | none => true
    | some c =>
      decide ((s.co c).frame ≠ .freed) && (decide (now < (s.co c).wakeupTime) ||
        ((decide ((s.co c).state ≠ .waiting) || (s.co c).frame.timed) &&
          harmless now n (expireTop s c)))

theorem expireTop_loose (ha : a.isTimers = true) (hi : Inv False cur (s.withHeap h).toSched)
    (hc : (s.co c).state = .waiting → (s.co c).frame.timed = true) :
    ∃ h', Moves s₀ a (cur, s.withHeap h) (cur, (expireTop s c).withHeap h') := by
  by_cases hs : (s.co c).state = .waiting
  · have hm : c ∈ h.entries := hi.mem_heap_of_waiting hs (hc hs)
    obtain ⟨hord, hperm, -⟩ := coTimerHeapRemove_spec hi.ordered c
    have hex := expireTop_expires hi hm hs hord hperm
    rw [expireTop_withHeap] at hex
    exact ⟨_, Move.moves (.expire hex ha)⟩
  · refine ⟨h, ?_⟩
    have hdrop : expireTop s c = { s with timerHeap := (coTimerHeapPop s.key s.timerHeap).2 } :=
      if_pos hs
    rw [hdrop]
    exact .refl _

theorem timerLoop_loose {now : Nat} (ha : a.isTimers = true) (n : Nat)
    (hi : Inv False cur (s.withHeap h).toSched) (hn : harmless now n s = true) :
    (∃ h', Moves s₀ a (cur, s.withHeap h) (cur, (timerLoop now n s).withHeap h')) ∧
      (timerLoop now n s).ctl = s.ctl := by
  induction n generalizing s h with
  | zero => exact ⟨⟨h, .refl _⟩, rfl⟩
  | succ n ih =>
    simp only [timerLoop]
    simp only [harmless] at hn
    cases hp : coTimerHeapPeek s.timerHeap with
    | none => exact ⟨⟨h, .refl _⟩, rfl⟩
    | some c =>
      simp only [hp, Bool.and_eq_true, Bool.or_eq_true, decide_eq_true_eq] at hn
      obtain ⟨hf, hn⟩ := hn
      simp only [hf, if_false]
      split
      · exact ⟨⟨h, .refl _⟩, rfl⟩
      · rename_i hdue
        obtain ⟨hst, hn⟩ := hn.resolve_left hdue
        obtain ⟨h₁, hm⟩ : ∃ h₁, Moves s₀ a (cur, s.withHeap h)
            (cur, (expireTop s c).withHeap h₁) :=
          expireTop_loose ha hi fun hs => hst.resolve_left fun hne => hne hs
        obtain ⟨⟨h₂, hm'⟩, hctl⟩ := ih (hm.inv (fun h => h.elim) hi) hn
        exact ⟨⟨h₂, hm.trans hm'⟩, hctl.trans (expireTop_heap_ctl s c).2⟩

/-! ## Steps -/

/-- Every coroutine would be in its place with some other timer heap. -/
def Loose (s : St) : Prop := ∃ h, Placed False (s.withHeap h)

/-- Calls of the epoll backend. -/
def Act.onEpoll : Act → Bool
  | .call (.ioAsync _) => false
  | _ => true

/-- No entry the timer phase takes off the heap does harm. -/
def harmlessAct (s : St) : Act → Bool
  | .timers now => s.shouldStop || harmless now s.timerHeap.entries.length (s.emit (.tick now))
  | _ => true

/-- The same action, or the same call with other answers of `realloc`. -/
def Act.Alike (a a' : Act) : Prop :=
  a' = a ∨ ∃ op op', a = .call op ∧ a' = .call op' ∧ op'.name = op.name ∧ op'.due = op.due

/-- With some heap the step is made of moves. -/
def Follows (s : St) (a : Act) (s' : St) : Prop :=
  ∃ h h' a', Inv False s.coCurrent (s.withHeap h).toSched ∧
    Decomposes (s.withHeap h) a' (s'.withHeap h') ∧ a.Alike a'

theorem Inv.withCapacity (hi : Inv run cur (s.withHeap h).toSched) (cap : Nat) :
    Inv run cur (s.withHeap ⟨h.entries, cap⟩).toSched :=
  ⟨hi.seated, hi.ordered, hi.ioCount, hi.active, hi.fresh, hi.user⟩

theorem follows_step {a' : Act} (hi : Inv False s.coCurrent (s.withHeap h).toSched)
    (hl : leaks (s.withHeap h) a' = false) (hs : step (s.withHeap h) a' = some (s'.withHeap h'))
    (ha : a.Alike a') : Follows s a s' :=
  ⟨h, h', a', hi, step_moves ⟨s.coCurrent, hi, fun _ => rfl⟩ hl hs, ha⟩

theorem beginCall_withHeap {op op' : Op} (hn : op'.name = op.name) :
    beginCall (s.withHeap h) op' = (beginCall s op).withHeap h := by
  simp only [beginCall, withHeap_coCurrent, withHeap_calls, hn]
  cases s.coCurrent <;> rfl

theorem settle_withHeap (h h' : TimerHeap) (s₀ : St) (k : Nat) (o : Outcome) :
    ∃ h'', settle (s₀.withHeap h) k (o.withHeap h') = (settle s₀ k o).withHeap h'' := by
  cases o with
  | ret r t => exact ⟨h', rfl⟩
  | swap t => exact ⟨h', rfl⟩
  | abort => exact ⟨h, rfl⟩

theorem follows_call {op : Op} (hi : Inv False s.coCurrent (s.withHeap h).toSched)
    (hop : ∀ x, op ≠ .ioAsync x) (hs : step s (.call op) = some s') : Follows s (.call op) s' := by
  obtain ⟨cap, h', op', hrun, hname, hdue, hl⟩ :=
    runOp_withHeap (beginCall s op) h.entries s.calls hop
  obtain ⟨huser, rfl⟩ := step_call hs
  obtain ⟨h'', hset⟩ := settle_withHeap ⟨h.entries, cap⟩ h' s s.calls
    (runOp (beginCall s op) s.calls op)
  have huser' : inUserCode (s.withHeap ⟨h.entries, cap⟩) = true := huser
  have hstep : step (s.withHeap ⟨h.entries, cap⟩) (.call op') =
      some ((settle s s.calls (runOp (beginCall s op) s.calls op)).withHeap h'') := by
    simp only [step, huser', if_true, beginCall_withHeap hname, withHeap_calls, hrun, hset]
  exact follows_step (hi.withCapacity cap) (hl s) hstep (.inr ⟨op, op', rfl, rfl, hname, hdue⟩)

theorem follows_schedule {e : ResumeEnv} (hi : Inv False s.coCurrent (s.withHeap h).toSched)
    (hs : step s (.schedule e) = some s') : Follows s (.schedule e) s' := by
  obtain ⟨hctl, rfl⟩ := step_schedule hs
  have hstep : ∀ g, step (s.withHeap g) (.schedule e) =
      some (coSchedulerSchedule (s.withHeap g) e) := by
    intro g
    simp only [step, withHeap_ctl, hctl]
  cases hq : s.queues .ready with
  | nil =>
    have hnil : coSchedulerSchedule (s.withHeap h) e = (coSchedulerSchedule s e).withHeap h := by
      rw [coSchedulerSchedule, coSchedulerSchedule, coQueuePopFront_nil hq,
        coQueuePopFront_nil (s := s.withHeap h) hq]
      rfl
    refine follows_step hi ?_ (by rw [hstep, hnil]) (.inl rfl)
    simp [leaks, hq]
  | cons c rest =>
    have hst : (s.co c).state = .ready := (hi.ready_fields hq).1
    -- the timer the coroutine may still have goes first
    obtain ⟨g, hord, hperm⟩ : ∃ g : TimerHeap, Heaped s.key g.entries ∧
        g.entries.Perm (h.entries.erase c) := by
      obtain ⟨hord, hperm, -⟩ := coTimerHeapRemove_spec hi.ordered c
      exact ⟨_, hord, hperm⟩
    obtain ⟨hhd, hhc⟩ := count_erase_le hperm
    have hle : h.entries.count c ≤ 1 := (hi.seated c).timer_le
    have hig : Inv False s.coCurrent (s.withHeap g).toSched := by
      have hdrop : g.entries.count c ≤ h.entries.count c := by omega
      exact hi.dropTimer (c := c) (by simp [hst]) rfl rfl hhd hdrop hord ⟨rfl, rfl, rfl⟩
    have hc : c ∉ g.entries := by
      rw [← List.count_eq_zero, hhc]
      omega
    have hres := resume_withHeap (s := switchTo { s with
      queues := Function.update s.queues .ready rest } c) hc e (s.co c).frame
    obtain ⟨h'', hset⟩ := settle_withHeap g g s (s.co c).call
      (resume (switchTo { s with queues := Function.update s.queues .ready rest } c) c e
        (s.co c).frame)
    have hsched : ∃ h'', coSchedulerSchedule (s.withHeap g) e =
        (coSchedulerSchedule s e).withHeap h'' := by
      rw [coSchedulerSchedule, coSchedulerSchedule, coQueuePopFront_cons hq,
        coQueuePopFront_cons (s := s.withHeap g) hq]
      simp only [withHeap_co]
      split
      · exact ⟨g, rfl⟩
      · refine ⟨h'', ?_⟩
        rw [← hset, ← hres]
        rfl
    obtain ⟨h₁, hsched⟩ := hsched
    refine follows_step hig ?_ (by rw [hstep, hsched]) (.inl rfl)
    simp [leaks, hq, hc]

theorem follows_timers {now : Nat} (hi : Inv False s.coCurrent (s.withHeap h).toSched)
    (hn : harmlessAct s (.timers now) = true) (hs : step s (.timers now) = some s') :
    Follows s (.timers now) s' := by
  obtain ⟨hctl, hs'⟩ := step_timers hs
  have hc : s.coCurrent = none := by simp [St.coCurrent, hctl]
  rw [hc] at hi
  obtain ⟨-, rfl⟩ | ⟨hstop, t, ht, hs'⟩ := hs'
  · refine ⟨h, h, _, hc ▸ hi, ?_, .inl rfl⟩
    rw [Decomposes, withHeap_coCurrent, hc]
    exact ⟨none, _, admin_moves [.runRet .ok] rfl (by simp [Event.neutral]), fun _ => rfl, .inl rfl⟩
  have htick : Moves (s.withHeap h) (.timers now) (none, s.withHeap h)
      (none, (s.emit (.tick now)).withHeap h) :=
    admin_moves [.tick now] rfl (by simp [Event.neutral])
  obtain ⟨⟨h', hm⟩, hctl'⟩ : (∃ h', Moves (s.withHeap h) (.timers now)
      (none, (s.emit (.tick now)).withHeap h) (none,
        (timerLoop now s.timerHeap.entries.length (s.emit (.tick now))).withHeap h')) ∧ _ :=
    timerLoop_loose rfl _ (htick.inv (fun h => h.elim) hi) (by simpa [harmlessAct, hstop] using hn)
  rw [← ht] at hm hctl'
  obtain rfl : s' = { t with ctl := if coQueueEmpty t .ready then .idle now else .dispatch } := by
    rcases hs' with hs' | ⟨hne, -⟩
    · exact hs'
    · exact absurd (hctl'.trans hctl) hne
  refine ⟨h, h', _, hc ▸ hi, ?_, .inl rfl⟩
  rw [Decomposes, withHeap_coCurrent, hc]
  refine ⟨none, _, (htick.trans hm).trans (admin_moves [] (by simp; rfl) (by simp)), fun _ => ?_,
    .inl rfl⟩
  rw [withHeap_coCurrent]
  cases hq : coQueueEmpty t .ready <;> simp [St.coCurrent]

theorem follows_idle {p : PollResult} (hi : Inv False s.coCurrent (s.withHeap h).toSched)
    (hs : step s (.idle p) = some s') : Follows s (.idle p) s' := by
  obtain ⟨n, t, hctl, -, ht, hend⟩ := step_poll hs
  have hc : s.coCurrent = none := by simp [St.coCurrent, hctl]
  have hm : Moves (s.withHeap h) (.idle p) (none, s.withHeap h) (none, t.withHeap h) := by
    rw [ht]
    split
    · have hpoll : Moves (s.withHeap h) (.idle p) (none, s.withHeap h)
          (none, (s.emit (.poll (ioTimeoutMs s n))).withHeap h) :=
        admin_moves [.poll (ioTimeoutMs s n)] rfl (by simp [Event.neutral])
      rw [← PollResult.apply_withHeap]
      exact hpoll.trans (p.apply_moves rfl _).1
    · exact .refl _
  refine ⟨h, h, _, hi, ?_, .inl rfl⟩
  rw [Decomposes, withHeap_coCurrent, hc]
  rcases hend with rfl | rfl
  · exact ⟨none, _, hm.trans (admin_moves [.runRet .ok] rfl (by simp [Event.neutral])),
      fun _ => rfl, .inl rfl⟩
  · exact ⟨none, _, hm.trans (admin_moves [] (by simp; rfl) (by simp)), fun _ => rfl, .inl rfl⟩

theorem follows_spawn {e : SpawnEnv} (hi : Inv False s.coCurrent (s.withHeap h).toSched)
    (hs : step s (.spawn e) = some s') : Follows s (.spawn e) s' := by
  have hsp : coSpawn (s.withHeap h) e = ((coSpawn s e).1, (coSpawn s e).2.withHeap h) := by
    simp only [coSpawn, withHeap_pool]
    cases e.calloc with
    | false => rfl
    | true =>
      simp only [if_true]
      rcases coStackPoolAlloc s.pool e.malloc with ⟨b, p⟩
      cases b with
      | none => rfl
      | some b => cases e.contextInit <;> rfl
  obtain ⟨huser, rfl⟩ := step_spawn hs
  have huser' : inUserCode (s.withHeap h) = true := huser
  have hstep : step (s.withHeap h) (.spawn e) =
      some (((coSpawn s e).2.emit (.spawned (coSpawn s e).1)).withHeap h) := by
    simp only [step, huser', if_true, hsp, withHeap_emit]
  exact follows_step hi rfl hstep (.inl rfl)

theorem follows_finish (hi : Inv False s.coCurrent (s.withHeap h).toSched)
    (hs : step s .finish = some s') : Follows s .finish s' := by
  obtain ⟨c, hctl, rfl⟩ := step_finish hs
  have hd : coRoutineDestroy (coRoutineFinish (s.withHeap h) c) c =
      (coRoutineDestroy (coRoutineFinish s c) c).withHeap h := by
    have hf : coRoutineFinish (s.withHeap h) c = (coRoutineFinish s c).withHeap h := rfl
    rw [hf]
    generalize coRoutineFinish s c = t
    simp only [coRoutineDestroy, withHeap_co, withHeap_pool]
    cases (t.co c).stackBase <;> rfl
  have hstep : step (s.withHeap h) .finish = some (({ coRoutineDestroy (coRoutineFinish s c) c with
      ctl := .loop }.emit (.finish c)).withHeap h) := by
    simp only [step, withHeap_ctl, hctl, hd]
    rfl
  exact follows_step hi rfl hstep (.inl rfl)

theorem follows_run (hi : Inv False s.coCurrent (s.withHeap h).toSched)
    (hs : step s .run = some s') : Follows s .run s' := by
  obtain ⟨hctl, rfl⟩ := step_run hs
  have hstep : step (s.withHeap h) .run =
      some ({ s with ctl := .loop, shouldStop := false }.withHeap h) := by
    simp only [step, withHeap_ctl, hctl]
    rfl
  exact follows_step hi rfl hstep (.inl rfl)

/-- **Every step can be followed with another heap.** -/
theorem Loose.follows (hL : Loose s) (he : a.onEpoll = true) (hh : harmlessAct s a = true)
    (hs : step s a = some s') : Follows s a s' := by
  obtain ⟨h, cur, hi, hcur⟩ := hL
  have hna : s.ctl ≠ .aborted := step_ne_aborted hs
  rw [← hcur hna] at hi
  cases a with
  | run => exact follows_run hi hs
  | timers now => exact follows_timers hi hh hs
  | idle p => exact follows_idle hi hs
  | schedule e => exact follows_schedule hi hs
  | spawn e => exact follows_spawn hi hs
  | call op =>
    refine follows_call hi (fun x hx => ?_) hs
    rw [hx] at he
    cases he
  | finish => exact follows_finish hi hs

theorem Follows.loose (hf : Follows s a s') : Loose s' := by
  obtain ⟨h, h', a', hi, hd, -⟩ := hf
  exact ⟨h', hd.placed hi fun h => h.elim⟩

theorem loose_init (cfg : Config) : Loose (init cfg) := ⟨_, placed_init cfg⟩

/-- What every change of its record keeps, a step keeps of a coroutine. -/
theorem Follows.record_rule {J : Routine → Prop} (hf : Follows s a s') (hJ : J (s.co c))
    (hstep : ∀ h a' r r', a.Alike a' → RecordStep (s.withHeap h) a' c r r' → J r → J r') :
    J (s'.co c) := by
  obtain ⟨h, h', a', hi, ⟨cur', t, hm, -, ht⟩, ha⟩ := hf
  have hpath : ∀ p, Moves (s.withHeap h) a' (s.coCurrent, s.withHeap h) p →
      Inv False p.1 p.2.toSched ∧ J (p.2.co c) := by
    intro p hp
    induction hp with
    | refl => exact ⟨hi, hJ⟩
    | tail _ hm ih =>
      obtain ⟨os, hm⟩ := hm
      exact ⟨hm.inv (fun h => h.elim) ih.1, hstep h a' _ _ ha (hm.record ih.1 c) ih.2⟩
  have hend : (s'.withHeap h').co c = t.co c := by
    rcases ht with ht | ⟨k, r, -, ht, -⟩ <;> rw [ht]
    rfl
  rw [withHeap_co] at hend
  rw [hend]
  exact (hpath _ hm).2

end Libco
