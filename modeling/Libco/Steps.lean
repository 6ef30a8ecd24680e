import Libco.Steps.Io

/-!
# Steps are made of moves

`step_moves`: an action that does not leak takes the machine from a state where
every coroutine is in its place to the next one by moves, and then possibly
returns from a call. The proof goes through the functions of the library once;
the invariants of later modules are checked on moves.
-/

namespace Libco
open Lib

variable {run : Prop} {cur : Option Nat} {s s' s₀ : St} {a : Act} {c : Nat}

/-! ## Calls -/

theorem runOp_via {op : Op} (hi : Inv run s.coCurrent s.toSched) (hb : Begins s₀ a s op)
    (hl : leaks s₀ (.call op) = false) :
    (runOp s s₀.calls op).Via (Moves s₀ a (s.coCurrent, s)) s.coCurrent := by
  cases op with
  | yieldNow => exact coYieldNow_via hb rfl
  | sleep msec now ok => exact coSleep_via hi hb
  | mutexLock m => exact coMutexLock_via hi hb rfl
  | mutexTrylock m => exact coMutexTrylock_via hb rfl
  | mutexUnlock m =>
    simp only [runOp]
    cases hu : coMutexUnlock s m with
    | none => trivial
    | some t =>
      have hpre : SinceCall s₀ s (.mutexUnlock m) m :=
        ⟨[], by rw [hb.2, beginCall_trace], by simp⟩
      exact coMutexUnlock_moves hu hb.1 rfl hpre (by rw [hb.2, beginCall_coCurrent])
  | condWait v m => exact coCondWait_via hi hb
  | condTimedwait v m t now ok => exact coCondTimedwait_via hi hb
  | condSignal v =>
    refine ⟨coCondSignal_moves hb rfl, ?_⟩
    unfold coCondSignal coQueuePopFront
    cases s.queues (.cond v) <;> rfl
  | condBroadcast v =>
    refine ⟨coCondBroadcast_moves hb rfl, ?_⟩
    unfold coCondBroadcast
    have hw : ∀ (s : St) (c : Nat), (wakeWaiter s c).coCurrent = s.coCurrent := fun _ _ => rfl
    exact drainQueue_coCurrent hw _ _
  | channelSend h d => exact coChannelSend_via hi hb
  | channelTrysend h d => exact coChannelTrysend_via hb
  | channelRecv h => exact coChannelRecv_via hi hb
  | channelTryrecv h => exact coChannelTryrecv_via hb
  | channelClose h => exact coChannelClose_via hb
  | io x => exact coIo_via hi hb hl
  | ioAsync x => exact coIoAsync_via hi hb hl

theorem settle_decomposes {o : Outcome} {k : Nat}
    (ho : o.Via (Moves s a (s.coCurrent, s)) cur)
    (hret : ∀ r t, o = .ret r t → Returns s a t k r) : Decomposes s a (settle s k o) := by
  cases o with
  | ret r t => exact ⟨cur, t, ho.1, fun _ => ho.2, .inr ⟨k, r, ho.2, rfl, hret r t rfl⟩⟩
  | swap t =>
    have hstop : Move s a [] (none, t) (none, { t with ctl := .loop }) := .admin ?_
    · exact ⟨none, _, Moves.trans ho hstop.moves, fun _ => rfl, .inl rfl⟩
    exact ⟨rfl, rfl, rfl, ⟨rfl, rfl, rfl⟩, ⟨rfl, rfl, rfl⟩, [], by simp, by simp⟩
  | abort =>
    have hstop : Move s a [] (s.coCurrent, s) (s.coCurrent, { s with ctl := .aborted }) := .admin ?_
    · exact ⟨s.coCurrent, _, hstop.moves, fun hne => absurd rfl hne, .inl rfl⟩
    exact ⟨rfl, rfl, rfl, ⟨rfl, rfl, rfl⟩, ⟨rfl, rfl, rfl⟩, [], by simp, by simp⟩

theorem Outcome.Via.trans_left {o : Outcome} {p p' : Option Nat × St}
    (h : o.Via (Moves s₀ a p') cur) (hm : Moves s₀ a p p') : o.Via (Moves s₀ a p) cur := by
  cases o with
  | ret r t => exact ⟨hm.trans h.1, h.2⟩
  | swap t => exact Moves.trans hm h
  | abort => trivial

/-! ## Resumptions -/

theorem Routine.running_of_not_io {r : Routine} (h : r.ioWaiting = false) :
    ({ r with state := .running, frame := .user } : Routine) =
      { r with state := .running, frame := .user, ioWaiting := false } := by
  cases r
  simp only at h
  simp [h]

theorem Inv.not_mem_heap (hi : Inv run cur s.toSched) (hs : (s.co c).state = .ready)
    (hf : (s.co c).frame.timed = false ∨ (s.co c).frame = .sleep ∨ (s.co c).timedOut = true) :
    c ∉ s.timerHeap.entries := by
  intro hm
  have := hi.mem_heap hm
  rcases hf with hf | hf | hf
  · simp [Routine.mayTimer, hf] at this
  · simp [Routine.mayTimer, hf, hs] at this
  · simp [Routine.mayTimer, hf, hs] at this

/-- What is known of the first ready coroutine. -/
theorem Inv.ready_fields {rest : List Nat} (hi : Inv run cur s.toSched)
    (hq : s.queues .ready = c :: rest) :
    (s.co c).state = .ready ∧ (s.co c).frame.suspended = true ∧ (s.co c).ioWaiting = false := by
  obtain ⟨hsus, hst⟩ := Routine.home_ready
    (hi.mem_queue (q := .ready) (c := c) (by rw [hq]; simp))
  refine ⟨hst, hsus, ?_⟩
  rw [(hi.seated c).io]
  simp [Routine.ioFlag, hst]

/-- The heap once the timer of `c` is gone. -/
def timerGone (s t : St) (c : Nat) : Prop :=
  (t.timerHeap = s.timerHeap ∧ c ∉ s.timerHeap.entries) ∨
    t.timerHeap = (coTimerHeapRemove s.key s.timerHeap c).2

theorem timerGone.spec {t : St} (h : timerGone s t c) (hi : Inv run cur s.toSched) :
    Heaped s.key t.timerHeap.entries ∧
      t.timerHeap.entries.Perm (s.timerHeap.entries.erase c) := by
  rcases h with ⟨h, hn⟩ | h
  · rw [h, List.erase_of_not_mem hn]
    exact ⟨hi.ordered, .refl _⟩
  · have := coTimerHeapRemove_spec hi.ordered c
    rw [h]
    exact ⟨this.1, this.2.1⟩

theorem Inv.dispatches {rest : List Nat} {t : St} (hi : Inv run none s.toSched)
    (hq : s.queues .ready = c :: rest)
    (hco : t.co = Function.update s.co c { s.co c with state := .running, frame := .user } ∨
      t.co = Function.update s.co c
        { s.co c with state := .running, frame := .user, ioWaiting := false })
    (hqs : t.queues = Function.update s.queues .ready rest) (hh : timerGone s t c)
    (hn : s.SameCounts t.toSched) (ho : SameObjects s t)
    (htr : t.trace = s.trace ++ dispatchEvents c (s.co c).frame)
    (he : entitled s c (s.co c).frame) : Dispatches s t c rest := by
  obtain ⟨hord, hperm⟩ := hh.spec hi
  refine ⟨hq, ?_, hqs, hord, hperm, hn, ho, htr, he⟩
  rcases hco with hco | hco
  · rw [hco, Routine.running_of_not_io (hi.ready_fields hq).2.2]
  · exact hco

section

variable {rest : List Nat} (hi : Inv run none s.toSched) (hq : s.queues .ready = c :: rest)
  (ha : a.isSchedule = true)
include hi hq ha

theorem resumeLock_via {m : Nat} {f : Frame} (hf : (s.co c).frame = f)
    (hm : f = .lock m ∨ (∃ v, f = .condRelock v m) ∨ ∃ v, f = .timedRelock v m)
    (hh : c ∉ s.timerHeap.entries) :
    (resumeLock (switchTo { s with queues := Function.update s.queues .ready rest } c) c m).Via
      (Moves s a (none, s)) (some c) := by
  unfold resumeLock
  split
  · rename_i hown
    have hown' : (s.mutexes m).locked = true ∧ (s.mutexes m).owner = some c := by
      simpa [switchTo, St.modify, St.emit] using hown
    refine ⟨Move.moves (.dispatch (hi.dispatches hq (.inl rfl) rfl (.inl ⟨rfl, hh⟩)
      ⟨rfl, rfl, rfl⟩ ⟨rfl, rfl, rfl⟩ ?_ ?_) ha), rfl⟩
    · rw [hf]
      obtain rfl | ⟨v, rfl⟩ | ⟨v, rfl⟩ := hm <;>
        simp [dispatchEvents, switchTo, St.modify, St.emit]
    · rw [hf]
      obtain rfl | ⟨v, rfl⟩ | ⟨v, rfl⟩ := hm <;> exact hown'
  · trivial

theorem relock_via {m : Nat} {f : Frame} {t : St} {r : St → Ret}
    (hd : Dispatches s t c rest) (hctl : t.ctl = .running c)
    (hrel : (s.co c).frame.relocking = some (m, f)) :
    (relock t c m f r).Via (Moves s a (none, s)) (some c) := by
  have hcur : t.coCurrent = some c := by simp [St.coCurrent, hctl]
  have hiw := (hi.ready_fields hq).2.2
  unfold relock coMutexLock
  rw [hcur]
  dsimp only
  cases hl : (t.mutexes m).locked with
  | false =>
    have htake : Move s a [.mutex m] (_, t) _ :=
      .take hl hcur (.inr ⟨ha, c, rest, f, hq, hrel⟩)
    rw [hcur] at htake
    exact ⟨(Move.dispatch hd ha).moves.trans htake.moves, hcur⟩
  | true =>
    simp only [Bool.not_true, Bool.false_eq_true, if_false]
    have hrec : ({ s.co c with state := .waiting, frame := f, ioWaiting := false } : Routine) =
        { s.co c with state := .waiting, frame := f } := by
      rw [← hiw]
    refine Move.moves (.relock (m := m) (f := f)
      ⟨hq, hrel, ?_, ?_, ?_, ?_, hd.heap, ?_, ?_, ?_⟩ ha)
    · rw [← hd.objects.mutexes]
      exact hl
    · simp [coQueuePushBack, St.modify, St.emit, hd.co, hrec]
    · simp [coQueuePushBack, St.modify, St.emit, hd.queues]
    · exact hd.ordered
    · exact ⟨hd.counts.nextId, hd.counts.io, hd.counts.active⟩
    · exact ⟨hd.objects.mutexes, hd.objects.chans, hd.objects.calls⟩
    · have := hd.trace
      obtain ⟨v, ⟨hf, -⟩ | ⟨hf, -⟩⟩ := Frame.relocking_spec hrel <;>
        simp [coQueuePushBack, St.modify, St.emit, this, hf, dispatchEvents]

/-- The exits of the I/O calls are dispatches that differ in the heap only. -/
theorem dispatch_io {t : St} (hf : (s.co c).frame.isIo = true)
    (hco : t.co = Function.update s.co c { s.co c with state := .running, frame := .user } ∨
      t.co = Function.update s.co c
        { s.co c with state := .running, frame := .user, ioWaiting := false })
    (hqs : t.queues = Function.update s.queues .ready rest) (hh : timerGone s t c)
    (hn : s.SameCounts t.toSched) (ho : SameObjects s t)
    (htr : t.trace = s.trace ++ [Event.dispatch c]) (hctl : t.ctl = .running c) :
    Moves s a (none, s) (some c, t) ∧ t.coCurrent = some c := by
  refine ⟨Move.moves (.dispatch (hi.dispatches hq hco hqs hh hn ho ?_ ?_) ha), ?_⟩
  · rw [htr]
    cases hfr : (s.co c).frame <;> simp [hfr, Frame.isIo] at hf <;> rfl
  · cases hfr : (s.co c).frame <;> simp [hfr, Frame.isIo] at hf <;> trivial
  · simp [St.coCurrent, hctl]

omit hi hq ha in
theorem switchTo_key {t : Sched} (hw : ∀ d, (t.co d).wakeupTime = (s.co d).wakeupTime) :
    t.key = s.key := funext hw

theorem resumeIo_via {x : IoWaitCtx} {again : SysRes} (hf : (s.co c).frame = .waitIo x)
    (hl : (s.co c).timedOut = false → x.revents.error = true → c ∉ s.timerHeap.entries) :
    (resumeIo (switchTo { s with queues := Function.update s.queues .ready rest } c) c x again).Via
      (Moves s a (none, s)) (some c) := by
  obtain ⟨hst, -, -⟩ := hi.ready_fields hq
  have hio : (s.co c).frame.isIo = true := by rw [hf]; rfl
  have hdel : ∀ t : St, coIomuxDel t x.fd = { t with epoll := (coIomuxDel t x.fd).epoll } := by
    intro t
    unfold coIomuxDel
    split <;> rfl
  unfold resumeIo resumeWaitIo
  dsimp only
  rw [hdel]
  by_cases hto : (s.co c).timedOut = true
  · rw [if_pos (by simpa [switchTo, St.modify, St.emit] using hto)]
    exact dispatch_io hi hq ha hio (.inl rfl) rfl
      (.inl ⟨rfl, hi.not_mem_heap hst (.inr (.inr hto))⟩) ⟨rfl, rfl, rfl⟩ ⟨rfl, rfl, rfl⟩ rfl rfl
  rw [if_neg (by simpa [switchTo, St.modify, St.emit] using hto)]
  by_cases herr : x.revents.error = true
  · rw [if_pos herr]
    exact dispatch_io hi hq ha hio (.inl rfl) rfl (.inl ⟨rfl, hl (by simpa using hto) herr⟩)
      ⟨rfl, rfl, rfl⟩ ⟨rfl, rfl, rfl⟩ rfl rfl
  rw [if_neg herr]
  by_cases ht : 0 ≤ x.timeoutMs
  · rw [if_pos ht]
    refine dispatch_io hi hq ha hio (.inr ?_) rfl (.inr ?_) ⟨rfl, rfl, rfl⟩ ⟨rfl, rfl, rfl⟩ rfl rfl
    · simp [switchTo, St.modify, St.emit]
    · simp only
      rw [switchTo_key (s := s)]
      · rfl
      · intro d
        by_cases hd : d = c <;> simp [switchTo, St.modify, St.emit, hd]
  · rw [if_neg ht]
    exact dispatch_io hi hq ha hio (.inl rfl) rfl
      (.inl ⟨rfl, hi.not_mem_heap hst (.inl (by simp [hf, Frame.timed, ht]))⟩)
      ⟨rfl, rfl, rfl⟩ ⟨rfl, rfl, rfl⟩ rfl rfl

omit hi hq ha in
/-- Whichever result a call takes, it returns in the state `t`. -/
theorem asyncRet_via {x : AsyncCtx} {after : SysRes} {t : St}
    (ht : Moves s a (none, s) (some c, t) ∧ t.coCurrent = some c) :
    (match x.opType with
      | .read | .write => Outcome.ret (.sys x.bytesTransferred none) t
      | .accept | .connect => Outcome.ret after.ret t).Via (Moves s a (none, s)) (some c) := by
  split <;> exact ht

theorem resumeAsync_via {x : AsyncCtx} {after : SysRes} (hf : (s.co c).frame = .waitAsync x)
    (hl : (s.co c).timedOut = false → x.revents.error = true → c ∉ s.timerHeap.entries) :
    (resumeAsync (switchTo { s with queues := Function.update s.queues .ready rest } c) c x
      after).Via (Moves s a (none, s)) (some c) := by
  obtain ⟨hst, -, hiw⟩ := hi.ready_fields hq
  have hio : (s.co c).frame.isIo = true := by rw [hf]; rfl
  unfold resumeAsync
  by_cases hto : (s.co c).timedOut = true
  · rw [if_pos (by simpa [switchTo, St.modify, St.emit] using hto)]
    -- the call suspends again, until the cancelled operation reports
    have hd : Moves s a (none, s)
        (some c, switchTo { s with queues := Function.update s.queues .ready rest } c) ∧ _ :=
      dispatch_io hi hq ha hio (.inl rfl) rfl
        (.inl ⟨rfl, hi.not_mem_heap hst (.inr (.inr hto))⟩) ⟨rfl, rfl, rfl⟩ ⟨rfl, rfl, rfl⟩ rfl rfl
    have hcw : (s.co c).condWaitQueue = none := by
      rw [(hi.seated c).cond]
      simp [Routine.condPtr, hst]
    let r : Routine := { s.co c with state := .waiting, frame := .drainAsync x }
    refine hd.1.trans (Move.moves (.drain (r := r) (x := x) (y := x) ⟨hf, ?_, rfl⟩ rfl ?_ ha))
    · simp [switchTo, St.modify, St.emit]
    · refine ⟨?_, rfl, rfl, by simp [r], ?_, rfl, rfl, by simp [r, Frame.timed], ?_, ?_, rfl, rfl,
        rfl, ⟨rfl, rfl, rfl⟩, by simp [blockEvents, r]; rfl, trivial⟩
      · simp [r, switchTo, St.modify, St.emit]
      · simp [r, switchTo, St.modify, St.emit]
      · simpa [r, Routine.condPtr] using hcw
      · simpa [r, Routine.ioFlag, Frame.timed] using hiw
  rw [if_neg (by simpa [switchTo, St.modify, St.emit] using hto)]
  by_cases herr : x.revents.error = true
  · rw [if_pos herr]
    exact dispatch_io hi hq ha hio (.inl rfl) rfl (.inl ⟨rfl, hl (by simpa using hto) herr⟩)
      ⟨rfl, rfl, rfl⟩ ⟨rfl, rfl, rfl⟩ rfl rfl
  rw [if_neg herr]
  dsimp only
  refine asyncRet_via ?_
  by_cases ht : 0 ≤ x.timeoutMs
  · rw [if_pos ht]
    refine dispatch_io hi hq ha hio (.inr ?_) rfl (.inr ?_) ⟨rfl, rfl, rfl⟩ ⟨rfl, rfl, rfl⟩ rfl rfl
    · simp [switchTo, St.modify, St.emit]
    · simp only
      rw [switchTo_key (s := s)]
      · rfl
      · intro d
        by_cases hd : d = c <;> simp [switchTo, St.modify, St.emit, hd]
  · rw [if_neg ht]
    exact dispatch_io hi hq ha hio (.inl rfl) rfl
      (.inl ⟨rfl, hi.not_mem_heap hst (.inl (by simp [hf, Frame.timed, ht]))⟩)
      ⟨rfl, rfl, rfl⟩ ⟨rfl, rfl, rfl⟩ rfl rfl

omit ha in
/-- A dispatch out of a frame that neither waits for a mutex nor has a timer. -/
theorem dispatch_plain (hev : dispatchEvents c (s.co c).frame = [.dispatch c])
    (hent : entitled s c (s.co c).frame) (hh : c ∉ s.timerHeap.entries) :
    Dispatches s (switchTo { s with queues := Function.update s.queues .ready rest } c) c rest :=
  hi.dispatches hq (.inl rfl) rfl (.inl ⟨rfl, hh⟩) ⟨rfl, rfl, rfl⟩ ⟨rfl, rfl, rfl⟩
    (by rw [hev]; rfl) hent

theorem resume_via {e : ResumeEnv} (hl : leaks s (.schedule e) = false) :
    (resume (switchTo { s with queues := Function.update s.queues .ready rest } c) c e
      (s.co c).frame).Via (Moves s a (none, s)) (some c) := by
  obtain ⟨hst, hsus, -⟩ := hi.ready_fields hq
  have hleak : (s.co c).errorExit = true → c ∉ s.timerHeap.entries := by
    intro he
    simpa [leaks, hq, he] using hl
  have hplain : dispatchEvents c (s.co c).frame = [.dispatch c] →
      entitled s c (s.co c).frame → c ∉ s.timerHeap.entries → ∀ r,
      (Outcome.ret r (switchTo { s with queues := Function.update s.queues .ready rest } c)).Via
        (Moves s a (none, s)) (some c) := fun hev hent hh _ =>
    ⟨Move.moves (.dispatch (dispatch_plain hi hq hev hent hh) ha), rfl⟩
  cases hf : (s.co c).frame with
  | absent | freed | user => simp [hf, Frame.suspended] at hsus
  | entry =>
    rw [hf] at hplain
    exact hplain rfl trivial (hi.not_mem_heap hst (.inl (by rw [hf]; rfl))) _
  | yieldNow =>
    rw [hf] at hplain
    exact hplain rfl trivial (hi.not_mem_heap hst (.inl (by rw [hf]; rfl))) _
  | sleep =>
    rw [hf] at hplain
    exact hplain rfl trivial (hi.not_mem_heap hst (.inr (.inl hf))) _
  | lock m =>
    exact resumeLock_via hi hq ha hf (.inl rfl) (hi.not_mem_heap hst (.inl (by rw [hf]; rfl)))
  | condRelock v m =>
    exact resumeLock_via hi hq ha hf (.inr (.inl ⟨v, rfl⟩))
      (hi.not_mem_heap hst (.inl (by rw [hf]; rfl)))
  | timedRelock v m =>
    have := resumeLock_via (a := a) hi hq ha hf (.inr (.inr ⟨v, rfl⟩))
      (hi.not_mem_heap hst (.inl (by rw [hf]; rfl)))
    simp only [resume]
    cases hr : resumeLock (switchTo { s with queues := Function.update s.queues .ready rest } c)
      c m with
    | ret r t =>
      rw [hr] at this
      exact this
    | swap t =>
      rw [hr] at this
      exact this
    | abort => trivial
  | condWait v m =>
    refine relock_via hi hq ha (dispatch_plain hi hq ?_ ?_ ?_) rfl ?_
    · rw [hf]
      rfl
    · rw [hf]
      trivial
    · exact hi.not_mem_heap hst (.inl (by rw [hf]; rfl))
    · rw [hf]
      rfl
  | timedWait v m =>
    simp only [resume, resumeTimedWait]
    refine relock_via hi hq ha (hi.dispatches hq (.inl ?_) ?_ ?_ ?_ ?_ ?_ ?_) ?_ ?_
    · split <;> rfl
    · split <;> rfl
    · by_cases hto : (s.co c).timedOut = true
      · refine .inl ⟨?_, hi.not_mem_heap hst (.inr (.inr hto))⟩
        rw [if_neg (by simpa [switchTo, St.modify, St.emit] using hto)]
        rfl
      · refine .inr ?_
        rw [if_pos (by simpa [switchTo, St.modify, St.emit] using hto)]
        simp only
        rw [switchTo_key (s := s)]
        · rfl
        · intro d
          by_cases hd : d = c <;> simp [switchTo, St.modify, St.emit, hd]
    · split <;> exact ⟨rfl, rfl, rfl⟩
    · split <;> exact ⟨rfl, rfl, rfl⟩
    · rw [hf]
      split <;> rfl
    · rw [hf]
      trivial
    · split <;> rfl
    · rw [hf]
      rfl
  | send h =>
    rw [hf] at hplain
    exact hplain rfl trivial (hi.not_mem_heap hst (.inl (by rw [hf]; rfl))) _
  | recv h =>
    rw [hf] at hplain
    exact hplain rfl trivial (hi.not_mem_heap hst (.inl (by rw [hf]; rfl))) _
  | waitIo x =>
    exact resumeIo_via hi hq ha hf fun hto he => hleak (by simp [Routine.errorExit, hf, hto, he])
  | waitAsync x =>
    exact resumeAsync_via hi hq ha hf fun hto he => hleak (by simp [Routine.errorExit, hf, hto, he])
  | drainAsync x =>
    rw [hf] at hplain
    exact hplain rfl trivial (hi.not_mem_heap hst (.inl (by rw [hf]; rfl))) _

end

/-! ## The scheduler's phases -/

/-- Only the control state and other fields without invariant change. -/
theorem admin_moves (es : List Event) (hs : s' = { s with
      ctl := s'.ctl, shouldStop := s'.shouldStop, switchCount := s'.switchCount, pool := s'.pool
      trace := s.trace ++ es }) (he : ∀ e ∈ es, e.neutral = true) :
    Moves s₀ a (cur, s) (cur, s') := by
  refine Move.moves (.admin ⟨?_, ?_, ?_, ⟨?_, ?_, ?_⟩, ⟨?_, ?_, ?_⟩, es, ?_, he⟩) <;> rw [hs]

/-- What the frame of a waiting coroutine with a timer can be. -/
theorem Inv.timer_frame (hi : Inv run cur s.toSched) (hm : c ∈ s.timerHeap.entries)
    (hs : (s.co c).state = .waiting) :
    (∃ v m, (s.co c).frame = .timedWait v m ∧ (s.co c).condWaitQueue = some v) ∨
      ((s.co c).frame = .sleep ∧ (s.co c).condWaitQueue = none ∧ (s.co c).ioWaiting = false) ∨
      ((s.co c).frame.isIo = true ∧ (s.co c).condWaitQueue = none ∧
        (s.co c).ioWaiting = true) := by
  have ht := (Routine.timed_of_mayTimer (hi.mem_heap hm)).1
  have hcw := (hi.seated c).cond
  have hiw := (hi.seated c).io
  cases hf : (s.co c).frame <;>
    simp [hf, Frame.timed, Frame.isIo, Routine.condPtr, Routine.ioFlag, hs] at ht hcw hiw ⊢ <;>
    simp [ht, hcw, hiw]

/-- Apart from the heap, which only has to lose the entry, a round of the timer loop
is the same whatever the heap. -/
theorem expireTop_expires {h : TimerHeap} (hi : Inv run cur s.toSched)
    (hm : c ∈ s.timerHeap.entries) (hs : (s.co c).state = .waiting)
    (hord : Heaped s.key h.entries) (hperm : h.entries.Perm (s.timerHeap.entries.erase c)) :
    Expires s { expireTop s c with timerHeap := h } c := by
  unfold expireTop
  dsimp only
  rw [if_neg (by simp [hs])]
  obtain ⟨v, m, hf, hcw⟩ | ⟨hf, hcw, hiw⟩ | ⟨hf, hcw, hiw⟩ := hi.timer_frame hm hs
  · have hiw : (s.co c).ioWaiting = false := by
      rw [(hi.seated c).io]
      simp [Routine.ioFlag, hf, Frame.isIo]
    simp only [hcw]
    refine ⟨hs, by rw [hf]; rfl, ?_, ?_, hord, hperm, rfl, ?_, rfl, ⟨rfl, rfl, rfl⟩, ?_⟩
    · simp [hf, hiw, coSchedulerEnqueue, coQueuePushBack, coQueueRemove, St.modify, St.emit]
    · simp [hf, Frame.waitQueue, coSchedulerEnqueue, coQueuePushBack, coQueueRemove, St.modify,
        St.emit]
    · simp [hf, Frame.isIo, coSchedulerEnqueue, coQueuePushBack, coQueueRemove, St.modify, St.emit]
    · simp [hf, expireEvents, coSchedulerEnqueue, coQueuePushBack, coQueueRemove, St.modify,
        St.emit]
  · simp only [hcw, hiw, Bool.false_eq_true, if_false]
    refine ⟨hs, by rw [hf]; rfl, ?_, ?_, hord, hperm, rfl, ?_, rfl, ⟨rfl, rfl, rfl⟩, ?_⟩
    · simp [hf, hiw, hcw, coSchedulerEnqueue, coQueuePushBack, St.modify, St.emit]
    · simp [hf, Frame.waitQueue, coSchedulerEnqueue, coQueuePushBack, St.modify, St.emit]
    · simp [hf, Frame.isIo, coSchedulerEnqueue, coQueuePushBack, St.modify, St.emit]
    · simp [hf, expireEvents, coSchedulerEnqueue, coQueuePushBack, St.modify, St.emit]
  · simp only [hcw, hiw, if_true]
    have hne : (s.co c).frame ≠ .sleep := (Frame.io_suspended hf).2.2
    have hwq : (s.co c).frame.waitQueue = none := (Frame.io_suspended hf).2.1
    have ht := (Routine.timed_of_mayTimer (hi.mem_heap hm)).1
    refine ⟨hs, ht, ?_, ?_, hord, hperm, rfl, ?_, rfl, ⟨rfl, rfl, rfl⟩, ?_⟩
    · simp [hne, hcw, coSchedulerEnqueue, coQueuePushBack, St.modify, St.emit]
    · simp [hwq, coSchedulerEnqueue, coQueuePushBack, St.modify, St.emit]
    · simp [hf, coSchedulerEnqueue, coQueuePushBack, St.modify, St.emit]
    · cases hfr : (s.co c).frame <;> simp [hfr, Frame.isIo] at hf <;>
        simp [hfr, expireEvents, coSchedulerEnqueue, coQueuePushBack, St.modify, St.emit]

theorem expireTop_heap_ctl (s : St) (c : Nat) :
    (expireTop s c).timerHeap = (coTimerHeapPop s.key s.timerHeap).2 ∧
      (expireTop s c).ctl = s.ctl := by
  unfold expireTop
  dsimp only
  split
  · exact ⟨rfl, rfl⟩
  · split
    · exact ⟨rfl, rfl⟩
    · split <;> exact ⟨rfl, rfl⟩

theorem expireTop_moves {rest : List Nat} (ha : a.isTimers = true) (hi : Inv run cur s.toSched)
    (he : s.timerHeap.entries = c :: rest) :
    Moves s₀ a (cur, s) (cur, expireTop s c) ∧ (expireTop s c).ctl = s.ctl := by
  obtain ⟨-, hord, hperm, -⟩ := coTimerHeapPop_spec hi.ordered he
  have hperm' : (coTimerHeapPop s.key s.timerHeap).2.entries.Perm
      (s.timerHeap.entries.erase c) := by
    rw [he, List.erase_cons_head]
    exact hperm
  obtain ⟨hheap, hctl⟩ := expireTop_heap_ctl s c
  refine ⟨?_, hctl⟩
  by_cases hs : (s.co c).state = .waiting
  · have hex : Expires s { expireTop s c with timerHeap := (expireTop s c).timerHeap } c := by
      rw [hheap]
      exact expireTop_expires hi (by simp [he]) hs hord hperm'
    exact Move.moves (.expire hex ha)
  · have hdrop : expireTop s c =
        { s with timerHeap := (coTimerHeapPop s.key s.timerHeap).2 } := if_pos hs
    rw [hdrop]
    exact Move.moves (.dropTimer hs hord hperm')

/-- A coroutine with a timer has not been freed. -/
theorem Inv.not_freed (hi : Inv run cur s.toSched) (hm : c ∈ s.timerHeap.entries) :
    (s.co c).frame ≠ .freed := by
  intro hf
  have := (Routine.timed_of_mayTimer (hi.mem_heap hm)).1
  simp [hf, Frame.timed] at this

theorem Act.allocFails_of_isTimers (ha : a.isTimers = true) : a.allocFails = false := by
  cases a <;> first | rfl | cases ha

theorem timerLoop_moves {now : Nat} (ha : a.isTimers = true) (n : Nat) (s : St)
    (hi : Inv run cur s.toSched) :
    Moves s₀ a (cur, s) (cur, timerLoop now n s) ∧ (timerLoop now n s).ctl = s.ctl := by
  induction n generalizing s with
  | zero => exact ⟨.refl _, rfl⟩
  | succ n ih =>
    simp only [timerLoop, coTimerHeapPeek]
    cases he : s.timerHeap.entries with
    | nil => exact ⟨.refl _, rfl⟩
    | cons c rest =>
      simp only [List.head?_cons]
      rw [if_neg (hi.not_freed (by simp [he]))]
      split
      · exact ⟨.refl _, rfl⟩
      · obtain ⟨hm, hctl⟩ : Moves s₀ a (cur, s) (cur, expireTop s c) ∧ _ :=
          expireTop_moves ha hi he
        obtain ⟨hm', hctl'⟩ := ih _ (hm.inv (fun _ => Act.allocFails_of_isTimers ha) hi)
        exact ⟨hm.trans hm', hctl'.trans hctl⟩

theorem timerLoop_ctl (now n : Nat) (s : St) (hi : Inv run cur s.toSched) :
    (timerLoop now n s).ctl = s.ctl := by
  have hm : Moves s (.timers now) (cur, s) (cur, timerLoop now n s) ∧ _ :=
    timerLoop_moves rfl n s hi
  exact hm.2

theorem PollResult.apply_moves (ha : a.isIdle = true) (p : PollResult) (s : St) :
    Moves s₀ a (cur, s) (cur, p.apply s) ∧ (p.apply s).ctl = s.ctl := by
  cases p with
  | none => exact ⟨.refl _, rfl⟩
  | events evs => exact coIomuxPoll_moves ha evs s
  | packets ps => exact coIomuxPollPackets_moves ha ps s

theorem idlePhase_decomposes {now : Nat} {p : PollResult} (ha : a.isIdle = true) (hctl : s.ctl = .idle now) :
    Decomposes s a (idlePhase s now p) := by
  have hcur : s.coCurrent = none := by simp [St.coCurrent, hctl]
  have hpoll : ∃ t, Moves s a (none, s) (none, t) ∧
      (if polls s then p.apply (s.emit (.poll (ioTimeoutMs s now))) else s) = t := by
    split
    · refine ⟨_, Moves.trans ?_ (p.apply_moves ha _).1, rfl⟩
      exact admin_moves [.poll (ioTimeoutMs s now)] rfl (by simp [Event.neutral])
    · exact ⟨s, .refl _, rfl⟩
  obtain ⟨t, hm, ht⟩ := hpoll
  unfold idlePhase
  simp only [ht]
  rw [Decomposes, hcur]
  split
  · refine ⟨none, _, hm.trans (admin_moves [.runRet .ok] rfl (by simp [Event.neutral])),
      fun _ => rfl, .inl rfl⟩
  · exact ⟨none, _, hm.trans (admin_moves [] (by simp) (by simp)), fun _ => rfl, .inl rfl⟩

theorem coSpawn_moves (e : SpawnEnv) :
    Moves s₀ a (cur, s) (cur, (coSpawn s e).2) ∧ (coSpawn s e).2.ctl = s.ctl := by
  unfold coSpawn
  split
  · dsimp only
    split
    · exact ⟨admin_moves [] (by simp) (by simp), rfl⟩
    · rename_i b p halloc
      split
      · refine ⟨Move.moves (.spawn ⟨⟨b, if e.stackSize = 0 then s.defaultStackSize else e.stackSize,
          ?_⟩, rfl, rfl, rfl, rfl, rfl, ⟨rfl, rfl, rfl⟩, rfl⟩), rfl⟩
        simp [coSchedulerEnqueue, coQueuePushBack, St.modify, St.emit, Routine.zero]
      · exact ⟨Move.moves (.skipId _), rfl⟩
  · exact ⟨.refl _, rfl⟩

/-! ## Steps -/

/-- The timer phase leaves the control in the loop. -/
theorem Inv.timers_eq {now : Nat} (hi : Inv run cur s.toSched)
    (hs : step s (.timers now) = some s') :
    s.ctl = .loop ∧
      ((s.shouldStop = true ∧ s' = { s with ctl := .outside }.emit (.runRet .ok)) ∨
        (s.shouldStop = false ∧
          ∃ t, t = timerLoop now s.timerHeap.entries.length (s.emit (.tick now)) ∧
            t.ctl = .loop ∧
            s' = { t with ctl := if coQueueEmpty t .ready then .idle now else .dispatch })) := by
  obtain ⟨hctl, hstop | ⟨hgo, t, rfl, hs'⟩⟩ := step_timers hs
  · exact ⟨hctl, .inl hstop⟩
  have hi' : Inv run cur (s.emit (.tick now)).toSched := hi.same rfl rfl rfl ⟨rfl, rfl, rfl⟩
  have hloop := (timerLoop_ctl now s.timerHeap.entries.length _ hi').trans hctl
  refine ⟨hctl, .inr ⟨hgo, _, rfl, hloop, ?_⟩⟩
  rcases hs' with hs' | ⟨hne, -⟩
  · exact hs'
  · exact absurd hloop hne

theorem timers_decomposes {now : Nat} (hi : Inv run none s.toSched)
    (hs : step s (.timers now) = some s') : Decomposes s (.timers now) s' := by
  have hc : s.coCurrent = none := by simp [St.coCurrent, (step_timers hs).1]
  obtain ⟨-, ⟨-, rfl⟩ | ⟨-, t, ht, -, rfl⟩⟩ := hi.timers_eq hs
  · rw [Decomposes, hc]
    exact ⟨none, _, admin_moves [.runRet .ok] rfl (by simp [Event.neutral]),
      fun _ => rfl, .inl rfl⟩
  · have htick : Moves s (.timers now) (none, s) (none, s.emit (.tick now)) :=
      admin_moves [.tick now] rfl (by simp [Event.neutral])
    have hm : Moves s (.timers now) (none, s.emit (.tick now)) (none, t) := by
      rw [ht]
      exact (timerLoop_moves rfl _ _ (htick.inv (fun _ => rfl) hi)).1
    rw [Decomposes, hc]
    refine ⟨none, _, (htick.trans hm).trans (admin_moves [] (by simp) (by simp)),
      fun _ => ?_, .inl rfl⟩
    simp only [St.coCurrent]
    cases coQueueEmpty t .ready <;> rfl

theorem schedule_decomposes {e : ResumeEnv} (hi : Inv run none s.toSched)
    (hc : s.coCurrent = none) (hl : leaks s (.schedule e) = false) :
    Decomposes s (.schedule e) (coSchedulerSchedule s e) := by
  obtain ⟨-, he⟩ | ⟨c, rest, hq, hcase⟩ := schedule_cases s e
  · rw [he, Decomposes, hc]
    exact ⟨none, _, admin_moves [] (by simp) (by simp), fun _ => rfl, .inl rfl⟩
  have hvia := resume_via (a := .schedule e) hi hq rfl hl
  obtain ⟨hf, he⟩ | ⟨hf, he⟩ := hcase
  · rw [he, Decomposes, hc]
    rw [hf] at hvia
    exact ⟨some c, _, hvia.1, fun _ => hvia.2, .inl rfl⟩
  · rw [he]
    rw [← hc] at hvia
    refine settle_decomposes hvia fun r t hr => ?_
    rw [hr] at hvia
    exact .resumed hq hf hr hvia.2

/-- An API call from its first statement on. -/
theorem call_via {op : Op} (hi : Inv run s.coCurrent s.toSched)
    (hl : leaks s (.call op) = false) :
    (runOp (beginCall s op) s.calls op).Via
      (Moves s (.call op) (s.coCurrent, beginCall s op)) s.coCurrent := by
  have hbegin : Moves s (.call op) (s.coCurrent, s) (s.coCurrent, beginCall s op) :=
    (Move.invoke rfl).moves
  have hi' : Inv False s.coCurrent (beginCall s op).toSched :=
    hbegin.inv (fun h => h.elim) (hi.mono fun h => h.elim)
  rw [← beginCall_coCurrent s op] at hi' ⊢
  exact runOp_via hi' (⟨rfl, rfl⟩ : Begins s (.call op) (beginCall s op) op) hl

theorem call_decomposes {op : Op} (hi : Inv run s.coCurrent s.toSched)
    (hl : leaks s (.call op) = false) :
    Decomposes s (.call op) (settle s s.calls (runOp (beginCall s op) s.calls op)) := by
  have hvia := call_via hi hl
  refine settle_decomposes (hvia.trans_left (Move.invoke rfl).moves) fun r t hr => ?_
  rw [hr] at hvia
  exact .call hr hvia.1 hvia.2

theorem step_ne_aborted (hs : step s a = some s') : s.ctl ≠ .aborted := by
  intro he
  cases a <;> simp [step, he, inUserCode] at hs

theorem Placed.current (h : Placed run s) (hs : step s a = some s') :
    Inv run s.coCurrent s.toSched := by
  obtain ⟨cur, hi, hcur⟩ := h
  rw [hcur (step_ne_aborted hs)]
  exact hi

/-- **Decomposition.** -/
theorem step_moves (h : Placed run s) (hl : leaks s a = false) (hs : step s a = some s') :
    Decomposes s a s' := by
  have hi := h.current hs
  cases a with
  | run =>
    obtain ⟨hctl, rfl⟩ := step_run hs
    have hc : s.coCurrent = none := by simp [St.coCurrent, hctl]
    exact ⟨none, _, hc ▸ admin_moves [] (by simp) (by simp), fun _ => rfl, .inl rfl⟩
  | timers now =>
    have hc : s.coCurrent = none := by simp [St.coCurrent, (step_timers hs).1]
    rw [hc] at hi
    exact timers_decomposes hi hs
  | idle p =>
    obtain ⟨now, hctl, -, rfl⟩ := step_idlePhase hs
    exact idlePhase_decomposes rfl hctl
  | schedule e =>
    obtain ⟨hctl, rfl⟩ := step_schedule hs
    have hc : s.coCurrent = none := by simp [St.coCurrent, hctl]
    rw [hc] at hi
    exact schedule_decomposes hi hc hl
  | spawn e =>
    obtain ⟨-, rfl⟩ := step_spawn hs
    obtain ⟨hm, hctl⟩ : Moves s (.spawn e) (s.coCurrent, s) (s.coCurrent, (coSpawn s e).2) ∧ _ :=
      coSpawn_moves e
    refine ⟨s.coCurrent, _, hm.trans (admin_moves [.spawned (coSpawn s e).1] rfl
      (by simp [Event.neutral])), fun _ => ?_, .inl rfl⟩
    simp [St.coCurrent, St.emit, hctl]
  | call op =>
    obtain ⟨-, rfl⟩ := step_call hs
    exact call_decomposes hi hl
  | finish =>
    obtain ⟨c, hctl, rfl⟩ := step_finish hs
    have hc : s.coCurrent = some c := by simp [St.coCurrent, hctl]
    rw [Decomposes, hc]
    refine ⟨none, _, Moves.trans (Move.finish rfl).moves
      (admin_moves [.finish c] rfl (by simp [Event.neutral])), fun _ => rfl, .inl rfl⟩

theorem coCurrent_ctl (hc : s.coCurrent = some c) : s.ctl = .running c := by
  unfold St.coCurrent at hc
  split at hc <;> simp only [Option.some.injEq, reduceCtorEq] at hc
  rename_i d hd
  rw [hd, hc]

theorem Decomposes.placed (hd : Decomposes s a s') (hi : Inv run s.coCurrent s.toSched)
    (hal : run → a.allocFails = false) : Placed run s' := by
  obtain ⟨cur', t, hm, hcur', ht⟩ := hd
  have hi' : Inv run cur' t.toSched := hm.inv hal hi
  rcases ht with rfl | ⟨k, r, -, rfl, -⟩
  · exact ⟨cur', hi', hcur'⟩
  · exact ⟨cur', hi'.same rfl rfl rfl ⟨rfl, rfl, rfl⟩, hcur'⟩

/-- Steps keep every coroutine in its place. -/
theorem Placed.step (h : Placed run s) (hal : run → a.allocFails = false)
    (hl : leaks s a = false) (hs : step s a = some s') : Placed run s' :=
  (step_moves h hl hs).placed (h.current hs) hal

/-- **Step rule.** What holds before a step and is kept by every move holds when its
moves are done; a step ends there, or with one return. -/
theorem step_rule {K J : St → Prop} (hp : Placed run s) (hl : leaks s a = false)
    (hs : step s a = some s') (hK : K s)
    (hmove : ∀ os p p', Move s a os p p' → Inv False p.1 p.2.toSched → K p.2 → K p'.2)
    (hend : ∀ t, K t → J t)
    (hret : ∀ t k r, Inv False t.coCurrent t.toSched → K t → Returns s a t k r →
      J (t.emit (.ret k r))) : J s' := by
  have hi₀ : Inv False s.coCurrent s.toSched := (hp.current hs).mono fun h => h.elim
  obtain ⟨cur', t, hm, -, ht⟩ := step_moves hp hl hs
  have hpath : ∀ p, Moves s a (s.coCurrent, s) p → Inv False p.1 p.2.toSched ∧ K p.2 := by
    intro p hp
    induction hp with
    | refl => exact ⟨hi₀, hK⟩
    | tail _ hm ih =>
      obtain ⟨os, hm⟩ := hm
      exact ⟨hm.inv (fun h => h.elim) ih.1, hmove os _ _ hm ih.1 ih.2⟩
  obtain ⟨hit, hKt⟩ := hpath _ hm
  rcases ht with rfl | ⟨k, r, hcur', rfl, hr⟩
  · exact hend _ hKt
  · exact hret t k r (hcur' ▸ hit) hKt hr

/-- What every move and every return keeps, every step keeps. -/
theorem step_invariant {J : St → Prop} (hp : Placed run s) (hl : leaks s a = false)
    (hs : step s a = some s') (hJ : J s)
    (hmove : ∀ os p p', Move s a os p p' → Inv False p.1 p.2.toSched → J p.2 → J p'.2)
    (hret : ∀ t k r, Inv False t.coCurrent t.toSched → J t → Returns s a t k r →
      J (t.emit (.ret k r))) : J s' :=
  step_rule hp hl hs hJ hmove (fun _ h => h) hret

theorem placed_init (cfg : Config) : Placed run (init cfg) := by
  refine ⟨none, ⟨fun c => ?_, heaped_nil, rfl, rfl, fun _ _ => rfl, fun c => ?_⟩, fun _ => rfl⟩
  · exact seated_out rfl (fun _ => rfl) rfl (fun h => by cases h) (fun _ h => by cases h) rfl rfl
  · simp [init, Routine.zero]

end Libco
