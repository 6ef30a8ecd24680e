import Mathlib.Logic.Function.Iterate
import Libco.Deadlines

/-!
# The timer phase

The inner loop of `co_scheduler_run`, for any state whose timer heap, ready queue and
condition queues fit the records (`TimersLinked`), reachable or not: it ends, takes the due
entries off the heap and wakes those of their coroutines that are waiting, in the order of
their deadlines, and does nothing else (`TimerPhase`).
-/

namespace Libco
open Lib

variable {s t u : St} {c now : Nat} {l l' : List Nat}

/-- The heap is ordered and has one entry for a coroutine; who is in the ready queue is
`READY`; who waits with a deadline is in the condition queue it names and in no other
queue. -/
structure TimersLinked (s : St) : Prop where
  ordered : Heaped s.key s.timerHeap.entries
  once : s.timerHeap.entries.Nodup
  alive : ∀ c ∈ s.timerHeap.entries, (s.co c).frame ≠ .freed
  nodup : ∀ q, (s.queues q).Nodup
  ready : ∀ c ∈ s.queues .ready, (s.co c).state = .ready
  cond : ∀ c ∈ s.timerHeap.entries, ∀ v, (s.co c).state = .waiting →
    (s.co c).condWaitQueue = some v → c ∈ s.queues (.cond v)
  single : ∀ c ∈ s.timerHeap.entries, (s.co c).state = .waiting →
    ∀ q, c ∈ s.queues q → ∃ v, (s.co c).condWaitQueue = some v ∧ q = .cond v

/-- What the timer phase does to the record of a coroutine it wakes. -/
def Routine.expire (r : Routine) : Routine :=
  match r.condWaitQueue with
  | some _ => { r with timedOut := true, condWaitQueue := none, state := .ready }
  | none =>
    if r.ioWaiting then { r with ioWaiting := false, timedOut := true, state := .ready }
    else { r with state := .ready }

/-- In a timed I/O wait, to the eyes of the timer phase. -/
def Routine.timedIo (r : Routine) : Bool := r.condWaitQueue.isNone && r.ioWaiting

@[simp] theorem Routine.expire_wakeupTime (r : Routine) : r.expire.wakeupTime = r.wakeupTime := by
  unfold Routine.expire
  split
  · rfl
  · split <;> rfl

@[simp] theorem Routine.expire_state (r : Routine) : r.expire.state = .ready := by
  unfold Routine.expire
  split
  · rfl
  · split <;> rfl

/-! ## Waking -/

/-- Between `s` and `t` the coroutines of `l` are woken by their deadlines. -/
structure Woke (s t : St) (l : List Nat) : Prop where
  ready : t.queues .ready = s.queues .ready ++ l
  cond : ∀ v, t.queues (.cond v) = (s.queues (.cond v)).filter fun c =>
    !(decide (c ∈ l) && (s.co c).condWaitQueue == some v)
  others : ∀ q, q ≠ .ready → (∀ v, q ≠ .cond v) → t.queues q = s.queues q
  co : ∀ c, t.co c = if c ∈ l then (s.co c).expire else s.co c
  io : t.waitingIoCount = decr32^[l.countP fun c => (s.co c).timedIo] s.waitingIoCount
  rest : t = { s with
    co := t.co, queues := t.queues, timerHeap := t.timerHeap, waitingIoCount := t.waitingIoCount
    trace := t.trace }

theorem Woke.none {h : TimerHeap} : Woke s { s with timerHeap := h } [] := by
  constructor <;> simp

theorem Woke.trans (h : Woke s u l) (h' : Woke u t l') (hd : ∀ c ∈ l', c ∉ l) :
    Woke s t (l ++ l') := by
  have hco : ∀ c ∈ l', u.co c = s.co c := fun c hc => by rw [h.co, if_neg (hd c hc)]
  constructor
  · rw [h'.ready, h.ready, List.append_assoc]
  · intro v
    rw [h'.cond, h.cond, List.filter_filter]
    refine List.filter_congr fun c _ => ?_
    by_cases hc : c ∈ l'
    · simp [hc, hd c hc, hco c hc]
    · simp [hc]
  · intro q hr hv
    rw [h'.others q hr hv, h.others q hr hv]
  · intro c
    rw [h'.co, h.co]
    by_cases hc : c ∈ l'
    · simp [hc, hd c hc]
    · simp [hc]
  · have hcount : l'.countP (fun c => (u.co c).timedIo) = l'.countP fun c => (s.co c).timedIo :=
      List.countP_congr fun c hc => by rw [hco c hc]
    rw [h'.io, h.io, hcount, List.countP_append, Nat.add_comm, Function.iterate_add_apply]
  · rw [h'.rest, h.rest]

/-- The end of a round: the coroutine, its record changed to `r`, is enqueued. -/
theorem woke_enqueue {r : Routine} (hready : u.queues .ready = s.queues .ready)
    (hcond : ∀ v, u.queues (.cond v) = (s.queues (.cond v)).filter fun d =>
      !(decide (d ∈ [c]) && (s.co d).condWaitQueue == some v))
    (hothers : ∀ q, q ≠ .ready → (∀ v, q ≠ .cond v) → u.queues q = s.queues q)
    (hco : u.co = Function.update s.co c r) (hr : { r with state := .ready } = (s.co c).expire)
    (hio : u.waitingIoCount = if (s.co c).timedIo then decr32 s.waitingIoCount
      else s.waitingIoCount)
    (hrest : u = { s with
      co := u.co, queues := u.queues, timerHeap := u.timerHeap, waitingIoCount := u.waitingIoCount
      trace := u.trace }) : Woke s (coSchedulerEnqueue u c) [c] := by
  constructor
  · simp [coSchedulerEnqueue, coQueuePushBack, St.modify, St.emit, hready]
  · intro v
    simpa [coSchedulerEnqueue, coQueuePushBack, St.modify, St.emit] using hcond v
  · intro q hq hv
    simpa [coSchedulerEnqueue, coQueuePushBack, St.modify, St.emit, hq] using hothers q hq hv
  · intro d
    by_cases hd : d = c
    · simp [coSchedulerEnqueue, coQueuePushBack, St.modify, St.emit, hco, hd, hr]
    · simp [coSchedulerEnqueue, coQueuePushBack, St.modify, St.emit, hco, hd]
  · cases ht : (s.co c).timedIo <;>
      simpa [coSchedulerEnqueue, coQueuePushBack, St.modify, St.emit, ht] using hio
  · rw [hrest]
    rfl

/-- A round of the loop for a coroutine that waits. -/
theorem expireTop_woke (hl : TimersLinked s) (hs : (s.co c).state = .waiting) :
    Woke s (expireTop s c) [c] := by
  unfold expireTop
  dsimp only
  rw [if_neg (by simp [hs])]
  have hkeep : ∀ v, (s.co c).condWaitQueue ≠ some v →
      s.queues (.cond v) = (s.queues (.cond v)).filter fun d =>
        !(decide (d ∈ [c]) && (s.co d).condWaitQueue == some v) := by
    intro v hv
    refine (List.filter_eq_self.mpr fun d _ => ?_).symm
    by_cases hd : d = c <;> simp [hd, hv]
  cases hc : (s.co c).condWaitQueue with
  | some v =>
    -- the condition queue it names loses it
    have herase : (s.queues (.cond v)).erase c = (s.queues (.cond v)).filter fun d =>
        !(decide (d ∈ [c]) && (s.co d).condWaitQueue == some v) := by
      rw [(hl.nodup _).erase_eq_filter]
      refine List.filter_congr fun d _ => ?_
      by_cases hd : d = c <;> simp [hd, hc]
    refine woke_enqueue rfl (fun w => ?_) (fun q _ hq => ?_) rfl ?_ ?_ rfl
    · by_cases hw : w = v
      · subst hw
        simpa [coQueueRemove, St.modify, St.emit] using herase
      · have := hkeep w (by simpa [hc] using Ne.symm hw)
        simpa [coQueueRemove, St.modify, St.emit, hw] using this
    · simp [coQueueRemove, St.modify, St.emit, hq]
    · simp [Routine.expire, hc, coQueueRemove]
    · simp [Routine.timedIo, hc, coQueueRemove, St.modify, St.emit]
  | none =>
    cases hi : (s.co c).ioWaiting with
    | true =>
      simp only [if_true]
      refine woke_enqueue rfl (fun v => hkeep v (by simp [hc])) (fun q _ _ => rfl) rfl ?_ ?_ rfl
      · simp [Routine.expire, hc, hi]
      · simp [Routine.timedIo, hc, hi, St.modify]
    | false =>
      simp only [Bool.false_eq_true, if_false]
      refine woke_enqueue rfl (fun v => hkeep v (by simp [hc])) (fun q _ _ => rfl)
        (Function.update_eq_self c s.co).symm ?_ ?_ rfl
      · simp [Routine.expire, hc, hi]
      · simp [Routine.timedIo, hc, hi]

/-- A round of the loop wakes the coroutine if it waits, and else drops the entry. -/
theorem expireTop_cases (hl : TimersLinked s) :
    Woke s (expireTop s c) (if (s.co c).state = .waiting then [c] else []) := by
  by_cases hs : (s.co c).state = .waiting
  · rw [if_pos hs]
    exact expireTop_woke hl hs
  · rw [if_neg hs, show expireTop s c = { s with
      timerHeap := (coTimerHeapPop s.key s.timerHeap).2 } from if_pos hs]
    exact Woke.none

theorem Woke.key (h : Woke s t l) : t.key = s.key := by
  funext c
  simp only [Sched.key, h.co]
  split
  · rw [Routine.expire_wakeupTime]
  · rfl

/-- Waking waiting coroutines that leave the heap keeps everything linked. -/
theorem Woke.linked (h : Woke s t l) (hl : TimersLinked s) (hn : l.Nodup)
    (hw : ∀ c ∈ l, (s.co c).state = .waiting ∧ c ∈ s.timerHeap.entries)
    (hord : Heaped s.key t.timerHeap.entries)
    (hsub : ∀ c ∈ t.timerHeap.entries, c ∈ s.timerHeap.entries ∧ c ∉ l)
    (honce : t.timerHeap.entries.Nodup) : TimersLinked t := by
  have hco : ∀ c ∈ t.timerHeap.entries, t.co c = s.co c := fun c hc => by
    rw [h.co, if_neg (hsub c hc).2]
  -- queues only lose members, except that the ready queue gains `l`
  have hmem : ∀ q c, c ∈ t.queues q → c ∈ s.queues q ∨ (q = .ready ∧ c ∈ l) := by
    intro q c hc
    cases q with
    | ready =>
      rw [h.ready, List.mem_append] at hc
      exact hc.imp id fun hc => ⟨rfl, hc⟩
    | cond v =>
      rw [h.cond] at hc
      exact .inl (List.mem_filter.mp hc).1
    | mutex | send | recv =>
      rw [h.others _ (by simp) (by simp)] at hc
      exact .inl hc
  constructor
  · rw [h.key]
    exact hord
  · exact honce
  · intro c hc
    rw [hco c hc]
    exact hl.alive c (hsub c hc).1
  · intro q
    cases q with
    | ready =>
      rw [h.ready]
      refine List.nodup_append.mpr ⟨hl.nodup _, hn, ?_⟩
      rintro c hc d hd rfl
      have hr := hl.ready c hc
      rw [(hw c hd).1] at hr
      cases hr
    | cond v =>
      rw [h.cond]
      exact (hl.nodup _).filter _
    | mutex | send | recv =>
      rw [h.others _ (by simp) (by simp)]
      exact hl.nodup _
  · intro c hc
    rw [h.co]
    split
    · exact Routine.expire_state _
    · rename_i hcl
      rcases hmem _ c hc with hc | ⟨-, hc⟩
      · exact hl.ready c hc
      · exact absurd hc hcl
  · intro c hc v hs hv
    rw [hco c hc] at hs hv
    rw [h.cond]
    refine List.mem_filter.mpr ⟨hl.cond c (hsub c hc).1 v hs hv, ?_⟩
    simp [(hsub c hc).2]
  · intro c hc hs q hq
    rw [hco c hc] at hs ⊢
    rcases hmem q c hq with hq | ⟨-, hq⟩
    · exact hl.single c (hsub c hc).1 hs q hq
    · exact absurd hq (hsub c hc).2

/-! ## The whole phase -/

/-- The timer phase at `now`, from `s` to `t`; it wakes the coroutines of `l`. -/
structure TimerPhase (now : Nat) (s t : St) (l : List Nat) : Prop where
  /-- the heap keeps the entries whose deadline has not come -/
  heap : t.timerHeap.entries.Perm (s.timerHeap.entries.filter fun c => now < (s.co c).wakeupTime)
  /-- those woken are the waiting coroutines whose deadline has come, each once -/
  exact : l.Perm (s.timerHeap.entries.filter fun c =>
    (s.co c).wakeupTime ≤ now && (s.co c).state == .waiting)
  once : l.Nodup
  sorted : l.Pairwise fun c d => (s.co c).wakeupTime ≤ (s.co d).wakeupTime
  woke : Woke s t l
  linked : TimersLinked t

/-- A round before the rest of the phase. -/
theorem TimerPhase.round {rest l₀ : List Nat} (h : TimerPhase now u t l) (hw : Woke s u l₀)
    (he : s.timerHeap.entries = c :: rest) (hnodup : s.timerHeap.entries.Nodup)
    (hperm : u.timerHeap.entries.Perm rest)
    (hmin : ∀ d ∈ s.timerHeap.entries, (s.co c).wakeupTime ≤ (s.co d).wakeupTime)
    (hdue : (s.co c).wakeupTime ≤ now)
    (hl₀ : l₀ = if (s.co c).state = .waiting then [c] else []) : TimerPhase now s t (l₀ ++ l) := by
  rw [he] at hnodup
  obtain ⟨hc, -⟩ := List.nodup_cons.mp hnodup
  have hsub : ∀ d ∈ l₀, d = c := by
    intro d hd
    rw [hl₀] at hd
    split at hd <;> simp at hd
    exact hd
  have hco : ∀ d ∈ rest, u.co d = s.co d := by
    intro d hd
    rw [hw.co, if_neg]
    exact fun hd' => hc (hsub d hd' ▸ hd)
  have hmem : ∀ d ∈ l, d ∈ rest := fun d hd =>
    hperm.subset (List.mem_filter.mp (h.exact.subset hd)).1
  have hdis : ∀ d ∈ l, d ∉ l₀ := fun d hd hd' => hc (hsub d hd' ▸ hmem d hd)
  refine ⟨?_, ?_, ?_, ?_, hw.trans h.woke hdis, h.linked⟩
  · rw [he, List.filter_cons_of_neg (by simpa using hdue)]
    refine h.heap.trans ((hperm.filter _).trans (List.Perm.of_eq ?_))
    exact List.filter_congr fun d hd => by rw [hco d hd]
  · have hrest : l.Perm (rest.filter fun d =>
        (s.co d).wakeupTime ≤ now && (s.co d).state == .waiting) := by
      refine h.exact.trans ((hperm.filter _).trans (List.Perm.of_eq ?_))
      exact List.filter_congr fun d hd => by rw [hco d hd]
    rw [he, hl₀]
    by_cases hs : (s.co c).state = .waiting
    · rw [if_pos hs, List.filter_cons_of_pos (by simp [hs, hdue])]
      exact hrest.cons c
    · rw [if_neg hs, List.filter_cons_of_neg (by simp [hs])]
      exact hrest
  · have hn₀ : l₀.Nodup := by
      rw [hl₀]
      split <;> simp
    refine List.nodup_append.mpr ⟨hn₀, h.once, ?_⟩
    rintro d hd e he rfl
    exact hdis d he hd
  · refine List.pairwise_append.mpr ⟨?_, ?_, ?_⟩
    · rw [hl₀]
      split <;> simp
    · refine h.sorted.imp_of_mem fun {d e} hd he hle => ?_
      rwa [hco d (hmem d hd), hco e (hmem e he)] at hle
    · intro d hd e hme
      rw [hsub d hd]
      exact hmin e (by simp [he, hmem e hme])

theorem timerLoop_phase (n : Nat) (s : St) (hl : TimersLinked s)
    (hn : s.timerHeap.entries.length ≤ n) : ∃ l, TimerPhase now s (timerLoop now n s) l := by
  induction n generalizing s with
  | zero =>
    have hnil : s.timerHeap.entries = [] := List.eq_nil_of_length_eq_zero (by omega)
    refine ⟨[], by simp [timerLoop, hnil], by simp [hnil], by simp, by simp, ?_, hl⟩
    exact Woke.none (h := s.timerHeap)
  | succ n ih =>
    simp only [timerLoop, coTimerHeapPeek]
    cases he : s.timerHeap.entries with
    | nil =>
      refine ⟨[], by simp [he], by simp [he], by simp, by simp, ?_, hl⟩
      exact Woke.none (h := s.timerHeap)
    | cons c rest =>
      obtain ⟨-, hord, hperm, hmin⟩ := coTimerHeapPop_spec hl.ordered he
      simp only [List.head?_cons]
      rw [if_neg (hl.alive c (by simp [he]))]
      split
      · -- the root has not expired, and so nothing has
        rename_i hlt
        have hall : ∀ d ∈ s.timerHeap.entries, now < (s.co d).wakeupTime := fun d hd =>
          Nat.lt_of_lt_of_le hlt (hmin d hd)
        refine ⟨[], ?_, ?_, by simp, by simp, Woke.none (h := s.timerHeap), hl⟩
        · rw [List.filter_eq_self.mpr fun d hd => by simpa using hall d hd]
        · rw [List.filter_eq_nil_iff.mpr fun d hd => by
            have := hall d hd
            simp only [Bool.and_eq_true, decide_eq_true_eq]
            omega]
      · rename_i hge
        have hw := expireTop_cases (c := c) hl
        have hheap : (expireTop s c).timerHeap.entries.Perm rest := by
          rw [(expireTop_heap_ctl s c).1]
          exact hperm
        have hnodup := hl.once
        rw [he] at hnodup
        obtain ⟨hc, hnr⟩ := List.nodup_cons.mp hnodup
        have hsub : ∀ d ∈ (if (s.co c).state = .waiting then [c] else []),
            d = c ∧ (s.co d).state = .waiting := by
          intro d hd
          split at hd
          · rename_i hs
            simp only [List.mem_singleton] at hd
            exact ⟨hd, hd ▸ hs⟩
          · cases hd
        have hlink : TimersLinked (expireTop s c) := by
          refine hw.linked hl ?_ (fun d hd => ?_) ?_ (fun d hd => ?_) (hheap.nodup_iff.mpr hnr)
          · split <;> simp
          · obtain ⟨rfl, hs⟩ := hsub d hd
            exact ⟨hs, by simp [he]⟩
          · rw [(expireTop_heap_ctl s c).1]
            exact hord
          · have hdr := hheap.subset hd
            refine ⟨by simp [he, hdr], fun hd' => hc ?_⟩
            exact (hsub d hd').1 ▸ hdr
        have hlen : (expireTop s c).timerHeap.entries.length ≤ n := by
          rw [hheap.length_eq]
          rw [he] at hn
          simpa using hn
        obtain ⟨l, hp⟩ := ih _ hlink hlen
        exact ⟨_, hp.round hw he hl.once hheap hmin (by omega) rfl⟩

/-- The loop is over after as many rounds as the heap has entries. -/
theorem timerLoop_ends (n : Nat) (s : St) (hn : s.timerHeap.entries.length ≤ n) :
    timerLoop now n s = timerLoop now s.timerHeap.entries.length s := by
  generalize hk : s.timerHeap.entries.length = k at hn ⊢
  induction k generalizing s n with
  | zero =>
    have hnil : s.timerHeap.entries = [] := List.eq_nil_of_length_eq_zero hk
    cases n with
    | zero => rfl
    | succ n => simp [timerLoop, coTimerHeapPeek, hnil]
  | succ k ih =>
    obtain ⟨n, rfl⟩ : ∃ m, n = m + 1 := ⟨n - 1, by omega⟩
    obtain ⟨c, rest, he⟩ := List.exists_cons_of_length_eq_add_one hk
    have hlen : (expireTop s c).timerHeap.entries.length = k := by
      rw [(expireTop_heap_ctl s c).1, (coTimerHeapPop_perm s.key he).2.length_eq]
      rw [he] at hk
      simpa using hk
    simp only [timerLoop, coTimerHeapPeek, he, List.head?_cons]
    rw [ih n (expireTop s c) hlen (by omega)]

/-- **The timer phase wakes exactly the expired waiters.** -/
theorem timer_phase_exact (hl : TimersLinked s) :
    (∀ n, s.timerHeap.entries.length ≤ n →
      timerLoop now n s = timerLoop now s.timerHeap.entries.length s) ∧
    ∃ l, TimerPhase now s (timerLoop now s.timerHeap.entries.length s) l :=
  ⟨fun n hn => timerLoop_ends n s hn, timerLoop_phase _ s hl le_rfl⟩

/-- The states of the scheduler's runs are linked. -/
theorem Inv.timersLinked {run : Prop} {cur : Option Nat} (hi : Inv run cur s.toSched) :
    TimersLinked s := by
  refine ⟨hi.ordered, hi.nodup_heap, fun c hc => hi.not_freed hc, hi.nodup_queue,
    fun c hc => (Routine.home_ready (hi.mem_queue hc)).2, fun c hc v hs hv => ?_,
    fun c hc hs q hq => ?_⟩
  · obtain ⟨w, m, hf, hcw⟩ | ⟨-, hcw, -⟩ | ⟨-, hcw, -⟩ := hi.timer_frame hc hs
    · rw [hv, Option.some.injEq] at hcw
      subst hcw
      exact hi.mem_of_home (by simp [Routine.home, hf, Frame.suspended, hs, Frame.waitQueue])
    · rw [hv] at hcw
      cases hcw
    · rw [hv] at hcw
      cases hcw
  · have hne : q ≠ .ready := by
      rintro rfl
      have := (Routine.home_ready (hi.mem_queue hq)).2
      rw [hs] at this
      cases this
    have hwq := (Routine.home_wait (hi.mem_queue hq) hne).2
    obtain ⟨v, m, hf, hcw⟩ | ⟨hf, -, -⟩ | ⟨hf, -, -⟩ := hi.timer_frame hc hs
    · refine ⟨v, hcw, ?_⟩
      simpa [hf, Frame.waitQueue, eq_comm] using hwq
    · simp [hf, Frame.waitQueue] at hwq
    · rw [(Frame.io_suspended hf).2.1] at hwq
      cases hwq

/-- A wait on a condition, a read and two sleeps, with deadlines 100, 70, 50 and 500. -/
def fourTimersRun : List Act :=
  [spawnOk, spawnOk, spawnOk, spawnOk, .run] ++ turn ++
    [Act.call (.mutexLock 0), .call (.condTimedwait 0 0 100 0 true)] ++ turn ++ [readWait 5 70 0] ++
    turn ++ [Act.call (.sleep 50 0 true)] ++ turn ++ [Act.call (.sleep 500 0 true)]

theorem timer_phase_exact_four :
    ∃ s, runGuarded step leakless (init (byteConfig 0)) fourTimersRun = some s ∧
      TimersLinked s ∧ s.timerHeap.entries.length = 4 ∧
      (timerLoop 100 4 s).queues .ready = [3, 2, 1] ∧ (timerLoop 100 4 s).waitingIoCount = 0 ∧
      ∃ l, TimerPhase 100 s (timerLoop 100 s.timerHeap.entries.length s) l := by
  have hrun : (runGuarded step leakless (init (byteConfig 0)) fourTimersRun).map
      (fun s => (s.timerHeap.entries.length, (timerLoop 100 4 s).queues .ready,
        (timerLoop 100 4 s).waitingIoCount)) = some (4, [3, 2, 1], 0) := by
    decide +kernel
  obtain ⟨s, hs, he⟩ := Option.map_eq_some_iff.mp hrun
  simp only [Prod.mk.injEq] at he
  have hreach : Leakless (byteConfig 0) s := reach_of_runGuarded hs
  obtain ⟨cur, hi, -⟩ := hreach.placed
  exact ⟨s, hs, hi.timersLinked, he.1, he.2.1, he.2.2, (timer_phase_exact hi.timersLinked).2⟩

end Libco
