import Libco.Kernel

/-!
# What is left when `co_scheduler_run` returns

The scheduler leaves its loop when the ready queue and the timer heap are empty
after a poll. A coroutine suspended in I/O is then left behind exactly when the
poll, made without a deadline, reported nothing; every reported event wakes a
coroutine, because the kernel holds wait contexts of suspended coroutines only.
-/

namespace Libco
open Lib

variable {run : Prop} {cur : Option Nat} {s s' t s₀ : St} {a : Act} {c : Nat}

/-! ## The end of the loop -/

/-- The poll reports something. -/
def PollResult.delivers : PollResult → Bool
  | .none => false
  | .events evs => !evs.isEmpty
  | .packets ps => !ps.isEmpty

/-- A poll adds to the ready queue and leaves the heap alone. -/
structure Grows (s t : St) : Prop where
  heap : t.timerHeap = s.timerHeap
  ready : ∃ l, t.queues .ready = s.queues .ready ++ l

theorem Grows.refl (s : St) : Grows s s := ⟨rfl, [], by simp⟩

theorem Grows.trans (h : Grows s t) (h' : Grows t s') : Grows s s' := by
  obtain ⟨l, hl⟩ := h.ready
  obtain ⟨l', hl'⟩ := h'.ready
  exact ⟨h'.heap.trans h.heap, l ++ l', by rw [hl', hl, List.append_assoc]⟩

theorem wakeIo_grows (s : St) (c : Nat) (f : Frame) :
    Grows s (wakeIo (s.modify c fun r => { r with frame := f }) c) := by
  obtain ⟨⟨-, -, hh⟩, -, hq⟩ := wakeIo_spec s c f
  exact ⟨hh, _, hq⟩

theorem pollEvent_grows (s : St) (ev : Int × EpollEvents) : Grows s (pollEvent s ev) := by
  unfold pollEvent
  split
  · exact .refl s
  split
  · exact wakeIo_grows s _ _
  · exact .refl s

theorem pollPacket_grows (s : St) (p : Packet) : Grows s (pollPacket s p) := by
  have hdrop : Grows s
      { s with iocp := { s.iocp with inFlight := s.iocp.inFlight.erase p.ptr } } :=
    ⟨rfl, [], by simp⟩
  unfold pollPacket
  dsimp only
  split
  · exact hdrop.trans (wakeIo_grows _ _ _)
  · exact hdrop.trans (wakeIo_grows _ _ _)
  · exact hdrop

theorem foldl_grows {α : Type} {f : St → α → St} (hf : ∀ s x, Grows s (f s x)) (l : List α)
    (s : St) : Grows s (l.foldl f s) := by
  induction l generalizing s with
  | nil => exact .refl s
  | cons x l ih => exact (hf s x).trans (ih _)

theorem PollResult.apply_grows (p : PollResult) (s : St) : Grows s (p.apply s) := by
  cases p with
  | none => exact .refl s
  | events evs => exact foldl_grows pollEvent_grows evs s
  | packets ps => exact foldl_grows pollPacket_grows ps s

theorem Grows.ready_ne (h : Grows s t) (hs : s.queues .ready ≠ []) : t.queues .ready ≠ [] := by
  obtain ⟨l, hl⟩ := h.ready
  rw [hl]
  simp [hs]

/-- A coroutine in an I/O wait is ready after its event. -/
theorem Inv.wakeIo_ready {f : Frame} (hi : Inv run cur s.toSched)
    (hio : (s.co c).frame.isIo = true) :
    (wakeIo (s.modify c fun r => { r with frame := f }) c).queues .ready ≠ [] := by
  obtain ⟨-, -, hq⟩ := wakeIo_spec s c f
  rw [hq]
  have hsus : (s.co c).frame.suspended = true := (Frame.io_suspended hio).1
  rcases (hi.seated c).state hsus with hst | ⟨hst, -⟩
  · have hmem : c ∈ s.queues .ready := hi.mem_of_home (by simp [Routine.home, hsus, hst])
    simp [List.ne_nil_of_mem hmem]
  · simp [hst]

/-- **Every poll that reports something wakes somebody.** -/
theorem PollResult.apply_ready {p : PollResult} (h : Kernel s) (hi : Inv run cur s.toSched)
    (hp : p.possible s = true) (hd : p.delivers = true) : (p.apply s).queues .ready ≠ [] := by
  cases p with
  | none => cases hd
  | events evs =>
    cases evs with
    | nil => cases hd
    | cons ev evs =>
      refine Grows.ready_ne (foldl_grows pollEvent_grows evs _) ?_
      simp only [PollResult.possible, List.all_cons, Bool.and_eq_true] at hp
      obtain ⟨reg, hreg⟩ := Option.isSome_iff_exists.mp hp.1
      obtain ⟨-, x, hx, -⟩ := h.owner ev.1 reg hreg
      simp only [pollEvent, hreg, hx]
      exact hi.wakeIo_ready (by rw [hx]; rfl)
  | packets ps =>
    cases ps with
    | nil => cases hd
    | cons p ps =>
      refine Grows.ready_ne (foldl_grows pollPacket_grows ps _) ?_
      simp only [PollResult.possible, List.all_cons, Bool.and_eq_true, List.contains_iff_mem] at hp
      have hfl := h.flight p.ptr hp.1.1
      have hi' : Inv run cur ({ s with iocp :=
          { s.iocp with inFlight := s.iocp.inFlight.erase p.ptr } } : St).toSched := hi
      unfold Routine.inFlight at hfl
      split at hfl
      · rename_i x hx
        simp only [pollPacket, hx]
        exact hi'.wakeIo_ready (by rw [hx]; rfl)
      · rename_i x hx
        simp only [pollPacket, hx]
        exact hi'.wakeIo_ready (by rw [hx]; rfl)
      · cases hfl

/-- A poll without a deadline reports at least one event. -/
def answered (s : St) : Act → Bool
  | .idle p => !(polls s && coTimerHeapEmpty s.timerHeap) || p.delivers
  | _ => true

/-- No timer is left behind, polls without a deadline report something, and the
32-bit counter does not overflow. -/
def attentive (s : St) (a : Act) : Bool :=
  leakless s a && answered s a && decide (ioWaiters s < 2 ^ 32)

def Attentive (cfg : Config) : St → Prop :=
  Reach step (fun s a => attentive s a = true) (init cfg)

theorem attentive_split (h : attentive s a = true) :
    leaks s a = false ∧ answered s a = true ∧ ioWaiters s < 2 ^ 32 := by
  simpa [attentive, leakless, and_assoc] using h

theorem Attentive.inv {cfg : Config} (h : Attentive cfg s) : Placed False s ∧ Kernel s := by
  refine h.invariant (P := fun s => Placed False s ∧ Kernel s) ⟨placed_init cfg, ?_⟩ ?_
  · refine ⟨fun fd reg hr => ?_, fun p hp => ?_, List.nodup_nil⟩
    · cases hr
    · cases hp
  · rintro s a s' ⟨hp, hk⟩ hg hs
    have hl := (attentive_split hg).1
    exact ⟨hp.step (fun h => h.elim) hl hs, hk.step hp hl hs⟩

/-- Every coroutine that has not finished is in the wait queue of a mutex, a
condition variable or a channel. -/
structure AllBlocked (s : St) : Prop where
  ready : s.queues .ready = []
  timers : s.timerHeap.entries = []
  io : ∀ c, (s.co c).ioSuspended = false
  blocked : ∀ c, (s.co c).unfinished = true →
    (s.co c).state = .waiting ∧ ∃ q, q ≠ .ready ∧ c ∈ s.queues q

theorem Inv.allBlocked (hi : Inv run none s.toSched) (hr : s.queues .ready = [])
    (ht : s.timerHeap.entries = []) (hio : ∀ c, (s.co c).ioSuspended = false) : AllBlocked s := by
  refine ⟨hr, ht, hio, fun c hu => ?_⟩
  have hnu : (s.co c).frame ≠ .user := fun hf => by cases (hi.user c).mp hf
  have hsus : (s.co c).frame.suspended = true := by
    cases hf : (s.co c).frame <;> simp [hf, Routine.unfinished, Frame.suspended] at hu hnu ⊢
  have hmem : ∀ q, (s.co c).home = some q → c ∈ s.queues q := by
    intro q hq
    have hcount := (hi.seated c).queued q
    rw [if_pos hq] at hcount
    exact List.count_pos_iff.mp (by omega)
  rcases (hi.seated c).state hsus with hst | ⟨hst, hb⟩
  · have := hmem .ready (by simp [Routine.home, hsus, hst])
    simp [hr] at this
  · refine ⟨hst, ?_⟩
    cases hw : (s.co c).frame.waitQueue with
    | some q => exact ⟨q, Frame.waitQueue_ne_ready hw, hmem q (by simp [Routine.home, hsus, hst, hw])⟩
    | none =>
      -- a sleep has a timer, and an I/O wait is counted
      exfalso
      have hnio := hio c
      have hmust := (hi.seated c).timer_must
      rw [ht] at hmust
      cases hf : (s.co c).frame <;>
        simp [hf, hst, Frame.waitQueue, Frame.blocks, Routine.ioSuspended, Frame.isIo,
          Routine.mustTimer, Frame.timed] at hw hb hnio hmust

theorem settle_ctl {o : Outcome} {k : Nat} {R : Option Nat × St → Prop} (h : o.Via R (some c)) :
    (settle s k o).ctl ≠ .outside := by
  cases o with
  | ret r t => simp [settle, St.emit, coCurrent_ctl h.2]
  | swap t => simp [settle]
  | abort => simp [settle]

theorem call_ctl {op : Op} (hp : Placed run s) (hl : leaks s (.call op) = false)
    (hs : step s (.call op) = some s') (hrun : s.ctl ≠ .outside) : s'.ctl ≠ .outside := by
  have hi := hp.current hs
  obtain ⟨huser, rfl⟩ := step_call hs
  obtain ⟨c, hc⟩ : ∃ c, s.coCurrent = some c := by
    unfold inUserCode at huser
    unfold St.coCurrent
    split at huser
    · rename_i c hctl
      exact ⟨c, by simp [hctl]⟩
    · rename_i hctl
      exact absurd hctl hrun
    · cases huser
  have hvia := call_via hi hl
  rw [hc] at hvia
  exact settle_ctl hvia

/-- `co_scheduler_run` returns at the end of an idle phase, or because it was told to
stop. -/
theorem step_outside (hp : Placed run s) (hl : leaks s a = false) (hs : step s a = some s')
    (hrun : s.ctl ≠ .outside) (hret : s'.ctl = .outside) (hstop : s.shouldStop = false) :
    ∃ now p, a = .idle p ∧ s.ctl = .idle now ∧ p.possible s = true ∧ s' = idlePhase s now p := by
  have hi := hp.current hs
  cases a with
  | run => exact absurd (step_run hs).1 hrun
  | timers now =>
    obtain ⟨-, ⟨hgo, -⟩ | ⟨-, t, -, -, rfl⟩⟩ := hi.timers_eq hs
    · rw [hstop] at hgo
      cases hgo
    · dsimp only at hret
      split at hret <;> cases hret
  | idle p =>
    obtain ⟨now, hctl, hpos, rfl⟩ := step_idlePhase hs
    exact ⟨now, p, rfl, hctl, hpos, rfl⟩
  | schedule e =>
    obtain ⟨hctl, rfl⟩ := step_schedule hs
    have hc : s.coCurrent = none := by simp [St.coCurrent, hctl]
    rw [hc] at hi
    obtain ⟨-, he⟩ | ⟨c, rest, hq, ⟨-, he⟩ | ⟨-, he⟩⟩ := schedule_cases s e
    · rw [he] at hret
      cases hret
    · rw [he] at hret
      simp [switchTo, St.emit] at hret
    · rw [he] at hret
      exact absurd hret (settle_ctl (resume_via (a := .schedule e) hi hq rfl hl))
  | spawn e =>
    obtain ⟨-, rfl⟩ := step_spawn hs
    exact absurd ((coSpawn_quiet e).ctl.symm.trans hret) hrun
  | call op => exact absurd hret (call_ctl hp hl hs hrun)
  | finish =>
    obtain ⟨c, -, rfl⟩ := step_finish hs
    simp [St.emit] at hret

/-- **The scheduler never abandons work.** -/
theorem no_work_abandoned {cfg : Config} (h : Attentive cfg s) (hg : attentive s a = true)
    (hs : step s a = some s') (hrun : s.ctl ≠ .outside) (hret : s'.ctl = .outside)
    (hstop : s.shouldStop = false) : AllBlocked s' := by
  obtain ⟨hp, hk⟩ := h.inv
  obtain ⟨hl, hans, hlt⟩ := attentive_split hg
  obtain ⟨now, p, rfl, hctl, hpos, rfl⟩ := step_outside hp hl hs hrun hret hstop
  have hexact := hp.ioCountExact hlt
  obtain ⟨cur, hi, hcur⟩ := hp
  have hc : s.coCurrent = none := by simp [St.coCurrent, hctl]
  rw [← hcur (by simp [hctl]), hc] at hi
  unfold idlePhase at hret ⊢
  by_cases hpoll : polls s = true
  · -- a poll with an empty heap reports something, so the loop goes on
    exfalso
    simp only [hpoll, if_true] at hret
    have hgrow := p.apply_grows (s.emit (.poll (ioTimeoutMs s now)))
    split at hret
    · rename_i hend
      simp only [Bool.and_eq_true, coQueueEmpty, coTimerHeapEmpty, List.isEmpty_iff] at hend
      have hheap : s.timerHeap.entries = [] := by
        have := hend.2
        rwa [hgrow.heap] at this
      have hdel : p.delivers = true := by
        simpa [answered, hpoll, coTimerHeapEmpty, hheap] using hans
      refine PollResult.apply_ready (s := s.emit _) ⟨hk.owner, hk.flight, hk.once⟩
        (hi.same rfl rfl rfl ⟨rfl, rfl, rfl⟩) ?_ hdel hend.1
      cases p <;> exact hpos
    · cases hret
  · simp only [hpoll, Bool.false_eq_true, if_false] at hret ⊢
    simp only [polls, Bool.or_eq_true, decide_eq_true_eq, Bool.not_eq_true', not_or,
      Bool.not_eq_false, Nat.not_lt, Nat.le_zero, coTimerHeapEmpty, List.isEmpty_iff] at hpoll
    have hio : ∀ c, (s.co c).ioSuspended = false := by
      intro c
      by_contra hne
      have := hexact.positive c (by simpa using hne)
      omega
    split at hret
    · rename_i hend
      simp only [Bool.and_eq_true, coQueueEmpty, List.isEmpty_iff] at hend
      rw [if_pos (by simpa [coQueueEmpty, coTimerHeapEmpty] using ⟨hend.1, hpoll.2⟩)]
      exact Inv.allBlocked (hi.same rfl rfl rfl ⟨rfl, rfl, rfl⟩) hend.1 hpoll.2 hio
    · cases hret

/-- A reader is served and finishes; a second coroutine stays blocked on a mutex that
nobody unlocks. -/
def servedRun : List Act :=
  [spawnOk, spawnOk, .call (.mutexLock 0), .run] ++ turn ++ [readWait 5 (-1) 0] ++ turn ++
    [Act.call (.mutexLock 0)] ++ pollReadable 5 ++ turn ++ [Act.finish, .timers 0]

theorem no_work_abandoned_served :
    ∃ s s', runGuarded step attentive (init (byteConfig 0)) servedRun = some s ∧
      step s (.idle .none) = some s' ∧ s.ctl = .idle 0 ∧ s'.ctl = .outside ∧
      s'.queues (.mutex 0) = [2] ∧ AllBlocked s' := by
  have hrun : (runGuarded step attentive (init (byteConfig 0)) servedRun).map
      (fun s => (s.ctl, s.shouldStop, attentive s (.idle .none))) = some (.idle 0, false, true) := by
    decide +kernel
  have hrun' : ((runGuarded step attentive (init (byteConfig 0)) servedRun).bind
      fun s => step s (.idle .none)).map (fun t => (t.ctl, t.queues (.mutex 0))) =
        some (.outside, [2]) := by
    decide +kernel
  obtain ⟨s, hs, he⟩ := Option.map_eq_some_iff.mp hrun
  simp only [Prod.mk.injEq] at he
  obtain ⟨hctl, hstop, hatt⟩ := he
  rw [hs] at hrun'
  obtain ⟨s', hs', he'⟩ := Option.map_eq_some_iff.mp hrun'
  simp only [Prod.mk.injEq] at he'
  exact ⟨s, s', hs, hs', hctl, he'.1, he'.2, no_work_abandoned (reach_of_runGuarded hs) hatt hs'
    (by simp [hctl]) he'.1 hstop⟩

/-- A reader waits without deadline, and `epoll_wait` is interrupted. -/
def interruptedRun : List Act :=
  [spawnOk, .run] ++ turn ++ [readWait 5 (-1) 0, .timers 0, .idle .none]

/-- `co_scheduler_run` has returned `CO_OK`, and the reader is still waiting. -/
theorem reader_abandoned :
    ∃ s, runActs step (init (byteConfig 0)) interruptedRun = some s ∧ s.ctl = .outside ∧
      s.trace.getLast? = some (.runRet .ok) ∧ s.shouldStop = false ∧
      (s.co 1).ioSuspended = true ∧ ¬ AllBlocked s := by
  have hrun : (runActs step (init (byteConfig 0)) interruptedRun).map
      (fun s => (s.ctl, s.trace.getLast?, s.shouldStop, (s.co 1).ioSuspended)) =
        some (.outside, some (.runRet .ok), false, true) := by
    decide +kernel
  obtain ⟨s, hs, he⟩ := Option.map_eq_some_iff.mp hrun
  simp only [Prod.mk.injEq] at he
  obtain ⟨hctl, htr, hstop, hio⟩ := he
  refine ⟨s, hs, hctl, htr, hstop, hio, fun h => ?_⟩
  rw [h.io 1] at hio
  cases hio

end Libco
