import Mathlib.Data.Finset.Max
import Libco.Exclusion
import Libco.Progress
import Libco.RunReturn

/-!
# Ordered locks do not deadlock

A program whose coroutines lock mutexes in rising rank, release what they hold before
they return, and make no other library calls than those on mutexes, sleeps and yields is
never stuck: as long as a coroutine is left, one of them runs, is ready or has a deadline.
When `co_scheduler_run` returns, all of them have finished. Allocations may fail.
-/

namespace Libco
open Lib

variable {run : Prop} {cur : Option Nat} {s s' t : St} {a : Act} {c m : Nat} {rank : Nat → Nat}

/-! ## The discipline -/

/-- The mutexes of a history. -/
def lockedOnce (h : List Event) : List Nat :=
  h.filterMap fun
    | .take m _ | .enter m _ => some m
    | _ => none

/-- The mutexes a coroutine holds. -/
def heldBy (c : Nat) (h : List Event) : List Nat :=
  (lockedOnce h).filter fun m => (holders m h).contains (some c)

theorem holders_lockedOnce {h : List Event} {w : Option Nat} (hw : w ∈ holders m h) :
    m ∈ lockedOnce h := by
  induction h using List.reverseRecOn generalizing w with
  | nil => cases hw
  | append_singleton h e ih =>
    rw [holders_append] at hw
    rw [lockedOnce, List.filterMap_append, List.mem_append]
    cases e with
    | take m' w' =>
      by_cases hm : m' = m
      · exact .inr (by simp [hm])
      · exact .inl (ih (by simpa [holdersStep, hm] using hw))
    | enter m' c =>
      by_cases hm : m' = m
      · exact .inr (by simp [hm])
      · exact .inl (ih (by simpa [holdersStep, hm] using hw))
    | release m' w' =>
      refine .inl (ih (w := w) ?_)
      simp only [List.foldl_cons, List.foldl_nil, holdersStep] at hw
      split at hw
      · exact List.mem_of_mem_erase hw
      · exact hw
    | _ => exact .inl (ih hw)

theorem mem_heldBy {h : List Event} : m ∈ heldBy c h ↔ some c ∈ holders m h := by
  simp only [heldBy, List.mem_filter, List.contains_iff_mem]
  exact ⟨fun hm => hm.2, fun hm => ⟨holders_lockedOnce hm, hm⟩⟩

/-- Locks go up in rank, a coroutine returns without a mutex, and nothing else is
waited for than mutexes and deadlines. -/
def ordered (rank : Nat → Nat) (s : St) : Act → Bool
  | .call (.mutexLock m) =>
    match s.coCurrent with
    | some c => (heldBy c s.trace).all fun m' => rank m' < rank m
    | none => false
  | .call (.mutexTrylock _) => s.coCurrent.isSome
  | .call (.mutexUnlock _) | .call .yieldNow | .call (.sleep _ _ _) => true
  | .call _ => false
  | .finish =>
    match s.coCurrent with
    | some c => (heldBy c s.trace).isEmpty
    | none => false
  | _ => true

/-- Allocations may fail; `ordered` leaves no call but those on mutexes, yields and sleeps. -/
def hierarchical (rank : Nat → Nat) (s : St) (a : Act) : Bool :=
  disciplined s a && ordered rank s a

/-- The states of the runs that keep the discipline. -/
def Hierarchical (rank : Nat → Nat) (cfg : Config) : St → Prop :=
  Reach step (fun s a => hierarchical rank s a = true) (init cfg)

theorem hierarchical_split (h : hierarchical rank s a = true) :
    a.isIo = false ∧ disciplined s a = true ∧ ordered rank s a = true := by
  simp only [hierarchical, Bool.and_eq_true] at h
  refine ⟨?_, h.1, h.2⟩
  cases a with
  | call op =>
    have hord := h.2
    cases op <;> first | rfl | simp [ordered] at hord
  | _ => rfl

theorem Hierarchical.inv {cfg : Config} (h : Hierarchical rank cfg s) :
    Placed False s ∧ NoIo s ∧ (∀ m, MutexInv m s) ∧ s.ctl ≠ .aborted :=
  inv_of_reach h fun s a hg => by
    obtain ⟨hio, hd, -⟩ := hierarchical_split hg
    exact ⟨hio, fun hf => hf.elim, hd⟩

/-! ## What the discipline keeps -/

/-- The frames of such a program. -/
def Frame.calm : Frame → Bool
  | .absent | .freed | .user | .entry | .yieldNow | .sleep | .lock _ => true
  | _ => false

/-- Alive, and not waiting for a mutex. -/
def Frame.free : Frame → Bool
  | .user | .entry | .yieldNow | .sleep => true
  | _ => false

structure Ranked (rank : Nat → Nat) (s : St) : Prop where
  calm : ∀ c, (s.co c).frame.calm = true
  /-- whoever waits for a mutex holds lower ones only -/
  rising : ∀ c m, (s.co c).frame = .lock m → ∀ m', some c ∈ holders m' s.trace → rank m' < rank m
  /-- the holders are coroutines that have not finished -/
  live : ∀ m w, w ∈ holders m s.trace → ∃ c, w = some c ∧ (s.co c).unfinished = true

/-- Frames and holders are as before. -/
structure SameHolds (s t : St) : Prop where
  frame : ∀ c, (t.co c).frame = (s.co c).frame
  holders : ∀ m, holders m t.trace = holders m s.trace

theorem SameHolds.refl (s : St) : SameHolds s s := ⟨fun _ => rfl, fun _ => rfl⟩

theorem SameHolds.trans (h : SameHolds s t) (h' : SameHolds t s') : SameHolds s s' :=
  ⟨fun c => (h'.frame c).trans (h.frame c), fun m => (h'.holders m).trans (h.holders m)⟩

/-- Whatever else changes. -/
theorem SameHolds.same (h : SameHolds s t) (hco : s'.co = t.co) (htr : s'.trace = t.trace) :
    SameHolds s s' :=
  ⟨fun c => by rw [hco, h.frame], fun m => by rw [htr, h.holders]⟩

theorem SameHolds.waiters (h : SameHolds s t) (n : Nat) :
    SameHolds s { t with waitingIoCount := n } := h.same rfl rfl

theorem SameHolds.modify {f : Routine → Routine} (h : SameHolds s t)
    (hf : (f (t.co c)).frame = (t.co c).frame) : SameHolds s (t.modify c f) := by
  refine ⟨fun d => ?_, h.holders⟩
  by_cases hd : d = c
  · subst hd
    simpa [St.modify, h.frame] using hf
  · simpa [St.modify, hd] using h.frame d

theorem SameHolds.emit {e : Event} (h : SameHolds s t)
    (he : (∀ m w, e ≠ .take m w) ∧ (∀ m c, e ≠ .enter m c) ∧ ∀ m w, e ≠ .release m w) :
    SameHolds s (t.emit e) := by
  refine ⟨h.frame, fun m => ?_⟩
  show Libco.holders m (t.trace ++ [e]) = _
  rw [holders_append, ← h.holders]
  cases e <;> simp [holdersStep] at he ⊢

theorem SameHolds.enqueue (h : SameHolds s t) : SameHolds s (coSchedulerEnqueue t c) := by
  refine SameHolds.emit (SameHolds.modify ?_ rfl) (by simp)
  exact h.same rfl rfl

/-- What one step does: frames stay, or become those of a coroutine that waits for
nothing; new holders are in their own code. -/
theorem Ranked.next (h : Ranked rank s)
    (hframe : ∀ c, (t.co c).frame = (s.co c).frame ∨ (t.co c).frame.free = true)
    (hhold : ∀ m w, w ∈ holders m t.trace →
      w ∈ holders m s.trace ∨ ∃ c, w = some c ∧ (t.co c).frame = .user) : Ranked rank t := by
  refine ⟨fun c => ?_, fun c m hf m' hm' => ?_, fun m w hw => ?_⟩
  · rcases hframe c with hf | hf
    · rw [hf]
      exact h.calm c
    · cases hfr : (t.co c).frame <;> simp [hfr, Frame.free] at hf <;> rfl
  · have hfs : (s.co c).frame = .lock m := by
      rcases hframe c with hc | hc
      · rw [← hc, hf]
      · simp [hf, Frame.free] at hc
    rcases hhold m' (some c) hm' with hold | ⟨d, hd, hu⟩
    · exact h.rising c m hfs m' hold
    · cases hd
      rw [hf] at hu
      cases hu
  · rcases hhold m w hw with hold | ⟨c, rfl, hu⟩
    · obtain ⟨c, rfl, hc⟩ := h.live m w hold
      refine ⟨c, rfl, ?_⟩
      rcases hframe c with hf | hf
      · simpa [Routine.unfinished, hf] using hc
      · cases hfr : (t.co c).frame <;> simp [hfr, Frame.free] at hf <;> simp [Routine.unfinished, hfr]
    · exact ⟨c, rfl, by simp [Routine.unfinished, hu]⟩

theorem SameHolds.ranked (h : SameHolds s t) (hr : Ranked rank s) : Ranked rank t := by
  refine hr.next (fun c => .inl (h.frame c)) fun m w hw => .inl ?_
  rwa [h.holders] at hw

theorem Ranked.same (h : Ranked rank s) (hco : t.co = s.co) (htr : t.trace = s.trace) :
    Ranked rank t :=
  SameHolds.ranked ((SameHolds.refl s).same hco htr) h

/-- One coroutine goes on to a frame in which it waits for nothing. -/
theorem Ranked.reframe {f : Frame} (h : Ranked rank s) (hf : f.free = true)
    (hco : ∀ d, (t.co d).frame = if d = c then f else (s.co d).frame)
    (hhold : ∀ m, holders m t.trace = holders m s.trace) : Ranked rank t := by
  refine h.next (fun d => ?_) fun m w hw => .inl (hhold m ▸ hw)
  rw [hco d]
  split
  · exact .inr hf
  · exact .inl rfl

/-- It goes on to code in which it reads or takes a mutex of its own. -/
theorem Ranked.enters (h : Ranked rank s) (hu : (t.co c).frame = .user)
    (hco : ∀ d, d ≠ c → (t.co d).frame = (s.co d).frame)
    (hhold : ∀ m w, w ∈ holders m t.trace → w ∈ holders m s.trace ∨ w = some c) :
    Ranked rank t := by
  refine h.next (fun d => ?_) fun m w hw => ?_
  · by_cases hd : d = c
    · subst hd
      exact .inr (by rw [hu]; rfl)
    · exact .inl (hco d hd)
  · rcases hhold m w hw with hold | rfl
    · exact .inl hold
    · exact .inr ⟨c, rfl, hu⟩

/-! ## The scheduler's phases -/

theorem expireTop_sameHolds : SameHolds s (expireTop s c) := by
  have hpop : SameHolds s { s with timerHeap := (coTimerHeapPop s.key s.timerHeap).2 } :=
    (SameHolds.refl s).same rfl rfl
  unfold expireTop
  dsimp only
  split
  · exact hpop
  · refine SameHolds.enqueue ?_
    split
    · exact SameHolds.emit (SameHolds.modify (hpop.same rfl rfl) rfl) (by simp)
    · split
      · exact SameHolds.waiters (hpop.modify (c := c) rfl) _
      · exact hpop

theorem timerLoop_sameHolds (now n : Nat) (s : St) : SameHolds s (timerLoop now n s) := by
  induction n generalizing s with
  | zero => exact .refl s
  | succ n ih =>
    unfold timerLoop
    split
    · exact .refl s
    · split
      · exact (SameHolds.refl s).same rfl rfl
      · split
        · exact .refl s
        · exact expireTop_sameHolds.trans (ih _)

/-- No event finds anybody in an I/O wait. -/
theorem pollEvent_sameHolds (h : NoIo s) (ev : Int × EpollEvents) :
    SameHolds s (pollEvent s ev) := by
  unfold pollEvent
  split
  · exact .refl s
  · rename_i reg _
    split
    · rename_i x hx
      have := h reg.ptr.1
      simp [hx, Frame.isIo] at this
    · exact .refl s

theorem pollPacket_sameHolds (h : NoIo s) (p : Packet) : SameHolds s (pollPacket s p) := by
  have hio := h p.ptr.1
  unfold pollPacket
  dsimp only
  split
  · rename_i x hx
    simp [hx, Frame.isIo] at hio
  · rename_i x hx
    simp [hx, Frame.isIo] at hio
  · exact (SameHolds.refl s).same rfl rfl

theorem foldl_sameHolds {α : Type} {f : St → α → St}
    (hf : ∀ s x, NoIo s → SameHolds s (f s x)) (l : List α) (h : NoIo s) :
    SameHolds s (l.foldl f s) := by
  induction l generalizing s with
  | nil => exact .refl s
  | cons x l ih =>
    have hx := hf s x h
    have hn : NoIo (f s x) := fun c => by
      rw [hx.frame]
      exact h c
    exact hx.trans (ih hn)

theorem apply_sameHolds (h : NoIo s) (p : PollResult) : SameHolds s (p.apply s) := by
  cases p with
  | none => exact .refl s
  | events evs => exact foldl_sameHolds (fun s x hn => pollEvent_sameHolds hn x) evs h
  | packets ps => exact foldl_sameHolds (fun s x hn => pollPacket_sameHolds hn x) ps h

theorem idle_sameHolds {p : PollResult} (h : NoIo s) (hs : step s (.idle p) = some s') :
    SameHolds s s' := by
  obtain ⟨n, t, -, -, rfl, hend⟩ := step_poll hs
  have hpoll : SameHolds s (if polls s then p.apply (s.emit (.poll (ioTimeoutMs s n))) else s) := by
    split
    · have hemit : SameHolds s (s.emit (.poll (ioTimeoutMs s n))) :=
        (SameHolds.refl s).emit (by simp)
      exact hemit.trans (apply_sameHolds (s := s.emit (.poll (ioTimeoutMs s n))) h p)
    · exact .refl s
  rcases hend with rfl | rfl
  · exact SameHolds.emit (hpoll.same rfl rfl) (by simp)
  · exact hpoll.same rfl rfl

theorem timers_sameHolds {now : Nat} (hs : step s (.timers now) = some s') : SameHolds s s' := by
  have htick : SameHolds s (s.emit (.tick now)) := (SameHolds.refl s).emit (by simp)
  have hloop := htick.trans (timerLoop_sameHolds now s.timerHeap.entries.length _)
  obtain ⟨-, ⟨-, rfl⟩ | ⟨-, t, rfl, rfl | ⟨-, rfl⟩⟩⟩ := step_timers hs
  · exact SameHolds.emit ((SameHolds.refl s).same rfl rfl) (by simp)
  · exact hloop.same rfl rfl
  · exact hloop

theorem settle_ranked {o : Outcome} {k : Nat} (h : o.Ends (Ranked rank))
    (hna : (settle s k o).ctl ≠ .aborted) : Ranked rank (settle s k o) := by
  cases o with
  | ret r t => exact ((SameHolds.refl t).emit (by simp)).ranked h
  | swap t => exact Ranked.same h rfl rfl
  | abort => exact absurd rfl hna

/-- The coroutine that is switched to is in its own code. -/
theorem switchTo_ranked (h : Ranked rank s) (rest : List Nat) :
    Ranked rank (switchTo { s with queues := Function.update s.queues .ready rest } c) := by
  refine h.reframe (c := c) (f := .user) rfl (fun d => ?_) fun m => ?_
  · by_cases hd : d = c <;> simp [switchTo, St.modify, St.emit, hd]
  · show holders m (s.trace ++ [Event.dispatch c]) = _
    rw [holders_append]
    rfl

theorem resumeLock_ranked (h : Ranked rank s) (hu : (s.co c).frame = .user) :
    (resumeLock s c m).Ends (Ranked rank) := by
  unfold resumeLock
  split
  · refine h.enters (c := c) hu (fun d _ => rfl) fun m' w hw => ?_
    have hw' : w ∈ holders m' (s.trace ++ [Event.enter m c]) := hw
    rw [holders_append] at hw'
    simp only [List.foldl_cons, List.foldl_nil, holdersStep] at hw'
    split at hw'
    · simpa using hw'
    · exact .inl hw'
  · trivial

theorem Ranked.schedule {e : ResumeEnv} (h : Ranked rank s)
    (hna : (coSchedulerSchedule s e).ctl ≠ .aborted) : Ranked rank (coSchedulerSchedule s e) := by
  obtain ⟨-, he⟩ | ⟨c, rest, -, ⟨-, he⟩ | ⟨hne, he⟩⟩ := schedule_cases s e
  · rw [he]
    exact h.same rfl rfl
  · rw [he]
    exact switchTo_ranked h rest
  · rw [he] at hna ⊢
    have hto : Ranked rank (switchTo { s with queues := Function.update s.queues .ready rest } c) :=
      switchTo_ranked h rest
    refine settle_ranked ?_ hna
    have hc := h.calm c
    cases hf : (s.co c).frame with
    | absent | freed | user => trivial
    | entry => exact absurd hf hne
    | yieldNow | sleep => exact hto
    | lock m => exact resumeLock_ranked hto (by simp [switchTo, St.modify, St.emit])
    | _ => simp [hf, Frame.calm] at hc

/-! ## The program's actions -/

theorem Ranked.spawn (h : Ranked rank s) (e : SpawnEnv) : Ranked rank (coSpawn s e).2 := by
  unfold coSpawn
  split
  swap
  · exact h
  dsimp only
  split
  · exact h.same rfl rfl
  split
  · refine (SameHolds.enqueue (SameHolds.refl _)).ranked ?_
    refine h.reframe (c := s.nextId) (f := .entry) rfl (fun d => ?_) fun m => rfl
    by_cases hd : d = s.nextId <;> simp [St.modify, hd]
  · exact h.same rfl rfl

theorem coYieldNow_ranked (h : Ranked rank s) : (coYieldNow s).Ends (Ranked rank) := by
  unfold coYieldNow
  split
  · exact h
  · rename_i c _
    refine (SameHolds.enqueue (SameHolds.refl _)).ranked ?_
    refine h.reframe (c := c) (f := .yieldNow) rfl (fun d => ?_) fun m => rfl
    by_cases hd : d = c <;> simp [St.modify, hd]

theorem coSleep_ranked {msec now : Nat} {ok : Bool} (h : Ranked rank s) :
    (coSleep s msec now ok).Ends (Ranked rank) := by
  unfold coSleep
  split
  · exact coYieldNow_ranked h
  split
  · exact h
  rename_i c _
  dsimp only
  split
  · exact (SameHolds.modify (SameHolds.modify (SameHolds.refl s) rfl) rfl).ranked h
  · refine h.reframe (c := c) (f := .sleep) rfl (fun d => ?_) fun m => rfl
    by_cases hd : d = c <;> simp [St.modify, hd]

/-- The running coroutine takes a free mutex. -/
theorem Ranked.take (h : Ranked rank s) (hu : (s.co c).frame = .user) :
    Ranked rank ((s.setMutex m ⟨true, some c⟩).emit (.take m (some c))) := by
  refine h.enters (c := c) hu (fun d _ => rfl) fun m' w hw => ?_
  have hw' : w ∈ holders m' (s.trace ++ [Event.take m (some c)]) := hw
  rw [holders_append] at hw'
  simp only [List.foldl_cons, List.foldl_nil, holdersStep] at hw'
  split at hw'
  · simpa using hw'
  · exact .inl hw'

/-- It blocks on one that ranks above what it holds. -/
theorem Ranked.block (h : Ranked rank s)
    (hco : ∀ d, (t.co d).frame = if d = c then .lock m else (s.co d).frame)
    (hhold : ∀ m', holders m' t.trace = holders m' s.trace)
    (hup : ∀ m', some c ∈ holders m' s.trace → rank m' < rank m) : Ranked rank t := by
  refine ⟨fun d => ?_, fun d m₁ hf m' hm' => ?_, fun m' w hw => ?_⟩
  · rw [hco d]
    split
    · rfl
    · exact h.calm d
  · rw [hhold] at hm'
    rw [hco d] at hf
    split at hf
    · rename_i hd
      cases hf
      exact hup m' (hd ▸ hm')
    · exact h.rising d m₁ hf m' hm'
  · rw [hhold] at hw
    obtain ⟨d, rfl, hd⟩ := h.live m' w hw
    refine ⟨d, rfl, ?_⟩
    unfold Routine.unfinished at hd ⊢
    rw [hco d]
    by_cases hdc : d = c
    · simp [hdc]
    · simpa [hdc] using hd

theorem coMutexLock_ranked (h : Ranked rank s) (hc : s.coCurrent = some c)
    (hu : (s.co c).frame = .user)
    (hup : ∀ m', some c ∈ holders m' s.trace → rank m' < rank m) :
    (coMutexLock s m).Ends (Ranked rank) := by
  unfold coMutexLock
  rw [hc]
  dsimp only
  split
  · exact h.take hu
  · refine h.block (c := c) (fun d => ?_) (fun m' => ?_) hup
    · by_cases hd : d = c <;> simp [coQueuePushBack, St.modify, St.emit, hd]
    · show holders m' (s.trace ++ [Event.wait m c]) = _
      rw [holders_append]
      rfl

theorem coMutexTrylock_ranked (h : Ranked rank s) (hc : s.coCurrent = some c)
    (hu : (s.co c).frame = .user) : (coMutexTrylock s m).Ends (Ranked rank) := by
  unfold coMutexTrylock
  split
  · exact h
  · rw [hc]
    exact h.take hu

theorem holders_release {h : List Event} {m' : Nat} {w w' : Option Nat}
    (hw : w ∈ holders m' (h ++ [Event.release m w'])) : w ∈ holders m' h := by
  rw [holders_append] at hw
  simp only [List.foldl_cons, List.foldl_nil, holdersStep] at hw
  split at hw
  · exact List.mem_of_mem_erase hw
  · exact hw

theorem coMutexUnlock_ranked (h : Ranked rank s) (hu : coMutexUnlock s m = some t) :
    Ranked rank t := by
  have hrel : Ranked rank (s.emit (.release m s.coCurrent)) :=
    h.next (fun d => .inl rfl) fun m' w hw => .inl (holders_release hw)
  obtain ⟨-, ⟨-, rfl⟩ | ⟨d, rest, -, rfl⟩⟩ := coMutexUnlock_cases hu
  · exact hrel.same rfl rfl
  · refine hrel.next (fun c => .inl ?_) fun m' w hw => .inl ?_
    · by_cases hd : c = d <;> simp [wakeAll, St.emit, St.setMutex, Routine.wake, hd]
    · have hw' : w ∈ holders m' (((s.emit (.release m s.coCurrent)).trace ++ [Event.handoff m d]) ++
          [Event.ready d]) := hw
      rw [holders_append, holders_append] at hw'
      exact hw'

theorem beginCall_sameHolds (s : St) (op : Op) : SameHolds s (beginCall s op) := by
  refine ⟨beginCall_frame s op, fun m => ?_⟩
  rw [beginCall_trace, holders_append]
  rfl

theorem Ranked.runOp {k : Nat} {op : Op} (h : Ranked rank s)
    (huser : ∀ c, s.coCurrent = some c → (s.co c).frame = .user)
    (hg : ordered rank s (.call op) = true) : (runOp s k op).Ends (Ranked rank) := by
  cases op with
  | yieldNow => exact coYieldNow_ranked h
  | sleep msec now ok => exact coSleep_ranked h
  | mutexLock m =>
    simp only [ordered] at hg
    split at hg
    · rename_i c hc
      refine coMutexLock_ranked h hc (huser c hc) fun m' hm' => ?_
      have := List.all_eq_true.mp hg m' (mem_heldBy.mpr hm')
      simpa using this
    · cases hg
  | mutexTrylock m =>
    obtain ⟨c, hc⟩ := Option.isSome_iff_exists.mp hg
    exact coMutexTrylock_ranked h hc (huser c hc)
  | mutexUnlock m =>
    simp only [Libco.runOp]
    cases hu : coMutexUnlock s m with
    | none => trivial
    | some t => exact coMutexUnlock_ranked h hu
  | _ => cases hg

theorem ordered_begun {op : Op} (h : ordered rank s (.call op) = true) :
    ordered rank (beginCall s op) (.call op) = true := by
  have hheld : ∀ c, heldBy c (beginCall s op).trace = heldBy c s.trace := by
    intro c
    have hl : lockedOnce (beginCall s op).trace = lockedOnce s.trace := by
      rw [beginCall_trace]
      simp [lockedOnce]
    simp only [heldBy, hl, (beginCall_sameHolds s op).holders]
  have hcur := beginCall_coCurrent s op
  cases op <;> simp only [ordered, hcur, hheld] at h ⊢ <;> exact h

theorem Ranked.finish (h : Ranked rank s) (hc : ∀ m, some c ∉ holders m s.trace) :
    Ranked rank (coRoutineDestroy (coRoutineFinish s c) c) := by
  obtain ⟨pool, he⟩ := finish_eq s c
  rw [he]
  refine ⟨fun d => ?_, fun d m hf m' hm' => ?_, fun m w hw => ?_⟩
  · by_cases hd : d = c
    · simp [hd, Frame.calm]
    · simpa [hd] using h.calm d
  · have hd : d ≠ c := fun hd => hc m' (hd ▸ hm')
    exact h.rising d m (by simpa [hd] using hf) m' hm'
  · obtain ⟨d, rfl, hlive⟩ := h.live m w hw
    have hd : d ≠ c := fun hd => hc m (hd ▸ hw)
    exact ⟨d, rfl, by simpa [hd] using hlive⟩

/-- **Every step keeps the discipline's invariant.** -/
theorem Ranked.step (h : Ranked rank s) (hp : Placed run s) (hn : NoIo s)
    (hna : s'.ctl ≠ .aborted) (hg : ordered rank s a = true) (hs : step s a = some s') :
    Ranked rank s' := by
  have hi := hp.current hs
  cases a with
  | run =>
    obtain ⟨-, rfl⟩ := step_run hs
    exact h.same rfl rfl
  | timers now => exact (timers_sameHolds hs).ranked h
  | idle p => exact (idle_sameHolds hn hs).ranked h
  | schedule e =>
    obtain ⟨-, rfl⟩ := step_schedule hs
    exact h.schedule hna
  | spawn e =>
    obtain ⟨-, rfl⟩ := step_spawn hs
    exact ((SameHolds.refl _).emit (by simp)).ranked (h.spawn e)
  | call op =>
    obtain ⟨-, rfl⟩ := step_call hs
    refine settle_ranked (((beginCall_sameHolds s op).ranked h).runOp ?_ (ordered_begun hg)) hna
    intro c hc
    rw [beginCall_coCurrent] at hc
    rw [beginCall_frame]
    exact (hi.user c).mpr hc
  | finish =>
    obtain ⟨c, hctl, rfl⟩ := step_finish hs
    have hc : s.coCurrent = some c := by simp [St.coCurrent, hctl]
    have hnone : heldBy c s.trace = [] := by simpa [ordered, hc] using hg
    have hfin := h.finish (c := c) fun m hm => by
      have := mem_heldBy.mpr hm
      simp [hnone] at this
    have hloop : Ranked rank { coRoutineDestroy (coRoutineFinish s c) c with ctl := .loop } :=
      hfin.same rfl rfl
    exact ((SameHolds.refl _).emit (by simp)).ranked hloop

theorem ranked_init (cfg : Config) : Ranked rank (init cfg) :=
  ⟨fun _ => rfl, fun _ _ hf => (by cases hf), fun _ _ hw => (by cases hw)⟩

theorem Hierarchical.ranked {cfg : Config} (h : Hierarchical rank cfg s) : Ranked rank s := by
  induction h with
  | init => exact ranked_init cfg
  | next a hr hg hs ih =>
    have hhere : Hierarchical rank cfg _ := hr
    obtain ⟨hp, hn, -, -⟩ := hhere.inv
    have hnext : Hierarchical rank cfg _ := hhere.next a hg hs
    have hna := hnext.inv.2.2.2
    exact ih.step hp hn hna (hierarchical_split hg).2.2 hs

/-! ## The holder waits above -/

theorem MutexInv.holder_of_blocked (h : MutexInv m s) (hi : Inv run none s.toSched)
    (hr : s.queues .ready = []) (hc : c ∈ s.queues (.mutex m)) : ∃ w, w ∈ holders m s.trace := by
  cases h.phase with
  | free hl hh hq hw hs => simp [hq] at hc
  | held w hl hh hw hs => exact ⟨w, by simp [hh]⟩
  | handed d hl hh hw hs =>
    -- a coroutine that was handed the mutex is ready
    obtain ⟨hst, hwq⟩ := (hw d).mpr rfl
    have hmem := hi.mem_of_home (c := d) (q := .ready)
      (by simp [Routine.home, Frame.waitQueue_suspended hwq, hst])
    simp [hr] at hmem

/-- A blocked coroutine waits for a mutex that another unfinished one holds. -/
theorem Ranked.awaits_holder (h : Ranked rank s) (hb : AllBlocked s)
    (hi : Inv run none s.toSched) (hm : ∀ m, MutexInv m s) (hu : (s.co c).unfinished = true) :
    ∃ m d, (s.co c).frame = .lock m ∧ some d ∈ holders m s.trace ∧ (s.co d).unfinished = true := by
  obtain ⟨-, q, hq, hmem⟩ := hb.blocked c hu
  have hwq := (Routine.home_wait (hi.mem_queue hmem) hq).2
  have hcalm := h.calm c
  obtain ⟨m, hf⟩ : ∃ m, (s.co c).frame = .lock m := by
    cases hf : (s.co c).frame <;> simp [hf, Frame.calm, Frame.waitQueue] at hcalm hwq ⊢
  rw [hf, Frame.waitQueue, Option.some.injEq] at hwq
  subst hwq
  obtain ⟨w, hw⟩ := (hm m).holder_of_blocked hi hb.ready hmem
  obtain ⟨d, rfl, hd⟩ := h.live m w hw
  exact ⟨m, d, hf, hw, hd⟩

/-- The mutex a coroutine waits for. -/
def Routine.awaited (r : Routine) : Nat :=
  match r.frame with
  | .lock m => m
  | _ => 0

/-- **No cycle of waits.** Among the blocked coroutines one waits for a mutex of highest
rank; its holder would wait for a higher one. -/
theorem Ranked.all_finished (h : Ranked rank s) (hb : AllBlocked s)
    (hi : Inv run none s.toSched) (hm : ∀ m, MutexInv m s) (c : Nat) :
    (s.co c).unfinished = false := by
  by_contra hc
  have hbelow : ∀ d, (s.co d).unfinished = true →
      d ∈ (Finset.range s.nextId).filter fun d => (s.co d).unfinished = true := by
    intro d hd
    refine Finset.mem_filter.mpr ⟨Finset.mem_range.mpr (hi.lt_nextId ?_), hd⟩
    intro hf
    simp [Routine.unfinished, hf] at hd
  obtain ⟨top, htop, hmax⟩ := Finset.exists_max_image _ (fun d => rank (s.co d).awaited)
    ⟨c, hbelow c (by simpa using hc)⟩
  obtain ⟨m, d, hf, hd, hdu⟩ := h.awaits_holder hb hi hm (Finset.mem_filter.mp htop).2
  obtain ⟨m', -, hf', -, -⟩ := h.awaits_holder hb hi hm hdu
  have hup := h.rising d m' hf' m hd
  have hle := hmax d (hbelow d hdu)
  simp only [Routine.awaited, hf, hf'] at hle
  omega

/-- The mutexes nobody is left to hold. -/
theorem Ranked.mutexes_free (h : Ranked rank s) (hm : MutexInv m s)
    (hnone : ∀ c, (s.co c).unfinished = false) :
    (s.mutexes m).locked = false ∧ s.queues (.mutex m) = [] := by
  cases hm.phase with
  | free hl hh hq hw hs => exact ⟨hl, hq⟩
  | held w hl hh hw hs =>
    obtain ⟨c, -, hc⟩ := h.live m w (by simp [hh])
    rw [hnone] at hc
    cases hc
  | handed c hl hh hw hs =>
    have hc := unfinished_of_suspended (Frame.waitQueue_suspended ((hw c).mpr rfl).2).1
    rw [hnone] at hc
    cases hc

/-! ## Runs -/

/-- The scheduler has not been told to stop. -/
theorem vigil_of_reach {cfg : Config} {ok : St → Act → Prop} (h : Reach step ok (init cfg) s) :
    ∃ b, Vigil.Ok ⟨s, b⟩ := by
  refine h.invariant (P := fun s => ∃ b, Vigil.Ok ⟨s, b⟩)
    ⟨none, Vigil.ok_of_rest (rooted_init cfg) rfl (by simp [init, Ctl.rest])⟩ ?_
  rintro s a s' ⟨b, hb⟩ - hs
  have hstep : Vigil.step ⟨s, b⟩ (.act a) = some ⟨s', idledBy s s' (.act a)⟩ := by
    simp only [Vigil.step, histStep, hs, Option.map_some]
  exact ⟨_, (hb.step hstep).1⟩

/-- The loop is left with nobody ready and no deadline. -/
theorem idlePhase_leaves {now : Nat} {p : PollResult} (h : (idlePhase s now p).ctl = .outside) :
    (idlePhase s now p).queues .ready = [] ∧ (idlePhase s now p).timerHeap.entries = [] := by
  unfold idlePhase at h ⊢
  generalize (if polls s then p.apply (s.emit (.poll (ioTimeoutMs s now))) else s) = u at h ⊢
  dsimp only at h ⊢
  split at h
  · rename_i hend
    rw [if_pos hend]
    simpa [coQueueEmpty, coTimerHeapEmpty, St.emit] using hend
  · cases h

theorem Hierarchical.never_stuck {cfg : Config} (h : Hierarchical rank cfg s)
    (hcur : s.coCurrent = none) (hr : s.queues .ready = []) (ht : s.timerHeap.entries = [])
    (c : Nat) : (s.co c).unfinished = false := by
  obtain ⟨hp, hn, hm, hna⟩ := h.inv
  obtain ⟨cur, hi, hcur'⟩ := hp
  rw [← hcur' hna, hcur] at hi
  have hio : ∀ c, (s.co c).ioSuspended = false := fun c => by simp [Routine.ioSuspended, hn c]
  exact h.ranked.all_finished (hi.allBlocked hr ht hio) hi hm c

/-- What is left of a program when `co_scheduler_run` returns: nothing. -/
structure AllDone (s : St) : Prop where
  finished : ∀ c, (s.co c).unfinished = false
  count : s.activeRoutines = 0
  free : ∀ m, (s.mutexes m).locked = false ∧ s.queues (.mutex m) = []

/-- **Ordered locks do not deadlock.** -/
theorem ordered_locks_no_deadlock {cfg : Config} (h : Hierarchical rank cfg s) :
    ((∃ c, (s.co c).unfinished = true) →
      s.coCurrent ≠ none ∨ s.queues .ready ≠ [] ∨ s.timerHeap.entries ≠ []) ∧
    ∀ a s', hierarchical rank s a = true → step s a = some s' →
      s.ctl ≠ .outside → s'.ctl = .outside → AllDone s' := by
  constructor
  · rintro ⟨c, hc⟩
    by_contra hno
    simp only [not_or, not_not] at hno
    have := h.never_stuck hno.1 hno.2.1 hno.2.2 c
    rw [this] at hc
    cases hc
  · intro a s' hg hs hin hout
    have h' : Hierarchical rank cfg s' := h.next a hg hs
    obtain ⟨hp, hn, -, -⟩ := h.inv
    obtain ⟨b, hb⟩ := vigil_of_reach h
    have hio := (hierarchical_split hg).1
    obtain ⟨now, p, rfl, -, -, rfl⟩ := step_outside hp (hn.leaks hio) hs hin hout hb.stop
    obtain ⟨hr, ht⟩ := idlePhase_leaves hout
    have hcur : (idlePhase s now p).coCurrent = none := by simp [St.coCurrent, hout]
    have hnone := h'.never_stuck hcur hr ht
    obtain ⟨⟨cur, hi, -⟩, -, hm, -⟩ := h'.inv
    refine ⟨hnone, ?_, fun m => h'.ranked.mutexes_free (hm m) hnone⟩
    rw [hi.active]
    exact countOn_eq_zero.mpr fun c _ => hnone c

/-- Coroutine 1 locks mutex 0 and yields, 2 locks mutex 1 and blocks on nothing else, 1
blocks on mutex 1, 2 unlocks it and finishes, 1 goes on and finishes. -/
def crossingRun : List Act :=
  [spawnOk, spawnOk, .run] ++ turn ++ [Act.call (.mutexLock 0), .call .yieldNow] ++ turn ++
    [Act.call (.mutexLock 1), .call .yieldNow] ++ turn ++ [Act.call (.mutexLock 1)] ++ turn ++
    [Act.call (.mutexUnlock 1), .finish] ++ turn ++
    [Act.call (.mutexUnlock 1), .call (.mutexUnlock 0), .finish, .timers 0]

theorem ordered_locks_no_deadlock_crossing :
    ∃ s s', runGuarded step (hierarchical id) (init (byteConfig 0)) crossingRun = some s ∧
      hierarchical id s (.idle .none) = true ∧ step s (.idle .none) = some s' ∧
      s.ctl = .idle 0 ∧ s'.ctl = .outside ∧ enterSeq 1 s'.trace = [1] ∧ AllDone s' := by
  have hrun : (runGuarded step (hierarchical id) (init (byteConfig 0)) crossingRun).map
      (fun s => (hierarchical id s (.idle .none), s.ctl)) = some (true, .idle 0) := by
    decide +kernel
  have hend : ((runGuarded step (hierarchical id) (init (byteConfig 0)) crossingRun).bind
      (step · (.idle .none))).map (fun s => (s.ctl, enterSeq 1 s.trace)) =
      some (.outside, [1]) := by
    decide +kernel
  obtain ⟨s, hs, he⟩ := Option.map_eq_some_iff.mp hrun
  simp only [Prod.mk.injEq] at he
  rw [hs, Option.bind_some] at hend
  obtain ⟨s', hs', he'⟩ := Option.map_eq_some_iff.mp hend
  simp only [Prod.mk.injEq] at he'
  refine ⟨s, s', hs, he.1, hs', he.2, he'.1, he'.2, ?_⟩
  exact (ordered_locks_no_deadlock (reach_of_runGuarded hs)).2 _ s' he.1 hs' (by simp [he.2]) he'.1

end Libco
