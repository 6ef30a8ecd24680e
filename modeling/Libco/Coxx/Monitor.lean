import Libco.Coxx.Mutex

/-!
# Monitors

Objects of the C++ layer that guard their fields by a mutex `m` and a condition
variable `v` of their own (`WaitGroup`, `TaskSharedState`). A coroutine `inside`
the object's code holds the mutex and runs, or is suspended in a lock of `m` or in
a wait on `v`; nobody else deals with either.
-/

namespace Libco.Coxx
open Lib

variable {s s' : St} {a : Act} {c m v : Nat} {inside inside' : Nat → Prop}

/-- Suspended in a lock or a wait of the monitor. -/
def AtMonitor (m v : Nat) (f : Frame) : Prop :=
  f = .lock m ∨ f = .condWait v m ∨ f = .condRelock v m

/-- `c` runs and owns the mutex. -/
def Holds (m : Nat) (s : St) (c : Nat) : Prop :=
  s.coCurrent = some c ∧ s.mutexes m = ⟨true, some c⟩

/-- Deals neither with the mutex nor with the condition variable. -/
def Clear (m v : Nat) (f : Frame) : Prop :=
  Obj.mutex m ∉ f.mentions ∧ Obj.cond v ∉ f.mentions

theorem clear_user {f : Frame} (hf : f = .user) : Clear m v f := by
  subst hf
  simp [Clear, Frame.mentions]

/-- A running coroutine is in its own code. -/
theorem placed_user (hp : Placed False s) (hcur : s.coCurrent = some c) :
    (s.co c).frame = .user := by
  obtain ⟨cur, hi, hc⟩ := hp
  rw [coCurrent_ctl hcur] at hc
  rw [← hc (by simp), hcur] at hi
  exact (hi.user c).mpr rfl

structure Monitor (m v : Nat) (inside : Nat → Prop) (s : St) : Prop where
  placed : Placed False s
  outside : ∀ c, ¬ inside c → Obj.mutex m ∉ (s.co c).frame.mentions ∧
    Obj.cond v ∉ (s.co c).frame.mentions
  busy : ∀ c, inside c → Holds m s c ∨ AtMonitor m v (s.co c).frame

theorem monitor_init (cfg : Config) (h : ∀ c, ¬ inside c) : Monitor m v inside (init cfg) := by
  refine ⟨placed_init cfg, fun c _ => ?_, fun c hc => absurd hc (h c)⟩
  simp [init, Routine.zero, Frame.mentions]

theorem AtMonitor.mentions {f : Frame} (h : AtMonitor m v f) :
    Obj.mutex m ∈ f.mentions := by
  rcases h with rfl | rfl | rfl <;> simp [Frame.mentions]

theorem Monitor.user (h : Monitor m v inside s) (hcur : s.coCurrent = some c) :
    (s.co c).frame = .user := placed_user h.placed hcur

/-- A running coroutine is not suspended. -/
theorem Monitor.holds (h : Monitor m v inside s) (hcur : s.coCurrent = some c) (hin : inside c) :
    s.mutexes m = ⟨true, some c⟩ := by
  rcases h.busy c hin with hh | hf
  · exact hh.2
  · rcases hf with hf | hf | hf <;> rw [h.user hcur] at hf <;> cases hf

/-- Whoever deals with the mutex or the condition variable is inside, and suspended. -/
theorem Monitor.of_mentions (h : Monitor m v inside s)
    (hm : Obj.mutex m ∈ (s.co c).frame.mentions ∨ Obj.cond v ∈ (s.co c).frame.mentions) :
    inside c ∧ (s.coCurrent ≠ some c → AtMonitor m v (s.co c).frame) := by
  by_cases hin : inside c
  · refine ⟨hin, fun hc => ?_⟩
    rcases h.busy c hin with hh | hf
    · exact absurd hh.1 hc
    · exact hf
  · obtain ⟨h1, h2⟩ := h.outside c hin
    rcases hm with hm | hm
    · exact absurd hm h1
    · exact absurd hm h2

/-- One coroutine moves; the others' frames stay. -/
theorem Monitor.update (h : Monitor m v inside s) (hp : Placed False s')
    (hcur : ∀ d, d ≠ c → s.coCurrent ≠ some d)
    (hfr : ∀ d, d ≠ c → (s'.co d).frame = (s.co d).frame)
    (hin : ∀ d, d ≠ c → (inside' d ↔ inside d))
    (hc : inside' c → Holds m s' c ∨ AtMonitor m v (s'.co c).frame)
    (hout : ¬ inside' c → (s'.co c).frame.mentions = []) : Monitor m v inside' s' := by
  refine ⟨hp, fun d hd => ?_, fun d hd => ?_⟩
  · by_cases hdc : d = c
    · subst hdc
      simp [hout hd]
    · rw [hfr d hdc]
      exact h.outside d (fun hi => hd ((hin d hdc).mpr hi))
  · by_cases hdc : d = c
    · subst hdc
      exact hc hd
    · rcases h.busy d ((hin d hdc).mp hd) with hh | hf
      · exact absurd hh.1 (hcur d hdc)
      · rw [hfr d hdc]
        exact .inr hf

/-- While nobody inside runs, nothing but the frames matters. -/
theorem Monitor.of_frames (h : Monitor m v inside s) (hp : Placed False s')
    (hcur : s.coCurrent = none) (hfr : ∀ d, (s'.co d).frame = (s.co d).frame) :
    Monitor m v inside s' := by
  refine ⟨hp, fun c hc => ?_, fun c hc => ?_⟩
  · rw [hfr]
    exact h.outside c hc
  · rcases h.busy c hc with hh | hf
    · have := hh.1
      rw [hcur] at this
      cases this
    · rw [hfr]
      exact .inr hf

/-! ## The object's own calls -/

theorem ne_current (hcur : s.coCurrent = some c) (d : Nat) (hd : d ≠ c) :
    s.coCurrent ≠ some d := by
  rw [hcur]
  simpa using hd.symm

/-- `co_mutex_lock` called by a coroutine: it gets the mutex, or suspends. -/
theorem lock_effect (hcur : s.coCurrent = some c)
    (hs : Libco.step s (.call (.mutexLock m)) = some s') :
    (∀ d, d ≠ c → (s'.co d).frame = (s.co d).frame) ∧
      s'.queues (.cond v) = s.queues (.cond v) ∧
      (Holds m s' c ∨ (s'.co c).frame = .lock m) := by
  obtain ⟨-, rfl⟩ := step_call hs
  have hctl := beginCall_ctl s (.mutexLock m)
  rw [coCurrent_ctl hcur] at hctl
  simp only [runOp, coMutexLock, beginCall_coCurrent, hcur, beginCall_mutexes]
  split
  · refine ⟨fun d _ => beginCall_frame s _ d, congrFun (beginCall_queues s _) _, .inl ?_⟩
    simp [Holds, settle, St.emit, St.setMutex, St.coCurrent, hctl]
  · refine ⟨fun d hd => ?_, ?_, .inr ?_⟩
    · rw [← beginCall_frame s (.mutexLock m) d]
      simp [settle, coQueuePushBack, St.modify, St.emit, hd]
    · simp [settle, coQueuePushBack, St.modify, St.emit, beginCall_queues]
    · simp [settle, coQueuePushBack, St.modify, St.emit]

/-- `co_mutex_lock` called outside a coroutine, whatever it answers. -/
theorem lock_outside (hcur : s.coCurrent = none)
    (hs : Libco.step s (.call (.mutexLock m)) = some s') :
    (∀ d, (s'.co d).frame = (s.co d).frame) ∧ s'.queues (.cond v) = s.queues (.cond v) ∧
      (s'.mutexes m).locked = true := by
  obtain ⟨-, rfl⟩ := step_call hs
  have hq : (beginCall s (.mutexLock m)).queues (.cond v) = s.queues (.cond v) :=
    congrFun (beginCall_queues s _) _
  simp only [runOp, coMutexLock, beginCall_coCurrent, hcur, beginCall_mutexes]
  split
  · rename_i hl
    exact ⟨beginCall_frame s _, hq, by simpa [settle, St.emit, beginCall_mutexes] using hl⟩
  · exact ⟨beginCall_frame s _, hq, by simp [settle, St.emit, St.setMutex]⟩

theorem wakeAll_frame {q : QueueRef} {ws rest : List Nat} {g : Routine → Routine}
    (hg : g = .wake ∨ g = .wakeCond) (d : Nat) :
    ((wakeAll s q ws rest g).co d).frame = (s.co d).frame := by
  simp only [wakeAll]
  split
  · rcases hg with rfl | rfl <;> rfl
  · rfl

/-- An unlock of a locked mutex moves no frame and no condition queue. -/
theorem coMutexUnlock_effect (hl : (s.mutexes m).locked = true) :
    ∃ t, coMutexUnlock s m = some t ∧ (∀ d, (t.co d).frame = (s.co d).frame) ∧
      t.queues (.cond v) = s.queues (.cond v) ∧ t.ctl = s.ctl := by
  cases hu : coMutexUnlock s m with
  | none => simp [coMutexUnlock, hl, coQueuePopFront] at hu; split at hu <;> cases hu
  | some t =>
    refine ⟨t, rfl, ?_⟩
    obtain ⟨-, ⟨-, rfl⟩ | ⟨d, rest, -, rfl⟩⟩ := coMutexUnlock_cases hu
    · exact ⟨fun _ => rfl, rfl, rfl⟩
    · exact ⟨fun e => wakeAll_frame (.inl rfl) e, by simp [wakeAll, St.emit, St.setMutex], rfl⟩

/-- `co_mutex_unlock` of a locked mutex. -/
theorem unlock_effect (hl : (s.mutexes m).locked = true)
    (hs : Libco.step s (.call (.mutexUnlock m)) = some s') :
    (∀ d, (s'.co d).frame = (s.co d).frame) ∧ s'.queues (.cond v) = s.queues (.cond v) ∧
      s'.coCurrent = s.coCurrent := by
  obtain ⟨-, rfl⟩ := step_call hs
  obtain ⟨t, ht, hfr, hq, hctl⟩ := coMutexUnlock_effect (v := v)
    (s := beginCall s (.mutexUnlock m)) (by rw [beginCall_mutexes]; exact hl)
  simp only [runOp, ht, settle]
  refine ⟨fun d => (hfr d).trans (beginCall_frame s _ d),
    hq.trans (congrFun (beginCall_queues s _) _), ?_⟩
  rw [beginCall_ctl] at hctl
  simp [St.coCurrent, St.emit, hctl]

/-- `co_cond_wait` by the owner: it joins the queue. -/
theorem condWait_effect (hcur : s.coCurrent = some c) (hl : (s.mutexes m).locked = true)
    (hs : Libco.step s (.call (.condWait v m)) = some s') :
    (∀ d, d ≠ c → (s'.co d).frame = (s.co d).frame) ∧ (s'.co c).frame = .condWait v m ∧
      s'.queues (.cond v) = s.queues (.cond v) ++ [c] := by
  obtain ⟨-, rfl⟩ := step_call hs
  simp only [runOp, coCondWait, beginCall_coCurrent, hcur]
  obtain ⟨t, ht, hfr, hq, -⟩ := coMutexUnlock_effect (v := v) (m := m)
    (s := (coQueuePushBack ((beginCall s (.condWait v m)).modify c fun r =>
      { r with state := .waiting, frame := .condWait v m }) (.cond v) c).emit
        (.waits v m c (((beginCall s (.condWait v m)).modify c fun r =>
          { r with state := .waiting, frame := .condWait v m }).co c).call))
    (by simpa [coQueuePushBack, St.modify, St.emit, beginCall_mutexes] using hl)
  simp only [ht, settle]
  refine ⟨fun d hd => ?_, ?_, ?_⟩
  · rw [hfr, ← beginCall_frame s (.condWait v m) d]
    simp [coQueuePushBack, St.modify, St.emit, hd]
  · rw [hfr]
    simp [coQueuePushBack, St.modify, St.emit]
  · rw [hq]
    simp [coQueuePushBack, St.modify, St.emit, beginCall_queues]

/-- `co_cond_broadcast` empties the queue. -/
theorem broadcast_effect (hs : Libco.step s (.call (.condBroadcast v)) = some s') :
    (∀ d, (s'.co d).frame = (s.co d).frame) ∧ s'.queues (.cond v) = [] ∧
      s'.mutexes = s.mutexes ∧ s'.coCurrent = s.coCurrent := by
  obtain ⟨-, rfl⟩ := step_call hs
  have hctl := beginCall_ctl s (.condBroadcast v)
  simp only [runOp, coCondBroadcast_eq, settle]
  refine ⟨fun d => (wakeAll_frame (.inr rfl) d).trans (beginCall_frame s _ d), ?_,
    beginCall_mutexes s _, ?_⟩
  · simp [wakeAll, St.emit]
  · simp [St.coCurrent, St.emit, wakeAll, hctl]

/-! ## Everything else -/

/-- The dispatch of a coroutine suspended in `co_cond_wait`: the mutex is taken, or
the coroutine waits for it. -/
theorem schedule_condWait {rest : List Nat} {e : ResumeEnv} (hq : s.queues .ready = c :: rest)
    (hf : (s.co c).frame = .condWait v m) (hs : Libco.step s (.schedule e) = some s') :
    (∀ d, d ≠ c → (s'.co d).frame = (s.co d).frame) ∧
      s'.queues (.cond v) = s.queues (.cond v) ∧
      (Holds m s' c ∨ (s'.co c).frame = .condRelock v m) := by
  have hs' := schedule_settles hq (by simp [hf]) hs
  rw [hf] at hs'
  have hsw : (switchTo { s with queues := Function.update s.queues .ready rest } c).coCurrent =
      some c := rfl
  have hmx : (switchTo { s with queues := Function.update s.queues .ready rest } c).mutexes =
      s.mutexes := rfl
  simp only [resume, resumeCondWait, relock, coMutexLock, hsw, hmx] at hs'
  cases hl : (s.mutexes m).locked with
  | false =>
    simp only [hl, Bool.not_false, if_true] at hs'
    subst hs'
    refine ⟨fun d hd => ?_, ?_, .inl ?_⟩
    · simp [settle, switchTo, St.modify, St.emit, St.setMutex, hd]
    · simp [settle, switchTo, St.modify, St.emit, St.setMutex]
    · simp [Holds, settle, switchTo, St.modify, St.emit, St.setMutex, St.coCurrent]
  | true =>
    simp only [hl, Bool.not_true, Bool.false_eq_true, if_false] at hs'
    subst hs'
    refine ⟨fun d hd => ?_, ?_, .inr ?_⟩
    · simp [settle, switchTo, St.modify, St.emit, coQueuePushBack, hd]
    · simp [settle, switchTo, St.modify, St.emit, coQueuePushBack]
    · simp [settle, switchTo, St.modify, St.emit, coQueuePushBack]

/-- The dispatch of a coroutine suspended inside. -/
theorem schedule_effect {rest : List Nat} {e : ResumeEnv} (hq : s.queues .ready = c :: rest)
    (hf : AtMonitor m v (s.co c).frame) (hs : Libco.step s (.schedule e) = some s') :
    (∀ d, d ≠ c → (s'.co d).frame = (s.co d).frame) ∧
      s'.queues (.cond v) = s.queues (.cond v) ∧
      (Holds m s' c ∨ AtMonitor m v (s'.co c).frame) := by
  have hlock : ((s.co c).frame = .lock m ∨ ∃ v, (s.co c).frame = .condRelock v m) →
      (∀ d, d ≠ c → (s'.co d).frame = (s.co d).frame) ∧
      s'.queues (.cond v) = s.queues (.cond v) ∧
      (Holds m s' c ∨ AtMonitor m v (s'.co c).frame) := by
    intro hl
    rcases schedule_lock hq hl hs with rfl | ⟨hown, rfl⟩
    · exact ⟨fun _ _ => rfl, rfl, .inr hf⟩
    · refine ⟨fun d hd => ?_, ?_, .inl ⟨rfl, hown⟩⟩
      · simp [switchTo, St.modify, St.emit, hd]
      · simp [switchTo, St.modify, St.emit]
  rcases hf with h | h | h
  · exact hlock (.inl h)
  · obtain ⟨h1, h2, h3 | h3⟩ := schedule_condWait hq h hs
    · exact ⟨h1, h2, .inl h3⟩
    · exact ⟨h1, h2, .inr (.inr (.inr h3))⟩
  · exact hlock (.inr ⟨v, h⟩)

/-- The action is no call on the monitor's mutex or condition variable. -/
def foreign (m v : Nat) : Act → Bool
  | .call op => !op.name.objs.contains (.mutex m) && !op.name.objs.contains (.cond v)
  | _ => true

/-- Nobody comes to deal with them through an action on other objects. -/
theorem clear_step {run : Prop} (hp : Placed run s) (hl : leaks s a = false)
    (ha : foreign m v a = true) (hs : Libco.step s a = some s')
    (hc : Clear m v (s.co c).frame) : Clear m v (s'.co c).frame := by
  have hkeep : ∀ o, (o = .mutex m ∨ o = .cond v) → o ∉ (s'.co c).frame.mentions := by
    intro o ho hmem
    rcases step_inCall hp hl hs (inCall_of_mentions hmem) with hst | ⟨op, rfl, -, hf⟩
    · rw [hst.mentions] at hmem
      rcases ho with rfl | rfl
      · exact hc.1 hmem
      · exact hc.2 hmem
    · rw [Frame.mentions_of_fits hf] at hmem
      simp only [foreign, Bool.and_eq_true, Bool.not_eq_true', List.contains_eq_mem,
        decide_eq_false_iff_not] at ha
      rcases ho with rfl | rfl
      · exact ha.1 hmem
      · exact ha.2 hmem
  exact ⟨hkeep _ (.inl rfl), hkeep _ (.inr rfl)⟩

/-- **What others do** leaves the monitor intact, and its condition queue as it was. -/
theorem Monitor.step (h : Monitor m v inside s) (hl : leaks s a = false)
    (ha : foreign m v a = true) (hout : ∀ c, s.coCurrent = some c → ¬ inside c)
    (hs : Libco.step s a = some s') :
    Monitor m v inside s' ∧ s'.queues (.cond v) = s.queues (.cond v) := by
  have hp := h.placed.step (fun h => h.elim) hl hs
  have hsus : ∀ c, inside c → AtMonitor m v (s.co c).frame := by
    intro c hc
    rcases h.busy c hc with hh | hf
    · exact absurd hc (hout c hh.1)
    · exact hf
  by_cases hn : a.names s (.mutex m)
  · -- only the dispatch of a coroutine inside can name the mutex
    cases a with
    | call op => simp [foreign, Act.names] at ha hn; exact absurd hn ha.1
    | timers now =>
      obtain ⟨c, ht, ho⟩ := hn
      have hin := (h.of_mentions (.inl (Frame.objs_mentions ho))).1
      rcases hsus c hin with hf | hf | hf <;> rw [hf] at ht <;> cases ht
    | schedule e =>
      obtain ⟨c, rest, hq, ho⟩ := hn
      have hin := (h.of_mentions (.inl ho)).1
      obtain ⟨hfr, hcq, hst⟩ := schedule_effect hq (hsus c hin) hs
      refine ⟨h.update hp (fun d _ => ?_) hfr (fun _ _ => Iff.rfl) (fun _ => hst)
        (fun hn => absurd hin hn), hcq⟩
      simp [St.coCurrent, (step_schedule hs).1]
    | run | idle p | spawn e | finish => cases hn
  · have hn' : ¬ a.names s (.cond v) := by
      intro hv
      cases a with
      | call op => simp [foreign, Act.names] at ha hv; exact absurd hv ha.2
      | timers now =>
        obtain ⟨c, ht, ho⟩ := hv
        have hin := (h.of_mentions (.inr (Frame.objs_mentions ho))).1
        rcases hsus c hin with hf | hf | hf <;> rw [hf] at ht <;> cases ht
      | schedule e =>
        obtain ⟨c, rest, hq, ho⟩ := hv
        have hin := (h.of_mentions (.inr ho)).1
        exact hn ⟨c, rest, hq, (hsus c hin).mentions⟩
      | run | idle p | spawn e | finish => cases hv
    have hm := step_sameFor h.placed hl hs hn
    have hv := step_sameFor h.placed hl hs hn'
    refine ⟨⟨hp, fun c hc => clear_step h.placed hl ha hs (h.outside c hc), fun c hc => .inr ?_⟩,
      hv.queues _ rfl⟩
    have hf := hsus c hc
    have hsame : (s'.co c).frame = (s.co c).frame := by
      rcases hf with hf | hf | hf
      · exact (hm.co c (.inl (by simp [hf, Frame.objs]))).frame
      · exact (hv.co c (.inl (by simp [hf, Frame.objs]))).frame
      · exact (hm.co c (.inl (by simp [hf, Frame.objs]))).frame
    rw [hsame]
    exact hf

end Libco.Coxx
