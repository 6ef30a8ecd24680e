import Libco.CallNumbers

/-!
# Mutual exclusion and FIFO hand-off

The history of a mutex tells who holds it (`holders`), who blocked on it and
who was let in, in which order (`waitSeq`, `enterSeq`). `Phase` ties the
mutex, its wait queue and the coroutine it was handed to to that history: it
is free, or held by one caller, or handed to one coroutine that was woken and
not yet dispatched.
-/

namespace Libco
open Lib

variable {run : Prop} {cur : Option Nat} {s s' s₀ : St} {a : Act} {c m : Nat}

/-! ## The history of a mutex -/

def holdersStep (m : Nat) (hs : List (Option Nat)) : Event → List (Option Nat)
  | .take m' w => if m' = m then hs ++ [w] else hs
  | .enter m' c => if m' = m then hs ++ [some c] else hs
  | .release m' w => if m' = m then hs.erase w else hs
  | _ => hs

/-- Who holds the mutex: from the return of its lock to its unlock. -/
def holders (m : Nat) (h : List Event) : List (Option Nat) := h.foldl (holdersStep m) []

/-- The coroutines that blocked on the mutex, in order. -/
def waitSeq (m : Nat) (h : List Event) : List Nat :=
  h.filterMap fun
    | .wait m' c => if m' = m then some c else none
    | _ => none

/-- The coroutines whose blocked lock returned, in order. -/
def enterSeq (m : Nat) (h : List Event) : List Nat :=
  h.filterMap fun
    | .enter m' c => if m' = m then some c else none
    | _ => none

/-- A lock or trylock that succeeds at once finds nobody waiting. -/
def takeLaw (m : Nat) (past : List Event) (e : Event) : Prop :=
  ∀ w, e = .take m w → holders m past = [] ∧ waitSeq m past = enterSeq m past

theorem holders_append (h es : List Event) :
    holders m (h ++ es) = es.foldl (holdersStep m) (holders m h) := by
  simp [holders]

theorem waitSeq_append (h es : List Event) : waitSeq m (h ++ es) = waitSeq m h ++ waitSeq m es := by
  simp [waitSeq]

theorem enterSeq_append (h es : List Event) :
    enterSeq m (h ++ es) = enterSeq m h ++ enterSeq m es := by
  simp [enterSeq]

theorem holders_other {h es : List Event} (he : ∀ e ∈ es, e.obj ≠ some (.mutex m)) :
    holders m (h ++ es) = holders m h := by
  induction es generalizing h with
  | nil => simp
  | cons e es ih =>
    have hne := he e (by simp)
    have hone : holders m (h ++ [e]) = holders m h := by
      rw [holders_append]
      cases e <;> simp [Event.obj, holdersStep] at hne ⊢ <;> simp [hne]
    rw [List.append_cons, ih fun e' he' => he e' (by simp [he']), hone]

/-- Events about other objects say nothing about this mutex. -/
theorem mutex_history_other {h es : List Event} (he : ∀ e ∈ es, e.obj ≠ some (.mutex m))
    (hl : Lawful (takeLaw m) h) :
    holders m (h ++ es) = holders m h ∧ waitSeq m (h ++ es) = waitSeq m h ∧
      enterSeq m (h ++ es) = enterSeq m h ∧ Lawful (takeLaw m) (h ++ es) := by
  refine ⟨holders_other he, ?_⟩
  induction es generalizing h with
  | nil => simpa using hl
  | cons e es ih =>
    have hne := he e (by simp)
    have hlaw : Lawful (takeLaw m) (h ++ [e]) := by
      refine lawful_snoc.mpr ⟨hl, ?_⟩
      rintro w rfl
      exact absurd rfl hne
    obtain ⟨h2, h3, h4⟩ := ih (h := h ++ [e]) (fun e' he' => he e' (by simp [he'])) hlaw
    have hone : waitSeq m [e] = [] ∧ enterSeq m [e] = [] := by
      cases e <;> simp [Event.obj, waitSeq, enterSeq] at hne ⊢ <;> simp [hne]
    rw [List.append_cons, h2, h3, waitSeq_append, enterSeq_append, hone.1, hone.2]
    simpa using h4

/-! ## The phase of a mutex -/

/-- Woken out of queue `q`, and not yet dispatched. -/
def wokenAt (s : St) (q : QueueRef) (c : Nat) : Prop :=
  (s.co c).state = .ready ∧ (s.co c).frame.waitQueue = some q

inductive Phase (m : Nat) (s : St) : Prop
  | free (hl : (s.mutexes m).locked = false) (hh : holders m s.trace = [])
      (hq : s.queues (.mutex m) = []) (hw : ∀ d, ¬ wokenAt s (.mutex m) d)
      (hs : waitSeq m s.trace = enterSeq m s.trace)
  | held (w : Option Nat) (hl : s.mutexes m = ⟨true, w⟩) (hh : holders m s.trace = [w])
      (hw : ∀ d, ¬ wokenAt s (.mutex m) d)
      (hs : waitSeq m s.trace = enterSeq m s.trace ++ s.queues (.mutex m))
  | handed (c : Nat) (hl : s.mutexes m = ⟨true, some c⟩) (hh : holders m s.trace = [])
      (hw : ∀ d, wokenAt s (.mutex m) d ↔ d = c)
      (hs : waitSeq m s.trace = enterSeq m s.trace ++ c :: s.queues (.mutex m))

structure MutexInv (m : Nat) (s : St) : Prop where
  phase : Phase m s
  law : Lawful (takeLaw m) s.trace

theorem mutex_mem_objs {f : Frame} : Obj.mutex m ∈ f.objs ↔ f.waitQueue = some (.mutex m) := by
  cases f <;> simp [Frame.objs, Frame.waitQueue, eq_comm]

theorem SameFor.wokenAt {o : Obj} {q : QueueRef} (h : SameFor o s s') (hq : q.obj = some o)
    (d : Nat) : wokenAt s' q d ↔ wokenAt s q d := by
  constructor
  · rintro ⟨hs, hw⟩
    obtain ⟨o', ho', hm⟩ := Frame.objs_of_waitQueue hw
    rw [hq, Option.some.injEq] at ho'
    have hd := h.co d (.inr (ho' ▸ hm))
    have hw' : (s.co d).frame.waitQueue = some q := by
      rw [← hd.frame]
      exact hw
    exact ⟨(hd.state q hw' hq).symm.trans hs, hw'⟩
  · rintro ⟨hs, hw⟩
    obtain ⟨o', ho', hm⟩ := Frame.objs_of_waitQueue hw
    rw [hq, Option.some.injEq] at ho'
    have hd := h.co d (.inl (ho' ▸ hm))
    exact ⟨(hd.state q hw hq).trans hs, by rw [hd.frame]; exact hw⟩

/-- Moves that do not touch the mutex. -/
theorem MutexInv.same (h : MutexInv m s) (hsame : SameFor (.mutex m) s s') : MutexInv m s' := by
  obtain ⟨es, hes, he⟩ := hsame.trace
  obtain ⟨h1, h2, h3, h4⟩ := mutex_history_other he h.law
  have hm := hsame.mutex m rfl
  have hq := hsame.queues (.mutex m) rfl
  have hw := hsame.wokenAt (q := .mutex m) rfl
  refine ⟨?_, hes ▸ h4⟩
  cases h.phase with
  | free hl hh hqn hwn hs =>
    refine .free (by rw [hm, hl]) (by rw [hes, h1, hh]) (by rw [hq, hqn]) ?_ (by rw [hes, h2, h3, hs])
    exact fun d hd => hwn d ((hw d).mp hd)
  | held w hl hh hwn hs =>
    refine .held w (by rw [hm, hl]) (by rw [hes, h1, hh]) ?_ (by rw [hes, h2, h3, hq, hs])
    exact fun d hd => hwn d ((hw d).mp hd)
  | handed c hl hh hwc hs =>
    exact .handed c (by rw [hm, hl]) (by rw [hes, h1, hh]) (fun d => (hw d).trans (hwc d))
      (by rw [hes, h2, h3, hq, hs])

/-! ## Moves at the mutex -/

/-- Nobody but `c` changes, and `c` is not woken out of `q` before or after. -/
theorem wokenAt_update {q : QueueRef} {r : Routine} (hco : s'.co = Function.update s.co c r)
    (hold : ¬ wokenAt s q c) (hnew : r.state ≠ .ready ∨ r.frame.waitQueue ≠ some q) (d : Nat) :
    wokenAt s' q d ↔ wokenAt s q d := by
  by_cases hd : d = c
  · subst hd
    simp only [wokenAt, hco, Function.update_self]
    constructor
    · rintro ⟨h1, h2⟩
      rcases hnew with h | h
      · exact absurd h1 h
      · exact absurd h2 h
    · exact fun h => absurd h hold
  · simp only [wokenAt, hco, Function.update_of_ne hd]

/-- A coroutine joins the queue of a locked mutex. -/
theorem MutexInv.join {es : List Event} (h : MutexInv m s) (hl : (s.mutexes m).locked = true)
    (hm : s'.mutexes m = s.mutexes m)
    (hq : s'.queues (.mutex m) = s.queues (.mutex m) ++ [c])
    (hw : ∀ d, wokenAt s' (.mutex m) d ↔ wokenAt s (.mutex m) d)
    (htr : s'.trace = s.trace ++ es) (hother : ∃ es', es = es' ++ [Event.wait m c] ∧
      ∀ e ∈ es', e.obj ≠ some (.mutex m)) : MutexInv m s' := by
  obtain ⟨es', rfl, he⟩ := hother
  obtain ⟨h1, h2, h3, h4⟩ := mutex_history_other he h.law
  rw [← List.append_assoc] at htr
  have hh : holders m s'.trace = holders m s.trace := by
    rw [htr, holders_append, h1]
    simp [holdersStep]
  have hws : waitSeq m s'.trace = waitSeq m s.trace ++ [c] := by
    rw [htr, waitSeq_append, h2]
    simp [waitSeq]
  have hes : enterSeq m s'.trace = enterSeq m s.trace := by
    rw [htr, enterSeq_append, h3]
    simp [enterSeq]
  have hlaw : Lawful (takeLaw m) s'.trace := by
    rw [htr]
    refine lawful_snoc.mpr ⟨h4, ?_⟩
    rintro w hw
    cases hw
  refine ⟨?_, hlaw⟩
  cases h.phase with
  | free hf _ _ _ _ =>
    rw [hl] at hf
    cases hf
  | held w hf hh' hwn hs =>
    exact .held w (hm.trans hf) (hh.trans hh') (fun d hd => hwn d ((hw d).mp hd))
      (by rw [hws, hes, hq, hs, List.append_assoc])
  | handed c' hf hh' hwc hs =>
    refine .handed c' (hm.trans hf) (hh.trans hh') (fun d => (hw d).trans (hwc d)) ?_
    rw [hws, hes, hq, hs]
    simp

/-- The caller of an unlock or of a condition wait holds the mutex. -/
def disciplined (s : St) : Act → Bool
  | .call op =>
    match op.name.unlocked with
    | some m => (holders m s.trace).contains s.coCurrent
    | none => true
  | _ => true

/-- The same, for one mutex. -/
def DisciplinedAt (m : Nat) (s : St) (a : Act) : Prop :=
  ∀ op, a = .call op → op.name.unlocked = some m → s.coCurrent ∈ holders m s.trace

theorem disciplinedAt (hd : disciplined s a = true) (m : Nat) : DisciplinedAt m s a := by
  rintro op rfl hop
  simpa [disciplined, hop] using hd

/-- A held mutex, seen by the call that is about to unlock it. -/
theorem MutexInv.held_of_disciplined {op : Op} (h : MutexInv m s) (hd : DisciplinedAt m s₀ a)
    (ha : a = .call op) (hop : op.name.unlocked = some m)
    (hpre : SinceCall s₀ s op m) (h₀ : MutexInv m s₀) (hcur : s.coCurrent = s₀.coCurrent) :
    s.mutexes m = ⟨true, s.coCurrent⟩ ∧ holders m s.trace = [s.coCurrent] ∧
      (∀ d, ¬ wokenAt s (.mutex m) d) ∧
      waitSeq m s.trace = enterSeq m s.trace ++ s.queues (.mutex m) := by
  obtain ⟨es, hes, he⟩ := hpre
  have hmem : s.coCurrent ∈ holders m s.trace := by
    have hother : ∀ e ∈ Event.call s₀.calls s₀.coCurrent op.name :: es,
        e.obj ≠ some (.mutex m) := by
      intro e hm
      rcases List.mem_cons.mp hm with rfl | hm
      · simp [Event.obj]
      · exact he e hm
    rw [hes, (mutex_history_other hother h₀.law).1, hcur]
    exact hd op ha hop
  cases h.phase with
  | free _ hh _ _ _ => simp [hh] at hmem
  | held w hl hh hw hs =>
    simp only [hh, List.mem_singleton] at hmem
    rw [hmem]
    exact ⟨hl, hh, hw, hs⟩
  | handed c _ hh _ _ => simp [hh] at hmem

/-- The running coroutine finds the mutex locked and waits. -/
theorem MutexInv.block {r : Routine} (h : MutexInv m s) (hi : Inv run (some c) s.toSched)
    (hbl : Blocks s s' c r) (ho : Obj.mutex m ∈ r.frame.objs) : MutexInv m s' := by
  have hfr : r.frame = .lock m := by
    have hdir := hbl.direct
    cases hr : r.frame <;> simp [hr, Frame.objs] at ho
    · rw [ho]
    · simp [hr] at hdir
    · simp [hr] at hdir
  have huser := (hi.user c).mpr rfl
  have hmust := hbl.must
  rw [hfr] at hmust
  refine h.join (c := c) hmust (hbl.objects.mutex_at m) ?_ (wokenAt_update hbl.co ?_ ?_) hbl.trace
    ⟨[], ?_, by simp⟩
  · rw [hbl.queues, hfr]
    simp [Frame.waitQueue]
  · rintro ⟨-, hw⟩
    rw [huser] at hw
    cases hw
  · left
    rw [hbl.state]
    simp
  · rw [blockEvents, hfr]
    rfl

/-- The coroutine the mutex was handed to is dispatched, and holds it. -/
theorem MutexInv.dispatch {rest : List Nat} (h : MutexInv m s) (hi : Inv run cur s.toSched)
    (hdis : Dispatches s s' c rest) (ho : Obj.mutex m ∈ (s.co c).frame.objs) : MutexInv m s' := by
  have hw : (s.co c).frame.waitQueue = some (.mutex m) := mutex_mem_objs.mp ho
  have hst := (hi.ready_fields hdis.ready).1
  have hev : dispatchEvents c (s.co c).frame = [.dispatch c, .enter m c] := by
    cases hf : (s.co c).frame <;> simp [hf, Frame.waitQueue] at hw <;>
      simp [dispatchEvents, hw]
  have htr := hdis.trace
  rw [hev] at htr
  have hq : s'.queues (.mutex m) = s.queues (.mutex m) := by
    rw [hdis.queues]
    simp
  cases h.phase with
  | free _ _ _ hwn _ => exact absurd ⟨hst, hw⟩ (hwn c)
  | held _ _ _ hwn _ => exact absurd ⟨hst, hw⟩ (hwn c)
  | handed c' hl hh hwc hs =>
    obtain rfl := (hwc c).mp ⟨hst, hw⟩
    refine ⟨.held (some c) (by rw [hdis.objects.mutex_at m, hl]) ?_ ?_ ?_, ?_⟩
    · rw [htr, holders_append, hh]
      simp [holdersStep]
    · intro d
      by_cases hdc : d = c
      · subst hdc
        simp [wokenAt, hdis.co]
      · intro hwd
        have := (hwc d).mp (by simpa [wokenAt, hdis.co, hdc] using hwd)
        exact hdc this
    · rw [htr, waitSeq_append, enterSeq_append, hq, hs]
      simp [waitSeq, enterSeq]
    · rw [htr, List.append_cons]
      refine lawful_snoc.mpr ⟨lawful_snoc.mpr ⟨h.law, ?_⟩, ?_⟩ <;> rintro w hw <;> cases hw

/-- A condition wait ends and finds the mutex locked. -/
theorem MutexInv.relock {m' : Nat} {rest : List Nat} {f : Frame} (h : MutexInv m s)
    (hr : Relocks s s' c rest m' f) (ho : Obj.mutex m ∈ f.objs) : MutexInv m s' := by
  obtain ⟨v, hcase⟩ := Frame.relocking_spec hr.relocking
  have hm' : m' = m := by
    rcases hcase with ⟨-, rfl⟩ | ⟨-, rfl⟩ <;> simpa [Frame.objs, eq_comm] using ho
  subst hm'
  refine h.join hr.locked (hr.objects.mutex_at m') ?_ (wokenAt_update hr.co ?_ ?_) hr.trace
    ⟨[.dispatch c], rfl, by simp [Event.obj]⟩
  · rw [hr.queues]
    simp
  · rintro ⟨-, hw⟩
    rcases hcase with ⟨hf, -⟩ | ⟨hf, -⟩ <;> simp [hf, Frame.waitQueue] at hw
  · left
    simp

/-- A free mutex is taken. -/
theorem MutexInv.take (h : MutexInv m s) (hfree : (s.mutexes m).locked = false) :
    MutexInv m ((s.setMutex m ⟨true, s.coCurrent⟩).emit (.take m s.coCurrent)) := by
  cases h.phase with
  | free hl hh hq hw hs =>
    refine ⟨.held s.coCurrent ?_ ?_ hw ?_, lawful_snoc.mpr ⟨h.law, fun w _ => ⟨hh, hs⟩⟩⟩
    · simp [St.emit, St.setMutex]
    · show holders m (s.trace ++ [Event.take m s.coCurrent]) = _
      rw [holders_append, hh]
      simp [holdersStep]
    · show waitSeq m (s.trace ++ [Event.take m s.coCurrent]) =
        enterSeq m (s.trace ++ _) ++ s.queues _
      rw [waitSeq_append, enterSeq_append, hs, hq]
      simp [waitSeq, enterSeq]
  | held w hl _ _ _ =>
    rw [hl] at hfree
    cases hfree
  | handed c hl _ _ _ =>
    rw [hl] at hfree
    cases hfree

/-- The holder unlocks, and nobody waits. -/
theorem MutexInv.unlock (h : MutexInv m s) (hh : holders m s.trace = [s.coCurrent])
    (hw : ∀ d, ¬ wokenAt s (.mutex m) d) (hs : waitSeq m s.trace = enterSeq m s.trace)
    (hq : s.queues (.mutex m) = []) :
    MutexInv m ((s.emit (.release m s.coCurrent)).setMutex m ⟨false, none⟩) := by
  refine ⟨.free ?_ ?_ hq hw ?_, lawful_snoc.mpr ⟨h.law, ?_⟩⟩
  · simp [St.emit, St.setMutex]
  · show holders m (s.trace ++ [Event.release m s.coCurrent]) = _
    rw [holders_append, hh]
    simp [holdersStep]
  · show waitSeq m (s.trace ++ [Event.release m s.coCurrent]) = enterSeq m (s.trace ++ _)
    rw [waitSeq_append, enterSeq_append, hs]
    simp [waitSeq, enterSeq]
  · rintro w hw
    cases hw

/-- The holder hands the mutex to the coroutine that waits longest. -/
theorem MutexInv.handoff {rest : List Nat} (h : MutexInv m s) (hi : Inv run cur s.toSched)
    (hl : (s.mutexes m).locked = true) (hh : holders m s.trace = [s.coCurrent])
    (hw : ∀ d, ¬ wokenAt s (.mutex m) d)
    (hs : waitSeq m s.trace = enterSeq m s.trace ++ s.queues (.mutex m))
    (hq : s.queues (.mutex m) = c :: rest) :
    MutexInv m (wakeAll (((s.emit (.release m s.coCurrent)).setMutex m
      { s.mutexes m with owner := some c }).emit (.handoff m c)) (.mutex m) [c] rest .wake) := by
  have hwait := Routine.home_wait (hi.mem_queue (q := .mutex m) (c := c) (by rw [hq]; simp))
    (by simp)
  have htr : (wakeAll (((s.emit (.release m s.coCurrent)).setMutex m
      { s.mutexes m with owner := some c }).emit (.handoff m c)) (.mutex m) [c] rest .wake).trace =
      s.trace ++ [Event.release m s.coCurrent] ++ [Event.handoff m c] ++ [Event.ready c] := by
    simp [wakeAll, St.emit, St.setMutex]
  refine ⟨.handed c ?_ ?_ ?_ ?_, ?_⟩
  · simp [wakeAll, St.emit, St.setMutex, hl]
  · rw [htr, holders_append, holders_append, holders_append, hh]
    simp [holdersStep]
  · intro d
    by_cases hdc : d = c
    · subst hdc
      simpa [wokenAt, wakeAll, St.emit, St.setMutex, Routine.wake] using hwait.2
    · have := hw d
      simpa [wokenAt, wakeAll, St.emit, St.setMutex, hdc] using this
  · rw [htr]
    simp only [waitSeq_append, enterSeq_append, hs, hq]
    simp [waitSeq, enterSeq, wakeAll]
  · rw [htr]
    refine lawful_snoc.mpr ⟨lawful_snoc.mpr ⟨lawful_snoc.mpr ⟨h.law, ?_⟩, ?_⟩, ?_⟩ <;>
      rintro w hw <;> cases hw

theorem Move.mutexInv {os : List Obj} {p p' : Option Nat × St} (hm : Move s₀ a os p p')
    (hd : DisciplinedAt m s₀ a) (h₀ : MutexInv m s₀) (hi : Inv run p.1 p.2.toSched)
    (h : MutexInv m p.2) : MutexInv m p'.2 := by
  by_cases ho : Obj.mutex m ∈ os
  swap
  · exact h.same (hm.footprint hi ho)
  cases hm with
  | admin _ | invoke _ | skipId _ | spawn _ | finish _ | yieldNow _ _ | drain _ _ _ | touch _ _
  | dropTimer _ _ _ | polled _ => simp at ho
  | notify _ _ | placeHand _ _ _ _ | placeRing _ _ _ _ _ | takeRing _ _ _ _ | takeRefill _ _ _ _
  | takeMeet _ _ _ _ | close _ _ _ => simp at ho
  | block hb hf hbl => exact h.block hi hbl ho
  | dispatch hdis => exact h.dispatch hi hdis ho
  | relock hr => exact h.relock hr ho
  | @expire cur c s s' he =>
    have ht := he.timed
    cases hf : (s.co c).frame <;> simp [hf, Frame.objs, Frame.timed] at ho ht
  | @take cur m' s hfree hcur =>
    simp only [List.mem_singleton, Obj.mutex.injEq] at ho
    subst ho
    exact h.take hfree
  | @unlock cur m' op s ha hop hpre hcur hl hq =>
    simp only [List.mem_singleton, Obj.mutex.injEq] at ho
    subst ho
    obtain ⟨-, hh, hw, hs⟩ := h.held_of_disciplined hd ha hop hpre h₀ hcur
    exact h.unlock hh hw (by simpa [hq] using hs) hq
  | @handoff cur m' c rest op s ha hop hpre hcur hl hq =>
    simp only [List.mem_singleton, Obj.mutex.injEq] at ho
    subst ho
    obtain ⟨-, hh, hw, hs⟩ := h.held_of_disciplined hd ha hop hpre h₀ hcur
    exact h.handoff hi hl hh hw hs hq

theorem mutexInv_init (cfg : Config) : MutexInv m (init cfg) := by
  refine ⟨.free rfl rfl rfl ?_ rfl, lawful_nil _⟩
  rintro d ⟨-, hw⟩
  cases hw

theorem MutexInv.ret {k : Nat} {r : Ret} (h : MutexInv m s) : MutexInv m (s.emit (.ret k r)) :=
  h.same (sameFor_of_co rfl rfl (fun _ _ => rfl) (fun _ _ => rfl)
    ⟨[.ret k r], rfl, by simp [Event.obj]⟩)

/-! ## Assertions -/

/-- Code that does not fail an assertion, and returns under control `ctl`. -/
def Outcome.Sound (ctl : Ctl) : Outcome → Prop
  | .ret _ t => t.ctl = ctl
  | .swap _ => True
  | .abort => False

theorem coMutexUnlock_ctl (hl : (s.mutexes m).locked = true) :
    ∃ t, coMutexUnlock s m = some t ∧ t.ctl = s.ctl := by
  cases hu : coMutexUnlock s m with
  | none =>
    simp only [coMutexUnlock, hl, if_true] at hu
    split at hu <;> cases hu
  | some t =>
    obtain ⟨-, ⟨-, rfl⟩ | ⟨c, rest, -, rfl⟩⟩ := coMutexUnlock_cases hu
    · exact ⟨_, rfl, rfl⟩
    · exact ⟨_, rfl, rfl⟩

theorem unlock_sound {ctl : Ctl} (hl : (s.mutexes m).locked = true) :
    Outcome.Sound ctl (match coMutexUnlock s m with
      | none => .abort
      | some s => .swap s) := by
  obtain ⟨t, ht, -⟩ := coMutexUnlock_ctl hl
  rw [ht]
  trivial

theorem placeElement_ctl {h k : Nat} {data : Bytes} (hp : placeElement s h k data = some s') :
    s'.ctl = s.ctl := by
  obtain ⟨c, rest, -, rfl⟩ | ⟨-, -, rfl⟩ := placeElement_cases hp <;> rfl

theorem takeElement_ctl {h k : Nat} (ht : takeElement s h k = some s') : s'.ctl = s.ctl := by
  obtain ⟨-, -, rfl⟩ | ⟨c, rest, -, -, rfl⟩ | ⟨c, rest, -, -, rfl⟩ := takeElement_cases ht <;> rfl

theorem wakeAll_ctl {q : QueueRef} {ws rest : List Nat} {g : Routine → Routine} :
    (wakeAll s q ws rest g).ctl = s.ctl := rfl

theorem runOp_sound {k : Nat} {op : Op} (hio : (Act.call op).isIo = false)
    (hl : ∀ m, op.name.unlocked = some m → (s.mutexes m).locked = true) :
    (runOp s k op).Sound s.ctl := by
  cases op with
  | yieldNow =>
    simp only [runOp, coYieldNow]
    split
    · rfl
    · trivial
  | sleep msec now ok =>
    simp only [runOp, coSleep, coYieldNow]
    split <;> split
    · rfl
    · trivial
    · rfl
    · split
      · rfl
      · trivial
  | mutexLock m =>
    simp only [runOp, coMutexLock]
    split <;> split <;> first | rfl | trivial
  | mutexTrylock m =>
    simp only [runOp, coMutexTrylock]
    split <;> rfl
  | mutexUnlock m =>
    obtain ⟨t, ht, hctl⟩ := coMutexUnlock_ctl (hl m rfl)
    simp only [runOp, ht]
    exact hctl
  | condWait v m =>
    simp only [runOp, coCondWait]
    split
    · rfl
    · exact unlock_sound (hl m rfl)
  | condTimedwait v m t now ok =>
    simp only [runOp, coCondTimedwait]
    split
    · rfl
    split
    · rfl
    split
    · rfl
    · exact unlock_sound (hl m rfl)
  | condSignal v =>
    simp only [runOp, coCondSignal, coQueuePopFront]
    cases s.queues (.cond v) <;> rfl
  | condBroadcast v =>
    have hw : ∀ (s : St) (c : Nat), wakeWaiter s c =
        (coQueuePushBack (s.modify c Routine.wakeCond) .ready c).emit (.ready c) := by
      intro s c
      simp only [wakeWaiter, wakeRoutine, St.modify_modify]
      rfl
    have hdrain := drainQueue_eq Routine.wakeCond (q := .cond v) (by simp) (fun _ => rfl) hw
      (s.emit (.broadcast v ((s.queues (.cond v)).map fun c => (s.co c).call)))
    exact (congrArg (fun t : St => t.ctl) hdrain).trans wakeAll_ctl
  | channelSend h d =>
    simp only [runOp, coChannelSend]
    split
    · rfl
    split
    · rename_i hp
      exact placeElement_ctl hp
    · split
      · rfl
      · trivial
  | channelTrysend h d =>
    simp only [runOp, coChannelTrysend]
    split
    · rfl
    split
    · rename_i hp
      exact placeElement_ctl hp
    · rfl
  | channelRecv h =>
    simp only [runOp, coChannelRecv]
    split
    · rename_i hp
      exact takeElement_ctl hp
    split
    · rfl
    split
    · rfl
    · trivial
  | channelTryrecv h =>
    simp only [runOp, coChannelTryrecv]
    split
    · rename_i hp
      exact takeElement_ctl hp
    · split <;> rfl
  | channelClose h =>
    simp only [runOp, coChannelClose]
    split
    · rfl
    · have hw : ∀ (s : St) (c : Nat), wakeRoutine s c =
          (coQueuePushBack (s.modify c Routine.wake) .ready c).emit (.ready c) := fun _ _ => rfl
      rw [drainQueue_eq Routine.wake (q := .recv h) (by simp) (fun _ => rfl) hw,
        drainQueue_eq Routine.wake (q := .send h) (by simp) (fun _ => rfl) hw]
      rfl
  | io x => cases hio
  | ioAsync x => cases hio

theorem resumeLock_sound {ctl : Ctl} (hctl : s.ctl = ctl)
    (hm : s.mutexes m = ⟨true, some c⟩) : (resumeLock s c m).Sound ctl := by
  unfold resumeLock
  rw [if_pos (by simp [hm])]
  exact hctl

theorem relock_sound {f : Frame} {r : St → Ret} (hctl : s.ctl = .running c) :
    (relock s c m f r).Sound (.running c) := by
  have hcur : s.coCurrent = some c := by simp [St.coCurrent, hctl]
  unfold relock coMutexLock
  rw [hcur]
  dsimp only
  cases (s.mutexes m).locked with
  | false => exact hctl
  | true => trivial

/-- A coroutine woken out of the queue of a mutex has been handed the mutex. -/
theorem MutexInv.owner_of_woken (h : MutexInv m s) (hw : wokenAt s (.mutex m) c) :
    s.mutexes m = ⟨true, some c⟩ ∧ holders m s.trace = [] := by
  cases h.phase with
  | free _ _ _ hwn _ => exact absurd hw (hwn c)
  | held _ _ _ hwn _ => exact absurd hw (hwn c)
  | handed c' hl hh hwc _ =>
    obtain rfl := (hwc c).mp hw
    exact ⟨hl, hh⟩

theorem resume_sound {rest : List Nat} {e : ResumeEnv} (hi : Inv run none s.toSched)
    (hq : s.queues .ready = c :: rest) (hn : NoIo s) (hm : ∀ m, MutexInv m s) :
    (resume (switchTo { s with queues := Function.update s.queues .ready rest } c) c e
      (s.co c).frame).Sound (.running c) := by
  obtain ⟨hst, hsus, -⟩ := hi.ready_fields hq
  have hown : ∀ m, (s.co c).frame.waitQueue = some (.mutex m) →
      (resumeLock (switchTo { s with queues := Function.update s.queues .ready rest } c) c m).Sound
        (.running c) :=
    fun m hw => resumeLock_sound rfl ((hm m).owner_of_woken ⟨hst, hw⟩).1
  have hio := hn c
  cases hf : (s.co c).frame with
  | absent | freed | user => simp [hf, Frame.suspended] at hsus
  | entry | yieldNow | sleep | send h | recv h => rfl
  | lock m => exact hown m (by rw [hf]; rfl)
  | condRelock v m => exact hown m (by rw [hf]; rfl)
  | timedRelock v m =>
    have := hown m (by rw [hf]; rfl)
    simp only [resume]
    cases hr : resumeLock (switchTo { s with queues := Function.update s.queues .ready rest } c)
      c m with
    | ret r t =>
      rw [hr] at this
      exact this
    | swap t => trivial
    | abort =>
      rw [hr] at this
      exact this
  | condWait v m => exact relock_sound rfl
  | timedWait v m =>
    simp only [resume, resumeTimedWait]
    refine relock_sound ?_
    split <;> rfl
  | waitIo x | waitAsync x | drainAsync x => simp [hf, Frame.isIo] at hio

theorem settle_sound {o : Outcome} {k : Nat} {ctl : Ctl} (h : o.Sound ctl)
    (hne : ctl ≠ .aborted) : (settle s k o).ctl ≠ .aborted := by
  cases o with
  | ret r t =>
    simp only [Outcome.Sound] at h
    simpa [settle, St.emit, h] using hne
  | swap t => simp [settle]
  | abort => exact h.elim

/-- No assertion fails, and no freed coroutine is touched. -/
theorem step_not_aborted (hp : Placed run s) (hn : NoIo s) (hm : ∀ m, MutexInv m s)
    (ha : a.isIo = false) (hd : disciplined s a = true) (hs : step s a = some s') :
    s'.ctl ≠ .aborted := by
  have hna := step_ne_aborted hs
  have hi := hp.current hs
  cases a with
  | run =>
    obtain ⟨-, rfl⟩ := step_run hs
    simp
  | timers now =>
    obtain ⟨-, ⟨-, rfl⟩ | ⟨-, t, -, -, rfl⟩⟩ := hi.timers_eq hs
    · simp [St.emit]
    · dsimp only
      split <;> simp
  | idle p =>
    obtain ⟨now, -, -, rfl⟩ := step_idlePhase hs
    rcases idlePhase_ctl s now p with h | h <;> simp [h]
  | schedule e =>
    obtain ⟨hctl, rfl⟩ := step_schedule hs
    have hc : s.coCurrent = none := by simp [St.coCurrent, hctl]
    rw [hc] at hi
    obtain ⟨-, he⟩ | ⟨c, rest, hq, ⟨-, he⟩ | ⟨-, he⟩⟩ := schedule_cases s e
    · rw [he]
      simp
    · rw [he]
      simp [switchTo, St.emit]
    · rw [he]
      exact settle_sound (resume_sound hi hq hn hm) (by simp)
  | spawn e =>
    obtain ⟨-, rfl⟩ := step_spawn hs
    have hmoves : Moves s (.spawn e) (s.coCurrent, s) (s.coCurrent, (coSpawn s e).2) ∧ _ :=
      coSpawn_moves e
    simpa [St.emit, hmoves.2] using hna
  | call op =>
    obtain ⟨-, rfl⟩ := step_call hs
    have hctl : (beginCall s op).ctl = s.ctl := by
      simp only [beginCall]
      split <;> rfl
    have hmx : (beginCall s op).mutexes = s.mutexes := by
      simp only [beginCall]
      split <;> rfl
    refine settle_sound (runOp_sound ha fun m hop => ?_) (hctl ▸ hna)
    have hmem : s.coCurrent ∈ holders m s.trace := by simpa [disciplined, hop] using hd
    rw [hmx]
    cases (hm m).phase with
    | free _ hh _ _ _ => simp [hh] at hmem
    | held w hl _ _ _ => rw [hl]
    | handed c hl _ _ _ => rw [hl]
  | finish =>
    obtain ⟨c, -, rfl⟩ := step_finish hs
    simp [St.emit]

theorem MutexInv.step (h : MutexInv m s) (hp : Placed run s) (hl : leaks s a = false)
    (hd : DisciplinedAt m s a) (hs : step s a = some s') : MutexInv m s' :=
  step_invariant hp hl hs h (fun _ _ _ hmv hi h' => hmv.mutexInv hd h hi h')
    fun _ _ _ _ h' _ => h'.ret

/-! ## Runs -/

/-- No I/O call, no allocation failure, and mutexes are released by holders only. -/
def plain (s : St) (a : Act) : Bool := !a.isIo && !a.allocFails && disciplined s a

/-- States of the runs the results on mutexes and condition variables are about. -/
def Plain (cfg : Config) : St → Prop := Reach step (fun s a => plain s a = true) (init cfg)

theorem plain_split (h : plain s a = true) :
    a.isIo = false ∧ a.allocFails = false ∧ disciplined s a = true := by
  simpa [plain, and_assoc] using h

/-- Runs without I/O calls in which mutexes are released by holders only. -/
theorem inv_of_reach {cfg : Config} {ok : St → Act → Prop} (h : Reach step ok (init cfg) s)
    (hok : ∀ s a, ok s a →
      a.isIo = false ∧ (run → a.allocFails = false) ∧ disciplined s a = true) :
    Placed run s ∧ NoIo s ∧ (∀ m, MutexInv m s) ∧ s.ctl ≠ .aborted := by
  refine h.invariant (P := fun s => Placed run s ∧ NoIo s ∧ (∀ m, MutexInv m s) ∧ s.ctl ≠ .aborted)
    ⟨placed_init cfg, fun _ => rfl, fun _ => mutexInv_init cfg, by simp [init]⟩ ?_
  rintro s a s' ⟨hp, hn, hm, -⟩ hg hs
  obtain ⟨hio, hal, hd⟩ := hok s a hg
  refine ⟨hp.step hal (hn.leaks hio) hs, hn.step hp hio hs, fun m => ?_,
    step_not_aborted hp hn hm hio hd hs⟩
  exact (hm m).step hp (hn.leaks hio) (disciplinedAt hd m) hs

theorem Plain.inv {cfg : Config} (h : Plain cfg s) :
    Placed True s ∧ NoIo s ∧ (∀ m, MutexInv m s) ∧ s.ctl ≠ .aborted :=
  inv_of_reach h fun s a hg => by
    obtain ⟨hio, hal, hd⟩ := plain_split hg
    exact ⟨hio, fun _ => hal, hd⟩

/-- At most one caller holds the mutex, and it is the owner. -/
theorem MutexInv.exclusive (h : MutexInv m s) :
    (holders m s.trace).length ≤ 1 ∧ ∀ w ∈ holders m s.trace, s.mutexes m = ⟨true, w⟩ := by
  cases h.phase with
  | free _ hh _ _ _ => simp [hh]
  | held w hl hh _ _ =>
    refine ⟨by simp [hh], fun w' hw' => ?_⟩
    rw [hh, List.mem_singleton] at hw'
    rw [hw', hl]
  | handed c _ hh _ _ => simp [hh]

end Libco
