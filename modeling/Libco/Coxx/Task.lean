import Libco.Coxx.Monitor
import Libco.Plain

/-!
# `co::Task`

`detail::trampoline`, `Task::join` and the `TaskSharedState` between them
(`libcoxx/src/scheduler.cpp`), statement by statement. The shared state has its
own mutex `m` and condition variable `v`; the trampoline and the handle hold one
reference each, and the last one released runs `~TaskSharedState`, which asserts
that both queues are empty.

`outcome` is what became of the callable and `joined` what `join()` gave its
caller, an exception being a number.
-/

namespace Libco.Coxx
open Lib

variable {m v c : Nat}

/-! ## The code -/

/-- The next statement of the trampoline. -/
inductive TrampPoint where
  /-- not spawned yet -/
  | unborn
  /-- in `w->run()`, or before -/
  | callable
  | lock
  | setDone
  | broadcast
  | unlock
  /-- the end of the scope of `state` -/
  | release
  | over
  deriving DecidableEq

/-- The next statement of a `join()` that has called `co_mutex_lock`. -/
inductive JoinPoint where
  /-- `while (!state_->done)` -/
  | test
  | unlock
  /-- read the exception, reset the handle, rethrow -/
  | take
  deriving DecidableEq

structure Task where
  st : St
  coroutine : Option Nat
  tramp : TrampPoint
  joiner : Option (Nat × JoinPoint)
  /-- `state_` of the handle is not null -/
  handle : Bool
  done : Bool
  exception : Option Nat
  useCount : Nat
  destroyed : Nat
  assertFailed : Bool
  outcome : Option (Option Nat)
  joined : Option (Option Nat)

inductive TaskAct where
  /-- `Scheduler::spawn` -/
  | spawn (e : SpawnEnv)
  /-- `w->run()` returns, or throws -/
  | callableEnd (ex : Option Nat)
  /-- the trampoline goes on -/
  | trampoline
  | join
  /-- `join()` goes on -/
  | joinNext
  /-- `detach()`, `~Task` or an assignment to the handle -/
  | detach
  /-- anything else the program does -/
  | other (a : Act)

/-- `reset` of a `shared_ptr`, or the end of its scope. -/
def Task.release (m v : Nat) (t : Task) : Task :=
  if t.useCount = 1 then
    { t with
      useCount := 0
      destroyed := t.destroyed + 1
      assertFailed := t.assertFailed ||
        !(coQueueEmpty t.st (.mutex m) && coQueueEmpty t.st (.cond v)) }
  else { t with useCount := t.useCount - 1 }

def Task.spawn (t : Task) (e : SpawnEnv) : Option Task :=
  if t.tramp = .unborn then
    (Libco.step t.st (.spawn e)).map fun s =>
      match (coSpawn t.st e).1 with
      | some c => { t with st := s, coroutine := some c, tramp := .callable, handle := true,
                           useCount := 2 }
      | none => { t with st := s }
  else none

def Task.trampoline (m v : Nat) (t : Task) : Option Task :=
  match t.tramp with
  | .lock => (Libco.step t.st (.call (.mutexLock m))).map fun s =>
      { t with st := s, tramp := .setDone }
  | .setDone => some { t with done := true, tramp := .broadcast }
  | .broadcast => (Libco.step t.st (.call (.condBroadcast v))).map fun s =>
      { t with st := s, tramp := .unlock }
  | .unlock => (Libco.step t.st (.call (.mutexUnlock m))).map fun s =>
      { t with st := s, tramp := .release }
  | .release => some (Task.release m v { t with tramp := .over })
  | .unborn | .callable | .over => none

def Task.joinNext (m v c : Nat) (t : Task) : JoinPoint → Option Task
  | .test =>
    if t.done then some { t with joiner := some (c, .unlock) }
    else (Libco.step t.st (.call (.condWait v m))).map fun s => { t with st := s }
  | .unlock => (Libco.step t.st (.call (.mutexUnlock m))).map fun s =>
      { t with st := s, joiner := some (c, .take) }
  | .take =>
    some (Task.release m v { t with joiner := none, handle := false, joined := some t.exception })

/-- Coroutine `c` runs code of its own: not `join()`, and not the trampoline's. -/
def Task.free (t : Task) (c : Nat) : Bool :=
  (t.joiner.all fun j => j.1 ≠ c) && (t.coroutine ≠ some c || t.tramp = .callable)

/-- The coroutine of the task ends when its trampoline does, and not before. -/
def Task.mayDo (t : Task) (c : Nat) : Act → Bool
  | .finish => (t.joiner.all fun j => j.1 ≠ c) && (t.coroutine ≠ some c || t.tramp = .over)
  | _ => t.free c

def Task.step (m v : Nat) (t : Task) : TaskAct → Option Task
  | .spawn e => if t.st.coCurrent.all t.free then t.spawn e else none
  | .callableEnd ex =>
    match t.st.coCurrent with
    | some c =>
      if t.coroutine = some c ∧ t.free c = true then
        some { t with tramp := .lock, exception := ex, outcome := some ex }
      else none
    | none => none
  | .trampoline =>
    match t.st.coCurrent with
    | some c => if t.coroutine = some c then t.trampoline m v else none
    | none => none
  | .join =>
    match t.st.coCurrent with
    | some c =>
      if t.free c = true ∧ t.joiner = none then
        -- an invalid handle throws `std::logic_error`
        if t.handle then
          (Libco.step t.st (.call (.mutexLock m))).map fun s =>
            { t with st := s, joiner := some (c, .test) }
        else some t
      else none
    | none => none
  | .joinNext =>
    match t.joiner with
    | some (c, p) => if t.st.coCurrent = some c then t.joinNext m v c p else none
    | none => none
  | .detach =>
    if inUserCode t.st ∧ t.st.coCurrent.all t.free ∧ t.joiner = none then
      if t.handle then some (Task.release m v { t with handle := false }) else some t
    else none
  | .other a =>
    if foreign m v a && t.st.coCurrent.all (t.mayDo · a) then
      (Libco.step t.st a).map fun s => { t with st := s }
    else none

/-! ## Runs -/

def Task.initial (cfg : Config) : Task :=
  ⟨init cfg, none, .unborn, none, false, false, none, 0, 0, false, none, none⟩

/-- No I/O calls. -/
def noIo : TaskAct → Bool
  | .other a => !a.isIo
  | _ => true

def TaskRun (m v : Nat) (cfg : Config) : Task → Prop :=
  Reach (Task.step m v) (fun _ b => noIo b = true) (.initial cfg)

/-- The trampoline is between its lock and its unlock. -/
def TrampPoint.inside : TrampPoint → Bool
  | .setDone | .broadcast | .unlock => true
  | _ => false

def TrampPoint.isDone : TrampPoint → Bool
  | .broadcast | .unlock | .release | .over => true
  | _ => false

/-- The callable has ended. -/
def TrampPoint.ended : TrampPoint → Bool
  | .unborn | .callable => false
  | _ => true

/-- The trampoline holds its reference. -/
def TrampPoint.refers : TrampPoint → Bool
  | .unborn | .over => false
  | _ => true

def Task.inside (t : Task) (c : Nat) : Prop :=
  (∃ p, t.joiner = some (c, p) ∧ p ≠ .take) ∨ (t.coroutine = some c ∧ t.tramp.inside = true)

/-- The fields that go with the two program points. -/
structure Task.Books (t : Task) : Prop where
  unborn : t.tramp = .unborn → t.handle = false
  born : t.tramp ≠ .unborn → t.coroutine ≠ none
  refs : t.useCount = (if t.tramp.refers then 1 else 0) + (if t.handle then 1 else 0)
  destroyed : t.destroyed = if t.tramp = .over ∧ t.handle = false then 1 else 0
  joining : t.joiner ≠ none → t.handle = true
  self : ∀ c p, t.joiner = some (c, p) → t.coroutine = some c → t.tramp = .callable
  done : t.done = t.tramp.isDone
  outcome : t.outcome = if t.tramp.ended then some t.exception else none
  waited : ∀ c p, t.joiner = some (c, p) → p ≠ .test → t.done = true
  joined : ∀ r, t.joined = some r → t.outcome = some r

/-- The same with the state of the library. -/
structure Task.Sync (m v : Nat) (t : Task) : Prop where
  monitor : Monitor m v t.inside t.st
  noIo : NoIo t.st
  tramp : t.tramp = .broadcast ∨ t.tramp = .unlock → ∃ c, t.coroutine = some c ∧ Holds m t.st c
  joiner : ∀ c, t.joiner = some (c, .unlock) → Holds m t.st c
  woken : t.done = true → t.st.queues (.cond v) ≠ [] → t.tramp = .broadcast

structure Task.Inv (m v : Nat) (t : Task) : Prop where
  books : t.Books
  sync : t.Sync m v
  asserts : t.assertFailed = false

/-! ## The fields -/

theorem books_init (cfg : Config) : (Task.initial cfg).Books := by
  constructor <;> simp [Task.initial, TrampPoint.refers, TrampPoint.isDone, TrampPoint.ended]

theorem Task.Books.spawn {t t' : Task} {e : SpawnEnv} (h : t.Books) (hs : t.spawn e = some t') :
    t'.Books := by
  obtain ⟨h1, h2, h3, h4, h5, h6, h7, h8, h9, h10⟩ := h
  unfold Task.spawn at hs
  split at hs
  swap
  · cases hs
  rename_i hu
  obtain ⟨s, -, rfl⟩ := Option.map_eq_some_iff.mp hs
  have hj : t.joiner = none := by
    by_contra hne
    rw [h1 hu] at h5
    exact absurd (h5 hne) (by simp)
  split
  · constructor <;> simp_all [TrampPoint.refers, TrampPoint.isDone, TrampPoint.ended]
  · exact ⟨h1, h2, h3, h4, h5, h6, h7, h8, h9, h10⟩

theorem Task.Books.callableEnd {t : Task} (h : t.Books) (hp : t.tramp = .callable)
    (hj : ∀ p, t.joiner ≠ some (c, p)) (hc : t.coroutine = some c) (ex : Option Nat) :
    Task.Books { t with tramp := .lock, exception := ex, outcome := some ex } := by
  obtain ⟨h1, h2, h3, h4, h5, h6, h7, h8, h9, h10⟩ := h
  constructor <;> simp_all [TrampPoint.refers, TrampPoint.isDone, TrampPoint.ended]
  rintro d p hd rfl
  exact hj p hd

/-- The trampoline goes on to `q` and keeps its reference; its coroutine is not the one that
joins. -/
theorem Task.Books.advance {t : Task} {q : TrampPoint} {s : St} {b : Bool} (h : t.Books)
    (hj : ∀ p, t.joiner ≠ some (c, p)) (hc : t.coroutine = some c)
    (hp : t.tramp.refers = true ∧ t.tramp.ended = true) (hq : q.refers = true ∧ q.ended = true)
    (hb : b = q.isDone) (hmore : t.done = true → b = true) :
    Task.Books { t with st := s, tramp := q, done := b } := by
  have hover : ∀ {r : TrampPoint}, r.refers = true → r ≠ .over := by
    rintro r hr rfl
    cases hr
  refine ⟨fun hu => ?_, fun _ => by simp [hc], ?_, ?_, h.joining, fun d p hd hd' => ?_, hb, ?_,
    fun d p hd hne => hmore (h.waited d p hd hne), h.joined⟩
  · have hu' : q = .unborn := hu
    rw [hu'] at hq
    cases hq.1
  · show t.useCount = (if q.refers then 1 else 0) + (if t.handle then 1 else 0)
    rw [h.refs, hp.1, hq.1]
  · show t.destroyed = if q = .over ∧ t.handle = false then 1 else 0
    rw [h.destroyed]
    simp [hover hp.1, hover hq.1]
  · have hcd : c = d := Option.some.inj (hc.symm.trans hd')
    subst hcd
    exact absurd hd (hj p)
  · show t.outcome = if q.ended then some t.exception else none
    rw [h.outcome, hp.2, hq.2]

/-- A reference is given up; the last one destroys the state. -/
theorem Task.release_spec (m v : Nat) (t : Task) :
    ∃ n k b, Task.release m v t = { t with useCount := n, destroyed := k, assertFailed := b } ∧
      n = t.useCount - 1 ∧ k = t.destroyed + if t.useCount = 1 then 1 else 0 := by
  unfold Task.release
  split
  · rename_i h
    exact ⟨_, _, _, rfl, by omega, rfl⟩
  · exact ⟨_, _, _, rfl, rfl, rfl⟩

/-- The last step of the trampoline gives up its reference. -/
theorem Task.Books.over {t : Task} (h : t.Books) (hj : ∀ p, t.joiner ≠ some (c, p))
    (hc : t.coroutine = some c) (hp : t.tramp = .release) :
    (Task.release m v { t with tramp := .over }).Books := by
  obtain ⟨n, k, b, he, hn, hk⟩ := Task.release_spec m v { t with tramp := .over }
  have hrefs : t.useCount = 1 + if t.handle then 1 else 0 := by
    rw [h.refs, hp]
    rfl
  have hdest : t.destroyed = 0 := by simp [h.destroyed, hp]
  rw [he]
  refine ⟨fun hu => ?_, fun _ => by simp [hc], ?_, ?_, h.joining, fun d p hd hd' => ?_, ?_, ?_,
    h.waited, h.joined⟩
  · cases hu
  · show n = (if TrampPoint.refers .over then 1 else 0) + (if t.handle then 1 else 0)
    rw [hn]
    simp [hrefs, TrampPoint.refers]
  · show k = if TrampPoint.over = .over ∧ t.handle = false then 1 else 0
    rw [hk]
    cases hh : t.handle <;> simp [hrefs, hdest, hh]
  · have hcd : c = d := Option.some.inj (hc.symm.trans hd')
    subst hcd
    exact absurd hd (hj p)
  · show t.done = _
    rw [h.done, hp]
    rfl
  · show t.outcome = _
    rw [h.outcome, hp]
    rfl

/-- `join()` or `detach()` gives up the reference of the handle. -/
theorem Task.Books.dropHandle {t : Task} {j : Option (Nat × JoinPoint)} {r : Option (Option Nat)}
    (h : t.Books) (hh : t.handle = true) (hj : j = none)
    (hr : ∀ x, r = some x → t.outcome = some x) :
    (Task.release m v { t with joiner := j, handle := false, joined := r }).Books := by
  obtain ⟨n, k, b, he, hn, hk⟩ :=
    Task.release_spec m v { t with joiner := j, handle := false, joined := r }
  have hborn : t.tramp ≠ .unborn := by
    intro hu
    rw [h.unborn hu] at hh
    cases hh
  have hrefs : t.useCount = (if t.tramp.refers then 1 else 0) + 1 := by
    rw [h.refs, hh]
    rfl
  have hdest : t.destroyed = 0 := by simp [h.destroyed, hh]
  have hover : t.tramp = .over ↔ t.tramp.refers = false := by
    cases ht : t.tramp <;> simp [TrampPoint.refers]
    exact hborn ht
  rw [he]
  subst hj
  refine ⟨fun _ => rfl, h.born, ?_, ?_, fun hne => absurd rfl hne, fun d p hd => ?_, h.done,
    h.outcome, fun d p hd => ?_, hr⟩
  · show n = (if t.tramp.refers then 1 else 0) + 0
    rw [hn]
    simp [hrefs]
  · show k = if t.tramp = .over ∧ false = false then 1 else 0
    rw [hk]
    cases ht : t.tramp.refers <;> simp [hrefs, hdest, hover, ht]
  · cases hd
  · cases hd

theorem Task.Books.trampoline {t t' : Task} (h : t.Books)
    (hj : ∀ p, t.joiner ≠ some (c, p)) (hc : t.coroutine = some c)
    (hs : t.trampoline m v = some t') : t'.Books := by
  unfold Task.trampoline at hs
  split at hs
  · rename_i hp
    obtain ⟨s, -, rfl⟩ := Option.map_eq_some_iff.mp hs
    exact h.advance hj hc (by simp [hp, TrampPoint.refers, TrampPoint.ended]) ⟨rfl, rfl⟩
      (by rw [h.done, hp]; rfl) id
  · rename_i hp
    cases hs
    exact h.advance hj hc (by simp [hp, TrampPoint.refers, TrampPoint.ended]) ⟨rfl, rfl⟩
      rfl fun _ => rfl
  · rename_i hp
    obtain ⟨s, -, rfl⟩ := Option.map_eq_some_iff.mp hs
    exact h.advance hj hc (by simp [hp, TrampPoint.refers, TrampPoint.ended]) ⟨rfl, rfl⟩
      (by rw [h.done, hp]; rfl) id
  · rename_i hp
    obtain ⟨s, -, rfl⟩ := Option.map_eq_some_iff.mp hs
    exact h.advance hj hc (by simp [hp, TrampPoint.refers, TrampPoint.ended]) ⟨rfl, rfl⟩
      (by rw [h.done, hp]; rfl) id
  · rename_i hp
    cases hs
    exact h.over hj hc hp
  · cases hs
  · cases hs
  · cases hs

/-- `join()` goes on to `p`. -/
theorem Task.Books.joinPoint {t : Task} {s : St} {p q : JoinPoint} (h : t.Books)
    (hj : t.joiner = some (c, p)) (hdone : t.done = true) :
    Task.Books { t with st := s, joiner := some (c, q) } := by
  refine ⟨h.unborn, h.born, h.refs, h.destroyed, fun _ => h.joining (by simp [hj]),
    fun d q' hd hd' => ?_, h.done, h.outcome, fun d q' hd hne => hdone, h.joined⟩
  have hcd : c = d := by
    cases hd
    rfl
  subst hcd
  exact h.self c p hj hd'

theorem Task.Books.joinNext {t t' : Task} {p : JoinPoint} (h : t.Books)
    (hj : t.joiner = some (c, p)) (hs : t.joinNext m v c p = some t') : t'.Books := by
  cases p with
  | test =>
    simp only [Task.joinNext] at hs
    split at hs
    · rename_i hdone
      cases hs
      exact h.joinPoint hj hdone
    · obtain ⟨s, -, rfl⟩ := Option.map_eq_some_iff.mp hs
      exact ⟨h.unborn, h.born, h.refs, h.destroyed, h.joining, h.self, h.done, h.outcome, h.waited,
        h.joined⟩
  | unlock =>
    obtain ⟨s, -, rfl⟩ := Option.map_eq_some_iff.mp hs
    exact h.joinPoint hj (h.waited c _ hj (by simp))
  | take =>
    cases hs
    have hdone : t.done = true := h.waited c _ hj (by simp)
    refine h.dropHandle (h.joining (by simp [hj])) rfl fun x hx => ?_
    -- the callable has ended, so its outcome is known
    have hended : t.tramp.ended = true := by
      rw [h.done] at hdone
      revert hdone
      cases t.tramp <;> simp [TrampPoint.isDone, TrampPoint.ended]
    rw [h.outcome, hended, ← hx]
    rfl

theorem Task.Books.detach {t : Task} (h : t.Books) (hj : t.joiner = none)
    (hh : t.handle = true) : (Task.release m v { t with handle := false }).Books :=
  h.dropHandle hh hj h.joined

/-! ## The mutex and the condition variable -/

theorem Task.free_spec {t : Task} (hf : t.free c = true) :
    (∀ p, t.joiner ≠ some (c, p)) ∧ (t.coroutine = some c → t.tramp = .callable) := by
  simp only [Task.free, Bool.and_eq_true, Bool.or_eq_true, decide_eq_true_eq] at hf
  refine ⟨fun p hj => ?_, fun hc => hf.2.resolve_left fun hne => hne hc⟩
  simp [hj] at hf

/-- Nobody runs code of the task. -/
def Task.Idle (t : Task) : Prop :=
  ∀ c, t.st.coCurrent = some c → (∀ p, t.joiner ≠ some (c, p)) ∧
    (t.coroutine = some c → t.tramp = .callable ∨ t.tramp = .over)

theorem Task.idle_of_free {t : Task} (hf : t.st.coCurrent.all t.free = true) : t.Idle := by
  intro c hc
  rw [hc, Option.all_some] at hf
  obtain ⟨h1, h2⟩ := Task.free_spec hf
  exact ⟨h1, fun h => .inl (h2 h)⟩

theorem Task.idle_of_mayDo {t : Task} {a : Act} (hf : t.st.coCurrent.all (t.mayDo · a) = true) :
    t.Idle := by
  intro c hc
  rw [hc, Option.all_some] at hf
  by_cases ha : a = .finish
  · subst ha
    simp only [Task.mayDo, Bool.and_eq_true, Bool.or_eq_true, decide_eq_true_eq] at hf
    refine ⟨fun p hj => ?_, fun hc => .inr (hf.2.resolve_left fun hne => hne hc)⟩
    simp [hj] at hf
  · have hfree : t.free c = true := by
      cases a <;> simp_all [Task.mayDo]
    obtain ⟨h1, h2⟩ := Task.free_spec hfree
    exact ⟨h1, fun h => .inl (h2 h)⟩

theorem Task.Idle.outside {t : Task} (h : t.Idle) (hcur : t.st.coCurrent = some c) :
    ¬ t.inside c := by
  obtain ⟨h1, h2⟩ := h c hcur
  rintro (⟨p, hp, -⟩ | ⟨hc, hi⟩)
  · exact h1 p hp
  · rcases h2 hc with h | h <;> simp [h, TrampPoint.inside] at hi

/-- Then nobody is past a lock. -/
theorem Task.Sync.idle {t : Task} (h : t.Sync m v) (hi : t.Idle) :
    ¬ (t.tramp = .broadcast ∨ t.tramp = .unlock) ∧ ∀ c, t.joiner ≠ some (c, .unlock) := by
  refine ⟨fun ht => ?_, fun c hc => ?_⟩
  · obtain ⟨c, hc, hh⟩ := h.tramp ht
    rcases (hi c hh.1).2 hc with h | h <;> simp [h] at ht
  · exact (hi c (h.joiner c hc).1).1 _ hc

/-- What others do. -/
theorem Task.Sync.other {t t' : Task} {a : Act} (h : t.Sync m v) (hi : t.Idle)
    (ha : foreign m v a = true) (hio : a.isIo = false) (hs : Libco.step t.st a = some t'.st)
    (hin : ∀ d, t'.inside d ↔ t.inside d) (ht : t'.tramp = t.tramp ∨ t'.tramp = .callable)
    (hj : t'.joiner = t.joiner) (hd : t'.done = t.done)
    (hw : t.done = true → t'.tramp = t.tramp) : t'.Sync m v := by
  have hl := h.noIo.leaks hio
  obtain ⟨hmon, hq⟩ := h.monitor.step hl ha (fun c hc => hi.outside hc) hs
  obtain ⟨hnt, hnj⟩ := h.idle hi
  have hnt' : ¬ (t'.tramp = .broadcast ∨ t'.tramp = .unlock) := by
    rcases ht with ht | ht
    · rw [ht]
      exact hnt
    · simp [ht]
  refine ⟨⟨hmon.placed, fun c hc => ?_, fun c hc => ?_⟩, h.noIo.step h.monitor.placed hio hs,
    fun h => absurd h hnt', fun c hc => ?_, fun h1 h2 => ?_⟩
  · exact hmon.outside c (fun h => hc ((hin c).mpr h))
  · exact hmon.busy c ((hin c).mp hc)
  · rw [hj] at hc
    exact absurd hc (hnj c)
  · rw [hd] at h1
    rw [hq] at h2
    rw [hw h1]
    exact h.woken h1 h2

/-- The trampoline does not run in the coroutine that joins. -/
theorem Task.Books.not_self {t : Task} (h : t.Books) (hc : t.coroutine = some c)
    (ht : t.tramp ≠ .callable) (p : JoinPoint) : t.joiner ≠ some (c, p) :=
  fun hj => ht (h.self c p hj hc)

/-- Dropping a reference changes nothing the library sees. -/
theorem Task.Sync.release {t : Task} (h : t.Sync m v) : (t.release m v).Sync m v := by
  obtain ⟨h1, h2, h3, h4, h5⟩ := h
  unfold Task.release
  split
  · exact ⟨h1, h2, h3, h4, h5⟩
  · exact ⟨h1, h2, h3, h4, h5⟩

/-- The trampoline goes on at `p`, in the state `s'`. -/
theorem Task.Sync.trampTo {t : Task} {s' : St} {p : TrampPoint} {dn : Bool} (h : t.Sync m v)
    (hb : t.Books) (hcur : t.st.coCurrent = some c) (hc : t.coroutine = some c)
    (ht : t.tramp ≠ .callable) (hp : Placed False s') (hn : NoIo s')
    (hfr : ∀ d, d ≠ c → (s'.co d).frame = (t.st.co d).frame)
    (hin : p.inside = true → Holds m s' c ∨ AtMonitor m v (s'.co c).frame)
    (hout : p.inside = false → (s'.co c).frame.mentions = [])
    (hheld : p = .broadcast ∨ p = .unlock → Holds m s' c)
    (hw : dn = true → s'.queues (.cond v) ≠ [] → p = .broadcast) :
    Task.Sync m v { t with st := s', tramp := p, done := dn } := by
  have hself := hb.not_self hc ht
  have hiff : Task.inside { t with st := s', tramp := p, done := dn } c ↔ p.inside = true := by
    simp [Task.inside, hself, hc]
  refine ⟨h.monitor.update hp (ne_current hcur) hfr (fun d hd => ?_) (fun hi => hin (hiff.mp hi))
    (fun hi => hout ?_), hn, fun hpt => ⟨c, hc, hheld hpt⟩, fun d hd => ?_, hw⟩
  · have hdc : t.coroutine ≠ some d := by
      rw [hc]
      simpa using hd.symm
    simp [Task.inside, hdc]
  · rw [hiff] at hi
    simpa using hi
  · -- a joiner past its lock would be running
    have hcd := (h.joiner d hd).1
    rw [hcur, Option.some.injEq] at hcd
    exact absurd hd (hcd ▸ hself _)

/-- The trampoline holds the mutex while it runs between its lock and its unlock. -/
theorem Task.Sync.holds {t : Task} (h : t.Sync m v) (hcur : t.st.coCurrent = some c)
    (hc : t.coroutine = some c) (ht : t.tramp.inside = true) : Holds m t.st c :=
  ⟨hcur, h.monitor.holds hcur (.inr ⟨hc, ht⟩)⟩

theorem Task.Sync.trampoline {t t' : Task} (h : t.Sync m v) (hb : t.Books)
    (hcur : t.st.coCurrent = some c) (hc : t.coroutine = some c)
    (hs : t.trampoline m v = some t') : t'.Sync m v := by
  have hpl : ∀ {op s}, Libco.step t.st (.call op) = some s → (Act.call op).isIo = false →
      Placed False s ∧ NoIo s := fun hstep hio =>
    ⟨h.monitor.placed.step (fun h => h.elim) (h.noIo.leaks hio) hstep,
      h.noIo.step h.monitor.placed hio hstep⟩
  unfold Task.trampoline at hs
  split at hs
  · rename_i ht
    obtain ⟨s, hstep, rfl⟩ := Option.map_eq_some_iff.mp hs
    obtain ⟨hp, hn⟩ := hpl hstep rfl
    obtain ⟨hfr, -, hst⟩ := lock_effect (v := v) hcur hstep
    refine h.trampTo hb hcur hc (by simp [ht]) hp hn hfr (fun _ => hst.imp_right .inl) ?_ ?_ ?_
    · intro hi
      cases hi
    · simp
    · simp [hb.done, ht, TrampPoint.isDone]
  · rename_i ht
    cases hs
    have hh := h.holds hcur hc (by rw [ht]; rfl)
    exact h.trampTo hb hcur hc (by simp [ht]) h.monitor.placed h.noIo (fun _ _ => rfl)
      (fun _ => .inl hh) (fun hi => by cases hi) (fun _ => hh) (fun _ _ => rfl)
  · rename_i ht
    obtain ⟨s, hstep, rfl⟩ := Option.map_eq_some_iff.mp hs
    obtain ⟨hp, hn⟩ := hpl hstep rfl
    obtain ⟨hfr, hq, hmx, hcur'⟩ := broadcast_effect hstep
    have hh : Holds m s c := ⟨hcur'.trans hcur, by rw [hmx]; exact (h.holds hcur hc (by rw [ht]; rfl)).2⟩
    exact h.trampTo hb hcur hc (by simp [ht]) hp hn (fun d _ => hfr d) (fun _ => .inl hh)
      (fun hi => by cases hi) (fun _ => hh) (fun _ hne => absurd hq hne)
  · rename_i ht
    obtain ⟨s, hstep, rfl⟩ := Option.map_eq_some_iff.mp hs
    obtain ⟨hp, hn⟩ := hpl hstep rfl
    have hl : (t.st.mutexes m).locked = true := by rw [(h.holds hcur hc (by rw [ht]; rfl)).2]
    obtain ⟨hfr, hq, -⟩ := unlock_effect (v := v) hl hstep
    refine h.trampTo hb hcur hc (by simp [ht]) hp hn (fun d _ => hfr d) (fun hi => by cases hi)
      (fun _ => ?_) (by simp) (fun hd hne => ?_)
    · rw [hfr, h.monitor.user hcur]
      rfl
    · rw [hq] at hne
      have := h.woken hd hne
      simp [ht] at this
  · rename_i ht
    cases hs
    refine Task.Sync.release (h.trampTo hb hcur hc (by simp [ht]) h.monitor.placed h.noIo
      (fun _ _ => rfl) (fun hi => by cases hi) (fun _ => ?_) (by simp) (fun hd hne => ?_))
    · rw [h.monitor.user hcur]
      rfl
    · have := h.woken hd hne
      simp [ht] at this
  · cases hs
  · cases hs
  · cases hs

/-- `join()` goes on at `p`, or ends, in the state `s'`. -/
theorem Task.Sync.joinTo {t : Task} {s' : St} {j : Option JoinPoint} {b : Bool}
    {r : Option (Option Nat)} (h : t.Sync m v)
    (hcur : t.st.coCurrent = some c) (hj : ∀ d p, t.joiner = some (d, p) → d = c)
    (hself : t.coroutine = some c → t.tramp = .callable)
    (hp : Placed False s') (hn : NoIo s')
    (hfr : ∀ d, d ≠ c → (s'.co d).frame = (t.st.co d).frame)
    (hin : j = some .test ∨ j = some .unlock → Holds m s' c ∨ AtMonitor m v (s'.co c).frame)
    (hout : j = some .take ∨ j = none → (s'.co c).frame.mentions = [])
    (hheld : j = some .unlock → Holds m s' c)
    (hw : t.done = true → s'.queues (.cond v) ≠ [] → t.st.queues (.cond v) ≠ []) :
    Task.Sync m v { t with st := s', joiner := j.map (c, ·), handle := b, joined := r } := by
  have htr : t.coroutine = some c → t.tramp.inside = false := fun h => by rw [hself h]; rfl
  refine ⟨h.monitor.update hp (ne_current hcur) hfr (fun d hd => ?_) (fun hi => hin ?_)
    (fun hi => hout ?_), hn, fun hpt => ?_, fun d hd => ?_, fun hd hne => h.woken hd (hw hd hne)⟩
  · have hd' : ∀ p, t.joiner ≠ some (d, p) := fun p hp => hd (hj d p hp)
    simp [Task.inside, hd', hd.symm]
  · rcases hi with ⟨p, hp, hne⟩ | ⟨hc, hi⟩
    · cases j with
      | none => cases hp
      | some q => cases q <;> simp_all
    · rw [htr hc] at hi
      cases hi
  · cases j with
    | none => exact .inr rfl
    | some q =>
      by_contra hq
      refine hi (.inl ⟨q, rfl, ?_⟩)
      rintro rfl
      exact hq (.inl rfl)
  · -- the trampoline past its lock would be running
    obtain ⟨e, he, hh⟩ := h.tramp hpt
    have := hh.1
    rw [hcur, Option.some.injEq] at this
    subst this
    rcases hpt with hpt | hpt <;> rw [hself he] at hpt <;> cases hpt
  · cases j with
    | none => cases hd
    | some q =>
      simp only [Option.map_some, Option.some.injEq, Prod.mk.injEq] at hd
      obtain ⟨rfl, rfl⟩ := hd
      exact hheld rfl

theorem Task.Sync.join {t : Task} {s' : St} (h : t.Sync m v) (hcur : t.st.coCurrent = some c)
    (hf : t.free c = true) (hj : t.joiner = none)
    (hs : Libco.step t.st (.call (.mutexLock m)) = some s') :
    Task.Sync m v { t with st := s', joiner := some (c, .test) } := by
  obtain ⟨hfr, hq, hst⟩ := lock_effect (v := v) hcur hs
  refine h.joinTo (j := some .test) hcur (fun d p hd => ?_) (Task.free_spec hf).2
    (h.monitor.placed.step (fun h => h.elim) rfl hs) (h.noIo.step h.monitor.placed rfl hs) hfr
    (fun _ => hst.imp_right .inl) (by simp) (by simp) (fun _ hne => ?_)
  · rw [hj] at hd
    cases hd
  · rwa [hq] at hne

theorem Task.Sync.joinNext {t t' : Task} {p : JoinPoint} (h : t.Sync m v) (hb : t.Books)
    (hj : t.joiner = some (c, p)) (hcur : t.st.coCurrent = some c)
    (hs : t.joinNext m v c p = some t') : t'.Sync m v := by
  have honly : ∀ d q, t.joiner = some (d, q) → d = c := by
    intro d q hd
    rw [hj, Option.some.injEq, Prod.mk.injEq] at hd
    exact hd.1.symm
  have hself : t.coroutine = some c → t.tramp = .callable := hb.self c p hj
  have hholds : p ≠ .take → Holds m t.st c := fun hp =>
    ⟨hcur, h.monitor.holds hcur (.inl ⟨p, hj, hp⟩)⟩
  cases p with
  | test =>
    simp only [Task.joinNext] at hs
    split at hs
    · cases hs
      exact h.joinTo (j := some .unlock) hcur honly hself h.monitor.placed h.noIo (fun _ _ => rfl)
        (fun _ => .inl (hholds (by simp))) (by simp) (fun _ => hholds (by simp)) (fun _ hq => hq)
    · rename_i hd
      obtain ⟨s, hstep, rfl⟩ := Option.map_eq_some_iff.mp hs
      obtain ⟨hfr, hf, -⟩ := condWait_effect hcur (by rw [(hholds (by simp)).2]) hstep
      have := h.joinTo (j := some .test) (b := t.handle) (r := t.joined) hcur honly hself
        (h.monitor.placed.step (fun h => h.elim) rfl hstep)
        (h.noIo.step h.monitor.placed rfl hstep) hfr (fun _ => .inr (.inr (.inl hf))) (by simp)
        (by simp) (fun h _ => absurd h hd)
      simpa [hj] using this
  | unlock =>
    obtain ⟨s, hstep, rfl⟩ := Option.map_eq_some_iff.mp hs
    obtain ⟨hfr, hq, -⟩ := unlock_effect (v := v) (by rw [(hholds (by simp)).2]) hstep
    refine h.joinTo (j := some .take) hcur honly hself
      (h.monitor.placed.step (fun h => h.elim) rfl hstep)
      (h.noIo.step h.monitor.placed rfl hstep) (fun d _ => hfr d) (by simp) (fun _ => ?_) (by simp)
      (fun _ hne => by rwa [hq] at hne)
    rw [hfr, h.monitor.user hcur]
    rfl
  | take =>
    cases hs
    refine Task.Sync.release (h.joinTo (j := none) hcur honly hself h.monitor.placed h.noIo
      (fun _ _ => rfl) (by simp) (fun _ => ?_) (by simp) (fun _ hne => hne))
    rw [h.monitor.user hcur]
    rfl

/-! ## The destructor -/

/-- With nobody inside, both queues are empty. -/
theorem Monitor.queues_empty {s : St} {inside : Nat → Prop} (h : Monitor m v inside s)
    (hno : ∀ c, ¬ inside c) : s.queues (.mutex m) = [] ∧ s.queues (.cond v) = [] := by
  obtain ⟨cur, hi, -⟩ := h.placed
  have hempty : ∀ q o, q ≠ .ready → q.obj = some o → (o = .mutex m ∨ o = .cond v) →
      s.queues q = [] := by
    intro q o hq ho hmv
    rw [List.eq_nil_iff_forall_not_mem]
    intro c hc
    obtain ⟨o', ho', hmem⟩ := Frame.objs_of_waitQueue (Routine.home_wait (hi.mem_queue hc) hq).2
    rw [ho, Option.some.injEq] at ho'
    subst ho'
    have hmen := Frame.objs_mentions hmem
    rcases hmv with rfl | rfl
    · exact (h.outside c (hno c)).1 hmen
    · exact (h.outside c (hno c)).2 hmen
  exact ⟨hempty _ _ (by simp) rfl (.inl rfl), hempty _ _ (by simp) rfl (.inr rfl)⟩

/-- The last reference goes when nobody is inside: the assertions hold. -/
theorem Task.release_asserts {t : Task} {inside : Nat → Prop} (hm : Monitor m v inside t.st)
    (ha : t.assertFailed = false) (hno : t.useCount = 1 → ∀ c, ¬ inside c) :
    (t.release m v).assertFailed = false := by
  unfold Task.release
  split
  · rename_i h1
    obtain ⟨hq, hcq⟩ := hm.queues_empty (hno h1)
    simp [ha, coQueueEmpty, hq, hcq]
  · exact ha

/-- The handle is the last one: the trampoline is over. -/
theorem Task.Books.last_handle {t : Task} (h : t.Books) (hh : t.handle = true)
    (h1 : t.useCount = 1) : t.tramp.inside = false := by
  have hr := h.refs
  rw [h1, hh] at hr
  cases ht : t.tramp <;> simp [ht, TrampPoint.refers] at hr <;> rfl

/-! ## The run -/

theorem task_init (cfg : Config) : (Task.initial cfg).Inv m v := by
  refine ⟨books_init cfg, ⟨monitor_init cfg fun c => ?_, fun c => ?_, ?_, ?_, ?_⟩, rfl⟩
  · simp [Task.initial, Task.inside, TrampPoint.inside]
  · rfl
  · simp [Task.initial]
  · simp [Task.initial]
  · simp [Task.initial]

theorem Task.Inv.spawn {t t' : Task} {e : SpawnEnv} (h : t.Inv m v)
    (hf : t.st.coCurrent.all t.free = true) (hs : t.spawn e = some t') : t'.Inv m v := by
  have hbooks := h.books.spawn hs
  unfold Task.spawn at hs
  split at hs
  swap
  · cases hs
  rename_i hu
  obtain ⟨s, hstep, rfl⟩ := Option.map_eq_some_iff.mp hs
  have hj : t.joiner = none := by
    by_contra hne
    have := h.books.joining hne
    rw [h.books.unborn hu] at this
    cases this
  have hd : t.done = false := by rw [h.books.done, hu]; rfl
  have hidle := Task.idle_of_free hf
  split
  · rename_i c hc
    rw [hc] at hbooks
    refine ⟨hbooks, h.sync.other hidle rfl rfl hstep (fun d => ?_) (.inr rfl) rfl rfl ?_, h.asserts⟩
    · simp [Task.inside, hj, hu, TrampPoint.inside]
    · simp [hd]
  · rename_i hc
    rw [hc] at hbooks
    exact ⟨hbooks, h.sync.other hidle rfl rfl hstep (fun d => Iff.rfl) (.inl rfl) rfl rfl
      (fun _ => rfl), h.asserts⟩

theorem Task.Inv.callableEnd {t : Task} (h : t.Inv m v) (hc : t.coroutine = some c)
    (hf : t.free c = true) (ex : Option Nat) :
    Task.Inv m v { t with tramp := .lock, exception := ex, outcome := some ex } := by
  obtain ⟨hj, hp⟩ := Task.free_spec hf
  have hpt := hp hc
  refine ⟨h.books.callableEnd hpt hj hc ex, ⟨⟨h.sync.monitor.placed, fun d hd => ?_,
    fun d hd => ?_⟩, h.sync.noIo, by simp, h.sync.joiner, fun hd => ?_⟩, h.asserts⟩
  · exact h.sync.monitor.outside d (by simpa [Task.inside, hpt, TrampPoint.inside] using hd)
  · exact h.sync.monitor.busy d (by simpa [Task.inside, hpt, TrampPoint.inside] using hd)
  · simp [h.books.done, hpt, TrampPoint.isDone] at hd

theorem Task.Inv.trampoline {t t' : Task} (h : t.Inv m v) (hcur : t.st.coCurrent = some c)
    (hc : t.coroutine = some c) (hs : t.trampoline m v = some t') : t'.Inv m v := by
  have hsync := h.sync.trampoline h.books hcur hc hs
  have hne : t.tramp ≠ .callable := by
    intro ht
    simp [Task.trampoline, ht] at hs
  refine ⟨h.books.trampoline (h.books.not_self hc hne) hc hs, hsync, ?_⟩
  unfold Task.trampoline at hs
  split at hs
  · obtain ⟨s, -, rfl⟩ := Option.map_eq_some_iff.mp hs
    exact h.asserts
  · cases hs
    exact h.asserts
  · obtain ⟨s, -, rfl⟩ := Option.map_eq_some_iff.mp hs
    exact h.asserts
  · obtain ⟨s, -, rfl⟩ := Option.map_eq_some_iff.mp hs
    exact h.asserts
  · rename_i ht
    cases hs
    refine Task.release_asserts h.sync.monitor h.asserts fun h1 d => ?_
    -- the handle is gone, and with it every `join()`
    have hr := h.books.refs
    simp only at h1
    rw [h1, ht] at hr
    have hh : t.handle = false := by
      cases hh : t.handle
      · rfl
      · simp [hh, TrampPoint.refers] at hr
    have hj : t.joiner = none := by
      by_contra hne
      rw [h.books.joining hne] at hh
      cases hh
    simp [Task.inside, hj, ht, TrampPoint.inside]
  · cases hs
  · cases hs
  · cases hs

theorem Task.Inv.join {t : Task} {s' : St} (h : t.Inv m v) (hcur : t.st.coCurrent = some c)
    (hf : t.free c = true) (hj : t.joiner = none) (hh : t.handle = true)
    (hs : Libco.step t.st (.call (.mutexLock m)) = some s') :
    Task.Inv m v { t with st := s', joiner := some (c, .test) } := by
  obtain ⟨h1, h2, h3, h4, h5, h6, h7, h8, h9, h10⟩ := h.books
  refine ⟨⟨h1, h2, h3, h4, fun _ => hh, fun d p hd hc => ?_, h7, h8, fun d p hd hp => ?_, h10⟩,
    h.sync.join hcur hf hj hs, h.asserts⟩
  · simp only [Option.some.injEq, Prod.mk.injEq] at hd
    exact (Task.free_spec hf).2 (hd.1 ▸ hc)
  · simp only [Option.some.injEq, Prod.mk.injEq] at hd
    exact absurd hd.2.symm hp

theorem Task.Inv.joinNext {t t' : Task} {p : JoinPoint} (h : t.Inv m v)
    (hj : t.joiner = some (c, p)) (hcur : t.st.coCurrent = some c)
    (hs : t.joinNext m v c p = some t') : t'.Inv m v := by
  refine ⟨h.books.joinNext hj hs, h.sync.joinNext h.books hj hcur hs, ?_⟩
  cases p with
  | test =>
    simp only [Task.joinNext] at hs
    split at hs
    · cases hs
      exact h.asserts
    · obtain ⟨s, -, rfl⟩ := Option.map_eq_some_iff.mp hs
      exact h.asserts
  | unlock =>
    obtain ⟨s, -, rfl⟩ := Option.map_eq_some_iff.mp hs
    exact h.asserts
  | take =>
    cases hs
    refine Task.release_asserts h.sync.monitor h.asserts fun h1 d => ?_
    have := h.books.last_handle (h.books.joining (by simp [hj])) h1
    simp [Task.inside, hj, this]

theorem Task.Inv.detach {t : Task} (h : t.Inv m v) (hj : t.joiner = none)
    (hh : t.handle = true) : (Task.release m v { t with handle := false }).Inv m v := by
  obtain ⟨h1, h2, h3, h4, h5⟩ := h.sync
  refine ⟨h.books.detach hj hh, Task.Sync.release ⟨h1, h2, h3, h4, h5⟩, ?_⟩
  refine Task.release_asserts h1 h.asserts fun hone d => ?_
  have := h.books.last_handle hh hone
  simp [Task.inside, hj, this]

theorem Task.Inv.other {t : Task} {a : Act} {s' : St} (h : t.Inv m v) (hf : foreign m v a = true)
    (hio : a.isIo = false) (hi : t.Idle) (hs : Libco.step t.st a = some s') :
    Task.Inv m v { t with st := s' } := by
  obtain ⟨h1, h2, h3, h4, h5, h6, h7, h8, h9, h10⟩ := h.books
  exact ⟨⟨h1, h2, h3, h4, h5, h6, h7, h8, h9, h10⟩,
    h.sync.other hi hf hio hs (fun _ => Iff.rfl) (.inl rfl) rfl rfl (fun _ => rfl), h.asserts⟩

theorem Task.Inv.step {t t' : Task} {b : TaskAct} (h : t.Inv m v) (hg : Coxx.noIo b = true)
    (hs : t.step m v b = some t') : t'.Inv m v := by
  cases b with
  | spawn e =>
    simp only [Task.step] at hs
    split at hs
    · rename_i hf
      exact h.spawn hf hs
    · cases hs
  | callableEnd ex =>
    simp only [Task.step] at hs
    split at hs
    swap
    · cases hs
    split at hs
    · rename_i hf
      cases hs
      exact h.callableEnd hf.1 hf.2 ex
    · cases hs
  | trampoline =>
    simp only [Task.step] at hs
    split at hs
    swap
    · cases hs
    rename_i c hcur
    split at hs
    · rename_i hc
      exact h.trampoline hcur hc hs
    · cases hs
  | join =>
    simp only [Task.step] at hs
    split at hs
    swap
    · cases hs
    rename_i c hcur
    split at hs
    swap
    · cases hs
    rename_i hf
    split at hs
    · rename_i hh
      obtain ⟨s, hstep, rfl⟩ := Option.map_eq_some_iff.mp hs
      exact h.join hcur hf.1 hf.2 hh hstep
    · cases hs
      exact h
  | joinNext =>
    simp only [Task.step] at hs
    split at hs
    swap
    · cases hs
    rename_i c p hj
    split at hs
    · rename_i hcur
      exact h.joinNext hj hcur hs
    · cases hs
  | detach =>
    simp only [Task.step] at hs
    split at hs
    swap
    · cases hs
    rename_i hf
    split at hs
    · rename_i hh
      cases hs
      exact h.detach hf.2.2 hh
    · cases hs
      exact h
  | other a =>
    simp only [Task.step] at hs
    split at hs
    · rename_i hf
      obtain ⟨s, hstep, rfl⟩ := Option.map_eq_some_iff.mp hs
      simp only [Bool.and_eq_true] at hf
      exact h.other hf.1 (by simpa [Coxx.noIo] using hg) (Task.idle_of_mayDo hf.2) hstep
    · cases hs

theorem TaskRun.inv {cfg : Config} {t : Task} (h : TaskRun m v cfg t) : t.Inv m v :=
  Reach.invariant h (task_init cfg) fun _ _ _ hi hg hs => hi.step hg hs

/-! ## Results -/

/-- The trampoline has made its broadcast. -/
def TrampPoint.hasBroadcast : TrampPoint → Bool
  | .unlock | .release | .over => true
  | _ => false

structure Task.Sound (m v : Nat) (t : Task) : Prop where
  /-- out of its wait loop, `join()` comes after the callable -/
  waited : ∀ c p, t.joiner = some (c, p) → p ≠ .test → t.outcome ≠ none
  /-- it rethrows what was thrown, or returns -/
  rethrows : ∀ r, t.joined = some r → t.outcome = some r
  not_queued : t.tramp.hasBroadcast = true → t.st.queues (.cond v) = []
  destroyed : t.destroyed = if t.tramp = .over ∧ t.handle = false then 1 else 0
  asserts : t.assertFailed = false

/-- **`Task::join` is a completion wait.** -/
theorem task_join_sound {cfg : Config} {t : Task} (h : TaskRun m v cfg t) : t.Sound m v := by
  have hi := h.inv
  have hdone : t.done = true → t.outcome ≠ none := by
    rw [hi.books.done, hi.books.outcome]
    cases t.tramp <;> simp [TrampPoint.isDone, TrampPoint.ended]
  refine ⟨fun c p hj hp => hdone (hi.books.waited c p hj hp), hi.books.joined, fun hb => ?_,
    hi.books.destroyed, hi.asserts⟩
  by_contra hq
  have hd : t.done = true := by
    rw [hi.books.done]
    revert hb
    cases t.tramp <;> simp [TrampPoint.isDone, TrampPoint.hasBroadcast]
  have := hi.sync.woken hd hq
  rw [this] at hb
  cases hb

/-- The joiner waits first; the callable then throws 7, and `join()` rethrows it. -/
def joinRun : List TaskAct :=
  [TaskAct.other spawnOk, .spawn ⟨0, true, some 0, true⟩, .other .run] ++ turn.map TaskAct.other ++
    [TaskAct.join, .joinNext] ++ turn.map TaskAct.other ++
    [TaskAct.callableEnd (some 7), .trampoline, .trampoline, .trampoline, .trampoline, .trampoline,
      .other .finish] ++ turn.map TaskAct.other ++ [TaskAct.joinNext, .joinNext, .joinNext]

theorem task_join_sound_throws :
    ∃ t, runGuarded (Task.step 0 0) (fun _ => noIo) (.initial (byteConfig 0)) joinRun = some t ∧
      t.joined = some (some 7) ∧ t.destroyed = 1 ∧ t.Sound 0 0 := by
  have hrun : (runGuarded (Task.step 0 0) (fun _ => noIo) (.initial (byteConfig 0)) joinRun).map
      (fun t => (t.joined, t.destroyed)) = some (some (some 7), 1) := by
    decide +kernel
  obtain ⟨t, ht, he⟩ := Option.map_eq_some_iff.mp hrun
  simp only [Prod.mk.injEq] at he
  exact ⟨t, ht, he.1, he.2, task_join_sound (reach_of_runGuarded ht)⟩

end Libco.Coxx
