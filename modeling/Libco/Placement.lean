import Mathlib.Data.List.Nodup
import Libco.Lib.Count
import Libco.Scheduler

/-!
# Where coroutines are

`Inv run cur s` ties the record of every coroutine to the containers it is in.
The state field and the frame of a coroutine determine the one queue its
`queue_node` is linked into (`Routine.home`), whether it must be, or may be, in
the timer heap, and the values of `cond_wait_queue` and `io_waiting`. `cur` is
the coroutine whose own code is running. Under `run` that coroutine is marked
`RUNNING`; without it, it may also be marked `READY`, as `co_sleep` and
`co_cond_timedwait` leave it when the timer heap cannot grow.

`Inv.change` reduces every update to the one coroutine it concerns.
-/

namespace Libco
open Lib

/-! ## What state and frame determine -/

/-- The wait queue a blocked coroutine is in. -/
def Frame.waitQueue : Frame → Option QueueRef
  | .lock m | .condRelock _ m | .timedRelock _ m => some (.mutex m)
  | .condWait v _ | .timedWait v _ => some (.cond v)
  | .send h => some (.send h)
  | .recv h => some (.recv h)
  | _ => none

/-- Suspended, to be resumed by the scheduler. -/
def Frame.suspended : Frame → Bool
  | .absent | .freed | .user => false
  | _ => true

/-- Frames that can be `WAITING`. -/
def Frame.blocks : Frame → Bool
  | .absent | .freed | .user | .entry | .yieldNow => false
  | _ => true

def Frame.isIo : Frame → Bool
  | .waitIo _ | .waitAsync _ | .drainAsync _ => true
  | _ => false

/-- Frames of timed waits, which have an entry in the timer heap. -/
def Frame.timed : Frame → Bool
  | .sleep | .timedWait _ _ => true
  | .waitIo x => 0 ≤ x.timeoutMs
  | .waitAsync x => 0 ≤ x.timeoutMs
  | _ => false

/-- The queue the coroutine's `queue_node` is linked into. -/
def Routine.home (r : Routine) : Option QueueRef :=
  if r.frame.suspended then
    match r.state with
    | .ready => some .ready
    | .waiting => r.frame.waitQueue
    | _ => none
  else none

/-- Created and not yet released. -/
def Routine.unfinished (r : Routine) : Bool :=
  match r.frame with
  | .absent | .freed => false
  | _ => true

/-- Suspended inside an I/O wait. -/
def Routine.ioSuspended (r : Routine) : Bool := r.state == .waiting && r.frame.isIo

/-- In a timed wait that has not ended: it has a timer. -/
def Routine.mustTimer (r : Routine) : Bool := r.state == .waiting && r.frame.timed

/-- In such a wait, or woken out of one by something else than its deadline. A
sleep ends by its deadline only. -/
def Routine.mayTimer (r : Routine) : Bool :=
  r.frame.timed && ((r.state == .waiting && (r.frame == .sleep || !r.timedOut)) ||
    (r.state == .ready && r.frame != .sleep && !r.timedOut))

/-- `cond_wait_queue`. -/
def Routine.condPtr (r : Routine) : Option Nat :=
  match r.frame, r.state with
  | .timedWait v _, .waiting => some v
  | _, _ => none

/-- `io_waiting`. -/
def Routine.ioFlag (r : Routine) : Bool := r.state == .waiting && r.frame.isIo && r.frame.timed

/-- A coroutine sits where its record says; `inQ` and `inHeap` are the numbers of
its occurrences in the queues and in the timer heap. -/
structure Seated (run : Prop) (r : Routine) (inQ : QueueRef → Nat) (inHeap : Nat) : Prop where
  queued : ∀ q, inQ q = if r.home = some q then 1 else 0
  timer_le : inHeap ≤ 1
  timer_may : 0 < inHeap → r.mayTimer = true
  timer_must : r.mustTimer = true → 0 < inHeap
  state : r.frame.suspended = true →
    r.state = .ready ∨ (r.state = .waiting ∧ r.frame.blocks = true)
  user : r.frame = .user → run → r.state = .running
  gone : r.unfinished = false → r.state ≠ .running
  cond : r.condWaitQueue = r.condPtr
  io : r.ioWaiting = r.ioFlag

structure Inv (run : Prop) (cur : Option Nat) (s : Sched) : Prop where
  seated : ∀ c, Seated run (s.co c) (fun q => (s.queues q).count c)
    (s.timerHeap.entries.count c)
  ordered : Heaped s.key s.timerHeap.entries
  ioCount : s.waitingIoCount = countOn Routine.ioSuspended s.co s.nextId % 2 ^ 32
  active : s.activeRoutines = countOn Routine.unfinished s.co s.nextId
  fresh : ∀ c, s.nextId ≤ c → (s.co c).frame = .absent
  user : ∀ c, (s.co c).frame = .user ↔ cur = some c

variable {run : Prop} {cur : Option Nat} {s s' : Sched} {c : Nat}

/-! ## Reading the invariant -/

theorem Inv.mem_queue (h : Inv run cur s) {q : QueueRef} (hm : c ∈ s.queues q) :
    (s.co c).home = some q := by
  have := (h.seated c).queued q
  have hpos : 0 < (s.queues q).count c := List.count_pos_iff.mpr hm
  by_contra hne
  simp only [hne, if_false] at this
  omega

theorem Inv.mem_of_home (h : Inv run cur s) {q : QueueRef} (hm : (s.co c).home = some q) :
    c ∈ s.queues q := by
  have := (h.seated c).queued q
  rw [if_pos hm] at this
  exact List.count_pos_iff.mp (by omega)

theorem Inv.nodup_queue (h : Inv run cur s) (q : QueueRef) : (s.queues q).Nodup := by
  rw [List.nodup_iff_count_le_one]
  intro c
  have := (h.seated c).queued q
  by_cases hh : (s.co c).home = some q
  · simp only [hh, if_true] at this
    omega
  · simp only [hh, if_false] at this
    omega

theorem Inv.nodup_heap (h : Inv run cur s) : s.timerHeap.entries.Nodup := by
  rw [List.nodup_iff_count_le_one]
  exact fun c => (h.seated c).timer_le

theorem Inv.mono {run' : Prop} (h : Inv run cur s) (himp : run' → run) : Inv run' cur s := by
  refine ⟨fun c => ?_, h.ordered, h.ioCount, h.active, h.fresh, h.user⟩
  have hs := h.seated c
  exact ⟨hs.queued, hs.timer_le, hs.timer_may, hs.timer_must, hs.state,
    fun hf hr => hs.user hf (himp hr), hs.gone, hs.cond, hs.io⟩

theorem Inv.mem_heap (h : Inv run cur s) (hm : c ∈ s.timerHeap.entries) :
    (s.co c).mayTimer = true :=
  (h.seated c).timer_may (List.count_pos_iff.mpr hm)

theorem Routine.home_ready {r : Routine} (h : r.home = some .ready) :
    r.frame.suspended = true ∧ r.state = .ready := by
  unfold home at h
  split at h
  · rename_i hs
    refine ⟨hs, ?_⟩
    cases hst : r.state <;> simp [hst] at h ⊢
    cases hf : r.frame <;> simp [hf, Frame.waitQueue] at h
  · cases h

theorem Routine.home_wait {r : Routine} {q : QueueRef} (h : r.home = some q) (hq : q ≠ .ready) :
    r.state = .waiting ∧ r.frame.waitQueue = some q := by
  unfold home at h
  split at h
  · cases hst : r.state <;> simp [hst] at h ⊢
    · exact absurd h.symm hq
    · exact h
  · cases h

theorem Routine.timed_of_mayTimer {r : Routine} (h : r.mayTimer = true) :
    r.frame.timed = true ∧ (r.frame ≠ .sleep → r.timedOut = false) := by
  simp only [Routine.mayTimer, Bool.and_eq_true, Bool.or_eq_true, beq_iff_eq, bne_iff_ne,
    Bool.not_eq_true'] at h
  refine ⟨h.1, fun hne => ?_⟩
  rcases h.2 with ⟨-, hs | ht⟩ | ⟨-, ht⟩
  · exact absurd hs hne
  · exact ht
  · exact ht

theorem Inv.lt_nextId (h : Inv run cur s) (hf : (s.co c).frame ≠ .absent) : c < s.nextId := by
  by_contra hge
  exact hf (h.fresh c (by omega))

theorem Frame.suspended_ne_absent {f : Frame} (h : f.suspended = true) : f ≠ .absent := by
  rintro rfl
  cases h

theorem Frame.waitQueue_suspended {f : Frame} {q : QueueRef} (h : f.waitQueue = some q) :
    f.suspended = true ∧ f.blocks = true ∧ f.isIo = false := by
  cases f <;> simp [Frame.waitQueue, Frame.suspended, Frame.blocks, Frame.isIo] at h ⊢

/-! ## Occurrences in queues -/

variable {Q : QueueRef → List Nat} {q : QueueRef}

theorem count_pushBack (d : Nat) (p : QueueRef) :
    (Function.update Q q (Q q ++ [c]) p).count d =
      (Q p).count d + (if p = q ∧ d = c then 1 else 0) := by
  by_cases hp : p = q
  · subst hp
    by_cases hd : d = c
    · simp [hd]
    · simp [hd, Ne.symm hd]
  · simp [hp]

theorem count_dropFront {rest : List Nat} (hq : Q q = c :: rest) (d : Nat) (p : QueueRef) :
    (Function.update Q q rest p).count d + (if p = q ∧ d = c then 1 else 0) =
      (Q p).count d := by
  by_cases hp : p = q
  · subst hp
    by_cases hd : d = c
    · simp [hd, hq]
    · simp [hd, hq, Ne.symm hd]
  · simp [hp]

theorem count_remove (hm : c ∈ Q q) (d : Nat) (p : QueueRef) :
    (Function.update Q q ((Q q).erase c) p).count d + (if p = q ∧ d = c then 1 else 0) =
      (Q p).count d := by
  by_cases hp : p = q
  · subst hp
    have hpos : 0 < (Q p).count c := List.count_pos_iff.mpr hm
    by_cases hd : d = c
    · simp [hd, List.count_erase_self]
      omega
    · simp [hd, List.count_erase_of_ne hd]
  · simp [hp]

/-! ## One coroutine changes -/

/-- The counter follows a coroutine into or out of the I/O waiters. -/
def IoStep (old new : Routine) (n n' : Nat) : Prop :=
  n' < 2 ^ 32 ∧
    (n' + old.ioSuspended.toNat) % 2 ^ 32 = (n + new.ioSuspended.toNat) % 2 ^ 32

theorem Inv.ioCount_lt (h : Inv run cur s) : s.waitingIoCount < 2 ^ 32 := by
  rw [h.ioCount]
  exact Nat.mod_lt _ (by decide)

theorem Inv.ioStep_same (h : Inv run cur s) {old new : Routine}
    (he : old.ioSuspended = new.ioSuspended) :
    IoStep old new s.waitingIoCount s.waitingIoCount :=
  ⟨h.ioCount_lt, by rw [he]⟩

theorem Inv.ioStep_incr (h : Inv run cur s) {old new : Routine} (ho : old.ioSuspended = false)
    (hn : new.ioSuspended = true) : IoStep old new s.waitingIoCount (incr32 s.waitingIoCount) := by
  have hlt := h.ioCount_lt
  simp only [IoStep, incr32, ho, hn, Bool.toNat_false, Bool.toNat_true]
  split <;> omega

theorem Inv.ioStep_decr (h : Inv run cur s) {old new : Routine} (ho : old.ioSuspended = true)
    (hn : new.ioSuspended = false) : IoStep old new s.waitingIoCount (decr32 s.waitingIoCount) := by
  have hlt := h.ioCount_lt
  simp only [IoStep, decr32, ho, hn, Bool.toNat_false, Bool.toNat_true]
  split <;> omega

/-- **The update rule.** Only the record of `c` changes, and only the occurrences
of `c` in the containers. -/
theorem Inv.change {cur' : Option Nat} {r : Routine} (h : Inv run cur s)
    (hc : c < s.nextId) (hco : s'.co = Function.update s.co c r) (hid : s'.nextId = s.nextId)
    (hq : ∀ d p, d ≠ c → (s'.queues p).count d = (s.queues p).count d)
    (hh : ∀ d, d ≠ c → s'.timerHeap.entries.count d = s.timerHeap.entries.count d)
    (hseat : Seated run r (fun p => (s'.queues p).count c) (s'.timerHeap.entries.count c))
    (hord : Heaped s'.key s'.timerHeap.entries)
    (hio : IoStep (s.co c) r s.waitingIoCount s'.waitingIoCount)
    (hact : s'.activeRoutines + (s.co c).unfinished.toNat =
      s.activeRoutines + r.unfinished.toNat)
    (huser : r.frame = .user ↔ cur' = some c)
    (hcur : ∀ d, d ≠ c → (cur = some d ↔ cur' = some d)) : Inv run cur' s' := by
  have hother : ∀ d, d ≠ c → s'.co d = s.co d := fun d hd => by
    rw [hco, Function.update_of_ne hd]
  have hself : s'.co c = r := by rw [hco, Function.update_self]
  constructor
  · intro d
    by_cases hd : d = c
    · subst hd
      rw [hself]
      exact hseat
    · have hd' := h.seated d
      rw [hother d hd, hh d hd]
      simpa only [hq d _ hd] using hd'
  · exact hord
  · have hn := countOn_update (p := Routine.ioSuspended) (f := s.co) hc r
    have hold := h.ioCount
    obtain ⟨hlt, heq⟩ := hio
    rw [hid, hco]
    omega
  · have hn := countOn_update (p := Routine.unfinished) (f := s.co) hc r
    have hold := h.active
    rw [hid, hco]
    omega
  · intro d hd
    rw [hid] at hd
    rw [hother d (by omega)]
    exact h.fresh d hd
  · intro d
    by_cases hd : d = c
    · subst hd
      rw [hself]
      exact huser
    · rw [hother d hd, h.user d]
      exact hcur d hd

theorem unfinished_of_suspended {r : Routine} (h : r.frame.suspended = true) :
    r.unfinished = true := by
  unfold Routine.unfinished
  cases hf : r.frame <;> simp [hf, Frame.suspended] at h ⊢

/-- A record in the ready queue. -/
theorem seated_ready {r : Routine} {inQ : QueueRef → Nat} {inHeap : Nat}
    (hs : r.state = .ready) (hf : r.frame.suspended = true)
    (hq : ∀ p, inQ p = if p = .ready then 1 else 0) (hle : inHeap ≤ 1)
    (hmay : 0 < inHeap → r.frame.timed = true ∧ r.frame ≠ .sleep ∧ r.timedOut = false)
    (hc : r.condWaitQueue = none) (hi : r.ioWaiting = false) : Seated run r inQ inHeap := by
  constructor
  · intro q
    rw [hq]
    simp [Routine.home, hs, hf, eq_comm]
  · exact hle
  · intro hp
    obtain ⟨ht, hne, hto⟩ := hmay hp
    simp [Routine.mayTimer, ht, hs, hne, hto]
  · simp [Routine.mustTimer, hs]
  · exact fun _ => Or.inl hs
  · intro he
    simp [he, Frame.suspended] at hf
  · simp [hs]
  · rw [hc]
    unfold Routine.condPtr
    split <;> simp_all
  · simp [hi, Routine.ioFlag, hs]

/-- A record that is in no container: the running coroutine, or a released one. -/
theorem seated_out {r : Routine} {inQ : QueueRef → Nat} {inHeap : Nat}
    (hf : r.frame.suspended = false) (hq : ∀ p, inQ p = 0) (hh : inHeap = 0)
    (hrun : r.frame = .user → run → r.state = .running)
    (hgone : r.unfinished = false → r.state ≠ .running)
    (hc : r.condWaitQueue = none) (hi : r.ioWaiting = false) : Seated run r inQ inHeap := by
  constructor
  · intro q
    rw [hq]
    simp [Routine.home, hf]
  · omega
  · omega
  · intro hm
    cases hfr : r.frame <;> simp [Routine.mustTimer, hfr, Frame.timed, Frame.suspended] at hm hf
  · simp [hf]
  · exact hrun
  · exact hgone
  · rw [hc]
    cases hfr : r.frame <;> simp [Routine.condPtr, hfr, Frame.suspended] at hf ⊢
  · rw [hi]
    cases hfr : r.frame <;> simp [Routine.ioFlag, hfr, Frame.isIo, Frame.suspended] at hf ⊢

/-- A record waiting in frame `f`. -/
theorem seated_waiting {r : Routine} {inQ : QueueRef → Nat} {inHeap : Nat}
    (hs : r.state = .waiting) (hf : r.frame.suspended = true) (hb : r.frame.blocks = true)
    (hq : ∀ p, inQ p = if r.frame.waitQueue = some p then 1 else 0)
    (hh : inHeap = r.frame.timed.toNat) (ht : r.frame.timed = true → r.frame ≠ .sleep →
      r.timedOut = false)
    (hc : r.condWaitQueue = r.condPtr) (hi : r.ioWaiting = r.ioFlag) :
    Seated run r inQ inHeap := by
  constructor
  · intro q
    rw [hq]
    simp [Routine.home, hs, hf]
  · cases hti : r.frame.timed <;> simp [hti] at hh <;> omega
  · intro hp
    cases hti : r.frame.timed with
    | false =>
      simp [hti] at hh
      omega
    | true =>
      by_cases hsl : r.frame = .sleep
      · simp [Routine.mayTimer, hs, hsl, Frame.timed]
      · simp [Routine.mayTimer, hti, hs, ht hti hsl]
  · intro hm
    simp only [Routine.mustTimer, Bool.and_eq_true] at hm
    simp [hh, hm.2]
  · exact fun _ => Or.inr ⟨hs, hb⟩
  · intro he
    simp [he, Frame.suspended] at hf
  · simp [hs]
  · exact hc
  · exact hi

/-- The fields a seat depends on agree. -/
structure Routine.SameSeat (r r' : Routine) : Prop where
  state : r.state = r'.state
  frame : r.frame = r'.frame
  timedOut : r.timedOut = r'.timedOut
  cond : r.condWaitQueue = r'.condWaitQueue
  io : r.ioWaiting = r'.ioWaiting

theorem Routine.SameSeat.refl (r : Routine) : r.SameSeat r := ⟨rfl, rfl, rfl, rfl, rfl⟩

section SameSeat

variable {r r' : Routine} (h : r.SameSeat r')
include h

theorem Routine.SameSeat.ioSuspended : r.ioSuspended = r'.ioSuspended := by
  simp [Routine.ioSuspended, h.state, h.frame]

theorem Routine.SameSeat.unfinished : r.unfinished = r'.unfinished := by
  simp [Routine.unfinished, h.frame]

theorem Routine.SameSeat.seated {inQ : QueueRef → Nat} {inHeap : Nat}
    (hs : Seated run r' inQ inHeap) : Seated run r inQ inHeap := by
  have hhome : r.home = r'.home := by simp only [Routine.home, h.state, h.frame]
  constructor
  · rw [hhome]
    exact hs.queued
  · exact hs.timer_le
  · simpa only [Routine.mayTimer, h.state, h.frame, h.timedOut] using hs.timer_may
  · simpa only [Routine.mustTimer, h.state, h.frame] using hs.timer_must
  · simpa only [h.state, h.frame] using hs.state
  · simpa only [h.state, h.frame] using hs.user
  · simpa only [h.unfinished, h.state] using hs.gone
  · simpa only [Routine.condPtr, h.cond, h.state, h.frame] using hs.cond
  · simpa only [Routine.ioFlag, h.io, h.state, h.frame] using hs.io

end SameSeat

end Libco
