import Libco.Kernel
import Libco.PollTimeout
import Libco.CallNumbers
import Libco.OnePlace

/-!
# Completion packets

An asynchronous call whose deadline is processed first cancels its operation and
suspends a second time, until the completion packet is there: the kernel owns the wait
context, which lives on the stack of the coroutine, until then. `Watch` keeps a log of the
operations: submitted, past its deadline, its packet dequeued. `OpPhase` says where an
operation is between its submission and the return of its call, in terms of the record of
the coroutine and of the log.

The runs are those of the IOCP backend in which every operation is accepted and only a
cancelled one completes with an error.
-/

namespace Libco
open Lib

variable {run : Prop} {cur : Option Nat} {s s' t s₀ : St} {a : Act} {c : Nat}

/-! ## Wake-ups since the last dispatch -/

/-- How often `c` was put in the ready queue since it was last switched to. -/
def wakes (c : Nat) (h : List Event) : Nat :=
  h.foldl (fun n e => if e = .ready c then n + 1 else if e = .dispatch c then 0 else n) 0

theorem wakes_readied {es : List Event} (h : List Event) (hd : dispatchSeq es = []) :
    wakes c (h ++ es) = wakes c h + (readySeq es).count c := by
  unfold wakes
  rw [List.foldl_append]
  generalize h.foldl (fun n e => if e = .ready c then n + 1 else if e = .dispatch c then 0 else n)
    0 = n
  induction es generalizing n with
  | nil => rfl
  | cons e es ih =>
    cases e with
    | ready d =>
      have htail : dispatchSeq es = [] := hd
      rw [List.foldl_cons, ih htail]
      by_cases hdc : d = c
      · subst hdc
        simp [readySeq]
        omega
      · simp [readySeq, hdc]
    | dispatch d => simp [dispatchSeq] at hd
    | _ => exact ih hd n

theorem wakes_popped {es : List Event} {d : Nat} (h : List Event) (hr : readySeq es = [])
    (hd : dispatchSeq es = [d]) : wakes c (h ++ es) = if c = d then 0 else wakes c h := by
  have hmem : ∀ es : List Event, readySeq es = [] → ∀ n,
      es.foldl (fun n e => if e = .ready c then n + 1 else if e = .dispatch c then 0 else n) n =
        if c ∈ dispatchSeq es then 0 else n := by
    intro es
    induction es with
    | nil => exact fun _ n => by simp [dispatchSeq]
    | cons e es ih =>
      intro hr n
      cases e with
      | ready d => simp [readySeq] at hr
      | dispatch d =>
        rw [List.foldl_cons, ih hr]
        by_cases hdc : c = d
        · subst hdc
          simp [dispatchSeq]
        · simp [dispatchSeq, hdc, Ne.symm hdc]
      | _ => exact ih hr n
  unfold wakes
  rw [List.foldl_append, hmem es hr, hd]
  simp

/-- A coroutine in the ready queue was put there once since it last ran, the others not at
all. -/
def Woken (s : St) : Prop := ∀ c, wakes c s.trace = (s.queues .ready).count c

theorem Readied.woken (hr : Readied s s') (h : Woken s) : Woken s' := by
  obtain ⟨es, htr, hd, hq⟩ := hr
  intro c
  rw [htr, wakes_readied _ hd, hq, List.count_append, h c]

theorem Popped.woken (hv : Popped s s') (hn : (s.queues .ready).Nodup) (h : Woken s) :
    Woken s' := by
  obtain ⟨d, rest, es, hq, htr, hr, hd, hq'⟩ := hv
  intro c
  rw [hq, List.nodup_cons] at hn
  rw [htr, wakes_popped _ hr hd, hq', h c, hq]
  by_cases hdc : c = d
  · subst hdc
    simp [List.count_eq_zero.mpr hn.1]
  · simp [hdc, Ne.symm hdc]

theorem Woken.step (h : Woken s) (hp : Placed run s) (hl : leaks s a = false)
    (hs : step s a = some s') : Woken s' := by
  refine step_invariant hp hl hs h (fun os p p' hm hi hw => ?_) fun t k r _ hw _ => ?_
  · rcases hm.ready with hr | ⟨-, hv⟩
    · exact hr.woken hw
    · exact hv.woken (hi.nodup_queue .ready) hw
  · exact (readied_ret t k r).woken hw

/-! ## The log -/

/-- What happens to an operation, named by its wait context. -/
inductive IoEvent where
  | submit (q : Nat × Nat) (op : IoCall)
  | deadline (q : Nat × Nat)
  | dequeue (p : Packet)
  deriving DecidableEq

structure Watch where
  st : St
  log : List IoEvent

/-- The operations a step submits, whose deadlines it processes and whose packets it
dequeues. The timer phase makes a coroutine ready when it processes its deadline. -/
def observe (s s' : St) : Act → List IoEvent
  | .call (.ioAsync x) =>
    (s'.iocp.inFlight.drop s.iocp.inFlight.length).map (.submit · x.opType)
  | .timers _ =>
    (readySeq (s'.trace.drop s.trace.length)).filterMap fun c =>
      match (s.co c).frame with
      | .waitAsync _ => some (.deadline (c, (s.co c).call))
      | _ => none
  | .idle (.packets ps) => if polls s then ps.map .dequeue else []
  | _ => []

def Watch.step (w : Watch) (a : Act) : Option Watch :=
  (Libco.step w.st a).map fun s => ⟨s, w.log ++ observe w.st s a⟩

def Frame.isDrain : Frame → Bool
  | .drainAsync _ => true
  | _ => false

/-- Associations and submissions are accepted, and only an operation that was cancelled
completes with an error. -/
def accepted (s : St) : Act → Bool
  | .call (.io _) => false
  | .call (.ioAsync x) => !refusedAsync s x
  | .idle (.packets ps) => ps.all fun p => !p.failed || (s.co p.ptr.1).frame.isDrain
  | _ => true

/-- The packets of operation `q`. -/
def packetsOf (q : Nat × Nat) (log : List IoEvent) : List Packet :=
  log.filterMap fun
    | .dequeue p => if p.ptr = q then some p else none
    | _ => none

/-- The deadline of `q` was processed before its packet was dequeued. -/
def late (q : Nat × Nat) : List IoEvent → Bool
  | [] => false
  | .deadline r :: l => decide (r = q) || late q l
  | .dequeue p :: l => decide (p.ptr ≠ q) && late q l
  | .submit _ _ :: l => late q l

theorem packetsOf_append (q : Nat × Nat) (l es : List IoEvent) :
    packetsOf q (l ++ es) = packetsOf q l ++ packetsOf q es := by
  simp [packetsOf]

theorem late_append (q : Nat × Nat) (l es : List IoEvent) :
    late q (l ++ es) = (late q l || ((packetsOf q l).isEmpty && late q es)) := by
  induction l with
  | nil => simp [late, packetsOf]
  | cons e l ih =>
    cases e with
    | submit r op => simpa [late, packetsOf] using ih
    | deadline r =>
      by_cases hr : r = q
      · simp [late, hr]
      · simpa [late, packetsOf, hr] using ih
    | dequeue p =>
      by_cases hp : p.ptr = q
      · simp [late, packetsOf, hp]
      · simpa [late, packetsOf, hp] using ih

/-- Events that are not about packets or deadlines of `q`. -/
def IoEvent.off (q : Nat × Nat) : IoEvent → Bool
  | .submit _ _ => true
  | .deadline r => r ≠ q
  | .dequeue p => p.ptr ≠ q

theorem off_append {q : Nat × Nat} (l : List IoEvent) {es : List IoEvent}
    (h : ∀ e ∈ es, e.off q = true) :
    packetsOf q (l ++ es) = packetsOf q l ∧ late q (l ++ es) = late q l := by
  have hes : packetsOf q es = [] ∧ late q es = false := by
    induction es with
    | nil => exact ⟨rfl, rfl⟩
    | cons e es ih =>
      obtain ⟨hp, hl⟩ := ih fun e he => h e (by simp [he])
      have he := h e (by simp)
      cases e with
      | submit r op => exact ⟨hp, hl⟩
      | deadline r =>
        have hr : r ≠ q := by simpa [IoEvent.off] using he
        exact ⟨hp, by simp [late, hr, hl]⟩
      | dequeue p =>
        have hr : p.ptr ≠ q := by simpa [IoEvent.off] using he
        exact ⟨by simpa [packetsOf, hr] using hp, by simp [late, hl]⟩
  rw [packetsOf_append, late_append, hes.1, hes.2]
  simp

/-! ## Phases of an operation -/

/-- The result of a call whose packet is `p`: a timeout if the deadline came first. -/
def Answers (op : IoCall) (p : Packet) (late : Bool) (r : Ret) : Prop :=
  if late then r = asyncFailed .timeout
  else match op with
    | .read | .write => r = .sys p.bytes none
    | .accept | .connect => ∃ after : SysRes, r = after.ret

/-- Where operation `q` is between its submission and the return of its call. -/
inductive OpPhase (w : Watch) (q : Nat × Nat) (op : IoCall) : Prop
  | pending {x : AsyncCtx} (hf : (w.st.co q.1).frame = .waitAsync x)
      (hx : x.opType = op ∧ x.revents.error = false) (hc : (w.st.co q.1).call = q.2)
      (hs : (w.st.co q.1).state = .waiting) (ht : (w.st.co q.1).timedOut = false)
      (hp : packetsOf q w.log = []) (hl : late q w.log = false)
  | completed {x : AsyncCtx} {p : Packet} (hf : (w.st.co q.1).frame = .waitAsync x)
      (hx : x.opType = op ∧ x.revents.error = false) (hc : (w.st.co q.1).call = q.2)
      (hs : (w.st.co q.1).state = .ready) (ht : (w.st.co q.1).timedOut = false)
      (hb : x.bytesTransferred = p.bytes) (hp : packetsOf q w.log = [p])
      (hl : late q w.log = false) (hn : q ∉ w.st.iocp.inFlight)
  | expired {x : AsyncCtx} (hf : (w.st.co q.1).frame = .waitAsync x)
      (hx : x.opType = op ∧ x.revents.error = false) (hc : (w.st.co q.1).call = q.2)
      (hs : (w.st.co q.1).state = .ready) (ht : (w.st.co q.1).timedOut = true)
      (hp : packetsOf q w.log = []) (hl : late q w.log = true)
  | draining {x : AsyncCtx} (hf : (w.st.co q.1).frame = .drainAsync x)
      (hc : (w.st.co q.1).call = q.2) (hs : (w.st.co q.1).state = .waiting)
      (hp : packetsOf q w.log = []) (hl : late q w.log = true)
  | drained {x : AsyncCtx} {p : Packet} (hf : (w.st.co q.1).frame = .drainAsync x)
      (hc : (w.st.co q.1).call = q.2) (hs : (w.st.co q.1).state = .ready)
      (hp : packetsOf q w.log = [p]) (hl : late q w.log = true) (hn : q ∉ w.st.iocp.inFlight)
  | returned {p : Packet} {r : Ret} (hr : .ret q.2 r ∈ w.st.trace)
      (hp : packetsOf q w.log = [p]) (hn : q ∉ w.st.iocp.inFlight)
      (ha : ∀ r, .ret q.2 r ∈ w.st.trace → Answers op p (late q w.log) r)

/-- Suspended in the call of `q`. -/
def InWait (s : St) (q : Nat × Nat) : Prop :=
  (s.co q.1).frame.isIo = true ∧ (s.co q.1).call = q.2

/-- The coroutine is in the wait, or the call has returned. -/
theorem OpPhase.inWait {w : Watch} {q : Nat × Nat} {op : IoCall} (h : OpPhase w q op) :
    InWait w.st q ∨ ∃ r, .ret q.2 r ∈ w.st.trace := by
  cases h with
  | pending hf _ hc | completed hf _ hc | expired hf _ hc =>
    exact .inl ⟨by rw [hf]; rfl, hc⟩
  | draining hf hc | drained hf hc => exact .inl ⟨by rw [hf]; rfl, hc⟩
  | returned hr => exact .inr ⟨_, hr⟩

theorem inCall_of_isIo {r : Routine} (h : r.frame.isIo = true) : r.inCall = true := by
  cases hf : r.frame <;> simp [hf, Frame.isIo] at h <;>
    simp [Routine.inCall, hf, Frame.suspended]

/-- Nothing about the operation happens. -/
theorem OpPhase.keep {w w' : Watch} {q : Nat × Nat} {op : IoCall} (h : OpPhase w q op)
    (hrec : InWait w.st q → IoStays false (w.st.co q.1) (w'.st.co q.1))
    (hlog : packetsOf q w'.log = packetsOf q w.log ∧ late q w'.log = late q w.log)
    (hfl : q ∈ w'.st.iocp.inFlight → q ∈ w.st.iocp.inFlight)
    (hret : ∀ r, .ret q.2 r ∈ w'.st.trace ↔ .ret q.2 r ∈ w.st.trace) : OpPhase w' q op := by
  have hsame : ∀ {f : Frame}, (w.st.co q.1).frame = f → f.isIo = true →
      (w.st.co q.1).call = q.2 → (w'.st.co q.1).frame = f ∧
        (w'.st.co q.1).state = (w.st.co q.1).state ∧
        (w'.st.co q.1).timedOut = (w.st.co q.1).timedOut ∧ (w'.st.co q.1).call = q.2 := by
    intro f hf hio hc
    have hio' : (w.st.co q.1).frame.isIo = true := by
      rw [hf]
      exact hio
    rcases hrec ⟨hio', hc⟩ hio' with ⟨hf', hs', ht', hc'⟩ | ⟨hfalse, -⟩
    · exact ⟨hf'.trans hf, hs', ht', hc'.trans hc⟩
    · cases hfalse
  cases h with
  | pending hf hx hc hs ht hp hl =>
    obtain ⟨hf', hs', ht', hc'⟩ := hsame hf rfl hc
    exact .pending hf' hx hc' (hs'.trans hs) (ht'.trans ht) (hlog.1.trans hp) (hlog.2.trans hl)
  | completed hf hx hc hs ht hb hp hl hn =>
    obtain ⟨hf', hs', ht', hc'⟩ := hsame hf rfl hc
    exact .completed hf' hx hc' (hs'.trans hs) (ht'.trans ht) hb (hlog.1.trans hp)
      (hlog.2.trans hl) fun hm => hn (hfl hm)
  | expired hf hx hc hs ht hp hl =>
    obtain ⟨hf', hs', ht', hc'⟩ := hsame hf rfl hc
    exact .expired hf' hx hc' (hs'.trans hs) (ht'.trans ht) (hlog.1.trans hp) (hlog.2.trans hl)
  | draining hf hc hs hp hl =>
    obtain ⟨hf', hs', -, hc'⟩ := hsame hf rfl hc
    exact .draining hf' hc' (hs'.trans hs) (hlog.1.trans hp) (hlog.2.trans hl)
  | drained hf hc hs hp hl hn =>
    obtain ⟨hf', hs', -, hc'⟩ := hsame hf rfl hc
    exact .drained hf' hc' (hs'.trans hs) (hlog.1.trans hp) (hlog.2.trans hl)
      fun hm => hn (hfl hm)
  | returned hr hp hn ha =>
    refine .returned ((hret _).mpr hr) (hlog.1.trans hp) (fun hm => hn (hfl hm)) fun r hr' => ?_
    rw [hlog.2]
    exact ha r ((hret r).mp hr')

/-! ## The invariant -/

structure Watched (w : Watch) : Prop where
  placed : Placed False w.st
  calls : CallInv w.st
  kernel : Kernel w.st
  registered : Registered w.st
  noEpoll : ∀ fd, w.st.epoll fd = none
  idle : ∀ n, w.st.ctl = .idle n → w.st.queues .ready = []
  woken : Woken w.st
  inFlight : ∀ q ∈ w.st.iocp.inFlight, ∃ op, .submit q op ∈ w.log
  waiting : ∀ c, (w.st.co c).frame.isIo = true → ∃ op, .submit (c, (w.st.co c).call) op ∈ w.log
  called : ∀ q op, .submit q op ∈ w.log → ∃ o, .call q.2 (some q.1) o ∈ w.st.trace
  logged : ∀ q, (∀ op, .submit q op ∉ w.log) → packetsOf q w.log = [] ∧ late q w.log = false
  phase : ∀ q op, .submit q op ∈ w.log → OpPhase w q op

variable {w w' : Watch} {q : Nat × Nat} {op : IoCall}

/-- A coroutine in an I/O wait is in the wait of its operation. -/
theorem Watched.phase_of_io (h : Watched w) (hio : (w.st.co c).frame.isIo = true) :
    ∃ op, OpPhase w (c, (w.st.co c).call) op ∧ ∀ r, .ret (w.st.co c).call r ∉ w.st.trace := by
  obtain ⟨op, hop⟩ := h.waiting c hio
  exact ⟨op, h.phase _ op hop, h.calls.unreturned c (inCall_of_isIo hio)⟩

/-- The runs do not leak. -/
theorem Watched.leakless (h : Watched w) (ha : accepted w.st a = true) : leaks w.st a = false := by
  cases a with
  | schedule e =>
    simp only [leaks]
    cases hq : w.st.queues .ready with
    | nil => rfl
    | cons c rest =>
      have herr : (w.st.co c).errorExit = false := by
        unfold Routine.errorExit
        split
        · rename_i x hx
          have hown := h.registered.own c x hx
          rw [h.noEpoll] at hown
          cases hown
        · rename_i x hx
          obtain ⟨op, hph, hun⟩ := h.phase_of_io (c := c) (by rw [hx]; rfl)
          cases hph with
          | pending hf hy | completed hf hy | expired hf hy =>
            rw [hx, Frame.waitAsync.injEq] at hf
            rw [hf, hy.2, Bool.and_false]
          | draining hf | drained hf =>
            rw [hx] at hf
            cases hf
          | returned hr => exact absurd hr (hun _)
        · rfl
      simp [herr]
  | call op =>
    cases op with
    | io x => cases ha
    | ioAsync x =>
      have href : refusedAsync w.st x = false := by simpa [accepted] using ha
      simp [leaks, href]
    | _ => rfl
  | _ => rfl

/-- The history grows, and what it adds to the returns. -/
theorem step_returned (hc : CallInv s) (hp : Placed run s) (hl : leaks s a = false)
    (hs : step s a = some s') :
    (∀ e ∈ s.trace, e ∈ s'.trace) ∧
      ∀ k r, .ret k r ∈ s'.trace → .ret k r ∈ s.trace ∨ ∃ t, Returns s a t k r := by
  refine hc.step_rule (K := fun _ => True)
    (J := fun s' => (∀ e ∈ s.trace, e ∈ s'.trace) ∧
      ∀ k r, .ret k r ∈ s'.trace → .ret k r ∈ s.trace ∨ ∃ t, Returns s a t k r)
    hp hl hs trivial (fun _ _ _ _ _ _ _ _ => trivial) ?_ ?_
  · intro t _ hext _
    exact ⟨fun e he => hext.mem he, fun k r hr => .inl (hext.ret hr)⟩
  · intro t k r _ _ hext _ hr _
    refine ⟨fun e he => List.mem_append_left _ (hext.mem he), fun k' r' hr' => ?_⟩
    simp only [St.emit, List.mem_append, List.mem_singleton, Event.ret.injEq] at hr'
    rcases hr' with hr' | ⟨rfl, rfl⟩
    · exact .inl (hext.ret hr')
    · exact .inr ⟨t, hr⟩

/-! ## What the other backend leaves alone -/

theorem step_noEpoll (h : ∀ fd, s.epoll fd = none) (ha : accepted s a = true)
    (hs : step s a = some s') : ∀ fd, s'.epoll fd = none := by
  intro fd
  cases a with
  | idle p =>
    obtain ⟨n, t, -, -, ht, hs'⟩ := step_poll hs
    have hpoll : t.epoll = s.epoll := by
      rw [ht]
      split
      · exact p.apply_epoll _
      · rfl
    rcases hs' with rfl | rfl <;> exact (congrFun hpoll fd).trans (h fd)
  | schedule e =>
    obtain ⟨-, rfl⟩ := step_schedule hs
    cases hq : s.queues .ready with
    | nil =>
      rw [schedule_nil hq]
      exact h fd
    | cons c rest =>
      rcases (schedule_epoll (e := e) hq).2 with ⟨-, he⟩ | ⟨x, -, he⟩
      · rw [he]
        exact h fd
      · rw [he]
        unfold coIomuxDel
        split
        · exact h fd
        · by_cases hfd : fd = x.fd
          · simp [hfd]
          · simp [hfd, h fd]
  | call op =>
    cases op with
    | io x => cases ha
    | ioAsync x =>
      obtain ⟨-, rfl⟩ := step_call hs
      have hends := coIoAsync_kernel (beginCall s (.ioAsync x)) x
      rw [(beginCall_kernel s _).2.2] at hends
      simp only [runOp]
      cases ho : coIoAsync (beginCall s (.ioAsync x)) x with
      | ret r t | swap t =>
        rw [ho] at hends
        exact (congrFun hends.1 fd).trans (h fd)
      | abort => exact h fd
    | _ =>
      rw [(step_kernel hs rfl rfl rfl).1]
      exact h fd
  | _ =>
    rw [(step_kernel hs rfl rfl rfl).1]
    exact h fd

theorem accepted_unshared (ha : accepted s a = true) : unshared s a = true := by
  cases a with
  | call op =>
    cases op with
    | io x => cases ha
    | _ => rfl
  | _ => rfl

/-! ## Operations a step does not concern -/

theorem Watched.lt_calls (h : Watched w) (hq : .submit q op ∈ w.log) : q.2 < w.st.calls := by
  obtain ⟨o, ho⟩ := h.called q op hq
  exact h.calls.call_lt _ _ _ ho

/-- Whoever is inside the call of an operation is the coroutine that waits for it. -/
theorem Watched.owner (h : Watched w) (hq : .submit q op ∈ w.log)
    (hin : (w.st.co c).inCall = true) (hc : (w.st.co c).call = q.2) :
    c = q.1 ∧ InWait w.st q := by
  rcases (h.phase q op hq).inWait with hw | ⟨r, hr⟩
  · obtain ⟨o, ho, -⟩ := h.calls.inside c hin
    obtain ⟨o', ho'⟩ := h.called q op hq
    rw [hc] at ho
    have := (h.calls.unique _ _ _ _ _ ho ho').1
    exact ⟨Option.some.inj this, hw⟩
  · rw [← hc] at hr
    exact absurd hr (h.calls.unreturned c hin r)

/-- The call of `q` returns only when its coroutine is switched to. -/
theorem Watched.ret_iff (h : Watched w) (hl : leaks w.st a = false)
    (hs : step w.st a = some s') (hq : .submit q op ∈ w.log)
    (hhead : a.isSchedule = true → InWait w.st q → ∀ rest, w.st.queues .ready ≠ q.1 :: rest)
    (r : Ret) : .ret q.2 r ∈ s'.trace ↔ .ret q.2 r ∈ w.st.trace := by
  obtain ⟨hmem, hret⟩ := step_returned h.calls h.placed hl hs
  refine ⟨fun hr => ?_, hmem _⟩
  rcases hret _ r hr with hr | ⟨t, hret⟩
  · exact hr
  have hk := h.lt_calls hq
  generalize hn : q.2 = k at hret hk
  cases hret with
  | call hop hm hcur => exact absurd hk (Nat.lt_irrefl _)
  | @resumed d rest e r t hready hf hres hcur =>
    obtain ⟨hst, hsus, -⟩ := (h.placed.current hs).ready_fields hready
    obtain ⟨hd, hw⟩ := h.owner hq (c := d) (by simp [Routine.inCall, hsus, hf]) hn.symm
    exact absurd (hd ▸ hready) (hhead rfl hw rest)

/-- A step that is not about the operation. -/
theorem Watched.still (h : Watched w) (hl : leaks w.st a = false) (hs : step w.st a = some s')
    (hq : .submit q op ∈ w.log) (hidle : a.isIdle = false) (htim : a.isTimers = false)
    (hhead : a.isSchedule = true → InWait w.st q → ∀ rest, w.st.queues .ready ≠ q.1 :: rest)
    (hlog : ∀ e ∈ observe w.st s' a, e.off q = true)
    (hfl : q ∈ s'.iocp.inFlight → q ∈ w.st.iocp.inFlight) :
    OpPhase ⟨s', w.log ++ observe w.st s' a⟩ q op := by
  refine (h.phase q op hq).keep (fun hw => ?_) (off_append w.log hlog) hfl
    (h.ret_iff hl hs hq hhead)
  have hstay := step_ioStays h.placed hl hs hidle q.1 fun ha => hhead ha hw
  rw [htim] at hstay
  exact hstay

/-- Who is in an I/O wait was in it, or has just made the call. -/
theorem Watched.io_before (h : Watched w) (ha : accepted w.st a = true)
    (hs : step w.st a = some s') (hio : (s'.co c).frame.isIo = true) :
    ((w.st.co c).frame.isIo = true ∧ (s'.co c).call = (w.st.co c).call) ∨
      ∃ x, a = .call (.ioAsync x) ∧ w.st.coCurrent = some c := by
  have hfits : ∀ {f : Frame} {o : OpName}, f.fits o = true → (f.isIo = true ↔ ∃ k, o = .io k) := by
    intro f o hf
    cases f <;> cases o <;> simp [Frame.fits, Frame.isIo] at hf ⊢
  rcases step_inCall h.placed (h.leakless ha) hs (inCall_of_isIo hio) with
    ⟨hin, hc, hstay⟩ | ⟨o, rfl, hcur, hf⟩
  · simp only [Routine.inCall, Bool.and_eq_true, bne_iff_ne, ne_eq] at hin
    obtain ⟨o, ho⟩ := Frame.exists_fits hin.1 hin.2
    exact .inl ⟨(hfits ho).mpr ((hfits (hstay o ho)).mp hio), hc⟩
  · obtain ⟨k, hk⟩ := (hfits hf).mp hio
    cases o with
    | ioAsync x => exact .inr ⟨x, rfl, hcur⟩
    | io x => cases ha
    | _ => cases hk

/-- **The step rule.** What is left to show of a step: what it does to the operations. -/
theorem Watched.next (h : Watched w) (ha : accepted w.st a = true) (hs : step w.st a = some s')
    (hfl : ∀ q ∈ s'.iocp.inFlight,
      q ∈ w.st.iocp.inFlight ∨ ∃ op, .submit q op ∈ observe w.st s' a)
    (hnew : ∀ q op, .submit q op ∈ observe w.st s' a →
      InWait s' q ∧ OpPhase ⟨s', w.log ++ observe w.st s' a⟩ q op)
    (hwait : ∀ x c, a = .call (.ioAsync x) → w.st.coCurrent = some c →
      (s'.co c).frame.isIo = true → ∃ op, .submit (c, (s'.co c).call) op ∈ observe w.st s' a)
    (hoff : ∀ q, (∀ op, .submit q op ∉ w.log) → ∀ e ∈ observe w.st s' a, e.off q = true)
    (hphase : ∀ q op, .submit q op ∈ w.log → OpPhase ⟨s', w.log ++ observe w.st s' a⟩ q op) :
    Watched ⟨s', w.log ++ observe w.st s' a⟩ := by
  have hl := h.leakless ha
  have hplaced := h.placed.step (fun hf => hf.elim) hl hs
  have hcalls := h.calls.step h.placed hl hs
  refine ⟨hplaced, hcalls, h.kernel.step h.placed hl hs,
    h.registered.step (accepted_unshared ha) hs, step_noEpoll h.noEpoll ha hs, fun n hn => ?_,
    h.woken.step h.placed hl hs, fun q hq => ?_, fun c hio => ?_, fun q op hq => ?_,
    fun q hq => ?_, fun q op hq => ?_⟩
  · exact (step_idle h.placed hs hn).2.2
  · rcases hfl q hq with hq | ⟨op, hop⟩
    · obtain ⟨op, hop⟩ := h.inFlight q hq
      exact ⟨op, List.mem_append_left _ hop⟩
    · exact ⟨op, List.mem_append_right _ hop⟩
  · rcases h.io_before ha hs hio with ⟨hio', hc⟩ | ⟨x, hx, hcur⟩
    · obtain ⟨op, hop⟩ := h.waiting c hio'
      exact ⟨op, List.mem_append_left _ (by rw [hc]; exact hop)⟩
    · obtain ⟨op, hop⟩ := hwait x c hx hcur hio
      exact ⟨op, List.mem_append_right _ hop⟩
  · rcases List.mem_append.mp hq with hq | hq
    · obtain ⟨o, ho⟩ := h.called q op hq
      exact ⟨o, (step_returned h.calls h.placed hl hs).1 _ ho⟩
    · obtain ⟨⟨hio, hc⟩, -⟩ := hnew q op hq
      obtain ⟨o, ho, -⟩ := hcalls.inside q.1 (inCall_of_isIo hio)
      exact ⟨o, hc ▸ ho⟩
  · have hold : ∀ op, .submit q op ∉ w.log := fun op hop => hq op (List.mem_append_left _ hop)
    obtain ⟨hp, hlate⟩ := h.logged q hold
    obtain ⟨hp', hlate'⟩ := off_append w.log (hoff q hold)
    exact ⟨hp'.trans hp, hlate'.trans hlate⟩
  · rcases List.mem_append.mp hq with hq | hq
    · exact hphase q op hq
    · exact (hnew q op hq).2

/-- A step outside polls and timer phases that submits nothing and switches to nobody. -/
theorem Watched.step_plain (h : Watched w) (ha : accepted w.st a = true)
    (hs : step w.st a = some s') (hio : a.isIo = false) (hidle : a.isIdle = false)
    (htim : a.isTimers = false) (hsch : a.isSchedule = false) :
    Watched ⟨s', w.log ++ observe w.st s' a⟩ := by
  have hobs : observe w.st s' a = [] := by
    cases a with
    | call op =>
      cases op with
      | ioAsync x => cases hio
      | _ => rfl
    | timers n => cases htim
    | idle p => cases hidle
    | _ => rfl
  have hiocp := (step_kernel hs hio hidle hsch).2
  refine h.next ha hs (fun q hq => .inl (by rw [← hiocp]; exact hq)) ?_ ?_ ?_ fun q op hq => ?_
  · simp [hobs]
  · rintro x c rfl
    cases hio
  · simp [hobs]
  · refine h.still (h.leakless ha) hs hq hidle htim (fun hc => ?_) (by simp [hobs]) fun hm => ?_
    · rw [hsch] at hc
      cases hc
    · rw [← hiocp]
      exact hm

/-! ## Submissions -/

theorem armTimer_current {timeoutMs : Int} {now : Nat} {ok : Bool} {o : Option Nat}
    (h : armTimer s c timeoutMs now ok = (o, t)) :
    (t.co c).call = (s.co c).call ∧ (t.co c).timedOut = false := by
  unfold armTimer at h
  dsimp only at h
  split at h
  · split at h <;> cases h <;> simp [St.modify]
  · cases h
    simp [St.modify]

/-- A call starts an operation exactly when it suspends. -/
theorem coIoAsync_submits (s : St) (x : AsyncArgs) :
    (∃ r t, coIoAsync s x = .ret r t ∧ t.iocp.inFlight = s.iocp.inFlight) ∨
      ∃ c t, s.coCurrent = some c ∧ coIoAsync s x = .swap t ∧
        t.iocp.inFlight = s.iocp.inFlight ++ [(c, (s.co c).call)] ∧
        (t.co c).frame = .waitAsync ⟨x.opType, x.fd, noEvents, x.timeoutMs, 0⟩ ∧
        (t.co c).call = (s.co c).call ∧ (t.co c).state = .waiting ∧
        (t.co c).timedOut = false := by
  unfold coIoAsync
  split
  · exact .inl ⟨_, _, rfl, rfl⟩
  split
  · exact .inl ⟨_, _, rfl, rfl⟩
  unfold coWaitIoAsync
  cases hc : s.coCurrent with
  | none =>
    dsimp only
    split <;> exact .inl ⟨_, _, rfl, rfl⟩
  | some c =>
    dsimp only
    cases harm : armTimer s c x.timeoutMs x.now x.reallocOk with
    | mk d t =>
      have hq := armTimer_quiet harm
      obtain ⟨hcall, hto⟩ := armTimer_current harm
      cases d with
      | none => exact .inl ⟨_, _, rfl, by rw [hq.iocp]⟩
      | some d =>
        have hassoc : ∀ e u, coIomuxAssociate t x.fd x.portOk = (e, u) →
            u.co = t.co ∧ u.iocp.inFlight = s.iocp.inFlight := by
          intro e u hu
          rw [← hq.iocp]
          unfold coIomuxAssociate at hu
          split at hu
          · cases hu
            exact ⟨rfl, rfl⟩
          split at hu
          · split at hu <;> cases hu <;> exact ⟨rfl, rfl⟩
          · cases hu
            exact ⟨rfl, rfl⟩
        dsimp only
        split
        · rename_i u hu
          obtain ⟨hco, hf⟩ := hassoc _ _ hu
          split
          · refine .inr ⟨c, _, rfl, rfl, ?_, ?_, ?_, ?_, ?_⟩ <;> simp [St.modify, hco, hf, hcall, hto]
          split <;> exact .inl ⟨_, _, rfl, hf⟩
        · rename_i e u _ hu
          exact .inl ⟨_, _, rfl, (hassoc _ _ hu).2⟩

/-- The call either returns to its caller or leaves it suspended with a new operation. -/
theorem step_submits {x : AsyncArgs} (hs : step s (.call (.ioAsync x)) = some s') :
    (s'.iocp.inFlight = s.iocp.inFlight ∧ s'.coCurrent = s.coCurrent) ∨
      ∃ c, s.coCurrent = some c ∧ s'.iocp.inFlight = s.iocp.inFlight ++ [(c, s.calls)] ∧
        (s'.co c).frame = .waitAsync ⟨x.opType, x.fd, noEvents, x.timeoutMs, 0⟩ ∧
        (s'.co c).call = s.calls ∧ (s'.co c).state = .waiting ∧ (s'.co c).timedOut = false := by
  obtain ⟨-, hs⟩ := step_call hs
  have hbegin : (beginCall s (.ioAsync x)).iocp.inFlight = s.iocp.inFlight := by
    rw [(beginCall_kernel s _).2.1]
  rcases coIoAsync_submits (beginCall s (.ioAsync x)) x with
    ⟨r, t, ho, hfl⟩ | ⟨c, t, hcur, ho, hfl, hf, hc, hst, hto⟩
  · have hend := runOp_ctl (beginCall s (.ioAsync x)) s.calls (.ioAsync x)
    simp only [runOp, ho, settle] at hs hend
    have hctl : s'.ctl = (beginCall s (.ioAsync x)).ctl := by
      rw [hs]
      exact hend
    refine .inl ⟨?_, ?_⟩
    · rw [hs, ← hbegin, ← hfl]
      rfl
    · rw [← beginCall_coCurrent s (.ioAsync x)]
      simp only [St.coCurrent, hctl]
  · rw [beginCall_coCurrent] at hcur
    have hcall : ((beginCall s (.ioAsync x)).co c).call = s.calls := by
      simp [beginCall, hcur, St.modify]
    rw [hcall] at hfl hc
    simp only [runOp, ho, settle] at hs
    have hrec : (s'.co c) = t.co c := by rw [hs]
    refine .inr ⟨c, hcur, ?_, ?_⟩
    · rw [hs, ← hbegin, ← hfl]
    · rw [hrec]
      exact ⟨hf, hc, hst, hto⟩

theorem observe_submit_off (x : AsyncArgs) (q : Nat × Nat) :
    ∀ e ∈ observe s s' (.call (.ioAsync x)), e.off q = true := by
  intro e he
  simp only [observe, List.mem_map] at he
  obtain ⟨_, -, rfl⟩ := he
  rfl

/-- A call that started no operation: its caller is still in its own code. -/
theorem Watched.step_refused {x : AsyncArgs} (h : Watched w)
    (ha : accepted w.st (.call (.ioAsync x)) = true)
    (hs : step w.st (.call (.ioAsync x)) = some s')
    (hsame : s'.iocp.inFlight = w.st.iocp.inFlight) (hcur : s'.coCurrent = w.st.coCurrent) :
    Watched ⟨s', w.log ++ observe w.st s' (.call (.ioAsync x))⟩ := by
  have hl := h.leakless ha
  have hobs : observe w.st s' (.call (.ioAsync x)) = [] := by simp [observe, hsame]
  refine h.next ha hs (fun q hq => .inl (hsame ▸ hq)) (by simp [hobs]) ?_
    (fun q _ => observe_submit_off x q) fun q op hq =>
      h.still hl hs hq rfl rfl (fun hc => by cases hc) (observe_submit_off x q)
        fun hm => hsame ▸ hm
  intro y c _ hc hio
  exfalso
  obtain ⟨cur', hi', hcc⟩ := h.placed.step (fun hf => hf.elim) hl hs
  rw [← hcur] at hc
  have hne : s'.ctl ≠ .aborted := by
    rw [coCurrent_ctl hc]
    simp
  have hu := (hi'.user c).mpr ((hcc hne).symm.trans hc)
  rw [hu] at hio
  cases hio

theorem Watched.step_started {x : AsyncArgs} (h : Watched w)
    (ha : accepted w.st (.call (.ioAsync x)) = true)
    (hs : step w.st (.call (.ioAsync x)) = some s') (hcur : w.st.coCurrent = some c)
    (hgrow : s'.iocp.inFlight = w.st.iocp.inFlight ++ [(c, w.st.calls)])
    (hf : (s'.co c).frame = .waitAsync ⟨x.opType, x.fd, noEvents, x.timeoutMs, 0⟩)
    (hc : (s'.co c).call = w.st.calls) (hst : (s'.co c).state = .waiting)
    (hto : (s'.co c).timedOut = false) :
    Watched ⟨s', w.log ++ observe w.st s' (.call (.ioAsync x))⟩ := by
  have hobs : observe w.st s' (.call (.ioAsync x)) = [.submit (c, w.st.calls) x.opType] := by
    simp [observe, hgrow]
  have hnot : ∀ op, .submit (c, w.st.calls) op ∉ w.log := fun op hop =>
    absurd (h.lt_calls hop) (Nat.lt_irrefl _)
  refine h.next ha hs (fun q hq => ?_) (fun q op hq => ?_) (fun y d _ hd _ => ?_)
    (fun q _ => observe_submit_off x q) fun q op hq =>
      h.still (h.leakless ha) hs hq rfl rfl (fun hc => by cases hc) (observe_submit_off x q)
        fun hm => ?_
  · rw [hgrow] at hq
    rcases List.mem_append.mp hq with hq | hq
    · exact .inl hq
    · rw [List.mem_singleton.mp hq, hobs]
      exact .inr ⟨_, List.mem_singleton.mpr rfl⟩
  · rw [hobs, List.mem_singleton] at hq
    obtain ⟨rfl, rfl⟩ := IoEvent.submit.inj hq
    obtain ⟨hp, hlate⟩ := h.logged _ hnot
    obtain ⟨hp', hlate'⟩ := off_append w.log (observe_submit_off x (c, w.st.calls))
    exact ⟨⟨by rw [hf]; rfl, hc⟩, .pending hf ⟨rfl, rfl⟩ hc hst hto (hp'.trans hp)
      (hlate'.trans hlate)⟩
  · rw [hcur, Option.some.injEq] at hd
    subst hd
    rw [hc, hobs]
    exact ⟨_, List.mem_singleton.mpr rfl⟩
  · rw [hgrow] at hm
    rcases List.mem_append.mp hm with hm | hm
    · exact hm
    · rw [List.mem_singleton.mp hm] at hq
      exact absurd hq (hnot op)

theorem Watched.step_submit {x : AsyncArgs} (h : Watched w)
    (ha : accepted w.st (.call (.ioAsync x)) = true)
    (hs : step w.st (.call (.ioAsync x)) = some s') :
    Watched ⟨s', w.log ++ observe w.st s' (.call (.ioAsync x))⟩ := by
  rcases step_submits hs with ⟨hsame, hcur⟩ | ⟨c, hcur, hgrow, hf, hc, hst, hto⟩
  · exact h.step_refused ha hs hsame hcur
  · exact h.step_started ha hs hcur hgrow hf hc hst hto

/-! ## Deadlines -/

/-- Once the deadline or the packet is there, the order is settled. -/
theorem late_settled {l : List IoEvent} (es : List IoEvent)
    (h : late q l = true ∨ packetsOf q l ≠ []) : late q (l ++ es) = late q l := by
  rw [late_append]
  rcases h with h | h
  · simp [h]
  · simp [h]

/-- A batch of deadlines. -/
theorem deadlines_append {l es : List IoEvent} (h : ∀ e ∈ es, ∃ r, e = .deadline r) :
    packetsOf q (l ++ es) = packetsOf q l ∧
      (.deadline q ∈ es → packetsOf q l = [] → late q (l ++ es) = true) := by
  have hes : packetsOf q es = [] ∧ (.deadline q ∈ es → late q es = true) := by
    induction es with
    | nil => exact ⟨rfl, by simp⟩
    | cons e es ih =>
      obtain ⟨hp, hl⟩ := ih fun e he => h e (by simp [he])
      obtain ⟨r, rfl⟩ := h e (by simp)
      refine ⟨hp, fun hm => ?_⟩
      rcases List.mem_cons.mp hm with he | hm
      · simp [late, (IoEvent.deadline.inj he).symm]
      · simp [late, hl hm]
  rw [packetsOf_append, late_append, hes.1]
  refine ⟨by simp, fun hm hp => ?_⟩
  simp [hp, hes.2 hm]

/-- The deadlines a timer phase processes: those of the coroutines it makes ready. -/
theorem Watched.mem_deadlines (h : Watched w) {n : Nat} (hs : step w.st (.timers n) = some s')
    {e : IoEvent} :
    e ∈ observe w.st s' (.timers n) ↔ ∃ c x, e = .deadline (c, (w.st.co c).call) ∧
      (w.st.co c).frame = .waitAsync x ∧ (w.st.co c).state = .waiting ∧
      (s'.co c).state = .ready := by
  obtain ⟨es, htr, -, hq⟩ := step_readied h.placed rfl hs rfl
  have hes : s'.trace.drop w.st.trace.length = es := by
    rw [htr, List.drop_left]
  have hi := h.placed.current hs
  obtain ⟨cur', hi', -⟩ := h.placed.step (fun hf => hf.elim) rfl hs
  have hnodup := hi'.nodup_queue .ready
  rw [hq, List.nodup_append] at hnodup
  simp only [observe, hes, List.mem_filterMap]
  constructor
  · rintro ⟨c, hc, he⟩
    split at he
    swap
    · cases he
    rename_i x hx
    refine ⟨c, x, (Option.some.inj he).symm, hx, ?_, ?_⟩
    · -- it was not ready before
      have hsus : (w.st.co c).frame.suspended = true := by
        rw [hx]
        rfl
      rcases (hi.seated c).state hsus with hst | ⟨hst, -⟩
      · have hm : c ∈ w.st.queues .ready :=
          hi.mem_of_home (by simp [Routine.home, hsus, hst])
        exact absurd rfl (hnodup.2.2 c hm c hc)
      · exact hst
    · exact (Routine.home_ready (hi'.mem_queue (by rw [hq]; simp [hc]))).2
  · rintro ⟨c, x, rfl, hx, hst, hst'⟩
    refine ⟨c, ?_, by rw [hx]⟩
    have hio : (w.st.co c).frame.isIo = true := by
      rw [hx]
      rfl
    have hf := (step_ioStays h.placed rfl hs rfl c fun ha => by cases ha).frame hio
    have hm : c ∈ s'.queues .ready := hi'.mem_of_home (by
      simp [Routine.home, hf.1, hx, hst', Frame.suspended])
    rw [hq] at hm
    rcases List.mem_append.mp hm with hm | hm
    · have := (Routine.home_ready (hi.mem_queue hm)).2
      rw [hst] at this
      cases this
    · exact hm

theorem Watched.step_timers (h : Watched w) {n : Nat} (hs : step w.st (.timers n) = some s') :
    Watched ⟨s', w.log ++ observe w.st s' (.timers n)⟩ := by
  have hiocp := (step_kernel hs rfl rfl rfl).2
  have hdead : ∀ e ∈ observe w.st s' (.timers n), ∃ r, e = .deadline r := fun e he => by
    obtain ⟨c, x, rfl, -⟩ := (h.mem_deadlines hs).mp he
    exact ⟨_, rfl⟩
  refine h.next rfl hs (fun q hq => .inl (hiocp ▸ hq)) (fun q op hq => ?_)
    (fun x c hx => by cases hx) (fun q hq e he => ?_) fun q op hq => ?_
  · obtain ⟨r, hr⟩ := hdead _ hq
    cases hr
  · obtain ⟨c, x, rfl, hx, -⟩ := (h.mem_deadlines hs).mp he
    have hne : (c, (w.st.co c).call) ≠ q := by
      rintro rfl
      obtain ⟨op, hop⟩ := h.waiting c (by rw [hx]; rfl)
      exact hq op hop
    simpa [IoEvent.off] using hne
  · obtain ⟨hpk, hlate⟩ := deadlines_append (q := q) (l := w.log) hdead
    have hstay := step_ioStays h.placed rfl hs rfl q.1 fun ha => by cases ha
    have hkeep : (late q w.log = true ∨ packetsOf q w.log ≠ []) →
        (InWait w.st q → (w.st.co q.1).state = .waiting → (w.st.co q.1).frame.timed = false) →
        OpPhase ⟨s', w.log ++ observe w.st s' (.timers n)⟩ q op := by
      intro hset hno
      refine (h.phase q op hq).keep (fun hw hio => ?_) ⟨hpk, late_settled _ hset⟩
        (fun hm => hiocp ▸ hm) (h.ret_iff rfl hs hq fun ha => by cases ha)
      rcases hstay hio with hsame | ⟨-, ⟨hst, ht⟩, -⟩
      · exact .inl hsame
      · rw [hno hw hst] at ht
        cases ht
    have hready : (w.st.co q.1).state = .ready → InWait w.st q →
        (w.st.co q.1).state = .waiting → (w.st.co q.1).frame.timed = false := by
      intro hr _ hw
      rw [hr] at hw
      cases hw
    cases h.phase q op hq with
    | @pending x hf hx hc hst ht hp hl =>
      have hio : (w.st.co q.1).frame.isIo = true := by
        rw [hf]
        rfl
      rcases hstay hio with ⟨hf', hst', ht', hc'⟩ | ⟨-, -, hst', ht', hf', hc'⟩
      · -- still waiting, so its deadline is not among them
        have hoff : ∀ e ∈ observe w.st s' (.timers n), e.off q = true := by
          intro e he
          obtain ⟨c, y, rfl, -, -, hr⟩ := (h.mem_deadlines hs).mp he
          have hne : (c, (w.st.co c).call) ≠ q := by
            rintro rfl
            rw [hst', hst] at hr
            cases hr
          simpa [IoEvent.off] using hne
        obtain ⟨hp', hl'⟩ := off_append w.log hoff
        exact .pending (hf'.trans hf) hx (hc'.trans hc) (hst'.trans hst) (ht'.trans ht)
          (hp'.trans hp) (hl'.trans hl)
      · have hm : .deadline q ∈ observe w.st s' (.timers n) :=
          (h.mem_deadlines hs).mpr ⟨q.1, x, by rw [hc], hf, hst, hst'⟩
        exact .expired (hf'.trans hf) hx (hc'.trans hc) hst' ht' (hpk.trans hp) (hlate hm hp)
    | completed hf hx hc hst ht hb hp hl hn =>
      exact hkeep (.inr (by simp [hp])) (hready hst)
    | expired hf hx hc hst ht hp hl => exact hkeep (.inl hl) (hready hst)
    | draining hf hc hst hp hl => exact hkeep (.inl hl) fun _ _ => by rw [hf]; rfl
    | drained hf hc hst hp hl hn => exact hkeep (.inl hl) (hready hst)
    | returned hr hp hn ha =>
      refine hkeep (.inr (by simp [hp])) fun hw _ => ?_
      rw [← hw.2] at hr
      exact absurd hr (h.calls.unreturned q.1 (inCall_of_isIo hw.1) _)

/-! ## Packets -/

/-- What a packet writes into the wait context. -/
def Packet.fill (p : Packet) (x : AsyncCtx) : AsyncCtx :=
  { x with
    bytesTransferred := p.bytes
    revents := { x.opType.events with error := p.failed } }

/-- The record of a coroutine whose packet is dequeued. -/
def Routine.filled (r : Routine) (p : Packet) : Routine :=
  let wake (r : Routine) : Routine :=
    if r.state = .waiting then { r with state := .ready, ioWaiting := false } else r
  match r.frame with
  | .waitAsync x => wake { r with frame := .waitAsync (p.fill x) }
  | .drainAsync x => wake { r with frame := .drainAsync (p.fill x) }
  | _ => r

theorem wakeIo_co (s : St) (c : Nat) (f : Frame) :
    (wakeIo (s.modify c fun r => { r with frame := f }) c).co =
      Function.update s.co c (if (s.co c).state = .waiting then
        { s.co c with frame := f, state := .ready, ioWaiting := false }
        else { s.co c with frame := f }) := by
  by_cases hs : (s.co c).state = .waiting
  · rw [wakeIo_waiting hs]
    simp [hs, coQueuePushBack, St.modify, St.emit]
  · rw [wakeIo_not_waiting hs]
    simp [hs, St.modify]

theorem pollPacket_co (s : St) (p : Packet) :
    (pollPacket s p).co = Function.update s.co p.ptr.1 ((s.co p.ptr.1).filled p) := by
  unfold pollPacket Routine.filled
  dsimp only
  cases hf : (s.co p.ptr.1).frame with
  | waitAsync x => exact wakeIo_co _ _ _
  | drainAsync x => exact wakeIo_co _ _ _
  | _ => simp

theorem pollPacket_inFlight (s : St) (p : Packet) :
    (pollPacket s p).iocp.inFlight = s.iocp.inFlight.erase p.ptr := by
  unfold pollPacket
  dsimp only
  split
  · rw [(wakeIo_spec _ _ _).1.2.1]
  · rw [(wakeIo_spec _ _ _).1.2.1]
  · rfl

/-- A batch of packets for different coroutines. -/
theorem coIomuxPollPackets_co (ps : List Packet) (s : St)
    (hn : (ps.map fun p => p.ptr.1).Nodup) (c : Nat) :
    ((∀ p ∈ ps, p.ptr.1 ≠ c) → (coIomuxPollPackets s ps).co c = s.co c) ∧
      ∀ p ∈ ps, p.ptr.1 = c → (coIomuxPollPackets s ps).co c = (s.co c).filled p := by
  unfold coIomuxPollPackets
  induction ps generalizing s with
  | nil => exact ⟨fun _ => rfl, by simp⟩
  | cons p ps ih =>
    rw [List.map_cons, List.nodup_cons] at hn
    obtain ⟨hrest, hone⟩ := ih (pollPacket s p) hn.2
    have hco := pollPacket_co s p
    rw [List.foldl_cons]
    refine ⟨fun hne => ?_, fun p' hp' hc => ?_⟩
    · rw [hrest fun p' hp' => hne p' (by simp [hp']), hco,
        Function.update_of_ne (Ne.symm (hne p (by simp)))]
    · rcases List.mem_cons.mp hp' with rfl | hp'
      · rw [hrest, hco, hc, Function.update_self]
        intro p'' hp'' he
        exact hn.1 (List.mem_map.mpr ⟨p'', hp'', he.trans hc.symm⟩)
      · have hne : c ≠ p.ptr.1 := fun he => hn.1 (List.mem_map.mpr ⟨p', hp', hc.trans he⟩)
        rw [hone p' hp' hc, hco, Function.update_of_ne hne]

theorem coIomuxPollPackets_inFlight (ps : List Packet) (s : St) (hn : s.iocp.inFlight.Nodup)
    (hq : q ∈ (coIomuxPollPackets s ps).iocp.inFlight) :
    q ∈ s.iocp.inFlight ∧ ∀ p ∈ ps, p.ptr ≠ q := by
  unfold coIomuxPollPackets at hq
  induction ps generalizing s with
  | nil => exact ⟨hq, by simp⟩
  | cons p ps ih =>
    rw [List.foldl_cons] at hq
    have hfl := pollPacket_inFlight s p
    obtain ⟨hm, hne⟩ := ih (pollPacket s p) (by rw [hfl]; exact hn.erase _) hq
    rw [hfl, hn.mem_erase_iff] at hm
    refine ⟨hm.2, fun p' hp' => ?_⟩
    rcases List.mem_cons.mp hp' with rfl | hp'
    · exact Ne.symm hm.1
    · exact hne p' hp'

/-- A batch of packets in the log. -/
theorem dequeues_append (l : List IoEvent) (ps : List Packet) :
    packetsOf q (l ++ ps.map .dequeue) = packetsOf q l ++ ps.filter (fun p => p.ptr = q) ∧
      late q (l ++ ps.map .dequeue) = late q l := by
  have hes : packetsOf q (ps.map .dequeue) = ps.filter (fun p => p.ptr = q) ∧
      late q (ps.map .dequeue) = false := by
    induction ps with
    | nil => exact ⟨rfl, rfl⟩
    | cons p ps ih =>
      by_cases hp : p.ptr = q
      · simp [packetsOf, late, hp] at ih ⊢
        exact ih.1
      · simp [packetsOf, late, hp] at ih ⊢
        exact ih
  rw [packetsOf_append, late_append, hes.1, hes.2]
  simp

theorem filter_ptr {ps : List Packet} {p : Packet} (hn : (ps.map (·.ptr)).Nodup) (hp : p ∈ ps) :
    ps.filter (fun p' => p'.ptr = p.ptr) = [p] := by
  induction ps with
  | nil => cases hp
  | cons p' ps ih =>
    rw [List.map_cons, List.nodup_cons] at hn
    rcases List.mem_cons.mp hp with rfl | hp
    · have hnone : ps.filter (fun p' => p'.ptr = p.ptr) = [] := by
        refine List.filter_eq_nil_iff.mpr fun p' hp' => ?_
        simpa using fun he : p'.ptr = p.ptr => hn.1 (List.mem_map.mpr ⟨p', hp', he⟩)
      simp [hnone]
    · have hne : p'.ptr ≠ p.ptr := fun he => hn.1 (List.mem_map.mpr ⟨p, hp, he.symm⟩)
      simp [hne, ih hn.2 hp]

/-- An operation in flight has its coroutine. -/
theorem Watched.flight (h : Watched w) (hq : q ∈ w.st.iocp.inFlight) : InWait w.st q := by
  obtain ⟨op, hop⟩ := h.inFlight q hq
  cases h.phase q op hop with
  | pending hf _ hc | completed hf _ hc | expired hf _ hc => exact ⟨by rw [hf]; rfl, hc⟩
  | draining hf hc | drained hf hc => exact ⟨by rw [hf]; rfl, hc⟩
  | returned _ _ hn => exact absurd hq hn

/-- Operations after a batch of packets was dequeued. -/
structure Batch (w : Watch) (s' : St) (ps : List Packet) : Prop where
  inFlight : ∀ p ∈ ps, p.ptr ∈ w.st.iocp.inFlight
  once : (ps.map (·.ptr)).Nodup
  log : observe w.st s' (.idle (.packets ps)) = ps.map .dequeue
  keep : ∀ c, (∀ p ∈ ps, p.ptr.1 ≠ c) → s'.co c = w.st.co c
  fill : ∀ p ∈ ps, s'.co p.ptr.1 = (w.st.co p.ptr.1).filled p
  flight : ∀ q ∈ s'.iocp.inFlight, q ∈ w.st.iocp.inFlight ∧ ∀ p ∈ ps, p.ptr ≠ q

/-- The packets of a batch are for different coroutines, each of which gets its own. -/
theorem Watched.batch (h : Watched w) {ps : List Packet} {u : St}
    (hpos : (PollResult.packets ps).possible w.st = true) (huco : u.co = w.st.co)
    (hui : u.iocp = w.st.iocp)
    (hobs : observe w.st s' (.idle (.packets ps)) = ps.map .dequeue)
    (hco : s'.co = (coIomuxPollPackets u ps).co)
    (hiocp : s'.iocp = (coIomuxPollPackets u ps).iocp) : Batch w s' ps := by
  simp only [PollResult.possible, Bool.and_eq_true, List.all_eq_true, decide_eq_true_eq,
    List.contains_iff_mem] at hpos
  have hcos : (ps.map fun p => p.ptr.1).Nodup := by
    have : (ps.map (·.ptr)).map Prod.fst = ps.map fun p => p.ptr.1 := by simp
    rw [← this]
    refine hpos.2.map_on fun r hr r' hr' he => ?_
    obtain ⟨p, hp, rfl⟩ := List.mem_map.mp hr
    obtain ⟨p', hp', rfl⟩ := List.mem_map.mp hr'
    exact List.inj_on_of_nodup_map h.kernel.once (hpos.1 p hp) (hpos.1 p' hp') he
  have hpolled := coIomuxPollPackets_co ps u hcos
  rw [← hco, huco] at hpolled
  have hfl : w.st.iocp.inFlight.Nodup := List.Nodup.of_map _ h.kernel.once
  refine ⟨hpos.1, hpos.2, hobs, fun c => (hpolled c).1, fun p hp => (hpolled _).2 p hp rfl, ?_⟩
  intro q hq
  rw [hiocp] at hq
  rw [← hui] at hfl ⊢
  exact coIomuxPollPackets_inFlight ps u hfl hq

/-- The state after an idle phase, as far as operations are concerned. -/
theorem Watched.after_poll (h : Watched w) {p : PollResult}
    (hs : step w.st (.idle p) = some s') :
    w.st.queues .ready = [] ∧
      ((observe w.st s' (.idle p) = [] ∧ s'.co = w.st.co ∧ s'.iocp = w.st.iocp) ∨
        ∃ ps, p = .packets ps ∧ Batch w s' ps) := by
  obtain ⟨n, t, hctl, hpos, ht, hs'⟩ := step_poll hs
  refine ⟨h.idle n hctl, ?_⟩
  have hco : s'.co = t.co ∧ s'.iocp = t.iocp := by
    rcases hs' with rfl | rfl <;> exact ⟨rfl, rfl⟩
  by_cases hpoll : polls w.st = true
  · rw [if_pos hpoll] at ht
    cases p with
    | none =>
      rw [ht] at hco
      exact .inl ⟨rfl, hco⟩
    | events evs =>
      have hnil : evs = [] := by
        cases evs with
        | nil => rfl
        | cons ev evs => simp [PollResult.possible, h.noEpoll] at hpos
      rw [ht, hnil] at hco
      exact .inl ⟨rfl, hco⟩
    | packets ps =>
      rw [ht] at hco
      exact .inr ⟨ps, rfl, h.batch (u := w.st.emit (.poll (ioTimeoutMs w.st n))) hpos rfl rfl
        (by simp [observe, hpoll]) hco.1 hco.2⟩
  · rw [if_neg hpoll] at ht
    rw [ht] at hco
    refine .inl ⟨?_, hco⟩
    cases p <;> simp [observe, hpoll]

section

variable {ps : List Packet} {p : Packet}

theorem Batch.packets_none (hb : Batch w s' ps) (hne : ∀ p ∈ ps, p.ptr ≠ q) :
    packetsOf q (w.log ++ observe w.st s' (.idle (.packets ps))) = packetsOf q w.log := by
  have hnone : ps.filter (fun p => p.ptr = q) = [] :=
    List.filter_eq_nil_iff.mpr fun p hp => by simpa using hne p hp
  rw [hb.log, (dequeues_append w.log ps).1, hnone, List.append_nil]

theorem Batch.packets_one (hb : Batch w s' ps) (hp : p ∈ ps) (hptr : p.ptr = q)
    (hz : packetsOf q w.log = []) :
    packetsOf q (w.log ++ observe w.st s' (.idle (.packets ps))) = [p] := by
  subst hptr
  rw [hb.log, (dequeues_append w.log ps).1, hz, filter_ptr hb.once hp, List.nil_append]

theorem Batch.late_eq (hb : Batch w s' ps) :
    late q (w.log ++ observe w.st s' (.idle (.packets ps))) = late q w.log := by
  rw [hb.log, (dequeues_append w.log ps).2]

/-- A packet for the coroutine of an operation is the packet of the operation. -/
theorem Batch.still (hb : Batch w s' ps) (h : Watched w) (hw : InWait w.st q)
    (hne : ∀ p ∈ ps, p.ptr ≠ q) : s'.co q.1 = w.st.co q.1 := by
  refine hb.keep q.1 fun p hp he => hne p hp ?_
  have hc := (h.flight (hb.inFlight p hp)).2
  rw [he, hw.2] at hc
  exact Prod.ext he hc.symm

theorem Batch.filled_eq (hb : Batch w s' ps) (hp : p ∈ ps) (hptr : p.ptr = q) :
    s'.co q.1 = (w.st.co q.1).filled p := by
  rw [← hptr]
  exact hb.fill p hp

/-- While the ready queue is empty no wait is over. -/
theorem Watched.not_ready (h : Watched w) (hempty : w.st.queues .ready = [])
    (hw : InWait w.st q) : (w.st.co q.1).state ≠ .ready := by
  obtain ⟨cur, hi, -⟩ := h.placed
  intro hst
  have hsus := (Frame.io_suspended hw.1).1
  have hm : q.1 ∈ w.st.queues .ready := hi.mem_of_home (by simp [Routine.home, hsus, hst])
  rw [hempty] at hm
  cases hm

theorem Watched.batch_phase (h : Watched w) (ha : accepted w.st (.idle (.packets ps)) = true)
    (hs : step w.st (.idle (.packets ps)) = some s') (hempty : w.st.queues .ready = [])
    (hb : Batch w s' ps) (hq : .submit q op ∈ w.log) :
    OpPhase ⟨s', w.log ++ observe w.st s' (.idle (.packets ps))⟩ q op := by
  have hgone : ∀ p ∈ ps, p.ptr = q → q ∉ s'.iocp.inFlight := fun p hp he hm =>
    (hb.flight q hm).2 p hp he
  have hlate := hb.late_eq (q := q)
  cases h.phase q op hq with
  | @pending x hf hx hc hst ht hp hl =>
    have hw : InWait w.st q := ⟨by rw [hf]; rfl, hc⟩
    by_cases hex : ∃ p ∈ ps, p.ptr = q
    · obtain ⟨p, hpm, hptr⟩ := hex
      have hok : p.failed = false := by
        simp only [accepted, List.all_eq_true] at ha
        have := ha p hpm
        rw [hptr, hf] at this
        simpa [Frame.isDrain] using this
      have hrec : s'.co q.1 = { w.st.co q.1 with
          frame := .waitAsync (p.fill x), state := .ready, ioWaiting := false } := by
        rw [hb.filled_eq hpm hptr]
        simp [Routine.filled, hf, hst]
      refine .completed (x := p.fill x) (p := p) ?_ ⟨hx.1, hok⟩ ?_ ?_ ?_ rfl
        (hb.packets_one hpm hptr hp) (hlate.trans hl) (hgone p hpm hptr) <;> rw [hrec]
      · exact hc
      · exact ht
    · have hne : ∀ p ∈ ps, p.ptr ≠ q := fun p hp he => hex ⟨p, hp, he⟩
      have hsame := hb.still h hw hne
      exact .pending (by rw [hsame]; exact hf) hx (by rw [hsame]; exact hc)
        (by rw [hsame]; exact hst) (by rw [hsame]; exact ht) ((hb.packets_none hne).trans hp)
        (hlate.trans hl)
  | completed hf hx hc hst =>
    exact absurd hst (h.not_ready hempty ⟨by rw [hf]; rfl, hc⟩)
  | expired hf hx hc hst => exact absurd hst (h.not_ready hempty ⟨by rw [hf]; rfl, hc⟩)
  | @draining x hf hc hst hp hl =>
    have hw : InWait w.st q := ⟨by rw [hf]; rfl, hc⟩
    by_cases hex : ∃ p ∈ ps, p.ptr = q
    · obtain ⟨p, hpm, hptr⟩ := hex
      have hrec : s'.co q.1 = { w.st.co q.1 with
          frame := .drainAsync (p.fill x), state := .ready, ioWaiting := false } := by
        rw [hb.filled_eq hpm hptr]
        simp [Routine.filled, hf, hst]
      refine .drained (x := p.fill x) (p := p) ?_ ?_ ?_ (hb.packets_one hpm hptr hp)
        (hlate.trans hl) (hgone p hpm hptr) <;> rw [hrec]
      exact hc
    · have hne : ∀ p ∈ ps, p.ptr ≠ q := fun p hp he => hex ⟨p, hp, he⟩
      have hsame := hb.still h hw hne
      exact .draining (by rw [hsame]; exact hf) (by rw [hsame]; exact hc)
        (by rw [hsame]; exact hst) ((hb.packets_none hne).trans hp) (hlate.trans hl)
  | drained hf hc hst => exact absurd hst (h.not_ready hempty ⟨by rw [hf]; rfl, hc⟩)
  | returned hr hp hn han =>
    refine (h.phase q op hq).keep (fun hw => ?_)
      ⟨hb.packets_none fun p hpm he => hn (he ▸ hb.inFlight p hpm), hlate⟩
      (fun hm => (hb.flight q hm).1) (h.ret_iff (h.leakless ha) hs hq fun hc => by cases hc)
    rw [← hw.2] at hr
    exact absurd hr (h.calls.unreturned q.1 (inCall_of_isIo hw.1) _)

end

theorem Watched.step_idle (h : Watched w) {p : PollResult} (ha : accepted w.st (.idle p) = true)
    (hs : step w.st (.idle p) = some s') :
    Watched ⟨s', w.log ++ observe w.st s' (.idle p)⟩ := by
  obtain ⟨hempty, ⟨hobs, hco, hiocp⟩ | ⟨ps, rfl, hb⟩⟩ := h.after_poll hs
  · refine h.next ha hs (fun q hq => .inl (hiocp ▸ hq)) (by simp [hobs])
      (fun x c hx => by cases hx) (by simp [hobs]) fun q op hq => ?_
    refine (h.phase q op hq).keep (fun _ => ?_) (off_append _ (by simp [hobs]))
      (fun hm => hiocp ▸ hm) (h.ret_iff (h.leakless ha) hs hq fun hc => by cases hc)
    rw [hco]
    exact .refl _ _
  refine h.next ha hs (fun q hq => .inl (hb.flight q hq).1) (fun q op hq => ?_)
    (fun x c hx => by cases hx) (fun q hq e he => ?_)
    fun q op hq => h.batch_phase ha hs hempty hb hq
  · rw [hb.log, List.mem_map] at hq
    obtain ⟨p, -, hp⟩ := hq
    cases hp
  · rw [hb.log, List.mem_map] at he
    obtain ⟨p, hp, rfl⟩ := he
    have hne : p.ptr ≠ q := by
      rintro rfl
      obtain ⟨op, hop⟩ := h.inFlight _ (hb.inFlight p hp)
      exact hq op hop
    simpa [IoEvent.off] using hne

/-! ## Resumptions -/

theorem switchTo_timedOut (s : St) (c : Nat) :
    ((switchTo s c).co c).timedOut = (s.co c).timedOut ∧
      ((switchTo s c).co c).call = (s.co c).call := by
  simp [switchTo, St.modify, St.emit]

/-- The result of a call whose packet came before its deadline. -/
theorem resumeAsync_ok {x : AsyncCtx} (after : SysRes) (ht : (s.co c).timedOut = false)
    (he : x.revents.error = false) {p : Packet} (hb : x.bytesTransferred = p.bytes) :
    ∃ r t, resumeAsync s c x after = .ret r t ∧ Answers x.opType p false r := by
  unfold resumeAsync
  rw [if_neg (by simp [ht]), if_neg (by simp [he])]
  cases hop : x.opType with
  | read | write => exact ⟨_, _, rfl, by simp [Answers, hb]⟩
  | accept | connect => exact ⟨_, _, rfl, after, rfl⟩

theorem schedule_iocp {e : ResumeEnv} (hs : step s (.schedule e) = some s') :
    s' = coSchedulerSchedule s e ∧ s'.iocp = s.iocp := by
  obtain ⟨-, rfl⟩ := step_schedule hs
  refine ⟨rfl, ?_⟩
  cases hq : s.queues .ready with
  | nil => rw [schedule_nil hq]
  | cons c rest => exact (schedule_epoll hq).1

theorem observe_schedule (w : Watch) (s' : St) (e : ResumeEnv) :
    packetsOf q (w.log ++ observe w.st s' (.schedule e)) = packetsOf q w.log ∧
      late q (w.log ++ observe w.st s' (.schedule e)) = late q w.log :=
  off_append w.log (by simp [observe])

/-- The wait at the head of the ready queue returns: the only return is the one made now. -/
theorem Watched.returned_phase (h : Watched w) {e : ResumeEnv} {rest : List Nat} {r : Ret}
    {t : St} {p : Packet} (hs : step w.st (.schedule e) = some s') (hw : InWait w.st q)
    (hready : w.st.queues .ready = q.1 :: rest)
    (hres : resume (switchTo { w.st with queues := Function.update w.st.queues .ready rest } q.1)
      q.1 e (w.st.co q.1).frame = .ret r t)
    (hs' : s' = t.emit (.ret (w.st.co q.1).call r)) (hp : packetsOf q w.log = [p])
    (hn : q ∉ s'.iocp.inFlight) (hans : Answers op p (late q w.log) r) :
    OpPhase ⟨s', w.log ++ observe w.st s' (.schedule e)⟩ q op := by
  have hl := h.leakless (a := .schedule e) rfl
  obtain ⟨hpk, hlate⟩ := observe_schedule (q := q) w s' e
  have hun := h.calls.unreturned q.1 (inCall_of_isIo hw.1)
  rw [hw.2] at hun
  refine .returned (p := p) (r := r) ?_ (hpk.trans hp) hn fun r' hr' => ?_
  · rw [hs', hw.2]
    simp [St.emit]
  · rw [hlate]
    rcases (step_returned h.calls h.placed hl hs).2 _ r' hr' with hold | ⟨t', hret⟩
    · exact absurd hold (hun r')
    generalize hk : q.2 = k at hret
    cases hret with
    | @resumed d rest' e r' t' hq' hf hres' hcur =>
      rw [hready] at hq'
      obtain ⟨rfl, rfl⟩ := List.cons.inj hq'
      rw [hres] at hres'
      cases hres'
      exact hans

theorem Watched.resumed_phase (h : Watched w) {e : ResumeEnv} {rest : List Nat}
    (hs : step w.st (.schedule e) = some s') (hw : InWait w.st q)
    (hready : w.st.queues .ready = q.1 :: rest) (hq : .submit q op ∈ w.log) :
    OpPhase ⟨s', w.log ++ observe w.st s' (.schedule e)⟩ q op := by
  obtain ⟨hs', hiocp⟩ := schedule_iocp hs
  obtain ⟨hpk, hlog⟩ := observe_schedule (q := q) w s' e
  obtain ⟨hst, -, -⟩ := (h.placed.current hs).ready_fields hready
  have hent : (w.st.co q.1).frame ≠ .entry := by
    intro hf
    have := hw.1
    rw [hf] at this
    cases this
  rw [schedule_resumes hready hent] at hs'
  obtain ⟨hto, hcall⟩ := switchTo_timedOut
    { w.st with queues := Function.update w.st.queues .ready rest } q.1
  cases h.phase q op hq with
  | pending hf hx hc hst' =>
    rw [hst] at hst'
    cases hst'
  | @completed x p hf hx hc hst' ht hb hp hlate hn =>
    obtain ⟨r, t, hres, hans⟩ := resumeAsync_ok e.again (c := q.1) (hto.trans ht) hx.2 hb
    have hres : resume (switchTo { w.st with
        queues := Function.update w.st.queues .ready rest } q.1) q.1 e (w.st.co q.1).frame =
        .ret r t := by
      rw [hf]
      exact hres
    refine h.returned_phase hs hw hready hres (by rw [hs', hres]; rfl) hp (hiocp ▸ hn) ?_
    rw [hlate, ← hx.1]
    exact hans
  | @expired x hf hx hc hst' ht hp hlate =>
    have hdrain : s'.co q.1 = { w.st.co q.1 with state := .waiting, frame := .drainAsync x } := by
      rw [hs', hf]
      simp only [resume, resumeAsync]
      rw [if_pos (hto.trans ht)]
      simp [settle, switchTo, St.modify, St.emit]
    exact .draining (x := x) (by rw [hdrain]) (by rw [hdrain]; exact hc) (by rw [hdrain])
      (hpk.trans hp) (hlog.trans hlate)
  | draining hf hc hst' =>
    rw [hst] at hst'
    cases hst'
  | @drained x p hf hc hst' hp hlate hn =>
    obtain ⟨t, hres⟩ : ∃ t, resume (switchTo { w.st with
        queues := Function.update w.st.queues .ready rest } q.1) q.1 e (w.st.co q.1).frame =
        .ret (asyncFailed .timeout) t := by
      rw [hf]
      exact ⟨_, rfl⟩
    refine h.returned_phase hs hw hready hres (by rw [hs', hres]; rfl) hp (hiocp ▸ hn) ?_
    rw [hlate]
    rfl
  | returned hr =>
    rw [← hw.2] at hr
    exact absurd hr (h.calls.unreturned q.1 (inCall_of_isIo hw.1) _)

theorem Watched.step_schedule (h : Watched w) {e : ResumeEnv}
    (hs : step w.st (.schedule e) = some s') :
    Watched ⟨s', w.log ++ observe w.st s' (.schedule e)⟩ := by
  have ha : accepted w.st (.schedule e) = true := rfl
  obtain ⟨-, hiocp⟩ := schedule_iocp hs
  refine h.next ha hs (fun q hq => .inl (hiocp ▸ hq)) (by simp [observe])
    (fun x c hx => by cases hx) (by simp [observe]) fun q op hq => ?_
  by_cases hhead : InWait w.st q ∧ ∃ rest, w.st.queues .ready = q.1 :: rest
  · obtain ⟨hw, rest, hready⟩ := hhead
    exact h.resumed_phase hs hw hready hq
  · exact h.still (h.leakless ha) hs hq rfl rfl (fun _ hw rest hr => hhead ⟨hw, rest, hr⟩)
      (by simp [observe]) fun hm => hiocp ▸ hm

theorem Watched.step (h : Watched w) (ha : accepted w.st a = true) (hs : w.step a = some w') :
    Watched w' := by
  obtain ⟨s', hstep, rfl⟩ := Option.map_eq_some_iff.mp hs
  cases a with
  | timers n => exact h.step_timers hstep
  | idle p => exact h.step_idle ha hstep
  | schedule e => exact h.step_schedule hstep
  | call op =>
    cases op with
    | io x => cases ha
    | ioAsync x => exact h.step_submit ha hstep
    | _ => exact h.step_plain ha hstep rfl rfl rfl rfl
  | _ => exact h.step_plain ha hstep rfl rfl rfl rfl

theorem Watched.result (h : Watched w) {r : Ret} (hq : .submit q op ∈ w.log)
    (hr : .ret q.2 r ∈ w.st.trace) :
    ∃ p, packetsOf q w.log = [p] ∧ Answers op p (late q w.log) r := by
  have hout : ¬ InWait w.st q := by
    intro hw
    rw [← hw.2] at hr
    exact h.calls.unreturned q.1 (inCall_of_isIo hw.1) r hr
  cases h.phase q op hq with
  | pending hf _ hc | completed hf _ hc | expired hf _ hc =>
    exact absurd ⟨by rw [hf]; rfl, hc⟩ hout
  | draining hf hc | drained hf hc => exact absurd ⟨by rw [hf]; rfl, hc⟩ hout
  | returned _ hp _ ha => exact ⟨_, hp, ha r hr⟩

theorem Watched.wakes (h : Watched w) (hio : (w.st.co c).frame.isIo = true) :
    Libco.wakes c w.st.trace = if (w.st.co c).state = .waiting then 0 else 1 := by
  obtain ⟨cur, hi, -⟩ := h.placed
  have hsus := (Frame.io_suspended hio).1
  rw [h.woken c, (hi.seated c).queued .ready]
  rcases (hi.seated c).state hsus with hst | ⟨hst, -⟩
  · simp [Routine.home, hsus, hst]
  · simp [Routine.home, hsus, hst, (Frame.io_suspended hio).2.1]

end Libco
