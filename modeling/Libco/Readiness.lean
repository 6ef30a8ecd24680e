import Libco.Deadlines
import Libco.Waits

/-!
# Readiness of descriptors

The answers of the system calls and the events of `epoll_wait` are those of descriptors,
which the library's own calls and the peers change: `World` is the library with its
descriptors. What the kernel does is a parameter, `Files`; what is assumed of it is said
where it is needed.

A waiter is woken by a report about its descriptor and repeats its system call when it is
dispatched. Between the two the peers and the other coroutines act, and the report itself
passes through the translation of the event mask.
-/

namespace Libco
open Lib

/-! ## The kernel -/

/-- Descriptors in states `D`, and actions `P` of their peers. A state holds whatever
decides the answers. -/
structure Files (D P : Type) where
  /-- `read`, `write`, `accept` or `connect` with a byte count -/
  sys : IoCall → Nat → D → SysRes × D
  /-- `getsockopt` of `SO_ERROR`, its value taken as that of a call -/
  soError : D → SysRes × D
  /-- what `epoll_wait` would report -/
  mask : D → EpollEvents
  peer : P → D → D

variable {D P : Type}

/-- The events reported for a registration: `EPOLLERR` and `EPOLLHUP` always. -/
def Files.reported (F : Files D P) (reg : Registration) (d : D) : EpollEvents :=
  let m := F.mask d
  ⟨m.epollin && reg.epollin, m.epollout && reg.epollout, m.epollerr, m.epollhup⟩

/-- A call would fail with `EAGAIN`. -/
def Files.blocks (F : Files D P) (call : IoCall) (n : Nat) (d : D) : Bool :=
  (F.sys call n d).1 = .fail .eagain

/-! ## The library with its descriptors -/

/-- `want` is history: the byte count a coroutine passed to its last I/O call. -/
structure World (D : Type) where
  st : St
  files : Int → D
  want : Nat → Nat

/-- A step of the library, `n` being the byte count if it is an I/O call, or of a peer. -/
inductive WorldAct (P : Type) where
  | lib (a : Act) (n : Nat)
  | peer (fd : Int) (p : P)

/-- A system call made in a step, with the answer the code goes on with. -/
structure SysCall where
  call : IoCall
  fd : Int
  count : Nat
  again : Bool
  answer : SysRes

/-- The arguments pass the checks of the call, which then makes its system call. -/
def IoArgs.made (x : IoArgs) : Bool := ¬ (x.fd < 0 ∨ (x.call ≠ .accept ∧ !x.argsOk))

/-- The system call of a step: the first one of a call with acceptable arguments, or the
repeated one of a coroutine whose wait has ended well. -/
def World.sysCall (w : World D) (n : Nat) : Act → Option SysCall
  | .call (.io x) =>
    if x.made then some ⟨x.call, x.fd, n, false, x.first⟩ else none
  | .schedule e =>
    match w.st.queues .ready with
    | [] => none
    | c :: _ =>
      match (w.st.co c).frame with
      | .waitIo x =>
        if (w.st.co c).timedOut || x.revents.error then none
        else some ⟨x.call, x.fd, w.want c, true, e.again⟩
      | _ => none
  | _ => none

/-- What the kernel makes of a system call; `co_connect` repeats none, but asks for
`SO_ERROR`. -/
def Files.answer (F : Files D P) (y : SysCall) (d : D) : SysRes × D :=
  if y.again ∧ y.call = .connect then F.soError d else F.sys y.call y.count d

/-- The answers and events of a step are those of the descriptors. -/
def World.agrees (F : Files D P) (w : World D) (a : Act) (n : Nat) : Bool :=
  (match w.sysCall n a with
    | none => true
    | some y => y.answer = (F.answer y (w.files y.fd)).1) &&
  (match a with
    | .idle (.events evs) => evs.all fun ev =>
      match w.st.epoll ev.1 with
      | none => false
      | some reg => ev.2 = F.reported reg (w.files ev.1) && ev.2 ≠ ⟨false, false, false, false⟩
    | _ => true)

/-- The descriptors after a step. -/
def World.filesAfter (F : Files D P) (w : World D) (a : Act) (n : Nat) : Int → D :=
  match w.sysCall n a with
  | none => w.files
  | some y => Function.update w.files y.fd (F.answer y (w.files y.fd)).2

/-- An I/O call notes its byte count. -/
def World.wantAfter (w : World D) (a : Act) (n : Nat) : Nat → Nat :=
  match a with
  | .call (.io _) =>
    match w.st.coCurrent with
    | some c => Function.update w.want c n
    | none => w.want
  | _ => w.want

def World.step (F : Files D P) (w : World D) : WorldAct P → Option (World D)
  | .lib a n =>
    if w.agrees F a n then
      (Libco.step w.st a).map fun s => ⟨s, w.filesAfter F a n, w.wantAfter a n⟩
    else none
  | .peer fd p => some { w with files := Function.update w.files fd (F.peer p (w.files fd)) }

def World.init (cfg : Config) (files : Int → D) : World D := ⟨Libco.init cfg, files, fun _ => 0⟩

/-- An I/O call that returns. -/
structure IoReturn where
  call : IoCall
  fd : Int
  timeoutMs : Int
  count : Nat
  ret : Ret
  deriving DecidableEq

/-- The I/O call that returns in a step, if one does. -/
def World.ioReturn (w : World D) (n : Nat) : Act → Option IoReturn
  | .call (.io x) =>
    match coIo (beginCall w.st (.io x)) x with
    | .ret r _ => some ⟨x.call, x.fd, x.timeoutMs, n, r⟩
    | _ => none
  | .schedule e =>
    match w.st.queues .ready with
    | [] => none
    | c :: rest =>
      match (w.st.co c).frame with
      | .waitIo x =>
        match resumeIo (switchTo { w.st with queues := Function.update w.st.queues .ready rest } c)
            c x e.again with
        | .ret r _ => some ⟨x.call, x.fd, x.timeoutMs, w.want c, r⟩
        | _ => none
      | _ => none
  | _ => none

variable {F : Files D P} {w w' : World D} {a : Act} {n c : Nat} {fd : Int}

theorem World.step_lib (h : World.step F w (.lib a n) = some w') :
    w.agrees F a n = true ∧ Libco.step w.st a = some w'.st ∧ w'.files = w.filesAfter F a n ∧
      w'.want = w.wantAfter a n := by
  simp only [World.step] at h
  split at h
  · rename_i hag
    obtain ⟨s, hs, rfl⟩ := Option.map_eq_some_iff.mp h
    exact ⟨hag, hs, rfl, rfl⟩
  · cases h

theorem World.wantAfter_other (hc : w.st.coCurrent ≠ some c) : w.wantAfter a n c = w.want c := by
  unfold World.wantAfter
  split
  · cases hd : w.st.coCurrent with
    | none => rfl
    | some d =>
      have hne : c ≠ d := fun he => hc (by rw [hd, he])
      exact Function.update_of_ne hne _ _
  · rfl

/-! ## What a report promises -/

/-- A report without `EPOLLERR` and `EPOLLHUP` to a waiter makes `Q` true of its call and
its descriptor. -/
def Promise (F : Files D P) (Q : IoCall → Nat → D → Prop) : Prop :=
  ∀ call n d, (F.mask d).epollerr = false → (F.mask d).epollhup = false →
    (call.events.read = true → (F.mask d).epollin = true) →
    (call.events.write = true → (F.mask d).epollout = true) → Q call n d

/-- Waits, their registrations and what was promised to them, for descriptors in `On`. -/
structure Waiting (Q : IoCall → Nat → D → Prop) (On : Int → Prop) (w : World D) : Prop where
  loose : Loose w.st
  owner : ∀ fd reg, w.st.epoll fd = some reg → 0 ≤ fd ∧ ∃ i, (w.st.co reg.ptr.1).ioWait = some i ∧
    i.ctx.fd = fd ∧ reg.epollin = i.ctx.call.events.read ∧ reg.epollout = i.ctx.call.events.write
  untimed : ∀ c i, (w.st.co c).ioWait = some i → i.ctx.timeoutMs < 0 → i.timedOut = false
  promised : ∀ c i, (w.st.co c).ioWait = some i → On i.ctx.fd → i.state = .ready →
    i.timedOut = false → i.ctx.revents.error = true ∨ Q i.ctx.call (w.want c) (w.files i.ctx.fd)

theorem Follows.not_current {s s' : St} {i : IoWait} (hf : Follows s a s')
    (hi : (s.co c).ioWait = some i) : s.coCurrent ≠ some c := by
  obtain ⟨h, h', a', hinv, -, -⟩ := hf
  intro hc
  have hu : (s.co c).frame = .user := (hinv.user c).mpr hc
  rw [(Routine.ioWait_eq_some hi).1] at hu
  cases hu

/-- The owner of a registration that stays keeps its wait, up to the events. -/
theorem Follows.owner_kept {i : IoWait} {reg : Registration} (hf : Follows w.st a w'.st)
    (hs : World.step F w (.lib a n) = some w') (he : a.onEpoll = true)
    (hi : (w.st.co reg.ptr.1).ioWait = some i)
    (hne : ∀ rest, a.isSchedule = true → w.st.queues .ready ≠ reg.ptr.1 :: rest) :
    ∃ j, (w'.st.co reg.ptr.1).ioWait = some j ∧ j.ctx.fd = i.ctx.fd ∧ j.ctx.call = i.ctx.call := by
  have hw := hf.ioWait (World.step_lib hs).2.1 he reg.ptr.1
  rw [hi] at hw
  generalize hj : (w'.st.co reg.ptr.1).ioWait = j at hw
  cases hw with
  | same => exact ⟨i, rfl, rfl, rfl⟩
  | reported ha hev hreg hptr => exact ⟨_, rfl, rfl, rfl⟩
  | expired ha hst hto => exact ⟨_, rfl, rfl, rfl⟩
  | ended ha hq => exact absurd hq (hne _ ha)

section

variable {Q : IoCall → Nat → D → Prop} {On : Int → Prop} (h : Waiting Q On w)
  (hf : Follows w.st a w'.st) (hs : World.step F w (.lib a n) = some w') (he : a.onEpoll = true)
include h hf hs he

theorem Waiting.step_owner (fd : Int) (reg : Registration) (hr : w'.st.epoll fd = some reg) :
    0 ≤ fd ∧ ∃ i, (w'.st.co reg.ptr.1).ioWait = some i ∧ i.ctx.fd = fd ∧
      reg.epollin = i.ctx.call.events.read ∧ reg.epollout = i.ctx.call.events.write := by
  have huser : ∀ c, w.st.coCurrent = some c → (w.st.co c).frame = .user := by
    obtain ⟨g, g', a', hinv, -, -⟩ := id hf
    exact fun c hc => (hinv.user c).mpr hc
  have hold : ∀ reg, w.st.epoll fd = some reg →
      (∀ rest, a.isSchedule = true → w.st.queues .ready ≠ reg.ptr.1 :: rest) →
      0 ≤ fd ∧ ∃ i, (w'.st.co reg.ptr.1).ioWait = some i ∧ i.ctx.fd = fd ∧
        reg.epollin = i.ctx.call.events.read ∧ reg.epollout = i.ctx.call.events.write := by
    intro reg hreg hne
    obtain ⟨h0, i, hi, hfd, hin, hout⟩ := h.owner fd reg hreg
    obtain ⟨j, hj, hjfd, hjcall⟩ := hf.owner_kept hs he hi hne
    exact ⟨h0, j, hj, hjfd.trans hfd, hjcall ▸ hin, hjcall ▸ hout⟩
  rcases step_registrations (World.step_lib hs).2.1 he huser with
    ⟨hep, hnone⟩ | ⟨y, c, rfl, hc, h0, hi, hep⟩ | ⟨c, rest, x, ha, hq, hx, hep⟩
  · rw [hep] at hr
    refine hold reg hr fun rest ha hq => ?_
    obtain ⟨-, i, hi, -⟩ := h.owner fd reg hr
    rw [hnone _ rest ha hq] at hi
    cases hi
  · by_cases hfd : fd = y.fd
    · subst hfd
      rw [hep, Function.update_self, Option.some.injEq] at hr
      subst hr
      exact ⟨h0, _, hi, rfl, rfl, rfl⟩
    · rw [hep, Function.update_of_ne hfd] at hr
      exact hold reg hr fun rest ha => by cases ha
  · have hkept : fd ≠ x.fd ∧ w.st.epoll fd = some reg := by
      rw [hep] at hr
      unfold coIomuxDel at hr
      split at hr
      · rename_i hneg
        have h0 := (h.owner fd reg hr).1
        exact ⟨by omega, hr⟩
      · by_cases hfd : fd = x.fd
        · simp [hfd] at hr
        · exact ⟨hfd, by simpa [hfd] using hr⟩
    refine hold reg hkept.2 fun rest' _ hq' => ?_
    obtain ⟨-, i, hi, hfd, -⟩ := h.owner fd reg hkept.2
    rw [hq] at hq'
    cases hq'
    rw [Routine.ioWait_of_frame hx, Option.some.injEq] at hi
    exact hkept.1 (by rw [← hfd, ← hi])

theorem Waiting.step_untimed (c : Nat) (i : IoWait) (hi : (w'.st.co c).ioWait = some i)
    (hto : i.ctx.timeoutMs < 0) : i.timedOut = false := by
  have hw := hf.ioWait (World.step_lib hs).2.1 he c
  rw [hi] at hw
  generalize hj : (w.st.co c).ioWait = j at hw
  cases hw with
  | same => exact h.untimed c i hj hto
  | began ha hc => rfl
  | @reported i evs ev reg ha hev hreg hptr => exact h.untimed c i hj hto
  | expired ha hst hto' => exact absurd hto (by simpa using hto')

/-- A report is what the kernel says of the descriptor of the wait it is about. -/
theorem Waiting.report_made (hQ : Promise F Q) {evs : List (Int × EpollEvents)}
    {ev : Int × EpollEvents} {reg : Registration} {i : IoWait} (ha : a = .idle (.events evs))
    (hev : ev ∈ evs) (hreg : w.st.epoll ev.1 = some reg) (hi : (w.st.co reg.ptr.1).ioWait = some i)
    (k : Nat) : ev.2.revents.error = true ∨ Q i.ctx.call k (w.files i.ctx.fd) := by
  obtain ⟨hag, -⟩ := World.step_lib hs
  subst ha
  simp only [World.agrees, Bool.and_eq_true, List.all_eq_true] at hag
  have hrep := hag.2 ev hev
  simp only [hreg, Bool.and_eq_true, decide_eq_true_eq] at hrep
  obtain ⟨hmask, hne⟩ := hrep
  obtain ⟨-, j, hj, hfd, hin, hout⟩ := h.owner _ _ hreg
  rw [hi, Option.some.injEq] at hj
  subst hj
  simp only [Files.reported] at hmask
  cases herr : ev.2.revents.error with
  | true => exact .inl rfl
  | false =>
    refine .inr ?_
    simp only [EpollEvents.revents, hmask, Bool.or_eq_false_iff] at herr
    rw [hmask, herr.1, herr.2, hin, hout] at hne
    rw [hfd]
    refine hQ _ _ _ herr.1 herr.2 (fun hr => ?_) fun hr => ?_
    · cases hcall : i.ctx.call <;> simp [hcall, IoCall.events] at hne hr ⊢ <;> exact hne
    · cases hcall : i.ctx.call <;> simp [hcall, IoCall.events] at hne hr ⊢ <;> exact hne

/-- The step that ends a wait other than by its deadline reports what the kernel says. -/
theorem Waiting.wake_mask {i j : IoWait} (hi : (w.st.co c).ioWait = some i)
    (hst : i.state = .waiting) (hj : (w'.st.co c).ioWait = some j) (hst' : j.state = .ready)
    (hto : j.timedOut = false) : j.ctx.revents.error =
      ((F.mask (w.files i.ctx.fd)).epollerr || (F.mask (w.files i.ctx.fd)).epollhup) := by
  obtain ⟨hag, hstep, -⟩ := World.step_lib hs
  have hw := hf.ioWait hstep he c
  rw [hi, hj] at hw
  cases hw with
  | same =>
    rw [hst] at hst'
    cases hst'
  | @reported _ evs ev reg ha hev hreg hptr =>
    subst hptr ha
    obtain ⟨-, k, hk, hfd, -, -⟩ := h.owner _ _ hreg
    rw [hi, Option.some.injEq] at hk
    subst hk
    simp only [World.agrees, Bool.and_eq_true, List.all_eq_true] at hag
    have hrep := hag.2 ev hev
    simp only [hreg, Bool.and_eq_true, decide_eq_true_eq] at hrep
    rw [hfd]
    simp [IoWait.report, EpollEvents.revents, hrep.1, Files.reported]
  | expired ha hw hto' => cases hto

theorem Waiting.step_promised (hQ : Promise F Q)
    (hkeep : ∀ c i, (w.st.co c).ioWait = some i → (w'.st.co c).ioWait = some i → On i.ctx.fd →
      i.state = .ready → i.ctx.revents.error = false → Q i.ctx.call (w.want c) (w.files i.ctx.fd) →
      Q i.ctx.call (w.want c) (w'.files i.ctx.fd))
    (c : Nat) (i : IoWait) (hi : (w'.st.co c).ioWait = some i) (hon : On i.ctx.fd)
    (hst : i.state = .ready) (hto : i.timedOut = false) :
    i.ctx.revents.error = true ∨ Q i.ctx.call (w'.want c) (w'.files i.ctx.fd) := by
  obtain ⟨-, hstep, hfiles, hwant⟩ := World.step_lib hs
  have hw := hf.ioWait hstep he c
  rw [hi] at hw
  generalize hj : (w.st.co c).ioWait = j at hw
  have hsame : ∀ {k}, (w.st.co c).ioWait = some k → w'.want c = w.want c := by
    intro k hk
    rw [hwant]
    exact World.wantAfter_other (hf.not_current hk)
  cases hw with
  | same =>
    rw [hsame hj]
    cases herr : i.ctx.revents.error with
    | true => exact .inl rfl
    | false =>
      have hq := (h.promised c i hj hon hst hto).resolve_left (by simp [herr])
      exact .inr (hkeep c i hj hi hon hst herr hq)
  | began ha hc => cases hst
  | @reported i evs ev reg ha hev hreg hptr =>
    subst hptr
    have hfile : w'.files = w.files := by
      rw [hfiles]
      simp [World.filesAfter, World.sysCall, ha]
    rw [hfile]
    exact h.report_made hf hs he hQ ha hev hreg hj _
  | expired ha hst' hto' => cases hto

theorem Waiting.step (hQ : Promise F Q)
    (hkeep : ∀ c i, (w.st.co c).ioWait = some i → (w'.st.co c).ioWait = some i → On i.ctx.fd →
      i.state = .ready → i.ctx.revents.error = false → Q i.ctx.call (w.want c) (w.files i.ctx.fd) →
      Q i.ctx.call (w.want c) (w'.files i.ctx.fd)) : Waiting Q On w' :=
  ⟨hf.loose, h.step_owner hf hs he, h.step_untimed hf hs he, h.step_promised hf hs he hQ hkeep⟩

end

/-- A peer acts on a descriptor. -/
theorem Waiting.peer {Q : IoCall → Nat → D → Prop} {On : Int → Prop} (h : Waiting Q On w)
    {p : P} (hs : World.step F w (.peer fd p) = some w')
    (hkeep : ∀ c i, (w.st.co c).ioWait = some i → On i.ctx.fd → i.state = .ready →
      i.ctx.revents.error = false → Q i.ctx.call (w.want c) (w.files i.ctx.fd) →
      Q i.ctx.call (w.want c) (w'.files i.ctx.fd)) : Waiting Q On w' := by
  cases hs
  refine ⟨h.loose, h.owner, h.untimed, fun c i hi hon hst hto => ?_⟩
  cases herr : i.ctx.revents.error with
  | true => exact .inl rfl
  | false =>
    have hq := (h.promised c i hi hon hst hto).resolve_left (by simp [herr])
    exact .inr (hkeep c i hi hon hst herr hq)

/-- What no system call and no peer takes from a descriptor stays. -/
theorem World.step_keeps {R : D → Prop} {b : WorldAct P} (hs : World.step F w b = some w')
    (hsys : ∀ call n d, R d → R (F.sys call n d).2) (hso : ∀ d, R d → R (F.soError d).2)
    (hpeer : ∀ p d, R d → R (F.peer p d)) (k : Int) (h : R (w.files k)) : R (w'.files k) := by
  have hupd : ∀ fd d, R d → R (Function.update w.files fd d k) := by
    intro fd d hd
    by_cases hk : k = fd
    · subst hk
      simpa using hd
    · simpa [hk] using h
  cases b with
  | lib a n =>
    rw [(World.step_lib hs).2.2.1, World.filesAfter]
    cases w.sysCall n a with
    | none => exact h
    | some y =>
      by_cases hk : k = y.fd
      · subst hk
        refine hupd _ _ ?_
        unfold Files.answer
        split
        · exact hso _ h
        · exact hsys _ _ _ h
      · simpa [hk] using h
  | peer fd p =>
    cases hs
    by_cases hk : k = fd
    · subst hk
      exact hupd _ _ (hpeer p _ h)
    · simpa [hk] using h

theorem waiting_init {Q : IoCall → Nat → D → Prop} {On : Int → Prop} (cfg : Config)
    (files : Int → D) : Waiting Q On (World.init cfg files) := by
  refine ⟨loose_init cfg, fun fd reg h => ?_, fun c i h => ?_, fun c i h => ?_⟩
  · cases h
  · cases h
  · cases h

/-! ## Returns -/

theorem coWaitIo_ret {s t : St} {x : IoArgs} {r : Ret} (h : coWaitIo s x = .ret r t) :
    ∃ e, r = .code e := by
  unfold coWaitIo at h
  split at h
  · cases h
    exact ⟨_, rfl⟩
  split at h
  · cases h
    exact ⟨_, rfl⟩
  split at h
  · cases h
  · cases h
    exact ⟨_, rfl⟩

/-- How a call returns that does not suspend. -/
theorem coIo_ret {s t : St} {x : IoArgs} {r : Ret} (h : coIo s x = .ret r t) :
    (x.made = false ∧ r = .sys (-1) (some .einval)) ∨
    (x.made = true ∧ x.first ≠ .fail x.call.wouldBlock ∧ r = x.first.ret) ∨
    (x.made = true ∧ ∃ e u, coWaitIo s x = .ret (.code e) u ∧ r = failedWait e) := by
  unfold coIo at h
  split at h
  · rename_i hbad
    cases h
    exact .inl ⟨decide_eq_false (not_not.mpr hbad), rfl⟩
  rename_i hgood
  have hm : x.made = true := decide_eq_true hgood
  split at h
  · rename_i k hfirst
    cases h
    exact .inr (.inl ⟨hm, by simp [hfirst], by simp [hfirst, SysRes.ret]⟩)
  rename_i e hfirst
  split at h
  · refine .inr (.inr ⟨hm, ?_⟩)
    split at h
    · rename_i e' u hu
      cases h
      exact ⟨e', _, hu, rfl⟩
    · rename_i hno
      obtain ⟨e', rfl⟩ := coWaitIo_ret h
      exact absurd h (hno e' t)
  · rename_i hne
    cases h
    exact .inr (.inl ⟨hm, by simpa [hfirst] using hne, by simp [hfirst, SysRes.ret]⟩)

/-- How a call returns that was suspended. -/
theorem resumeIo_ret {s t : St} {x : IoWaitCtx} {again : SysRes} {r : Ret}
    (h : resumeIo s c x again = .ret r t) :
    r = if (s.co c).timedOut then failedWait .timeout
      else if x.revents.error then failedWait .error else again.ret := by
  have hto : ((coIomuxDel s x.fd).co c).timedOut = (s.co c).timedOut := by
    unfold coIomuxDel
    split <;> rfl
  simp only [resumeIo, resumeWaitIo, hto] at h
  cases hc : (s.co c).timedOut with
  | true =>
    simp only [hc, if_true] at h
    cases h
    rfl
  | false =>
    simp only [hc, Bool.false_eq_true, if_false] at h
    cases he : x.revents.error with
    | true =>
      simp only [he, if_true] at h
      cases h
      rfl
    | false =>
      simp only [he, Bool.false_eq_true, if_false] at h
      split at h
      · rename_i hok
        cases h
        rfl
      · rename_i hne hok
        split at hok <;> cases hok <;> exact absurd rfl hne

/-- **Inversion of returns**: a call returns at once, or when it is dispatched after its
wait. -/
theorem World.ioReturn_cases {y : IoReturn} (hy : w.ioReturn n a = some y) :
    (∃ x t, a = .call (.io x) ∧ coIo (beginCall w.st (.io x)) x = .ret y.ret t ∧
      y = ⟨x.call, x.fd, x.timeoutMs, n, y.ret⟩) ∨
    ∃ e c rest i, a = .schedule e ∧ w.st.queues .ready = c :: rest ∧
      (w.st.co c).ioWait = some i ∧
      y = ⟨i.ctx.call, i.ctx.fd, i.ctx.timeoutMs, w.want c, y.ret⟩ ∧
      y.ret = if i.timedOut then failedWait .timeout
        else if i.ctx.revents.error then failedWait .error else e.again.ret := by
  unfold World.ioReturn at hy
  split at hy
  · rename_i x
    split at hy
    · rename_i r t ho
      cases hy
      exact .inl ⟨x, t, rfl, ho, rfl⟩
    · cases hy
  · rename_i e
    split at hy
    · cases hy
    rename_i c rest hq
    split at hy
    swap
    · cases hy
    rename_i x hx
    split at hy
    · rename_i r t ho
      cases hy
      refine .inr ⟨e, c, rest, _, rfl, hq, Routine.ioWait_of_frame hx, rfl, ?_⟩
      have hr := resumeIo_ret ho
      simpa [switchTo, St.modify, St.emit] using hr
    · cases hy
  · cases hy

/-- Whoever is dispatched in an I/O wait returns from its call. -/
theorem World.ioReturn_schedule (r : ResumeEnv) {rest : List Nat} {i : IoWait}
    (hq : w.st.queues .ready = c :: rest) (hi : (w.st.co c).ioWait = some i) :
    ∃ y, w.ioReturn n (.schedule r) = some y := by
  have hret : ∀ s, ∃ v t, resumeIo s c i.ctx r.again = .ret v t := by
    intro s
    unfold resumeIo
    split <;> exact ⟨_, _, rfl⟩
  obtain ⟨v, t, ht⟩ := hret
    (switchTo { w.st with queues := Function.update w.st.queues .ready rest } c)
  simp only [World.ioReturn, hq, (Routine.ioWait_eq_some hi).1, ht]
  exact ⟨_, rfl⟩

/-- The repeated system call of a wait that ended well is answered by its descriptor. -/
theorem World.agrees_again {e : ResumeEnv} {rest : List Nat} {i : IoWait}
    (hag : w.agrees F (.schedule e) n = true) (hq : w.st.queues .ready = c :: rest)
    (hi : (w.st.co c).ioWait = some i) (hto : i.timedOut = false)
    (herr : i.ctx.revents.error = false) :
    w.sysCall n (.schedule e) = some ⟨i.ctx.call, i.ctx.fd, w.want c, true, e.again⟩ ∧
      e.again = (F.answer ⟨i.ctx.call, i.ctx.fd, w.want c, true, e.again⟩
        (w.files i.ctx.fd)).1 := by
  obtain ⟨hf, -, hto'⟩ := Routine.ioWait_eq_some hi
  have hsys : w.sysCall n (.schedule e) =
      some ⟨i.ctx.call, i.ctx.fd, w.want c, true, e.again⟩ := by
    simp [World.sysCall, hq, hf, hto', hto, herr]
  refine ⟨hsys, ?_⟩
  simp only [World.agrees, hsys, Bool.and_true, decide_eq_true_eq] at hag
  exact hag

theorem SysRes.ret_eq_fail {r : SysRes} {e : Errno} :
    r.ret = .sys (-1) (some e) ↔ r = .fail e := by
  cases r <;> simp [SysRes.ret]

theorem failedWait_eq (e : CoError) :
    failedWait e = .sys (-1) (some .etimedout) ∨ failedWait e = .sys (-1) (some .eio) := by
  unfold failedWait
  split
  · exact .inl rfl
  · exact .inr rfl

theorem failedWait_ne (e : CoError) : failedWait e ≠ .sys (-1) (some .eagain) := by
  rcases failedWait_eq e with h | h <;> simp [h]

/-- The head of the ready queue has been woken. -/
theorem Loose.head_ready {s : St} {rest : List Nat} {i : IoWait} (hL : Loose s)
    (hq : s.queues .ready = c :: rest) (hi : (s.co c).ioWait = some i) : i.state = .ready := by
  obtain ⟨h, cur, hinv, -⟩ := hL
  rw [← (Routine.ioWait_eq_some hi).2.1]
  exact (hinv.ready_fields hq).1

end Libco
