import Libco.Descriptors

/-!
# Repeated system calls

A coroutine that has waited for a descriptor repeats its system call once. Whether that
agrees with a call that did not have to wait depends on what happened in between:

* `would_block_hidden`: `EAGAIN` stays hidden as long as nobody uses up what another
  coroutine was woken for;
* `suspended_read_agrees_iff`: the sole reader of a descriptor gets what `read` gives,
  unless its wait ended with `EPOLLERR` or `EPOLLHUP`;
* `connect_error_iff`: an attempt to connect that fails during the wait is reported as
  `EIO`, whatever the error was.
-/

namespace Libco
open Lib

variable {D P : Type} {F : Files D P} {w w' : World D} {a : Act} {n c : Nat} {fd : Int}

/-! ## Would-block -/

/-- The I/O calls are those of the epoll backend and have no deadline. -/
def WorldAct.untimed : WorldAct P → Bool
  | .lib (.call (.io x)) _ => x.timeoutMs < 0
  | .lib (.call (.ioAsync _)) _ => false
  | _ => true

/-- Those in the ready queue whom the step does not dispatch. -/
def bystanders (s : St) : WorldAct P → List Nat
  | .lib (.schedule _) _ => (s.queues .ready).tail
  | _ => s.queues .ready

/-- The descriptors after a step. -/
def World.filesNext (F : Files D P) (w : World D) : WorldAct P → Int → D
  | .lib a n => w.filesAfter F a n
  | .peer fd p => Function.update w.files fd (F.peer p (w.files fd))

/-- The step, a system call or an action of a peer, uses up what a coroutine was woken for
that still waits in the ready queue. -/
def World.usesUp (F : Files D P) (w : World D) (b : WorldAct P) : Bool :=
  (bystanders w.st b).any fun c =>
    match (w.st.co c).frame with
    | .waitIo x =>
      decide (x.call ≠ .connect) && !x.revents.error &&
        !F.blocks x.call (w.want c) (w.files x.fd) &&
        F.blocks x.call (w.want c) (w.filesNext F b x.fd)
    | _ => false

theorem World.step_filesNext {b : WorldAct P} (hs : World.step F w b = some w') :
    w'.files = w.filesNext F b := by
  cases b with
  | lib a n => exact (World.step_lib hs).2.2.1
  | peer fd p =>
    cases hs
    rfl

/-- No wait has a deadline. -/
structure Untimed (s : St) : Prop where
  placed : Placed False s
  epoll : EpollWaits s
  untimed : ∀ c i, (s.co c).ioWait = some i → i.ctx.timeoutMs < 0

theorem WorldAct.untimed_onEpoll (h : WorldAct.untimed (P := P) (.lib a n) = true) :
    a.onEpoll = true := by
  cases a with
  | call op => cases op <;> first | rfl | cases h
  | _ => rfl

theorem Untimed.leaks {s : St} (h : Untimed s)
    (hu : WorldAct.untimed (P := P) (.lib a n) = true) : leaks s a = false := by
  cases a with
  | schedule e =>
    simp only [Libco.leaks]
    split
    · rfl
    rename_i c rest hq
    by_contra hleak
    simp only [Bool.not_eq_false, Bool.and_eq_true, List.contains_iff_mem] at hleak
    obtain ⟨herr, hm⟩ := hleak
    have hio : (s.co c).frame.isIo = true := by
      cases hf : (s.co c).frame <;> simp [Routine.errorExit, hf, Frame.isIo] at herr ⊢
    obtain ⟨i, hi⟩ := h.epoll c hio
    have ht := (h.placed.timersValid.current c hm).1
    have hneg := h.untimed c i hi
    rw [(Routine.ioWait_eq_some hi).1, Frame.timed, decide_eq_true_eq] at ht
    omega
  | call op =>
    cases op with
    | io x =>
      simp only [WorldAct.untimed, decide_eq_true_eq] at hu
      simp [Libco.leaks, arms, Int.not_le.mpr hu]
    | ioAsync x => cases hu
    | _ => rfl
  | _ => rfl

theorem Placed.follows {s s' : St} (hp : Placed False s) (hl : leaks s a = false)
    (hs : Libco.step s a = some s') : Follows s a s' := by
  have hi : Inv False s.coCurrent (s.withHeap s.timerHeap).toSched := hp.current hs
  have hs' : Libco.step (s.withHeap s.timerHeap) a = some (s'.withHeap s'.timerHeap) := hs
  exact follows_step hi hl hs' (.inl rfl)

theorem Untimed.step {s s' : St} (h : Untimed s)
    (hu : WorldAct.untimed (P := P) (.lib a n) = true) (hs : Libco.step s a = some s') :
    Untimed s' := by
  have hl := h.leaks hu
  have he := WorldAct.untimed_onEpoll hu
  have hf := h.placed.follows hl hs
  refine ⟨h.placed.step (fun h => h.elim) hl hs, h.epoll.step hf hs he, fun c i hi => ?_⟩
  have hw := hf.ioWait hs he c
  rw [hi] at hw
  generalize hj : (s.co c).ioWait = j at hw
  cases hw with
  | same => exact h.untimed c i hj
  | began ha hc =>
    subst ha
    simpa [WorldAct.untimed, IoArgs.ctx] using hu
  | @reported i evs ev reg ha hev hreg hptr => exact h.untimed c i hj
  | @expired i ha hst hto => exact h.untimed c i hj

theorem untimed_init (cfg : Config) : Untimed (Libco.init cfg) := by
  refine ⟨placed_init cfg, fun c h => ?_, fun c i h => ?_⟩
  · cases h
  · cases h

/-- Whoever is woken is in the ready queue. -/
theorem Loose.mem_ready {s : St} {i : IoWait} (hL : Loose s) (hi : (s.co c).ioWait = some i)
    (hst : i.state = .ready) : c ∈ s.queues .ready := by
  obtain ⟨h, cur, hinv, -⟩ := hL
  obtain ⟨hf, hst', -⟩ := Routine.ioWait_eq_some hi
  have hhome : ((s.withHeap h).co c).home = some .ready := by
    simp [Routine.home, hf, hst', hst, Frame.suspended]
  exact hinv.mem_of_home hhome

/-- Whoever is woken and keeps waiting is a bystander of the step. -/
theorem mem_bystanders {b : WorldAct P} {i : IoWait} (hL : Loose w.st) (hE : EpollWaits w.st)
    (hs : World.step F w b = some w') (hi : (w.st.co c).ioWait = some i) (hst : i.state = .ready)
    (hi' : (w'.st.co c).ioWait = some i) : c ∈ bystanders w.st b := by
  have hmem := hL.mem_ready hi hst
  unfold bystanders
  split
  swap
  · exact hmem
  rename_i e n
  have hstep := (step_schedule (World.step_lib hs).2.1).2
  cases hq : w.st.queues .ready with
  | nil =>
    rw [hq] at hmem
    cases hmem
  | cons d rest =>
    have hio : ((coSchedulerSchedule w.st e).co c).frame.isIo = true := by
      rw [← hstep, (Routine.ioWait_eq_some hi').1]
      rfl
    have hne := (schedule_isIo hq (hE.not_async d) hio).1
    rw [hq] at hmem
    exact (List.mem_cons.mp hmem).resolve_left hne

/-- What holds in the runs without deadlines in which nobody's readiness is used up. -/
structure Supplied (F : Files D P) (w : World D) : Prop where
  st : Untimed w.st
  waiting : Waiting F.Servable (fun _ => True) w

theorem Supplied.keeps {b : WorldAct P} (h : Supplied F w) (hk : w.usesUp F b = false)
    (hs : World.step F w b = some w') {i : IoWait} (hi : (w.st.co c).ioWait = some i)
    (hi' : (w'.st.co c).ioWait = some i) (hst : i.state = .ready)
    (herr : i.ctx.revents.error = false)
    (hq : F.Servable i.ctx.call (w.want c) (w.files i.ctx.fd)) :
    F.Servable i.ctx.call (w.want c) (w'.files i.ctx.fd) := by
  intro hne
  have hm := mem_bystanders h.waiting.loose h.st.epoll hs hi hst hi'
  simp only [World.usesUp, List.any_eq_false] at hk
  have hc := hk c hm
  simp only [(Routine.ioWait_eq_some hi).1, herr, hq hne, Bool.not_false, Bool.and_true,
    Bool.and_eq_true, decide_eq_true_eq, not_and, Bool.not_eq_true] at hc
  rw [World.step_filesNext hs]
  exact hc hne

theorem Supplied.step {b : WorldAct P} (h : Supplied F w) (hF : F.LevelTriggered)
    (hu : b.untimed = true) (hk : w.usesUp F b = false) (hs : World.step F w b = some w') :
    Supplied F w' := by
  cases b with
  | lib a n =>
    obtain ⟨-, hstep, -, -⟩ := World.step_lib hs
    have hf := h.st.placed.follows (h.st.leaks hu) hstep
    refine ⟨h.st.step hu hstep, h.waiting.step hf hs (WorldAct.untimed_onEpoll hu) hF.promise ?_⟩
    intro c i hi hi' _ hst herr hq
    exact h.keeps hk hs hi hi' hst herr hq
  | peer fd p =>
    have hst' : w'.st = w.st := by
      cases hs
      rfl
    refine ⟨by rw [hst']; exact h.st, h.waiting.peer hs ?_⟩
    intro c i hi _ hst herr hq
    exact h.keeps hk hs hi (by rw [hst']; exact hi) hst herr hq

/-- No `co_read`, `co_write` or `co_accept` that returns in the next step fails with
`EAGAIN`. -/
def World.HidesWouldBlock (F : Files D P) (w : World D) : Prop :=
  ∀ a n w' y, World.step F w (.lib a n) = some w' → w.ioReturn n a = some y →
    y.call ≠ .connect → y.ret ≠ .sys (-1) (some .eagain)

/-- **Would-block stays hidden** while nobody uses up what another was woken for. -/
theorem would_block_hidden (hF : F.LevelTriggered) {cfg : Config} {files : Int → D}
    (hr : Reach (World.step F) (fun w b => (b.untimed && !w.usesUp F b) = true)
      (World.init cfg files) w) : w.HidesWouldBlock F := by
  have hsup : Supplied F w := by
    refine hr.invariant ⟨untimed_init cfg, waiting_init cfg files⟩ ?_
    intro w b w' h hg hs
    simp only [Bool.and_eq_true, Bool.not_eq_true'] at hg
    exact h.step hF hg.1 hg.2 hs
  intro a n w' y hs hy hcall
  obtain ⟨hag, hstep, -, -⟩ := World.step_lib hs
  rcases World.ioReturn_cases hy with ⟨x, t, rfl, ho, hyx⟩ | ⟨e, c, rest, i, rfl, hq, hi, hyi, hret⟩
  · rw [hyx] at hcall
    have hwould : x.call.wouldBlock = .eagain := by
      cases hc : x.call <;> simp [hc, IoCall.wouldBlock] at hcall ⊢
    rcases coIo_ret ho with ⟨-, hret⟩ | ⟨-, hne, hret⟩ | ⟨-, e, u, -, hret⟩
    · simp [hret]
    · rw [hret, ne_eq, SysRes.ret_eq_fail, ← hwould]
      exact hne
    · rw [hret]
      exact failedWait_ne e
  · rw [hyi] at hcall
    have hto := hsup.waiting.untimed c i hi (hsup.st.untimed c i hi)
    have hst := hsup.waiting.loose.head_ready hq hi
    rw [hret, hto]
    cases herr : i.ctx.revents.error with
    | true => exact failedWait_ne _
    | false =>
      have hans := (World.agrees_again hag hq hi hto herr).2
      have hserv := (hsup.waiting.promised c i hi trivial hst hto).resolve_left (by simp [herr])
      have hcall' : i.ctx.call ≠ .connect := hcall
      simp only [Bool.false_eq_true, if_false, ne_eq, SysRes.ret_eq_fail]
      rw [hans]
      simp only [Files.answer, hcall', and_false, if_false]
      simpa [Files.blocks] using hserv hcall'

/-- One coroutine waits in `co_accept`, another in `co_read`; both are woken, and the reader
is dispatched. -/
def twoWokenRun : List (WorldAct Peer) :=
  libRun ([spawnOk, spawnOk, .run] ++ turn ++ [ioCall .accept 5 (.fail .eagain)] ++ turn ++
    [ioCall .read 6 (.fail .eagain)]) ++ [WorldAct.peer 5 (.arrive 9), .peer 6 (.send [1])] ++
  libRun (pollTurn [(6, ⟨true, false, false, false⟩), (5, ⟨true, false, false, false⟩)] ++
    [Act.schedule ⟨.done 1⟩])

/-- The reader finishes, and the acceptor gets its connection. -/
theorem would_block_hidden_acceptor :
    ∃ w, runGuarded (World.step desc) (fun w b => b.untimed && !w.usesUp desc b)
        (World.init (byteConfig 0) idleFiles) (twoWokenRun ++ libRun [.finish, .timers 0]) = some w ∧
      (World.step desc w (.lib (.schedule ⟨.done 9⟩) 4)).isSome = true ∧
      w.ioReturn 4 (.schedule ⟨.done 9⟩) = some ⟨.accept, 5, -1, 4, .sys 9 none⟩ ∧
      w.HidesWouldBlock desc := by
  have hrun : (runGuarded (World.step desc) (fun w b => b.untimed && !w.usesUp desc b)
      (World.init (byteConfig 0) idleFiles) (twoWokenRun ++ libRun [.finish, .timers 0])).map
      (fun w => ((World.step desc w (.lib (.schedule ⟨.done 9⟩) 4)).isSome,
        w.ioReturn 4 (.schedule ⟨.done 9⟩))) =
      some (true, some ⟨.accept, 5, -1, 4, .sys 9 none⟩) := by
    decide +kernel
  obtain ⟨w, hw, he⟩ := Option.map_eq_some_iff.mp hrun
  simp only [Prod.mk.injEq] at he
  exact ⟨w, hw, he.1, he.2, would_block_hidden desc_levelTriggered (reach_of_runGuarded hw)⟩

/-- The reader accepts the connection before it finishes, and the acceptor returns
`EAGAIN`. -/
theorem would_block_surfaces :
    ∃ w, Reach (World.step desc) (fun _ b => b.untimed = true)
        (World.init (byteConfig 0) idleFiles) w ∧
      (World.step desc w (.lib (.schedule ⟨.fail .eagain⟩) 4)).isSome = true ∧
      w.ioReturn 4 (.schedule ⟨.fail .eagain⟩) =
        some ⟨.accept, 5, -1, 4, .sys (-1) (some .eagain)⟩ ∧
      ¬ w.HidesWouldBlock desc := by
  have hrun : (runGuarded (World.step desc) (fun _ b => b.untimed)
      (World.init (byteConfig 0) idleFiles)
      (twoWokenRun ++ libRun [ioCall .accept 5 (.done 9), .finish, .timers 0])).map
      (fun w => ((World.step desc w (.lib (.schedule ⟨.fail .eagain⟩) 4)).isSome,
        w.ioReturn 4 (.schedule ⟨.fail .eagain⟩))) =
      some (true, some ⟨.accept, 5, -1, 4, .sys (-1) (some .eagain)⟩) := by
    decide +kernel
  obtain ⟨w, hw, he⟩ := Option.map_eq_some_iff.mp hrun
  simp only [Prod.mk.injEq] at he
  refine ⟨w, reach_of_runGuarded hw, he.1, he.2, fun hides => ?_⟩
  obtain ⟨w', hs⟩ := Option.isSome_iff_exists.mp he.1
  exact hides _ _ w' _ hs he.2 (by decide) rfl

/-! ## Calm runs -/

/-- Calls are those of the epoll backend, and no left-over timer takes a coroutine out of a
wait. -/
def World.calm (w : World D) : WorldAct P → Bool
  | .lib a _ => a.onEpoll && harmlessAct w.st a
  | .peer _ _ => true

theorem World.calm_onEpoll (hg : w.calm (P := P) (.lib a n) = true) : a.onEpoll = true := by
  simp only [World.calm, Bool.and_eq_true] at hg
  exact hg.1

theorem Waiting.follows {Q : IoCall → Nat → D → Prop} {On : Int → Prop} (h : Waiting Q On w)
    (hg : w.calm (P := P) (.lib a n) = true) (hs : World.step F w (.lib a n) = some w') :
    Follows w.st a w'.st := by
  simp only [World.calm, Bool.and_eq_true] at hg
  exact h.loose.follows hg.1 hg.2 (World.step_lib hs).2.1

/-! ## A sole reader -/

/-- The coroutine is in an I/O wait on the descriptor. -/
def waitsOn (s : St) (fd : Int) (c : Nat) : Bool :=
  match (s.co c).frame with
  | .waitIo x => x.fd = fd
  | _ => false

/-- Calls on `fd` are made by coroutines with acceptable arguments, one at a time, and
`epoll_ctl` accepts their registration; the rest of the run is calm. -/
def World.soleUse (fd : Int) (w : World D) (b : WorldAct P) : Bool :=
  w.calm b &&
  match b with
  | .lib (.call (.io x)) _ => x.fd ≠ fd || (x.made && x.ctlOk && w.st.coCurrent.isSome &&
      (List.range w.st.nextId).all fun c => !waitsOn w.st fd c)
  | _ => true

theorem waitsOn_of_ioWait {s : St} {i : IoWait} (hi : (s.co c).ioWait = some i) :
    waitsOn s i.ctx.fd c = true := by
  simp [waitsOn, (Routine.ioWait_eq_some hi).1]

/-- `fd` is a pipe or a stream socket, at most one coroutine waits on it, and the kernel
knows it. -/
structure SoleUser (F : Files D P) (stream : D → Prop) (fd : Int) (w : World D) : Prop where
  carries : stream (w.files fd)
  waiting : Waiting (F.Readable stream) (fun d => d = fd) w
  epoll : EpollWaits w.st
  alone : ∀ c d i j, (w.st.co c).ioWait = some i → (w.st.co d).ioWait = some j →
    i.ctx.fd = fd → j.ctx.fd = fd → c = d
  registered : ∀ c i, (w.st.co c).ioWait = some i → i.ctx.fd = fd →
    ∃ k, w.st.epoll fd = some ⟨i.ctx.call.events.read, i.ctx.call.events.write, (c, k)⟩

theorem World.soleUse_calm {b : WorldAct P} (hg : w.soleUse fd b = true) : w.calm b = true := by
  unfold World.soleUse at hg
  rw [Bool.and_eq_true] at hg
  exact hg.1

theorem World.soleUse_onEpoll (hg : w.soleUse (P := P) fd (.lib a n) = true) :
    a.onEpoll = true :=
  World.calm_onEpoll (World.soleUse_calm hg)

section

variable {stream : D → Prop} (h : SoleUser F stream fd w) (hg : w.soleUse (P := P) fd (.lib a n) = true)
  (hs : World.step F w (.lib a n) = some w')
include h hg

/-- Nobody waits on the descriptor when a call on it is made. -/
theorem SoleUser.free {x : IoArgs} (ha : a = .call (.io x)) (hfd : x.fd = fd) {i : IoWait}
    (hi : (w.st.co c).ioWait = some i) : i.ctx.fd ≠ fd := by
  subst ha
  obtain ⟨g, cur, hinv, -⟩ := h.waiting.loose
  have hlt : c < w.st.nextId := by
    refine hinv.lt_nextId (s := (w.st.withHeap g).toSched) fun hab => ?_
    have hf : (w.st.co c).frame = .absent := hab
    rw [(Routine.ioWait_eq_some hi).1] at hf
    cases hf
  simp only [World.soleUse, hfd, ne_eq, not_true_eq_false, decide_false, Bool.false_or,
    Bool.and_eq_true, List.all_eq_true, List.mem_range, Bool.not_eq_true'] at hg
  intro hifd
  have hno := hg.2.2 c hlt
  rw [← hifd, waitsOn_of_ioWait hi] at hno
  cases hno

include hs

theorem SoleUser.follows : Follows w.st a w'.st :=
  h.waiting.follows (World.soleUse_calm hg) hs

/-- A wait on the descriptor began in this step, or was there before. -/
theorem SoleUser.wait_before {j : IoWait} (hj : (w'.st.co c).ioWait = some j)
    (hfd : j.ctx.fd = fd) :
    (∃ i, (w.st.co c).ioWait = some i ∧ i.ctx.fd = fd ∧ i.ctx.call = j.ctx.call) ∨
      ∃ y, a = .call (.io y) ∧ y.fd = fd ∧ w.st.coCurrent = some c ∧ j.ctx = y.ctx := by
  have hw := (h.follows hg hs).ioWait (World.step_lib hs).2.1 (World.soleUse_onEpoll hg) c
  rw [hj] at hw
  generalize hi : (w.st.co c).ioWait = i at hw
  cases hw with
  | same => exact .inl ⟨j, rfl, hfd, rfl⟩
  | @began y ha hc => exact .inr ⟨y, ha, hfd, hc, rfl⟩
  | @reported i evs ev reg ha hev hreg hptr => exact .inl ⟨i, rfl, hfd, rfl⟩
  | @expired i ha hst hto => exact .inl ⟨i, rfl, hfd, rfl⟩

/-- The one who waits on the descriptor is not dispatched if it goes on waiting. -/
theorem SoleUser.not_dispatched {d : Nat} {rest : List Nat} {i j k : IoWait}
    (ha : a.isSchedule = true) (hq : w.st.queues .ready = d :: rest)
    (hd : (w.st.co d).ioWait = some j) (hi : (w.st.co c).ioWait = some i) (hifd : i.ctx.fd = fd)
    (hi' : (w'.st.co c).ioWait = some k) : j.ctx.fd ≠ fd := by
  intro hjfd
  cases a <;> simp only [Act.isSchedule, Bool.false_eq_true] at ha
  rename_i e
  have hstep := (step_schedule (World.step_lib hs).2.1).2
  have hio : ((coSchedulerSchedule w.st e).co c).frame.isIo = true := by
    rw [← hstep, (Routine.ioWait_eq_some hi').1]
    rfl
  exact (schedule_isIo hq (h.epoll.not_async d) hio).1 (h.alone c d i j hi hd hifd hjfd)

theorem SoleUser.step_alone (c d : Nat) (i j : IoWait) (hi : (w'.st.co c).ioWait = some i)
    (hj : (w'.st.co d).ioWait = some j) (hifd : i.ctx.fd = fd) (hjfd : j.ctx.fd = fd) : c = d := by
  rcases h.wait_before hg hs hi hifd with ⟨i₀, hi₀, hf₀, -⟩ | ⟨y, ha, hy, hc, -⟩
  · rcases h.wait_before hg hs hj hjfd with ⟨j₀, hj₀, hg₀, -⟩ | ⟨y, ha, hy, hd, -⟩
    · exact h.alone c d i₀ j₀ hi₀ hj₀ hf₀ hg₀
    · exact absurd hf₀ (h.free hg ha hy hi₀)
  · rcases h.wait_before hg hs hj hjfd with ⟨j₀, hj₀, hg₀, -⟩ | ⟨y', -, -, hd, -⟩
    · exact absurd hg₀ (h.free hg ha hy hj₀)
    · rw [hc, Option.some.injEq] at hd
      exact hd

theorem SoleUser.step_registered (c : Nat) (j : IoWait) (hj : (w'.st.co c).ioWait = some j)
    (hfd : j.ctx.fd = fd) :
    ∃ k, w'.st.epoll fd = some ⟨j.ctx.call.events.read, j.ctx.call.events.write, (c, k)⟩ := by
  obtain ⟨-, hstep, -⟩ := World.step_lib hs
  have huser : ∀ c, w.st.coCurrent = some c → (w.st.co c).frame = .user := by
    obtain ⟨g, g', a', hinv, -, -⟩ := h.follows hg hs
    exact fun c hc => (hinv.user c).mpr hc
  rcases h.wait_before hg hs hj hfd with ⟨i, hi, hifd, hcall⟩ | ⟨y, rfl, hy, hc, hctx⟩
  · obtain ⟨k, hk⟩ := h.registered c i hi hifd
    rw [hcall] at hk
    refine ⟨k, ?_⟩
    rw [← hk]
    rcases step_registrations hstep (World.soleUse_onEpoll hg) huser with
      ⟨hep, -⟩ | ⟨y, d, ha, -, -, -, hep⟩ | ⟨d, rest, x, ha, hq, hx, hep⟩
    · rw [hep]
    · have hne : fd ≠ y.fd := fun hy => h.free hg ha hy.symm hi hifd
      rw [hep, Function.update_of_ne hne]
    · have hne : x.fd ≠ fd :=
        h.not_dispatched hg hs ha hq (Routine.ioWait_of_frame hx) hi hifd hj
      rw [hep]
      unfold coIomuxDel
      split
      · rfl
      · exact Function.update_of_ne hne.symm _ _
  · rcases step_io_cases hc (huser c hc) hstep with ⟨hu, -⟩ | ⟨-, -, hep⟩
    · rw [(Routine.ioWait_eq_some hj).1] at hu
      cases hu
    · exact ⟨w.st.calls, by rw [hep, hctx, ← hy, Function.update_self]; rfl⟩

/-- Nobody touches the descriptor while its user waits. -/
theorem SoleUser.files_kept {i j : IoWait} (hi : (w.st.co c).ioWait = some i)
    (hfd : i.ctx.fd = fd) (hi' : (w'.st.co c).ioWait = some j) : w'.files fd = w.files fd := by
  obtain ⟨-, -, hfiles, -⟩ := World.step_lib hs
  rw [hfiles, World.filesAfter]
  cases hy : w.sysCall n a with
  | none => rfl
  | some y =>
    refine Function.update_of_ne (fun hyfd => ?_) _ _
    unfold World.sysCall at hy
    split at hy
    · rename_i x
      split at hy
      · cases hy
        exact h.free hg rfl hyfd.symm hi hfd
      · cases hy
    · split at hy
      · cases hy
      rename_i d rest hq
      split at hy
      swap
      · cases hy
      rename_i x hx
      split at hy
      · cases hy
      · cases hy
        exact h.not_dispatched hg hs rfl hq (Routine.ioWait_of_frame hx) hi hfd hi' hyfd.symm
    · cases hy

theorem SoleUser.step (hF : F.Streams stream) : SoleUser F stream fd w' := by
  have hf := h.follows hg hs
  have he := World.soleUse_onEpoll hg
  refine ⟨World.step_keeps hs hF.sys hF.soError hF.peer fd h.carries,
    h.waiting.step hf hs he hF.promise ?_, h.epoll.step hf (World.step_lib hs).2.1 he,
    h.step_alone hg hs, h.step_registered hg hs⟩
  intro c i hi hi' hfd _ _ hq
  rw [hfd] at hq ⊢
  rw [h.files_kept hg hs hi hfd hi']
  exact hq

end

theorem SoleUser.peer {stream : D → Prop} (h : SoleUser F stream fd w) (hF : F.Streams stream)
    {d : Int} {p : P} (hs : World.step F w (.peer d p) = some w') : SoleUser F stream fd w' := by
  have hst' : w'.st = w.st := by
    cases hs
    rfl
  refine ⟨World.step_keeps hs hF.sys hF.soError hF.peer fd h.carries, h.waiting.peer hs ?_,
    by rw [hst']; exact h.epoll, by rw [hst']; exact h.alone, by rw [hst']; exact h.registered⟩
  intro c i _ hfd _ _ hq hread _
  have hstream : stream (w.files i.ctx.fd) := by
    rw [hfd]
    exact h.carries
  have hnow := hq hread hstream
  cases hs
  by_cases hd : i.ctx.fd = d
  · subst hd
    simpa using hF.stays _ p _ hstream hnow
  · simpa [hd] using hnow

theorem soleUser_init {stream : D → Prop} (cfg : Config) {files : Int → D}
    (hfd : stream (files fd)) : SoleUser F stream fd (World.init cfg files) := by
  refine ⟨hfd, waiting_init cfg files, fun c h => ?_, fun c d i j h => ?_, fun c i h => ?_⟩
  · cases h
  · cases h
  · cases h

/-- The value a system call or an API call returns. -/
def SysRes.value : SysRes → Int
  | .done n => n
  | .fail _ => -1
def Ret.value : Ret → Int
  | .sys n _ => n
  | .code _ => -1

/-- What `read` answers now, with the buffer of a call. -/
def World.readAnswer (F : Files D P) (w : World D) (y : IoReturn) : SysRes :=
  (F.sys .read y.count (w.files y.fd)).1

/-- `co_read` returns what `read` does, and that is not `EAGAIN`. -/
def World.ReadAgrees (F : Files D P) (w : World D) (y : IoReturn) : Prop :=
  w.readAnswer F y ≠ .fail .eagain ∧ y.ret.value = (w.readAnswer F y).value

/-- The event that ended the wait of the coroutine now dispatched had `EPOLLERR` or
`EPOLLHUP`. -/
def World.hungUp (w : World D) : Act → Bool
  | .schedule _ =>
    match w.st.queues .ready with
    | [] => false
    | c :: _ =>
      match (w.st.co c).frame with
      | .waitIo x => x.revents.error
      | _ => false
  | _ => false

/-- A proper call that returns at once returns the answer of its system call. -/
theorem World.soleUse_at_once {x : IoArgs} {t : St} {r : Ret}
    (hg : w.soleUse (P := P) x.fd (.lib (.call (.io x)) n) = true)
    (hag : w.agrees F (.call (.io x)) n = true) (hto : x.timeoutMs < 0)
    (ho : coIo (beginCall w.st (.io x)) x = .ret r t) :
    x.first ≠ .fail x.call.wouldBlock ∧ r = x.first.ret ∧
      x.first = (F.sys x.call n (w.files x.fd)).1 := by
  simp only [World.soleUse, ne_eq, not_true_eq_false, decide_false, Bool.false_or,
    Bool.and_eq_true] at hg
  obtain ⟨-, ⟨⟨hm, hctl⟩, hcur⟩, -⟩ := hg
  have hans : x.first = (F.sys x.call n (w.files x.fd)).1 := by
    simpa [World.agrees, World.sysCall, hm, Files.answer] using hag
  rcases coIo_ret ho with ⟨hm', -⟩ | ⟨-, hne, hret⟩ | ⟨-, e, u, hu, -⟩
  · rw [hm] at hm'
    cases hm'
  · exact ⟨hne, hret, hans⟩
  · obtain ⟨c, hc⟩ := Option.isSome_iff_exists.mp hcur
    rcases coWaitIo_cases x ((beginCall_coCurrent w.st (.io x)).trans hc) with
      ⟨-, -, -, -, -, hno⟩ | ⟨v, hv, -⟩
    · rw [hno hto] at hctl
      cases hctl
    · rw [hu] at hv
      cases hv

/-- How `co_read` returns: with the answer of `read`, or with `EIO` after a hang-up. -/
theorem SoleUser.read_returns {stream : D → Prop} (h : SoleUser F stream fd w)
    (hg : w.soleUse (P := P) fd (.lib a n) = true) (hs : World.step F w (.lib a n) = some w')
    {y : IoReturn} (hy : w.ioReturn n a = some y) (hcall : y.call = .read) (hfd : y.fd = fd)
    (hto : y.timeoutMs < 0) :
    (w.hungUp a = false ∧ w.readAnswer F y ≠ .fail .eagain ∧ y.ret = (w.readAnswer F y).ret) ∨
      (w.hungUp a = true ∧ y.ret = failedWait .error) := by
  obtain ⟨hag, -, -, -⟩ := World.step_lib hs
  rcases World.ioReturn_cases hy with ⟨x, t, rfl, ho, hyx⟩ | ⟨e, c, rest, i, rfl, hq, hi, hyi, hret⟩
  · rw [hyx] at hcall hfd hto
    have hcall' : x.call = .read := hcall
    subst hfd
    obtain ⟨hne, hret, hans⟩ := World.soleUse_at_once hg hag hto ho
    have hread : w.readAnswer F y = x.first := by
      rw [hans, hyx, hcall']
      rfl
    rw [hcall', ← hread] at hne
    rw [← hread] at hret
    exact .inl ⟨rfl, hne, hret⟩
  · rw [hyi] at hcall hfd hto
    have hcall' : i.ctx.call = .read := hcall
    have hup : w.hungUp (.schedule e) = i.ctx.revents.error := by
      simp [World.hungUp, hq, (Routine.ioWait_eq_some hi).1]
    have hout := h.waiting.untimed c i hi hto
    rw [hup]
    simp only [hout, Bool.false_eq_true, if_false] at hret
    cases herr : i.ctx.revents.error with
    | true =>
      rw [herr] at hret
      exact .inr ⟨rfl, hret⟩
    | false =>
      have hans := (World.agrees_again hag hq hi hout herr).2
      have hst := h.waiting.loose.head_ready hq hi
      have hserv := (h.waiting.promised c i hi hfd hst hout).resolve_left (by simp [herr])
      have hstream : stream (w.files i.ctx.fd) := by
        rw [show i.ctx.fd = fd from hfd]
        exact h.carries
      have hread : w.readAnswer F y = e.again := by
        rw [hans, hyi, World.readAnswer, Files.answer, hcall']
        simp
      have hne : w.readAnswer F y ≠ .fail .eagain := by
        have hb := hserv hcall' hstream
        rw [hyi, World.readAnswer]
        simpa [Files.blocks] using hb
      simp only [herr, Bool.false_eq_true, if_false, ← hread] at hret
      exact .inl ⟨rfl, hne, hret⟩

/-- **A read that was suspended returns what one that was not would**, for a sole user of the
descriptor and unless the peer had hung up when the wait ended, which is when `epoll_wait`
reported `EPOLLERR` or `EPOLLHUP`; and while it is suspended the kernel holds its
registration. -/
theorem suspended_read_agrees_iff {stream : D → Prop} (hF : F.Streams stream) {cfg : Config}
    {files : Int → D} (hfd : stream (files fd))
    (hr : Reach (World.step F) (fun w b => w.soleUse fd b = true) (World.init cfg files) w) :
    (∀ a n w' y, World.step F w (.lib a n) = some w' → w.soleUse (P := P) fd (.lib a n) = true →
      w.ioReturn n a = some y → y.call = .read → y.fd = fd → y.timeoutMs < 0 →
      (w.ReadAgrees F y ↔ w.hungUp a = false ∨
        (w.readAnswer F y ≠ .fail .eagain ∧ (w.readAnswer F y).value = -1)) ∧
      (w.hungUp a = false → y.ret = (w.readAnswer F y).ret)) ∧
    (∀ a n w' c i j, World.step F w (.lib a n) = some w' →
      w.soleUse (P := P) fd (.lib a n) = true → (w.st.co c).ioWait = some i → i.ctx.fd = fd →
      i.state = .waiting → (w'.st.co c).ioWait = some j → j.state = .ready → j.timedOut = false →
      j.ctx.revents.error = ((F.mask (w.files fd)).epollerr || (F.mask (w.files fd)).epollhup)) ∧
    ∀ c i, (w.st.co c).ioWait = some i → i.ctx.fd = fd →
      ∃ k, w.st.epoll fd = some ⟨i.ctx.call.events.read, i.ctx.call.events.write, (c, k)⟩ := by
  have hsole : SoleUser F stream fd w := by
    refine hr.invariant (soleUser_init cfg hfd) ?_
    intro w b w' h hg hs
    cases b with
    | lib a n => exact h.step hg hs hF
    | peer d p => exact h.peer hF hs
  refine ⟨fun a n w' y hs hg hy hcall hfd hto => ?_, fun a n w' c i j hs hg hi hfd hst hj hst' hto =>
    ?_, hsole.registered⟩
  swap
  · rw [← hfd]
    exact hsole.waiting.wake_mask (hsole.follows hg hs) hs (World.soleUse_onEpoll hg) hi hst hj
      hst' hto
  rcases hsole.read_returns hg hs hy hcall hfd hto with ⟨hup, hne, hret⟩ | ⟨hup, hret⟩
  · have hagree : w.ReadAgrees F y := by
      refine ⟨hne, ?_⟩
      rw [hret]
      cases w.readAnswer F y <;> rfl
    exact ⟨⟨fun _ => .inl hup, fun _ => hagree⟩, fun _ => hret⟩
  · have hval : y.ret.value = -1 := by
      rw [hret]
      rfl
    simp only [hup, World.ReadAgrees, hval, reduceCtorEq, false_or, false_implies, and_true]
    exact ⟨fun h => ⟨h.1, h.2.symm⟩, fun h => ⟨h.1, h.2.symm⟩⟩

/-- A reader of a pipe is suspended. -/
def suspendedReadRun : List (WorldAct Peer) :=
  libRun ([spawnOk, .run] ++ turn ++ [ioCall .read 6 (.fail .eagain)])

/-- Two bytes arrive while the reader is suspended. -/
theorem suspended_read_gets_bytes :
    ∃ w w' y, runGuarded (World.step desc) (World.soleUse 6) (World.init (byteConfig 0) idleFiles)
        (suspendedReadRun ++ [.peer 6 (.send [1, 2])] ++
          libRun (pollTurn [(6, ⟨true, false, false, false⟩)])) = some w ∧
      World.step desc w (.lib (.schedule ⟨.done 2⟩) 4) = some w' ∧
      w.ioReturn 4 (.schedule ⟨.done 2⟩) = some y ∧ y.ret = .sys 2 none ∧
      w.ReadAgrees desc y := by
  have hrun : (runGuarded (World.step desc) (World.soleUse 6)
      (World.init (byteConfig 0) idleFiles) (suspendedReadRun ++ [WorldAct.peer 6 (.send [1, 2])] ++
        libRun (pollTurn [(6, ⟨true, false, false, false⟩)]))).map
      (fun w => ((World.step desc w (.lib (.schedule ⟨.done 2⟩) 4)).isSome,
        w.soleUse (P := Peer) 6 (.lib (.schedule ⟨.done 2⟩) 4), w.hungUp (.schedule ⟨.done 2⟩),
        w.ioReturn 4 (.schedule ⟨.done 2⟩))) =
      some (true, true, false, some ⟨.read, 6, -1, 4, .sys 2 none⟩) := by
    decide +kernel
  obtain ⟨w, hw, he⟩ := Option.map_eq_some_iff.mp hrun
  simp only [Prod.mk.injEq] at he
  obtain ⟨hstep, hg, hup, hy⟩ := he
  obtain ⟨w', hs⟩ := Option.isSome_iff_exists.mp hstep
  have hagree := (suspended_read_agrees_iff desc_streams (.inl ⟨_, _, rfl⟩)
    (reach_of_runGuarded hw)).1 _ _ w' _ hs hg hy rfl rfl (by decide)
  exact ⟨w, w', _, hw, hs, hy, rfl, hagree.1.mpr (.inl hup)⟩

/-- Two bytes arrive and the writer closes while the reader is suspended: the bytes are there
to be read, and `co_read` returns `EIO`. -/
theorem suspended_read_hang_up :
    ∃ w w' y, Reach (World.step desc) (fun w b => w.soleUse 6 b = true)
        (World.init (byteConfig 0) idleFiles) w ∧
      World.step desc w (.lib (.schedule ⟨.done 2⟩) 4) = some w' ∧
      w.ioReturn 4 (.schedule ⟨.done 2⟩) = some y ∧ y.call = .read ∧ y.fd = 6 ∧
      y.timeoutMs < 0 ∧ y.ret = .sys (-1) (some .eio) ∧ w.readAnswer desc y = .done 2 ∧
      ¬ w.ReadAgrees desc y := by
  have hrun : (runGuarded (World.step desc) (World.soleUse 6)
      (World.init (byteConfig 0) idleFiles)
      (suspendedReadRun ++ [WorldAct.peer 6 (.send [1, 2]), .peer 6 .close] ++
        libRun (pollTurn [(6, ⟨true, false, false, true⟩)]))).map
      (fun w => ((World.step desc w (.lib (.schedule ⟨.done 2⟩) 4)).isSome,
        w.ioReturn 4 (.schedule ⟨.done 2⟩), w.files 6)) =
      some (true, some ⟨.read, 6, -1, 4, .sys (-1) (some .eio)⟩, .pipe [1, 2] false) := by
    decide +kernel
  obtain ⟨w, hw, he⟩ := Option.map_eq_some_iff.mp hrun
  simp only [Prod.mk.injEq] at he
  obtain ⟨hstep, hy, hfile⟩ := he
  obtain ⟨w', hs⟩ := Option.isSome_iff_exists.mp hstep
  have hread : w.readAnswer desc ⟨.read, 6, -1, 4, .sys (-1) (some .eio)⟩ = .done 2 := by
    rw [World.readAnswer, hfile]
    rfl
  refine ⟨w, w', _, reach_of_runGuarded hw, hs, hy, rfl, rfl, by decide, rfl, hread, ?_⟩
  rintro ⟨-, hval⟩
  rw [hread] at hval
  cases hval

/-! ## Attempts to connect -/

/-- **The error of an attempt that fails while the coroutine is suspended** is reported as
`EIO`: the error check of `co_wait_io` comes before the lookup of `SO_ERROR`. -/
theorem connect_error_iff {failed : Errno → D → Prop} {established : D → Prop}
    (hF : F.Attempts failed established) {cfg : Config} {files : Int → D}
    (hr : Reach (World.step F) (fun w b => w.calm b = true) (World.init cfg files) w)
    {r : ResumeEnv} {rest : List Nat} {i : IoWait} {e : Errno}
    (hq : w.st.queues .ready = c :: rest) (hi : (w.st.co c).ioWait = some i)
    (hcall : i.ctx.call = .connect) (hto : i.timedOut = false)
    (hfail : failed e (w.files i.ctx.fd)) :
    ∃ y, w.ioReturn n (.schedule r) = some y ∧ y.call = .connect ∧ y.fd = i.ctx.fd ∧
      (F.soError (w.files y.fd)).1 = .fail e ∧ (y.ret = .sys (-1) (some e) ↔ e = .eio) := by
  have hwait : Waiting (fun call _ d => call = .connect → established d) (fun _ => True) w := by
    refine hr.invariant (waiting_init cfg files) ?_
    intro w b w' h hg hs
    cases b with
    | lib a n =>
      refine h.step (h.follows hg hs) hs (World.calm_onEpoll hg) hF.promise ?_
      intro c i _ _ _ _ _ hest hc
      exact World.step_keeps hs hF.sys hF.soError hF.peer _ (hest hc)
    | peer fd p =>
      refine h.peer hs ?_
      intro c i _ _ _ _ hest hc
      exact World.step_keeps hs hF.sys hF.soError hF.peer _ (hest hc)
  have herr : i.ctx.revents.error = true := by
    have hst := hwait.loose.head_ready hq hi
    rcases hwait.promised c i hi trivial hst hto with herr | hest
    · exact herr
    · exact absurd (hest hcall) (hF.failed_not e _ hfail)
  obtain ⟨y, hy⟩ := World.ioReturn_schedule r hq hi
  refine ⟨y, hy, ?_⟩
  rcases World.ioReturn_cases hy with ⟨x, t, hx, -⟩ | ⟨r', d, rest', j, hr', hq', hj, hyj, hret⟩
  · cases hx
  cases hr'
  rw [hq] at hq'
  cases hq'
  rw [hi] at hj
  cases hj
  have hret' : y.ret = .sys (-1) (some .eio) := by
    rw [hret, hto, herr]
    rfl
  rw [hret']
  rw [hyj]
  refine ⟨hcall, rfl, hF.failed_soError e _ hfail, ?_⟩
  simp [eq_comm]

/-- `ECONNREFUSED`. -/
def refused : Errno := .other 111

/-- An attempt is refused while its coroutine is suspended. -/
def refusedRun : List (WorldAct Peer) :=
  libRun ([spawnOk, .run] ++ turn ++ [ioCall .connect 7 (.fail .einprogress)]) ++
    [WorldAct.peer 7 (.refuse refused)] ++ libRun (pollTurn [(7, ⟨false, true, true, true⟩)])

/-- Its wait, when the coroutine is to be dispatched. -/
def refusedWait : IoWait :=
  ⟨⟨.connect, 7, ⟨false, true, false⟩, ⟨false, true, true⟩, -1⟩, .ready, false⟩

theorem refused_run :
    ∃ w, runGuarded (World.step desc) World.calm (World.init (byteConfig 0) idleFiles)
        refusedRun = some w ∧
      w.st.queues .ready = [1] ∧ (w.st.co 1).ioWait = some refusedWait ∧
      w.files 7 = .failed refused ∧
      (World.step desc w (.lib (.schedule ⟨.done 0⟩) 4)).isSome = true ∧
      w.ioReturn 4 (.schedule ⟨.done 0⟩) = some ⟨.connect, 7, -1, 4, .sys (-1) (some .eio)⟩ := by
  have hrun : (runGuarded (World.step desc) World.calm (World.init (byteConfig 0) idleFiles)
      refusedRun).map (fun w => (w.st.queues .ready, (w.st.co 1).ioWait, w.files 7,
        (World.step desc w (.lib (.schedule ⟨.done 0⟩) 4)).isSome,
        w.ioReturn 4 (.schedule ⟨.done 0⟩))) =
      some ([1], some refusedWait, .failed refused, true,
        some ⟨.connect, 7, -1, 4, .sys (-1) (some .eio)⟩) := by
    decide +kernel
  obtain ⟨w, hw, he⟩ := Option.map_eq_some_iff.mp hrun
  simp only [Prod.mk.injEq] at he
  exact ⟨w, hw, he⟩

theorem connect_error_refused :
    ∃ w y, runGuarded (World.step desc) World.calm (World.init (byteConfig 0) idleFiles)
        refusedRun = some w ∧
      w.ioReturn 4 (.schedule ⟨.done 0⟩) = some y ∧ (desc.soError (w.files y.fd)).1 = .fail refused ∧
      (y.ret = .sys (-1) (some refused) ↔ refused = .eio) := by
  obtain ⟨w, hw, hq, hi, hfile, -, -⟩ := refused_run
  obtain ⟨y, hy, -, -, hso, hiff⟩ := connect_error_iff desc_attempts (reach_of_runGuarded hw)
    hq hi rfl rfl hfile
  exact ⟨w, y, hw, hy, hso, hiff⟩

/-- `ECONNREFUSED` is reported as `EIO`. -/
theorem connect_error_lost :
    ∃ w y, Reach (World.step desc) (fun w b => w.calm b = true)
        (World.init (byteConfig 0) idleFiles) w ∧
      (w.st.co 1).ioWait = some refusedWait ∧ w.files 7 = .failed refused ∧
      (World.step desc w (.lib (.schedule ⟨.done 0⟩) 4)).isSome = true ∧
      w.ioReturn 4 (.schedule ⟨.done 0⟩) = some y ∧ y.fd = 7 ∧
      y.ret = .sys (-1) (some .eio) ∧ y.ret ≠ .sys (-1) (some refused) := by
  obtain ⟨w, hw, -, hi, hfile, hs, hy⟩ := refused_run
  exact ⟨w, _, reach_of_runGuarded hw, hi, hfile, hs, hy, rfl, rfl, by decide⟩

end Libco
