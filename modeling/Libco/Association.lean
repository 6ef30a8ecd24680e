import Libco.Kernel

/-!
# IOCP associations

`co_iomux_add` keeps an array of the sockets it has associated with the completion
port, at most 1024 of them, and asks the kernel only about sockets the array does
not list. Nothing is ever taken out of the array: the I/O functions make no call of
`co_iomux_del`, and the application closes its sockets itself.

`Sockets` puts the sockets of the process beside the state of the library, by
handle value. `CreateIoCompletionPort` associates a socket that has no association
and fails on one that has; a closed socket loses its association with itself, and
its handle value may name a new socket later. Of each socket we note whether its
handle value was already recorded when it was opened, and whether it was associated
while the array was full.
-/

namespace Libco
open Lib

variable {s s' : St} {a : Act} {fd : Nat}

/-! ## The sockets of the process -/

structure Socket where
  associated : Bool
  /-- opened under a handle value that the array recorded -/
  reused : Bool
  /-- associated while the array was full -/
  late : Bool
  deriving DecidableEq

structure Sockets where
  st : St
  socket : Nat → Option Socket

/-- The array of the library. -/
def Sockets.recorded (w : Sockets) : List Nat := w.st.iocp.associatedSockets

/-- What `CreateIoCompletionPort` answers. -/
def Sockets.port (w : Sockets) (fd : Nat) : Bool :=
  match w.socket fd with
  | some k => !k.associated
  | none => false

/-- What `co_iomux_add` makes of the socket `fd`. -/
def Sockets.added (w : Sockets) (fd : Nat) (k : Socket) : Socket :=
  if w.recorded.contains fd || k.associated then k
  else { k with associated := true, late := decide (1024 ≤ w.recorded.length) }

def Sockets.associate (w : Sockets) (fd : Nat) : Nat → Option Socket :=
  Function.update w.socket fd ((w.socket fd).map (w.added fd))

/-- The state in which an I/O call makes its call of `co_iomux_add`, if it does. -/
def addState (s : St) (x : AsyncArgs) : Option St :=
  match s.coCurrent with
  | some c =>
    if x.argsOk && x.setupOk then
      match armTimer s c x.timeoutMs x.now x.reallocOk with
      | (some _, t) => some t
      | (none, _) => none
    else none
  | none => none

inductive SocketAct where
  /-- a new socket gets the handle value -/
  | socket (fd : Nat)
  | closesocket (fd : Nat)
  /-- an I/O operation on a valid socket -/
  | io (x : AsyncArgs)
  /-- anything else the program does -/
  | other (a : Act)

def Act.isAsync : Act → Bool
  | .call (.ioAsync _) => true
  | _ => false

def Sockets.step (w : Sockets) : SocketAct → Option Sockets
  | .socket fd =>
    match w.socket fd with
    | none => some { w with
        socket := Function.update w.socket fd (some ⟨false, w.recorded.contains fd, false⟩) }
    | some _ => none
  | .closesocket fd =>
    match w.socket fd with
    | some _ => some { w with socket := Function.update w.socket fd none }
    | none => none
  | .io x =>
    if (w.socket x.fd).isSome ∧ x.portOk = w.port x.fd then
      (Libco.step w.st (.call (.ioAsync x))).map fun s =>
        { st := s
          socket := if (addState (beginCall w.st (.ioAsync x)) x).isSome then w.associate x.fd
            else w.socket }
    else none
  | .other a => if a.isAsync then none else (Libco.step w.st a).map fun s => { w with st := s }

def Sockets.initial (cfg : Config) : Sockets := ⟨init cfg, fun _ => none⟩

/-- Any run: sockets are opened, used and closed in any order. -/
def SocketRun (cfg : Config) : Sockets → Prop :=
  Reach Sockets.step (fun _ _ => True) (.initial cfg)

/-! ## What the library does to the array -/

theorem pollPacket_recorded (s : St) (p : Packet) :
    (pollPacket s p).iocp.associatedSockets = s.iocp.associatedSockets := by
  simp only [pollPacket]
  split <;> first | rfl | (simp only [wakeIo]; split <;> rfl)

theorem pollEvent_iocp (s : St) (ev : Int × EpollEvents) : (pollEvent s ev).iocp = s.iocp := by
  unfold pollEvent
  split
  · rfl
  split
  · simp only [wakeIo]
    split <;> rfl
  · rfl

theorem PollResult.apply_recorded (p : PollResult) (s : St) :
    (p.apply s).iocp.associatedSockets = s.iocp.associatedSockets := by
  cases p with
  | none => rfl
  | events evs =>
    simp only [PollResult.apply, coIomuxPoll]
    induction evs generalizing s with
    | nil => rfl
    | cons ev evs ih => exact (ih _).trans (by rw [pollEvent_iocp])
  | packets ps =>
    simp only [PollResult.apply, coIomuxPollPackets]
    induction ps generalizing s with
    | nil => rfl
    | cons p ps ih => exact (ih _).trans (pollPacket_recorded s p)

/-- Only the asynchronous calls write to the array. -/
theorem step_recorded (hs : step s a = some s') (ha : a.isAsync = false) :
    s'.iocp.associatedSockets = s.iocp.associatedSockets := by
  cases a with
  | idle p =>
    obtain ⟨n, t, -, -, ht, hend⟩ := step_poll hs
    have hrec : t.iocp.associatedSockets = s.iocp.associatedSockets := by
      rw [ht]
      split
      · exact p.apply_recorded _
      · rfl
    rcases hend with rfl | rfl <;> exact hrec
  | schedule e =>
    obtain ⟨-, rfl⟩ := step_schedule hs
    cases hq : s.queues .ready with
    | nil => rw [schedule_nil hq]
    | cons c rest => rw [(schedule_epoll hq).1]
  | call op =>
    cases op with
    | ioAsync x => cases ha
    | io x =>
      obtain ⟨-, rfl⟩ := step_call hs
      have hends := coIo_kernel (beginCall s (.io x)) x
      rw [(beginCall_kernel s _).2.1] at hends
      simp only [runOp]
      cases ho : coIo (beginCall s (.io x)) x with
      | ret r t | swap t =>
        rw [ho] at hends
        exact congrArg _ hends.1
      | abort => rfl
    | _ => rw [(step_kernel hs rfl rfl rfl).2]
  | _ => rw [(step_kernel hs rfl rfl rfl).2]

/-- The array after `co_iomux_add`, `ok` being the kernel's answer. -/
def record (l : List Nat) (fd : Nat) (ok : Bool) : List Nat :=
  if l.contains fd then l else if ok && l.length < 1024 then l ++ [fd] else l

theorem coIomuxAssociate_record (s : St) (fd : Nat) (ok : Bool) :
    (coIomuxAssociate s fd ok).2.iocp.associatedSockets =
      record s.iocp.associatedSockets fd ok := by
  unfold coIomuxAssociate record
  split
  · rfl
  cases ok with
  | false => rfl
  | true =>
    simp only [if_true, Bool.true_and, decide_eq_true_eq]
    split <;> rfl

/-- The array after an I/O call. -/
def recordedAfter (s : St) (x : AsyncArgs) : List Nat :=
  match addState s x with
  | some _ => record s.iocp.associatedSockets x.fd x.portOk
  | none => s.iocp.associatedSockets

theorem coWaitIoAsync_recorded (s : St) (x : AsyncArgs) (hok : (x.argsOk && x.setupOk) = true) :
    ∃ t, ((∃ r, coWaitIoAsync s x = .ret r t) ∨ coWaitIoAsync s x = .swap t) ∧
      t.iocp.associatedSockets = recordedAfter s x := by
  unfold coWaitIoAsync recordedAfter addState
  cases hc : s.coCurrent with
  | none =>
    refine ⟨s, .inl ?_, rfl⟩
    cases x.opType <;> exact ⟨_, rfl⟩
  | some c =>
    simp only [hok, if_true]
    cases harm : armTimer s c x.timeoutMs x.now x.reallocOk with
    | mk d t =>
      have hq := (armTimer_quiet harm).iocp
      cases d with
      | none => exact ⟨t, .inl ⟨_, rfl⟩, congrArg _ hq⟩
      | some d =>
        have hrec := coIomuxAssociate_record t x.fd x.portOk
        rw [hq] at hrec
        dsimp only
        cases hu : coIomuxAssociate t x.fd x.portOk with
        | mk e u =>
          rw [hu] at hrec
          cases e with
          | ok =>
            cases x.submitOk with
            | true => exact ⟨_, .inr rfl, hrec⟩
            | false => cases x.opType <;> exact ⟨_, .inl ⟨_, rfl⟩, hrec⟩
          | _ => exact ⟨_, .inl ⟨_, rfl⟩, hrec⟩

theorem step_async {x : AsyncArgs} (hs : step s (.call (.ioAsync x)) = some s') :
    s'.iocp.associatedSockets = recordedAfter (beginCall s (.ioAsync x)) x := by
  obtain ⟨-, rfl⟩ := step_call hs
  by_cases hok : (x.argsOk && x.setupOk) = true
  · obtain ⟨t, ht, hrec⟩ := coWaitIoAsync_recorded (beginCall s (.ioAsync x)) x hok
    simp only [Bool.and_eq_true] at hok
    simp only [runOp, coIoAsync, hok, Bool.not_true, Bool.false_eq_true, if_false]
    rcases ht with ⟨r, ht⟩ | ht <;> rw [ht] <;> exact hrec
  · have hnone : addState (beginCall s (.ioAsync x)) x = none := by
      unfold addState
      split
      · rw [if_neg hok]
      · rfl
    rw [recordedAfter, hnone]
    simp only [runOp, coIoAsync]
    cases ha : x.argsOk with
    | false => rfl
    | true =>
      cases hb : x.setupOk with
      | false => rfl
      | true => simp [ha, hb] at hok

/-! ## The invariant -/

/-- What the array and the kernel can have to say about one socket. -/
inductive Socket.Phase (l : List Nat) (fd : Nat) (k : Socket) : Prop
  /-- the array lists an earlier socket of this name -/
  | reused (hr : k.reused = true) (hl : k.late = false) (ha : k.associated = false) (hm : fd ∈ l)
  /-- the array had no room for it -/
  | late (hr : k.reused = false) (hl : k.late = true) (ha : k.associated = true) (hm : fd ∉ l)
      (hfull : 1024 ≤ l.length)
  | known (hr : k.reused = false) (hl : k.late = false) (h : k.associated = true ↔ fd ∈ l)

def Sockets.Inv (w : Sockets) : Prop :=
  ∀ fd k, w.socket fd = some k → k.Phase w.recorded fd

theorem mem_record {l : List Nat} {e : Nat} {ok : Bool} (hne : fd ≠ e) :
    fd ∈ record l e ok ↔ fd ∈ l := by
  unfold record
  split
  · rfl
  · split
    · simp [hne]
    · rfl

theorem length_record {l : List Nat} {e : Nat} {ok : Bool} : l.length ≤ (record l e ok).length := by
  unfold record
  split
  · exact Nat.le_refl _
  · split
    · simp
    · exact Nat.le_refl _

/-- Other sockets do not notice. -/
theorem Socket.Phase.other {l : List Nat} {k : Socket} {e : Nat} {ok : Bool}
    (h : k.Phase l fd) (hne : fd ≠ e) : k.Phase (record l e ok) fd := by
  cases h with
  | reused hr hl ha hm => exact .reused hr hl ha ((mem_record hne).mpr hm)
  | late hr hl ha hm hfull =>
    exact .late hr hl ha (fun h => hm ((mem_record hne).mp h)) (Nat.le_trans hfull length_record)
  | known hr hl h => exact .known hr hl (h.trans (mem_record hne).symm)

/-- The socket itself, before and after `co_iomux_add`. -/
theorem Sockets.Inv.added {w : Sockets} {k : Socket} (h : w.Inv) (hs : w.socket fd = some k) :
    (w.added fd k).Phase (record w.recorded fd (w.port fd)) fd := by
  have hp := h fd k hs
  have hport : w.port fd = !k.associated := by simp [Sockets.port, hs]
  by_cases hm : fd ∈ w.recorded
  · have hkeep : record w.recorded fd (w.port fd) = w.recorded := by simp [record, hm]
    have hsame : w.added fd k = k := by simp [Sockets.added, hm]
    rw [hkeep, hsame]
    exact hp
  cases ha : k.associated with
  | true =>
    have hkeep : record w.recorded fd (w.port fd) = w.recorded := by
      simp [record, hm, hport, ha]
    have hsame : w.added fd k = k := by simp [Sockets.added, ha]
    rw [hkeep, hsame]
    exact hp
  | false =>
    have hnew : w.added fd k =
        { k with associated := true, late := decide (1024 ≤ w.recorded.length) } := by
      simp [Sockets.added, hm, ha]
    have hr : k.reused = false := by
      cases hp with
      | reused _ _ _ hmem => exact absurd hmem hm
      | late hr _ _ _ _ | known hr _ _ => exact hr
    rw [hnew]
    by_cases hfull : 1024 ≤ w.recorded.length
    · have hkeep : record w.recorded fd (w.port fd) = w.recorded := by
        simp [record, hm, Nat.not_lt.mpr hfull]
      rw [hkeep]
      exact .late hr (by simpa using hfull) rfl hm hfull
    · refine .known hr (by simpa using Nat.lt_of_not_le hfull) ?_
      simp [record, hm, hport, ha, Nat.lt_of_not_le hfull]

theorem Sockets.Inv.step {w w' : Sockets} {b : SocketAct} (h : w.Inv)
    (hs : w.step b = some w') : w'.Inv := by
  cases b with
  | socket e =>
    simp only [Sockets.step] at hs
    split at hs
    swap
    · cases hs
    cases hs
    intro fd k hk
    by_cases hfd : fd = e
    · subst hfd
      simp only [Function.update_self, Option.some.injEq] at hk
      subst hk
      by_cases hm : fd ∈ w.recorded
      · exact .reused (by simpa using hm) rfl rfl hm
      · refine .known (by simpa using hm) rfl ?_
        simpa [Sockets.recorded] using hm
    · simp only [Function.update_of_ne hfd] at hk
      exact h fd k hk
  | closesocket e =>
    simp only [Sockets.step] at hs
    split at hs
    swap
    · cases hs
    cases hs
    intro fd k hk
    by_cases hfd : fd = e
    · subst hfd
      simp at hk
    · simp only [Function.update_of_ne hfd] at hk
      exact h fd k hk
  | io x =>
    simp only [Sockets.step] at hs
    split at hs
    swap
    · cases hs
    rename_i hx
    obtain ⟨s', hstep, rfl⟩ := Option.map_eq_some_iff.mp hs
    have hrec := step_async hstep
    rw [recordedAfter, (beginCall_kernel w.st (.ioAsync x)).2.1] at hrec
    intro fd k hk
    show k.Phase s'.iocp.associatedSockets fd
    cases hadd : addState (beginCall w.st (.ioAsync x)) x with
    | none =>
      simp only [hadd, Option.isSome_none, Bool.false_eq_true, if_false] at hk hrec
      rw [hrec]
      exact h fd k hk
    | some t =>
      simp only [hadd, Option.isSome_some, if_true] at hk hrec
      rw [hrec, hx.2]
      by_cases hfd : fd = x.fd
      · subst hfd
        rw [Sockets.associate, Function.update_self] at hk
        obtain ⟨k₀, hk₀, rfl⟩ := Option.map_eq_some_iff.mp hk
        exact h.added hk₀
      · rw [Sockets.associate, Function.update_of_ne hfd] at hk
        exact (h fd k hk).other hfd
  | other a =>
    simp only [Sockets.step] at hs
    split at hs
    · cases hs
    rename_i ha
    obtain ⟨s', hstep, rfl⟩ := Option.map_eq_some_iff.mp hs
    intro fd k hk
    show k.Phase s'.iocp.associatedSockets fd
    rw [step_recorded hstep (by simpa using ha)]
    exact h fd k hk

theorem SocketRun.inv {cfg : Config} {w : Sockets} (h : SocketRun cfg w) : w.Inv := by
  refine Reach.invariant h (fun fd k hk => ?_) fun _ _ _ hi _ hs => hi.step hs
  cases hk

/-! ## Results -/

/-- `co_iomux_add` on the socket `fd` returns `CO_OK`, and the socket is then associated. -/
def Sockets.AddOk (w : Sockets) (fd : Nat) : Prop :=
  (coIomuxAssociate w.st fd (w.port fd)).1 = .ok ∧
    ∃ k, w.associate fd fd = some k ∧ k.associated = true

theorem coIomuxAssociate_code (s : St) (fd : Nat) (ok : Bool) :
    (coIomuxAssociate s fd ok).1 = .ok ↔ fd ∈ s.iocp.associatedSockets ∨ ok = true := by
  unfold coIomuxAssociate
  split
  · rename_i hm
    exact ⟨fun _ => .inl (by simpa using hm), fun _ => rfl⟩
  rename_i hm
  split
  · rename_i hok
    split <;> simp [hok]
  · rename_i hok
    simp_all

/-- **`co_iomux_add` does its work** on a valid socket exactly when the socket's handle
value was not recorded when it was opened, and it was not associated beyond the capacity
of the array. -/
theorem association_agrees_iff {cfg : Config} {w : Sockets} {k : Socket} (h : SocketRun cfg w)
    (hk : w.socket fd = some k) : w.AddOk fd ↔ k.reused = false ∧ k.late = false := by
  have hok : w.AddOk fd ↔ (fd ∈ w.recorded ∨ k.associated = false) ∧
      (w.added fd k).associated = true := by
    simp [Sockets.AddOk, coIomuxAssociate_code, Sockets.port, Sockets.recorded, hk,
      Sockets.associate]
  rw [hok]
  cases h.inv fd k hk with
  | reused hr hl ha hm => simp [Sockets.added, hm, ha, hr]
  | late hr hl ha hm hfull => simp [hm, ha, hl]
  | known hr hl hiff =>
    by_cases hm : fd ∈ w.recorded
    · simp [hr, hl, hm, Sockets.added, hiff.mpr hm]
    · have ha : k.associated = false := by simpa using fun h => hm (hiff.mp h)
      simp [hr, hl, hm, Sockets.added, ha]

/-- An asynchronous read without deadline; the kernel associates the socket or has none to
associate. -/
def asyncRead (fd : Nat) (portOk : Bool) : SocketAct :=
  .io ⟨.read, fd, true, true, -1, 0, true, portOk, true⟩

/-- A coroutine reads on socket 5, and its packet comes. -/
def readOnce : List SocketAct :=
  [SocketAct.socket 5, .other spawnOk, .other .run] ++ turn.map SocketAct.other ++
    [asyncRead 5 true] ++
    [SocketAct.other (.timers 0), .other (.idle (.packets [⟨(1, 0), 8, false⟩]))] ++
    turn.map SocketAct.other

theorem association_agrees_iff_read :
    ∃ w k, runActs Sockets.step (.initial (byteConfig 0)) readOnce = some w ∧
      w.socket 5 = some k ∧ k = ⟨true, false, false⟩ ∧
      (w.AddOk 5 ↔ k.reused = false ∧ k.late = false) := by
  have hrun : ((runActs Sockets.step (.initial (byteConfig 0)) readOnce).bind
      fun w => w.socket 5) = some ⟨true, false, false⟩ := by
    decide +kernel
  obtain ⟨w, hw, hk⟩ := Option.bind_eq_some_iff.mp hrun
  exact ⟨w, _, hw, hk, rfl, association_agrees_iff (reach_of_runActs (by simp) hw) hk⟩

/-- Socket 5 is closed, and a new socket gets its handle value: `co_iomux_add` returns
`CO_OK` and leaves it without association. -/
theorem association_stale :
    ∃ w, runActs Sockets.step (.initial (byteConfig 0))
        (readOnce ++ [.closesocket 5, .socket 5]) = some w ∧
      w.socket 5 = some ⟨false, true, false⟩ ∧ (coIomuxAssociate w.st 5 (w.port 5)).1 = .ok ∧
      w.associate 5 5 = some ⟨false, true, false⟩ ∧ ¬ w.AddOk 5 := by
  have hrun : ((runActs Sockets.step (.initial (byteConfig 0))
      (readOnce ++ [SocketAct.closesocket 5, .socket 5])).map fun w =>
        (w.socket 5, (coIomuxAssociate w.st 5 (w.port 5)).1, w.associate 5 5)) =
      some (some ⟨false, true, false⟩, .ok, some ⟨false, true, false⟩) := by
    decide +kernel
  obtain ⟨w, hw, he⟩ := Option.map_eq_some_iff.mp hrun
  simp only [Prod.mk.injEq] at he
  refine ⟨w, hw, he.1, he.2.1, he.2.2, ?_⟩
  rintro ⟨-, k, hk, ha⟩
  rw [he.2.2, Option.some.injEq] at hk
  rw [← hk] at ha
  cases ha

end Libco
