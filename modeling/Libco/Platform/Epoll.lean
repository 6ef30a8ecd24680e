import Libco.Routine

/-!
# `platform/linux/iomux_epoll.c`

The kernel keeps at most one registration for a descriptor: `EPOLL_CTL_ADD` on
a registered descriptor fails with `EEXIST`, `EPOLL_CTL_MOD` replaces mask and
pointer, `EPOLL_CTL_DEL` removes it. Whether a control call fails for another
reason, what the system calls answer, and clock values are arguments.
-/

namespace Libco

/-- The 32-bit counter `waiting_io_count`, one up and one down. -/
def incr32 (n : Nat) : Nat := if n + 1 = 2 ^ 32 then 0 else n + 1
def decr32 (n : Nat) : Nat := if n = 0 then 2 ^ 32 - 1 else n - 1

def noEvents : IoEvents := ⟨false, false, false⟩

/-! ## Registrations -/

/-- `co_iomux_mod`. -/
def coIomuxMod (s : St) (fd : Int) (events : IoEvents) (ptr : Nat × Nat) (ctlOk : Bool) :
    CoError × St :=
  if ctlOk then
    (.ok, { s with epoll := Function.update s.epoll fd (some ⟨events.read, events.write, ptr⟩) })
  else (.platform, s)

/-- `co_iomux_add`. -/
def coIomuxAdd (s : St) (fd : Int) (events : IoEvents) (ptr : Nat × Nat) (ctlOk : Bool) :
    CoError × St :=
  match s.epoll fd with
  | some _ => coIomuxMod s fd events ptr ctlOk
  | none =>
    if ctlOk then
      (.ok, { s with epoll := Function.update s.epoll fd (some ⟨events.read, events.write, ptr⟩) })
    else (.platform, s)

/-- `co_iomux_del`. -/
def coIomuxDel (s : St) (fd : Int) : St :=
  if fd < 0 then s else { s with epoll := Function.update s.epoll fd none }

/-! ## Waiting -/

/-- A system call: its value, or `-1` with `errno`. -/
inductive SysRes where
  | done (n : Int)
  | fail (e : Errno)
  deriving DecidableEq, Repr

def SysRes.ret : SysRes → Ret
  | .done n => .sys n none
  | .fail e => .sys (-1) (some e)

/-- Arguments of `co_read`, `co_write`, `co_accept` or `co_connect`, and what
the environment answers before the call suspends: the first system call, the
clock, `realloc` and `epoll_ctl`. `argsOk`: the buffer, its size and the address
are acceptable. -/
structure IoArgs where
  call : IoCall
  fd : Int
  argsOk : Bool
  timeoutMs : Int
  first : SysRes
  now : Nat
  reallocOk : Bool
  ctlOk : Bool

/-- The events a call waits for. -/
def IoCall.events : IoCall → IoEvents
  | .read | .accept => ⟨true, false, false⟩
  | .write | .connect => ⟨false, true, false⟩

/-- The `errno` on which a call goes on to wait. -/
def IoCall.wouldBlock : IoCall → Errno
  | .read | .write | .accept => .eagain
  | .connect => .einprogress

/-- The deadline part of `co_wait_io`: `none` if the timer heap cannot grow. -/
def armTimer (s : St) (c : Nat) (timeoutMs : Int) (now : Nat) (reallocOk : Bool) :
    Option Nat × St :=
  let s := s.modify c fun r => { r with timedOut := false, ioWaiting := false }
  if 0 ≤ timeoutMs then
    let s := s.modify c fun r =>
      { r with wakeupTime := (now + timeoutMs.toNat) % 2 ^ 64, ioWaiting := true }
    match coTimerHeapPush s.key s.timerHeap c reallocOk with
    | none => (none, s.modify c fun r => { r with ioWaiting := false })
    | some h => (some c, { s with timerHeap := h })
  else (some c, s)

/-- `co_wait_io` up to the context switch. -/
def coWaitIo (s : St) (a : IoArgs) : Outcome :=
  match s.coCurrent with
  | none => .ret (.code .inval) s
  | some c =>
    match armTimer s c a.timeoutMs a.now a.reallocOk with
    | (none, s) => .ret (.code .nomem) s
    | (some _, s) =>
      match coIomuxAdd s a.fd a.call.events (c, (s.co c).call) a.ctlOk with
      | (.ok, s) =>
        let s := s.modify c fun r =>
          { r with
            state := .waiting
            frame := .waitIo ⟨a.call, a.fd, a.call.events, noEvents, a.timeoutMs⟩ }
        .swap { s with waitingIoCount := incr32 s.waitingIoCount }
      | (e, s) => .ret (.code e) (s.modify c fun r => { r with ioWaiting := false })

/-- `co_wait_io` after the context switch. -/
def resumeWaitIo (s : St) (c : Nat) (x : IoWaitCtx) : CoError × St :=
  let s := coIomuxDel s x.fd
  if (s.co c).timedOut then (.timeout, s)
  else if x.revents.error then (.error, s)
  else if 0 ≤ x.timeoutMs then
    let s := s.modify c fun r => { r with ioWaiting := false }
    (.ok, { s with timerHeap := (coTimerHeapRemove s.key s.timerHeap c).2 })
  else (.ok, s)

/-- What a call makes of a failed wait. -/
def failedWait (e : CoError) : Ret :=
  .sys (-1) (some (if e = .timeout then .etimedout else .eio))

/-- `co_read`, `co_write`, `co_accept` and `co_connect`. -/
def coIo (s : St) (a : IoArgs) : Outcome :=
  if a.fd < 0 ∨ (a.call ≠ .accept ∧ !a.argsOk) then .ret (.sys (-1) (some .einval)) s
  else match a.first with
    | .done n => .ret (.sys n none) s
    | .fail e =>
      if e = a.call.wouldBlock then
        match coWaitIo s a with
        | .ret (.code e) s => .ret (failedWait e) s
        | o => o
      else .ret (.sys (-1) (some e)) s

/-- The four calls after the context switch; `again` is the repeated system
call, for `co_connect` the lookup of `SO_ERROR`. -/
def resumeIo (s : St) (c : Nat) (x : IoWaitCtx) (again : SysRes) : Outcome :=
  match resumeWaitIo s c x with
  | (.ok, s) => .ret again.ret s
  | (e, s) => .ret (failedWait e) s

/-! ## Polling -/

/-- The translation of an event mask. -/
def EpollEvents.revents (e : EpollEvents) : IoEvents :=
  ⟨e.epollin, e.epollout, e.epollerr || e.epollhup⟩

/-- The wake-up of a coroutine out of an I/O wait. -/
def wakeIo (s : St) (c : Nat) : St :=
  if (s.co c).state = .waiting then
    let s := s.modify c fun r => { r with state := .ready, ioWaiting := false }
    let s := { s with waitingIoCount := decr32 s.waitingIoCount }
    (coQueuePushBack s .ready c).emit (.ready c)
  else s

/-- One round of the event loop of `co_iomux_poll`. The wait context that
`data.ptr` names is in the frame of its coroutine. -/
def pollEvent (s : St) (ev : Int × EpollEvents) : St :=
  match s.epoll ev.1 with
  | none => s
  | some reg =>
    match (s.co reg.ptr.1).frame with
    | .waitIo x =>
      wakeIo (s.modify reg.ptr.1 fun r =>
        { r with frame := .waitIo { x with revents := ev.2.revents } }) reg.ptr.1
    | _ => s

/-- `co_iomux_poll` when `epoll_wait` reports `evs`; an interrupted, timed-out or
failed `epoll_wait` reports none. -/
def coIomuxPoll (s : St) (evs : List (Int × EpollEvents)) : St := evs.foldl pollEvent s

end Libco
