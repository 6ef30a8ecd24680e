import Libco.Platform.Epoll

/-!
# `platform/windows/iomux_iocp.c`

`co_wait_io_async`, and `co_accept` and `co_connect`, which repeat its text with
a wait context on the heap. They differ in what happens when the operation is
refused at submission: `co_accept` and `co_connect` clear `io_waiting`, while
the read and write paths of `co_wait_io_async` return with it as it is.
-/

namespace Libco

/-- Arguments of an asynchronous call and the environment's answers before it
suspends. `setupOk`: extension functions, sockets, the wait context and `bind`;
`portOk`: `CreateIoCompletionPort`; `submitOk`: the operation was accepted. -/
structure AsyncArgs where
  opType : IoCall
  fd : Nat
  argsOk : Bool
  setupOk : Bool
  timeoutMs : Int
  now : Nat
  reallocOk : Bool
  portOk : Bool
  submitOk : Bool

/-- The IOCP `co_iomux_add`: associate the socket unless the array lists it. -/
def coIomuxAssociate (s : St) (fd : Nat) (portOk : Bool) : CoError × St :=
  if s.iocp.associatedSockets.contains fd then (.ok, s)
  else if portOk then
    if s.iocp.associatedSockets.length < 1024 then
      (.ok, { s with iocp := { s.iocp with
        associatedSockets := s.iocp.associatedSockets ++ [fd] } })
    else (.ok, s)
  else (.platform, s)

/-- What the four calls make of an error code. -/
def asyncFailed (e : CoError) : Ret :=
  .sys (-1) (if e = .timeout then some .etimedout else none)

/-- `co_wait_io_async`, `co_accept` and `co_connect` up to the context switch. -/
def coWaitIoAsync (s : St) (a : AsyncArgs) : Outcome :=
  match s.coCurrent with
  | none =>
    match a.opType with
    | .read | .write => .ret (asyncFailed .inval) s
    | .accept | .connect => .ret (.sys (-1) (some .einval)) s
  | some c =>
    match armTimer s c a.timeoutMs a.now a.reallocOk with
    | (none, s) => .ret (asyncFailed .nomem) s
    | (some _, s) =>
      match coIomuxAssociate s a.fd a.portOk with
      | (.ok, s) =>
        if a.submitOk then
          let s := s.modify c fun r =>
            { r with
              state := .waiting
              frame := .waitAsync ⟨a.opType, a.fd, noEvents, a.timeoutMs, 0⟩ }
          .swap { s with
            waitingIoCount := incr32 s.waitingIoCount
            iocp := { s.iocp with inFlight := s.iocp.inFlight ++ [(c, (s.co c).call)] } }
        else match a.opType with
          | .read | .write => .ret (asyncFailed .platform) s
          | .accept | .connect =>
            .ret (asyncFailed .platform) (s.modify c fun r => { r with ioWaiting := false })
      | (e, s) => .ret (asyncFailed e) (s.modify c fun r => { r with ioWaiting := false })

def coIoAsync (s : St) (a : AsyncArgs) : Outcome :=
  if !a.argsOk then .ret (.sys (-1) (some .einval)) s
  else if !a.setupOk then .ret (.sys (-1) none) s
  else coWaitIoAsync s a

/-- After the first context switch. A call that timed out cancels its operation
and suspends again until the completion packet arrives; `after` is the byte
count or the outcome of `setsockopt`. -/
def resumeAsync (s : St) (c : Nat) (x : AsyncCtx) (after : SysRes) : Outcome :=
  if (s.co c).timedOut then
    let s := s.modify c fun r => { r with state := .waiting, frame := .drainAsync x }
    .swap { s with waitingIoCount := incr32 s.waitingIoCount }
  else if x.revents.error then .ret (asyncFailed .error) s
  else
    let s := if 0 ≤ x.timeoutMs then
        let s := s.modify c fun r => { r with ioWaiting := false }
        { s with timerHeap := (coTimerHeapRemove s.key s.timerHeap c).2 }
      else s
    match x.opType with
    | .read | .write => .ret (.sys x.bytesTransferred none) s
    | .accept | .connect => .ret after.ret s

/-- After the second context switch. -/
def resumeDrain (s : St) : Outcome := .ret (asyncFailed .timeout) s

/-- One round of the packet loop of `co_iomux_poll`. The kernel gives up the
operation with its packet. -/
def pollPacket (s : St) (p : Packet) : St :=
  let s := { s with iocp := { s.iocp with inFlight := s.iocp.inFlight.erase p.ptr } }
  let fill (x : AsyncCtx) : AsyncCtx :=
    { x with
      bytesTransferred := p.bytes
      revents := { x.opType.events with error := p.failed } }
  match (s.co p.ptr.1).frame with
  | .waitAsync x => wakeIo (s.modify p.ptr.1 fun r => { r with frame := .waitAsync (fill x) }) p.ptr.1
  | .drainAsync x => wakeIo (s.modify p.ptr.1 fun r => { r with frame := .drainAsync (fill x) }) p.ptr.1
  | _ => s

/-- The IOCP `co_iomux_poll` when `ps` are dequeued. -/
def coIomuxPollPackets (s : St) (ps : List Packet) : St := ps.foldl pollPacket s

end Libco
