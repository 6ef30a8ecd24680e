import Libco.Routine

/-!
# `co_channel.c`

Ring offsets are products in `size_t`. `placeElement` and `takeElement` are
the parts that `co_channel_send` and `co_channel_trysend`, `co_channel_recv`
and `co_channel_tryrecv` have in common; `none` means that no branch of them
applied. `k` is the number of the running call.
-/

namespace Libco

/-- `memcpy(dst + off, src, n)`. -/
def memcpy (dst : Bytes) (off : Nat) (src : Bytes) (n : Nat) : Bytes :=
  fun i => if off ≤ i ∧ i < off + n then src (i - off) else dst i

/-- The byte offset of a ring slot. -/
def Channel.offset (ch : Channel) (i : Nat) : Nat := (i * ch.elemSize) % 2 ^ 64

/-- The memory at a ring slot. -/
def Channel.slot (ch : Channel) (i : Nat) : Bytes := fun j => ch.buffer (ch.offset i + j)

/-- What a blocked sender offers: the number of its call, and its data. -/
def Routine.element (r : Routine) (elemSize : Nat) : Nat × List UInt8 :=
  (r.call, r.chanData.take elemSize)

/-- Copy an element to the tail of the ring. -/
def Channel.pushTail (ch : Channel) (k : Nat) (data : Bytes) : Channel :=
  { ch with
    buffer := memcpy ch.buffer (ch.offset ch.tail) data ch.elemSize
    tags := Function.update ch.tags ch.tail k
    tail := (ch.tail + 1) % ch.capacity
    count := ch.count + 1 }

/-- Advance the head of the ring past the element just read. -/
def Channel.popHead (ch : Channel) : Channel :=
  { ch with head := (ch.head + 1) % ch.capacity, count := ch.count - 1 }

/-- `co_channel_create`; `calloc` and `malloc` tell whether the two allocations
succeed. -/
def coChannelCreate (elemSize capacity : Nat) (calloc malloc : Bool) : Option Channel :=
  if elemSize = 0 then none
  else if !calloc then none
  else if 0 < capacity ∧ !malloc then none
  else some
    { elemSize := elemSize, capacity := capacity, buffer := fun _ => 0, head := 0, tail := 0,
      count := 0, closed := false, tags := fun _ => 0 }

def placeElement (s : St) (h k : Nat) (data : Bytes) : Option St :=
  let ch := s.chans h
  match coQueuePopFront s (.recv h) with
  | (some receiver, s) =>
    let r := (s.co receiver).call
    let d := data.take ch.elemSize
    let s := s.modify receiver fun x => { x with chanData := memcpy x.chanData 0 data ch.elemSize }
    let s := ((s.emit (.offer h k d)).emit (.serve h r)).emit (.store h r k d)
    some (wakeRoutine s receiver)
  | (none, s) =>
    if ch.count < ch.capacity then
      some ((s.setChan h (ch.pushTail k data)).emit (.offer h k (data.take ch.elemSize)))
    else none

def coChannelSend (s : St) (h k : Nat) (data : Bytes) : Outcome :=
  if (s.chans h).closed then .ret (.code .closed) s
  else match placeElement s h k data with
    | some s => .ret (.code .ok) s
    | none =>
      match s.coCurrent with
      | none => .ret (.code .inval) s
      | some c =>
        let s := s.modify c fun r =>
          { r with chanData := data, state := .waiting, frame := .send h }
        let s := coQueuePushBack s (.send h) c
        .swap (s.emit (.offer h k (data.take (s.chans h).elemSize)))

def coChannelTrysend (s : St) (h k : Nat) (data : Bytes) : Outcome :=
  if (s.chans h).closed then .ret (.code .closed) s
  else match placeElement s h k data with
    | some s => .ret (.code .ok) s
    | none => .ret (.code .busy) s

def takeElement (s : St) (h k : Nat) : Option St :=
  let ch := s.chans h
  if 0 < ch.count then
    let s := s.emit (.store h k (ch.tags ch.head) ((ch.slot ch.head).take ch.elemSize))
    let ch := ch.popHead
    match coQueuePopFront s (.send h) with
    | (some sender, s) =>
      let x := s.co sender
      some (wakeRoutine (s.setChan h (ch.pushTail x.call x.chanData)) sender)
    | (none, s) => some (s.setChan h ch)
  else
    match coQueuePopFront s (.send h) with
    | (some sender, s) =>
      let x := s.co sender
      some (wakeRoutine (s.emit (.store h k x.call (x.chanData.take ch.elemSize))) sender)
    | (none, _) => none

def coChannelRecv (s : St) (h k : Nat) : Outcome :=
  match takeElement s h k with
  | some s => .ret (.code .ok) s
  | none =>
    if (s.chans h).closed then .ret (.code .closed) s
    else match s.coCurrent with
      | none => .ret (.code .inval) s
      | some c =>
        let s := s.modify c fun r => { r with state := .waiting, frame := .recv h }
        .swap ((coQueuePushBack s (.recv h) c).emit (.recvWait h k))

def coChannelTryrecv (s : St) (h k : Nat) : Outcome :=
  match takeElement s h k with
  | some s => .ret (.code .ok) s
  | none => if (s.chans h).closed then .ret (.code .closed) s else .ret (.code .busy) s

/-- `co_channel_send` and `co_channel_recv` after the context switch. -/
def resumeChannel (s : St) (h : Nat) : Outcome :=
  .ret (.code (if (s.chans h).closed then .closed else .ok)) s

def coChannelClose (s : St) (h : Nat) : Outcome :=
  if (s.chans h).closed then .ret (.code .closed) s
  else
    let dropped := (s.queues (.send h)).map fun c => (s.co c).element (s.chans h).elemSize
    let s := (s.setChan h { s.chans h with closed := true }).emit (.close h dropped)
    let s := drainQueue wakeRoutine (.recv h) (s.queues (.recv h)).length s
    .ret (.code .ok) (drainQueue wakeRoutine (.send h) (s.queues (.send h)).length s)

end Libco
