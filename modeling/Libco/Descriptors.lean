import Libco.Readiness

/-!
# Descriptors

What the results about readiness assume of the kernel, and a kernel of which all of it is
true: pipes, stream sockets, listening sockets and sockets that connect.
-/

namespace Libco
open Lib

variable {D P : Type} {F : Files D P}

/-! ## Assumptions -/

/-- Readiness is level-triggered: what is reported as readable or writable can, at that
moment, be read, accepted or written to without blocking. -/
structure Files.LevelTriggered (F : Files D P) : Prop where
  readable : ∀ n d, (F.mask d).epollin = true →
    F.blocks .read n d = false ∧ F.blocks .accept n d = false
  writable : ∀ n d, (F.mask d).epollout = true → F.blocks .write n d = false

/-- The call of a waiter would not block. -/
def Files.Servable (F : Files D P) (call : IoCall) (n : Nat) (d : D) : Prop :=
  call ≠ .connect → F.blocks call n d = false

theorem Files.LevelTriggered.promise (hF : F.LevelTriggered) : Promise F F.Servable := by
  intro call n d _ _ hin hout hne
  cases call with
  | read => exact (hF.readable n d (hin rfl)).1
  | accept => exact (hF.readable n d (hin rfl)).2
  | write => exact hF.writable n d (hout rfl)
  | connect => exact absurd rfl hne

/-- Pipes and stream sockets: what the peers send, and the end of it, stays until it is
read. -/
structure Files.Streams (F : Files D P) (stream : D → Prop) : Prop where
  sys : ∀ call n d, stream d → stream (F.sys call n d).2
  soError : ∀ d, stream d → stream (F.soError d).2
  peer : ∀ p d, stream d → stream (F.peer p d)
  readable : ∀ n d, stream d → (F.mask d).epollin = true → F.blocks .read n d = false
  stays : ∀ n p d, stream d → F.blocks .read n d = false → F.blocks .read n (F.peer p d) = false

/-- A waiting `co_read` of a stream would not block. -/
def Files.Readable (F : Files D P) (stream : D → Prop) (call : IoCall) (n : Nat) (d : D) : Prop :=
  call = .read → stream d → F.blocks .read n d = false

theorem Files.Streams.promise {stream : D → Prop} (hF : F.Streams stream) :
    Promise F (F.Readable stream) := by
  rintro call n d _ _ hin _ rfl hd
  exact hF.readable n d hd (hin rfl)

/-- Attempts of `connect` that go on after `EINPROGRESS`: one that has failed with `e` is
reported with `EPOLLERR` and `EPOLLHUP`, and `SO_ERROR` holds `e`; one that has not and is
writable has succeeded, which is final. -/
structure Files.Attempts (F : Files D P) (failed : Errno → D → Prop) (established : D → Prop) :
    Prop where
  failed_mask : ∀ e d, failed e d → (F.mask d).epollout = true ∧ (F.mask d).epollerr = true ∧
    (F.mask d).epollhup = true
  failed_soError : ∀ e d, failed e d → (F.soError d).1 = .fail e
  failed_not : ∀ e d, failed e d → ¬ established d
  success : ∀ d, (F.mask d).epollout = true → (F.mask d).epollhup = false →
    (∀ e, ¬ failed e d) → established d
  sys : ∀ call n d, established d → established (F.sys call n d).2
  soError : ∀ d, established d → established (F.soError d).2
  peer : ∀ p d, established d → established (F.peer p d)

theorem Files.Attempts.promise {failed : Errno → D → Prop} {established : D → Prop}
    (hF : F.Attempts failed established) :
    Promise F fun call _ d => call = .connect → established d := by
  rintro call n d herr hhup _ hout rfl
  refine hF.success d (hout rfl) hhup fun e hfail => ?_
  rw [(hF.failed_mask e d hfail).2.1] at herr
  cases herr

/-! ## A kernel -/

/-- A descriptor. `writers`: the pipe has writers; `peerOpen`, `selfOpen`: the two directions
of a socket; `room`: what its send buffer takes; `pending`: the descriptors of connections
to accept. -/
inductive Desc where
  | pipe (bytes : List UInt8) (writers : Bool)
  | stream (bytes : List UInt8) (peerOpen selfOpen : Bool) (room : Nat)
  | listener (pending : List Nat)
  | fresh
  | connecting
  | failed (e : Errno)
  deriving DecidableEq

/-- `read` of bytes that are there, or at the end of the stream, or before it. -/
def readBytes (n : Nat) (bytes : List UInt8) (more : Bool) : SysRes :=
  if bytes = [] then if more then .fail .eagain else .done 0 else .done (min n bytes.length : Nat)

def Desc.read (n : Nat) : Desc → SysRes × Desc
  | .pipe bs w => (readBytes n bs w, .pipe (bs.drop n) w)
  | .stream bs p s r => (readBytes n bs p, .stream (bs.drop n) p s r)
  | .connecting => (.fail .eagain, .connecting)
  | .listener ps => (.fail (.other 107), .listener ps)
  | .fresh => (.fail (.other 107), .fresh)
  | .failed e => (.fail e, .fresh)

def Desc.write (n : Nat) : Desc → SysRes × Desc
  | .stream bs p s r =>
    if !s then (.fail (.other 32), .stream bs p s r)
    else if r = 0 then (.fail .eagain, .stream bs p s r)
    else (.done (min n r : Nat), .stream bs p s (r - min n r))
  | .connecting => (.fail .eagain, .connecting)
  | d => (.fail (.other 32), d)

def Desc.accept : Desc → SysRes × Desc
  | .listener [] => (.fail .eagain, .listener [])
  | .listener (k :: ps) => (.done k, .listener ps)
  | d => (.fail .einval, d)

def Desc.connect : Desc → SysRes × Desc
  | .fresh => (.fail .einprogress, .connecting)
  | .connecting => (.fail (.other 114), .connecting)
  | .failed e => (.fail e, .fresh)
  | d => (.fail (.other 106), d)

def Desc.soError : Desc → SysRes × Desc
  | .failed e => (.fail e, .fresh)
  | d => (.done 0, d)

/-- `EPOLLHUP` is reported once all writers of a pipe or both directions of a socket are
closed, with `EPOLLIN` only while bytes remain. -/
def Desc.mask : Desc → EpollEvents
  | .pipe bs w => ⟨bs ≠ [], false, false, !w⟩
  | .stream bs p s r => ⟨bs ≠ [] || (!p && s), s && 0 < r, false, !p && !s⟩
  | .listener ps => ⟨ps ≠ [], false, false, false⟩
  | .fresh => ⟨false, true, false, true⟩
  | .connecting => ⟨false, false, false, false⟩
  | .failed _ => ⟨false, true, true, true⟩

/-- What peers do, and the `shutdown` of the own direction. -/
inductive Peer where
  | send (bytes : List UInt8)
  | close
  | shutdown
  | take (n : Nat)
  | arrive (k : Nat)
  | establish (room : Nat)
  | refuse (e : Errno)

def Desc.peer : Peer → Desc → Desc
  | .send bs, .pipe bs' true => .pipe (bs' ++ bs) true
  | .send bs, .stream bs' true s r => .stream (bs' ++ bs) true s r
  | .close, .pipe bs _ => .pipe bs false
  | .close, .stream bs _ s r => .stream bs false s r
  | .shutdown, .stream bs p _ r => .stream bs p false r
  | .take n, .stream bs p s r => .stream bs p s (r + n)
  | .arrive k, .listener ps => .listener (ps ++ [k])
  | .establish r, .connecting => .stream [] true true r
  | .refuse e, .connecting => .failed e
  | _, d => d

def desc : Files Desc Peer where
  sys
    | .read, n => Desc.read n
    | .write, n => Desc.write n
    | .accept, _ => Desc.accept
    | .connect, _ => Desc.connect
  soError := Desc.soError
  mask := Desc.mask
  peer := Desc.peer

theorem readBytes_eagain {n : Nat} {bs : List UInt8} {more : Bool} :
    readBytes n bs more = .fail .eagain ↔ bs = [] ∧ more = true := by
  unfold readBytes
  by_cases hb : bs = []
  · cases more <;> simp [hb]
  · simp [hb]

/-- A reader of a descriptor would block: nothing is there and more may come. -/
theorem desc_blocks_read {n : Nat} {d : Desc} : desc.blocks .read n d = true ↔
    d = .pipe [] true ∨ (∃ s r, d = .stream [] true s r) ∨ d = .connecting ∨
      d = .failed .eagain := by
  cases d <;> simp [Files.blocks, desc, Desc.read, readBytes_eagain]

theorem desc_blocks_write {n : Nat} {d : Desc} : desc.blocks .write n d = true ↔
    (∃ bs p, d = .stream bs p true 0) ∨ d = .connecting := by
  cases d with
  | stream bs p s r =>
    by_cases hr : r = 0 <;> cases s <;> simp [Files.blocks, desc, Desc.write, hr]
  | _ => simp [Files.blocks, desc, Desc.write]

theorem desc_blocks_accept {n : Nat} {d : Desc} :
    desc.blocks .accept n d = true ↔ d = .listener [] := by
  cases d with
  | listener ps => cases ps <;> simp [Files.blocks, desc, Desc.accept]
  | _ => simp [Files.blocks, desc, Desc.accept]

theorem desc_levelTriggered : desc.LevelTriggered := by
  refine ⟨fun n d h => ?_, fun n d h => ?_⟩
  · simp only [← Bool.not_eq_true, desc_blocks_read, desc_blocks_accept]
    cases d <;> simp [desc, Desc.mask] at h ⊢ <;> grind
  · rw [← Bool.not_eq_true, desc_blocks_write]
    cases d <;> simp [desc, Desc.mask] at h ⊢
    grind

def Desc.IsPipe (d : Desc) : Prop := ∃ bs w, d = .pipe bs w
def Desc.IsStream (d : Desc) : Prop := ∃ bs p s r, d = .stream bs p s r

theorem Desc.IsPipe.sys {d : Desc} (h : d.IsPipe) (call : IoCall) (n : Nat) :
    (desc.sys call n d).2.IsPipe := by
  obtain ⟨bs, w, rfl⟩ := h
  cases call <;> exact ⟨_, _, rfl⟩

theorem Desc.IsPipe.peer {d : Desc} (h : d.IsPipe) (p : Peer) : (desc.peer p d).IsPipe := by
  obtain ⟨bs, w, rfl⟩ := h
  cases p with
  | send bs' => cases w <;> exact ⟨_, _, rfl⟩
  | _ => exact ⟨_, _, rfl⟩

theorem Desc.IsStream.sys {d : Desc} (h : d.IsStream) (call : IoCall) (n : Nat) :
    (desc.sys call n d).2.IsStream := by
  obtain ⟨bs, p, s, r, rfl⟩ := h
  cases call with
  | write =>
    simp only [desc, Desc.write]
    split
    · exact ⟨_, _, _, _, rfl⟩
    split <;> exact ⟨_, _, _, _, rfl⟩
  | _ => exact ⟨_, _, _, _, rfl⟩

theorem Desc.IsStream.soError {d : Desc} (h : d.IsStream) : (desc.soError d).2.IsStream := by
  obtain ⟨bs, p, s, r, rfl⟩ := h
  exact ⟨_, _, _, _, rfl⟩

theorem Desc.IsStream.peer {d : Desc} (h : d.IsStream) (p : Peer) :
    (desc.peer p d).IsStream := by
  obtain ⟨bs, q, s, r, rfl⟩ := h
  cases p with
  | send bs' => cases q <;> exact ⟨_, _, _, _, rfl⟩
  | _ => exact ⟨_, _, _, _, rfl⟩

theorem desc_streams : desc.Streams fun d => d.IsPipe ∨ d.IsStream where
  sys call n d h := h.imp (fun h => h.sys call n) fun h => h.sys call n
  soError d h := by
    rcases h with ⟨bs, w, rfl⟩ | h
    · exact .inl ⟨_, _, rfl⟩
    · exact .inr h.soError
  peer p d h := h.imp (fun h => h.peer p) fun h => h.peer p
  readable n d _ h := (desc_levelTriggered.readable n d h).1
  stays n p d _ h := by
    rw [← Bool.not_eq_true, desc_blocks_read] at h ⊢
    simp only [desc]
    unfold Desc.peer
    split <;> simp_all

theorem desc_attempts : desc.Attempts (fun e d => d = .failed e) Desc.IsStream where
  failed_mask := by
    rintro e _ rfl
    exact ⟨rfl, rfl, rfl⟩
  failed_soError := by
    rintro e _ rfl
    rfl
  failed_not := by
    rintro e _ rfl ⟨bs, p, s, r, h⟩
    cases h
  success d hout hhup hno := by
    cases d with
    | stream bs p s r => exact ⟨_, _, _, _, rfl⟩
    | failed e => exact absurd rfl (hno e)
    | _ => simp [desc, Desc.mask] at hout hhup
  sys call n d h := h.sys call n
  soError d h := h.soError
  peer p d h := h.peer p

/-! ## Runs over it -/

/-- A listening socket, a socket to connect and pipes, with nothing in them. -/
def idleFiles (fd : Int) : Desc :=
  if fd = 5 then .listener [] else if fd = 7 then .fresh else .pipe [] true

/-- Steps of the library, their calls asking for four bytes. -/
def libRun (as : List Act) : List (WorldAct Peer) := as.map fun a => .lib a 4

/-- A call without deadline. -/
def ioCall (call : IoCall) (fd : Int) (first : SysRes) : Act :=
  .call (.io ⟨call, fd, true, -1, first, 0, true, true⟩)

/-- A poll that reports events, and the timer phase after it. -/
def pollTurn (evs : List (Int × EpollEvents)) : List Act := [.timers 0, .idle (.events evs), .timers 0]

end Libco
