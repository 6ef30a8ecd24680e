import Libco.Lib.Ring
import Libco.Lib.Fifo
import Libco.CallNumbers
import Libco.Deadlines

/-!
# Channels are FIFO queues

`view f h s` is channel `h` as an abstract FIFO: the ring read from its head,
the two wait queues, and the history. An element is the number of the send call
it came from and its bytes; `f` says how much of it one looks at. Every move of
the machine is a step of the abstract FIFO or leaves it alone.
-/

namespace Libco
open Lib

variable {run : Prop} {cur : Option Nat} {s s' s₀ : St} {a : Act} {c h k n : Nat}
  {κ : Type} {f : Nat × List UInt8 → κ} {t es : List Event}

/-! ## The history of a channel -/

/-- The elements of the sends that were not refused, in order. -/
def offers (h : Nat) (t : List Event) : List (Nat × List UInt8) :=
  t.filterMap fun
    | .offer h' k d => if h' = h then some (k, d) else none
    | _ => none

/-- The elements that were stored, each with the receive it was stored for. -/
def stores (h : Nat) (t : List Event) : List (Nat × Nat × List UInt8) :=
  t.filterMap fun
    | .store h' r k d => if h' = h then some (r, k, d) else none
    | _ => none

/-- The elements that closing dropped. -/
def drops (h : Nat) (t : List Event) : List (Nat × List UInt8) :=
  t.flatMap fun
    | .close h' es => if h' = h then es else []
    | _ => []

/-- The receives that blocked, and those of them that were handed an element. -/
def recvWaits (h : Nat) (t : List Event) : List Nat :=
  t.filterMap fun
    | .recvWait h' r => if h' = h then some r else none
    | _ => none
def serves (h : Nat) (t : List Event) : List Nat :=
  t.filterMap fun
    | .serve h' r => if h' = h then some r else none
    | _ => none

@[simp] theorem offers_append : offers h (t ++ es) = offers h t ++ offers h es := by
  simp [offers]

@[simp] theorem stores_append : stores h (t ++ es) = stores h t ++ stores h es := by
  simp [stores]

@[simp] theorem drops_append : drops h (t ++ es) = drops h t ++ drops h es := by
  simp [drops]

@[simp] theorem recvWaits_append : recvWaits h (t ++ es) = recvWaits h t ++ recvWaits h es := by
  simp [recvWaits]

@[simp] theorem serves_append : serves h (t ++ es) = serves h t ++ serves h es := by
  simp [serves]

/-- Events that say nothing about the channel. -/
structure Silent (h : Nat) (es : List Event) : Prop where
  offers : offers h es = []
  stores : stores h es = []
  drops : drops h es = []
  recvWaits : recvWaits h es = []
  serves : serves h es = []

theorem silent_of_obj (he : ∀ e ∈ es, e.obj ≠ some (.chan h)) : Silent h es := by
  refine ⟨List.filterMap_eq_nil_iff.mpr ?_, List.filterMap_eq_nil_iff.mpr ?_,
    List.flatMap_eq_nil_iff.mpr ?_, List.filterMap_eq_nil_iff.mpr ?_,
    List.filterMap_eq_nil_iff.mpr ?_⟩ <;>
    · intro e hm
      have := he e hm
      cases e <;> simp [Event.obj] at this ⊢
      simp [this]

theorem silent_ready (ws : List Nat) : Silent h (ws.map .ready) :=
  silent_of_obj (event_ready_obj ws)

/-! ## The ring -/

/-- The element in a slot of the ring. -/
def Channel.element (ch : Channel) (i : Nat) : Nat × List UInt8 :=
  (ch.tags i, (ch.slot i).take ch.elemSize)

structure Channel.Shaped (ch : Channel) : Prop where
  head : 0 < ch.capacity → ch.head < ch.capacity
  tail : ch.tail = (ch.head + ch.count) % ch.capacity
  count : ch.count ≤ ch.capacity

/-- Seen through `f`, copying an element to the tail writes one slot of the ring. -/
def Apart (f : Nat × List UInt8 → κ) (elemSize capacity : Nat) : Prop :=
  ∀ (ch : Channel) (k : Nat) (data : Bytes), ch.elemSize = elemSize → ch.capacity = capacity →
    ch.tail < capacity → f ((ch.pushTail k data).element ch.tail) = f (k, data.take elemSize) ∧
      ∀ i, i < capacity → i ≠ ch.tail → f ((ch.pushTail k data).element i) = f (ch.element i)

theorem apart_fst (elemSize capacity : Nat) : Apart Prod.fst elemSize capacity := by
  intro ch k data _ _ _
  refine ⟨?_, fun i _ hi => ?_⟩
  · simp [Channel.element, Channel.pushTail]
  · simp [Channel.element, Channel.pushTail, hi]

/-- Slots whose offsets are exact do not overlap. -/
theorem slot_disjoint {i j m : Nat} (hij : i ≠ j) (hm : m < n) :
    i * n + m < j * n ∨ j * n + n ≤ i * n + m := by
  rcases Nat.lt_or_gt_of_ne hij with hlt | hlt
  · left
    have : (i + 1) * n ≤ j * n := Nat.mul_le_mul_right n hlt
    rw [Nat.add_mul] at this
    omega
  · right
    have : (j + 1) * n ≤ i * n := Nat.mul_le_mul_right n hlt
    rw [Nat.add_mul] at this
    omega

theorem take_congr {d d' : Bytes} (hd : ∀ m, m < n → d m = d' m) : d.take n = d'.take n := by
  unfold Bytes.take
  refine List.map_congr_left fun m hm => hd m (List.mem_range.mp hm)

/-- The whole element, if the products of `co_channel.c` do not wrap. -/
theorem apart_id {elemSize capacity : Nat} (hfit : elemSize * capacity < 2 ^ 64) :
    Apart id elemSize capacity := by
  rintro ch k data rfl rfl ht
  have hoff : ∀ i, i < ch.capacity → ch.offset i = i * ch.elemSize := by
    intro i hi
    refine Nat.mod_eq_of_lt (lt_of_le_of_lt ?_ hfit)
    rw [Nat.mul_comm]
    exact Nat.mul_le_mul_left _ (Nat.le_of_lt hi)
  refine ⟨?_, fun i hi hne => ?_⟩
  · refine Prod.ext ?_ (take_congr fun m hm => ?_)
    · simp [Channel.element, Channel.pushTail]
    · replace hm : m < ch.elemSize := hm
      show memcpy ch.buffer (ch.offset ch.tail) data ch.elemSize (ch.offset ch.tail + m) = data m
      simp only [memcpy]
      rw [if_pos (by omega), Nat.add_sub_cancel_left]
  · refine Prod.ext ?_ (take_congr fun m hm => ?_)
    · simp [Channel.element, Channel.pushTail, hne]
    · replace hm : m < ch.elemSize := hm
      show memcpy ch.buffer (ch.offset ch.tail) data ch.elemSize (ch.offset i + m) =
        ch.buffer (ch.offset i + m)
      simp only [memcpy]
      rw [if_neg]
      rw [hoff i hi, hoff _ ht]
      have := slot_disjoint hne hm
      omega

/-- The contents of the ring. -/
def Channel.contents (f : Nat × List UInt8 → κ) (ch : Channel) : List κ :=
  ring (fun i => f (ch.element i)) ch.capacity ch.head ch.count

theorem Channel.Shaped.push {ch : Channel} (hs : ch.Shaped)
    (hap : Apart f ch.elemSize ch.capacity) (hc : ch.count < ch.capacity) (k : Nat)
    (data : Bytes) :
    (ch.pushTail k data).Shaped ∧
      (ch.pushTail k data).contents f = ch.contents f ++ [f (k, data.take ch.elemSize)] := by
  have hpos : 0 < ch.capacity := by omega
  have ht : ch.tail < ch.capacity := by
    rw [hs.tail]
    exact Nat.mod_lt _ hpos
  obtain ⟨h1, h2⟩ := hap ch k data rfl rfl ht
  refine ⟨⟨hs.head, ?_, hc⟩, ?_⟩
  · show (ch.tail + 1) % ch.capacity = (ch.head + (ch.count + 1)) % ch.capacity
    rw [hs.tail, Nat.mod_add_mod, Nat.add_assoc]
  · rw [hs.tail] at h1 h2
    exact ring_push hc h1 h2

theorem Channel.Shaped.pop {ch : Channel} (hs : ch.Shaped) (hc : 0 < ch.count) :
    ch.popHead.Shaped ∧
      ch.contents f = f (ch.element ch.head) :: ch.popHead.contents f := by
  have hpos : 0 < ch.capacity := Nat.lt_of_lt_of_le hc hs.count
  refine ⟨⟨fun _ => Nat.mod_lt _ hpos, ?_, ?_⟩, ring_pop (hs.head hpos) hc⟩
  · show ch.tail = ((ch.head + 1) % ch.capacity + (ch.count - 1)) % ch.capacity
    rw [hs.tail, Nat.mod_add_mod]
    congr 1
    omega
  · have := hs.count
    show ch.count - 1 ≤ ch.capacity
    omega

/-! ## The view -/

/-- Channel `h` as an abstract FIFO. -/
def view (f : Nat × List UInt8 → κ) (h : Nat) (s : St) : Fifo Nat κ where
  capacity := (s.chans h).capacity
  closed := (s.chans h).closed
  ring := (s.chans h).contents f
  senders := (s.queues (.send h)).map fun c => f ((s.co c).element (s.chans h).elemSize)
  receivers := (s.queues (.recv h)).map fun c => (s.co c).call
  offered := (offers h s.trace).map f
  stored := (stores h s.trace).map fun x => (x.1, f x.2)
  dropped := (drops h s.trace).map f
  waited := recvWaits h s.trace
  served := serves h s.trace

/-- What the view rests on. -/
structure ViewOk (f : Nat × List UInt8 → κ) (h : Nat) (s : St) : Prop where
  shaped : (s.chans h).Shaped
  apart : Apart f (s.chans h).elemSize (s.chans h).capacity

theorem ViewOk.same (hv : ViewOk f h s) (hch : s'.chans h = s.chans h) : ViewOk f h s' := by
  refine ⟨?_, ?_⟩ <;> rw [hch]
  · exact hv.shaped
  · exact hv.apart

/-- A receiver that waits is in the queue. -/
theorem queued_of_waits (hi : Inv run cur s.toSched) (hf : (s.co c).frame = .recv h)
    (hst : (s.co c).state = .waiting) : c ∈ s.queues (.recv h) :=
  hi.mem_of_home (by simp [Routine.home, hf, hst, Frame.suspended, Frame.waitQueue])

/-- Members of the wait queues of a channel. -/
theorem Inv.chan_member (hi : Inv run cur s.toSched) {q : QueueRef} (hq : q.obj = some (.chan h))
    (hm : c ∈ s.queues q) : .chan h ∈ (s.co c).frame.objs := by
  have hne : q ≠ .ready := by
    rintro rfl
    cases hq
  obtain ⟨-, hw⟩ := Routine.home_wait (hi.mem_queue hm) hne
  obtain ⟨o, ho, hmem⟩ := Frame.objs_of_waitQueue hw
  rw [hq, Option.some.injEq] at ho
  exact ho ▸ hmem

/-- The view depends on the record of the channel, its queues and its history. -/
theorem view_same (hch : s'.chans h = s.chans h)
    (hqs : ∀ q, q.obj = some (.chan h) → s'.queues q = s.queues q)
    (hco : ∀ q, q.obj = some (.chan h) → ∀ c ∈ s.queues q,
      (s'.co c).call = (s.co c).call ∧ (s'.co c).chanData = (s.co c).chanData)
    (htr : s'.trace = s.trace ++ es) (hes : Silent h es) : view f h s' = view f h s := by
  refine Fifo.ext ?_ ?_ ?_ ?_ ?_ ?_ ?_ ?_ ?_ ?_
  · simp only [view, hch]
  · simp only [view, hch]
  · simp only [view, hch]
  · simp only [view, hch, hqs (.send h) rfl]
    refine List.map_congr_left fun c hm => ?_
    obtain ⟨h1, h2⟩ := hco (.send h) rfl c hm
    simp only [Routine.element, h1, h2]
  · simp only [view, hqs (.recv h) rfl]
    exact List.map_congr_left fun c hm => (hco (.recv h) rfl c hm).1
  · simp [view, htr, hes.offers]
  · simp [view, htr, hes.stores]
  · simp [view, htr, hes.drops]
  · simp [view, htr, hes.recvWaits]
  · simp [view, htr, hes.serves]

@[simp] theorem view_ret {r : Ret} : view f h (s.emit (.ret k r)) = view f h s :=
  view_same rfl (fun _ _ => rfl) (fun _ _ _ _ => ⟨rfl, rfl⟩) rfl
    (silent_of_obj (by simp [Event.obj]))

theorem SameFor.view (hi : Inv run cur s.toSched) (hsame : SameFor (.chan h) s s') :
    view f h s' = view f h s := by
  obtain ⟨es, htr, he⟩ := hsame.trace
  refine view_same (hsame.chan h rfl) hsame.queues (fun q hq c hm => ?_) htr (silent_of_obj he)
  have := hsame.co c (.inl (hi.chan_member hq hm))
  exact ⟨this.call, this.chanData⟩

/-! ## Moves at the channel -/

/-- The running coroutine is in no queue. -/
theorem Inv.current_not_queued (hi : Inv run (some c) s.toSched) (q : QueueRef) :
    c ∉ s.queues q := List.count_eq_zero.mp ((hi.out rfl).1 q)

theorem map_update {β : Type} {r : Routine} {l : List Nat} {g : Routine → β} (hc : c ∉ l) :
    l.map (fun d => g (Function.update s.co c r d)) = l.map fun d => g (s.co d) := by
  refine List.map_congr_left fun d hd => ?_
  have hdc : d ≠ c := by
    rintro rfl
    exact hc hd
  rw [Function.update_of_ne hdc]

theorem wakeAll_call {q : QueueRef} {ws rest : List Nat} (s : St) (d : Nat) :
    ((wakeAll s q ws rest .wake).co d).call = (s.co d).call := by
  simp only [wakeAll]
  split <;> rfl

theorem wakeAll_element {q : QueueRef} {ws rest : List Nat} (s : St) (d n : Nat) :
    ((wakeAll s q ws rest .wake).co d).element n = (s.co d).element n := by
  simp only [wakeAll]
  split <;> rfl

/-- The view after a move, by the records it reads and the events it adds. -/
theorem view_after {ring senders : List κ} {receivers : List Nat} {closed : Bool}
    (hcap : (s'.chans h).capacity = (s.chans h).capacity) (hcl : (s'.chans h).closed = closed)
    (hring : (s'.chans h).contents f = ring)
    (hsend : (s'.queues (.send h)).map
      (fun c => f ((s'.co c).element (s'.chans h).elemSize)) = senders)
    (hrecv : (s'.queues (.recv h)).map (fun c => (s'.co c).call) = receivers)
    (htr : s'.trace = s.trace ++ es) :
    view f h s' = { view f h s with
      closed := closed, ring := ring, senders := senders, receivers := receivers
      offered := (view f h s).offered ++ (offers h es).map f
      stored := (view f h s).stored ++ (stores h es).map fun x => (x.1, f x.2)
      dropped := (view f h s).dropped ++ (drops h es).map f
      waited := (view f h s).waited ++ recvWaits h es
      served := (view f h s).served ++ serves h es } := by
  refine Fifo.ext hcap hcl hring hsend hrecv ?_ ?_ ?_ ?_ ?_ <;> simp [view, htr]

/-- A sender blocks. -/
theorem Blocks.view_send {r : Routine} (hb : Blocks s s' c r) (hi : Inv run (some c) s.toSched)
    (hf : r.frame = .send h) : Fifo.Step (view f h s) (view f h s') := by
  have hch : s'.chans h = s.chans h := hb.objects.chan_at h
  obtain ⟨ho, hr, hfull⟩ : (s.chans h).closed = false ∧ s.queues (.recv h) = [] ∧
      (s.chans h).capacity ≤ (s.chans h).count := by
    have := hb.must
    rwa [hf] at this
  have hq : s'.queues = Function.update s.queues (.send h) (s.queues (.send h) ++ [c]) := by
    have := hb.queues
    rwa [hf] at this
  have htr : s'.trace =
      s.trace ++ [Event.offer h r.call (r.chanData.take (s.chans h).elemSize)] := by
    have := hb.trace
    rwa [blockEvents, hf] at this
  have hsend : (s'.queues (.send h)).map (fun d => f ((s'.co d).element (s'.chans h).elemSize)) =
      (view f h s).senders ++ [f (r.element (s.chans h).elemSize)] := by
    simp only [view, hch, hq, hb.co, Function.update_self, List.map_append, List.map_singleton]
    rw [map_update (g := fun x => f (x.element _)) (hi.current_not_queued _)]
  have hrecv : (s'.queues (.recv h)).map (fun d => (s'.co d).call) = (view f h s).receivers := by
    simp [view, hq, hr]
  have hring : (s'.chans h).contents f = (view f h s).ring := by rw [hch]; rfl
  have hcl : (s'.chans h).closed = (view f h s).closed := by rw [hch]; rfl
  rw [view_after (by rw [hch]) hcl hring hsend hrecv htr]
  have := Fifo.Step.blockSend (x := view f h s) (f (r.element (s.chans h).elemSize)) ho
    (by simp [view, hr]) (by simpa [view, Channel.contents] using hfull)
  simpa [offers, stores, drops, recvWaits, serves, Routine.element] using this

/-- A receiver blocks. -/
theorem Blocks.view_recv {r : Routine} (hb : Blocks s s' c r) (hi : Inv run (some c) s.toSched)
    (hf : r.frame = .recv h) : Fifo.Step (view f h s) (view f h s') := by
  have hch : s'.chans h = s.chans h := hb.objects.chan_at h
  obtain ⟨ho, hsnd, hzero⟩ : (s.chans h).closed = false ∧ s.queues (.send h) = [] ∧
      (s.chans h).count = 0 := by
    have := hb.must
    rwa [hf] at this
  have hq : s'.queues = Function.update s.queues (.recv h) (s.queues (.recv h) ++ [c]) := by
    have := hb.queues
    rwa [hf] at this
  have htr : s'.trace = s.trace ++ [Event.recvWait h r.call] := by
    have := hb.trace
    rwa [blockEvents, hf] at this
  have hsend : (s'.queues (.send h)).map (fun d => f ((s'.co d).element (s'.chans h).elemSize)) =
      (view f h s).senders := by
    simp [view, hq, hsnd]
  have hrecv : (s'.queues (.recv h)).map (fun d => (s'.co d).call) =
      (view f h s).receivers ++ [r.call] := by
    simp only [view, hq, hb.co, Function.update_self, List.map_append, List.map_singleton]
    rw [map_update (g := fun x => x.call) (hi.current_not_queued _)]
  have hring : (s'.chans h).contents f = (view f h s).ring := by rw [hch]; rfl
  have hcl : (s'.chans h).closed = (view f h s).closed := by rw [hch]; rfl
  rw [view_after (by rw [hch]) hcl hring hsend hrecv htr]
  have := Fifo.Step.blockRecv (x := view f h s) r.call ho
    (by simp [view, Channel.contents, hzero]) (by simp [view, hsnd])
  simpa [offers, stores, drops, recvWaits, serves] using this

/-- The element goes to the receiver that waits longest. -/
theorem view_hand {rest : List Nat} {data : Bytes} (hi : Inv run cur s.toSched)
    (ho : (s.chans h).closed = false) (hq : s.queues (.recv h) = c :: rest)
    (hs' : s' = wakeAll (deliver s h k c data) (.recv h) [c] rest .wake) :
    Fifo.Step (view f h s) (view f h s') := by
  have hcall : ∀ d, ((deliver s h k c data).co d).call = (s.co d).call := by
    intro d
    by_cases hd : d = c
    · simp [deliver, St.modify, St.emit, hd]
    · simp [deliver, St.modify, St.emit, hd]
  have hother : ∀ d ∈ s.queues (.send h), (deliver s h k c data).co d = s.co d := by
    intro d hd
    have hdc : d ≠ c := by
      rintro rfl
      have h1 := hi.mem_queue hd
      have h2 := hi.mem_queue (q := .recv h) (c := d) (by rw [hq]; simp)
      rw [h1] at h2
      cases h2
    simp [deliver, St.modify, St.emit, hdc]
  have hch : s'.chans h = s.chans h := by rw [hs']; rfl
  have hsend : (s'.queues (.send h)).map (fun d => f ((s'.co d).element (s'.chans h).elemSize)) =
      (view f h s).senders := by
    rw [hch, hs']
    simp only [wakeAll_element]
    refine List.map_congr_left fun d hd => ?_
    rw [hother d hd]
  have hrecv : (s'.queues (.recv h)).map (fun d => (s'.co d).call) =
      rest.map fun d => (s.co d).call := by
    rw [hs']
    simp only [wakeAll_call, hcall]
    simp [wakeAll]
  have htr : s'.trace = s.trace ++
      [Event.offer h k (data.take (s.chans h).elemSize), .serve h (s.co c).call,
        .store h (s.co c).call k (data.take (s.chans h).elemSize), .ready c] := by
    simp [hs', wakeAll, deliver_trace]
  have hring : (s'.chans h).contents f = (view f h s).ring := by rw [hch]; rfl
  have hcl : (s'.chans h).closed = (view f h s).closed := by rw [hch]; rfl
  rw [view_after (by rw [hch]) hcl hring hsend hrecv htr]
  have := Fifo.Step.hand (x := view f h s) (f (k, data.take (s.chans h).elemSize)) ho
    (r := (s.co c).call) (show (view f h s).receivers = _ :: rest.map fun d => (s.co d).call by
      simp [view, hq])
  simpa [offers, stores, drops, recvWaits, serves] using this

/-- The element goes to the ring. -/
theorem view_push {data : Bytes} (hv : ViewOk f h s) (ho : (s.chans h).closed = false)
    (hq : s.queues (.recv h) = []) (hroom : (s.chans h).count < (s.chans h).capacity)
    (hs' : s' = (s.setChan h ((s.chans h).pushTail k data)).emit
      (.offer h k (data.take (s.chans h).elemSize))) :
    ViewOk f h s' ∧ Fifo.Step (view f h s) (view f h s') := by
  obtain ⟨hshape, hring⟩ := hv.shaped.push hv.apart hroom k data
  have hch : s'.chans h = (s.chans h).pushTail k data := by simp [hs', St.emit, St.setChan]
  rw [← hch] at hshape
  have hring : (s'.chans h).contents f =
      (view f h s).ring ++ [f (k, data.take (s.chans h).elemSize)] := by rw [hch, hring]; rfl
  refine ⟨⟨hshape, by rw [hch]; exact hv.apart⟩, ?_⟩
  have hsend : (s'.queues (.send h)).map (fun d => f ((s'.co d).element (s'.chans h).elemSize)) =
      (view f h s).senders := by rw [hch, hs']; rfl
  have hrecv : (s'.queues (.recv h)).map (fun d => (s'.co d).call) = (view f h s).receivers := by
    rw [hs']; rfl
  have htr : s'.trace = s.trace ++ [Event.offer h k (data.take (s.chans h).elemSize)] := by
    rw [hs']; rfl
  have hcl : (s'.chans h).closed = (view f h s).closed := by rw [hch]; rfl
  rw [view_after (by rw [hch]; rfl) hcl hring hsend hrecv htr]
  have := Fifo.Step.push (x := view f h s) (f (k, data.take (s.chans h).elemSize)) ho
    (by simp [view, hq]) (by simpa [view, Channel.contents] using hroom)
  simpa [offers, stores, drops, recvWaits, serves] using this

/-- A receive takes the oldest element of the ring. -/
theorem view_pop (hv : ViewOk f h s) (hpos : 0 < (s.chans h).count) (hq : s.queues (.send h) = [])
    (hs' : s' = (s.storeHead h k).setChan h (s.chans h).popHead) :
    ViewOk f h s' ∧ Fifo.Step (view f h s) (view f h s') := by
  obtain ⟨hshape, hring⟩ := hv.shaped.pop (f := f) hpos
  have hch : s'.chans h = (s.chans h).popHead := by simp [hs', St.setChan]
  rw [← hch] at hshape
  refine ⟨⟨hshape, by rw [hch]; exact hv.apart⟩, ?_⟩
  have hsend : (s'.queues (.send h)).map (fun d => f ((s'.co d).element (s'.chans h).elemSize)) =
      (view f h s).senders := by rw [hch, hs']; rfl
  have hrecv : (s'.queues (.recv h)).map (fun d => (s'.co d).call) = (view f h s).receivers := by
    rw [hs']; rfl
  have htr : s'.trace = s.trace ++ [Event.store h k ((s.chans h).element (s.chans h).head).1
      ((s.chans h).element (s.chans h).head).2] := by
    rw [hs']; rfl
  have hcl : (s'.chans h).closed = (view f h s).closed := by rw [hch]; rfl
  rw [view_after (by rw [hch]; rfl) hcl rfl hsend hrecv htr, hch]
  have := Fifo.Step.pop (x := view f h s) k hring (by simp [view, hq])
  simpa [offers, stores, drops, recvWaits, serves] using this

/-- The calls and elements of those that stay in the queues. -/
theorem view_woken {q : QueueRef} {t : St} {rest : List Nat}
    (hs' : s' = wakeAll t q [c] rest .wake) (hco : t.co = s.co) (hqs : t.queues = s.queues) :
    (∀ d, (s'.co d).call = (s.co d).call) ∧ (∀ d n, (s'.co d).element n = (s.co d).element n) ∧
      s'.queues = Function.update (Function.update s.queues q rest) .ready
        (s.queues .ready ++ [c]) := by
  subst hs'
  refine ⟨fun d => ?_, fun d n => ?_, ?_⟩
  · rw [wakeAll_call, hco]
  · rw [wakeAll_element, hco]
  · simp [wakeAll, hqs]

/-- And the sender that waits longest fills the gap. -/
theorem view_refill {rest : List Nat} (hv : ViewOk f h s) (hpos : 0 < (s.chans h).count)
    (hq : s.queues (.send h) = c :: rest)
    (hs' : s' = wakeAll ((s.storeHead h k).setChan h
      ((s.chans h).popHead.pushTail (s.co c).call (s.co c).chanData)) (.send h) [c] rest .wake) :
    ViewOk f h s' ∧ Fifo.Step (view f h s) (view f h s') := by
  have hle := hv.shaped.count
  obtain ⟨hshape, hring⟩ := hv.shaped.pop (f := f) hpos
  obtain ⟨hshape', hring'⟩ := hshape.push hv.apart
    (show (s.chans h).count - 1 < (s.chans h).capacity by omega) (s.co c).call (s.co c).chanData
  have hch : s'.chans h = (s.chans h).popHead.pushTail (s.co c).call (s.co c).chanData := by
    simp [hs', wakeAll, St.setChan]
  rw [← hch] at hshape'
  have hring' : (s'.chans h).contents f = (s.chans h).popHead.contents f ++
      [f ((s.co c).element (s.chans h).elemSize)] := by rw [hch, hring']; rfl
  refine ⟨⟨hshape', by rw [hch]; exact hv.apart⟩, ?_⟩
  obtain ⟨hcall, helem, hqs⟩ := view_woken (s := s) hs' rfl rfl
  have hsend : (s'.queues (.send h)).map (fun d => f ((s'.co d).element (s'.chans h).elemSize)) =
      rest.map fun d => f ((s.co d).element (s.chans h).elemSize) := by
    simp only [helem, hqs, hch]
    simp [Channel.popHead, Channel.pushTail]
  have hrecv : (s'.queues (.recv h)).map (fun d => (s'.co d).call) = (view f h s).receivers := by
    simp [hcall, hqs, view]
  have htr : s'.trace = s.trace ++ [Event.store h k ((s.chans h).element (s.chans h).head).1
      ((s.chans h).element (s.chans h).head).2, .ready c] := by
    simp [hs', wakeAll, St.setChan, St.storeHead, St.emit, Channel.element]
  have hcl : (s'.chans h).closed = (view f h s).closed := by rw [hch]; rfl
  rw [view_after (by rw [hch]; rfl) hcl hring' hsend hrecv htr]
  have := Fifo.Step.refill (x := view f h s) k hring
    (show (view f h s).senders = f ((s.co c).element (s.chans h).elemSize) :: rest.map fun d =>
      f ((s.co d).element (s.chans h).elemSize) by simp [view, hq])
  simpa [offers, stores, drops, recvWaits, serves, Routine.element] using this

/-- A receive takes the element of the sender that waits longest. -/
theorem view_meet {rest : List Nat} (hzero : (s.chans h).count = 0)
    (hq : s.queues (.send h) = c :: rest)
    (hs' : s' = wakeAll (s.emit (.store h k (s.co c).call
      ((s.co c).chanData.take (s.chans h).elemSize))) (.send h) [c] rest .wake) :
    Fifo.Step (view f h s) (view f h s') := by
  have hch : s'.chans h = s.chans h := by rw [hs']; rfl
  obtain ⟨hcall, helem, hqs⟩ := view_woken (s := s) hs' rfl rfl
  have hsend : (s'.queues (.send h)).map (fun d => f ((s'.co d).element (s'.chans h).elemSize)) =
      rest.map fun d => f ((s.co d).element (s.chans h).elemSize) := by
    simp only [helem, hqs, hch]
    simp
  have hrecv : (s'.queues (.recv h)).map (fun d => (s'.co d).call) = (view f h s).receivers := by
    simp [hcall, hqs, view]
  have htr : s'.trace = s.trace ++ [Event.store h k ((s.co c).element (s.chans h).elemSize).1
      ((s.co c).element (s.chans h).elemSize).2, .ready c] := by
    simp [hs', wakeAll, St.emit, Routine.element]
  have hring : (s'.chans h).contents f = (view f h s).ring := by rw [hch]; rfl
  have hcl : (s'.chans h).closed = (view f h s).closed := by rw [hch]; rfl
  rw [view_after (by rw [hch]) hcl hring hsend hrecv htr]
  have := Fifo.Step.meet (x := view f h s) k (by simp [view, Channel.contents, hzero])
    (show (view f h s).senders = f ((s.co c).element (s.chans h).elemSize) :: rest.map fun d =>
      f ((s.co d).element (s.chans h).elemSize) by simp [view, hq])
  simpa [offers, stores, drops, recvWaits, serves] using this

/-- The channel is closed. -/
theorem view_closed (hs' : s' = wakeAll (wakeAll ((s.setChan h { s.chans h with closed := true }).emit
      (.close h ((s.queues (.send h)).map fun c => (s.co c).element (s.chans h).elemSize)))
      (.recv h) (s.queues (.recv h)) [] .wake) (.send h) (s.queues (.send h)) [] .wake) :
    view f h s' = { view f h s with
      closed := true, senders := [], receivers := []
      dropped := (view f h s).dropped ++ (view f h s).senders } := by
  have hch : s'.chans h = { s.chans h with closed := true } := by
    simp [hs', wakeAll, St.setChan, St.emit]
  have hsend : (s'.queues (.send h)).map (fun d => f ((s'.co d).element (s'.chans h).elemSize)) =
      [] := by
    simp [hs', wakeAll]
  have hrecv : (s'.queues (.recv h)).map (fun d => (s'.co d).call) = [] := by
    simp [hs', wakeAll]
  have htr : s'.trace = s.trace ++
      (Event.close h ((s.queues (.send h)).map fun c => (s.co c).element (s.chans h).elemSize) ::
        (s.queues (.recv h) ++ s.queues (.send h)).map Event.ready) := by
    simp [hs', wakeAll, St.setChan, St.emit]
  have hring : (s'.chans h).contents f = (view f h s).ring := by rw [hch]; rfl
  have hsil := silent_ready (h := h) (s.queues (.recv h) ++ s.queues (.send h))
  have hdrop : (view f h s).senders =
      ((s.queues (.send h)).map fun c => (s.co c).element (s.chans h).elemSize).map f := by
    simp [view]
  rw [view_after (by rw [hch]) (show (s'.chans h).closed = true by rw [hch]) hring hsend hrecv htr,
    ← List.singleton_append, offers_append, stores_append, drops_append, recvWaits_append,
    serves_append, hsil.offers, hsil.stores, hsil.drops, hsil.recvWaits, hsil.serves, hdrop]
  simp [offers, stores, drops, recvWaits, serves]

theorem view_close (hv : ViewOk f h s) (ho : (s.chans h).closed = false)
    (hs' : s' = wakeAll (wakeAll ((s.setChan h { s.chans h with closed := true }).emit
      (.close h ((s.queues (.send h)).map fun c => (s.co c).element (s.chans h).elemSize)))
      (.recv h) (s.queues (.recv h)) [] .wake) (.send h) (s.queues (.send h)) [] .wake) :
    ViewOk f h s' ∧ Fifo.Step (view f h s) (view f h s') := by
  have hch : s'.chans h = { s.chans h with closed := true } := by
    simp [hs', wakeAll, St.setChan, St.emit]
  refine ⟨⟨?_, by rw [hch]; exact hv.apart⟩, ?_⟩
  · rw [hch]
    exact ⟨hv.shaped.head, hv.shaped.tail, hv.shaped.count⟩
  · rw [view_closed hs']
    exact .close ho

theorem chan_mem_objs {f : Frame} : Obj.chan h ∈ f.objs ↔ f = .send h ∨ f = .recv h := by
  cases f <;> simp [Frame.objs, eq_comm]

/-- What a move can be to channel `h`. -/
inductive ChanMove (h : Nat) (s₀ : St) (a : Act) : Option Nat × St → Option Nat × St → Prop
  | other {cur cur' : Option Nat} {s s' : St} (hsame : SameFor (.chan h) s s') :
      ChanMove h s₀ a (cur, s) (cur', s')
  | send {c : Nat} {op : Op} {s s' : St} {r : Routine} (hb : Begins s₀ a s op)
      (hbl : Blocks s s' c r) (hf : r.frame = .send h) : ChanMove h s₀ a (some c, s) (none, s')
  | recv {c : Nat} {op : Op} {s s' : St} {r : Routine} (hb : Begins s₀ a s op)
      (hbl : Blocks s s' c r) (hf : r.frame = .recv h) : ChanMove h s₀ a (some c, s) (none, s')
  | dispatch {c : Nat} {rest : List Nat} {s' : St} (hd : Dispatches s₀ s' c rest) :
      ChanMove h s₀ a (none, s₀) (some c, s')
  | hand {cur : Option Nat} {c : Nat} {rest : List Nat} {data : Bytes} {op : Op} {s s' : St}
      (hb : Begins s₀ a s op) (hop : op.name = .send h ∨ op.name = .trysend h)
      (hcl : (s.chans h).closed = false) (hq : s.queues (.recv h) = c :: rest)
      (hs' : s' = wakeAll (deliver s h s₀.calls c data) (.recv h) [c] rest .wake) :
      ChanMove h s₀ a (cur, s) (cur, s')
  | push {cur : Option Nat} {data : Bytes} {op : Op} {s s' : St} (hb : Begins s₀ a s op)
      (hop : op.name = .send h ∨ op.name = .trysend h) (hcl : (s.chans h).closed = false)
      (hq : s.queues (.recv h) = []) (hroom : (s.chans h).count < (s.chans h).capacity)
      (hs' : s' = (s.setChan h ((s.chans h).pushTail s₀.calls data)).emit
        (.offer h s₀.calls (data.take (s.chans h).elemSize))) :
      ChanMove h s₀ a (cur, s) (cur, s')
  | pop {cur : Option Nat} {op : Op} {s s' : St} (hb : Begins s₀ a s op)
      (hop : op.name = .recv h ∨ op.name = .tryrecv h) (hpos : 0 < (s.chans h).count)
      (hq : s.queues (.send h) = [])
      (hs' : s' = (s.storeHead h s₀.calls).setChan h (s.chans h).popHead) :
      ChanMove h s₀ a (cur, s) (cur, s')
  | refill {cur : Option Nat} {c : Nat} {rest : List Nat} {op : Op} {s s' : St}
      (hb : Begins s₀ a s op) (hop : op.name = .recv h ∨ op.name = .tryrecv h)
      (hpos : 0 < (s.chans h).count) (hq : s.queues (.send h) = c :: rest)
      (hs' : s' = wakeAll ((s.storeHead h s₀.calls).setChan h
        ((s.chans h).popHead.pushTail (s.co c).call (s.co c).chanData)) (.send h) [c] rest .wake) :
      ChanMove h s₀ a (cur, s) (cur, s')
  | meet {cur : Option Nat} {c : Nat} {rest : List Nat} {op : Op} {s s' : St}
      (hb : Begins s₀ a s op) (hop : op.name = .recv h ∨ op.name = .tryrecv h)
      (hzero : (s.chans h).count = 0) (hq : s.queues (.send h) = c :: rest)
      (hs' : s' = wakeAll (s.emit (.store h s₀.calls (s.co c).call
        ((s.co c).chanData.take (s.chans h).elemSize))) (.send h) [c] rest .wake) :
      ChanMove h s₀ a (cur, s) (cur, s')
  | close {cur : Option Nat} {op : Op} {s s' : St} (hb : Begins s₀ a s op)
      (hop : op.name = .close h) (hcl : (s.chans h).closed = false)
      (hs' : s' = wakeAll (wakeAll ((s.setChan h { s.chans h with closed := true }).emit
        (.close h ((s.queues (.send h)).map fun c => (s.co c).element (s.chans h).elemSize)))
        (.recv h) (s.queues (.recv h)) [] .wake) (.send h) (s.queues (.send h)) [] .wake) :
      ChanMove h s₀ a (cur, s) (cur, s')

theorem Move.atChan {os : List Obj} {p p' : Option Nat × St} (hm : Move s₀ a os p p')
    (hi : Inv False p.1 p.2.toSched) (h : Nat) : ChanMove h s₀ a p p' := by
  by_cases ho : Obj.chan h ∈ os
  swap
  · exact .other (hm.footprint hi ho)
  cases hm with
  | admin _ | invoke _ | skipId _ | spawn _ | finish _ | yieldNow _ _ | drain _ _ _ _ | touch _ _
  | dropTimer _ _ _ | polled _ _ => simp at ho
  | take _ _ | unlock _ _ _ _ _ _ | handoff _ _ _ _ _ _ | notify _ _ => simp at ho
  | block hb hf hbl =>
    rcases chan_mem_objs.mp ho with hfr | hfr
    · exact .send hb hbl hfr
    · exact .recv hb hbl hfr
  | dispatch hd ha => exact .dispatch hd
  | relock hr ha =>
    obtain ⟨v, ⟨-, rfl⟩ | ⟨-, rfl⟩⟩ := Frame.relocking_spec hr.relocking <;>
      simp [Frame.objs] at ho
  | expire he =>
    have := he.timed
    rcases chan_mem_objs.mp ho with hfr | hfr <;> rw [hfr] at this <;> cases this
  | @placeHand cur h' c rest data op s hb hop hcl hq =>
    obtain rfl : h = h' := by simpa using ho
    exact .hand hb hop hcl hq rfl
  | @placeRing cur h' data op s hb hop hcl hq hroom =>
    obtain rfl : h = h' := by simpa using ho
    exact .push hb hop hcl hq hroom rfl
  | @takeRing cur h' op s hb hop hpos hq =>
    obtain rfl : h = h' := by simpa using ho
    exact .pop hb hop hpos hq rfl
  | @takeRefill cur h' c rest op s hb hop hpos hq =>
    obtain rfl : h = h' := by simpa using ho
    exact .refill hb hop hpos hq rfl
  | @takeMeet cur h' c rest op s hb hop hzero hq =>
    obtain rfl : h = h' := by simpa using ho
    exact .meet hb hop hzero hq rfl
  | @close cur h' op s hb hop hcl =>
    obtain rfl : h = h' := by simpa using ho
    exact .close hb hop hcl rfl

/-- A dispatch leaves the channel alone. -/
theorem Dispatches.view {rest : List Nat} (hd : Dispatches s s' c rest)
    (hi : Inv run cur s.toSched) : view f h s' = view f h s := by
  have hnq : ∀ q, q.obj = some (.chan h) → c ∉ s.queues q := by
    intro q hq
    have hne : q ≠ .ready := by
      rintro rfl
      cases hq
    exact hi.ready_not_queued hd.ready hne
  refine view_same (hd.objects.chan_at h) (fun q hq => ?_) (fun q hq d hdq => ?_) hd.trace
    (silent_of_obj ?_)
  · exact queues_update hd.queues (by simp [QueueRef.obj]) q hq
  · have hdc : d ≠ c := by
      rintro rfl
      exact hnq q hq hdq
    rw [hd.co, Function.update_of_ne hdc]
    exact ⟨rfl, rfl⟩
  · unfold dispatchEvents
    split <;> simp [Event.obj]

/-- **Simulation.** A move is a step of the abstract FIFO, or none. -/
theorem ChanMove.view {p p' : Option Nat × St} (hm : ChanMove h s₀ a p p')
    (hi : Inv False p.1 p.2.toSched) (hv : ViewOk f h p.2) :
    ViewOk f h p'.2 ∧ Relation.ReflGen Fifo.Step (view f h p.2) (view f h p'.2) := by
  cases hm with
  | other hsame =>
    rw [hsame.view hi]
    exact ⟨hv.same (hsame.chan h rfl), .refl⟩
  | send hb hbl hf => exact ⟨hv.same (hbl.objects.chan_at h), .single (hbl.view_send hi hf)⟩
  | recv hb hbl hf => exact ⟨hv.same (hbl.objects.chan_at h), .single (hbl.view_recv hi hf)⟩
  | dispatch hd =>
    rw [hd.view hi]
    exact ⟨hv.same (hd.objects.chan_at h), .refl⟩
  | hand hb hop hcl hq hs' =>
    exact ⟨hv.same (by rw [hs']; rfl), .single (view_hand hi hcl hq hs')⟩
  | push hb hop hcl hq hroom hs' =>
    obtain ⟨h1, h2⟩ := view_push hv hcl hq hroom hs'
    exact ⟨h1, .single h2⟩
  | pop hb hop hpos hq hs' =>
    obtain ⟨h1, h2⟩ := view_pop hv hpos hq hs'
    exact ⟨h1, .single h2⟩
  | refill hb hop hpos hq hs' =>
    obtain ⟨h1, h2⟩ := view_refill hv hpos hq hs'
    exact ⟨h1, .single h2⟩
  | meet hb hop hzero hq hs' =>
    exact ⟨hv.same (by rw [hs']; rfl), .single (view_meet hzero hq hs')⟩
  | close hb hop hcl hs' =>
    obtain ⟨h1, h2⟩ := view_close hv hcl hs'
    exact ⟨h1, .single h2⟩

end Libco
