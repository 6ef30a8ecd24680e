import Mathlib.Data.List.Count
import Libco.Messages
import Libco.Registrations

/-!
# The rings of channels

The indices of a ring, the two wait queues and the closed flag of a channel hang
together: nobody is blocked whom the channel could serve. Slots of the ring are used only
when there is a ring, and below its capacity; whether they lie inside the block that
`co_channel_create` asked `malloc` for depends on a product in `size_t`.
-/

namespace Libco
open Lib

variable {s s' t : St} {a : Act} {c h k : Nat}

/-! ## Slots in use -/

/-- The slots that the code of an operation copies to or from, each with its channel, in
order. The index of the slot is then advanced modulo the capacity. -/
def ringSlots (s : St) : Op → List (Nat × Nat)
  | .channelSend h _ | .channelTrysend h _ =>
    if (s.chans h).closed then []
    else match s.queues (.recv h) with
      | [] => if (s.chans h).count < (s.chans h).capacity then [(h, (s.chans h).tail)] else []
      | _ :: _ => []
  | .channelRecv h | .channelTryrecv h =>
    if 0 < (s.chans h).count then
      match s.queues (.send h) with
      | [] => [(h, (s.chans h).head)]
      | _ :: _ => [(h, (s.chans h).head), (h, (s.chans h).tail)]
    else []
  | _ => []

/-- A send writes a slot exactly when it puts its element into the ring. -/
theorem placeElement_slots {data : Bytes} (ho : (s.chans h).closed = false)
    (hp : placeElement s h k data = some t) :
    (ringSlots s (.channelSend h data) = [] ∧ t.chans = s.chans) ∨
      (ringSlots s (.channelSend h data) = [(h, (s.chans h).tail)] ∧
        t.chans = Function.update s.chans h ((s.chans h).pushTail k data)) := by
  obtain ⟨c, rest, hq, rfl⟩ | ⟨hq, hroom, rfl⟩ := placeElement_cases hp
  · exact .inl ⟨by simp [ringSlots, hq], rfl⟩
  · exact .inr ⟨by simp [ringSlots, ho, hq, hroom], rfl⟩

/-- A receive reads the slot at the head, and writes the one at the tail when it refills
the ring. -/
theorem takeElement_slots (ht : takeElement s h k = some t) :
    (ringSlots s (.channelRecv h) = [] ∧ t.chans = s.chans) ∨
      (ringSlots s (.channelRecv h) = [(h, (s.chans h).head)] ∧
        t.chans = Function.update s.chans h (s.chans h).popHead) ∨
      ∃ c, ringSlots s (.channelRecv h) = [(h, (s.chans h).head), (h, (s.chans h).tail)] ∧
        t.chans = Function.update s.chans h
          ((s.chans h).popHead.pushTail (s.co c).call (s.co c).chanData) := by
  obtain ⟨hpos, hq, rfl⟩ | ⟨c, rest, hpos, hq, rfl⟩ | ⟨c, rest, hzero, hq, rfl⟩ :=
    takeElement_cases ht
  · exact .inr (.inl ⟨by simp [ringSlots, hpos, hq], rfl⟩)
  · exact .inr (.inr ⟨c, by simp [ringSlots, hpos, hq], rfl⟩)
  · exact .inl ⟨by simp [ringSlots, hzero], rfl⟩

/-- The slots of `ringSlots` are those at which the code's copies lie: a send and a receive
that touch no slot leave the ring alone, and the others advance the index of each slot they
name. -/
structure SlotsUsed (h : Nat) (s : St) : Prop where
  send : ∀ k data t, (s.chans h).closed = false → placeElement s h k data = some t →
    (ringSlots s (.channelSend h data) = [] ∧ t.chans = s.chans) ∨
      (ringSlots s (.channelSend h data) = [(h, (s.chans h).tail)] ∧
        t.chans = Function.update s.chans h ((s.chans h).pushTail k data))
  receive : ∀ k t, takeElement s h k = some t →
    (ringSlots s (.channelRecv h) = [] ∧ t.chans = s.chans) ∨
      (ringSlots s (.channelRecv h) = [(h, (s.chans h).head)] ∧
        t.chans = Function.update s.chans h (s.chans h).popHead) ∨
      ∃ c, ringSlots s (.channelRecv h) = [(h, (s.chans h).head), (h, (s.chans h).tail)] ∧
        t.chans = Function.update s.chans h
          ((s.chans h).popHead.pushTail (s.co c).call (s.co c).chanData)

theorem slotsUsed (h : Nat) (s : St) : SlotsUsed h s :=
  ⟨fun _ _ _ ho hp => placeElement_slots ho hp, fun _ _ ht => takeElement_slots ht⟩

/-- A slot is written by a send only if the ring has room for it. -/
theorem room_of_slot {i : Nat} {data : Bytes}
    (hs : ringSlots s (.channelSend h data) = [(h, i)]) :
    (s.chans h).count < (s.chans h).capacity := by
  by_contra hroom
  simp only [ringSlots, if_neg hroom] at hs
  split at hs
  · cases hs
  · split at hs <;> cases hs

/-- A slot is read only if it holds an element. -/
theorem count_of_slot {x : Nat × Nat} {xs : List (Nat × Nat)}
    (hs : ringSlots s (.channelRecv h) = x :: xs) : 0 < (s.chans h).count := by
  by_contra hzero
  simp [ringSlots, if_neg hzero] at hs

/-- The indices of a ring made for `cap` elements of `e` bytes. -/
structure RingOk (e cap : Nat) (ch : Channel) : Prop where
  elemSize : ch.elemSize = e
  capacity : ch.capacity = cap
  count : ch.count ≤ cap
  head : 0 < cap → ch.head < cap
  tail : 0 < cap → ch.tail < cap

/-- A slot is used only below the capacity. -/
theorem RingOk.slots {e cap i : Nat} {op : Op} (hr : RingOk e cap (s.chans h))
    (hm : (h, i) ∈ ringSlots s op) : i < cap := by
  have hle := hr.count
  have hcap := hr.capacity
  cases op with
  | channelSend h' _ | channelTrysend h' _ =>
    simp only [ringSlots] at hm
    split at hm
    · cases hm
    split at hm
    · split at hm
      · rename_i hroom
        simp only [List.mem_singleton, Prod.mk.injEq] at hm
        obtain ⟨rfl, rfl⟩ := hm
        exact hr.tail (by omega)
      · cases hm
    · cases hm
  | channelRecv h' | channelTryrecv h' =>
    simp only [ringSlots] at hm
    split at hm
    · rename_i hcount
      split at hm
      · simp only [List.mem_singleton, Prod.mk.injEq] at hm
        obtain ⟨rfl, rfl⟩ := hm
        exact hr.head (by omega)
      · simp only [List.mem_cons, Prod.mk.injEq, List.not_mem_nil, or_false] at hm
        rcases hm with ⟨rfl, rfl⟩ | ⟨rfl, rfl⟩
        · exact hr.head (by omega)
        · exact hr.tail (by omega)
    · cases hm
  | _ => cases hm

/-! ## The shape of a channel -/

structure ChannelShape (h : Nat) (s : St) : Prop where
  count : (s.chans h).count ≤ (s.chans h).capacity
  head : 0 < (s.chans h).capacity → (s.chans h).head < (s.chans h).capacity
  tail : 0 < (s.chans h).capacity → (s.chans h).tail < (s.chans h).capacity ∧
    (s.chans h).tail = ((s.chans h).head + (s.chans h).count) % (s.chans h).capacity
  /-- a sender is blocked only while the ring is full and no receiver waits -/
  senders : ∀ c ∈ s.queues (.send h),
    (s.chans h).count = (s.chans h).capacity ∧ s.queues (.recv h) = []
  /-- a receiver is blocked only while there is no element, in the ring or with a sender -/
  receivers : ∀ c ∈ s.queues (.recv h), (s.chans h).count = 0 ∧ s.queues (.send h) = []
  oneSided : s.queues (.send h) = [] ∨ s.queues (.recv h) = []
  shut : (s.chans h).closed = true → s.queues (.send h) = [] ∧ s.queues (.recv h) = []

theorem Ledger.shape (hl : Ledger h s) : ChannelShape h s := by
  have hsh := hl.ok.shaped
  have hlen : (view Prod.fst h s).ring.length = (s.chans h).count := by
    simp [view, Channel.contents]
  have hsend : ∀ c ∈ s.queues (.send h), (view Prod.fst h s).senders ≠ [] := by
    intro c hc hn
    simp only [view, List.map_eq_nil_iff] at hn
    simp [hn] at hc
  have hrecv : ∀ c ∈ s.queues (.recv h), (view Prod.fst h s).receivers ≠ [] := by
    intro c hc hn
    simp only [view, List.map_eq_nil_iff] at hn
    simp [hn] at hc
  have hempty : ∀ c ∈ s.queues (.recv h),
      (s.chans h).count = 0 ∧ s.queues (.send h) = [] := by
    intro c hc
    obtain ⟨h1, h2⟩ := hl.good.empty (hrecv c hc)
    refine ⟨by rw [← hlen, h1]; rfl, ?_⟩
    simpa [view] using h2
  refine ⟨hsh.count, hsh.head, fun hpos => ⟨?_, hsh.tail⟩, fun c hc => ⟨?_, ?_⟩, hempty, ?_,
    fun hcl => ?_⟩
  · rw [hsh.tail]
    exact Nat.mod_lt _ hpos
  · rw [← hlen]
    exact hl.good.full (hsend c hc)
  · by_contra hne
    obtain ⟨d, hd⟩ := List.exists_mem_of_ne_nil _ hne
    rw [(hempty d hd).2] at hc
    cases hc
  · cases hq : s.queues (.recv h) with
    | nil => exact .inr rfl
    | cons d rest => exact .inl (hempty d (by simp [hq])).2
  · obtain ⟨h1, h2⟩ := hl.good.shut hcl
    constructor
    · simpa [view] using h1
    · simpa [view] using h2

theorem ChannelShape.ringOk (hsh : ChannelShape h s) :
    RingOk (s.chans h).elemSize (s.chans h).capacity (s.chans h) :=
  ⟨rfl, rfl, hsh.count, hsh.head, fun hpos => (hsh.tail hpos).1⟩

/-! ## Closing -/

/-- A closed channel stays closed. -/
theorem Ledger.closed_step {run : Prop} (hl : Ledger h s) (hc : CallInv s) (hp : Placed run s)
    (hleak : leaks s a = false) (hs : Libco.step s a = some s')
    (hcl : (s.chans h).closed = true) :
    (s'.chans h).closed = true := by
  refine (hl.step_rule (K := fun t => (t.chans h).closed = true)
    (J := fun t => (t.chans h).closed = true) hc hp hleak hs hcl ?_ ?_ ?_).2
  · intro p p' hm hi _ _ hlp hk
    obtain ⟨-, hstep⟩ := hm.view hi hlp.ok
    exact Fifo.closed_run hstep.to_reflTransGen hk
  · exact fun _ _ _ hk => hk
  · exact fun _ _ _ _ _ _ _ hk _ => hk

/-- What closing does to those who are blocked: the receivers and then the senders become
ready, each once. -/
structure ClosedOver (h : Nat) (s s' : St) : Prop where
  closed : (s'.chans h).closed = true
  ready : s'.queues .ready = s.queues .ready ++ s.queues (.recv h) ++ s.queues (.send h)
  once : (s'.queues .ready).Nodup
  state : ∀ c, c ∈ s.queues (.recv h) ∨ c ∈ s.queues (.send h) →
    (s'.queues .ready).count c = 1 ∧ (s'.co c).state = .ready ∧
      s'.trace.count (.ready c) = s.trace.count (.ready c) + 1
  empty : s'.queues (.recv h) = [] ∧ s'.queues (.send h) = []

/-- Two queues have no member in common. -/
theorem Inv.queues_disjoint {run : Prop} {cur : Option Nat} (hi : Inv run cur s.toSched)
    {q q' : QueueRef} (hne : q ≠ q') (hq : c ∈ s.queues q) : c ∉ s.queues q' := by
  intro hq'
  have h1 := hi.mem_queue hq
  rw [hi.mem_queue hq', Option.some.injEq] at h1
  exact hne h1.symm

theorem close_step {run : Prop} (hp : Placed run s) (ho : (s.chans h).closed = false)
    (hs : step s (.call (.channelClose h)) = some s') : ClosedOver h s s' := by
  have hi₀ := hp.current hs
  have hq := beginCall_queues s (.channelClose h)
  have hbegin : SameFor (.chan h) s (beginCall s (.channelClose h)) :=
    (Move.invoke (a := .call (.channelClose h)) rfl).footprint hi₀ (by simp)
  have ho' : ((beginCall s (.channelClose h)).chans h).closed = false := by
    rw [hbegin.chan h rfl]
    exact ho
  obtain ⟨-, hs⟩ := step_call hs
  simp only [runOp, coChannelClose_eq ho', settle] at hs
  replace hs := hs.symm
  have hready : s'.queues .ready =
      s.queues .ready ++ s.queues (.recv h) ++ s.queues (.send h) := by
    rw [← hs]
    simp [wakeAll, St.setChan, St.emit, hq]
  have hblocked : (s.queues (.recv h) ++ s.queues (.send h)).Nodup := by
    refine List.nodup_append.mpr ⟨hi₀.nodup_queue _, hi₀.nodup_queue _, ?_⟩
    rintro c hc d hd rfl
    exact hi₀.queues_disjoint (by simp) hc hd
  have hnodup : (s'.queues .ready).Nodup := by
    rw [hready, List.append_assoc]
    refine List.nodup_append.mpr ⟨hi₀.nodup_queue _, hblocked, ?_⟩
    rintro c hc d hd rfl
    rcases List.mem_append.mp hd with hd | hd
    · exact hi₀.queues_disjoint (by simp) hc hd
    · exact hi₀.queues_disjoint (by simp) hc hd
  refine ⟨by rw [← hs]; simp [wakeAll, St.setChan, St.emit], hready, hnodup, fun c hc => ?_, ?_⟩
  · have hone : (s.queues (.recv h) ++ s.queues (.send h)).count c = 1 :=
      List.count_eq_one_of_mem hblocked (List.mem_append.mpr hc)
    refine ⟨List.count_eq_one_of_mem hnodup ?_, ?_, ?_⟩
    · rw [hready, List.append_assoc]
      exact List.mem_append_right _ (List.mem_append.mpr hc)
    · rw [← hs]
      rcases hc with hc | hc
      · by_cases hc' : c ∈ s.queues (.send h) <;>
          simp [wakeAll, St.setChan, St.emit, hq, hc, hc', Routine.wake]
      · simp [wakeAll, St.setChan, St.emit, hq, hc, Routine.wake]
    · have htr : s'.trace = s.trace ++ ([Event.call s.calls s.coCurrent (.close h)] ++
          [Event.close h ((s.queues (.send h)).map fun c =>
            ((beginCall s (.channelClose h)).co c).element
              ((beginCall s (.channelClose h)).chans h).elemSize)] ++
          (s.queues (.recv h) ++ s.queues (.send h)).map Event.ready ++
            [Event.ret s.calls (.code .ok)]) := by
        rw [← hs]
        simp [wakeAll, St.setChan, St.emit, hq, beginCall_trace, Op.name]
      have hmap : ((s.queues (.recv h) ++ s.queues (.send h)).map Event.ready).count (.ready c) =
          (s.queues (.recv h) ++ s.queues (.send h)).count c :=
        List.count_map_of_injective _ _ (fun _ _ he => Event.ready.inj he) _
      rw [htr, List.count_append, List.count_append, List.count_append, List.count_append, hmap, hone]
      simp
  · rw [← hs]
    simp [wakeAll, St.setChan, St.emit]

/-! ## Results -/

/-- **Channels have no stuck party.** In every state of the runs without I/O calls the
indices, the wait queues and the closed flag of a channel fit together; the modulo is
executed only with a capacity that is not 0; closing makes everybody who is blocked ready
once, and nobody blocks on the channel afterwards. -/
theorem channel_shape {cfg : Config}
    (hr : Reach step (fun s a => noIoCalls s a = true) (init cfg) s) (h : Nat) :
    ChannelShape h s ∧
    (∀ op i, (h, i) ∈ ringSlots s op → 0 < (s.chans h).capacity ∧ i < (s.chans h).capacity) ∧
    SlotsUsed h s ∧
    (∀ s', (s.chans h).closed = false → step s (.call (.channelClose h)) = some s' →
      ClosedOver h s s') ∧
    ∀ s', (s.chans h).closed = true → Reach step (fun s a => noIoCalls s a = true) s s' →
      (s'.chans h).closed = true ∧ s'.queues (.send h) = [] ∧ s'.queues (.recv h) = [] := by
  have hshape : ∀ {t}, Reach step (fun s a => noIoCalls s a = true) (init cfg) t →
      ChannelShape h t := fun ht => ((noIo_leakless ht).1.ledger h).2.shape
  refine ⟨hshape hr, fun op i hm => ?_, slotsUsed h s, fun s' ho hs => ?_,
    fun s' hcl hr' => ?_⟩
  · have hlt := (hshape hr).ringOk.slots hm
    exact ⟨Nat.zero_lt_of_lt hlt, hlt⟩
  · exact close_step (noIo_leakless hr).1.placed ho hs
  · have hinv := hr'.invariant
      (P := fun t => Reach step (fun s a => noIoCalls s a = true) (init cfg) t ∧
        (t.chans h).closed = true) ⟨hr, hcl⟩ (by
        rintro t a t' ⟨ht, hct⟩ hg hs
        obtain ⟨hleak, hn⟩ := noIo_leakless ht
        obtain ⟨hc, hl⟩ := hleak.ledger h
        have hio : a.isIo = false := by simpa [noIoCalls] using hg
        exact ⟨ht.next a hg hs, hl.closed_step hc hleak.placed (hn.leaks hio) hs hct⟩)
    exact ⟨hinv.2, (hshape hinv.1).shut hinv.2⟩

/-- Two senders block on a full ring. -/
def fullRingRun : List Act :=
  [spawnOk, spawnOk, spawnOk, .run] ++ turn ++
    [Act.call (.channelSend 0 fun _ => 5), .call (.channelSend 0 fun _ => 6)] ++ turn ++
    [Act.call (.channelSend 0 fun _ => 7)] ++ turn

theorem channel_shape_full_ring :
    ∃ s, runGuarded step noIoCalls (init (byteConfig 1)) fullRingRun = some s ∧
      s.queues (.send 0) = [1, 2] ∧ (s.chans 0).count = 1 ∧
      ringSlots s (.channelTryrecv 0) = [(0, 0), (0, 0)] ∧ ChannelShape 0 s := by
  have hrun : (runGuarded step noIoCalls (init (byteConfig 1)) fullRingRun).map
      (fun s => (s.queues (.send 0), (s.chans 0).count, ringSlots s (.channelTryrecv 0))) =
      some ([1, 2], 1, [(0, 0), (0, 0)]) := by
    decide +kernel
  obtain ⟨s, hs, he⟩ := Option.map_eq_some_iff.mp hrun
  simp only [Prod.mk.injEq] at he
  exact ⟨s, hs, he.1, he.2.1, he.2.2, (channel_shape (reach_of_runGuarded hs) 0).1⟩

/-! ## The block of the ring -/

theorem RingOk.pushTail {e cap : Nat} {ch : Channel} (hr : RingOk e cap ch) {data : Bytes}
    (hroom : ch.count < cap) : RingOk e cap (ch.pushTail k data) := by
  refine ⟨hr.elemSize, hr.capacity, hroom, hr.head, fun hpos => ?_⟩
  simp only [Channel.pushTail, hr.capacity]
  exact Nat.mod_lt _ hpos

theorem RingOk.popHead {e cap : Nat} {ch : Channel} (hr : RingOk e cap ch) :
    RingOk e cap ch.popHead := by
  refine ⟨hr.elemSize, hr.capacity, (Nat.sub_le _ _).trans hr.count, fun hpos => ?_, hr.tail⟩
  simp only [Channel.popHead, hr.capacity]
  exact Nat.mod_lt _ hpos

/-- The rings of all channels, whatever the queues hold. -/
def Rings (cfg : Config) (s : St) : Prop :=
  ∀ h, RingOk (cfg.elemSize h) (cfg.capacity h) (s.chans h)

theorem rings_init (cfg : Config) : Rings cfg (init cfg) := by
  intro h
  have hne : cfg.elemSize h ≠ 0 := Nat.ne_of_gt (cfg.elemSize_pos h)
  have hch : (init cfg).chans h = ⟨cfg.elemSize h, cfg.capacity h, fun _ => 0, 0, 0, 0, false,
      fun _ => 0⟩ := by
    simp [init, initChannel, coChannelCreate, hne]
  rw [hch]
  exact ⟨rfl, rfl, Nat.zero_le _, id, id⟩

theorem Rings.same {cfg : Config} (hr : Rings cfg s) (he : t.chans = s.chans) : Rings cfg t := by
  intro h
  rw [he]
  exact hr h

theorem Rings.update {cfg : Config} {ch : Channel} (hr : Rings cfg s)
    (hch : RingOk (cfg.elemSize h) (cfg.capacity h) ch)
    (he : t.chans = Function.update s.chans h ch) : Rings cfg t := by
  intro h'
  rw [he]
  by_cases hh : h' = h
  · subst hh
    simpa using hch
  · simpa [hh] using hr h'

/-! ### Code that leaves the rings alone -/

theorem coMutexUnlock_chans {m : Nat} (h : coMutexUnlock s m = some t) : t.chans = s.chans := by
  obtain ⟨-, ⟨-, rfl⟩ | ⟨c, rest, -, rfl⟩⟩ := coMutexUnlock_cases h <;> rfl

theorem unlock_chans {m : Nat} (h : t.chans = s.chans) :
    Outcome.Ends (fun u => u.chans = s.chans) (match coMutexUnlock t m with
      | none => .abort
      | some s => .swap s) := by
  split
  · trivial
  · rename_i u hu
    exact (coMutexUnlock_chans hu).trans h

theorem coMutexLock_chans (m : Nat) : (coMutexLock s m).Ends fun t => t.chans = s.chans := by
  unfold coMutexLock
  split <;> split <;> rfl

theorem relock_chans {m : Nat} {f : Frame} {r : St → Ret} :
    (relock s c m f r).Ends fun t => t.chans = s.chans := by
  have hlock := coMutexLock_chans (s := s) m
  unfold relock
  split
  · rename_i ho
    rw [ho] at hlock
    exact hlock
  · rename_i ho
    rw [ho] at hlock
    exact hlock
  · trivial

theorem drainQueue_chans {wake : St → Nat → St} {q : QueueRef}
    (hw : ∀ t c, (wake t c).chans = t.chans) (n : Nat) (t : St) :
    (drainQueue wake q n t).chans = t.chans := by
  induction n generalizing t with
  | zero => rfl
  | succ n ih =>
    simp only [drainQueue]
    cases hq : t.queues q with
    | nil => rw [coQueuePopFront_nil hq]
    | cons c rest =>
      rw [coQueuePopFront_cons hq]
      exact (ih _).trans (hw _ c)

theorem armTimer_chans {timeoutMs : Int} {now : Nat} {ok : Bool} {o : Option Nat}
    (h : armTimer s c timeoutMs now ok = (o, t)) : t.chans = s.chans := by
  unfold armTimer at h
  dsimp only at h
  split at h
  · split at h <;> cases h <;> rfl
  · cases h
    rfl

theorem coIomuxAdd_chans {fd : Int} {ev : IoEvents} {ptr : Nat × Nat} {ok : Bool} {e : CoError}
    (h : coIomuxAdd s fd ev ptr ok = (e, t)) : t.chans = s.chans := by
  unfold coIomuxAdd coIomuxMod at h
  split at h <;> split at h <;> cases h <;> rfl

theorem coIomuxAssociate_chans {fd : Nat} {ok : Bool} {e : CoError}
    (h : coIomuxAssociate s fd ok = (e, t)) : t.chans = s.chans := by
  unfold coIomuxAssociate at h
  split at h
  · cases h
    rfl
  split at h
  · split at h <;> cases h <;> rfl
  · cases h
    rfl

theorem coWaitIo_chans (x : IoArgs) : (coWaitIo s x).Ends fun t => t.chans = s.chans := by
  unfold coWaitIo
  split
  · rfl
  split
  · rename_i ht
    exact armTimer_chans ht
  rename_i ht
  split
  · rename_i hu
    exact (coIomuxAdd_chans hu).trans (armTimer_chans ht)
  · rename_i hu
    exact (coIomuxAdd_chans hu).trans (armTimer_chans ht)

theorem coIo_chans (x : IoArgs) : (coIo s x).Ends fun t => t.chans = s.chans := by
  have hw := coWaitIo_chans (s := s) x
  unfold coIo
  split
  · rfl
  split
  · rfl
  split
  · split
    · rename_i ho
      rw [ho] at hw
      exact hw
    · exact hw
  · rfl

theorem coWaitIoAsync_chans (x : AsyncArgs) :
    (coWaitIoAsync s x).Ends fun t => t.chans = s.chans := by
  unfold coWaitIoAsync
  split
  · split <;> rfl
  split
  · rename_i ht
    exact armTimer_chans ht
  rename_i ht
  split
  · rename_i hu
    have hassoc := (coIomuxAssociate_chans hu).trans (armTimer_chans ht)
    split
    · exact hassoc
    · split <;> exact hassoc
  · rename_i hu
    exact (coIomuxAssociate_chans hu).trans (armTimer_chans ht)

theorem coSleep_chans (msec now : Nat) (ok : Bool) :
    (coSleep s msec now ok).Ends fun t => t.chans = s.chans := by
  unfold coSleep coYieldNow
  split
  · split <;> rfl
  · split
    · rfl
    · dsimp only
      split <;> rfl

theorem coCondTimedwait_chans (v m timeoutMs now : Nat) (ok : Bool) :
    (coCondTimedwait s v m timeoutMs now ok).Ends fun t => t.chans = s.chans := by
  unfold coCondTimedwait
  split
  · rfl
  split
  · rfl
  dsimp only
  split
  · rfl
  · exact unlock_chans rfl

theorem resume_chans {e : ResumeEnv} {f : Frame} :
    (resume s c e f).Ends fun t => t.chans = s.chans := by
  have hlock : ∀ m, (resumeLock s c m).Ends fun t => t.chans = s.chans := by
    intro m
    unfold resumeLock
    split
    · rfl
    · trivial
  cases f with
  | absent | freed | user => trivial
  | entry | yieldNow | sleep | send h | recv h | drainAsync x => rfl
  | lock m => exact hlock m
  | condRelock v m => exact hlock m
  | timedRelock v m =>
    have hm := hlock m
    simp only [resume]
    split
    · rename_i ho
      rw [ho] at hm
      exact hm
    · exact hm
  | condWait v m => exact relock_chans
  | timedWait v m =>
    simp only [resume, resumeTimedWait]
    split
    · exact relock_chans
    · exact relock_chans
  | waitIo x =>
    obtain ⟨r, hr⟩ := resumeIo_eq s c x e.again
    have hdel : (coIomuxDel s x.fd).chans = s.chans := by
      unfold coIomuxDel
      split <;> rfl
    simp only [resume, hr, Outcome.Ends, resumeWaitIo]
    split
    · exact hdel
    split
    · exact hdel
    split <;> exact hdel
  | waitAsync x =>
    simp only [resume, resumeAsync]
    split
    · rfl
    split
    · rfl
    · split <;> split <;> rfl

theorem timerLoop_chans (now n : Nat) (s : St) : (timerLoop now n s).chans = s.chans := by
  induction n generalizing s with
  | zero => rfl
  | succ n ih =>
    simp only [timerLoop]
    split
    · rfl
    split
    · rfl
    split
    · rfl
    rw [ih]
    unfold expireTop
    dsimp only
    split
    · rfl
    · split
      · rfl
      · split <;> rfl

theorem wakeIo_chans : (wakeIo s c).chans = s.chans := by
  unfold wakeIo
  split <;> rfl

theorem pollResult_chans (p : PollResult) : (p.apply s).chans = s.chans := by
  cases p with
  | none => rfl
  | events evs =>
    simp only [PollResult.apply, coIomuxPoll]
    induction evs generalizing s with
    | nil => rfl
    | cons ev evs ih =>
      rw [List.foldl_cons, ih]
      unfold pollEvent
      split
      · rfl
      · split
        · exact wakeIo_chans
        · rfl
  | packets ps =>
    simp only [PollResult.apply, coIomuxPollPackets]
    induction ps generalizing s with
    | nil => rfl
    | cons p ps ih =>
      rw [List.foldl_cons, ih]
      unfold pollPacket
      dsimp only
      split
      · exact wakeIo_chans
      · exact wakeIo_chans
      · rfl

theorem coSpawn_chans (e : SpawnEnv) : (coSpawn s e).2.chans = s.chans := by
  unfold coSpawn
  split
  · dsimp only
    split
    · rfl
    · split <;> rfl
  · rfl

/-! ### Channel calls -/

theorem placeElement_rings {cfg : Config} {data : Bytes} (hr : Rings cfg s)
    (ho : (s.chans h).closed = false) (hp : placeElement s h k data = some t) : Rings cfg t := by
  obtain ⟨-, hsame⟩ | ⟨hslot, hpush⟩ := placeElement_slots ho hp
  · exact hr.same hsame
  · exact hr.update ((hr h).pushTail ((hr h).capacity ▸ room_of_slot hslot)) hpush

theorem takeElement_rings {cfg : Config} (hr : Rings cfg s) (ht : takeElement s h k = some t) :
    Rings cfg t := by
  obtain ⟨-, hsame⟩ | ⟨-, hpop⟩ | ⟨c, hslots, hpop⟩ := takeElement_slots ht
  · exact hr.same hsame
  · exact hr.update (hr h).popHead hpop
  · refine hr.update ((hr h).popHead.pushTail ?_) hpop
    have hpos := count_of_slot hslots
    have hle := (hr h).count
    simp only [Channel.popHead]
    omega

theorem runOp_rings {cfg : Config} {op : Op} (hr : Rings cfg s) :
    (runOp s k op).Ends (Rings cfg) := by
  have hsame : ∀ {o : Outcome}, o.Ends (fun t => t.chans = s.chans) → o.Ends (Rings cfg) :=
    fun ho => ho.mono fun _ => hr.same
  cases op with
  | yieldNow =>
    refine hsame ?_
    simp only [runOp, coYieldNow]
    split <;> rfl
  | sleep msec now ok => exact hsame (coSleep_chans msec now ok)
  | mutexLock m => exact hsame (coMutexLock_chans m)
  | mutexTrylock m =>
    refine hsame ?_
    simp only [runOp, coMutexTrylock]
    split <;> rfl
  | mutexUnlock m =>
    simp only [runOp]
    split
    · rename_i hu
      exact hr.same (coMutexUnlock_chans hu)
    · trivial
  | condWait v m =>
    refine hsame ?_
    simp only [runOp, coCondWait]
    split
    · rfl
    · exact unlock_chans rfl
  | condTimedwait v m t now ok => exact hsame (coCondTimedwait_chans v m t now ok)
  | condSignal v =>
    refine hr.same ?_
    unfold coCondSignal
    cases hq : s.queues (.cond v) with
    | nil =>
      rw [coQueuePopFront_nil hq]
      rfl
    | cons c rest =>
      rw [coQueuePopFront_cons hq]
      rfl
  | condBroadcast v =>
    have hw : ∀ t c, (wakeWaiter t c).chans = t.chans := fun _ _ => rfl
    exact hr.same (drainQueue_chans hw _ _)
  | channelSend h d =>
    simp only [runOp, coChannelSend]
    split
    · exact hr
    rename_i ho
    split
    · rename_i hp
      exact placeElement_rings hr (by simpa using ho) hp
    split
    · exact hr
    · exact hr.same rfl
  | channelTrysend h d =>
    simp only [runOp, coChannelTrysend]
    split
    · exact hr
    rename_i ho
    split
    · rename_i hp
      exact placeElement_rings hr (by simpa using ho) hp
    · exact hr
  | channelRecv h =>
    simp only [runOp, coChannelRecv]
    split
    · rename_i ht
      exact takeElement_rings hr ht
    split
    · exact hr
    split
    · exact hr
    · exact hr.same rfl
  | channelTryrecv h =>
    simp only [runOp, coChannelTryrecv]
    split
    · rename_i ht
      exact takeElement_rings hr ht
    · split <;> exact hr
  | channelClose h =>
    simp only [runOp, coChannelClose]
    split
    · exact hr
    · have hcl : RingOk (cfg.elemSize h) (cfg.capacity h) { s.chans h with closed := true } :=
        ⟨(hr h).elemSize, (hr h).capacity, (hr h).count, (hr h).head, (hr h).tail⟩
      have hw : ∀ t c, (wakeRoutine t c).chans = t.chans := fun _ _ => rfl
      exact hr.update hcl ((drainQueue_chans hw _ _).trans (drainQueue_chans hw _ _))
  | io x => exact hsame (coIo_chans x)
  | ioAsync x =>
    refine hsame ?_
    simp only [runOp, coIoAsync]
    split
    · rfl
    split
    · rfl
    · exact coWaitIoAsync_chans x

theorem settle_rings {cfg : Config} {s₀ : St} {o : Outcome} (hr : Rings cfg s₀)
    (ho : o.Ends (Rings cfg)) : Rings cfg (settle s₀ k o) := by
  cases o with
  | ret r t => exact Rings.same ho rfl
  | swap t => exact Rings.same ho rfl
  | abort => exact hr.same rfl

theorem Rings.step {cfg : Config} (hr : Rings cfg s) (hs : step s a = some s') : Rings cfg s' := by
  cases a with
  | run =>
    obtain ⟨-, rfl⟩ := step_run hs
    exact hr.same rfl
  | timers now =>
    have hloop := timerLoop_chans now s.timerHeap.entries.length (s.emit (.tick now))
    obtain ⟨-, ⟨-, rfl⟩ | ⟨-, t, rfl, rfl | ⟨-, rfl⟩⟩⟩ := step_timers hs
    · exact hr.same rfl
    · exact hr.same hloop
    · exact hr.same hloop
  | idle p =>
    obtain ⟨n, t, -, -, ht, hend⟩ := step_poll hs
    have hch : t.chans = s.chans := by
      rw [ht]
      split
      · exact pollResult_chans p
      · rfl
    rcases hend with rfl | rfl <;> exact hr.same hch
  | schedule e =>
    obtain ⟨-, rfl⟩ := step_schedule hs
    obtain ⟨-, he⟩ | ⟨c, rest, -, ⟨-, he⟩ | ⟨-, he⟩⟩ := schedule_cases s e
    · rw [he]
      exact hr.same rfl
    · rw [he]
      exact hr.same rfl
    · rw [he]
      exact settle_rings hr (resume_chans.mono fun _ => hr.same)
  | spawn e =>
    obtain ⟨-, rfl⟩ := step_spawn hs
    exact hr.same (coSpawn_chans e)
  | call op =>
    obtain ⟨-, rfl⟩ := step_call hs
    have hb : Rings cfg (beginCall s op) := by
      refine hr.same ?_
      unfold beginCall
      dsimp only
      split <;> rfl
    exact settle_rings hr (runOp_rings hb)
  | finish =>
    obtain ⟨c, -, rfl⟩ := step_finish hs
    refine hr.same ?_
    simp only [St.emit, coRoutineDestroy]
    split <;> rfl

/-! ### Accesses to the block -/

/-- The size that `co_channel_create` passes to `malloc`. -/
def bufferSize (elemSize capacity : Nat) : Nat := elemSize * capacity % 2 ^ 64

/-- In every run, every access to the ring of channel `h` stays inside its block. -/
def InsideBuffer (cfg : Config) (h : Nat) : Prop :=
  ∀ s, Reach step (fun _ _ => True) (init cfg) s → ∀ op i, inUserCode s = true →
    (h, i) ∈ ringSlots s op →
      (s.chans h).offset i + (s.chans h).elemSize ≤ bufferSize (cfg.elemSize h) (cfg.capacity h)

/-- A caller outside the scheduler has filled the first `n` slots of channel `h`. -/
structure Filled (cfg : Config) (h n : Nat) (s : St) : Prop where
  rings : Rings cfg s
  ctl : s.ctl = .outside
  recv : s.queues (.recv h) = []
  open_ : (s.chans h).closed = false
  tail : (s.chans h).tail = n
  count : (s.chans h).count = n

theorem Filled.next {cfg : Config} {n : Nat} (hf : Filled cfg h n s) (hn : n + 1 < cfg.capacity h)
    (data : Bytes) :
    ∃ s', step s (.call (.channelTrysend h data)) = some s' ∧ Filled cfg h (n + 1) s' := by
  have hcur : s.coCurrent = none := by simp [St.coCurrent, hf.ctl]
  have hroom : (s.chans h).count < (s.chans h).capacity := by
    rw [hf.count, (hf.rings h).capacity]
    omega
  have hb : beginCall s (.channelTrysend h data) =
      { s with calls := s.calls + 1 }.emit (.call s.calls none (.trysend h)) := by
    simp [beginCall, hcur, Op.name]
  have hs : step s (.call (.channelTrysend h data)) =
      some (settle s s.calls (coChannelTrysend (beginCall s (.channelTrysend h data)) h s.calls data)) := by
    simp [step, inUserCode, hf.ctl, runOp]
  refine ⟨_, hs, hf.rings.step hs, ?_, ?_, ?_, ?_, ?_⟩ <;>
    simp only [hb, coChannelTrysend, placeElement, coQueuePopFront, St.emit, St.setChan, settle,
      hf.open_, hf.recv, hroom, if_true, Bool.false_eq_true, if_false, Function.update_self,
      Channel.pushTail]
  · exact hf.ctl
  · rw [hf.tail, (hf.rings h).capacity, Nat.mod_eq_of_lt hn]
  · rw [hf.count]

/-- Any number of slots below the capacity can be filled, with any elements. -/
theorem exists_filled (cfg : Config) (data : Bytes) {n : Nat} (hn : n < cfg.capacity h) :
    ∃ s, Reach step (fun _ _ => True) (init cfg) s ∧ Filled cfg h n s := by
  induction n with
  | zero =>
    have hne : cfg.elemSize h ≠ 0 := Nat.ne_of_gt (cfg.elemSize_pos h)
    refine ⟨init cfg, .init, rings_init cfg, rfl, rfl, ?_, ?_, ?_⟩ <;>
      simp [init, initChannel, coChannelCreate, hne]
  | succ n ih =>
    obtain ⟨s, hr, hf⟩ := ih (Nat.lt_of_succ_lt hn)
    obtain ⟨s', hs, hf'⟩ := hf.next hn data
    exact ⟨s', hr.next _ trivial hs, hf'⟩

theorem Filled.slot {cfg : Config} {n : Nat} (hf : Filled cfg h n s) (hn : n < cfg.capacity h)
    (data : Bytes) : (h, n) ∈ ringSlots s (.channelTrysend h data) := by
  simp [ringSlots, hf.open_, hf.recv, hf.count, hf.tail, (hf.rings h).capacity, hn]

/-- **Ring accesses and the size of the block.** Every access to the ring of a channel stays
inside the block obtained for it, in every run, exactly when the product of the element size
and the capacity fits `size_t`. -/
theorem inside_buffer_iff (cfg : Config) (h : Nat) :
    InsideBuffer cfg h ↔ cfg.elemSize h * cfg.capacity h < 2 ^ 64 := by
  constructor
  · intro hin
    by_contra hbig
    -- the first slot that does not fit into what is left of the product
    have hpos := cfg.elemSize_pos h
    have hmod : bufferSize (cfg.elemSize h) (cfg.capacity h) < 2 ^ 64 :=
      Nat.mod_lt _ (Nat.two_pow_pos 64)
    have hdiv := Nat.div_mul_le_self (bufferSize (cfg.elemSize h) (cfg.capacity h)) (cfg.elemSize h)
    have hlt : bufferSize (cfg.elemSize h) (cfg.capacity h) / cfg.elemSize h < cfg.capacity h := by
      rw [Nat.div_lt_iff_lt_mul hpos, Nat.mul_comm]
      omega
    obtain ⟨s, hr, hf⟩ := exists_filled cfg (fun _ => 0) hlt
    have huser : inUserCode s = true := by simp [inUserCode, hf.ctl]
    have hle := hin s hr _ _ huser (hf.slot hlt fun _ => 0)
    rw [Channel.offset, (hf.rings h).elemSize,
      Nat.mod_eq_of_lt (Nat.lt_of_le_of_lt hdiv hmod)] at hle
    have hover := Nat.lt_div_mul_add (a := bufferSize (cfg.elemSize h) (cfg.capacity h)) hpos
    omega
  · intro hfit s hr op i _ hm
    have hrings : Rings cfg s :=
      hr.invariant (rings_init cfg) fun _ _ _ ht _ hs => ht.step hs
    have hi := (hrings h).slots hm
    have hend : i * cfg.elemSize h + cfg.elemSize h ≤ cfg.elemSize h * cfg.capacity h := by
      rw [← Nat.succ_mul, Nat.mul_comm (cfg.elemSize h)]
      exact Nat.mul_le_mul_right _ hi
    have hpos := cfg.elemSize_pos h
    rw [Channel.offset, (hrings h).elemSize, bufferSize, Nat.mod_eq_of_lt hfit,
      Nat.mod_eq_of_lt (by omega)]
    exact hend

/-- A channel of 8-byte elements whose product is 8 more than 2 ^ 64. -/
def wrappedConfig : Config := ⟨fun _ => 8, fun _ => 2 ^ 61 + 1, fun _ => by decide⟩

/-- The block has room for one element, and the second one is written behind it. -/
theorem wrapped_ring_overruns : ¬ InsideBuffer wrappedConfig 0 := by
  intro hin
  have hrun : (runActs step (init wrappedConfig) [.call (.channelTrysend 0 fun _ => 1)]).map
      (fun s => (inUserCode s, ringSlots s (.channelTrysend 0 fun _ => 2),
        (s.chans 0).offset 1 + (s.chans 0).elemSize)) = some (true, [(0, 1)], 16) := by
    decide +kernel
  obtain ⟨s, hs, he⟩ := Option.map_eq_some_iff.mp hrun
  simp only [Prod.mk.injEq] at he
  obtain ⟨huser, hslots, hend⟩ := he
  have hle := hin s (reach_of_runActs (fun _ _ _ => trivial) hs) (.channelTrysend 0 fun _ => 2) 1
    huser (by simp [hslots])
  rw [hend] at hle
  revert hle
  decide

end Libco
