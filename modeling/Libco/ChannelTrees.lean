import Libco.Lib.Forest
import Libco.Deadlock
import Libco.Rings

/-!
# Trees of channels do not deadlock

Coroutines that are joined by channels in the shape of a tree, each channel with one
coroutine that sends on it and one that receives, are never stuck, whatever the
capacities: as long as one of them is left, somebody runs, is ready or has a deadline.
A coroutine may return when the channels it is an end of are closed; anybody may close.
Pipelines are trees, and so are stages that gather from several others.
-/

namespace Libco
open Lib

variable {run : Prop} {s s' t : St} {a : Act} {c h : Nat}

/-! ## The discipline -/

/-- The coroutines 1 to `size`; channel `c` joins `c` to its parent, and `rises` if `c` is
the end that sends. -/
structure ChannelTree extends Forest Nat where
  size : Nat
  rises : Nat → Bool
  inside : ∀ c p, 1 ≤ c → c ≤ size → parent c = some p → 1 ≤ p ∧ p ≤ size

namespace ChannelTree

variable {T : ChannelTree}

/-- The sender and the receiver of a channel. -/
def ends (T : ChannelTree) (h : Nat) : Option (Nat × Nat) :=
  if 1 ≤ h ∧ h ≤ T.size then
    (T.parent h).map fun p => if T.rises h then (h, p) else (p, h)
  else none

theorem ends_joins {e : Nat × Nat} (he : T.ends h = some e) : T.Joins h e.1 e.2 := by
  unfold ends at he
  split at he
  · obtain ⟨p, hp, rfl⟩ := Option.map_eq_some_iff.mp he
    split
    · exact .inl ⟨rfl, hp⟩
    · exact .inr ⟨rfl, hp⟩
  · cases he

theorem ends_inside {e : Nat × Nat} (he : T.ends h = some e) :
    (1 ≤ e.1 ∧ e.1 ≤ T.size) ∧ 1 ≤ e.2 ∧ e.2 ≤ T.size := by
  unfold ends at he
  split at he
  · rename_i hin
    obtain ⟨p, hp, rfl⟩ := Option.map_eq_some_iff.mp he
    have hpin := T.inside h p hin.1 hin.2 hp
    split
    · exact ⟨hin, hpin⟩
    · exact ⟨hpin, hin⟩
  · cases he

def sends (T : ChannelTree) (c h : Nat) : Bool := (T.ends h).any fun e => e.1 = c
def receives (T : ChannelTree) (c h : Nat) : Bool := (T.ends h).any fun e => e.2 = c

/-- The channels of a coroutine are closed. -/
def left (T : ChannelTree) (s : St) (c : Nat) : Bool :=
  (List.range (T.size + 1)).all fun h =>
    !(T.sends c h || T.receives c h) || (s.chans h).closed

/-- Coroutines send and receive on their own channels only, suspend in nothing else than
that, sleeps and yields, and return when their channels are closed. -/
def follows (T : ChannelTree) (s : St) : Act → Bool
  | .call (.channelSend h _) | .call (.channelTrysend h _) => s.coCurrent.any (T.sends · h)
  | .call (.channelRecv h) | .call (.channelTryrecv h) => s.coCurrent.any (T.receives · h)
  | .call (.channelClose _) | .call .yieldNow | .call (.sleep _ _ _) => true
  | .call _ => false
  | .spawn e => e.contextInit
  | .finish => s.coCurrent.any (T.left s)
  | _ => true

/-- The states of the runs that keep the discipline. -/
def Runs (T : ChannelTree) (cfg : Config) : St → Prop :=
  Reach step (fun s a => T.follows s a = true) (init cfg)

/-- `c` may be suspended in the queue `q`. -/
def Waits (T : ChannelTree) (c : Nat) (q : QueueRef) : Prop :=
  ∃ h, (q = .send h ∧ T.sends c h = true) ∨ (q = .recv h ∧ T.receives c h = true)

theorem sends_spec (hs : T.sends c h = true) : ∃ d, T.ends h = some (c, d) := by
  unfold sends at hs
  cases he : T.ends h with
  | none => simp [he] at hs
  | some e =>
    obtain ⟨x, y⟩ := e
    have hx : x = c := by simpa [he] using hs
    exact ⟨y, by rw [hx]⟩

theorem receives_spec (hs : T.receives c h = true) : ∃ d, T.ends h = some (d, c) := by
  unfold receives at hs
  cases he : T.ends h with
  | none => simp [he] at hs
  | some e =>
    obtain ⟨x, y⟩ := e
    have hy : y = c := by simpa [he] using hs
    exact ⟨x, by rw [hy]⟩

/-- A coroutine that has left has its channels closed. -/
theorem closed_of_left {e : Nat × Nat} (hl : T.left s c = true) (he : T.ends h = some e)
    (hc : e.1 = c ∨ e.2 = c) : (s.chans h).closed = true := by
  have hin : h < T.size + 1 := by
    unfold ends at he
    split at he
    · omega
    · cases he
  have hall := List.all_eq_true.mp hl h (List.mem_range.mpr hin)
  have htouch : (T.sends c h || T.receives c h) = true := by
    rcases hc with hc | hc <;> simp [sends, receives, he, hc]
  simpa [htouch] using hall

theorem left_mono (hl : T.left s c = true)
    (hcl : ∀ h, (s.chans h).closed = true → (s'.chans h).closed = true) : T.left s' c = true := by
  refine List.all_eq_true.mpr fun h hm => ?_
  have hall := List.all_eq_true.mp hl h hm
  simp only [Bool.or_eq_true] at hall ⊢
  exact hall.imp id (hcl h)

/-! ## What the discipline keeps -/

structure Kept (T : ChannelTree) (s : St) : Prop where
  placed : Placed False s
  noIo : NoIo s
  mutex : ∀ m, MutexInv m s
  goes : s.ctl ≠ .aborted
  calls : CallInv s
  channels : ∀ h, Ledger h s
  rooted : s.holdings.Rooted
  waiting : ∀ c q, (s.co c).frame.waitQueue = some q → T.Waits c q
  /-- who is gone has left -/
  gone : ∀ c, 1 ≤ c → c < s.nextId → (s.co c).unfinished = true ∨ T.left s c = true

theorem follows_plain (hg : T.follows s a = true) : a.isIo = false ∧ disciplined s a = true := by
  cases a with
  | call op => cases op <;> first | exact ⟨rfl, rfl⟩ | cases hg
  | _ => exact ⟨rfl, rfl⟩

/-- The frame of a coroutine that suspends. -/
theorem waits_of_fits {op : Op} {f : Frame} {q : QueueRef} (hg : T.follows s (.call op) = true)
    (hc : s.coCurrent = some c) (hf : f.fits op.name = true) (hq : f.waitQueue = some q) :
    T.Waits c q := by
  cases op <;> simp [follows, hc] at hg <;> cases f <;> simp [Frame.fits, Op.name] at hf <;>
    simp [Frame.waitQueue] at hq
  · subst hf hq
    exact ⟨_, .inl ⟨rfl, hg⟩⟩
  · subst hf hq
    exact ⟨_, .inr ⟨rfl, hg⟩⟩

theorem Kept.waits_step (h : T.Kept s) (hg : T.follows s a = true) (hs : step s a = some s') :
    ∀ c q, (s'.co c).frame.waitQueue = some q → T.Waits c q := by
  obtain ⟨hio, -⟩ := follows_plain hg
  have hi₀ : Inv False s.coCurrent s.toSched := h.placed.current hs
  refine step_invariant (J := fun t => ∀ c q, (t.co c).frame.waitQueue = some q → T.Waits c q)
    h.placed (h.noIo.leaks hio) hs h.waiting ?_ (fun _ _ _ _ hw _ => hw)
  intro os p p' hm hi hw c q hq
  have hold := hw c
  have hrec := hm.record hi c
  generalize p'.2.co c = r' at hrec hq
  cases hrec with
  | same => exact hold q hq
  | called ha hf hc => exact hold q hq
  | spawned hf hf' => simp [hf', Frame.waitQueue] at hq
  | finished hf hf' => simp [hf', Frame.waitQueue] at hq
  | yielded ha hf => cases hq
  | blocked ha hf hf₀ hfits hst hdir hcall hdue hto =>
    subst ha
    exact waits_of_fits hg ((hi₀.user c).mp hf₀) hfits hq
  | drained ha hf hf' => simp [hf', Frame.waitQueue] at hq
  | touched hf hf' hcall => simp [hf', Frame.waitQueue] at hq
  | dispatched ha hq' hst => cases hq
  | relocked ha hq' hst hf =>
    -- nobody waits on a condition variable
    obtain ⟨v, ⟨hf, -⟩ | ⟨hf, -⟩⟩ := Frame.relocking_spec hf
    · obtain ⟨h', ⟨he, -⟩ | ⟨he, -⟩⟩ := hold (.cond v) (by rw [hf]; rfl) <;> cases he
    · obtain ⟨h', ⟨he, -⟩ | ⟨he, -⟩⟩ := hold (.cond v) (by rw [hf]; rfl) <;> cases he
  | expired ha hst ht => exact hold q hq
  | polled ha hl hfits =>
    refine hold q (hl.waitQueue ▸ ?_)
    split at hq <;> exact hq
  | woken hst hq' hst' hf hcall hw' hto =>
    rw [hf] at hq
    exact hold q hq

/-- A closed channel stays closed. -/
theorem Kept.closed_step (h : T.Kept s) (hg : T.follows s a = true) (hs : step s a = some s')
    (k : Nat) (hcl : (s.chans k).closed = true) : (s'.chans k).closed = true :=
  (h.channels k).closed_step h.calls h.placed (h.noIo.leaks (follows_plain hg).1) hs hcl

theorem Kept.gone_step (h : T.Kept s) (hg : T.follows s a = true) (hs : step s a = some s') :
    ∀ c, 1 ≤ c → c < s'.nextId → (s'.co c).unfinished = true ∨ T.left s' c = true := by
  have hmono : ∀ c, T.left s c = true → T.left s' c = true :=
    fun c hl => left_mono hl (h.closed_step hg hs)
  have hsame : ∀ c, 1 ≤ c → c < s.nextId → (s'.co c).unfinished = (s.co c).unfinished →
      (s'.co c).unfinished = true ∨ T.left s' c = true := by
    intro c h1 hc hu
    rw [hu]
    exact (h.gone c h1 hc).imp id (hmono c)
  obtain ⟨t, he, hk⟩ := histStep_effect (a := .act a) h.rooted.ctl_live hs
  have hnext : s'.nextId = t.nextId := congrArg Holdings.nextId hk.keeps
  intro c h1 hc
  rw [hnext] at hc
  have hlive : (s'.co c).unfinished = (t.co c).unfinished := hk.live c
  cases he with
  | moves hx ha => exact hsame c h1 hc hlive
  | @spawns e hu =>
    rcases coSpawn_cases s e with ⟨-, he⟩ | ⟨-, p, -, he⟩ | ⟨-, b, p, -, ⟨hi, -⟩ | ⟨-, -, hsp⟩⟩
    · rw [he] at hc hlive
      exact hsame c h1 hc hlive
    · rw [he] at hc hlive
      exact hsame c h1 hc hlive
    · simp [follows, hi] at hg
    · have hid : (coSpawn s e).2.nextId = s.nextId + 1 := congrArg Holdings.nextId hsp.keeps
      rw [hid] at hc
      by_cases hcn : c = s.nextId
      · refine .inl (hlive.trans ((hsp.live c).trans ?_))
        rw [hcn, spawnedWith_co_self]
        rfl
      · refine hsame c h1 (by omega) (hlive.trans ((hsp.live c).trans ?_))
        rw [spawnedWith_co_ne e b p hcn]
  | @ends d hd =>
    obtain ⟨pool, he⟩ := finish_eq s d
    rw [he] at hc hlive
    by_cases hcd : c = d
    · have hcur : s.coCurrent = some d := by simp [St.coCurrent, hd]
      refine .inr (hmono c ?_)
      rw [hcd]
      simpa [follows, hcur] using hg
    · exact hsame c h1 hc (by simpa [hcd] using hlive)

theorem Kept.step (h : T.Kept s) (hg : T.follows s a = true) (hs : Libco.step s a = some s') :
    T.Kept s' := by
  obtain ⟨hio, hd⟩ := follows_plain hg
  have hl := h.noIo.leaks hio
  obtain ⟨t, he, hk⟩ := histStep_effect (a := .act a) h.rooted.ctl_live hs
  exact ⟨h.placed.step (fun hf => hf.elim) hl hs, h.noIo.step h.placed hio hs,
    fun m => (h.mutex m).step h.placed hl (disciplinedAt hd m) hs,
    step_not_aborted h.placed h.noIo h.mutex hio hd hs, h.calls.step h.placed hl hs,
    fun k => (h.channels k).step h.calls h.placed hl hs, hk.rooted (h.rooted.effect he),
    h.waits_step hg hs, h.gone_step hg hs⟩

theorem kept_init (T : ChannelTree) (cfg : Config) : T.Kept (init cfg) := by
  refine ⟨placed_init cfg, fun _ => rfl, fun _ => mutexInv_init cfg, by simp [init],
    callInv_init cfg, ledger_init cfg, rooted_init cfg, ?_, ?_⟩
  · intro c q hq
    simp [init, Routine.zero, Frame.waitQueue] at hq
  · intro c h1 hc
    have hone : c < 1 := hc
    omega

theorem Runs.kept {cfg : Config} (h : T.Runs cfg s) : T.Kept s := by
  induction h with
  | init => exact kept_init T cfg
  | next a _ hg hs ih => exact ih.step hg hs

/-! ## Nobody waits for ever -/

/-- `c` is blocked on channel `h`. -/
def Blocked (s : St) (c h : Nat) : Prop := c ∈ s.queues (.send h) ∨ c ∈ s.queues (.recv h)

/-- A coroutine that is blocked is an end of its channel, which is open, and nobody is
blocked at the other end of it. -/
theorem Kept.blocked_ends (h : T.Kept s) {run : Prop} {cur : Option Nat}
    (hi : Inv run cur s.toSched) {k : Nat} (hb : Blocked s c k) :
    ∃ d, T.Joins k c d ∧ (1 ≤ d ∧ d ≤ T.size) ∧ ¬ Blocked s d k ∧ T.left s d = false := by
  have hshape := (h.channels k).shape
  have hopen : (s.chans k).closed = false := by
    by_contra hcl
    obtain ⟨h1, h2⟩ := hshape.shut (by simpa using hcl)
    rcases hb with hb | hb
    · simp [h1] at hb
    · simp [h2] at hb
  have hleft : ∀ d e, T.ends k = some e → e.1 = d ∨ e.2 = d → T.left s d = false := by
    intro d e he hd
    by_contra hl
    rw [closed_of_left (by simpa using hl) he hd] at hopen
    cases hopen
  -- whoever is in a queue of the channel is the end that the queue is for
  have hsend : ∀ d, d ∈ s.queues (.send k) → ∃ e, T.ends k = some (d, e) := by
    intro d hd
    have hw := (Routine.home_wait (hi.mem_queue hd) (by simp)).2
    obtain ⟨k', ⟨hq, hs⟩ | ⟨hq, -⟩⟩ := h.waiting d _ hw
    · cases hq
      exact sends_spec hs
    · cases hq
  have hrecv : ∀ d, d ∈ s.queues (.recv k) → ∃ e, T.ends k = some (e, d) := by
    intro d hd
    have hw := (Routine.home_wait (hi.mem_queue hd) (by simp)).2
    obtain ⟨k', ⟨hq, -⟩ | ⟨hq, hs⟩⟩ := h.waiting d _ hw
    · cases hq
    · cases hq
      exact receives_spec hs
  rcases hb with hb | hb
  · obtain ⟨d, he⟩ := hsend c hb
    refine ⟨d, ends_joins he, (ends_inside he).2, ?_, hleft d _ he (.inr rfl)⟩
    rintro (hd | hd)
    · obtain ⟨e, he'⟩ := hsend d hd
      rw [he] at he'
      cases he'
      exact (ends_joins he).ne rfl
    · rw [(hshape.senders c hb).2] at hd
      cases hd
  · obtain ⟨d, he⟩ := hrecv c hb
    refine ⟨d, ?_, (ends_inside he).1, ?_, hleft d _ he (.inl rfl)⟩
    · exact (ends_joins he).symm
    · rintro (hd | hd)
      · rw [(hshape.receivers c hb).2] at hd
        cases hd
      · obtain ⟨e, he'⟩ := hrecv d hd
        rw [he] at he'
        cases he'
        exact (ends_joins he).ne rfl

/-- The coroutines of the tree are there, and nobody can go on: then nobody is left. -/
theorem Kept.all_finished (h : T.Kept s) (hn : T.size < s.nextId) (hcur : s.coCurrent = none)
    (hr : s.queues .ready = []) (ht : s.timerHeap.entries = []) (c : Nat) :
    (s.co c).unfinished = false := by
  obtain ⟨cur, hi, hc⟩ := h.placed
  rw [← hc h.goes, hcur] at hi
  have hio : ∀ c, (s.co c).ioSuspended = false := fun c => by simp [Routine.ioSuspended, h.noIo c]
  have hall := hi.allBlocked hr ht hio
  have hblocked : ∀ d, (s.co d).unfinished = true → ∃ k, Blocked s d k := by
    intro d hd
    obtain ⟨-, q, hq, hmem⟩ := hall.blocked d hd
    have hw := (Routine.home_wait (hi.mem_queue hmem) hq).2
    obtain ⟨k, ⟨rfl, -⟩ | ⟨rfl, -⟩⟩ := h.waiting d q hw
    · exact ⟨k, .inl hmem⟩
    · exact ⟨k, .inr hmem⟩
  have hpass : T.Passes (Blocked s) := by
    intro d k hd
    obtain ⟨e, hj, hin, hne, hl⟩ := h.blocked_ends hi hd
    have hlive : (s.co e).unfinished = true := by
      rcases h.gone e hin.1 (by omega) with hu | hu
      · exact hu
      · rw [hl] at hu
        cases hu
    obtain ⟨k', hk'⟩ := hblocked e hlive
    refine ⟨e, k', hj, hk', ?_⟩
    rintro rfl
    exact hne hk'
  have hS : ∀ d k, Blocked s d k → d ∈ Finset.range s.nextId := by
    intro d k hd
    have hsus : (s.co d).frame.suspended = true := by
      rcases hd with hd | hd <;>
        exact (Frame.waitQueue_suspended (Routine.home_wait (hi.mem_queue hd) (by simp)).2).1
    exact Finset.mem_range.mpr (hi.lt_nextId (Frame.suspended_ne_absent hsus))
  cases hu : (s.co c).unfinished with
  | false => rfl
  | true =>
    obtain ⟨k, hk⟩ := hblocked c hu
    exact absurd hk (hpass.nobody hS c k)

/-! ## Runs -/

/-- What is left of a tree when `co_scheduler_run` returns: closed channels. -/
structure Drained (T : ChannelTree) (s : St) : Prop where
  finished : ∀ c, (s.co c).unfinished = false
  count : s.activeRoutines = 0
  channels : ∀ h e, T.ends h = some e → (s.chans h).closed = true ∧
    s.queues (.send h) = [] ∧ s.queues (.recv h) = []

theorem Kept.drained (h : T.Kept s) (hn : T.size < s.nextId)
    (hf : ∀ c, (s.co c).unfinished = false) : T.Drained s := by
  obtain ⟨cur, hi, -⟩ := h.placed
  refine ⟨hf, ?_, fun k e he => ?_⟩
  · rw [hi.active]
    exact countOn_eq_zero.mpr fun c _ => hf c
  · have hin := (ends_inside he).1
    have hl : T.left s e.1 = true := by
      rcases h.gone e.1 hin.1 (by omega) with hu | hu
      · rw [hf] at hu
        cases hu
      · exact hu
    have hcl := closed_of_left hl he (.inl rfl)
    exact ⟨hcl, (h.channels k).shape.shut hcl⟩

/-- **Trees of channels do not deadlock.** -/
theorem channel_trees_no_deadlock {cfg : Config} (h : T.Runs cfg s) (hn : T.size < s.nextId) :
    ((∃ c, (s.co c).unfinished = true) →
      s.coCurrent ≠ none ∨ s.queues .ready ≠ [] ∨ s.timerHeap.entries ≠ []) ∧
    ∀ a s', T.follows s a = true → Libco.step s a = some s' →
      s.ctl ≠ .outside → s'.ctl = .outside → T.Drained s' := by
  have hkept := Runs.kept h
  constructor
  · rintro ⟨c, hc⟩
    by_contra hno
    simp only [not_or, not_not] at hno
    have := hkept.all_finished hn hno.1 hno.2.1 hno.2.2 c
    rw [this] at hc
    cases hc
  · intro a s' hg hs hin hout
    have hkept' := hkept.step hg hs
    have hl := hkept.noIo.leaks (follows_plain hg).1
    obtain ⟨b, hb⟩ := vigil_of_reach h
    obtain ⟨now, p, rfl, -, -, rfl⟩ := step_outside hkept.placed hl hs hin hout hb.stop
    obtain ⟨hr, ht⟩ := idlePhase_leaves hout
    have hcur : (idlePhase s now p).coCurrent = none := by simp [St.coCurrent, hout]
    have hn' : T.size < (idlePhase s now p).nextId := by
      obtain ⟨t, he, hk⟩ := histStep_effect (a := .act (.idle p)) hkept.rooted.ctl_live hs
      have hnext : (idlePhase s now p).nextId = t.nextId := congrArg Holdings.nextId hk.keeps
      cases he with
      | moves hx ha =>
        rw [hnext]
        exact hn
    exact hkept'.drained hn' (hkept'.all_finished hn' hcur hr ht)

theorem parent_three {c p : Nat} (hp : (if c = 1 ∨ c = 2 then some 3 else none) = some p) :
    (c = 1 ∨ c = 2) ∧ p = 3 := by
  by_cases hc : c = 1 ∨ c = 2
  · simp only [hc, if_true, Option.some.injEq] at hp
    exact ⟨hc, hp.symm⟩
  · simp [hc] at hp

theorem gather_deeper (c p : Nat) (hp : (if c = 1 ∨ c = 2 then some 3 else none) = some p) :
    (if p = 1 ∨ p = 2 then 1 else 0) < if c = 1 ∨ c = 2 then 1 else 0 := by
  obtain ⟨hc, rfl⟩ := parent_three hp
  simp [hc]

theorem gather_inside (c p : Nat) (_ : 1 ≤ c) (_ : c ≤ 3)
    (hp : (if c = 1 ∨ c = 2 then some 3 else none) = some p) : 1 ≤ p ∧ p ≤ 3 := by
  obtain ⟨-, rfl⟩ := parent_three hp
  exact ⟨by decide, by decide⟩

/-- Coroutines 1 and 2 send to coroutine 3. -/
def gather : ChannelTree where
  parent c := if c = 1 ∨ c = 2 then some 3 else none
  depth c := if c = 1 ∨ c = 2 then 1 else 0
  deeper := gather_deeper
  size := 3
  rises _ := true
  inside := gather_inside

/-- Both senders block, the receiver takes their elements and blocks for another, and the
senders close their channels and return. -/
def gatherRun : List Act :=
  [spawnOk, spawnOk, spawnOk, .run] ++ turn ++ [Act.call (.channelSend 1 fun _ => 7)] ++ turn ++
    [Act.call (.channelSend 2 fun _ => 8)] ++ turn ++
    [Act.call (.channelRecv 1), .call (.channelRecv 2), .call (.channelRecv 1)] ++ turn ++
    [Act.call (.channelClose 1), .finish] ++ turn ++ [Act.call (.channelClose 2), .finish] ++
    turn ++ [Act.finish, .timers 0]

theorem channel_trees_no_deadlock_gather :
    ∃ s s', runGuarded Libco.step gather.follows (init (byteConfig 0)) gatherRun = some s ∧
      gather.follows s (.idle .none) = true ∧ Libco.step s (.idle .none) = some s' ∧
      s.ctl = .idle 0 ∧ s'.ctl = .outside ∧ gather.Drained s' := by
  have hrun : (runGuarded Libco.step gather.follows (init (byteConfig 0)) gatherRun).map
      (fun s => (gather.follows s (.idle .none), s.ctl, s.nextId)) =
      some (true, .idle 0, 4) := by
    decide +kernel
  have hend : ((runGuarded Libco.step gather.follows (init (byteConfig 0)) gatherRun).bind
      (Libco.step · (.idle .none))).map (fun s => s.ctl) = some .outside := by
    decide +kernel
  obtain ⟨s, hs, he⟩ := Option.map_eq_some_iff.mp hrun
  simp only [Prod.mk.injEq] at he
  rw [hs, Option.bind_some] at hend
  obtain ⟨s', hs', he'⟩ := Option.map_eq_some_iff.mp hend
  refine ⟨s, s', hs, he.1, hs', he.2.1, he', ?_⟩
  have hn : gather.size < s.nextId := by
    rw [he.2.2]
    decide
  exact (channel_trees_no_deadlock (reach_of_runGuarded hs) hn).2 _ s' he.1 hs'
    (by simp [he.2.1]) he'

end ChannelTree

end Libco
