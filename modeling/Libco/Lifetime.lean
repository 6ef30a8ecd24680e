import Mathlib.Algebra.BigOperators.Group.Finset.Piecewise
import Mathlib.Algebra.Order.Group.Multiset
import Mathlib.Tactic.Abel
import Libco.Lib.Account
import Libco.Teardown
import Libco.TimerHeap

/-!
# What the library asks the system for, and gives back

The blocks of memory and the handle that a scheduler takes between
`co_scheduler_create` and `co_scheduler_destroy`: its own record, the stack pool and its
array, the array of the timer heap, the multiplexer, and a record and a stack for each
coroutine. An account follows them through every step. Whatever the allocator answers, the
account is exactly what the state refers to, and `co_scheduler_destroy` empties it without
a fault in the states in which every unfinished coroutine is held once.
-/

namespace Libco
open Lib

/-! ## Blocks -/

inductive Block where
  | scheduler
  | pool
  | stackArray
  | timers (capacity : Nat)
  | iomux
  /-- the `epoll` descriptor, or the completion port -/
  | port
  | events
  | routine (c : Nat)
  | stack (b : Nat)
  deriving DecidableEq

/-- What the allocator and the system answer to `co_scheduler_create`. -/
structure CreateEnv where
  scheduler : Bool
  pool : Bool
  stackArray : Bool
  timers : Bool
  /-- `init_winsock`; there is no such step on Linux -/
  startup : Bool
  iomux : Bool
  port : Bool
  events : Bool

/-! ## Creation -/

def coStackPoolCreate (e : CreateEnv) (l : Account Block) : Bool × Account Block :=
  if e.pool then
    let l := l.acquire .pool
    if e.stackArray then (true, l.acquire .stackArray) else (false, l.release .pool)
  else (false, l)

/-- The blocks `co_stack_pool_destroy` frees. -/
def coStackPoolDestroy (p : StackPool) : List Block :=
  p.stacks.map Block.stack ++ [.stackArray, .pool]

def coIomuxCreate (e : CreateEnv) (l : Account Block) : Bool × Account Block :=
  if e.startup then
    if e.iomux then
      let l := l.acquire .iomux
      if e.port then
        let l := l.acquire .port
        if e.events then (true, l.acquire .events)
        else (false, l.releaseAll [.port, .iomux])
      else (false, l.release .iomux)
    else (false, l)
  else (false, l)

def coIomuxDestroy : List Block := [.port, .events, .iomux]

def coTimerHeapDestroy (h : TimerHeap) : List Block := [.timers h.capacity]

def coSchedulerCreate (e : CreateEnv) (l : Account Block) : Bool × Account Block :=
  if e.scheduler then
    match coStackPoolCreate e (l.acquire .scheduler) with
    | (false, l) => (false, l.release .scheduler)
    | (true, l) =>
      match coTimerHeapInit 16 e.timers with
      | none => (false, l.releaseAll (coStackPoolDestroy initPool ++ [.scheduler]))
      | some h =>
        match coIomuxCreate e (l.acquire (.timers h.capacity)) with
        | (false, l) =>
          (false, l.releaseAll
            (coTimerHeapDestroy h ++ (coStackPoolDestroy initPool ++ [.scheduler])))
        | (true, l) => (true, l)
  else (false, l)

/-! ## Steps -/

/-- What `co_stack_pool_free` frees. -/
def poolFrees (p : StackPool) (b : Nat) : List Block :=
  if p.stacks.length < p.capacity then [] else [.stack b]

/-- `co_routine_destroy` and `free`. -/
def Release.frees (p : StackPool) (r : Release) : List Block :=
  match r.stack with
  | some b => poolFrees p b ++ [.routine r.routine]
  | none => [.routine r.routine]

def coSpawnAccount (s : St) (e : SpawnEnv) (l : Account Block) : Account Block :=
  if e.calloc then
    let l := l.acquire (.routine s.nextId)
    match coStackPoolAlloc s.pool e.malloc with
    | (none, _) => l.release (.routine s.nextId)
    | (some b, p) =>
      -- a stack from the pool is one the library has already
      let l := if s.pool.stacks.isEmpty then l.acquire (.stack b) else l
      if e.contextInit then l
      else l.releaseAll (poolFrees p b ++ [.routine s.nextId])
  else l

/-- `realloc`, in a step in which `co_timer_heap_push` made the array larger. -/
def growAccount (s s' : St) (l : Account Block) : Account Block :=
  if s'.timerHeap.capacity = s.timerHeap.capacity then l
  else (l.release (.timers s.timerHeap.capacity)).acquire (.timers s'.timerHeap.capacity)

def stepAccount (s s' : St) (l : Account Block) : HistAct → Account Block
  | .act (.spawn e) => coSpawnAccount s e l
  | .act .finish =>
    match s.ctl with
    | .running c => l.releaseAll (Release.frees s.pool ⟨c, (s.co c).stackBase⟩)
    | _ => l
  | _ => growAccount s s' l

/-- A scheduler, and what it has taken from the system. -/
structure Mem where
  st : St
  account : Account Block

def memStep (x : Mem) (a : HistAct) : Option Mem :=
  (histStep x.st a).map fun s' => ⟨s', stepAccount x.st s' x.account a⟩

/-! ## Destruction -/

/-- The pool after the releases. -/
def Release.pool (p : StackPool) (r : Release) : StackPool :=
  match r.stack with
  | some b => coStackPoolFree p b
  | none => p

def releasesFree : StackPool → List Release → List Block
  | _, [] => []
  | p, r :: rs => r.frees p ++ releasesFree (r.pool p) rs

/-- The blocks `co_scheduler_destroy` frees, in its order. -/
def coSchedulerDestroyFrees (s : St) : List Block :=
  releasesFree s.pool (coSchedulerDestroy s).1 ++
    (coTimerHeapDestroy (coSchedulerDestroy s).2.timerHeap ++
      (coIomuxDestroy ++ (coStackPoolDestroy (coSchedulerDestroy s).2.pool ++ [.scheduler])))

/-! ## What a state refers to -/

def StackPool.blocks (p : StackPool) : Multiset Block := (p.stacks.map Block.stack : List Block)

def Holdings.owned (h : Holdings) (c : Nat) : Multiset Block :=
  match h.stack c with
  | some b => {.routine c, .stack b}
  | none => 0

/-- The records and the stacks of the coroutines. -/
def Holdings.coroutines (h : Holdings) : Multiset Block :=
  ∑ c ∈ Finset.range h.nextId, h.owned c

/-- Taken by `co_scheduler_create`, and kept to the end. -/
def fixedBlocks : Multiset Block := {.scheduler, .pool, .stackArray, .iomux, .port, .events}

def St.blocks (s : St) : Multiset Block :=
  {.timers s.timerHeap.capacity} + (s.pool.blocks + s.holdings.coroutines + fixedBlocks)

variable {s s' t : St} {c : Nat} {l : Account Block} {h : Holdings}

theorem Holdings.mem_coroutines {x : Block} (hx : x ∈ h.coroutines) :
    ∃ c b, c < h.nextId ∧ h.stack c = some b ∧ (x = .routine c ∨ x = .stack b) := by
  obtain ⟨c, hc, hm⟩ := Multiset.mem_sum.mp hx
  unfold Holdings.owned at hm
  split at hm
  · rename_i b hb
    exact ⟨c, b, Finset.mem_range.mp hc, hb, by simpa using hm⟩
  · simp at hm

theorem St.mem_blocks {x : Block} : x ∈ s.blocks ↔ x = .timers s.timerHeap.capacity ∨
    (((∃ b ∈ s.pool.stacks, Block.stack b = x) ∨ x ∈ s.holdings.coroutines) ∨ x ∈ fixedBlocks) := by
  simp [St.blocks, StackPool.blocks]

/-- The record of the next coroutine is new. -/
theorem St.nextRoutine_new : Block.routine s.nextId ∉ s.blocks := by
  intro hm
  rcases St.mem_blocks.mp hm with hx | (⟨b, -, hx⟩ | hx) | hx
  · cases hx
  · cases hx
  · obtain ⟨c, b, hc, -, hx | hx⟩ := Holdings.mem_coroutines hx
    · cases hx
      exact absurd hc (Nat.lt_irrefl _)
    · cases hx
  · simp [fixedBlocks] at hx

theorem St.stack_new {b : Nat} (hp : b ∉ s.pool.stacks) (hn : ∀ d, (s.co d).stackBase ≠ some b) :
    Block.stack b ∉ s.blocks := by
  intro hm
  rcases St.mem_blocks.mp hm with hx | (⟨d, hd, hx⟩ | hx) | hx
  · cases hx
  · cases hx
    exact hp hd
  · obtain ⟨c, d, -, hd, hx | hx⟩ := Holdings.mem_coroutines hx
    · cases hx
    · cases hx
      exact hn c hd
  · simp [fixedBlocks] at hx

theorem Holdings.coroutines_grant (b : Nat) (p : StackPool) :
    (h.grant b p).coroutines = {.routine h.nextId, .stack b} + h.coroutines := by
  have hold : ∀ c ∈ Finset.range h.nextId, (h.grant b p).owned c = h.owned c := by
    intro c hc
    have hne : c ≠ h.nextId := Nat.ne_of_lt (Finset.mem_range.mp hc)
    simp [Holdings.owned, Holdings.grant, hne]
  have hnew : (h.grant b p).owned h.nextId = {.routine h.nextId, .stack b} := by
    simp [Holdings.owned, Holdings.grant]
  calc (h.grant b p).coroutines
      = ∑ c ∈ Finset.range h.nextId, (h.grant b p).owned c + (h.grant b p).owned h.nextId :=
        Finset.sum_range_succ _ _
    _ = h.coroutines + {.routine h.nextId, .stack b} := by
        rw [Finset.sum_congr rfl hold, hnew, Holdings.coroutines]
    _ = _ := add_comm _ _

/-- An identifier is used up. -/
theorem Holdings.coroutines_skip (hf : h.stack h.nextId = none) (p : StackPool) :
    Holdings.coroutines { h with pool := p, nextId := h.nextId + 1 } = h.coroutines := by
  have hnew : h.owned h.nextId = 0 := by simp [Holdings.owned, hf]
  calc Holdings.coroutines { h with pool := p, nextId := h.nextId + 1 }
      = ∑ c ∈ Finset.range h.nextId, h.owned c + h.owned h.nextId := Finset.sum_range_succ _ _
    _ = h.coroutines := by rw [hnew, add_zero, Holdings.coroutines]

theorem Holdings.coroutines_drop {b : Nat} (hc : c < h.nextId) (hb : h.stack c = some b) :
    h.coroutines = {.routine c, .stack b} + (h.drop c b).coroutines := by
  have hm : c ∈ Finset.range h.nextId := Finset.mem_range.mpr hc
  have hold : ∀ d ∈ (Finset.range h.nextId).erase c, (h.drop c b).owned d = h.owned d := by
    intro d hd
    have hne : d ≠ c := (Finset.mem_erase.mp hd).1
    simp [Holdings.owned, Holdings.drop, hne]
  have hgone : (h.drop c b).owned c = 0 := by simp [Holdings.owned, Holdings.drop]
  have hhad : h.owned c = {.routine c, .stack b} := by simp [Holdings.owned, hb]
  have hrest : (h.drop c b).coroutines = ∑ d ∈ (Finset.range h.nextId).erase c, h.owned d := by
    calc (h.drop c b).coroutines
        = (h.drop c b).owned c + ∑ d ∈ (Finset.range h.nextId).erase c, (h.drop c b).owned d :=
          (Finset.add_sum_erase _ _ hm).symm
      _ = _ := by rw [hgone, zero_add, Finset.sum_congr rfl hold]
  rw [hrest, ← hhad, Holdings.coroutines, Finset.add_sum_erase _ _ hm]

/-! ### The pool -/

theorem coStackPoolFree_blocks (p : StackPool) (b : Nat) :
    (poolFrees p b : Multiset Block) + (coStackPoolFree p b).blocks = {.stack b} + p.blocks := by
  unfold poolFrees coStackPoolFree StackPool.blocks
  dsimp only
  split
  · rw [List.map_append, ← Multiset.coe_add, Multiset.coe_nil, zero_add]
    exact add_comm _ _
  · rfl

theorem coStackPoolAlloc_blocks {p p' : StackPool} {m : Option Nat} {b : Nat}
    (ha : coStackPoolAlloc p m = (some b, p')) :
    (p.stacks.isEmpty = true ∧ m = some b ∧ p'.blocks = p.blocks) ∨
      (p.stacks.isEmpty = false ∧ p.blocks = {.stack b} + p'.blocks) := by
  unfold coStackPoolAlloc at ha
  dsimp only at ha
  split at ha
  · rename_i d hd
    simp only [Prod.mk.injEq, Option.some.injEq] at ha
    obtain ⟨rfl, rfl⟩ := ha
    obtain ⟨rest, hrest⟩ := List.getLast?_eq_some_iff.mp hd
    refine .inr ⟨by simp [hrest], ?_⟩
    simp only [StackPool.blocks, hrest, List.dropLast_concat, List.map_append, ← Multiset.coe_add]
    exact add_comm _ _
  · rename_i hd
    simp only [Prod.mk.injEq] at ha
    obtain ⟨rfl, rfl⟩ := ha
    exact .inl ⟨by simpa using hd, rfl, rfl⟩

/-! ## Creation -/

theorem coStackPoolCreate_spec {m : Multiset Block} (e : CreateEnv) (hl : l.Holds m)
    (hp : Block.pool ∉ m) (ha : Block.stackArray ∉ m) :
    (∃ l', coStackPoolCreate e l = (false, l') ∧ l'.Holds m) ∨
      ∃ l', coStackPoolCreate e l = (true, l') ∧ l'.Holds (.stackArray ::ₘ .pool ::ₘ m) := by
  have hpool := hl.acquire hp
  unfold coStackPoolCreate
  split
  · split
    · exact .inr ⟨_, rfl, hpool.acquire (by simpa using ha)⟩
    · exact .inl ⟨_, rfl, hpool.release⟩
  · exact .inl ⟨_, rfl, hl⟩

theorem coIomuxCreate_spec {m : Multiset Block} (e : CreateEnv) (hl : l.Holds m)
    (hi : Block.iomux ∉ m) (hp : Block.port ∉ m) (hv : Block.events ∉ m) :
    (∃ l', coIomuxCreate e l = (false, l') ∧ l'.Holds m) ∨
      ∃ l', coIomuxCreate e l = (true, l') ∧ l'.Holds (.events ::ₘ .port ::ₘ .iomux ::ₘ m) := by
  have hiomux := hl.acquire hi
  have hport := hiomux.acquire (r := .port) (by simpa using hp)
  unfold coIomuxCreate
  split
  · split
    · split
      · split
        · exact .inr ⟨_, rfl, hport.acquire (by simpa using hv)⟩
        · exact .inl ⟨_, rfl, hport.release.release⟩
      · exact .inl ⟨_, rfl, hiomux.release⟩
    · exact .inl ⟨_, rfl, hl⟩
  · exact .inl ⟨_, rfl, hl⟩

theorem init_blocks (cfg : Config) : (init cfg).blocks = .timers 16 ::ₘ fixedBlocks := by
  simp [St.blocks, init, initPool, StackPool.blocks, Holdings.coroutines, St.holdings,
    Holdings.owned, Routine.zero]

/-- A scheduler is created with its blocks, or nothing is left of the attempt. -/
theorem coSchedulerCreate_spec (e : CreateEnv) (cfg : Config) (hl : l.Holds 0) :
    (∃ l', coSchedulerCreate e l = (false, l') ∧ l'.Holds 0) ∨
      ∃ l', coSchedulerCreate e l = (true, l') ∧ l'.Holds (init cfg).blocks := by
  have hsched := hl.acquire (r := .scheduler) (by simp)
  unfold coSchedulerCreate
  split
  swap
  · exact .inl ⟨_, rfl, hl⟩
  obtain ⟨l₁, he, h₁⟩ | ⟨l₁, he, h₁⟩ := coStackPoolCreate_spec e hsched (by simp) (by simp)
  · rw [he]
    exact .inl ⟨_, rfl, h₁.release⟩
  rw [he]
  dsimp only
  cases e.timers with
  | false => exact .inl ⟨_, rfl, h₁.releaseAll⟩
  | true =>
    have htimers := h₁.acquire (r := .timers 16) (by simp)
    have hinit : coTimerHeapInit 16 true = some ⟨[], 16⟩ := rfl
    rw [hinit]
    dsimp only
    obtain ⟨l₂, he, h₂⟩ | ⟨l₂, he, h₂⟩ :=
      coIomuxCreate_spec e htimers (by simp) (by simp) (by simp)
    · rw [he]
      exact .inl ⟨_, rfl, h₂.releaseAll⟩
    · rw [he]
      refine .inr ⟨_, rfl, h₂.of_eq ?_⟩
      rw [init_blocks]
      decide

/-! ## Steps -/

theorem coSpawn_timerHeap (s : St) (e : SpawnEnv) : (coSpawn s e).2.timerHeap = s.timerHeap := by
  unfold coSpawn
  dsimp only
  split
  · split
    · rfl
    · split <;> rfl
  · rfl

/-- The blocks that a spawn does not touch. -/
def St.standing (s : St) : Multiset Block := {.timers s.timerHeap.capacity} + fixedBlocks

theorem St.blocks_eq (s : St) : s.blocks = s.pool.blocks + s.holdings.coroutines + s.standing := by
  unfold St.blocks St.standing
  abel

theorem coSpawnAccount_holds {e : SpawnEnv} (hl : l.Holds s.blocks) (hs : s.holdings.Sound)
    (hm : FreshFor e.malloc s) : (coSpawnAccount s e l).Holds (coSpawn s e).2.blocks := by
  have hstanding : (coSpawn s e).2.standing = s.standing := by
    rw [St.standing, coSpawn_timerHeap, St.standing]
  have hroutine := hl.acquire St.nextRoutine_new
  rw [St.blocks_eq (coSpawn s e).2, hstanding]
  rcases coSpawn_cases s e with ⟨hc, he⟩ | ⟨hc, p, ha, he⟩ | ⟨hc, b, p, ha, hb⟩
  · -- no record
    rw [he, ← St.blocks_eq]
    simpa [coSpawnAccount, hc] using hl
  · -- no stack
    have hstacks : p.stacks = s.pool.stacks := by
      unfold coStackPoolAlloc at ha
      dsimp only at ha
      split at ha
      · simp at ha
      · rw [← (Prod.mk.inj ha).2]
    have hblocks : p.blocks = s.pool.blocks := by rw [StackPool.blocks, hstacks, StackPool.blocks]
    have hsame : Holdings.coroutines { s.holdings with pool := p } = s.holdings.coroutines := rfl
    have hrel := hroutine.release
    rw [St.blocks_eq] at hrel
    rw [he]
    simp only [coSpawnAccount, hc, if_true, ha]
    refine hrel.of_eq ?_
    rw [show ({ s with pool := p } : St).holdings = { s.holdings with pool := p } from rfl, hsame,
      hblocks]
  -- the account once the stack is there
  have hstack : (if s.pool.stacks.isEmpty = true then
        (l.acquire (.routine s.nextId)).acquire (.stack b)
      else l.acquire (.routine s.nextId)).Holds
        ({.routine s.nextId, .stack b} + (p.blocks + s.holdings.coroutines + s.standing)) := by
    rcases coStackPoolAlloc_blocks ha with ⟨hempty, hmb, hp⟩ | ⟨hempty, hp⟩
    · obtain ⟨hpool, hnobody⟩ := hm b hmb
      have hnew := hroutine.acquire (r := .stack b)
        (by simpa using St.stack_new hpool hnobody)
      rw [if_pos hempty]
      refine hnew.of_eq ?_
      rw [hp, St.blocks_eq]
      simp only [← Multiset.singleton_add, Multiset.insert_eq_cons]
      abel
    · rw [if_neg (by simp [hempty])]
      refine hroutine.of_eq ?_
      rw [St.blocks_eq, hp]
      simp only [← Multiset.singleton_add, Multiset.insert_eq_cons]
      abel
  rcases hb with ⟨hi, he⟩ | ⟨hi, -, hk⟩
  · -- no context
    have hskip := Holdings.coroutines_skip (hs.fresh s.nextId (Nat.le_refl _)) (coStackPoolFree p b)
    simp only [coSpawnAccount, hc, if_true, ha, hi, Bool.false_eq_true, if_false]
    refine Account.Holds.releaseAll (hstack.of_eq ?_)
    rw [he]
    rw [show ({ s with pool := coStackPoolFree p b, nextId := s.nextId + 1 } : St).holdings =
      { s.holdings with pool := coStackPoolFree p b, nextId := s.holdings.nextId + 1 } from rfl, hskip]
    calc ({.routine s.nextId, .stack b} : Multiset Block) +
          (p.blocks + s.holdings.coroutines + s.standing)
        = ({.stack b} + p.blocks) +
          ({.routine s.nextId} + (s.holdings.coroutines + s.standing)) := by
          simp only [Multiset.insert_eq_cons, ← Multiset.singleton_add]
          abel
      _ = (poolFrees p b ++ [.routine s.nextId] : List Block) + ((coStackPoolFree p b).blocks +
          s.holdings.coroutines + s.standing) := by
          rw [← coStackPoolFree_blocks p b, ← Multiset.coe_add, Multiset.coe_singleton]
          abel
  · simp only [coSpawnAccount, hc, if_true, ha, hi]
    refine hstack.of_eq ?_
    have hkeeps : (coSpawn s e).2.holdings = s.holdings.grant b p :=
      Eq.trans hk.keeps (spawnedWith_holdings e b p)
    have hpool : (coSpawn s e).2.pool = p := hk.pool
    rw [hkeeps, hpool, Holdings.coroutines_grant]
    show _ = p.blocks + ({.routine s.nextId, .stack b} + s.holdings.coroutines) + s.standing
    abel

/-- The array of the timer heap may have grown. -/
theorem growAccount_holds (hl : l.Holds s.blocks) (hp : s'.pool = s.pool)
    (hc : s'.holdings.coroutines = s.holdings.coroutines) :
    (growAccount s s' l).Holds s'.blocks := by
  have hblocks : s'.blocks = .timers s'.timerHeap.capacity ::ₘ
      (s.pool.blocks + s.holdings.coroutines + fixedBlocks) := by
    rw [St.blocks, hp, hc, Multiset.singleton_add]
  unfold growAccount
  split
  · rename_i hcap
    rw [hblocks, hcap]
    exact hl
  · have hrel : (l.release (.timers s.timerHeap.capacity)).Holds
        (s.pool.blocks + s.holdings.coroutines + fixedBlocks) := Account.Holds.release hl
    rw [hblocks]
    refine hrel.acquire fun hm => ?_
    simp only [Multiset.mem_add, StackPool.blocks, Multiset.mem_coe, List.mem_map, reduceCtorEq,
      and_false, exists_false, false_or] at hm
    rcases hm with hm | hm
    · obtain ⟨c, b, -, -, hx | hx⟩ := Holdings.mem_coroutines hm <;> cases hx
    · simp [fixedBlocks] at hm

theorem finish_holds {b : Nat} (hl : l.Holds s.blocks) (hr : s.holdings.Rooted)
    (hb : (s.co c).stackBase = some b) :
    (l.releaseAll (Release.frees s.pool ⟨c, some b⟩)).Holds
      ({ coRoutineDestroy (coRoutineFinish s c) c with ctl := .loop } : St).blocks := by
  have hd : s.holdings.coroutines = {.routine c, .stack b} + (s.holdings.drop c b).coroutines :=
    Holdings.coroutines_drop (hr.below hb) hb
  have hcor : ({ coRoutineDestroy (coRoutineFinish s c) c with ctl := .loop } : St).holdings.coroutines =
      (s.holdings.drop c b).coroutines := by
    rw [ended_holdings hb]
    rfl
  have hpool : ({ coRoutineDestroy (coRoutineFinish s c) c with ctl := .loop } : St).pool =
      coStackPoolFree s.pool b := by
    have := congrArg Holdings.pool (ended_holdings hb)
    exact this
  have hstanding : ({ coRoutineDestroy (coRoutineFinish s c) c with ctl := .loop } : St).standing =
      s.standing := by
    have hheap := (coRoutineDestroy_places (coRoutineFinish s c) c).2
    unfold St.standing
    rw [show ({ coRoutineDestroy (coRoutineFinish s c) c with ctl := .loop } : St).timerHeap =
      s.timerHeap from hheap]
  refine Account.Holds.releaseAll (hl.of_eq ?_)
  rw [St.blocks_eq, hd, St.blocks_eq, hcor, hpool, hstanding]
  calc s.pool.blocks + ({.routine c, .stack b} + (s.holdings.drop c b).coroutines) + s.standing
      = ({.stack b} + s.pool.blocks) +
        ({.routine c} + ((s.holdings.drop c b).coroutines + s.standing)) := by
        simp only [Multiset.insert_eq_cons, ← Multiset.singleton_add]
        abel
    _ = _ := by
        rw [← coStackPoolFree_blocks s.pool b]
        simp only [Release.frees, ← Multiset.coe_add, Multiset.coe_singleton]
        abel

/-- **What is held** is what the state refers to, step by step. -/
theorem stepAccount_holds {a : HistAct} (hl : l.Holds s.blocks) (hs : s.holdings.Sound)
    (hm : mallocFresh s a = true) (hstep : histStep s a = some s') :
    (stepAccount s s' l a).Holds s'.blocks := by
  have hmoves : (∀ e, a ≠ .act (.spawn e)) → a ≠ .act .finish →
      (growAccount s s' l).Holds s'.blocks := by
    intro hns hnf
    obtain ⟨t, he, hk⟩ := histStep_effect hs.rooted.ctl_live hstep
    have hkeeps : s'.holdings = t.holdings := hk.keeps
    cases he with
    | moves hx ha =>
      refine growAccount_holds hl hk.pool ?_
      rw [hkeeps]
      rfl
    | spawns hu => exact absurd rfl (hns _)
    | ends hc => exact absurd rfl hnf
  cases a with
  | switchFails => exact hmoves (by simp) (by simp)
  | act a =>
    cases a with
    | spawn e =>
      obtain ⟨-, rfl⟩ := step_spawn hstep
      exact coSpawnAccount_holds hl hs (mallocFresh_spawn hs.rooted hm)
    | finish =>
      obtain ⟨c, hctl, rfl⟩ := step_finish hstep
      obtain ⟨b, hb⟩ := hs.rooted.base (hs.current c hctl)
      simp only [stepAccount, hctl, hb]
      exact finish_holds hl hs.rooted hb
    | run => exact hmoves (by simp) (by simp)
    | timers now => exact hmoves (by simp) (by simp)
    | idle p => exact hmoves (by simp) (by simp)
    | schedule e => exact hmoves (by simp) (by simp)
    | call op => exact hmoves (by simp) (by simp)

/-- The runs of a scheduler that was created with the account `l`. No timer is left behind. -/
def MemRun (cfg : Config) (l : Account Block) : Mem → Prop :=
  Reach memStep (fun x a => sober x.st a = true) ⟨init cfg, l⟩

theorem MemRun.holds {cfg : Config} {x : Mem} (h : MemRun cfg l x)
    (hl : l.Holds (init cfg).blocks) : x.st.holdings.Sound ∧ x.account.Holds x.st.blocks := by
  refine Reach.invariant (P := fun x : Mem => x.st.holdings.Sound ∧ x.account.Holds x.st.blocks) h
    ⟨History.sound .init, hl⟩ ?_
  rintro x a x' ⟨hs, hx⟩ hm hstep
  obtain ⟨s', hs', rfl⟩ := Option.map_eq_some_iff.mp hstep
  obtain ⟨hm, -⟩ := sober_split hm
  refine ⟨?_, stepAccount_holds hx hs hm hs'⟩
  obtain ⟨t, he, hk⟩ := histStep_effect hs.rooted.ctl_live hs'
  refine hk.sound (hs.effect ?_ he)
  rintro e rfl
  exact mallocFresh_spawn hs.rooted hm

/-! ## Destruction -/

/-- The pool after the releases. -/
def poolAfter (p : StackPool) (rs : List Release) : StackPool := rs.foldl Release.pool p

/-- What a released coroutine had. -/
def Release.blocks (r : Release) : Multiset Block :=
  match r.stack with
  | some b => {.routine r.routine, .stack b}
  | none => {.routine r.routine}

/-- A stack is freed at once, or with the pool it goes back to. -/
theorem releasesFree_blocks (p : StackPool) (rs : List Release) :
    (releasesFree p rs : Multiset Block) + (poolAfter p rs).blocks =
      p.blocks + (rs.map Release.blocks).sum := by
  induction rs generalizing p with
  | nil => simp [releasesFree, poolAfter]
  | cons r rs ih =>
    have hone : (r.frees p : Multiset Block) + (r.pool p).blocks = p.blocks + r.blocks := by
      unfold Release.frees Release.pool Release.blocks
      cases r.stack with
      | none => exact add_comm _ _
      | some b =>
        simp only [← Multiset.coe_add, Multiset.coe_singleton, Multiset.insert_eq_cons,
          ← Multiset.singleton_add]
        rw [add_right_comm, coStackPoolFree_blocks]
        abel
    calc (releasesFree p (r :: rs) : Multiset Block) + (poolAfter p (r :: rs)).blocks
        = (r.frees p : Multiset Block) +
            ((releasesFree (r.pool p) rs : Multiset Block) + (poolAfter (r.pool p) rs).blocks) := by
          rw [releasesFree, ← Multiset.coe_add, add_assoc]
          rfl
      _ = ((r.frees p : Multiset Block) + (r.pool p).blocks) + (rs.map Release.blocks).sum := by
          rw [ih, add_assoc]
      _ = p.blocks + ((r :: rs).map Release.blocks).sum := by
          rw [hone, List.map_cons, List.sum_cons, add_assoc]

theorem coRoutineDestroy_pool (s : St) (c : Nat) :
    (coRoutineDestroy s c).pool = Release.pool s.pool ⟨c, (s.co c).stackBase⟩ := by
  unfold coRoutineDestroy Release.pool
  cases (s.co c).stackBase <;> rfl

theorem destroyReady_pool (n : Nat) (s : St) :
    (destroyReady n s).2.pool = poolAfter s.pool (destroyReady n s).1 ∧
      (destroyReady n s).2.timerHeap.capacity = s.timerHeap.capacity := by
  induction n generalizing s with
  | zero => exact ⟨rfl, rfl⟩
  | succ n ih =>
    cases hq : s.queues .ready with
    | nil => simp [destroyReady, coQueuePopFront_nil hq, poolAfter]
    | cons c rest =>
      simp only [destroyReady, coQueuePopFront_cons hq]
      obtain ⟨h1, h2⟩ := ih (coRoutineDestroy
        { s with queues := Function.update s.queues .ready rest } c)
      rw [h1, h2, coRoutineDestroy_pool, (coRoutineDestroy_places _ c).2]
      exact ⟨rfl, rfl⟩

theorem destroySleeping_pool (n : Nat) (s : St) :
    (destroySleeping n s).2.pool = poolAfter s.pool (destroySleeping n s).1 ∧
      (destroySleeping n s).2.timerHeap.capacity = s.timerHeap.capacity := by
  induction n generalizing s with
  | zero => exact ⟨rfl, rfl⟩
  | succ n ih =>
    simp only [destroySleeping]
    cases hp : coTimerHeapPop s.key s.timerHeap with
    | mk o h =>
      cases o with
      | none => exact ⟨rfl, rfl⟩
      | some c =>
        obtain ⟨h1, h2⟩ := ih (coRoutineDestroy { s with timerHeap := h } c)
        have hcap : h.capacity = s.timerHeap.capacity := by
          have hsnd : (coTimerHeapPop s.key s.timerHeap).2 = h := by rw [hp]
          rw [← hsnd]
          unfold coTimerHeapPop
          split
          · rfl
          · split <;> rfl
        dsimp only
        rw [h1, h2, coRoutineDestroy_pool, (coRoutineDestroy_places _ c).2]
        exact ⟨rfl, hcap⟩

theorem coSchedulerDestroy_pool (s : St) :
    (coSchedulerDestroy s).2.pool = poolAfter s.pool (coSchedulerDestroy s).1 ∧
      (coSchedulerDestroy s).2.timerHeap.capacity = s.timerHeap.capacity := by
  obtain ⟨h1, h2⟩ := destroyReady_pool (s.queues .ready).length s
  obtain ⟨h3, h4⟩ := destroySleeping_pool
    (destroyReady (s.queues .ready).length s).2.timerHeap.entries.length
    (destroyReady (s.queues .ready).length s).2
  refine ⟨?_, h4.trans h2⟩
  simp only [coSchedulerDestroy]
  rw [h3, h1, poolAfter, poolAfter, poolAfter, List.foldl_append]

/-- Besides the coroutines it finds, `co_scheduler_destroy` frees what else there is. -/
theorem coSchedulerDestroyFrees_eq (s : St) :
    (coSchedulerDestroyFrees s : Multiset Block) =
      s.standing + s.pool.blocks + ((coSchedulerDestroy s).1.map Release.blocks).sum := by
  obtain ⟨hpool, hcap⟩ := coSchedulerDestroy_pool s
  have hfree := releasesFree_blocks s.pool (coSchedulerDestroy s).1
  rw [← hpool] at hfree
  have hfixed : fixedBlocks = (coIomuxDestroy : Multiset Block) +
      (([.stackArray, .pool] : List Block) + {.scheduler}) := by decide
  have hlist : (coSchedulerDestroyFrees s : Multiset Block) =
      releasesFree s.pool (coSchedulerDestroy s).1 + ({.timers s.timerHeap.capacity} +
        ((coIomuxDestroy : Multiset Block) + ((coSchedulerDestroy s).2.pool.blocks +
          ([.stackArray, .pool] : List Block) + {.scheduler}))) := by
    simp only [coSchedulerDestroyFrees, coTimerHeapDestroy, coStackPoolDestroy, hcap,
      ← Multiset.coe_add, Multiset.coe_singleton]
    rfl
  calc (coSchedulerDestroyFrees s : Multiset Block)
      = s.standing + ((releasesFree s.pool (coSchedulerDestroy s).1 : Multiset Block) +
          (coSchedulerDestroy s).2.pool.blocks) := by
        rw [hlist, St.standing, hfixed]
        abel
    _ = _ := by rw [hfree, add_assoc]

/-- The releases of coroutines that each have their stack. -/
theorem releases_blocks {h : Holdings} (hr : h.Rooted) {ls : List Nat} (hn : ls.Nodup)
    (hlive : ∀ c ∈ ls, h.live c = true) :
    ((releases h.stack ls).map Release.blocks).sum = (ls.map h.owned).sum := by
  rw [releases_nodup _ hn, List.map_map]
  congr 1
  refine List.map_congr_left fun c hc => ?_
  obtain ⟨b, hb⟩ := Option.isSome_iff_exists.mp ((hr.live c).symm.trans (hlive c hc))
  simp [Release.blocks, Holdings.owned, hb]

theorem Holdings.Rooted.coroutines_eq {h : Holdings} (hr : h.Rooted) {ls : List Nat}
    (hc : ∀ c, ls.count c = (h.live c).toNat) : (ls.map h.owned).sum = h.coroutines := by
  have hone : ∀ c ∈ ls.toFinset, ls.count c • h.owned c = h.owned c := by
    intro c hm
    have hpos := List.count_pos_iff.mpr (List.mem_toFinset.mp hm)
    have hle := Bool.toNat_le (h.live c)
    have hcount := hc c
    have h1 : ls.count c = 1 := by omega
    rw [h1, one_nsmul]
  have hsub : ls.toFinset ⊆ Finset.range h.nextId := by
    intro c hm
    have hpos := List.count_pos_iff.mpr (List.mem_toFinset.mp hm)
    rw [hc] at hpos
    refine Finset.mem_range.mpr (Nat.lt_of_not_le fun hle => ?_)
    rw [hr.live, hr.fresh c hle] at hpos
    exact absurd hpos (by decide)
  have hout : ∀ c ∈ Finset.range h.nextId, c ∉ ls.toFinset → h.owned c = 0 := by
    intro c _ hm
    have hzero : ls.count c = 0 := List.count_eq_zero.mpr fun hmem => hm (List.mem_toFinset.mpr hmem)
    rw [hc, hr.live] at hzero
    unfold Holdings.owned
    split
    · rename_i b hb
      simp [hb] at hzero
    · rfl
  rw [Finset.sum_list_map_count, Finset.sum_congr rfl hone, Holdings.coroutines]
  exact Finset.sum_subset hsub hout

theorem Holdings.Rooted.count_routine {h : Holdings} (hr : h.Rooted) (c : Nat) :
    h.coroutines.count (.routine c) = (h.live c).toNat := by
  have hcount : ∀ d, (h.owned d).count (.routine c) = if d = c then (h.live c).toNat else 0 := by
    intro d
    unfold Holdings.owned
    by_cases hd : d = c
    · subst hd
      rw [hr.live]
      cases h.stack d <;> simp
    · have hne : c ≠ d := fun he => hd he.symm
      cases h.stack d <;> simp [hd, hne]
  rw [Holdings.coroutines, Multiset.count_sum']
  simp only [hcount, Finset.sum_ite_eq', Finset.mem_range]
  split
  · rfl
  · rename_i hge
    rw [hr.live, hr.fresh c (Nat.le_of_not_lt hge)]
    rfl

theorem count_releases (f : Nat → Option Nat) (ls : List Nat) (c : Nat) :
    ((releases f ls).map Release.blocks).sum.count (.routine c) = ls.count c := by
  induction ls generalizing f with
  | nil => rfl
  | cons d ls ih =>
    have hhead : (Release.blocks ⟨d, f d⟩).count (.routine c) = if d = c then 1 else 0 := by
      unfold Release.blocks
      by_cases hd : d = c
      · cases f d <;> simp [hd]
      · have hne : c ≠ d := fun he => hd he.symm
        cases f d <;> simp [hd, hne]
    rw [releases, List.map_cons, List.sum_cons, Multiset.count_add, ih, hhead, List.count_cons,
      Nat.add_comm]
    simp

/-- What `co_scheduler_destroy` frees is what there is. -/
theorem coSchedulerDestroyFrees_iff (hr : s.holdings.Rooted) :
    (coSchedulerDestroyFrees s : Multiset Block) = s.blocks ↔ HeldOnce s := by
  obtain ⟨ls, hperm, hlog⟩ := coSchedulerDestroy_releases s
  have hblocks : s.blocks = s.standing + s.pool.blocks + s.holdings.coroutines := by
    rw [St.blocks_eq]
    abel
  rw [coSchedulerDestroyFrees_eq, hblocks, add_right_inj, hlog]
  constructor
  · intro he
    refine heldOnce_of_count fun c => ?_
    have hc := congrArg (Multiset.count (Block.routine c)) he
    rw [count_releases, hr.count_routine, hperm.count_eq] at hc
    exact hc
  · intro hh
    have hcount : ∀ c, ls.count c = (s.holdings.live c).toNat := fun c => by
      rw [hperm.count_eq, hh.count]
      rfl
    have hnodup : ls.Nodup := List.nodup_iff_count_le_one.mpr fun c => by
      rw [hcount]
      exact Bool.toNat_le _
    have hlive : ∀ c ∈ ls, s.holdings.live c = true := by
      intro c hc
      have hpos := List.count_pos_iff.mpr hc
      rw [hcount] at hpos
      cases hv : s.holdings.live c with
      | true => rfl
      | false =>
        rw [hv] at hpos
        cases hpos
    rw [releases_blocks hr hnodup hlive, hr.coroutines_eq hcount]

/-- **A scheduler's memory.** A scheduler that cannot be created leaves nothing behind,
whichever allocation failed. One that is created refers, at every point of every run, to
exactly what it has taken from the system and not given back, nothing was given back
twice, and its destruction then gives everything back once in exactly the states in which
every unfinished coroutine is in the ready queue or the timer heap, once. -/
theorem memory_accounted (cfg : Config) (e : CreateEnv) :
    ((coSchedulerCreate e .empty).1 = false → (coSchedulerCreate e .empty).2.Holds 0) ∧
      ((coSchedulerCreate e .empty).1 = true → ∀ x, MemRun cfg (coSchedulerCreate e .empty).2 x →
        x.account.Holds x.st.blocks ∧
          ((x.account.releaseAll (coSchedulerDestroyFrees x.st)).Holds 0 ↔ HeldOnce x.st)) := by
  obtain ⟨l, he, hl⟩ | ⟨l, he, hl⟩ := coSchedulerCreate_spec e cfg Account.holds_empty
  · rw [he]
    exact ⟨fun _ => hl, fun hf => absurd hf (by simp)⟩
  · rw [he]
    refine ⟨fun hf => absurd hf (by simp), fun _ x hx => ?_⟩
    obtain ⟨hs, hx'⟩ := MemRun.holds hx hl
    exact ⟨hx', (hx'.releaseAll_iff _).trans (coSchedulerDestroyFrees_iff hs.rooted)⟩

/-- Every allocation succeeds. -/
def CreateEnv.ok : CreateEnv := ⟨true, true, true, true, true, true, true, true⟩

/-- A coroutine runs to its end, a spawn fails at its context, and the stack that both of
them used goes to a third coroutine. -/
def recycleRun : List HistAct :=
  [spawnAt 10, .act .run] ++ turn.map HistAct.act ++
    [HistAct.act .finish, .act (.timers 0), .act (.idle .none),
      .act (.spawn ⟨0, true, none, false⟩), .act (.spawn ⟨0, true, none, true⟩)]

theorem memory_accounted_reuse : ∃ x, MemRun (byteConfig 0) (coSchedulerCreate .ok .empty).2 x ∧
    x.st.pool.cacheHits = 2 ∧ x.account.Holds x.st.blocks ∧ HeldOnce x.st := by
  have hrun : ((runGuarded memStep (fun x a => sober x.st a)
      ⟨init (byteConfig 0), (coSchedulerCreate .ok .empty).2⟩ recycleRun).map fun x =>
        (x.st.pool.cacheHits, (x.account.releaseAll (coSchedulerDestroyFrees x.st)).faults,
          (x.account.releaseAll (coSchedulerDestroyFrees x.st)).live)) = some (2, 0, 0) := by
    decide +kernel
  obtain ⟨x, hx, he⟩ := Option.map_eq_some_iff.mp hrun
  simp only [Prod.mk.injEq] at he
  have hreach : MemRun (byteConfig 0) (coSchedulerCreate .ok .empty).2 x := reach_of_runGuarded hx
  obtain ⟨hl, hiff⟩ := (memory_accounted (byteConfig 0) .ok).2 (by decide) x hreach
  exact ⟨x, hreach, he.1, hl, hiff.mp ⟨he.2.1, he.2.2⟩⟩

end Libco
