import Libco.Lib.Count
import Libco.Holdings

/-!
# The stack pool over whole runs

Three views of the same runs: how large the stacks are that `co_spawn` promises, how the
pool's counters follow the stacks, and who owns a stack between the end of a coroutine and
the statements of `co_scheduler_schedule` that release it.
-/

namespace Libco
open Lib

variable {s s' t : St} {a : HistAct} {c : Nat}

/-! ## Stacks held -/

/-- The stacks of the coroutines, in the order of their creation. -/
def Holdings.held (h : Holdings) : List Nat := (List.range h.nextId).filterMap h.stack

def heldStacks (s : St) : List Nat := s.holdings.held

theorem Holdings.length_held (h : Holdings) :
    h.held.length = countOn Option.isSome h.stack h.nextId := by
  unfold Holdings.held countOn
  generalize List.range h.nextId = l
  induction l with
  | nil => rfl
  | cons c l ih =>
    cases hc : h.stack c with
    | none => simp [hc, ih]
    | some b => simp [hc, ih]

theorem Holdings.held_grant (h : Holdings) (b : Nat) (p : StackPool) :
    (h.grant b p).held.length = h.held.length + 1 := by
  have hsame : countOn Option.isSome (h.grant b p).stack h.nextId =
      countOn Option.isSome h.stack h.nextId := by
    refine countOn_congr fun i hi => ?_
    simp [Holdings.grant, Nat.ne_of_lt hi]
  rw [Holdings.length_held, Holdings.length_held, ← hsame]
  show countOn _ _ (h.nextId + 1) = _
  rw [countOn_succ]
  simp [Holdings.grant]

theorem Holdings.Rooted.held_drop {h : Holdings} {b : Nat} (hr : h.Rooted)
    (hb : h.stack c = some b) : (h.drop c b).held.length + 1 = h.held.length := by
  have hc : c < h.nextId := by
    by_contra hlt
    rw [hr.fresh c (Nat.le_of_not_lt hlt)] at hb
    cases hb
  have hu := countOn_update (p := Option.isSome) (f := h.stack) hc none
  rw [hb] at hu
  rw [Holdings.length_held, Holdings.length_held]
  simpa [Holdings.drop] using hu

theorem Holdings.Sound.nodup_held {h : Holdings} (hs : h.Sound) :
    (h.held ++ h.pool.stacks).Nodup := by
  refine List.nodup_append.mpr ⟨?_, hs.nodup, ?_⟩
  · exact List.Nodup.filterMap (fun c d b hc hd => hs.owner c d b hc hd) List.nodup_range
  · intro b hb d hd
    obtain ⟨c, -, hc⟩ := List.mem_filterMap.mp hb
    rintro rfl
    exact hs.pooled c b hc hd

/-! ## The extents of stacks -/

/-- A run, with the number of bytes `malloc` gave at an address and the sizes `co_spawn`
was asked for. -/
structure Sized where
  st : St
  block : Nat → Nat
  asked : Nat → Nat

/-- The blocks after the allocation of a stack in `co_spawn`: `malloc(pool->stack_size)`
if the pool is empty. -/
def blocksAfter (x : Sized) (e : SpawnEnv) : Nat → Nat :=
  if e.calloc && x.st.pool.stacks.isEmpty then
    match e.malloc with
    | some b => Function.update x.block b x.st.pool.stackSize
    | none => x.block
  else x.block

def sizedStep (x : Sized) (a : HistAct) : Option Sized :=
  (histStep x.st a).map fun s' =>
    match a with
    | .act (.spawn e) => ⟨s', blocksAfter x e, Function.update x.asked x.st.nextId e.stackSize⟩
    | _ => ⟨s', x.block, x.asked⟩

def Sized.init (cfg : Config) : Sized := ⟨Libco.init cfg, fun _ => 0, fun _ => 0⟩

/-- The stack and its size that `co_spawn` hands to `co_context_init`. -/
def contextExtent (s : St) (e : SpawnEnv) : Option (Nat × Nat) :=
  if e.calloc then
    (coStackPoolAlloc s.pool e.malloc).1.map fun b =>
      (b, if e.stackSize = 0 then s.defaultStackSize else e.stackSize)
  else none

/-- All blocks have the pool's size, and every coroutine has the size it asked for. -/
structure Sized.Uniform (x : Sized) : Prop where
  rooted : x.st.holdings.Rooted
  default : x.st.defaultStackSize = x.st.pool.stackSize
  size : x.st.pool.stackSize = 128 * 1024
  cached : ∀ b ∈ x.st.pool.stacks, x.block b = x.st.pool.stackSize
  held : ∀ c b, (x.st.co c).stackBase = some b → x.block b = x.st.pool.stackSize
  extent : ∀ c b, (x.st.co c).stackBase = some b → (x.st.co c).stackSize =
    if x.asked c = 0 then x.st.defaultStackSize else x.asked c

theorem Sized.Uniform.carries {block asked : Nat → Nat} (h : Sized.Uniform ⟨s, block, asked⟩)
    (hk : Carries s t) : Sized.Uniform ⟨t, block, asked⟩ := by
  constructor
  · exact hk.rooted h.rooted
  · exact hk.default.trans (h.default.trans (by rw [hk.pool]))
  · show t.pool.stackSize = _
    rw [hk.pool]
    exact h.size
  · intro b hb
    show block b = t.pool.stackSize
    rw [hk.pool] at hb ⊢
    exact h.cached b hb
  · intro c b hb
    rw [hk.base] at hb
    show block b = t.pool.stackSize
    rw [hk.pool]
    exact h.held c b hb
  · intro c b hb
    rw [hk.base] at hb
    show (t.co c).stackSize = if asked c = 0 then t.defaultStackSize else asked c
    rw [hk.size, hk.default]
    exact h.extent c b hb

theorem coStackPoolAlloc_stackSize (p : StackPool) (m : Option Nat) :
    (coStackPoolAlloc p m).2.stackSize = p.stackSize := by
  unfold coStackPoolAlloc
  dsimp only
  split <;> rfl

theorem coStackPoolFree_stackSize (p : StackPool) (b : Nat) :
    (coStackPoolFree p b).stackSize = p.stackSize := by
  unfold coStackPoolFree
  dsimp only
  split <;> rfl

/-- What the pool hands out was cached or comes from `malloc`. -/
theorem coStackPoolAlloc_mem {p p' : StackPool} {m o : Option Nat}
    (h : coStackPoolAlloc p m = (o, p')) :
    (∃ b, o = some b ∧ b ∈ p.stacks ∧ ∀ d ∈ p'.stacks, d ∈ p.stacks) ∨
      (o = m ∧ p.stacks = [] ∧ p'.stacks = []) := by
  unfold coStackPoolAlloc at h
  dsimp only at h
  split at h
  · rename_i b hb
    simp only [Prod.mk.injEq] at h
    obtain ⟨rfl, rfl⟩ := h
    exact .inl ⟨b, rfl, List.mem_of_getLast? hb, fun d hd => (List.dropLast_sublist _).subset hd⟩
  · rename_i hb
    simp only [Prod.mk.injEq] at h
    obtain ⟨rfl, rfl⟩ := h
    have hnil : p.stacks = [] := List.getLast?_eq_none_iff.mp hb
    exact .inr ⟨rfl, hnil, hnil⟩

theorem blocksAfter_uniform {x : Sized} {e : SpawnEnv} {d : Nat}
    (hd : x.block d = x.st.pool.stackSize) : blocksAfter x e d = x.st.pool.stackSize := by
  unfold blocksAfter
  split
  · cases e.malloc with
    | none => exact hd
    | some b => by_cases hdb : d = b <;> simp [hdb, hd]
  · exact hd

/-- The block a new coroutine gets has the pool's size. -/
theorem Sized.Uniform.granted {x : Sized} {e : SpawnEnv} {b : Nat} {p : StackPool}
    (h : x.Uniform) (hc : e.calloc = true) (ha : coStackPoolAlloc x.st.pool e.malloc = (some b, p)) :
    blocksAfter x e b = x.st.pool.stackSize := by
  rcases coStackPoolAlloc_mem ha with ⟨d, hd, hmem, -⟩ | ⟨hm, hnil, -⟩
  · cases hd
    exact blocksAfter_uniform (h.cached b hmem)
  · simp [blocksAfter, hc, hnil, ← hm]

theorem Sized.Uniform.spawn {x : Sized} (h : x.Uniform) (e : SpawnEnv) :
    Sized.Uniform ⟨(coSpawn x.st e).2, blocksAfter x e,
      Function.update x.asked x.st.nextId e.stackSize⟩ := by
  have hr := h.rooted.spawn e
  -- the coroutines that are there are not the new one
  have hold : ∀ c b, (x.st.co c).stackBase = some b →
      Function.update x.asked x.st.nextId e.stackSize c = x.asked c := by
    intro c b hb
    exact Function.update_of_ne (Nat.ne_of_lt (h.rooted.below hb)) _ _
  have hext : ∀ c b, (x.st.co c).stackBase = some b → (x.st.co c).stackSize =
      if Function.update x.asked x.st.nextId e.stackSize c = 0 then x.st.defaultStackSize
      else Function.update x.asked x.st.nextId e.stackSize c := by
    intro c b hb
    rw [hold c b hb]
    exact h.extent c b hb
  have hheld : ∀ c b, (x.st.co c).stackBase = some b →
      blocksAfter x e b = x.st.pool.stackSize := fun c b hb => blocksAfter_uniform (h.held c b hb)
  rcases coSpawn_cases x.st e with ⟨-, he⟩ | ⟨hc, p, ha, he⟩ | ⟨hc, b, p, ha, hb⟩
  · rw [he] at hr ⊢
    exact ⟨hr, h.default, h.size, fun b hb => blocksAfter_uniform (h.cached b hb), hheld, hext⟩
  · have hsize : p.stackSize = x.st.pool.stackSize := by
      rw [← coStackPoolAlloc_stackSize x.st.pool e.malloc, ha]
    rw [he] at hr ⊢
    refine ⟨hr, h.default.trans hsize.symm, hsize.trans h.size, ?_, ?_, hext⟩
    · intro d hd
      rcases coStackPoolAlloc_mem ha with ⟨_, ho, -⟩ | ⟨-, -, hnil⟩
      · cases ho
      · simp [hnil] at hd
    · exact fun c b hb => (hheld c b hb).trans hsize.symm
  have hsize : p.stackSize = x.st.pool.stackSize := by
    rw [← coStackPoolAlloc_stackSize x.st.pool e.malloc, ha]
  have hgranted := h.granted hc ha
  have hcached : ∀ d ∈ p.stacks, blocksAfter x e d = x.st.pool.stackSize := by
    intro d hd
    rcases coStackPoolAlloc_mem ha with ⟨_, -, -, hsub⟩ | ⟨-, -, hnil⟩
    · exact blocksAfter_uniform (h.cached d (hsub d hd))
    · simp [hnil] at hd
  rcases hb with ⟨-, he⟩ | ⟨-, -, hk⟩
  · have hfree := (coStackPoolFree_stackSize p b).trans hsize
    rw [he] at hr ⊢
    refine ⟨hr, h.default.trans hfree.symm, hfree.trans h.size, ?_, ?_, hext⟩
    · intro d hd
      refine Eq.trans ?_ hfree.symm
      rcases mem_coStackPoolFree hd with hd | rfl
      · exact hcached d hd
      · exact hgranted
    · exact fun c b hb => (hheld c b hb).trans hfree.symm
  · refine Sized.Uniform.carries ?_ hk
    have hr' : (spawnedWith x.st e b p).holdings.Rooted := by
      rw [spawnedWith_holdings]
      exact h.rooted.grant
    refine ⟨hr', h.default.trans hsize.symm, hsize.trans h.size,
      fun d hd => (hcached d hd).trans hsize.symm, ?_, ?_⟩
    · intro c d hd
      by_cases hcn : c = x.st.nextId
      · subst hcn
        simp only [spawnedWith_co_self, Option.some.injEq] at hd
        exact hd ▸ hgranted.trans hsize.symm
      · simp only [spawnedWith_co_ne e b p hcn] at hd
        exact (hheld c d hd).trans hsize.symm
    · intro c d hd
      by_cases hcn : c = x.st.nextId
      · subst hcn
        simp [spawnedWith]
      · simp only [spawnedWith_co_ne e b p hcn] at hd ⊢
        exact hext c d hd

theorem Sized.Uniform.effect {x : Sized} (h : x.Uniform) (he : Effect x.st a t)
    (ha : ∀ e, a ≠ .act (.spawn e)) : Sized.Uniform ⟨t, x.block, x.asked⟩ := by
  have hr := h.rooted.effect he
  cases he with
  | moves hx ha => exact ⟨hr, h.default, h.size, h.cached, h.held, h.extent⟩
  | spawns hu => exact absurd rfl (ha _)
  | @ends c hc =>
    obtain ⟨b, hb⟩ := h.rooted.base (h.rooted.current c hc)
    have hpool : (coRoutineDestroy (coRoutineFinish x.st c) c).pool =
        coStackPoolFree x.st.pool b := congrArg Holdings.pool (ended_holdings hb)
    have hdef : (coRoutineDestroy (coRoutineFinish x.st c) c).defaultStackSize =
        x.st.defaultStackSize := by
      unfold coRoutineDestroy
      split <;> rfl
    have hsize : (coRoutineDestroy (coRoutineFinish x.st c) c).pool.stackSize =
        x.st.pool.stackSize := by
      rw [hpool, coStackPoolFree_stackSize]
    have hco : ∀ d b', ((coRoutineDestroy (coRoutineFinish x.st c) c).co d).stackBase = some b' →
        (coRoutineDestroy (coRoutineFinish x.st c) c).co d = x.st.co d := by
      intro d b' hd
      rw [coRoutineDestroy_co] at hd ⊢
      split at hd
      · cases hd
      · rename_i hdc
        rw [if_neg hdc, coRoutineFinish_co, if_neg hdc]
    refine ⟨hr, hdef.trans (h.default.trans hsize.symm), hsize.trans h.size, ?_, ?_, ?_⟩
    · intro d hd
      refine Eq.trans ?_ hsize.symm
      rw [hpool] at hd
      rcases mem_coStackPoolFree hd with hd | rfl
      · exact h.cached d hd
      · exact h.held c d hb
    · intro d b' hd
      rw [hco d b' hd] at hd
      exact (h.held d b' hd).trans hsize.symm
    · intro d b' hd
      have hsame := hco d b' hd
      rw [hsame] at hd
      show ((coRoutineDestroy (coRoutineFinish x.st c) c).co d).stackSize = _
      rw [hsame]
      exact (h.extent d b' hd).trans (by rw [hdef])

theorem Sized.Uniform.step {x x' : Sized} (h : x.Uniform) (hs : sizedStep x a = some x') :
    x'.Uniform := by
  obtain ⟨s', hs', rfl⟩ := Option.map_eq_some_iff.mp hs
  obtain ⟨t, he, hk⟩ := histStep_effect h.rooted.ctl_live hs'
  by_cases hsp : ∃ e, a = .act (.spawn e)
  · obtain ⟨e, rfl⟩ := hsp
    cases he with
    | moves _ hne => exact absurd rfl (hne e)
    | spawns _ => exact (h.spawn e).carries hk
  · have hne : ∀ e, a ≠ .act (.spawn e) := fun e he => hsp ⟨e, he⟩
    have hu := (h.effect he hne).carries hk
    split
    · exact absurd rfl (hne _)
    · exact hu

theorem Sized.uniform {cfg : Config} {x : Sized}
    (h : Reach sizedStep (fun _ _ => True) (Sized.init cfg) x) : x.Uniform := by
  refine h.invariant ?_ fun x a x' hx _ hs => hx.step hs
  refine ⟨rooted_init cfg, rfl, rfl, ?_, ?_, ?_⟩
  · intro b hb
    cases hb
  · intro c b hb
    cases hb
  · intro c b hb
    cases hb

/-- A coroutine stays inside its block exactly when it was not asked to have a stack larger
than the blocks of the pool, which all have the default size: the size asked for goes into
the record and to `co_context_init`, and never to the pool. -/
theorem stack_inside_block_iff {cfg : Config} {x : Sized}
    (h : Reach sizedStep (fun _ _ => True) (Sized.init cfg) x) :
    (∀ c b, (x.st.co c).stackBase = some b →
      ((x.st.co c).stackSize ≤ x.block b ↔ x.asked c ≤ x.st.pool.stackSize)) ∧
    (∀ e b n, contextExtent x.st e = some (b, n) →
      (n ≤ blocksAfter x e b ↔ e.stackSize ≤ x.st.pool.stackSize)) ∧
    x.st.pool.stackSize = 128 * 1024 := by
  have hu := Sized.uniform h
  refine ⟨fun c b hb => ?_, fun e b n he => ?_, hu.size⟩
  · rw [hu.extent c b hb, hu.held c b hb, hu.default]
    split
    · rename_i h0
      simp [h0]
    · rfl
  · unfold contextExtent at he
    split at he
    · rename_i hc
      obtain ⟨d, hd, heq⟩ := Option.map_eq_some_iff.mp he
      simp only [Prod.mk.injEq] at heq
      obtain ⟨rfl, rfl⟩ := heq
      have ha : coStackPoolAlloc x.st.pool e.malloc =
          (some d, (coStackPoolAlloc x.st.pool e.malloc).2) := by rw [← hd]
      rw [hu.granted hc ha, hu.default]
      split
      · rename_i h0
        simp [h0]
      · rfl
    · cases he

/-- `co_spawn` asked for a stack of `n` bytes, a new block being at `b`. -/
def spawnSized (n b : Nat) : HistAct := .act (.spawn ⟨n, true, some b, true⟩)

/-- A coroutine with a small stack ends, and one that asked for half a mebibyte gets its
block. -/
def recycledRun : List HistAct :=
  [spawnSized 4096 10, .act .run] ++ turn.map HistAct.act ++
    [HistAct.act .finish, .act (.timers 0), .act (.idle .none), spawnSized 524288 20]

theorem stack_inside_block_iff_recycled :
    ∃ x, runActs sizedStep (Sized.init (byteConfig 0)) recycledRun = some x ∧
      (x.st.co 2).stackBase = some 10 ∧ x.asked 2 = 524288 ∧
      ((x.st.co 2).stackSize ≤ x.block 10 ↔ x.asked 2 ≤ x.st.pool.stackSize) := by
  have hrun : ((runActs sizedStep (Sized.init (byteConfig 0)) recycledRun).map
      fun x => ((x.st.co 2).stackBase, x.asked 2)) = some (some 10, 524288) := by
    decide +kernel
  obtain ⟨x, hx, he⟩ := Option.map_eq_some_iff.mp hrun
  simp only [Prod.mk.injEq] at he
  exact ⟨x, hx, he.1, he.2,
    (stack_inside_block_iff (reach_of_runActs (fun _ _ _ => trivial) hx)).1 2 10 he.1⟩

/-- A stack of 256 KiB is promised inside a block of 128 KiB. -/
theorem stack_outside_block :
    ∃ x, runActs sizedStep (Sized.init (byteConfig 0)) [spawnSized 262144 10] = some x ∧
      (x.st.co 1).stackSize = 262144 ∧ x.block 10 = 131072 ∧
      ¬ ∀ c b, (x.st.co c).stackBase = some b → (x.st.co c).stackSize ≤ x.block b := by
  have hrun : ((runActs sizedStep (Sized.init (byteConfig 0)) [spawnSized 262144 10]).map
      fun x => ((x.st.co 1).stackBase, (x.st.co 1).stackSize, x.block 10)) =
      some (some 10, 262144, 131072) := by
    decide +kernel
  obtain ⟨x, hx, he⟩ := Option.map_eq_some_iff.mp hrun
  simp only [Prod.mk.injEq] at he
  refine ⟨x, hx, he.2.1, he.2.2, fun h => ?_⟩
  have hle := h 1 10 he.1
  rw [he.2.1, he.2.2] at hle
  omega

/-! ## The counters of the pool -/

/-- The numbers of a pool of capacity `cap`, after `n` stacks that `malloc` denied. -/
structure Holdings.Counted (h : Holdings) (cap n : Nat) : Prop where
  used : h.pool.currentUsed = h.held.length + n
  capacity : h.pool.capacity = cap
  cached : h.pool.stacks.length ≤ cap
  stats : h.pool.cacheHits + h.pool.cacheMisses = h.pool.totalAllocs

/-- The numbers of a pool that has just handed out a stack, or tried to. -/
theorem coStackPoolAlloc_counts (p : StackPool) (m : Option Nat) :
    (coStackPoolAlloc p m).2.currentUsed = p.currentUsed + 1 ∧
      (coStackPoolAlloc p m).2.stacks.length ≤ p.stacks.length ∧
      (coStackPoolAlloc p m).2.capacity = p.capacity ∧
      (p.cacheHits + p.cacheMisses = p.totalAllocs →
        (coStackPoolAlloc p m).2.cacheHits + (coStackPoolAlloc p m).2.cacheMisses =
          (coStackPoolAlloc p m).2.totalAllocs) := by
  unfold coStackPoolAlloc
  dsimp only
  split
  · refine ⟨rfl, ?_, rfl, ?_⟩
    · simp
    · dsimp only
      omega
  · refine ⟨rfl, le_refl _, rfl, ?_⟩
    dsimp only
    omega

theorem coStackPoolFree_counts (p : StackPool) (b : Nat) :
    (coStackPoolFree p b).currentUsed = p.currentUsed - 1 ∧
      (coStackPoolFree p b).capacity = p.capacity ∧
      (p.stacks.length ≤ p.capacity → (coStackPoolFree p b).stacks.length ≤ p.capacity) ∧
      (p.cacheHits + p.cacheMisses = p.totalAllocs →
        (coStackPoolFree p b).cacheHits + (coStackPoolFree p b).cacheMisses =
          (coStackPoolFree p b).totalAllocs) := by
  unfold coStackPoolFree
  dsimp only
  split
  · rename_i hlt
    refine ⟨rfl, rfl, fun _ => ?_, id⟩
    simpa using Nat.succ_le_of_lt hlt
  · exact ⟨rfl, rfl, id, id⟩

theorem Holdings.Counted.drop {h : Holdings} {b cap n : Nat} (hn : h.Counted cap n)
    (hr : h.Rooted) (hb : h.stack c = some b) : (h.drop c b).Counted cap n := by
  obtain ⟨hused, hcap, hcached, hstats⟩ := coStackPoolFree_counts h.pool b
  rw [hn.capacity] at hcap hcached
  refine ⟨?_, hcap, hcached hn.cached, hstats hn.stats⟩
  have hheld := hr.held_drop hb
  have hu := hn.used
  show (coStackPoolFree h.pool b).currentUsed = _
  omega

/-- The stack is missing exactly when the pool is empty and `malloc` fails. -/
theorem coStackPoolAlloc_none {p p' : StackPool} {m : Option Nat}
    (h : coStackPoolAlloc p m = (none, p')) : p.stacks = [] ∧ m = none := by
  rcases coStackPoolAlloc_mem h with ⟨b, hb, -⟩ | ⟨hm, hnil, -⟩
  · cases hb
  · exact ⟨hnil, hm.symm⟩

theorem coStackPoolAlloc_some {p p' : StackPool} {m : Option Nat} {b : Nat}
    (h : coStackPoolAlloc p m = (some b, p')) : (p.stacks.isEmpty && m.isNone) = false := by
  rcases coStackPoolAlloc_mem h with ⟨d, -, hd, -⟩ | ⟨hm, -, -⟩
  · have hne : p.stacks.isEmpty = false := by
      cases hp : p.stacks with
      | nil => simp [hp] at hd
      | cons _ _ => rfl
    simp [hne]
  · simp [← hm]

/-- `co_spawn` asks `malloc` for a stack and gets none. -/
def stackDenied (s : St) (e : SpawnEnv) : Bool :=
  e.calloc && (s.pool.stacks.isEmpty && e.malloc.isNone)

/-- An identifier given to nobody adds no stack. -/
theorem Holdings.Rooted.held_skip {h : Holdings} (hr : h.Rooted) (p : StackPool) :
    Holdings.held { h with pool := p, nextId := h.nextId + 1 } = h.held := by
  simp only [Holdings.held, List.range_succ, List.filterMap_append]
  simp [hr.fresh h.nextId le_rfl]

theorem Holdings.Counted.spawn {cap n : Nat} (hn : s.holdings.Counted cap n)
    (hr : s.holdings.Rooted) (e : SpawnEnv) :
    (coSpawn s e).2.holdings.Counted cap (n + (stackDenied s e).toNat) := by
  have hu := hn.used
  have hc₀ : s.pool.capacity = cap := hn.capacity
  obtain ⟨hused, hlen, hcap, hstats⟩ := coStackPoolAlloc_counts s.pool e.malloc
  rcases coSpawn_cases s e with ⟨hc, he⟩ | ⟨hc, p, ha, he⟩ | ⟨hc, b, p, ha, hb⟩
  · have hd : stackDenied s e = false := by simp [stackDenied, hc]
    rw [he, hd]
    exact hn
  · obtain ⟨hnil, hm⟩ := coStackPoolAlloc_none ha
    have hd : stackDenied s e = true := by simp [stackDenied, hc, hnil, hm]
    simp only [ha] at hused hlen hcap hstats
    rw [he, hd]
    refine ⟨?_, hcap.trans hc₀, Nat.le_trans hlen hn.cached, hstats hn.stats⟩
    exact hused.trans (congrArg (· + 1) hu)
  have hd : stackDenied s e = false := by simp [stackDenied, hc, coStackPoolAlloc_some ha]
  simp only [ha] at hused hlen hcap hstats
  have hcached : p.stacks.length ≤ cap := Nat.le_trans hlen hn.cached
  rw [hd]
  rcases hb with ⟨-, he⟩ | ⟨-, -, hk⟩
  · obtain ⟨hfused, hfcap, hfcached, hfstats⟩ := coStackPoolFree_counts p b
    rw [hcap, hc₀] at hfcap hfcached
    rw [he]
    refine ⟨?_, hfcap, hfcached hcached, hfstats (hstats hn.stats)⟩
    have hheld : Holdings.held ({ s with
        pool := coStackPoolFree p b, nextId := s.nextId + 1 } : St).holdings = s.holdings.held :=
      hr.held_skip _
    rw [hheld]
    show (coStackPoolFree p b).currentUsed = s.holdings.held.length + n
    rw [hfused, hused]
    exact hu
  · have hkeeps : (coSpawn s e).2.holdings = s.holdings.grant b p :=
      Eq.trans hk.keeps (spawnedWith_holdings e b p)
    rw [hkeeps]
    refine ⟨?_, hcap.trans hc₀, hcached, hstats hn.stats⟩
    show p.currentUsed = _
    rw [Holdings.held_grant, hused]
    change s.pool.currentUsed = _ at hu
    rw [hu]
    simp only [Bool.toNat_false]
    omega

/-! ## Failed spawns -/

/-- A run, with the number of stacks `malloc` denied. -/
structure Denials where
  st : St
  denied : Nat

def denialStep (x : Denials) (a : HistAct) : Option Denials :=
  (histStep x.st a).map fun s' =>
    match a with
    | .act (.spawn e) => ⟨s', x.denied + (stackDenied x.st e).toNat⟩
    | _ => ⟨s', x.denied⟩

theorem denials_counted {cfg : Config} {x : Denials}
    (h : Reach denialStep (fun _ _ => True) ⟨init cfg, 0⟩ x) :
    x.st.holdings.Rooted ∧ x.st.holdings.Counted 16 x.denied := by
  refine Reach.invariant
    (P := fun x : Denials => x.st.holdings.Rooted ∧ x.st.holdings.Counted 16 x.denied) h ?_ ?_
  · exact ⟨rooted_init cfg, by simp [St.holdings, init, initPool, Holdings.held, Routine.zero],
      rfl, by simp [St.holdings, init, initPool], rfl⟩
  · rintro x a x' ⟨hr, hn⟩ - hs
    obtain ⟨s', hs', rfl⟩ := Option.map_eq_some_iff.mp hs
    obtain ⟨t, he, hk⟩ := histStep_effect hr.ctl_live hs'
    have hkeeps : s'.holdings = t.holdings := hk.keeps
    have hrt := hr.effect he
    cases he with
    | @moves a y hx ha =>
      split
      · exact absurd rfl (ha _)
      · exact ⟨hk.rooted hrt, hkeeps ▸ ⟨hn.used, hn.capacity, hn.cached, hn.stats⟩⟩
    | spawns hu => exact ⟨hk.rooted hrt, hkeeps ▸ hn.spawn hr _⟩
    | @ends c hc =>
      obtain ⟨b, hb⟩ := hr.base (hr.current c hc)
      refine ⟨hk.rooted hrt, ?_⟩
      show s'.holdings.Counted 16 x.denied
      have hloop : Holdings.Counted { x.st.holdings with ctl := .loop } 16 x.denied :=
        ⟨hn.used, hn.capacity, hn.cached, hn.stats⟩
      rw [hkeeps, ended_holdings hb]
      exact hloop.drop ⟨hr.live, hr.fresh, by simp⟩ hb

/-- What a failed `co_spawn` should leave as it was. -/
structure SameAccounts (s t : St) : Prop where
  ready : t.queues .ready = s.queues .ready
  total : t.totalRoutines = s.totalRoutines
  active : t.activeRoutines = s.activeRoutines
  bases : ∀ c, (t.co c).stackBase = (s.co c).stackBase
  used : t.pool.currentUsed = s.pool.currentUsed

theorem failed_coSpawn (s : St) (e : SpawnEnv) (hf : (coSpawn s e).1 = none) :
    SameAccounts s (coSpawn s e).2 ↔ stackDenied s e = false := by
  have hused := (coStackPoolAlloc_counts s.pool e.malloc).1
  rcases coSpawn_cases s e with ⟨hc, he⟩ | ⟨hc, p, ha, he⟩ | ⟨hc, b, p, ha, ⟨-, he⟩ | ⟨-, he, -⟩⟩
  · rw [he]
    have hd : stackDenied s e = false := by simp [stackDenied, hc]
    exact ⟨fun _ => hd, fun _ => ⟨rfl, rfl, rfl, fun _ => rfl, rfl⟩⟩
  · obtain ⟨hnil, hm⟩ := coStackPoolAlloc_none ha
    have hd : stackDenied s e = true := by simp [stackDenied, hc, hnil, hm]
    rw [ha] at hused
    rw [he, hd]
    constructor
    · intro h
      have hsame : p.currentUsed = s.pool.currentUsed := h.used
      rw [hsame] at hused
      exact absurd hused (Nat.ne_of_lt (Nat.lt_succ_self _))
    · intro h
      cases h
  · have hd : stackDenied s e = false := by simp [stackDenied, hc, coStackPoolAlloc_some ha]
    rw [ha] at hused
    rw [he]
    refine ⟨fun _ => hd, fun _ => ⟨rfl, rfl, rfl, fun _ => rfl, ?_⟩⟩
    show (coStackPoolFree p b).currentUsed = s.pool.currentUsed
    rw [(coStackPoolFree_counts p b).1, hused, Nat.add_sub_cancel]
  · rw [he] at hf
    cases hf

/-- **Failed spawns.** A `co_spawn` that fails leaves the accounts alone exactly when it is
not `malloc` that denied the stack: `current_used` was raised before the call of `malloc`
and stays so. Over a run it exceeds the stacks held by the number of such failures. -/
theorem failed_spawn_accounts {cfg : Config} {x : Denials}
    (h : Reach denialStep (fun _ _ => True) ⟨init cfg, 0⟩ x) :
    (∀ e, (coSpawn x.st e).1 = none →
      (SameAccounts x.st (coSpawn x.st e).2 ↔ stackDenied x.st e = false)) ∧
    x.st.pool.currentUsed = (heldStacks x.st).length + x.denied ∧
    (x.st.pool.currentUsed = (heldStacks x.st).length ↔ x.denied = 0) ∧
    ∀ c, (x.st.co c).stackBase.isSome = (x.st.co c).unfinished := by
  obtain ⟨hr, hn⟩ := denials_counted h
  have hused : x.st.pool.currentUsed = (heldStacks x.st).length + x.denied := hn.used
  refine ⟨fun e hf => failed_coSpawn x.st e hf, hused, ?_, fun c => (hr.live c).symm⟩
  omega

/-- A spawn that gets no stack. -/
def spawnDenied : SpawnEnv := ⟨0, true, none, true⟩

/-- One spawn succeeds, one is denied its stack, and the coroutine ends. -/
def deniedRun : List HistAct :=
  [spawnSized 0 10, .act (.spawn spawnDenied), .act .run] ++ turn.map HistAct.act ++
    [HistAct.act .finish]

theorem failed_spawn_accounts_denied :
    ∃ x, runActs denialStep ⟨init (byteConfig 0), 0⟩ deniedRun = some x ∧
      heldStacks x.st = [] ∧ x.st.pool.currentUsed = 1 ∧
      (x.st.pool.currentUsed = (heldStacks x.st).length ↔ x.denied = 0) := by
  have hrun : ((runActs denialStep ⟨init (byteConfig 0), 0⟩ deniedRun).map
      fun x => (heldStacks x.st, x.st.pool.currentUsed)) = some ([], 1) := by
    decide +kernel
  obtain ⟨x, hx, he⟩ := Option.map_eq_some_iff.mp hrun
  simp only [Prod.mk.injEq] at he
  exact ⟨x, hx, he.1, he.2,
    (failed_spawn_accounts (reach_of_runActs (fun _ _ _ => trivial) hx)).2.2.1⟩

/-- In a new scheduler, a spawn that gets no stack leaves `current_used` at 1. -/
theorem denied_spawn_drifts :
    (coSpawn (init (byteConfig 0)) spawnDenied).1 = none ∧
      (coSpawn (init (byteConfig 0)) spawnDenied).2.pool.currentUsed = 1 ∧
      heldStacks (coSpawn (init (byteConfig 0)) spawnDenied).2 = [] ∧
      ¬ SameAccounts (init (byteConfig 0)) (coSpawn (init (byteConfig 0)) spawnDenied).2 := by
  refine ⟨by decide +kernel, by decide +kernel, by decide +kernel, fun h => ?_⟩
  have hused : 1 = 0 := h.used
  cases hused

/-! ## Ownership -/

/-- A run with the switch back to the scheduler apart: `back` is the coroutine that has
just switched to `main_ctx`, while `co_scheduler_schedule` is at the statements after its
`co_context_swap`. -/
structure Handover where
  st : St
  back : Option Nat

inductive PoolAct where
  | act (a : HistAct)
  /-- `co_routine_finish`, up to its `co_context_swap` -/
  | finish
  /-- the end of `co_scheduler_schedule` -/
  | cleanup
  /-- `co_stack_pool_reset_stats` -/
  | resetStats

def coStackPoolResetStats (p : StackPool) : StackPool :=
  { p with totalAllocs := 0, totalFrees := 0, cacheHits := 0, cacheMisses := 0 }

/-- The coroutine that a step from `s` to `s'` switched away from. -/
def switchedFrom (s s' : St) (a : HistAct) : Option Nat :=
  match a, s.ctl, s'.ctl with
  | .act (.call _), .running c, .loop => some c
  | .act (.schedule _), _, .loop => (s.queues .ready).head?
  | .switchFails, _, _ => (s.queues .ready).head?
  | _, _, _ => none

/-- `if (next->state == CO_STATE_DEAD) { co_routine_destroy(next); free(next); }` -/
def releaseDead (s : St) (c : Nat) : St :=
  if (s.co c).state = .dead then (coRoutineDestroy s c).emit (.finish c) else s

/-- The steps of the machine, a coroutine's end being two of them. -/
def poolStep (x : Handover) : PoolAct → Option Handover
  | .act (.act .finish) => none
  | .act a =>
    match x.back with
    | none => (histStep x.st a).map fun s' => ⟨s', switchedFrom x.st s' a⟩
    | some _ => none
  | .finish =>
    match x.back, x.st.ctl with
    | none, .running c => some ⟨{ coRoutineFinish x.st c with ctl := .loop }, some c⟩
    | _, _ => none
  | .cleanup =>
    match x.back with
    | some c => some ⟨releaseDead x.st c, none⟩
    | none => none
  | .resetStats =>
    if inUserCode x.st && x.back.isNone then
      some ⟨{ x.st with pool := coStackPoolResetStats x.st.pool }, none⟩
    else none

/-- A new scheduler whose pool caches at most `n` stacks. -/
def Handover.init (cfg : Config) (n : Nat) : Handover :=
  ⟨{ Libco.init cfg with pool := { initPool with capacity := n } }, none⟩

/-- `malloc` does not fail, and returns memory that is not in use. -/
def mallocAnswers (x : Handover) : PoolAct → Bool
  | .act (.act (.spawn e)) => e.malloc.isSome && mallocFresh x.st (.act (.spawn e))
  | _ => true

structure Handover.Owned (x : Handover) (n : Nat) : Prop where
  sound : x.st.holdings.Sound
  counted : x.st.holdings.Counted n 0
  /-- only a coroutine that has just switched back is dead and not yet released -/
  dead : ∀ c, (x.st.co c).state = .dead → (x.st.co c).unfinished = true → x.back = some c
  back : x.back ≠ none → x.st.coCurrent = none

theorem Holdings.Sound.destroy {n : Nat} (h : s.holdings.Sound) (hn : s.holdings.Counted n 0)
    (hc : s.ctl ≠ .running c) :
    (coRoutineDestroy s c).holdings.Sound ∧ (coRoutineDestroy s c).holdings.Counted n 0 := by
  cases hb : (s.co c).stackBase with
  | some b =>
    rw [coRoutineDestroy_holdings hb]
    exact ⟨h.drop hc hb, hn.drop h.rooted hb⟩
  | none =>
    -- nothing is left to release
    have hlive : (s.co c).unfinished = false := by
      have := h.live c
      simpa [St.holdings, hb] using this
    have hfreed : ∀ r : Routine,
        { r with stackBase := none, frame := .freed }.unfinished = false := fun _ => rfl
    have hsame : (coRoutineDestroy s c).holdings = s.holdings := by
      unfold coRoutineDestroy
      rw [hb]
      simp only [St.holdings, St.modify]
      congr 1
      · funext d
        by_cases hd : d = c <;> simp [hd, hb]
      · funext d
        by_cases hd : d = c <;> simp [hd, hfreed, hlive]
    rw [hsame]
    exact ⟨h, hn⟩

/-- A new coroutine is not dead. -/
theorem coSpawn_dead {e : SpawnEnv} (hd : ((coSpawn s e).2.co c).state = .dead)
    (hu : ((coSpawn s e).2.co c).unfinished = true) :
    (s.co c).state = .dead ∧ (s.co c).unfinished = true := by
  rcases coSpawn_cases s e with ⟨-, he⟩ | ⟨-, p, -, he⟩ | ⟨-, b, p, -, ⟨-, he⟩ | ⟨-, -, hk⟩⟩
  · rw [he] at hd hu
    exact ⟨hd, hu⟩
  · rw [he] at hd hu
    exact ⟨hd, hu⟩
  · rw [he] at hd hu
    exact ⟨hd, hu⟩
  · have hd' := hk.dead c hd
    have hu' := (hk.live c).symm.trans hu
    by_cases hc : c = s.nextId
    · subst hc
      simp [Routine.zero] at hd'
    · rw [spawnedWith_co_ne e b p hc] at hd' hu'
      exact ⟨hd', hu'⟩

theorem ctl_ne_of_current (hcur : s.coCurrent = none) : s.ctl ≠ .running c := by
  intro hc
  simp [St.coCurrent, hc] at hcur

/-- A step of the whole machine other than a coroutine's end. -/
theorem Handover.Owned.act {x : Handover} {n : Nat} {s' : St} (h : x.Owned n)
    (hback : x.back = none) (ha : a ≠ .act .finish)
    (hm : mallocAnswers x (.act a) = true) (hs : histStep x.st a = some s') :
    Handover.Owned ⟨s', switchedFrom x.st s' a⟩ n := by
  have hr := h.sound.rooted
  obtain ⟨t, he, hk⟩ := histStep_effect hr.ctl_live hs
  have hkeeps : s'.holdings = t.holdings := hk.keeps
  have hnodead : ∀ c, (x.st.co c).state = .dead → (x.st.co c).unfinished = true → False := by
    intro c hd hu
    have := h.dead c hd hu
    rw [hback] at this
    cases this
  have hcur : switchedFrom x.st s' a ≠ none → s'.coCurrent = none := by
    intro hne
    unfold switchedFrom at hne
    split at hne
    · rename_i hl
      simp [St.coCurrent, hl]
    · rename_i hl
      simp [St.coCurrent, hl]
    · unfold histStep switchFails at hs
      dsimp only at hs
      split at hs <;> cases hs
      rfl
    · exact absurd rfl hne
  cases he with
  | @moves _ y hx ha =>
    have hn : Holdings.Counted { x.st.holdings with ctl := y } n 0 :=
      ⟨h.counted.used, h.counted.capacity, h.counted.cached, h.counted.stats⟩
    refine ⟨hk.sound (h.sound.setCtl y hx), hkeeps ▸ hn, fun c hd hu => ?_, hcur⟩
    have hu' : (x.st.co c).unfinished = true := (hk.live c).symm.trans hu
    exact (hnodead c (hk.dead c hd) hu').elim
  | ends hc => exact absurd rfl ha
  | @spawns e hu =>
    simp only [mallocAnswers, Bool.and_eq_true] at hm
    have hdenied : stackDenied x.st e = false := by
      have hsome := hm.1
      cases hmal : e.malloc with
      | none => simp [hmal] at hsome
      | some b => simp [stackDenied, hmal]
    have hcount := h.counted.spawn hr e
    rw [hdenied] at hcount
    refine ⟨hk.sound (h.sound.spawn (mallocFresh_spawn hr hm.2)), hkeeps ▸ hcount,
      fun c hd hu => ?_, hcur⟩
    obtain ⟨hd', hu'⟩ := coSpawn_dead (hk.dead c hd) ((hk.live c).symm.trans hu)
    exact (hnodead c hd' hu').elim

theorem Handover.Owned.finish {x : Handover} {n : Nat} (h : x.Owned n) (hback : x.back = none) :
    Handover.Owned ⟨{ coRoutineFinish x.st c with ctl := .loop }, some c⟩ n := by
  have hview : ({ coRoutineFinish x.st c with ctl := .loop } : St).holdings =
      { x.st.holdings with ctl := .loop } :=
    congrArg (fun y : Holdings => { y with ctl := .loop }) (coRoutineFinish_holdings x.st c)
  refine ⟨?_, ?_, fun d hd hu => ?_, fun _ => rfl⟩
  · show Holdings.Sound ({ coRoutineFinish x.st c with ctl := .loop } : St).holdings
    rw [hview]
    exact h.sound.setCtl .loop (by simp)
  · show Holdings.Counted ({ coRoutineFinish x.st c with ctl := .loop } : St).holdings n 0
    rw [hview]
    exact ⟨h.counted.used, h.counted.capacity, h.counted.cached, h.counted.stats⟩
  · by_cases hdc : d = c
    · rw [hdc]
    · change ((coRoutineFinish x.st c).co d).state = .dead at hd
      change ((coRoutineFinish x.st c).co d).unfinished = true at hu
      rw [coRoutineFinish_co, if_neg hdc] at hd hu
      have := h.dead d hd hu
      rw [hback] at this
      cases this

theorem Handover.Owned.cleanup {x : Handover} {n : Nat} (h : x.Owned n) (hback : x.back = some c) :
    Handover.Owned ⟨releaseDead x.st c, none⟩ n := by
  have hcur := h.back (by simp [hback])
  have hother : ∀ d, (x.st.co d).state = .dead → (x.st.co d).unfinished = true → d = c := by
    intro d hd hu
    have := h.dead d hd hu
    rw [hback] at this
    cases this
    rfl
  by_cases hdead : (x.st.co c).state = .dead
  · obtain ⟨hs, hn⟩ := h.sound.destroy h.counted (ctl_ne_of_current (c := c) hcur)
    have heq : releaseDead x.st c = (coRoutineDestroy x.st c).emit (.finish c) := if_pos hdead
    rw [heq]
    refine ⟨hs, hn, fun d hd hu => ?_, fun hne => absurd rfl hne⟩
    change ((coRoutineDestroy x.st c).co d).state = .dead at hd
    change ((coRoutineDestroy x.st c).co d).unfinished = true at hu
    rw [coRoutineDestroy_co] at hd hu
    split at hu
    · cases hu
    · rename_i hdc
      rw [if_neg hdc] at hd
      exact absurd (hother d hd hu) hdc
  · have heq : releaseDead x.st c = x.st := if_neg hdead
    rw [heq]
    refine ⟨h.sound, h.counted, fun d hd hu => ?_, fun hne => absurd rfl hne⟩
    exact absurd (hother d hd hu ▸ hd) hdead

theorem Handover.Owned.step {x x' : Handover} {a : PoolAct} {n : Nat} (h : x.Owned n)
    (hm : mallocAnswers x a = true) (hs : poolStep x a = some x') : x'.Owned n := by
  unfold poolStep at hs
  split at hs
  · cases hs
  · rename_i a ha
    split at hs
    · rename_i hback
      obtain ⟨s', hs', rfl⟩ := Option.map_eq_some_iff.mp hs
      exact h.act hback (fun he => ha (by rw [he])) hm hs'
    · cases hs
  · split at hs
    · rename_i hback _
      cases hs
      exact h.finish hback
    · cases hs
  · split at hs
    · rename_i c hback
      cases hs
      exact h.cleanup hback
    · cases hs
  · split at hs
    · rename_i hg
      cases hs
      simp only [Bool.and_eq_true, Option.isNone_iff_eq_none] at hg
      obtain ⟨hl, hf, hc, ho, hp, hn⟩ := h.sound
      refine ⟨⟨hl, hf, hc, ho, hp, hn⟩, ⟨h.counted.used, h.counted.capacity, h.counted.cached, rfl⟩,
        fun d hd hu => ?_, fun hne => absurd rfl hne⟩
      have := h.dead d hd hu
      rw [hg.2] at this
      cases this
    · cases hs

theorem coSpawn_base {b : Nat} (h : s.holdings.Rooted) (e : SpawnEnv)
    (hb : (s.co c).stackBase = some b) : ((coSpawn s e).2.co c).stackBase = some b := by
  rcases coSpawn_cases s e with ⟨-, he⟩ | ⟨-, p, -, he⟩ | ⟨-, d, p, -, ⟨-, he⟩ | ⟨-, -, hk⟩⟩
  · rw [he]
    exact hb
  · rw [he]
    exact hb
  · rw [he]
    exact hb
  · rw [hk.base, spawnedWith_co_ne e d p (Nat.ne_of_lt (h.below hb))]
    exact hb

/-- Only the end of `co_scheduler_schedule` takes a stack from a coroutine. -/
theorem poolStep_release {x x' : Handover} {a : PoolAct} {n b : Nat} (h : x.Owned n)
    (hs : poolStep x a = some x') (hb : (x.st.co c).stackBase = some b)
    (hlost : (x'.st.co c).stackBase ≠ some b) :
    a = .cleanup ∧ x.back = some c ∧ (x.st.co c).state = .dead := by
  have hr := h.sound.rooted
  unfold poolStep at hs
  split at hs
  · cases hs
  · rename_i a ha
    split at hs
    · obtain ⟨s', hs', rfl⟩ := Option.map_eq_some_iff.mp hs
      obtain ⟨t, he, hk⟩ := histStep_effect hr.ctl_live hs'
      refine absurd ?_ hlost
      show (s'.co c).stackBase = some b
      rw [hk.base]
      cases he with
      | moves _ _ => exact hb
      | spawns _ => exact coSpawn_base hr _ hb
      | ends _ => exact absurd rfl ha
    · cases hs
  · split at hs
    · cases hs
      refine absurd ?_ hlost
      show ((coRoutineFinish x.st _).co c).stackBase = some b
      rw [coRoutineFinish_co]
      split
      · rename_i hc
        exact hc ▸ hb
      · exact hb
    · cases hs
  · split at hs
    · rename_i d hback
      cases hs
      by_cases hdead : (x.st.co d).state = .dead
      · by_cases hcd : c = d
        · subst hcd
          exact ⟨rfl, hback, hdead⟩
        · refine absurd ?_ hlost
          simp only [releaseDead, if_pos hdead]
          show ((coRoutineDestroy x.st d).co c).stackBase = some b
          rw [coRoutineDestroy_co, if_neg hcd]
          exact hb
      · refine absurd ?_ hlost
        simp only [releaseDead, if_neg hdead]
        exact hb
    · cases hs
  · split at hs
    · cases hs
      exact absurd hb hlost
    · cases hs

theorem Handover.owned {cfg : Config} {n : Nat} {x : Handover}
    (h : Reach poolStep (fun x a => mallocAnswers x a = true) (Handover.init cfg n) x) :
    x.Owned n := by
  refine Reach.invariant (P := fun x : Handover => x.Owned n) h ?_ fun x a x' hx hm hs =>
    hx.step hm hs
  refine ⟨?_, ⟨?_, rfl, Nat.zero_le n, rfl⟩, ?_, fun hne => absurd rfl hne⟩
  · obtain ⟨hl, hf, hc⟩ := rooted_init cfg
    refine ⟨hl, hf, hc, ?_, ?_, ?_⟩ <;>
      simp [St.holdings, Handover.init, Libco.init, Routine.zero, initPool]
  · simp [St.holdings, Handover.init, Libco.init, initPool, Holdings.held, Routine.zero]
  · intro c hd
    cases hd

/-- Who has the stacks, in a pool of capacity `n`. -/
structure Ownership (x : Handover) (n : Nat) : Prop where
  /-- a coroutine has a stack as long as it is not released -/
  holders : ∀ c, (x.st.co c).stackBase.isSome = (x.st.co c).unfinished
  below : ∀ c, (x.st.co c).stackBase ≠ none → c < x.st.nextId
  owner : ∀ c d b, (x.st.co c).stackBase = some b → (x.st.co d).stackBase = some b → c = d
  notCached : ∀ c b, (x.st.co c).stackBase = some b → b ∉ x.st.pool.stacks
  distinct : (heldStacks x.st ++ x.st.pool.stacks).Nodup
  cached : x.st.pool.stacks.length ≤ n
  used : x.st.pool.currentUsed = (heldStacks x.st).length
  stats : x.st.pool.cacheHits + x.st.pool.cacheMisses = x.st.pool.totalAllocs

/-- **Stacks have one owner.** In every state all stacks are distinct and the pool's numbers
are right; a stack leaves its coroutine, or enters the pool, only when that coroutine is
dead and control is back in `co_scheduler_schedule`. -/
theorem stack_ownership {cfg : Config} {n : Nat} {x : Handover}
    (h : Reach poolStep (fun x a => mallocAnswers x a = true) (Handover.init cfg n) x) :
    Ownership x n ∧
    ∀ a x', mallocAnswers x a = true → poolStep x a = some x' →
      ∀ c b, (x.st.co c).stackBase = some b →
        ((x'.st.co c).stackBase ≠ some b ∨ b ∈ x'.st.pool.stacks) →
        a = .cleanup ∧ x.back = some c ∧ (x.st.co c).state = .dead ∧ x.st.coCurrent = none := by
  have ho := Handover.owned h
  have hr := ho.sound.rooted
  constructor
  · refine ⟨fun c => (hr.live c).symm, fun c hc => ?_, ho.sound.owner, ho.sound.pooled,
      ho.sound.nodup_held, ho.counted.cached, ho.counted.used, ho.counted.stats⟩
    obtain ⟨b, hb⟩ := Option.ne_none_iff_exists'.mp hc
    exact hr.below hb
  · intro a x' hm hs c b hb hrel
    have ho' := ho.step hm hs
    have hlost : (x'.st.co c).stackBase ≠ some b := by
      rcases hrel with hlost | hmem
      · exact hlost
      · exact fun hkept => ho'.sound.pooled c b hkept hmem
    obtain ⟨ha, hback, hdead⟩ := poolStep_release ho hs hb hlost
    exact ⟨ha, hback, hdead, ho.back (by simp [hback])⟩

/-- The stack of coroutine 1 is cached and handed to coroutine 2, while the statistics are
reset in between. -/
def reuseRun : List PoolAct :=
  [PoolAct.act (spawnSized 0 10), .act (.act .run)] ++ turn.map (fun a => PoolAct.act (.act a)) ++
    [PoolAct.finish, .cleanup, .act (.act (.timers 0)), .act (.act (.idle .none)), .resetStats,
      .act (spawnSized 0 20), .act (spawnSized 0 20)]

theorem stack_ownership_reuse :
    ∃ x, runGuarded poolStep mallocAnswers (Handover.init (byteConfig 0) 1) reuseRun = some x ∧
      heldStacks x.st = [10, 20] ∧ x.st.pool.totalAllocs = 2 ∧ Ownership x 1 := by
  have hrun : ((runGuarded poolStep mallocAnswers (Handover.init (byteConfig 0) 1) reuseRun).map
      fun x => (heldStacks x.st, x.st.pool.totalAllocs)) = some ([10, 20], 2) := by
    decide +kernel
  obtain ⟨x, hx, he⟩ := Option.map_eq_some_iff.mp hrun
  simp only [Prod.mk.injEq] at he
  exact ⟨x, hx, he.1, he.2, (stack_ownership (reach_of_runGuarded hx)).1⟩

end Libco
