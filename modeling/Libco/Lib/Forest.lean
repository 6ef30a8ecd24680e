import Mathlib.Data.Finset.Max

/-!
# Waiting in a forest

The edges of a forest join a node to its parent, and an edge is named after its lower
end. If everybody who waits at an edge waits for somebody at its other end, who waits at
another edge himself, then nobody waits: going from one to the next would lead up the
forest and then down, without ever turning back, and end nowhere.
-/

namespace Libco.Lib

variable {V : Type}

structure Forest (V : Type) where
  parent : V → Option V
  depth : V → Nat
  deeper : ∀ c p, parent c = some p → depth p < depth c

namespace Forest

variable {F : Forest V}

/-- `c` and `d` are the ends of the edge `h`. -/
def Joins (F : Forest V) (h c d : V) : Prop :=
  (h = c ∧ F.parent c = some d) ∨ (h = d ∧ F.parent d = some c)

theorem Joins.ne {h c d : V} (hj : F.Joins h c d) : c ≠ d := by
  rintro rfl
  rcases hj with ⟨-, hp⟩ | ⟨-, hp⟩ <;> exact absurd (F.deeper _ _ hp) (Nat.lt_irrefl _)

theorem Joins.symm {h c d : V} (hj : F.Joins h c d) : F.Joins h d c := Or.symm hj

/-- The waits lead on along the edges. -/
def Passes (F : Forest V) (waits : V → V → Prop) : Prop :=
  ∀ c h, waits c h → ∃ d h', F.Joins h c d ∧ waits d h' ∧ h' ≠ h

variable {waits : V → V → Prop} {S : Finset V}

/-- Nobody waits at the edge of a child: the deepest who does waits for one who does. -/
theorem Passes.upward (hp : F.Passes waits) (hS : ∀ c h, waits c h → c ∈ S) {c h : V}
    (hw : waits c h) : h = c := by
  classical
  by_contra hne
  have hmem : ∀ d k, waits d k → k ≠ d → d ∈ S.filter fun d => ∃ k, waits d k ∧ k ≠ d :=
    fun d k hd hk => Finset.mem_filter.mpr ⟨hS d k hd, k, hd, hk⟩
  obtain ⟨low, hlow, hmax⟩ := Finset.exists_max_image _ F.depth ⟨c, hmem c h hw hne⟩
  obtain ⟨k, hk, hkne⟩ := (Finset.mem_filter.mp hlow).2
  obtain ⟨d, k', ⟨rfl, -⟩ | ⟨rfl, hpar⟩, hd, hdk⟩ := hp low k hk
  · exact hkne rfl
  · have hle := hmax k (hmem k k' hd hdk)
    have hlt := F.deeper k low hpar
    omega

/-- **Nobody waits.** -/
theorem Passes.nobody (hp : F.Passes waits) (hS : ∀ c h, waits c h → c ∈ S) (c h : V) :
    ¬ waits c h := by
  classical
  intro hw
  have hmem : ∀ d k, waits d k → d ∈ S.filter fun d => ∃ k, waits d k :=
    fun d k hd => Finset.mem_filter.mpr ⟨hS d k hd, k, hd⟩
  obtain ⟨top, htop, hmin⟩ := Finset.exists_min_image _ F.depth ⟨c, hmem c h hw⟩
  obtain ⟨k, hk⟩ := (Finset.mem_filter.mp htop).2
  obtain ⟨d, k', hj, hd, hdk⟩ := hp top k hk
  have hself := hp.upward hS hk
  rcases hj with ⟨-, hpar⟩ | ⟨rfl, hpar⟩
  · have hle := hmin d (hmem d k' hd)
    have hlt := F.deeper top d hpar
    omega
  · -- the edge of the child `k` is not the edge of `top`
    subst hself
    exact absurd (F.deeper _ _ hpar) (Nat.lt_irrefl _)

end Forest

end Libco.Lib
