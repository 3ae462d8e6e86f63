import Goblin.Library.Walk

/-!
# Shortest paths and distance labels

Walks along the arcs of a set `el`, weighted by `len`. A label function is
feasible on the expanded nodes when no arc from one of them promises a shorter
way than the label of its end. Feasible labels bound the lengths of all walks
from below (`le_of_feasible`). A procedure that has expanded only the nodes
with labels below some level knows the distances up to this level
(`min_le_of_expanded`), and cutting the labels off at the level makes them
feasible everywhere (`truncate_feasible`).
-/

set_option autoImplicit false

namespace Goblin.Library

open List
universe u v

variable {V : Type v} {A : Type u} {src dst : A → V} {el : A → Prop} {len : A → ℚ}
  {S : V → Prop} {v u x : V} {dist : V → WithTop ℚ} {p c : List A} {level : WithTop ℚ}

section

variable (src dst : A → V) (el : A → Prop)

/-- `d` is the least length of a walk along `el` from a node of `S` to `v`. -/
structure IsDistance (len : A → ℚ) (S : V → Prop) (v : V)
    (d : ℚ) : Prop where
  attained : ∃ s p, S s ∧ IsWalk src dst s p v ∧ (∀ a ∈ p, el a) ∧ (p.map len).sum = d
  least : ∀ s p, S s → IsWalk src dst s p v → (∀ a ∈ p, el a) → d ≤ (p.map len).sum

/-- Some walk along `el` leads from `S` to `v`. -/
def ReachableFrom (S : V → Prop) (v : V) : Prop :=
  ∃ s p, S s ∧ IsWalk src dst s p v ∧ ∀ a ∈ p, el a

/-- The arcs of `c` lead along `el` from `x` back to `x`. -/
structure IsCycle (x : V) (c : List A) : Prop where
  nonempty : c ≠ []
  walk : IsWalk src dst x c x
  usable : ∀ a ∈ c, el a

end

theorem IsDistance.unique {d d' : ℚ} (first : IsDistance src dst el len S v d)
    (second : IsDistance src dst el len S v d') : d = d' := by
  obtain ⟨s, p, source, walk, usable, length⟩ := first.attained
  obtain ⟨s', p', source', walk', usable', length'⟩ := second.attained
  apply le_antisymm
  · rw [← length']
    exact first.least s' p' source' walk' usable'
  · rw [← length]
    exact second.least s p source walk usable

theorem sum_map_add_const (len : A → ℚ) (x : ℚ) (p : List A) :
    (p.map fun a => len a + x).sum = (p.map len).sum + x * p.length := by
  rw [sum_map_add, map_const', sum_replicate, nsmul_eq_mul]
  ring

/-- **Labels bound walks, up to the level.** The nodes that are not expanded
have labels of at least `level`. -/
theorem min_le_of_expanded (el : A → Prop) (expanded : V → Prop) (nonneg : ∀ a, el a → 0 ≤ len a)
    (relaxed : ∀ a, expanded (src a) → el a → dist (dst a) ≤ dist (src a) + (len a : WithTop ℚ))
    (out : ∀ v, ¬ expanded v → level ≤ dist v) (walk : IsWalk src dst u p v)
    (usable : ∀ a ∈ p, el a) (start : WithTop ℚ) (reached : min (dist u) level ≤ start) :
    min (dist v) level ≤ start + (((p.map len).sum : ℚ) : WithTop ℚ) := by
  induction p generalizing u start with
  | nil =>
    rw [isWalk_nil] at walk
    subst walk
    simpa using reached
  | cons a p ih =>
    obtain ⟨rfl, rest⟩ := walk
    have usableA := usable a mem_cons_self
    have lenNonneg : (0 : WithTop ℚ) ≤ (len a : WithTop ℚ) := by
      exact_mod_cast nonneg a usableA
    have next : min (dist (dst a)) level ≤ start + (len a : WithTop ℚ) := by
      by_cases inside : expanded (src a)
      · rcases min_le_iff.1 reached with below | above
        · exact (min_le_left _ _).trans ((relaxed a inside usableA).trans (add_le_add_left below _))
        · exact (min_le_right _ _).trans (above.trans (le_add_of_nonneg_right lenNonneg))
      · have above : level ≤ start := by
          rcases min_le_iff.1 reached with below | above
          · exact (out _ inside).trans below
          · exact above
        exact (min_le_right _ _).trans (above.trans (le_add_of_nonneg_right lenNonneg))
    have final := ih rest (fun b mem => usable b (mem_cons_of_mem _ mem)) _ next
    rw [map_cons, sum_cons, WithTop.coe_add, ← add_assoc]
    exact final

theorem le_of_feasible (el : A → Prop) (feasible : ∀ a, el a →
      dist (dst a) ≤ dist (src a) + (len a : WithTop ℚ)) (walk : IsWalk src dst u p v)
    (usable : ∀ a ∈ p, el a) : dist v ≤ dist u + (((p.map len).sum : ℚ) : WithTop ℚ) := by
  induction p generalizing u with
  | nil =>
    rw [isWalk_nil] at walk
    simp [walk]
  | cons a p ih =>
    obtain ⟨rfl, rest⟩ := walk
    have final := ih rest fun b mem => usable b (mem_cons_of_mem _ mem)
    have first := feasible a (usable a mem_cons_self)
    rw [map_cons, sum_cons, WithTop.coe_add, ← add_assoc]
    exact final.trans (add_le_add_left first _)

theorem IsCycle.nonneg_of_feasible (cycle : IsCycle src dst el x c) (finite : dist x ≠ ⊤)
    (feasible : ∀ a, el a → dist (dst a) ≤ dist (src a) + (len a : WithTop ℚ)) :
    0 ≤ (c.map len).sum := by
  have bound := le_of_feasible el feasible cycle.walk cycle.usable
  obtain ⟨d, val⟩ := WithTop.ne_top_iff_exists.1 finite
  rw [← val, ← WithTop.coe_add, WithTop.coe_le_coe] at bound
  linarith

theorem BackPath.isCycle {pred : V → Option A} (path : BackPath pred src x x c)
    (consistent : ∀ y a, pred y = some a → dst a = y)
    (usable : ∀ a ∈ c, el a) : IsCycle src dst el x c.reverse where
  nonempty := by simpa using path.ne_nil
  walk := path.isWalk consistent
  usable a member := usable a (mem_reverse.1 member)

theorem truncate_feasible (el : A → Prop) (expanded : V → Prop) (nonneg : ∀ a, el a → 0 ≤ len a)
    (relaxed : ∀ a, expanded (src a) → el a → dist (dst a) ≤ dist (src a) + (len a : WithTop ℚ))
    (out : ∀ v, ¬ expanded v → level ≤ dist v) {a : A} (usable : el a) :
    min (dist (dst a)) level ≤ min (dist (src a)) level + (len a : WithTop ℚ) := by
  have walk : IsWalk src dst (src a) [a] (dst a) := ⟨rfl, rfl⟩
  have bound := min_le_of_expanded el expanded nonneg relaxed out walk (by simpa using usable) _
    (le_refl _)
  simpa using bound

end Goblin.Library
