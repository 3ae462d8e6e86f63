import Goblin.Kruskal

/-!
# Spanning tree solvers

The versions of `MST_Prim` and `MST_Kruskal` return the same value, the weight of an optimal
spanning tree of the usable edges, or `sign*InfFloat` if these edges do not connect the graph
(`mst_solvers_agree`). The infinite value is a number, and lengths below `InfFloat` may add up to it
(`mst_value_ambiguous`); then the value alone does not tell whether the graph is connected. A
weight beyond `InfFloat` is no bound that the timer accepts.
-/

set_option autoImplicit false

namespace Goblin

open Library

namespace MixedGraph

variable {n m : ℕ} {G : MixedGraph n m} {c : TOptMST}

/-- A spanning tree of the usable edges whose weight is least or, if a maximum is wanted,
largest. -/
structure OptimalTree (G : MixedGraph n m) (max : Bool) (T : Finset (Fin m)) : Prop where
  tree : SpanningTree G.toNetwork (T : Set (Fin m))
  usable : T ⊆ G.usable
  optimal : ∀ T' : Finset (Fin m), SpanningTree G.toNetwork (T' : Set (Fin m)) → T' ⊆ G.usable →
    if max then ∑ e ∈ T', G.length e ≤ ∑ e ∈ T, G.length e
    else ∑ e ∈ T, G.length e ≤ ∑ e ∈ T', G.length e

theorem sum_mstWeight (c : TOptMST) (T : Finset (Fin m)) :
    ∑ e ∈ T, G.mstWeight c e = c.sign * ∑ e ∈ T, G.length e := by
  simp only [mstWeight, Finset.mul_sum]

theorem optimalTree_of_minimum {T : Finset (Fin m)}
    (minimum : MinimumTree G.toNetwork G.usable (G.mstWeight c) T) : OptimalTree G c.max T := by
  refine ⟨minimum.tree, minimum.available, fun T' tree' subset' => ?_⟩
  have least := minimum.least T' tree' subset'
  rw [sum_mstWeight, sum_mstWeight, TOptMST.sign] at least
  cases max : c.max with
  | true =>
    rw [max] at least
    simp only [if_true] at least ⊢
    linarith
  | false =>
    rw [max] at least
    simpa using least

theorem Solves.value_eq {value value' : ℚ} {Tree Tree' : Finset (Fin m) → Prop}
    (solves : Solves G c value Tree) (solves' : Solves G c value' Tree') : value = value' := by
  by_cases connects : Connects G.toNetwork G.usable
  · obtain ⟨T, minimum, rfl, -⟩ := solves.connected connects
    obtain ⟨T', minimum', rfl, -⟩ := solves'.connected connects
    have le := minimum.least T' minimum'.tree minimum'.available
    have ge := minimum'.least T minimum.tree minimum.available
    have same := le_antisymm le ge
    rw [sum_mstWeight, sum_mstWeight] at same
    exact c.sign_mul_inj.1 same
  · rw [solves.disconnected connects, solves'.disconnected connects]

theorem mstRoot_eq (method : String) {root : ℕ} (ne : 0 < n)
    (rooted : root = noNode ∨ root < n) :
    ∃ r : Fin n, (r : ℕ) = (if root = noNode then 0 else root) ∧ mstRoot method root = .ok r := by
  have low : (if root = noNode then 0 else root) < n := by
    split_ifs with isNone
    · exact ne
    · exact rooted.resolve_left isNone
  exact ⟨⟨_, low⟩, rfl, dif_pos low⟩

/-- **The spanning tree solvers agree and are optimal.** The value is the weight of an optimal tree
if the usable edges connect the graph, and the infinite value otherwise. The predecessor labels and
the subgraph are optimal trees. -/
theorem mst_solvers_agree (nonempty : 0 < n) (finite : ∀ e, |G.length e| < infFloat)
    (free : ∀ e, G.lcap e = 0) (unit : ∀ e, G.ucap e = 0 ∨ G.ucap e = 1) (max : Bool) (root : ℕ)
    (rooted : root = noNode ∨ root < n) (potential : Option (Fin n → ℚ)) (B : LowerBounds)
    (nodeHeap : MinQueue.{0, 0, 0} (Fin n) ℚ) (arcHeap : MinQueue.{0, 0, 0} (Fin m) ℚ)
    (CT : FamilyContext) (ranks : ℕ → ℕ) (sub : Fin m → ℚ) {epsilon : ℚ} (nonneg : 0 ≤ epsilon)
    (bounded : ∀ T, OptimalTree G max T → |∑ e ∈ T, G.length e| ≤ infFloat) :
    let c : TOptMST := ⟨max, false, false⟩
    ∃ (r : Fin n) (value : ℚ), (r : ℕ) = (if root = noNode then 0 else root) ∧
      (∀ method, method = .prim ∨ method = .prim2 →
        ∃ st, G.mstPrim c potential B nodeHeap method epsilon root = .ok (value, st) ∧
          (Connects G.toNetwork G.usable → ∃ T, OptimalTree G max T ∧
            value = ∑ e ∈ T, G.length e ∧ TreeLabels G r T st.pred)) ∧
      (∃ st, G.mstKruskal c potential CT arcHeap B epsilon ranks sub root = .ok (value, st) ∧
        (Connects G.toNetwork G.usable → ∃ T, OptimalTree G max T ∧
          value = ∑ e ∈ T, G.length e ∧ SubgraphOf T st.sub)) ∧
      (¬ Connects G.toNetwork G.usable → value = c.sign * infFloat) := by
  intro c
  obtain ⟨r, isRoot, rootPrim⟩ := mstRoot_eq "MST_Prim" nonempty rooted
  obtain ⟨r', isRoot', rootKruskal⟩ := mstRoot_eq "MST_Kruskal" nonempty rooted
  have bounded' : G.BoundedTrees c := fun T minimum => bounded T (optimalTree_of_minimum minimum)
  obtain ⟨value, st, result, solves⟩ := mstKruskal_spec (c := c) potential CT B
    arcHeap ranks sub rootKruskal finite rfl rfl free unit nonneg bounded'
  refine ⟨r, value, isRoot, fun method _ => ?_, ⟨st, result, fun connects => ?_⟩,
    solves.disconnected⟩
  · obtain ⟨value', st', result', solves'⟩ := mstPrim_spec (c := c) potential B
      nodeHeap method rootPrim finite rfl rfl free nonneg bounded'
    rw [← solves'.value_eq solves]
    refine ⟨st', result', fun connects => ?_⟩
    obtain ⟨T, minimum, weight, labels⟩ := solves'.connected connects
    exact ⟨T, optimalTree_of_minimum minimum, weight, labels⟩
  · obtain ⟨T, minimum, weight, subgraph⟩ := solves.connected connects
    exact ⟨T, optimalTree_of_minimum minimum, weight, subgraph⟩

/-- A path with two edges of the given length. -/
def pathGraph (length : ℚ) : MixedGraph 3 2 :=
  .ofArcs ![0, 1] ![1, 2] (fun _ => false) (fun _ => 1) (fun _ => 0) (fun _ => length) fun _ => 0

theorem pathGraph_connects (length : ℚ) :
    Connects (pathGraph length).toNetwork (pathGraph length).usable := by
  have usable : ∀ e, e ∈ (pathGraph length).usable := fun e => by
    simp [mem_usable, pathGraph, ofArcs]
  have first : Linked (pathGraph length).toNetwork (pathGraph length).usable 0 1 :=
    .edge (e := 0) (usable 0)
  have second : Linked (pathGraph length).toNetwork (pathGraph length).usable 1 2 :=
    .edge (e := 1) (usable 1)
  have toZero : ∀ x, Linked (pathGraph length).toNetwork (pathGraph length).usable x 0 := by
    intro x
    fin_cases x
    · exact .refl 0
    · exact first.symm
    · exact (first.trans second).symm
  exact fun x y => (toZero x).trans (toZero y).symm

/-- A minimum spanning tree of a path. -/
theorem mst_solvers_agree_path :
    ∃ value : ℚ, ∃ T, OptimalTree (pathGraph 3) false T ∧ value = ∑ e ∈ T, (pathGraph 3).length e ∧
      ∃ st, (pathGraph 3).mstPrim ⟨false, false, false⟩ none ⟨true, 0⟩ (MinQueue.table 3 ℚ) .prim2
        0 0 = .ok (value, st) ∧ TreeLabels (pathGraph 3) 0 T st.pred := by
  have finite : ∀ e, |(pathGraph 3).length e| < infFloat := fun e => by
    change |(3 : ℚ)| < infFloat
    rw [infFloat]
    norm_num
  have bounded : ∀ T, OptimalTree (pathGraph 3) false T →
      |∑ e ∈ T, (pathGraph 3).length e| ≤ infFloat := fun T _ => by
    have cards : (T.card : ℚ) ≤ 2 := by exact_mod_cast T.card_le_univ
    change |∑ _ ∈ T, (3 : ℚ)| ≤ infFloat
    rw [Finset.sum_const, nsmul_eq_mul, abs_of_nonneg (by positivity), infFloat]
    linarith
  obtain ⟨r, value, isRoot, prim, -, -⟩ := mst_solvers_agree (G := pathGraph 3)
    (by decide) finite (by decide) (by decide) false 0 (by decide) none ⟨true, 0⟩
    (MinQueue.table 3 ℚ) (MinQueue.table 2 ℚ) ⟨1, true⟩ (fun _ => 0) (fun _ => 0) le_rfl
    bounded
  obtain ⟨st, result, tree⟩ := prim .prim2 (.inr rfl)
  obtain ⟨T, optimal, weight, labels⟩ := tree (pathGraph_connects 3)
  obtain rfl : r = 0 := Fin.ext isRoot
  exact ⟨value, T, optimal, weight, st, result, labels⟩

/-- Two lengths that add up to the infinite value: the value is `sign*InfFloat` although the graph
is connected. If they add up to more, then `SetBounds` raises. -/
theorem mst_value_ambiguous : let G := pathGraph (infFloat / 2)
    let H := pathGraph (6 * 10 ^ 49)
    let c : TOptMST := ⟨false, false, false⟩
    (∀ e, |G.length e| < infFloat ∧ |H.length e| < infFloat) ∧ (∀ e, G.lcap e = 0) ∧
      (∀ e, G.ucap e = 1) ∧
      (∃ value st, G.mstPrim c none ⟨true, 0⟩ (MinQueue.table 3 ℚ) .prim 0 0 = .ok (value, st) ∧
        ¬ (value = c.sign * infFloat ↔ ¬ Connects G.toNetwork G.usable)) ∧
      Connects H.toNetwork H.usable ∧
      (H.mstPrim c none ⟨true, 0⟩ (MinQueue.table 3 ℚ) .prim 0 0).map (·.1) =
        .error (.rejected "SetBounds" "Trying to override upper bound") := by
  intro G H c
  have value : (G.mstPrim c none ⟨true, 0⟩ (MinQueue.table 3 ℚ) .prim 0 0).map (·.1) =
      .ok (c.sign * infFloat) := by decide +kernel
  refine ⟨fun e => ⟨?_, ?_⟩, by decide, by decide, ?_, pathGraph_connects _, by decide +kernel⟩
  · change |infFloat / 2| < infFloat
    rw [infFloat]
    norm_num
  · change |(6 * 10 ^ 49 : ℚ)| < infFloat
    rw [infFloat]
    norm_num
  · cases result : G.mstPrim c none ⟨true, 0⟩ (MinQueue.table 3 ℚ) .prim 0 0 with
    | error e =>
      rw [result] at value
      cases value
    | ok pair =>
      rw [result] at value
      injection value with isInfinite
      exact ⟨pair.1, pair.2, rfl, fun same =>
        same.1 isInfinite (pathGraph_connects (infFloat / 2))⟩

end MixedGraph

end Goblin
