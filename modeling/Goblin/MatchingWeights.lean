import Goblin.BigraphToDigraph
import Goblin.GraphToBalanced

/-!
# Weights of matching reductions

A subgraph with bounded degrees is solved for as a flow. The flow of an arc is the multiplicity of
the edge beyond its lower capacity, and all other arcs have length zero. The edge
lengths are shifted by the least one if this is negative. The shift adds a multiple of the number
of edges to the weight, so it is harmless only if all feasible subgraphs have equally many edges.

`Init` shifts the lengths whenever the upper degree bounds are given, although this is the case
in which feasible subgraphs may differ in size.
-/

set_option autoImplicit false

namespace Goblin

open Library Finset Finset

variable {x : ℕ → ℚ} {length : ℚ}

/-! ## Subgraphs with bounded degrees -/

namespace Accessors

variable (G : Accessors)

section

variable (x : ℕ → ℚ)

/-- `Deg`: the multiplicities of the arcs that leave a node. -/
def degree (v : ℕ) : ℚ :=
  ∑ a ∈ (range (2 * G.m)).filter (fun a => G.startNode a = some v), x (a / 2)

/-- The number of edges, with multiplicities. -/
def edgeCount : ℚ := ∑ e ∈ range G.m, x e

/-- The total length of the edges. -/
def totalLength : ℚ := ∑ e ∈ range G.m, x e * G.length (2 * e)

end

/-- `Weight` of the multiplicities `sub`. -/
def weight (sub : ℕ → ℚ) : ℚ := ∑ a ∈ range G.m, |sub (2 * a)| * G.length (2 * a)

/-- A subgraph with multiplicities in `S` that respects the capacities and the degree bounds. -/
structure DegreeConstrained (lower cap : ℕ → ℚ) (S : Set ℚ) (x : ℕ → ℚ) : Prop where
  multiplicity : ∀ e, e < G.m → x e ∈ S
  capacities : ∀ e, e < G.m → G.lcap (2 * e) ≤ x e ∧ x e ≤ G.ucap (2 * e)
  degrees : ∀ v, v < G.n → lower v ≤ G.degree x v ∧ G.degree x v ≤ cap v

/-- An undirected graph with lower capacities that are not negative, and finite lengths. -/
structure Undirected : Prop where
  symmetric : G.Symmetric
  lcap_nonneg : ∀ e, e < G.m → 0 ≤ G.lcap (2 * e)
  finite : ∀ e, e < G.m → G.length (2 * e) ≠ infFloat

end Accessors

/-! ## The shift of the lengths -/

theorem least_length_spec (length : ℕ → ℚ) (count : ℕ) :
    let least := (List.range count).foldl (fun c a => if length a < c then length a else c) 0
    least ≤ 0 ∧ (∀ a, a < count → least ≤ length a) ∧
      (least = 0 ∨ ∃ a, a < count ∧ length a = least) := by
  intro least
  induction count with
  | zero => exact ⟨le_rfl, fun a low => by omega, .inl rfl⟩
  | succ count ih =>
    obtain ⟨below, all, attained⟩ := ih
    have step : least = if length count < (List.range count).foldl
        (fun c a => if length a < c then length a else c) 0 then length count
        else (List.range count).foldl (fun c a => if length a < c then length a else c) 0 := by
      change List.foldl _ _ _ = _
      rw [List.range_succ, List.foldl_append]
      rfl
    rw [step]
    split_ifs with shorter
    · refine ⟨shorter.le.trans below, fun a low => ?_, .inr ⟨count, by omega, rfl⟩⟩
      rcases Nat.lt_succ_iff_lt_or_eq.mp low with earlier | rfl
      · exact shorter.le.trans (all a earlier)
      · exact le_rfl
    · refine ⟨below, fun a low => ?_, ?_⟩
      · rcases Nat.lt_succ_iff_lt_or_eq.mp low with earlier | rfl
        · exact all a earlier
        · exact not_lt.mp shorter
      · rcases attained with zero | ⟨a, low, eq⟩
        · exact .inl zero
        · exact .inr ⟨a, by omega, eq⟩

/-- The lengths are shifted exactly if there is a negative one. -/
theorem least_length_eq_zero_iff (length : ℕ → ℚ) (count : ℕ) :
    (List.range count).foldl (fun c a => if length a < c then length a else c) 0 = 0 ↔
      ∀ a, a < count → 0 ≤ length a := by
  obtain ⟨below, all, attained⟩ := least_length_spec length count
  constructor
  · intro zero a low
    exact zero ▸ all a low
  · intro nonneg
    rcases attained with zero | ⟨a, low, eq⟩
    · exact zero
    · exact le_antisymm below (eq ▸ nonneg a low)

/-! ## The flows of a subgraph -/

theorem sum_range_half (f : ℕ → ℚ) (count : ℕ) :
    ∑ a ∈ range (2 * count), f (a / 2) = 2 * ∑ e ∈ range count, f e := by
  induction count with
  | zero => simp
  | succ count ih =>
    rw [show 2 * (count + 1) = 2 * count + 1 + 1 by omega, sum_range_succ,
      sum_range_succ, ih, sum_range_succ, show 2 * count / 2 = count by omega,
      show (2 * count + 1) / 2 = count by omega]
    ring

namespace GraphToBalanced

variable (G : Accessors) (B : Bounds)

/-- `BalFlow`, for the subgraph `x` and the flow on the artificial arcs. -/
def balFlow (x deg : ℕ → ℚ) (a : ℕ) : ℚ :=
  if ret1 G ≤ a then 0
  else if a < 4 * G.m then x (a / 4) - G.lcap (a / 2)
  else deg (a / 4 - G.m)

variable {G} {B}

/-- Every edge contributes twice to the weight of a balanced flow. -/
theorem weight_balFlow (undirected : G.Undirected) {deg : ℕ → ℚ}
    (above : ∀ e, e < G.m → G.lcap (2 * e) ≤ x e) : (network G B).weight (balFlow G x deg) =
      2 * ∑ e ∈ range G.m, (x e - G.lcap (2 * e)) * (G.length (2 * e) - B.minLength) := by
  obtain ⟨-, -, -, -, -, -, -, eq1⟩ := sizes (G := G)
  have eqM : (network G B).m = 2 * G.m + (4 * G.n + 6) := by
    change m G = _
    rw [m]
    omega
  -- the artificial arcs have length zero
  have artificial : ∀ i, |balFlow G x deg (2 * (2 * G.m + i))| *
      (network G B).length (2 * (2 * G.m + i)) = 0 := by
    intro i
    change _ * length G B _ = 0
    rw [length, if_neg (by omega), mul_zero]
  have edge : ∀ a, a < 2 * G.m → |balFlow G x deg (2 * a)| * (network G B).length (2 * a) =
      (x (a / 2) - G.lcap (2 * (a / 2))) * (G.length (2 * (a / 2)) - B.minLength) := by
    intro a low
    have lcap_eq : G.lcap a = G.lcap (2 * (a / 2)) := by
      rcases Nat.mod_two_eq_zero_or_one a with even | odd
      · rw [show 2 * (a / 2) = a by omega]
      · rw [← undirected.symmetric.lcap a low, xor_one_odd odd, show a - 1 = 2 * (a / 2) by omega]
    have length_eq : G.length a = G.length (2 * (a / 2)) := by
      rcases Nat.mod_two_eq_zero_or_one a with even | odd
      · rw [show 2 * (a / 2) = a by omega]
      · rw [← undirected.symmetric.length a low, xor_one_odd odd, show a - 1 = 2 * (a / 2) by omega]
    change _ * length G B _ = _
    have finite := undirected.finite (a / 2) (by omega)
    rw [length, if_pos (by omega), show 2 * a / 2 = a by omega, length_eq, if_neg finite,
      balFlow, if_neg (by omega), if_pos (by omega), show 2 * a / 4 = a / 2 by omega,
      show 2 * a / 2 = a by omega, lcap_eq,
      abs_of_nonneg (sub_nonneg.mpr (above (a / 2) (by omega)))]
  rw [Accessors.weight, eqM, sum_range_add, sum_eq_zero fun i _ => artificial i,
    add_zero, sum_congr rfl fun a mem => edge a (mem_range.mp mem)]
  exact sum_range_half (fun e => (x e - G.lcap (2 * e)) * (G.length (2 * e) - B.minLength)) G.m

end GraphToBalanced

namespace BigraphToDigraph

variable (G : BigraphAccessors) (B : Bounds)

/-- `Flow`, for the subgraph `x` and the flow on the artificial arcs. -/
def flow (x dgl : ℕ → ℚ) (a : ℕ) : ℚ :=
  if a / 2 < G.m then x (a / 2)
  else if a / 2 < m G - 1 then dgl (a / 2 - G.m)
  else 0

variable {G} {B}

/-- Every edge contributes once to the weight of a flow. -/
theorem weight_flow {dgl : ℕ → ℚ} (nonneg : ∀ e, e < G.m → 0 ≤ x e) :
    (network G B).weight (flow G x dgl) =
      ∑ e ∈ range G.m, x e * (G.length (2 * e) - B.minLength) := by
  have eqM : (network G B).m = G.m + (2 * G.n + 4) := Nat.add_assoc _ _ _
  have artificial : ∀ i, |flow G x dgl (2 * (G.m + i))| *
      (network G B).length (2 * (G.m + i)) = 0 := by
    intro i
    change _ * length G B _ = 0
    rw [length, if_neg (by omega), mul_zero]
  have edge : ∀ e, e < G.m → |flow G x dgl (2 * e)| * (network G B).length (2 * e) =
      x e * (G.length (2 * e) - B.minLength) := by
    intro e low
    change _ * length G B _ = _
    rw [length, if_pos (by omega), flow, if_pos (by omega), show 2 * e / 2 = e by omega,
      abs_of_nonneg (nonneg e low)]
  rw [Accessors.weight, eqM, sum_range_add, sum_eq_zero fun i _ => artificial i, add_zero]
  exact sum_congr rfl fun e mem => edge e (mem_range.mp mem)

end BigraphToDigraph

/-! ## The reductions -/

/-- The two reductions of a matching problem. -/
inductive MatchingReduction where
  | graphToBalanced (G : Accessors)
  | bigraphToDigraph (G : BigraphAccessors)

namespace MatchingReduction

/-- The graph whose subgraphs are sought. -/
def graph : MatchingReduction → Accessors
  | graphToBalanced G => G
  | bigraphToDigraph G => G.toAccessors

/-- The number of network arcs of an edge. -/
def factor : MatchingReduction → ℚ
  | graphToBalanced _ => 2
  | bigraphToDigraph _ => 1

section

variable (R : MatchingReduction) (lower cap : ℕ → ℚ)

/-- `Weight` of the network for explicit degree bounds, with the subgraph `x` and the flow
`artificial` on the artificial arcs. -/
def flowWeight (x artificial : ℕ → ℚ) : ℚ :=
  match R with
  | .graphToBalanced G =>
    (GraphToBalanced.network G (GraphToBalanced.init G (some lower) (some cap) 1)).weight
      (GraphToBalanced.balFlow G x artificial)
  | .bigraphToDigraph G =>
    (BigraphToDigraph.network G (BigraphToDigraph.init G (some lower) (some cap) 1)).weight
      (BigraphToDigraph.flow G x artificial)

/-- The weights of the flows differ as the lengths of the subgraphs do, and a flow of
least weight belongs to a subgraph of least length. -/
def PreservesCosts (S : Set ℚ) : Prop :=
  (∀ x y, R.graph.DegreeConstrained lower cap S x → R.graph.DegreeConstrained lower cap S y →
    ∀ artificial artificial', R.flowWeight lower cap x artificial -
      R.flowWeight lower cap y artificial' =
        R.factor * (R.graph.totalLength x - R.graph.totalLength y)) ∧
  ∀ x, R.graph.DegreeConstrained lower cap S x → ∀ artificial,
    (∀ y, R.graph.DegreeConstrained lower cap S y → ∀ artificial',
      R.flowWeight lower cap x artificial ≤ R.flowWeight lower cap y artificial') ↔
    ∀ y, R.graph.DegreeConstrained lower cap S y → R.graph.totalLength x ≤ R.graph.totalLength y

end

variable {R : MatchingReduction} {lower cap : ℕ → ℚ} {S : Set ℚ}

/-- The shift of the lengths, with both degree bounds given. -/
def minLength (R : MatchingReduction) : ℚ :=
  (List.range R.graph.m).foldl (fun c a => if R.graph.length (2 * a) < c then
    R.graph.length (2 * a) else c) 0

theorem minLength_graphToBalanced (G : Accessors) :
    (GraphToBalanced.init G (some lower) (some cap) 1).minLength =
      (graphToBalanced G).minLength := by
  have eliminated : ∀ (arcs : List ℕ) (B : GraphToBalanced.Bounds),
      (arcs.foldl (GraphToBalanced.eliminate G) B).minLength = B.minLength := by
    intro arcs
    induction arcs with
    | nil => exact fun B => rfl
    | cons a arcs ih =>
      intro B
      rw [List.foldl_cons, ih, GraphToBalanced.eliminate]
      split_ifs <;> rfl
  rw [GraphToBalanced.init]
  simp only
  split_ifs
  · rw [eliminated]
    rfl
  · rfl

theorem flowWeight_eq (undirected : R.graph.Undirected) :
    ∃ c, ∀ x, R.graph.DegreeConstrained lower cap S x → ∀ artificial,
      R.flowWeight lower cap x artificial =
        R.factor * (R.graph.totalLength x - R.minLength * R.graph.edgeCount x) + c := by
  cases R with
  | graphToBalanced G =>
    refine ⟨-2 * ∑ e ∈ range G.m,
      G.lcap (2 * e) * (G.length (2 * e) - (graphToBalanced G).minLength), ?_⟩
    intro x feasible artificial
    have above : ∀ e, e < G.m → G.lcap (2 * e) ≤ x e := fun e low => (feasible.capacities e low).1
    change (GraphToBalanced.network G _).weight _ = 2 * (G.totalLength x - _ * G.edgeCount x) + _
    rw [GraphToBalanced.weight_balFlow (G := G) undirected above, minLength_graphToBalanced,
      Accessors.totalLength, Accessors.edgeCount, mul_sum (range G.m) x,
      ← sum_sub_distrib, neg_mul, ← sub_eq_add_neg, ← mul_sub, ← sum_sub_distrib]
    congr 1
    refine sum_congr rfl fun e _ => ?_
    ring
  | bigraphToDigraph G =>
    refine ⟨0, fun x feasible artificial => ?_⟩
    have nonneg : ∀ e, e < G.m → 0 ≤ x e := fun e low =>
      (undirected.lcap_nonneg e low).trans (feasible.capacities e low).1
    change (BigraphToDigraph.network G _).weight _ = 1 * (G.totalLength x - _ * G.edgeCount x) + _
    rw [BigraphToDigraph.weight_flow nonneg, add_zero, one_mul, Accessors.totalLength,
      Accessors.edgeCount, mul_sum (range G.m) x, ← sum_sub_distrib]
    refine sum_congr rfl fun e _ => ?_
    change x e * (_ - (bigraphToDigraph G).minLength) = _
    ring

/-- **When a matching reduction preserves costs.** -/
theorem preservesCosts_iff (undirected : R.graph.Undirected) : R.PreservesCosts lower cap S ↔
    (∀ e, e < R.graph.m → 0 ≤ R.graph.length (2 * e)) ∨
      ∀ x y, R.graph.DegreeConstrained lower cap S x → R.graph.DegreeConstrained lower cap S y →
        R.graph.edgeCount x = R.graph.edgeCount y := by
  obtain ⟨c, weight⟩ := @flowWeight_eq R lower cap S undirected
  have shift := least_length_eq_zero_iff (fun e => R.graph.length (2 * e)) R.graph.m
  have factor_pos : 0 < R.factor := by
    cases R <;> norm_num [factor]
  constructor
  · rintro ⟨differences, -⟩
    by_cases unshifted : R.minLength = 0
    · exact .inl (shift.mp unshifted)
    · refine .inr fun x y feasibleX feasibleY => ?_
      have difference := differences x y feasibleX feasibleY 0 0
      rw [weight x feasibleX, weight y feasibleY] at difference
      have counted : R.factor * R.minLength * (R.graph.edgeCount x - R.graph.edgeCount y) = 0 := by
        linarith
      have nonzero := mul_ne_zero factor_pos.ne' unshifted
      exact sub_eq_zero.mp ((mul_eq_zero.mp counted).resolve_left nonzero)
  · intro harmless
    have counted : ∀ x y, R.graph.DegreeConstrained lower cap S x →
        R.graph.DegreeConstrained lower cap S y →
          R.minLength * R.graph.edgeCount x = R.minLength * R.graph.edgeCount y := by
      intro x y feasibleX feasibleY
      rcases harmless with nonneg | same
      · rw [show R.minLength = 0 from shift.mpr nonneg, zero_mul, zero_mul]
      · rw [same x y feasibleX feasibleY]
    have differences : ∀ x y, R.graph.DegreeConstrained lower cap S x →
        R.graph.DegreeConstrained lower cap S y → ∀ artificial artificial',
          R.flowWeight lower cap x artificial - R.flowWeight lower cap y artificial' =
            R.factor * (R.graph.totalLength x - R.graph.totalLength y) := by
      intro x y feasibleX feasibleY artificial artificial'
      rw [weight x feasibleX, weight y feasibleY, counted x y feasibleX feasibleY]
      ring
    refine ⟨differences, fun x feasibleX artificial => forall₂_congr fun y feasibleY => ?_⟩
    constructor
    · intro least
      have difference := differences x y feasibleX feasibleY artificial 0
      have := least 0
      have scaled : R.factor * (R.graph.totalLength x - R.graph.totalLength y) ≤ 0 := by linarith
      have := nonpos_of_mul_nonpos_right scaled factor_pos
      linarith
    · intro shorter artificial'
      have difference := differences x y feasibleX feasibleY artificial artificial'
      have scaled := mul_nonpos_of_nonneg_of_nonpos factor_pos.le (sub_nonpos.mpr shorter)
      linarith

/-! ## A negative edge -/

/-- A bigraph that consists of one edge of the given length. -/
def oneEdge (length : ℚ) : BigraphAccessors where
  n := 2
  m := 1
  startNode a := if a < 2 then some a else none
  first v := if v < 2 then some v else none
  right a _ := if a < 2 then some a else none
  ucap _ := 1
  lcap _ := 0
  length _ := length
  n1 := 1
  n2 := 1
  parts := rfl

theorem oneEdge_undirected (finite : length ≠ infFloat) : (oneEdge length).Undirected :=
  ⟨⟨fun _ _ => rfl, fun _ _ => rfl, fun _ _ => rfl⟩, fun _ _ => le_rfl, fun _ _ => finite⟩

theorem oneEdge_feasible {x : ℚ} (zero_or_one : x = 0 ∨ x = 1) :
    (oneEdge length).DegreeConstrained (fun _ => 0) (fun _ => 1) {0, 1} fun _ => x := by
  have degree : ∀ v, v < 2 → (oneEdge length).degree (fun _ => x) v = x := by
    intro v low
    have single : (range (2 * (oneEdge length).m)).filter
        (fun a => (oneEdge length).startNode a = some v) = {v} := by
      interval_cases v <;> rfl
    rw [Accessors.degree, single, sum_singleton]
  refine ⟨fun e _ => zero_or_one, fun e _ => ?_, fun v low => ?_⟩
  · change 0 ≤ x ∧ x ≤ 1
    rcases zero_or_one with rfl | rfl <;> norm_num
  · rw [degree v low]
    rcases zero_or_one with rfl | rfl <;> norm_num

/-- An edge of length -1 that may be chosen or not: both flows have weight 0. -/
theorem negative_edge_not_preserved :
    ¬ (MatchingReduction.graphToBalanced (oneEdge (-1)).toAccessors).PreservesCosts
        (fun _ => 0) (fun _ => 1) {0, 1} ∧
      ¬ (MatchingReduction.bigraphToDigraph (oneEdge (-1))).PreservesCosts
        (fun _ => 0) (fun _ => 1) {0, 1} := by
  constructor
  · rintro ⟨differences, -⟩
    have difference := differences _ _ (oneEdge_feasible (.inl rfl)) (oneEdge_feasible (.inr rfl))
      (fun _ => 0) (fun _ => 0)
    revert difference
    decide +kernel
  · rintro ⟨differences, -⟩
    have difference := differences _ _ (oneEdge_feasible (.inl rfl)) (oneEdge_feasible (.inr rfl))
      (fun _ => 0) (fun _ => 0)
    revert difference
    decide +kernel

/-- With non-negative lengths the costs are preserved. -/
theorem positive_edge_preserved :
    (MatchingReduction.graphToBalanced (oneEdge 1).toAccessors).PreservesCosts
        (fun _ => 0) (fun _ => 1) {0, 1} ∧
      (MatchingReduction.bigraphToDigraph (oneEdge 1)).PreservesCosts
        (fun _ => 0) (fun _ => 1) {0, 1} := by
  have finite : (1 : ℚ) ≠ infFloat := by norm_num [infFloat]
  have nonneg : ∀ e, e < 1 → (0 : ℚ) ≤ (oneEdge 1).length (2 * e) := fun e _ => zero_le_one
  exact ⟨(preservesCosts_iff (R := .graphToBalanced (oneEdge 1).toAccessors)
      (oneEdge_undirected finite)).mpr (.inl nonneg),
    (preservesCosts_iff (R := .bigraphToDigraph (oneEdge 1)) (oneEdge_undirected finite)).mpr
      (.inl nonneg)⟩

end MatchingReduction

end Goblin
