import Goblin.Augment

/-!
# The capacity of an edge cut

`CutCapacity` adds up the capacities of the arcs that lead from the nodes whose distance label is
below `separator` to the other ones. An undirected edge can be traversed both ways, and the loop
over all arc indices shall count it once. It does so by counting even indices only. Hence an
undirected edge counts if it is stored in the direction from the first side to the second, and it
does not if it is stored the other way round. The result is the capacity of the cut if and only if
all edges of the second kind have capacity zero (`cutCapacity_counts_iff`).
-/

set_option autoImplicit false

namespace Goblin

open Library Finset

namespace MixedGraph

variable {n m : ℕ} (G : MixedGraph n m)

/-- The condition of the loop in `CutCapacity`. -/
def inCut (dist : Fin n → ℚ) (separator : ℚ) (a : Arc m) : Bool :=
  decide (dist (G.startNode a) < separator) && decide (separator ≤ dist (G.endNode a)) &&
    !G.blocking a && (G.blocking a.rev || !a.back)

def cutCapacity (dist : Option (Fin n → ℚ)) (separator : ℚ) : Except Raise ℚ :=
  match dist with
  | none => .error (.check "CutCapacity" "No edge cut specified")
  | some dist => .ok ((arcs m).foldl
      (fun sCap a => if G.inCut dist separator a then sCap + G.ucap a.edge else sCap) 0)

/-! ## The cut -/

/-- The arc leads from a label below `separator` to a label which is not. -/
def Leaves (dist : Fin n → ℚ) (separator : ℚ) (a : Arc m) : Prop :=
  dist (G.startNode a) < separator ∧ separator ≤ dist (G.endNode a)

instance (dist : Fin n → ℚ) (separator : ℚ) (a : Arc m) : Decidable (G.Leaves dist separator a) :=
  inferInstanceAs (Decidable (_ ∧ _))

section

variable (dist : Fin n → ℚ) (separator : ℚ) (e : Fin m)

/-- The edge can be traversed from the first side to the second. -/
def Crosses : Prop :=
  ∃ a : Arc m, a.edge = e ∧ G.blocking a = false ∧ G.Leaves dist separator a

/-- The edge is undirected, and stored from the second side to the first. -/
def StoredBackwards : Prop :=
  G.orientation e = false ∧ G.Leaves dist separator ⟨e, true⟩

end

variable {G} {dist : Fin n → ℚ} {separator : ℚ} {e : Fin m}

theorem crosses_iff : G.Crosses dist separator e ↔
    G.Leaves dist separator ⟨e, false⟩ ∨ G.StoredBackwards dist separator e := by
  constructor
  · rintro ⟨⟨e, back⟩, rfl, free, leaves⟩
    cases back with
    | false => exact .inl leaves
    | true => exact .inr ⟨by simpa [blocking] using free, leaves⟩
  · rintro (leaves | ⟨undirected, leaves⟩)
    · exact ⟨⟨e, false⟩, rfl, by simp [blocking], leaves⟩
    · exact ⟨⟨e, true⟩, rfl, by simp [blocking, undirected], leaves⟩

instance : Decidable (G.StoredBackwards dist separator e) :=
  inferInstanceAs (Decidable (_ ∧ _))

instance : Decidable (G.Crosses dist separator e) :=
  decidable_of_iff (_ ∨ _) crosses_iff.symm

theorem StoredBackwards.not_leaves (backwards : G.StoredBackwards dist separator e) :
    ¬ G.Leaves dist separator ⟨e, false⟩ := fun leaves =>
  absurd leaves.1 (not_lt.2 backwards.2.2)

/-! ## The loop -/

/-- An even index counts if it leads from the first side to the second. -/
theorem inCut_forward : G.inCut dist separator ⟨e, false⟩ = true ↔
    G.Leaves dist separator ⟨e, false⟩ := by
  simp only [inCut, blocking, Bool.and_false, Bool.not_false, Bool.and_true, Bool.or_true,
    Bool.and_eq_true, decide_eq_true_eq]
  exact Iff.rfl

/-- An odd index does not count: the arc is blocking if the reverse arc is, and otherwise the
parity excludes it. -/
theorem inCut_backward : G.inCut dist separator ⟨e, true⟩ = false := by
  simp [inCut, blocking]

theorem foldl_inCut (l : List (Fin m)) (x : ℚ) :
    (l.flatMap fun e => [(⟨e, false⟩ : Arc m), ⟨e, true⟩]).foldl
        (fun sCap a => if G.inCut dist separator a then sCap + G.ucap a.edge else sCap) x =
      x + (l.map fun e => if G.Leaves dist separator ⟨e, false⟩ then G.ucap e else 0).sum := by
  induction l generalizing x with
  | nil => exact (add_zero x).symm
  | cons e l ih =>
    rw [List.flatMap_cons, List.foldl_append, ih, List.map_cons, List.sum_cons, ← add_assoc]
    congr 1
    simp only [List.foldl_cons, List.foldl_nil, inCut_backward, Bool.false_eq_true, if_false]
    by_cases leaves : G.Leaves dist separator ⟨e, false⟩
    · rw [if_pos (inCut_forward.2 leaves), if_pos leaves]
    · rw [if_neg (fun counts => leaves (inCut_forward.1 counts)), if_neg leaves, add_zero]

theorem cutCapacity_eq : G.cutCapacity (some dist) separator =
    .ok (∑ e, if G.Leaves dist separator ⟨e, false⟩ then G.ucap e else 0) := by
  rw [cutCapacity, arcs, foldl_inCut, zero_add, ← List.ofFn_eq_map, List.sum_ofFn]

/-- The edges that can be traversed are those which the loop counts, and those which are stored
backwards. -/
theorem crossing_capacity : ∑ e with G.Crosses dist separator e, G.ucap e =
    (∑ e, if G.Leaves dist separator ⟨e, false⟩ then G.ucap e else 0) +
      ∑ e with G.StoredBackwards dist separator e, G.ucap e := by
  rw [sum_filter, sum_filter, ← sum_add_distrib]
  apply sum_congr rfl
  intro e _
  by_cases backwards : G.StoredBackwards dist separator e
  · rw [if_pos (crosses_iff.2 (.inr backwards)), if_neg backwards.not_leaves, if_pos backwards,
      zero_add]
  · rw [if_neg backwards, add_zero]
    exact if_congr (crosses_iff.trans (or_iff_left backwards)) rfl rfl

/-! ## The result -/

/-- **`CutCapacity` returns the capacity of the edges that can be traversed from the first side to
the second, if and only if the undirected edges which are stored from the second side to the first
have capacity zero.** -/
theorem cutCapacity_counts_iff {n m : ℕ} (G : MixedGraph n m) (dist : Fin n → ℚ) (separator : ℚ) :
    G.cutCapacity (some dist) separator = .ok (∑ e with G.Crosses dist separator e, G.ucap e) ↔
      ∀ e, G.StoredBackwards dist separator e → G.ucap e = 0 := by
  have lost : ∀ e ∈ Finset.univ.filter (fun e => G.StoredBackwards dist separator e),
      0 ≤ G.ucap e := fun e _ => G.ucap_nonneg e
  rw [cutCapacity_eq, crossing_capacity, Except.ok.injEq, left_eq_add,
    sum_eq_zero_iff_of_nonneg lost]
  apply forall_congr'
  intro e
  rw [mem_filter_univ]

/-- An undirected edge of capacity one, stored from the node with label `1` to the node with
label `0`. -/
def backwardEdge : MixedGraph 2 1 :=
  MixedGraph.ofArcs ![1] ![0] ![false] ![1] ![0] ![0] ![0, 0]

/-- It can be traversed from the first side to the second, but it is not counted. -/
theorem cutCapacity_backwardEdge :
    backwardEdge.Crosses (fun v => (v.val : ℚ)) 1 0 ∧ backwardEdge.ucap 0 = 1 ∧
      backwardEdge.cutCapacity (some fun v => (v.val : ℚ)) 1 = .ok 0 := by
  decide +kernel

end MixedGraph

end Goblin
