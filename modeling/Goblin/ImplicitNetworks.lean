import Goblin.BalancedToBalanced
import Goblin.BigraphToDigraph
import Goblin.DigraphToDigraph
import Goblin.GraphToBalanced

/-!
# Implicit networks of sparse graphs

A sparse graph answers `StartNode`, `First` and `Right` from its arrays. The networks that are
put on top of it have consistent incidence lists, with two exceptions: A node that is isolated in
a digraph has no first arc in its `digraphToDigraph`, although two artificial arcs leave it. And
the lists of a `balancedToBalanced` break if the original network has no arcs at all.
-/

set_option autoImplicit false

namespace Goblin

open Library
open BalancedToBalanced (Members PredecessorLabels construct lists_iff)

/-! ## Sparse graphs -/

/-- A sparse graph without cancelled arcs, and the labels of its arcs. -/
structure SparseObject where
  st : SparseState
  nodes : ℕ
  maxNode : ℕ
  maxArc : ℕ
  reach : SparseReach nodes maxNode maxArc st
  complete : ∀ a, a < 2 * st.mAct → st.startNode a ≠ none
  pos : 0 < st.nAct
  ucap : ℕ → ℚ
  lcap : ℕ → ℚ
  length : ℕ → ℚ

namespace SparseObject

variable (X : SparseObject)

/-- The methods of a sparse graph. -/
def accessors : Accessors := X.st.accessors X.ucap X.lcap X.length

variable {X}

theorem consistent (limit : 2 * X.st.mAct + 2 ≤ noArc) : X.accessors.Consistent :=
  (SparseState.reach_sound X.reach).consistent X.complete limit

theorem symmetric : X.accessors.Symmetric := SparseState.accessors_symmetric

end SparseObject

/-! ## The networks -/

/-- A network on top of a sparse graph, and what its constructor is called with. -/
inductive ImplicitNetwork where
  | graphToBalanced (X : SparseObject) (pLower pCap : Option (ℕ → ℚ)) (ccap : ℚ)
  | bigraphToDigraph (X : SparseObject) (n1 n2 : ℕ) (parts : X.st.nAct = n1 + n2)
      (pos1 : 0 < n1) (pos2 : 0 < n2) (pLower pCap : Option (ℕ → ℚ)) (ccap : ℚ)
  | digraphToDigraph (X : SparseObject) (L : DigraphToDigraph.Labels)
  | balancedToBalanced (X : SparseObject) (balanced : X.accessors.Balanced) (pi : ℕ → ℚ)
      (Q : ℕ → ℕ) (labels : PredecessorLabels X.accessors Q) (flow : ℕ → ℚ)
      (M : Members)
      (built : ∃ fuel, construct X.accessors pi Q flow fuel = some M)

namespace ImplicitNetwork

/-- The network as its methods present it. -/
def network : ImplicitNetwork → Accessors
  | graphToBalanced X pLower pCap ccap =>
    GraphToBalanced.network X.accessors (GraphToBalanced.init X.accessors pLower pCap ccap)
  | bigraphToDigraph X n1 n2 parts _ _ pLower pCap ccap =>
    BigraphToDigraph.network ⟨X.accessors, n1, n2, parts⟩
      (BigraphToDigraph.init ⟨X.accessors, n1, n2, parts⟩ pLower pCap ccap)
  | digraphToDigraph X L => DigraphToDigraph.network X.accessors L
  | balancedToBalanced X _ _ _ _ _ M _ => BalancedToBalanced.network X.accessors M

/-- The number of arcs when the limits are checked. The artificial arcs of the odd cycles are
not known then. -/
def checkedArcs : ImplicitNetwork → ℕ
  | balancedToBalanced X .. => X.st.mAct + 6
  | N => N.network.m

/-- `CheckLimits` of the constructor does not raise. -/
def Admitted (N : ImplicitNetwork) : Prop :=
  2 * N.checkedArcs + 2 ≤ noArc

/-- The networks of balanced flows. -/
def IsBalanced : ImplicitNetwork → Prop
  | graphToBalanced .. => True
  | balancedToBalanced .. => True
  | _ => False

/-- The incidence lists are consistent, and complements of balanced networks match. -/
def Regular (N : ImplicitNetwork) : Prop :=
  (∀ v, v < N.network.n → N.network.ListsAt v) ∧ (N.IsBalanced → N.network.Complementary)

/-- A digraph has no isolated node, and a balanced network has an arc. -/
def Covered : ImplicitNetwork → Prop
  | digraphToDigraph X _ =>
    ∀ v, v < X.st.nAct → ∃ a, a < 2 * X.st.mAct ∧ X.st.startNode a = some v
  | balancedToBalanced X .. => 0 < X.st.mAct
  | _ => True

/-- **When the incidence lists of an implicit network are consistent.** -/
theorem regular_iff_covered (N : ImplicitNetwork) (admitted : N.Admitted) :
    N.Regular ↔ N.Covered := by
  cases N with
  | graphToBalanced X pLower pCap ccap =>
    have bound : 2 * (2 * (X.st.mAct + 2 * X.st.nAct + 3)) + 2 ≤ noArc := admitted
    have consistent := X.consistent (by omega)
    refine iff_of_true ⟨fun v low => ?_, fun _ => ?_⟩ trivial
    · exact GraphToBalanced.lists consistent X.pos low
    · exact GraphToBalanced.complementary X.symmetric
  | bigraphToDigraph X n1 n2 parts pos1 pos2 pLower pCap ccap =>
    have bound : 2 * (X.st.mAct + 2 * X.st.nAct + 4) + 2 ≤ noArc := admitted
    have consistent := X.consistent (by omega)
    refine iff_of_true ⟨fun v low => ?_, fun isBalanced => isBalanced.elim⟩ trivial
    exact BigraphToDigraph.lists (G := ⟨X.accessors, n1, n2, parts⟩) consistent pos1 pos2 low
  | digraphToDigraph X L =>
    have bound : 2 * (X.st.mAct + 2 * X.st.nAct + 1) + 2 ≤ noArc := admitted
    have consistent := X.consistent (by omega)
    have same := DigraphToDigraph.lists_iff (L := L) consistent admitted X.pos
    refine Iff.trans ⟨fun regular => regular.1, fun lists => ⟨lists, fun no => no.elim⟩⟩
      (same.trans ?_)
    refine forall_congr' fun v => imp_congr_right fun _ => exists_congr fun a => ?_
    refine and_congr_right fun low => ?_
    rw [show X.accessors.startNode a = X.st.startNode a from if_pos low]
  | balancedToBalanced X balanced pi Q labels flow M built =>
    have bound : 2 * (X.st.mAct + 6) + 2 ≤ noArc := admitted
    have consistent := X.consistent (by omega)
    obtain ⟨fuel, built⟩ := built
    have represented :=
      BalancedToBalanced.construct_represented consistent balanced labels built
    have same := lists_iff represented consistent balanced
    exact Iff.trans ⟨fun regular => regular.1, fun lists => ⟨lists, fun _ =>
      BalancedToBalanced.complementary represented balanced⟩⟩ same

/-! ## The exceptions -/

/-- A digraph with one node and without arcs. -/
def isolatedNode : SparseObject where
  st := .new 1 100 100
  nodes := 1
  maxNode := 100
  maxArc := 100
  reach := .start
  complete a low := by
    change a < 2 * 0 at low
    omega
  pos := by decide
  ucap _ := 0
  lcap _ := 0
  length _ := 0

/-- The network of a digraph with an isolated node: Its two artificial arcs are not found from
`First`. -/
theorem isolated_not_regular : Admitted (digraphToDigraph isolatedNode ⟨fun _ => 0, none⟩) ∧
      (network (digraphToDigraph isolatedNode ⟨fun _ => 0, none⟩)).first 0 = some noArc ∧
      (network (digraphToDigraph isolatedNode ⟨fun _ => 0, none⟩)).startNode 1 = some 0 ∧
      ¬ Regular (digraphToDigraph isolatedNode ⟨fun _ => 0, none⟩) := by
  refine ⟨?_, by decide, by decide, fun regular => ?_⟩
  · change 2 * 3 + 2 ≤ noArc
    decide
  refine DigraphToDigraph.not_lists_isolated (isolatedNode.consistent (by decide)) (by decide)
    (v := 0) (by decide) ?_ (regular.1 0 (by decide))
  intro a low
  change a < 2 * 0 at low
  omega

/-- Two parallel arcs between complementary nodes. They are an odd cycle. -/
def oddCycleState : SparseState :=
  ((SparseState.new 2 100 100).insertArc 0 1 >>= fun st => st.insertArc 0 1).toOption.getD
    (.new 2 100 100)

def oddCycle : SparseObject where
  st := oddCycleState
  nodes := 2
  maxNode := 100
  maxArc := 100
  reach := .step (.insertArc 0 1) (.step (.insertArc 0 1) .start (by decide) rfl) (by decide) rfl
  complete := by decide
  pos := by decide
  ucap _ := 1
  lcap _ := 0
  length _ := 0

theorem oddCycle_balanced : oddCycle.accessors.Balanced :=
  ⟨by decide, by decide, by decide, fun _ _ => rfl, fun _ _ => rfl⟩

/-- The labels of the odd cycle. -/
def oddCycleLabels (v : ℕ) : ℕ := if v = 0 then 3 else if v = 1 then 0 else noArc

theorem oddCycle_labels : PredecessorLabels oddCycle.accessors oddCycleLabels := by
  intro v low
  change oddCycleLabels v < 4 at low
  rw [oddCycleLabels] at low ⊢
  split_ifs at low ⊢ with first second
  · subst first
    decide
  · subst second
    decide
  · exact absurd low (by decide)

/-- The network that cancels the odd cycle. -/
def oddCycleMembers : Members :=
  (construct oddCycle.accessors (fun _ => 0) oddCycleLabels
    (fun _ => 1 / 2) 5).get (by decide +kernel)

theorem regular_oddCycle : oddCycleMembers.k2 = 1 ∧ ∃ N : ImplicitNetwork,
    N.network = BalancedToBalanced.network oddCycle.accessors oddCycleMembers ∧ N.Admitted ∧
      (N.Regular ↔ N.Covered) ∧ N.Regular := by
  have built := (Option.some_get (x := construct oddCycle.accessors
    (fun _ => 0) oddCycleLabels (fun _ => 1 / 2) 5) (by decide +kernel)).symm
  have same := regular_iff_covered (balancedToBalanced oddCycle oddCycle_balanced (fun _ => 0)
    oddCycleLabels oddCycle_labels (fun _ => 1 / 2) oddCycleMembers ⟨5, built⟩)
    (by change 2 * (2 + 6) + 2 ≤ noArc; decide)
  exact ⟨by decide +kernel, _, rfl, by change 2 * (2 + 6) + 2 ≤ noArc; decide, same,
    same.mpr (by change 0 < 2; decide)⟩

end ImplicitNetwork

end Goblin
