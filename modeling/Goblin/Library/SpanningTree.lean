import Goblin.Library.Network

/-!
# Spanning trees

The nodes of a network are joined by a set of edges if these edges lead from one to the other, in
either direction. A spanning tree joins all nodes, and none of its edges is redundant.

A greedy procedure collects edges one at a time. Its edges are *promising* as long as some
spanning tree of minimum weight contains them all. `Promising.grow` is the cut rule: an edge of
minimum weight among those that leave a set of nodes may be added if none of the former edges
leaves this set. `Transversal` counts the components on the way.
-/

set_option autoImplicit false

namespace Goblin.Library

open Finset Relation
universe u v w

variable {V : Type v} {E : Type u} {N : Network V E} {S S' : Set E} {C : Set V} {e f : E}
  {x y z : V}

/-! ## Linked nodes -/

section

variable (N : Network V E)

/-- The edges of the set connect the nodes. -/
def Linked (S : Set E) : V → V → Prop :=
  EqvGen fun x y => ∃ e ∈ S, N.tail e = x ∧ N.head e = y

/-- Every two nodes are connected. -/
def Connects (S : Set E) : Prop := ∀ x y, Linked N S x y

/-- The edge leaves the set of nodes, or it enters it. -/
def Crosses (C : Set V) (e : E) : Prop := ¬ (N.tail e ∈ C ↔ N.head e ∈ C)

end

namespace Linked

theorem refl (x : V) : Linked N S x x := EqvGen.refl x

theorem symm (joined : Linked N S x y) : Linked N S y x := EqvGen.symm _ _ joined

theorem trans (first : Linked N S x y) (second : Linked N S y z) : Linked N S x z :=
  EqvGen.trans _ _ _ first second

theorem edge (mem : e ∈ S) : Linked N S (N.tail e) (N.head e) :=
  .rel _ _ ⟨e, mem, rfl, rfl⟩

/-- An equivalence that relates the ends of all edges relates all joined nodes. -/
theorem rec {R : V → V → Prop} (equivalence : Equivalence R)
    (ends : ∀ e ∈ S, R (N.tail e) (N.head e)) (joined : Linked N S x y) : R x y := by
  induction joined with
  | rel x y pair =>
    obtain ⟨e, mem, rfl, rfl⟩ := pair
    exact ends e mem
  | refl x => exact equivalence.refl x
  | symm x y _ ih => exact equivalence.symm ih
  | trans x y z _ _ first second => exact equivalence.trans first second

theorem equivalence (N : Network V E) (S : Set E) : Equivalence (Linked N S) :=
  ⟨refl, symm, trans⟩

theorem mono (joined : Linked N S x y) (subset : S ⊆ S') : Linked N S' x y :=
  joined.rec (equivalence N S') fun _ mem => .edge (subset mem)

theorem mem_iff (joined : Linked N S x y) (closed : ∀ e ∈ S, ¬ Crosses N C e) : x ∈ C ↔ y ∈ C :=
  joined.rec (R := fun x y => x ∈ C ↔ y ∈ C) ⟨fun _ => Iff.rfl, Iff.symm, Iff.trans⟩
    fun e mem => not_not.1 (closed e mem)

theorem eq_of_empty (joined : Linked N ∅ x y) : x = y :=
  joined.rec (R := Eq) ⟨fun _ => rfl, Eq.symm, Eq.trans⟩ fun _ mem => absurd mem (by simp)

end Linked

/-- The nodes are joined through the ends of the edge, in one direction or the other. -/
def LinkedVia (N : Network V E) (S : Set E) (e : E) (x y : V) : Prop :=
  (Linked N S x (N.tail e) ∧ Linked N S (N.head e) y) ∨
    (Linked N S x (N.head e) ∧ Linked N S (N.tail e) y)

theorem LinkedVia.symm (joined : LinkedVia N S e x y) : LinkedVia N S e y x := by
  rcases joined with ⟨first, second⟩ | ⟨first, second⟩
  · exact .inr ⟨second.symm, first.symm⟩
  · exact .inl ⟨second.symm, first.symm⟩

theorem linked_insert : Linked N (insert e S) x y ↔ Linked N S x y ∨ LinkedVia N S e x y := by
  constructor
  · intro joined
    refine joined.rec (R := fun x y => Linked N S x y ∨ LinkedVia N S e x y) ⟨?_, ?_, ?_⟩ ?_
    · exact fun x => .inl (.refl x)
    · exact fun related => related.imp .symm .symm
    · rintro x y z (first | ⟨first, first'⟩ | ⟨first, first'⟩)
        (second | ⟨second, second'⟩ | ⟨second, second'⟩)
      · exact .inl (first.trans second)
      · exact .inr (.inl ⟨first.trans second, second'⟩)
      · exact .inr (.inr ⟨first.trans second, second'⟩)
      · exact .inr (.inl ⟨first, first'.trans second⟩)
      · exact .inr (.inl ⟨first, second'⟩)
      · exact .inl (first.trans second')
      · exact .inr (.inr ⟨first, first'.trans second⟩)
      · exact .inl (first.trans second')
      · exact .inr (.inr ⟨first, second'⟩)
    · rintro f (rfl | mem)
      · exact .inr (.inl ⟨.refl _, .refl _⟩)
      · exact .inl (.edge mem)
  · have larger : S ⊆ insert e S := Set.subset_insert e S
    have across : Linked N (insert e S) (N.tail e) (N.head e) := .edge (Set.mem_insert e S)
    rintro (joined | ⟨first, second⟩ | ⟨first, second⟩)
    · exact joined.mono larger
    · exact ((first.mono larger).trans across).trans (second.mono larger)
    · exact ((first.mono larger).trans across.symm).trans (second.mono larger)

/-! ## Spanning trees -/

/-- The edges connect all nodes, and no edge lies on a cycle of edges of the tree. -/
structure SpanningTree (N : Network V E) (T : Set E) : Prop where
  connects : Connects N T
  acyclic : ∀ e ∈ T, ¬ Linked N (T \ {e}) (N.tail e) (N.head e)

/-- An edge that is replaced by an edge between the parts that it connects leaves a spanning
tree. `R` are the edges of the two ways from `e` to `f`. -/
theorem SpanningTree.replace {T : Set E} (tree : SpanningTree N T) (mem : f ∈ T) {R : Set E}
    (within : R ⊆ T \ {f}) (apart : ¬ Linked N R (N.tail e) (N.head e))
    (joined : Linked N (insert f R) (N.tail e) (N.head e)) :
    SpanningTree N (insert e (T \ {f})) := by
  have ways : LinkedVia N (T \ {f}) f (N.tail e) (N.head e) := by
    rcases linked_insert.1 joined with early | via
    · exact absurd early apart
    · exact via.imp (And.imp (·.mono within) (·.mono within))
        (And.imp (·.mono within) (·.mono within))
  have separate : ¬ Linked N (T \ {f}) (N.tail e) (N.head e) := by
    intro short
    refine tree.acyclic f mem ?_
    rcases ways with ⟨first, second⟩ | ⟨first, second⟩
    · exact (first.symm.trans short).trans second.symm
    · exact second.trans (short.symm.trans first)
  refine ⟨fun x y => ?_, ?_⟩
  · -- the ends of `f` are joined by the way through `e`
    refine (tree.connects x y).rec (Linked.equivalence N _) fun g present => ?_
    by_cases isF : g = f
    · subst isF
      rw [linked_insert]
      rcases ways with ⟨first, second⟩ | ⟨first, second⟩
      · exact .inr (.inl ⟨first.symm, second.symm⟩)
      · exact .inr (.inr ⟨second, first⟩)
    · exact .edge (Set.mem_insert_of_mem e ⟨present, isF⟩)
  · rintro g (rfl | ⟨present, notF⟩) joined
    · exact separate (joined.mono fun h ⟨inserted, other⟩ => inserted.resolve_left other)
    · by_cases isE : g = e
      · subst isE
        exact separate (.edge ⟨present, notF⟩)
      have smaller : insert e (T \ {f}) \ {g} ⊆ insert e ((T \ {f}) \ {g}) := by
        rintro h ⟨rfl | old, other⟩
        · exact Set.mem_insert h _
        · exact Set.mem_insert_of_mem e ⟨old, other⟩
      have kept : (T \ {f}) \ {g} ⊆ T \ {f} := Set.sdiff_subset
      have across : Linked N (T \ {f}) (N.tail g) (N.head g) := .edge ⟨present, notF⟩
      rcases linked_insert.1 (joined.mono smaller) with short | ⟨first, second⟩ | ⟨first, second⟩
      · exact tree.acyclic g present (short.mono fun h ⟨⟨old, _⟩, other⟩ => ⟨old, other⟩)
      · exact separate ((first.mono kept).symm.trans (across.trans (second.mono kept).symm))
      · exact separate ((second.mono kept).trans (across.symm.trans (first.mono kept)))

section Finite

variable [DecidableEq E] {T : Finset E}

theorem exists_needed (joined : Linked N (T : Set E) x y) (cut : ¬ (x ∈ C ↔ y ∈ C)) :
    ∃ f ∈ T, Crosses N C f ∧ ∃ R ⊆ (T : Set E) \ {f}, ¬ Linked N R x y ∧
      Linked N (insert f R) x y := by
  induction T using strongInduction with
  | H T ih =>
    by_cases none : ∀ f ∈ T, ¬ Crosses N C f
    · exact absurd (joined.mem_iff none) cut
    push Not at none
    obtain ⟨f, mem, crosses⟩ := none
    by_cases still : Linked N ((T.erase f : Finset E) : Set E) x y
    · obtain ⟨g, mem', crosses', R, within, apart, via⟩ :=
        ih _ (erase_ssubset mem) still
      refine ⟨g, mem_of_mem_erase mem', crosses', R, ?_, apart, via⟩
      exact within.trans (Set.sdiff_subset_sdiff_left (by simp))
    · rw [coe_erase] at still
      refine ⟨f, mem, crosses, _, Set.Subset.rfl, still, ?_⟩
      rwa [Set.insert_sdiff_singleton, Set.insert_eq_of_mem (mem_coe.2 mem)]

theorem SpanningTree.exchange (tree : SpanningTree N (T : Set E)) (crosses : Crosses N C e) :
    ∃ f ∈ T, Crosses N C f ∧ SpanningTree N ((insert e (T.erase f) : Finset E) : Set E) := by
  obtain ⟨f, mem, crosses', R, within, apart, via⟩ :=
    exists_needed (tree.connects (N.tail e) (N.head e)) crosses
  refine ⟨f, mem, crosses', ?_⟩
  rw [coe_insert, coe_erase]
  exact tree.replace mem within apart via

/-! ## Minimum weight -/

variable {K : Type w} [AddCommGroup K] [LinearOrder K] [IsOrderedAddMonoid K] {A F : Finset E}
  {weight : E → K}

section

variable (N : Network V E) (A : Finset E) (weight : E → K)

/-- A spanning tree of minimum weight among those that consist of available edges. -/
structure MinimumTree (T : Finset E) : Prop where
  tree : SpanningTree N (T : Set E)
  available : T ⊆ A
  least : ∀ T' : Finset E, SpanningTree N (T' : Set E) → T' ⊆ A →
    ∑ e ∈ T, weight e ≤ ∑ e ∈ T', weight e

/-- The edges can be completed to a spanning tree of minimum weight. -/
def Promising (F : Finset E) : Prop :=
  ∃ T, MinimumTree N A weight T ∧ F ⊆ T

end

omit [DecidableEq E] in
theorem exists_spanningTree (connects : Connects N (A : Set E)) :
    ∃ T ⊆ A, SpanningTree N (T : Set E) := by
  classical
  induction A using strongInduction with
  | H A ih =>
    by_cases acyclic : ∀ e ∈ (A : Set E), ¬ Linked N ((A : Set E) \ {e}) (N.tail e) (N.head e)
    · exact ⟨A, Finset.Subset.refl A, connects, acyclic⟩
    push Not at acyclic
    obtain ⟨e, mem, redundant⟩ := acyclic
    have still : Connects N ((A.erase e : Finset E) : Set E) := by
      intro x y
      rw [coe_erase]
      refine (connects x y).rec (Linked.equivalence N _) fun f present => ?_
      by_cases isE : f = e
      · exact isE ▸ redundant
      · exact .edge ⟨present, isE⟩
    obtain ⟨T, subset, tree⟩ := ih _ (erase_ssubset mem) still
    exact ⟨T, subset.trans (erase_subset e A), tree⟩

omit [DecidableEq E] [IsOrderedAddMonoid K] in
theorem Promising.empty (connects : Connects N (A : Set E)) : Promising N A weight ∅ := by
  classical
  obtain ⟨T0, subset0, tree0⟩ := exists_spanningTree connects
  let trees := A.powerset.filter fun T : Finset E => SpanningTree N (T : Set E)
  have ne : trees.Nonempty := ⟨T0, by simp [trees, subset0, tree0]⟩
  obtain ⟨T, mem, least⟩ := trees.exists_min_image (fun T => ∑ e ∈ T, weight e) ne
  simp only [trees, mem_filter, mem_powerset] at mem least
  exact ⟨T, ⟨mem.2, mem.1, fun T' tree subset => least T' ⟨subset, tree⟩⟩, empty_subset T⟩

/-- **The cut rule.** An edge of minimum weight among those that cross a set of nodes may be
added, if no edge crosses this set so far. -/
theorem Promising.grow (promising : Promising N A weight F) (closed : ∀ f ∈ F, ¬ Crosses N C f)
    (available : e ∈ A) (crosses : Crosses N C e)
    (light : ∀ f ∈ A, Crosses N C f → weight e ≤ weight f) : Promising N A weight (insert e F) := by
  obtain ⟨T, minimum, subset⟩ := promising
  by_cases present : e ∈ T
  · exact ⟨T, minimum, insert_subset present subset⟩
  obtain ⟨f, mem, crosses', tree⟩ := minimum.tree.exchange crosses
  have lighter : weight e ≤ weight f := light f (minimum.available mem) crosses'
  have sum : ∑ g ∈ insert e (T.erase f), weight g ≤ ∑ g ∈ T, weight g := by
    rw [sum_insert fun old => present (mem_of_mem_erase old), ← add_sum_erase T weight mem]
    exact add_le_add_left lighter _
  refine ⟨_, ⟨tree, ?_, fun T' tree' subset' => sum.trans (minimum.least T' tree' subset')⟩, ?_⟩
  · exact insert_subset available ((erase_subset f T).trans minimum.available)
  · refine insert_subset_insert e fun g old => ?_
    refine mem_erase.2 ⟨?_, subset old⟩
    rintro rfl
    exact closed g old crosses'

omit [DecidableEq E] [IsOrderedAddMonoid K] in
theorem Promising.minimumTree (promising : Promising N A weight F)
    (connects : Connects N (F : Set E)) : MinimumTree N A weight F := by
  obtain ⟨T, minimum, subset⟩ := promising
  have all : T ⊆ F := by
    intro e mem
    by_contra missing
    refine minimum.tree.acyclic e mem ((connects _ _).mono fun f old => ⟨subset old, ?_⟩)
    rintro rfl
    exact missing old
  rw [subset.antisymm all]
  exact minimum

end Finite

/-! ## Components -/

/-- The nodes represent every component once. -/
structure Transversal (N : Network V E) (S : Set E) (R : Finset V) : Prop where
  covers : ∀ x, ∃ r ∈ R, Linked N S x r
  apart : ∀ r ∈ R, ∀ r' ∈ R, Linked N S r r' → r = r'

namespace Transversal

variable {R : Finset V}

theorem univ [Fintype V] : Transversal N ∅ Finset.univ :=
  ⟨fun x => ⟨x, mem_univ x, .refl x⟩, fun _ _ _ _ joined => joined.eq_of_empty⟩

/-- An edge between two components leaves one of them without a representative of its own. -/
theorem insert [DecidableEq V] (transversal : Transversal N S R)
    (apart : ¬ Linked N S (N.tail e) (N.head e)) :
    ∃ R', Transversal N (insert e S) R' ∧ R'.card + 1 = R.card := by
  obtain ⟨a, memberA, joinedA⟩ := transversal.covers (N.tail e)
  obtain ⟨b, memberB, joinedB⟩ := transversal.covers (N.head e)
  have eqA : ∀ r ∈ R, Linked N S (N.tail e) r → r = a := fun r mem joined =>
    transversal.apart r mem a memberA (joined.symm.trans joinedA)
  have eqB : ∀ r ∈ R, Linked N S (N.head e) r → r = b := fun r mem joined =>
    transversal.apart r mem b memberB (joined.symm.trans joinedB)
  have different : a ≠ b := by
    rintro rfl
    exact apart (joinedA.trans joinedB.symm)
  refine ⟨R.erase b, ⟨fun x => ?_, fun r mem r' mem' joined => ?_⟩,
    card_erase_add_one memberB⟩
  · obtain ⟨r, mem, joined⟩ := transversal.covers x
    by_cases isB : r = b
    · subst isB
      refine ⟨a, mem_erase.2 ⟨different, memberA⟩, linked_insert.2 (.inr (.inr ?_))⟩
      exact ⟨joined.trans joinedB.symm, joinedA⟩
    · exact ⟨r, mem_erase.2 ⟨isB, mem⟩, linked_insert.2 (.inl joined)⟩
  · obtain ⟨notB, mem⟩ := mem_erase.1 mem
    obtain ⟨notB', mem'⟩ := mem_erase.1 mem'
    rcases linked_insert.1 joined with eq | ⟨-, second⟩ | ⟨first, -⟩
    · exact transversal.apart r mem r' mem' eq
    · exact absurd (eqB r' mem' second) notB'
    · exact absurd (eqB r mem first.symm) notB

theorem card_eq_one_iff [Nonempty V] (transversal : Transversal N S R) :
    R.card = 1 ↔ Connects N S := by
  constructor
  · intro one x y
    obtain ⟨r, rfl⟩ := card_eq_one.1 one
    obtain ⟨a, memberA, joinedA⟩ := transversal.covers x
    obtain ⟨b, memberB, joinedB⟩ := transversal.covers y
    rw [mem_singleton] at memberA memberB
    subst memberA memberB
    exact joinedA.trans joinedB.symm
  · intro connects
    obtain ⟨r, mem, -⟩ := transversal.covers (Classical.arbitrary V)
    refine card_eq_one.2 ⟨r, eq_singleton_iff_unique_mem.2 ⟨mem, ?_⟩⟩
    exact fun r' mem' => transversal.apart r' mem' r mem (connects r' r)

end Transversal

end Goblin.Library
