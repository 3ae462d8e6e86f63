import Mathlib.Tactic

/-!
# Heap order

The positions of a heap are the numbers from 1 on; position `j` has the parent `j / 2`
and the children `2 * j` and `2 * j + 1`. A function on the positions is heap ordered
below `i` when it does not fall along the edges of the subtree of `i`
(`OrderedBelow`). Sifting down builds the order of a subtree from the order of its two
halves (`OrderedBelow.node`), and a subtree may be replaced by another one that respects
its parent (`OrderedBelow.graft`). Sifting up mends a single edge at a time (`OrderedUp`).
-/

set_option autoImplicit false

namespace Goblin.Library

universe u

variable {i j : ℕ}

/-! ## Subtrees -/

/-- The positions of the subtree of `i`. -/
inductive Below (i : ℕ) : ℕ → Prop
  | refl : Below i i
  | child {j : ℕ} (inner : 2 ≤ j) (parent : Below i (j / 2)) : Below i j

namespace Below

theorem le (below : Below i j) : i ≤ j := by
  induction below with
  | refl => exact le_refl i
  | child inner parent ih => omega

theorem parent_of_ne (below : Below i j) (ne : j ≠ i) : 2 ≤ j ∧ Below i (j / 2) := by
  cases below with
  | refl => exact absurd rfl ne
  | child inner parent => exact ⟨inner, parent⟩

theorem left {i : ℕ} (pos : 1 ≤ i) : Below i (2 * i) := by
  refine .child (by omega) ?_
  have half : 2 * i / 2 = i := by omega
  rw [half]
  exact .refl

theorem right {i : ℕ} (pos : 1 ≤ i) : Below i (2 * i + 1) := by
  refine .child (by omega) ?_
  have half : (2 * i + 1) / 2 = i := by omega
  rw [half]
  exact .refl

theorem trans {k : ℕ} (upper : Below i j) (lower : Below j k) : Below i k := by
  induction lower with
  | refl => exact upper
  | child inner parent ih => exact .child inner ih

/-- A position of a subtree is its root or in one of the two halves. -/
theorem halves (below : Below i j) : j = i ∨ Below (2 * i) j ∨ Below (2 * i + 1) j := by
  induction below with
  | refl => exact .inl rfl
  | @child j inner parent ih =>
    rcases ih with top | lower | lower
    · have position : j = 2 * i ∨ j = 2 * i + 1 := by omega
      rcases position with rfl | rfl
      · exact .inr (.inl .refl)
      · exact .inr (.inr .refl)
    · exact .inr (.inl (.child inner lower))
    · exact .inr (.inr (.child inner lower))

theorem disjoint (pos : 1 ≤ i) (left : Below (2 * i) j)
    (right : Below (2 * i + 1) j) : False := by
  induction left with
  | refl =>
    have := right.le
    omega
  | @child j inner parent ih =>
    by_cases top : j = 2 * i + 1
    · have := parent.le
      omega
    · exact ih (right.parent_of_ne top).2

theorem of_one (pos : 1 ≤ j) : Below 1 j := by
  induction j using Nat.strong_induction_on with
  | _ j ih =>
    by_cases top : j = 1
    · rw [top]
      exact .refl
    · exact .child (by omega) (ih (j / 2) (by omega) (by omega))

end Below

/-! ## Order below a position -/

section Order

variable {K : Type u} [LinearOrder K]

/-- The function does not fall along the edges of the subtree of `i` up to `m`. -/
def OrderedBelow (f : ℕ → K) (m i : ℕ) : Prop :=
  ∀ j, Below i j → j ≠ i → j ≤ m → f (j / 2) ≤ f j

variable {f g : ℕ → K} {m i : ℕ}

section

variable (ordered : OrderedBelow f m i)
include ordered

theorem OrderedBelow.root_le (below : Below i j) (low : j ≤ m) : f i ≤ f j := by
  induction below with
  | refl => exact le_refl _
  | @child j inner parent ih =>
    by_cases top : j = i
    · rw [top]
    · exact (ih (by omega)).trans (ordered j (.child inner parent) top low)

theorem OrderedBelow.congr (eq : ∀ j, Below i j → g j = f j) : OrderedBelow g m i := by
  intro j below ne low
  rw [eq j below, eq (j / 2) (below.parent_of_ne ne).2]
  exact ordered j below ne low

theorem OrderedBelow.mono {m' : ℕ} (shorter : m' ≤ m) : OrderedBelow f m' i :=
  fun j below ne low => ordered j below ne (low.trans shorter)

theorem OrderedBelow.sub (below : Below i j) : OrderedBelow f m j := by
  intro k lower ne low
  refine ordered k (below.trans lower) ?_ low
  have := below.le
  have := lower.le
  omega

end

/-- Two ordered halves below a position that is not above its children. -/
theorem OrderedBelow.node (left : OrderedBelow f m (2 * i)) (right : OrderedBelow f m (2 * i + 1))
    (leftLe : 2 * i ≤ m → f i ≤ f (2 * i)) (rightLe : 2 * i + 1 ≤ m → f i ≤ f (2 * i + 1)) :
    OrderedBelow f m i := by
  intro j below ne low
  rcases below.halves with top | lower | lower
  · exact absurd top ne
  · by_cases first : j = 2 * i
    · have half : j / 2 = i := by omega
      rw [half, first]
      exact leftLe (first ▸ low)
    · exact left j lower first low
  · by_cases first : j = 2 * i + 1
    · have half : j / 2 = i := by omega
      rw [half, first]
      exact rightLe (first ▸ low)
    · exact right j lower first low

/-- The subtree of `i` may be exchanged for an ordered one whose values are not below the
value of the parent of `i`. -/
theorem OrderedBelow.graft (ordered : OrderedBelow f m 1) (lower : OrderedBelow g m i)
    (eq : ∀ j, ¬ Below i j → g j = f j) (above : 2 ≤ i → f (i / 2) ≤ g i) :
    OrderedBelow g m 1 := by
  intro j below ne low
  by_cases inside : Below i j
  · by_cases top : j = i
    · have inner : 2 ≤ j := (below.parent_of_ne ne).1
      have out : ¬ Below i (j / 2) := fun lower => by
        have := lower.le
        omega
      rw [eq _ out, top]
      exact above (top ▸ inner)
    · exact lower j inside top low
  · have inner : 2 ≤ j := (below.parent_of_ne ne).1
    have out : ¬ Below i (j / 2) := fun lower => inside (.child inner lower)
    rw [eq _ inside, eq _ out]
    exact ordered j below ne low

/-! ## Order up to one edge -/

/-- The function is ordered but for the edge above `i`, and the children of `i` are not
below its parent. -/
structure OrderedUp (f : ℕ → K) (m i : ℕ) : Prop where
  edges : ∀ j, 2 ≤ j → j ≤ m → j ≠ i → f (j / 2) ≤ f j
  grand : ∀ j, 2 ≤ j → j ≤ m → j / 2 = i → 2 ≤ i → f (i / 2) ≤ f j

theorem OrderedUp.finish (up : OrderedUp f m i) (edge : 2 ≤ i → f (i / 2) ≤ f i) :
    OrderedBelow f m 1 := by
  intro j below ne low
  have inner : 2 ≤ j := (below.parent_of_ne ne).1
  by_cases here : j = i
  · rw [here]
    exact edge (here ▸ inner)
  · exact up.edges j inner low here

theorem OrderedUp.exchange (up : OrderedUp f m i) (inner : 2 ≤ i) (low : i ≤ m)
    (falls : f i < f (i / 2)) (moved : g i = f (i / 2)) (raised : g (i / 2) = f i)
    (eq : ∀ j, j ≠ i → j ≠ i / 2 → g j = f j) : OrderedUp g m (i / 2) := by
  have ne : i / 2 ≠ i := by omega
  constructor
  · intro j innerJ lowJ neJ
    by_cases here : j = i
    · rw [here, moved, raised]
      exact falls.le
    rw [eq j here neJ]
    by_cases child : j / 2 = i
    · rw [child, moved]
      exact up.grand j innerJ lowJ child inner
    · by_cases sibling : j / 2 = i / 2
      · rw [sibling, raised]
        exact falls.le.trans (sibling ▸ up.edges j innerJ lowJ here)
      · rw [eq _ child sibling]
        exact up.edges j innerJ lowJ here
  · intro j innerJ lowJ parent innerParent
    have grandparent : f (i / 2 / 2) ≤ f (i / 2) := up.edges (i / 2) innerParent (by omega) ne
    have unchanged : g (i / 2 / 2) = f (i / 2 / 2) := eq _ (by omega) (by omega)
    rw [unchanged]
    by_cases here : j = i
    · rw [here, moved]
      exact grandparent
    · have neJ : j ≠ i / 2 := by omega
      rw [eq j here neJ]
      exact grandparent.trans (parent ▸ up.edges j innerJ lowJ here)

end Order

end Goblin.Library
