import Goblin.Library.Links

/-!
# Forests and their preorders

A forest is given by the parent of every node, where roots have none. A preorder of
the trees that hang from one node lists every root in front of its own subtrees
(`Preorder`). The nodes of a subtree are consecutive, and `Subtree` locates them: what
stands before, the root, what is below it, and what comes after. A subtree may be taken
out (`Subtree.without`), and another one may be hung below any node
(`Preorder.insert`).
-/

set_option autoImplicit false

namespace Goblin.Library

open List Relation List
universe u

variable {V : Type u} {par par' : V → Option V} {p : Option V} {v w x y r : V}
  {l k X T Y A B C : List V} {depth : V → ℕ} {next : V → Option V}

/-! ## Ancestors -/

/-- `v` is `x` itself or one of its ancestors. -/
def Ancestor (par : V → Option V) (v x : V) : Prop :=
  ReflTransGen (fun y q => par y = some q) x v

namespace Ancestor

theorem refl : Ancestor par v v := ReflTransGen.refl

theorem trans (first : Ancestor par v w) (second : Ancestor par w x) : Ancestor par v x :=
  ReflTransGen.trans second first

theorem single (parent : par x = some v) : Ancestor par v x := ReflTransGen.single parent

theorem of_ne (ancestor : Ancestor par v x) (other : v ≠ x) :
    ∃ q, par x = some q ∧ Ancestor par v q := by
  rcases ReflTransGen.cases_head ancestor with eq | ⟨q, parent, rest⟩
  · exact absurd eq.symm other
  · exact ⟨q, parent, rest⟩

theorem root_unique (first : Ancestor par v x) (second : Ancestor par w x) (rootV : par v = none)
    (rootW : par w = none) : v = w := by
  induction first using ReflTransGen.head_induction_on with
  | refl =>
    by_contra other
    obtain ⟨q, parent, -⟩ := second.of_ne fun eq => other eq.symm
    rw [rootV] at parent
    cases parent
  | head step _ ih =>
    apply ih
    obtain ⟨q, parent, above⟩ := second.of_ne (by
      rintro rfl
      rw [rootW] at step
      cases step)
    rw [step] at parent
    cases parent
    exact above

end Ancestor

/-! ## Depths -/

/-- The depth of what hangs from `p`. -/
def level (depth : V → ℕ) : Option V → ℕ
  | none => 0
  | some q => depth q + 1

/-- The depth counts the steps to the root. -/
def IsDepth (par : V → Option V) (depth : V → ℕ) : Prop := ∀ v, depth v = level depth (par v)

section Depth

variable {depth : V → ℕ}

theorem IsDepth.of_parent (isDepth : IsDepth par depth) (parent : par x = some v) :
    depth x = depth v + 1 := by
  rw [isDepth x, parent]
  rfl

theorem IsDepth.root_iff (isDepth : IsDepth par depth) : depth v = 0 ↔ par v = none := by
  rw [isDepth v]
  cases par v with
  | none | some q => simp [level]

theorem Ancestor.depth_le (ancestor : Ancestor par v x) (isDepth : IsDepth par depth) :
    depth v ≤ depth x := by
  induction ancestor using ReflTransGen.head_induction_on with
  | refl => exact le_rfl
  | head step _ ih =>
    rw [isDepth.of_parent step]
    omega

theorem Ancestor.eq_of_depth (ancestor : Ancestor par v x) (isDepth : IsDepth par depth)
    (deep : depth x ≤ depth v) : v = x := by
  by_contra other
  obtain ⟨q, parent, above⟩ := ancestor.of_ne other
  have step := isDepth.of_parent parent
  have bound := above.depth_le isDepth
  omega

theorem IsDepth.exists_root (isDepth : IsDepth par depth) (x : V) :
    ∃ r, par r = none ∧ Ancestor par r x := by
  induction steps : depth x generalizing x with
  | zero => exact ⟨x, isDepth.root_iff.1 steps, .refl⟩
  | succ d ih =>
    cases parent : par x with
    | none =>
      rw [isDepth.root_iff.2 parent] at steps
      cases steps
    | some q =>
      have step := isDepth.of_parent parent
      obtain ⟨r, root, above⟩ := ih q (by omega)
      exact ⟨r, root, above.trans (.single parent)⟩

theorem IsDepth.lt_card [Fintype V] (isDepth : IsDepth par depth) (x : V) :
    depth x < Fintype.card V := by
  classical
  have attained : ∀ d x, d ≤ depth x → ∃ y, depth y = d := by
    intro d x low
    induction steps : depth x generalizing x with
    | zero => exact ⟨x, by omega⟩
    | succ k ih =>
      rcases Nat.eq_or_lt_of_le low with eq | less
      · exact ⟨x, eq.symm⟩
      cases parent : par x with
      | none =>
        rw [isDepth.root_iff.2 parent] at steps
        cases steps
      | some q =>
        have step := isDepth.of_parent parent
        exact ih q (by omega) (by omega)
  have subset : Finset.range (depth x + 1) ⊆ Finset.univ.image depth := by
    intro d mem
    rw [Finset.mem_range] at mem
    obtain ⟨y, val⟩ := attained d x (by omega)
    exact Finset.mem_image.2 ⟨y, Finset.mem_univ y, val⟩
  have bound := (Finset.card_le_card subset).trans Finset.card_image_le
  rw [Finset.card_range, Finset.card_univ] at bound
  omega

end Depth

/-! ## Preorders -/

/-- `Preorder par p l`: the list `l` consists of trees that hang from `p`, and every tree
is its root followed by a preorder of what hangs from the root. -/
inductive Preorder (par : V → Option V) : Option V → List V → Prop where
  | nil {p : Option V} : Preorder par p []
  | tree {p : Option V} {v : V} {l k : List V} (root : par v = p) (below : Preorder par (some v) l)
      (beside : Preorder par p k) : Preorder par p (v :: (l ++ k))

namespace Preorder

theorem append (first : Preorder par p l) (second : Preorder par p k) : Preorder par p (l ++ k) := by
  induction first with
  | nil => exact second
  | tree root below beside _ ih =>
    rw [cons_append, append_assoc]
    exact .tree root below (ih second)

theorem single (root : par v = p) (below : Preorder par (some v) l) : Preorder par p (v :: l) := by
  have tree := Preorder.tree root below (.nil (p := p))
  rwa [append_nil] at tree

section

variable (preorder : Preorder par p l)
include preorder

theorem congr (eq : ∀ v ∈ l, par' v = par v) : Preorder par' p l := by
  induction preorder with
  | nil => exact .nil
  | tree root below beside ihBelow ihBeside =>
    refine .tree ?_ (ihBelow fun x mem => eq x ?_) (ihBeside fun x mem => eq x ?_)
    · rw [eq _ mem_cons_self, root]
    · exact mem_cons_of_mem _ (mem_append_left _ mem)
    · exact mem_cons_of_mem _ (mem_append_right _ mem)

theorem parent_mem (split : l = A ++ x :: B) : par x = p ∨ ∃ q ∈ A, par x = some q := by
  induction preorder generalizing A B with
  | nil => simp at split
  | @tree p v l k root below beside ihBelow ihBeside =>
    cases A with
    | nil =>
      obtain ⟨rfl, -⟩ := cons.inj split
      exact .inl root
    | cons c A =>
      obtain ⟨rfl, rest⟩ := cons.inj split
      rcases append_eq_append_iff.1 rest with ⟨D, rfl, inside⟩ | ⟨D, rfl, inside⟩
      · -- the node stands beside the first tree
        rcases ihBeside inside with here | ⟨q, mem, parent⟩
        · exact .inl here
        · exact .inr ⟨q, by simp [mem], parent⟩
      cases D with
      | nil =>
        rcases ihBeside (A := []) (by simpa using inside.symm) with here | ⟨q, mem, -⟩
        · exact .inl here
        · cases mem
      | cons d D =>
        obtain ⟨rfl, -⟩ := cons.inj inside
        rcases ihBelow rfl with here | ⟨q, mem, parent⟩
        · exact .inr ⟨v, mem_cons_self, here⟩
        · exact .inr ⟨q, mem_cons_of_mem _ mem, parent⟩

theorem ancestor (mem : x ∈ l) (hang : p = some v) : Ancestor par v x := by
  induction preorder generalizing v with
  | nil => cases mem
  | tree root below beside ihBelow ihBeside =>
    rw [mem_cons, mem_append] at mem
    rcases mem with rfl | inside | later
    · exact .single (root.trans hang)
    · exact Ancestor.trans (.single (root.trans hang)) (ihBelow inside rfl)
    · exact ihBeside later hang

/-- Hang a forest below a node, in front of what hangs there. -/
theorem insert (split : l = A ++ x :: B)
    (new : Preorder par (some x) C) : Preorder par p (A ++ x :: (C ++ B)) := by
  induction preorder generalizing A B with
  | nil => simp at split
  | @tree p v l k root below beside ihBelow ihBeside =>
    cases A with
    | nil =>
      obtain ⟨rfl, rfl⟩ := cons.inj split
      rw [← append_assoc]
      exact .tree root (new.append below) beside
    | cons c A =>
      obtain ⟨rfl, rest⟩ := cons.inj split
      rcases append_eq_append_iff.1 rest with ⟨D, rfl, inside⟩ | ⟨D, rfl, inside⟩
      · rw [cons_append, append_assoc]
        exact .tree root below (ihBeside inside)
      cases D with
      | nil =>
        rw [append_nil] at below
        exact .tree root below (ihBeside (A := []) (by simpa using inside.symm))
      | cons d D =>
        obtain ⟨rfl, rfl⟩ := cons.inj inside
        have whole := Preorder.tree root (ihBelow rfl) beside
        simpa [append_assoc] using whole

theorem pairwise_parent (nodup : l.Nodup)
    (out : ∀ q ∈ l, p ≠ some q) : l.Pairwise fun x y => par x ≠ some y := by
  rw [pairwise_iff_forall_sublist]
  intro x y order parent
  obtain ⟨A, B, split, later⟩ : ∃ A B, l = A ++ x :: B ∧ y ∈ B := by
    obtain ⟨A, B, rfl, early, rest⟩ := cons_sublist_iff.1 order
    obtain ⟨A', A'', rfl⟩ := append_of_mem early
    exact ⟨A', A'' ++ B, by simp, mem_append_right _ (singleton_sublist.1 rest)⟩
  have mem : y ∈ l := by
    rw [split]
    exact mem_append_right _ (mem_cons_of_mem _ later)
  rcases preorder.parent_mem split with here | ⟨q, early, parent'⟩
  · exact out y mem (here ▸ parent)
  · rw [parent] at parent'
    cases parent'
    rw [split] at nodup
    exact (nodup_append.1 nodup).2.2 y early y (mem_cons_of_mem _ later) rfl

end

theorem level_le (isDepth : IsDepth par depth) (preorder : Preorder par p l)
    (mem : x ∈ l) : level depth p ≤ depth x := by
  induction preorder with
  | nil => cases mem
  | tree root below beside ihBelow ihBeside =>
    rw [mem_cons, mem_append] at mem
    rcases mem with rfl | inside | later
    · rw [isDepth x, root]
    · have deep := ihBelow inside
      rw [level, isDepth _, root] at deep
      omega
    · exact ihBeside later

theorem head (preorder : Preorder par p (v :: l)) : par v = p := by
  rcases preorder.parent_mem (A := []) rfl with here | ⟨q, mem, -⟩
  · exact here
  · cases mem

theorem of_root (preorder : Preorder par none (r :: l)) (only : ∀ x ∈ l, par x ≠ none) :
    Preorder par (some r) l := by
  cases preorder with
  | @tree _ _ l k root below beside =>
    cases k with
    | nil => rwa [append_nil]
    | cons c k => exact absurd beside.head (only c (by simp))

end Preorder

/-! ## Subtrees -/

/-- In the preorder `X ++ v :: (T ++ Y)` of the trees at `p` the nodes below `v` are
those of `T`. -/
inductive Subtree (par : V → Option V) : Option V → List V → V → List V → List V → Prop where
  | here {p : Option V} {v : V} {A T B : List V} (before : Preorder par p A) (root : par v = p)
      (below : Preorder par (some v) T) (beside : Preorder par p B) : Subtree par p A v T B
  | inside {p : Option V} {v w : V} {A X T Y B : List V} (before : Preorder par p A)
      (root : par w = p) (inner : Subtree par (some w) X v T Y) (beside : Preorder par p B) :
      Subtree par p (A ++ w :: X) v T (Y ++ B)

namespace Subtree

section

variable (subtree : Subtree par p X v T Y)
include subtree

theorem prepend (front : Preorder par p A) : Subtree par p (A ++ X) v T Y := by
  cases subtree with
  | here before root below beside => exact .here (front.append before) root below beside
  | inside before root inner beside =>
    rw [← append_assoc]
    exact .inside (front.append before) root inner beside

theorem descendants : Preorder par (some v) T := by
  induction subtree with
  | here _ _ below _ => exact below
  | inside _ _ _ _ ih => exact ih

theorem whole : Preorder par p (X ++ v :: (T ++ Y)) := by
  induction subtree with
  | here before root below beside => exact before.append (.tree root below beside)
  | inside before root _ beside ih =>
    have tree := before.append (.tree root ih beside)
    simpa [append_assoc] using tree

theorem without : Preorder par p (X ++ Y) := by
  induction subtree with
  | here before _ _ beside => exact before.append beside
  | inside before root _ beside ih =>
    have tree := before.append (.tree root ih beside)
    simpa [append_assoc] using tree

theorem parent : par v = p ∨ ∃ w X' A B Y', par v = some w ∧ X = X' ++ w :: A ∧ Y = B ++ Y' ∧
      Subtree par p X' w (A ++ v :: (T ++ B)) Y' ∧ Preorder par (some w) (A ++ B) := by
  induction subtree with
  | here _ root _ _ => exact .inl root
  | @inside p v w A X T Y B before root inner beside ih =>
    right
    rcases ih with here | ⟨w', X', A', B', Y', parentV, rfl, rfl, outer, rest⟩
    · exact ⟨w, A, X, Y, B, here, rfl, rfl, .here before root inner.whole beside, inner.without⟩
    · refine ⟨w', A ++ w :: X', A', B', Y' ++ B, parentV, ?_, ?_, ?_, rest⟩
      · rw [append_assoc, cons_append]
      · rw [append_assoc]
      · exact .inside before root outer beside

end

/-- What follows a subtree does not lie deeper than its root. -/
theorem after (isDepth : IsDepth par depth) (subtree : Subtree par p X v T Y)
    (next : Y.head? = some y) : depth y ≤ depth v := by
  induction subtree with
  | here _ root _ beside =>
    obtain ⟨rest, rfl⟩ := head?_eq_some_iff.1 next
    rw [isDepth y, isDepth _, root, beside.head]
  | @inside p v w A X T Y B before root inner beside ih =>
    cases Y with
    | cons c Y => exact ih next
    | nil =>
      obtain ⟨rest, rfl⟩ := head?_eq_some_iff.1 next
      have deep : level depth (some w) ≤ depth v :=
        inner.whole.level_le isDepth (by simp)
      rw [level, isDepth w, root] at deep
      rw [isDepth y, beside.head]
      omega

end Subtree

theorem Preorder.exists_subtree (preorder : Preorder par p l) (mem : v ∈ l) :
    ∃ X T Y, l = X ++ v :: (T ++ Y) ∧ Subtree par p X v T Y := by
  induction preorder with
  | nil => cases mem
  | @tree p w l k root below beside ihBelow ihBeside =>
    rw [mem_cons, mem_append] at mem
    rcases mem with rfl | inside | later
    · exact ⟨[], l, k, rfl, .here .nil root below beside⟩
    · obtain ⟨X, T, Y, rfl, subtree⟩ := ihBelow inside
      refine ⟨w :: X, T, Y ++ k, by simp [append_assoc], ?_⟩
      exact Subtree.inside (A := []) .nil root subtree beside
    · obtain ⟨X, T, Y, rfl, subtree⟩ := ihBeside later
      refine ⟨w :: l ++ X, T, Y, by simp [append_assoc], ?_⟩
      exact subtree.prepend (Preorder.single root below)

/-! ## Unfinished preorders -/

/-- What may follow in a preorder of the tree of `r` when the subtree of `v` is being listed:
more children of `v`, then more children of its parent, and so on up to the root. -/
inductive Remainder (par : V → Option V) (r : V) : V → List V → Prop where
  | root {l : List V} (rest : Preorder par (some r) l) : Remainder par r r l
  | up {v q : V} {l k : List V} (parent : par v = some q) (below : Preorder par (some v) l)
      (rest : Remainder par r q k) : Remainder par r v (l ++ k)

theorem Remainder.ascend (parent : par v = some w) (rest : Remainder par r w l) :
    Remainder par r v l := Remainder.up (l := []) parent .nil rest

theorem Remainder.descend (isRoot : par r = none) (parent : par x = some v)
    (rest : Remainder par r x l) : Remainder par r v (x :: l) := by
  cases rest with
  | root =>
    rw [isRoot] at parent
    cases parent
  | @up _ _ l k parent' below rest =>
    rw [parent] at parent'
    cases parent'
    cases rest with
    | root rest => exact .root (.tree parent below rest)
    | @up _ _ l' k' parent'' below' rest =>
      have children := Preorder.tree parent below below'
      have all := Remainder.up parent'' children rest
      simpa [append_assoc] using all

/-! ## Tours -/

/-- The links of `next` lead through the tree with root `r` in preorder. -/
structure Tour (par next : V → Option V) (r : V) (l : List V) : Prop where
  links : Links next (r :: l) none
  nodup : (r :: l).Nodup
  preorder : Preorder par (some r) l
  mem_iff : ∀ x, x ∈ r :: l ↔ Ancestor par r x

theorem Tour.congr {next' : V → Option V} (tour : Tour par next r l)
    (eq : ∀ y, Ancestor par r y → next' y = next y) : Tour par next' r l :=
  ⟨tour.links.congr fun y mem => eq y ((tour.mem_iff y).1 mem), tour.nodup, tour.preorder,
    tour.mem_iff⟩

theorem Tour.mem_subtree (tour : Tour par next r l) (split : r :: l = X ++ v :: (T ++ Y))
    (subtree : Subtree par none X v T Y) (x : V) : x ∈ v :: T ↔ Ancestor par v x := by
  constructor
  · intro mem
    rcases mem_cons.1 mem with rfl | inside
    · exact .refl
    · exact subtree.descendants.ancestor inside rfl
  · intro ancestor
    have inTour : ∀ z, Ancestor par v z → z ∈ r :: l := by
      intro z above
      refine (tour.mem_iff z).2 (Ancestor.trans ?_ above)
      exact (tour.mem_iff v).1 (by rw [split]; simp)
    have nodup := tour.nodup
    rw [split] at nodup
    induction ancestor using ReflTransGen.head_induction_on with
    | refl => exact mem_cons_self
    | @head z q step above ih =>
      -- a node outside the subtree has its parent outside, too
      by_contra outside
      have mem := inTour z (ReflTransGen.head step above)
      have rest : z ∈ X ++ Y := by
        rw [split] at mem
        simp only [mem_append, mem_cons] at mem outside ⊢
        tauto
      obtain ⟨A, B, eq⟩ := append_of_mem rest
      rcases subtree.without.parent_mem eq with none | ⟨q', inA, parent⟩
      · rw [step] at none
        cases none
      rw [step] at parent
      cases parent
      have inRest : q ∈ X ++ Y := by
        rw [eq]
        exact mem_append_left _ inA
      simp only [nodup_append, nodup_cons, mem_append, mem_cons] at nodup ih inRest
      grind

end Goblin.Library
