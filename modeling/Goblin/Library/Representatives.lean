import Mathlib.Data.Finset.Card

/-!
# Canonical elements

A forest of pointers in which the roots point to themselves, as union-find structures keep it. The
pointers lead every element to the canonical element of its set. `Shortens` describes what path
compression may do to the pointers, and `Rising` is what keeps the paths finite: the rank
increases along every pointer that is not a loop.
-/

set_option autoImplicit false

namespace Goblin.Library

open Finset Relation
open Function

universe u

variable {V : Type u} {B B' B'' : V → Option V} {rank : V → ℕ} {u v w x : V} {S : Finset V}

/-- The pointers lead from `v` to the canonical element `w`. -/
inductive Leads (B : V → Option V) : V → V → Prop
  | root {w : V} (loop : B w = some w) : Leads B w w
  | step {v u w : V} (pointer : B v = some u) (other : u ≠ v) (rest : Leads B u w) : Leads B v w

/-- The rank increases along every pointer. -/
def Rising (B : V → Option V) (rank : V → ℕ) : Prop :=
  ∀ v u, B v = some u → u ≠ v → rank v < rank u

namespace Leads

section

variable (leads : Leads B v w)
include leads

theorem loop : B w = some w := by
  induction leads with
  | root loop => exact loop
  | step _ _ _ ih => exact ih

theorem canonical : Leads B w w := .root leads.loop

theorem ne_none : B v ≠ none := by
  cases leads with
  | root loop => simp [loop]
  | step ptr _ _ => simp [ptr]

theorem eq_of_loop (loop : B v = some v) : w = v := by
  cases leads with
  | root _ => rfl
  | step ptr other _ =>
    rw [loop] at ptr
    exact absurd (Option.some.inj ptr).symm other

end

theorem unique (first : Leads B v w) (second : Leads B v x) : w = x := by
  induction first with
  | root loop => exact (second.eq_of_loop loop).symm
  | step ptr other _ ih =>
    cases second with
    | root loop =>
      rw [loop] at ptr
      exact absurd (Option.some.inj ptr).symm other
    | step ptr' _ rest =>
      rw [ptr] at ptr'
      cases ptr'
      exact ih rest

section

variable (leads : Leads B v w)
include leads

/-- The elements on the way have the same canonical element. -/
theorem of_pointer (ptr : B v = some u) : Leads B u w := by
  cases leads with
  | root loop =>
    rw [loop] at ptr
    cases ptr
    exact .root loop
  | step ptr' _ rest =>
    rw [ptr] at ptr'
    cases ptr'
    exact rest

theorem rank_le (rising : Rising B rank) : rank v ≤ rank w := by
  induction leads with
  | root _ => exact le_rfl
  | step ptr other _ ih => exact (rising _ _ ptr other).le.trans ih

theorem rank_lt (rising : Rising B rank) (other : w ≠ v) : rank v < rank w := by
  cases leads with
  | root _ => exact absurd rfl other
  | step ptr moved rest => exact (rising _ _ ptr moved).trans_le (rest.rank_le rising)

theorem congr (eq : ∀ x, Leads B x w → B' x = B x) : Leads B' v w := by
  induction leads with
  | root loop => exact .root (by rw [eq _ (.root loop), loop])
  | step ptr other rest ih =>
    exact .step (by rw [eq _ (.step ptr other rest), ptr]) other (ih eq)

end

end Leads

/-! ## Path compression -/

/-- Some elements point to their canonical element instead. -/
def Shortens (B B' : V → Option V) : Prop := ∀ v, B' v = B v ∨ ∃ w, Leads B v w ∧ B' v = some w

namespace Shortens

theorem refl (B : V → Option V) : Shortens B B := fun _ => .inl rfl

theorem leads (shortens : Shortens B B') (leads : Leads B v w) : Leads B' v w := by
  induction leads with
  | @root w loop =>
    rcases shortens w with eq | ⟨x, leads, ptr⟩
    · exact .root (by rw [eq, loop])
    · rw [leads.eq_of_loop loop] at ptr
      exact .root ptr
  | @step v u w ptr other rest ih =>
    rcases shortens v with eq | ⟨x, leads, ptr'⟩
    · exact .step (by rw [eq, ptr]) other ih
    have isRoot : x = w := leads.unique (.step ptr other rest)
    subst isRoot
    refine .step ptr' ?_ ih.canonical
    rintro rfl
    rw [rest.loop] at ptr
    exact other (Option.some.inj ptr).symm

theorem leads_iff (shortens : Shortens B B') : Leads B' v w ↔ Leads B v w := by
  refine ⟨fun leads' => ?_, shortens.leads⟩
  induction leads' with
  | @root w loop =>
    rcases shortens w with eq | ⟨x, leads, ptr⟩
    · exact .root (by rw [← eq, loop])
    · rw [loop] at ptr
      cases ptr
      exact leads
  | @step v u w ptr other rest ih =>
    rcases shortens v with eq | ⟨x, leads, ptr'⟩
    · exact .step (by rw [← eq, ptr]) other ih
    · rw [ptr] at ptr'
      cases ptr'
      rwa [ih.eq_of_loop leads.loop]

theorem trans (first : Shortens B B') (second : Shortens B' B'') : Shortens B B'' := by
  intro v
  rcases second v with eq | ⟨w, leads, ptr⟩
  · rw [eq]
    exact first v
  · exact .inr ⟨w, first.leads_iff.1 leads, ptr⟩

theorem update [DecidableEq V] (leads : Leads B v w) : Shortens B (update B v (some w)) := by
  intro x
  by_cases here : x = v
  · subst here
    exact .inr ⟨w, leads, update_self ..⟩
  · exact .inl (update_of_ne here ..)

theorem rising (shortens : Shortens B B') (rising : Rising B rank) : Rising B' rank := by
  intro v u ptr other
  rcases shortens v with eq | ⟨w, leads, ptr'⟩
  · exact rising v u (eq ▸ ptr) other
  · rw [ptr] at ptr'
    cases ptr'
    exact leads.rank_lt rising other

theorem none_iff (shortens : Shortens B B') : B' v = none ↔ B v = none := by
  rcases shortens v with eq | ⟨w, leads, ptr⟩
  · rw [eq]
  · exact iff_of_false (by simp [ptr]) leads.ne_none

end Shortens

/-! ## Linking two roots -/

section Link

variable [DecidableEq V]

/-- The root `u` is made to point to the root `w`. -/
theorem leads_link (loopU : B u = some u) (loopW : B w = some w) (other : w ≠ u) :
    Leads (update B u (some w)) v x ↔ (Leads B v x ∧ x ≠ u) ∨ (Leads B v u ∧ x = w) := by
  have rootW : Leads (update B u (some w)) w w :=
    .root (by rw [update_of_ne other, loopW])
  have forward : ∀ {v x}, Leads B v x → x ≠ u → Leads (update B u (some w)) v x := by
    intro v x leads notU
    refine leads.congr fun y toX => update_of_ne ?_ _ _
    rintro rfl
    exact notU (toX.eq_of_loop loopU)
  have toU : ∀ {v z}, Leads B v z → z = u → Leads (update B u (some w)) v w := by
    intro v z leads
    induction leads with
    | root _ =>
      rintro rfl
      exact .step (update_self ..) other rootW
    | @step v t z ptr moved _ ih =>
      intro isU
      refine .step ?_ moved (ih isU)
      rw [update_of_ne, ptr]
      rintro rfl
      rw [loopU] at ptr
      exact moved (Option.some.inj ptr).symm
  constructor
  · intro leads
    induction leads with
    | @root y loop =>
      by_cases here : y = u
      · rw [here, update_self] at loop
        exact absurd (Option.some.inj loop) other
      · rw [update_of_ne here] at loop
        exact .inl ⟨.root loop, here⟩
    | @step y t z ptr moved _ ih =>
      by_cases here : y = u
      · rw [here, update_self] at ptr
        cases ptr
        subst here
        rcases ih with ⟨leads, _⟩ | ⟨leads, _⟩
        · exact .inr ⟨.root loopU, leads.eq_of_loop loopW⟩
        · exact absurd (leads.eq_of_loop loopW).symm other
      · rw [update_of_ne here] at ptr
        rcases ih with ⟨leads, notU⟩ | ⟨leads, isW⟩
        · exact .inl ⟨.step ptr moved leads, notU⟩
        · exact .inr ⟨.step ptr moved leads, isW⟩
  · rintro (⟨leads, notU⟩ | ⟨leads, rfl⟩)
    · exact forward leads notU
    · exact toU leads rfl

theorem Rising.link (rising : Rising B rank) (lower : rank u < rank w) :
    Rising (update B u (some w)) rank := by
  intro v t ptr moved
  by_cases here : v = u
  · rw [here, update_self] at ptr
    cases ptr
    rwa [here]
  · rw [update_of_ne here] at ptr
    exact rising v t ptr moved

theorem Rising.raise (rising : Rising B rank) (loop : B w = some w) {k : ℕ} (more : rank w ≤ k) :
    Rising B (update rank w k) := by
  intro v t ptr moved
  have notW : v ≠ w := by
    rintro rfl
    rw [loop] at ptr
    exact moved (Option.some.inj ptr).symm
  have increases := rising v t ptr moved
  rw [update_of_ne notW]
  by_cases here : t = w
  · rw [here, update_self]
    rw [here] at increases
    omega
  · rwa [update_of_ne here]

end Link

/-! ## The length of a way -/

/-- The number of elements of higher rank. It bounds the length of the way from `v`. -/
def higher (rank : V → ℕ) (S : Finset V) (v : V) : ℕ := (S.filter fun x => rank v < rank x).card

theorem higher_lt (mem : u ∈ S) (increases : rank v < rank u) :
    higher rank S u < higher rank S v := by
  refine card_lt_card (ssubset_iff_of_subset ?_ |>.2 ⟨u, ?_, ?_⟩)
  · intro x inside
    rw [mem_filter] at inside ⊢
    exact ⟨inside.1, increases.trans inside.2⟩
  · exact mem_filter.2 ⟨mem, increases⟩
  · simp

theorem higher_lt_card (mem : v ∈ S) : higher rank S v < S.card := by
  refine card_lt_card (ssubset_iff_of_subset (filter_subset _ _) |>.2 ?_)
  exact ⟨v, mem, by simp⟩

/-! ## Partitions -/

/-- Both elements have the same canonical element. -/
def SameSet (B : V → Option V) (x y : V) : Prop := ∃ w, Leads B x w ∧ Leads B y w

/-- The sets are the components of a relation. -/
structure Partitions (B : V → Option V) (joined : V → V → Prop) : Prop where
  sound : ∀ x y, SameSet B x y → EqvGen joined x y
  complete : ∀ x y, joined x y → SameSet B x y

namespace Partitions

variable {joined joined' : V → V → Prop} {y : V}

section

variable (partitions : Partitions B joined)
include partitions

theorem sameSet_iff (leads : Leads B x w) : SameSet B x y ↔ EqvGen joined x y := by
  refine ⟨partitions.sound x y, fun connected => ?_⟩
  have ends : x = y ∨ SameSet B x y := by
    clear leads
    induction connected with
    | rel x y pair => exact .inr (partitions.complete x y pair)
    | refl x => exact .inl rfl
    | symm x y _ ih => exact ih.imp Eq.symm fun ⟨w, atX, atY⟩ => ⟨w, atY, atX⟩
    | trans x y z _ _ ihXY ihYZ =>
      rcases ihXY with rfl | ⟨w, atX, atY⟩
      · exact ihYZ
      · rcases ihYZ with rfl | ⟨w', atY', atZ⟩
        · exact .inr ⟨w, atX, atY⟩
        · rw [atY'.unique atY] at atZ
          exact .inr ⟨w, atX, atZ⟩
  rcases ends with rfl | eq
  · exact ⟨w, leads, leads⟩
  · exact eq

theorem shortens (shortens : Shortens B B') : Partitions B' joined where
  sound := fun x y ⟨w, atX, atY⟩ =>
    partitions.sound x y ⟨w, shortens.leads_iff.1 atX, shortens.leads_iff.1 atY⟩
  complete := fun x y pair =>
    let ⟨w, atX, atY⟩ := partitions.complete x y pair
    ⟨w, shortens.leads atX, shortens.leads atY⟩

/-- The sets of `x` and `y` are the same already. -/
theorem joinSame (eq : SameSet B x y) : Partitions B fun p q => joined p q ∨ (p = x ∧ q = y) where
  sound := fun p q both => (partitions.sound p q both).mono fun _ _ => .inl
  complete := by
    rintro p q (pair | ⟨rfl, rfl⟩)
    · exact partitions.complete p q pair
    · exact eq

end

theorem join [DecidableEq V] (partitions : Partitions B joined) (leadsX : Leads B x u)
    (leadsY : Leads B y w) (other : w ≠ u)
    (mono : ∀ p q, joined p q → joined' p q) (new : EqvGen joined' x y)
    (only : ∀ p q, joined' p q → joined p q ∨ (p = x ∧ q = y) ∨ (p = y ∧ q = x)) :
    Partitions (update B u (some w)) joined' := by
  have toY : ∀ p, Leads B p w → EqvGen joined' p y := fun p leads =>
    (partitions.sound p y ⟨w, leads, leadsY⟩).mono mono
  have toX : ∀ p, Leads B p u → EqvGen joined' p y := fun p leads =>
    ((partitions.sound p x ⟨u, leads, leadsX⟩).mono mono).trans _ _ _ new
  have link : ∀ {p q}, _ := fun {p q} =>
    leads_link (v := p) (x := q) leadsX.loop leadsY.loop other
  have atX : Leads (update B u (some w)) x w := link.2 (.inr ⟨leadsX, rfl⟩)
  have atY : Leads (update B u (some w)) y w := link.2 (.inl ⟨leadsY, other⟩)
  constructor
  · rintro p q ⟨z, atP, atQ⟩
    rcases link.1 atP with ⟨leadsP, notU⟩ | ⟨leadsP, rfl⟩
    · rcases link.1 atQ with ⟨leadsQ, -⟩ | ⟨leadsQ, rfl⟩
      · exact (partitions.sound p q ⟨z, leadsP, leadsQ⟩).mono mono
      · exact (toY p leadsP).trans _ _ _ ((toX q leadsQ).symm _ _)
    · rcases link.1 atQ with ⟨leadsQ, -⟩ | ⟨leadsQ, -⟩
      · exact (toX p leadsP).trans _ _ _ ((toY q leadsQ).symm _ _)
      · exact (toX p leadsP).trans _ _ _ ((toX q leadsQ).symm _ _)
  · intro p q pair
    rcases only p q pair with old | ⟨rfl, rfl⟩ | ⟨rfl, rfl⟩
    · obtain ⟨z, atP, atQ⟩ := partitions.complete p q old
      by_cases isU : z = u
      · rw [isU] at atP atQ
        exact ⟨w, link.2 (.inr ⟨atP, rfl⟩), link.2 (.inr ⟨atQ, rfl⟩)⟩
      · exact ⟨z, link.2 (.inl ⟨atP, isU⟩), link.2 (.inl ⟨atQ, isU⟩)⟩
    · exact ⟨w, atX, atY⟩
    · exact ⟨w, atY, atX⟩

theorem bud [DecidableEq V] (partitions : Partitions B joined) (fresh : B v = none)
    (closed : ∀ x y, B x = some y → B y ≠ none) : Partitions (update B v (some v)) joined := by
  have old : ∀ {x w}, Leads B x w → Leads (update B v (some v)) x w := by
    intro x w leads
    refine leads.congr fun y toW => update_of_ne ?_ _ _
    rintro rfl
    exact toW.ne_none fresh
  have back : ∀ {x w}, Leads (update B v (some v)) x w → (x = v ∧ w = v) ∨ Leads B x w := by
    intro x w leads
    induction leads with
    | @root y loop =>
      by_cases here : y = v
      · exact .inl ⟨here, here⟩
      · rw [update_of_ne here] at loop
        exact .inr (.root loop)
    | @step y t z ptr moved _ ih =>
      by_cases here : y = v
      · rw [here, update_self] at ptr
        exact absurd ((Option.some.inj ptr).symm.trans here.symm) moved
      · rw [update_of_ne here] at ptr
        rcases ih with ⟨rfl, -⟩ | leads
        · exact absurd fresh (closed y t ptr)
        · exact .inr (.step ptr moved leads)
  constructor
  · rintro p q ⟨z, atP, atQ⟩
    rcases back atP with ⟨rfl, rfl⟩ | leadsP
    · rcases back atQ with ⟨rfl, -⟩ | leadsQ
      · exact .refl _
      · exact absurd fresh leadsQ.canonical.ne_none
    · rcases back atQ with ⟨rfl, rfl⟩ | leadsQ
      · exact absurd fresh leadsP.canonical.ne_none
      · exact partitions.sound p q ⟨z, leadsP, leadsQ⟩
  · intro p q pair
    obtain ⟨z, atP, atQ⟩ := partitions.complete p q pair
    exact ⟨z, old atP, old atQ⟩

end Partitions

end Goblin.Library
