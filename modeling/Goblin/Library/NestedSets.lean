import Mathlib.Data.Finset.Card

/-!
# Nested sets

A laminar family of sets, in which two sets are disjoint unless one contains the other, is known
by the least set that contains each element, its parent. An element is within all sets that are met
on the way upwards, and within itself. The way ends in an element that has no parent, unless it is
endless.

A family is changed by putting one of its outermost elements into another one (`within_merge`), and
by dissolving an outermost set (`within_split`).
-/

set_option autoImplicit false

namespace Goblin.Library

open Relation
open Function

universe u

variable {V : Type u} {parent : V → Option V} {s t v x y : V}

section

variable (parent : V → Option V)

/-- The element is the other one, or it is nested in it. -/
def Within : V → V → Prop :=
  ReflTransGen fun x y => parent x = some y

/-- The outermost set that contains an element, or the element itself. -/
structure Outermost (x t : V) : Prop where
  within : Within parent x t
  top : parent t = none

/-- Every way upwards ends. -/
def Grounded : Prop := ∀ x, ∃ t, Outermost parent x t

end

namespace Within

theorem refl (x : V) : Within parent x x := ReflTransGen.refl

theorem trans (first : Within parent x y) (second : Within parent y t) : Within parent x t :=
  ReflTransGen.trans first second

theorem single (step : parent x = some y) : Within parent x y := ReflTransGen.single step

theorem eq_of_top (within : Within parent x t) (top : parent x = none) : t = x := by
  rcases ReflTransGen.cases_head within with eq | ⟨y, step, -⟩
  · exact eq.symm
  · rw [top] at step
    cases step

theorem comparable (first : Within parent x s) (second : Within parent x t) :
    Within parent s t ∨ Within parent t s :=
  ReflTransGen.total_of_right_unique
    (fun _ _ _ step step' => Option.some.inj (step.symm.trans step')) first second

theorem outermost (within : Within parent x y) (outer : Outermost parent x t) :
    Outermost parent y t := by
  refine ⟨?_, outer.top⟩
  rcases within.comparable outer.within with up | down
  · exact up
  · rw [down.eq_of_top outer.top]
    exact .refl t

/-- The parent of a nested element is within the same set. -/
theorem parent_within (within : Within parent x t) (other : x ≠ t) (step : parent x = some y) :
    Within parent y t := by
  rcases ReflTransGen.cases_head within with eq | ⟨z, step', rest⟩
  · exact absurd eq other
  · rw [step] at step'
    cases step'
    exact rest

theorem exists_member (within : Within parent x t) (other : x ≠ t) :
    ∃ v, parent v = some t ∧ Within parent x v := by
  rcases ReflTransGen.cases_tail within with eq | ⟨v, rest, step⟩
  · exact absurd eq.symm other
  · exact ⟨v, step, rest⟩

end Within

theorem Outermost.unique (first : Outermost parent x s) (second : Outermost parent x t) : s = t :=
  ((first.within.outermost second).within.eq_of_top first.top).symm

theorem Outermost.self (top : parent t = none) : Outermost parent t t := ⟨.refl t, top⟩

theorem not_within_of_parent (grounded : Grounded parent) (step : parent x = some y) :
    ¬ Within parent y x := by
  intro back
  -- the way upwards from `x` returns to `x` for ever
  have returns : ∀ z, Within parent x z → Within parent z x := by
    intro z above
    induction above with
    | refl => exact .refl x
    | @tail w z _ next ih =>
      by_cases here : w = x
      · subst here
        rw [step] at next
        cases next
        exact back
      · exact ih.parent_within here next
  obtain ⟨t, outer⟩ := grounded x
  have isTop := (returns t outer.within).eq_of_top outer.top
  have top := outer.top
  rw [← isTop, step] at top
  cases top

/-! ## Changes -/

section Changes

variable [DecidableEq V]

theorem within_merge (topS : parent s = none) (topV : parent v = none) (other : s ≠ v) :
    Within (update parent v (some s)) x t ↔ Within parent x t ∨ (Within parent x v ∧ t = s) := by
  have topS' : update parent v (some s) s = none := by
    rw [update_of_ne other, topS]
  have old : ∀ {x t}, Within parent x t → Within (update parent v (some s)) x t := by
    intro x t within
    refine ReflTransGen.mono ?_ x t within
    intro y z step
    rw [update_of_ne, step]
    rintro rfl
    rw [topV] at step
    cases step
  constructor
  · intro within
    induction within with
    | refl => exact .inl (.refl x)
    | @tail y z _ step ih =>
      by_cases here : y = v
      · subst here
        rw [update_self] at step
        cases step
        rcases ih with within | ⟨within, isS⟩
        · exact .inr ⟨within, rfl⟩
        · exact absurd isS.symm other
      · rw [update_of_ne here] at step
        rcases ih with within | ⟨-, isS⟩
        · exact .inl (within.trans (.single step))
        · rw [isS, topS] at step
          cases step
  · rintro (within | ⟨within, rfl⟩)
    · exact old within
    · exact (old within).trans (.single (update_self ..))

theorem Grounded.merge (grounded : Grounded parent) (topS : parent s = none)
    (topV : parent v = none) (other : s ≠ v) : Grounded (update parent v (some s)) := by
  intro x
  obtain ⟨t, within, top⟩ := grounded x
  by_cases here : t = v
  · refine ⟨s, (within_merge topS topV other).2 (.inr ⟨here ▸ within, rfl⟩), ?_⟩
    rw [update_of_ne other, topS]
  · refine ⟨t, (within_merge topS topV other).2 (.inl within), ?_⟩
    rw [update_of_ne here, top]

/-- The parents after the set `s` has been dissolved. -/
def dissolve (parent : V → Option V) (s x : V) : Option V :=
  if parent x = some s then none else parent x

theorem dissolve_eq_some : dissolve parent s x = some y ↔ parent x = some y ∧ y ≠ s := by
  rw [dissolve]
  split_ifs with mem
  · refine iff_of_false (by simp) ?_
    rintro ⟨step, other⟩
    rw [mem] at step
    exact other (Option.some.inj step).symm
  · refine ⟨fun step => ⟨step, ?_⟩, And.left⟩
    rintro rfl
    exact mem step

theorem dissolve_eq_none : dissolve parent s x = none ↔ parent x = some s ∨ parent x = none := by
  rw [dissolve]
  split_ifs with mem
  · simp [mem]
  · simp [mem]

theorem within_split (topS : parent s = none) :
    Within (dissolve parent s) x t ↔ Within parent x t ∧ (t = s → x = s) := by
  constructor
  · intro within
    induction within with
    | refl => exact ⟨.refl x, id⟩
    | @tail y z _ step ih =>
      obtain ⟨step, other⟩ := dissolve_eq_some.1 step
      exact ⟨ih.1.trans (.single step), fun isS => absurd isS other⟩
  · rintro ⟨within, only⟩
    induction within with
    | refl => exact .refl x
    | @tail y z before step ih =>
      have notS : y ≠ s := by
        rintro rfl
        rw [topS] at step
        cases step
      refine (ih fun isS => absurd isS notS).trans (.single (dissolve_eq_some.2 ⟨step, ?_⟩))
      rintro rfl
      have start := only rfl
      rw [start] at before
      exact notS (Within.eq_of_top before topS)

theorem Grounded.split (grounded : Grounded parent) (topS : parent s = none) :
    Grounded (dissolve parent s) := by
  intro x
  obtain ⟨t, within, top⟩ := grounded x
  by_cases isS : t = s
  · by_cases here : x = s
    · subst here
      exact ⟨x, .self (dissolve_eq_none.2 (.inr topS))⟩
    · obtain ⟨v, mem, inside⟩ := (isS ▸ within).exists_member here
      refine ⟨v, (within_split topS).2 ⟨inside, fun isS' => ?_⟩, dissolve_eq_none.2 (.inl mem)⟩
      rw [isS', topS] at mem
      cases mem
  · exact ⟨t, (within_split topS).2 ⟨within, fun here => absurd here isS⟩,
      dissolve_eq_none.2 (.inr top)⟩

end Changes

/-! ## The outermost set as a function -/

/-- The outermost set that contains an element. -/
noncomputable def topOf (parent : V → Option V) (x : V) : V := by
  classical exact if outer : ∃ t, Outermost parent x t then outer.choose else x

theorem Grounded.topOf (grounded : Grounded parent) (x : V) :
    Outermost parent x (topOf parent x) := by
  unfold Library.topOf
  rw [dif_pos (grounded x)]
  exact (grounded x).choose_spec

theorem Outermost.topOf_eq (outer : Outermost parent x t) : topOf parent x = t := by
  have exists_ : ∃ t, Outermost parent x t := ⟨t, outer⟩
  unfold Library.topOf
  rw [dif_pos exists_]
  exact exists_.choose_spec.unique outer

theorem Within.topOf_eq (grounded : Grounded parent) (within : Within parent x y) :
    topOf parent x = topOf parent y :=
  (within.outermost (grounded.topOf x)).topOf_eq.symm

theorem Within.mono {parent' : V → Option V} (within : Within parent x t)
    (extends' : ∀ x y, parent x = some y → parent' x = some y) : Within parent' x t :=
  ReflTransGen.mono (fun y z step => extends' y z step) x t within

/-- Outermost sets are collected in a new set `c`. -/
structure Collects (parent parent' : V → Option V) (C : Set V) (c : V) : Prop where
  extends' : ∀ x y, parent x = some y → parent' x = some y
  inner : ∀ x ∈ C, parent' x = some c
  outer : ∀ x, x ∉ C → parent x = none → parent' x = none
  top : parent' c = none

namespace Collects

variable {parent' : V → Option V} {C : Set V} {c : V}

section

variable (collects : Collects parent parent' C c)
include collects

theorem topOf_inner (grounded : Grounded parent)
    (inside : topOf parent x ∈ C) : topOf parent' x = c := by
  refine Outermost.topOf_eq ⟨?_, collects.top⟩
  exact ((grounded.topOf x).within.mono collects.extends').trans (.single (collects.inner _ inside))

theorem topOf_outer (grounded : Grounded parent)
    (out : topOf parent x ∉ C) : topOf parent' x = topOf parent x := by
  refine Outermost.topOf_eq ⟨(grounded.topOf x).within.mono collects.extends', ?_⟩
  exact collects.outer _ out (grounded.topOf x).top

theorem within_of_ne (within : Within parent' x t) (other : t ≠ c) : Within parent x t := by
  induction within with
  | refl => exact .refl x
  | @tail y z _ step ih =>
    have notTop : y ≠ c := by
      rintro rfl
      rw [collects.top] at step
      cases step
    have out : y ∉ C := by
      intro inside
      rw [collects.inner y inside] at step
      exact other (Option.some.inj step).symm
    refine (ih notTop).trans (.single ?_)
    cases old : parent y with
    | none =>
      rw [collects.outer y out old] at step
      cases step
    | some z' => rw [← step, collects.extends' y z' old]

end

end Collects

section Dissolve

variable [DecidableEq V]

theorem topOf_dissolve_other (grounded : Grounded parent) (topS : parent s = none)
    (other : topOf parent x ≠ s) : topOf (dissolve parent s) x = topOf parent x := by
  have outer := grounded.topOf x
  refine Outermost.topOf_eq ⟨(within_split topS).2 ⟨outer.within, fun isS => absurd isS other⟩, ?_⟩
  exact dissolve_eq_none.2 (.inr outer.top)

theorem topOf_dissolve_member (topS : parent s = none) (within : Within parent x y)
    (mem : parent y = some s) : topOf (dissolve parent s) x = y := by
  refine Outermost.topOf_eq ⟨(within_split topS).2 ⟨within, ?_⟩, dissolve_eq_none.2 (.inl mem)⟩
  rintro rfl
  rw [topS] at mem
  cases mem

end Dissolve

end Goblin.Library
