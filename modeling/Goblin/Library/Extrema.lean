import Mathlib.Data.List.Basic
import Mathlib.Data.List.Induction
import Mathlib.Logic.Equiv.Basic
import Mathlib.Order.Basic

/-!
# Extremal entries of a list

An entry of a list is extremal if it is the best one, and comes before all the others which are as
good. What is better and which index comes before is left open, so that the first minimum
and the last maximum are two cases of the same notion. The results say how the index of the extremal
entry has to follow when the list is changed. A search along a list keeps the best candidate
(`selected_foldl`).
-/

set_option autoImplicit false

namespace Goblin.Library

open List
universe u

/-- The entry with the index `i` is the best one, and the first among the best. -/
def Extremal {α : Type u} (le : α → α → Prop) (before : ℕ → ℕ → Prop) (data : List α) (i : ℕ) :
    Prop :=
  ∃ x, data[i]? = some x ∧ ∀ k y, data[k]? = some y → le x y ∧ (before k i → ¬ le y x)

namespace Extremal

variable {α : Type u} {le : α → α → Prop} {before : ℕ → ℕ → Prop} {data data' : List α}
  {i j k m : ℕ} {x v : α}

section

variable (extremal : Extremal le before data i)
include extremal

theorem low : i < data.length := by
  obtain ⟨x, value, -⟩ := extremal
  exact (List.getElem?_eq_some_iff.1 value).1

section

variable (value : data[i]? = some x)
include value

theorem spec :
    ∀ k y, data[k]? = some y → le x y ∧ (before k i → ¬ le y x) := by
  obtain ⟨x', value', best⟩ := extremal
  rw [value] at value'
  cases value'
  exact best

theorem best : ∀ y ∈ data, le x y := by
  intro y mem
  obtain ⟨k, valueK⟩ := mem_iff_getElem?.1 mem
  exact (extremal.spec value k y valueK).1

theorem moved_iff
    (τ : Equiv.Perm ℕ) (moved : ∀ k, data'[τ k]? = data[k]?) : Extremal le before data' (τ i) ↔
      ∀ k y, data[k]? = some y → le y x → ¬ before (τ k) (τ i) := by
  constructor
  · intro extremal' k y valueK back first
    have better := extremal'.spec ((moved i).trans value) (τ k) y ((moved k).trans valueK)
    exact better.2 first back
  · intro first
    refine ⟨x, (moved i).trans value, fun k y valueK => ?_⟩
    have old : data[τ.symm k]? = some y := by
      rw [← moved, Equiv.apply_symm_apply, valueK]
    refine ⟨(extremal.spec value _ y old).1, fun earlier back => ?_⟩
    have later := first (τ.symm k) y old back
    rw [Equiv.apply_symm_apply] at later
    exact later earlier

end

theorem take (kept : i < m) : Extremal le before (data.take m) i := by
  obtain ⟨x, value, best⟩ := extremal
  refine ⟨x, by rw [getElem?_take_of_lt kept, value], fun k y valueK => best k y ?_⟩
  have low : k < m := by
    have both := (List.getElem?_eq_some_iff.1 valueK).1
    rw [length_take] at both
    exact Nat.lt_of_lt_of_le both (Nat.min_le_left ..)
  rwa [getElem?_take_of_lt low] at valueK

/-- Another entry is not better, or as good and does not come before. -/
theorem set_worse (value : data[i]? = some x)
    (other : j ≠ i) (worse : le x v) (later : le v x → ¬ before j i) :
    Extremal le before (data.set j v) i := by
  refine ⟨x, by rw [getElem?_set_ne other, value], fun k y valueK => ?_⟩
  by_cases here : k = j
  · subst here
    have low : k < data.length := by
      simpa using (List.getElem?_eq_some_iff.1 valueK).1
    rw [getElem?_set_self low] at valueK
    cases valueK
    exact ⟨worse, fun first back => later back first⟩
  · rw [getElem?_set_ne (Ne.symm here)] at valueK
    exact extremal.spec value k y valueK

theorem append_old (value : data[i]? = some x)
    (worse : le x v) (later : le v x → ∀ k, data.length ≤ k → ¬ before k i) :
    Extremal le before (data ++ List.replicate m v) i := by
  refine ⟨x, by rw [getElem?_append_left extremal.low, value], fun k y valueK => ?_⟩
  by_cases old : k < data.length
  · rw [getElem?_append_left old] at valueK
    exact extremal.spec value k y valueK
  · rw [getElem?_append_right (Nat.le_of_not_lt old), getElem?_replicate] at valueK
    obtain ⟨-, rfl⟩ : k - data.length < m ∧ v = y := by simpa using valueK
    exact ⟨worse, fun first back => later back k (Nat.le_of_not_lt old) first⟩

end

section Preorder

variable [IsPreorder α le]

theorem replicate (low : i < m) (first : ∀ k < m, ¬ before k i) :
    Extremal le before (List.replicate m v) i := by
  refine ⟨v, by simp [low], fun k y valueK => ?_⟩
  obtain ⟨lowK, rfl⟩ : k < m ∧ v = y := by simpa [getElem?_replicate] using valueK
  exact ⟨refl v, fun earlier => absurd earlier (first k lowK)⟩

theorem append_new (extremal : Extremal le before data i) (value : data[i]? = some x)
    (new : data.length ≤ j) (low : j < data.length + m) (better : le v x)
    (first : ∀ k, data.length ≤ k → k < data.length + m → ¬ before k j)
    (later : le x v → ∀ k < data.length, ¬ before k j) :
    Extremal le before (data ++ List.replicate m v) j := by
  refine ⟨v, ?_, fun k y valueK => ?_⟩
  · rw [getElem?_append_right new, getElem?_replicate, if_pos (by omega)]
  by_cases old : k < data.length
  · rw [getElem?_append_left old] at valueK
    have worse := (extremal.spec value k y valueK).1
    exact ⟨Trans.trans better worse, fun earlier back => later (Trans.trans worse back) k old earlier⟩
  · rw [getElem?_append_right (Nat.le_of_not_lt old), getElem?_replicate] at valueK
    obtain ⟨lowK, rfl⟩ : k - data.length < m ∧ v = y := by simpa using valueK
    exact ⟨refl v, fun earlier => absurd earlier (first k (Nat.le_of_not_lt old) (by omega))⟩

variable [IsStrictOrder ℕ before]

section

variable (extremal : Extremal le before data i) (value : data[i]? = some x)
include extremal value

theorem set_here
    (better : le v x) : Extremal le before (data.set i v) i := by
  refine ⟨v, getElem?_set_self extremal.low, fun k y valueK => ?_⟩
  by_cases here : k = i
  · subst here
    rw [getElem?_set_self extremal.low] at valueK
    cases valueK
    exact ⟨refl v, fun first => absurd first (irrefl k)⟩
  · rw [getElem?_set_ne (Ne.symm here)] at valueK
    obtain ⟨worse, later⟩ := extremal.spec value k y valueK
    exact ⟨Trans.trans better worse, fun first back => later first (Trans.trans back better)⟩

theorem set_other
    (low : j < data.length) (other : j ≠ i) (better : le v x) (first : le x v → before j i) :
    Extremal le before (data.set j v) j := by
  refine ⟨v, getElem?_set_self low, fun k y valueK => ?_⟩
  by_cases here : k = j
  · subst here
    rw [getElem?_set_self low] at valueK
    cases valueK
    exact ⟨refl v, fun earlier => absurd earlier (irrefl k)⟩
  · rw [getElem?_set_ne (Ne.symm here)] at valueK
    obtain ⟨worse, later⟩ := extremal.spec value k y valueK
    refine ⟨Trans.trans better worse, fun earlier back => ?_⟩
    have tie : le x v := Trans.trans worse back
    exact later (Trans.trans earlier (first tie)) (Trans.trans back better)

end

end Preorder

end Extremal

/-! ## Searches along a list -/

section Search

variable {α β γ : Type u} {le : β → β → Prop} {value : α → Option β} {has : γ → β → Prop}

/-- The candidate has the best value of all entries. There is none if no entry has a value. -/
def Selected (le : β → β → Prop) (value : α → Option β) (has : γ → β → Prop) (l : List α) :
    Option γ → Prop
  | none => ∀ v ∈ l, value v = none
  | some c => ∃ y, has c y ∧ ∀ v ∈ l, ∀ x, value v = some x → le y x

theorem selected_foldl [IsPreorder β le] (step : Option γ → α → Option γ)
    (skip : ∀ v best, value v = none → step best v = best)
    (first : ∀ v x, value v = some x → ∃ c, step none v = some c ∧ has c x)
    (next : ∀ v x c y, value v = some x → has c y →
      (∃ c', step (some c) v = some c' ∧ has c' x ∧ le x y) ∨ step (some c) v = some c ∧ le y x)
    (l : List α) : Selected le value has l (l.foldl step none) := by
  induction l using reverseRecOn with
  | nil => exact fun v mem => absurd mem not_mem_nil
  | append_singleton l v ih =>
    rw [foldl_append, foldl_cons, foldl_nil]
    have extended : ∀ z, (∀ w ∈ l, ∀ x, value w = some x → le z x) →
        (∀ x, value v = some x → le z x) → ∀ w ∈ l ++ [v], ∀ x, value w = some x → le z x := by
      intro z upper last w mem
      rcases mem_append.1 mem with old | new
      · exact upper w old
      · exact mem_singleton.1 new ▸ last
    cases val : value v with
    | none =>
      rw [skip v _ val]
      cases best : l.foldl step none with
      | none =>
        rw [best] at ih
        intro w mem
        rcases mem_append.1 mem with old | new
        · exact ih w old
        · exact mem_singleton.1 new ▸ val
      | some c =>
        rw [best] at ih
        obtain ⟨y, known, upper⟩ := ih
        exact ⟨y, known, extended y upper fun x set => by simp [val] at set⟩
    | some x =>
      have own : ∀ z, le z x → ∀ x', value v = some x' → le z x' := fun z better x' set =>
        Option.some_inj.1 (val.symm.trans set) ▸ better
      cases best : l.foldl step none with
      | none =>
        rw [best] at ih
        obtain ⟨c, taken, known⟩ := first v x val
        rw [taken]
        exact ⟨x, known, extended x (fun w old x' set => by simp [ih w old] at set)
          (own x (refl x))⟩
      | some c =>
        rw [best] at ih
        obtain ⟨y, known, upper⟩ := ih
        rcases next v x c y val known with ⟨c', taken, known', better⟩ | ⟨kept, worse⟩
        · rw [taken]
          exact ⟨x, known', extended x (fun w old x' set => Trans.trans better (upper w old x' set))
            (own x (refl x))⟩
        · rw [kept]
          exact ⟨y, known, extended y upper (own y worse)⟩

end Search

end Goblin.Library
