import Goblin.AttributeBounds

/-!
# Attributes as functions

An `attribute` stands for a function on all indices. An index that is not represented has the
default value, and according to its documentation, `SetValue` may grow the vector so that the
index is represented.

The vector does grow, unless a default value is assigned, but it ends in front of the index then.
The new value is written in either case, behind the end of the vector. So an assignment has the
documented effect if and only if the index has been represented before (`setValue_total_iff`).
-/

set_option autoImplicit false

namespace Goblin

open Library List Option

variable {a b size : ℕ}

namespace CachedAttribute

variable {α : Type} [LinearOrder α]

section

variable (A : CachedAttribute α) (index : ℕ)

def getValue : α :=
  if beyond : A.data.length ≤ index then A.defaultValue else A.data.get ⟨index, not_le.1 beyond⟩

/-- `data[index]`. There is no element behind the end of the vector. -/
def element : Except Raise α :=
  match A.data[index]? with
  | some x => .ok x
  | none => .error .fault

end

section

variable (index : ℕ) (newValue : α) (A : CachedAttribute α)

/-- `SetValue` grows the vector unless the default value is assigned. -/
def growFor : CachedAttribute α :=
  if A.data.length ≤ index ∧ newValue ≠ A.defaultValue then
    { A with data := A.data ++ List.replicate (index - A.data.length) A.defaultValue }
  else A

/-- The value to be replaced is the minimum and increases, or it is the maximum and decreases. -/
def losesBounds : Except Raise Bool := do
  let increases ← (if A.infimum = some index then do
      let x ← A.element index
      return decide (x < newValue)
    else return false)
  if increases then return true
  else if A.supremum = some index then do
    let x ← A.element index
    return decide (newValue < x)
  else return false

/-- `data[index] = newValue` -/
def setElement :
    Except Raise (CachedAttribute α) :=
  if index < A.data.length then .ok { A with data := A.data.set index newValue }
  else .error .fault

/-- The value is compared with the minimum. -/
def compareInfimum :
    Except Raise (CachedAttribute α) :=
  match A.infimum with
  | none => .ok A
  | some i => do
    let min ← A.element i
    return if newValue < min ∨ (newValue = min ∧ index < i) then { A with infimum := some index }
      else A

/-- The value is compared with the maximum. -/
def compareSupremum :
    Except Raise (CachedAttribute α) :=
  match A.supremum with
  | none => .ok A
  | some i => do
    let max ← A.element i
    return if max < newValue ∨ (newValue = max ∧ i < index) then { A with supremum := some index }
      else A

/-- `SetValue`, with the growth of the vector and with every access to it. -/
def setValueAt :
    Except Raise (CachedAttribute α) := do
  let A := A.growFor index newValue
  let lost ← A.losesBounds index newValue
  let A := if lost then A.releaseBounds else A
  let A ← A.setElement index newValue
  let A ← A.compareInfimum index newValue
  A.compareSupremum index newValue

end

/-! ## Bounds that are represented -/

/-- The bounds which are known are indices of the vector. -/
structure Bounded (A : CachedAttribute α) : Prop where
  infimum : ∀ i ∈ A.infimum, i < A.data.length
  supremum : ∀ i ∈ A.supremum, i < A.data.length

variable {A A' : CachedAttribute α} {index i j : ℕ} {x newValue : α}

omit [LinearOrder α] in
theorem bounded_none (data : List α) (x : α) : Bounded ⟨data, x, none, none⟩ :=
  ⟨(fun _ known => nomatch known), (fun _ known => nomatch known)⟩

omit [LinearOrder α] in
theorem Bounded.grow (bounded : A.Bounded) (more : A.data.length ≤ A'.data.length)
    (infimum : A'.infimum = A.infimum) (supremum : A'.supremum = A.supremum) : A'.Bounded := by
  constructor
  · intro i known
    exact (bounded.infimum i (infimum ▸ known)).trans_le more
  · intro i known
    exact (bounded.supremum i (supremum ▸ known)).trans_le more

theorem Bounded.releaseFor (bounded : A.Bounded) : (A.releaseFor index newValue).Bounded := by
  rw [CachedAttribute.releaseFor]
  split_ifs
  · exact bounded_none _ _
  · exact bounded

omit [LinearOrder α] in
theorem ite_lt {p : Prop} [Decidable p] (first : a < size) (second : b < size) :
    (if p then a else b) < size := by
  split_ifs
  · exact first
  · exact second

theorem Bounded.setValue (bounded : A.Bounded) (low : index < A.data.length)
    (res : A.setValue index newValue = .ok A') : A'.Bounded := by
  have bounded' : (A.releaseFor index newValue).Bounded := bounded.releaseFor
  rw [setValue_eq low] at res
  cases res
  constructor
  · intro r known
    obtain ⟨i, before, rfl⟩ := map_eq_some_iff.1 known
    have inside := bounded'.infimum i before
    rw [releaseFor_data] at inside
    dsimp only
    rw [length_set]
    exact ite_lt low inside
  · intro r known
    obtain ⟨i, before, rfl⟩ := map_eq_some_iff.1 known
    have inside := bounded'.supremum i before
    rw [releaseFor_data] at inside
    dsimp only
    rw [length_set]
    exact ite_lt low inside

omit [LinearOrder α] in
theorem Bounded.assign (bounded : A.Bounded) : (A.assign newValue).Bounded := by
  rw [CachedAttribute.assign]
  split_ifs with some
  · constructor
    · intro i known
      cases known
      simpa using some
    · intro i known
      cases known
      simpa using some
  · exact ⟨bounded.infimum, bounded.supremum⟩

theorem Bounded.appendItems (bounded : A.Bounded) (numItems : ℕ) :
    (A.appendItems numItems).Bounded := by
  rw [CachedAttribute.appendItems]
  split_ifs with idle
  · exact bounded
  constructor
  · intro r known
    obtain ⟨i, before, rfl⟩ := map_eq_some_iff.1 known
    have inside := bounded.infimum i before
    dsimp only
    rw [length_append, length_replicate]
    split_ifs <;> omega
  · intro r known
    obtain ⟨i, before, rfl⟩ := map_eq_some_iff.1 known
    have inside := bounded.supremum i before
    dsimp only
    rw [length_append, length_replicate]
    split_ifs <;> omega

omit [LinearOrder α] in
/-- The bounds that `EraseItems` keeps are in front of the erased values. -/
theorem kept_of_not_lost (bounded : A.Bounded)
    (kept : ¬ ((∃ i ∈ A.infimum, size ≤ i) ∨ ∃ i ∈ A.supremum, size ≤ i)) :
    Bounded ⟨A.data.take size, newValue, A.infimum, A.supremum⟩ := by
  obtain ⟨keptInf, keptSup⟩ := not_or.1 kept
  constructor
  · intro i known
    rw [length_take, lt_min_iff]
    exact ⟨not_le.1 fun gone => keptInf ⟨i, known, gone⟩, bounded.infimum i known⟩
  · intro i known
    rw [length_take, lt_min_iff]
    exact ⟨not_le.1 fun gone => keptSup ⟨i, known, gone⟩, bounded.supremum i known⟩

omit [LinearOrder α] in
theorem Bounded.eraseItems (bounded : A.Bounded) {numItems : ℕ}
    (res : A.eraseItems numItems = .ok A') : A'.Bounded := by
  rw [CachedAttribute.eraseItems] at res
  by_cases nothing : numItems = 0 ∨ A.data.length = 0
  · rw [if_pos nothing] at res
    cases res
    exact bounded
  by_cases enough : numItems ≤ A.data.length
  swap
  · rw [if_neg nothing, if_neg enough] at res
    cases res
  rw [if_neg nothing, if_pos enough] at res
  -- The default value does not matter for the bounds.
  generalize restored :
    (if numItems = A.data.length then { A with defaultValue := A.value 0 } else A) = B at res
  have boundedB : B.Bounded := by
    rw [← restored]
    split_ifs
    · exact ⟨bounded.infimum, bounded.supremum⟩
    · exact bounded
  cases res
  split_ifs with lost
  · exact bounded_none _ _
  · exact kept_of_not_lost boundedB lost

theorem swapped_lt {bound : Option ℕ} (lowA : a < size) (lowB : b < size)
    (inside : ∀ i ∈ bound, i < size) : ∀ i ∈ swapped a b bound, i < size := by
  intro i known
  rw [swapped] at known
  split_ifs at known
  · cases known
    exact lowB
  · cases known
    exact lowA
  · exact inside i known

theorem computeLoop_lt (l : List α) (i infimum supremum : ℕ) (min max : α) (low : infimum < i)
    (high : supremum < i) : (computeLoop l i infimum supremum min max).1 < i + l.length ∧
      (computeLoop l i infimum supremum min max).2 < i + l.length := by
  induction l generalizing i infimum supremum min max with
  | nil => exact ⟨low, high⟩
  | cons c l ih =>
    rw [computeLoop, length_cons, ← Nat.add_assoc, Nat.add_right_comm]
    split_ifs
    · exact ih (i + 1) i supremum c max (Nat.lt_succ_self i) (Nat.lt_succ_of_lt high)
    · exact ih (i + 1) infimum i min c (Nat.lt_succ_of_lt low) (Nat.lt_succ_self i)
    · exact ih (i + 1) infimum supremum min max (Nat.lt_succ_of_lt low) (Nat.lt_succ_of_lt high)

omit [LinearOrder α] in
theorem Bounded.increaseSize (bounded : A.Bounded)
    (res : A.increaseSize size = .ok A') : A'.Bounded := by
  rw [CachedAttribute.increaseSize] at res
  split_ifs at res with grows shrinks
  · cases res
    exact bounded.grow (by simp) rfl rfl
  · cases res
    exact bounded

omit [LinearOrder α] in
theorem Bounded.swapItems (bounded : A.Bounded)
    (res : A.swapItems a b = .ok A') : A'.Bounded := by
  rw [CachedAttribute.swapItems] at res
  split_ifs at res with empty eq inside
  · cases res
    exact bounded
  · cases res
    exact bounded
  · cases res
    constructor
    · simpa using swapped_lt inside.1 inside.2 bounded.infimum
    · simpa using swapped_lt inside.1 inside.2 bounded.supremum

theorem bounded_computeBounds : A.computeBounds.Bounded := by
  obtain ⟨data, defaultValue, infimum, supremum⟩ := A
  cases data with
  | nil => exact bounded_none _ _
  | cons x l =>
    obtain ⟨low, high⟩ := computeLoop_lt l 1 0 0 x x Nat.one_pos Nat.one_pos
    rw [Nat.add_comm] at low high
    constructor
    · intro i known
      cases known
      exact low
    · intro i known
      cases known
      exact high

section

variable (bounded : A.Bounded)
include bounded

theorem Bounded.minIndex : A.minIndex.1.Bounded := by
  rw [CachedAttribute.minIndex]
  split_ifs
  · exact bounded
  · exact bounded_computeBounds
  · exact bounded

theorem Bounded.maxIndex : A.maxIndex.1.Bounded := by
  rw [CachedAttribute.maxIndex]
  split_ifs
  · exact bounded
  · exact bounded_computeBounds
  · exact bounded

theorem Bounded.minValue : A.minValue.1.Bounded := by
  rw [CachedAttribute.minValue]
  split_ifs
  · exact bounded
  · exact bounded_computeBounds
  · exact bounded

theorem Bounded.maxValue : A.maxValue.1.Bounded := by
  rw [CachedAttribute.maxValue]
  split_ifs
  · exact bounded
  · exact bounded_computeBounds
  · exact bounded

theorem Bounded.isConstant : A.isConstant.1.Bounded := by
  rw [CachedAttribute.isConstant]
  by_cases empty : A.data.length = 0
  · rw [if_pos empty]
    exact bounded
  rw [if_neg empty]
  rcases first : A.minValue with ⟨A1, min⟩
  have bounded1 : A1.Bounded := by simpa only [first] using bounded.minValue
  dsimp only
  rcases second : A1.maxValue with ⟨A2, max⟩
  have bounded2 : A2.Bounded := by simpa only [second] using bounded1.maxValue
  dsimp only
  split_ifs
  · exact bounded2
  · exact bounded2.minValue

end

/-! ## Runs -/

theorem Bounded.after (bounded : A.Bounded) (req : Request α) : (A.after req).Bounded := by
  rw [CachedAttribute.after]
  cases served : A.serve req with
  | error raised => exact bounded
  | ok A' =>
    cases req with
    | setValue index newValue =>
      by_cases low : index < A.data.length
      · exact bounded.setValue low served
      · rw [serve, CachedAttribute.setValue, if_pos (not_lt.1 low)] at served
        cases served
    | setDefaultValue newValue =>
      cases served
      exact ⟨bounded.infimum, bounded.supremum⟩
    | setConstant newValue =>
      cases served
      exact bounded_none _ _
    | assign newValue =>
      cases served
      exact bounded.assign
    | increaseSize size => exact bounded.increaseSize served
    | appendItems numItems =>
      cases served
      exact bounded.appendItems numItems
    | eraseItems numItems => exact bounded.eraseItems served
    | swapItems index1 index2 => exact bounded.swapItems served
    | minIndex =>
      cases served
      exact bounded.minIndex
    | maxIndex =>
      cases served
      exact bounded.maxIndex
    | minValue =>
      cases served
      exact bounded.minValue
    | maxValue =>
      cases served
      exact bounded.maxValue
    | isConstant =>
      cases served
      exact bounded.isConstant

/-- The attributes that are reached by any requests. -/
inductive Runs (size : ℕ) (defaultValue : α) : CachedAttribute α → Prop
  | start : Runs size defaultValue (new size defaultValue)
  | step {A : CachedAttribute α} (request : Request α) (run : Runs size defaultValue A) :
      Runs size defaultValue (A.after request)

theorem Runs.bounded {defaultValue : α} (run : Runs size defaultValue A) : A.Bounded := by
  induction run with
  | start => exact bounded_none _ _
  | step req _ ih => exact ih.after req

/-! ## Assignments -/

/-- The function has the new value at the index and the old values elsewhere. The vector is as long
as before, unless it has to grow for the index. -/
structure Assigns (A : CachedAttribute α) (index : ℕ) (newValue : α) (A' : CachedAttribute α) :
    Prop where
  here : A'.getValue index = newValue
  elsewhere : ∀ j ≠ index, A'.getValue j = A.getValue j
  size : A'.data.length =
    if A.data.length ≤ index ∧ newValue ≠ A.defaultValue then index + 1 else A.data.length

omit [LinearOrder α] in
theorem getValue_eq (A : CachedAttribute α) (i : ℕ) : A.getValue i = A.value i := by
  rw [getValue, value]
  split_ifs with beyond
  · rw [getD_eq_getElem?_getD, getElem?_eq_none beyond, getD_none]
  · rw [getD_eq_getElem?_getD, getElem?_eq_getElem (not_le.1 beyond), getD_some]
    rfl

omit [LinearOrder α] in
theorem element_eq (low : i < A.data.length) : A.element i = .ok (A.value i) := by
  rw [element, getElem?_value low]

/-- The condition under which the bounds are released. -/
theorem losesBounds_eq (low : index < A.data.length) : A.losesBounds index newValue =
    .ok (decide ((A.infimum = some index ∧ A.value index < newValue) ∨
      (A.supremum = some index ∧ newValue < A.value index))) := by
  rw [losesBounds, element_eq low]
  by_cases infimum : A.infimum = some index
  · by_cases above : A.value index < newValue
    · simp [infimum, above, bind, Except.bind, pure, Except.pure]
    · by_cases supremum : A.supremum = some index
      · simp [infimum, above, supremum, bind, Except.bind, pure, Except.pure]
      · simp [infimum, above, supremum, bind, Except.bind, pure, Except.pure]
  · by_cases supremum : A.supremum = some index
    · simp [infimum, supremum, bind, Except.bind, pure, Except.pure]
    · simp [infimum, supremum, bind, Except.bind, pure, Except.pure]

section

variable (bounded : A.Bounded)
include bounded

theorem compareInfimum_eq :
    A.compareInfimum index newValue = .ok (A.lowerInfimum index newValue) := by
  rw [compareInfimum, lowerInfimum]
  cases known : A.infimum with
  | none => rfl
  | some i => simp only [element_eq (bounded.infimum i known), bind, Except.bind, pure, Except.pure]

theorem compareSupremum_eq :
    A.compareSupremum index newValue = .ok (A.raiseSupremum index newValue) := by
  rw [compareSupremum, raiseSupremum]
  cases known : A.supremum with
  | none => rfl
  | some i => simp only [element_eq (bounded.supremum i known), bind, Except.bind, pure, Except.pure]

theorem Bounded.lowerInfimum (low : index < A.data.length) :
    (A.lowerInfimum index newValue).Bounded := by
  rw [lowerInfimum_eq]
  constructor
  · intro r known
    obtain ⟨i, before, rfl⟩ := map_eq_some_iff.1 known
    exact ite_lt low (bounded.infimum i before)
  · exact bounded.supremum

/-- **`SetValue` does not leave the vector if the index is represented.** -/
theorem setValueAt_eq (low : index < A.data.length) :
    A.setValueAt index newValue = A.setValue index newValue := by
  have idle : A.growFor index newValue = A := if_neg fun grows => absurd low (not_lt.2 grows.1)
  have released : (if decide ((A.infimum = some index ∧ A.value index < newValue) ∨
      (A.supremum = some index ∧ newValue < A.value index)) = true then A.releaseBounds else A) =
      A.releaseFor index newValue := by
    rw [releaseFor]
    exact if_congr decide_eq_true_iff rfl rfl
  have low' : index < (A.releaseFor index newValue).data.length := by rwa [releaseFor_data]
  have bounded' : Bounded { A.releaseFor index newValue with
      data := (A.releaseFor index newValue).data.set index newValue } :=
    bounded.releaseFor.grow (length_set ▸ le_rfl) rfl rfl
  have written : (({ A.releaseFor index newValue with
      data := (A.releaseFor index newValue).data.set index newValue } :
        CachedAttribute α).lowerInfimum index newValue).Bounded :=
    bounded'.lowerInfimum (by rwa [length_set])
  rw [setValueAt, idle, losesBounds_eq low, setValue, if_neg (not_le.2 low)]
  simp only [bind, Except.bind]
  rw [released, setElement, if_pos low']
  simp only
  rw [compareInfimum_eq bounded']
  simp only
  rw [compareSupremum_eq written]
  rfl

end

theorem growFor_bounds : (A.growFor index newValue).infimum = A.infimum ∧
    (A.growFor index newValue).supremum = A.supremum := by
  rw [growFor]
  split_ifs
  · exact ⟨rfl, rfl⟩
  · exact ⟨rfl, rfl⟩

/-- Behind the end of the vector there is nothing to write to, also after it has grown. -/
theorem setValueAt_beyond (bounded : A.Bounded) (beyond : A.data.length ≤ index) :
    A.setValueAt index newValue = .error .fault := by
  have short : (A.growFor index newValue).data.length ≤ index := by
    rw [growFor]
    split_ifs
    · rw [length_append, length_replicate, Nat.add_sub_cancel' beyond]
    · exact beyond
  obtain ⟨sameInf, sameSup⟩ : (A.growFor index newValue).infimum = A.infimum ∧
      (A.growFor index newValue).supremum = A.supremum := growFor_bounds
  have infimum : A.infimum ≠ some index := fun known =>
    absurd (bounded.infimum index known) (not_lt.2 beyond)
  have supremum : A.supremum ≠ some index := fun known =>
    absurd (bounded.supremum index known) (not_lt.2 beyond)
  have kept : (A.growFor index newValue).losesBounds index newValue = .ok false := by
    simp only [losesBounds, sameInf, sameSup, if_neg infimum, if_neg supremum]
    rfl
  rw [setValueAt, kept]
  simp only [bind, Except.bind, Bool.false_eq_true, if_false]
  rw [setElement, if_neg (not_lt.2 short)]

theorem setValue_assigns (low : index < A.data.length)
    (res : A.setValue index newValue = .ok A') : A.Assigns index newValue A' := by
  rw [setValue_eq low] at res
  cases res
  constructor
  · rw [getValue_eq, value_set low, if_pos rfl]
  · intro j other
    rw [getValue_eq, getValue_eq, value_set low, if_neg other]
  · rw [if_neg fun grows => absurd low (not_lt.2 grows.1), length_set]

/-- **`SetValue` assigns the new value and does not leave the vector if and only if the index has
been represented before.** -/
theorem setValue_total_iff {size : ℕ} {defaultValue : α} (run : Runs size defaultValue A)
    (index : ℕ) (newValue : α) :
    (∃ A', A.setValueAt index newValue = .ok A' ∧ A.Assigns index newValue A') ↔
      index < A.data.length := by
  constructor
  · rintro ⟨A', result, -⟩
    apply not_le.1
    intro beyond
    rw [setValueAt_beyond run.bounded beyond] at result
    cases result
  · intro low
    rw [setValueAt_eq run.bounded low]
    exact ⟨_, setValue_eq low, setValue_assigns low (setValue_eq low)⟩

/-- A represented value is replaced. -/
theorem setValue_total_run :
    ∃ A', (new 2 (0 : ℤ)).setValueAt 1 5 = .ok A' ∧ (new 2 (0 : ℤ)).Assigns 1 5 A' :=
  (setValue_total_iff .start 1 5).2 Nat.one_lt_two

/-- The first value of an empty vector is written behind its end, whether it is the default value
or not. -/
theorem setValueAt_empty : (new 0 (0 : ℤ)).setValueAt 0 1 = .error .fault ∧
    (new 0 (0 : ℤ)).setValueAt 0 0 = .error .fault := by
  decide

end CachedAttribute

end Goblin
