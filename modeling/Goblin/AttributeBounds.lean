import Goblin.Augment
import Goblin.Library.Extrema

/-!
# The bounds of an attribute

An `attribute` remembers the first index of a minimal and the last index of a maximal value. The
methods which change values either adjust the two indices or release them, and they are computed
again when they are needed.

Two methods do neither. `IncreaseSize` appends default values and does not look at the bounds, and
`SwapItems` moves the bounds with their values, but not to another index with the same value.
`attribute_bounds` states that the bounds are exact in every run in which this does no harm, and
that the condition on the two methods cannot be weakened.
-/

set_option autoImplicit false

namespace Goblin

open Library List Option

variable {a b : ℕ}

/-- An `attribute` with its cached bounds. The value `NoIndex` is `none`. -/
structure CachedAttribute (α : Type) where
  data : List α
  defaultValue : α
  infimum : Option ℕ
  supremum : Option ℕ
deriving DecidableEq

namespace CachedAttribute

variable {α : Type} [LinearOrder α]

/-- The constructor. -/
def new (size : ℕ) (defaultValue : α) : CachedAttribute α :=
  ⟨List.replicate size defaultValue, defaultValue, none, none⟩

/-- A represented value. -/
def value (A : CachedAttribute α) (i : ℕ) : α := A.data.getD i A.defaultValue

def releaseBounds (A : CachedAttribute α) : CachedAttribute α :=
  { A with infimum := none, supremum := none }

section

variable (index : ℕ) (newValue : α) (A : CachedAttribute α)

/-- `SetValue` looks if the bounds are lost. -/
def releaseFor : CachedAttribute α :=
  if (A.infimum = some index ∧ A.value index < newValue) ∨
      (A.supremum = some index ∧ newValue < A.value index) then A.releaseBounds
  else A

/-- `SetValue` looks if the value is the new minimum. -/
def lowerInfimum : CachedAttribute α :=
  match A.infimum with
  | none => A
  | some i =>
    if newValue < A.value i ∨ (newValue = A.value i ∧ index < i) then
      { A with infimum := some index }
    else A

/-- `SetValue` looks if the value is the new maximum. -/
def raiseSupremum : CachedAttribute α :=
  match A.supremum with
  | none => A
  | some i =>
    if A.value i < newValue ∨ (newValue = A.value i ∧ i < index) then
      { A with supremum := some index }
    else A

/-- `SetValue`. An index that is not represented is written beyond the end of the vector. -/
def setValue :
    Except Raise (CachedAttribute α) := do
  if A.data.length ≤ index then throw .fault
  let A := A.releaseFor index newValue
  let A := { A with data := A.data.set index newValue }
  return (A.lowerInfimum index newValue).raiseSupremum index newValue

end

def setDefaultValue (newValue : α) (A : CachedAttribute α) : CachedAttribute α :=
  { A with defaultValue := newValue }

def setConstant (newValue : α) (_ : CachedAttribute α) : CachedAttribute α :=
  ⟨[], newValue, none, none⟩

def assign (newValue : α) (A : CachedAttribute α) : CachedAttribute α :=
  if 0 < A.data.length then
    ⟨List.replicate A.data.length newValue, newValue, some 0, some (A.data.length - 1)⟩
  else { A with defaultValue := newValue }

def increaseSize (size : ℕ) (A : CachedAttribute α) : Except Raise (CachedAttribute α) :=
  if A.data.length < size then
    return { A with data := A.data ++ List.replicate (size - A.data.length) A.defaultValue }
  else if size < A.data.length then throw (.range "IncreaseSize" "")
  else return A

section

variable (numItems : ℕ) (A : CachedAttribute α)

def appendItems : CachedAttribute α :=
  if numItems = 0 ∨ A.data.length = 0 then A
  else
    let infimum := A.infimum.map fun i =>
      if A.defaultValue < A.value i then A.data.length else i
    let data := A.data ++ List.replicate numItems A.defaultValue
    let supremum := A.supremum.map fun i =>
      if A.value i ≤ A.defaultValue then data.length - 1 else i
    { A with data := data, infimum := infimum, supremum := supremum }

/-- `EraseItems`. When reading from file, default values are stored at the first index. -/
def eraseItems : Except Raise (CachedAttribute α) :=
  if numItems = 0 ∨ A.data.length = 0 then return A
  else if numItems ≤ A.data.length then
    let A := if numItems = A.data.length then { A with defaultValue := A.value 0 } else A
    let lost := (∃ i ∈ A.infimum, A.data.length - numItems ≤ i) ∨
      ∃ i ∈ A.supremum, A.data.length - numItems ≤ i
    let A := if lost then A.releaseBounds else A
    return { A with data := A.data.take (A.data.length - numItems) }
  else throw (.range "EraseItems" "")

end

/-- Where `SwapItems` puts a bound. -/
def swapped (index1 index2 : ℕ) (bound : Option ℕ) : Option ℕ :=
  if bound = some index1 then some index2
  else if bound = some index2 then some index1
  else bound

def swapItems (index1 index2 : ℕ) (A : CachedAttribute α) : Except Raise (CachedAttribute α) :=
  if A.data.length = 0 then return A
  else if index1 = index2 then return A
  else if index1 < A.data.length ∧ index2 < A.data.length then
    return { A with
      infimum := swapped index1 index2 A.infimum
      supremum := swapped index1 index2 A.supremum
      data := (A.data.set index1 (A.value index2)).set index2 (A.value index1) }
  else throw (.range "SwapItems" "")

/-- The loop of `ComputeBounds`. -/
def computeLoop : List α → ℕ → ℕ → ℕ → α → α → ℕ × ℕ
  | [], _, infimum, supremum, _, _ => (infimum, supremum)
  | c :: rest, i, infimum, supremum, min, max =>
    if c < min then computeLoop rest (i + 1) i supremum c max
    else if max ≤ c then computeLoop rest (i + 1) infimum i min c
    else computeLoop rest (i + 1) infimum supremum min max

section

variable (A : CachedAttribute α)

def computeBounds : CachedAttribute α :=
  match A.data with
  | [] => A.releaseBounds
  | x :: rest =>
    let bounds := computeLoop rest 1 0 0 x x
    { A with infimum := some bounds.1, supremum := some bounds.2 }

def minIndex : CachedAttribute α × Option ℕ :=
  if A.data.length = 0 then (A, none)
  else
    let A := if A.infimum = none then A.computeBounds else A
    (A, A.infimum)

def maxIndex : CachedAttribute α × Option ℕ :=
  if A.data.length = 0 then (A, none)
  else
    let A := if A.supremum = none then A.computeBounds else A
    (A, A.supremum)

def minValue : CachedAttribute α × α :=
  if A.data.length = 0 then (A, A.defaultValue)
  else
    let A := if A.infimum = none then A.computeBounds else A
    (A, A.value (A.infimum.getD A.data.length))

def maxValue : CachedAttribute α × α :=
  if A.data.length = 0 then (A, A.defaultValue)
  else
    let A := if A.supremum = none then A.computeBounds else A
    (A, A.value (A.supremum.getD A.data.length))

def isConstant : CachedAttribute α × Bool :=
  if A.data.length = 0 then (A, true)
  else
    let (A, min) := A.minValue
    let (A, max) := A.maxValue
    if min < max then (A, false)
    else
      let (A, min) := A.minValue
      (A, min = A.defaultValue)

end

/-! ## Requests -/

/-- The requests to an attribute. -/
inductive Request (α : Type) where
  | setValue (index : ℕ) (newValue : α)
  | setDefaultValue (newValue : α)
  | setConstant (newValue : α)
  | assign (newValue : α)
  | increaseSize (size : ℕ)
  | appendItems (numItems : ℕ)
  | eraseItems (numItems : ℕ)
  | swapItems (index1 index2 : ℕ)
  | minIndex
  | maxIndex
  | minValue
  | maxValue
  | isConstant

section

variable (A : CachedAttribute α)

/-- A request. -/
def serve : Request α → Except Raise (CachedAttribute α)
  | .setValue index newValue => A.setValue index newValue
  | .setDefaultValue newValue => return A.setDefaultValue newValue
  | .setConstant newValue => return A.setConstant newValue
  | .assign newValue => return A.assign newValue
  | .increaseSize size => A.increaseSize size
  | .appendItems numItems => return A.appendItems numItems
  | .eraseItems numItems => A.eraseItems numItems
  | .swapItems index1 index2 => A.swapItems index1 index2
  | .minIndex => return A.minIndex.1
  | .maxIndex => return A.maxIndex.1
  | .minValue => return A.minValue.1
  | .maxValue => return A.maxValue.1
  | .isConstant => return A.isConstant.1

/-- The attribute after a request. One that raises has no effect. -/
def after (request : Request α) : CachedAttribute α :=
  match A.serve request with
  | .ok A' => A'
  | .error _ => A

/-- `SetValue` is called with represented indices. -/
def Legal : Request α → Prop
  | .setValue index _ => index < A.data.length
  | _ => True

/-- New default values are neither below the known minimum nor as large as the known maximum. After
a swap, the known bounds are still the first minimum and the last maximum. -/
def Harmless : Request α → Prop
  | .increaseSize size => A.data.length < size →
      (∀ i ∈ A.infimum, A.value i ≤ A.defaultValue) ∧ ∀ i ∈ A.supremum, A.defaultValue < A.value i
  | .swapItems index1 index2 => index1 < A.data.length → index2 < A.data.length →
      (∀ i ∈ A.infimum, ∀ k < A.data.length, A.value k = A.value i →
        Equiv.swap index1 index2 i ≤ Equiv.swap index1 index2 k) ∧
      ∀ i ∈ A.supremum, ∀ k < A.data.length, A.value k = A.value i →
        Equiv.swap index1 index2 k ≤ Equiv.swap index1 index2 i
  | _ => True

end

/-! ## Exact bounds -/

/-- The smallest index of a minimal value. -/
abbrev FirstMin (data : List α) (i : ℕ) : Prop := Extremal (· ≤ ·) (· < ·) data i

/-- The largest index of a maximal value. -/
abbrev LastMax (data : List α) (i : ℕ) : Prop := Extremal (· ≥ ·) (· > ·) data i

/-- The bounds which are known are right. -/
structure Exact (A : CachedAttribute α) : Prop where
  infimum : ∀ i, A.infimum = some i → FirstMin A.data i
  supremum : ∀ i, A.supremum = some i → LastMax A.data i

variable {A A' : CachedAttribute α} {index i j : ℕ} {x newValue : α}

omit [LinearOrder α] in
theorem getElem?_value (low : i < A.data.length) : A.data[i]? = some (A.value i) := by
  rw [value, getD_eq_getElem?_getD, getElem?_eq_getElem low, getD_some]

theorem exact_none (data : List α) (x : α) : Exact ⟨data, x, none, none⟩ := by
  refine ⟨fun i known => ?_, fun i known => ?_⟩
  · cases known
  · cases known

theorem Exact.releaseFor (exact : A.Exact) : (A.releaseFor index newValue).Exact := by
  rw [CachedAttribute.releaseFor]
  split_ifs
  · exact exact_none _ _
  · exact exact

theorem releaseFor_data : (A.releaseFor index newValue).data = A.data := by
  rw [CachedAttribute.releaseFor]
  split_ifs <;> rfl

theorem le_of_releaseFor_infimum (kept : (A.releaseFor index newValue).infimum = some index) :
    newValue ≤ A.value index := by
  rw [CachedAttribute.releaseFor] at kept
  split_ifs at kept with lost
  · cases kept
  · exact not_lt.1 fun above => lost (.inl ⟨kept, above⟩)

theorem le_of_releaseFor_supremum (kept : (A.releaseFor index newValue).supremum = some index) :
    A.value index ≤ newValue := by
  rw [CachedAttribute.releaseFor] at kept
  split_ifs at kept with lost
  · cases kept
  · exact not_lt.1 fun below => lost (.inr ⟨kept, below⟩)

omit [LinearOrder α] in
theorem value_set (low : index < A.data.length) (infimum supremum : Option ℕ) :
    CachedAttribute.value ⟨A.data.set index newValue, A.defaultValue, infimum, supremum⟩ i =
      if i = index then newValue else A.value i := by
  simp only [value, getD_eq_getElem?_getD, getElem?_set]
  by_cases here : i = index
  · simp [here, low]
  · simp [here, Ne.symm here]

theorem firstMin_set (exact : FirstMin A.data i) (low : index < A.data.length)
    (kept : i = index → newValue ≤ A.value index) : FirstMin (A.data.set index newValue)
      (if newValue < (if i = index then newValue else A.value i) ∨
        (newValue = (if i = index then newValue else A.value i) ∧ index < i) then index else i) := by
  have known := getElem?_value exact.low
  by_cases here : i = index
  · subst here
    rw [if_pos rfl, ite_self]
    exact exact.set_here known (kept rfl)
  rw [if_neg here]
  split_ifs with better
  · refine exact.set_other known low (Ne.symm here) ?_ fun back => ?_
    · exact better.elim le_of_lt fun tie => le_of_eq tie.1
    · exact (better.resolve_left (not_lt.2 back)).2
  · obtain ⟨worse, later⟩ := not_or.1 better
    refine exact.set_worse known (Ne.symm here) (not_lt.1 worse) fun back first => later ?_
    exact ⟨le_antisymm back (not_lt.1 worse), first⟩

theorem lastMax_set (exact : LastMax A.data i) (low : index < A.data.length)
    (kept : i = index → A.value index ≤ newValue) : LastMax (A.data.set index newValue)
      (if (if i = index then newValue else A.value i) < newValue ∨
        (newValue = (if i = index then newValue else A.value i) ∧ i < index) then index else i) := by
  have known := getElem?_value exact.low
  by_cases here : i = index
  · subst here
    rw [if_pos rfl, ite_self]
    exact exact.set_here known (kept rfl)
  rw [if_neg here]
  split_ifs with better
  · refine exact.set_other known low (Ne.symm here) ?_ fun back => ?_
    · exact better.elim le_of_lt fun tie => ge_of_eq tie.1
    · exact (better.resolve_left (not_lt.2 back)).2
  · obtain ⟨worse, later⟩ := not_or.1 better
    refine exact.set_worse known (Ne.symm here) (not_lt.1 worse) fun back first => later ?_
    exact ⟨le_antisymm (not_lt.1 worse) back, first⟩

theorem lowerInfimum_eq : A.lowerInfimum index newValue = { A with
    infimum := A.infimum.map fun i =>
      if newValue < A.value i ∨ (newValue = A.value i ∧ index < i) then index else i } := by
  obtain ⟨data, defaultValue, _ | i, supremum⟩ := A
  · rfl
  · simp only [lowerInfimum, map_some]
    split_ifs <;> rfl

theorem raiseSupremum_eq : A.raiseSupremum index newValue = { A with
    supremum := A.supremum.map fun i =>
      if A.value i < newValue ∨ (newValue = A.value i ∧ i < index) then index else i } := by
  obtain ⟨data, defaultValue, infimum, _ | i⟩ := A
  · rfl
  · simp only [raiseSupremum, map_some]
    split_ifs <;> rfl

theorem releaseFor_defaultValue : (A.releaseFor index newValue).defaultValue = A.defaultValue := by
  rw [releaseFor]
  split_ifs <;> rfl

theorem setValue_eq (low : index < A.data.length) : A.setValue index newValue = .ok
    { data := A.data.set index newValue
      defaultValue := A.defaultValue
      infimum := (A.releaseFor index newValue).infimum.map fun i =>
        if newValue < (if i = index then newValue else A.value i) ∨
          (newValue = (if i = index then newValue else A.value i) ∧ index < i) then index else i
      supremum := (A.releaseFor index newValue).supremum.map fun i =>
        if (if i = index then newValue else A.value i) < newValue ∨
          (newValue = (if i = index then newValue else A.value i) ∧ i < index) then index else i } := by
  rw [setValue, if_neg (not_le.2 low)]
  simp only [lowerInfimum_eq, raiseSupremum_eq, releaseFor_data, releaseFor_defaultValue,
    value_set low]
  rfl

section

variable (exact : A.Exact)
include exact

theorem Exact.setValue (low : index < A.data.length)
    (res : A.setValue index newValue = .ok A') : A'.Exact := by
  have exact' : (A.releaseFor index newValue).Exact := exact.releaseFor
  rw [setValue_eq low] at res
  cases res
  refine ⟨fun r known => ?_, fun r known => ?_⟩
  · obtain ⟨i, before, rfl⟩ := map_eq_some_iff.1 known
    have first := exact'.infimum i before
    rw [releaseFor_data] at first
    refine firstMin_set first low fun here => ?_
    exact le_of_releaseFor_infimum (here ▸ before)
  · obtain ⟨i, before, rfl⟩ := map_eq_some_iff.1 known
    have last := exact'.supremum i before
    rw [releaseFor_data] at last
    refine lastMax_set last low fun here => ?_
    exact le_of_releaseFor_supremum (here ▸ before)

theorem Exact.assign : (A.assign newValue).Exact := by
  rw [CachedAttribute.assign]
  split_ifs with some
  · refine ⟨fun i known => ?_, fun i known => ?_⟩
    · cases known
      exact Extremal.replicate some fun k _ => Nat.not_lt_zero k
    · cases known
      exact Extremal.replicate (Nat.sub_lt some Nat.one_pos) fun k low => by omega
  · exact ⟨exact.infimum, exact.supremum⟩

/-- New default values leave the bounds as they are under the condition of `Harmless`. -/
theorem exact_append_iff {m : ℕ} (more : 0 < m) :
    Exact { A with data := A.data ++ List.replicate m A.defaultValue } ↔
      (∀ i ∈ A.infimum, A.value i ≤ A.defaultValue) ∧
        ∀ i ∈ A.supremum, A.defaultValue < A.value i := by
  have fresh : (A.data ++ List.replicate m A.defaultValue)[A.data.length]? =
      some A.defaultValue := by
    rw [getElem?_append_right le_rfl, Nat.sub_self, getElem?_replicate, if_pos more]
  have old : ∀ i < A.data.length,
      (A.data ++ List.replicate m A.defaultValue)[i]? = some (A.value i) := fun i low =>
    (getElem?_append_left low).trans (getElem?_value low)
  constructor
  · intro grown
    refine ⟨fun i known => ?_, fun i known => ?_⟩
    · have low := (exact.infimum i known).low
      exact ((grown.infimum i known).spec (old i low) _ _ fresh).1
    · have low := (exact.supremum i known).low
      exact not_le.1 (((grown.supremum i known).spec (old i low) _ _ fresh).2 low)
  · rintro ⟨above, below⟩
    refine ⟨fun i known => ?_, fun i known => ?_⟩
    · have first := exact.infimum i known
      refine first.append_old (getElem?_value first.low) (above i known) fun _ k new => ?_
      exact not_lt.2 (first.low.le.trans new)
    · have last := exact.supremum i known
      refine last.append_old (getElem?_value last.low) (below i known).le fun back => ?_
      exact absurd (below i known) (not_lt.2 back)

theorem Exact.appendItems (numItems : ℕ) : (A.appendItems numItems).Exact := by
  rw [CachedAttribute.appendItems]
  split_ifs with nothing
  · exact exact
  obtain ⟨more, -⟩ := not_or.1 nothing
  refine ⟨fun r known => ?_, fun r known => ?_⟩
  · obtain ⟨i, before, rfl⟩ := map_eq_some_iff.1 known
    have first := exact.infimum i before
    have val' := getElem?_value first.low
    split_ifs with below
    · refine first.append_new val' le_rfl (by omega) below.le (fun k new _ => ?_) fun back => ?_
      · exact not_lt.2 new
      · exact absurd below (not_lt.2 back)
    · refine first.append_old val' (not_lt.1 below) fun _ k new => ?_
      exact not_lt.2 (first.low.le.trans new)
  · obtain ⟨i, before, rfl⟩ := map_eq_some_iff.1 known
    have last := exact.supremum i before
    have val' := getElem?_value last.low
    rw [length_append, length_replicate]
    split_ifs with above
    · refine last.append_new val' (by omega) (by omega) above (fun k _ low => ?_) fun _ k old => ?_
      · omega
      · omega
    · refine last.append_old val' (not_le.1 above).le fun back => ?_
      exact absurd back above

theorem Exact.eraseItems {numItems : ℕ} (res : A.eraseItems numItems = .ok A') : A'.Exact := by
  rw [CachedAttribute.eraseItems] at res
  by_cases nothing : numItems = 0 ∨ A.data.length = 0
  · rw [if_pos nothing] at res
    cases res
    exact exact
  by_cases enough : numItems ≤ A.data.length
  swap
  · rw [if_neg nothing, if_neg enough] at res
    cases res
  rw [if_neg nothing, if_pos enough] at res
  -- The default value does not matter for the bounds.
  generalize restored : (if numItems = A.data.length then { A with defaultValue := A.value 0 } else A)
    = B at res
  have eq : B.data = A.data ∧ B.infimum = A.infimum ∧ B.supremum = A.supremum := by
    rw [← restored]
    split_ifs
    · exact ⟨rfl, rfl, rfl⟩
    · exact ⟨rfl, rfl, rfl⟩
  have exactB : B.Exact := by
    refine ⟨fun i known => ?_, fun i known => ?_⟩
    · rw [eq.1]
      exact exact.infimum i (eq.2.1 ▸ known)
    · rw [eq.1]
      exact exact.supremum i (eq.2.2 ▸ known)
  cases res
  split_ifs with lost
  · exact exact_none _ _
  · obtain ⟨keptInf, keptSup⟩ := not_or.1 lost
    refine ⟨fun i known => (exactB.infimum i known).take ?_, fun i known =>
      (exactB.supremum i known).take ?_⟩
    · exact not_le.1 fun gone => keptInf ⟨i, known, gone⟩
    · exact not_le.1 fun gone => keptSup ⟨i, known, gone⟩

end

/-! ## Swaps -/

theorem swapped_eq (a b : ℕ) (bound : Option ℕ) :
    swapped a b bound = bound.map (Equiv.swap a b) := by
  cases bound with
  | none => rfl
  | some i =>
    simp only [swapped, map_some, Option.some.injEq]
    split_ifs with first second
    · rw [first, Equiv.swap_apply_left]
    · rw [second, Equiv.swap_apply_right]
    · rw [Equiv.swap_apply_of_ne_of_ne first second]

omit [LinearOrder α] in
theorem getElem?_swap (lowA : a < A.data.length) (lowB : b < A.data.length) (k : ℕ) :
    ((A.data.set a (A.value b)).set b (A.value a))[Equiv.swap a b k]? = A.data[k]? := by
  by_cases isB : k = b
  · subst isB
    rw [Equiv.swap_apply_right]
    by_cases eq : a = k
    · subst eq
      rw [getElem?_set_self (by simpa using lowA), getElem?_value lowA]
    · rw [getElem?_set_ne (Ne.symm eq), getElem?_set_self lowA, getElem?_value lowB]
  by_cases isA : k = a
  · subst isA
    rw [Equiv.swap_apply_left, getElem?_set_self (by simpa using lowB), getElem?_value lowA]
  · rw [Equiv.swap_apply_of_ne_of_ne isA isB, getElem?_set_ne (Ne.symm isB),
      getElem?_set_ne (Ne.symm isA)]

theorem exact_swap_iff (exact : A.Exact) (lowA : a < A.data.length) (lowB : b < A.data.length) :
    Exact { A with
      infimum := swapped a b A.infimum
      supremum := swapped a b A.supremum
      data := (A.data.set a (A.value b)).set b (A.value a) } ↔ A.Harmless (.swapItems a b) := by
  have first : ∀ i ∈ A.infimum,
      (FirstMin ((A.data.set a (A.value b)).set b (A.value a)) (Equiv.swap a b i) ↔
        ∀ k < A.data.length, A.value k = A.value i → Equiv.swap a b i ≤ Equiv.swap a b k) := by
    intro i known
    have extremal := exact.infimum i known
    have val' := getElem?_value extremal.low
    refine (extremal.moved_iff val' _ (getElem?_swap lowA lowB)).trans ?_
    constructor
    · exact fun moved k low tie => not_lt.1 (moved k _ (getElem?_value low) tie.le)
    · intro least k y valueK back
      have low := (List.getElem?_eq_some_iff.1 valueK).1
      rw [getElem?_value low] at valueK
      cases valueK
      have tie := le_antisymm back (extremal.spec val' k _ (getElem?_value low)).1
      exact not_lt.2 (least k low tie)
  have last : ∀ i ∈ A.supremum,
      (LastMax ((A.data.set a (A.value b)).set b (A.value a)) (Equiv.swap a b i) ↔
        ∀ k < A.data.length, A.value k = A.value i → Equiv.swap a b k ≤ Equiv.swap a b i) := by
    intro i known
    have extremal := exact.supremum i known
    have val' := getElem?_value extremal.low
    refine (extremal.moved_iff val' _ (getElem?_swap lowA lowB)).trans ?_
    constructor
    · exact fun moved k low tie => not_lt.1 (moved k _ (getElem?_value low) tie.ge)
    · intro greatest k y valueK back
      have low := (List.getElem?_eq_some_iff.1 valueK).1
      rw [getElem?_value low] at valueK
      cases valueK
      have tie := le_antisymm (extremal.spec val' k _ (getElem?_value low)).1 back
      exact not_lt.2 (greatest k low tie)
  constructor
  · intro exact' _ _
    refine ⟨fun i known => (first i known).1 (exact'.infimum _ ?_), fun i known =>
      (last i known).1 (exact'.supremum _ ?_)⟩
    · dsimp only
      rw [swapped_eq, mem_def.1 known, map_some]
    · dsimp only
      rw [swapped_eq, mem_def.1 known, map_some]
  · intro harmless
    obtain ⟨least, greatest⟩ := harmless lowA lowB
    refine ⟨fun r known => ?_, fun r known => ?_⟩
    · dsimp only at known
      rw [swapped_eq] at known
      obtain ⟨i, before, rfl⟩ := map_eq_some_iff.1 known
      exact (first i before).2 (least i before)
    · dsimp only at known
      rw [swapped_eq] at known
      obtain ⟨i, before, rfl⟩ := map_eq_some_iff.1 known
      exact (last i before).2 (greatest i before)

/-! ## The loop -/

theorem computeLoop_spec : ∀ (rest front : List α) {infimum supremum : ℕ} {min max : α},
    FirstMin front infimum → LastMax front supremum → front[infimum]? = some min →
    front[supremum]? = some max →
    FirstMin (front ++ rest) (computeLoop rest front.length infimum supremum min max).1 ∧
      LastMax (front ++ rest) (computeLoop rest front.length infimum supremum min max).2 := by
  intro rest
  induction rest with
  | nil =>
    intro front infimum supremum min max first last _ _
    rw [append_nil]
    exact ⟨first, last⟩
  | cons c rest ih =>
    intro front infimum supremum min max first last valueMin valueMax
    have ordered : min ≤ max := (first.spec valueMin supremum max valueMax).1
    have longer : front ++ c :: rest = (front ++ List.replicate 1 c) ++ rest := by simp
    have count : front.length + 1 = (front ++ List.replicate 1 c).length := by simp
    have keptMin : (front ++ List.replicate 1 c)[infimum]? = some min := by
      rw [getElem?_append_left first.low, valueMin]
    have keptMax : (front ++ List.replicate 1 c)[supremum]? = some max := by
      rw [getElem?_append_left last.low, valueMax]
    have fresh : (front ++ List.replicate 1 c)[front.length]? = some c := by simp
    have laterMin : ∀ k, front.length ≤ k → ¬ k < infimum := fun k new =>
      not_lt.2 (first.low.le.trans new)
    rw [computeLoop, longer]
    by_cases below : c < min
    · rw [if_pos below, count]
      refine ih _ (first.append_new valueMin le_rfl (by omega) below.le (fun k new _ => ?_)
        fun back => absurd below (not_lt.2 back)) (last.append_old valueMax ?_ fun back => ?_)
        fresh keptMax
      · exact not_lt.2 new
      · exact (below.trans_le ordered).le
      · exact absurd (below.trans_le ordered) (not_lt.2 back)
    rw [if_neg below]
    have first' := first.append_old (m := 1) valueMin (not_lt.1 below) fun _ => laterMin
    split_ifs with above
    · rw [count]
      refine ih _ first' (last.append_new valueMax le_rfl (by omega) above (fun k _ low => ?_)
        fun _ k old => ?_) keptMin fresh
      · omega
      · omega
    · rw [count]
      refine ih _ first' (last.append_old valueMax (not_le.1 above).le fun back => ?_) keptMin
        keptMax
      exact absurd back above

theorem computeBounds_spec (some : A.data ≠ []) : ∃ i j, A.computeBounds =
    { A with infimum := .some i, supremum := .some j } ∧ FirstMin A.data i ∧ LastMax A.data j := by
  obtain ⟨data, defaultValue, infimum, supremum⟩ := A
  cases data with
  | nil => exact absurd rfl some
  | cons x rest =>
    have single : FirstMin [x] 0 := Extremal.replicate (m := 1) Nat.one_pos fun k _ =>
      Nat.not_lt_zero k
    have single' : LastMax [x] 0 := Extremal.replicate (m := 1) Nat.one_pos fun k low => by omega
    exact ⟨_, _, rfl, computeLoop_spec rest [x] single single' rfl rfl⟩

/-! ## Queries -/

/-- The attribute `A'` is `A`, maybe with other bounds, which are exact. -/
structure Queried (A A' : CachedAttribute α) : Prop where
  exact : A'.Exact
  data : A'.data = A.data
  defaultValue : A'.defaultValue = A.defaultValue

/-- A query computes the bounds if it needs one that is not known. -/
theorem computed_cases (some : A.data ≠ []) (bound : CachedAttribute α → Option ℕ)
    (found : ∀ i j, bound { A with infimum := .some i, supremum := .some j } ≠ none) :
    ∃ A' i, (if bound A = none then A.computeBounds else A) = A' ∧ bound A' = .some i ∧
      (A' = A ∨ Queried A A') := by
  by_cases unknown : bound A = none
  · obtain ⟨i, j, res, first, last⟩ := computeBounds_spec some
    obtain ⟨k, known⟩ := ne_none_iff_exists'.1 (found i j)
    rw [if_pos unknown, res]
    refine ⟨_, k, rfl, known, .inr ⟨⟨fun k known => ?_, fun k known => ?_⟩, rfl, rfl⟩⟩
    · cases known
      exact first
    · cases known
      exact last
  · obtain ⟨i, known⟩ := ne_none_iff_exists'.1 unknown
    rw [if_neg unknown]
    exact ⟨A, i, rfl, known, .inl rfl⟩

section

variable (exact : A.Exact)
include exact

section

variable (some : A.data ≠ [])
include some

theorem Exact.computed (bound : CachedAttribute α → Option ℕ)
    (found : ∀ i j, bound { A with infimum := .some i, supremum := .some j } ≠ none) :
    ∃ A' i, (if bound A = none then A.computeBounds else A) = A' ∧ bound A' = .some i ∧
      Queried A A' := by
  obtain ⟨A', i, res, known, rfl | queried⟩ := computed_cases some bound found
  · exact ⟨A', i, res, known, exact, rfl, rfl⟩
  · exact ⟨A', i, res, known, queried⟩

theorem Exact.minIndex : ∃ A' i, A.minIndex = (A', .some i) ∧ FirstMin A.data i ∧ Queried A A' := by
  obtain ⟨A', i, res, known, queried⟩ := exact.computed some (·.infimum) (by simp)
  refine ⟨A', i, ?_, queried.data ▸ queried.exact.infimum i known, queried⟩
  simp only [CachedAttribute.minIndex, length_eq_zero_iff, some, if_false, res, known]

theorem Exact.maxIndex : ∃ A' i, A.maxIndex = (A', .some i) ∧ LastMax A.data i ∧ Queried A A' := by
  obtain ⟨A', i, res, known, queried⟩ := exact.computed some (·.supremum) (by simp)
  refine ⟨A', i, ?_, queried.data ▸ queried.exact.supremum i known, queried⟩
  simp only [CachedAttribute.maxIndex, length_eq_zero_iff, some, if_false, res, known]

theorem Exact.minValue : ∃ A' x,
    A.minValue = (A', x) ∧ x ∈ A.data ∧ (∀ y ∈ A.data, x ≤ y) ∧ Queried A A' := by
  obtain ⟨A', i, res, known, queried⟩ := exact.computed some (·.infimum) (by simp)
  have first : FirstMin A.data i := queried.data ▸ queried.exact.infimum i known
  obtain ⟨x, reads, -⟩ := id first
  refine ⟨A', x, ?_, mem_of_getElem? reads, first.best reads, queried⟩
  simp only [CachedAttribute.minValue, length_eq_zero_iff, some, if_false, res, known,
    getD_some, value, queried.data, getD_eq_getElem?_getD, reads]

theorem Exact.maxValue : ∃ A' x,
    A.maxValue = (A', x) ∧ x ∈ A.data ∧ (∀ y ∈ A.data, y ≤ x) ∧ Queried A A' := by
  obtain ⟨A', i, res, known, queried⟩ := exact.computed some (·.supremum) (by simp)
  have last : LastMax A.data i := queried.data ▸ queried.exact.supremum i known
  obtain ⟨x, reads, -⟩ := id last
  refine ⟨A', x, ?_, mem_of_getElem? reads, last.best reads, queried⟩
  simp only [CachedAttribute.maxValue, length_eq_zero_iff, some, if_false, res, known,
    getD_some, value, queried.data, getD_eq_getElem?_getD, reads]

end

theorem Exact.queried (bound : CachedAttribute α → Option ℕ)
    (found : ∀ i j, bound { A with infimum := some i, supremum := some j } ≠ none) :
    (if A.data.length = 0 then A
      else if bound A = none then A.computeBounds else A).Exact := by
  split_ifs with empty unknown
  · exact exact
  · have some : A.data ≠ [] := fun none => empty (by rw [none]; rfl)
    obtain ⟨A', i, res, -, queried⟩ := exact.computed some bound found
    rw [if_pos unknown] at res
    exact res ▸ queried.exact
  · exact exact

theorem Exact.isConstant : A.isConstant.1.Exact ∧
    (A.isConstant.2 = true ↔ ∀ x ∈ A.data, x = A.defaultValue) := by
  by_cases empty : A.data = []
  · rw [CachedAttribute.isConstant, if_pos (by simp [empty])]
    exact ⟨exact, by simp [empty]⟩
  obtain ⟨A1, min, res1, memMin, least, exact1, data1, default1⟩ := exact.minValue empty
  obtain ⟨A2, max, res2, memMax, greatest, exact2, data2, default2⟩ :=
    exact1.maxValue (data1 ▸ empty)
  obtain ⟨A3, min', res3, memMin', least', exact3, data3, default3⟩ :=
    exact2.minValue (by rwa [data2, data1])
  rw [CachedAttribute.isConstant, if_neg (by simpa using empty), res1]
  simp only [res2, res3]
  rw [data1] at data2 memMax greatest
  rw [data2] at memMin' least'
  rw [default1] at default2
  rw [default2] at default3
  split_ifs with apart
  · refine ⟨exact2, iff_of_false (by simp) fun constant => ?_⟩
    rw [constant min memMin, constant max memMax] at apart
    exact lt_irrefl _ apart
  refine ⟨exact3, ?_⟩
  rw [decide_eq_true_iff, default3]
  constructor
  · rintro rfl x mem
    have below : x ≤ A.defaultValue :=
      (greatest x mem).trans ((not_lt.1 apart).trans (least _ memMin'))
    exact le_antisymm below (least' x mem)
  · exact fun constant => constant min' memMin'

end

/-! ## Right values -/

/-- The values at the known bounds are right, maybe not at the extremal indices. -/
structure Attained (A : CachedAttribute α) : Prop where
  infimum : ∀ i, A.infimum = some i → i < A.data.length ∧ ∀ x ∈ A.data, A.value i ≤ x
  supremum : ∀ i, A.supremum = some i → i < A.data.length ∧ ∀ x ∈ A.data, x ≤ A.value i

theorem Exact.attained (exact : A.Exact) : A.Attained := by
  refine ⟨fun i known => ?_, fun i known => ?_⟩
  · have first := exact.infimum i known
    obtain ⟨x, reads, -⟩ := id first
    obtain ⟨low, -⟩ := List.getElem?_eq_some_iff.1 reads
    exact ⟨low, first.best (getElem?_value low)⟩
  · have last := exact.supremum i known
    obtain ⟨x, reads, -⟩ := id last
    obtain ⟨low, -⟩ := List.getElem?_eq_some_iff.1 reads
    exact ⟨low, last.best (getElem?_value low)⟩

/-- The attribute `A'` is `A`, maybe with other bounds, which have the right values. -/
structure Consulted (A A' : CachedAttribute α) : Prop where
  attained : A'.Attained
  data : A'.data = A.data
  defaultValue : A'.defaultValue = A.defaultValue

section

variable (attained : A.Attained) (some : A.data ≠ [])
include attained some

theorem Attained.computed (bound : CachedAttribute α → Option ℕ)
    (found : ∀ i j, bound { A with infimum := .some i, supremum := .some j } ≠ none) :
    ∃ A' i, (if bound A = none then A.computeBounds else A) = A' ∧ bound A' = .some i ∧
      Consulted A A' := by
  obtain ⟨A', i, res, known, rfl | queried⟩ := computed_cases some bound found
  · exact ⟨A', i, res, known, attained, rfl, rfl⟩
  · exact ⟨A', i, res, known, queried.exact.attained, queried.data, queried.defaultValue⟩

theorem Attained.minValue : ∃ A' x,
    A.minValue = (A', x) ∧ x ∈ A.data ∧ (∀ y ∈ A.data, x ≤ y) ∧ Consulted A A' := by
  obtain ⟨A', i, res, known, consulted⟩ := attained.computed some (·.infimum) (by simp)
  obtain ⟨low, least⟩ := consulted.attained.infimum i known
  refine ⟨A', A'.value i, ?_, ?_, consulted.data ▸ least, consulted⟩
  · simp only [CachedAttribute.minValue, length_eq_zero_iff, some, if_false, res, known,
      getD_some]
  · rw [← consulted.data]
    exact mem_of_getElem? (getElem?_value low)

theorem Attained.maxValue : ∃ A' x,
    A.maxValue = (A', x) ∧ x ∈ A.data ∧ (∀ y ∈ A.data, y ≤ x) ∧ Consulted A A' := by
  obtain ⟨A', i, res, known, consulted⟩ := attained.computed some (·.supremum) (by simp)
  obtain ⟨low, greatest⟩ := consulted.attained.supremum i known
  refine ⟨A', A'.value i, ?_, ?_, consulted.data ▸ greatest, consulted⟩
  · simp only [CachedAttribute.maxValue, length_eq_zero_iff, some, if_false, res, known,
      getD_some]
  · rw [← consulted.data]
    exact mem_of_getElem? (getElem?_value low)

end

theorem Attained.isConstant (attained : A.Attained) (constant : A.isConstant.2 = true) :
    ∀ x ∈ A.data, x = A.defaultValue := by
  by_cases empty : A.data = []
  · simp [empty]
  obtain ⟨A1, min, res1, memMin, least, attained1, data1, default1⟩ := attained.minValue empty
  obtain ⟨A2, max, res2, -, greatest, attained2, data2, default2⟩ :=
    attained1.maxValue (data1 ▸ empty)
  obtain ⟨A3, min', res3, memMin', least', -, -, default3⟩ :=
    attained2.minValue (by rwa [data2, data1])
  rw [CachedAttribute.isConstant, if_neg (by simpa using empty), res1] at constant
  simp only [res2, res3] at constant
  rw [data1] at data2 greatest
  rw [data2] at memMin' least'
  split_ifs at constant with apart
  rw [decide_eq_true_iff, default3, default2, default1] at constant
  intro x mem
  rw [← constant]
  exact le_antisymm ((greatest x mem).trans ((not_lt.1 apart).trans (least _ memMin')))
    (least' x mem)

/-! ## Runs -/

theorem Exact.after_iff (exact : A.Exact) (request : Request α) (legal : A.Legal request) :
    (A.after request).Exact ↔ A.Harmless request := by
  have skip : ∀ {A' : CachedAttribute α}, A.serve request = .ok A' → A'.Exact →
      A.Harmless request → ((A.after request).Exact ↔ A.Harmless request) := by
    intro A' result exact' harmless
    rw [after, result]
    exact iff_of_true exact' harmless
  cases request with
  | setValue index newValue =>
    obtain ⟨A', result⟩ : ∃ A', A.setValue index newValue = .ok A' := ⟨_, setValue_eq legal⟩
    exact skip result (exact.setValue legal result) trivial
  | setDefaultValue newValue => exact skip rfl ⟨exact.infimum, exact.supremum⟩ trivial
  | setConstant newValue => exact skip rfl (exact_none _ _) trivial
  | assign newValue => exact skip rfl exact.assign trivial
  | increaseSize size =>
    rw [after, serve, increaseSize]
    split_ifs with grows shrinks
    · have more : 0 < size - A.data.length := Nat.sub_pos_of_lt grows
      exact (exact_append_iff exact more).trans ⟨fun harmless _ => harmless, fun harmless =>
        harmless grows⟩
    · exact iff_of_true exact fun grows' => absurd grows' grows
    · exact iff_of_true exact fun grows' => absurd grows' grows
  | appendItems numItems => exact skip rfl (exact.appendItems numItems) trivial
  | eraseItems numItems =>
    cases result : A.eraseItems numItems with
    | ok A' => exact skip result (exact.eraseItems result) trivial
    | error raised =>
      rw [after, serve, result]
      exact iff_of_true exact trivial
  | swapItems a b =>
    have unchanged : A.Harmless (.swapItems a a) := by
      intro _ _
      refine ⟨fun i known k low tie => ?_, fun i known k low tie => ?_⟩
      · rw [Equiv.swap_self]
        obtain ⟨-, first⟩ := (exact.infimum i known).spec (getElem?_value
          (exact.infimum i known).low) k _ (getElem?_value low)
        exact not_lt.1 fun earlier => first earlier tie.le
      · rw [Equiv.swap_self]
        obtain ⟨-, last⟩ := (exact.supremum i known).spec (getElem?_value
          (exact.supremum i known).low) k _ (getElem?_value low)
        exact not_lt.1 fun later => last later tie.ge
    rw [after, serve, swapItems]
    split_ifs with empty same inside
    · exact iff_of_true exact fun low => absurd low (by omega)
    · exact iff_of_true exact (same ▸ unchanged)
    · exact exact_swap_iff exact inside.1 inside.2
    · exact iff_of_true exact fun lowA lowB => absurd ⟨lowA, lowB⟩ inside
  | minIndex =>
    refine skip rfl ?_ trivial
    simpa only [CachedAttribute.minIndex, apply_ite Prod.fst] using
      exact.queried (·.infimum) (by simp)
  | maxIndex =>
    refine skip rfl ?_ trivial
    simpa only [CachedAttribute.maxIndex, apply_ite Prod.fst] using
      exact.queried (·.supremum) (by simp)
  | minValue =>
    refine skip rfl ?_ trivial
    simpa only [CachedAttribute.minValue, apply_ite Prod.fst] using
      exact.queried (·.infimum) (by simp)
  | maxValue =>
    refine skip rfl ?_ trivial
    simpa only [CachedAttribute.maxValue, apply_ite Prod.fst] using
      exact.queried (·.supremum) (by simp)
  | isConstant => exact skip rfl exact.isConstant.1 trivial

/-- The attributes that are reached by harmless requests. -/
inductive Reaches (size : ℕ) (defaultValue : α) : CachedAttribute α → Prop
  | start : Reaches size defaultValue (new size defaultValue)
  | step {A : CachedAttribute α} (request : Request α) (reach : Reaches size defaultValue A)
      (legal : A.Legal request) (harmless : A.Harmless request) :
      Reaches size defaultValue (A.after request)

theorem Reaches.exact {size : ℕ} {defaultValue : α} (reaches : Reaches size defaultValue A) :
    A.Exact := by
  induction reaches with
  | start => exact exact_none _ _
  | step req _ legal harmless ih => exact (ih.after_iff req legal).2 harmless

/-- **The cached bounds are exact.** In every run of harmless requests, the infimum is the first
index of a minimal value and the supremum is the last index of a maximal value, if they are known.
Then the queries are right, and `IsConstant` holds if and only if all values are the default value.
The next request leaves the bounds exact if and only if it is harmless. -/
theorem attribute_bounds {size : ℕ} {defaultValue : α} (reaches : Reaches size defaultValue A) :
    (∀ i, A.infimum = some i → FirstMin A.data i) ∧ (∀ i, A.supremum = some i → LastMax A.data i) ∧
    (A.data ≠ [] → (∃ i, A.minIndex.2 = some i ∧ FirstMin A.data i) ∧
      (∃ i, A.maxIndex.2 = some i ∧ LastMax A.data i) ∧
      (A.minValue.2 ∈ A.data ∧ ∀ x ∈ A.data, A.minValue.2 ≤ x) ∧
      A.maxValue.2 ∈ A.data ∧ ∀ x ∈ A.data, x ≤ A.maxValue.2) ∧
    (A.isConstant.2 = true ↔ ∀ x ∈ A.data, x = A.defaultValue) ∧
    ∀ request, A.Legal request → ((A.after request).Exact ↔ A.Harmless request) := by
  have exact := reaches.exact
  refine ⟨exact.infimum, exact.supremum, fun some => ⟨?_, ?_, ?_, ?_⟩, exact.isConstant.2,
    fun request legal => exact.after_iff request legal⟩
  · obtain ⟨A', i, result, first, -⟩ := exact.minIndex some
    exact ⟨i, by rw [result], first⟩
  · obtain ⟨A', i, result, last, -⟩ := exact.maxIndex some
    exact ⟨i, by rw [result], last⟩
  · obtain ⟨A', x, result, member, least, -⟩ := exact.minValue some
    rw [result]
    exact ⟨member, least⟩
  · obtain ⟨A', x, result, member, greatest, -⟩ := exact.maxValue some
    rw [result]
    exact ⟨member, greatest⟩

/-- A run with known bounds. -/
theorem attribute_bounds_run : ∃ A : CachedAttribute ℕ, Reaches 3 5 A ∧ A.data = [5, 2, 5] ∧
    A.infimum = some 1 ∧ FirstMin A.data 1 ∧ A.supremum = some 2 ∧ LastMax A.data 2 := by
  have run : Reaches 3 5 (((new 3 5).after .maxIndex).after (.setValue 1 2)) :=
    .step _ (.step _ .start trivial trivial) (by show 1 < _; decide) trivial
  have data : (((new 3 5).after .maxIndex).after (.setValue 1 2)).data = [5, 2, 5] := by decide
  have infimum : (((new 3 5).after .maxIndex).after (.setValue 1 2)).infimum = some 1 := by decide
  have supremum : (((new 3 5).after .maxIndex).after (.setValue 1 2)).supremum = some 2 := by decide
  obtain ⟨first, last, -⟩ := attribute_bounds run
  exact ⟨_, run, data, infimum, first 1 infimum, supremum, last 2 supremum⟩

/-- `IncreaseSize` appends a smaller default value and `SwapItems` moves a minimal value past
another one: the minimum is wrong, or the index is not the first one. -/
theorem attribute_bounds_lost :
    ((((new 1 5).after (.setDefaultValue 0)).after .minIndex).after (.increaseSize 2)).data = [5, 0] ∧
    ((((new 1 5).after (.setDefaultValue 0)).after .minIndex).after (.increaseSize 2)).minValue.2 = 5 ∧
    ((((new 3 1).after (.setValue 2 2)).after .minIndex).after (.swapItems 0 2)).data = [2, 1, 1] ∧
    ((((new 3 1).after (.setValue 2 2)).after .minIndex).after (.swapItems 0 2)).minIndex.2 =
      some 2 := by
  decide

end CachedAttribute

end Goblin
