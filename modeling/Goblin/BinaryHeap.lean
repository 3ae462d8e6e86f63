import Goblin.Augment
import Goblin.Library.HeapOrder
import Goblin.Library.QueueRequests

/-!
# Binary heaps

A `binaryHeap` keeps its items in the positions `1 .. maxIndex` of the array `v`, and in
`index` the position of every queued item. `UpHeap` and `DownHeap` mend the heap order after
a key has been decreased or increased.

`Delete(w)` moves the last item to the position that becomes free and calls `DownHeap`, but
enters the new position into `index` only if the moved item sinks. Everywhere else the two
arrays are kept in step.
-/

set_option autoImplicit false

namespace Goblin

open Library Function Option

universe u

variable {i j w c : ℕ}

/-- A `binaryHeap` for the items below `n`; `none` stands for `UITEM_MAX()`. -/
structure BinaryHeap (K : Type u) where
  n : ℕ
  maxIndex : ℕ
  v : ℕ → ℕ
  index : ℕ → Option ℕ
  key : ℕ → K

namespace BinaryHeap

variable {K : Type u}

/-- The constructor. The arrays `v` and `key` are not initialised. -/
def new (n : ℕ) (v : ℕ → ℕ) (key : ℕ → K) : BinaryHeap K where
  n := n
  maxIndex := 0
  v := v
  index := fun _ => none
  key := key

variable (h : BinaryHeap K)

/-! ## Sifting -/

/-- Write `w` to the position `i`. -/
def place (i w : ℕ) : BinaryHeap K :=
  { h with
    v := update h.v i w
    index := update h.index w (some i) }

/-- The exchange of the positions `i` and `j`, as in `DownHeap`. -/
def swap (i j : ℕ) : BinaryHeap K := (h.place i (h.v j)).place j (h.v i)

section Operations

variable [LinearOrder K]

/-- The loop of `UpHeap`, which carries the key `alpha`. -/
def upLoop (alpha : K) : ℕ → BinaryHeap K → ℕ → Except Raise (BinaryHeap K × ℕ)
  | 0, _, _ => .error .fuel
  | fuel + 1, h, i =>
    if 1 < i ∧ alpha < h.key (h.v (i / 2)) then
      upLoop alpha fuel (h.place i (h.v (i / 2))) (i / 2)
    else .ok (h, i)

def upHeap (i : ℕ) : Except Raise (BinaryHeap K) :=
  if h.maxIndex < i ∨ i = 0 then .error (.range "UpHeap" "No such index")
  else do
    let w := h.v i
    let (h, i) ← upLoop (h.key w) i h i
    return h.place i w

def downHeap : ℕ → BinaryHeap K → ℕ → Except Raise (BinaryHeap K)
  | 0, _, _ => .error .fuel
  | fuel + 1, h, i =>
    if h.maxIndex < i ∨ i = 0 then .error (.range "DownHeap" "No such index")
    else do
      let h ← (if 2 * i ≤ h.maxIndex ∧ h.key (h.v (2 * i)) < h.key (h.v i) then
        downHeap fuel (h.swap i (2 * i)) (2 * i) else .ok h)
      if 2 * i + 1 ≤ h.maxIndex ∧ h.key (h.v (2 * i + 1)) < h.key (h.v i) then
        downHeap fuel (h.swap i (2 * i + 1)) (2 * i + 1) else .ok h

/-! ## The operations -/

def insert (w : ℕ) (alpha : K) : Except Raise (BinaryHeap K) :=
  if h.n ≤ w then .error (.range "Insert" "No such index")
  else if h.n ≤ h.maxIndex then .error (.rejected "Insert" "Heap overflow")
  else
    upHeap { h with
        key := update h.key w alpha
        index := update h.index w (some (h.maxIndex + 1))
        maxIndex := h.maxIndex + 1
        v := update h.v (h.maxIndex + 1) w } (h.maxIndex + 1)

/-- The heap from which `Delete(w)` calls `DownHeap`, with the last item at the position of
`w`, or returns. -/
def detach (w i : ℕ) : BinaryHeap K :=
  { h with
    index := update h.index w none
    maxIndex := h.maxIndex - 1
    v := if i ≤ h.maxIndex - 1 then update h.v i (h.v h.maxIndex) else h.v }

/-- `Delete(w)` -/
def deleteItem (w : ℕ) : Except Raise (BinaryHeap K) :=
  match h.index w with
  | none => .error (.range "Delete" "No such item")
  | some i =>
    if h.n ≤ w then .error (.range "Delete" "No such item")
    else if i ≤ h.maxIndex - 1 then downHeap h.maxIndex (h.detach w i) i
    else .ok (h.detach w i)

/-- `Delete()` -/
def delete : Except Raise (BinaryHeap K × ℕ) :=
  if h.maxIndex = 0 then .error (.rejected "Delete" "Heap is empty")
  else do
    let w := h.v 1
    let x := h.v h.maxIndex
    let h := { h with
      index := update h.index w none
      maxIndex := h.maxIndex - 1 }
    let h ← (if 0 < h.maxIndex then downHeap h.maxIndex (h.place 1 x) 1 else .ok h)
    return (h, w)

def changeKey (w : ℕ) (alpha : K) : Except Raise (BinaryHeap K) :=
  match h.index w with
  | none => .error (.range "ChangeKey" "No such item")
  | some i =>
    if h.n ≤ w then .error (.range "ChangeKey" "No such item")
    else if h.key w < alpha then
      downHeap h.maxIndex { h with key := update h.key w alpha } i
    else upHeap { h with key := update h.key w alpha } i

def peek : Except Raise ℕ :=
  if h.maxIndex = 0 then .error (.rejected "Peek" "Heap is empty") else .ok (h.v 1)

/-- The loop by which `Init` empties a heap with few items. -/
def drain : ℕ → BinaryHeap K → Except Raise (BinaryHeap K)
  | 0, _ => .error .fuel
  | fuel + 1, h =>
    if h.maxIndex = 0 then .ok h
    else do
      let (h, _) ← h.delete
      drain fuel h

def init : Except Raise (BinaryHeap K) :=
  if h.maxIndex * 100 < h.n then drain (h.maxIndex + 1) h
  else .ok { h with
    index := fun _ => none
    maxIndex := 0 }

/-- The operations by request, with the item that `Delete()` returns. -/
def serve (request : QueueRequest K) (h : BinaryHeap K) :
    Except Raise (BinaryHeap K × Option ℕ) :=
  match request with
  | .insert w alpha => do return (← h.insert w alpha, none)
  | .deleteItem w => do return (← h.deleteItem w, none)
  | .delete => do
    let (h, w) ← h.delete
    return (h, some w)
  | .changeKey w alpha => do return (← h.changeKey w alpha, none)
  | .init => do return (← h.init, none)

end Operations

/-! ## Items and positions -/

/-- The key at a position. -/
def keyAt (i : ℕ) : K := h.key (h.v i)

/-- The arrays `v` and `index` are inverse to each other, and hold the items that have a
key. -/
structure Holds (keys : ℕ → Option K) : Prop where
  indexed : ∀ i, 1 ≤ i → i ≤ h.maxIndex → h.index (h.v i) = some i
  positioned : ∀ w i, h.index w = some i → 1 ≤ i ∧ i ≤ h.maxIndex ∧ h.v i = w
  keyed : ∀ w, keys w = (h.index w).map fun _ => h.key w
  bounded : ∀ w, h.index w ≠ none → w < h.n

variable {h} {keys : ℕ → Option K} {h1 h2 : BinaryHeap K}

section

variable (holds : h.Holds keys)
include holds

theorem Holds.injective (posI : 1 ≤ i) (lowI : i ≤ h.maxIndex) (posJ : 1 ≤ j)
    (lowJ : j ≤ h.maxIndex) (eq : h.v i = h.v j) : i = j := by
  have atI := holds.indexed i posI lowI
  have atJ := holds.indexed j posJ lowJ
  rw [eq, atJ] at atI
  exact (some.inj atI).symm

theorem Holds.index_eq_none (w : ℕ) : h.index w = none ↔ keys w = none := by
  rw [holds.keyed w]
  simp

theorem Holds.queued (present : keys w ≠ none) :
    ∃ i, h.index w = some i ∧ 1 ≤ i ∧ i ≤ h.maxIndex ∧ h.v i = w ∧ w < h.n := by
  have indexed : h.index w ≠ none := fun none => present ((holds.index_eq_none w).1 none)
  obtain ⟨i, position⟩ := ne_none_iff_exists'.1 indexed
  exact ⟨i, position, (holds.positioned w i position).1, (holds.positioned w i position).2.1,
    (holds.positioned w i position).2.2, holds.bounded w indexed⟩

theorem Holds.maxIndex_pos (present : ∃ w, keys w ≠ none) : 0 < h.maxIndex := by
  obtain ⟨w, queued⟩ := present
  obtain ⟨i, -, pos, low, -, -⟩ := holds.queued queued
  omega

/-- There is room for an item that is not queued. -/
theorem Holds.room (low : w < h.n) (absent : keys w = none) : h.maxIndex < h.n := by
  have count := positions_lt (s := Finset.Icc 1 h.maxIndex) (v := h.v) ?_ ?_ ?_ low
  · rw [Nat.card_Icc] at count
    omega
  · intro i rangeI j rangeJ eq
    rw [Finset.coe_Icc, Set.mem_Icc] at rangeI rangeJ
    exact holds.injective rangeI.1 rangeI.2 rangeJ.1 rangeJ.2 eq
  · intro i range
    obtain ⟨pos, lowI⟩ := Finset.mem_Icc.1 range
    exact holds.bounded _ (by simp [holds.indexed i pos lowI])
  · intro i range eq
    obtain ⟨pos, lowI⟩ := Finset.mem_Icc.1 range
    have index := holds.indexed i pos lowI
    rw [eq, (holds.index_eq_none w).2 absent] at index
    cases index

theorem Holds.place_self (pos : 1 ≤ i) (low : i ≤ h.maxIndex) : h.place i (h.v i) = h := by
  have index := holds.indexed i pos low
  simp only [place, update_eq_self]
  rw [← index, update_eq_self]

end

section

variable (h : BinaryHeap K) (i : ℕ)

@[simp] theorem place_n (w : ℕ) : (h.place i w).n = h.n := rfl

@[simp] theorem place_maxIndex (w : ℕ) : (h.place i w).maxIndex = h.maxIndex := rfl

@[simp] theorem place_key (w : ℕ) : (h.place i w).key = h.key := rfl

section

variable (j : ℕ)

theorem swap_v (k : ℕ) :
    (h.swap i j).v k = if k = j then h.v i else if k = i then h.v j else h.v k := by
  simp only [swap, place, update_apply]

@[simp] theorem swap_n : (h.swap i j).n = h.n := rfl

@[simp] theorem swap_maxIndex : (h.swap i j).maxIndex = h.maxIndex := rfl

@[simp] theorem swap_key : (h.swap i j).key = h.key := rfl

theorem swap_index (w : ℕ) : (h.swap i j).index w =
      if w = h.v i then some j else if w = h.v j then some i else h.index w := by
  simp only [swap, place, update_apply]

theorem swap_keyAt (k : ℕ) :
    (h.swap i j).keyAt k = if k = j then h.keyAt i else if k = i then h.keyAt j else h.keyAt k := by
  simp only [keyAt, swap_v, swap_key]
  split_ifs <;> rfl

end

end

theorem place_parent (h : BinaryHeap K) (w : ℕ) (inner : 1 < i) :
    (h.place i (h.v (i / 2))).place (i / 2) w = (h.place i w).swap i (i / 2) := by
  have ne : i / 2 ≠ i := by omega
  simp only [swap, place, update_self, update_of_ne ne, update_idem, mk.injEq, true_and, and_true]
  funext x
  by_cases here : x = w
  · simp [here]
  · simp [update_apply, here]

theorem swap_place_self (h : BinaryHeap K) (i j : ℕ) :
    (h.place i (h.v i)).swap i j = h.swap i j := by
  simp only [swap, place, update_eq_self, mk.injEq, true_and, and_true]
  funext x
  by_cases here : x = h.v i
  · simp [here]
  · simp [update_apply, here]

theorem Holds.swap (holds : h.Holds keys) (posI : 1 ≤ i) (lowI : i ≤ h.maxIndex) (posJ : 1 ≤ j)
    (lowJ : j ≤ h.maxIndex) : (h.swap i j).Holds keys := by
  have atI := holds.indexed i posI lowI
  have atJ := holds.indexed j posJ lowJ
  have absent : ∀ w, (h.swap i j).index w = none ↔ h.index w = none := by
    intro w
    rw [swap_index]
    split_ifs with first second
    · simp [first, atI]
    · simp [second, atJ]
    · rfl
  refine ⟨fun k pos low => ?_, fun w k position => ?_, fun w => ?_, fun w present => ?_⟩
  · rw [swap_maxIndex] at low
    rw [swap_v, swap_index]
    by_cases here : k = j
    · simp [here]
    by_cases there : k = i
    · by_cases eq : h.v j = h.v i
      · exact absurd (there.trans (holds.injective posI lowI posJ lowJ eq.symm)) here
      · subst there
        simp [here, eq]
    · have neI : h.v k ≠ h.v i := fun eq => there (holds.injective pos low posI lowI eq)
      have neJ : h.v k ≠ h.v j := fun eq => here (holds.injective pos low posJ lowJ eq)
      simp [here, there, neI, neJ, holds.indexed k pos low]
  · rw [swap_index] at position
    rw [swap_v, swap_maxIndex]
    split_ifs at position with first second
    · cases position
      exact ⟨posJ, lowJ, by simp [first]⟩
    · cases position
      refine ⟨posI, lowI, ?_⟩
      by_cases eq : i = j
      · rw [eq] at first
        exact absurd second first
      · simp [eq, second]
    · obtain ⟨pos, low, val⟩ := holds.positioned w k position
      have neI : k ≠ i := fun eq => first (by rw [← val, eq])
      have neJ : k ≠ j := fun eq => second (by rw [← val, eq])
      exact ⟨pos, low, by simp [neI, neJ, val]⟩
  · have old := holds.keyed w
    rw [old]
    cases val : h.index w with
    | none => simp [(absent w).2 val]
    | some k =>
      have present : (h.swap i j).index w ≠ none := fun none => by
        rw [(absent w).1 none] at val
        cases val
      obtain ⟨k', val'⟩ := ne_none_iff_exists'.1 present
      simp [val']
  · exact holds.bounded w fun none => present ((absent w).2 none)

theorem Holds.detach_last (holds : h.Holds keys) (index : h.index w = some h.maxIndex) :
    (h.detach w h.maxIndex).Holds (update keys w none) ∧ (h.detach w h.maxIndex).v = h.v := by
  obtain ⟨pos, -, item⟩ := holds.positioned w _ index
  have v_eq : (h.detach w h.maxIndex).v = h.v := by
    have beyond : ¬ h.maxIndex ≤ h.maxIndex - 1 := by omega
    simp only [detach, if_neg beyond]
  refine ⟨⟨fun i posI low => ?_, fun x i indexX => ?_, fun x => ?_, fun x indexX => ?_⟩, v_eq⟩
  · change i ≤ h.maxIndex - 1 at low
    have ne : h.v i ≠ w := fun eq => by
      have := holds.injective posI (by omega) pos (le_refl _) (eq.trans item.symm)
      omega
    rw [v_eq]
    exact (update_of_ne ne _ _).trans (holds.indexed i posI (by omega))
  · have ne : x ≠ w := fun eq => by simp [detach, eq] at indexX
    simp only [detach, update_of_ne ne] at indexX
    obtain ⟨posI, low, itemX⟩ := holds.positioned x i indexX
    have notLast : i ≠ h.maxIndex := fun last => ne (by rw [← itemX, last, item])
    refine ⟨posI, ?_, by rw [v_eq]; exact itemX⟩
    change i ≤ h.maxIndex - 1
    omega
  · by_cases here : x = w
    · simp [detach, here]
    · simp [detach, here, holds.keyed x]
  · have ne : x ≠ w := fun eq => by simp [detach, eq] at indexX
    simp only [detach, ne_eq, update_of_ne ne] at indexX
    exact holds.bounded x indexX

theorem Holds.detach_inner (holds : h.Holds keys) (index : h.index w = some i)
    (inner : i < h.maxIndex) :
    ((h.detach w i).place i (h.v h.maxIndex)).Holds (update keys w none) := by
  obtain ⟨pos, -, item⟩ := holds.positioned w i index
  have indexLast := holds.indexed h.maxIndex (by omega) (le_refl _)
  have last : h.v h.maxIndex ≠ w := fun eq => by
    rw [eq, index] at indexLast
    have := some.inj indexLast
    omega
  have v_eq : ((h.detach w i).place i (h.v h.maxIndex)).v = update h.v i (h.v h.maxIndex) := by
    have within : i ≤ h.maxIndex - 1 := by omega
    simp only [place, detach, if_pos within, update_idem]
  have index_eq : ((h.detach w i).place i (h.v h.maxIndex)).index =
      update (update h.index w none) (h.v h.maxIndex) (some i) := rfl
  have below : ∀ x, x ≠ h.v h.maxIndex → x ≠ w → ∀ j, h.index x = some j →
      j ≠ i ∧ j ≠ h.maxIndex := by
    intro x neLast neW j indexX
    obtain ⟨-, -, itemX⟩ := holds.positioned x j indexX
    refine ⟨fun eq => neW ?_, fun eq => neLast ?_⟩
    · rw [← itemX, eq, item]
    · rw [← itemX, eq]
  refine ⟨fun j posJ low => ?_, fun x j indexX => ?_, fun x => ?_, fun x indexX => ?_⟩
  · change j ≤ h.maxIndex - 1 at low
    rw [v_eq, index_eq]
    by_cases here : j = i
    · simp [here]
    have neLast : h.v j ≠ h.v h.maxIndex := fun eq => by
      have := holds.injective posJ (by omega) (by omega) (le_refl _) eq
      omega
    have neW : h.v j ≠ w := fun eq =>
      here (holds.injective posJ (by omega) pos (by omega) (eq.trans item.symm))
    rw [update_of_ne here, update_of_ne neLast, update_of_ne neW]
    exact holds.indexed j posJ (by omega)
  · rw [index_eq] at indexX
    rw [v_eq]
    change _ ∧ j ≤ h.maxIndex - 1 ∧ _
    by_cases moved : x = h.v h.maxIndex
    · rw [moved, update_self, some.injEq] at indexX
      rw [← indexX, moved]
      exact ⟨pos, by omega, update_self _ _ _⟩
    rw [update_of_ne moved] at indexX
    have neW : x ≠ w := fun eq => by simp [eq] at indexX
    rw [update_of_ne neW] at indexX
    obtain ⟨neI, neMax⟩ := below x moved neW j indexX
    obtain ⟨posJ, low, itemX⟩ := holds.positioned x j indexX
    exact ⟨posJ, by omega, by rw [update_of_ne neI, itemX]⟩
  · rw [index_eq]
    by_cases here : x = w
    · simp [here, last.symm]
    · by_cases moved : x = h.v h.maxIndex
      · have old := holds.keyed (h.v h.maxIndex)
        rw [indexLast] at old
        simp [moved, last, old, detach]
      · simp [here, moved, holds.keyed x, detach]
  · rw [index_eq] at indexX
    by_cases moved : x = h.v h.maxIndex
    · rw [moved]
      exact holds.bounded _ (by simp [indexLast])
    · have neW : x ≠ w := fun eq => by
        rw [update_of_ne moved, eq] at indexX
        simp at indexX
      rw [update_of_ne moved, update_of_ne neW] at indexX
      exact holds.bounded x indexX

/-! ## Sifting down -/

/-- Only the positions below `i` have been permuted. -/
structure Sifted (h h' : BinaryHeap K) (i : ℕ) : Prop where
  n_eq : h'.n = h.n
  maxIndex_eq : h'.maxIndex = h.maxIndex
  key_eq : h'.key = h.key
  outside : ∀ j, ¬ Below i j → h'.v j = h.v j
  inside : ∀ j, Below i j → j ≤ h.maxIndex →
    ∃ k, Below i k ∧ k ≤ h.maxIndex ∧ h'.v j = h.v k

theorem Sifted.refl (h : BinaryHeap K) (i : ℕ) : Sifted h h i :=
  ⟨rfl, rfl, rfl, fun _ _ => rfl, fun j below low => ⟨j, below, low, rfl⟩⟩

theorem Sifted.trans {h3 : BinaryHeap K} (first : Sifted h1 h2 i)
    (second : Sifted h2 h3 i) : Sifted h1 h3 i := by
  refine ⟨second.n_eq.trans first.n_eq, second.maxIndex_eq.trans first.maxIndex_eq,
    second.key_eq.trans first.key_eq, fun j out => ?_, fun j below low => ?_⟩
  · rw [second.outside j out, first.outside j out]
  · obtain ⟨k, belowK, lowK, val⟩ := second.inside j below (first.maxIndex_eq ▸ low)
    obtain ⟨l, belowL, lowL, val'⟩ := first.inside k belowK (first.maxIndex_eq ▸ lowK)
    exact ⟨l, belowL, lowL, val.trans val'⟩

theorem Sifted.sub (sifted : Sifted h1 h2 j) (below : Below i j) : Sifted h1 h2 i := by
  refine ⟨sifted.n_eq, sifted.maxIndex_eq, sifted.key_eq, fun k out => ?_,
    fun k belowK low => ?_⟩
  · exact sifted.outside k fun lower => out (below.trans lower)
  · by_cases lower : Below j k
    · obtain ⟨l, belowL, lowL, val⟩ := sifted.inside k lower low
      exact ⟨l, below.trans belowL, lowL, val⟩
    · exact ⟨k, belowK, low, sifted.outside k lower⟩

theorem Sifted.swap (below : Below i j) (low : j ≤ h.maxIndex) : Sifted h (h.swap i j) i := by
  refine ⟨rfl, rfl, rfl, fun k out => ?_, fun k belowK lowK => ?_⟩
  · have neI : k ≠ i := fun eq => out (eq ▸ .refl)
    have neJ : k ≠ j := fun eq => out (eq ▸ below)
    simp [swap_v, neI, neJ]
  · rw [swap_v]
    split_ifs
    · exact ⟨i, .refl, below.le.trans low, rfl⟩
    · exact ⟨j, below, low, rfl⟩
    · exact ⟨k, belowK, lowK, rfl⟩

theorem Sifted.keyAt_outside (sifted : Sifted h1 h2 i)
    (out : ¬ Below i j) : h2.keyAt j = h1.keyAt j := by
  rw [keyAt, keyAt, sifted.key_eq, sifted.outside j out]

theorem Sifted.keyAt_inside (sifted : Sifted h1 h2 i) (below : Below i j) (low : j ≤ h1.maxIndex) :
    ∃ k, Below i k ∧ k ≤ h1.maxIndex ∧ h2.keyAt j = h1.keyAt k := by
  obtain ⟨k, belowK, lowK, val⟩ := sifted.inside j below low
  exact ⟨k, belowK, lowK, by rw [keyAt, keyAt, sifted.key_eq, val]⟩

variable [LinearOrder K]

section

variable (h h' : BinaryHeap K) (keys : ℕ → Option K) (i : ℕ)

/-- The result of `DownHeap(i)`. -/
structure DownSpec : Prop where
  sifted : Sifted h h' i
  holds : h'.Holds keys
  ordered : OrderedBelow h'.keyAt h.maxIndex i

/-- The result of the comparison with the child `c` of `i`. -/
structure ChildSpec (c : ℕ) : Prop where
  sifted : Sifted h h' i
  holds : h'.Holds keys
  ordered : OrderedBelow h'.keyAt h.maxIndex c
  child_le : c ≤ h.maxIndex → h'.keyAt i ≤ h'.keyAt c
  root_le : h'.keyAt i ≤ h.keyAt i
  frame : ∀ j, j ≠ i → ¬ Below c j → h'.keyAt j = h.keyAt j

end

/-- One of the two comparisons of `DownHeap`, given what the recursive call does. -/
theorem child_spec (fuel : ℕ) (holds : h.Holds keys) (pos : 1 ≤ i) (low : i ≤ h.maxIndex)
    (child : c = 2 * i ∨ c = 2 * i + 1) (ordered : OrderedBelow h.keyAt h.maxIndex c)
    (recursive : ∀ h1 : BinaryHeap K, h1.maxIndex = h.maxIndex → h1.Holds keys →
      c ≤ h.maxIndex → OrderedBelow h1.keyAt h.maxIndex (2 * c) →
      OrderedBelow h1.keyAt h.maxIndex (2 * c + 1) →
      ∃ h2, downHeap fuel h1 c = .ok h2 ∧ DownSpec h1 h2 keys c) :
    ∃ h', (if c ≤ h.maxIndex ∧ h.key (h.v c) < h.key (h.v i) then downHeap fuel (h.swap i c) c
      else .ok h) = .ok h' ∧ ChildSpec h h' keys i c := by
  have below : Below i c := by
    rcases child with rfl | rfl
    · exact .left pos
    · exact .right pos
  have above : ¬ Below c i := fun lower => by
    have := lower.le
    omega
  split_ifs with falls
  · obtain ⟨lowC, less⟩ := falls
    -- the halves below `c` are not touched by the exchange
    have deeper : ∀ d, d = 2 * c ∨ d = 2 * c + 1 →
        OrderedBelow (h.swap i c).keyAt h.maxIndex d := by
      intro d grandchild
      have belowD : Below c d := by
        rcases grandchild with rfl | rfl
        · exact .left (by omega)
        · exact .right (by omega)
      refine (ordered.sub belowD).congr fun k lower => ?_
      have := lower.le
      have neI : k ≠ i := by omega
      have neC : k ≠ c := by omega
      simp [swap_keyAt, neI, neC]
    obtain ⟨h2, res, spec⟩ := recursive (h.swap i c) rfl
      (holds.swap pos low (by omega) lowC) lowC (deeper _ (.inl rfl)) (deeper _ (.inr rfl))
    have top : h2.keyAt i = h.keyAt c := by
      rw [spec.sifted.keyAt_outside above, swap_keyAt]
      have ne : i ≠ c := fun eq => above (eq ▸ .refl)
      simp [ne]
    refine ⟨h2, res, ?_, spec.holds, spec.ordered, fun _ => ?_, ?_, fun j neI out => ?_⟩
    · exact (Sifted.swap below lowC).trans (spec.sifted.sub below)
    · rw [top]
      obtain ⟨k, belowK, lowK, val⟩ := spec.sifted.keyAt_inside .refl lowC
      rw [val, swap_keyAt]
      split_ifs with here there
      · exact less.le
      · exact le_refl _
      · exact ordered.root_le belowK lowK
    · rw [top]
      exact less.le
    · have neC : j ≠ c := fun eq => out (eq ▸ .refl)
      rw [spec.sifted.keyAt_outside out, swap_keyAt]
      simp [neI, neC]
  · refine ⟨h, rfl, .refl h i, holds, ordered, fun lowC => ?_, le_refl _, fun _ _ _ => rfl⟩
    by_contra greater
    exact falls ⟨lowC, not_le.1 greater⟩

theorem downHeap_spec (fuel : ℕ) : ∀ (h : BinaryHeap K) (i : ℕ), h.Holds keys → 1 ≤ i →
    i ≤ h.maxIndex → h.maxIndex < fuel + i → OrderedBelow h.keyAt h.maxIndex (2 * i) →
    OrderedBelow h.keyAt h.maxIndex (2 * i + 1) →
    ∃ h', downHeap fuel h i = .ok h' ∧ DownSpec h h' keys i := by
  induction fuel with
  | zero =>
    intro h i _ _ low enough
    omega
  | succ fuel ih =>
    intro h i holds pos low enough left right
    have legal : ¬ (h.maxIndex < i ∨ i = 0) := by omega
    obtain ⟨h1, res1, spec1⟩ := child_spec (c := 2 * i) fuel holds pos low
      (.inl rfl) left fun h1 eq holds1 lowC left1 right1 =>
        ih h1 (2 * i) holds1 (by omega) (by omega) (by omega) (eq ▸ left1) (eq ▸ right1)
    have max1 : h1.maxIndex = h.maxIndex := spec1.sifted.maxIndex_eq
    have right1 : OrderedBelow h1.keyAt h1.maxIndex (2 * i + 1) := by
      rw [max1]
      refine right.congr fun j below => spec1.frame j ?_ fun other => ?_
      · have := below.le
        omega
      · exact Below.disjoint pos other below
    obtain ⟨h2, res2, spec2⟩ := child_spec (c := 2 * i + 1) fuel spec1.holds pos
      (by omega) (.inr rfl) right1 fun h2 eq holds2 lowC left2 right2 =>
        ih h2 (2 * i + 1) holds2 (by omega) (by omega) (by omega) (eq ▸ left2) (eq ▸ right2)
    have res : downHeap (fuel + 1) h i = .ok h2 := by
      simp only [downHeap, if_neg legal, res1]
      exact res2
    refine ⟨h2, res, spec1.sifted.trans spec2.sifted, spec2.holds, ?_⟩
    have left2 : ∀ j, Below (2 * i) j → h2.keyAt j = h1.keyAt j := by
      intro j below
      refine spec2.frame j ?_ fun other => Below.disjoint pos below other
      have := below.le
      omega
    refine OrderedBelow.node (spec1.ordered.congr left2) (max1 ▸ spec2.ordered)
      (fun lowC => ?_) fun lowC => spec2.child_le (max1.symm ▸ lowC)
    rw [left2 _ .refl]
    exact spec2.root_le.trans (spec1.child_le lowC)

theorem downHeap_restores (fuel : ℕ) {f : ℕ → K} (holds : h.Holds keys) (pos : 1 ≤ i)
    (low : i ≤ h.maxIndex) (enough : h.maxIndex < fuel + i) (ordered : OrderedBelow f h.maxIndex 1)
    (eq : ∀ j, j ≠ i → j ≤ h.maxIndex → h.keyAt j = f j) (above : 2 ≤ i → f (i / 2) ≤ h.keyAt i) :
    ∃ h', downHeap fuel h i = .ok h' ∧ Sifted h h' i ∧ h'.Holds keys ∧
      OrderedBelow h'.keyAt h.maxIndex 1 := by
  -- beyond `maxIndex` the order does not matter
  let g : ℕ → K := fun j => if j ≤ h.maxIndex then f j else h.keyAt j
  have sameG : ∀ j, j ≠ i → h.keyAt j = g j := by
    intro j ne
    by_cases lowJ : j ≤ h.maxIndex
    · simp [g, lowJ, eq j ne lowJ]
    · simp [g, lowJ]
  have orderedG : OrderedBelow g h.maxIndex 1 := by
    intro j below ne lowJ
    have lowParent : j / 2 ≤ h.maxIndex := by omega
    simp only [g, if_pos lowJ, if_pos lowParent]
    exact ordered j below ne lowJ
  have half : ∀ c, c = 2 * i ∨ c = 2 * i + 1 → OrderedBelow h.keyAt h.maxIndex c := by
    intro c child
    refine (orderedG.sub (.of_one (by omega))).congr fun j below => sameG j ?_
    have := below.le
    omega
  obtain ⟨h', res, spec⟩ := downHeap_spec fuel h i holds pos low enough (half _ (.inl rfl))
    (half _ (.inr rfl))
  refine ⟨h', res, spec.sifted, spec.holds, orderedG.graft spec.ordered ?_ fun inner => ?_⟩
  · intro j out
    rw [spec.sifted.keyAt_outside out]
    exact sameG j fun here => out (here ▸ .refl)
  · have lowParent : i / 2 ≤ h.maxIndex := by omega
    have val : g (i / 2) = f (i / 2) := by simp [g, lowParent]
    obtain ⟨k, below, lowK, key⟩ := spec.sifted.keyAt_inside .refl low
    rw [val, key]
    by_cases here : k = i
    · rw [here]
      exact above inner
    · rw [eq k here lowK]
      have parent : f (i / 2) ≤ f i := ordered i (.of_one pos) (by omega) low
      exact parent.trans ((ordered.sub (.of_one pos)).root_le below lowK)

/-! ## Sifting up -/

theorem upLoop_spec (w fuel : ℕ) : ∀ (h : BinaryHeap K) (i : ℕ), (h.place i w).Holds keys →
    1 ≤ i → i ≤ h.maxIndex → i ≤ fuel → OrderedUp (h.place i w).keyAt h.maxIndex i →
    ∃ h' j, upLoop (h.key w) fuel h i = .ok (h', j) ∧ h'.n = h.n ∧ h'.maxIndex = h.maxIndex ∧
      h'.key = h.key ∧ (h'.place j w).Holds keys ∧
      OrderedBelow (h'.place j w).keyAt h.maxIndex 1 := by
  induction fuel with
  | zero =>
    intro h i _ pos _ enough
    omega
  | succ fuel ih =>
    intro h i holds pos low enough up
    have carried : (h.place i w).keyAt i = h.key w := by simp [keyAt, place]
    have parent : 2 ≤ i → (h.place i w).keyAt (i / 2) = h.key (h.v (i / 2)) := by
      intro inner
      have ne : i / 2 ≠ i := by omega
      simp [keyAt, place, ne]
    by_cases falls : 1 < i ∧ h.key w < h.key (h.v (i / 2))
    · have ne : i / 2 ≠ i := by omega
      have moved := place_parent h w falls.1
      have holds' : ((h.place i (h.v (i / 2))).place (i / 2) w).Holds keys := by
        rw [moved]
        exact holds.swap pos low (by omega) (by simp; omega)
      have up' : OrderedUp ((h.place i (h.v (i / 2))).place (i / 2) w).keyAt h.maxIndex
          (i / 2) := by
        rw [moved]
        refine up.exchange falls.1 low ?_ ?_ ?_ fun j neI neParent => ?_
        · rw [carried, parent falls.1]
          exact falls.2
        · simp [swap_keyAt, ne.symm]
        · simp [swap_keyAt]
        · simp [swap_keyAt, neI, neParent]
      obtain ⟨h', j, res, n', max', key', spec⟩ :=
        ih (h.place i (h.v (i / 2))) (i / 2) holds' (by omega) (by simp; omega) (by omega) up'
      refine ⟨h', j, ?_, n', max', key', spec⟩
      rw [upLoop, if_pos falls]
      exact res
    · refine ⟨h, i, ?_, rfl, rfl, rfl, holds, up.finish fun inner => ?_⟩
      · rw [upLoop, if_neg falls]
      · rw [carried, parent inner]
        exact not_lt.1 fun less => falls ⟨inner, less⟩

theorem upHeap_spec (holds : h.Holds keys) (pos : 1 ≤ i) (low : i ≤ h.maxIndex)
    (up : OrderedUp h.keyAt h.maxIndex i) :
    ∃ h', h.upHeap i = .ok h' ∧ h'.n = h.n ∧ h'.maxIndex = h.maxIndex ∧ h'.Holds keys ∧
      OrderedBelow h'.keyAt h.maxIndex 1 := by
  have self := holds.place_self pos low
  obtain ⟨h', j, res, n', max', -, holds', ordered⟩ :=
    upLoop_spec (h.v i) i h i (self.symm ▸ holds) pos low (le_refl i) (self.symm ▸ up)
  refine ⟨h'.place j (h.v i), ?_, n', max', holds', ordered⟩
  have legal : ¬ (h.maxIndex < i ∨ i = 0) := by omega
  simp only [upHeap, if_neg legal, res]
  rfl

/-! ## Priority queues -/

variable (h keys)

/-- The heap is a priority queue for these keys. -/
structure IsQueue : Prop where
  holds : h.Holds keys
  ordered : OrderedBelow h.keyAt h.maxIndex 1

/-- What is to hold of a heap whose user knows these keys. -/
structure PriorityQueue : Prop where
  distinct : ∀ i j, 1 ≤ i → i ≤ h.maxIndex → 1 ≤ j → j ≤ h.maxIndex → h.v i = h.v j → i = j
  items : ∀ w, (∃ i, 1 ≤ i ∧ i ≤ h.maxIndex ∧ h.v i = w) ↔ keys w ≠ none
  index_item : ∀ i, 1 ≤ i → i ≤ h.maxIndex → h.index (h.v i) = some i
  index_none : ∀ w, keys w = none → h.index w = none
  order : ∀ i, 2 ≤ i → i ≤ h.maxIndex → h.key (h.v (i / 2)) ≤ h.key (h.v i)
  key_eq : ∀ w k, keys w = some k → h.key w = k
  peek_min : (∃ w, keys w ≠ none) → ∃ w, h.peek = .ok w ∧ IsMinimum keys w
  delete_min : (∃ w, keys w ≠ none) → ∃ h' w, h.delete = .ok (h', w) ∧ IsMinimum keys w

variable {h keys}

theorem IsQueue.root_minimum (queue : h.IsQueue keys) (present : ∃ w, keys w ≠ none) :
    IsMinimum keys (h.v 1) := by
  have pos := queue.holds.maxIndex_pos present
  have index := queue.holds.indexed 1 (le_refl 1) pos
  refine ⟨h.key (h.v 1), by simp [queue.holds.keyed, index], fun x l val => ?_⟩
  obtain ⟨i, indexX, posI, low, item, -⟩ := queue.holds.queued (w := x) (by simp [val])
  rw [queue.holds.keyed x, indexX] at val
  cases val
  rw [← item]
  exact queue.ordered.root_le (.of_one posI) low

theorem new_isQueue (n : ℕ) (v : ℕ → ℕ) (key : ℕ → K) : (new n v key).IsQueue fun _ => none := by
  refine ⟨⟨fun i pos low => ?_, fun w i index => ?_, fun w => rfl, fun w index => ?_⟩,
    fun j _ _ low => ?_⟩
  · simp only [new] at low
    omega
  · cases index
  · exact absurd rfl index
  · simp only [new, Nat.le_zero] at low
    simp [low]

/-! ## Insertion -/

theorem insert_spec (queue : h.IsQueue keys) (alpha : K) (low : w < h.n) (absent : keys w = none) :
    ∃ h', h.insert w alpha = .ok h' ∧ h'.n = h.n ∧ h'.IsQueue (update keys w (some alpha)) := by
  obtain ⟨holds, ordered⟩ := queue
  have free : h.index w = none := (holds.index_eq_none w).2 absent
  have room := holds.room low absent
  have ne : ∀ i, 1 ≤ i → i ≤ h.maxIndex → h.v i ≠ w := by
    intro i pos lowI eq
    have index := holds.indexed i pos lowI
    rw [eq, free] at index
    cases index
  let h1 : BinaryHeap K :=
    { h with
      key := update h.key w alpha
      index := update h.index w (some (h.maxIndex + 1))
      maxIndex := h.maxIndex + 1
      v := update h.v (h.maxIndex + 1) w }
  have vOld : ∀ i, i ≤ h.maxIndex → h1.v i = h.v i := fun i lowI =>
    update_of_ne (by omega) _ _
  have keyOld : ∀ i, 1 ≤ i → i ≤ h.maxIndex → h1.keyAt i = h.keyAt i := by
    intro i pos lowI
    rw [keyAt, vOld i lowI]
    exact update_of_ne (ne i pos lowI) _ _
  have holds1 : h1.Holds (update keys w (some alpha)) := by
    refine ⟨fun i pos lowI => ?_, fun x i index => ?_, fun x => ?_, fun x index => ?_⟩
    · by_cases last : i = h.maxIndex + 1
      · simp [h1, last]
      have lowI' : i ≤ h.maxIndex := by
        change i ≤ h.maxIndex + 1 at lowI
        omega
      rw [vOld i lowI']
      simp only [h1]
      rw [update_of_ne (ne i pos lowI')]
      exact holds.indexed i pos lowI'
    · by_cases here : x = w
      · simp only [h1, here, update_self, some.injEq] at index
        rw [← index, here]
        exact ⟨by omega, le_refl _, by simp [h1]⟩
      · simp only [h1, update_of_ne here] at index
        obtain ⟨pos, lowI, item⟩ := holds.positioned x i index
        exact ⟨pos, Nat.le_succ_of_le lowI, (vOld i lowI).trans item⟩
    · by_cases here : x = w
      · simp [h1, here]
      · simp [h1, here, holds.keyed x]
    · by_cases here : x = w
      · rw [here]
        exact low
      · simp only [h1, ne_eq, update_of_ne here] at index
        exact holds.bounded x index
  have up : OrderedUp h1.keyAt h1.maxIndex (h.maxIndex + 1) := by
    constructor
    · intro j inner lowJ neLast
      change j ≤ h.maxIndex + 1 at lowJ
      rw [keyOld j (by omega) (by omega), keyOld (j / 2) (by omega) (by omega)]
      exact ordered j (.of_one (by omega)) (by omega) (by omega)
    · intro j inner lowJ child
      change j ≤ h.maxIndex + 1 at lowJ
      omega
  obtain ⟨h', res, n', max', holds', ordered'⟩ :=
    upHeap_spec holds1 (Nat.le_add_left 1 h.maxIndex) (le_refl _) up
  refine ⟨h', ?_, n', holds', max' ▸ ordered'⟩
  have legal : ¬ h.n ≤ w := by omega
  have space : ¬ h.n ≤ h.maxIndex := by omega
  rw [insert, if_neg legal, if_neg space]
  exact res

/-! ## Deletion -/

/-- `DownHeap` after the last item has been moved to a position where it is not too
small. -/
theorem detach_restores (queue : h.IsQueue keys) (fuel : ℕ) (index : h.index w = some i)
    (inner : i < h.maxIndex) (enough : h.maxIndex ≤ fuel + i)
    (above : 2 ≤ i → h.keyAt (i / 2) ≤ h.keyAt h.maxIndex) :
    ∃ h', downHeap fuel ((h.detach w i).place i (h.v h.maxIndex)) i = .ok h' ∧ h'.n = h.n ∧
      h'.maxIndex = h.maxIndex - 1 ∧ h'.IsQueue (update keys w none) := by
  obtain ⟨pos, -, -⟩ := queue.holds.positioned w i index
  let h1 := (h.detach w i).place i (h.v h.maxIndex)
  have within : i ≤ h.maxIndex - 1 := by omega
  have max1 : h1.maxIndex = h.maxIndex - 1 := rfl
  have v1 : h1.v = update h.v i (h.v h.maxIndex) := by
    simp only [h1, place, detach, if_pos within, update_idem]
  have key1 : h1.key = h.key := rfl
  obtain ⟨h', res, sifted, holds', ordered'⟩ := downHeap_restores (h := h1) (f := h.keyAt) fuel
    (queue.holds.detach_inner index inner) pos within (by omega)
    (queue.ordered.mono (by omega)) (fun j ne _ => by simp [keyAt, v1, key1, ne])
    fun innerI => by simpa [keyAt, v1, key1] using above innerI
  exact ⟨h', res, sifted.n_eq, sifted.maxIndex_eq, holds', sifted.maxIndex_eq ▸ ordered'⟩

theorem delete_spec (queue : h.IsQueue keys) (present : ∃ w, keys w ≠ none) :
    ∃ h', h.delete = .ok (h', h.v 1) ∧ h'.n = h.n ∧ h'.maxIndex = h.maxIndex - 1 ∧
      h'.IsQueue (update keys (h.v 1) none) := by
  have pos := queue.holds.maxIndex_pos present
  have ne : h.maxIndex ≠ 0 := by omega
  have index := queue.holds.indexed 1 (le_refl 1) pos
  by_cases single : h.maxIndex = 1
  · obtain ⟨holds', v_eq⟩ := queue.holds.detach_last (w := h.v 1) (index.trans (by rw [single]))
    refine ⟨h.detach (h.v 1) h.maxIndex, ?_, rfl, rfl, holds', fun j _ _ low => ?_⟩
    · simp [delete, detach, single]
    · change j ≤ h.maxIndex - 1 at low
      rw [single, Nat.le_zero] at low
      simp [low]
  · obtain ⟨h', res, n', max', queue'⟩ := detach_restores queue (h.maxIndex - 1) index
      (by omega) (by omega) (by omega)
    refine ⟨h', ?_, n', max', queue'⟩
    have more : 0 < h.maxIndex - 1 := by omega
    have within : 1 ≤ h.maxIndex - 1 := by omega
    simp only [place, detach, if_pos within, update_idem] at res
    simp only [delete, if_neg ne, if_pos more, place, res]
    rfl

section

variable (h : BinaryHeap K)

/-- Where the item of position `i` sinks, `DownHeap(i)` does not depend on its entry in
`index`. -/
theorem downHeap_place_self (fuel : ℕ) (child : c = 2 * i ∨ c = 2 * i + 1)
    (low : c ≤ h.maxIndex) (falls : h.keyAt c < h.keyAt i) :
    downHeap (fuel + 1) (h.place i (h.v i)) i = downHeap (fuel + 1) h i := by
  have v_eq : (h.place i (h.v i)).v = h.v := update_eq_self _ _
  by_cases left : 2 * i ≤ h.maxIndex ∧ h.key (h.v (2 * i)) < h.key (h.v i)
  · simp only [downHeap, place_maxIndex, place_key, v_eq, if_pos left, swap_place_self]
  have right : 2 * i + 1 ≤ h.maxIndex ∧ h.key (h.v (2 * i + 1)) < h.key (h.v i) := by
    rcases child with rfl | rfl
    · exact absurd ⟨low, falls⟩ left
    · exact ⟨low, falls⟩
  simp only [downHeap, place_maxIndex, place_key, v_eq, if_neg left]
  change (if _ then _ else if _ then _ else _) = (if _ then _ else if _ then _ else _)
  simp only [place_maxIndex, place_key, v_eq, if_pos right, swap_place_self]

theorem downHeap_rests (fuel : ℕ) (pos : 1 ≤ i) (low : i ≤ h.maxIndex)
    (rests : ∀ c, c = 2 * i ∨ c = 2 * i + 1 → c ≤ h.maxIndex → h.keyAt i ≤ h.keyAt c) :
    downHeap (fuel + 1) h i = .ok h := by
  have legal : ¬ (h.maxIndex < i ∨ i = 0) := by omega
  have left : ¬ (2 * i ≤ h.maxIndex ∧ h.key (h.v (2 * i)) < h.key (h.v i)) := fun falls =>
    not_lt.2 (rests _ (.inl rfl) falls.1) falls.2
  have right : ¬ (2 * i + 1 ≤ h.maxIndex ∧ h.key (h.v (2 * i + 1)) < h.key (h.v i)) := fun falls =>
    not_lt.2 (rests _ (.inr rfl) falls.1) falls.2
  simp only [downHeap, if_neg legal, if_neg left]
  exact if_neg right

/-- The requests that do not reach the defect of `Delete(w)`: the item is the last one, or the
last item sinks from its position. -/
def Harmless : QueueRequest K → Prop
  | .deleteItem w => ∀ i, h.index w = some i → i = h.maxIndex ∨
      ∃ c, (c = 2 * i ∨ c = 2 * i + 1) ∧ c ≤ h.maxIndex ∧ h.keyAt c < h.keyAt h.maxIndex
  | _ => True

end

theorem deleteItem_spec (queue : h.IsQueue keys) (present : keys w ≠ none)
    (harmless : h.Harmless (.deleteItem w)) :
    ∃ h', h.deleteItem w = .ok h' ∧ h'.n = h.n ∧ h'.IsQueue (update keys w none) := by
  obtain ⟨i, index, pos, low, item, lowW⟩ := queue.holds.queued present
  have legal : ¬ h.n ≤ w := by omega
  by_cases last : i = h.maxIndex
  · rw [last] at index
    obtain ⟨holds', v_eq⟩ := queue.holds.detach_last index
    have beyond : ¬ h.maxIndex ≤ h.maxIndex - 1 := by omega
    refine ⟨h.detach w h.maxIndex, ?_, rfl, holds', ?_⟩
    · simp only [deleteItem, index, if_neg legal, if_neg beyond]
    · refine (queue.ordered.mono (Nat.sub_le _ 1)).congr fun j _ => ?_
      rw [keyAt, v_eq]
      rfl
  obtain ⟨c, child, lowC, falls⟩ := (harmless i index).resolve_left last
  have within : i ≤ h.maxIndex - 1 := by omega
  have notLast : c ≠ h.maxIndex := fun eq => lt_irrefl _ (eq ▸ falls)
  have neC : c ≠ i := by omega
  -- the last item is not smaller than the parent, for a child of `w` is not
  have above : 2 ≤ i → h.keyAt (i / 2) ≤ h.keyAt h.maxIndex := by
    intro inner
    have parent : h.keyAt (i / 2) ≤ h.keyAt i := queue.ordered i (.of_one pos) (by omega) low
    have below : h.keyAt (c / 2) ≤ h.keyAt c :=
      queue.ordered c (.of_one (by omega)) (by omega) lowC
    have half : c / 2 = i := by omega
    rw [half] at below
    exact parent.trans (below.trans falls.le)
  obtain ⟨fuel, fuelEq⟩ : ∃ fuel, h.maxIndex = fuel + 1 := ⟨h.maxIndex - 1, by omega⟩
  obtain ⟨h', res, n', -, queue'⟩ := detach_restores queue (fuel + 1) index (by omega)
    (by omega) above
  refine ⟨h', ?_, n', queue'⟩
  have v_eq : (h.detach w i).v = update h.v i (h.v h.maxIndex) := by
    simp only [detach, if_pos within]
  have moved : (h.detach w i).v i = h.v h.maxIndex := by simp [v_eq]
  have key_eq : (h.detach w i).key = h.key := rfl
  simp only [deleteItem, index, if_neg legal, if_pos within]
  rw [← res, ← moved, fuelEq]
  refine (downHeap_place_self (h.detach w i) fuel child ?_ ?_).symm
  · change c ≤ h.maxIndex - 1
    omega
  · simpa [keyAt, v_eq, key_eq, neC] using falls

/-- `Delete(w)`, when it is not: the entry of the moved item in `index` is wrong. -/
theorem deleteItem_breaks (queue : h.IsQueue keys) (present : keys w ≠ none)
    (harmful : ¬ h.Harmless (.deleteItem w)) :
    ∃ h', h.deleteItem w = .ok h' ∧ ¬ h'.PriorityQueue (update keys w none) := by
  obtain ⟨i, index, pos, low, item, lowW⟩ := queue.holds.queued present
  have legal : ¬ h.n ≤ w := by omega
  have stays : i ≠ h.maxIndex ∧ ∀ c, (c = 2 * i ∨ c = 2 * i + 1) → c ≤ h.maxIndex →
      h.keyAt h.maxIndex ≤ h.keyAt c := by
    refine ⟨fun last => harmful ?_, fun c child lowC => ?_⟩
    · intro i' index'
      rw [index] at index'
      cases index'
      exact .inl last
    · by_contra falls
      refine harmful fun i' index' => ?_
      rw [index] at index'
      cases index'
      exact .inr ⟨c, child, lowC, not_le.1 falls⟩
  obtain ⟨notLast, rests⟩ := stays
  have within : i ≤ h.maxIndex - 1 := by omega
  obtain ⟨fuel, fuelEq⟩ : ∃ fuel, h.maxIndex = fuel + 1 := ⟨h.maxIndex - 1, by omega⟩
  have v_eq : (h.detach w i).v = update h.v i (h.v h.maxIndex) := by
    simp only [detach, if_pos within]
  have key_eq : (h.detach w i).key = h.key := rfl
  have res : downHeap (fuel + 1) (h.detach w i) i = .ok (h.detach w i) := by
    refine downHeap_rests _ fuel pos within fun c child lowC => ?_
    have ne : c ≠ i := by omega
    have lowC' : c ≤ h.maxIndex := lowC.trans (Nat.sub_le _ 1)
    simpa [keyAt, v_eq, key_eq, ne] using rests c child lowC'
  refine ⟨h.detach w i, ?_, fun queue' => ?_⟩
  · simp only [deleteItem, index, if_neg legal, if_pos within]
    rw [fuelEq, res]
  · have wrong := queue'.index_item i pos within
    have indexLast := queue.holds.indexed h.maxIndex (by omega) (le_refl _)
    have ne : h.v h.maxIndex ≠ w := fun eq => by
      rw [eq, index] at indexLast
      exact notLast (some.inj indexLast)
    have stale : (h.detach w i).index (h.v h.maxIndex) = some h.maxIndex :=
      (update_of_ne ne _ _).trans indexLast
    rw [v_eq, update_self, stale] at wrong
    exact notLast (some.inj wrong).symm

/-! ## Changes of keys and `Init` -/

theorem changeKey_spec (queue : h.IsQueue keys) (alpha : K) (present : keys w ≠ none) :
    ∃ h', h.changeKey w alpha = .ok h' ∧ h'.n = h.n ∧ h'.IsQueue (update keys w (some alpha)) := by
  obtain ⟨i, index, pos, low, item, lowW⟩ := queue.holds.queued present
  have legal : ¬ h.n ≤ w := by omega
  let h1 : BinaryHeap K := { h with key := update h.key w alpha }
  have holds1 : h1.Holds (update keys w (some alpha)) := by
    refine ⟨queue.holds.indexed, queue.holds.positioned, fun x => ?_, queue.holds.bounded⟩
    by_cases here : x = w
    · simp [h1, here, index]
    · simp [h1, here, queue.holds.keyed x]
  have at_i : h1.keyAt i = alpha := by simp [keyAt, h1, item]
  have elsewhere : ∀ j, 1 ≤ j → j ≤ h.maxIndex → j ≠ i → h1.keyAt j = h.keyAt j := by
    intro j posJ lowJ ne
    have neW : h.v j ≠ w := fun eq =>
      ne (queue.holds.injective posJ lowJ pos low (eq.trans item.symm))
    simp [keyAt, h1, neW]
  have edge : ∀ j, 2 ≤ j → j ≤ h.maxIndex → h.keyAt (j / 2) ≤ h.keyAt j := fun j inner lowJ =>
    queue.ordered j (.of_one (by omega)) (by omega) lowJ
  have old : h.keyAt i = h.key w := by rw [keyAt, item]
  by_cases greater : h.key w < alpha
  · -- an item that is in no position has no key to be compared
    let f : ℕ → K := fun j => if j = 0 then h1.keyAt 0 else h.keyAt j
    have inside : ∀ j, 1 ≤ j → f j = h.keyAt j := by
      intro j posJ
      have ne : j ≠ 0 := by omega
      simp [f, ne]
    have ordered : OrderedBelow f h1.maxIndex 1 :=
      queue.ordered.congr fun j below => inside j below.le
    obtain ⟨h', res, sifted, holds', ordered'⟩ := downHeap_restores (f := f) h.maxIndex holds1
      pos low (by change h.maxIndex < _; omega) ordered
      (fun j ne lowJ => by
        by_cases zero : j = 0
        · simp [f, zero]
        · rw [inside j (by omega), elsewhere j (by omega) lowJ ne])
      (fun inner => by
        rw [inside (i / 2) (by omega), at_i]
        exact (edge i inner low).trans (old.trans_lt greater).le)
    refine ⟨h', ?_, sifted.n_eq, holds', sifted.maxIndex_eq ▸ ordered'⟩
    simp only [changeKey, index, if_neg legal, if_pos greater]
    exact res
  · have up : OrderedUp h1.keyAt h1.maxIndex i := by
      constructor
      · intro j inner lowJ ne
        rw [elsewhere j (by omega) lowJ ne]
        by_cases child : j / 2 = i
        · rw [child, at_i]
          have below := edge j inner lowJ
          rw [child, old] at below
          exact (not_lt.1 greater).trans below
        · rw [elsewhere (j / 2) (by omega) (by change j ≤ h.maxIndex at lowJ; omega) child]
          exact edge j inner lowJ
      · intro j inner lowJ child innerI
        have below := edge j inner lowJ
        rw [child] at below
        rw [elsewhere j (by omega) lowJ (by omega),
          elsewhere (i / 2) (by omega) (by omega) (by omega)]
        exact (edge i innerI low).trans below
    obtain ⟨h', res, n', max', holds', ordered'⟩ := upHeap_spec holds1 pos low up
    refine ⟨h', ?_, n', holds', max' ▸ ordered'⟩
    simp only [changeKey, index, if_neg legal, if_neg greater]
    exact res

theorem drain_spec (fuel : ℕ) : ∀ (h : BinaryHeap K) (keys : ℕ → Option K), h.IsQueue keys →
    h.maxIndex < fuel → ∃ h', drain fuel h = .ok h' ∧ h'.n = h.n ∧ h'.IsQueue fun _ => none := by
  induction fuel with
  | zero =>
    intro h keys _ enough
    omega
  | succ fuel ih =>
    intro h keys queue enough
    by_cases empty : h.maxIndex = 0
    · have absent : keys = fun _ => none := by
        funext w
        by_contra present
        have := queue.holds.maxIndex_pos ⟨w, present⟩
        omega
      exact ⟨h, by simp [drain, empty], rfl, absent ▸ queue⟩
    · have present : ∃ w, keys w ≠ none := by
        refine ⟨h.v 1, fun absent => ?_⟩
        have index := queue.holds.indexed 1 (le_refl 1) (by omega)
        rw [(queue.holds.index_eq_none _).2 absent] at index
        cases index
      obtain ⟨h1, res1, n1, max1, queue1⟩ := delete_spec queue present
      obtain ⟨h', res, n', queue'⟩ := ih h1 _ queue1 (by omega)
      refine ⟨h', ?_, n'.trans n1, queue'⟩
      simp only [drain, if_neg empty, res1]
      exact res

theorem init_spec (queue : h.IsQueue keys) :
    ∃ h', h.init = .ok h' ∧ h'.n = h.n ∧ h'.IsQueue fun _ => none := by
  by_cases few : h.maxIndex * 100 < h.n
  · obtain ⟨h', res, spec⟩ := drain_spec (h.maxIndex + 1) h keys queue (Nat.lt_succ_self _)
    exact ⟨h', by rw [init, if_pos few]; exact res, spec⟩
  · have res : h.init = .ok (new h.n h.v h.key) := by
      rw [init, if_neg few]
      rfl
    exact ⟨_, res, rfl, new_isQueue h.n h.v h.key⟩

/-! ## Runs -/

theorem serve_spec (queue : h.IsQueue keys) (req : QueueRequest K)
    (legal : req.Legal h.n keys) (harmless : h.Harmless req) :
    ∃ h' answer, serve req h = .ok (h', answer) ∧ h'.n = h.n ∧
      h'.IsQueue (req.keysAfter keys answer) := by
  cases req with
  | insert w alpha =>
    obtain ⟨h', res, spec⟩ := insert_spec queue alpha legal.1 legal.2
    exact ⟨h', none, by simp [serve, res], spec⟩
  | deleteItem w =>
    obtain ⟨h', res, spec⟩ := deleteItem_spec queue legal harmless
    exact ⟨h', none, by simp [serve, res], spec⟩
  | delete =>
    obtain ⟨h', res, n', -, queue'⟩ := delete_spec queue legal
    refine ⟨h', some (h.v 1), by simp [serve, res], n', ?_⟩
    exact QueueRequest.keysAfter_delete keys (h.v 1) ▸ queue'
  | changeKey w alpha =>
    obtain ⟨h', res, spec⟩ := changeKey_spec queue alpha legal
    exact ⟨h', none, by simp [serve, res], spec⟩
  | init =>
    obtain ⟨h', res, spec⟩ := init_spec queue
    exact ⟨h', none, by simp [serve, res], spec⟩

theorem IsQueue.priorityQueue (queue : h.IsQueue keys) : h.PriorityQueue keys where
  distinct _ _ posI lowI posJ lowJ same := queue.holds.injective posI lowI posJ lowJ same
  items w := by
    constructor
    · rintro ⟨i, pos, low, item⟩ absent
      have index := queue.holds.indexed i pos low
      rw [item, (queue.holds.index_eq_none w).2 absent] at index
      cases index
    · intro present
      obtain ⟨i, -, pos, low, item, -⟩ := queue.holds.queued present
      exact ⟨i, pos, low, item⟩
  index_item := queue.holds.indexed
  index_none w absent := (queue.holds.index_eq_none w).2 absent
  order i inner low := queue.ordered i (.of_one (by omega)) (by omega) low
  key_eq w k value := by
    obtain ⟨i, index, -⟩ := queue.holds.queued (w := w) (by simp [value])
    rw [queue.holds.keyed w, index] at value
    exact some.inj value
  peek_min present := by
    have nonempty := (queue.holds.maxIndex_pos present).ne'
    exact ⟨h.v 1, by simp [peek, nonempty], queue.root_minimum present⟩
  delete_min present := by
    obtain ⟨h', result, -⟩ := delete_spec queue present
    exact ⟨h', h.v 1, result, queue.root_minimum present⟩

/-- **A `binaryHeap` is a priority queue until an item is deleted from a position at which the
last item comes to rest.** In every run of harmless requests the heap is a priority queue in
every state, every legal request is served, and the next state is that of a priority queue if
and only if the request is harmless. -/
theorem binaryHeap_invariant {n : ℕ} {v : ℕ → ℕ} {key : ℕ → K}
    (reach : QueueReach n (new n v key) serve Harmless h keys) :
    h.PriorityQueue keys ∧ ∀ request : QueueRequest K, request.Legal n keys →
      ∃ h' answer, serve request h = .ok (h', answer) ∧
        (h'.PriorityQueue (request.keysAfter keys answer) ↔ h.Harmless request) := by
  have invariant : h.n = n ∧ h.IsQueue keys := by
    refine reach.invariant (fun h keys => h.n = n ∧ h.IsQueue keys) ⟨rfl, new_isQueue n v key⟩ ?_
    rintro h keys ⟨size, queue⟩ request legal harmless h' answer result
    obtain ⟨h1, answer1, result1, size1, queue1⟩ := serve_spec queue request (size.symm ▸ legal)
      harmless
    rw [result1] at result
    cases result
    exact ⟨size1.trans size, queue1⟩
  obtain ⟨size, queue⟩ := invariant
  refine ⟨queue.priorityQueue, fun request legal => ?_⟩
  by_cases harmless : h.Harmless request
  · obtain ⟨h', answer, result, -, queue'⟩ := serve_spec queue request (size.symm ▸ legal) harmless
    exact ⟨h', answer, result, fun _ => harmless, fun _ => queue'.priorityQueue⟩
  cases request with
  | deleteItem w =>
    obtain ⟨h', result, broken⟩ := deleteItem_breaks queue legal harmless
    exact ⟨h', none, by simp [serve, result], fun queue' => absurd queue' broken,
      fun harmless' => absurd harmless' harmless⟩
  | insert w alpha | delete | changeKey w alpha | init => exact absurd trivial harmless

/-- Three items, the first of which is deleted: the last one sinks. -/
theorem binaryHeap_invariant_root : ∃ (h : BinaryHeap ℕ) (keys : ℕ → Option ℕ),
    QueueReach 3 (new 3 (fun _ => 0) fun _ => 0) serve Harmless h keys ∧ h.v 1 = 1 ∧ h.v 2 = 2 ∧
      keys 0 = none ∧ keys 2 = some 3 ∧ h.PriorityQueue keys := by
  have reach1 : QueueReach 3 (new 3 (fun _ => 0) fun _ => 0) serve Harmless _ _ :=
    .step (.insert 0 1) .start ⟨by decide, rfl⟩ trivial rfl
  have reach2 := QueueReach.step (.insert 1 2) reach1 ⟨by decide, rfl⟩ trivial rfl
  have reach3 := QueueReach.step (.insert 2 3) reach2 ⟨by decide, rfl⟩ trivial rfl
  have reach4 := QueueReach.step (.deleteItem 0) reach3 (some_ne_none _)
    (fun i index => .inr ⟨2, .inl (by cases index; rfl), by decide, by decide⟩) rfl
  exact ⟨_, _, reach4, rfl, rfl, rfl, rfl, (binaryHeap_invariant reach4).1⟩

/-- Three items, the second of which is deleted: the last one keeps its old entry in
`index`. -/
theorem binaryHeap_stale_index : ∃ (h : BinaryHeap ℕ) (keys : ℕ → Option ℕ),
    QueueReach 3 (new 3 (fun _ => 0) fun _ => 0) serve (fun _ _ => True) h keys ∧
      h.maxIndex = 2 ∧ h.v 2 = 2 ∧ h.index 2 = some 3 ∧ ¬ h.PriorityQueue keys := by
  have reach1 : QueueReach 3 (new 3 (fun _ => 0) fun _ => 0) serve (fun _ _ => True) _ _ :=
    .step (.insert 0 1) .start ⟨by decide, rfl⟩ trivial rfl
  have reach2 := QueueReach.step (.insert 1 2) reach1 ⟨by decide, rfl⟩ trivial rfl
  have reach3 := QueueReach.step (.insert 2 3) reach2 ⟨by decide, rfl⟩ trivial rfl
  have reach4 := QueueReach.step (.deleteItem 1) reach3 (some_ne_none _) trivial rfl
  refine ⟨_, _, reach4, rfl, rfl, rfl, fun queue => ?_⟩
  have wrong := queue.index_item 2 (by decide) (by decide)
  exact absurd wrong (by decide)

end BinaryHeap

end Goblin
