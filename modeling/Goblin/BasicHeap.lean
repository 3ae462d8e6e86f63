import Goblin.Augment
import Goblin.Library.QueueRequests

/-!
# Basic heaps

A `basicHeap` keeps its items in the array `v[0 .. maxIndex)`, sorted by non-increasing keys,
and finds the position of a key by bisection. There is no array that tells which items are
queued: an item counts as absent when its key is `InfFloat`.

The sorted array is correct in every run. The membership test is correct as long as the keys
of the absent items are `InfFloat` and those of the queued items are not. The removals take
care of this, but the constructor does not initialise `key`, `Init` leaves the keys of the
items that it drops, and `Insert` accepts `InfFloat`.
-/

set_option autoImplicit false

namespace Goblin

open Library Function

variable {w maxIndex j i k : ℕ}

/-- A `basicHeap` for the items below `n`. -/
structure BasicHeap (K : Type) where
  n : ℕ
  inf : K
  maxIndex : ℕ
  v : ℕ → ℕ
  key : ℕ → K

namespace BasicHeap

variable {K : Type}

/-- The constructor. The arrays `v` and `key` are not initialised. -/
def new (n : ℕ) (inf : K) (v : ℕ → ℕ) (key : ℕ → K) : BasicHeap K where
  n := n
  inf := inf
  maxIndex := 0
  v := v
  key := key

/-- The method `Init`. -/
def init : EStateM Raise (BasicHeap K) Unit := fun h => .ok () { h with maxIndex := 0 }

section

variable (v : ℕ → ℕ) (maxIndex j : ℕ)

/-- The `memmove` of `Insert`, followed by the assignment of `w` to `v[j]`. -/
def shiftUp (w : ℕ) : ℕ → ℕ := fun i =>
  if i = j then w else if j < i ∧ i ≤ maxIndex then v (i - 1) else v i

/-- The `memmove` of `Delete(w)`. -/
def shiftDown : ℕ → ℕ := fun i =>
  if j ≤ i ∧ i + 1 < maxIndex then v (i + 1) else v i

end

/-- The search of `Delete(w)` from position `j` on. It leaves the array when no position
has the item `w`. -/
def scan (v : ℕ → ℕ) (w : ℕ) : ℕ → ℕ → Option ℕ
  | 0, _ => none
  | left + 1, j => if v j = w then some j else scan v w left (j + 1)

variable [LinearOrder K]

/-- The bisection of `Insert` and `Delete(w)`, by `step` and `j`. There are less iterations
than the initial value of `step`. -/
def bisect (h : BasicHeap K) (alpha : K) : ℕ → ℕ → ℕ → ℕ × ℕ
  | 0, step, j => (step, j)
  | fuel + 1, step, j =>
    if 1 < step then
      if alpha < h.key (h.v (j + step / 2)) then
        bisect h alpha fuel (step - step / 2) (j + step / 2)
      else bisect h alpha fuel (step / 2) j
    else (step, j)

/-- The position at which `Insert` puts the key `alpha`. -/
def position (h : BasicHeap K) (alpha : K) : ℕ :=
  let (step, j) := h.bisect alpha h.maxIndex h.maxIndex 0
  if 0 < step ∧ alpha < h.key (h.v j) then j + 1 else j

def insert (w : ℕ) (alpha : K) : EStateM Raise (BasicHeap K) Unit := fun h =>
  if h.n ≤ w then .error (.range "Insert" "No such item") h
  else if h.n ≤ h.maxIndex then .error (.rejected "Insert" "Buffer is full") h
  else
    .ok () { h with
      v := shiftUp h.v h.maxIndex (h.position alpha) w
      key := update h.key w alpha
      maxIndex := h.maxIndex + 1 }

/-- `Delete(w)`. An access beyond the array `v`, and a `memmove` with a negative length, are
faults. -/
def deleteItem (w : ℕ) : EStateM Raise (BasicHeap K) Unit := fun h =>
  if h.n ≤ w then .error (.range "Delete" "No such item") h
  else if h.key w = h.inf then .error (.rejected "Delete" "Not a member") h
  else
    let (_, j) := h.bisect (h.key w) h.maxIndex h.maxIndex 0
    match scan h.v w (h.n - j) j with
    | none => .error .fault h
    | some j =>
      if h.maxIndex ≤ j then .error .fault h
      else
        .ok () { h with
          v := shiftDown h.v h.maxIndex j
          key := update h.key w h.inf
          maxIndex := h.maxIndex - 1 }

def changeKey (w : ℕ) (alpha : K) : EStateM Raise (BasicHeap K) Unit := fun h =>
  if h.n ≤ w then .error (.range "ChangeKey" "No such item") h
  else if h.key w = h.inf then .error (.rejected "ChangeKey" "Not a member") h
  else
    match deleteItem w h with
    | .error e h => .error e h
    | .ok _ h => insert w alpha h

/-- `Delete()` -/
def delete : EStateM Raise (BasicHeap K) ℕ := fun h =>
  if h.maxIndex = 0 then .error (.rejected "Delete" "Queue is empty") h
  else
    .ok (h.v (h.maxIndex - 1)) { h with
      maxIndex := h.maxIndex - 1
      key := update h.key (h.v (h.maxIndex - 1)) h.inf }

/-- The operations by request, with the item that `Delete()` returns. -/
def perform : QueueRequest K → EStateM Raise (BasicHeap K) (Option ℕ)
  | .insert w alpha => do
    insert w alpha
    return none
  | .deleteItem w => do
    deleteItem w
    return none
  | .delete => do return some (← delete)
  | .changeKey w alpha => do
    changeKey w alpha
    return none
  | .init => do
    init
    return none

/-- The operations without the state in which a method raises. -/
def serve (request : QueueRequest K) (h : BasicHeap K) : Except Raise (BasicHeap K × Option ℕ) :=
  match perform request h with
  | .ok answer h => .ok (h, answer)
  | .error e _ => .error e

/-! ## Bisection -/

variable {h : BasicHeap K} {keys : ℕ → Option K}

/-- The keys do not rise along the array. -/
def Sorted (h : BasicHeap K) : Prop :=
  ∀ i j, i ≤ j → j < h.maxIndex → h.key (h.v j) ≤ h.key (h.v i)

/-- The interval that the bisection leaves: everything before it has a greater key, and
everything behind it does not. -/
structure Bracket (h : BasicHeap K) (alpha : K) (step j : ℕ) : Prop where
  bound : j + step ≤ h.maxIndex
  before : ∀ i, i < j → alpha < h.key (h.v i)
  behind : ∀ i, j + step ≤ i → i < h.maxIndex → h.key (h.v i) ≤ alpha

section

variable (sorted : h.Sorted) (alpha : K)
include sorted

theorem bisect_spec (fuel : ℕ) : ∀ step j, step ≤ fuel →
    h.Bracket alpha step j → ∃ step' j', h.bisect alpha fuel step j = (step', j') ∧
      step' ≤ 1 ∧ h.Bracket alpha step' j' := by
  induction fuel with
  | zero =>
    intro step j enough bracket
    exact ⟨step, j, rfl, by omega, bracket⟩
  | succ fuel ih =>
    intro step j enough bracket
    have bound := bracket.bound
    by_cases wide : 1 < step
    · by_cases greater : alpha < h.key (h.v (j + step / 2))
      · have next : h.Bracket alpha (step - step / 2) (j + step / 2) := by
          refine ⟨by omega, fun i less => ?_, fun i above low => ?_⟩
          · exact greater.trans_le (sorted i (j + step / 2) (by omega) (by omega))
          · exact bracket.behind i (by omega) low
        obtain ⟨step', j', res, spec⟩ := ih _ _ (by omega) next
        exact ⟨step', j', by rw [bisect, if_pos wide, if_pos greater, res], spec⟩
      · have next : h.Bracket alpha (step / 2) j := by
          refine ⟨by omega, bracket.before, fun i above low => ?_⟩
          exact (sorted (j + step / 2) i above low).trans (not_lt.1 greater)
        obtain ⟨step', j', res, spec⟩ := ih _ _ (by omega) next
        exact ⟨step', j', by rw [bisect, if_pos wide, if_neg greater, res], spec⟩
    · exact ⟨step, j, by rw [bisect, if_neg wide], by omega, bracket⟩

theorem bisect_start : ∃ step j,
    h.bisect alpha h.maxIndex h.maxIndex 0 = (step, j) ∧ step ≤ 1 ∧ h.Bracket alpha step j := by
  refine bisect_spec sorted alpha h.maxIndex h.maxIndex 0 (le_refl _) ⟨by omega, ?_, ?_⟩
  · intro i less
    omega
  · intro i above low
    omega

/-- `Insert` puts a key behind the greater keys and before the others. -/
theorem position_spec : h.position alpha ≤ h.maxIndex ∧
    (∀ i, i < h.position alpha → alpha < h.key (h.v i)) ∧
    ∀ i, h.position alpha ≤ i → i < h.maxIndex → h.key (h.v i) ≤ alpha := by
  obtain ⟨step, j, res, narrow, bracket⟩ := bisect_start sorted alpha
  have bound := bracket.bound
  by_cases greater : 0 < step ∧ alpha < h.key (h.v j)
  · have found : h.position alpha = j + 1 := by simp only [position, res, if_pos greater]
    rw [found]
    refine ⟨by omega, fun i less => ?_, fun i above low => bracket.behind i (by omega) low⟩
    by_cases here : i = j
    · rw [here]
      exact greater.2
    · exact bracket.before i (by omega)
  · have found : h.position alpha = j := by simp only [position, res, if_neg greater]
    rw [found]
    refine ⟨by omega, bracket.before, fun i above low => ?_⟩
    by_cases behind : j + step ≤ i
    · exact bracket.behind i behind low
    · have here : i = j := by omega
      rw [here]
      exact not_lt.1 fun less => greater ⟨by omega, less⟩

end

omit [LinearOrder K] in
theorem scan_spec (v : ℕ → ℕ) (w : ℕ) (left : ℕ) : ∀ j p, j ≤ p → p < j + left → v p = w →
    (∀ i, j ≤ i → i ≤ p → v i = w → i = p) → scan v w left j = some p := by
  induction left with
  | zero =>
    intro j p low high _ _
    omega
  | succ left ih =>
    intro j p low high item unique
    by_cases here : v j = w
    · have eq : j = p := unique j (le_refl j) low here
      rw [scan, if_pos here, eq]
    · have less : j ≠ p := fun eq => here (eq ▸ item)
      rw [scan, if_neg here]
      exact ih (j + 1) p (by omega) (by omega) item fun i above => unique i (by omega)

/-! ## Sorted arrays of items -/

variable (h keys)

/-- The array is sorted and holds the items that have a key, and the membership test is
right. -/
structure IsQueue : Prop where
  distinct : ∀ i j, i < h.maxIndex → j < h.maxIndex → h.v i = h.v j → i = j
  items : ∀ w, (∃ i, i < h.maxIndex ∧ h.v i = w) ↔ keys w ≠ none
  sorted : h.Sorted
  key_eq : ∀ w k, keys w = some k → h.key w = k ∧ k ≠ h.inf
  key_absent : ∀ w, w < h.n → keys w = none → h.key w = h.inf
  bounded : ∀ w, keys w ≠ none → w < h.n
  maxIndex_le : h.maxIndex ≤ h.n

/-- A method raises one of the errors of the library and leaves the object alone. -/
def Rejects (method : EStateM Raise (BasicHeap K) Unit) : Prop :=
  ∃ e, (∃ name text, e = Raise.range name text ∨ e = Raise.rejected name text) ∧
    method h = .error e h

/-- What is to hold of a heap whose user knows these keys. -/
structure PriorityQueue : Prop where
  distinct : ∀ i j, i < h.maxIndex → j < h.maxIndex → h.v i = h.v j → i = j
  items : ∀ w, (∃ i, i < h.maxIndex ∧ h.v i = w) ↔ keys w ≠ none
  sorted : ∀ i j, i ≤ j → j < h.maxIndex → h.key (h.v j) ≤ h.key (h.v i)
  key_eq : ∀ w k, keys w = some k → h.key w = k
  delete_rejected : ∀ w, h.Rejects (deleteItem w) ↔ keys w = none
  changeKey_rejected : ∀ w alpha, h.Rejects (changeKey w alpha) ↔ keys w = none

variable {h keys}

theorem new_isQueue (n : ℕ) (inf : K) (v : ℕ → ℕ) (key : ℕ → K)
    (initialised : ∀ w, w < n → key w = inf) : (new n inf v key).IsQueue fun _ => none where
  distinct i j low := by simp [new] at low
  items w := by simp [new]
  sorted i j _ low := by simp [new] at low
  key_eq w k value := by cases value
  key_absent w low _ := initialised w low
  bounded w present := absurd rfl present
  maxIndex_le := Nat.zero_le n

theorem IsQueue.room (queue : h.IsQueue keys) (low : w < h.n) (absent : keys w = none) :
    h.maxIndex < h.n := by
  have present : ∀ i ∈ Finset.range h.maxIndex, keys (h.v i) ≠ none := fun i range =>
    (queue.items _).1 ⟨i, Finset.mem_range.1 range, rfl⟩
  have count := positions_lt (s := Finset.range h.maxIndex) (v := h.v) ?_ ?_ ?_ low
  · rwa [Finset.card_range] at count
  · intro i rangeI j rangeJ eq
    exact queue.distinct i j (Finset.mem_range.1 rangeI) (Finset.mem_range.1 rangeJ) eq
  · intro i range
    exact queue.bounded _ (present i range)
  · intro i range eq
    exact present i range (eq ▸ absent)

/-! ## Insertion -/

omit [LinearOrder K] in
/-- The positions after the `memmove` of `Insert`, but for the free one. -/
theorem shiftUp_old (v : ℕ → ℕ) (w : ℕ) (bound : j ≤ maxIndex) (low : i < maxIndex + 1)
    (ne : i ≠ j) : ∃ k, k < maxIndex ∧ shiftUp v maxIndex j w i = v k ∧
      (k < j ∧ i = k ∨ j ≤ k ∧ i = k + 1) := by
  by_cases before : i < j
  · have out : ¬ (j < i ∧ i ≤ maxIndex) := by omega
    exact ⟨i, by omega, by simp only [shiftUp, if_neg ne, if_neg out], .inl ⟨before, rfl⟩⟩
  · have inside : j < i ∧ i ≤ maxIndex := by omega
    exact ⟨i - 1, by omega, by simp only [shiftUp, if_neg ne, if_pos inside],
      .inr ⟨by omega, by omega⟩⟩

omit [LinearOrder K] in
theorem shiftUp_new (v : ℕ → ℕ) (w : ℕ) (low : k < maxIndex) :
    ∃ i, i < maxIndex + 1 ∧ shiftUp v maxIndex j w i = v k := by
  by_cases before : k < j
  · have ne : k ≠ j := by omega
    have out : ¬ (j < k ∧ k ≤ maxIndex) := by omega
    exact ⟨k, by omega, by simp only [shiftUp, if_neg ne, if_neg out]⟩
  · have ne : k + 1 ≠ j := by omega
    have inside : j < k + 1 ∧ k + 1 ≤ maxIndex := by omega
    exact ⟨k + 1, by omega, by simp only [shiftUp, if_neg ne, if_pos inside, Nat.add_sub_cancel]⟩

theorem insert_spec (queue : h.IsQueue keys) (alpha : K) (low : w < h.n)
    (absent : keys w = none) : ∃ h', insert w alpha h = .ok () h' ∧ h'.n = h.n ∧ h'.inf = h.inf ∧
      h'.key w = alpha ∧ (alpha ≠ h.inf → h'.IsQueue (update keys w (some alpha))) := by
  have room := queue.room low absent
  obtain ⟨bound, before, behind⟩ := position_spec queue.sorted alpha
  have legal : ¬ h.n ≤ w := by omega
  have space : ¬ h.n ≤ h.maxIndex := by omega
  let h' : BasicHeap K :=
    { h with
      v := shiftUp h.v h.maxIndex (h.position alpha) w
      key := update h.key w alpha
      maxIndex := h.maxIndex + 1 }
  have res : insert w alpha h = .ok () h' := by
    simp only [insert, if_neg legal, if_neg space, h']
  have fresh : ∀ k, k < h.maxIndex → h.v k ≠ w := fun k lowK eq =>
    (queue.items w).1 ⟨k, lowK, eq⟩ absent
  have here : h'.v (h.position alpha) = w := if_pos rfl
  have old : ∀ i, i < h'.maxIndex → i ≠ h.position alpha → ∃ k, k < h.maxIndex ∧
      h'.v i = h.v k ∧ (k < h.position alpha ∧ i = k ∨ h.position alpha ≤ k ∧ i = k + 1) :=
    fun i lowI ne => shiftUp_old h.v w bound lowI ne
  have keyOld : ∀ k, k < h.maxIndex → h'.key (h.v k) = h.key (h.v k) := fun k lowK =>
    update_of_ne (fresh k lowK) _ _
  have keyNew : h'.key w = alpha := update_self _ _ _
  refine ⟨h', res, rfl, rfl, keyNew, fun finite => ?_⟩
  constructor
  case distinct =>
    intro i j lowI lowJ eq
    by_cases newI : i = h.position alpha
    · by_cases newJ : j = h.position alpha
      · rw [newI, newJ]
      · obtain ⟨k, lowK, val, -⟩ := old j lowJ newJ
        rw [newI, here, val] at eq
        exact absurd eq.symm (fresh k lowK)
    · obtain ⟨k, lowK, val, place⟩ := old i lowI newI
      by_cases newJ : j = h.position alpha
      · rw [newJ, here, val] at eq
        exact absurd eq (fresh k lowK)
      · obtain ⟨l, lowL, val', place'⟩ := old j lowJ newJ
        have equal : k = l := queue.distinct k l lowK lowL (by rw [← val, ← val', eq])
        omega
  case items =>
    intro x
    by_cases new : x = w
    · rw [new]
      simp only [update_self, ne_eq, reduceCtorEq, not_false_eq_true, iff_true]
      exact ⟨h.position alpha, Nat.lt_succ_of_le bound, here⟩
    rw [update_of_ne new, ← queue.items x]
    constructor
    · rintro ⟨i, lowI, item⟩
      have ne : i ≠ h.position alpha := fun eq => new (by rw [← item, eq, here])
      obtain ⟨k, lowK, val, -⟩ := old i lowI ne
      exact ⟨k, lowK, val.symm.trans item⟩
    · rintro ⟨k, lowK, item⟩
      obtain ⟨i, lowI, val⟩ := shiftUp_new h.v w (j := h.position alpha) lowK
      exact ⟨i, lowI, val.trans item⟩
  case sorted =>
    intro i j le lowJ
    have lowI : i < h'.maxIndex := lt_of_le_of_lt le lowJ
    by_cases newI : i = h.position alpha
    · by_cases newJ : j = h.position alpha
      · rw [newI, newJ]
      · obtain ⟨l, lowL, val, place⟩ := old j lowJ newJ
        rw [newI, here, keyNew, val, keyOld l lowL]
        exact behind l (by omega) lowL
    · obtain ⟨k, lowK, val, place⟩ := old i lowI newI
      rw [val, keyOld k lowK]
      by_cases newJ : j = h.position alpha
      · rw [newJ, here, keyNew]
        exact (before k (by omega)).le
      · obtain ⟨l, lowL, val', place'⟩ := old j lowJ newJ
        rw [val', keyOld l lowL]
        exact queue.sorted k l (by omega) lowL
  case key_eq =>
    intro x k val
    by_cases new : x = w
    · rw [new, update_self, Option.some.injEq] at val
      rw [new, keyNew, ← val]
      exact ⟨rfl, finite⟩
    · rw [update_of_ne new] at val
      exact ⟨(update_of_ne new _ _).trans (queue.key_eq x k val).1, (queue.key_eq x k val).2⟩
  case key_absent =>
    intro x lowX none
    have ne : x ≠ w := fun eq => by simp [eq] at none
    rw [update_of_ne ne] at none
    exact (update_of_ne ne _ _).trans (queue.key_absent x lowX none)
  case bounded =>
    intro x present
    by_cases new : x = w
    · exact new ▸ low
    · rw [update_of_ne new] at present
      exact queue.bounded x present
  case maxIndex_le => exact room

/-! ## Deletion -/

omit [LinearOrder K] in
theorem shiftDown_old (v : ℕ → ℕ) (low : i < maxIndex - 1) :
    ∃ k, k < maxIndex ∧ shiftDown v maxIndex j i = v k ∧ (k < j ∧ i = k ∨ j < k ∧ k = i + 1) := by
  by_cases before : i < j
  · have out : ¬ (j ≤ i ∧ i + 1 < maxIndex) := by omega
    exact ⟨i, by omega, by simp only [shiftDown, if_neg out], .inl ⟨before, rfl⟩⟩
  · have inside : j ≤ i ∧ i + 1 < maxIndex := by omega
    exact ⟨i + 1, by omega, by simp only [shiftDown, if_pos inside], .inr ⟨by omega, rfl⟩⟩

omit [LinearOrder K] in
theorem shiftDown_new (v : ℕ → ℕ) (lowJ : j < maxIndex) (low : k < maxIndex)
    (ne : k ≠ j) : ∃ i, i < maxIndex - 1 ∧ shiftDown v maxIndex j i = v k := by
  by_cases before : k < j
  · have out : ¬ (j ≤ k ∧ k + 1 < maxIndex) := by omega
    exact ⟨k, by omega, by simp only [shiftDown, if_neg out]⟩
  · have inside : j ≤ k - 1 ∧ k - 1 + 1 < maxIndex := by omega
    have back : k - 1 + 1 = k := by omega
    exact ⟨k - 1, by omega, by rw [shiftDown, if_pos inside, back]⟩

section

variable (queue : h.IsQueue keys)
include queue

theorem IsQueue.remove (v' : ℕ → ℕ) (lowJ : j < h.maxIndex)
    (old : ∀ i, i < h.maxIndex - 1 → ∃ k, k < h.maxIndex ∧ v' i = h.v k ∧
      (k < j ∧ i = k ∨ j < k ∧ k = i + 1))
    (new : ∀ k, k < h.maxIndex → k ≠ j → ∃ i, i < h.maxIndex - 1 ∧ v' i = h.v k) :
    IsQueue { h with
        v := v'
        key := update h.key (h.v j) h.inf
        maxIndex := h.maxIndex - 1 }
      (update keys (h.v j) none) := by
  have other : ∀ k, k < h.maxIndex → k ≠ j → h.v k ≠ h.v j := fun k lowK ne eq =>
    ne (queue.distinct k j lowK lowJ eq)
  constructor
  case distinct =>
    intro i l lowI lowL eq
    obtain ⟨k, lowK, val, place⟩ := old i lowI
    obtain ⟨k', lowK', val', place'⟩ := old l lowL
    have equal : k = k' := queue.distinct k k' lowK lowK' (by rw [← val, ← val']; exact eq)
    omega
  case items =>
    intro x
    by_cases gone : x = h.v j
    · rw [gone, update_self]
      simp only [ne_eq, not_true_eq_false, iff_false]
      rintro ⟨i, lowI, item⟩
      obtain ⟨k, lowK, val, place⟩ := old i lowI
      exact other k lowK (by omega) (val.symm.trans item)
    · rw [update_of_ne gone, ← queue.items x]
      constructor
      · rintro ⟨i, lowI, item⟩
        obtain ⟨k, lowK, val, -⟩ := old i lowI
        exact ⟨k, lowK, val.symm.trans item⟩
      · rintro ⟨k, lowK, item⟩
        obtain ⟨i, lowI, val⟩ := new k lowK fun eq => gone (by rw [← item, eq])
        exact ⟨i, lowI, val.trans item⟩
  case sorted =>
    intro i l le lowL
    obtain ⟨k, lowK, val, place⟩ := old i (lt_of_le_of_lt le lowL)
    obtain ⟨k', lowK', val', place'⟩ := old l lowL
    simp only [val, val', update_of_ne (other k lowK (by omega)),
      update_of_ne (other k' lowK' (by omega))]
    exact queue.sorted k k' (by omega) lowK'
  case key_eq =>
    intro x k val
    have ne : x ≠ h.v j := fun eq => by simp [eq] at val
    rw [update_of_ne ne] at val
    exact ⟨(update_of_ne ne _ _).trans (queue.key_eq x k val).1, (queue.key_eq x k val).2⟩
  case key_absent =>
    intro x low none
    by_cases gone : x = h.v j
    · rw [gone]
      exact update_self _ _ _
    · rw [update_of_ne gone] at none
      exact (update_of_ne gone _ _).trans (queue.key_absent x low none)
  case bounded =>
    intro x present
    have ne : x ≠ h.v j := fun eq => by simp [eq] at present
    rw [update_of_ne ne] at present
    exact queue.bounded x present
  case maxIndex_le => exact (Nat.sub_le _ 1).trans queue.maxIndex_le

theorem IsQueue.key_ne (present : keys w ≠ none) : h.key w ≠ h.inf := by
  obtain ⟨k, val⟩ := Option.ne_none_iff_exists'.1 present
  rw [(queue.key_eq w k val).1]
  exact (queue.key_eq w k val).2

theorem deleteItem_spec (present : keys w ≠ none) :
    ∃ h', deleteItem w h = .ok () h' ∧ h'.n = h.n ∧ h'.inf = h.inf ∧
      h'.IsQueue (update keys w none) := by
  obtain ⟨p, lowP, item⟩ := (queue.items w).2 present
  obtain ⟨step, j, bisected, -, bracket⟩ := bisect_start queue.sorted (h.key w)
  have low := queue.bounded w present
  have legal : ¬ h.n ≤ w := by omega
  have mem := queue.key_ne present
  have reached : j ≤ p := by
    by_contra before
    have greater := bracket.before p (by omega)
    rw [item] at greater
    exact lt_irrefl _ greater
  have found : scan h.v w (h.n - j) j = some p := by
    refine scan_spec h.v w (h.n - j) j p reached ?_ item fun i _ le eq => ?_
    · have := queue.maxIndex_le
      omega
    · exact queue.distinct i p (by omega) lowP (eq.trans item.symm)
  have inside : ¬ h.maxIndex ≤ p := by omega
  have removed := queue.remove (shiftDown h.v h.maxIndex p) lowP (fun i lowI => shiftDown_old h.v lowI)
    fun k lowK ne => shiftDown_new h.v lowP lowK ne
  rw [item] at removed
  refine ⟨_, ?_, ?_, ?_, removed⟩
  · simp only [deleteItem, if_neg legal, if_neg mem, bisected, found, if_neg inside]
  · rfl
  · rfl

theorem delete_spec (present : ∃ w, keys w ≠ none) :
    ∃ h' w, delete h = .ok w h' ∧ h'.n = h.n ∧ h'.inf = h.inf ∧
      h'.IsQueue (update keys w none) := by
  obtain ⟨x, queued⟩ := present
  obtain ⟨p, lowP, -⟩ := (queue.items x).2 queued
  have nonempty : h.maxIndex ≠ 0 := by omega
  have removed := queue.remove h.v (j := h.maxIndex - 1) (by omega)
    (fun i lowI => ⟨i, by omega, rfl, .inl ⟨lowI, rfl⟩⟩)
    fun k lowK ne => ⟨k, by omega, rfl⟩
  refine ⟨_, h.v (h.maxIndex - 1), ?_, ?_, ?_, removed⟩
  · simp only [delete, if_neg nonempty]
  · rfl
  · rfl

end

/-! ## The membership test -/

section

variable (h : BasicHeap K)

theorem rejects_of_inf (alpha : K) (inf : h.key w = h.inf) :
    h.Rejects (deleteItem w) ∧ h.Rejects (changeKey w alpha) := by
  by_cases illegal : h.n ≤ w
  · constructor
    · exact ⟨_, ⟨"Delete", _, .inl rfl⟩, by simp only [deleteItem, if_pos illegal]; rfl⟩
    · exact ⟨_, ⟨"ChangeKey", _, .inl rfl⟩, by simp only [changeKey, if_pos illegal]; rfl⟩
  · constructor
    · exact ⟨_, ⟨"Delete", _, .inr rfl⟩, by
        simp only [deleteItem, if_neg illegal, if_pos inf]; rfl⟩
    · exact ⟨_, ⟨"ChangeKey", _, .inr rfl⟩, by
        simp only [changeKey, if_neg illegal, if_pos inf]; rfl⟩

theorem rejects_of_range (alpha : K) (illegal : h.n ≤ w) :
    h.Rejects (deleteItem w) ∧ h.Rejects (changeKey w alpha) := by
  constructor
  · exact ⟨_, ⟨"Delete", _, .inl rfl⟩, by simp only [deleteItem, if_pos illegal]; rfl⟩
  · exact ⟨_, ⟨"ChangeKey", _, .inl rfl⟩, by simp only [changeKey, if_pos illegal]; rfl⟩

theorem not_rejects (low : w < h.n) (finite : h.key w ≠ h.inf) :
    ¬ h.Rejects (deleteItem w) := by
  rintro ⟨e, ⟨name, text, error⟩, res⟩
  have legal : ¬ h.n ≤ w := by omega
  simp only [deleteItem, if_neg legal, if_neg finite] at res
  split at res
  · cases res
    simp at error
  · split_ifs at res
    cases res
    simp at error

end

theorem changeKey_spec (queue : h.IsQueue keys) (alpha : K) (present : keys w ≠ none) :
    ∃ h', changeKey w alpha h = .ok () h' ∧ h'.n = h.n ∧ h'.inf = h.inf ∧ h'.key w = alpha ∧
      (alpha ≠ h.inf → h'.IsQueue (update keys w (some alpha))) := by
  obtain ⟨h1, res1, n1, inf1, queue1⟩ := deleteItem_spec queue present
  have low := queue.bounded w present
  have legal : ¬ h.n ≤ w := by omega
  obtain ⟨h2, res2, n2, inf2, key2, queue2⟩ := insert_spec queue1 (w := w) alpha (by omega)
    (update_self _ _ _)
  rw [update_idem, inf1] at queue2
  refine ⟨h2, ?_, n2.trans n1, inf2.trans inf1, key2, queue2⟩
  simp only [changeKey, if_neg legal, if_neg (queue.key_ne present), res1]
  exact res2

theorem IsQueue.priorityQueue (queue : h.IsQueue keys) : h.PriorityQueue keys := by
  have absent : ∀ w alpha, keys w = none →
      h.Rejects (deleteItem w) ∧ h.Rejects (changeKey w alpha) := by
    intro w alpha none
    by_cases low : w < h.n
    · exact rejects_of_inf h alpha (queue.key_absent w low none)
    · exact rejects_of_range h alpha (by omega)
  refine ⟨queue.distinct, queue.items, queue.sorted, fun w k val => (queue.key_eq w k val).1,
    fun w => ⟨fun rejected => ?_, fun none => (absent w h.inf none).1⟩,
    fun w alpha => ⟨fun rejected => ?_, fun none => (absent w alpha none).2⟩⟩
  · by_contra present
    exact not_rejects h (queue.bounded w present) (queue.key_ne present) rejected
  · by_contra present
    obtain ⟨h', res, -⟩ := changeKey_spec queue alpha present
    obtain ⟨e, -, error⟩ := rejected
    rw [res] at error
    cases error

/-- The requests that keep the membership test right: keys are not `InfFloat`, and `Init` finds
an empty heap. -/
def Harmless (h : BasicHeap K) : QueueRequest K → Prop
  | .insert _ alpha => alpha ≠ h.inf
  | .changeKey _ alpha => alpha ≠ h.inf
  | .init => h.maxIndex = 0
  | _ => True

/-! ## Runs -/

theorem breaks_of_inf {h : BasicHeap K} (alpha : K) (inf : h.key w = h.inf) :
    ¬ h.PriorityQueue (update keys w (some alpha)) := by
  intro queue
  have absent := (queue.delete_rejected w).1 (rejects_of_inf h alpha inf).1
  simp at absent

section

variable (queue : h.IsQueue keys) (request : QueueRequest K) (legal : request.Legal h.n keys)
include queue legal

theorem serve_spec (harmless : h.Harmless request) :
    ∃ h' answer, serve request h = .ok (h', answer) ∧ h'.n = h.n ∧ h'.inf = h.inf ∧
      h'.IsQueue (request.keysAfter keys answer) := by
  cases request with
  | insert w alpha =>
    obtain ⟨h', res, n', inf', -, queue'⟩ := insert_spec queue alpha legal.1 legal.2
    exact ⟨h', none, by simp [serve, perform, bind, EStateM.bind, res, pure, EStateM.pure], n',
      inf', queue' harmless⟩
  | deleteItem w =>
    obtain ⟨h', res, spec⟩ := deleteItem_spec queue legal
    exact ⟨h', none, by simp [serve, perform, bind, EStateM.bind, res, pure, EStateM.pure],
      spec⟩
  | delete =>
    obtain ⟨h', w, res, n', inf', queue'⟩ := delete_spec queue legal
    refine ⟨h', some w, by simp [serve, perform, bind, EStateM.bind, res, pure, EStateM.pure],
      n', inf', ?_⟩
    exact QueueRequest.keysAfter_delete keys w ▸ queue'
  | changeKey w alpha =>
    obtain ⟨h', res, n', inf', -, queue'⟩ := changeKey_spec queue alpha legal
    exact ⟨h', none, by simp [serve, perform, bind, EStateM.bind, res, pure, EStateM.pure], n',
      inf', queue' harmless⟩
  | init =>
    have empty : keys = fun _ => none := by
      funext w
      by_contra present
      obtain ⟨i, low, -⟩ := (queue.items w).2 present
      change h.maxIndex = 0 at harmless
      omega
    have eq : { h with maxIndex := 0 } = h := by
      change h.maxIndex = 0 at harmless
      cases h
      simp_all
    refine ⟨h, none, ?_, rfl, rfl, empty ▸ queue⟩
    simp [serve, perform, bind, EStateM.bind, init, eq, pure, EStateM.pure]

theorem serve_breaks (harmful : ¬ h.Harmless request) :
    ∃ h' answer, serve request h = .ok (h', answer) ∧
      ¬ h'.PriorityQueue (request.keysAfter keys answer) := by
  cases request with
  | insert w alpha =>
    obtain ⟨h', res, n', inf', key', -⟩ := insert_spec queue alpha legal.1 legal.2
    refine ⟨h', none, by simp [serve, perform, bind, EStateM.bind, res, pure, EStateM.pure],
      breaks_of_inf alpha ?_⟩
    rw [key', inf']
    exact not_not.1 harmful
  | deleteItem w | delete => exact absurd trivial harmful
  | changeKey w alpha =>
    obtain ⟨h', res, n', inf', key', -⟩ := changeKey_spec queue alpha legal
    refine ⟨h', none, by simp [serve, perform, bind, EStateM.bind, res, pure, EStateM.pure],
      breaks_of_inf alpha ?_⟩
    rw [key', inf']
    exact not_not.1 harmful
  | init =>
    have ne : 0 < h.maxIndex := Nat.pos_of_ne_zero harmful
    have present := (queue.items (h.v 0)).1 ⟨0, ne, rfl⟩
    refine ⟨{ h with maxIndex := 0 }, none,
      by simp [serve, perform, bind, EStateM.bind, init, pure, EStateM.pure], fun queue' => ?_⟩
    exact not_rejects { h with maxIndex := 0 } (queue.bounded _ present) (queue.key_ne present)
      ((queue'.delete_rejected (h.v 0)).2 rfl)

end

/-- **A `basicHeap` is a priority queue as long as absence and the key `InfFloat` are the
same.** The constructed heap is one if and only if the array `key` happens to be filled with
`InfFloat`. From then on the heap is a priority queue in every state of a run of harmless
requests, every legal request is served, and the next state is that of a priority queue if and
only if the request is harmless. -/
theorem basicHeap_invariant (n : ℕ) (inf : K) (v : ℕ → ℕ) (key : ℕ → K) :
    ((new n inf v key).PriorityQueue (fun _ => none) ↔ ∀ w, w < n → key w = inf) ∧
      ((∀ w, w < n → key w = inf) → ∀ h keys, QueueReach n (new n inf v key) serve Harmless h keys →
          h.PriorityQueue keys ∧ ∀ request : QueueRequest K, request.Legal n keys →
            ∃ h' answer, serve request h = .ok (h', answer) ∧
              (h'.PriorityQueue (request.keysAfter keys answer) ↔ h.Harmless request)) := by
  constructor
  · constructor
    · intro queue w low
      by_contra finite
      exact not_rejects (new n inf v key) low finite ((queue.delete_rejected w).2 rfl)
    · intro initialised
      exact (new_isQueue n inf v key initialised).priorityQueue
  · intro initialised h keys reach
    have invariant : h.n = n ∧ h.IsQueue keys := by
      refine reach.invariant (fun h keys => h.n = n ∧ h.IsQueue keys)
        ⟨rfl, new_isQueue n inf v key initialised⟩ ?_
      rintro h keys ⟨size, queue⟩ request legal harmless h' answer result
      obtain ⟨h1, answer1, result1, size1, -, queue1⟩ := serve_spec queue request
        (size.symm ▸ legal) harmless
      rw [result1] at result
      cases result
      exact ⟨size1.trans size, queue1⟩
    obtain ⟨size, queue⟩ := invariant
    refine ⟨queue.priorityQueue, fun request legal => ?_⟩
    by_cases harmless : h.Harmless request
    · obtain ⟨h', answer, result, -, -, queue'⟩ := serve_spec queue request (size.symm ▸ legal)
        harmless
      exact ⟨h', answer, result, fun _ => harmless, fun _ => queue'.priorityQueue⟩
    · obtain ⟨h', answer, result, broken⟩ := serve_breaks queue request (size.symm ▸ legal) harmless
      exact ⟨h', answer, result, fun queue' => absurd queue' broken,
        fun harmless' => absurd harmless' harmless⟩

/-- Two items on an initialised array, where 9 stands for `InfFloat`. -/
theorem basicHeap_invariant_two : ∃ (h : BasicHeap ℕ) (keys : ℕ → Option ℕ),
    QueueReach 2 (new 2 9 (fun _ => 0) fun _ => 9) serve Harmless h keys ∧ h.v 0 = 1 ∧
      h.v 1 = 0 ∧ keys 1 = some 5 ∧ h.PriorityQueue keys := by
  have reach1 : QueueReach 2 (new 2 9 (fun _ => 0) fun _ => 9) serve Harmless _ _ :=
    .step (.insert 0 4) .start ⟨by decide, rfl⟩ (by decide : (4 : ℕ) ≠ 9) rfl
  have reach2 := QueueReach.step (.insert 1 5) reach1 ⟨by decide, rfl⟩ (by decide : (5 : ℕ) ≠ 9) rfl
  exact ⟨_, _, reach2, rfl, rfl, rfl,
    ((basicHeap_invariant 2 9 (fun _ => 0) fun _ => 9).2 (fun _ _ => rfl) _ _ reach2).1⟩

/-- An item that has been inserted with the key `InfFloat` cannot be deleted. -/
theorem basicHeap_inf_rejected : ∃ (h : BasicHeap ℕ) (keys : ℕ → Option ℕ),
    QueueReach 1 (new 1 9 (fun _ => 0) fun _ => 9) serve (fun _ _ => True) h keys ∧
      keys 0 = some 9 ∧ h.v 0 = 0 ∧ h.Rejects (deleteItem 0) ∧ ¬ h.PriorityQueue keys := by
  have reach : QueueReach 1 (new 1 9 (fun _ => 0) fun _ => 9) serve (fun _ _ => True) _ _ :=
    .step (.insert 0 9) .start ⟨by decide, rfl⟩ trivial rfl
  have rejected := (rejects_of_inf { new 1 9 (fun _ => 0) (fun _ => 9) with
    v := shiftUp (fun _ => 0) 0 0 0
    key := update (fun _ => 9) 0 9
    maxIndex := 1 } (w := 0) 0 rfl).1
  refine ⟨_, _, reach, rfl, rfl, rejected, fun queue => ?_⟩
  exact absurd ((queue.delete_rejected 0).1 rejected) (Option.some_ne_none 9)

end BasicHeap

end Goblin
