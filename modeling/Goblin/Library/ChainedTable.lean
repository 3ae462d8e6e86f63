import Goblin.Library.Chains

/-!
# Hash tables with chaining

The slots of a hash table hold labelled values; a slot is in the bucket that belongs to its
label, and at most one slot has a given label. The labels that are not present have a default
value. `Entries` says that the slots represent a map `m` in this way. The three changes of a
table (release an entry, replace a value, enter a label) update the map accordingly, and a
search along the chain of the right bucket finds the entry of a label if there is one.
-/

set_option autoImplicit false

namespace Goblin.Library

open Finset
open Function

universe u v w

variable {place : ℕ → Option ℕ} {nMax x : ℕ}

/-- The slots that are in use. -/
def usedSlots (place : ℕ → Option ℕ) (nMax : ℕ) : Finset ℕ :=
  (Finset.range nMax).filter fun x => place x ≠ none

/-- The slots, with their labels and values, represent the map `m`. -/
structure Entries {I : Type u} {K : Type v} (first next : ℕ → ℕ) (nil free nHash nMax : ℕ)
    (label : ℕ → I) (value : ℕ → K) (bucket : I → ℕ) (default : K) (m : I → K)
    (place : ℕ → Option ℕ) : Prop where
  slots : Slots first next nil free nHash nMax place
  stored : ∀ x b, x < nMax → place x = some b →
    bucket (label x) = b ∧ m (label x) = value x ∧ value x ≠ default
  unique : ∀ x y, x < nMax → y < nMax → place x ≠ none → place y ≠ none →
    label x = label y → x = y
  complete : ∀ i, m i ≠ default → ∃ x, x < nMax ∧ place x = some (bucket i) ∧ label x = i

theorem mem_usedSlots : x ∈ usedSlots place nMax ↔ x < nMax ∧ place x ≠ none := by
  rw [usedSlots, mem_filter, mem_range]

theorem card_usedSlots_le (place : ℕ → Option ℕ) (nMax : ℕ) : (usedSlots place nMax).card ≤ nMax :=
  (card_filter_le _ _).trans_eq (card_range nMax)

theorem card_usedSlots_take {b : ℕ} (low : x < nMax) (unused : place x = none) :
    (usedSlots (update place x (some b)) nMax).card = (usedSlots place nMax).card + 1 := by
  have inserted : usedSlots (update place x (some b)) nMax = insert x (usedSlots place nMax) := by
    ext z
    by_cases here : z = x
    · simp [mem_usedSlots, here, low]
    · simp [mem_usedSlots, here]
  rw [inserted, card_insert_of_notMem]
  simp [mem_usedSlots, unused]

theorem card_usedSlots_release (low : x < nMax) (used : place x ≠ none) :
    (usedSlots (update place x none) nMax).card = (usedSlots place nMax).card - 1 := by
  have erased : usedSlots (update place x none) nMax = (usedSlots place nMax).erase x := by
    ext z
    by_cases here : z = x
    · simp [mem_usedSlots, here]
    · simp [mem_usedSlots, here]
  rw [erased, card_erase_of_mem (mem_usedSlots.2 ⟨low, used⟩)]

theorem Slots.free_ne {first next : ℕ → ℕ} {nil free nHash : ℕ}
    (slots : Slots first next nil free nHash nMax place)
    (less : (usedSlots place nMax).card < nMax) : free ≠ nil := by
  intro full
  obtain ⟨l, chain, mem⟩ := slots.free_chain
  have empty : l = [] := chain.unique (show Chain next nil free [] from full)
  have all : usedSlots place nMax = Finset.range nMax := by
    refine filter_true_of_mem fun x low unused => ?_
    have member := (mem x).2 ⟨mem_range.1 low, unused⟩
    rw [empty] at member
    cases member
  rw [all, card_range] at less
  exact lt_irrefl _ less

namespace Entries

variable {I : Type u} {K : Type v} {first next : ℕ → ℕ} {nil free nHash nMax : ℕ}
  {label : ℕ → I} {value : ℕ → K} {bucket : I → ℕ} {default : K} {m : I → K}
  {place : ℕ → Option ℕ} {i : I} {alpha : K}

theorem ncard (entries : Entries first next nil free nHash nMax label value bucket default m place) :
    {i | m i ≠ default}.Finite ∧ {i | m i ≠ default}.ncard = (usedSlots place nMax).card := by
  have image : {i | m i ≠ default} = label '' (usedSlots place nMax : Set ℕ) := by
    ext i
    constructor
    · intro nonzero
      obtain ⟨x, low, placed, eq⟩ := entries.complete i nonzero
      exact ⟨x, mem_usedSlots.2 ⟨low, by simp [placed]⟩, eq⟩
    · rintro ⟨x, used, rfl⟩
      obtain ⟨low, present⟩ := mem_usedSlots.1 used
      obtain ⟨b, placed⟩ := Option.ne_none_iff_exists'.1 present
      obtain ⟨-, eq, nonzero⟩ := entries.stored x b low placed
      exact fun zero => nonzero (eq.symm.trans zero)
  have inj : Set.InjOn label (usedSlots place nMax : Set ℕ) := by
    intro x usedX y usedY eq
    obtain ⟨lowX, presentX⟩ := mem_usedSlots.1 usedX
    obtain ⟨lowY, presentY⟩ := mem_usedSlots.1 usedY
    exact entries.unique x y lowX lowY presentX presentY eq
  rw [image]
  refine ⟨(finite_toSet _).image _, ?_⟩
  rw [inj.ncard_image, Set.ncard_coe_finset]

/-- The search along the bucket of `i` stops at the entry of `i`, or at the end when there is
none. -/
theorem search (entries : Entries first next nil free nHash nMax label value bucket default m place)
    {ε : Type w} (exhausted : ε) (found : ℕ → Bool) (low : bucket i < nHash)
    (faithful : ∀ x, x < nMax → place x = some (bucket i) → (found x = true ↔ label x = i)) :
    ∃ y x l, chainSearch exhausted next nil found (nMax + 1) nil (first (bucket i)) = .ok (y, x) ∧
      Chain next nil (first (bucket i)) l ∧
      (∀ x, x ∈ l ↔ x < nMax ∧ place x = some (bucket i)) ∧ SearchSpec nil found nil l y x ∧
      ((x = nil ∧ m i = default) ∨
        (x ≠ nil ∧ x < nMax ∧ place x = some (bucket i) ∧ label x = i ∧ m i = value x ∧
          m i ≠ default)) := by
  obtain ⟨l, chain, mem⟩ := entries.slots.bucket_chain (bucket i) low
  obtain ⟨y, x, res, spec⟩ := chainSearch_spec exhausted found nil chain
    (Nat.lt_succ_of_le (Slots.length_le chain mem))
  refine ⟨y, x, l, res, chain, mem, spec, ?_⟩
  rcases spec.split with ⟨last, none⟩ | ⟨front, rest, split, inside, hit, -, -⟩
  · refine .inl ⟨last, ?_⟩
    by_contra nonzero
    obtain ⟨z, lowZ, placed, eq⟩ := entries.complete i nonzero
    have miss := none z ((mem z).2 ⟨lowZ, placed⟩)
    rw [(faithful z lowZ placed).2 eq] at miss
    cases miss
  · obtain ⟨lowX, placed⟩ := (mem x).1 (by rw [split]; simp)
    have eq : label x = i := (faithful x lowX placed).1 hit
    obtain ⟨-, stored, nonzero⟩ := entries.stored x _ lowX placed
    rw [eq] at stored
    exact .inr ⟨inside, lowX, placed, eq, stored, stored ▸ nonzero⟩

theorem init (nil nHash : ℕ) (low : nMax ≤ nil) (pos : 0 < nMax) (label : ℕ → I) (value : ℕ → K)
    (bucket : I → ℕ) (default : K) :
    Entries (fun _ => nil) (fun v => if v + 1 = nMax then nil else v + 1) nil 0 nHash nMax label
      value bucket default (fun _ => default) fun _ => none where
  slots := Slots.init nil nHash low pos
  stored _ _ _ placed := by cases placed
  unique _ _ _ _ placed := absurd rfl placed
  complete _ nonzero := absurd rfl nonzero

variable [DecidableEq I]

section

variable (entries : Entries first next nil free nHash nMax label value bucket default m place)
include entries

theorem release {found : ℕ → Bool} {l : List ℕ} {y : ℕ} (low : bucket i < nHash)
    (chain : Chain next nil (first (bucket i)) l)
    (mem : ∀ x, x ∈ l ↔ x < nMax ∧ place x = some (bucket i))
    (spec : SearchSpec nil found nil l y x) (inside : x ≠ nil) (lowX : x < nMax)
    (placed : place x = some (bucket i)) (eq : label x = i) :
    Entries (if y = nil then update first (bucket i) (next x) else first)
      (update (if y = nil then next else update next y (next x)) x free) nil x
      nHash nMax label value bucket default (update m i default) (update place x none) := by
  have used : ∀ z, update place x none z ≠ none → z ≠ x ∧ place z ≠ none := by
    intro z present
    by_cases here : z = x
    · simp [here] at present
    · rw [update_of_ne here] at present
      exact ⟨here, present⟩
  constructor
  case slots => exact entries.slots.release low chain mem spec inside
  case stored =>
    intro z b lowZ present
    obtain ⟨ne, presentZ⟩ := used z (by simp [present])
    rw [update_of_ne ne] at present
    obtain ⟨hash, stored, nonzero⟩ := entries.stored z b lowZ present
    have other : label z ≠ i := fun sameZ =>
      ne (entries.unique z x lowZ lowX presentZ (by simp [placed]) (sameZ.trans eq.symm))
    exact ⟨hash, (update_of_ne other _ _).trans stored, nonzero⟩
  case unique =>
    intro z z' lowZ lowZ' present present' equal
    exact entries.unique z z' lowZ lowZ' (used z present).2 (used z' present').2 equal
  case complete =>
    intro j nonzero
    have ne : j ≠ i := fun equal => by simp [equal] at nonzero
    rw [update_of_ne ne] at nonzero
    obtain ⟨z, lowZ, present, labelZ⟩ := entries.complete j nonzero
    have neX : z ≠ x := fun equal => ne (by rw [← labelZ, equal, eq])
    exact ⟨z, lowZ, by rw [update_of_ne neX]; exact present, labelZ⟩

theorem replace (lowX : x < nMax) (placed : place x = some (bucket i)) (eq : label x = i)
    (nonzero : alpha ≠ default) :
    Entries first next nil free nHash nMax label (update value x alpha) bucket default
      (update m i alpha) place := by
  refine { entries with
    stored := fun z b lowZ present => ?_
    complete := fun j nonzeroJ => ?_ }
  · obtain ⟨hash, stored, nonzeroZ⟩ := entries.stored z b lowZ present
    by_cases here : z = x
    · rw [here] at hash ⊢
      exact ⟨hash, by simp [eq], by simpa using nonzero⟩
    · have ne : label z ≠ i := fun sameZ =>
        here (entries.unique z x lowZ lowX (by simp [present]) (by simp [placed])
          (sameZ.trans eq.symm))
      exact ⟨hash, by simp [ne, here, stored], by simpa [here] using nonzeroZ⟩
  · by_cases here : j = i
    · exact ⟨x, lowX, here ▸ placed, eq.trans here.symm⟩
    · rw [update_of_ne here] at nonzeroJ
      exact entries.complete j nonzeroJ

theorem take
    (label' : ℕ → I) (low : bucket i < nHash) (absent : m i = default) (nonzero : alpha ≠ default)
    (room : free ≠ nil) (entered : label' free = i)
    (kept : ∀ z, z ≠ free → z < nMax → place z ≠ none → label' z = label z) :
    free < nMax ∧ place free = none ∧ Entries (update first (bucket i) free)
        (update next free (first (bucket i))) nil (next free) nHash nMax label'
        (update value free alpha) bucket default (update m i alpha)
        (update place free (some (bucket i))) := by
  obtain ⟨lowFree, unused, slots⟩ := entries.slots.take room low
  have other : ∀ z, z < nMax → place z ≠ none → label z ≠ i := by
    intro z lowZ present eq
    obtain ⟨b, placed⟩ := Option.ne_none_iff_exists'.1 present
    obtain ⟨-, stored, nonzeroZ⟩ := entries.stored z b lowZ placed
    rw [eq, absent] at stored
    exact nonzeroZ stored.symm
  refine ⟨lowFree, unused, slots, ?_, ?_, ?_⟩
  · intro z b lowZ present
    by_cases here : z = free
    · rw [here, update_self, Option.some.injEq] at present
      rw [here, entered]
      exact ⟨present, by simp, by simpa using nonzero⟩
    · rw [update_of_ne here] at present
      obtain ⟨hash, stored, nonzeroZ⟩ := entries.stored z b lowZ present
      have presentZ : place z ≠ none := by simp [present]
      rw [kept z here lowZ presentZ]
      exact ⟨hash, by simp [other z lowZ presentZ, here, stored], by simpa [here] using nonzeroZ⟩
  · intro z z' lowZ lowZ' present present' eq
    by_cases here : z = free
    · by_cases here' : z' = free
      · rw [here, here']
      · rw [update_of_ne here'] at present'
        rw [here, entered, kept z' here' lowZ' present'] at eq
        exact absurd eq.symm (other z' lowZ' present')
    · rw [update_of_ne here] at present
      by_cases here' : z' = free
      · rw [here', entered, kept z here lowZ present] at eq
        exact absurd eq (other z lowZ present)
      · rw [update_of_ne here'] at present'
        rw [kept z here lowZ present, kept z' here' lowZ' present'] at eq
        exact entries.unique z z' lowZ lowZ' present present' eq
  · intro j nonzeroJ
    by_cases here : j = i
    · exact ⟨free, lowFree, by rw [update_self, here], entered.trans here.symm⟩
    rw [update_of_ne here] at nonzeroJ
    obtain ⟨z, lowZ, present, labelZ⟩ := entries.complete j nonzeroJ
    have ne : z ≠ free := fun eq => by
      rw [eq, unused] at present
      cases present
    exact ⟨z, lowZ, by rw [update_of_ne ne]; exact present,
      (kept z ne lowZ (by simp [present])).trans labelZ⟩

end

end Entries

end Goblin.Library
