import Mathlib.Tactic

/-!
# Index sets

An `indexSet` answers membership and enumerates its members below `maxIndex`
by `First` and `Successor`. The enumerations that the classes define agree
with membership; this is what the fields of `IndexSet` say. The default
implementations search upwards (`IndexSet.ofMember`); `singletonIndex` answers directly.
-/

set_option autoImplicit false

namespace Goblin

/-- `indexSet` with `maxIndex = n`. -/
structure IndexSet (n : ℕ) where
  isMember : ℕ → Bool
  first : ℕ
  successor : ℕ → ℕ
  first_mem : first < n → isMember first = true
  first_le : ∀ i < n, isMember i = true → first ≤ i
  successor_mem : ∀ i < n, isMember i = true → successor i < n → isMember (successor i) = true
  lt_successor : ∀ i < n, isMember i = true → i < successor i
  successor_le : ∀ i < n, isMember i = true → ∀ j < n, i < j → isMember j = true →
    successor i ≤ j

namespace IndexSet

variable {n : ℕ}

/-- The loop of the default `First` and `Successor`: the next member from `i`
on, with `left` indices to go. -/
def search (isMember : ℕ → Bool) : ℕ → ℕ → ℕ
  | 0, i => i
  | left + 1, i => if isMember i then i else search isMember left (i + 1)

theorem search_spec (isMember : ℕ → Bool) (left i : ℕ) :
    i ≤ search isMember left i ∧ search isMember left i ≤ i + left ∧
      (search isMember left i < i + left → isMember (search isMember left i) = true) ∧
      ∀ j, i ≤ j → j < search isMember left i → isMember j = false := by
  induction left generalizing i with
  | zero =>
    refine ⟨le_refl i, le_refl i, fun less => ?_, fun j low high => ?_⟩
    · simp [search] at less
    · simp only [search] at high
      omega
  | succ left ih =>
    by_cases mem : isMember i = true
    · have found : search isMember (left + 1) i = i := by simp [search, mem]
      rw [found]
      exact ⟨le_refl i, by omega, fun _ => mem, fun j low high => by omega⟩
    have next : search isMember (left + 1) i = search isMember left (i + 1) := by
      simp [search, mem]
    obtain ⟨above, below, isFound, skipped⟩ := ih (i + 1)
    rw [next]
    refine ⟨by omega, by omega, fun less => isFound (by omega), fun j low high => ?_⟩
    by_cases here : j = i
    · rw [here]
      simpa using mem
    · exact skipped j (by omega) high

/-- An index set with the default enumeration. -/
def ofMember (n : ℕ) (isMember : ℕ → Bool) : IndexSet n where
  isMember := isMember
  first := search isMember n 0
  successor := fun i => search isMember (n - (i + 1)) (i + 1)
  first_mem := by
    intro less
    exact (search_spec isMember n 0).2.2.1 (by omega)
  first_le := by
    intro i less member
    by_contra high
    have skipped := (search_spec isMember n 0).2.2.2 i (Nat.zero_le i) (not_le.1 high)
    rw [member] at skipped
    cases skipped
  successor_mem := by
    intro i less _ found
    exact (search_spec isMember (n - (i + 1)) (i + 1)).2.2.1 (by omega)
  lt_successor := by
    intro i _ _
    exact (search_spec isMember (n - (i + 1)) (i + 1)).1
  successor_le := by
    intro i _ _ j less above member
    by_contra high
    have skipped := (search_spec isMember (n - (i + 1)) (i + 1)).2.2.2 j above (not_le.1 high)
    rw [member] at skipped
    cases skipped

def singletonIndex (n i : ℕ) : IndexSet n where
  isMember := fun j => decide (j = i)
  first := i
  successor := fun _ => n
  first_mem := by simp
  first_le := by
    intro j _ member
    simpa using (of_decide_eq_true member).ge
  successor_mem := by
    intro _ _ _ less
    omega
  lt_successor := by
    intro j less _
    exact less
  successor_le := by
    intro j _ here k _ above member
    have equal := of_decide_eq_true here
    have equal' := of_decide_eq_true member
    omega

end IndexSet

end Goblin
