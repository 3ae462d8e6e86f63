import Mathlib.Tactic

/-!
# Minimum priority queues

A priority queue with changeable keys is known to its users by the keys of its
items: an item is queued when it has a key. The structure `MinQueue` carries
the laws that relate the operations to the keys, so that a procedure can be
verified for every queue at once. The queue `MinQueue.table` keeps nothing but
the keys and looks for a minimum among all items.
-/

set_option autoImplicit false

namespace Goblin.Library

open Function (update)

universe u v w

/-- A queue of items from `V` with keys from `K`. The laws of `insert` and
`changeKey` are required of items that are absent or present, respectively. -/
structure MinQueue (V : Type u) (K : Type v) [DecidableEq V] [LinearOrder K] where
  Carrier : Type w
  keys : Carrier → V → Option K
  empty : Carrier
  insert : Carrier → V → K → Carrier
  changeKey : Carrier → V → K → Carrier
  delete : Carrier → Option (V × Carrier)
  keys_empty : ∀ v, keys empty v = none
  keys_insert : ∀ q v k, keys q v = none →
    keys (insert q v k) = update (keys q) v (some k)
  keys_changeKey : ∀ q v k, keys q v ≠ none →
    keys (changeKey q v k) = update (keys q) v (some k)
  delete_none : ∀ q, delete q = none → ∀ v, keys q v = none
  delete_some : ∀ q v q', delete q = some (v, q') →
    ∃ k, keys q v = some k ∧ (∀ w k', keys q w = some k' → k ≤ k') ∧
      keys q' = update (keys q) v none

namespace MinQueue

section Table

variable {n : ℕ} {K : Type v} [LinearOrder K]

/-- The items that have a key. -/
def queued (keys : Fin n → Option K) : List (Fin n) :=
  (List.finRange n).filter fun v => (keys v).isSome

/-- The order in which `table` compares items: absent items come last. -/
def keyOrder (keys : Fin n → Option K) (v : Fin n) : WithTop K :=
  match keys v with
  | none => ⊤
  | some k => (k : WithTop K)

omit [LinearOrder K] in
theorem mem_queued {keys : Fin n → Option K} {v : Fin n} :
    v ∈ queued keys ↔ ∃ k, keys v = some k := by
  simp [queued, Option.isSome_iff_exists]

/-- The queue that is nothing but a table of keys. -/
def table (n : ℕ) (K : Type v) [LinearOrder K] : MinQueue (Fin n) K where
  Carrier := Fin n → Option K
  keys := id
  empty := fun _ => none
  insert := fun q v k => update q v (some k)
  changeKey := fun q v k => update q v (some k)
  delete := fun q =>
    ((queued q).argmin (keyOrder q)).map fun v => (v, update q v none)
  keys_empty := fun _ => rfl
  keys_insert := fun _ _ _ _ => rfl
  keys_changeKey := fun _ _ _ _ => rfl
  delete_none := by
    intro q none v
    rw [Option.map_eq_none_iff, List.argmin_eq_none] at none
    by_contra present
    obtain ⟨k, key⟩ := Option.ne_none_iff_exists'.1 present
    have member : v ∈ queued q := mem_queued.2 ⟨k, key⟩
    simp [none] at member
  delete_some := by
    intro q v q' found
    obtain ⟨v', least, pair⟩ := Option.map_eq_some_iff.1 found
    cases pair
    obtain ⟨k, key⟩ := mem_queued.1 (List.argmin_mem least)
    refine ⟨k, key, fun w k' key' => ?_, rfl⟩
    have le := List.le_of_mem_argmin (mem_queued.2 ⟨k', key'⟩) least
    have keyV : q v = some k := key
    have keyW : q w = some k' := key'
    simpa [keyOrder, keyV, keyW] using le

end Table

end MinQueue

end Goblin.Library
