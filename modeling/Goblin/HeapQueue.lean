import Goblin.BinaryHeap
import Goblin.Library.PriorityQueue

/-!
# The heap as a queue

The searches are verified for every `MinQueue`. A `binaryHeap` is one, since they do not delete
items by name (`BinaryHeap.minQueue_runs`).
-/

set_option autoImplicit false

namespace Goblin

open Library Function

namespace BinaryHeap

variable {n : ℕ} {K : Type} [LinearOrder K] {h : BinaryHeap K} {keys : ℕ → Option K}

/-- The keys of the queued items. -/
def items (h : BinaryHeap K) (w : ℕ) : Option K := (h.index w).map fun _ => h.key w

variable (n K) in
/-- The heaps for `n` items that are in order. -/
def Sound : Type := { h : BinaryHeap K // h.n = n ∧ h.IsQueue h.items }

theorem IsQueue.items_eq (queue : h.IsQueue keys) : h.items = keys :=
  (funext queue.holds.keyed).symm

theorem IsQueue.sound (queue : h.IsQueue keys) : h.IsQueue h.items := queue.items_eq.symm ▸ queue

namespace Sound

/-- The heap that a call returns. -/
def after (q : Sound n K) (keys : ℕ → Option K) : (call : Except Raise (BinaryHeap K)) →
    (∃ h, call = .ok h ∧ h.n = q.1.n ∧ h.IsQueue keys) → Sound n K
  | .ok h, spec => ⟨h, by
      obtain ⟨_, ⟨⟩, size, queue⟩ := spec
      exact ⟨size.trans q.2.1, queue.sound⟩⟩
  | .error _, spec => False.elim (by
      obtain ⟨_, ⟨⟩, -⟩ := spec)

variable {q : Sound n K}

theorem after_spec {call : Except Raise (BinaryHeap K)}
    (spec : ∃ h, call = .ok h ∧ h.n = q.1.n ∧ h.IsQueue keys) :
    call = .ok (q.after keys call spec).1 ∧ (q.after keys call spec).1.items = keys := by
  obtain ⟨h, rfl, -, queue⟩ := spec
  exact ⟨rfl, queue.items_eq⟩

theorem first (ne : q.1.maxIndex ≠ 0) : q.1.v 1 < n ∧ ∃ w, q.1.items w ≠ none := by
  have index := q.2.2.holds.indexed 1 le_rfl (by omega)
  have present : q.1.items (q.1.v 1) ≠ none := by simp [items, index]
  obtain ⟨-, -, -, -, -, low⟩ := q.2.2.holds.queued present
  exact ⟨low.trans_eq q.2.1, _, present⟩

theorem delete_fst (ne : q.1.maxIndex ≠ 0) : ∃ h, q.1.delete.map Prod.fst = .ok h ∧
    h.n = q.1.n ∧ h.IsQueue (update q.1.items (q.1.v 1) none) := by
  obtain ⟨h, res, size, -, queue⟩ := delete_spec q.2.2 (first ne).2
  exact ⟨h, by rw [res]; rfl, size, queue⟩

end Sound

/-- The `binaryHeap` for `n` items as the queue of a search. -/
def minQueue (n : ℕ) (v : ℕ → ℕ) (key : ℕ → K) : MinQueue.{0, 0, 0} (Fin n) K where
  Carrier := Sound n K
  keys := fun q v => q.1.items v
  empty := ⟨new n v key, rfl, (new_isQueue n v key).sound⟩
  insert := fun q v k =>
    if absent : q.1.items v = none then q.after _ (q.1.insert v k)
      (insert_spec q.2.2 k (v.isLt.trans_eq q.2.1.symm) absent)
    else q
  changeKey := fun q v k =>
    if present : q.1.items v ≠ none then q.after _ (q.1.changeKey v k)
      (changeKey_spec q.2.2 k present)
    else q
  delete := fun q =>
    if ne : q.1.maxIndex ≠ 0 then
      some (⟨q.1.v 1, (Sound.first ne).1⟩,
        q.after _ (q.1.delete.map Prod.fst) (Sound.delete_fst ne))
    else none
  keys_empty := fun _ => rfl
  keys_insert := fun q v k absent => by
    rw [dif_pos absent, (Sound.after_spec _).2]
    exact update_comp_eq_of_injective' _ Fin.val_injective v _
  keys_changeKey := fun q v k present => by
    rw [dif_pos present, (Sound.after_spec _).2]
    exact update_comp_eq_of_injective' _ Fin.val_injective v _
  delete_none := fun q none v => by
    by_contra present
    rw [dif_pos (q.2.2.holds.maxIndex_pos ⟨_, present⟩).ne'] at none
    cases none
  delete_some := fun q v q' found => by
    split_ifs at found with ne
    cases found
    obtain ⟨k, value, least⟩ := q.2.2.root_minimum (Sound.first ne).2
    refine ⟨k, value, fun w k' => least w k', ?_⟩
    rw [(Sound.after_spec _).2]
    exact update_comp_eq_of_injective' _ Fin.val_injective (⟨_, (Sound.first ne).1⟩ : Fin n) _

/-- **The queue is the heap.** The operations of the queue are calls that do not raise. -/
theorem minQueue_runs (v : ℕ → ℕ) (key : ℕ → K) (q : Sound n K) (w : Fin n) (k : K) :
    let Q := minQueue n v key
    (Q.keys q w = none → q.1.insert w k = .ok (Q.insert q w k).1) ∧
      (Q.keys q w ≠ none → q.1.changeKey w k = .ok (Q.changeKey q w k).1) ∧
      (∀ q', Q.delete q = some (w, q') → q.1.delete = .ok (q'.1, w.val)) ∧
      (Q.delete q = none ↔ q.1.maxIndex = 0) := by
  refine ⟨fun absent => ?_, fun present => ?_, fun q' found => ?_, by simp [minQueue]⟩
  · rw [show (minQueue n v key).insert q w k = _ from dif_pos absent]
    exact (Sound.after_spec _).1
  · rw [show (minQueue n v key).changeKey q w k = _ from dif_pos present]
    exact (Sound.after_spec _).1
  · obtain ⟨ne, found⟩ := Option.dite_none_right_eq_some.1 found
    cases found
    obtain ⟨h, res, -⟩ := delete_spec q.2.2 (Sound.first ne).2
    have heap : q.1.delete.map Prod.fst = .ok h := by
      rw [res]
      rfl
    have same := heap.symm.trans (Sound.after_spec (Sound.delete_fst ne)).1
    exact res.trans (congrArg (fun h => Except.ok (h, q.1.v 1)) (Except.ok.inj same))

end BinaryHeap

end Goblin
