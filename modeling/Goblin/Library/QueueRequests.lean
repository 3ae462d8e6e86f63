import Mathlib.Data.Finset.Card

/-!
# Requests to a priority queue

A priority queue for the items below a capacity `n` is used by five requests:
insert an item, delete an item, delete a minimum, change a key, and clear the
queue. What a user knows about the queue is the partial function of the keys that
it has been told, `Option`-valued on the items; an item is queued when it has a key.

`QueueReach` are the states that an implementation reaches, paired with the keys that
its user knows about.
-/

set_option autoImplicit false

namespace Goblin.Library

open Finset
universe u v w

variable {K : Type u}

/-- The requests to a priority queue with keys from `K`. -/
inductive QueueRequest (K : Type u) where
  | insert (w : ℕ) (alpha : K)
  | deleteItem (w : ℕ)
  | delete
  | changeKey (w : ℕ) (alpha : K)
  | init
deriving DecidableEq

/-- A queued item of minimum key. -/
def IsMinimum [LinearOrder K] (keys : ℕ → Option K) (w : ℕ) : Prop :=
  ∃ k, keys w = some k ∧ ∀ x l, keys x = some l → k ≤ l

namespace QueueRequest

/-- The requests that make sense for a queue with these keys. -/
def Legal (n : ℕ) (keys : ℕ → Option K) : QueueRequest K → Prop
  | insert w _ => w < n ∧ keys w = none
  | deleteItem w => keys w ≠ none
  | delete => ∃ w, keys w ≠ none
  | changeKey w _ => keys w ≠ none
  | init => True

/-- The keys after a request that has been answered by the item `answer`. -/
def keysAfter (keys : ℕ → Option K) (answer : Option ℕ) : QueueRequest K → ℕ → Option K
  | insert w alpha => Function.update keys w (some alpha)
  | deleteItem w => Function.update keys w none
  | delete => fun x => if answer = some x then none else keys x
  | changeKey w alpha => Function.update keys w (some alpha)
  | init => fun _ => none

theorem keysAfter_delete (keys : ℕ → Option K) (w : ℕ) :
    keysAfter keys (some w) delete = Function.update keys w none := by
  funext x
  simp [keysAfter, Function.update_apply, eq_comm]

end QueueRequest

/-- Positions with distinct items below the capacity, one of which is free, are fewer than
the capacity. -/
theorem positions_lt {s : Finset ℕ} {v : ℕ → ℕ} {n w : ℕ} (ne : Set.InjOn v s)
    (bounded : ∀ i ∈ s, v i < n) (free : ∀ i ∈ s, v i ≠ w) (low : w < n) : s.card < n := by
  have subset : s.image v ⊆ (Finset.range n).erase w := by
    intro x image
    obtain ⟨i, mem, rfl⟩ := mem_image.1 image
    exact mem_erase.2 ⟨free i mem, mem_range.2 (bounded i mem)⟩
  have count := card_le_card subset
  rw [card_image_of_injOn ne, card_erase_of_mem (mem_range.2 low), card_range] at count
  omega

section Reach

variable {σ : Type v} {ε : Type w}

/-- The states that are reached from `start` by legal requests which the
implementation admits, with the keys of the queued items. -/
inductive QueueReach (n : ℕ) (start : σ)
    (serve : QueueRequest K → σ → Except ε (σ × Option ℕ))
    (Admits : σ → QueueRequest K → Prop) : σ → (ℕ → Option K) → Prop
  | start : QueueReach n start serve Admits start fun _ => none
  | step {st st' : σ} {keys : ℕ → Option K} {answer : Option ℕ} (request : QueueRequest K)
      (reach : QueueReach n start serve Admits st keys) (legal : request.Legal n keys)
      (admitted : Admits st request) (result : serve request st = .ok (st', answer)) :
      QueueReach n start serve Admits st' (request.keysAfter keys answer)

variable {n : ℕ} {start : σ} {serve : QueueRequest K → σ → Except ε (σ × Option ℕ)}
  {Admits : σ → QueueRequest K → Prop}

/-- An invariant of the initial state that all admitted requests keep holds in every
reachable state. -/
theorem QueueReach.invariant (Inv : σ → (ℕ → Option K) → Prop) (initial : Inv start fun _ => none)
    (preserved : ∀ st keys, Inv st keys → ∀ req : QueueRequest K, req.Legal n keys →
      Admits st req → ∀ st' answer, serve req st = .ok (st', answer) →
        Inv st' (req.keysAfter keys answer))
    {st : σ} {keys : ℕ → Option K} (reach : QueueReach n start serve Admits st keys) :
    Inv st keys := by
  induction reach with
  | start => exact initial
  | step req reach legal admitted res ih =>
    exact preserved _ _ ih req legal admitted _ _ res

end Reach

end Goblin.Library
