import Goblin.Accessors

/-!
# Sparse graphs that are built from scratch

A constructor that derives one graph from another starts without arcs and inserts them one by one,
so that arc `2*i` is the forward direction of the arc that has been inserted as the `i`-th.
-/

set_option autoImplicit false

namespace Goblin

open Library Function

namespace SparseState

variable {st st' : SparseState} {n k maxArc u v : ℕ}

/-- A sparse graph with `n` nodes into which `k` arcs have been inserted. -/
structure Built (st : SparseState) (n k maxArc : ℕ) : Prop where
  sound : st.Sound
  nAct : st.nAct = n
  mAct : st.mAct = k
  mMax : st.mMax = k
  maxArc : st.maxArc = maxArc
  complete : ∀ a, a < 2 * st.mAct → st.startNode a ≠ none

theorem built_new (n maxNode maxArc : ℕ) : (new n maxNode maxArc).Built n 0 maxArc :=
  ⟨new_sound n maxNode maxArc, rfl, rfl, rfl, rfl, fun a low => absurd low (Nat.not_lt_zero a)⟩

theorem Built.insertArc (built : st.Built n k maxArc) (lowU : u < n) (lowV : v < n)
    (room : 2 * k + 2 ≤ maxArc) : ∃ st', st.insertArc u v = .ok st' ∧ st'.Built n (k + 1) maxArc ∧
      st'.startNode (2 * k) = some u ∧ st'.startNode (2 * k + 1) = some v ∧
      ∀ a, a < 2 * k → st'.startNode a = st.startNode a := by
  obtain ⟨st', res, sound, size, start⟩ := insertArc_spec built.sound
    (built.nAct ▸ lowU) (built.nAct ▸ lowV)
    (by rw [built.mMax, built.maxArc]; omega)
  rw [built.mAct] at start
  have sizeM : st'.mAct = k + 1 := by rw [size.mAct]; exact congrArg (· + 1) built.mAct
  refine ⟨st', res, ⟨sound, size.nAct.trans built.nAct, sizeM, ?_,
    size.maxArc.trans built.maxArc, ?_⟩, ?_, ?_, ?_⟩
  · rw [size.mMax]
    change (if st.mMax + 1 = st.mAct + 1 then st.mMax + 1 else st.mMax) = k + 1
    rw [built.mMax, built.mAct, if_pos rfl]
  · intro a low
    rw [sizeM] at low
    rw [start]
    by_cases second : a = 2 * k + 1
    · rw [second, update_self]
      exact Option.some_ne_none v
    rw [update_of_ne second]
    by_cases first : a = 2 * k
    · rw [first, update_self]
      exact Option.some_ne_none u
    · rw [update_of_ne first]
      exact built.complete a (by rw [built.mAct]; omega)
  · rw [start, update_of_ne (by omega), update_self]
  · rw [start, update_self]
  · intro a low
    rw [start, update_of_ne (by omega), update_of_ne (by omega)]

theorem Built.insertArcs (built : st.Built n k maxArc) (ends : List (ℕ × ℕ))
    (low : ∀ p ∈ ends, p.1 < n ∧ p.2 < n) (room : 2 * (k + ends.length) ≤ maxArc) :
    ∃ st', ends.foldlM (fun st p => st.insertArc p.1 p.2) st = .ok st' ∧
      st'.Built n (k + ends.length) maxArc ∧ (∀ a, a < 2 * k → st'.startNode a = st.startNode a) ∧
      ∀ i p, ends[i]? = some p → st'.startNode (2 * (k + i)) = some p.1 ∧
        st'.startNode (2 * (k + i) + 1) = some p.2 := by
  induction ends generalizing st k with
  | nil => exact ⟨st, rfl, built, fun _ _ => rfl, fun i p at_ => by simp at at_⟩
  | cons q ends ih =>
    rw [List.length_cons] at room
    obtain ⟨lowU, lowV⟩ := low q List.mem_cons_self
    obtain ⟨st1, first, built1, startU, startV, eq1⟩ :=
      built.insertArc lowU lowV (by omega)
    obtain ⟨st', rest, built', eq, starts⟩ :=
      ih built1 (fun p mem => low p (List.mem_cons_of_mem q mem)) (by omega)
    refine ⟨st', ?_, ?_, fun a lowA => (eq a (by omega)).trans (eq1 a lowA), ?_⟩
    · rw [List.foldlM_cons, first]
      exact rest
    · rw [List.length_cons, ← Nat.add_assoc, Nat.add_right_comm]
      exact built'
    · intro i p at_
      cases i with
      | zero =>
        obtain rfl : q = p := Option.some_inj.mp at_
        rw [eq _ (by omega), eq _ (by omega)]
        exact ⟨startU, startV⟩
      | succ i =>
        rw [show k + (i + 1) = k + 1 + i by omega]
        exact starts i p at_

end SparseState

end Goblin
