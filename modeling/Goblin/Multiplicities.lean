import Goblin.SparseGraph
import Mathlib.Data.List.GetD

/-!
# Multiplicities and capacities

The methods that assign multiplicities and capacities call each other: `SetUCap` and `SetLCap`
adapt the multiplicity by `SetSub`, which allocates the array `sub` by `NewSubgraph`, and both
patch the degree labels by `AdjustDegrees`. This module says for each of them when it returns, and
in which state. `Adjustable` is the condition for `AdjustDegrees`: it may not write to a label of
an arc that has been cancelled.
-/

set_option autoImplicit false

namespace Goblin.SparseGraph

open Library List Option
open Attribute (getValue increaseSize setValue size)
open SparseState (rev)

variable {st st' : SparseGraph} {a b : ℕ} {lambda : ℚ} {x : ℚ} {changes : Prop}

/-! ## Adjusting the degrees -/

section

variable (st : SparseGraph) (a : ℕ)

/-- `AdjustDegrees` needs the end nodes. -/
def NeedsNodes : Prop :=
  (st.sDeg ≠ none ∧ st.Undirected a) ∨ st.sDegInOut ≠ none

/-- `AdjustDegrees` finds the end nodes, or it does not need them. -/
def Adjustable : Prop :=
  (st.rep.startNode a ≠ none ∧ st.rep.startNode (rev a) ≠ none) ∨ ¬ st.NeedsNodes a

/-- The state after `AdjustDegrees`. -/
def adjusted (u v : ℕ) (lambda : ℚ) : SparseGraph :=
  if st.sDeg ≠ none ∧ st.Undirected a then
    { st with sDeg := st.sDeg.map fun d => addAt (addAt d u lambda) v lambda }
  else { st with sDegInOut := st.sDegInOut.map (st.adjustInOut a u v lambda) }

end

theorem adjustDegrees_live {u v : ℕ} (low : a < 2 * st.m) (startA : st.rep.startNode a = some u)
    (startRev : st.rep.startNode (rev a) = some v) :
    adjustDegrees a lambda st = .ok () (st.adjusted a u v lambda) := by
  rw [adjustDegrees, run_bind_get, if_neg (not_le.2 low), adjusted, startA, startRev]
  by_cases first : st.sDeg ≠ none ∧ st.Undirected a
  · rw [if_pos first, if_pos first]
    rfl
  rw [if_neg first, if_neg first]
  split_ifs with second
  · rfl
  · have none : st.sDegInOut = none := not_not.1 second
    simp only [none, map_none]
    rw [← none]
    rfl

/-- The degree labels are the same, or other ones. -/
structure Relabelled (st st' : SparseGraph) : Prop where
  same : st' = { st with sDeg := st'.sDeg, sDegInOut := st'.sDegInOut }
  sDeg : st'.sDeg = none ↔ st.sDeg = none
  sDegInOut : st'.sDegInOut = none ↔ st.sDegInOut = none

theorem Relabelled.refl (st : SparseGraph) : Relabelled st st := ⟨rfl, Iff.rfl, Iff.rfl⟩

theorem Relabelled.trans {st1 : SparseGraph} (first : Relabelled st st1)
    (second : Relabelled st1 st') : Relabelled st st' := by
  refine ⟨?_, second.sDeg.trans first.sDeg, second.sDegInOut.trans first.sDegInOut⟩
  rw [second.same, first.same]

theorem Relabelled.needsNodes (relabelled : Relabelled st st') :
    st'.NeedsNodes a ↔ st.NeedsNodes a := by
  have undirected : st'.Undirected a ↔ st.Undirected a := by
    rw [relabelled.same]
    rfl
  rw [NeedsNodes, NeedsNodes, ne_eq, ne_eq, relabelled.sDeg, relabelled.sDegInOut, undirected]

theorem Relabelled.adjustable (relabelled : Relabelled st st') :
    st'.Adjustable a ↔ st.Adjustable a := by
  have rep : st'.rep = st.rep := by rw [relabelled.same]
  rw [Adjustable, Adjustable, relabelled.needsNodes, rep]

theorem adjusted_relabelled (st : SparseGraph) (a u v : ℕ) (lambda : ℚ) :
    Relabelled st (st.adjusted a u v lambda) := by
  rw [adjusted]
  split_ifs
  · exact ⟨rfl, by simp, Iff.rfl⟩
  · exact ⟨rfl, Iff.rfl, by simp⟩

theorem adjustDegrees_ok (lambda : ℚ) (low : a < 2 * st.m) (adjustable : st.Adjustable a) :
    ∃ st', adjustDegrees a lambda st = .ok () st' ∧ Relabelled st st' := by
  by_cases live : st.rep.startNode a ≠ none ∧ st.rep.startNode (rev a) ≠ none
  · obtain ⟨u, startA⟩ := ne_none_iff_exists'.1 live.1
    obtain ⟨v, startRev⟩ := ne_none_iff_exists'.1 live.2
    exact ⟨_, adjustDegrees_live low startA startRev, adjusted_relabelled st a u v lambda⟩
  · have idle := adjustable.resolve_left live
    obtain ⟨first, second⟩ := not_or.1 idle
    refine ⟨st, ?_, .refl st⟩
    rw [adjustDegrees, run_bind_get, if_neg (not_le.2 low), if_neg first, if_neg second]
    rfl

/-- `AdjustDegrees` does not return for an arc that has been cancelled. -/
theorem adjustDegrees_error (lambda : ℚ) (stuck : ¬ st.Adjustable a) :
    ∃ e st', adjustDegrees a lambda st = .error e st' := by
  obtain ⟨dead, needs⟩ := not_or.1 stuck
  by_cases low : a < 2 * st.m
  · have missing : ∀ f : ℕ → ℕ → GraphM Unit, (do
        let u ← labelNode (st.rep.startNode a)
        let v ← labelNode (st.rep.startNode (rev a))
        f u v) st = .error .fault st := by
      intro f
      cases startA : st.rep.startNode a with
      | none => rfl
      | some u =>
        cases startRev : st.rep.startNode (rev a) with
        | none => rfl
        | some v => exact absurd ⟨by simp [startA], by simp [startRev]⟩ dead
    refine ⟨.fault, st, ?_⟩
    rw [adjustDegrees, run_bind_get, if_neg (not_le.2 low)]
    by_cases first : st.sDeg ≠ none ∧ st.Undirected a
    · rw [if_pos first]
      exact missing _
    · rw [if_neg first, if_pos ((not_not.1 needs).resolve_left first)]
      exact missing _
  · rw [adjustDegrees, run_bind_get, if_pos (not_lt.1 low)]
    exact ⟨_, _, rfl⟩

theorem adjustDegrees_relabelled (res : adjustDegrees a lambda st = .ok () st') :
    Relabelled st st' := by
  by_cases adjustable : st.Adjustable a
  · by_cases low : a < 2 * st.m
    · obtain ⟨st1, res1, relabelled⟩ := adjustDegrees_ok lambda low adjustable
      rw [res1] at res
      cases res
      exact relabelled
    · rw [adjustDegrees, run_bind_get, if_pos (not_lt.1 low)] at res
      cases res
  · obtain ⟨e, st1, failed⟩ := adjustDegrees_error lambda adjustable
    rw [failed] at res
    cases res

/-! ## Allocation of the multiplicities -/

theorem adjustAll_ok (amount : ℕ → ℚ) (l : List ℕ) : ∀ st : SparseGraph,
    (∀ b ∈ l, 2 * b < 2 * st.m) → (∀ b ∈ l, 0 < amount b → st.Adjustable (2 * b)) →
    ∃ st', (l.forM fun b => if 0 < amount b then adjustDegrees (2 * b) (amount b) else pure ()) st =
      .ok () st' ∧ Relabelled st st' := by
  induction l with
  | nil => exact fun st _ _ => ⟨st, rfl, .refl st⟩
  | cons b l ih =>
    intro st low adjustable
    obtain ⟨st1, res1, relabelled1⟩ : ∃ st1,
        (if 0 < amount b then adjustDegrees (2 * b) (amount b) else pure () : GraphM Unit) st =
          .ok () st1 ∧ Relabelled st st1 := by
      split_ifs with pos
      · exact adjustDegrees_ok _ (low b mem_cons_self) (adjustable b mem_cons_self pos)
      · exact ⟨st, rfl, .refl st⟩
    have m1 : st1.m = st.m := by rw [relabelled1.same]
    obtain ⟨st', res, relabelled⟩ := ih st1
      (fun c mem => m1 ▸ low c (mem_cons_of_mem b mem))
      fun c mem pos =>
        relabelled1.adjustable.2 (adjustable c (mem_cons_of_mem b mem) pos)
    refine ⟨st', ?_, relabelled1.trans relabelled⟩
    change (_ >>= _ : GraphM Unit) st = _
    rw [run_bind_ok res1]
    exact res

theorem adjustAll_error {amount : ℕ → ℚ} (l : List ℕ) : ∀ st : SparseGraph,
    (∃ b ∈ l, 0 < amount b ∧ ¬ st.Adjustable (2 * b)) →
    ∃ e st', (l.forM fun b => if 0 < amount b then adjustDegrees (2 * b) (amount b) else pure ())
      st = .error e st' := by
  induction l with
  | nil =>
    rintro st ⟨b, mem, -⟩
    cases mem
  | cons c l ih =>
    rintro st ⟨b, mem, pos, stuck⟩
    change ∃ e st', (_ >>= _ : GraphM Unit) st = .error e st'
    cases step : (if 0 < amount c then adjustDegrees (2 * c) (amount c) else pure () :
        GraphM Unit) st with
    | error e st1 => exact ⟨e, st1, run_bind_error step⟩
    | ok _ st1 =>
      rw [run_bind_ok step]
      by_cases here : b = c
      · subst here
        rw [if_pos pos] at step
        obtain ⟨e, st2, failed⟩ := adjustDegrees_error (amount b) stuck
        rw [failed] at step
        cases step
      have later : b ∈ l := (mem_cons.1 mem).resolve_left here
      refine ih st1 ⟨b, later, pos, fun adjustable => stuck ?_⟩
      have relabelled : Relabelled st st1 := by
        by_cases adjusts : 0 < amount c
        · rw [if_pos adjusts] at step
          exact adjustDegrees_relabelled step
        · rw [if_neg adjusts] at step
          cases step
          exact .refl st
      exact relabelled.adjustable.1 adjustable

section

variable (st : SparseGraph)

/-- `NewSubgraph` returns. -/
def Allocatable : Prop :=
  ∀ b, b < st.rep.mAct → 0 < st.lCap (2 * b) → st.Adjustable (2 * b)

/-- The multiplicities, or what they are going to be. -/
def subArray : ℕ → ℚ := st.sub.getD fun b => st.lCap (2 * b)

theorem lCap_even (a : ℕ) : st.lCap (2 * (a / 2)) = st.lCap a := by
  have half : 2 * (a / 2) / 2 = a / 2 := by omega
  rw [lCap, lCap, half]

theorem subArray_half (a : ℕ) : st.subArray (a / 2) = st.subOf a := by
  rw [subArray, subOf]
  cases st.sub with
  | none => exact lCap_even st a
  | some sub => rfl

end

/-- `NewSubgraph`, unless there are multiplicities -/
theorem allocSub_ok (count : st.rep.mAct ≤ st.m) (allocatable : st.sub = none → st.Allocatable) :
    ∃ st', allocSub st = .ok () st' ∧ Relabelled { st with sub := some st.subArray } st' := by
  rw [allocSub, run_bind_get]
  cases present : st.sub with
  | some sub =>
    have array : st.subArray = sub := by rw [subArray, present]; rfl
    refine ⟨st, rfl, ?_, Iff.rfl, Iff.rfl⟩
    rw [array, ← present]
  | none =>
    have array : st.subArray = fun b => st.lCap (2 * b) := by rw [subArray, present]; rfl
    obtain ⟨st', res, relabelled⟩ := adjustAll_ok (fun b => st.lCap (2 * b))
      (List.range st.rep.mAct) { st with sub := some fun b => st.lCap (2 * b) }
      (fun b mem => by
        have := mem_range.1 mem
        change 2 * b < 2 * st.m
        omega)
      fun b mem pos => allocatable present b (mem_range.1 mem) pos
    refine ⟨st', ?_, array ▸ relabelled⟩
    rw [if_pos rfl, newSubgraph, run_bind_get, if_pos present, run_bind_modify]
    exact res

theorem allocSub_error (absent : st.sub = none) (stuck : ¬ st.Allocatable) :
    ∃ e st', allocSub st = .error e st' := by
  have witness : ∃ b ∈ List.range st.rep.mAct, 0 < st.lCap (2 * b) ∧
      ¬ Adjustable { st with sub := some fun b => st.lCap (2 * b) } (2 * b) := by
    by_contra none
    refine stuck fun b low pos => ?_
    by_contra unable
    exact none ⟨b, mem_range.2 low, pos, unable⟩
  obtain ⟨e, st', res⟩ := adjustAll_error _ _ witness
  refine ⟨e, st', ?_⟩
  rw [allocSub, run_bind_get, if_pos absent, newSubgraph, run_bind_get, if_pos absent,
    run_bind_modify]
  exact res

/-! ## Assignment of multiplicities -/

/-- `SetSub` returns. -/
def Settable (st : SparseGraph) (a : ℕ) (multiplicity : ℚ) : Prop :=
  ¬ st.OutOfRange a multiplicity ∧ (st.sub = none → st.Allocatable) ∧ st.Adjustable a

theorem setSub_ok (low : a < 2 * st.rep.mAct) (count : st.rep.mAct ≤ st.m)
    (settable : st.Settable a x) :
    ∃ st1 st', allocSub st = .ok () st1 ∧ adjustDegrees a (x - st.subOf a) st1 = .ok () st' ∧
      Relabelled { st with sub := some st.subArray } st1 ∧ Relabelled st1 st' ∧
      setSub a x st = .ok () { st' with sub := some (Function.update st.subArray (a / 2) x) } := by
  obtain ⟨inRange, allocatable, adjustable⟩ := settable
  obtain ⟨st1, alloc, relabelled1⟩ := allocSub_ok count allocatable
  have m1 : st1.m = st.m := by rw [relabelled1.same]
  have sub1 : st1.sub = some st.subArray := by rw [relabelled1.same]
  have val1 : st1.subOf a = st.subOf a := by
    rw [← subArray_half st a, subOf, sub1]
  obtain ⟨st', adjust, relabelled⟩ := adjustDegrees_ok (x - st.subOf a)
    (by rw [m1]; omega) (relabelled1.adjustable.2 adjustable)
  have sub' : st'.sub = some st.subArray := by rw [relabelled.same, sub1]
  refine ⟨st1, st', alloc, adjust, relabelled1, relabelled, ?_⟩
  rw [setSub, run_bind_get, if_neg (not_le.2 low), if_neg inRange, run_bind_ok alloc, run_bind_get,
    val1, run_bind_ok adjust, run_modify, sub']
  rfl

theorem setSub_error (count : st.rep.mAct ≤ st.m) (refused : ¬ st.Settable a x) :
    ∃ e st', setSub a x st = .error e st' := by
  rw [setSub, run_bind_get]
  by_cases low : 2 * st.rep.mAct ≤ a
  · rw [if_pos low]
    exact ⟨_, _, rfl⟩
  rw [if_neg low]
  by_cases out : st.OutOfRange a x
  · rw [if_pos out]
    exact ⟨_, _, rfl⟩
  rw [if_neg out]
  by_cases allocatable : st.sub = none → st.Allocatable
  · obtain ⟨st1, alloc, relabelled1⟩ := allocSub_ok count allocatable
    have stuck : ¬ st1.Adjustable a := fun adjustable =>
      refused ⟨out, allocatable, relabelled1.adjustable.1 adjustable⟩
    rw [run_bind_ok alloc, run_bind_get]
    obtain ⟨e, st2, failed⟩ := adjustDegrees_error (x - st1.subOf a) stuck
    exact ⟨e, st2, run_bind_error failed⟩
  · obtain ⟨absent, stuck⟩ := Classical.not_imp.1 allocatable
    obtain ⟨e, st1, failed⟩ := allocSub_error absent stuck
    exact ⟨e, st1, run_bind_error failed⟩

theorem setSub_relabelled (low : a < 2 * st.rep.mAct) (count : st.rep.mAct ≤ st.m)
    (settable : st.Settable a x) :
    ∃ st', setSub a x st = .ok () st' ∧
      Relabelled { st with sub := some (Function.update st.subArray (a / 2) x) } st' := by
  obtain ⟨st1, st2, -, -, relabelled1, relabelled2, res⟩ := setSub_ok low count settable
  have relabelled := relabelled1.trans relabelled2
  refine ⟨_, res, ?_, relabelled.sDeg, relabelled.sDegInOut⟩
  rw [relabelled.same]

/-! ## Attributes -/

theorem getValue_appendItems {α : Type} (A : Attribute α) (k i : ℕ) :
    (A.appendItems k).getValue i = A.getValue i := by
  rw [Attribute.appendItems]
  split_ifs
  · rfl
  simp only [getValue]
  by_cases low : i < A.data.length
  · rw [getD_append _ _ _ _ low]
  · rw [getD_append_right _ _ _ _ (not_lt.1 low), getD_eq_default _ _ (not_lt.1 low)]
    by_cases inside : i - A.data.length < k
    · rw [getD_eq_getElem _ _ (by simpa using inside), getElem_replicate]
    · rw [getD_eq_default _ _ (by simpa using inside)]

/-- The attribute has an entry for every edge, or none at all. -/
def Ranked {α : Type} (A : Option (Attribute α)) (count : ℕ) : Prop :=
  ∀ B, A = some B → B.size = 0 ∨ B.size = count

theorem Ranked.append {α : Type} {A : Option (Attribute α)} {count : ℕ} (ranked : Ranked A count)
    (k : ℕ) : Ranked (A.map fun B => B.appendItems k) (count + k) := by
  intro B val
  obtain ⟨B0, rfl, rfl⟩ := map_eq_some_iff.1 val
  rw [Attribute.appendItems]
  split_ifs with empty
  · left
    simpa [size, List.isEmpty_iff] using empty
  · right
    have full := (ranked B0 rfl).resolve_left fun zero => empty (by
      simpa [size, List.isEmpty_iff] using zero)
    simp only [size, length_append, length_replicate] at full ⊢
    omega

section Assign

variable {α : Type} {A : Option (Attribute α)} {default x : α} {mAct i : ℕ}

/-- A value of an attribute, for a missing attribute the default value. -/
def valueOf (A : Option (Attribute α)) (default : α) (i : ℕ) : α :=
  (A.map fun B => B.getValue i).getD default

theorem getValue_increaseSize (B : Attribute α) (empty : B.size = 0) (j : ℕ) :
    (B.increaseSize mAct).getValue j = B.getValue j := by
  have none : B.data = [] := eq_nil_of_length_eq_zero empty
  simp only [getValue, increaseSize, none, getD_nil]
  by_cases low : j < mAct
  · rw [getD_eq_getElem _ _ (by simpa using low), getElem_replicate]
  · rw [getD_eq_default _ _ (by simpa using low)]

theorem getValue_setValue (B : Attribute α) (low : i < B.size) (j : ℕ) :
    (B.setValue i x).getValue j = if j = i then x else B.getValue j := by
  simp only [getValue, setValue, size] at low ⊢
  by_cases here : j = i
  · subst here
    rw [if_pos rfl, getD_eq_getElem _ _ (by simpa using low), getElem_set_self]
  · rw [if_neg here, getD_eq_getElem?_getD, getElem?_set_ne (Ne.symm here), ← getD_eq_getElem?_getD]

variable [DecidableEq α]

/-- `SetUCap`, `SetLCap` and `SetLength` change the value of one edge. -/
theorem valueOf_assign (default x : α) (ranked : Ranked A mAct) (low : i < mAct) (j : ℕ) :
    valueOf (assign A default mAct i x) default j = if j = i then x else valueOf A default j := by
  have set : ∀ B : Attribute α, B.size = 0 →
      ((B.increaseSize mAct).setValue i x).getValue j = if j = i then x else B.getValue j := by
    intro B empty
    rw [getValue_setValue _ (by simpa [increaseSize, size] using low),
      getValue_increaseSize B empty]
  cases A with
  | none =>
    simp only [assign]
    split_ifs with trivial here
    · exact trivial.symm
    · rfl
    · exact (set ⟨[], default⟩ rfl).trans (if_pos ‹_›)
    · exact (set ⟨[], default⟩ rfl).trans (if_neg ‹_›)
  | some B =>
    simp only [assign]
    by_cases empty : B.size = 0
    · rw [if_pos empty]
      have default : ∀ j, B.getValue j = B.defaultValue := fun j => by
        rw [getValue, eq_nil_of_length_eq_zero empty, getD_nil]
      by_cases trivial : x = B.defaultValue
      · rw [if_pos trivial]
        simp only [valueOf, map_some, getD_some, default, trivial, ite_self]
      · rw [if_neg trivial]
        exact set B empty
    · rw [if_neg empty]
      have full := (ranked B rfl).resolve_left empty
      exact getValue_setValue B (full ▸ low) j

theorem Ranked.assign (ranked : Ranked A mAct) : Ranked (assign A default mAct i x) mAct := by
  have sized : ∀ B : Attribute α, ((B.increaseSize mAct).setValue i x).size = mAct := by
    intro B
    simp [increaseSize, setValue, size]
  intro B val
  cases A with
  | none =>
    simp only [Goblin.assign] at val
    split_ifs at val
    cases val
    exact .inr (sized _)
  | some B0 =>
    simp only [Goblin.assign] at val
    split_ifs at val with empty trivial
    · cases val
      exact .inl empty
    · cases val
      exact .inr (sized _)
    · cases val
      refine .inr ?_
      have full := (ranked B0 rfl).resolve_left empty
      simpa [setValue, size] using full

end Assign

/-! ## Assignment of capacities -/

/-- The multiplicity of an arc is adapted to a new capacity, or it need not be. -/
def Adapts (st st' : SparseGraph) (a : ℕ) (changes : Prop) (x : ℚ) : Prop :=
  (¬ changes ∧ st' = st) ∨
    (changes ∧ Relabelled { st with sub := some (Function.update st.subArray (a / 2) x) } st')

theorem Adapts.same (adapts : Adapts st st' a changes x) :
    st' = { st with sub := st'.sub, sDeg := st'.sDeg, sDegInOut := st'.sDegInOut } := by
  rcases adapts with ⟨-, rfl⟩ | ⟨-, relabelled⟩
  · rfl
  · rw [relabelled.same]

theorem adapt_ok [Decidable changes] (low : a < 2 * st.rep.mAct) (count : st.rep.mAct ≤ st.m)
    (settable : changes → st.Settable a x) :
    ∃ st', (if changes then setSub a x else pure () : GraphM Unit) st = .ok () st' ∧
      Adapts st st' a changes x := by
  by_cases needed : changes
  · obtain ⟨st', res, relabelled⟩ := setSub_relabelled low count (settable needed)
    exact ⟨st', by rw [if_pos needed, res], .inr ⟨needed, relabelled⟩⟩
  · exact ⟨st, by rw [if_neg needed]; rfl, .inl ⟨needed, rfl⟩⟩

theorem setUCap_ok (low : a < 2 * st.rep.mAct) (count : st.rep.mAct ≤ st.m) (nonneg : 0 ≤ x)
    (settable : x < st.subOf a → st.Settable a x) :
    ∃ st', setUCap a x st = .ok () { st' with ucap := assign st.ucap 1 st.rep.mAct (a / 2) x } ∧
      Adapts st st' a (x < st.subOf a) x := by
  obtain ⟨st', res, adapts⟩ := adapt_ok low count settable
  refine ⟨st', ?_, adapts⟩
  have eq := adapts.same
  have ucap : st'.ucap = st.ucap := by rw [eq]
  have rep : st'.rep = st.rep := by rw [eq]
  rw [setUCap, run_bind_get, if_neg (not_le.2 low), if_neg (not_lt.2 nonneg), run_bind_ok res,
    run_modify, ucap, rep]

/-- The checks that `SetUCap` and `SetLCap` make, and their call of `SetSub`. -/
theorem adapt_error {c : Prop} [Decidable c] {y : ℚ} {e1 e2 : Raise} {rest : Unit → GraphM Unit}
    (count : st.rep.mAct ≤ st.m) (refused : x < 0 ∨ c ∧ ¬ st.Settable a y) :
    ∃ e st', (if 2 * st.rep.mAct ≤ a then throw e1 else if x < 0 then throw e2 else
      (if c then setSub a y else pure ()) >>= rest : GraphM Unit) st = .error e st' := by
  by_cases low : 2 * st.rep.mAct ≤ a
  · rw [if_pos low]
    exact ⟨_, _, rfl⟩
  rw [if_neg low]
  by_cases neg : x < 0
  · rw [if_pos neg]
    exact ⟨_, _, rfl⟩
  obtain ⟨needed, stuck⟩ := refused.resolve_left neg
  obtain ⟨e, st', failed⟩ := setSub_error count stuck
  rw [if_neg neg, if_pos needed]
  exact ⟨e, st', run_bind_error failed⟩

theorem setUCap_error (count : st.rep.mAct ≤ st.m)
    (refused : x < 0 ∨ x < st.subOf a ∧ ¬ st.Settable a x) :
    ∃ e st', setUCap a x st = .error e st' := by
  rw [setUCap, run_bind_get]
  exact adapt_error count refused

/-- The multiplicity that `SetLCap` assigns. -/
def raisedTo (st : SparseGraph) (a : ℕ) (lcap : ℚ) : ℚ := if 0 ≤ st.subOf a then lcap else -lcap

theorem setLCap_ok (low : a < 2 * st.rep.mAct) (count : st.rep.mAct ≤ st.m) (nonneg : 0 ≤ x)
    (settable : |st.subOf a| < x → st.Settable a (st.raisedTo a x)) :
    ∃ st', setLCap a x st = .ok () { st' with lcap := assign st.lcap 0 st.rep.mAct (a / 2) x } ∧
      Adapts st st' a (|st.subOf a| < x) (st.raisedTo a x) := by
  obtain ⟨st', res, adapts⟩ := adapt_ok low count settable
  refine ⟨st', ?_, adapts⟩
  have eq := adapts.same
  have lcap : st'.lcap = st.lcap := by rw [eq]
  have rep : st'.rep = st.rep := by rw [eq]
  rw [raisedTo] at res
  rw [setLCap, run_bind_get, if_neg (not_le.2 low), if_neg (not_lt.2 nonneg), run_bind_ok res,
    run_modify, lcap, rep]

theorem setLCap_error (count : st.rep.mAct ≤ st.m)
    (refused : x < 0 ∨ |st.subOf a| < x ∧ ¬ st.Settable a (st.raisedTo a x)) :
    ∃ e st', setLCap a x st = .error e st' := by
  rw [setLCap, run_bind_get]
  exact adapt_error count refused

/-! ## Frames -/

theorem keeps_onIncidences {γ : Type} {f : SparseGraph → γ}
    {op : SparseState → Except Raise SparseState}
    (eq : ∀ (st : SparseGraph) (rep : SparseState), f { st with rep := rep } = f st) :
    Keeps f (onIncidences op) := by
  intro st
  simp only [KeepsAt, finalState, onIncidences]
  cases op st.rep with
  | ok rep => exact eq st rep
  | error e => rfl

theorem keeps_labelNode {γ : Type} {f : SparseGraph → γ} (v : Option ℕ) :
    Keeps f (labelNode v) := by
  cases v with
  | none => exact .throw _
  | some v => exact .pure _

/-- What only depends on other parts of the state than the degree labels. -/
theorem keeps_adjustDegrees {γ : Type} {f : SparseGraph → γ}
    (eq : ∀ (st : SparseGraph) (d : Option (ℕ → ℚ)) (e : Option ((ℕ → ℚ) × (ℕ → ℚ))),
      f { st with sDeg := d, sDegInOut := e } = f st) (a : ℕ) (lambda : ℚ) :
    Keeps f (adjustDegrees a lambda) := by
  refine Keeps.get.bind fun st => .ite (.throw _) (.ite ?_ (.ite ?_ (.pure _)))
  · exact (keeps_labelNode _).bind fun u => (keeps_labelNode _).bind fun v =>
      .modify fun st => eq st _ _
  · exact (keeps_labelNode _).bind fun u => (keeps_labelNode _).bind fun v =>
      .modify fun st => eq st _ _

theorem keeps_setSub {γ : Type} {f : SparseGraph → γ}
    (eq : ∀ (st : SparseGraph) (s : Option (ℕ → ℚ)) (d : Option (ℕ → ℚ))
      (e : Option ((ℕ → ℚ) × (ℕ → ℚ))), f { st with sub := s, sDeg := d, sDegInOut := e } = f st)
    (a : ℕ) (x : ℚ) : Keeps f (setSub a x) := by
  have adjust := keeps_adjustDegrees fun st d e => eq st st.sub d e
  have alloc : Keeps f allocSub := by
    refine Keeps.get.bind fun st => .ite ?_ (.pure _)
    refine Keeps.get.bind fun st => .ite ?_ (.throw _)
    refine (Keeps.modify fun st => eq st _ st.sDeg st.sDegInOut).bind fun _ => ?_
    exact .forM (fun b => .ite (adjust _ _) (.pure _)) _
  refine Keeps.get.bind fun st => .ite (.throw _) (.ite (.throw _) ?_)
  refine alloc.bind fun _ => Keeps.get.bind fun st => (adjust _ _).bind fun _ => ?_
  exact .modify fun st => eq st _ st.sDeg st.sDegInOut

end Goblin.SparseGraph
