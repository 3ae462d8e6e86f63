import Goblin.GraphFrames

/-!
# Degree labels

The labels `sDeg`, `sDegIn` and `sDegOut` are computed from the multiplicities by the first call
which asks for a degree. Afterwards `AdjustDegrees` patches them whenever a multiplicity changes.

Not every change is reported correctly. Without multiplicities the lower capacities stand for them,
so when `NewSubgraph` reports the lower capacities, they are counted twice, and when an arc is
inserted, when a lower capacity is assigned or when the multiplicities are released, the labels are
stale. `CancelArc` reports a multiplicity by the wrong index and with the wrong sign, and
`AdjustDegrees` reports undirected edges to the labels of directed arcs if the others are missing.
-/

set_option autoImplicit false

namespace Goblin.SparseGraph

open Library Finset Option Function SparseState
open SparseState (rev)
open scoped BigOperators

variable {st st' : SparseGraph} {a b u v w : ℕ} {x lambda : ℚ} {amount : ℕ → ℚ} {s : SparseGraph}
  {rep : SparseState} {amount' : ℕ → ℚ} {d : (ℕ → ℚ) × (ℕ → ℚ)} {length : ℚ}

/-! ## Sums over the arcs of a node -/

/-- The sum of the amounts of the arcs that leave a node, for a selection of arcs. -/
def total (rep : SparseState) (select : ℕ → Bool) (amount : ℕ → ℚ) (v : ℕ) : ℚ :=
  ∑ a ∈ Finset.range (2 * rep.mAct),
    if rep.startNode a = some v ∧ select a = true then amount (a / 2) else 0

section Total

variable {rep rep' : SparseState} {select : ℕ → Bool}

theorem total_congr (same : ∀ b, b < 2 * rep.mAct → rep.startNode b = some v → select b = true →
      amount' (b / 2) = amount (b / 2)) :
    total rep select amount' v = total rep select amount v := by
  refine Finset.sum_congr rfl fun b mem => ?_
  by_cases counts : rep.startNode b = some v ∧ select b = true
  · rw [if_pos counts, if_pos counts, same b (mem_range.1 mem) counts.1 counts.2]
  · rw [if_neg counts, if_neg counts]

theorem half_eq_iff : b / 2 = a / 2 ↔ b = a ∨ b = rev a := by
  rw [rev_eq]
  split_ifs <;> omega

theorem total_update (low : a < 2 * rep.mAct) (startA : rep.startNode a = some u)
    (startRev : rep.startNode (rev a) = some v) (w : ℕ) :
    total rep select (update amount (a / 2) (amount (a / 2) + lambda)) w =
      total rep select amount w + (if w = u ∧ select a = true then lambda else 0) +
        (if w = v ∧ select (rev a) = true then lambda else 0) := by
  have difference : total rep select (update amount (a / 2) (amount (a / 2) + lambda)) w -
      total rep select amount w =
      (if w = u ∧ select a = true then lambda else 0) +
        (if w = v ∧ select (rev a) = true then lambda else 0) := by
    rw [total, total, ← sum_sub_distrib]
    refine (sum_eq_add a (rev a) (rev_ne a).symm ?_ ?_ ?_).trans ?_
    · rintro b - ⟨notA, notRev⟩
      have other : b / 2 ≠ a / 2 := fun same => by
        rcases half_eq_iff.1 same with isA | isRev
        · exact notA isA
        · exact notRev isRev
      rw [update_of_ne other, sub_self]
    · exact fun absent => absurd (mem_range.2 low) absent
    · exact fun absent => absurd (mem_range.2 (rev_lt.2 low)) absent
    · have halfRev : rev a / 2 = a / 2 := half_eq_iff.2 (.inr rfl)
      rw [halfRev, update_self, startA, startRev]
      have flip : ∀ y : ℕ, (some y = some w) = (w = y) := fun y =>
        propext ⟨fun same => (Option.some.inj same).symm, fun same => by rw [same]⟩
      simp only [flip]
      have gain : ∀ (p : Prop) [Decidable p],
          (if p then amount (a / 2) + lambda else 0) - (if p then amount (a / 2) else 0) =
            if p then lambda else 0 := by
        intro p _
        split_ifs
        · ring
        · ring
      rw [gain, gain]
  linarith

theorem total_insert (count : rep'.mAct = rep.mAct + 1)
    (same : ∀ b, b < 2 * rep.mAct → rep'.startNode b = rep.startNode b)
    (zero : amount rep.mAct = 0) : total rep' select amount v = total rep select amount v := by
  have halfNew : 2 * rep.mAct / 2 = rep.mAct := by omega
  have halfRev : (2 * rep.mAct + 1) / 2 = rep.mAct := by omega
  rw [total, total, count, show 2 * (rep.mAct + 1) = 2 * rep.mAct + 1 + 1 by ring,
    Finset.sum_range_succ, Finset.sum_range_succ, halfNew, halfRev, zero, ite_self, ite_self,
    add_zero, add_zero]
  refine Finset.sum_congr rfl fun b mem => ?_
  rw [same b (mem_range.1 mem)]

theorem total_cancel (cancelled : Cancelled rep a rep') (zero : amount (a / 2) = 0) :
    total rep' select amount v = total rep select amount v := by
  rw [total, total, cancelled.size.mAct]
  refine Finset.sum_congr rfl fun b _ => ?_
  by_cases gone : b = a ∨ b = rev a
  · rw [half_eq_iff.2 gone, zero, ite_self, ite_self]
  · obtain ⟨notA, notRev⟩ := not_or.1 gone
    rw [cancelled.startNode, update_of_ne notRev, update_of_ne notA]

/-- The sums are those that the investigator computes. -/
theorem sum_incidences (sound : st.rep.Sound) (low : v < st.rep.nAct) (select : ℕ → Bool) :
    ((st.incidences v).map fun a => if select a = true then st.subOf a else 0).sum =
      total st.rep select st.subArray v := by
  obtain ⟨nodup, mem⟩ := incidences_spec sound low
  have arcs : (st.incidences v).toFinset =
      (Finset.range (2 * st.rep.mAct)).filter fun a => st.rep.startNode a = some v := by
    ext a
    rw [List.mem_toFinset, mem, Finset.mem_filter, mem_range]
  rw [← List.sum_toFinset _ nodup, arcs, Finset.sum_filter, total]
  refine Finset.sum_congr rfl fun a _ => ?_
  rw [subArray_half, ← ite_and]

end Total

/-! ## Correct labels -/

section

variable (st : SparseGraph)

/-- The arcs that `InitDegrees` counts. -/
def isEdge (a : ℕ) : Bool := decide (st.Undirected a)

/-- The arcs that `InitDegInOut` counts for `sDegOut`. -/
def leaves (a : ℕ) : Bool := st.blocking (rev a)

/-- The labels that are present are correct for these multiplicities. -/
structure Correct (amount : ℕ → ℚ) : Prop where
  deg : ∀ d, st.sDeg = some d → ∀ v, v < st.n → d v = total st.rep st.isEdge amount v
  degIn : ∀ d, st.sDegInOut = some d → ∀ v, v < st.n → d.1 v = total st.rep st.blocking amount v
  degOut : ∀ d, st.sDegInOut = some d → ∀ v, v < st.n → d.2 v = total st.rep st.leaves amount v

end

section

variable (sound : st.rep.Sound) (low : v < st.rep.nAct)
include sound low

theorem degree_eq_total : st.degree v = total st.rep st.isEdge st.subArray v := by
  rw [← sum_incidences sound low, degree]
  simp only [isEdge, decide_eq_true_eq]

theorem degreeIn_eq_total : st.degreeIn v = total st.rep st.blocking st.subArray v := by
  rw [← sum_incidences sound low, degreeIn]

theorem degreeOut_eq_total : st.degreeOut v = total st.rep st.leaves st.subArray v := by
  rw [← sum_incidences sound low, degreeOut]
  rfl

end

/-- A label that is present depends on the multiplicity of the edge. -/
def Counted (st : SparseGraph) (a : ℕ) : Prop :=
  (st.Undirected a ∧ st.sDeg ≠ none) ∨ (¬ st.Undirected a ∧ st.sDegInOut ≠ none)

/-- `AdjustDegrees` patches the labels that depend on the edge, and no others. -/
def Patched (st : SparseGraph) (a : ℕ) : Prop :=
  st.Undirected a → st.sDeg ≠ none ∨ st.sDegInOut = none

theorem undirected_congr (same : ∀ b, s.blocking b = st.blocking b) :
    s.Undirected a ↔ st.Undirected a := by
  rw [Undirected, Undirected, same, same]

theorem undirected_rev : st.Undirected (rev a) ↔ st.Undirected a := by
  rw [Undirected, Undirected, rev_rev, and_comm]

/-- An edge is undirected, or exactly one of its arcs is blocking. -/
theorem directed_cases (directed : ¬ st.Undirected a) :
    (st.blocking a = true ∧ st.blocking (rev a) = false) ∨
      (st.blocking a = false ∧ st.blocking (rev a) = true) := by
  have orientation : st.orientationOf (rev a) = st.orientationOf a := by
    rw [orientationOf, orientationOf, half_eq_iff.2 (.inr rfl)]
  have parity : rev a % 2 = 1 - a % 2 := by
    rw [rev_eq]
    split_ifs <;> omega
  rw [Undirected, blocking, blocking, orientation, parity] at directed
  rw [blocking, blocking, orientation, parity]
  rcases Nat.mod_two_eq_zero_or_one a with even | odd
  · rw [even] at directed ⊢
    simp at directed ⊢
    exact directed
  · rw [odd] at directed ⊢
    simp at directed ⊢
    exact directed

theorem counted_rev : st.Counted (rev a) ↔ st.Counted a := by
  rw [Counted, Counted, undirected_rev]

section

variable (correct : st.Correct amount)
include correct

theorem Correct.of_counted
    (same : ∀ b, b < 2 * st.rep.mAct → st.rep.startNode b ≠ none → st.Counted b →
      amount' (b / 2) = amount (b / 2)) : st.Correct amount' := by
  have agree : ∀ select : ℕ → Bool, (∀ b, select b = true → st.Counted b) → ∀ v,
      total st.rep select amount v = total st.rep select amount' v := by
    intro select counted v
    refine total_congr fun b low start selected => (same b low ?_ (counted b selected)).symm
    rw [start]
    exact some_ne_none v
  refine ⟨fun d present v low => ?_, fun d present v low => ?_, fun d present v low => ?_⟩
  · rw [correct.deg d present v low]
    refine agree _ (fun b selected => .inl ⟨of_decide_eq_true selected, by simp [present]⟩) v
  · rw [correct.degIn d present v low]
    refine agree _ (fun b selected => .inr ⟨fun undirected => ?_, by simp [present]⟩) v
    rw [undirected.1] at selected
    cases selected
  · rw [correct.degOut d present v low]
    refine agree _ (fun b selected => .inr ⟨fun undirected => ?_, by simp [present]⟩) v
    rw [leaves, undirected.2] at selected
    cases selected

theorem Correct.of_uncounted (uncounted : ¬ st.Counted a) (x : ℚ) :
    st.Correct (update amount (a / 2) x) := by
  refine correct.of_counted fun b _ _ counted => update_of_ne (fun same => ?_) _ _
  rcases half_eq_iff.1 same with rfl | rfl
  · exact uncounted counted
  · exact uncounted (counted_rev.1 counted)

theorem Correct.of_dead (deadA : st.rep.startNode a = none)
    (deadRev : st.rep.startNode (rev a) = none) (x : ℚ) : st.Correct (update amount (a / 2) x) := by
  refine correct.of_counted fun b _ live _ => update_of_ne (fun same => ?_) _ _
  rcases half_eq_iff.1 same with rfl | rfl
  · exact live deadA
  · exact live deadRev

end

/-! ## Adjusting the labels -/

theorem addAt_eq (d : ℕ → ℚ) (v w : ℕ) (lambda : ℚ) :
    addAt d v lambda w = d w + if w = v then lambda else 0 := by
  rw [addAt]
  by_cases here : w = v
  · rw [here, update_self, if_pos rfl]
  · rw [update_of_ne here, if_neg here, add_zero]

theorem directed_of_patched (patched : st.Patched a)
    (notEdge : ¬ (st.sDeg ≠ none ∧ st.Undirected a)) (present : st.sDegInOut = some d) :
    ¬ st.Undirected a := by
  intro undirected
  rcases patched undirected with label | absent
  · exact notEdge ⟨label, undirected⟩
  · rw [absent] at present
    cases present

theorem adjustInOut_of_directed (directed : ¬ st.Undirected a) (u v w : ℕ) (lambda : ℚ)
    (d : (ℕ → ℚ) × (ℕ → ℚ)) : (st.adjustInOut a u v lambda d).1 w =
        d.1 w + (if w = u ∧ st.blocking a = true then lambda else 0) +
          (if w = v ∧ st.blocking (rev a) = true then lambda else 0) ∧
      (st.adjustInOut a u v lambda d).2 w =
        d.2 w + (if w = u ∧ st.leaves a = true then lambda else 0) +
          (if w = v ∧ st.leaves (rev a) = true then lambda else 0) := by
  rw [adjustInOut, leaves, leaves, rev_rev]
  rcases directed_cases directed with ⟨block, free⟩ | ⟨free, block⟩
  · simp [block, free, addAt_eq]
  · simp [block, free, addAt_eq]

theorem Correct.adjusted (correct : st.Correct amount) (low : a < 2 * st.rep.mAct)
    (startA : st.rep.startNode a = some u) (startRev : st.rep.startNode (rev a) = some v)
    (patched : st.Patched a) (lambda : ℚ) : (st.adjusted a u v lambda).Correct
      (update amount (a / 2) (amount (a / 2) + lambda)) := by
  rw [SparseGraph.adjusted]
  split_ifs with edge
  · refine ⟨fun d present w lowW => ?_, fun d present w lowW => ?_, fun d present w lowW => ?_⟩
    · obtain ⟨old, val, rfl⟩ := map_eq_some_iff.1 present
      have isEdgeA : st.isEdge a = true := decide_eq_true edge.2
      have isEdgeRev : st.isEdge (rev a) = true := decide_eq_true (undirected_rev.2 edge.2)
      change _ = total st.rep st.isEdge _ w
      rw [addAt_eq, addAt_eq, total_update low startA startRev, correct.deg old val w lowW]
      simp only [isEdgeA, isEdgeRev, and_true]
    · change _ = total st.rep st.blocking _ w
      rw [total_update low startA startRev, correct.degIn d present w lowW]
      simp [edge.2.1, edge.2.2]
    · have notA : st.leaves a = false := edge.2.2
      have notRev : st.leaves (rev a) = false := by
        rw [leaves, rev_rev]
        exact edge.2.1
      change _ = total st.rep st.leaves _ w
      rw [total_update low startA startRev, correct.degOut d present w lowW]
      simp [notA, notRev]
  · refine ⟨fun d present w lowW => ?_, fun d present w lowW => ?_, fun d present w lowW => ?_⟩
    · have label : st.sDeg = some d := present
      have directed : ¬ st.Undirected a := fun undirected => edge ⟨by simp [label], undirected⟩
      have notA : st.isEdge a = false := by simpa [isEdge] using directed
      have notRev : st.isEdge (rev a) = false := by simpa [isEdge, undirected_rev] using directed
      change _ = total st.rep st.isEdge _ w
      rw [total_update low startA startRev, correct.deg d present w lowW]
      simp [notA, notRev]
    · obtain ⟨old, val, rfl⟩ := map_eq_some_iff.1 present
      change _ = total st.rep st.blocking _ w
      rw [total_update low startA startRev, ← correct.degIn old val w lowW]
      have directed := directed_of_patched patched edge val
      exact (adjustInOut_of_directed directed u v w lambda old).1
    · obtain ⟨old, val, rfl⟩ := map_eq_some_iff.1 present
      change _ = total st.rep st.leaves _ w
      rw [total_update low startA startRev, ← correct.degOut old val w lowW]
      have directed := directed_of_patched patched edge val
      exact (adjustInOut_of_directed directed u v w lambda old).2

theorem adjusted_zero (st : SparseGraph) (a u v : ℕ) : st.adjusted a u v 0 = st := by
  have idle : ∀ (d : ℕ → ℚ) (w : ℕ), addAt d w 0 = d := fun d w => funext fun z => by
    rw [addAt_eq, ite_self, add_zero]
  have same : ∀ d, st.adjustInOut a u v 0 d = d := by
    intro d
    simp only [adjustInOut, idle, ite_self]
  have map : st.adjustInOut a u v 0 = id := funext same
  rw [adjusted]
  split_ifs
  · simp only [idle, Option.map_id_fun']
    rfl
  · rw [map, Option.map_id_fun, id]

theorem of_adjustDegrees (res : adjustDegrees a lambda st = .ok () st') :
    (∃ u v, st.rep.startNode a = some u ∧ st.rep.startNode (rev a) = some v ∧
      st' = st.adjusted a u v lambda) ∨ (¬ st.NeedsNodes a ∧ st' = st) := by
  by_cases low : a < 2 * st.m
  swap
  · rw [adjustDegrees, run_bind_get, if_pos (not_lt.1 low)] at res
    cases res
  by_cases live : st.rep.startNode a ≠ none ∧ st.rep.startNode (rev a) ≠ none
  · obtain ⟨u, startA⟩ := ne_none_iff_exists'.1 live.1
    obtain ⟨v, startRev⟩ := ne_none_iff_exists'.1 live.2
    rw [adjustDegrees_live low startA startRev] at res
    cases res
    exact .inl ⟨u, v, startA, startRev, rfl⟩
  have idle : ¬ st.NeedsNodes a := by
    intro needs
    obtain ⟨e, s, failed⟩ := adjustDegrees_error lambda fun adjustable : st.Adjustable a =>
      adjustable.elim live fun quiet => quiet needs
    rw [failed] at res
    cases res
  obtain ⟨first, second⟩ := not_or.1 idle
  rw [adjustDegrees, run_bind_get, if_neg (not_le.2 low), if_neg first, if_neg second] at res
  cases res
  exact .inr ⟨idle, rfl⟩

theorem Counted.needsNodes (counted : st.Counted a) : st.NeedsNodes a := by
  rcases counted with ⟨undirected, label⟩ | ⟨-, label⟩
  · exact .inl ⟨label, undirected⟩
  · exact .inr label

/-- **`AdjustDegrees` patches the labels correctly**, if it patches the right ones. -/
theorem Correct.adjustDegrees (correct : st.Correct amount) (low : a < 2 * st.rep.mAct)
    (fine : lambda = 0 ∨ st.Patched a) (res : SparseGraph.adjustDegrees a lambda st = .ok () st') :
    st'.Correct (update amount (a / 2) (amount (a / 2) + lambda)) := by
  rcases of_adjustDegrees res with ⟨u, v, startA, startRev, rfl⟩ | ⟨idle, rfl⟩
  · rcases fine with rfl | patched
    · rw [adjusted_zero, add_zero, update_eq_self]
      exact correct
    · exact correct.adjusted low startA startRev patched lambda
  · exact correct.of_uncounted (fun counted => idle counted.needsNodes) _

/-! ## Multiplicities -/

/-- `NewSubgraph` does not touch the labels. -/
def NoFloor (st : SparseGraph) : Prop :=
  ∀ b, b < st.rep.mAct → 0 < st.lCap (2 * b) → ¬ st.NeedsNodes (2 * b)

theorem adjustDegrees_idle (low : a < 2 * st.m) (idle : ¬ st.NeedsNodes a) :
    adjustDegrees a lambda st = .ok () st := by
  obtain ⟨first, second⟩ := not_or.1 idle
  rw [adjustDegrees, run_bind_get, if_neg (not_le.2 low), if_neg first, if_neg second]
  rfl

theorem adjustAll_idle (st : SparseGraph) (amount : ℕ → ℚ) (l : List ℕ) (low : ∀ b ∈ l, b < st.m)
    (idle : ∀ b ∈ l, 0 < amount b → ¬ st.NeedsNodes (2 * b)) :
    (l.forM fun b => if 0 < amount b then adjustDegrees (2 * b) (amount b) else pure ()) st =
      .ok () st := by
  induction l with
  | nil => rfl
  | cons b l ih =>
    have step : (if 0 < amount b then adjustDegrees (2 * b) (amount b) else pure () :
        GraphM Unit) st = .ok () st := by
      by_cases pos : 0 < amount b
      · have lowB := low b List.mem_cons_self
        rw [if_pos pos]
        exact adjustDegrees_idle (by omega) (idle b List.mem_cons_self pos)
      · rw [if_neg pos]
        rfl
    change (_ >>= _ : GraphM Unit) st = _
    rw [run_bind_ok step]
    exact ih (fun c mem => low c (List.mem_cons_of_mem b mem))
      fun c mem => idle c (List.mem_cons_of_mem b mem)

theorem subArray_none (absent : st.sub = none) (b : ℕ) : st.subArray b = st.lCap (2 * b) := by
  rw [subArray, absent]
  rfl

section

variable (count : st.rep.mAct ≤ st.m)
include count

theorem newSubgraph_idle (absent : st.sub = none)
    (floor : st.NoFloor) : newSubgraph st = .ok () { st with sub := some st.subArray } := by
  have array : st.subArray = fun b => st.lCap (2 * b) := funext (subArray_none absent)
  rw [newSubgraph, run_bind_get, if_pos absent, run_bind_modify, array]
  refine adjustAll_idle _ _ _ (fun b mem => ?_) fun b mem => ?_
  · exact (List.mem_range.1 mem).trans_le count
  · exact floor b (List.mem_range.1 mem)

theorem allocSub_idle (floor : st.sub = none → st.NoFloor) :
    allocSub st = .ok () { st with sub := some st.subArray } := by
  rw [allocSub, run_bind_get]
  cases present : st.sub with
  | none =>
    exact newSubgraph_idle count present (floor present)
  | some sub =>
    have array : st.subArray = sub := by rw [subArray, present]; rfl
    rw [if_neg (by simp), array, ← present]
    rfl

theorem of_setSub (floor : st.sub = none → st.NoFloor)
    (res : setSub a x st = .ok () st') :
    a < 2 * st.rep.mAct ∧ ∃ s1,
      adjustDegrees a (x - st.subOf a) { st with sub := some st.subArray } = .ok () s1 ∧
      st' = { s1 with sub := some (update st.subArray (a / 2) x) } := by
  obtain ⟨high, res⟩ := of_run_check res
  obtain ⟨out, res⟩ := of_run_check res
  rw [run_bind_ok (allocSub_idle count floor), run_bind_get] at res
  have val : subOf { st with sub := some st.subArray } a = st.subOf a := subArray_half st a
  rw [val] at res
  obtain ⟨_, s1, adjust, res⟩ := of_run_bind res
  rw [run_modify] at res
  cases res
  refine ⟨not_le.1 high, s1, adjust, ?_⟩
  have sub : s1.sub = some st.subArray := by rw [(adjustDegrees_relabelled adjust).same]
  rw [sub]
  rfl

end

theorem lCap_congr (same : s.lcap = st.lcap) (b : ℕ) : s.lCap b = st.lCap b := by
  rw [lCap, lCap, same]

/-- What holds in a run. -/
structure Tended (st : SparseGraph) : Prop where
  wired : st.Wired
  lcap : Ranked st.lcap st.rep.mAct
  nonneg : ∀ b, 0 ≤ st.lCap b
  correct : st.Correct st.subArray

section

variable (tended : st.Tended)
include tended

theorem Tended.m_ge : st.rep.mAct ≤ st.m := tended.wired.m.ge

/-- Only the multiplicities, the labels and the upper capacities are different. -/
theorem Tended.reset
    (same : st' = { st with
      ucap := st'.ucap, sub := st'.sub, sDeg := st'.sDeg, sDegInOut := st'.sDegInOut })
    (correct : st'.Correct st'.subArray) : st'.Tended := by
  have rep : st'.rep = st.rep := by rw [same]
  have n : st'.n = st.n := by rw [same]
  have m : st'.m = st.m := by rw [same]
  have orientation : st'.orientation = st.orientation := by rw [same]
  have lcap : st'.lcap = st.lcap := by rw [same]
  have lCap : ∀ b, st'.lCap b = st.lCap b := fun b => lCap_congr lcap b
  refine ⟨⟨?_, ?_, ?_, ?_⟩, ?_, fun b => ?_, correct⟩
  · rw [n, rep, tended.wired.n]
  · rw [m, rep, tended.wired.m]
  · rw [rep]
    exact tended.wired.sound
  · rw [orientation, rep]
    exact tended.wired.orientation
  · rw [lcap, rep]
    exact tended.lcap
  · rw [lCap]
    exact tended.nonneg b

/-- The multiplicity of an arc can be set without damage to the labels. -/
def SubHarmless (st : SparseGraph) (a : ℕ) (x : ℚ) : Prop :=
  (st.sub = none → st.NoFloor) ∧ (x = st.subOf a ∨ st.Patched a)

theorem Tended.setSub (harmless : st.SubHarmless a x)
    (res : SparseGraph.setSub a x st = .ok () st') :
    st'.Tended ∧ st'.sub ≠ none ∧ st' = { st with
      sub := st'.sub, sDeg := st'.sDeg, sDegInOut := st'.sDegInOut } := by
  obtain ⟨low, s1, adjust, rfl⟩ := of_setSub tended.m_ge harmless.1 res
  have relabelled := adjustDegrees_relabelled adjust
  have base : Correct { st with sub := some st.subArray } st.subArray :=
    ⟨tended.correct.deg, tended.correct.degIn, tended.correct.degOut⟩
  have fine : x - st.subOf a = 0 ∨ Patched { st with sub := some st.subArray } a :=
    harmless.2.imp_left fun same => by rw [same, sub_self]
  have after := base.adjustDegrees low fine adjust
  rw [subArray_half, add_sub_cancel] at after
  have same : ({ s1 with sub := some (update st.subArray (a / 2) x) } : SparseGraph) =
      { st with
        sub := some (update st.subArray (a / 2) x)
        sDeg := s1.sDeg
        sDegInOut := s1.sDegInOut } := by
    rw [relabelled.same]
  refine ⟨tended.reset ?_ ⟨after.deg, after.degIn, after.degOut⟩, by simp, same⟩
  rw [relabelled.same]

theorem Tended.setSubRelative (floor : st.sub = none → st.NoFloor)
    (fine : lambda = 0 ∨ st.Patched a)
    (res : SparseGraph.setSubRelative a lambda st = .ok () st') : st'.Tended := by
  obtain ⟨high, res⟩ := of_run_check res
  obtain ⟨out, res⟩ := of_run_check res
  rw [run_bind_ok (allocSub_idle tended.m_ge floor), run_bind_modify] at res
  have base : Correct { st with sub := some (addAt st.subArray (a / 2) lambda) } st.subArray :=
    ⟨tended.correct.deg, tended.correct.degIn, tended.correct.degOut⟩
  have after := base.adjustDegrees (not_le.1 high) fine res
  have relabelled := adjustDegrees_relabelled res
  have sub : st'.sub = some (addAt st.subArray (a / 2) lambda) := by rw [relabelled.same]; rfl
  have array : st'.subArray = update st.subArray (a / 2)
      (st.subArray (a / 2) + lambda) := by
    rw [subArray, sub]
    rfl
  refine tended.reset ?_ (array ▸ after)
  rw [relabelled.same]

theorem Tended.newSubgraph (floor : st.sub = none → st.NoFloor)
    (res : SparseGraph.newSubgraph st = .ok () st') : st'.Tended := by
  by_cases absent : st.sub = none
  · rw [newSubgraph_idle tended.m_ge absent (floor absent)] at res
    cases res
    exact tended.reset rfl ⟨tended.correct.deg, tended.correct.degIn, tended.correct.degOut⟩
  · rw [SparseGraph.newSubgraph, run_bind_get, if_neg absent] at res
    cases res

end

/-! ## Capacities -/

theorem Tended.setUCap (tended : st.Tended) (harmless : x < st.subOf a → st.SubHarmless a x)
    (res : SparseGraph.setUCap a x st = .ok () st') :
    st'.Tended ∧ (st.sub ≠ none → st'.sub ≠ none) := by
  obtain ⟨-, -, s, adapt, rfl⟩ := of_setUCap res
  obtain ⟨tended1, kept⟩ : s.Tended ∧ (st.sub ≠ none → s.sub ≠ none) := by
    by_cases lowered : x < st.subOf a
    · rw [if_pos lowered] at adapt
      obtain ⟨tended1, present, -⟩ := tended.setSub (harmless lowered) adapt
      exact ⟨tended1, fun _ => present⟩
    · rw [if_neg lowered] at adapt
      cases adapt
      exact ⟨tended, id⟩
  refine ⟨tended1.reset rfl ?_, kept⟩
  exact ⟨tended1.correct.deg, tended1.correct.degIn, tended1.correct.degOut⟩

section

variable (ranked : Ranked st.lcap st.rep.mAct) (low : a < 2 * st.rep.mAct)
include ranked low

theorem lCap_assign (x : ℚ)
    (b : ℕ) :
    lCap { st with lcap := assign st.lcap 0 st.rep.mAct (a / 2) x } b =
      if b / 2 = a / 2 then x else st.lCap b :=
  valueOf_assign 0 x ranked (by omega) (b / 2)

/-- Without multiplicities, `SetLCap` sets the multiplicity. -/
theorem subArray_assign
    (absent : st.sub = none) :
    subArray { st with lcap := assign st.lcap 0 st.rep.mAct (a / 2) x } =
      update st.subArray (a / 2) x := by
  funext b
  have absent' : sub { st with lcap := assign st.lcap 0 st.rep.mAct (a / 2) x } = none := absent
  rw [subArray_none absent', lCap_assign ranked low, half_double]
  split_ifs with here
  · rw [here, update_self]
  · rw [update_of_ne here, subArray_none absent]

end

/-- The lower capacity of an arc can be set without damage to the labels. -/
def LCapHarmless (st : SparseGraph) (a : ℕ) (x : ℚ) : Prop :=
  (|st.subOf a| < x → (st.sub = none → st.NoFloor) ∧ st.Patched a) ∧
    (¬ |st.subOf a| < x → st.sub = none →
      x = st.lCap a ∨ ¬ st.Counted a ∨ st.rep.startNode a = none)

theorem Tended.setLCap (tended : st.Tended) (harmless : st.LCapHarmless a x)
    (res : SparseGraph.setLCap a x st = .ok () st') :
    st'.Tended ∧ (st.sub ≠ none → st'.sub ≠ none) := by
  obtain ⟨low, nonneg, s1, adapt, rfl⟩ := of_setLCap res
  obtain ⟨tended1, rep1, kept, correct⟩ : s1.Tended ∧ s1.rep = st.rep ∧
      (st.sub ≠ none → s1.sub ≠ none) ∧
      Correct s1 (subArray { s1 with lcap := assign s1.lcap 0 s1.rep.mAct (a / 2) x }) := by
    by_cases raised : |st.subOf a| < x
    · rw [if_pos raised] at adapt
      obtain ⟨floor, patched⟩ := harmless.1 raised
      obtain ⟨tended1, present, same⟩ := tended.setSub ⟨floor, .inr patched⟩ adapt
      have array : subArray { s1 with lcap := assign s1.lcap 0 s1.rep.mAct (a / 2) x } =
          s1.subArray := by
        obtain ⟨sub, val⟩ := ne_none_iff_exists'.1 present
        rw [subArray, subArray, val]
        rfl
      exact ⟨tended1, by rw [same], fun _ => present, array ▸ tended1.correct⟩
    · rw [if_neg raised] at adapt
      cases adapt
      refine ⟨tended, rfl, id, ?_⟩
      by_cases absent : st.sub = none
      · rw [subArray_assign tended.lcap low absent]
        rcases harmless.2 raised absent with same | uncounted | dead
        · have val : st.subArray (a / 2) = st.lCap a := by
            rw [subArray_half, subOf, absent]
          rw [same, ← val, update_eq_self]
          exact tended.correct
        · exact tended.correct.of_uncounted uncounted x
        · exact tended.correct.of_dead dead ((tended.wired.sound.paired a low).1 dead) x
      · have array : subArray { st with lcap := assign st.lcap 0 st.rep.mAct (a / 2) x } =
            st.subArray := by
          obtain ⟨sub, val⟩ := ne_none_iff_exists'.1 absent
          rw [subArray, subArray, val]
          rfl
        exact array ▸ tended.correct
  refine ⟨⟨⟨tended1.wired.n, tended1.wired.m, tended1.wired.sound, tended1.wired.orientation⟩,
    tended1.lcap.assign, fun b => ?_, ⟨correct.deg, correct.degIn, correct.degOut⟩⟩, kept⟩
  rw [lCap_assign tended1.lcap (rep1 ▸ low)]
  split_ifs
  · exact nonneg
  · exact tended1.nonneg b

/-! ## Insertion of an arc -/

/-- There are no labels. -/
def Unlabelled (st : SparseGraph) : Prop := st.sDeg = none ∧ st.sDegInOut = none

section Unlabelled

variable (unlabelled : st.Unlabelled)

include unlabelled

theorem Unlabelled.not_needsNodes (a : ℕ) : ¬ st.NeedsNodes a := by
  rintro (⟨label, -⟩ | label)
  · exact label unlabelled.1
  · exact label unlabelled.2

theorem Unlabelled.correct (amount : ℕ → ℚ) : st.Correct amount := by
  refine ⟨fun d present => ?_, fun d present => ?_, fun d present => ?_⟩
  · rw [unlabelled.1] at present
    cases present
  · rw [unlabelled.2] at present
    cases present
  · rw [unlabelled.2] at present
    cases present

theorem Unlabelled.subHarmless (a : ℕ) (x : ℚ) : st.SubHarmless a x :=
  ⟨fun _ _ _ _ => unlabelled.not_needsNodes _, .inr fun _ => .inr unlabelled.2⟩

theorem Unlabelled.lcapHarmless (a : ℕ) (x : ℚ) : st.LCapHarmless a x := by
  refine ⟨fun _ => ⟨fun _ _ _ _ => unlabelled.not_needsNodes _, fun _ => .inr unlabelled.2⟩,
    fun _ _ => .inr (.inl fun counted => ?_)⟩
  exact unlabelled.not_needsNodes a counted.needsNodes

end Unlabelled

/-- Which labels are present. -/
def labels (st : SparseGraph) : Bool × Bool := (st.sDeg.isSome, st.sDegInOut.isSome)

theorem unlabelled_iff : st.Unlabelled ↔ st.labels = (false, false) := by
  rw [Unlabelled, labels, Prod.mk.injEq, isSome_eq_false_iff, isSome_eq_false_iff,
    isNone_iff_eq_none, isNone_iff_eq_none]

theorem keeps_labels_adjustDegrees (a : ℕ) (lambda : ℚ) :
    Keeps labels (adjustDegrees a lambda) := by
  refine Keeps.get.bind fun st => .ite (.throw _) (.ite ?_ (.ite ?_ (.pure _)))
  · exact (keeps_labelNode _).bind fun u => (keeps_labelNode _).bind fun v =>
      .modify fun st => by simp [labels]
  · exact (keeps_labelNode _).bind fun u => (keeps_labelNode _).bind fun v =>
      .modify fun st => by simp [labels]

theorem keeps_labels_setSub (a : ℕ) (x : ℚ) : Keeps labels (setSub a x) := by
  refine Keeps.get.bind fun st => .ite (.throw _) (.ite (.throw _) ?_)
  refine Keeps.bind (Keeps.get.bind fun st => .ite (Keeps.get.bind fun st => .ite ?_ (.throw _))
    (.pure _)) fun _ => Keeps.get.bind fun st => ?_
  · refine Keeps.bind (.modify fun _ => rfl) fun _ => ?_
    exact .forM (fun b => .ite (keeps_labels_adjustDegrees _ _) (.pure _)) _
  · exact (keeps_labels_adjustDegrees _ _).bind fun _ => .modify fun _ => rfl

theorem keeps_labels_setUCap (a : ℕ) (x : ℚ) : Keeps labels (setUCap a x) := by
  refine Keeps.get.bind fun st => .ite (.throw _) (.ite (.throw _) ?_)
  exact Keeps.bind (.ite (keeps_labels_setSub _ _) (.pure _)) fun _ => .modify fun _ => rfl

/-- The state in which the bounds of the new arc are assigned. The new arc does not count yet. -/
structure Opened (st s : SparseGraph) (lower : ℚ) : Prop where
  n : s.n = st.n
  wired : s.Wired
  count : s.rep.mAct = st.rep.mAct + 1
  lcap : Ranked s.lcap s.rep.mAct
  lCap : ∀ b, s.lCap b = st.lCap b
  blocking : ∀ b, s.blocking b = st.blocking b
  sub : s.sub = st.sub.map fun sub => update sub st.rep.mAct lower
  sDeg : s.sDeg = if st.sub ≠ none ∧ 0 < lower then none else st.sDeg
  sDegInOut : s.sDegInOut = if st.sub ≠ none ∧ 0 < lower then none else st.sDegInOut
  base : s.Correct (update st.subArray st.rep.mAct 0)

theorem Tended.opened {length lower : ℚ} (tended : st.Tended)
    (routed : Routed { st with m := st.m + 1 } u v rep) :
    Opened st (prepared { st with m := st.m + 1 } rep length lower) lower := by
  have count : rep.mAct = st.rep.mAct + 1 := routed.count
  have nAct : rep.nAct = st.rep.nAct := routed.size.nAct
  have orientation : (prepared { st with m := st.m + 1 } rep length lower).orientation =
      st.orientation.map fun A => A.appendItems 1 := rfl
  have blocking' : ∀ b, (prepared { st with m := st.m + 1 } rep length lower).blocking b =
      st.blocking b := fun b => blocking_congr rfl (by rw [orientation, valueOf_appendItems])
  have sums : ∀ (select select' : ℕ → Bool) (w : ℕ), (∀ b, select b = select' b) →
      total rep select (update st.subArray st.rep.mAct 0) w =
        total st.rep select' st.subArray w := by
    intro select select' w same
    rw [show select = select' from funext same,
      total_insert count (fun b low => routed.start_old low) (update_self ..)]
    refine total_congr fun b low _ _ => update_of_ne ?_ _ _
    omega
  have present : ∀ {α : Type} {x : Option α} {d : α},
      (if st.sub ≠ none ∧ 0 < lower then none else x) = some d → x = some d := by
    intro α x d val
    split_ifs at val
    exact val
  exact
    { n := rfl
      wired :=
        { n := tended.wired.n.trans nAct.symm
          m := by
            change st.m + 1 = rep.mAct
            rw [count, tended.wired.m]
          sound := routed.sound
          orientation := by
            change Ranked _ rep.mAct
            rw [orientation, count]
            exact tended.wired.orientation.append 1 }
      count := count
      lcap := by
        change Ranked _ rep.mAct
        rw [count]
        exact tended.lcap.append 1
      lCap := fun b => valueOf_appendItems st.lcap 0 1 (b / 2)
      blocking := blocking'
      sub := rfl
      sDeg := rfl
      sDegInOut := rfl
      base :=
        { deg := fun d val w low => by
            rw [tended.correct.deg d (present val) w low]
            exact (sums _ _ w fun b => decide_eq_decide.2 (undirected_congr blocking')).symm
          degIn := fun d val w low => by
            rw [tended.correct.degIn d (present val) w low]
            exact (sums _ _ w blocking').symm
          degOut := fun d val w low => by
            rw [tended.correct.degOut d (present val) w low]
            exact (sums _ _ w fun b => blocking' (rev b)).symm } }

section Opened

variable {s s1 s2 : SparseGraph} {cap lower : ℚ}

/-- With multiplicities, a positive lower bound releases the labels. -/
theorem Opened.with_sub (opened : Opened st s lower) (tended : st.Tended) (present : st.sub ≠ none)
    (upper : setUCap (2 * st.rep.mAct) cap s = .ok () s1)
    (least : setLCap (2 * st.rep.mAct) lower s1 = .ok () s2) : s2.Tended ∧ s2.sub ≠ none := by
  have nonneg : 0 ≤ lower := (of_setLCap least).2.1
  have nonneg' : ∀ b, 0 ≤ s.lCap b := fun b => by
    rw [opened.lCap]
    exact tended.nonneg b
  obtain ⟨sub, val⟩ := ne_none_iff_exists'.1 present
  have sub' : s.sub = some (update sub st.rep.mAct lower) := by
    rw [opened.sub, val]
    rfl
  have present' : s.sub ≠ none := by simp [sub']
  by_cases pos : 0 < lower
  · have unlabelled : s.Unlabelled := by
      rw [Unlabelled, opened.sDeg, opened.sDegInOut, if_pos ⟨present, pos⟩,
        if_pos ⟨present, pos⟩]
      exact ⟨rfl, rfl⟩
    have tended0 : s.Tended := ⟨opened.wired, opened.lcap, nonneg', unlabelled.correct _⟩
    obtain ⟨tended1, kept1⟩ := tended0.setUCap (fun _ => unlabelled.subHarmless _ _) upper
    have unlabelled1 : s1.Unlabelled := by
      rw [unlabelled_iff, (keeps_labels_setUCap _ _).of_ok upper, ← unlabelled_iff]
      exact unlabelled
    obtain ⟨tended2, kept2⟩ := tended1.setLCap (unlabelled1.lcapHarmless _ _) least
    exact ⟨tended2, kept2 (kept1 present')⟩
  · have zero : lower = 0 := le_antisymm (not_lt.1 pos) nonneg
    have array : s.subArray = update st.subArray st.rep.mAct 0 := by
      rw [subArray, subArray, sub', val, zero]
      rfl
    have tended0 : s.Tended := ⟨opened.wired, opened.lcap, nonneg', array ▸ opened.base⟩
    have none : s.subOf (2 * st.rep.mAct) = 0 := by
      rw [← subArray_half, half_double, array, update_self]
    have enough : ¬ cap < s.subOf (2 * st.rep.mAct) := by
      rw [none]
      exact not_lt.2 (of_setUCap upper).2.1
    obtain ⟨tended1, kept1⟩ := tended0.setUCap (fun less => absurd less enough) upper
    have harmless : s1.LCapHarmless (2 * st.rep.mAct) lower := by
      refine ⟨fun less => ?_, fun _ absent => absurd absent (kept1 present')⟩
      rw [zero] at less
      exact absurd less (not_lt.2 (abs_nonneg _))
    obtain ⟨tended2, kept2⟩ := tended1.setLCap harmless least
    exact ⟨tended2, kept2 (kept1 present')⟩

theorem of_setSub_range (res : setSub a x st = .ok () st') : ¬ st.OutOfRange a x := by
  intro out
  rw [setSub, run_bind_get] at res
  by_cases high : 2 * st.rep.mAct ≤ a
  · rw [if_pos high] at res
    cases res
  · rw [if_neg high, if_pos out] at res
    cases res

theorem Opened.upper (opened : Opened st s lower) (absent : st.sub = none)
    (upper : setUCap (2 * st.rep.mAct) cap s = .ok () s1) :
    ∃ ucap, s1 = { s with ucap := ucap } := by
  obtain ⟨-, nonneg, s0, adapt, rfl⟩ := of_setUCap upper
  have absent' : s.sub = none := by
    rw [opened.sub, absent]
    rfl
  have val : s.subOf (2 * st.rep.mAct) = s.lCap (2 * st.rep.mAct) := by rw [subOf, absent']
  by_cases lowered : cap < s.subOf (2 * st.rep.mAct)
  · rw [if_pos lowered] at adapt
    refine absurd (.inl ⟨nonneg.trans_lt lowered, ?_⟩) (of_setSub_range adapt)
    rw [abs_of_nonneg nonneg, ← val]
    exact lowered
  · rw [if_neg lowered] at adapt
    cases adapt
    exact ⟨_, rfl⟩

/-- The same labels are present, and the same edges are directed. -/
structure SameLabels (st s : SparseGraph) : Prop where
  sDeg : s.sDeg = none ↔ st.sDeg = none
  sDegInOut : s.sDegInOut = none ↔ st.sDegInOut = none
  blocking : ∀ b, s.blocking b = st.blocking b

section

variable (same : SameLabels st s)
include same

theorem SameLabels.needsNodes : s.NeedsNodes a ↔ st.NeedsNodes a := by
  rw [NeedsNodes, NeedsNodes, ne_eq, ne_eq, same.sDeg, same.sDegInOut,
    undirected_congr same.blocking]

theorem SameLabels.patched : s.Patched a ↔ st.Patched a := by
  rw [Patched, Patched, ne_eq, same.sDeg, same.sDegInOut, undirected_congr same.blocking]

theorem SameLabels.counted : s.Counted a ↔ st.Counted a := by
  rw [Counted, Counted, ne_eq, ne_eq, same.sDeg, same.sDegInOut, undirected_congr same.blocking]

end

/-- `NewSubgraph`, when only the last arc has a lower capacity -/
theorem of_newSubgraph {k : ℕ} (absent : st.sub = none) (count : st.rep.mAct = k + 1)
    (m_ge : k + 1 ≤ st.m)
    (floor : ∀ b, b < k → 0 < st.lCap (2 * b) → ¬ st.NeedsNodes (2 * b))
    (res : newSubgraph st = .ok () st') :
    (if 0 < st.lCap (2 * k) then adjustDegrees (2 * k) (st.lCap (2 * k)) else pure () :
      GraphM Unit) { st with sub := some st.subArray } = .ok () st' := by
  have array : st.subArray = fun b => st.lCap (2 * b) := funext (subArray_none absent)
  rw [newSubgraph, run_bind_get, if_pos absent, run_bind_modify, count, List.range_succ] at res
  have idle := adjustAll_idle { st with sub := some fun b => st.lCap (2 * b) }
    (fun b => st.lCap (2 * b)) (List.range k) (fun b mem => by
      have := List.mem_range.1 mem
      change b < st.m
      omega) fun b mem => floor b (List.mem_range.1 mem)
  rw [run_forM_append idle] at res
  rw [array]
  obtain ⟨_, s, last, res⟩ := of_run_bind res
  cases res
  exact last

theorem of_setSub_alloc (absent : st.sub = none) (res : setSub a x st = .ok () st') :
    ∃ s1 s2, newSubgraph st = .ok () s1 ∧
      adjustDegrees a (x - s1.subOf a) s1 = .ok () s2 ∧
      st' = { s2 with sub := s2.sub.map fun sub => update sub (a / 2) x } := by
  obtain ⟨high, res⟩ := of_run_check res
  obtain ⟨out, res⟩ := of_run_check res
  obtain ⟨_, s1, alloc, res⟩ := of_run_bind res
  rw [allocSub, run_bind_get, if_pos absent] at alloc
  rw [run_bind_get] at res
  obtain ⟨_, s2, adjust, res⟩ := of_run_bind res
  cases res
  exact ⟨s1, s2, alloc, adjust, rfl⟩

/-- An arc with this lower bound can be inserted without damage to the labels. Without
multiplicities, the lower bound counts, but is reported only if it allocates them. -/
def InsertHarmless (st : SparseGraph) (lower : ℚ) : Prop :=
  st.sub = none →
    (st.lCap (2 * st.rep.mAct) < lower → st.NoFloor ∧ st.Patched (2 * st.rep.mAct)) ∧
    (¬ st.lCap (2 * st.rep.mAct) < lower → lower = 0 ∨ ¬ st.Counted (2 * st.rep.mAct))

section

variable (opened : Opened st s lower)
include opened

theorem Opened.sameLabels (absent : st.sub = none) : SameLabels st s := by
  have idle : ¬ (st.sub ≠ none ∧ 0 < lower) := fun both => both.1 absent
  refine ⟨?_, ?_, opened.blocking⟩
  · rw [opened.sDeg, if_neg idle]
  · rw [opened.sDegInOut, if_neg idle]

section

variable (tended : st.Tended)
include tended

theorem Opened.closed (nonneg : 0 ≤ lower)
    (same : s1 = { s with
      ucap := s1.ucap, sub := s1.sub, sDeg := s1.sDeg, sDegInOut := s1.sDegInOut })
    (correct : s1.Correct (subArray { s1 with
      lcap := assign s1.lcap 0 s1.rep.mAct (2 * st.rep.mAct / 2) lower })) :
    Tended { s1 with lcap := assign s1.lcap 0 s1.rep.mAct (2 * st.rep.mAct / 2) lower } := by
  have rep : s1.rep = s.rep := by rw [same]
  have n : s1.n = s.n := by rw [same]
  have m : s1.m = s.m := by rw [same]
  have orientation : s1.orientation = s.orientation := by rw [same]
  have lcap : s1.lcap = s.lcap := by rw [same]
  have ranked : Ranked s1.lcap s1.rep.mAct := by
    rw [lcap, rep]
    exact opened.lcap
  have low : 2 * st.rep.mAct < 2 * s1.rep.mAct := by
    rw [rep, opened.count]
    omega
  have lCap : ∀ b, s1.lCap b = st.lCap b := fun b => by rw [← opened.lCap, lCap_congr lcap]
  refine ⟨⟨?_, ?_, ?_, ?_⟩, ranked.assign, fun b => ?_,
    ⟨correct.deg, correct.degIn, correct.degOut⟩⟩
  · rw [n, rep, opened.wired.n]
  · rw [m, rep, opened.wired.m]
  · rw [rep]
    exact opened.wired.sound
  · rw [orientation, rep]
    exact opened.wired.orientation
  · rw [lCap_assign ranked low, lCap]
    split_ifs
    · exact nonneg
    · exact tended.nonneg b

/-- Without multiplicities, the lower bound is at most the default value. -/
theorem Opened.below (absent : st.sub = none)
    (nonneg : 0 ≤ lower) (fine : lower = 0 ∨ ¬ st.Counted (2 * st.rep.mAct))
    (same : s1 = { s with ucap := s1.ucap }) :
    Tended { s1 with lcap := assign s1.lcap 0 s1.rep.mAct (2 * st.rep.mAct / 2) lower } := by
  have absent1 : s1.sub = none := by
    rw [same, opened.sub, absent]
    rfl
  have rep : s1.rep = s.rep := by rw [same]
  have lcap : s1.lcap = s.lcap := by rw [same]
  have sDeg : s1.sDeg = s.sDeg := by rw [same]
  have sDegInOut : s1.sDegInOut = s.sDegInOut := by rw [same]
  have blocking : ∀ b, s1.blocking b = s.blocking b := fun b => by
    rw [same]
    rfl
  have array1 : s1.subArray = st.subArray := funext fun b => by
    rw [subArray_none absent1, subArray_none absent, ← opened.lCap, lCap_congr lcap]
  have ranked : Ranked s1.lcap s1.rep.mAct := by
    rw [lcap, rep]
    exact opened.lcap
  have low : 2 * st.rep.mAct < 2 * s1.rep.mAct := by
    rw [rep, opened.count]
    omega
  refine opened.closed tended nonneg (by rw [same]) ?_
  rw [subArray_assign ranked low absent1, array1, half_double]
  have base : s1.Correct (update st.subArray st.rep.mAct 0) := by
    rw [same]
    exact ⟨opened.base.deg, opened.base.degIn, opened.base.degOut⟩
  rcases fine with rfl | uncounted
  · exact base
  have labels : SameLabels st s1 := by
    have first := opened.sameLabels absent
    exact ⟨by rw [sDeg, first.sDeg], by rw [sDegInOut, first.sDegInOut],
      fun b => (blocking b).trans (first.blocking b)⟩
  have after := base.of_uncounted (fun counted => uncounted (labels.counted.1 counted)) lower
  rwa [half_double, update_idem] at after

/-- Without multiplicities, a lower bound above the default value allocates them. What
`NewSubgraph` reports for the new arc makes up for what has not been reported before. -/
theorem Opened.above (absent : st.sub = none)
    (less : st.lCap (2 * st.rep.mAct) < lower) (floor : st.NoFloor)
    (patched : st.Patched (2 * st.rep.mAct)) (same : s1 = { s with ucap := s1.ucap })
    (res : setSub (2 * st.rep.mAct) lower s1 = .ok () s2) :
    Tended { s2 with lcap := assign s2.lcap 0 s2.rep.mAct (2 * st.rep.mAct / 2) lower } ∧
      s2.sub ≠ none := by
  have absent1 : s1.sub = none := by
    rw [same, opened.sub, absent]
    rfl
  have count1 : s1.rep.mAct = st.rep.mAct + 1 := by
    rw [same]
    exact opened.count
  have m1 : s1.m = s1.rep.mAct := by
    rw [same]
    exact opened.wired.m
  have lCap1 : ∀ b, s1.lCap b = st.lCap b := fun b => by
    rw [← opened.lCap, same]
    rfl
  have labels1 : SameLabels st s1 := by
    rw [same]
    exact ⟨(opened.sameLabels absent).sDeg, (opened.sameLabels absent).sDegInOut, opened.blocking⟩
  have array1 : s1.subArray = st.subArray := funext fun b => by
    rw [subArray_none absent1, subArray_none absent, lCap1]
  have base1 : Correct { s1 with sub := some s1.subArray }
      (update st.subArray st.rep.mAct 0) := by
    rw [same]
    exact ⟨opened.base.deg, opened.base.degIn, opened.base.degOut⟩
  obtain ⟨s3, s4, alloc, adjust, rfl⟩ := of_setSub_alloc absent1 res
  have last := of_newSubgraph absent1 count1 (by omega) (fun b low pos => by
    rw [labels1.needsNodes]
    rw [lCap1] at pos
    exact floor b low pos) alloc
  have low1 : 2 * st.rep.mAct < 2 * s1.rep.mAct := by omega
  -- the labels after the allocation
  obtain ⟨after3, relabelled3⟩ : s3.Correct (update st.subArray st.rep.mAct
      (st.lCap (2 * st.rep.mAct))) ∧ Relabelled { s1 with sub := some s1.subArray } s3 := by
    rw [lCap1] at last
    by_cases pos : 0 < st.lCap (2 * st.rep.mAct)
    · rw [if_pos pos] at last
      have after := base1.adjustDegrees low1 (.inr (labels1.patched.2 patched)) last
      rw [half_double, update_self, zero_add, update_idem] at after
      exact ⟨after, adjustDegrees_relabelled last⟩
    · rw [if_neg pos] at last
      cases last
      have zero : st.lCap (2 * st.rep.mAct) = 0 :=
        le_antisymm (not_lt.1 pos) (tended.nonneg _)
      rw [zero]
      exact ⟨base1, .refl _⟩
  have val3 : s3.subOf (2 * st.rep.mAct) = st.lCap (2 * st.rep.mAct) := by
    have sub : s3.sub = some s1.subArray := by rw [relabelled3.same]
    rw [subOf, sub]
    change s1.subArray (2 * st.rep.mAct / 2) = _
    rw [array1, subArray_half, subOf, absent]
  have patched3 : s3.Patched (2 * st.rep.mAct) := by
    have labels3 : SameLabels s1 s3 := by
      refine ⟨relabelled3.sDeg, relabelled3.sDegInOut, fun b => ?_⟩
      rw [relabelled3.same]
      rfl
    exact labels3.patched.2 (labels1.patched.2 patched)
  have rep3 : s3.rep = s1.rep := by rw [relabelled3.same]
  have after4 := after3.adjustDegrees (by rw [rep3]; exact low1) (.inr patched3) adjust
  rw [val3, half_double, update_self, add_sub_cancel, update_idem] at after4
  have relabelled4 := relabelled3.trans (adjustDegrees_relabelled adjust)
  have sub4 : s4.sub = some st.subArray := by rw [relabelled4.same, array1]
  refine ⟨opened.closed tended ((tended.nonneg _).trans less.le) ?_ ?_, by simp [sub4]⟩
  · rw [relabelled4.same, same]
  · have array : subArray { s4 with
        sub := s4.sub.map fun sub => update sub (2 * st.rep.mAct / 2) lower
        lcap := assign s4.lcap 0 s4.rep.mAct (2 * st.rep.mAct / 2) lower } =
        update st.subArray st.rep.mAct lower := by
      rw [subArray, sub4, half_double]
      rfl
    rw [array]
    exact ⟨after4.deg, after4.degIn, after4.degOut⟩

theorem Opened.next (absent : st.sub = none)
    (notLess : ¬ st.lCap (2 * st.rep.mAct) < lower)
    (fine : lower = 0 ∨ ¬ st.Counted (2 * st.rep.mAct)) (same : s1 = { s with ucap := s1.ucap }) :
    InsertHarmless { s1 with
      lcap := assign s1.lcap 0 s1.rep.mAct (2 * st.rep.mAct / 2) lower } lower := by
  have rep : s1.rep = s.rep := by rw [same]
  have lcap : s1.lcap = s.lcap := by rw [same]
  have ranked : Ranked s1.lcap s1.rep.mAct := by
    rw [lcap, rep]
    exact opened.lcap
  have count : s1.rep.mAct = st.rep.mAct + 1 := by rw [rep, opened.count]
  have least : SparseGraph.lCap { s1 with
      lcap := assign s1.lcap 0 s1.rep.mAct (2 * st.rep.mAct / 2) lower } (2 * s1.rep.mAct) =
      st.lCap (2 * st.rep.mAct) := by
    rw [lCap_assign ranked (by omega), half_double, half_double, if_neg (by omega),
      lCap_congr lcap, opened.lCap]
    change valueOf st.lcap 0 (2 * s1.rep.mAct / 2) = valueOf st.lcap 0 (2 * st.rep.mAct / 2)
    rw [half_double, half_double]
    exact valueOf_beyond tended.lcap (by omega) le_rfl
  intro _
  refine ⟨fun less => absurd less ?_, fun _ => fine.imp_right fun uncounted counted => uncounted ?_⟩
  · rw [least]
    exact notLess
  · have labels : SameLabels st s1 := by
      rw [same]
      exact ⟨(opened.sameLabels absent).sDeg, (opened.sameLabels absent).sDegInOut, opened.blocking⟩
    have counted' : st.Counted (2 * s1.rep.mAct) := labels.counted.1 counted
    have undirected : st.Undirected (2 * s1.rep.mAct) ↔ st.Undirected (2 * st.rep.mAct) := by
      rw [Undirected, Undirected, blocking_even, blocking_even, rev_double, rev_double,
        blocking_beyond tended.wired.orientation (by omega) (le_refl st.rep.mAct)]
    rwa [Counted, undirected] at counted'

theorem Opened.finish
    (harmless : st.InsertHarmless lower) (upper : setUCap (2 * st.rep.mAct) cap s = .ok () s1)
    (least : setLCap (2 * st.rep.mAct) lower s1 = .ok () s2) :
    s2.Tended ∧ s2.InsertHarmless lower := by
  by_cases absent : st.sub = none
  swap
  · obtain ⟨tended2, present⟩ := opened.with_sub tended absent upper least
    exact ⟨tended2, fun none => absurd none present⟩
  obtain ⟨above, below⟩ := harmless absent
  obtain ⟨ucap, rfl⟩ := opened.upper absent upper
  obtain ⟨-, nonneg, s3, adapt, rfl⟩ := of_setLCap least
  have val : subOf { s with ucap := ucap } (2 * st.rep.mAct) = st.lCap (2 * st.rep.mAct) := by
    have absent' : SparseGraph.sub { s with ucap := ucap } = none := by
      rw [opened.sub, absent]
      rfl
    rw [subOf, absent', ← opened.lCap]
    rfl
  have size : |subOf { s with ucap := ucap } (2 * st.rep.mAct)| = st.lCap (2 * st.rep.mAct) := by
    rw [val, abs_of_nonneg (tended.nonneg _)]
  rw [size] at adapt
  by_cases less : st.lCap (2 * st.rep.mAct) < lower
  · rw [if_pos less] at adapt
    have raised : raisedTo { s with ucap := ucap } (2 * st.rep.mAct) lower = lower := by
      rw [raisedTo, val, if_pos (tended.nonneg _)]
    rw [raised] at adapt
    obtain ⟨floor, patched⟩ := above less
    obtain ⟨tended2, present⟩ := opened.above tended absent less floor patched rfl adapt
    exact ⟨tended2, fun none => absurd none present⟩
  · rw [if_neg less] at adapt
    cases adapt
    exact ⟨opened.below tended absent nonneg (below less) rfl,
      opened.next tended absent less (below less) rfl⟩

end

end

/-- **The insertion of an arc keeps the labels correct**, and the complementary arc can be inserted
next. -/
theorem Tended.sparseInsertArc (tended : st.Tended) (harmless : st.InsertHarmless lower)
    (res : SparseGraph.sparseInsertArc u v cap length lower { st with m := st.m + 1 } =
      .ok a st') : st'.Tended ∧ st'.InsertHarmless lower := by
  have sound : Sound { st with m := st.m + 1 }.rep := tended.wired.sound
  obtain ⟨rep, s1, s2, routed, upper, least, mark⟩ := of_sparseInsertArc sound res
  have opened : Opened st (prepared { st with m := st.m + 1 } rep length lower) lower :=
    tended.opened routed
  obtain ⟨after, next⟩ := opened.finish tended harmless upper least
  rw [of_markAdjacency mark]
  exact ⟨⟨⟨after.wired.n, after.wired.m, after.wired.sound, after.wired.orientation⟩, after.lcap,
    after.nonneg, ⟨after.correct.deg, after.correct.degIn, after.correct.degOut⟩⟩, next⟩

theorem Tended.insertArc (tended : st.Tended) (harmless : st.InsertHarmless lower)
    (res : SparseGraph.insertArc u v cap length lower st = .ok a st') : st'.Tended := by
  obtain ⟨highU, res⟩ := of_run_check res
  obtain ⟨highV, res⟩ := of_run_check res
  obtain ⟨_, s, first, second⟩ := of_run_bind res
  obtain ⟨tended1, harmless1⟩ : s.Tended ∧ s.InsertHarmless lower := by
    by_cases balanced : st.balanced = true
    · rw [if_pos balanced, run_bind_modify] at first
      obtain ⟨b, inserted⟩ := of_run_discard first
      exact tended.sparseInsertArc harmless inserted
    · rw [if_neg balanced] at first
      cases first
      exact ⟨tended, harmless⟩
  exact (tended1.sparseInsertArc harmless1 second).1

end Opened

/-! ## Cancelling an arc -/

theorem Correct.cancelled (gone : Cancelled st.rep a rep)
    (correct : st.Correct (update amount (a / 2) 0)) :
    Correct { st with rep := rep } amount := by
  have deadA : rep.startNode a = none := by
    rw [gone.startNode, update_of_ne (rev_ne a).symm, update_self]
  have deadRev : rep.startNode (rev a) = none := by rw [gone.startNode, update_self]
  have sums : ∀ select v, total rep select (update amount (a / 2) 0) v =
      total st.rep select (update amount (a / 2) 0) v := fun select v =>
    total_cancel gone (update_self ..)
  have without : Correct { st with rep := rep } (update amount (a / 2) 0) := by
    refine ⟨fun d present v low => ?_, fun d present v low => ?_, fun d present v low => ?_⟩
    · exact (correct.deg d present v low).trans (sums _ v).symm
    · exact (correct.degIn d present v low).trans (sums _ v).symm
    · exact (correct.degOut d present v low).trans (sums _ v).symm
  have after := without.of_dead (a := a) deadA deadRev (amount (a / 2))
  rwa [update_idem, update_eq_self] at after

/-- An arc can be cancelled without damage to the labels. Without multiplicities, the lower capacity
counts, but is not reported. Otherwise the entry that is reported is that of another edge. -/
def CancelHarmless (st : SparseGraph) (a : ℕ) : Prop :=
  (st.sub = none → st.lCap a = 0 ∨ ¬ st.Counted a) ∧
    ∀ sub, st.sub = some sub →
      (st.Counted a → sub a = -sub (a / 2)) ∧ (¬ st.Counted a → st.NeedsNodes a → sub a = 0)

theorem Counted.patched (counted : st.Counted a) : st.Patched a := by
  rcases counted with ⟨-, label⟩ | ⟨directed, -⟩
  · exact fun _ => .inl label
  · exact fun undirected => absurd undirected directed

/-- `CancelArc` reports the multiplicity by the second arc of the edge. -/
theorem odd_eq (a : ℕ) : 2 * (a / 2) + 1 = a ∨ 2 * (a / 2) + 1 = rev a := by
  rw [rev_eq]
  split_ifs <;> omega

theorem Tended.cancelArc (tended : st.Tended) (harmless : st.CancelHarmless a)
    (res : SparseGraph.cancelArc a st = .ok () st') : st'.Tended := by
  obtain ⟨u, v, rep, s1, s2, low, startA, startRev, gone, rfl, reported, rfl⟩ :=
    of_cancelArc_steps tended.wired.sound res
  -- the labels without the arc
  obtain ⟨relabelled, correct⟩ : Relabelled { st with
        adj := st.adj.map fun adj => update adj (u * st.n + v) none } s2 ∧
      s2.Correct (update st.subArray (a / 2) 0) := by
    have before : Correct { st with
        adj := st.adj.map fun adj => update adj (u * st.n + v) none } st.subArray :=
      ⟨tended.correct.deg, tended.correct.degIn, tended.correct.degOut⟩
    rcases reported with ⟨absent, rfl⟩ | ⟨sub, present, adjusts⟩
    · refine ⟨.refl _, ?_⟩
      rcases harmless.1 absent with zero | uncounted
      · have val : st.subArray (a / 2) = 0 := by rw [subArray_half, subOf, absent, zero]
        rw [← val, update_eq_self]
        exact before
      · exact before.of_uncounted (a := a) uncounted 0
    refine ⟨adjustDegrees_relabelled adjusts, ?_⟩
    obtain ⟨opposite, zero⟩ := harmless.2 sub present
    have half : (2 * (a / 2) + 1) / 2 = a / 2 := by omega
    have lowOdd : 2 * (a / 2) + 1 < 2 * st.rep.mAct := by omega
    have array : st.subArray = sub := by
      rw [subArray, present]
      rfl
    by_cases counted : st.Counted a
    · have countedOdd : st.Counted (2 * (a / 2) + 1) := by
        rcases odd_eq a with same | same
        · rwa [same]
        · rw [same]
          exact counted_rev.2 counted
      have after := before.adjustDegrees lowOdd (.inr countedOdd.patched) adjusts
      rwa [half, array, opposite counted, add_neg_cancel, ← array] at after
    have fine : sub a = 0 ∨ st.Patched (2 * (a / 2) + 1) := by
      by_cases needs : st.NeedsNodes a
      · exact .inl (zero counted needs)
      · obtain ⟨-, absent⟩ := not_or.1 needs
        exact .inr fun _ => .inr (not_not.1 absent)
    have after := before.adjustDegrees lowOdd fine adjusts
    have labels := adjustDegrees_relabelled adjusts
    have uncounted : ¬ s2.Counted a := by
      have same : SameLabels st s2 := by
        refine ⟨labels.sDeg, labels.sDegInOut, fun b => ?_⟩
        rw [labels.same]
        rfl
      exact fun counts => counted (same.counted.1 counts)
    have without := after.of_uncounted uncounted 0
    rwa [half, update_idem] at without
  have rep2 : s2.rep = st.rep := by rw [relabelled.same]
  have array2 : SparseGraph.subArray { s2 with rep := rep } = st.subArray := by
    rw [relabelled.same]
    rfl
  have after := Correct.cancelled (rep2 ▸ gone) correct
  have lcap2 : s2.lcap = st.lcap := by rw [relabelled.same]
  have orientation2 : s2.orientation = st.orientation := by rw [relabelled.same]
  refine ⟨⟨?_, ?_, gone.sound, ?_⟩, ?_, fun b => ?_, array2 ▸ after⟩
  · change s2.n = rep.nAct
    rw [relabelled.same, gone.size.nAct]
    exact tended.wired.n
  · change s2.m = rep.mAct
    rw [relabelled.same, gone.size.mAct]
    exact tended.wired.m
  · change Ranked s2.orientation rep.mAct
    rw [orientation2, gone.size.mAct]
    exact tended.wired.orientation
  · change Ranked s2.lcap rep.mAct
    rw [lcap2, gone.size.mAct]
    exact tended.lcap
  · exact (tended.nonneg b).trans_eq (lCap_congr lcap2 b).symm

/-! ## Releasing the multiplicities -/

/-- The multiplicities that are counted are these. -/
def Settled (st : SparseGraph) (least : ℕ → ℚ) : Prop :=
  ∀ b, b < 2 * st.rep.mAct → st.rep.startNode b ≠ none → st.Counted b → st.subOf b = least b

theorem Tended.settled {least : ℕ → ℚ} (tended : st.Tended) (settled : st.Settled least)
    (same : ∀ b, least (2 * b) = amount b) (halves : ∀ b, least b = least (2 * (b / 2))) :
    st.Correct amount := by
  refine tended.correct.of_counted fun b low live counted => ?_
  rw [subArray_half, settled b low live counted, ← same, ← halves]

theorem lCap_half (st : SparseGraph) (b : ℕ) : st.lCap b = st.lCap (2 * (b / 2)) := by
  rw [lCap, lCap, half_double]

theorem Tended.released (tended : st.Tended) (settled : st.Settled st.lCap)
    (ucap : Option (Attribute ℚ)) : Tended { st with sub := none, ucap := ucap } := by
  have correct : st.Correct fun b => st.lCap (2 * b) :=
    tended.settled settled (fun _ => rfl) (lCap_half st)
  exact tended.reset rfl ⟨correct.deg, correct.degIn, correct.degOut⟩

theorem Tended.setCLCap (tended : st.Tended) (settled : st.Settled fun _ => x)
    (res : SparseGraph.setCLCap x st = .ok () st') : st'.Tended := by
  obtain ⟨neg, res⟩ := of_run_check res
  cases res
  have val : ∀ b, SparseGraph.lCap { st with
      sub := none, lcap := if x ≠ 0 then some ⟨[], x⟩ else none } b = x := by
    intro b
    rw [SparseGraph.lCap]
    by_cases zero : x = 0
    · simp [zero]
    · simp [zero, Attribute.getValue]
  have correct : st.Correct fun _ => x := tended.settled settled (fun _ => rfl) fun _ => rfl
  refine ⟨⟨tended.wired.n, tended.wired.m, tended.wired.sound, tended.wired.orientation⟩,
    fun A present => ?_, fun b => ?_, ?_⟩
  · split_ifs at present
    cases present
    exact .inl rfl
  · rw [val]
    exact not_lt.1 neg
  · have array : SparseGraph.subArray { st with
        sub := none, lcap := if x ≠ 0 then some ⟨[], x⟩ else none } = fun _ => x :=
      funext fun b => (subArray_none rfl b).trans (val (2 * b))
    rw [array]
    exact ⟨correct.deg, correct.degIn, correct.degOut⟩

/-! ## Queries -/

section

variable (tended : st.Tended)
include tended

theorem Tended.deg (res : SparseGraph.deg v st = .ok x st') : st'.Tended := by
  obtain ⟨high, res⟩ := of_run_check res
  cases present : st.sDeg with
  | some d =>
    rw [present] at res
    cases res
    exact tended
  | none =>
    rw [present] at res
    cases res
    refine tended.reset rfl ⟨fun d val w low => ?_, tended.correct.degIn, tended.correct.degOut⟩
    cases val
    exact degree_eq_total tended.wired.sound (low.trans_eq tended.wired.n)

theorem Tended.initDegInOut (res : SparseGraph.initDegInOut st = .ok d st') : st'.Tended := by
  rw [SparseGraph.initDegInOut, run_bind_get] at res
  cases present : st.sDegInOut with
  | some d =>
    rw [present] at res
    cases res
    exact tended
  | none =>
    rw [present] at res
    cases res
    refine tended.reset rfl ⟨tended.correct.deg, fun d val w low => ?_, fun d val w low => ?_⟩
    · cases val
      exact degreeIn_eq_total tended.wired.sound (low.trans_eq tended.wired.n)
    · cases val
      exact degreeOut_eq_total tended.wired.sound (low.trans_eq tended.wired.n)

theorem Tended.degIn (res : SparseGraph.degIn v st = .ok x st') : st'.Tended := by
  obtain ⟨high, res⟩ := of_run_check res
  obtain ⟨d, s, computed, res⟩ := of_run_bind res
  cases res
  exact tended.initDegInOut computed

theorem Tended.degOut (res : SparseGraph.degOut v st = .ok x st') : st'.Tended := by
  obtain ⟨high, res⟩ := of_run_check res
  obtain ⟨d, s, computed, res⟩ := of_run_bind res
  cases res
  exact tended.initDegInOut computed

end

/-! ## Runs -/

/-- The calls that read or change a degree. -/
inductive DegreeOp where
  | insertArc (u v : ℕ) (cap length lower : ℚ)
  | cancelArc (a : ℕ)
  | setSub (a : ℕ) (multiplicity : ℚ)
  | setSubRelative (a : ℕ) (lambda : ℚ)
  | setUCap (a : ℕ) (ucap : ℚ)
  | setLCap (a : ℕ) (lcap : ℚ)
  | setCUCap (ucap : ℚ)
  | setCLCap (lcap : ℚ)
  | newSubgraph
  | releaseSubgraph
  | deg (v : ℕ)
  | degIn (v : ℕ)
  | degOut (v : ℕ)

/-- A call. -/
def DegreeOp.run : DegreeOp → GraphM Unit
  | .insertArc u v cap length lower => discard (SparseGraph.insertArc u v cap length lower)
  | .cancelArc a => SparseGraph.cancelArc a
  | .setSub a multiplicity => SparseGraph.setSub a multiplicity
  | .setSubRelative a lambda => SparseGraph.setSubRelative a lambda
  | .setUCap a ucap => SparseGraph.setUCap a ucap
  | .setLCap a lcap => SparseGraph.setLCap a lcap
  | .setCUCap ucap => SparseGraph.setCUCap ucap
  | .setCLCap lcap => SparseGraph.setCLCap lcap
  | .newSubgraph => SparseGraph.newSubgraph
  | .releaseSubgraph => SparseGraph.releaseSubgraph
  | .deg v => discard (SparseGraph.deg v)
  | .degIn v => discard (SparseGraph.degIn v)
  | .degOut v => discard (SparseGraph.degOut v)

/-- The change that a call makes to the degrees is reported to the labels that are present. -/
def DegreeOp.Harmless (st : SparseGraph) : DegreeOp → Prop
  | .insertArc _ _ _ _ lower => st.InsertHarmless lower
  | .cancelArc a => st.CancelHarmless a
  | .setSub a multiplicity => st.SubHarmless a multiplicity
  | .setSubRelative a lambda => (st.sub = none → st.NoFloor) ∧ (lambda = 0 ∨ st.Patched a)
  | .setUCap a ucap => ucap < st.subOf a → st.SubHarmless a ucap
  | .setLCap a lcap => st.LCapHarmless a lcap
  | .setCUCap _ => st.Settled st.lCap
  | .setCLCap lcap => st.Settled fun _ => lcap
  | .newSubgraph => st.NoFloor
  | .releaseSubgraph => st.Settled st.lCap
  | .deg _ => True
  | .degIn _ => True
  | .degOut _ => True

theorem Tended.step (tended : st.Tended) (op : DegreeOp) (harmless : op.Harmless st)
    (res : op.run st = .ok () st') : st'.Tended := by
  cases op with
  | insertArc u v cap length lower =>
    obtain ⟨a, inserted⟩ := of_run_discard res
    exact tended.insertArc harmless inserted
  | cancelArc a => exact tended.cancelArc harmless res
  | setSub a multiplicity => exact (tended.setSub harmless res).1
  | setSubRelative a lambda => exact tended.setSubRelative harmless.1 harmless.2 res
  | setUCap a ucap => exact (tended.setUCap harmless res).1
  | setLCap a lcap => exact (tended.setLCap harmless res).1
  | setCUCap ucap =>
    obtain ⟨neg, res⟩ := of_run_check res
    cases res
    exact tended.released harmless _
  | setCLCap lcap => exact tended.setCLCap harmless res
  | newSubgraph => exact tended.newSubgraph (fun _ => harmless) res
  | releaseSubgraph =>
    cases res
    exact tended.released harmless st.ucap
  | deg v =>
    obtain ⟨x, answered⟩ := of_run_discard res
    exact tended.deg answered
  | degIn v =>
    obtain ⟨x, answered⟩ := of_run_discard res
    exact tended.degIn answered
  | degOut v =>
    obtain ⟨x, answered⟩ := of_run_discard res
    exact tended.degOut answered

/-- The states of a run of harmless calls. -/
inductive Reported (start : SparseGraph) : SparseGraph → Prop
  | start : Reported start start
  | step {st st' : SparseGraph} (op : DegreeOp) (before : Reported start st)
      (harmless : op.Harmless st) (result : op.run st = .ok () st') : Reported start st'

theorem Reported.tended {start : SparseGraph} (tended : start.Tended) (run : Reported start st) :
    st.Tended := by
  induction run with
  | start => exact tended
  | step op _ harmless res ih => exact ih.step op harmless res

theorem new_tended (n maxNode maxArc : ℕ) : (new n maxNode maxArc none).Tended := by
  refine ⟨⟨rfl, rfl, new_sound n maxNode maxArc, fun A present => ?_⟩,
    fun A present => ?_, fun b => le_rfl, Unlabelled.correct ⟨rfl, rfl⟩ _⟩
  · cases present
  · cases present

end Goblin.SparseGraph
