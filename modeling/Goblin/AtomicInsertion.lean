import Goblin.GraphFrames

/-!
# Rejected insertions

An insertion that is rejected should leave the graph as it was. `InsertArc` and `InsertNode` of the
graph object increment `m` and `n` before they call the representation, which may raise in turn: if
the object is referenced, if the index range is exhausted, or if the bounds of the new arc are
negative or inconsistent. `InsertArcLabelAnchor` inserts the layout node before it finds that the
arc has an anchor already. `insertions_atomic` says that the insertions are atomic exactly
for those arguments which are rejected earlier, or not at all.
-/

set_option autoImplicit false

namespace Goblin.SparseGraph

open Library Keeps
open SparseState (rev)

variable {st s s' : SparseGraph} {k u v a : ℕ} {cap length lower : ℚ} {s2 : SparseGraph}
  {rep : SparseState}

/-! ## The bounds of a new arc -/

/-- The state in which `InsertArc` assigns the bounds of the new arc `k`. -/
structure Newest (s : SparseGraph) (k : ℕ) (lower : ℚ) : Prop where
  count : s.rep.mAct = k + 1
  m_ge : k + 1 ≤ s.m
  live : s.rep.startNode (2 * k) ≠ none ∧ s.rep.startNode (rev (2 * k)) ≠ none
  ucap : Ranked s.ucap (k + 1)
  lcap : Ranked s.lcap (k + 1)
  sub : ∀ sub, s.sub = some sub → sub k = lower

/-- The bounds that `SetUCap` and `SetLCap` accept for a new arc, which has the capacities `upper`
and `least` by default. If there are no multiplicities, then a lower bound above the default value
allocates them. -/
def AcceptsBounds (withSub allocatable : Prop) (upper least cap lower : ℚ) : Prop :=
  0 ≤ cap ∧ 0 ≤ lower ∧
    (withSub → lower ≤ cap ∨ infCap ≤ cap ∧ least ≤ cap ∧ (infCap ≤ upper ∨ cap ≤ upper)) ∧
    (¬ withSub → least ≤ cap ∧ (|least| < lower → (lower ≤ cap ∨ infCap ≤ cap) ∧ allocatable))

/-- The bounds that are accepted in the state itself. -/
def BoundsFit (s : SparseGraph) (k : ℕ) (cap lower : ℚ) : Prop :=
  AcceptsBounds (s.sub ≠ none) s.Allocatable (s.uCap (2 * k)) (s.lCap (2 * k)) cap lower

section

variable (newest : s.Newest k lower)
include newest

theorem Newest.adjustable : s.Adjustable (2 * k) := .inl newest.live

theorem Newest.low : 2 * k < 2 * s.rep.mAct := by
  rw [newest.count]
  omega

theorem Newest.m_le : s.rep.mAct ≤ s.m := by
  rw [newest.count]
  exact newest.m_ge

/-- With multiplicities, that of the new arc is its lower bound. -/
theorem Newest.subOf_some (present : s.sub ≠ none) : s.subOf (2 * k) = lower := by
  obtain ⟨sub, val⟩ := Option.ne_none_iff_exists'.1 present
  rw [subOf, val, half_double]
  exact newest.sub sub val

end

theorem subOf_none (absent : s.sub = none) : s.subOf a = s.lCap a := by rw [subOf, absent]

/-- The state after `SetUCap`. -/
structure AfterUCap (s s2 : SparseGraph) (k : ℕ) (cap : ℚ) : Prop where
  same : s2 = { s with
    ucap := assign s.ucap 1 (k + 1) k cap
    sub := s2.sub
    sDeg := s2.sDeg
    sDegInOut := s2.sDegInOut }
  value : s2.uCap (2 * k) = cap
  adjustable : ∀ b, s2.Adjustable b ↔ s.Adjustable b
  kept : s.subOf (2 * k) ≤ cap → s2.sub = s.sub
  changed : cap < s.subOf (2 * k) → s2.sub ≠ none ∧ s2.subOf (2 * k) = cap

section

variable (newest : s.Newest k lower)
include newest

theorem Newest.ucap_ok (nonneg : 0 ≤ cap)
    (settable : cap < s.subOf (2 * k) → s.Settable (2 * k) cap) :
    ∃ s2, setUCap (2 * k) cap s = .ok () s2 ∧ AfterUCap s s2 k cap := by
  obtain ⟨s1, res, adapts⟩ := setUCap_ok newest.low newest.m_le nonneg settable
  rw [newest.count, half_double] at res
  refine ⟨_, res, ?_, ?_, fun b => ?_, fun le => ?_, fun less => ?_⟩
  · rw [adapts.same]
  · have val := valueOf_assign 1 cap newest.ucap (Nat.lt_succ_self k) k
    rw [if_pos rfl] at val
    rw [uCap, half_double]
    exact val
  · rcases adapts with ⟨-, rfl⟩ | ⟨-, relabelled⟩
    · rfl
    · exact relabelled.adjustable
  · rcases adapts with ⟨-, rfl⟩ | ⟨less, -⟩
    · rfl
    · exact absurd less (not_lt.2 le)
  · rcases adapts with ⟨ge, -⟩ | ⟨-, relabelled⟩
    · exact absurd less ge
    · have sub : s1.sub = some (Function.update s.subArray (2 * k / 2) cap) := by
        rw [relabelled.same]
      refine ⟨by simp [sub], ?_⟩
      simp only [subOf, sub, Function.update_self]

/-- The state after `SetLCap`. -/
structure AfterBounds (s s' : SparseGraph) (k : ℕ) (cap lower : ℚ) : Prop where
  same : s' = { s with
    ucap := assign s.ucap 1 (k + 1) k cap
    lcap := assign s.lcap 0 (k + 1) k lower
    sub := s'.sub
    sDeg := s'.sDeg
    sDegInOut := s'.sDegInOut }
  sub : s'.sub = none ↔ s.sub = none ∧ ¬ |s.lCap (2 * k)| < lower

theorem AfterUCap.lcap_ok (after : AfterUCap s s2 k cap)
    (nonneg : 0 ≤ lower)
    (settable : |s2.subOf (2 * k)| < lower → s2.Settable (2 * k) (s2.raisedTo (2 * k) lower))
    (sub : (s2.sub = none ∧ ¬ |s2.subOf (2 * k)| < lower) ↔
      s.sub = none ∧ ¬ |s.lCap (2 * k)| < lower) :
    ∃ s', setLCap (2 * k) lower s2 = .ok () s' ∧ AfterBounds s s' k cap lower := by
  have rep : s2.rep = s.rep := by rw [after.same]
  have m : s2.m = s.m := by rw [after.same]
  have lcap : s2.lcap = s.lcap := by rw [after.same]
  obtain ⟨s1, res, adapts⟩ := setLCap_ok (by rw [rep]; exact newest.low)
    (by rw [rep, m]; exact newest.m_le) nonneg settable
  rw [rep, lcap, newest.count, half_double] at res
  refine ⟨_, res, ?_, ?_⟩
  · rw [adapts.same, after.same]
  · rw [← sub]
    rcases adapts with ⟨ge, rfl⟩ | ⟨less, relabelled⟩
    · simp [ge]
    · have present : s1.sub = some (Function.update s2.subArray (2 * k / 2)
          (s2.raisedTo (2 * k) lower)) := by
        rw [relabelled.same]
      simp [present, less]

theorem Newest.bounds_ok (fit : s.BoundsFit k cap lower) :
    ∃ s2 s', setUCap (2 * k) cap s = .ok () s2 ∧ setLCap (2 * k) lower s2 = .ok () s' ∧
      AfterBounds s s' k cap lower := by
  obtain ⟨nonnegCap, nonnegLower, withSub, withoutSub⟩ := fit
  by_cases absent : s.sub = none
  · obtain ⟨least, raised⟩ := withoutSub (not_not.2 absent)
    have val : s.subOf (2 * k) = s.lCap (2 * k) := subOf_none absent
    obtain ⟨s2, res, after⟩ := newest.ucap_ok nonnegCap fun less =>
      absurd less (not_lt.2 (val ▸ least))
    have sub2 : s2.sub = none := (after.kept (val ▸ least)).trans absent
    have lCap2 : ∀ b, s2.lCap b = s.lCap b := fun b => by rw [after.same]; rfl
    have val2 : s2.subOf (2 * k) = s.lCap (2 * k) := (subOf_none sub2).trans (lCap2 _)
    obtain ⟨s', res', bounds⟩ := after.lcap_ok newest nonnegLower (fun less => by
      rw [val2] at less
      obtain ⟨fits, allocatable⟩ := raised less
      refine ⟨?_, fun _ b low pos => ?_, (after.adjustable _).2 newest.adjustable⟩
      · have size : |s2.raisedTo (2 * k) lower| = lower := by
          rw [raisedTo]
          split_ifs
          · exact abs_of_nonneg nonnegLower
          · rw [abs_neg, abs_of_nonneg nonnegLower]
        rintro (⟨-, small⟩ | ⟨finite, large⟩)
        · rw [size, lCap2] at small
          exact absurd ((le_abs_self _).trans_lt less) (not_lt.2 small.le)
        · rw [after.value] at finite large
          rw [size] at large
          rcases fits with le | inf
          · exact absurd large (not_lt.2 le)
          · exact absurd finite (not_lt.2 inf)
      · have low' : b < s.rep.mAct := by
          have rep : s2.rep = s.rep := by rw [after.same]
          rwa [rep] at low
        rw [lCap2] at pos
        exact (after.adjustable _).2 (allocatable b low' pos)) (by rw [val2]; simp [sub2, absent])
    exact ⟨s2, s', res, res', bounds⟩
  · have val := newest.subOf_some absent
    have lCap2 : ∀ s2, AfterUCap s s2 k cap → ∀ b, s2.lCap b = s.lCap b := fun s2 after b => by
      rw [after.same]
      rfl
    by_cases le : lower ≤ cap
    · obtain ⟨s2, res, after⟩ := newest.ucap_ok nonnegCap fun less =>
        absurd less (not_lt.2 (val ▸ le))
      have sub2 : s2.sub = s.sub := after.kept (val ▸ le)
      have val2 : s2.subOf (2 * k) = lower := by
        obtain ⟨sub, present⟩ := Option.ne_none_iff_exists'.1 absent
        rw [subOf, sub2, present, half_double]
        exact newest.sub sub present
      have enough : ¬ |s2.subOf (2 * k)| < lower := by
        rw [val2, abs_of_nonneg nonnegLower]
        exact lt_irrefl lower
      obtain ⟨s', res', bounds⟩ := after.lcap_ok newest nonnegLower
        (fun less => absurd less enough) (by simp [sub2, absent])
      exact ⟨s2, s', res, res', bounds⟩
    · obtain ⟨inf, least, upper⟩ := (withSub absent).resolve_left le
      have less : cap < lower := not_le.1 le
      obtain ⟨s2, res, after⟩ := newest.ucap_ok nonnegCap fun _ => by
        refine ⟨?_, fun none => absurd none absent, newest.adjustable⟩
        rintro (⟨-, small⟩ | ⟨finite, large⟩)
        · rw [abs_of_nonneg nonnegCap] at small
          exact absurd small (not_lt.2 least)
        · rw [abs_of_nonneg nonnegCap] at large
          rcases upper with high | high
          · exact absurd finite (not_lt.2 high)
          · exact absurd large (not_lt.2 high)
      obtain ⟨sub2, val2⟩ := after.changed (val ▸ less)
      have raised : s2.raisedTo (2 * k) lower = lower := by
        rw [raisedTo, val2, if_pos nonnegCap]
      obtain ⟨s', res', bounds⟩ := after.lcap_ok newest nonnegLower (fun _ => by
        refine ⟨?_, fun none => absurd none sub2, (after.adjustable _).2 newest.adjustable⟩
        rw [raised]
        rintro (⟨-, small⟩ | ⟨finite, -⟩)
        · rw [abs_of_nonneg nonnegLower, lCap2 s2 after] at small
          linarith
        · rw [after.value] at finite
          exact absurd finite (not_lt.2 inf)) (by simp [sub2, absent])
      exact ⟨s2, s', res, res', bounds⟩

end

theorem abs_raisedTo (nonneg : 0 ≤ lower) : |s.raisedTo a lower| = lower := by
  rw [raisedTo]
  split_ifs
  · exact abs_of_nonneg nonneg
  · rw [abs_neg, abs_of_nonneg nonneg]

/-- If `SetUCap` and `SetLCap` find nothing to reject, then the bounds fit. -/
theorem Newest.fit (newest : s.Newest k lower) (after : AfterUCap s s2 k cap) (nonnegCap : 0 ≤ cap)
    (nonnegLower : 0 ≤ lower) (first : cap < s.subOf (2 * k) → s.Settable (2 * k) cap)
    (second : |s2.subOf (2 * k)| < lower → s2.Settable (2 * k) (s2.raisedTo (2 * k) lower)) :
    s.BoundsFit k cap lower := by
  have size : |s2.raisedTo (2 * k) lower| = lower := abs_raisedTo nonnegLower
  have lCap2 : ∀ b, s2.lCap b = s.lCap b := fun b => by rw [after.same]; rfl
  have rep2 : s2.rep = s.rep := by rw [after.same]
  -- the second call compares the lower bound with the new capacity
  have finite : |s2.subOf (2 * k)| < lower → lower ≤ cap ∨ infCap ≤ cap := by
    intro less
    by_contra out
    obtain ⟨large, notInf⟩ := not_or.1 out
    refine (second less).1 (.inr ?_)
    rw [after.value, size]
    exact ⟨not_le.1 notInf, not_le.1 large⟩
  refine ⟨nonnegCap, nonnegLower, fun present => ?_, fun absent => ?_⟩
  · have val := newest.subOf_some present
    by_cases le : lower ≤ cap
    · exact .inl le
    have less : cap < lower := not_le.1 le
    obtain ⟨inRange, -, -⟩ := first (val ▸ less)
    obtain ⟨notSmall, notLarge⟩ := not_or.1 inRange
    rw [val, abs_of_nonneg nonnegCap] at notSmall
    rw [abs_of_nonneg nonnegCap] at notLarge
    obtain ⟨-, val2⟩ := after.changed (val ▸ less)
    refine .inr ⟨?_, ?_, ?_⟩
    · have raised : |s2.subOf (2 * k)| < lower := by
        rw [val2, abs_of_nonneg nonnegCap]
        exact less
      exact (finite raised).resolve_left le
    · by_contra small
      exact notSmall ⟨nonnegCap.trans_lt less, not_le.1 small⟩
    · by_contra out
      obtain ⟨notInf, large⟩ := not_or.1 out
      exact notLarge ⟨not_le.1 notInf, not_le.1 large⟩
  · have absent : s.sub = none := not_not.1 absent
    have val : s.subOf (2 * k) = s.lCap (2 * k) := subOf_none absent
    have least : s.lCap (2 * k) ≤ cap := by
      by_contra small
      have less : cap < s.lCap (2 * k) := not_le.1 small
      refine (first (val ▸ less)).1 (.inl ?_)
      rw [val, abs_of_nonneg nonnegCap]
      exact ⟨nonnegCap.trans_lt less, less⟩
    have sub2 : s2.sub = none := (after.kept (val ▸ least)).trans absent
    have val2 : s2.subOf (2 * k) = s.lCap (2 * k) := (subOf_none sub2).trans (lCap2 _)
    refine ⟨least, fun raised => ?_⟩
    rw [← val2] at raised
    refine ⟨finite raised, fun b low pos => ?_⟩
    have allocatable := (second raised).2.1 sub2
    exact (after.adjustable _).1 (allocatable b (rep2 ▸ low) (by rw [lCap2]; exact pos))

theorem Newest.bounds_error (newest : s.Newest k lower) (unfit : ¬ s.BoundsFit k cap lower) :
    (∃ e s', setUCap (2 * k) cap s = .error e s') ∨
      ∃ s2, setUCap (2 * k) cap s = .ok () s2 ∧ ∃ e s', setLCap (2 * k) lower s2 = .error e s' := by
  by_cases refused : cap < 0 ∨ cap < s.subOf (2 * k) ∧ ¬ s.Settable (2 * k) cap
  · exact .inl (setUCap_error newest.m_le refused)
  obtain ⟨nonnegCap, settable⟩ := not_or.1 refused
  have nonnegCap : 0 ≤ cap := not_lt.1 nonnegCap
  have first : cap < s.subOf (2 * k) → s.Settable (2 * k) cap := fun less => by
    by_contra stuck
    exact settable ⟨less, stuck⟩
  obtain ⟨s2, res, after⟩ := newest.ucap_ok nonnegCap first
  have rep2 : s2.rep = s.rep := by rw [after.same]
  have m2 : s2.m = s.m := by rw [after.same]
  refine .inr ⟨s2, res, setLCap_error (by rw [rep2, m2]; exact newest.m_le) ?_⟩
  by_cases neg : lower < 0
  · exact .inl neg
  · refine .inr ?_
    by_contra accepted
    refine unfit (newest.fit after nonnegCap (not_lt.1 neg) first fun less => ?_)
    by_contra stuck
    exact accepted ⟨less, stuck⟩

/-! ## Inserting an arc into the representation -/

/-- What holds between two calls, also if the last one has been rejected. -/
structure Fits (st : SparseGraph) : Prop where
  n_ge : st.rep.nAct ≤ st.n
  m_ge : st.rep.mAct ≤ st.m
  sound : st.rep.Sound
  ucap : Ranked st.ucap st.rep.mAct
  lcap : Ranked st.lcap st.rep.mAct

/-- The arguments that `sparseRepresentation::InsertArc` accepts. -/
structure AcceptsArc (st : SparseGraph) (u v : ℕ) (cap lower : ℚ) : Prop where
  free : st.referenced = false
  lowU : u < st.rep.nAct
  lowV : v < st.rep.nAct
  room : 2 * st.rep.mMax ≤ st.rep.maxArc - 2
  bounds : AcceptsBounds (st.sub ≠ none) st.Allocatable (st.uCap (2 * st.rep.mAct))
    (st.lCap (2 * st.rep.mAct)) cap lower

theorem Routed.newest (routed : st.Routed u v rep) (fits : st.Fits) (counted : st.rep.mAct < st.m)
    (length lower : ℚ) :
    (st.prepared rep length lower).Newest st.rep.mAct lower where
  count := routed.count
  m_ge := counted
  live := ⟨by
    change rep.startNode _ ≠ none
    simp [routed.start_new], by
    change rep.startNode _ ≠ none
    simp [routed.start_rev]⟩
  ucap := fits.ucap.append 1
  lcap := fits.lcap.append 1
  sub := by
    intro sub val
    obtain ⟨old, -, rfl⟩ := Option.map_eq_some_iff.1 val
    exact Function.update_self ..

section

variable (rep : SparseState) (b : ℕ)

theorem prepared_uCap :
    (st.prepared rep length lower).uCap b = st.uCap b := valueOf_appendItems st.ucap 1 1 (b / 2)

theorem prepared_lCap :
    (st.prepared rep length lower).lCap b = st.lCap b := valueOf_appendItems st.lcap 0 1 (b / 2)

theorem prepared_blocking :
    (st.prepared rep length lower).blocking b = st.blocking b :=
  blocking_congr rfl (valueOf_appendItems st.orientation 0 1 (b / 2))

end

/-- Without multiplicities, the degree labels are still there. -/
theorem Routed.allocatable (routed : st.Routed u v rep) (absent : st.sub = none) :
    (st.prepared rep length lower).Allocatable ↔ st.Allocatable := by
  have labels : (st.prepared rep length lower).sDeg = st.sDeg ∧
      (st.prepared rep length lower).sDegInOut = st.sDegInOut := by
    have idle : ¬ (st.sub ≠ none ∧ 0 < lower) := fun both => both.1 absent
    exact ⟨if_neg idle, if_neg idle⟩
  have needs : ∀ b, (st.prepared rep length lower).NeedsNodes b ↔ st.NeedsNodes b := by
    intro b
    rw [NeedsNodes, NeedsNodes, Undirected, Undirected, labels.1, labels.2, prepared_blocking,
      prepared_blocking]
  have old : ∀ b, b < st.rep.mAct →
      ((st.prepared rep length lower).Adjustable (2 * b) ↔ st.Adjustable (2 * b)) := by
    intro b low
    have starts : (st.prepared rep length lower).rep.startNode (2 * b) = st.rep.startNode (2 * b) ∧
        (st.prepared rep length lower).rep.startNode (rev (2 * b)) =
          st.rep.startNode (rev (2 * b)) := by
      refine ⟨routed.start_old (by omega), routed.start_old ?_⟩
      rw [rev_double]
      omega
    rw [Adjustable, Adjustable, needs, starts.1, starts.2]
  constructor
  · intro allocatable b low pos
    refine (old b low).1 (allocatable b ?_ ?_)
    · change b < rep.mAct
      rw [routed.count]
      omega
    · rw [prepared_lCap]
      exact pos
  · intro allocatable b low pos
    rw [prepared_lCap] at pos
    change b < rep.mAct at low
    rw [routed.count] at low
    by_cases new : b = st.rep.mAct
    · subst new
      refine .inl ⟨?_, ?_⟩
      · change rep.startNode _ ≠ none
        simp [routed.start_new]
      · change rep.startNode _ ≠ none
        simp [routed.start_rev]
    · have older : b < st.rep.mAct := by omega
      exact (old b older).2 (allocatable b older pos)

theorem AcceptsBounds.congr {withSub withSub' allocatable allocatable' : Prop}
    {upper least : ℚ} (eq : withSub ↔ withSub') (alike : ¬ withSub → (allocatable ↔ allocatable'))
    (accepts : AcceptsBounds withSub allocatable upper least cap lower) :
    AcceptsBounds withSub' allocatable' upper least cap lower := by
  obtain ⟨nonnegCap, nonnegLower, first, second⟩ := accepts
  refine ⟨nonnegCap, nonnegLower, fun present => first (eq.2 present), fun absent => ?_⟩
  have absent : ¬ withSub := fun present => absent (eq.1 present)
  obtain ⟨least, raised⟩ := second absent
  exact ⟨least, fun less => ⟨(raised less).1, (alike absent).1 (raised less).2⟩⟩

theorem Routed.boundsFit (routed : st.Routed u v rep) :
    (st.prepared rep length lower).BoundsFit st.rep.mAct cap lower ↔
      AcceptsBounds (st.sub ≠ none) st.Allocatable (st.uCap (2 * st.rep.mAct))
        (st.lCap (2 * st.rep.mAct)) cap lower := by
  have sub : (st.prepared rep length lower).sub ≠ none ↔ st.sub ≠ none := by
    change st.sub.map _ ≠ none ↔ _
    simp
  have alike : st.sub = none → ((st.prepared rep length lower).Allocatable ↔ st.Allocatable) :=
    routed.allocatable
  rw [BoundsFit, prepared_uCap, prepared_lCap]
  constructor
  · exact .congr sub fun absent => alike (not_not.1 fun present => absent (sub.2 present))
  · exact .congr sub.symm fun absent => (alike (not_not.1 absent)).symm

theorem markAdjacency_ok (lowU : u < s.n) (lowV : v < s.n) (low : 2 * k < 2 * s.m)
    (startU : s.rep.startNode (2 * k) = some u) (startV : s.rep.startNode (rev (2 * k)) = some v) :
    ∃ adj, markAdjacency u v (some (2 * k)) s = .ok () { s with adj := adj } := by
  have forward : s.blocking (2 * k) = false := by simp [blocking]
  rw [markAdjacency, run_bind_get]
  cases s.adj with
  | none => exact ⟨s.adj, rfl⟩
  | some adj =>
    refine ⟨some (Function.update adj (u * s.n + v) (some (2 * k))), ?_⟩
    have matching : ¬ ((some (2 * k)).any fun a => s.rep.startNode a != some u ||
        s.rep.startNode (rev a) != some v || s.blocking a) = true := by
      simp [startU, startV, forward]
    have inRange : ¬ ((some (2 * k)).any fun a => 2 * s.m ≤ a) = true := by
      simpa using low
    simp only [if_neg (not_le.2 lowU), if_neg (not_le.2 lowV), if_neg matching, if_neg inRange]
    rfl

/-- The state after the insertion of an arc. -/
structure Inserted (st st' : SparseGraph) (lower : ℚ) : Prop where
  n : st'.n = st.n
  m : st'.m = st.m
  balanced : st'.balanced = st.balanced
  referenced : st'.referenced = st.referenced
  fits : st'.Fits
  size : SparseState.SameSize { st.rep with
    mAct := st.rep.mAct + 1
    mMax := if st.rep.mMax + 1 = st.rep.mAct + 1 then st.rep.mMax + 1 else st.rep.mMax } st'.rep
  uCap : st'.uCap (2 * st'.rep.mAct) = st.uCap (2 * st.rep.mAct)
  lCap : st'.lCap (2 * st'.rep.mAct) = st.lCap (2 * st.rep.mAct)
  sub : st'.sub = none ↔ st.sub = none ∧ ¬ |st.lCap (2 * st.rep.mAct)| < lower

section

variable (length : ℚ) (fits : st.Fits) (counted : st.rep.mAct < st.m)
include fits counted

theorem sparseInsertArc_ok
    (accepts : st.AcceptsArc u v cap lower) :
    ∃ st', sparseInsertArc u v cap length lower st = .ok st.rep.mAct st' ∧
      Inserted st st' lower := by
  obtain ⟨rep, res, sound, size, startNode⟩ :=
    SparseState.insertArc_spec fits.sound accepts.lowU accepts.lowV accepts.room
  have routed : st.Routed u v rep := ⟨res, sound, size, startNode⟩
  have newest := routed.newest fits counted length lower
  obtain ⟨s2, s', upper, least, after⟩ := newest.bounds_ok (routed.boundsFit.2 accepts.bounds)
  have rep' : s'.rep = rep := by
    rw [after.same]
    rfl
  have n' : s'.n = st.n := by
    rw [after.same]
    rfl
  have m' : s'.m = st.m := by
    rw [after.same]
    rfl
  obtain ⟨adj, marked⟩ := markAdjacency_ok (s := s') (u := u) (v := v) (k := st.rep.mAct)
    (n' ▸ accepts.lowU.trans_le fits.n_ge) (n' ▸ accepts.lowV.trans_le fits.n_ge) (by omega)
    (rep' ▸ routed.start_new) (rep' ▸ routed.start_rev)
  refine ⟨{ s' with adj := adj }, ?_, ?_⟩
  · rw [sparseInsertArc_prepared accepts.free res routed.count, run_bind_ok upper,
      run_bind_ok least, run_bind_ok marked]
    rfl
  · have count : s'.rep.mAct = st.rep.mAct + 1 := rep' ▸ routed.count
    have ucap : s'.ucap = assign (st.ucap.map fun B => B.appendItems 1) 1 (st.rep.mAct + 1)
        st.rep.mAct cap := by
      rw [after.same]
      rfl
    have lcap : s'.lcap = assign (st.lcap.map fun B => B.appendItems 1) 0 (st.rep.mAct + 1)
        st.rep.mAct lower := by
      rw [after.same]
      rfl
    have other : ∀ {α : Type} [DecidableEq α] (A : Option (Attribute α)) (default x : α),
        Ranked A st.rep.mAct →
        valueOf (assign (A.map fun B => B.appendItems 1) default (st.rep.mAct + 1) st.rep.mAct x)
          default (2 * (st.rep.mAct + 1) / 2) = valueOf A default (2 * st.rep.mAct / 2) := by
      intro α _ A default x ranked
      rw [half_double, half_double, valueOf_assign default x (ranked.append 1) (by omega),
        if_neg (by omega), valueOf_appendItems]
      exact valueOf_beyond ranked (by omega) le_rfl
    exact
      { n := n'
        m := m'
        balanced := by
          rw [after.same]
          rfl
        referenced := by
          rw [after.same]
          rfl
        fits :=
          { n_ge := by
              change s'.rep.nAct ≤ s'.n
              rw [rep', n', routed.size.nAct]
              exact fits.n_ge
            m_ge := by
              change s'.rep.mAct ≤ s'.m
              rw [count, m']
              exact counted
            sound := by
              change s'.rep.Sound
              rw [rep']
              exact sound
            ucap := by
              change Ranked s'.ucap s'.rep.mAct
              rw [ucap, count]
              exact (fits.ucap.append 1).assign
            lcap := by
              change Ranked s'.lcap s'.rep.mAct
              rw [lcap, count]
              exact (fits.lcap.append 1).assign }
        size := by
          change SparseState.SameSize _ s'.rep
          rw [rep']
          exact size
        uCap := by
          change valueOf s'.ucap 1 (2 * s'.rep.mAct / 2) = _
          rw [ucap, count]
          exact other st.ucap 1 cap fits.ucap
        lCap := by
          change valueOf s'.lcap 0 (2 * s'.rep.mAct / 2) = _
          rw [lcap, count]
          exact other st.lcap 0 lower fits.lcap
        sub := by
          change s'.sub = none ↔ _
          rw [after.sub, prepared_lCap]
          change st.sub.map _ = none ∧ _ ↔ _
          simp }

theorem sparseInsertArc_error
    (refused : ¬ st.AcceptsArc u v cap lower) :
    ∃ e st', sparseInsertArc u v cap length lower st = .error e st' := by
  by_cases free : st.referenced = false
  swap
  · have referenced : st.referenced = true := by simpa using free
    rw [sparseInsertArc, run_bind_get, if_pos referenced]
    exact ⟨_, _, rfl⟩
  by_cases route : u < st.rep.nAct ∧ v < st.rep.nAct ∧ 2 * st.rep.mMax ≤ st.rep.maxArc - 2
  · obtain ⟨lowU, lowV, room⟩ := route
    obtain ⟨rep, res, sound, size, startNode⟩ :=
      SparseState.insertArc_spec fits.sound lowU lowV room
    have routed : st.Routed u v rep := ⟨res, sound, size, startNode⟩
    rw [sparseInsertArc_prepared free res routed.count]
    rcases (routed.newest fits counted length lower).bounds_error fun fit =>
      refused ⟨free, lowU, lowV, room, routed.boundsFit.1 fit⟩ with
      ⟨e, s', failed⟩ | ⟨s2, upper, e, s', failed⟩
    · exact ⟨e, s', run_bind_error failed⟩
    · rw [run_bind_ok upper]
      exact ⟨e, s', run_bind_error failed⟩
  · obtain ⟨e, failed⟩ : ∃ e, st.rep.insertArc u v = .error e := by
      rw [SparseState.insertArc]
      split_ifs with highU highV full
      · exact ⟨_, rfl⟩
      · exact ⟨_, rfl⟩
      · exact ⟨_, rfl⟩
      · exact absurd ⟨not_le.1 highU, not_le.1 highV, not_lt.1 full⟩ route
    have stopped : onIncidences (fun rep => rep.insertArc u v) st = .error e st := by
      simp only [onIncidences, failed]
    have notReferenced : ¬ st.referenced = true := by simp [free]
    rw [sparseInsertArc, run_bind_get, if_neg notReferenced]
    exact ⟨e, st, run_bind_error stopped⟩

end

/-- The arcs of the graph object are not counted by the representation. -/
theorem keeps_m_sparseInsertArc : Keeps SparseGraph.m (sparseInsertArc u v cap length lower) := by
  have setSub := keeps_setSub (f := SparseGraph.m) fun _ _ _ _ => rfl
  refine get.bind fun st => .ite (.throw _) ?_
  refine (keeps_onIncidences fun _ _ => rfl).bind fun _ => ?_
  refine bind (.ite ?_ (.pure _)) fun _ => ?_
  · refine bind (.modify fun _ => rfl) fun _ => ?_
    exact .ite (.modify fun _ => rfl) (.pure _)
  refine bind (.modify fun _ => rfl) fun _ => ?_
  refine bind ?_ fun _ => bind ?_ fun _ => bind ?_ fun _ => bind ?_
    fun _ => .pure _
  · exact get.bind fun st => .ite (.throw _) (.modify fun _ => rfl)
  · refine get.bind fun st => .ite (.throw _) (.ite (.throw _) ?_)
    exact bind (.ite (setSub _ _) (.pure _)) fun _ => .modify fun _ => rfl
  · refine get.bind fun st => .ite (.throw _) (.ite (.throw _) ?_)
    exact bind (.ite (setSub _ _) (.pure _)) fun _ => .modify fun _ => rfl
  · exact keeps_markAdjacency (fun _ _ => rfl) u v _

/-! ## Atomic operations -/

section

variable (st : SparseGraph)

/-- The sizes of the attributes. -/
def attributeSizes : List (Option ℕ) × List (ArrayDim × ℕ) :=
  ([st.ucap.map Attribute.size, st.lcap.map Attribute.size, st.length.map Attribute.size,
    st.orientation.map Attribute.size, st.align.map Attribute.size, st.thread.map Attribute.size],
    st.others)

/-- The counters, the incidence lists and the sizes of the attributes are the same. -/
structure SameShape (st' : SparseGraph) : Prop where
  n : st'.n = st.n
  m : st'.m = st.m
  ni : st'.ni = st.ni
  nAct : st'.rep.nAct = st.rep.nAct
  mAct : st'.rep.mAct = st.rep.mAct
  lAct : st'.lAct = st.lAct
  startNode : st'.rep.startNode = st.rep.startNode
  first : st'.rep.first = st.rep.first
  right : st'.rep.right = st.rep.right
  left : st'.rep.left = st.rep.left
  sizes : st'.attributeSizes = st.attributeSizes

theorem SameShape.refl : SameShape st st :=
  ⟨rfl, rfl, rfl, rfl, rfl, rfl, rfl, rfl, rfl, rfl, rfl⟩

end

/-- A call that does not return leaves the shape of the graph alone. -/
def Atomic {α : Type} (x : GraphM α) (st : SparseGraph) : Prop :=
  ∀ e st', x st = .error e st' → SameShape st st'

section Atomic

variable {α : Type} {x : GraphM α}

theorem Atomic.of_ok {val : α} {st' : SparseGraph} (res : x st = .ok val st') :
    Atomic x st := by
  intro e st1 failed
  rw [res] at failed
  cases failed

theorem Atomic.of_error {e : Raise} (res : x st = .error e st) : Atomic x st := by
  intro e1 st1 failed
  rw [res] at failed
  cases failed
  exact .refl st

end Atomic

/-- Both arcs are accepted. In a balanced flow network, the complementary arc is inserted first,
and if its lower bound exceeds the default value, the multiplicities are allocated in between. -/
def AcceptsInsertion (st : SparseGraph) (u v : ℕ) (cap lower : ℚ) : Prop :=
  if st.balanced then
    st.AcceptsArc (rev v) (rev u) cap lower ∧ u < st.rep.nAct ∧ v < st.rep.nAct ∧
      2 * (if st.rep.mMax = st.rep.mAct then st.rep.mMax + 1 else st.rep.mMax) ≤
        st.rep.maxArc - 2 ∧
      AcceptsBounds (st.sub ≠ none ∨ |st.lCap (2 * st.rep.mAct)| < lower) st.Allocatable
        (st.uCap (2 * st.rep.mAct)) (st.lCap (2 * st.rep.mAct)) cap lower
  else st.AcceptsArc u v cap lower

theorem Fits.counted (fits : st.Fits) : Fits { st with m := st.m + 1 } :=
  ⟨fits.n_ge, Nat.le_succ_of_le fits.m_ge, fits.sound, fits.ucap, fits.lcap⟩

/-- What the second insertion accepts can be told before the first one. -/
theorem Inserted.accepts {st' : SparseGraph} (inserted : Inserted st st' lower) :
    AcceptsArc { st' with m := st'.m + 1 } u v cap lower ↔
      st.referenced = false ∧ u < st.rep.nAct ∧ v < st.rep.nAct ∧
      2 * (if st.rep.mMax = st.rep.mAct then st.rep.mMax + 1 else st.rep.mMax) ≤
        st.rep.maxArc - 2 ∧
      AcceptsBounds (st.sub ≠ none ∨ |st.lCap (2 * st.rep.mAct)| < lower) st.Allocatable
        (st.uCap (2 * st.rep.mAct)) (st.lCap (2 * st.rep.mAct)) cap lower := by
  have sub : st'.sub ≠ none ↔ st.sub ≠ none ∨ |st.lCap (2 * st.rep.mAct)| < lower := by
    rw [ne_eq, inserted.sub, not_and_or, not_not]
  have mMax : st'.rep.mMax =
      if st.rep.mMax = st.rep.mAct then st.rep.mMax + 1 else st.rep.mMax := by
    rw [inserted.size.mMax]
    simp only [Nat.succ_inj]
  -- the multiplicities are not allocated twice
  have bounds : AcceptsBounds (st'.sub ≠ none) st'.Allocatable (st'.uCap (2 * st'.rep.mAct))
        (st'.lCap (2 * st'.rep.mAct)) cap lower ↔
      AcceptsBounds (st.sub ≠ none ∨ |st.lCap (2 * st.rep.mAct)| < lower) st.Allocatable
        (st.uCap (2 * st.rep.mAct)) (st.lCap (2 * st.rep.mAct)) cap lower := by
    rw [inserted.uCap, inserted.lCap, sub, AcceptsBounds, AcceptsBounds]
    refine and_congr_right fun _ => and_congr_right fun _ => and_congr_right fun _ => ?_
    refine forall_congr' fun absent => and_congr_right fun _ => forall_congr' fun raised => ?_
    exact absurd (Or.inr raised) absent
  constructor
  · rintro ⟨free, lowU, lowV, room, fit⟩
    refine ⟨inserted.referenced ▸ free, inserted.size.nAct ▸ lowU, inserted.size.nAct ▸ lowV, ?_,
      bounds.1 fit⟩
    rw [← mMax]
    exact inserted.size.maxArc ▸ room
  · rintro ⟨free, lowU, lowV, room, fit⟩
    refine ⟨inserted.referenced.trans free, lowU.trans_eq inserted.size.nAct.symm,
      lowV.trans_eq inserted.size.nAct.symm, ?_, bounds.2 fit⟩
    rw [← mMax] at room
    exact room.trans_eq (by rw [inserted.size.maxArc])

section

variable (length : ℚ) (fits : st.Fits)
include fits

theorem insertArc_ok (lowU : u < st.n) (lowV : v < st.n)
    (accepts : st.AcceptsInsertion u v cap lower) :
    ∃ a st', insertArc u v cap length lower st = .ok a st' := by
  have counted : st.rep.mAct < st.m + 1 := Nat.lt_succ_of_le fits.m_ge
  rw [insertArc, run_bind_get, if_neg (not_le.2 lowU), if_neg (not_le.2 lowV)]
  rw [AcceptsInsertion] at accepts
  by_cases balanced : st.balanced = true
  · rw [if_pos balanced] at accepts ⊢
    obtain ⟨first, second⟩ := accepts
    have first' : AcceptsArc { st with m := st.m + 1 } (rev v) (rev u) cap lower :=
      ⟨first.free, first.lowU, first.lowV, first.room, first.bounds⟩
    obtain ⟨st1, res1, inserted⟩ := sparseInsertArc_ok length fits.counted counted first'
    have both := inserted.accepts.2 ⟨first.free, second⟩
    obtain ⟨st2, res2, -⟩ := sparseInsertArc_ok length inserted.fits.counted
      (Nat.lt_succ_of_le inserted.fits.m_ge) both
    refine ⟨st1.rep.mAct, st2, ?_⟩
    have complementary : (do
        modify fun st => { st with m := st.m + 1 }
        discard (sparseInsertArc (rev v) (rev u) cap length lower) : GraphM Unit) st =
          .ok () st1 := run_discard_ok res1
    rw [run_bind_ok complementary]
    exact res2
  · rw [if_neg balanced] at accepts ⊢
    have accepts' : AcceptsArc { st with m := st.m + 1 } u v cap lower :=
      ⟨accepts.free, accepts.lowU, accepts.lowV, accepts.room, accepts.bounds⟩
    obtain ⟨st1, res1, -⟩ := sparseInsertArc_ok length fits.counted counted accepts'
    exact ⟨_, st1, res1⟩

theorem insertArc_error (lowU : u < st.n) (lowV : v < st.n)
    (refused : ¬ st.AcceptsInsertion u v cap lower) :
    ∃ e st', insertArc u v cap length lower st = .error e st' ∧ st.m < st'.m := by
  have counted : st.rep.mAct < st.m + 1 := Nat.lt_succ_of_le fits.m_ge
  rw [insertArc, run_bind_get, if_neg (not_le.2 lowU), if_neg (not_le.2 lowV)]
  rw [AcceptsInsertion] at refused
  by_cases balanced : st.balanced = true
  · rw [if_pos balanced] at refused ⊢
    by_cases first : AcceptsArc { st with m := st.m + 1 } (rev v) (rev u) cap lower
    · obtain ⟨st1, res1, inserted⟩ := sparseInsertArc_ok length fits.counted counted first
      have complementary : (do
          modify fun st => { st with m := st.m + 1 }
          discard (sparseInsertArc (rev v) (rev u) cap length lower) : GraphM Unit) st =
            .ok () st1 := run_discard_ok res1
      have second : ¬ AcceptsArc { st1 with m := st1.m + 1 } u v cap lower := fun both =>
        refused ⟨⟨first.free, first.lowU, first.lowV, first.room, first.bounds⟩,
          (inserted.accepts.1 both).2⟩
      obtain ⟨e, st2, failed⟩ := sparseInsertArc_error length inserted.fits.counted
        (Nat.lt_succ_of_le inserted.fits.m_ge) second
      refine ⟨e, st2, ?_, ?_⟩
      · rw [run_bind_ok complementary]
        exact failed
      · have m1 : st1.m = st.m + 1 := inserted.m
        have m2 : st2.m = st1.m + 1 := keeps_m_sparseInsertArc.of_error failed
        omega
    · obtain ⟨e, st1, failed⟩ := sparseInsertArc_error length fits.counted counted first
      have complementary : (do
          modify fun st => { st with m := st.m + 1 }
          discard (sparseInsertArc (rev v) (rev u) cap length lower) : GraphM Unit) st =
            .error e st1 := run_discard_error failed
      refine ⟨e, st1, run_bind_error complementary, ?_⟩
      have m1 : st1.m = st.m + 1 := keeps_m_sparseInsertArc.of_error failed
      omega
  · rw [if_neg balanced] at refused ⊢
    have refused' : ¬ AcceptsArc { st with m := st.m + 1 } u v cap lower := fun accepts =>
      refused ⟨accepts.free, accepts.lowU, accepts.lowV, accepts.room, accepts.bounds⟩
    obtain ⟨e, st1, failed⟩ := sparseInsertArc_error length fits.counted counted refused'
    refine ⟨e, st1, failed, ?_⟩
    have m1 : st1.m = st.m + 1 := keeps_m_sparseInsertArc.of_error failed
    omega

theorem insertArc_atomic :
    Atomic (insertArc u v cap length lower) st ↔
      st.n ≤ u ∨ st.n ≤ v ∨ st.AcceptsInsertion u v cap lower := by
  by_cases highU : st.n ≤ u
  · refine iff_of_true ?_ (.inl highU)
    refine .of_error (e := .range "InsertArc" "No such node") ?_
    rw [insertArc, run_bind_get, if_pos highU]
    rfl
  by_cases highV : st.n ≤ v
  · refine iff_of_true ?_ (.inr (.inl highV))
    refine .of_error (e := .range "InsertArc" "No such node") ?_
    rw [insertArc, run_bind_get, if_neg highU, if_pos highV]
    rfl
  by_cases accepts : st.AcceptsInsertion u v cap lower
  · obtain ⟨a, st', res⟩ := insertArc_ok length fits (not_le.1 highU) (not_le.1 highV) accepts
    exact iff_of_true (.of_ok res) (.inr (.inr accepts))
  · obtain ⟨e, st', failed, more⟩ :=
      insertArc_error length fits (not_le.1 highU) (not_le.1 highV) accepts
    refine iff_of_false (fun atomic => ?_) (by simp [highU, highV, accepts])
    exact more.ne' (atomic e st' failed).m

end

/-! ## Inserting a node -/

theorem swapLast_ok (s : SparseGraph) : ∃ s',
    (if s.rep.nAct < s.lAct then swapNodes (s.rep.nAct - 1) (s.lAct - 1) else pure () :
      GraphM Unit) s = .ok () s' := by
  by_cases layout : s.rep.nAct < s.lAct
  · have first : ¬ s.lAct ≤ s.rep.nAct - 1 := by omega
    have last : ¬ s.lAct ≤ s.lAct - 1 := by omega
    rw [if_pos layout, swapNodes, run_bind_get, if_neg first, if_neg last]
    by_cases eq : s.rep.nAct - 1 = s.lAct - 1
    · rw [if_pos eq]
      exact ⟨_, rfl⟩
    · have out : s.rep.nAct ≤ s.rep.nAct - 1 ∨ s.rep.nAct ≤ s.lAct - 1 := by omega
      rw [if_neg eq, run_bind_modify, run_bind_modify, if_pos out]
      exact ⟨_, rfl⟩
  · rw [if_neg layout]
    exact ⟨s, rfl⟩

theorem insertNode_ok (free : st.referenced = false) (room : st.rep.nMax ≤ st.rep.maxNode - 1) :
    ∃ v st', insertNode st = .ok v st' := by
  obtain ⟨rep, res⟩ : ∃ rep, st.rep.insertNode = .ok rep := by
    rw [SparseState.insertNode, if_neg (not_lt.2 room)]
    dsimp only
    split_ifs
    · exact ⟨_, rfl⟩
    · exact ⟨_, rfl⟩
  have inserted : onIncidences (fun rep => rep.insertNode) { st with n := st.n + 1 } =
      .ok () { st with n := st.n + 1, rep := rep } := by
    simp only [onIncidences, res]
  have notReferenced : ¬ st.referenced = true := by simp [free]
  obtain ⟨v, st1, res1⟩ : ∃ v st1, sparseInsertNode { st with n := st.n + 1 } = .ok v st1 := by
    rw [sparseInsertNode, run_bind_get, if_neg notReferenced, run_bind_ok inserted,
      run_bind_modify, run_bind_modify, run_bind_get]
    obtain ⟨s', swapped⟩ := swapLast_ok _
    rw [run_bind_ok swapped]
    exact ⟨_, s', rfl⟩
  rw [insertNode, run_bind_modify, run_bind_ok res1, run_bind_modify]
  exact ⟨_, _, rfl⟩

theorem insertNode_error (refused : ¬ (st.referenced = false ∧ st.rep.nMax ≤ st.rep.maxNode - 1)) :
    ∃ e, insertNode st = .error e { st with n := st.n + 1 } := by
  have failed : ∃ e, sparseInsertNode { st with n := st.n + 1 } =
      .error e { st with n := st.n + 1 } := by
    rw [sparseInsertNode, run_bind_get]
    by_cases free : st.referenced = false
    · have full : st.rep.maxNode - 1 < st.rep.nMax := by
        by_contra room
        exact refused ⟨free, not_lt.1 room⟩
      have stopped : onIncidences (fun rep => rep.insertNode) { st with n := st.n + 1 } =
          .error (.rejected "InsertNode" "Number of nodes is out of range")
            { st with n := st.n + 1 } := by
        simp only [onIncidences, SparseState.insertNode, if_pos full]
      have notReferenced : ¬ st.referenced = true := by simp [free]
      rw [if_neg notReferenced]
      exact ⟨_, run_bind_error stopped⟩
    · have referenced : st.referenced = true := by simpa using free
      rw [if_pos referenced]
      exact ⟨_, rfl⟩
  obtain ⟨e, failed⟩ := failed
  refine ⟨e, ?_⟩
  rw [insertNode, run_bind_modify]
  exact run_bind_error failed

theorem insertNode_atomic :
    Atomic insertNode st ↔ st.referenced = false ∧ st.rep.nMax ≤ st.rep.maxNode - 1 := by
  by_cases accepts : st.referenced = false ∧ st.rep.nMax ≤ st.rep.maxNode - 1
  · obtain ⟨v, st', res⟩ := insertNode_ok accepts.1 accepts.2
    exact iff_of_true (.of_ok res) accepts
  · obtain ⟨e, failed⟩ := insertNode_error accepts
    refine iff_of_false (fun atomic => ?_) accepts
    exact Nat.succ_ne_self st.n (atomic e _ failed).n

/-! ## Inserting an anchor -/

/-- There is no anchor yet. If the attribute exists, it has not lost its entries. -/
def FreeAnchor (st : SparseGraph) (a : ℕ) : Prop :=
  st.align = none ∨ ∃ align, getArray st.align = some align ∧ align.getValue (a / 2) = none

/-- The state after `InsertLayoutPoint`. -/
def withPoint (st : SparseGraph) : SparseGraph :=
  { (appendItems { st with
        lAct := st.lAct + 1
        lMax := if st.lMax + 1 = st.lAct + 1 then st.lMax + 1 else st.lMax }
      .layoutNodes 1) with ni := st.ni + 1 }

theorem insertLayoutPoint_ok (room : st.lMax ≤ st.rep.maxNode - 1) :
    insertLayoutPoint st = .ok st.lAct st.withPoint := by
  rw [insertLayoutPoint, run_bind_get, if_neg (not_lt.2 room), run_bind_modify, run_bind_modify,
    run_bind_modify]
  rfl

section

variable (low : a < 2 * st.rep.mAct) (room : st.lMax ≤ st.rep.maxNode - 1)
include low room

theorem insertArcLabelAnchor_ok
    (free : st.FreeAnchor a) : ∃ st', insertArcLabelAnchor a st = .ok st.lAct st' := by
  have align : st.withPoint.align = st.align := rfl
  rw [insertArcLabelAnchor, run_bind_get, if_neg (not_le.2 low),
    run_bind_ok (insertLayoutPoint_ok room), run_bind_get, align]
  rcases free with absent | ⟨array, present, val⟩
  · rw [absent]
    exact ⟨_, rfl⟩
  · rw [present]
    simp only [val, ne_eq, not_true_eq_false, if_false]
    exact ⟨_, rfl⟩

/-- Otherwise the layout node has been inserted when it raises. -/
theorem insertArcLabelAnchor_error
    (occupied : ¬ st.FreeAnchor a) :
    ∃ e, insertArcLabelAnchor a st = .error e st.withPoint := by
  have align : st.withPoint.align = st.align := rfl
  rw [insertArcLabelAnchor, run_bind_get, if_neg (not_le.2 low),
    run_bind_ok (insertLayoutPoint_ok room), run_bind_get, align]
  obtain ⟨notNone, taken⟩ := not_or.1 occupied
  cases present : getArray st.align with
  | some array =>
    have val : array.getValue (a / 2) ≠ none := fun none => taken ⟨array, present, none⟩
    simp only [val, ne_eq, not_false_eq_true, if_true]
    exact ⟨_, rfl⟩
  | none =>
    obtain ⟨array, some⟩ := Option.ne_none_iff_exists'.1 notNone
    rw [some]
    exact ⟨_, rfl⟩

end

theorem insertArcLabelAnchor_atomic : Atomic (insertArcLabelAnchor a) st ↔
      2 * st.rep.mAct ≤ a ∨ st.rep.maxNode - 1 < st.lMax ∨ st.FreeAnchor a := by
  by_cases high : 2 * st.rep.mAct ≤ a
  · refine iff_of_true ?_ (.inl high)
    refine .of_error (e := .range "InsertArcLabelAnchor" "No such arc") ?_
    rw [insertArcLabelAnchor, run_bind_get, if_pos high]
    rfl
  by_cases full : st.rep.maxNode - 1 < st.lMax
  · refine iff_of_true ?_ (.inr (.inl full))
    refine .of_error (e := .rejected "InsertLayoutPoint" "Number of nodes is out of range") ?_
    have stopped : insertLayoutPoint st =
        .error (.rejected "InsertLayoutPoint" "Number of nodes is out of range") st := by
      rw [insertLayoutPoint, run_bind_get, if_pos full]
      rfl
    rw [insertArcLabelAnchor, run_bind_get, if_neg high]
    exact run_bind_error stopped
  by_cases free : st.FreeAnchor a
  · obtain ⟨st', res⟩ := insertArcLabelAnchor_ok (not_le.1 high) (not_lt.1 full) free
    exact iff_of_true (.of_ok res) (.inr (.inr free))
  · obtain ⟨e, failed⟩ := insertArcLabelAnchor_error (not_le.1 high) (not_lt.1 full) free
    refine iff_of_false (fun atomic => ?_) (by simp [high, full, free])
    exact Nat.succ_ne_self st.lAct (atomic e _ failed).lAct

/-- **The insertions are atomic exactly for the arguments that are accepted, or rejected before
anything has changed.** -/
theorem insertions_atomic (fits : st.Fits) :
    (∀ u v cap length lower, Atomic (insertArc u v cap length lower) st ↔
      st.n ≤ u ∨ st.n ≤ v ∨ st.AcceptsInsertion u v cap lower) ∧
    (Atomic insertNode st ↔ st.referenced = false ∧ st.rep.nMax ≤ st.rep.maxNode - 1) ∧
    ∀ a, Atomic (insertArcLabelAnchor a) st ↔
      2 * st.rep.mAct ≤ a ∨ st.rep.maxNode - 1 < st.lMax ∨ st.FreeAnchor a :=
  ⟨fun _ _ _ length _ => insertArc_atomic length fits, insertNode_atomic,
    fun _ => insertArcLabelAnchor_atomic⟩

theorem new_fits (n maxNode maxArc : ℕ) (orientation : Option (Attribute ℕ)) :
    (new n maxNode maxArc orientation).Fits where
  n_ge := le_rfl
  m_ge := le_rfl
  sound := SparseState.new_sound n maxNode maxArc
  ucap := by
    intro A val
    cases val
  lcap := by
    intro A val
    cases val

/-- In a graph with two nodes, an arc of capacity two is inserted, and a node. -/
theorem insertions_atomic_new :
    Atomic (insertArc 0 1 2 1 0) (new 2 100 100 none) ∧ Atomic insertNode (new 2 100 100 none) := by
  obtain ⟨arcs, nodes, -⟩ := insertions_atomic (new_fits 2 100 100 none)
  refine ⟨(arcs 0 1 2 1 0).2 (.inr (.inr ?_)), nodes.2 ⟨rfl, by decide⟩⟩
  refine ⟨rfl, by decide, by decide, by decide, ?_⟩
  refine ⟨by norm_num, le_rfl, fun present => absurd rfl present, fun _ => ⟨?_, ?_⟩⟩
  · change (0 : ℚ) ≤ 2
    norm_num
  · intro raised
    exact absurd raised (not_lt.2 (abs_nonneg _))

/-- An arc with a negative capacity is rejected, but it stays in the graph. -/
theorem insertArc_not_atomic : ∃ st', insertArc 0 1 (-1) 1 0 (new 2 100 100 none) =
      .error (.range "SetUCap" "Illegal assignment") st' ∧
    st'.m = 1 ∧ st'.rep.mAct = 1 ∧ ¬ SameShape (new 2 100 100 none) st' := by
  refine ⟨_, rfl, rfl, rfl, fun same => ?_⟩
  exact Nat.one_ne_zero same.m

end Goblin.SparseGraph
