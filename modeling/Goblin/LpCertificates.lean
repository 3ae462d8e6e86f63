import Goblin.LpSolver

/-!
# Certificates of the simplex methods

A basis whose dual values have the right signs bounds the cost from below, and a row of the tableau
with the right signs excludes that a violated bound is met. The ratio tests keep the signs in the
dual method, and the bounds in the primal method. So the states in which the methods stop carry a
certificate (`simplex_certificates`).

`PriceDual` passes over the last row of the common range of restrictions and variables. Hence the
solution that `SolveDual` ends with is optimal if and only if the last variable is within its
bounds.
-/

set_option autoImplicit false

namespace Goblin.LinearProgram

open Library List Finset

variable {l : ℕ} {L : LinearProgram l} {st st' : LpState l} {N : Matrix (Fin l) (Fin l) ℚ}
  {z : Fin l → ℚ} {outcome : LpState l ⊕ LpResult l}
  {i k ind j : ℕ} {test inverse x y : ℚ} {running : ℕ → Bool}

/-! ## Signs -/

theorem ProperBounds.of_le (bounds : L.ProperBounds) (low : i < L.kAct + l)
    (fixed : ¬ L.lBound i < L.uBound i) :
    L.lBound i = L.uBound i ∧ -infFloat < L.lBound i ∧ L.uBound i < infFloat := by
  obtain ⟨-, lowFinite, upFinite, -, ordered⟩ := bounds i low
  have eq := le_antisymm ordered (not_lt.1 fixed)
  exact ⟨eq, eq ▸ upFinite, eq ▸ lowFinite⟩

theorem Evaluated.beyond (E : Evaluated L st N) (bounds : L.ProperBounds) (feasible : L.Feasible z)
    (j : Fin l) : (¬ L.lBound (L.basicRow st j) < L.uBound (L.basicRow st j) →
      L.activity z (L.basicRow st j) = L.activity st.x (L.basicRow st j)) ∧
    (¬ L.IsFree (L.basicRow st j) → L.restrType st (L.basicRow st j) = .basicLB →
      L.activity st.x (L.basicRow st j) ≤ L.activity z (L.basicRow st j)) ∧
    (¬ L.IsFree (L.basicRow st j) → L.restrType st (L.basicRow st j) = .basicUB →
      L.activity z (L.basicRow st j) ≤ L.activity st.x (L.basicRow st j)) := by
  have low := E.basicRow_lt j
  obtain ⟨above, below⟩ := feasible _ low
  have atBounds := E.atBounds j
  rw [E.x j]
  unfold rightHandSide
  refine ⟨fun fixed => ?_, fun notFree lower => ?_, fun notFree upper => ?_⟩
  · obtain ⟨eq, lowFinite, upFinite⟩ := bounds.of_le low fixed
    have above := above.resolve_left (ne_of_gt lowFinite)
    have below := below.resolve_left (ne_of_lt upFinite)
    split_ifs
    · exact le_antisymm below (eq ▸ above)
    · exact le_antisymm (eq ▸ below) above
  · have finite := (atBounds notFree).1 lower
    rw [lower, if_neg (by simp), if_pos (lt_of_le_of_ne (bounds _ low).1 (Ne.symm finite))]
    exact above.resolve_left finite
  · have finite := (atBounds notFree).2 upper
    rw [upper, if_pos ⟨rfl, lt_of_le_of_ne (bounds _ low).2.2.2.1 finite⟩]
    exact below.resolve_left finite

/-- **Values with the right signs bound a combination of the basic rows.** -/
theorem HasSigns.combination_nonneg {w : Fin l → ℚ} (signs : L.HasSigns st w) (E : Evaluated L st N)
    (bounds : L.ProperBounds) (feasible : L.Feasible z) :
    ∑ j, w j * L.activity st.x (L.basicRow st j) ≤ ∑ j, w j * L.activity z (L.basicRow st j) := by
  refine Finset.sum_le_sum fun j _ => ?_
  obtain ⟨fixed, lower, upper⟩ := E.beyond bounds feasible j
  by_cases range : L.lBound (L.basicRow st j) < L.uBound (L.basicRow st j)
  · obtain ⟨zero, nonneg, nonpos⟩ := signs j range
    by_cases free : L.IsFree (L.basicRow st j)
    · rw [zero free, zero_mul, zero_mul]
    · rcases E.basic j with isLower | isUpper
      · exact mul_le_mul_of_nonneg_left (lower free isLower) (nonneg isLower)
      · exact mul_le_mul_of_nonpos_left (upper free isUpper) (nonpos isUpper)
  · rw [fixed range]

theorem DuallyFeasible.cost_le (dual : L.DuallyFeasible st) (E : Evaluated L st N)
    (bounds : L.ProperBounds) (feasible : L.Feasible z) : L.costOf st.x ≤ L.costOf z := by
  rw [E.costOf_eq st.x, E.costOf_eq z]
  exact (dual _ E.y).combination_nonneg E bounds feasible

theorem Evaluated.within_basic (E : Evaluated L st N) (bounds : L.ProperBounds) (j : Fin l) :
    L.Within (L.basicRow st j) (L.activity st.x (L.basicRow st j)) := by
  have low := E.basicRow_lt j
  obtain ⟨lowInf, -, -, upInf, ordered⟩ := bounds _ low
  by_cases free : L.IsFree (L.basicRow st j)
  · exact ⟨.inl free.1, .inl free.2⟩
  obtain ⟨atLower, atUpper⟩ := E.atBounds j free
  rw [E.x j]
  unfold rightHandSide
  rcases E.basic j with lower | upper
  · have finite := lt_of_le_of_ne lowInf (Ne.symm (atLower lower))
    rw [lower, if_neg (by simp), if_pos finite]
    exact ⟨.inr le_rfl, .inr ordered⟩
  · have finite := lt_of_le_of_ne upInf (atUpper upper)
    rw [upper, if_pos ⟨rfl, finite⟩]
    exact ⟨.inr ordered, .inr le_rfl⟩

theorem slack_nonneg_iff (low : i < L.kAct + l) (nonBasic : ¬ (L.restrType st i).Basic) :
    (0 ≤ L.slack st i .lower ↔ L.lBound i = -infFloat ∨ L.lBound i ≤ L.activity st.x i) ∧
      (0 ≤ L.slack st i .upper ↔ L.uBound i = infFloat ∨ L.activity st.x i ≤ L.uBound i) := by
  have notLower : L.restrType st i ≠ .basicLB := fun eq => nonBasic (.inl eq)
  have notUpper : L.restrType st i ≠ .basicUB := fun eq => nonBasic (.inr eq)
  have large : (0 : ℚ) ≤ infFloat := by norm_num [infFloat]
  unfold slack
  simp only [notLower, notUpper, false_and, or_false, if_false, valueAt_eq low]
  constructor
  · by_cases inf : L.lBound i = -infFloat
    · simp [inf, large]
    · simp [inf]
  · by_cases inf : L.uBound i = infFloat
    · simp [inf, large]
    · simp [inf]

/-! ## The dual ratio test -/

theorem qTestDualFrom_spec (k : ℕ) (candidates : List (Fin l)) (lambda : ℚ) (i : Option (Fin l)) :
    (∃ j ∈ candidates, L.FreePivot st k j ∧ L.qTestDualFrom st k candidates lambda i = some j) ∨
    (∀ j ∈ candidates, ¬ L.FreePivot st k j) ∧ ((L.qTestDualFrom st k candidates lambda i = i ∧
        ∀ j ∈ candidates, L.LimitsDual st k j → lambda ≤ L.dualRatio st k j) ∨
      ∃ i' ∈ candidates, L.qTestDualFrom st k candidates lambda i = some i' ∧
        L.LimitsDual st k i' ∧ L.dualRatio st k i' < lambda ∧
        ∀ j ∈ candidates, L.LimitsDual st k j → L.dualRatio st k i' ≤ L.dualRatio st k j) := by
  induction candidates generalizing lambda i with
  | nil => exact .inr ⟨by simp, .inl ⟨rfl, by simp⟩⟩
  | cons j rest ih =>
    rw [qTestDualFrom]
    by_cases free : L.FreePivot st k j
    · rw [if_pos free]
      exact .inl ⟨j, mem_cons_self, free, rfl⟩
    split_ifs with limits
    · rcases ih (L.dualRatio st k j) (some j) with ⟨j', later, isFree, found⟩ | ⟨none, found⟩
      · exact .inl ⟨j', mem_cons_of_mem j later, isFree, found⟩
      refine .inr ⟨List.forall_mem_cons.2 ⟨free, none⟩, .inr ?_⟩
      rcases found with ⟨kept, least⟩ | ⟨i', later, found, limits', less, least⟩
      · exact ⟨j, mem_cons_self, kept, limits.1, limits.2,
          List.forall_mem_cons.2 ⟨fun _ => le_rfl, least⟩⟩
      · exact ⟨i', mem_cons_of_mem j later, found, limits', less.trans limits.2,
          List.forall_mem_cons.2 ⟨fun _ => less.le, least⟩⟩
    · rcases ih lambda i with ⟨j', later, isFree, found⟩ | ⟨none, found⟩
      · exact .inl ⟨j', mem_cons_of_mem j later, isFree, found⟩
      refine .inr ⟨List.forall_mem_cons.2 ⟨free, none⟩, ?_⟩
      have first : L.LimitsDual st k j → lambda ≤ L.dualRatio st k j :=
        fun isLimit => not_lt.1 fun less => limits ⟨isLimit, less⟩
      rcases found with ⟨kept, least⟩ | ⟨i', later, found, limits', less, least⟩
      · exact .inl ⟨kept, List.forall_mem_cons.2 ⟨first, least⟩⟩
      · exact .inr ⟨i', mem_cons_of_mem j later, found, limits', less,
          List.forall_mem_cons.2 ⟨fun isLimit => (less.le.trans (first isLimit)), least⟩⟩

/-- **`QTestDual`** finds a free row, or the least ratio below `InfFloat`. -/
theorem qTestDual_spec (k : ℕ) : (∃ i, L.FreePivot st k i ∧ L.qTestDual st k = some i) ∨
    (∀ j, ¬ L.FreePivot st k j) ∧
      ((L.qTestDual st k = none ∧ ∀ j, L.LimitsDual st k j → infFloat ≤ L.dualRatio st k j) ∨
      ∃ i, L.qTestDual st k = some i ∧ L.LimitsDual st k i ∧
        ∀ j, L.LimitsDual st k j → L.dualRatio st k i ≤ L.dualRatio st k j) := by
  rcases qTestDualFrom_spec k (finRange l) infFloat none with
    ⟨i, -, free, found⟩ | ⟨none, found⟩
  · exact .inl ⟨i, free, found⟩
  · refine .inr ⟨fun j => none j (mem_finRange j), ?_⟩
    rcases found with ⟨kept, least⟩ | ⟨i, -, found, limits, -, least⟩
    · exact .inl ⟨kept, fun j => least j (mem_finRange j)⟩
    · exact .inr ⟨i, found, limits, fun j => least j (mem_finRange j)⟩

/-! ## The dual method -/

/-- The row that `PriceDual` has found is violated at the bound at which it enters. -/
structure Violated (L : LinearProgram l) (st : LpState l) (k : ℕ) : Prop where
  row_lt : k < L.kAct + l
  nonBasic : ¬ (L.restrType st k).Basic
  side : (L.slack st k .lower < 0 ∧ L.dualSign st k = 1 ∧ L.lBound k ≠ -infFloat ∧
      L.activity st.x k < L.lBound k) ∨
    (¬ L.slack st k .lower < 0 ∧ L.dualSign st k = -1 ∧ L.uBound k ≠ infFloat ∧
      L.uBound k < L.activity st.x k)

theorem priceDual_some (bounds : L.ProperBounds) (priced : L.priceDual st = some k) :
    Violated L st k := by
  have found := find?_some priced
  have low : k < L.kAct + l := by
    have mem := mem_of_find?_eq_some priced
    rw [List.mem_range] at mem
    omega
  obtain ⟨nonBasic, neg⟩ := of_decide_eq_true found
  obtain ⟨lower, upper⟩ := slack_nonneg_iff low nonBasic
  refine ⟨low, nonBasic, ?_⟩
  by_cases below : L.slack st k .lower < 0
  · have notAbove := mt lower.2 (not_le.2 below)
    rw [not_or, not_le] at notAbove
    obtain ⟨finite, less⟩ := notAbove
    have within : 0 ≤ L.slack st k .upper :=
      upper.2 (.inr (less.le.trans (bounds k low).2.2.2.2))
    exact .inl ⟨below, if_neg (not_lt.2 within), finite, less⟩
  · have above := neg.resolve_left below
    have notBelow := mt upper.2 (not_le.2 above)
    rw [not_or, not_le] at notBelow
    exact .inr ⟨below, if_pos above, notBelow.1, notBelow.2⟩

theorem priceDual_none (priced : L.priceDual st = none) (low : i < L.kAct + l - 1)
    (nonBasic : ¬ (L.restrType st i).Basic) : L.Within i (L.activity st.x i) := by
  have all := List.find?_eq_none.1 priced i (List.mem_range.2 low)
  rw [decide_eq_true_iff, not_and, not_or] at all
  obtain ⟨nonnegLower, nonnegUpper⟩ := all nonBasic
  obtain ⟨lower, upper⟩ := slack_nonneg_iff (by omega : i < L.kAct + l) nonBasic
  exact ⟨lower.1 (not_lt.1 nonnegLower), upper.1 (not_lt.1 nonnegUpper)⟩

section

variable (E : Evaluated L st N)
include E

theorem Evaluated.dualElt_eq (low : k < L.kAct + l) (j : Fin l) :
    L.dualElt st k j = L.dualSign st k * inBasis N (L.row k) j := by
  rw [dualElt, E.tableauAt_eq j low]

theorem Evaluated.dualRatio_eq (k : ℕ) (j : Fin l) :
    L.dualRatio st k j = st.y (L.basicRow st j) / L.dualElt st k j := by
  rw [dualRatio, E.yAt_eq j]

/-- **A violated row without a pivot element excludes all vectors.** -/
theorem Evaluated.infeasible (bounds : L.ProperBounds)
    (violated : Violated L st k) (noFree : ∀ j, ¬ L.FreePivot st k j)
    (noLimit : ∀ j, ¬ L.LimitsDual st k j) : ¬ ∃ z, L.Feasible z := by
  rintro ⟨z, feasible⟩
  have signs : L.HasSigns st fun j => -L.dualElt st k j := by
    intro j range
    have notFixed : ¬ L.uBound (L.basicRow st j) ≤ L.lBound (L.basicRow st j) := not_le.2 range
    refine ⟨fun free => ?_, fun lower => ?_, fun upper => ?_⟩
    · have zero : L.dualElt st k j = 0 := by
        by_contra other
        exact noFree j ⟨notFixed, free, abs_pos.2 other⟩
      dsimp only
      rw [zero, neg_zero]
    · have notPos : ¬ 0 < L.dualElt st k j := fun pos => noLimit j ⟨notFixed, .inl ⟨pos, lower⟩⟩
      linarith [not_lt.1 notPos]
    · have notNeg : ¬ L.dualElt st k j < 0 := fun neg => noLimit j ⟨notFixed, .inr ⟨neg, upper⟩⟩
      linarith [not_lt.1 notNeg]
  have bound := signs.combination_nonneg E bounds feasible
  have combination : ∀ x : Fin l → ℚ, ∑ j, -L.dualElt st k j * L.activity x (L.basicRow st j) =
      -L.dualSign st k * L.activity x k := by
    intro x
    rw [activity_eq E.inverse x k, mul_sum]
    refine sum_congr rfl fun j _ => ?_
    rw [E.dualElt_eq violated.row_lt j]
    ring
  simp only [combination] at bound
  obtain ⟨above, below⟩ := feasible k violated.row_lt
  rcases violated.side with ⟨-, sign, finite, less⟩ | ⟨-, sign, finite, less⟩
  · rw [sign] at bound
    linarith [above.resolve_left finite]
  · rw [sign] at bound
    linarith [below.resolve_left finite]

end

theorem DuallyFeasible.signs (dual : L.DuallyFeasible st) (E : Evaluated L st N) (j : Fin l)
    (range : L.lBound (L.basicRow st j) < L.uBound (L.basicRow st j)) :
    (L.IsFree (L.basicRow st j) → st.y (L.basicRow st j) = 0) ∧
      (L.restrType st (L.basicRow st j) = .basicLB → 0 ≤ st.y (L.basicRow st j)) ∧
      (L.restrType st (L.basicRow st j) = .basicUB → st.y (L.basicRow st j) ≤ 0) :=
  dual _ E.y j range

theorem DuallyFeasible.step (dual : L.DuallyFeasible st) (E : Evaluated L st N) {k : ℕ}
    {i : Fin l} (found : L.qTestDual st k = some i) :
    ∃ theta : ℚ, st.y (L.basicRow st i) = theta * L.dualElt st k i ∧ 0 ≤ theta ∧
      ∀ r, L.lBound (L.basicRow st r) < L.uBound (L.basicRow st r) →
        (L.IsFree (L.basicRow st r) → theta * L.dualElt st k r = 0) ∧
        (0 < L.dualElt st k r → L.restrType st (L.basicRow st r) = .basicLB →
          theta * L.dualElt st k r ≤ st.y (L.basicRow st r)) ∧
        (L.dualElt st k r < 0 → L.restrType st (L.basicRow st r) = .basicUB →
          st.y (L.basicRow st r) ≤ theta * L.dualElt st k r) := by
  rcases (qTestDual_spec k : (∃ i, L.FreePivot st k i ∧ _) ∨ _) with
    ⟨i', free, found'⟩ | ⟨noFree, ⟨none, -⟩ | ⟨i', found', limits, least⟩⟩
  · rw [found] at found'
    cases found'
    have zero := (dual.signs E i (not_le.1 free.1)).1 free.2.1
    refine ⟨0, by rw [zero, zero_mul], le_rfl, fun r range => ?_⟩
    obtain ⟨-, atLower, atUpper⟩ := dual.signs E r range
    simp only [zero_mul]
    exact ⟨fun _ => trivial, fun _ lower => atLower lower, fun _ upper => atUpper upper⟩
  · rw [found] at none
    cases none
  · rw [found] at found'
    cases found'
    simp only [E.dualRatio_eq] at least
    have notZero : L.dualElt st k i ≠ 0 := by
      rcases limits.2 with ⟨pos, -⟩ | ⟨neg, -⟩
      · exact ne_of_gt pos
      · exact ne_of_lt neg
    obtain ⟨-, atLower, atUpper⟩ := dual.signs E i (not_le.1 limits.1)
    refine ⟨st.y (L.basicRow st i) / L.dualElt st k i, (div_mul_cancel₀ _ notZero).symm, ?_,
      fun r range => ⟨fun free => ?_, fun pos lower => ?_, fun neg upper => ?_⟩⟩
    · rcases limits.2 with ⟨pos, lower⟩ | ⟨neg, upper⟩
      · exact div_nonneg (atLower lower) pos.le
      · exact div_nonneg_of_nonpos (atUpper upper) neg.le
    · have zero : L.dualElt st k r = 0 := by
        by_contra other
        exact noFree r ⟨not_le.2 range, free, abs_pos.2 other⟩
      rw [zero, mul_zero]
    · have ratio := least r ⟨not_le.2 range, .inl ⟨pos, lower⟩⟩
      rwa [le_div_iff₀ pos] at ratio
    · have ratio := least r ⟨not_le.2 range, .inr ⟨neg, upper⟩⟩
      rwa [le_div_iff_of_neg neg] at ratio

theorem DuallyFeasible.exchange (dual : L.DuallyFeasible st) (E : Evaluated L st N) {i : Fin l}
    (violated : Violated L st k) (found : L.qTestDual st k = some i)
    (X : Exchanged L st N i k (if L.slack st k .lower < 0 then .lower else .upper) st') :
    L.DuallyFeasible st' := by
  intro y solution j range
  have elts := E.dualElt_eq violated.row_lt
  have pivot := X.pivot
  obtain ⟨theta, step, nonneg, others⟩ := dual.step E found
  rw [X.dual_eq E solution j]
  by_cases here : j = i
  · subst here
    rw [X.basicRow_self] at range ⊢
    rw [if_pos rfl, X.type_self]
    -- the entering row gets the step length as its dual value
    have val : st.y (L.basicRow st j) / inBasis N (L.row k) j = L.dualSign st k * theta := by
      rw [div_eq_iff pivot, step, elts]
      ring
    rw [val]
    rcases violated.side with ⟨below, sign, finite, -⟩ | ⟨notBelow, sign, finite, -⟩
    · rw [if_pos below, sign]
      exact ⟨fun free => absurd free.1 finite, fun _ => by linarith, nofun⟩
    · rw [if_neg notBelow, sign]
      exact ⟨fun free => absurd free.2 finite, nofun, fun _ => by linarith⟩
  · rw [X.basicRow_other j here] at range ⊢
    rw [if_neg here, X.type_other j here]
    have val : st.y (L.basicRow st j) -
        inBasis N (L.row k) j * st.y (L.basicRow st i) / inBasis N (L.row k) i =
        st.y (L.basicRow st j) - theta * L.dualElt st k j := by
      rw [step, elts, elts]
      field_simp
    rw [val]
    obtain ⟨zero, atLower, atUpper⟩ := dual.signs E j range
    obtain ⟨free, lower, upper⟩ := others j range
    refine ⟨fun isFree => ?_, fun isLower => ?_, fun isUpper => ?_⟩
    · rw [zero isFree, free isFree, sub_zero]
    · by_cases pos : 0 < L.dualElt st k j
      · linarith [lower pos isLower]
      · have less := mul_nonpos_of_nonneg_of_nonpos nonneg (not_lt.1 pos)
        linarith [atLower isLower]
    · by_cases neg : L.dualElt st k j < 0
      · linarith [upper neg isUpper]
      · have more := mul_nonneg nonneg (not_lt.1 neg)
        linarith [atUpper isUpper]

theorem dualRound_cases (inv : SimplexInv L st) (bounds : L.ProperBounds)
    (result : L.dualRound st = .ok outcome) :
    ∃ st1 N, Evaluated L st1 N ∧ st1.toBasisArrays = st.toBasisArrays ∧
      ((L.priceDual st1 = none ∧ outcome = .inr ⟨L.objVal st1, .optimal, st1⟩) ∨
      (∃ k, L.priceDual st1 = some k ∧ L.qTestDual st1 k = none ∧
        outcome = .inr ⟨infFloat, .noPivot, st1⟩) ∨
      ∃ k i st2, L.priceDual st1 = some k ∧ L.qTestDual st1 k = some i ∧ outcome = .inl st2 ∧
        Exchanged L st1 N i k (if L.slack st1 k .lower < 0 then .lower else .upper) st2) := by
  unfold dualRound at result
  cases evaluated : L.evaluateBasis st with
  | error err =>
    rw [evaluated] at result
    cases result
  | ok st1 =>
    obtain ⟨N, E, arrays⟩ := evaluateBasis_spec inv bounds evaluated
    rw [evaluated] at result
    simp only [bind, Except.bind] at result
    refine ⟨st1, N, E, arrays, ?_⟩
    cases priced : L.priceDual st1 with
    | none =>
      rw [priced] at result
      cases result
      exact .inl ⟨rfl, rfl⟩
    | some k =>
      rw [priced] at result
      dsimp only at result
      cases tested : L.qTestDual st1 k with
      | none =>
        rw [tested] at result
        cases result
        exact .inr (.inl ⟨k, rfl, tested, rfl⟩)
      | some i =>
        rw [tested] at result
        dsimp only at result
        cases exchanged : L.pivotBy (fun pivotElt => pivotElt = 0) st1 (L.basicRow st1 i) k
            (if L.slack st1 k .lower < 0 then .lower else .upper) with
        | error err =>
          rw [exchanged] at result
          cases result
        | ok st2 =>
          rw [exchanged] at result
          cases result
          exact .inr (.inr ⟨k, i, st2, rfl, tested, rfl, E.exchanged exchanged⟩)

/-- **A round of `SolveDual` keeps the basis dually feasible.** -/
theorem dualRound_keeps (inv : SimplexInv L st) (bounds : L.ProperBounds)
    (dual : L.DuallyFeasible st) (step : L.dualRound st = .ok (.inl st')) :
    SimplexInv L st' ∧ L.DuallyFeasible st' := by
  obtain ⟨st1, N, E, arrays, ⟨-, other⟩ | ⟨k, -, -, other⟩ |
    ⟨k, i, st2, priced, tested, eq, X⟩⟩ := dualRound_cases inv bounds step
  · cases other
  · cases other
  · cases eq
    have violated := priceDual_some bounds priced
    refine ⟨X.simplexInv E (fun lower => ?_) fun upper => ?_,
      (dual.congr arrays).exchange E violated tested X⟩
    · rcases violated.side with ⟨-, -, finite, -⟩ | ⟨notBelow, -⟩
      · exact finite
      · rw [if_neg notBelow] at lower
        cases lower
    · rcases violated.side with ⟨below, -⟩ | ⟨-, -, finite, -⟩
      · rw [if_pos below] at upper
        cases upper
      · exact finite

/-! ## The primal ratio test -/

/-- A row that limits the step, and by how much. -/
def Limits (L : LinearProgram l) (st : LpState l) (ind k : ℕ) (test : ℚ) : Prop :=
  (k = ind ∧ L.ownStep st ind = some test) ∨ (k < L.kAct + l ∧ L.rowStep st ind k = some test)

theorem shorten_le (ind : ℕ) (lambda : ℚ) (j : ℕ) : L.shorten st ind lambda j ≤ lambda ∧
      (∀ test, L.rowStep st ind j = some test → L.shorten st ind lambda j ≤ test) ∧
      (L.shorten st ind lambda j = lambda ∨
        L.rowStep st ind j = some (L.shorten st ind lambda j)) := by
  unfold shorten
  cases L.rowStep st ind j with
  | none => exact ⟨le_rfl, nofun, .inl rfl⟩
  | some test =>
    dsimp only
    split_ifs with smaller
    · exact ⟨smaller.le, fun _ eq => (Option.some.inj eq).le, .inr rfl⟩
    · exact ⟨le_rfl, fun _ eq => Option.some.inj eq ▸ not_lt.1 smaller, .inl rfl⟩

/-- The first loop of `QTestPrimal` finds the least step. -/
theorem foldl_shorten (ind : ℕ) (rows : List ℕ) (start : ℚ) :
    rows.foldl (L.shorten st ind) start ≤ start ∧
      (∀ j ∈ rows, ∀ test, L.rowStep st ind j = some test →
        rows.foldl (L.shorten st ind) start ≤ test) ∧ (rows.foldl (L.shorten st ind) start = start ∨
        ∃ j ∈ rows, L.rowStep st ind j = some (rows.foldl (L.shorten st ind) start)) := by
  induction rows generalizing start with
  | nil => exact ⟨le_rfl, by simp, .inl rfl⟩
  | cons j rest ih =>
    rw [List.foldl_cons]
    obtain ⟨below, least, source⟩ := ih (L.shorten st ind start j)
    obtain ⟨below', least', source'⟩ := (shorten_le ind start j :
      L.shorten st ind start j ≤ start ∧ _)
    refine ⟨below.trans below', List.forall_mem_cons.2
      ⟨fun test step => below.trans (least' test step), least⟩, ?_⟩
    rcases source with eq | ⟨k, later, step⟩
    · rw [eq]
      exact source'.imp id fun step => ⟨j, mem_cons_self, step⟩
    · exact .inr ⟨k, mem_cons_of_mem j later, step⟩

/-- The row that the second loop has found limits the step to at most `lambda`. -/
def Found (L : LinearProgram l) (st : LpState l) (ind : ℕ) (lambda : ℚ)
    (found : Option ℕ × ℚ) : Prop :=
  found = (none, 0) ∨ ∃ k test, found.1 = some k ∧ L.Limits st ind k test ∧ test ≤ lambda

theorem testOwn_found (ind : ℕ) (lambda : ℚ) : L.Found st ind lambda (L.testOwn st ind lambda) ∧
      ((L.testOwn st ind lambda).1 = none →
        ∀ test, L.ownStep st ind = some test → ¬ test ≤ lambda) := by
  unfold testOwn
  cases own : L.ownStep st ind with
  | none => exact ⟨.inl rfl, fun _ => nofun⟩
  | some test =>
    dsimp only
    split_ifs with within
    · exact ⟨.inr ⟨ind, test, rfl, .inl ⟨rfl, own⟩, within⟩, nofun⟩
    · exact ⟨.inl rfl, fun _ test' eq => Option.some.inj eq ▸ within⟩

/-- A pivot element that has not been passed over is not zero. -/
theorem rowStep_ne_zero (step : L.rowStep st ind j = some test) : L.primalElt st ind j ≠ 0 := by
  intro zero
  unfold rowStep at step
  rw [zero] at step
  simp at step

/-- The second loop of `QTestPrimal` finds a row that limits the step to at most `lambda`. -/
theorem foldl_testRow {lambda : ℚ} (rows : List ℕ) (low : ∀ j ∈ rows, j < L.kAct + l)
    {found : Option ℕ × ℚ} (start : L.Found st ind lambda found) :
    L.Found st ind lambda (rows.foldl (L.testRow st ind lambda) found) ∧
      ((rows.foldl (L.testRow st ind lambda) found).1 = none → found.1 = none ∧
        ∀ j ∈ rows, ∀ test, L.rowStep st ind j = some test → ¬ test ≤ lambda) := by
  induction rows generalizing found with
  | nil => exact ⟨start, fun none => ⟨none, by simp⟩⟩
  | cons j rest ih =>
    rw [List.forall_mem_cons] at low
    rw [List.foldl_cons]
    cases step : L.rowStep st ind j with
    | none =>
      have eq : L.testRow st ind lambda found j = found := by
        unfold testRow
        rw [step]
      rw [eq]
      obtain ⟨good, missing⟩ := ih low.2 start
      exact ⟨good, fun none => ⟨(missing none).1, List.forall_mem_cons.2
        ⟨fun test some => (nomatch step.symm.trans some), (missing none).2⟩⟩⟩
    | some test =>
      by_cases better : found.2 < |L.primalElt st ind j| ∧ test ≤ lambda
      · have eq : L.testRow st ind lambda found j = (some j, |L.primalElt st ind j|) := by
          unfold testRow
          rw [step]
          exact if_pos better
        rw [eq]
        obtain ⟨good, missing⟩ := ih low.2 (.inr ⟨j, test, rfl, .inr ⟨low.1, step⟩, better.2⟩ :
            L.Found st ind lambda (some j, |L.primalElt st ind j|))
        exact ⟨good, fun none => nomatch (missing none).1⟩
      · have eq : L.testRow st ind lambda found j = found := by
          unfold testRow
          rw [step]
          exact if_neg better
        rw [eq]
        obtain ⟨good, missing⟩ := ih low.2 start
        refine ⟨good, fun none => ⟨(missing none).1, List.forall_mem_cons.2
          ⟨fun test' some within => ?_, (missing none).2⟩⟩⟩
        rw [step] at some
        cases some
        -- nothing has been found, so that any pivot element is large enough
        have empty : found.2 = 0 := by
          rcases start with rfl | ⟨k, test', some, -⟩
          · rfl
          · rw [(missing none).1] at some
            cases some
        exact better ⟨empty ▸ abs_pos.2 (rowStep_ne_zero step), within⟩

/-- **`QTestPrimal`** finds a row with the least step, unless all steps are beyond `InfFloat`. -/
theorem qTestPrimal_least (i : Fin l) :
    (∀ k, L.qTestPrimal st i = some k → ∃ test, L.Limits st (L.basicRow st i) k test ∧
      ∀ k' test', L.Limits st (L.basicRow st i) k' test' → test ≤ test') ∧
    (L.qTestPrimal st i = none → L.ownStep st (L.basicRow st i) = none ∧
      ∀ k test, L.Limits st (L.basicRow st i) k test → infFloat < test) := by
  generalize row : L.basicRow st i = ind
  obtain ⟨low, least, source⟩ : L.stepLength st ind ≤ (L.ownStep st ind).getD infFloat ∧
      (∀ j ∈ List.range (L.kAct + l), ∀ test, L.rowStep st ind j = some test →
        L.stepLength st ind ≤ test) ∧
      (L.stepLength st ind = (L.ownStep st ind).getD infFloat ∨
        ∃ j ∈ List.range (L.kAct + l), L.rowStep st ind j = some (L.stepLength st ind)) :=
    foldl_shorten ind _ _
  obtain ⟨own, ownMissing⟩ :
      L.Found st ind (L.stepLength st ind) (L.testOwn st ind (L.stepLength st ind)) ∧ _ :=
    testOwn_found ind _
  obtain ⟨good, missing⟩ := foldl_testRow (List.range (L.kAct + l))
    (fun j mem => List.mem_range.1 mem) own
  have val : L.qTestPrimal st i = ((List.range (L.kAct + l)).foldl
      (L.testRow st ind (L.stepLength st ind)) (L.testOwn st ind (L.stepLength st ind))).1 := by
    unfold qTestPrimal
    rw [row]
  rw [val]
  have bound : ∀ k test, L.Limits st ind k test → L.stepLength st ind ≤ test := by
    rintro k test (⟨-, ownStep⟩ | ⟨inside, step⟩)
    · rwa [ownStep, Option.getD_some] at low
    · exact least k (List.mem_range.2 inside) test step
  refine ⟨fun k some => ?_, fun none => ?_⟩
  · rcases good with empty | ⟨k', test, some', limits, within⟩
    · rw [empty] at some
      cases some
    · rw [some] at some'
      cases some'
      exact ⟨test, limits, fun k' test' limits' => within.trans (bound k' test' limits')⟩
  · have absent : ∀ k test, L.Limits st ind k test → ¬ test ≤ L.stepLength st ind := by
      rintro k test (⟨-, ownStep⟩ | ⟨inside, step⟩)
      · exact ownMissing (missing none).1 test ownStep
      · exact (missing none).2 k (List.mem_range.2 inside) test step
    have initial := source.resolve_right fun ⟨j, inside, step⟩ =>
      absent j _ (.inr ⟨List.mem_range.1 inside, step⟩) le_rfl
    have ownNone : L.ownStep st ind = Option.none := by
      cases ownStep : L.ownStep st ind with
      | none => rfl
      | some test =>
        rw [ownStep, Option.getD_some] at initial
        exact absurd initial.ge (absent ind test (.inl ⟨rfl, ownStep⟩))
    refine ⟨ownNone, fun k test limits => ?_⟩
    rw [ownNone, Option.getD_none] at initial
    rw [← initial]
    exact not_le.1 (absent k test limits)

/-! ## The primal method -/

/-- The basic row that `PricePrimal` has found can be released from its bound. -/
structure Priced (L : LinearProgram l) (st : LpState l) (i : Fin l) : Prop where
  range : L.lBound (L.basicRow st i) < L.uBound (L.basicRow st i)
  side : (L.primalSign st (L.basicRow st i) = 1 ∧ 0 < st.y (L.basicRow st i) ∧
      (L.IsFree (L.basicRow st i) ∨ L.restrType st (L.basicRow st i) = .basicUB)) ∨
    (L.primalSign st (L.basicRow st i) = -1 ∧ st.y (L.basicRow st i) < 0 ∧
      (L.IsFree (L.basicRow st i) ∨ L.restrType st (L.basicRow st i) = .basicLB))

section

variable (E : Evaluated L st N)
include E

theorem Evaluated.primalSign_eq (i : Fin l) :
    L.primalSign st (L.basicRow st i) = if st.y (L.basicRow st i) < 0 then -1 else 1 := by
  have total : L.yAt st (L.basicRow st i) .lower + L.yAt st (L.basicRow st i) .upper =
      st.y (L.basicRow st i) := by
    unfold yAt
    rcases E.basic i with lower | upper
    · simp [lower, LowerUpper.toRestrType]
    · simp [upper, LowerUpper.toRestrType]
  rw [primalSign, total]

theorem pricePrimal_some {i : Fin l} (priced : L.pricePrimal st = some i) : Priced L st i := by
  have matched := find?_some priced
  have found : L.PricesPrimal st i := of_decide_eq_true matched
  unfold PricesPrimal at found
  dsimp only at found
  rw [E.yAt_eq i] at found
  obtain ⟨notFixed, wrong⟩ := found
  refine ⟨not_le.1 notFixed, ?_⟩
  rw [E.primalSign_eq i]
  rcases wrong with ⟨free, other⟩ | ⟨lower, neg⟩ | ⟨upper, pos⟩
  · rcases lt_or_gt_of_ne (abs_pos.1 other) with neg | pos
    · exact .inr ⟨if_pos neg, neg, .inl free⟩
    · exact .inl ⟨if_neg (not_lt.2 (le_of_lt pos)), pos, .inl free⟩
  · exact .inr ⟨if_pos neg, neg, .inr lower⟩
  · exact .inl ⟨if_neg (not_lt.2 pos.le), pos, .inr upper⟩

/-- If no basic row is found, then the dual values have the right signs. -/
theorem pricePrimal_none (priced : L.pricePrimal st = none) : L.DuallyFeasible st := by
  intro y solution j range
  have right := List.find?_eq_none.1 priced j (mem_finRange j)
  rw [decide_eq_true_iff] at right
  unfold PricesPrimal at right
  dsimp only at right
  rw [E.yAt_eq j, dualSolution_eq E.inverse E.y j, ← dualSolution_eq E.inverse solution j] at right
  have correct := fun wrong => right ⟨not_le.2 range, wrong⟩
  refine ⟨fun free => ?_, fun lower => ?_, fun upper => ?_⟩
  · by_contra other
    exact correct (.inl ⟨free, abs_pos.2 other⟩)
  · exact not_lt.1 fun neg => correct (.inr (.inl ⟨lower, neg⟩))
  · exact not_lt.1 fun pos => correct (.inr (.inr ⟨upper, pos⟩))

/-- The vector after a step of length `t`, when the basic row is released. -/
def moved (L : LinearProgram l) (st : LpState l) (N : Matrix (Fin l) (Fin l) ℚ) (i : Fin l)
    (t : ℚ) : Fin l → ℚ := fun c =>
  st.x c - L.primalSign st (L.basicRow st i) * t * N c i

section

variable (i : Fin l)

theorem Evaluated.primalElt_eq
    (low : j < L.kAct + l) : L.primalElt st (L.basicRow st i) j =
      -L.primalSign st (L.basicRow st i) * inBasis N (L.row j) i := by
  rw [primalElt, E.tableauAt_eq i low]

theorem Evaluated.primalElt_basicRow (r : Fin l) :
    L.primalElt st (L.basicRow st i) (L.basicRow st r) =
      if r = i then -L.primalSign st (L.basicRow st i) else 0 := by
  rw [E.primalElt_eq i (E.basicRow_lt r), ← basisMatrix_row E.inverse r, inBasis_row E.inverse]
  split_ifs <;> ring

theorem Evaluated.activity_moved (t : ℚ)
    (low : j < L.kAct + l) : L.activity (L.moved st N i t) j =
      L.activity st.x j + t * L.primalElt st (L.basicRow st i) j := by
  rw [E.primalElt_eq i low]
  unfold activity moved inBasis
  rw [mul_sum, mul_sum, ← sum_add_distrib]
  exact sum_congr rfl fun c _ => by ring

theorem Evaluated.costOf_moved (t : ℚ) : L.costOf (L.moved st N i t) = L.costOf st.x -
        t * (L.primalSign st (L.basicRow st i) * st.y (L.basicRow st i)) := by
  rw [dualSolution_eq E.inverse E.y i]
  unfold costOf moved inBasis
  rw [mul_sum, mul_sum, ← sum_sub_distrib]
  exact sum_congr rfl fun c _ => by ring

end

end

theorem Priced.improves {i : Fin l} (priced : Priced L st i) :
    0 < L.primalSign st (L.basicRow st i) * st.y (L.basicRow st i) := by
  rcases priced.side with ⟨sign, pos, -⟩ | ⟨sign, neg, -⟩ <;> rw [sign] <;> linarith

theorem Priced.ownStep_eq {i : Fin l} (priced : Priced L st i) (E : Evaluated L st N)
    (own : L.ownStep st (L.basicRow st i) = some test) :
    (L.primalSign st (L.basicRow st i) = 1 ∧ L.lBound (L.basicRow st i) ≠ -infFloat ∧
      test = L.activity st.x (L.basicRow st i) - L.lBound (L.basicRow st i)) ∨
    (L.primalSign st (L.basicRow st i) = -1 ∧ L.uBound (L.basicRow st i) ≠ infFloat ∧
      test = L.uBound (L.basicRow st i) - L.activity st.x (L.basicRow st i)) := by
  unfold ownStep at own
  rcases priced.side with ⟨sign, -, side⟩ | ⟨sign, -, side⟩
  · split_ifs at own with inf
    have upper := side.resolve_left fun free => inf free.1
    refine .inl ⟨sign, inf, ?_⟩
    rw [← Option.some.inj own]
    unfold slack
    rw [upper, if_neg (by simp)]
    rw [if_neg inf, valueAt_eq (E.basicRow_lt i)]
  · rw [if_neg (by rw [sign]; norm_num)] at own
    split_ifs at own with inf
    have lower := side.resolve_left fun free => inf free.2
    refine .inr ⟨sign, inf, ?_⟩
    rw [← Option.some.inj own]
    unfold slack
    rw [lower, if_neg (by simp)]
    rw [if_neg inf, valueAt_eq (E.basicRow_lt i)]

theorem rowStep_eq (low : j < L.kAct + l) (step : L.rowStep st ind j = some test) :
    ¬ (L.restrType st j).Basic ∧ ((L.primalElt st ind j < 0 ∧ L.lBound j ≠ -infFloat ∧
      test = -(L.activity st.x j - L.lBound j) / L.primalElt st ind j) ∨
    (0 < L.primalElt st ind j ∧ L.uBound j ≠ infFloat ∧
      test = (L.uBound j - L.activity st.x j) / L.primalElt st ind j)) := by
  unfold rowStep at step
  dsimp only at step
  split_ifs at step with basic zero neg inf inf
  · have notLower : L.restrType st j ≠ .basicLB := fun eq => basic (.inl eq)
    refine ⟨basic, .inl ⟨neg, inf, ?_⟩⟩
    rw [← Option.some.inj step]
    unfold slack
    rw [if_neg (by simp [notLower])]
    rw [if_neg inf, valueAt_eq low]
  · have notUpper : L.restrType st j ≠ .basicUB := fun eq => basic (.inr eq)
    refine ⟨basic, .inr ⟨lt_of_le_of_ne (not_lt.1 neg) (Ne.symm zero), inf, ?_⟩⟩
    rw [← Option.some.inj step]
    unfold slack
    rw [if_neg (by simp [notUpper])]
    rw [if_neg inf, valueAt_eq low]

theorem Priced.reaches {i : Fin l} (priced : Priced L st i) (E : Evaluated L st N)
    (feasible : L.Feasible st.x) (limits : L.Limits st (L.basicRow st i) k test) : 0 ≤ test ∧
    ((L.primalElt st (L.basicRow st i) k < 0 ∧ L.lBound k ≠ -infFloat ∧
      L.activity st.x k + test * L.primalElt st (L.basicRow st i) k = L.lBound k) ∨
    (¬ L.primalElt st (L.basicRow st i) k < 0 ∧ L.uBound k ≠ infFloat ∧
      L.activity st.x k + test * L.primalElt st (L.basicRow st i) k = L.uBound k)) := by
  rcases limits with ⟨rfl, own⟩ | ⟨low, step⟩
  · obtain ⟨above, below⟩ := feasible _ (E.basicRow_lt i)
    have elt := E.primalElt_basicRow i i
    rw [if_pos rfl] at elt
    rw [elt]
    rcases priced.ownStep_eq E own with ⟨sign, finite, rfl⟩ | ⟨sign, finite, rfl⟩
    · have bounded := above.resolve_left finite
      rw [sign]
      exact ⟨by linarith, .inl ⟨by norm_num, finite, by ring⟩⟩
    · have bounded := below.resolve_left finite
      rw [sign]
      exact ⟨by linarith, .inr ⟨by norm_num, finite, by ring⟩⟩
  · obtain ⟨above, below⟩ := feasible k low
    obtain ⟨-, ⟨neg, finite, rfl⟩ | ⟨pos, finite, rfl⟩⟩ := rowStep_eq low step
    · have bounded := above.resolve_left finite
      refine ⟨div_nonneg_of_nonpos (by linarith) neg.le, .inl ⟨neg, finite, ?_⟩⟩
      rw [div_mul_cancel₀ _ (ne_of_lt neg)]
      ring
    · have bounded := below.resolve_left finite
      refine ⟨div_nonneg (by linarith) pos.le, .inr ⟨not_lt.2 pos.le, finite, ?_⟩⟩
      rw [div_mul_cancel₀ _ (ne_of_gt pos)]
      ring

/-- **A step that no row limits to less stays feasible.** -/
theorem Priced.feasible_moved {i : Fin l} (priced : Priced L st i) (E : Evaluated L st N)
    (feasible : L.Feasible st.x) {t : ℚ} (nonneg : 0 ≤ t)
    (least : ∀ k test, L.Limits st (L.basicRow st i) k test → t ≤ test) :
    L.Feasible (L.moved st N i t) := by
  intro j low
  obtain ⟨above, below⟩ := feasible j low
  rw [E.activity_moved i t low]
  by_cases basic : (L.restrType st j).Basic
  · obtain ⟨r, rfl⟩ := (E.basic_iff low).1 basic
    rw [E.primalElt_basicRow i r]
    by_cases here : r = i
    · subst here
      rw [if_pos rfl]
      -- the released row moves towards its other bound
      rcases priced.side with ⟨sign, -, side⟩ | ⟨sign, -, side⟩
      · refine ⟨?_, below.imp id fun within => by rw [sign]; linarith⟩
        by_cases inf : L.lBound (L.basicRow st r) = -infFloat
        · exact .inl inf
        have own : L.ownStep st (L.basicRow st r) = some (L.slack st (L.basicRow st r) .lower) := by
          rw [ownStep, if_pos sign, if_neg inf]
        rcases priced.ownStep_eq E own with ⟨-, -, val⟩ | ⟨other, -⟩
        · have short := least _ _ (.inl ⟨rfl, own⟩)
          rw [sign]
          exact .inr (by linarith)
        · rw [sign] at other
          norm_num at other
      · refine ⟨above.imp id fun within => by rw [sign]; linarith, ?_⟩
        by_cases inf : L.uBound (L.basicRow st r) = infFloat
        · exact .inl inf
        have own : L.ownStep st (L.basicRow st r) = some (L.slack st (L.basicRow st r) .upper) := by
          rw [ownStep, if_neg (by rw [sign]; norm_num), if_neg inf]
        rcases priced.ownStep_eq E own with ⟨other, -⟩ | ⟨-, -, val⟩
        · rw [sign] at other
          norm_num at other
        · have short := least _ _ (.inl ⟨rfl, own⟩)
          rw [val] at short
          rw [sign]
          exact .inr (by linarith)
    · rw [if_neg here, mul_zero, add_zero]
      exact ⟨above, below⟩
  · rcases lt_trichotomy (L.primalElt st (L.basicRow st i) j) 0 with neg | zero | pos
    · have down := mul_nonpos_of_nonneg_of_nonpos nonneg neg.le
      refine ⟨?_, below.imp id fun within => by linarith⟩
      by_cases inf : L.lBound j = -infFloat
      · exact .inl inf
      have step : L.rowStep st (L.basicRow st i) j =
          some (-(L.slack st j .lower) / L.primalElt st (L.basicRow st i) j) := by
        rw [rowStep, if_neg basic, if_neg (ne_of_lt neg), if_pos neg, if_neg inf]
      obtain ⟨-, ⟨-, -, val⟩ | ⟨other, -⟩⟩ := rowStep_eq low step
      · have short := least _ _ (.inr ⟨low, step⟩)
        rw [val, le_div_iff_of_neg neg] at short
        exact .inr (by linarith)
      · exact absurd other (not_lt.2 neg.le)
    · rw [zero, mul_zero, add_zero]
      exact ⟨above, below⟩
    · have up := mul_nonneg nonneg pos.le
      refine ⟨above.imp id fun within => by linarith, ?_⟩
      by_cases inf : L.uBound j = infFloat
      · exact .inl inf
      have step : L.rowStep st (L.basicRow st i) j =
          some (L.slack st j .upper / L.primalElt st (L.basicRow st i) j) := by
        rw [rowStep, if_neg basic, if_neg (ne_of_gt pos), if_neg (not_lt.2 pos.le), if_neg inf]
      obtain ⟨-, ⟨other, -⟩ | ⟨-, -, val⟩⟩ := rowStep_eq low step
      · exact absurd other (not_lt.2 pos.le)
      · have short := least _ _ (.inr ⟨low, step⟩)
        rw [val, le_div_iff₀ pos] at short
        exact .inr (by linarith)

/-- **If no row limits the step, the cost is unbounded.** -/
theorem Priced.unbounded {i : Fin l} (priced : Priced L st i) (E : Evaluated L st N)
    (feasible : L.Feasible st.x)
    (unlimited : ∀ k test, ¬ L.Limits st (L.basicRow st i) k test) (bound : ℚ) :
    ∃ z, L.Feasible z ∧ L.costOf z < bound := by
  have rate := priced.improves
  refine ⟨L.moved st N i ((|L.costOf st.x - bound| + 1) /
    (L.primalSign st (L.basicRow st i) * st.y (L.basicRow st i))),
    priced.feasible_moved E feasible (by positivity)
      fun k test limits => absurd limits (unlimited k test), ?_⟩
  rw [E.costOf_moved i, div_mul_cancel₀ _ (ne_of_gt rate)]
  linarith [le_abs_self (L.costOf st.x - bound)]

/-- **The primal ratio test keeps the solution feasible.** -/
theorem PrimallyFeasible.exchange (primal : L.PrimallyFeasible st) (E : Evaluated L st N)
    (bounds : L.ProperBounds) {i : Fin l} (priced : Priced L st i)
    (found : L.qTestPrimal st i = some k) (X : Exchanged L st N i k
      (if L.primalElt st (L.basicRow st i) k < 0 then .lower else .upper) st') :
    SimplexInv L st' ∧ L.PrimallyFeasible st' := by
  have feasible := primal _ E.x
  obtain ⟨test, limits, least⟩ := (qTestPrimal_least i).1 k found
  obtain ⟨nonneg, reached⟩ := priced.reaches E feasible limits
  have low := X.row_lt
  refine ⟨X.simplexInv E (fun lower => ?_) fun upper => ?_, fun x solution => ?_⟩
  · rcases reached with ⟨-, finite, -⟩ | ⟨notNeg, -⟩
    · exact finite
    · rw [if_neg notNeg] at lower
      cases lower
  · rcases reached with ⟨neg, -⟩ | ⟨-, finite, -⟩
    · rw [if_pos neg] at upper
      cases upper
    · exact finite
  · -- the solution of the new basis is the end of the step
    have ends : L.BasicSolution st' (L.moved st N i test) := by
      intro r
      by_cases here : r = i
      · subst here
        rw [X.basicRow_self, E.activity_moved r test low]
        unfold rightHandSide
        rw [X.type_self]
        rcases reached with ⟨neg, finite, val⟩ | ⟨notNeg, finite, val⟩
        · rw [if_pos neg, val, if_neg (by simp [LowerUpper.toRestrType]),
            if_pos (lt_of_le_of_ne (bounds k low).1 (Ne.symm finite))]
        · rw [if_neg notNeg, val, if_pos ⟨rfl, lt_of_le_of_ne (bounds k low).2.2.2.1 finite⟩]
      · rw [X.basicRow_other r here, E.activity_moved i test (E.basicRow_lt r),
          E.primalElt_basicRow i r, if_neg here, mul_zero, add_zero, E.x r]
        unfold rightHandSide
        rw [X.type_other r here]
    have moved := priced.feasible_moved E feasible nonneg least
    intro j inside
    rw [basicSolution_eq X.inverse solution ends j]
    exact moved j inside

theorem primalRound_cases (inv : SimplexInv L st) (bounds : L.ProperBounds)
    (result : L.primalRound st = .ok outcome) :
    ∃ st1 N, Evaluated L st1 N ∧ st1.toBasisArrays = st.toBasisArrays ∧
      ((L.pricePrimal st1 = none ∧ outcome = .inr ⟨L.objVal st1, .optimal, st1⟩) ∨
      (∃ i, L.pricePrimal st1 = some i ∧ L.qTestPrimal st1 i = none ∧
        outcome = .inr ⟨infFloat, .noPivot, st1⟩) ∨
      ∃ i k st2, L.pricePrimal st1 = some i ∧ L.qTestPrimal st1 i = some k ∧ outcome = .inl st2 ∧
        Exchanged L st1 N i k
          (if L.primalElt st1 (L.basicRow st1 i) k < 0 then .lower else .upper) st2) := by
  unfold primalRound at result
  cases evaluated : L.evaluateBasis st with
  | error err =>
    rw [evaluated] at result
    cases result
  | ok st1 =>
    obtain ⟨N, E, arrays⟩ := evaluateBasis_spec inv bounds evaluated
    rw [evaluated] at result
    simp only [bind, Except.bind] at result
    refine ⟨st1, N, E, arrays, ?_⟩
    cases priced : L.pricePrimal st1 with
    | none =>
      rw [priced] at result
      cases result
      exact .inl ⟨rfl, rfl⟩
    | some i =>
      rw [priced] at result
      dsimp only at result
      cases tested : L.qTestPrimal st1 i with
      | none =>
        rw [tested] at result
        cases result
        exact .inr (.inl ⟨i, rfl, tested, rfl⟩)
      | some k =>
        rw [tested] at result
        dsimp only at result
        cases exchanged : L.pivotBy (fun pivotElt => pivotElt = 0) st1 (L.basicRow st1 i) k
            (if L.primalElt st1 (L.basicRow st1 i) k < 0 then .lower else .upper) with
        | error err =>
          rw [exchanged] at result
          cases result
        | ok st2 =>
          rw [exchanged] at result
          cases result
          exact .inr (.inr ⟨i, k, st2, rfl, tested, rfl, E.exchanged exchanged⟩)

/-- **A round of `SolvePrimal` keeps the basis primally feasible.** -/
theorem primalRound_keeps (inv : SimplexInv L st) (bounds : L.ProperBounds)
    (primal : L.PrimallyFeasible st) (step : L.primalRound st = .ok (.inl st')) :
    SimplexInv L st' ∧ L.PrimallyFeasible st' := by
  obtain ⟨st1, N, E, arrays, ⟨-, other⟩ | ⟨i, -, -, other⟩ |
    ⟨i, k, st2, priced, tested, eq, X⟩⟩ := primalRound_cases inv bounds step
  · cases other
  · cases other
  · cases eq
    exact (primal.congr arrays).exchange E bounds (pricePrimal_some E priced) tested X

/-! ## Runs -/

/-- The states before the rounds. -/
inductive Visited (round : LpState l → Except (Raise × LpState l) (LpState l ⊕ LpResult l))
    (st0 : LpState l) : LpState l → Prop
  | start : Visited round st0 st0
  | next {st st' : LpState l} (visited : Visited round st0 st)
      (step : round st = .ok (.inl st')) : Visited round st0 st'

variable {round : LpState l → Except (Raise × LpState l) (LpState l ⊕ LpResult l)}
  {st0 : LpState l} {result : LpResult l}

theorem Visited.keeps {I : LpState l → Prop} (visited : Visited round st0 st) (start : I st0)
    (keeps : ∀ st st', I st → round st = .ok (.inl st') → I st') : I st := by
  induction visited with
  | start => exact start
  | next _ step inv => exact keeps _ _ inv step

theorem solveWith_visited {fuel : ℕ} (ends : solveWith round running fuel st0 = .ok result) :
    ∃ st, Visited round st0 st ∧
      (round st = .ok (.inr result) ∨ result = ⟨infFloat, .interrupted, st⟩) := by
  refine loop_sound (fun s : ℕ × LpState l => Visited round st0 s.2)
    (fun result => ∃ st, Visited round st0 st ∧
      (round st = .ok (.inr result) ∨ result = ⟨infFloat, .interrupted, st⟩))
    (fun s s' visited step => ?_) (fun s b visited step => ?_) .start ends
  · by_cases runs : running s.1 = true
    swap
    · rw [if_neg runs] at step
      cases step
    rw [if_pos runs] at step
    cases outcome : round s.2 with
    | error err =>
      rw [outcome] at step
      cases step
    | ok next =>
      rw [outcome] at step
      cases next with
      | inl st' =>
        cases step
        exact visited.next outcome
      | inr b => cases step
  · refine ⟨s.2, visited, ?_⟩
    by_cases runs : running s.1 = true
    swap
    · rw [if_neg runs] at step
      cases step
      exact .inr rfl
    · rw [if_pos runs] at step
      cases outcome : round s.2 with
      | error err =>
        rw [outcome] at step
        cases step
      | ok next =>
        rw [outcome] at step
        cases next with
        | inl st' => cases step
        | inr b' =>
          cases step
          exact .inl rfl

section

variable (L : LinearProgram l) (st : LpState l)

/-- The last variable is within its bounds. -/
def LastWithin : Prop :=
  L.Within (L.kAct + l - 1) (L.activity st.x (L.kAct + l - 1))

/-- If a dual value limits the step, then one of the ratios is less than `InfFloat`. -/
def DualMeasured : Prop := ∀ k, L.priceDual st = some k →
  (∃ j, L.LimitsDual st k j) → ∃ j, L.LimitsDual st k j ∧ L.dualRatio st k j < infFloat

/-- If a row limits the step, then one of the steps is not beyond `InfFloat`. -/
def PrimalMeasured : Prop :=
  ∀ i, L.pricePrimal st = some i → (∃ k test, L.Limits st (L.basicRow st i) k test) →
    ∃ k test, L.Limits st (L.basicRow st i) k test ∧ test ≤ infFloat

end

/-- Without a violated row among those that are priced, the last variable decides. -/
theorem DuallyFeasible.optimal_iff (dual : L.DuallyFeasible st) (E : Evaluated L st N)
    (bounds : L.ProperBounds) (columns : 0 < l) (priced : L.priceDual st = none) :
    L.Optimal st.x ↔ L.LastWithin st := by
  constructor
  · rintro ⟨feasible, -⟩
    exact feasible _ (by omega)
  · intro last
    refine ⟨fun i low => ?_, fun z feasible => dual.cost_le E bounds feasible⟩
    by_cases basic : (L.restrType st i).Basic
    · obtain ⟨r, rfl⟩ := (E.basic_iff low).1 basic
      exact E.within_basic bounds r
    · by_cases here : i = L.kAct + l - 1
      · subst here
        exact last
      · exact priceDual_none priced (by omega) basic

/-- One variable and one restriction, which is the row `0`. -/
def ranged (lBound uBound : ℕ → ℚ) : LinearProgram 1 where
  kAct := 1
  kMax := 1
  lMax := 1
  coeff _ _ := 2
  cost _ := 1
  lBound := lBound
  uBound := uBound
  epsilon := 1 / 10 ^ 10
  kAct_le := oneRow_space
  l_le := oneRow_space
  epsilon_pos := oneRow_epsilon

/-- The variable is between zero and one. -/
def narrow : LinearProgram 1 :=
  ranged (fun i => if i = 0 then -4 else 0) fun i => if i = 0 then 10 else 1

/-- The restriction has no lower bound. -/
def endless : LinearProgram 1 :=
  ranged (fun i => if i = 0 then -infFloat else -10) fun i => if i = 0 then -2 else 10

theorem narrow_bounds : narrow.ProperBounds := by
  intro i low
  have two : i < 2 := low
  interval_cases i <;> norm_num [narrow, ranged, infFloat]

theorem endless_bounds : endless.ProperBounds := by
  intro i low
  have two : i < 2 := low
  interval_cases i <;> norm_num [endless, ranged, infFloat]

/-- The basis with the row `i` at its lower bound, after its evaluation. -/
def lowerBasis (i : ℕ) (inverse x y : ℚ) : LpState 1 where
  index j := if j = 0 then some i else none
  revIndex k := if k = i then some 0 else none
  restrType k := if k = i then .basicLB else .nonBasic
  baseInv := some (Matrix.of fun _ _ => inverse)
  x := fun _ => x
  y := fun k => if k = i then y else 0
  baseInitial := false
  baseValid := true
  dataValid := true

section

variable {lBound uBound : ℕ → ℚ} (low : i < 2)
include low

theorem lowerBasis_row (j : Fin 1) :
    (ranged lBound uBound).basicRow (lowerBasis i inverse x y) j = i := by
  rw [Subsingleton.elim j 0]
  interval_cases i <;> rfl

theorem lowerBasis_start (regular : (ranged lBound uBound).row i 0 * inverse = 1)
    (primal : (ranged lBound uBound).row i 0 * x =
      (ranged lBound uBound).rightHandSide (lowerBasis i inverse x y) i)
    (dual : y * (ranged lBound uBound).row i 0 = 1) :
    StartBasis (ranged lBound uBound) (lowerBasis i inverse x y) := by
  have index : (ranged lBound uBound).index (lowerBasis i inverse x y) 0 = some i := by
    interval_cases i <;> rfl
  have matrix : (ranged lBound uBound).basisMatrix (lowerBasis i inverse x y) *
      Matrix.of (fun _ _ => inverse) = 1 := by
    ext r c
    rw [Subsingleton.elim r 0, Subsingleton.elim c 0, Matrix.mul_apply, Fin.sum_univ_one,
      Matrix.one_apply_eq, basisMatrix, Fin.val_zero, index]
    exact regular
  refine ⟨⟨⟨?_, ?_, ?_⟩, fun _ => ⟨_, rfl, matrix⟩, fun _ => rfl, by rintro ⟨⟩⟩, ?_, ?_,
    fun _ => ⟨fun j => ?_, fun c => ?_⟩⟩
  · intro j width k atJ
    have zero : j = 0 := by omega
    subst zero
    cases atJ
    exact ⟨by unfold Stored; simp only [ranged]; omega, if_pos rfl⟩
  · intro k stored j atK
    change (if k = i then some 0 else none) = some j at atK
    split_ifs at atK with eq
    cases atK
    exact ⟨Nat.one_pos, by rw [eq]; rfl⟩
  · intro k stored
    change RestrType.Basic (if k = i then .basicLB else .nonBasic) ↔
      (if k = i then some 0 else none) ≠ none
    split_ifs
    · exact iff_of_true (.inl rfl) (Option.some_ne_none 0)
    · exact iff_of_false (fun basic => by rcases basic with h | h <;> cases h) fun some => some rfl
  · intro j width
    have zero : j = 0 := by omega
    rw [zero, index]
    exact Option.some_ne_none i
  · have product := congrArg Matrix.det matrix
    rw [Matrix.det_mul, Matrix.det_one] at product
    exact IsUnit.of_mul_eq_one _ product
  · rw [lowerBasis_row low j, activity, Fin.sum_univ_one]
    exact primal
  · simp only [Fin.sum_univ_one, lowerBasis_row low]
    rw [Subsingleton.elim c 0]
    change (if i = i then y else 0) * (ranged lBound uBound).row i 0 = 1
    rw [if_pos rfl]
    exact dual

/-- A positive inverse gives a positive dual value to the single basic row. -/
theorem lowerBasis_dual (start : StartBasis (ranged lBound uBound) (lowerBasis i inverse x y))
    (nonneg : 0 ≤ inverse) (notFree : ¬ (ranged lBound uBound).IsFree i) :
    (ranged lBound uBound).DuallyFeasible (lowerBasis i inverse x y) := by
  intro z solution j range
  obtain ⟨N, stored, product⟩ := start.basis.matrix rfl
  have val := dualSolution_eq product solution j
  cases stored
  unfold inBasis at val
  rw [Fin.sum_univ_one] at val
  change z j = 1 * inverse at val
  have pos : 0 ≤ z j := by
    linarith
  rw [lowerBasis_row low j]
  refine ⟨fun free => absurd free notFree, fun _ => pos, fun upper => ?_⟩
  interval_cases i <;> cases upper

end

theorem solveDual_priced (runs : running 0 = true) (cur : L.evaluateBasis st = .ok st)
    (priced : L.priceDual st = none) :
    L.solveDual running 1 st = .ok ⟨L.objVal st, .optimal, st⟩ := by
  have round : L.dualRound st = .ok (.inr ⟨L.objVal st, .optimal, st⟩) := by
    unfold dualRound
    rw [cur]
    simp only [bind, Except.bind]
    rw [priced]
    rfl
  unfold solveDual solveWith
  refine loop_inr ?_ 0
  rw [if_pos runs, round]
  rfl

end Goblin.LinearProgram
