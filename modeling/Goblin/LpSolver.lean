import Goblin.Library.Termination
import Goblin.LpBasis

/-!
# Simplex methods

`SolvePrimal` and `SolveDual` go from basis to basis. The primal method selects a basic row whose
dual value has the wrong sign, and then the row that limits the step; the dual method selects a
non-basic row that violates a bound, and then the basic row whose dual value limits the step. Here
the tolerances are zero, and entries of the tableau are passed over if they are zero.

The queries `X`, `Y`, `Slack` and `Tableau` evaluate the basis when they need to.
-/

set_option autoImplicit false

namespace Goblin

open Library Finset Option

variable {i : ℕ}

/-- `TLowerUpper(RestrType(i))` -/
def RestrType.toLowerUpper : RestrType → LowerUpper
  | basicUB => .upper
  | _ => .lower

/-- How a simplex method ends. -/
inductive SimplexStop where
  | optimal
  | noPivot
  | interrupted
deriving DecidableEq

/-- The returned value, and the state at the end. -/
structure LpResult (l : ℕ) where
  ret : ℚ
  stop : SimplexStop
  state : LpState l

namespace LinearProgram

variable {l : ℕ} (L : LinearProgram l)

/-! ## Readings of an evaluated basis -/

section

variable (st : LpState l)

/-- `Y` -/
def yAt (i : ℕ) (rt : LowerUpper) : ℚ :=
  if rt.toRestrType ≠ L.restrType st i then 0 else st.y i

/-- `Tableau` -/
def tableauAt (i j : ℕ) : ℚ :=
  match st.baseInv, L.column st i with
  | some N, some c => L.entry N j c
  | _, _ => 0

/-- The value of a row, from `X` -/
def valueAt (i : ℕ) : ℚ :=
  if L.kAct ≤ i then if low : i - L.kAct < l then st.x ⟨i - L.kAct, low⟩ else 0
  else ∑ c, st.x c * L.coeff i c

def slack (i : ℕ) (lu : LowerUpper) : ℚ :=
  if (L.restrType st i = .basicUB ∧ lu = .upper) ∨ (L.restrType st i = .basicLB ∧ lu = .lower) then
    0
  else
    match lu with
    | .lower => if L.lBound i = -infFloat then infFloat else L.valueAt st i - L.lBound i
    | .upper => if L.uBound i = infFloat then infFloat else L.uBound i - L.valueAt st i

/-- `ObjVal`, without integer variable values -/
def objVal : ℚ := ∑ c, L.cost c * st.x c

/-- `Index`, for a complete basis -/
def basicRow (j : Fin l) : ℕ := (L.index st j).getD 0

end

/-- A row without bounds. -/
def IsFree (i : ℕ) : Prop := L.lBound i = -infFloat ∧ L.uBound i = infFloat

instance (i : ℕ) : Decidable (L.IsFree i) := inferInstanceAs (Decidable (_ ∧ _))

/-! ## The primal method -/

/-- The dual value of the basic row has the wrong sign. -/
def PricesPrimal (st : LpState l) (j : Fin l) : Prop :=
  let ind := L.basicRow st j
  let test := L.yAt st ind (L.restrType st ind).toLowerUpper
  ¬ L.uBound ind ≤ L.lBound ind ∧
    ((L.IsFree ind ∧ 0 < |test|) ∨ (L.restrType st ind = .basicLB ∧ test < 0) ∨
      (L.restrType st ind = .basicUB ∧ 0 < test))

instance (st : LpState l) (j : Fin l) : Decidable (L.PricesPrimal st j) :=
  inferInstanceAs (Decidable (_ ∧ _))

section

variable (st : LpState l)

def pricePrimal : Option (Fin l) :=
  (List.finRange l).find? fun j => L.PricesPrimal st j

section

variable (ind : ℕ)

/-- `sign` in `QTestPrimal` and `SolvePrimal` -/
def primalSign : ℚ :=
  if L.yAt st ind .lower + L.yAt st ind .upper < 0 then -1 else 1

/-- The step by which the basic row reaches its other bound. -/
def ownStep : Option ℚ :=
  if L.primalSign st ind = 1 then
    if L.lBound ind = -infFloat then none else some (L.slack st ind .lower)
  else if L.uBound ind = infFloat then none
  else some (L.slack st ind .upper)

/-- `pivotElt`: the change of the row `j` when the basic row is released. -/
def primalElt (j : ℕ) : ℚ := -L.primalSign st ind * L.tableauAt st ind j

/-- The step by which a row that is not basic reaches a bound. -/
def rowStep (j : ℕ) : Option ℚ :=
  let pivotElt := L.primalElt st ind j
  if (L.restrType st j).Basic then none
  else if pivotElt = 0 then none
  else if pivotElt < 0 then
    if L.lBound j = -infFloat then none else some (-(L.slack st j .lower) / pivotElt)
  else if L.uBound j = infFloat then none
  else some (L.slack st j .upper / pivotElt)

/-- The body of the first loop of `QTestPrimal` -/
def shorten (lambda : ℚ) (j : ℕ) : ℚ :=
  match L.rowStep st ind j with
  | some test => if test < lambda then test else lambda
  | none => lambda

/-- The first loop of `QTestPrimal`: the step `lambda` -/
def stepLength : ℚ :=
  (List.range (L.kAct + l)).foldl (L.shorten st ind) ((L.ownStep st ind).getD infFloat)

/-- `k` and `pivotAbs` before the second loop of `QTestPrimal` -/
def testOwn (lambda : ℚ) : Option ℕ × ℚ :=
  match L.ownStep st ind with
  | some test => if test ≤ lambda then (some ind, 1) else (none, 0)
  | none => (none, 0)

/-- The body of the second loop of `QTestPrimal`. It selects the largest pivot element. -/
def testRow (lambda : ℚ) (found : Option ℕ × ℚ) (j : ℕ) :
    Option ℕ × ℚ :=
  match L.rowStep st ind j with
  | some test =>
    if found.2 < |L.primalElt st ind j| ∧ test ≤ lambda then (some j, |L.primalElt st ind j|)
    else found
  | none => found

end

def qTestPrimal (i : Fin l) : Option ℕ :=
  let ind := L.basicRow st i
  let lambda := L.stepLength st ind
  ((List.range (L.kAct + l)).foldl (L.testRow st ind lambda) (L.testOwn st ind lambda)).1

/-- A round of `SolvePrimal` -/
def primalRound : Except (Raise × LpState l) (LpState l ⊕ LpResult l) := do
  let st ← L.evaluateBasis st
  match L.pricePrimal st with
  | none => return .inr ⟨L.objVal st, .optimal, st⟩
  | some i =>
    match L.qTestPrimal st i with
    | none => return .inr ⟨infFloat, .noPivot, st⟩
    | some k =>
      let ind := L.basicRow st i
      let next ← L.pivotBy (fun pivotElt => pivotElt = 0) st ind k
        (if L.primalElt st ind k < 0 then .lower else .upper)
      return .inl next

end

/-! ## The dual method -/

/-- `PriceDual`. The last row is not looked at. -/
def priceDual (st : LpState l) : Option ℕ :=
  (List.range (L.kAct + l - 1)).find? fun j =>
    ¬ (L.restrType st j).Basic ∧ (L.slack st j .lower < 0 ∨ L.slack st j .upper < 0)

section

variable (st : LpState l) (k : ℕ)

/-- `sign` in `QTestDual` -/
def dualSign : ℚ := if L.slack st k .upper < 0 then -1 else 1

/-- `pivotElt` in `QTestDual` -/
def dualElt (j : Fin l) : ℚ :=
  L.dualSign st k * L.tableauAt st (L.basicRow st j) k

/-- A free variable that can be exchanged. -/
def FreePivot (j : Fin l) : Prop :=
  ¬ L.uBound (L.basicRow st j) ≤ L.lBound (L.basicRow st j) ∧ L.IsFree (L.basicRow st j) ∧
    0 < |L.dualElt st k j|

end

instance (st : LpState l) (k : ℕ) (j : Fin l) : Decidable (L.FreePivot st k j) :=
  inferInstanceAs (Decidable (_ ∧ _))

/-- The dual value of the basic row limits the step. -/
def LimitsDual (st : LpState l) (k : ℕ) (j : Fin l) : Prop :=
  ¬ L.uBound (L.basicRow st j) ≤ L.lBound (L.basicRow st j) ∧
    ((0 < L.dualElt st k j ∧ L.restrType st (L.basicRow st j) = .basicLB) ∨
      (L.dualElt st k j < 0 ∧ L.restrType st (L.basicRow st j) = .basicUB))

instance (st : LpState l) (k : ℕ) (j : Fin l) : Decidable (L.LimitsDual st k j) :=
  inferInstanceAs (Decidable (_ ∧ _))

/-- `redKosten/pivotElt` -/
def dualRatio (st : LpState l) (k : ℕ) (j : Fin l) : ℚ :=
  L.yAt st (L.basicRow st j) (L.restrType st (L.basicRow st j)).toLowerUpper / L.dualElt st k j

/-- The loop of `QTestDual` -/
def qTestDualFrom (st : LpState l) (k : ℕ) : List (Fin l) → ℚ → Option (Fin l) → Option (Fin l)
  | [], _, i => i
  | j :: rest, lambda, i =>
    if L.FreePivot st k j then some j
    else if L.LimitsDual st k j ∧ L.dualRatio st k j < lambda then
      qTestDualFrom st k rest (L.dualRatio st k j) (some j)
    else qTestDualFrom st k rest lambda i

def qTestDual (st : LpState l) (k : ℕ) : Option (Fin l) :=
  L.qTestDualFrom st k (List.finRange l) infFloat none

/-- A round of `SolveDual` -/
def dualRound (st : LpState l) : Except (Raise × LpState l) (LpState l ⊕ LpResult l) := do
  let st ← L.evaluateBasis st
  match L.priceDual st with
  | none => return .inr ⟨L.objVal st, .optimal, st⟩
  | some k =>
    match L.qTestDual st k with
    | none => return .inr ⟨infFloat, .noPivot, st⟩
    | some i =>
      let next ← L.pivotBy (fun pivotElt => pivotElt = 0) st (L.basicRow st i) k
        (if L.slack st k .lower < 0 then .lower else .upper)
      return .inl next

/-- The loop of both methods. `running` is what `SolverRunning` answers. -/
def solveWith (round : LpState l → Except (Raise × LpState l) (LpState l ⊕ LpResult l))
    (running : ℕ → Bool) (fuel : ℕ) (st : LpState l) :
    Except (Raise × LpState l) (LpResult l) :=
  loop (.fuel, st) (fun (s : ℕ × LpState l) =>
    if running s.1 then (round s.2).map (Sum.map (fun next => (s.1 + 1, next)) id)
    else .ok (.inr ⟨infFloat, .interrupted, s.2⟩)) fuel (0, st)

def solvePrimal := solveWith L.primalRound

def solveDual := solveWith L.dualRound

/-! ## Solutions -/

section

variable (x : Fin l → ℚ)

/-- The value of a row. -/
def activity (i : ℕ) : ℚ := ∑ c, L.row i c * x c

/-- The value is within the bounds of the row. -/
def Within (i : ℕ) (v : ℚ) : Prop :=
  (L.lBound i = -infFloat ∨ L.lBound i ≤ v) ∧ (L.uBound i = infFloat ∨ v ≤ L.uBound i)

/-- All rows and variables are within their bounds. -/
def Feasible : Prop := ∀ i, i < L.kAct + l → L.Within i (L.activity x i)

/-- The cost of a vector. -/
def costOf : ℚ := ∑ c, L.cost c * x c

/-- A feasible vector of minimum cost. -/
def Optimal : Prop :=
  L.Feasible x ∧ ∀ z, L.Feasible z → L.costOf x ≤ L.costOf z

end

/-- The bounds that `SetLBound` and `SetUBound` admit. -/
def ProperBounds : Prop := ∀ i, i < L.kAct + l →
  -infFloat ≤ L.lBound i ∧ L.lBound i < infFloat ∧ -infFloat < L.uBound i ∧
    L.uBound i ≤ infFloat ∧ L.lBound i ≤ L.uBound i

section

variable (st : LpState l)

/-- The basic rows are at their bounds. -/
def BasicSolution (x : Fin l → ℚ) : Prop :=
  ∀ j, L.activity x (L.basicRow st j) = L.rightHandSide st (L.basicRow st j)

/-- The cost is a combination of the basic rows. -/
def DualSolution (y : Fin l → ℚ) : Prop :=
  ∀ c, ∑ j, y j * L.row (L.basicRow st j) c = L.cost c

/-- The solution of the basis is feasible. -/
def PrimallyFeasible : Prop := ∀ x, L.BasicSolution st x → L.Feasible x

/-- The values have the signs of the bounds that the basic rows are at. -/
def HasSigns (y : Fin l → ℚ) : Prop := ∀ j,
  L.lBound (L.basicRow st j) < L.uBound (L.basicRow st j) → (L.IsFree (L.basicRow st j) → y j = 0) ∧
    (L.restrType st (L.basicRow st j) = .basicLB → 0 ≤ y j) ∧
    (L.restrType st (L.basicRow st j) = .basicUB → y j ≤ 0)

/-- The dual values of the basis have the right signs. -/
def DuallyFeasible : Prop := ∀ y, L.DualSolution st y → L.HasSigns st y

/-- A basic row is free, or it is at a bound that it has. -/
def AtBounds : Prop := ∀ j, ¬ L.IsFree (L.basicRow st j) →
  (L.restrType st (L.basicRow st j) = .basicLB → L.lBound (L.basicRow st j) ≠ -infFloat) ∧
    (L.restrType st (L.basicRow st j) = .basicUB → L.uBound (L.basicRow st j) ≠ infFloat)

end

section

variable (L : LinearProgram l) (st : LpState l)

/-- A complete and regular basis, whose data are right if they count as valid. -/
structure StartBasis : Prop where
  basis : BasisInv L st
  complete : ∀ j, j < l → L.index st j ≠ none
  regular : IsUnit (L.basisMatrix st).det
  data : st.dataValid = true →
    L.BasicSolution st st.x ∧ L.DualSolution st fun j => st.y (L.basicRow st j)

/-- Such a basis, whose rows are at bounds that they have. -/
structure SimplexInv : Prop extends StartBasis L st where
  atBounds : L.AtBounds st

/-- A basis that has been evaluated, and its inverse. -/
structure Evaluated (N : Matrix (Fin l) (Fin l) ℚ) :
    Prop where
  basis : BasisInv L st
  baseValid : st.baseValid = true
  dataValid : st.dataValid = true
  stored : st.baseInv = some N
  inverse : L.basisMatrix st * N = 1
  atBounds : L.AtBounds st
  x : L.BasicSolution st st.x
  y : L.DualSolution st fun j => st.y (L.basicRow st j)

end

variable {L} {st st' : LpState l} {N : Matrix (Fin l) (Fin l) ℚ} {j : Fin l} {x y : Fin l → ℚ}

theorem index_eq_basicRow (complete : L.index st j ≠ none) :
    L.index st j = some (L.basicRow st j) := by
  unfold basicRow
  cases row : L.index st j with
  | none => exact absurd row complete
  | some i => rfl

theorem basisMatrix_eq (complete : L.index st j ≠ none) :
    L.basisMatrix st j = L.row (L.basicRow st j) := by
  funext c
  rw [basisMatrix, index_eq_basicRow complete]

section Complete

variable (basis : BasisInv L st) (complete : ∀ j : Fin l, L.index st j ≠ none)
include basis complete

theorem basicRow_lt (j : Fin l) : L.basicRow st j < L.kAct + l :=
  ((index_eq_some basis.inverse j.isLt).1 (index_eq_basicRow (complete j))).1

theorem column_basicRow (j : Fin l) : L.column st (L.basicRow st j) = some j := by
  unfold column
  rw [(index_eq_some_iff basis.inverse j.isLt (basicRow_lt basis complete j)).1
    (index_eq_basicRow (complete j))]
  exact dif_pos j.isLt

theorem restrType_basicRow (j : Fin l) : (L.restrType st (L.basicRow st j)).Basic := by
  obtain ⟨low, slot⟩ :=
    (index_eq_some basis.inverse j.isLt).1 (index_eq_basicRow (complete j))
  refine (basis.inverse.basic _ (stored_slot low)).2 ?_
  rw [(basis.inverse.slot j j.isLt _ slot).2]
  exact nofun

end Complete

section

variable (same : st'.toBasisArrays = st.toBasisArrays)
include same

theorem basicRow_congr : L.basicRow st' = L.basicRow st := by
  funext j
  simp only [basicRow, index, same]

theorem restrType_congr : L.restrType st' = L.restrType st := by
  funext i
  simp only [restrType, same]

theorem basicSolution_congr : L.BasicSolution st' x ↔ L.BasicSolution st x := by
  unfold BasicSolution rightHandSide
  rw [basicRow_congr same, restrType_congr same]

theorem dualSolution_congr : L.DualSolution st' y ↔ L.DualSolution st y := by
  unfold DualSolution
  rw [basicRow_congr same]

theorem DuallyFeasible.congr (feasible : L.DuallyFeasible st) : L.DuallyFeasible st' := by
  intro y solution
  unfold HasSigns
  rw [basicRow_congr same, restrType_congr same]
  exact feasible y ((dualSolution_congr same).1 solution)

theorem PrimallyFeasible.congr (feasible : L.PrimallyFeasible st) : L.PrimallyFeasible st' :=
  fun x solution => feasible x ((basicSolution_congr same).1 solution)

theorem AtBounds.congr (atBounds : L.AtBounds st) : L.AtBounds st' := by
  intro j
  rw [basicRow_congr same, restrType_congr same]
  exact atBounds j

end

section Regular

variable (inverse : L.basisMatrix st * N = 1)
include inverse

theorem basisMatrix_row (j : Fin l) : L.basisMatrix st j = L.row (L.basicRow st j) :=
  basisMatrix_eq (index_ne_none inverse j)

/-- The value of a row, by the values of the basic rows. -/
theorem activity_eq (z : Fin l → ℚ) (i : ℕ) :
    L.activity z i = ∑ j, inBasis N (L.row i) j * L.activity z (L.basicRow st j) := by
  unfold activity
  rw [sum_mul_eq_inBasis inverse]
  exact sum_congr rfl fun j _ => by rw [basisMatrix_row inverse j]

theorem basicSolution_eq {z : Fin l → ℚ} (solution : L.BasicSolution st x)
    (other : L.BasicSolution st z) (i : ℕ) : L.activity x i = L.activity z i := by
  rw [activity_eq inverse x, activity_eq inverse z]
  exact sum_congr rfl fun j _ => by rw [solution j, other j]

theorem dualSolution_eq (solution : L.DualSolution st y) (j : Fin l) :
    y j = inBasis N L.cost j := by
  unfold inBasis
  calc y j = ∑ k, y k * ∑ c, L.row (L.basicRow st k) c * N c j := by
        have unit : ∀ k, ∑ c, L.row (L.basicRow st k) c * N c j = if k = j then 1 else 0 := by
          intro k
          have entry := inBasis_row inverse k j
          rw [basisMatrix_row inverse k] at entry
          exact entry
        simp only [unit, mul_ite, mul_one, mul_zero, sum_ite_eq', mem_univ, if_true]
    _ = ∑ k, ∑ c, y k * L.row (L.basicRow st k) c * N c j :=
        sum_congr rfl fun k _ => by
          rw [mul_sum]
          exact sum_congr rfl fun c _ => by ring
    _ = ∑ c, ∑ k, y k * L.row (L.basicRow st k) c * N c j := sum_comm
    _ = ∑ c, L.cost c * N c j := sum_congr rfl fun c _ => by
        rw [← sum_mul, solution c]

end Regular

theorem valueAt_eq (low : i < L.kAct + l) : L.valueAt st i = L.activity st.x i := by
  unfold valueAt activity row
  by_cases restr : i < L.kAct
  · rw [if_neg (not_le.2 restr)]
    simp only [if_pos restr]
    exact sum_congr rfl fun c _ => mul_comm _ _
  have width : i - L.kAct < l := by omega
  rw [if_pos (not_lt.1 restr), dif_pos width]
  simp only [if_neg restr]
  rw [sum_eq_single ⟨i - L.kAct, width⟩]
  · simp
  · intro c _ other
    have differs : (c : ℕ) ≠ i - L.kAct := fun same => other (Fin.ext same)
    rw [if_neg differs, zero_mul]
  · intro out
    exact absurd (mem_univ _) out

namespace Evaluated

section

variable (E : Evaluated L st N)
include E

theorem complete (j : Fin l) : L.index st j ≠ none :=
  index_ne_none E.inverse j

theorem index_eq (j : Fin l) : L.index st j = some (L.basicRow st j) :=
  index_eq_basicRow (E.complete j)

theorem basicRow_lt (j : Fin l) : L.basicRow st j < L.kAct + l :=
  LinearProgram.basicRow_lt E.basis E.complete j

theorem column_basicRow (j : Fin l) : L.column st (L.basicRow st j) = some j :=
  LinearProgram.column_basicRow E.basis E.complete j

theorem basicRow_inj {k : Fin l} (same : L.basicRow st j = L.basicRow st k) : j = k := by
  have columns := E.column_basicRow j
  rw [same, E.column_basicRow k] at columns
  exact (Option.some.inj columns).symm

theorem basic (j : Fin l) : (L.restrType st (L.basicRow st j)).Basic :=
  restrType_basicRow E.basis E.complete j

theorem basic_iff (low : i < L.kAct + l) : (L.restrType st i).Basic ↔ ∃ j, L.basicRow st j = i := by
  constructor
  · intro isBasic
    have some := (E.basis.inverse.basic _ (stored_slot low)).1 isBasic
    obtain ⟨j, atI⟩ := ne_none_iff_exists'.1 some
    obtain ⟨width, -⟩ := E.basis.inverse.var _ (stored_slot low) j atI
    have row := (index_eq_some_iff E.basis.inverse width low).2 atI
    refine ⟨⟨j, width⟩, ?_⟩
    unfold basicRow
    rw [row, getD_some]
  · rintro ⟨j, rfl⟩
    exact E.basic j

theorem tableauAt_eq (j : Fin l) (low : i < L.kAct + l) :
    L.tableauAt st (L.basicRow st j) i = inBasis N (L.row i) j := by
  unfold tableauAt
  rw [E.stored, E.column_basicRow j]
  exact entry_eq_inBasis L N low j

theorem yAt_eq (j : Fin l) :
    L.yAt st (L.basicRow st j) (L.restrType st (L.basicRow st j)).toLowerUpper =
      st.y (L.basicRow st j) := by
  unfold yAt
  rcases E.basic j with lower | upper
  · rw [lower]
    exact if_neg fun other => other rfl
  · rw [upper]
    exact if_neg fun other => other rfl

theorem xValue_eq (i : Fin l) : L.xValue st i = .ok (st.x i, st) := by
  unfold xValue
  rw [dif_pos i.isLt, if_pos E.dataValid]
  rfl

theorem costOf_eq (z : Fin l → ℚ) :
    L.costOf z = ∑ j, st.y (L.basicRow st j) * L.activity z (L.basicRow st j) := by
  unfold costOf activity
  have combination := E.y
  unfold DualSolution at combination
  calc ∑ c, L.cost c * z c = ∑ c, ∑ j, st.y (L.basicRow st j) * L.row (L.basicRow st j) c * z c :=
        sum_congr rfl fun c _ => by rw [← combination c, sum_mul]
    _ = ∑ j, ∑ c, st.y (L.basicRow st j) * L.row (L.basicRow st j) c * z c := sum_comm
    _ = _ := sum_congr rfl fun j _ => by
        rw [mul_sum]
        exact sum_congr rfl fun c _ => by ring

end

end Evaluated

/-! ## Evaluation -/

theorem solutionUpdate_evaluated (basis : BasisInv L st) (stored : st.baseInv = some N)
    (inverse : L.basisMatrix st * N = 1) (atBounds : L.AtBounds st) (valid : st.baseValid = true)
    (res : L.solutionUpdate st = .ok st') :
    Evaluated L st' N ∧ st'.toBasisArrays = st.toBasisArrays := by
  have kept := solutionUpdate_keeps basis
  rw [res] at kept
  unfold solutionUpdate at res
  rw [stored] at res
  dsimp only at res
  rw [if_neg (not_not.2 valid)] at res
  obtain ⟨free, res⟩ := of_check res
  have complete : ∀ j : Fin l, L.index st j ≠ none := index_ne_none inverse
  have rows : ∀ j : Fin l, L.basisMatrix st j = L.row (L.basicRow st j) :=
    fun j => basisMatrix_eq (complete j)
  have columns : ∀ j : Fin l, L.column st (L.basicRow st j) = some j :=
    column_basicRow basis complete
  have typed : ∀ j : Fin l, (L.restrType st (L.basicRow st j)).Basic :=
    restrType_basicRow basis complete
  have dual : ∀ j : Fin l, st'.y (L.basicRow st j) = ∑ k : Fin l, N k j * L.cost k := by
    intro j
    cases res
    simp only [typed, columns, if_true]
  cases res
  refine ⟨⟨kept, valid, rfl, rfl, inverse, atBounds, fun j => ?_, fun c => ?_⟩, rfl⟩
  · change ∑ c, L.row (L.basicRow st j) c *
        (∑ k : Fin l, N c k * ((L.index st k).map (L.rightHandSide st)).getD 0) =
      L.rightHandSide st (L.basicRow st j)
    have unit : ∀ k, ∑ c, L.row (L.basicRow st j) c * N c k = if j = k then 1 else 0 := by
      intro k
      rw [← rows j]
      exact inBasis_row inverse j k
    calc _ = ∑ c, ∑ k : Fin l, L.row (L.basicRow st j) c * N c k *
          L.rightHandSide st (L.basicRow st k) :=
          sum_congr rfl fun c _ => by
            rw [mul_sum]
            refine sum_congr rfl fun k _ => ?_
            rw [index_eq_basicRow (complete k), map_some, getD_some, mul_assoc]
      _ = ∑ k : Fin l, (∑ c, L.row (L.basicRow st j) c * N c k) *
          L.rightHandSide st (L.basicRow st k) := by
          rw [sum_comm]
          exact sum_congr rfl fun k _ => (sum_mul _ _ _).symm
      _ = _ := by simp [unit]
  · refine (sum_congr rfl fun j _ => congrArg (· * L.row (L.basicRow st j) c) (dual j)).trans ?_
    have identity : ∀ k, ∑ j, N k j * L.row (L.basicRow st j) c = if k = c then 1 else 0 := by
      intro k
      rw [← Matrix.one_apply, ← mul_eq_one_comm.1 inverse, Matrix.mul_apply]
      exact sum_congr rfl fun j _ => by rw [rows j]
    calc ∑ j, (∑ k : Fin l, N k j * L.cost k) * L.row (L.basicRow st j) c =
        ∑ j, ∑ k : Fin l, L.cost k * (N k j * L.row (L.basicRow st j) c) :=
          sum_congr rfl fun j _ => by
            rw [sum_mul]
            exact sum_congr rfl fun k _ => by ring
      _ = ∑ k : Fin l, L.cost k * ∑ j, N k j * L.row (L.basicRow st j) c := by
          rw [sum_comm]
          exact sum_congr rfl fun k _ => (mul_sum _ _ _).symm
      _ = L.cost c := by simp [identity]

theorem defaultBasisInverse_evaluated (inv : SimplexInv L st) (bounds : L.ProperBounds)
    (res : L.defaultBasisInverse st = .ok st') :
    ∃ N, Evaluated L st' N ∧ st'.toBasisArrays = st.toBasisArrays := by
  have kept := defaultBasisInverse_keeps inv.basis
  rw [res] at kept
  unfold defaultBasisInverse at res
  by_cases initial : st.baseInitial = true
  swap
  · rw [if_pos initial] at res
    cases res
  rw [if_neg (not_not.2 initial)] at res
  cases res
  have rows : ∀ j : Fin l, L.basicRow st j = L.kAct + j := by
    intro j
    unfold basicRow
    rw [index_initial inv.basis initial, getD_some]
  obtain ⟨N, stored, inverse⟩ := kept.matrix rfl
  refine ⟨N, ⟨kept, rfl, rfl, stored, inverse, inv.atBounds, fun j => ?_, fun c => ?_⟩, rfl⟩
  · change L.activity _ (L.basicRow st j) = L.rightHandSide st (L.basicRow st j)
    have low : L.kAct + (j : ℕ) < L.kAct + l := by omega
    obtain ⟨-, -, upNotInf, upInf, -⟩ := bounds _ low
    have atBounds := inv.atBounds j
    have typed := restrType_basicRow inv.basis (fun j => inv.complete j j.isLt) j
    rw [rows j] at atBounds typed ⊢
    have val : ∀ x : Fin l → ℚ, L.activity x (L.kAct + j) = x j := by
      intro x
      unfold activity row
      simp only [if_neg (by omega : ¬ L.kAct + (j : ℕ) < L.kAct), Nat.add_sub_cancel_left]
      rw [sum_eq_single j]
      · simp
      · intro c _ other
        have differs : (c : ℕ) ≠ j := fun same => other (Fin.ext same)
        rw [if_neg differs, zero_mul]
      · exact fun out => absurd (mem_univ _) out
    rw [val]
    unfold rightHandSide
    dsimp only
    by_cases free : L.lBound (L.kAct + j) = -infFloat ∧ L.uBound (L.kAct + j) = infFloat
    · rw [if_pos free, if_neg (by rw [free.2]; exact fun h => lt_irrefl _ h.2),
        if_neg (by rw [free.1]; exact lt_irrefl _)]
    rw [if_neg free]
    obtain ⟨atLower, atUpper⟩ := atBounds free
    rcases typed with lower | upper
    · have finite : -infFloat < L.lBound (L.kAct + j) :=
        lt_of_le_of_ne (bounds _ low).1 (Ne.symm (atLower lower))
      simp only [lower]
      rw [if_neg (by simp), if_pos finite]
    · have finite : L.uBound (L.kAct + j) < infFloat := lt_of_le_of_ne upInf (atUpper upper)
      simp only [upper, true_and, if_pos finite]
  · change ∑ j, (if L.basicRow st j < L.kAct then 0
        else if low : L.basicRow st j - L.kAct < l then L.cost ⟨L.basicRow st j - L.kAct, low⟩
        else st.y (L.basicRow st j)) * L.row (L.basicRow st j) c = L.cost c
    have term : ∀ j : Fin l, (if L.basicRow st j < L.kAct then 0
        else if low : L.basicRow st j - L.kAct < l then L.cost ⟨L.basicRow st j - L.kAct, low⟩
        else st.y (L.basicRow st j)) * L.row (L.basicRow st j) c =
        if c = j then L.cost j else 0 := by
      intro j
      rw [rows j, if_neg (by omega), dif_pos (by rw [Nat.add_sub_cancel_left]; exact j.isLt)]
      unfold row
      rw [if_neg (by omega)]
      simp only [Nat.add_sub_cancel_left, Fin.ext_iff]
      split_ifs <;> simp
    simp only [term]
    simp

/-- **`EvaluateBasis` solves both systems of the basis.** -/
theorem evaluateBasis_spec (inv : SimplexInv L st) (bounds : L.ProperBounds)
    (res : L.evaluateBasis st = .ok st') :
    ∃ N, Evaluated L st' N ∧ st'.toBasisArrays = st.toBasisArrays := by
  unfold evaluateBasis at res
  by_cases cur : st.dataValid = true
  · rw [if_pos cur] at res
    cases res
    have valid := inv.basis.data cur
    obtain ⟨N, stored, inverse⟩ := inv.basis.matrix valid
    exact ⟨N, ⟨inv.basis, valid, cur, stored, inverse, inv.atBounds, (inv.data cur).1,
      (inv.data cur).2⟩, rfl⟩
  rw [if_neg cur] at res
  by_cases initial : st.baseInitial = true
  · rw [if_pos initial] at res
    exact defaultBasisInverse_evaluated inv bounds res
  rw [if_neg initial] at res
  -- the state with a matrix to write to
  obtain ⟨st1, basis1, arrays1, continued⟩ : ∃ st1 : LpState l, BasisInv L st1 ∧
      st1.toBasisArrays = st.toBasisArrays ∧
      (do
        let st ← if st1.baseValid then pure st1 else L.recompute st1
        L.solutionUpdate st) = Except.ok st' := by
    cases stored : st.baseInv with
    | some N =>
      rw [stored] at res
      exact ⟨st, inv.basis, rfl, res⟩
    | none =>
      rw [stored] at res
      exact ⟨{ st with baseInv := some 0, baseValid := false },
        inv.basis.evaluated rfl rfl nofun fun valid => absurd valid cur, rfl, res⟩
  have atBounds1 : L.AtBounds st1 := inv.atBounds.congr arrays1
  by_cases valid : st1.baseValid = true
  · rw [if_pos valid] at continued
    obtain ⟨N, stored, inverse⟩ := basis1.matrix valid
    obtain ⟨E, arrays⟩ := solutionUpdate_evaluated basis1 stored inverse atBounds1 valid continued
    exact ⟨N, E, arrays.trans arrays1⟩
  rw [if_neg valid] at continued
  cases inverted : L.recompute st1 with
  | error err =>
    rw [inverted] at continued
    cases continued
  | ok st2 =>
    obtain ⟨N, inverse, rfl⟩ := (recompute_spec st1).1 st2 inverted
    rw [inverted] at continued
    have basis2 : BasisInv L { st1 with baseInv := some N, baseValid := true } :=
      basis1.evaluated rfl rfl (fun _ => ⟨N, rfl, inverse⟩) fun _ => rfl
    obtain ⟨E, arrays⟩ :=
      solutionUpdate_evaluated basis2 rfl inverse (atBounds1.congr rfl) rfl continued
    exact ⟨N, E, arrays.trans arrays1⟩

/-! ## Exchanges -/

/-- The row `k` has replaced the row of the variable `j`, at the bound `rt`. -/
structure Exchanged (L : LinearProgram l) (st : LpState l) (N : Matrix (Fin l) (Fin l) ℚ)
    (j : Fin l) (k : ℕ) (rt : LowerUpper) (st' : LpState l) : Prop where
  row_lt : k < L.kAct + l
  entering : ¬ (L.restrType st k).Basic ∨ k = L.basicRow st j
  pivot : inBasis N (L.row k) j ≠ 0
  basis : BasisInv L st'
  notData : st'.dataValid = false
  inverse : L.basisMatrix st' * exchangeInverse N j (L.row k) = 1
  basicRow_self : L.basicRow st' j = k
  basicRow_other : ∀ r, r ≠ j → L.basicRow st' r = L.basicRow st r
  type_self : L.restrType st' k = rt.toRestrType
  type_other : ∀ r, r ≠ j →
    L.restrType st' (L.basicRow st r) = L.restrType st (L.basicRow st r)

/-- **`Pivot` exchanges a row of an evaluated basis.** -/
theorem Evaluated.exchanged (E : Evaluated L st N) {k : ℕ} {rt : LowerUpper}
    (res : L.pivotBy (fun pivotElt => pivotElt = 0) st (L.basicRow st j) k rt = .ok st') :
    Exchanged L st N j k rt st' := by
  have rejects : decide ((0 : ℚ) = 0) = true := decide_eq_true rfl
  have kept := pivot_keeps rejects E.basis (E.basis.upToDate E.baseValid _) res
  obtain ⟨low, entering, c, col, st1, assigned, updated⟩ := pivotBy_ok res
  have same : c = j := Option.some.inj (col.symm.trans (E.column_basicRow j))
  subst same
  obtain ⟨-, -, state⟩ := setIndex_ok assigned
  have free := revIndex_entering E.basis low entering col
  obtain ⟨indexes, typeSelf, typeOther⟩ := assign_entering rt.toRestrType st.toBasisArrays free
  have basis1 : BasisInv L st1 := by
    have keeps := setIndex_keeps E.basis k c rt
    rw [assigned] at keeps
    exact keeps
  have stored : st1.baseInv = some N := by rw [state]; exact E.stored
  rw [stored] at updated
  obtain ⟨pivot, state'⟩ := basisUpdate_ok rejects basis1.inverse low updated
  have arrays : st'.toBasisArrays = st.toBasisArrays.assign (L.slot k) c rt.toRestrType := by
    rw [state', state]
  have exchangedIndex : st'.index = Function.update st.index c (some (L.slot k)) := by
    rw [arrays]
    exact indexes
  have out : ∀ r, r ≠ c → L.basicRow st r ≠ k := by
    rintro r other rfl
    rcases entering with nonBasic | leaving
    · have basic := E.basic r
      rw [nonBasic] at basic
      rcases basic with h | h <;> cases h
    · exact other (E.basicRow_inj leaving)
  refine ⟨low, entering.imp (fun nonBasic basic => ?_) id, pivot, kept, ?_, ?_, ?_, ?_, ?_, ?_⟩
  · rw [nonBasic] at basic
    rcases basic with h | h <;> cases h
  · rw [state', state]
  · rw [basisMatrix_exchange kept.inverse low exchangedIndex]
    refine updateRow_mul_exchangeInverse (fun r _ => ?_) pivot
    rw [E.inverse]
  · have row : L.index st' c = some k := by
      rw [index_eq_some kept.inverse c.isLt, exchangedIndex, Function.update_self]
      exact ⟨low, rfl⟩
    rw [LinearProgram.basicRow, row, getD_some]
  · intro r other
    have differs : (r : ℕ) ≠ c := fun eq => other (Fin.ext eq)
    unfold LinearProgram.basicRow index
    rw [exchangedIndex, Function.update_of_ne differs]
  · unfold restrType
    rw [arrays]
    exact typeSelf
  · intro r other
    have differs : (r : ℕ) ≠ c := fun eq => other (Fin.ext eq)
    unfold restrType
    rw [arrays]
    refine typeOther _ (fun eq => out r other (slot_inj eq)) fun row => ?_
    have rowC := (index_eq_some E.basis.inverse c.isLt).1 (E.index_eq c)
    rw [rowC.2] at row
    exact other (E.basicRow_inj (slot_inj (Option.some.inj row)).symm)

namespace Exchanged

variable {j : Fin l} {k : ℕ} {rt : LowerUpper}

section

variable (X : Exchanged L st N j k rt st') (E : Evaluated L st N)
include X E

theorem dual_eq
    (solution : L.DualSolution st' y) (r : Fin l) :
    y r = if r = j then st.y (L.basicRow st j) / inBasis N (L.row k) j else st.y (L.basicRow st r) -
        inBasis N (L.row k) r * st.y (L.basicRow st j) / inBasis N (L.row k) j := by
  have former : ∀ c, st.y (L.basicRow st c) = inBasis N L.cost c := dualSolution_eq E.inverse E.y
  rw [dualSolution_eq X.inverse solution, inBasis_exchangeInverse, former, former]

theorem simplexInv
    (lower : rt = .lower → L.lBound k ≠ -infFloat) (upper : rt = .upper → L.uBound k ≠ infFloat) :
    SimplexInv L st' where
  basis := X.basis
  complete r width := index_ne_none X.inverse ⟨r, width⟩
  regular := by
    have product := congrArg Matrix.det X.inverse
    rw [Matrix.det_mul, Matrix.det_one] at product
    exact IsUnit.of_mul_eq_one _ product
  atBounds r notFree := by
    by_cases here : r = j
    · subst here
      rw [X.basicRow_self, X.type_self]
      cases rt
      · exact ⟨fun _ => lower rfl, nofun⟩
      · exact ⟨nofun, fun _ => upper rfl⟩
    · rw [X.basicRow_other r here] at notFree ⊢
      rw [X.type_other r here]
      exact E.atBounds r notFree
  data valid := by
    rw [X.notData] at valid
    cases valid

end

end Exchanged

end LinearProgram

end Goblin
