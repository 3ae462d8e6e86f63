import Goblin.Elimination
import Goblin.Library.StateRuns

/-!
# Bases of linear programs

The native LP solver works with `kAct` restrictions and `lAct` variables whose ranges count as
restrictions too. A basis assigns one of these rows to every variable: `index` and `revIndex` are
inverse to one another, and `restrType` tells which bound a basic row is at. In the arrays, the
rows of the variables begin at `kMax`; to the outside, they begin at `kAct`.

The inverse of the basis matrix is computed by `GaussElim` on demand, or updated by `Pivot` when
one row is exchanged. `Pivot` takes an existing inverse for valid, whatever has happened since it
was computed, and `InitBasis` sets the types of the variables at the offset `kAct`. Along the runs
where neither matters, the arrays represent a basis and a valid inverse is the inverse of its
matrix (`basis_represented`).
-/

set_option autoImplicit false

namespace Goblin

open Library Option Function

variable {k i j : ℕ} {small : ℚ → Bool}

/-- `TRestrType` -/
inductive RestrType where
  | basicLB
  | basicUB
  | nonBasic
  | canceled
deriving DecidableEq

/-- `TLowerUpper` -/
inductive LowerUpper where
  | lower
  | upper
deriving DecidableEq

/-- `TRestrType(rt)` -/
def LowerUpper.toRestrType : LowerUpper → RestrType
  | lower => .basicLB
  | upper => .basicUB

/-- The row is in the basis. -/
def RestrType.Basic (rt : RestrType) : Prop := rt = .basicLB ∨ rt = .basicUB

instance (rt : RestrType) : Decidable rt.Basic := inferInstanceAs (Decidable (_ ∨ _))

theorem LowerUpper.basic (rt : LowerUpper) : rt.toRestrType.Basic := by
  cases rt
  · exact .inl rfl
  · exact .inr rfl

/-- The arrays of a basis. `NoRestr` and `NoVar` are `none`. -/
structure BasisArrays where
  index : ℕ → Option ℕ
  revIndex : ℕ → Option ℕ
  restrType : ℕ → RestrType

namespace BasisArrays

/-- The assignments of `SetIndex`, for a row as the arrays count it. -/
def assign (b : BasisArrays) (i j : ℕ) (rt : RestrType) : BasisArrays :=
  let i2 := (b.index j).filter fun i2 => i2 ≠ i
  let rt2 := match i2 with
    | some i2 => b.restrType i2
    | none => .nonBasic
  let b : BasisArrays := match i2 with
    | some i2 => { b with
        restrType := update b.restrType i2 .nonBasic
        revIndex := update b.revIndex i2 none }
    | none => b
  let b : BasisArrays := match (b.revIndex i).filter fun j2 => j2 ≠ j with
    | some j2 =>
      match i2 with
      | some i2 =>
        { index := update b.index j2 (some i2)
          revIndex := update b.revIndex i2 (some j2)
          restrType := update b.restrType i2 rt2 }
      | none => { b with index := update b.index j2 none }
    | none => b
  { index := update b.index j (some i)
    revIndex := update b.revIndex i (some j)
    restrType := update b.restrType i rt }

/-- What the constructor writes. -/
def init : BasisArrays := ⟨fun _ => none, fun _ => none, fun _ => .nonBasic⟩

/-- `AddRestr` for the restriction `k`. -/
def addRestr (b : BasisArrays) (k : ℕ) : BasisArrays :=
  { b with
    restrType := update b.restrType k .nonBasic
    revIndex := update b.revIndex k none }

/-- `AddVar` for the variable `l` with the upper bound `u`. -/
def addVar (b : BasisArrays) (kMax l : ℕ) (u : ℚ) : BasisArrays :=
  b.assign (kMax + l) l (if u = infFloat then LowerUpper.lower else .upper).toRestrType

/-- The arrays after `k` restrictions and `l` variables have been added, within the reserved
numbers. -/
inductive Added (kMax lMax : ℕ) : ℕ → ℕ → BasisArrays → Prop
  | init : Added kMax lMax 0 0 init
  | addRestr {k l : ℕ} {b : BasisArrays} (added : Added kMax lMax k l b) (low : k < kMax) :
      Added kMax lMax (k + 1) l (b.addRestr k)
  | addVar {k l : ℕ} {b : BasisArrays} (u : ℚ) (added : Added kMax lMax k l b) (low : l < lMax) :
      Added kMax lMax k (l + 1) (b.addVar kMax l u)

end BasisArrays

/-- A linear program with `l` active variables. The bounds are those of the restrictions, followed
by those of the variables; `epsilon` is the tolerance of the controller. -/
structure LinearProgram (l : ℕ) where
  kAct : ℕ
  kMax : ℕ
  lMax : ℕ
  coeff : ℕ → Fin l → ℚ
  cost : Fin l → ℚ
  lBound : ℕ → ℚ
  uBound : ℕ → ℚ
  epsilon : ℚ
  kAct_le : kAct ≤ kMax
  l_le : l ≤ lMax
  epsilon_pos : 0 < epsilon

/-- The data that depend on the basis. -/
structure LpState (l : ℕ) extends BasisArrays where
  baseInv : Option (Matrix (Fin l) (Fin l) ℚ)
  x : Fin l → ℚ
  y : ℕ → ℚ
  baseInitial : Bool
  baseValid : Bool
  dataValid : Bool

/-- `EPSILON` -/
def pivotEpsilon : ℚ := 1 / 10 ^ 10

namespace LinearProgram

variable {l : ℕ} (L : LinearProgram l)

/-! ## Rows -/

/-- The row as the arrays count it. -/
def slot (i : ℕ) : ℕ := if L.kAct ≤ i then i + (L.kMax - L.kAct) else i

def index (st : LpState l) (j : ℕ) : Option ℕ :=
  (st.index j).map fun i => if i < L.kMax then i else i - (L.kMax - L.kAct)

def revIndex (st : LpState l) (i : ℕ) : Option ℕ := st.revIndex (L.slot i)

def restrType (st : LpState l) (i : ℕ) : RestrType := st.restrType (L.slot i)

/-- The coefficients of a row; those of a variable form a unit row. -/
def row (i : ℕ) (c : Fin l) : ℚ :=
  if i < L.kAct then L.coeff i c else if (c : ℕ) = i - L.kAct then 1 else 0

/-- The matrix of the basic rows. -/
def basisMatrix (st : LpState l) : Matrix (Fin l) (Fin l) ℚ := fun j c =>
  match L.index st j with
  | some i => L.row i c
  | none => 0

/-- The first variable without a basic row. -/
def firstFree (st : LpState l) : Option (Fin l) :=
  (List.finRange l).find? fun j => (L.index st j).isNone

/-! ## Evaluation -/

section

variable (st : LpState l)

def defaultBasisInverse : Except (Raise × LpState l) (LpState l) :=
  if ¬ st.baseInitial then .error (.rejected "DefaultBasisInverse" "Basis is not initial", st)
  else
    .ok { st with
      baseInv := some <| match st.baseInv with
        | some N => if st.baseValid then N else 1
        | none => if st.baseValid then 0 else 1
      x := fun i =>
        if L.lBound (L.kAct + i) = -infFloat ∧ L.uBound (L.kAct + i) = infFloat then 0
        else match L.restrType st (L.kAct + i) with
          | .basicLB => L.lBound (L.kAct + i)
          | .basicUB => L.uBound (L.kAct + i)
          | _ => st.x i
      y := fun i =>
        if i < L.kAct then 0
        else if low : i - L.kAct < l then L.cost ⟨i - L.kAct, low⟩
        else st.y i
      baseValid := true
      dataValid := true }

/-- The basis matrix is copied and inverted. -/
def recompute : Except (Raise × LpState l) (LpState l) :=
  let N := st.baseInv.getD 0
  match L.firstFree st with
  | some free =>
    .error (.rejected "EvaluateBasis" "Incomplete basis information",
      { st with baseInv := some fun r c => if r < free then (1 : Matrix _ _ ℚ) r c else N r c })
  | none =>
    match Elimination.gaussElim L.epsilon 0 (L.basisMatrix st) 1 with
    | .ok g => .ok { st with baseInv := some g.B, baseValid := true }
    | .error (e, g) => .error (e, { st with baseInv := some g.B })

/-- The bound that a basic row is at; `0` for a free variable. -/
def rightHandSide (k : ℕ) : ℚ :=
  if L.restrType st k = .basicUB ∧ L.uBound k < infFloat then L.uBound k
  else if -infFloat < L.lBound k then L.lBound k
  else 0

/-- The column of a basic row in the basis inverse. -/
def column (i : ℕ) : Option (Fin l) :=
  match L.revIndex st i with
  | some j => if low : j < l then some ⟨j, low⟩ else none
  | none => none

def solutionUpdate : Except (Raise × LpState l) (LpState l) :=
  match st.baseInv with
  | none => .error (.rejected "SolutionUpdate" "Base inverse does not exist", st)
  | some N =>
    if ¬ st.baseValid then
      .error (.rejected "SolutionUpdate" "Base inverse is not up to date", st)
    else if (L.firstFree st).isSome then .error (.range "RestrType" "No such restriction", st)
    else
      .ok { st with
        x := fun i => ∑ j : Fin l, N i j * ((L.index st j).map (L.rightHandSide st)).getD 0
        y := fun i =>
          if (L.restrType st i).Basic then
            match L.column st i with
            | some j2 => ∑ j : Fin l, N j j2 * L.cost j
            | none => 0
          else 0
        dataValid := true }

/-- `EvaluateBasis`. New matrices are filled with zeros. -/
def evaluateBasis : Except (Raise × LpState l) (LpState l) :=
  if st.dataValid then .ok st
  else if st.baseInitial then L.defaultBasisInverse st
  else do
    let st := match st.baseInv with
      | some _ => st
      | none => { st with baseInv := some 0, baseValid := false }
    let st ← if st.baseValid then pure st else L.recompute st
    L.solutionUpdate st

end

/-! ## Changes of the basis -/

/-- `SetIndex`. Variables are not canceled here. -/
def setIndex (st : LpState l) (i j : ℕ) (rt : LowerUpper) :
    Except (Raise × LpState l) (LpState l) :=
  if L.kAct + l ≤ i then .error (.range "SetIndex" "No such restriction", st)
  else if l ≤ j then .error (.range "SetIndex" "No such variable", st)
  else if st.restrType i = .canceled then
    .error (.rejected "SetIndex" "Pivot restriction is canceled", st)
  else
    .ok { st with
      toBasisArrays := st.toBasisArrays.assign (L.slot i) j rt.toRestrType
      baseInitial := false
      baseValid := false
      dataValid := false }

/-- `InitBasis`. The types of the variables are set at the offset `kAct`. -/
def initBasis (st : LpState l) : LpState l :=
  { st with
    index := fun j => if j < l then some (j + L.kMax) else st.index j
    revIndex := fun i =>
      if L.kMax ≤ i ∧ i < L.kMax + l then some (i - L.kMax)
      else if i < L.kAct then none
      else st.revIndex i
    restrType := fun i =>
      if L.kAct ≤ i ∧ i < L.kAct + l then .basicLB
      else if i < L.kAct then .nonBasic
      else st.restrType i
    baseInitial := true
    baseValid := false
    dataValid := false }

/-- The entry of `Tableau` for a column of the basis inverse. -/
def entry (N : Matrix (Fin l) (Fin l) ℚ) (i : ℕ) (c : Fin l) : ℚ :=
  if i < L.kAct then ∑ k, L.coeff i k * N k c
  else if low : i - L.kAct < l then N ⟨i - L.kAct, low⟩ c
  else 0

/-- `Tableau(Index(r),i)` while the basis inverse counts as valid. -/
def candidate (st : LpState l) (N : Matrix (Fin l) (Fin l) ℚ) (i : ℕ) (r : Fin l) : Option ℚ :=
  (L.index st r).bind fun k => (L.column st k).map (L.entry N i)

section

variable (small : ℚ → Bool) (st : LpState l)

/-- `BasisUpdate`, with the test that rejects the pivot element. -/
def basisUpdateBy (N : Matrix (Fin l) (Fin l) ℚ) (i : ℕ)
    (j : Fin l) : Except (Raise × LpState l) (LpState l) :=
  let st := { st with baseValid := true }
  match L.candidate st N i j with
  | none => .error (.rejected "Tableau" "Non-basic row", st)
  | some pivotElt =>
    if small pivotElt then
      .error (.rejected "BasisUpdate" "Pivot element too small", st)
    else if ((List.finRange l).find? fun r => (L.candidate st N i r).isNone).isSome then
      .error (.range "Tableau" "No such restriction", st)
    else
      let cand := fun r => (L.candidate st N i r).getD 0
      .ok { st with
        baseInv := some fun s r =>
          if r = j then N s j / pivotElt else N s r - cand r * N s j / pivotElt }

/-- `Pivot` with the leaving row `j` and the entering row `i`, and the test of `BasisUpdate`. -/
def pivotBy (j i : ℕ) (rt : LowerUpper) :
    Except (Raise × LpState l) (LpState l) :=
  if L.kAct + l ≤ i then .error (.range "Pivot" "No such restriction", st)
  else if L.kAct + l ≤ j then .error (.range "Pivot" "No such restriction", st)
  else if L.restrType st j = .canceled then
    .error (.rejected "Pivot" "Leaving row is canceled", st)
  else if L.restrType st i = .canceled then
    .error (.rejected "Pivot" "Entering row is canceled", st)
  else if L.restrType st i ≠ .nonBasic ∧ i ≠ j then
    .error (.rejected "Pivot" "Row is already in basis", st)
  else if L.restrType st j = .nonBasic then
    .error (.rejected "Pivot" "Leaving row is non-basic", st)
  else
    match L.column st j with
    | none => .error (.range "SetIndex" "No such variable", st)
    | some c => do
      let st ← L.setIndex st i c rt
      match st.baseInv with
      | none => L.evaluateBasis st
      | some N => L.basisUpdateBy small st N i c

end

def pivot (st : LpState l) (j i : ℕ) (rt : LowerUpper) :
    Except (Raise × LpState l) (LpState l) :=
  L.pivotBy (fun pivotElt => decide (|pivotElt| < pivotEpsilon)) st j i rt

/-! ## Queries -/

section

variable (st : LpState l) (i : ℕ)

/-- `X` -/
def xValue : Except (Raise × LpState l) (ℚ × LpState l) :=
  if low : i < l then do
    let st ← if st.dataValid then pure st else L.evaluateBasis st
    return (st.x ⟨i, low⟩, st)
  else .error (.range "X" "No such variable", st)

/-- `Y` -/
def yValue (rt : LowerUpper) :
    Except (Raise × LpState l) (ℚ × LpState l) :=
  if L.kAct + l ≤ i then .error (.range "Y" "No such restriction", st)
  else if rt.toRestrType ≠ L.restrType st i then .ok (0, st)
  else do
    let st ← if st.dataValid then pure st else L.evaluateBasis st
    return (st.y i, st)

def tableau (j : ℕ) : Except (Raise × LpState l) (ℚ × LpState l) :=
  if L.kAct + l ≤ i then .error (.range "Tableau" "No such restriction", st)
  else if L.kAct + l ≤ j then .error (.range "Tableau" "No such restriction", st)
  else if (L.revIndex st i).isNone then .error (.rejected "Tableau" "Non-basic row", st)
  else do
    let st ← if st.baseValid then pure st else L.evaluateBasis st
    match st.baseInv, L.column st i with
    | some N, some c => return (L.entry N j c, st)
    | _, _ => throw (.range "Coeff" "No such index", st)

end

end LinearProgram

/-! ## The arrays -/

namespace BasisArrays

variable {D : ℕ → Prop} {l i j : ℕ} {b : BasisArrays} {rt : RestrType}

/-- The arrays are inverse to one another on the rows of `D`, and the basic rows are those with a
variable. -/
structure Inverse (D : ℕ → Prop) (l : ℕ) (b : BasisArrays) : Prop where
  slot : ∀ j, j < l → ∀ i, b.index j = some i → D i ∧ b.revIndex i = some j
  var : ∀ i, D i → ∀ j, b.revIndex i = some j → j < l ∧ b.index j = some i
  basic : ∀ i, D i → ((b.restrType i).Basic ↔ b.revIndex i ≠ none)

theorem assign_take (rt : RestrType) (row : b.index j = none ∨ b.index j = some i) :
    b.assign i j rt =
      { index := update
          (match (b.revIndex i).filter fun j2 => j2 ≠ j with
            | some j2 => update b.index j2 none
            | none => b.index) j (some i)
        revIndex := update b.revIndex i (some j)
        restrType := update b.restrType i rt } := by
  have other : ((b.index j).filter fun i2 => i2 ≠ i) = none := by
    rcases row with free | eq
    · rw [free]
      rfl
    · rw [eq]
      simp
  simp only [assign, other]
  cases (b.revIndex i).filter fun j2 => j2 ≠ j <;> rfl

theorem assign_exchange {i2 : ℕ} (rt : RestrType) (row : b.index j = some i2) (differs : i2 ≠ i) :
    b.assign i j rt = match (b.revIndex i).filter fun j2 => j2 ≠ j with
      | none =>
        { index := update b.index j (some i)
          revIndex := update (update b.revIndex i2 none) i (some j)
          restrType := update (update b.restrType i2 .nonBasic) i rt }
      | some j2 =>
        { index := update (update b.index j2 (some i2)) j (some i)
          revIndex := update (update b.revIndex i2 (some j2)) i (some j)
          restrType := update b.restrType i rt } := by
  have other : ((b.index j).filter fun i2 => i2 ≠ i) = some i2 := by
    rw [row]
    simp [differs]
  simp only [assign, other, update_of_ne (Ne.symm differs)]
  cases (b.revIndex i).filter fun j2 => j2 ≠ j with
  | none => rfl
  | some j2 =>
    simp only [update_idem, update_eq_self]

theorem none_or_some_of_not {row : Option ℕ} (same : ¬ ∃ i2, row = some i2 ∧ i2 ≠ i) :
    row = none ∨ row = some i := by
  cases row with
  | none => exact .inl rfl
  | some i2 => exact .inr (congrArg some (not_not.1 fun other => same ⟨i2, rfl, other⟩))

/-- **`SetIndex` keeps the arrays inverse to one another.** -/
theorem Inverse.assign (inv : b.Inverse D l) (inD : D i) (low : j < l) (basic : rt.Basic) :
    (b.assign i j rt).Inverse D l := by
  obtain ⟨slot, var, basicIff⟩ := inv
  have former : ((b.revIndex i).filter (fun j2 => j2 ≠ j) = none ∧
      ∀ j2, b.revIndex i = some j2 → j2 = j) ∨
      ∃ j2, (b.revIndex i).filter (fun j2 => j2 ≠ j) = some j2 ∧ b.revIndex i = some j2 ∧
        j2 ≠ j := by
    cases val : (b.revIndex i).filter fun j2 => j2 ≠ j with
    | none => exact .inl ⟨rfl, fun j2 atI => by_contra fun other => by simp [atI, other] at val⟩
    | some j2 => exact .inr ⟨j2, rfl, by simpa [filter_eq_some_iff] using val⟩
  by_cases exchange : ∃ i2, b.index j = some i2 ∧ i2 ≠ i
  · obtain ⟨i2, row, differs⟩ := exchange
    obtain ⟨inD2, rev2⟩ := slot j low i2 row
    have basic2 := (basicIff i2 inD2).2 (by simp [rev2])
    rw [assign_exchange rt row differs]
    rcases former with ⟨former, free⟩ | ⟨j2, former, taken⟩
    all_goals
      rw [former]
      refine ⟨?_, ?_, ?_⟩ <;> dsimp only [update_apply]
      · intro j' low' i' atJ
        grind
      · intro i' inD' j' atI
        grind
      · intro i' inD'
        have := basicIff i' inD'
        grind [RestrType.Basic]
  · have row := none_or_some_of_not exchange
    rw [assign_take rt row]
    rcases former with ⟨former, free⟩ | ⟨j2, former, taken⟩
    all_goals
      rw [former]
      refine ⟨?_, ?_, ?_⟩ <;> dsimp only [update_apply]
      · intro j' low' i' atJ
        grind
      · intro i' inD' j' atI
        grind
      · intro i' inD'
        have := basicIff i' inD'
        grind [RestrType.Basic]

theorem Added.eq {kMax lMax : ℕ} (added : Added kMax lMax k l b) :
    (∀ j, b.index j = if j < l then some (kMax + j) else none) ∧
    (∀ i, b.revIndex i = if kMax ≤ i ∧ i < kMax + l then some (i - kMax) else none) ∧
    ∀ i, (b.restrType i).Basic ↔ kMax ≤ i ∧ i < kMax + l := by
  induction added with
  | init =>
    refine ⟨fun j => by simp [BasisArrays.init], fun i => ?_, fun i => ?_⟩
    · rw [if_neg (by omega)]
      rfl
    · simp [BasisArrays.init, RestrType.Basic]
  | @addRestr k l b added low ih =>
    obtain ⟨index, revIndex, restrType⟩ := ih
    refine ⟨index, fun i => ?_, fun i => ?_⟩
    · by_cases here : i = k
      · subst here
        rw [if_neg (by omega)]
        simp [BasisArrays.addRestr]
      · simpa [BasisArrays.addRestr, update_of_ne here] using revIndex i
    · by_cases here : i = k
      · subst here
        simp [BasisArrays.addRestr, RestrType.Basic]
        omega
      · simpa [BasisArrays.addRestr, update_of_ne here] using restrType i
  | @addVar k l b u added low ih =>
    obtain ⟨index, revIndex, restrType⟩ := ih
    have free : b.index l = none := by rw [index, if_neg (lt_irrefl l)]
    have fresh : b.revIndex (kMax + l) = none := by rw [revIndex, if_neg (by omega)]
    rw [BasisArrays.addVar, assign_take _ (.inl free), fresh]
    dsimp only [Option.filter]
    refine ⟨fun j => ?_, fun i => ?_, fun i => ?_⟩
    · by_cases here : j = l
      · subst here
        rw [update_self, if_pos (Nat.lt_succ_self j)]
      · rw [update_of_ne here, index]
        exact if_congr (by omega) rfl rfl
    · by_cases here : i = kMax + l
      · subst here
        rw [update_self, if_pos (by omega), Nat.add_sub_cancel_left]
      · rw [update_of_ne here, revIndex]
        exact if_congr (by omega) rfl rfl
    · by_cases here : i = kMax + l
      · subst here
        rw [update_self]
        exact iff_of_true (LowerUpper.basic _) (by omega)
      · rw [update_of_ne here, restrType]
        omega

end BasisArrays

namespace LinearProgram

variable {l : ℕ} (L : LinearProgram l) {st st' : LpState l}

/-- A row or a variable is stored here. -/
def Stored (i : ℕ) : Prop := i < L.kAct ∨ (L.kMax ≤ i ∧ i < L.kMax + l)

variable {L} {N : Matrix (Fin l) (Fin l) ℚ} {rt : LowerUpper} {c : Fin l}

theorem stored_slot (low : i < L.kAct + l) : L.Stored (L.slot i) := by
  have := L.kAct_le
  unfold Stored slot
  split_ifs <;> omega

theorem slot_inj (eq : L.slot i = L.slot k) : i = k := by
  unfold slot at eq
  have := L.kAct_le
  split_ifs at eq <;> omega

/-- The rows that are stored, as they are addressed. -/
theorem exists_slot (stored : L.Stored i) :
    ∃ k, k < L.kAct + l ∧ L.slot k = i ∧ (if i < L.kMax then i else i - (L.kMax - L.kAct)) = k := by
  have := L.kAct_le
  rcases stored with low | ⟨high, low⟩
  · exact ⟨i, by omega, if_neg (by omega), if_pos (by omega)⟩
  · refine ⟨i - (L.kMax - L.kAct), by omega, ?_, if_neg (by omega)⟩
    rw [slot, if_pos (by omega)]
    omega

section

variable (inv : st.toBasisArrays.Inverse L.Stored l) (low : j < l)
include inv low

theorem index_eq_some :
    L.index st j = some i ↔ i < L.kAct + l ∧ st.index j = some (L.slot i) := by
  constructor
  · intro atJ
    obtain ⟨i', row, rfl⟩ := map_eq_some_iff.1 atJ
    obtain ⟨k, bound, slot, back⟩ := exists_slot (inv.slot j low i' row).1
    rw [back, slot]
    exact ⟨bound, row⟩
  · rintro ⟨bound, row⟩
    obtain ⟨k, -, slot, back⟩ := exists_slot (stored_slot bound)
    rw [index, row, map_some, back, slot_inj slot]

theorem index_eq_some_iff
    (bound : i < L.kAct + l) : L.index st j = some i ↔ L.revIndex st i = some j := by
  rw [index_eq_some inv low]
  constructor
  · rintro ⟨-, row⟩
    exact (inv.slot j low _ row).2
  · intro atI
    exact ⟨bound, (inv.var _ (stored_slot bound) j atI).2⟩

end

/-! ## The invariant -/

/-- The arrays represent a basis, and a valid inverse is the inverse of its matrix. -/
structure BasisInv (L : LinearProgram l) (st : LpState l) : Prop where
  inverse : st.toBasisArrays.Inverse L.Stored l
  matrix : st.baseValid = true →
    ∃ N : Matrix (Fin l) (Fin l) ℚ, st.baseInv = some N ∧ L.basisMatrix st * N = 1
  data : st.dataValid = true → st.baseValid = true
  initial : st.baseInitial = true → ∀ j, j < l → st.index j = some (L.kMax + j)

section

variable (inv : BasisInv L st) (initial : st.baseInitial = true)
include inv initial

theorem index_initial (j : Fin l) :
    L.index st j = some (L.kAct + j) := by
  have := L.kAct_le
  have below := j.isLt
  rw [index_eq_some inv.inverse below, inv.initial initial j below, slot, if_pos (by omega)]
  refine ⟨by omega, congrArg some (by omega)⟩

theorem basisMatrix_initial :
    L.basisMatrix st = 1 := by
  ext j c
  rw [basisMatrix, index_initial inv initial, Matrix.one_apply]
  dsimp only
  rw [row, if_neg (by omega), Nat.add_sub_cancel_left]
  exact if_congr (by rw [Fin.ext_iff, eq_comm]) rfl rfl

end

/-- Every variable has a row when the basis matrix is regular. -/
theorem index_ne_none (inverse : L.basisMatrix st * N = 1) (j : Fin l) : L.index st j ≠ none := by
  intro free
  have unit := congrFun (congrFun inverse j) j
  rw [Matrix.mul_apply, Matrix.one_apply_eq] at unit
  have zero : ∀ c, L.basisMatrix st j c = 0 := by
    intro c
    rw [basisMatrix, free]
  simp [zero] at unit

theorem basisMatrix_congr (eq : st'.index = st.index) : L.basisMatrix st' = L.basisMatrix st := by
  ext j c
  simp only [basisMatrix, index, eq]

theorem BasisInv.evaluated (inv : BasisInv L st)
    (eq : st'.toBasisArrays = st.toBasisArrays)
    (initial : st'.baseInitial = st.baseInitial)
    (matrix : st'.baseValid = true →
      ∃ N : Matrix (Fin l) (Fin l) ℚ, st'.baseInv = some N ∧ L.basisMatrix st * N = 1)
    (data : st'.dataValid = true → st'.baseValid = true) : BasisInv L st' where
  inverse := eq ▸ inv.inverse
  matrix valid := by
    rw [basisMatrix_congr (congrArg BasisArrays.index eq)]
    exact matrix valid
  data := data
  initial := by
    rw [initial, eq]
    exact inv.initial

/-! ## Evaluation keeps the invariant -/

/-- The state that a call leaves, whether it returns or raises. -/
def leaves (result : Except (Raise × LpState l) (LpState l)) : LpState l :=
  match result with
  | .ok st => st
  | .error (_, st) => st

theorem defaultBasisInverse_keeps (inv : BasisInv L st) :
    BasisInv L (leaves (L.defaultBasisInverse st)) := by
  unfold defaultBasisInverse
  by_cases initial : st.baseInitial = true
  · rw [if_neg (not_not.2 initial)]
    refine inv.evaluated rfl rfl (fun _ => ⟨_, rfl, ?_⟩) fun _ => rfl
    by_cases valid : st.baseValid = true
    · obtain ⟨N, stored, inverse⟩ := inv.matrix valid
      simp only [stored, if_pos valid]
      exact inverse
    · rw [basisMatrix_initial inv initial]
      cases st.baseInv <;> simp [valid]
  · rw [if_pos initial]
    exact inv

/-- A recomputation gives the inverse of the basis matrix, or leaves the inverse invalid. -/
theorem recompute_spec (st : LpState l) :
    (∀ st', L.recompute st = .ok st' →
      ∃ N : Matrix (Fin l) (Fin l) ℚ, L.basisMatrix st * N = 1 ∧
        st' = { st with baseInv := some N, baseValid := true }) ∧
    ∀ e st', L.recompute st = .error (e, st') → ∃ N, st' = { st with baseInv := some N } := by
  unfold recompute
  dsimp only
  cases L.firstFree st with
  | some free => exact ⟨nofun, fun e st' res => ⟨_, by cases res; rfl⟩⟩
  | none =>
    cases eliminated : Elimination.gaussElim L.epsilon 0 (L.basisMatrix st)
        (1 : Matrix (Fin l) (Fin l) ℚ) with
    | error err => exact ⟨nofun, fun e st' res => ⟨err.2.B, by cases res; rfl⟩⟩
    | ok g =>
      obtain ⟨-, regular, solution⟩ := Elimination.gaussElim_spec L.epsilon_pos eliminated
      refine ⟨fun st' res => ⟨g.B, ?_, by cases res; rfl⟩, nofun⟩
      rw [solution, mul_one, Matrix.mul_nonsing_inv _ regular]

theorem solutionUpdate_spec :
    leaves (L.solutionUpdate st) = st ∨ st.baseValid = true ∧
      ∃ x y, leaves (L.solutionUpdate st) = { st with x := x, y := y, dataValid := true } := by
  unfold solutionUpdate
  cases st.baseInv with
  | none => exact .inl rfl
  | some N =>
    dsimp only
    by_cases valid : st.baseValid = true
    · rw [if_neg (not_not.2 valid)]
      split_ifs with free
      · exact .inl rfl
      · exact .inr ⟨valid, _, _, rfl⟩
    · rw [if_pos valid]
      exact .inl rfl

theorem solutionUpdate_keeps (inv : BasisInv L st) : BasisInv L (leaves (L.solutionUpdate st)) := by
  rcases (solutionUpdate_spec : leaves (L.solutionUpdate st) = st ∨ _) with
    same | ⟨valid, x, y, update⟩
  · rw [same]
    exact inv
  · rw [update]
    exact inv.evaluated rfl rfl inv.matrix fun _ => valid

/-- **`EvaluateBasis` keeps the basis and inverts its matrix.** -/
theorem evaluateBasis_keeps (inv : BasisInv L st) : BasisInv L (leaves (L.evaluateBasis st)) := by
  unfold evaluateBasis
  by_cases cur : st.dataValid = true
  · rw [if_pos cur]
    exact inv
  rw [if_neg cur]
  split_ifs with initial
  · exact defaultBasisInverse_keeps inv
  -- the state with a matrix to write to
  have allocated : BasisInv L (match st.baseInv with
      | some _ => st
      | none => { st with baseInv := some 0, baseValid := false }) := by
    cases stored : st.baseInv with
    | some N => exact inv
    | none => exact inv.evaluated rfl rfl nofun fun valid => absurd valid cur
  dsimp only
  revert allocated
  generalize (match st.baseInv with
      | some _ => st
      | none => { st with baseInv := some 0, baseValid := false }) = st1
  intro inv1
  split_ifs with valid
  · exact solutionUpdate_keeps inv1
  obtain ⟨regular, singular⟩ := L.recompute_spec st1
  cases inverted : L.recompute st1 with
  | error err =>
    obtain ⟨N, state⟩ := singular err.1 err.2 inverted
    change BasisInv L err.2
    rw [state]
    exact inv1.evaluated rfl rfl (fun claimed => absurd claimed valid) inv1.data
  | ok st2 =>
    obtain ⟨N, inverse, rfl⟩ := regular st2 inverted
    have inv2 : BasisInv L { st1 with baseInv := some N, baseValid := true } :=
      inv1.evaluated rfl rfl (fun _ => ⟨N, rfl, inverse⟩) fun _ => rfl
    exact solutionUpdate_keeps inv2

/-! ## Changes of the basis keep the invariant -/

theorem initBasis_keeps (inv : BasisInv L st)
    (aligned : ∀ j, j < l → L.kAct + l ≤ L.kMax + j → (st.restrType (L.kMax + j)).Basic) :
    BasisInv L (L.initBasis st) where
  inverse := by
    have := L.kAct_le
    obtain ⟨slot, var, basic⟩ := inv.inverse
    refine ⟨?_, ?_, ?_⟩ <;> dsimp only [initBasis, Stored]
    · intro j low i row
      rw [if_pos low, Option.some.injEq] at row
      subst row
      rw [if_pos (by omega), Nat.add_sub_cancel]
      exact ⟨.inr (by omega), rfl⟩
    · rintro i (low | ⟨high, low⟩) j atI
      · rw [if_neg (by omega), if_pos low] at atI
        cases atI
      · rw [if_pos ⟨high, low⟩, Option.some.injEq] at atI
        rw [if_pos (by omega), ← atI]
        exact ⟨by omega, congrArg some (by omega)⟩
    · rintro i (low | ⟨high, low⟩)
      · rw [if_neg (by omega), if_pos low, if_neg (by omega), if_pos low]
        simp [RestrType.Basic]
      · refine iff_of_true ?_ (by rw [if_pos ⟨high, low⟩]; exact some_ne_none _)
        by_cases overlap : i < L.kAct + l
        · rw [if_pos (by omega)]
          exact .inl rfl
        · rw [if_neg (by omega), if_neg (by omega)]
          have kept := aligned (i - L.kMax) (by omega) (by omega)
          rwa [Nat.add_sub_cancel' high] at kept
  matrix := nofun
  data := nofun
  initial _ j low := by
    change (if j < l then some (j + L.kMax) else st.index j) = _
    rw [if_pos low, Nat.add_comm]

theorem setIndex_ok (res : L.setIndex st i j rt = .ok st') :
    i < L.kAct + l ∧ j < l ∧ st' = { st with
      toBasisArrays := st.toBasisArrays.assign (L.slot i) j rt.toRestrType
      baseInitial := false
      baseValid := false
      dataValid := false } := by
  unfold setIndex at res
  obtain ⟨high, res⟩ := of_check res
  obtain ⟨wide, res⟩ := of_check res
  obtain ⟨canceled, res⟩ := of_check res
  cases res
  exact ⟨not_le.1 high, not_le.1 wide, rfl⟩

theorem setIndex_error {err : Raise × LpState l}
    (res : L.setIndex st i j rt = .error err) : err.2 = st := by
  unfold setIndex at res
  split_ifs at res <;> cases res <;> rfl

theorem setIndex_keeps (inv : BasisInv L st) (i j : ℕ) (rt : LowerUpper) :
    BasisInv L (leaves (L.setIndex st i j rt)) := by
  cases res : L.setIndex st i j rt with
  | error err =>
    change BasisInv L err.2
    rw [setIndex_error res]
    exact inv
  | ok st' =>
    obtain ⟨low, width, rfl⟩ := setIndex_ok res
    exact ⟨inv.inverse.assign (stored_slot low) width (LowerUpper.basic rt), nofun, nofun, nofun⟩

theorem entry_eq_inBasis (L : LinearProgram l) (N : Matrix (Fin l) (Fin l) ℚ) (low : i < L.kAct + l)
    (c : Fin l) : L.entry N i c = inBasis N (L.row i) c := by
  unfold entry inBasis row
  by_cases restr : i < L.kAct
  · simp only [if_pos restr]
  have width : i - L.kAct < l := by omega
  simp only [if_neg restr, dif_pos width]
  rw [Finset.sum_eq_single ⟨i - L.kAct, width⟩]
  · simp
  · intro k _ other
    have differs : (k : ℕ) ≠ i - L.kAct := fun eq => other (Fin.ext eq)
    rw [if_neg differs, zero_mul]
  · intro out
    exact absurd (Finset.mem_univ _) out

theorem candidate_eq (inv : st.toBasisArrays.Inverse L.Stored l) {r : Fin l} (low : i < L.kAct + l)
    (row : L.index st r = some k) : L.candidate st N i r = some (inBasis N (L.row i) r) := by
  obtain ⟨bound, stored⟩ := (index_eq_some inv r.isLt).1 row
  have back : L.revIndex st k = some (r : ℕ) := (inv.slot r r.isLt _ stored).2
  have col : L.column st k = some r := by
    unfold column
    rw [back]
    exact dif_pos r.isLt
  rw [candidate, row, bind_some, col, map_some, entry_eq_inBasis L N low]

/-- The row replaces the row of the variable. The other variables keep theirs, and the other rows
keep their types. -/
theorem assign_entering (rt : RestrType) (b : BasisArrays)
    (free : ∀ j2, b.revIndex i = some j2 → j2 = j) :
    (b.assign i j rt).index = update b.index j (some i) ∧ (b.assign i j rt).restrType i = rt ∧
      ∀ i', i' ≠ i → b.index j ≠ some i' → (b.assign i j rt).restrType i' = b.restrType i' := by
  have filtered : ((b.revIndex i).filter fun j2 => j2 ≠ j) = none := by
    cases atI : b.revIndex i with
    | none => rfl
    | some j2 => simp [Option.filter, free j2 atI]
  by_cases exchange : ∃ i2, b.index j = some i2 ∧ i2 ≠ i
  · obtain ⟨i2, row, differs⟩ := exchange
    rw [BasisArrays.assign_exchange rt row differs, filtered]
    refine ⟨rfl, update_self .., fun i' other notRow => ?_⟩
    have notLeaving : i' ≠ i2 := fun eq => notRow (eq ▸ row)
    dsimp only
    rw [update_of_ne other, update_of_ne notLeaving]
  · have row := BasisArrays.none_or_some_of_not exchange
    rw [BasisArrays.assign_take rt row, filtered]
    exact ⟨rfl, update_self .., fun i' other _ => update_of_ne other ..⟩

theorem basisMatrix_exchange (inv : st'.toBasisArrays.Inverse L.Stored l) (low : i < L.kAct + l)
    (exchanged : st'.index = update st.index c (some (L.slot i))) :
    L.basisMatrix st' = (L.basisMatrix st).updateRow c (L.row i) := by
  ext r k
  by_cases here : r = c
  · subst here
    have atR : L.index st' r = some i := by
      rw [index_eq_some inv r.isLt, exchanged, update_self]
      exact ⟨low, rfl⟩
    rw [Matrix.updateRow_self, basisMatrix, atR]
  · have differs : (r : ℕ) ≠ c := fun eq => here (Fin.ext eq)
    rw [Matrix.updateRow_ne here]
    unfold basisMatrix index
    rw [exchanged, update_of_ne differs]

theorem basisUpdate_ok (rejects : small 0 = true) (inv : st.toBasisArrays.Inverse L.Stored l)
    (low : i < L.kAct + l) (res : L.basisUpdateBy small st N i c = .ok st') :
    inBasis N (L.row i) c ≠ 0 ∧
      st' = { st with baseInv := some (exchangeInverse N c (L.row i)), baseValid := true } := by
  have spec : ∀ r v, L.candidate { st with baseValid := true } N i r = some v →
      v = inBasis N (L.row i) r := by
    intro r v cand
    obtain ⟨k, row, -⟩ := bind_eq_some_iff.1 cand
    have known : L.candidate { st with baseValid := true } N i r = some (inBasis N (L.row i) r) :=
      candidate_eq inv low row
    exact Option.some.inj (cand.symm.trans known)
  unfold basisUpdateBy at res
  dsimp only at res
  cases elt : L.candidate { st with baseValid := true } N i c with
  | none =>
    rw [elt] at res
    cases res
  | some pivotElt =>
    simp only [elt] at res
    obtain ⟨tooSmall, res⟩ := of_check res
    obtain ⟨missing, res⟩ := of_check res
    have total : ∀ r, (L.candidate { st with baseValid := true } N i r).getD 0 =
        inBasis N (L.row i) r := by
      intro r
      cases cand : L.candidate { st with baseValid := true } N i r with
      | some v => exact spec r v cand
      | none =>
        refine absurd ?_ missing
        rw [List.find?_isSome]
        exact ⟨r, List.mem_finRange r, by rw [cand]; rfl⟩
    have pivotValue := spec c pivotElt elt
    cases res
    constructor
    · rw [← pivotValue]
      intro zero
      rw [zero] at tooSmall
      exact tooSmall rejects
    · simp only [total, pivotValue]
      rfl

/-- The stored matrix is the inverse of the basis matrix, up to the row `j`. -/
def UpToDate (L : LinearProgram l) (st : LpState l) (j : ℕ) : Prop :=
  ∀ N : Matrix (Fin l) (Fin l) ℚ, st.baseInv = some N →
    ∀ r, L.column st j ≠ some r → (L.basisMatrix st * N) r = (1 : Matrix (Fin l) (Fin l) ℚ) r

theorem BasisInv.upToDate (inv : BasisInv L st) (valid : st.baseValid = true) (j : ℕ) :
    L.UpToDate st j := by
  intro N stored r _
  obtain ⟨N', stored', inverse⟩ := inv.matrix valid
  rw [stored] at stored'
  cases stored'
  rw [inverse]

/-- An accepted `Pivot`: the entering row is non-basic or the leaving row itself, and it gets the
variable of the leaving row. -/
theorem pivotBy_ok (res : L.pivotBy small st j i rt = .ok st') :
    i < L.kAct + l ∧ (L.restrType st i = .nonBasic ∨ i = j) ∧
      ∃ c, L.column st j = some c ∧ ∃ st1, L.setIndex st i c rt = .ok st1 ∧
        match st1.baseInv with
        | none => L.evaluateBasis st1 = .ok st'
        | some N => L.basisUpdateBy small st1 N i c = .ok st' := by
  unfold pivotBy at res
  obtain ⟨rowI, res⟩ := of_check res
  obtain ⟨rowJ, res⟩ := of_check res
  obtain ⟨canceledJ, res⟩ := of_check res
  obtain ⟨canceledI, res⟩ := of_check res
  obtain ⟨basicI, res⟩ := of_check res
  obtain ⟨nonBasicJ, res⟩ := of_check res
  have entering : L.restrType st i = .nonBasic ∨ i = j := by
    by_contra other
    rw [not_or] at other
    exact basicI other
  refine ⟨not_le.1 rowI, entering, ?_⟩
  cases col : L.column st j with
  | none =>
    rw [col] at res
    cases res
  | some c =>
    simp only [col] at res
    cases assigned : L.setIndex st i c rt with
    | error err =>
      rw [assigned] at res
      cases res
    | ok st1 =>
      rw [assigned] at res
      simp only [bind, Except.bind] at res
      refine ⟨c, rfl, st1, assigned, ?_⟩
      cases stored : st1.baseInv with
      | none | some N =>
        rw [stored] at res
        exact res

theorem revIndex_entering (inv : BasisInv L st) (low : i < L.kAct + l)
    (entering : L.restrType st i = .nonBasic ∨ i = j) (col : L.column st j = some c) :
    ∀ j2, st.revIndex (L.slot i) = some j2 → j2 = (c : ℕ) := by
  intro j2 atI
  rcases entering with isNonBasic | rfl
  · have basic := (inv.inverse.basic _ (stored_slot low)).2 (by rw [atI]; nofun)
    rw [restrType] at isNonBasic
    rw [isNonBasic] at basic
    rcases basic with h | h <;> cases h
  unfold column revIndex at col
  rw [atI] at col
  dsimp only at col
  by_cases width : j2 < l
  · rw [dif_pos width] at col
    exact congrArg Fin.val (Option.some.inj col)
  · rw [dif_neg width] at col
    cases col

/-- **An accepted `Pivot` exchanges a row of the basis and of its inverse.** -/
theorem pivot_keeps (rejects : small 0 = true) (inv : BasisInv L st) (cur : L.UpToDate st j)
    (res : L.pivotBy small st j i rt = .ok st') : BasisInv L st' := by
  obtain ⟨low, entering, c, col, st1, assigned, updated⟩ := pivotBy_ok res
  have inv1 : BasisInv L st1 := by
    have kept := setIndex_keeps inv i c rt
    rw [assigned] at kept
    exact kept
  obtain ⟨-, -, state⟩ := setIndex_ok assigned
  have sameInv : st1.baseInv = st.baseInv := by rw [state]
  cases stored : st1.baseInv with
  | none =>
    rw [stored] at updated
    have kept := evaluateBasis_keeps inv1
    rw [updated] at kept
    exact kept
  | some N =>
    rw [stored] at updated
    have exchanged : st1.index = update st.index c (some (L.slot i)) := by
      rw [state]
      exact (assign_entering _ _ (revIndex_entering inv low entering col)).1
    obtain ⟨pivotElt, rfl⟩ := basisUpdate_ok rejects inv1.inverse low updated
    refine inv1.evaluated rfl rfl (fun _ => ⟨_, rfl, ?_⟩) fun _ => rfl
    rw [basisMatrix_exchange inv1.inverse low exchanged]
    refine updateRow_mul_exchangeInverse (fun r other => ?_) pivotElt
    refine cur N (sameInv ▸ stored) r fun leaving => other ?_
    exact (Option.some.inj (col.symm.trans leaving)).symm

/-! ## Runs -/

/-- What the solver is asked for. -/
inductive LpCall where
  | initBasis
  | setIndex (i j : ℕ) (rt : LowerUpper)
  | pivot (j i : ℕ) (rt : LowerUpper)
  | evaluateBasis
  | x (i : ℕ)
  | y (i : ℕ) (rt : LowerUpper)
  | tableau (i j : ℕ)

section

variable (L : LinearProgram l) (st : LpState l)

/-- The answer to a call, without the value of a query. -/
def answer : LpCall → Except (Raise × LpState l) (LpState l)
  | .initBasis => .ok (L.initBasis st)
  | .setIndex i j rt => L.setIndex st i j rt
  | .pivot j i rt => L.pivot st j i rt
  | .evaluateBasis => L.evaluateBasis st
  | .x i => (L.xValue st i).map Prod.snd
  | .y i rt => (L.yValue st i rt).map Prod.snd
  | .tableau i j => (L.tableau st i j).map Prod.snd

/-- The pivots are accepted; other calls may raise. -/
def Accepted : LpCall → Prop
  | .pivot j i rt => ∃ st', L.pivot st j i rt = .ok st'
  | _ => True

/-- `InitBasis` finds the variables basic whose types it does not reach. `Pivot` finds no inverse,
or one that is up to date with the rows other than the leaving one. -/
def Careful : LpCall → Prop
  | .initBasis =>
    ∀ j, j < l → L.kAct + l ≤ L.kMax + j → (L.restrType st (L.kAct + j)).Basic
  | .pivot j _ _ => L.UpToDate st j
  | _ => True

end

/-- The states after the rows and variables have been added and any admitted calls have been
made. -/
inductive Reached (L : LinearProgram l) (Admits : LpState l → LpCall → Prop) : LpState l → Prop
  | start (b : BasisArrays) (x : Fin l → ℚ) (y : ℕ → ℚ) (added : b.Added L.kMax L.lMax L.kAct l) :
      Reached L Admits ⟨b, none, x, y, decide (l = 0), false, false⟩
  | call {st : LpState l} (c : LpCall) (reached : Reached L Admits st) (admitted : Admits st c)
      (accepted : Accepted L st c) : Reached L Admits (leaves (answer L st c))

/-- The representation of a basis, as the rows are addressed. -/
structure Represents (L : LinearProgram l) (st : LpState l) : Prop where
  index : ∀ j i, j < l → L.index st j = some i → i < L.kAct + l ∧ L.revIndex st i = some j
  revIndex : ∀ i j, i < L.kAct + l → L.revIndex st i = some j → j < l ∧ L.index st j = some i
  basic : ∀ i, i < L.kAct + l → ((L.restrType st i).Basic ↔ L.revIndex st i ≠ none)
  inverse : st.baseValid = true → ∃ N : Matrix (Fin l) (Fin l) ℚ,
    st.baseInv = some N ∧ L.basisMatrix st * N = 1 ∧ N * L.basisMatrix st = 1
  recomputed : st.baseValid = true → ∀ st', L.recompute st = .ok st' → st'.baseInv = st.baseInv

theorem BasisInv.represents (inv : BasisInv L st) : Represents L st where
  index j i low row := by
    have bound := ((index_eq_some inv.inverse low).1 row).1
    exact ⟨bound, (index_eq_some_iff inv.inverse low bound).1 row⟩
  revIndex i j bound atI := by
    have low := (inv.inverse.var _ (stored_slot bound) j atI).1
    exact ⟨low, (index_eq_some_iff inv.inverse low bound).2 atI⟩
  basic i bound := inv.inverse.basic _ (stored_slot bound)
  inverse valid := by
    obtain ⟨N, stored, inverse⟩ := inv.matrix valid
    exact ⟨N, stored, inverse, mul_eq_one_comm.1 inverse⟩
  recomputed valid st' result := by
    obtain ⟨N, stored, inverse⟩ := inv.matrix valid
    obtain ⟨N', inverse', rfl⟩ := (recompute_spec st).1 st' result
    rw [stored]
    refine congrArg some ?_
    calc N' = (N * L.basisMatrix st) * N' := by rw [mul_eq_one_comm.1 inverse, one_mul]
      _ = N := by rw [mul_assoc, inverse', mul_one]

theorem BasisInv.start {b : BasisArrays} (added : b.Added L.kMax L.lMax L.kAct l)
    (x : Fin l → ℚ) (y : ℕ → ℚ) :
    BasisInv L ⟨b, none, x, y, decide (l = 0), false, false⟩ where
  inverse := by
    have := L.kAct_le
    obtain ⟨index, revIndex, restrType⟩ := added.eq
    refine ⟨fun j low i row => ?_, fun i stored j atI => ?_, fun i stored => ?_⟩
    · rw [index, if_pos low, Option.some.injEq] at row
      subst row
      refine ⟨.inr (by omega), ?_⟩
      rw [revIndex, if_pos (by omega), Nat.add_sub_cancel_left]
    · rw [revIndex] at atI
      by_cases inside : L.kMax ≤ i ∧ i < L.kMax + l
      · rw [if_pos inside, Option.some.injEq] at atI
        subst atI
        have low : i - L.kMax < l := by omega
        refine ⟨low, ?_⟩
        rw [index, if_pos low, Nat.add_sub_cancel' inside.1]
      · rw [if_neg inside] at atI
        cases atI
    · rw [restrType, revIndex]
      split_ifs with inside
      · exact iff_of_true inside nofun
      · exact iff_of_false inside fun some => some rfl
  matrix := nofun
  data := nofun
  initial empty j low := by
    have := of_decide_eq_true empty
    omega

theorem query_keeps {α : Type} {res : Except (Raise × LpState l) (α × LpState l)}
    (inv : BasisInv L st) (state : leaves (res.map Prod.snd) = st ∨
      leaves (res.map Prod.snd) = leaves (L.evaluateBasis st)) :
    BasisInv L (leaves (res.map Prod.snd)) := by
  rcases state with eq | evaluated
  · rw [eq]
    exact inv
  · rw [evaluated]
    exact evaluateBasis_keeps inv

theorem answer_keeps (inv : BasisInv L st) (c : LpCall) (careful : Careful L st c)
    (accepted : Accepted L st c) : BasisInv L (leaves (answer L st c)) := by
  cases c with
  | initBasis =>
    refine initBasis_keeps inv fun j low out => ?_
    have basic := careful j low out
    rwa [restrType, slot, if_pos (by omega), show L.kAct + j + (L.kMax - L.kAct) = L.kMax + j by
      have := L.kAct_le
      omega] at basic
  | setIndex i j rt => exact setIndex_keeps inv i j rt
  | pivot j i rt =>
    obtain ⟨st', res⟩ := accepted
    rw [answer, res]
    exact pivot_keeps (by simp [pivotEpsilon]) inv careful res
  | evaluateBasis => exact evaluateBasis_keeps inv
  | x i =>
    refine query_keeps inv ?_
    unfold xValue
    by_cases low : i < l
    · rw [dif_pos low]
      split_ifs with cur
      · exact .inl rfl
      · cases L.evaluateBasis st <;> exact .inr rfl
    · rw [dif_neg low]
      exact .inl rfl
  | y i rt =>
    refine query_keeps inv ?_
    unfold yValue
    by_cases high : L.kAct + l ≤ i
    · rw [if_pos high]
      exact .inl rfl
    rw [if_neg high]
    by_cases other : rt.toRestrType ≠ L.restrType st i
    · rw [if_pos other]
      exact .inl rfl
    rw [if_neg other]
    split_ifs with cur
    · exact .inl rfl
    · cases L.evaluateBasis st <;> exact .inr rfl
  | tableau i j =>
    refine query_keeps inv ?_
    unfold tableau
    by_cases highI : L.kAct + l ≤ i
    · rw [if_pos highI]
      exact .inl rfl
    rw [if_neg highI]
    by_cases highJ : L.kAct + l ≤ j
    · rw [if_pos highJ]
      exact .inl rfl
    rw [if_neg highJ]
    by_cases nonBasic : (L.revIndex st i).isNone = true
    · rw [if_pos nonBasic]
      exact .inl rfl
    rw [if_neg nonBasic]
    -- the state that the entry is read from
    have read : ∀ st1 : LpState l, leaves ((match st1.baseInv, L.column st1 i with
        | some N, some c => (return (L.entry N j c, st1))
        | _, _ => throw (.range "Coeff" "No such index", st1) :
          Except (Raise × LpState l) (ℚ × LpState l)).map Prod.snd) = st1 := by
      intro st1
      cases st1.baseInv <;> cases L.column st1 i <;> rfl
    split_ifs with cur
    · exact .inl (read st)
    · cases L.evaluateBasis st with
      | error err => exact .inr rfl
      | ok st1 => exact .inr (read st1)

theorem Reached.basisInv (reached : Reached L (Careful L) st) : BasisInv L st := by
  induction reached with
  | start b x y added => exact BasisInv.start added x y
  | call c _ careful accepted inv => exact answer_keeps inv c careful accepted

/-- **The basis representation.** Along the careful runs, the arrays represent a basis, and a valid
inverse is the inverse of its matrix and what a recomputation gives. `GaussElim` turns a matrix
that it accepts into the identity, and the right-hand side into its product with the inverse. -/
theorem basis_represented (L : LinearProgram l) :
    (∀ st, Reached L (Careful L) st → Represents L st) ∧
    ∀ (d : ℕ) (e : Type) (tolerance epsilon : ℚ) (A : Matrix (Fin d) (Fin d) ℚ)
      (B : Matrix (Fin d) e ℚ) (g : Elimination d e), 0 < tolerance →
      Elimination.gaussElim tolerance epsilon A B = .ok g →
      g.A = 1 ∧ IsUnit A.det ∧ g.B = A⁻¹ * B :=
  ⟨fun _ reached => reached.basisInv.represents,
    fun _ _ _ _ _ _ _ positive result => Elimination.gaussElim_spec positive result⟩

theorem oneRow_space : 1 ≤ 1 := le_rfl

theorem oneRow_epsilon : (0 : ℚ) < 1 / 10 ^ 10 := by norm_num

/-- One restriction and one variable, with space for `kMax` restrictions. -/
def oneRow (kMax : ℕ) (space : 1 ≤ kMax) : LinearProgram 1 where
  kAct := 1
  kMax := kMax
  lMax := 1
  coeff _ _ := 2
  cost _ := 1
  lBound _ := 0
  uBound _ := 1
  epsilon := 1 / 10 ^ 10
  kAct_le := space
  l_le := oneRow_space
  epsilon_pos := oneRow_epsilon

theorem oneRow_added (kMax : ℕ) (space : 1 ≤ kMax) :
    ((BasisArrays.init.addRestr 0).addVar kMax 0 1).Added (oneRow kMax space).kMax 1 1 1 :=
  .addVar 1 (.addRestr .init space) Nat.one_pos

theorem basis_represented_oneRow : ∃ st, Represents (oneRow 1 le_rfl) st ∧ st.baseValid = true ∧
      (oneRow 1 le_rfl).index st 0 = some 1 := by
  let L := oneRow 1 le_rfl
  have start : Reached L (Careful L) _ :=
    .start _ (fun _ => 0) (fun _ => 0) (oneRow_added 1 le_rfl)
  have initial := start.call .initBasis (fun j low outside => by
    change j < 1 at low
    change 1 + 1 ≤ 1 + j at outside
    omega) trivial
  have evaluated := initial.call (.x 0) trivial trivial
  exact ⟨_, (basis_represented L).1 _ evaluated, rfl, rfl⟩

/-- With space for another restriction, `InitBasis` does not reach the type of the variable. -/
theorem basis_not_represented : ¬ ∀ (l : ℕ) (L : LinearProgram l) (st : LpState l),
    Reached L (fun _ _ => True) st → Represents L st := by
  intro claim
  let L := oneRow 2 one_le_two
  have start : Reached L (fun _ _ => True) _ :=
    .start _ (fun _ => 0) (fun _ => 0) (oneRow_added 2 one_le_two)
  have moved := start.call (.setIndex 0 0 .lower) trivial trivial
  have initial := moved.call .initBasis trivial trivial
  have basic := ((claim 1 L _ initial).basic 1 one_lt_two).2
  have typed := basic (by
    change some 0 ≠ none
    nofun)
  change RestrType.Basic .nonBasic at typed
  rcases typed with h | h <;> cases h

end LinearProgram

end Goblin
