import Goblin.Augment
import Goblin.Library.RowOperations

/-!
# Gaussian elimination

`GaussElim` solves the linear equation systems `A X = B` in place. It processes the rows in their
given order: the entry of largest absolute value is the pivot of a row, and its column is cleared
in all later rows. Then the columns of the pivots are cleared in the earlier rows, from the last
row on. Every row has become a unit row, and the rows are finally put into the order of their
pivot columns.
-/

set_option autoImplicit false

namespace Goblin

open Library List Equiv Function

/-- The matrices and the two index arrays of `GaussElim`. The arrays are not initialised. -/
structure Elimination (d : ℕ) (e : Type) where
  A : Matrix (Fin d) (Fin d) ℚ
  B : Matrix (Fin d) e ℚ
  pivotIndex : Fin d → Option (Fin d)
  revPivotIndex : Fin d → Option (Fin d)

namespace Elimination

variable {d : ℕ} {e : Type}

/-- The search for the entry of largest absolute value of a row, and its index. -/
def maxEntry (row : Fin d → ℚ) (start : Fin d) : ℚ × Fin d :=
  (finRange d).foldl (fun best j => if |best.1| < |row j| then (row j, j) else best) (0, start)

/-- One row of the first phase. An error comes with the matrices as they have been left. -/
def triangularRow (tolerance : ℚ) (st : Elimination d e) (i : Fin d) :
    Except (Raise × Elimination d e) (Elimination d e) :=
  let (maxAbs, maxIndex) := maxEntry (st.A i) ⟨0, i.pos⟩
  let st : Elimination d e :=
    { st with
      pivotIndex := update st.pivotIndex i (some maxIndex)
      revPivotIndex := update st.revPivotIndex maxIndex (some i) }
  if |maxAbs| < tolerance then .error (.rejected "GaussElim" "Matrix is singular", st)
  else
    let A := scaleRow i maxAbs st.A
    let B := scaleRow i maxAbs st.B
    let later := fun r => decide (i < r)
    let factor := fun r => A r maxIndex
    .ok { st with A := eliminate later i factor A, B := eliminate later i factor B }

/-- One row of the second phase. Without an entry that counts, `Coeff` is called with `NoIndex`. -/
def diagonalRow (epsilon : ℚ) (st : Elimination d e) (i : Fin d) :
    Except (Raise × Elimination d e) (Elimination d e) :=
  match (finRange d).find? fun j => decide (epsilon ≤ |st.A i j|) with
  | none => .error (.range "Coeff" "No such index", st)
  | some column =>
    let earlier := fun r => decide (r < i)
    let factor := fun r => st.A r column
    .ok { st with A := eliminate earlier i factor st.A, B := eliminate earlier i factor st.B }

/-- The second phase, from the row `t` down to the row one. -/
def diagonalForm (epsilon : ℚ) :
    ℕ → Elimination d e → Except (Raise × Elimination d e) (Elimination d e)
  | 0, st => .ok st
  | t + 1, st =>
    if low : t + 1 < d then do
      let st ← diagonalRow epsilon st ⟨t + 1, low⟩
      diagonalForm epsilon t st
    else .error (.fault, st)

/-- One row of the third phase. -/
def reorderRow (st : Elimination d e) (i : Fin d) :
    Except (Raise × Elimination d e) (Elimination d e) :=
  match st.revPivotIndex i, st.pivotIndex i with
  | some column, some pivot =>
    .ok
      { A := if i ≠ column then swapRows i column st.A else st.A
        B := if i ≠ column then swapRows i column st.B else st.B
        pivotIndex := update st.pivotIndex column (some pivot)
        revPivotIndex := update st.revPivotIndex pivot (some column) }
  | _, _ => .error (.fault, st)

/-- `GaussElim`. The matrix is square and its dimension is the number of rows of `B` by their
types; `tolerance` is the `epsilon` of the controller. The loop of the second phase runs from the
row `dim-1`, which is no index if there is no row. -/
def gaussElim (tolerance epsilon : ℚ) (A : Matrix (Fin d) (Fin d) ℚ) (B : Matrix (Fin d) e ℚ) :
    Except (Raise × Elimination d e) (Elimination d e) := do
  let epsilon := if epsilon ≤ 0 then tolerance else epsilon
  let start : Elimination d e := ⟨A, B, fun _ => none, fun _ => none⟩
  let st ← (finRange d).foldlM (triangularRow tolerance) start
  if d = 0 then throw (.range "Coeff" "No such index", st)
  let st ← diagonalForm epsilon (d - 1) st
  (finRange d).foldlM reorderRow st

/-! ## The common factor -/

/-- The matrices are the products of the original ones with the same factor. -/
def Factor (A : Matrix (Fin d) (Fin d) ℚ) (B : Matrix (Fin d) e ℚ) (st : Elimination d e) : Prop :=
  ∃ P : Matrix (Fin d) (Fin d) ℚ, st.A = P * A ∧ st.B = P * B

variable {tolerance epsilon : ℚ} {A : Matrix (Fin d) (Fin d) ℚ} {B : Matrix (Fin d) e ℚ}
  {st st' : Elimination d e} {i : Fin d} {pivot : Fin d → Fin d}

theorem foldlM_rows {P : ℕ → Elimination d e → Prop}
    {body : Elimination d e → Fin d → Except (Raise × Elimination d e) (Elimination d e)}
    (step : ∀ (i : Fin d) st st', P i st → body st i = .ok st' → P (i + 1) st')
    (start : P 0 st) (res : (finRange d).foldlM body st = .ok st') : P d st' := by
  have tail : ∀ k t (st : Elimination d e), t + k = d → P t st →
      ((finRange d).drop t).foldlM body st = .ok st' → P d st' := by
    intro k
    induction k with
    | zero =>
      intro t st whole inv res
      rw [drop_eq_nil_of_le (by simp; omega)] at res
      cases res
      rwa [show d = t by omega]
    | succ k ih =>
      intro t st whole inv res
      have low : t < (finRange d).length := by
        rw [length_finRange]
        omega
      rw [drop_eq_getElem_cons low, foldlM_cons] at res
      cases first : body st ((finRange d)[t]) with
      | error e =>
        rw [first] at res
        cases res
      | ok st1 =>
        rw [first] at res
        refine ih (t + 1) st1 (by omega) ?_ res
        have next := step _ st st1 (by simpa using inv) first
        simpa using next
  exact tail d 0 st (by omega) start (by simpa using res)

theorem Factor.scale (factor : Factor A B st) (i : Fin d) (p : ℚ) :
    Factor A B { st with A := scaleRow i p st.A, B := scaleRow i p st.B } := by
  obtain ⟨P, eqA, eqB⟩ := factor
  exact ⟨scaleRow i p P, by rw [eqA, scaleRow_mul], by rw [eqB, scaleRow_mul]⟩

theorem Factor.eliminate (factor : Factor A B st) (rows : Fin d → Bool) (i : Fin d)
    (f : Fin d → ℚ) :
    Factor A B { st with A := eliminate rows i f st.A, B := Library.eliminate rows i f st.B } := by
  obtain ⟨P, eqA, eqB⟩ := factor
  exact ⟨Library.eliminate rows i f P, by rw [eqA, eliminate_mul], by rw [eqB, eliminate_mul]⟩

/-! ## The triangular form -/

/-- The rows below `t` have their pivots, which are cleared in all later rows. -/
structure Triangular (t : ℕ) (pivot : Fin d → Fin d) (st : Elimination d e) : Prop where
  index : ∀ r : Fin d, r < t → st.pivotIndex r = some (pivot r)
  rev : ∀ r : Fin d, r < t → st.revPivotIndex (pivot r) = some r
  unit : ∀ r : Fin d, r < t → st.A r (pivot r) = 1
  below : ∀ r r' : Fin d, r < t → r < r' → st.A r' (pivot r) = 0

theorem Triangular.injective (tri : Triangular d pivot st) : Function.Injective pivot := by
  have ne : ∀ r r' : Fin d, r < r' → pivot r ≠ pivot r' := by
    intro r r' less eq
    have zero := tri.below r r' r.isLt less
    rw [eq, tri.unit r' r'.isLt] at zero
    exact one_ne_zero zero
  intro r r' eq
  rcases lt_trichotomy r r' with less | equal | greater
  · exact absurd eq (ne r r' less)
  · exact equal
  · exact absurd eq.symm (ne r' r greater)

theorem maxEntry_spec (row : Fin d → ℚ) (start : Fin d) :
    (maxEntry row start).1 = 0 ∨ row (maxEntry row start).2 = (maxEntry row start).1 := by
  have scan : ∀ (l : List (Fin d)) (best : ℚ × Fin d), (best.1 = 0 ∨ row best.2 = best.1) →
      let found := l.foldl (fun best j => if |best.1| < |row j| then (row j, j) else best) best
      found.1 = 0 ∨ row found.2 = found.1 := by
    intro l
    induction l with
    | nil => exact fun best inv => inv
    | cons j l ih =>
      intro best inv
      refine ih _ ?_
      dsimp only
      split_ifs
      · exact .inr rfl
      · exact inv
  exact scan _ (0, start) (.inl rfl)

theorem triangularRow_spec (pos : 0 < tolerance)
    (inv : Factor A B st ∧ ∃ pivot, Triangular i pivot st)
    (res : triangularRow tolerance st i = .ok st') :
    Factor A B st' ∧ ∃ pivot, Triangular (i + 1) pivot st' := by
  obtain ⟨factor, pivot, tri⟩ := inv
  set best := maxEntry (st.A i) ⟨0, i.pos⟩ with bestEq
  have entry := maxEntry_spec (st.A i) ⟨0, i.pos⟩
  rw [← bestEq] at entry
  simp only [triangularRow, ← bestEq] at res
  split_ifs at res with small
  have nonzero : best.1 ≠ 0 := by
    intro zero
    rw [zero, abs_zero] at small
    exact small pos
  have atBest := entry.resolve_left nonzero
  have others : ∀ r : Fin d, r < i → pivot r ≠ best.2 := by
    intro r less eq
    have zero := tri.below r i less less
    rw [eq, atBest] at zero
    exact nonzero zero
  cases res
  refine ⟨(factor.scale i best.1).eliminate _ _ _, update pivot i best.2,
    ⟨?_, ?_, ?_, ?_⟩⟩
  · intro r low
    dsimp only
    by_cases here : r = i
    · rw [here, update_self, update_self]
    · rw [update_of_ne here, update_of_ne here]
      exact tri.index r (by omega)
  · intro r low
    dsimp only
    by_cases here : r = i
    · rw [here, update_self, update_self]
    · have less : r < i := by omega
      rw [update_of_ne here, update_of_ne (others r less)]
      exact tri.rev r less
  · intro r low
    simp only [Library.eliminate, scaleRow]
    by_cases here : r = i
    · rw [here, update_self, if_neg (by simp), if_pos rfl, atBest, div_self nonzero]
    · have less : r < i := by omega
      have earlier : ¬ i < r := by omega
      rw [update_of_ne here, if_neg (by simpa using earlier), if_neg here]
      exact tri.unit r less
  · intro r r' low less
    simp only [Library.eliminate, scaleRow]
    by_cases here : r = i
    · have later : r' ≠ i := by omega
      rw [here, update_self, if_pos (by simpa [here] using less)]
      simp only [if_neg later, if_true, atBest, div_self nonzero, mul_one, sub_self]
    · have before : r < i := by omega
      have zeroI := tri.below r i before before
      have zero := tri.below r r' before less
      rw [update_of_ne here, zeroI, zero]
      split_ifs <;> simp

/-! ## The diagonal form -/

/-- The rows are triangular, and the pivots of the rows above `t` are cleared everywhere else. -/
structure Diagonal (t : ℕ) (pivot : Fin d → Fin d) (st : Elimination d e) : Prop where
  tri : Triangular d pivot st
  above : ∀ r r' : Fin d, t < r → r' < r → st.A r' (pivot r) = 0

theorem Diagonal.unitRow (diag : Diagonal i pivot st) (r : Fin d) :
    st.A i (pivot r) = if r = i then 1 else 0 := by
  rcases lt_trichotomy r i with less | rfl | greater
  · rw [if_neg (by omega)]
    exact diag.tri.below r i r.isLt less
  · rw [if_pos rfl]
    exact diag.tri.unit r r.isLt
  · rw [if_neg (by omega)]
    exact diag.above r i greater greater

theorem diagonalRow_spec (pos : 0 < epsilon) (inv : Factor A B st ∧ Diagonal i pivot st)
    (res : diagonalRow epsilon st i = .ok st') :
    Factor A B st' ∧ Diagonal (i - 1) pivot st' := by
  obtain ⟨factor, diag⟩ := inv
  rw [diagonalRow] at res
  cases found : (finRange d).find? fun j => decide (epsilon ≤ |st.A i j|) with
  | none =>
    rw [found] at res
    cases res
  | some column =>
    rw [found] at res
    cases res
    -- the only entry of the row is the one of its own pivot
    have large : epsilon ≤ |st.A i column| := by simpa using find?_some found
    obtain ⟨r, rfl⟩ := (Finite.injective_iff_surjective.1 diag.tri.injective) column
    obtain rfl : r = i := by
      by_contra other
      rw [diag.unitRow r, if_neg other, abs_zero] at large
      exact absurd pos (not_lt.2 large)
    refine ⟨factor.eliminate _ _ _, ⟨diag.tri.index, diag.tri.rev, ?_, ?_⟩, ?_⟩
    · intro s low
      simp only [Library.eliminate]
      rw [diag.unitRow s, diag.tri.unit s low]
      split_ifs with earlier eq
      · exact absurd earlier (by simp [eq])
      · ring
      · rfl
    · intro s s' low less
      simp only [Library.eliminate]
      rw [diag.unitRow s, diag.tri.below s s' low less]
      split_ifs with earlier eq
      · have before : s' < r := by simpa using earlier
        exact absurd less (by rw [eq]; exact not_lt.2 before.le)
      · ring
      · rfl
    · intro s s' high less
      simp only [Library.eliminate]
      rw [diag.unitRow s]
      by_cases eq : s = r
      · subst eq
        rw [if_pos (by simpa using less), if_pos rfl, mul_one, sub_self]
      · rw [if_neg eq, mul_zero, sub_zero, diag.above s s' (by omega) less]
        split_ifs <;> rfl

theorem diagonalForm_spec (pos : 0 < epsilon) {t : ℕ}
    (inv : Factor A B st ∧ Diagonal t pivot st) (res : diagonalForm epsilon t st = .ok st') :
    Factor A B st' ∧ Diagonal 0 pivot st' := by
  induction t generalizing st with
  | zero =>
    cases res
    exact inv
  | succ t ih =>
    rw [diagonalForm] at res
    split_ifs at res with low
    cases row : diagonalRow epsilon st ⟨t + 1, low⟩ with
    | error err =>
      rw [row] at res
      cases res
    | ok st1 =>
      rw [row] at res
      exact ih (diagonalRow_spec pos inv row) res

/-! ## The order of the rows -/

/-- All rows are unit rows, and those below `t` are in their places. -/
structure Ordered (t : ℕ) (pivot : Fin d → Fin d) (st : Elimination d e) : Prop where
  injective : Function.Injective pivot
  unit : ∀ r c, st.A r c = if c = pivot r then 1 else 0
  placed : ∀ r : Fin d, r < t → pivot r = r
  index : ∀ r : Fin d, t ≤ r → st.pivotIndex r = some (pivot r)
  rev : ∀ r : Fin d, t ≤ r → st.revPivotIndex (pivot r) = some r

theorem Diagonal.ordered (diag : Diagonal 0 pivot st) : Ordered 0 pivot st := by
  refine ⟨diag.tri.injective, ?_, fun r low => absurd low (by omega),
    fun r _ => diag.tri.index r r.isLt, fun r _ => diag.tri.rev r r.isLt⟩
  intro r c
  obtain ⟨s, rfl⟩ := (Finite.injective_iff_surjective.1 diag.tri.injective) c
  rcases lt_trichotomy s r with less | rfl | greater
  · rw [if_neg fun eq => less.ne (diag.tri.injective eq)]
    exact diag.tri.below s r s.isLt less
  · rw [if_pos rfl]
    exact diag.tri.unit s s.isLt
  · rw [if_neg fun eq => greater.ne' (diag.tri.injective eq)]
    exact diag.above s r (by omega) greater

theorem reorderRow_spec (inv : Factor A B st ∧ ∃ pivot, Ordered i pivot st)
    (res : reorderRow st i = .ok st') : Factor A B st' ∧ ∃ pivot, Ordered (i + 1) pivot st' := by
  obtain ⟨⟨P, eqA, eqB⟩, pivot, ord⟩ := inv
  obtain ⟨column, atColumn⟩ := (Finite.injective_iff_surjective.1 ord.injective) i
  have high : i ≤ column := by
    by_contra low
    have place := ord.placed column (by omega)
    rw [atColumn] at place
    omega
  have revI : st.revPivotIndex i = some column := by
    rw [← atColumn]
    exact ord.rev column high
  rw [reorderRow, revI, ord.index i (le_refl _)] at res
  cases res
  have swapped : ∀ {e' : Type} (M : Matrix (Fin d) e' ℚ),
      (if i ≠ column then swapRows i column M else M) = swapRows i column M := by
    intro e' M
    by_cases eq : i = column
    · rw [if_neg (not_not.2 eq), ← eq]
      ext r c
      simp [swapRows]
    · rw [if_pos eq]
  refine ⟨⟨swapRows i column P, ?_, ?_⟩, fun r => pivot (Equiv.swap i column r),
    ⟨?_, ?_, ?_, ?_, ?_⟩⟩
  · dsimp only
    rw [swapped, eqA, swapRows_mul]
  · dsimp only
    rw [swapped, eqB, swapRows_mul]
  · exact ord.injective.comp (Equiv.injective _)
  · intro r c
    dsimp only
    rw [swapped]
    exact ord.unit _ _
  · intro r low
    by_cases here : r = i
    · rw [here, Equiv.swap_apply_left, atColumn]
    · rw [swap_apply_of_ne_of_ne here (by omega)]
      exact ord.placed r (by omega)
  · intro r later
    dsimp only
    by_cases here : r = column
    · rw [here, update_self, swap_apply_right]
    · rw [update_of_ne here, swap_apply_of_ne_of_ne (by omega) here]
      exact ord.index r (by omega)
  · intro r later
    dsimp only
    by_cases here : r = column
    · rw [here, swap_apply_right, update_self]
    · rw [swap_apply_of_ne_of_ne (by omega) here,
        update_of_ne fun eq => (by omega : r ≠ i) (ord.injective eq)]
      exact ord.rev r (by omega)

/-! ## The solution -/

theorem Ordered.eq_one (ord : Ordered d pivot st) : st.A = 1 := by
  ext r c
  rw [ord.unit, ord.placed r r.isLt, Matrix.one_apply]
  simp only [eq_comm]

/-- **Gaussian elimination solves the linear equation systems.** When `GaussElim` returns, the
matrix has been turned into the identity, so it was regular, and the right-hand side into its
product with the inverse matrix. -/
theorem gaussElim_spec (pos : 0 < tolerance)
    (res : gaussElim tolerance epsilon A B = .ok st') :
    st'.A = 1 ∧ IsUnit A.det ∧ st'.B = A⁻¹ * B := by
  rw [gaussElim] at res
  have epsilonPos : 0 < if epsilon ≤ 0 then tolerance else epsilon := by
    split_ifs with given
    · exact pos
    · exact not_le.1 given
  generalize (if epsilon ≤ 0 then tolerance else epsilon) = bound at res epsilonPos
  cases first : (finRange d).foldlM (triangularRow tolerance)
      (⟨A, B, fun _ => none, fun _ => none⟩ : Elimination d e) with
  | error err =>
    simp only [first, bind, Except.bind] at res
    cases res
  | ok st1 =>
    have start : Factor A B (⟨A, B, fun _ => none, fun _ => none⟩ : Elimination d e) ∧
        ∃ pivot, Triangular 0 pivot
          (⟨A, B, fun _ => none, fun _ => none⟩ : Elimination d e) :=
      ⟨⟨1, (one_mul A).symm, (Matrix.one_mul B).symm⟩, id, by
        constructor <;> simp⟩
    obtain ⟨factor1, pivot, tri⟩ := foldlM_rows
      (P := fun t st => Factor A B st ∧ ∃ pivot, Triangular t pivot st)
      (fun i st st' inv row => triangularRow_spec pos inv row) start first
    simp only [first, bind, Except.bind] at res
    by_cases empty : d = 0
    · rw [if_pos empty] at res
      cases res
    rw [if_neg empty] at res
    cases second : diagonalForm bound (d - 1) st1 with
    | error err =>
      simp only [second] at res
      cases res
    | ok st2 =>
      have diag : Diagonal (d - 1) pivot st1 := ⟨tri, fun r _ high => absurd high (by omega)⟩
      obtain ⟨factor2, diag2⟩ := diagonalForm_spec epsilonPos ⟨factor1, diag⟩ second
      simp only [second] at res
      obtain ⟨⟨P, eqA, eqB⟩, pivot', ord⟩ := foldlM_rows
        (P := fun t st => Factor A B st ∧ ∃ pivot, Ordered t pivot st)
        (fun i st st' inv row => reorderRow_spec inv row) ⟨factor2, pivot, diag2.ordered⟩ res
      have inverse : P * A = 1 := eqA.symm.trans ord.eq_one
      refine ⟨ord.eq_one, ?_, ?_⟩
      · exact (Matrix.isUnit_iff_isUnit_det A).1 (IsUnit.of_mul_eq_one_right P inverse)
      · rw [eqB, Matrix.inv_eq_left_inv inverse]

end Elimination

end Goblin
