import Goblin.Augment

/-!
# Bounds on the objective value

While a method is running, its timer holds a lower and an upper bound on the objective value. They
are reset when `OpenFold` starts the timer. `SetBounds` refuses numbers that contradict the bounds
found so far, and so it never raises for numbers between which the objective value is
(`setBounds_ok`).
-/

set_option autoImplicit false

namespace Goblin

/-- The bounds of a `goblinTimer`. -/
@[ext]
structure TimerBounds where
  lowerBound : ℚ
  upperBound : ℚ
  deriving DecidableEq

namespace TimerBounds

/-- `ResetBounds` -/
def reset : TimerBounds := ⟨-infFloat, infFloat⟩

variable (t : TimerBounds) (value : ℚ)

def setLowerBound (newBound : ℚ) : TimerBounds :=
  let newBound := if t.upperBound < newBound then t.upperBound else newBound
  if t.lowerBound < newBound then { t with lowerBound := newBound } else t

def setUpperBound (newBound : ℚ) : TimerBounds :=
  let newBound := if newBound < t.lowerBound then t.lowerBound else newBound
  if newBound < t.upperBound then { t with upperBound := newBound } else t

/-- The value is between the bounds. -/
def Admits : Prop := t.lowerBound ≤ value ∧ value ≤ t.upperBound

theorem admits_reset {value : ℚ} : reset.Admits value ↔ |value| ≤ infFloat := abs_le.symm

variable {t} {value} {newBound : ℚ}

theorem Admits.setLowerBound (admits : t.Admits value) (lower : newBound ≤ value) :
    (t.setLowerBound newBound).Admits value := by
  unfold TimerBounds.setLowerBound
  rw [if_neg (not_lt.2 (lower.trans admits.2))]
  dsimp only
  split_ifs
  · exact ⟨lower, admits.2⟩
  · exact admits

theorem Admits.setUpperBound (admits : t.Admits value) (upper : value ≤ newBound) :
    (t.setUpperBound newBound).Admits value := by
  unfold TimerBounds.setUpperBound
  rw [if_neg (not_lt.2 (admits.1.trans upper))]
  dsimp only
  split_ifs
  · exact ⟨admits.1, upper⟩
  · exact admits

end TimerBounds

/-- `SetBounds` of a managed object, where `epsilon` is the setting of the controller. -/
def setBounds (epsilon : ℚ) (t : TimerBounds) (lBound uBound : ℚ) : Except Raise TimerBounds :=
  if uBound < t.lowerBound - epsilon then
    .error (.rejected "SetBounds" "Trying to override lower bound")
  else if t.upperBound + epsilon < lBound then
    .error (.rejected "SetBounds" "Trying to override upper bound")
  else .ok ((t.setLowerBound lBound).setUpperBound uBound)

section

variable {epsilon value lBound uBound : ℚ} {t : TimerBounds}

/-- **Bounds on the objective value are accepted**, if the former bounds are right. -/
theorem setBounds_ok (nonneg : 0 ≤ epsilon) (admits : t.Admits value) (lower : lBound ≤ value)
    (upper : value ≤ uBound) :
    ∃ t', setBounds epsilon t lBound uBound = .ok t' ∧ t'.Admits value := by
  refine ⟨_, ?_, (admits.setLowerBound lower).setUpperBound upper⟩
  rw [setBounds, if_neg (by linarith [admits.1]), if_neg (by linarith [admits.2])]

theorem le_lowerBound_of_setBounds {t' : TimerBounds}
    (res : setBounds epsilon t lBound uBound = .ok t') :
    t.lowerBound ≤ t'.lowerBound ∧ min lBound t.upperBound ≤ t'.lowerBound := by
  rw [setBounds] at res
  split_ifs at res
  cases res
  have same : ∀ (t : TimerBounds) (x : ℚ), (t.setUpperBound x).lowerBound = t.lowerBound := by
    intro t x
    rw [TimerBounds.setUpperBound]
    split_ifs <;> rfl
  rw [same, TimerBounds.setLowerBound, min_def]
  split_ifs <;> constructor <;> linarith

/-- The report of a result, after which the bounds are of no use. -/
def setResult (epsilon result : ℚ) : Except Raise Unit := do
  let _ ← setBounds epsilon .reset result result
  return ()

theorem setResult_eq_ok : setResult epsilon value = .ok () ↔
    -infFloat - epsilon ≤ value ∧ value ≤ infFloat + epsilon := by
  unfold setResult setBounds
  by_cases low : value < TimerBounds.reset.lowerBound - epsilon
  · rw [if_pos low]
    exact iff_of_false (by simp [bind, Except.bind]) fun both => absurd low (not_lt.2 both.1)
  rw [if_neg low]
  by_cases high : TimerBounds.reset.upperBound + epsilon < value
  · rw [if_pos high]
    exact iff_of_false (by simp [bind, Except.bind]) fun both => absurd high (not_lt.2 both.2)
  rw [if_neg high]
  exact iff_of_true rfl ⟨not_lt.1 low, not_lt.1 high⟩

theorem setResult_ok (nonneg : 0 ≤ epsilon) (bounded : |value| ≤ infFloat) :
    setResult epsilon value = .ok () := by
  obtain ⟨t, res, -⟩ := setBounds_ok nonneg (TimerBounds.admits_reset.2 bounded) le_rfl le_rfl
  rw [setResult, res]
  rfl

end

end Goblin
