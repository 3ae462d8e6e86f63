import Mathlib.Tactic

/-!
# Loops and their termination

A loop body sends a state either to the next state or to a result, or it
fails. Run with a bounded number of iterations it returns a result, fails, or
runs out of fuel. A
natural number that falls with every iteration bounds the fuel that is needed
(`loop_of_measure`), and the invariant that carries the loop is established
together with the postcondition.
-/

set_option autoImplicit false

namespace Goblin.Library

open AddSubgroup

universe u v w

variable {fuel : ℕ} {ε x y : ℚ}

/-! ## Bounded loops -/

section Loop

variable {σ : Type u} {β : Type v} {ε : Type w}

/-- Iterate the body, at most `fuel` times, until it delivers a result. -/
def loop (exhausted : ε) (body : σ → Except ε (σ ⊕ β)) : ℕ → σ → Except ε β
  | 0, _ => .error exhausted
  | fuel + 1, s =>
    match body s with
    | .error e => .error e
    | .ok (.inl next) => loop exhausted body fuel next
    | .ok (.inr result) => .ok result

variable {exhausted : ε} {body : σ → Except ε (σ ⊕ β)} {s : σ} {b : β}

theorem loop_inl {next : σ} (step : body s = .ok (.inl next)) (fuel : ℕ) :
    loop exhausted body (fuel + 1) s = loop exhausted body fuel next := by
  simp [loop, step]

theorem loop_inr {result : β} (step : body s = .ok (.inr result)) (fuel : ℕ) :
    loop exhausted body (fuel + 1) s = .ok result := by
  simp [loop, step]

/-- **The while rule.** An iteration from a state of the invariant does not
fail: it reaches a state of the invariant of smaller measure, or it delivers a
result that meets the postcondition. -/
theorem loop_of_measure (exhausted : ε) (body : σ → Except ε (σ ⊕ β)) (I : σ → Prop) (μ : σ → ℕ)
    (Q : β → Prop) (iteration : ∀ s, I s → (∃ s', body s = .ok (.inl s') ∧ I s' ∧ μ s' < μ s) ∨
      ∃ b, body s = .ok (.inr b) ∧ Q b) (start : I s) (fuel : ℕ) (enough : μ s < fuel) :
    ∃ b, loop exhausted body fuel s = .ok b ∧ Q b := by
  induction fuel generalizing s with
  | zero => omega
  | succ fuel ih =>
    rcases iteration s start with ⟨s', step, inv, less⟩ | ⟨b, step, post⟩
    · rw [loop_inl step]
      exact ih inv (by omega)
    · exact ⟨b, loop_inr step fuel, post⟩

theorem loop_sound (I : σ → Prop) (Q : β → Prop)
    (next : ∀ s s', I s → body s = .ok (.inl s') → I s')
    (done : ∀ s b, I s → body s = .ok (.inr b) → Q b) (start : I s)
    (res : loop exhausted body fuel s = .ok b) : Q b := by
  induction fuel generalizing s with
  | zero => cases res
  | succ fuel ih =>
    rw [loop] at res
    cases step : body s with
    | error e =>
      rw [step] at res
      cases res
    | ok outcome =>
      rw [step] at res
      cases outcome with
      | inl s' => exact ih (next s s' start step) res
      | inr b' =>
        cases res
        exact done s _ start step

theorem loop_mono {fuel' : ℕ} (res : loop exhausted body fuel s = .ok b)
    (more : fuel ≤ fuel') : loop exhausted body fuel' s = .ok b := by
  induction fuel generalizing s fuel' with
  | zero => cases res
  | succ fuel ih =>
    obtain ⟨fuel', rfl⟩ : ∃ k, fuel' = k + 1 := ⟨fuel' - 1, by omega⟩
    rw [loop] at res ⊢
    cases step : body s with
    | error e =>
      rw [step] at res
      cases res
    | ok outcome =>
      rw [step] at res
      cases outcome with
      | inl s' => exact ih res (by omega)
      | inr b' => exact res

end Loop

/-! ## Grids -/

/-- The multiples of a rational number. -/
abbrev grid (ε : ℚ) : AddSubgroup ℚ := zmultiples ε

theorem le_of_pos_of_mem_grid (pos : 0 < ε) (mem : x ∈ grid ε) (xPos : 0 < x) : ε ≤ x := by
  obtain ⟨k, rfl⟩ := mem_zmultiples_iff.1 mem
  rw [zsmul_eq_mul] at xPos ⊢
  have kPos : (0 : ℚ) < k := pos_of_mul_pos_left xPos pos.le
  have one : (1 : ℚ) ≤ k := by exact_mod_cast kPos
  nlinarith

theorem mul_mem_grid {δ : ℚ} (xGrid : x ∈ grid ε) (yGrid : y ∈ grid δ) : x * y ∈ grid (ε * δ) := by
  obtain ⟨k, rfl⟩ := mem_zmultiples_iff.1 xGrid
  obtain ⟨l, rfl⟩ := mem_zmultiples_iff.1 yGrid
  refine mem_zmultiples_iff.2 ⟨k * l, ?_⟩
  simp only [zsmul_eq_mul, Int.cast_mul]
  ring

theorem mem_grid_one : x ∈ grid 1 ↔ ∃ k : ℤ, x = k := by
  rw [mem_zmultiples_iff]
  simp [eq_comm]

/-- Finitely many rationals lie on a common grid. -/
theorem exists_grid {ι : Type u} (s : Finset ι) (f : ι → ℚ) :
    ∃ ε : ℚ, 0 < ε ∧ ∀ i ∈ s, f i ∈ grid ε := by
  classical
  induction s using Finset.induction_on with
  | empty => exact ⟨1, one_pos, by simp⟩
  | insert i s _ ih =>
    obtain ⟨ε, pos, all⟩ := ih
    -- refine the grid by the denominator of the new value and the old step
    have den : (0 : ℚ) < ((f i).den : ℚ) := by exact_mod_cast (f i).pos
    have epsDen : (0 : ℚ) < (ε.den : ℚ) := by exact_mod_cast ε.pos
    refine ⟨1 / ((f i).den * ε.den), by positivity, ?_⟩
    intro j mem
    rcases Finset.mem_insert.1 mem with rfl | old
    · refine mem_zmultiples_iff.2 ⟨(f j).num * ε.den, ?_⟩
      rw [zsmul_eq_mul]
      push_cast
      have val : f j = (f j).num / (f j).den := (Rat.num_div_den _).symm
      field_simp at val ⊢
      linarith
    · obtain ⟨k, val⟩ := mem_zmultiples_iff.1 (all j old)
      refine mem_zmultiples_iff.2 ⟨k * ε.num * (f i).den, ?_⟩
      rw [← val, zsmul_eq_mul, zsmul_eq_mul]
      push_cast
      have eps : ε = ε.num / ε.den := (Rat.num_div_den _).symm
      have eps' : ε * ε.den = ε.num := by
        field_simp at eps
        exact eps
      field_simp
      rw [← eps']
      ring

/-- How many grid steps fit below a quantity. -/
def gridSteps (ε x : ℚ) : ℕ := ⌊x / ε⌋₊

theorem gridSteps_lt (pos : 0 < ε) (yNonneg : 0 ≤ y) (fall : y + ε ≤ x) :
    gridSteps ε y < gridSteps ε x := by
  have shift : y / ε + 1 ≤ x / ε := by
    rw [← div_self pos.ne', ← add_div]
    exact div_le_div_of_nonneg_right fall pos.le
  have split : ⌊y / ε + 1⌋₊ = ⌊y / ε⌋₊ + 1 := Nat.floor_add_one (div_nonneg yNonneg pos.le)
  have bound : ⌊y / ε + 1⌋₊ ≤ ⌊x / ε⌋₊ := Nat.floor_mono shift
  unfold gridSteps
  omega

end Goblin.Library
