import Mathlib.Tactic.Common

/-!
# Runs that may raise

A computation with a state and exceptions (`EStateM`) ends in some state whether it returns or
raises. `Keeps` says that a quantity is the same there as at the beginning; it is a frame
rule for all of the computation, its failures included, and passes through sequences, branches
and loops. The lemmas on `run` execute a computation step by step.
-/

set_option autoImplicit false

namespace Goblin.Library

universe u v w

variable {ε σ α β : Type u} {γ : Type v} {f k : α → EStateM ε σ β} {s s' : σ} {a : α} {e : ε}
  {g : σ → σ} {c : Prop}

/-! ## Execution -/

theorem run_get (s : σ) : (get : EStateM ε σ σ) s = .ok s s := rfl

theorem run_modify (f : σ → σ) (s : σ) :
    (modify f : EStateM ε σ PUnit) s = .ok PUnit.unit (f s) := rfl

theorem run_pure (a : α) (s : σ) : (pure a : EStateM ε σ α) s = .ok a s := rfl

theorem run_bind_get (f : σ → EStateM ε σ β) (s : σ) : (get >>= f : EStateM ε σ β) s = f s s := rfl

theorem run_bind_modify (g : σ → σ) (f : PUnit → EStateM ε σ β) (s : σ) :
    (modify g >>= f : EStateM ε σ β) s = f PUnit.unit (g s) := rfl

theorem run_bind_ok {x : EStateM ε σ α} (res : x s = .ok a s') : (x >>= f) s = f a s' := by
  simp only [bind, EStateM.bind, res]

theorem run_bind_error {x : EStateM ε σ α}
    (res : x s = .error e s') : (x >>= f) s = .error e s' := by
  simp only [bind, EStateM.bind, res]

theorem run_discard_ok {x : EStateM ε σ α} (res : x s = .ok a s') :
    (discard x : EStateM ε σ PUnit) s = .ok PUnit.unit s' := by
  simp only [discard, Functor.mapConst, Function.comp_apply, EStateM.map, res, Function.const]

theorem run_discard_error {x : EStateM ε σ α} (res : x s = .error e s') :
    (discard x : EStateM ε σ PUnit) s = .error e s' := by
  simp only [discard, Functor.mapConst, Function.comp_apply, EStateM.map, res]

theorem run_forM_append {δ : Type v} {f : δ → EStateM ε σ PUnit} {l k : List δ}
    (first : l.forM f s = .ok PUnit.unit s') : (l ++ k).forM f s = k.forM f s' := by
  induction l generalizing s with
  | nil =>
    cases first
    rfl
  | cons d l ih =>
    change (f d >>= fun _ => l.forM f) s = _ at first
    change (f d >>= fun _ => (l ++ k).forM f) s = _
    cases step : f d s with
    | ok a s1 =>
      rw [run_bind_ok step] at first ⊢
      exact ih first
    | error e s1 =>
      rw [run_bind_error step] at first
      cases first

theorem of_run_bind {x : EStateM ε σ α} {s'' : σ} {b : β}
    (res : (x >>= f) s = .ok b s'') : ∃ a s', x s = .ok a s' ∧ f a s' = .ok b s'' := by
  cases first : x s with
  | ok a s' =>
    rw [run_bind_ok first] at res
    exact ⟨a, s', rfl, res⟩
  | error e s' =>
    rw [run_bind_error first] at res
    cases res

theorem of_run_discard {x : EStateM ε σ α}
    (res : (discard x : EStateM ε σ PUnit) s = .ok PUnit.unit s') : ∃ a, x s = .ok a s' := by
  cases first : x s with
  | ok a s1 =>
    rw [run_discard_ok first] at res
    cases res
    exact ⟨a, rfl⟩
  | error e s1 =>
    rw [run_discard_error first] at res
    cases res

theorem of_run_check [Decidable c] {x : EStateM ε σ α}
    (res : (if c then throw e else x : EStateM ε σ α) s = .ok a s') : ¬ c ∧ x s = .ok a s' := by
  split_ifs at res with raised
  · cases res
  · exact ⟨raised, res⟩

theorem exists_run {x : EStateM ε σ α} {p : σ → Bool}
    (test : (match x s with | .ok _ s' => p s' | .error _ _ => false) = true) :
    ∃ a s', x s = .ok a s' ∧ p s' = true := by
  cases res : x s with
  | ok a s' =>
    rw [res] at test
    exact ⟨a, s', rfl, test⟩
  | error e s' =>
    rw [res] at test
    cases test

/-! ## Results -/

theorem of_check [Decidable c] {x : Except ε α} (res : (if c then throw e else x) = .ok a) :
    ¬ c ∧ x = .ok a := by
  split_ifs at res with raised
  exact ⟨raised, res⟩

/-- What a computation returns, if it does. -/
def Returns (P : α → Prop) (x : Except ε α) : Prop := ∀ a, x = .ok a → P a

namespace Returns

variable {P : α → Prop} {Q : β → Prop} {x : Except ε α}

theorem ok (holds : P a) : Returns P (.ok a : Except ε α) := by
  rintro _ ⟨⟩
  exact holds

theorem error (e : ε) : Returns P (.error e : Except ε α) := by
  rintro _ ⟨⟩

theorem bind {f : α → Except ε β} (first : Returns P x) (next : ∀ a, P a → Returns Q (f a)) :
    Returns Q (x >>= f) := by
  cases x with
  | ok a => exact next a (first a rfl)
  | error e => exact error e

theorem any (x : Except ε α) : Returns (fun _ => True) x := fun _ _ => trivial

theorem ite [Decidable c] {y : Except ε α} (yes : Returns P x) (no : Returns P y) :
    Returns P (if c then x else y) := by
  split_ifs
  · exact yes
  · exact no

end Returns

/-! ## Frames -/

/-- The state in which a run ends. -/
def finalState (x : EStateM ε σ α) (s : σ) : σ :=
  match x s with
  | .ok _ s' => s'
  | .error _ s' => s'

section

variable (f : σ → γ) (x : EStateM ε σ α)

/-- The quantity is the same before and after the run from `s`, also if the run raises. -/
def KeepsAt (s : σ) : Prop := f (finalState x s) = f s

/-- The quantity is the same before and after every run. -/
def Keeps : Prop := ∀ s, KeepsAt f x s

end

theorem KeepsAt.of_ok {f : σ → γ} {x : EStateM ε σ α} (keeps : KeepsAt f x s)
    (res : x s = .ok a s') : f s' = f s := by
  simpa only [KeepsAt, finalState, res] using keeps

theorem KeepsAt.of_error {f : σ → γ} {x : EStateM ε σ α} (keeps : KeepsAt f x s)
    (res : x s = .error e s') : f s' = f s := by
  simpa only [KeepsAt, finalState, res] using keeps

theorem KeepsAt.bind {f : σ → γ} {x : EStateM ε σ α} (first : KeepsAt f x s)
    (next : ∀ a s', x s = .ok a s' → KeepsAt f (k a) s') : KeepsAt f (x >>= k) s := by
  cases res : x s with
  | ok a s' =>
    have both : finalState (x >>= k) s = finalState (k a) s' := by
      simp only [finalState, run_bind_ok res]
    rw [KeepsAt, both, next a s' res, first.of_ok res]
  | error e s' =>
    have both : finalState (x >>= k) s = s' := by
      simp only [finalState, run_bind_error res]
    rw [KeepsAt, both, first.of_error res]

namespace Keeps

variable {f : σ → γ} {x : EStateM ε σ α}

theorem of_ok (keeps : Keeps f x) (res : x s = .ok a s') : f s' = f s :=
  (keeps s).of_ok res

theorem of_error (keeps : Keeps f x) (res : x s = .error e s') : f s' = f s :=
  (keeps s).of_error res

theorem pure (a : α) : Keeps f (pure a : EStateM ε σ α) := fun _ => rfl

theorem throw (e : ε) : Keeps f (throw e : EStateM ε σ α) := fun _ => rfl

theorem get : Keeps f (get : EStateM ε σ σ) := fun _ => rfl

theorem modify (eq : ∀ s, f (g s) = f s) :
    Keeps f (modify g : EStateM ε σ PUnit) := fun s => eq s

theorem bind (first : Keeps f x) (next : ∀ a, Keeps f (k a)) : Keeps f (x >>= k) :=
  fun s => (first s).bind fun a s' _ => next a s'

theorem discard (keeps : Keeps f x) : Keeps f (discard x : EStateM ε σ PUnit) := by
  intro s
  cases res : x s with
  | ok a s' =>
    simp only [KeepsAt, finalState, run_discard_ok res]
    exact keeps.of_ok res
  | error e s' =>
    simp only [KeepsAt, finalState, run_discard_error res]
    exact keeps.of_error res

theorem ite [Decidable c] {y : EStateM ε σ α} (yes : Keeps f x) (no : Keeps f y) :
    Keeps f (if c then x else y) := by
  split_ifs
  · exact yes
  · exact no

theorem forM {δ : Type v} {k : δ → EStateM ε σ PUnit} (each : ∀ d, Keeps f (k d)) :
    ∀ l : List δ, Keeps f (l.forM k)
  | [] => Keeps.pure _
  | d :: l => (each d).bind fun _ => forM each l

end Keeps

/-! ## Invariants -/

section

variable (I : σ → Prop) (x : EStateM ε σ α)

/-- The property holds in the state in which the run from `s` ends, also if the run raises. -/
def EndsIn (s : σ) : Prop := I (finalState x s)

/-- Every run preserves the property. -/
def Preserves : Prop := ∀ s, I s → EndsIn I x s

end

variable {I : σ → Prop} {x : EStateM ε σ α}

theorem EndsIn.of_ok (ends : EndsIn I x s) (res : x s = .ok a s') : I s' := by
  simpa only [EndsIn, finalState, res] using ends

theorem EndsIn.bind (first : EndsIn I x s)
    (next : ∀ a s', x s = .ok a s' → I s' → EndsIn I (k a) s') : EndsIn I (x >>= k) s := by
  cases res : x s with
  | ok a s' =>
    have both : finalState (x >>= k) s = finalState (k a) s' := by
      simp only [finalState, run_bind_ok res]
    rw [EndsIn, both]
    exact next a s' res (first.of_ok res)
  | error e s' =>
    have both : finalState (x >>= k) s = finalState x s := by
      simp only [finalState, run_bind_error res, res]
    rw [EndsIn, both]
    exact first

/-- The first part runs through a state that need not have the property. -/
theorem EndsIn.bind_ok (res : x s = .ok a s')
    (next : EndsIn I (k a) s') : EndsIn I (x >>= k) s := by
  simpa only [EndsIn, finalState, run_bind_ok res] using next

theorem EndsIn.bind_error (res : x s = .error e s') (holds : I s') : EndsIn I (x >>= k) s := by
  simpa only [EndsIn, finalState, run_bind_error res] using holds

theorem EndsIn.discard (ends : EndsIn I x s) : EndsIn I (discard x : EStateM ε σ PUnit) s := by
  cases res : x s with
  | ok a s' =>
    simp only [EndsIn, finalState, run_discard_ok res]
    simpa only [EndsIn, finalState, res] using ends
  | error e s' =>
    simp only [EndsIn, finalState, run_discard_error res]
    simpa only [EndsIn, finalState, res] using ends

namespace Preserves

theorem pure (a : α) : Preserves I (pure a : EStateM ε σ α) := fun _ holds => holds

theorem throw (e : ε) : Preserves I (throw e : EStateM ε σ α) := fun _ holds => holds

theorem modify (step : ∀ s, I s → I (g s)) :
    Preserves I (modify g : EStateM ε σ PUnit) := fun s holds => step s holds

theorem bind (first : Preserves I x) (next : ∀ a, Preserves I (k a)) : Preserves I (x >>= k) :=
  fun s holds => (first s holds).bind fun a s' _ holds' => next a s' holds'

theorem get_bind {k : σ → EStateM ε σ β} (next : ∀ s, I s → EndsIn I (k s) s) :
    Preserves I (get >>= k) := fun s holds => next s holds

theorem discard (preserves : Preserves I x) : Preserves I (discard x : EStateM ε σ PUnit) :=
  fun s holds => (preserves s holds).discard

theorem ite [Decidable c] {y : EStateM ε σ α} (yes : Preserves I x)
    (no : Preserves I y) : Preserves I (if c then x else y) := by
  split_ifs
  · exact yes
  · exact no

end Preserves

end Goblin.Library
