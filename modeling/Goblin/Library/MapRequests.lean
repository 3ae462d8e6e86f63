import Mathlib.Logic.Function.Basic
import Mathlib.Data.Nat.Notation

/-!
# Requests to a map with a default value

A map from `I` to `K` that is the default value almost everywhere is used by two requests:
change the value of an index, and look up the value of an index. `MapReach` are the states that
an implementation reaches, paired with the map that its user has in mind.
-/

set_option autoImplicit false

namespace Goblin.Library

universe u v w

/-- The requests to a map. -/
inductive MapRequest (I : Type u) (K : Type v) where
  | changeKey (index : I) (alpha : K)
  | key (index : I)

namespace MapRequest

variable {I : Type u} {K : Type v}

/-- The index that a request is about. -/
def index : MapRequest I K → I
  | changeKey index _ => index
  | key index => index

/-- The map after a request. -/
def mapAfter [DecidableEq I] (m : I → K) : MapRequest I K → I → K
  | changeKey index alpha => Function.update m index alpha
  | key _ => m

/-- The answer to a request. -/
def answer (m : I → K) : MapRequest I K → Option K
  | changeKey _ _ => none
  | key index => some (m index)

end MapRequest

section Reach

variable {I : Type u} [DecidableEq I] {K σ : Type v} {ε : Type w}

/-- The states that are reached from `start` by requests which the implementation admits, with
the map that the requests describe. -/
inductive MapReach (start : σ) (default : K)
    (serve : MapRequest I K → σ → Except ε (σ × Option K))
    (Admits : σ → (I → K) → MapRequest I K → Prop) : σ → (I → K) → Prop
  | start : MapReach start default serve Admits start fun _ => default
  | step {st st' : σ} {m : I → K} {answer : Option K} (request : MapRequest I K)
      (reach : MapReach start default serve Admits st m) (admitted : Admits st m request)
      (result : serve request st = .ok (st', answer)) :
      MapReach start default serve Admits st' (request.mapAfter m)

variable {start : σ} {default : K} {serve : MapRequest I K → σ → Except ε (σ × Option K)}
  {Admits : σ → (I → K) → MapRequest I K → Prop}

/-- An invariant of the initial state that all admitted requests keep holds in every
reachable state. -/
theorem MapReach.invariant (Inv : σ → (I → K) → Prop) (initial : Inv start fun _ => default)
    (preserved : ∀ st m, Inv st m → ∀ req : MapRequest I K, Admits st m req →
      ∀ st' answer, serve req st = .ok (st', answer) → Inv st' (req.mapAfter m))
    {st : σ} {m : I → K} (reach : MapReach start default serve Admits st m) : Inv st m := by
  induction reach with
  | start => exact initial
  | step req reach admitted res ih =>
    exact preserved _ _ ih req admitted _ _ res

end Reach

end Goblin.Library
