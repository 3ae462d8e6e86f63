import Goblin.MaxFlow
import Goblin.MinimumMeanCycle
import Goblin.NegativeCycle
import Goblin.TimerBounds

/-!
# Minimum cost flow by canceling cycles

`MCF_CycleCanceling` and `MCF_MinMeanCycleCanceling` augment along negative
cycles of the residual graph until there is none. A negative cycle never runs
forth and back on one edge, so augmenting it keeps the bounds, changes no
divergence and lowers the weight (`cancel_step`). The weight lies on a grid and
is bounded from below, so the methods terminate.

The last search leaves feasible labels, and as node potentials they prove the
flow optimal by complementary slackness (`minimum_of_compatible`).

The methods report weights and dual objective values to their timer. By weak duality
the timer accepts them (`timedCanceling_optimal`). But it does not accept `-InfFloat`
for a problem that is unbounded (`cycleCanceling_negInf_iff`).
-/

set_option autoImplicit false

namespace Goblin

open Library List Finset

variable {δ : ℚ}

/-- What a minimum cost flow method returns: a weight, `-InfFloat` or
`InfFloat`. -/
inductive MCFValue where
  | weight (w : ℚ)
  | negInf
  | posInf
deriving DecidableEq

/-- What the minimum cost flow methods leave behind. The trace holds the flows
after every augmentation, the latest one first. -/
structure MCFResult (n m : ℕ) where
  value : MCFValue
  sub : Fin m → ℚ
  potential : Fin n → ℚ
  trace : List (Fin m → ℚ)

/-- The flow and its weight between two augmentations. -/
structure MCFState (m : ℕ) where
  w : ℚ
  sub : Fin m → ℚ
  trace : List (Fin m → ℚ)

/-- What an attempt to cancel a cycle ends with: the labels of a search that
finds no negative cycle, or an augmentation. -/
inductive CancelOutcome (n m : ℕ) where
  | noCycle (dist : Fin n → WithTop ℚ)
  | unbounded
  | canceled (sub : Fin m → ℚ)
deriving DecidableEq

namespace MixedGraph

variable {n m : ℕ} (G : MixedGraph n m)

def updatePotentials (potential : Fin n → ℚ) (dist : Fin n → WithTop ℚ) (cutValue : ℚ) :
    Fin n → ℚ :=
  fun i => if dist i < (cutValue : WithTop ℚ) then potential i + (dist i).untopD 0
    else potential i + cutValue

section

variable (sub : Fin m → ℚ)

/-- Augment along the cycle through `x` that the predecessor labels describe. -/
def cancelAt (pred : Fin n → Option (Arc m)) (x : Fin n) :
    Except Raise (CancelOutcome n m) := do
  let lambda ← G.findCap sub pred x x
  if lambda = infCap then return .unbounded
  else
    let next ← G.augment sub pred x x lambda
    return .canceled next.1

/-- The search and the augmentation of `MCF_CycleCanceling`. -/
def cancelNegative : Except Raise (CancelOutcome n m) := do
  let labels ← G.negativeCycle sub (fun _ => 0) 0 .residual none 0
  match labels.root with
  | none => return .noCycle labels.dist
  | some x => G.cancelAt sub labels.pred x

/-- The labels that `MCF_MinMeanCycleCanceling` computes in the end. -/
def finalLabels : Except Raise (CancelOutcome n m) := do
  let labels ← G.negativeCycle sub (fun _ => 0) 0 .residual none 0
  return .noCycle labels.dist

/-- The search and the augmentation of `MCF_MinMeanCycleCanceling`. -/
def cancelMinMean : Except Raise (CancelOutcome n m) := do
  match ← G.minimumMeanCycle ⊤ sub 0 .residual with
  | none => G.finalLabels sub
  | some found =>
    if 0 ≤ found.meanValue then G.finalLabels sub else G.cancelAt sub found.pred found.node

end

/-- One iteration of either method, without the bounds that are reported to the timer. -/
def cancelIteration (cancel : (Fin m → ℚ) → Except Raise (CancelOutcome n m)) (st : MCFState m) :
    Except Raise (MCFState m ⊕ MCFResult n m) := do
  match ← cancel st.sub with
  | .noCycle dist =>
    return .inr ⟨.weight st.w, st.sub, updatePotentials (fun _ => 0) dist 0, st.trace⟩
  | .unbounded => return .inr ⟨.negInf, st.sub, fun _ => 0, st.trace⟩
  | .canceled sub => return .inl ⟨G.weight sub, sub, sub :: st.trace⟩

def mcfCycleCanceling (fuel : ℕ) (sub : Fin m → ℚ) : Except Raise (MCFResult n m) :=
  loop .fuel (G.cancelIteration G.cancelNegative) fuel ⟨G.weight sub, sub, []⟩

def mcfMinMeanCycleCanceling (fuel : ℕ) (sub : Fin m → ℚ) : Except Raise (MCFResult n m) :=
  loop .fuel (G.cancelIteration G.cancelMinMean) fuel ⟨G.weight sub, sub, []⟩

/-- `MCF_DualObjective` -/
def dualObjective (potential : Fin n → ℚ) : ℚ :=
  ∑ v, G.demand v * potential v + ∑ e : Fin m,
    let thisLength := G.redLength potential ⟨e, false⟩
    (if 0 < thisLength then G.lcap e * thisLength else 0) +
      if thisLength < 0 then G.ucap e * thisLength else 0

section

variable (cancel : (Fin m → ℚ) → Except Raise (CancelOutcome n m)) (epsilon : ℚ)

/-- One iteration and what it reports. -/
def timedIteration (st : MCFState m × TimerBounds) :
    Except Raise ((MCFState m × TimerBounds) ⊕ MCFResult n m) := do
  let timer ← setBounds epsilon st.2 (-infFloat) st.1.w
  match ← cancel st.1.sub with
  | .noCycle dist =>
    let potential := updatePotentials (fun _ => 0) dist 0
    let _ ← setBounds epsilon timer (G.dualObjective potential) infFloat
    return .inr ⟨.weight st.1.w, st.1.sub, potential, st.1.trace⟩
  | .unbounded =>
    let _ ← setBounds epsilon timer (-infFloat) (-infFloat)
    return .inr ⟨.negInf, st.1.sub, fun _ => 0, st.1.trace⟩
  | .canceled sub => return .inl (⟨G.weight sub, sub, sub :: st.1.trace⟩, timer)

/-- Either method, with the node potentials of the graph object. -/
def timedCanceling (fuel : ℕ) (potential : Fin n → ℚ) (sub : Fin m → ℚ) :
    Except Raise (MCFResult n m) := do
  let timer ← setBounds epsilon .reset (G.dualObjective potential) infFloat
  loop .fuel (G.timedIteration cancel epsilon) fuel (⟨G.weight sub, sub, []⟩, timer)

end

end MixedGraph

namespace DiGraph

variable {n m : ℕ} {G : DiGraph n m} {sub sub0 : Fin m → ℚ} {potential : Fin n → ℚ}
  {pred : Fin n → Option (Arc m)} {x : Fin n} {p : List (Arc m)}

/-! ## Optimality -/

/-- Flows within bounds that have the divergences of `sub0`. -/
structure SameDemand (G : DiGraph n m) (sub0 sub : Fin m → ℚ) : Prop where
  within : G.WithinBounds sub
  divergences : ∀ v, G.divergence sub v = G.divergence sub0 v

/-- `Compatible`: no residual arc has negative reduced length. -/
def Compatible (G : DiGraph n m) (sub : Fin m → ℚ) (potential : Fin n → ℚ) : Prop :=
  ∀ a, 0 < G.resCap sub a → 0 ≤ G.redLength potential a

instance (G : DiGraph n m) (sub : Fin m → ℚ) (potential : Fin n → ℚ) :
    Decidable (G.Compatible sub potential) :=
  inferInstanceAs (Decidable (∀ a, 0 < G.resCap sub a → 0 ≤ G.redLength potential a))

theorem weight_eq_cost (within : G.WithinBounds sub) : G.weight sub = cost G.length sub := by
  rw [MixedGraph.weight, cost]
  refine sum_congr rfl fun e _ => ?_
  rw [abs_of_nonneg (within.nonneg e)]

/-- **Compatible potentials certify the weight.** -/
theorem minimum_of_compatible (flow : G.SameDemand sub0 sub)
    (compatible : G.Compatible sub potential) {g : Fin m → ℚ} (other : G.SameDemand sub0 g) :
    G.weight sub ≤ G.weight g := by
  rw [weight_eq_cost flow.within, weight_eq_cost other.within]
  refine cost_le_of_reduced G.toNetwork G.length potential (fun e => (other.within e).1)
    (fun e => (other.within e).2) ?_ ?_ ?_
  · intro e room
    have residual : 0 < G.resCap sub ⟨e, false⟩ := by
      rw [MixedGraph.resCap_forward flow.within ⟨e, false⟩ rfl]
      linarith
    rw [← redLength_forward]
    exact compatible _ residual
  · intro e room
    have residual : 0 < G.resCap sub ⟨e, true⟩ := by
      rw [MixedGraph.resCap_back ⟨e, true⟩ rfl]
      linarith
    have bound := compatible _ residual
    rw [redLength_backward] at bound
    linarith
  · intro v
    rw [← divergence_eq, ← divergence_eq, other.divergences, flow.divergences]

/-! ## Canceling one cycle -/

/-- The length of a dart without potentials. -/
def dartLength (G : DiGraph n m) (a : Arc m) : ℚ := signed a (G.length a.edge)

theorem redLength_zero (a : Arc m) : G.redLength (fun _ => 0) a = G.dartLength a := by
  simp [redLength_eq, dartLength]

theorem dartLength_rev (a : Arc m) : G.dartLength a.rev = -G.dartLength a := by
  simp [dartLength]

theorem eligible_residual_zero (a : Arc m) :
    G.eligible sub 0 .residual a = true ↔ 0 < G.resCap sub a := by
  rw [eligible_residual G sub 0 rfl, decide_eq_true_iff]

/-- A negative residual cycle that the predecessor labels describe. -/
structure NegativeAt (G : DiGraph n m) (sub : Fin m → ℚ) (pred : Fin n → Option (Arc m))
    (x : Fin n) (p : List (Arc m)) : Prop where
  consistent : ∀ v a, pred v = some a → G.dst a = v
  cycle : BackPath pred G.src x x p
  residual : ∀ a ∈ p, 0 < G.resCap sub a
  negative : (p.map G.dartLength).sum < 0

/-- A negative cycle does not run forth and back on one edge. -/
theorem NegativeAt.edges_nodup (found : G.NegativeAt sub pred x p) : (p.map Dart.edge).Nodup := by
  refine found.cycle.edges_nodup (N := G.toNetwork) found.consistent ?_
  rintro a rfl
  have neg := found.negative
  simp [dartLength_rev] at neg

/-- Pushing around a closed walk keeps the bounds and all divergences, and changes the weight
by the bottleneck times the length. -/
theorem SameDemand.push_closed (flow : G.SameDemand sub0 sub)
    (closed : IsWalk G.src G.dst x p.reverse x) (ne : p ≠ []) (once : (p.map Dart.edge).Nodup)
    (residual : ∀ a ∈ p, 0 < G.resCap sub a) :
    0 < G.bottleneck sub p ∧ G.SameDemand sub0 (pushAll sub p (G.bottleneck sub p)) ∧
      G.weight (pushAll sub p (G.bottleneck sub p)) =
        G.weight sub + G.bottleneck sub p * (p.map G.dartLength).sum := by
  have pos : 0 < G.bottleneck sub p := MixedGraph.bottleneck_pos flow.within ne residual
  have room : ∀ a ∈ p, G.bottleneck sub p ≤ G.resCap sub a := fun a mem =>
    MixedGraph.bottleneck_le mem
  have within' := MixedGraph.withinBounds_pushAll flow.within once pos.le room
  refine ⟨pos, ⟨within', fun v => ?_⟩, ?_⟩
  · rw [← flow.divergences v, divergence_eq, divergence_eq]
    exact div_pushAll_of_closed G.toNetwork sub closed (reverse_perm p).symm _ v
  · rw [weight_eq_cost within', weight_eq_cost flow.within, cost_pushAll]
    rfl

/-- **Canceling a cycle** keeps the bounds and all divergences and lowers the
weight by the bottleneck times the length of the cycle. -/
theorem cancel_step (flow : G.SameDemand sub0 sub) (found : G.NegativeAt sub pred x p) :
    0 < G.bottleneck sub p ∧ G.SameDemand sub0 (pushAll sub p (G.bottleneck sub p)) ∧
      G.weight (pushAll sub p (G.bottleneck sub p)) =
        G.weight sub + G.bottleneck sub p * (p.map G.dartLength).sum ∧
      G.cancelAt sub pred x = .ok (if G.bottleneck sub p = infCap then .unbounded
        else .canceled (pushAll sub p (G.bottleneck sub p))) := by
  obtain ⟨pos, flow', weight⟩ := flow.push_closed (found.cycle.isWalk found.consistent)
    found.cycle.ne_nil found.edges_nodup found.residual
  refine ⟨pos, flow', weight, ?_⟩
  have capacity : G.findCap sub pred x x = .ok (G.bottleneck sub p) :=
    MixedGraph.findCap_eq found.consistent found.cycle
  obtain ⟨pred', augmented⟩ := MixedGraph.augment_eq sub found.consistent found.cycle pos
  by_cases inf : G.bottleneck sub p = infCap
  · simp only [MixedGraph.cancelAt, capacity, inf, bind, Except.bind, if_true, pure,
      Except.pure]
  · simp only [MixedGraph.cancelAt, capacity, inf, augmented, bind, Except.bind, if_false,
      pure, Except.pure]

/-! ## The searches -/

section

variable (G : DiGraph n m) (sub : Fin m → ℚ)

/-- What both searches guarantee: labels that make a compatible potential, or a
negative cycle that is augmented. -/
structure CancelSpec
    (outcome : Except Raise (CancelOutcome n m)) : Prop where
  cases : (∃ dist, outcome = .ok (.noCycle dist) ∧
      G.Compatible sub (MixedGraph.updatePotentials (fun _ => 0) dist 0)) ∨
    ∃ pred x p, outcome = G.cancelAt sub pred x ∧ G.NegativeAt sub pred x p

theorem negativeCycle_residual : ∃ r, G.negativeCycle sub (fun _ => 0) 0 .residual none 0 = .ok r ∧
      (r.root = none → G.Compatible sub (MixedGraph.updatePotentials (fun _ => 0) r.dist 0)) ∧
      ∀ x, r.root = some x → ∃ p, G.NegativeAt sub r.pred x p := by
  have lengths : ∀ a, G.searchLength (fun _ => 0) .residual a + 0 = G.dartLength a := by
    intro a
    rw [add_zero, MixedGraph.searchLength, if_neg (by decide), redLength_zero]
  obtain ⟨r, res, spec⟩ := G.labelCorrect_spec (G.eligible sub 0 .residual)
    (fun a => G.searchLength (fun _ => 0) .residual a + 0) none (by
      intro a
      rw [lengths, lengths, dartLength_rev]
      linarith) (MixedGraph.walksBelow_ncSource (by simp))
  refine ⟨r, res, fun noRoot a residual => ?_, fun x root => ?_⟩
  · have bound := spec.feasible noRoot a ((eligible_residual_zero a).2 residual)
    rw [lengths] at bound
    -- the labels are not positive, so the cut at 0 does not change them
    have potential : ∀ v, (MixedGraph.updatePotentials (fun _ => 0) r.dist 0 v : WithTop ℚ) =
        r.dist v := by
      intro v
      have nonpos := spec.sources v (.inl rfl)
      obtain ⟨x, label⟩ := WithTop.ne_top_iff_exists.1
        (ne_top_of_le_ne_top WithTop.zero_ne_top nonpos)
      rw [← label] at nonpos
      rw [MixedGraph.updatePotentials, ← label]
      by_cases below : x < 0
      · rw [if_pos (by exact_mod_cast below), WithTop.untopD_coe, zero_add]
      · rw [if_neg (by exact_mod_cast below), zero_add]
        exact le_antisymm (by exact_mod_cast not_lt.1 below) nonpos
    rw [← potential, ← potential] at bound
    have bound' : MixedGraph.updatePotentials (fun _ => 0) r.dist 0 (G.dst a) ≤
        MixedGraph.updatePotentials (fun _ => 0) r.dist 0 (G.src a) + G.dartLength a := by
      exact_mod_cast bound
    rw [redLength_eq]
    rw [dartLength] at bound'
    linarith
  · obtain ⟨p, cycle, usable, neg⟩ := spec.negative x root
    refine ⟨p, spec.consistent, cycle,
      fun a mem => (eligible_residual_zero a).1 (usable a mem), ?_⟩
    simpa only [lengths] using neg

theorem cancelNegative_spec : G.CancelSpec sub (G.cancelNegative sub) := by
  obtain ⟨r, res, compatible, cycles⟩ := G.negativeCycle_residual sub
  constructor
  cases root : r.root with
  | none =>
    refine .inl ⟨r.dist, ?_, compatible root⟩
    simp only [MixedGraph.cancelNegative, res, root, bind, Except.bind, pure, Except.pure]
  | some x =>
    obtain ⟨p, found⟩ := cycles x root
    refine .inr ⟨r.pred, x, p, ?_, found⟩
    simp only [MixedGraph.cancelNegative, res, root, bind, Except.bind]

end

theorem finalLabels_spec (nonneg : ∀ u p, IsWalk G.src G.dst u p u → (∀ a ∈ p, 0 < G.resCap sub a) →
      0 ≤ (p.map G.dartLength).sum) : ∃ dist, G.finalLabels sub = .ok (.noCycle dist) ∧
      G.Compatible sub (MixedGraph.updatePotentials (fun _ => 0) dist 0) := by
  obtain ⟨r, res, compatible, cycles⟩ := G.negativeCycle_residual sub
  refine ⟨r.dist, ?_, compatible ?_⟩
  · simp only [MixedGraph.finalLabels, res, bind, Except.bind, pure, Except.pure]
  · by_contra root
    obtain ⟨x, isRoot⟩ := Option.ne_none_iff_exists'.1 root
    obtain ⟨p, found⟩ := cycles x isRoot
    have bound := nonneg x p.reverse (found.cycle.isWalk found.consistent)
      (fun a mem => found.residual a (mem_reverse.1 mem))
    rw [map_reverse, sum_reverse] at bound
    exact absurd found.negative (not_lt.2 bound)

theorem cancelMinMean_spec (G : DiGraph n m) (sub : Fin m → ℚ) :
    G.CancelSpec sub (G.cancelMinMean sub) := by
  have lengths : G.redLength (fun _ => 0) = G.dartLength := funext redLength_zero
  have closed : (∀ v, (G.karpRow ⊤ (G.eligible sub 0 .residual) G.dartLength n).dist v < ⊤ →
        ∃ k < n, (G.karpRow ⊤ (G.eligible sub 0 .residual) G.dartLength k).dist v ≤
          (G.karpRow ⊤ (G.eligible sub 0 .residual) G.dartLength n).dist v) →
      ∃ dist, G.finalLabels sub = .ok (.noCycle dist) ∧
        G.Compatible sub (MixedGraph.updatePotentials (fun _ => 0) dist 0) := by
    intro noGain
    refine finalLabels_spec fun u p walk residual => ?_
    exact MixedGraph.closed_nonneg noGain walk
      (fun a mem => (eligible_residual_zero a).2 (residual a mem))
  constructor
  rcases G.meanCycle_spec (G.eligible sub 0 .residual) G.dartLength with
    ⟨res, top⟩ | ⟨found, res, means, consistent, c, cycle, usable, bound⟩
  · obtain ⟨dist, labels, compatible⟩ := closed fun v finite => absurd (top v) finite.ne
    refine .inl ⟨dist, ?_, compatible⟩
    simp only [MixedGraph.cancelMinMean, MixedGraph.minimumMeanCycle, lengths, res, bind,
      Except.bind]
    exact labels
  by_cases nonneg : 0 ≤ found.meanValue
  · obtain ⟨dist, labels, compatible⟩ := closed (MixedGraph.noGain_of_nonneg nonneg means)
    refine .inl ⟨dist, ?_, compatible⟩
    simp only [MixedGraph.cancelMinMean, MixedGraph.minimumMeanCycle, lengths, res, bind,
      Except.bind, nonneg, if_true]
    exact labels
  · refine .inr ⟨found.pred, found.node, c, ?_, consistent, cycle, fun a mem =>
      (eligible_residual_zero a).1 (usable a mem), ?_⟩
    · simp only [MixedGraph.cancelMinMean, MixedGraph.minimumMeanCycle, lengths, res, bind,
        Except.bind, nonneg, if_false]
    · have pos : (0 : ℚ) < c.length := by
        exact_mod_cast length_pos_iff.2 cycle.ne_nil
      exact bound.trans_lt (mul_neg_of_neg_of_pos (not_le.1 nonneg) pos)

/-! ## Runs -/

section

variable (G : DiGraph n m) (sub0 : Fin m → ℚ)

/-- The state between two augmentations. -/
structure CancelInv
    (ε : ℚ) (st : MCFState m) : Prop where
  flow : G.SameDemand sub0 st.sub
  weight : st.w = G.weight st.sub
  onGrid : ∀ e, st.sub e ∈ grid ε
  history : ∀ f ∈ st.trace, G.SameDemand sub0 f

/-- What a method ends with. -/
structure CancelEnd
    (r : MCFResult n m) : Prop where
  history : ∀ f ∈ r.sub :: r.trace, G.SameDemand sub0 f
  outcome : (r.value = .weight (G.weight r.sub) ∧ G.Compatible r.sub r.potential) ∨
    (r.value = .negInf ∧ ∃ pred x p, G.NegativeAt r.sub pred x p ∧ G.bottleneck r.sub p = infCap)

end

/-- A lower bound for the weight of all flows within bounds. -/
def weightFloor (G : DiGraph n m) : ℚ := -∑ e, G.bound e * |G.length e|

theorem weightFloor_le (within : G.WithinBounds sub) : G.weightFloor ≤ G.weight sub := by
  rw [weight_eq_cost within, weightFloor, cost, neg_le, ← sum_neg_distrib]
  refine Finset.sum_le_sum fun e _ => ?_
  have nonneg := within.nonneg e
  calc -(sub e * G.length e) = sub e * -G.length e := by ring
    _ ≤ sub e * |G.length e| := mul_le_mul_of_nonneg_left (neg_le_abs _) nonneg
    _ ≤ G.bound e * |G.length e| := mul_le_mul_of_nonneg_right (within e).2 (abs_nonneg _)

/-- The number of cancelations that are left at most. -/
def cancelationsLeft (G : DiGraph n m) (ε δ : ℚ) (st : MCFState m) : ℕ :=
  gridSteps (ε * δ) (G.weight st.sub - G.weightFloor)

theorem dartLength_mem_grid (lengths : ∀ e, G.length e ∈ grid δ) (p : List (Arc m)) :
    (p.map G.dartLength).sum ∈ grid δ := by
  refine list_sum_mem fun x mem => ?_
  obtain ⟨a, -, rfl⟩ := mem_map.1 mem
  exact signed_mem_grid a (lengths _)

variable {cancel : (Fin m → ℚ) → Except Raise (CancelOutcome n m)}

/-- **One iteration** cancels a cycle or ends the method. -/
theorem cancelIteration_spec {ε : ℚ} {st : MCFState m} (spec : ∀ sub, G.CancelSpec sub (cancel sub))
    (caps : G.CapsOnGrid ε) (lengths : ∀ e, G.length e ∈ grid δ) (εPos : 0 < ε) (δPos : 0 < δ)
    (inv : G.CancelInv sub0 ε st) :
    (∃ st', G.cancelIteration cancel st = .ok (.inl st') ∧ G.CancelInv sub0 ε st' ∧
      G.cancelationsLeft ε δ st' < G.cancelationsLeft ε δ st) ∨
    ∃ r, G.cancelIteration cancel st = .ok (.inr r) ∧ G.CancelEnd sub0 r := by
  have history : ∀ f ∈ st.sub :: st.trace, G.SameDemand sub0 f := by
    intro f mem
    rcases mem_cons.1 mem with rfl | earlier
    · exact inv.flow
    · exact inv.history f earlier
  rcases (spec st.sub).cases with ⟨dist, res, compatible⟩ | ⟨pred, x, p, res, found⟩
  · refine .inr ⟨⟨.weight st.w, st.sub, MixedGraph.updatePotentials (fun _ => 0) dist 0,
      st.trace⟩, ?_, history, .inl ⟨by rw [inv.weight], compatible⟩⟩
    simp only [MixedGraph.cancelIteration, res, bind, Except.bind, pure, Except.pure]
  obtain ⟨pos, flow', weight', augmented⟩ := cancel_step inv.flow found
  by_cases inf : G.bottleneck st.sub p = infCap
  · refine .inr ⟨⟨.negInf, st.sub, fun _ => 0, st.trace⟩, ?_, history,
      .inr ⟨rfl, pred, x, p, found, inf⟩⟩
    simp only [MixedGraph.cancelIteration, res, augmented, inf, if_true, bind,
      Except.bind, pure, Except.pure]
  obtain ⟨narrowest, mem, val⟩ :=
    MixedGraph.exists_bottleneck inv.flow.within found.cycle.ne_nil
  have lambdaGrid : G.bottleneck st.sub p ∈ grid ε := by
    rw [val]
    exact resCap_mem_grid caps inv.flow.within inv.onGrid narrowest
  rw [if_neg inf] at augmented
  have canceled : cancel st.sub =
      .ok (.canceled (pushAll st.sub p (G.bottleneck st.sub p))) := res.trans augmented
  refine .inl ⟨⟨G.weight (pushAll st.sub p (G.bottleneck st.sub p)),
    pushAll st.sub p (G.bottleneck st.sub p),
    pushAll st.sub p (G.bottleneck st.sub p) :: st.trace⟩, ?_, ⟨flow', rfl,
    pushAll_mem_grid inv.onGrid lambdaGrid p, ?_⟩, ?_⟩
  · simp only [MixedGraph.cancelIteration, canceled, bind, Except.bind, pure, Except.pure]
  · intro f inTrace
    rcases mem_cons.1 inTrace with rfl | earlier
    · exact flow'
    · exact inv.history f earlier
  · refine gridSteps_lt (mul_pos εPos δPos) ?_ ?_
    · have floor := weightFloor_le flow'.within
      dsimp only
      linarith
    · -- the weight falls by a positive multiple of the grid of weights
      have drop := le_of_pos_of_mem_grid (mul_pos εPos δPos)
        (mul_mem_grid lambdaGrid (neg_mem (dartLength_mem_grid lengths p)))
        (mul_pos pos (neg_pos.2 found.negative))
      dsimp only
      rw [weight']
      linarith

theorem exists_capGrid (G : DiGraph n m) (sub : Fin m → ℚ) :
    ∃ ε : ℚ, 0 < ε ∧ G.CapsOnGrid ε ∧ ∀ e, sub e ∈ grid ε := by
  obtain ⟨ε, pos, all⟩ := exists_grid (Finset.univ : Finset (Fin m × Fin 3))
    fun i => ![G.bound i.1, G.lcap i.1, sub i.1] i.2
  refine ⟨ε, pos, fun e => ⟨?_, ?_⟩, fun e => ?_⟩
  · exact all (e, 0) (mem_univ _)
  · exact all (e, 1) (mem_univ _)
  · exact all (e, 2) (mem_univ _)

/-- **Canceling cycles terminates**, from every flow within bounds. -/
theorem cancelLoop_spec (spec : ∀ sub, G.CancelSpec sub (cancel sub))
    (within : G.WithinBounds sub0) :
    ∃ enough, ∀ fuel ≥ enough, ∃ r, loop .fuel (G.cancelIteration cancel) fuel
      ⟨G.weight sub0, sub0, []⟩ = .ok r ∧ G.CancelEnd sub0 r := by
  obtain ⟨ε, εPos, caps, onGrid⟩ := G.exists_capGrid sub0
  obtain ⟨δ, δPos, lengths⟩ := exists_grid Finset.univ G.length
  refine ⟨G.cancelationsLeft ε δ ⟨G.weight sub0, sub0, []⟩ + 1, fun fuel enough => ?_⟩
  exact loop_of_measure Raise.fuel (G.cancelIteration cancel) (G.CancelInv sub0 ε)
    (G.cancelationsLeft ε δ) (G.CancelEnd sub0)
    (fun st inv => cancelIteration_spec spec caps (fun e => lengths e (mem_univ e)) εPos δPos inv)
    ⟨⟨within, fun _ => rfl⟩, rfl, onGrid, by simp⟩ fuel enough

/-! ## Finite capacities -/

/-- What a minimum cost flow method delivers: every flow of the run keeps the
bounds and the divergences, the potentials are compatible with the last one, and
its weight is minimum. -/
structure MinCostRun (G : DiGraph n m) (sub0 : Fin m → ℚ) (r : MCFResult n m) : Prop where
  bounds : ∀ f ∈ r.sub :: r.trace, ∀ e, G.lcap e ≤ f e ∧ f e ≤ G.ucap e
  divergences : ∀ f ∈ r.sub :: r.trace, ∀ v, G.divergence f v = G.divergence sub0 v
  compatible : G.Compatible r.sub r.potential
  value : r.value = .weight (G.weight r.sub)
  minimum : ∀ g, (∀ e, G.lcap e ≤ g e ∧ g e ≤ G.ucap e) →
    (∀ v, G.divergence g v = G.divergence sub0 v) → G.weight r.sub ≤ G.weight g

theorem withinBounds_iff (finite : ∀ e, G.ucap e < infCap) :
    G.WithinBounds sub ↔ ∀ e, G.lcap e ≤ sub e ∧ sub e ≤ G.ucap e := by
  refine forall_congr' fun e => ?_
  rw [MixedGraph.bound_eq_ucap (finite e)]

theorem minCostRun_of_end {r : MCFResult n m} (finite : ∀ e, G.ucap e < infCap)
    (final : G.CancelEnd sub0 r) : G.MinCostRun sub0 r := by
  rcases final.outcome with ⟨val, compatible⟩ | ⟨-, pred, x, p, found, inf⟩
  · have flow := final.history r.sub mem_cons_self
    refine ⟨fun f mem => (withinBounds_iff finite).1 (final.history f mem).within,
      fun f mem => (final.history f mem).divergences, compatible, val, ?_⟩
    intro g within divergences
    exact minimum_of_compatible flow compatible ⟨(withinBounds_iff finite).2 within, divergences⟩
  · have flow := final.history r.sub mem_cons_self
    have bounded := MixedGraph.bottleneck_lt_infCap finite flow.within found.cycle.ne_nil
    exact absurd inf bounded.ne

/-- Two opposite arcs of which one has negative length. -/
def opposite : DiGraph 2 2 :=
  DiGraph.ofArcs ![0, 1] ![1, 0] ![2, 2] (fun _ => 0) ![-3, 1] fun _ => 0

/-- **Weak duality**: no flow that meets the demands is cheaper than the dual objective value. -/
theorem dualObjective_le (bounds : ∀ e, G.lcap e ≤ sub e ∧ sub e ≤ G.ucap e)
    (within : G.WithinBounds sub) (met : ∀ v, G.divergence sub v = G.demand v)
    (potential : Fin n → ℚ) : G.dualObjective potential ≤ G.weight sub := by
  rw [weight_eq_cost within, cost_eq_reduced G.toNetwork G.length sub potential, add_comm (∑ e, _)]
  refine add_le_add (Finset.sum_le_sum fun v _ => ?_) (Finset.sum_le_sum fun e _ => ?_)
  · rw [← divergence_eq, met, mul_comm]
  · obtain ⟨lower, upper⟩ := bounds e
    dsimp only
    rw [← redLength_forward]
    rcases lt_trichotomy (G.redLength potential ⟨e, false⟩) 0 with neg | zero | pos
    · rw [if_neg neg.not_gt, if_pos neg, zero_add]
      nlinarith
    · simp [zero]
    · rw [if_pos pos, if_neg pos.not_gt, add_zero]
      nlinarith

section

variable {epsilon ε w : ℚ} {st : MCFState m} {timer : TimerBounds} (nonneg : 0 ≤ epsilon)
include nonneg

/-- What an iteration reports is accepted, if the minimum weight `w` is between the bounds. -/
theorem timedIteration_eq (inv : G.CancelInv sub0 ε st) (bounded : |w| ≤ infFloat)
    (least : ∀ g, G.SameDemand sub0 g → w ≤ G.weight g)
    (dual : ∀ potential, G.dualObjective potential ≤ w) (admits : timer.Admits w) :
    (∀ st', G.cancelIteration cancel st = .ok (.inl st') → ∃ timer', timer'.Admits w ∧
        G.timedIteration cancel epsilon (st, timer) = .ok (.inl (st', timer'))) ∧
      ∀ r, r.value ≠ .negInf → G.cancelIteration cancel st = .ok (.inr r) →
        G.timedIteration cancel epsilon (st, timer) = .ok (.inr r) := by
  obtain ⟨low, high⟩ := abs_le.1 bounded
  obtain ⟨timer', upper, admits'⟩ := setBounds_ok nonneg admits low
    (inv.weight.symm ▸ least st.sub inv.flow : w ≤ st.w)
  cases outcome : cancel st.sub with
  | error raised =>
    simp [MixedGraph.cancelIteration, outcome, bind, Except.bind]
  | ok result =>
    cases result with
    | noCycle dist =>
      obtain ⟨timer'', lower, -⟩ := setBounds_ok nonneg admits'
        (dual (MixedGraph.updatePotentials (fun _ => 0) dist 0)) high
      simp [MixedGraph.cancelIteration, MixedGraph.timedIteration, outcome, upper, lower, bind,
        Except.bind, pure, Except.pure]
    | unbounded =>
      refine ⟨fun st' step => ?_, fun r value step => ?_⟩
      · simp [MixedGraph.cancelIteration, outcome, bind, Except.bind, pure, Except.pure] at step
      · simp only [MixedGraph.cancelIteration, outcome, bind, Except.bind, pure, Except.pure,
          Except.ok.injEq, Sum.inr.injEq] at step
        exact absurd (step ▸ rfl) value
    | canceled sub =>
      refine ⟨fun st' step => ⟨timer', admits', ?_⟩, fun r _ step => ?_⟩
      · simp only [MixedGraph.cancelIteration, outcome, bind, Except.bind, pure, Except.pure,
          Except.ok.injEq, Sum.inl.injEq] at step
        simp only [MixedGraph.timedIteration, outcome, upper, bind, Except.bind, pure,
          Except.pure, step]
      · simp [MixedGraph.cancelIteration, outcome, bind, Except.bind, pure, Except.pure] at step

section

variable (bounded : |w| ≤ infFloat) (least : ∀ g, G.SameDemand sub0 g → w ≤ G.weight g)
  (dual : ∀ potential, G.dualObjective potential ≤ w) (finite : ∀ e, G.ucap e < infCap)
  (spec : ∀ sub, G.CancelSpec sub (cancel sub))
include bounded least dual finite spec

theorem timedIteration_spec (caps : G.CapsOnGrid ε) (lengths : ∀ e, G.length e ∈ grid δ)
    (εPos : 0 < ε) (δPos : 0 < δ) (inv : G.CancelInv sub0 ε st) (admits : timer.Admits w) :
    (∃ s', G.timedIteration cancel epsilon (st, timer) = .ok (.inl s') ∧
      (G.CancelInv sub0 ε s'.1 ∧ s'.2.Admits w) ∧
      G.cancelationsLeft ε δ s'.1 < G.cancelationsLeft ε δ st) ∨
    ∃ r, G.timedIteration cancel epsilon (st, timer) = .ok (.inr r) ∧ G.CancelEnd sub0 r := by
  obtain ⟨goesOn, ends⟩ := timedIteration_eq nonneg inv bounded least dual admits
  rcases cancelIteration_spec spec caps lengths εPos δPos inv with
    ⟨st', step, inv', less⟩ | ⟨r, step, final⟩
  · obtain ⟨timer', admits', step'⟩ := goesOn st' step
    exact .inl ⟨(st', timer'), step', ⟨inv', admits'⟩, less⟩
  · refine .inr ⟨r, ends r ?_ step, final⟩
    rw [(minCostRun_of_end finite final).value]
    simp

theorem timedLoop_spec (admits : timer.Admits w) (within : G.WithinBounds sub0) :
    ∃ enough, ∀ fuel ≥ enough, ∃ r, loop .fuel (G.timedIteration cancel epsilon) fuel
      (⟨G.weight sub0, sub0, []⟩, timer) = .ok r ∧ G.CancelEnd sub0 r := by
  obtain ⟨ε, εPos, caps, onGrid⟩ := G.exists_capGrid sub0
  obtain ⟨δ, δPos, lengths⟩ := exists_grid Finset.univ G.length
  have start : G.CancelInv sub0 ε ⟨G.weight sub0, sub0, []⟩ :=
    ⟨⟨within, fun _ => rfl⟩, rfl, onGrid, by simp⟩
  refine ⟨G.cancelationsLeft ε δ ⟨G.weight sub0, sub0, []⟩ + 1, fun fuel more => ?_⟩
  exact loop_of_measure Raise.fuel (G.timedIteration cancel epsilon)
    (fun s => G.CancelInv sub0 ε s.1 ∧ s.2.Admits w) (fun s => G.cancelationsLeft ε δ s.1)
    (G.CancelEnd sub0)
    (fun s inv => timedIteration_spec nonneg bounded least dual finite spec caps
      (fun e => lengths e (mem_univ e)) εPos δPos inv.1 inv.2) ⟨start, admits⟩ fuel more

end

/-- **The bounds that are reported do not stop the methods**, if the initial flow meets the demands
and weights are numbers of the value range. -/
theorem timedCanceling_optimal (spec : ∀ sub, G.CancelSpec sub (cancel sub))
    (finite : ∀ e, G.ucap e < infCap) (feasible : ∀ e, G.lcap e ≤ sub0 e ∧ sub0 e ≤ G.ucap e)
    (met : ∀ v, G.divergence sub0 v = G.demand v)
    (range : ∀ g, G.SameDemand sub0 g → |G.weight g| ≤ infFloat) :
    ∃ enough, ∀ fuel ≥ enough, ∃ r,
      G.timedCanceling cancel epsilon fuel potential sub0 = .ok r ∧ G.MinCostRun sub0 r := by
  have within := (withinBounds_iff finite).2 feasible
  -- the minimum weight is the result of the run without bounds
  obtain ⟨enough, run⟩ := cancelLoop_spec spec within
  obtain ⟨r, -, final⟩ := run enough le_rfl
  have optimal := minCostRun_of_end finite final
  have flow := final.history r.sub mem_cons_self
  have least : ∀ g, G.SameDemand sub0 g → G.weight r.sub ≤ G.weight g := fun g other =>
    optimal.minimum g ((withinBounds_iff finite).1 other.within) other.divergences
  have dual : ∀ potential, G.dualObjective potential ≤ G.weight r.sub :=
    dualObjective_le ((withinBounds_iff finite).1 flow.within) flow.within
      fun v => (flow.divergences v).trans (met v)
  have bounded := range r.sub flow
  obtain ⟨timer, start, admits⟩ := setBounds_ok nonneg (TimerBounds.admits_reset.2 bounded)
    (dual potential) (abs_le.1 bounded).2
  obtain ⟨enough', loops⟩ :=
    timedLoop_spec nonneg bounded least dual finite spec admits within
  refine ⟨enough', fun fuel more => ?_⟩
  obtain ⟨r', res, final'⟩ := loops fuel more
  refine ⟨r', ?_, minCostRun_of_end finite final'⟩
  rw [MixedGraph.timedCanceling, start]
  exact res

end

/-! ## Unbounded problems -/

/-- A simple cycle of uncapacitated arcs of negative total length. -/
def UnboundedCycle (G : DiGraph n m) : Prop :=
  ∃ u p, IsWalk G.src G.dst u p u ∧ (p.map G.dst).Nodup ∧
    (∀ a ∈ p, a.back = false ∧ infCap ≤ G.ucap a.edge) ∧
    (p.map fun a => G.length a.edge).sum < 0

/-- Compatible potentials exclude negative cycles of residual arcs. -/
theorem Compatible.closed_nonneg (compatible : G.Compatible sub potential) {u : Fin n}
    (walk : IsWalk G.src G.dst u p u)
    (residual : ∀ a ∈ p, 0 < G.resCap sub a) : 0 ≤ (p.map G.dartLength).sum := by
  have closed := walk.sum_sub potential
  rw [sub_self] at closed
  rw [← closed]
  refine sum_le_sum fun a mem => ?_
  have bound := compatible a (residual a mem)
  rw [redLength_eq] at bound
  rw [dartLength]
  linarith

section

variable {epsilon : ℚ} {st : MCFState m × TimerBounds}

theorem timedCanceling_mono {fuel fuel' : ℕ} {r : MCFResult n m}
    (res : G.timedCanceling cancel epsilon fuel potential sub0 = .ok r) (more : fuel ≤ fuel') :
    G.timedCanceling cancel epsilon fuel' potential sub0 = .ok r := by
  rw [MixedGraph.timedCanceling] at res ⊢
  cases start : setBounds epsilon .reset (G.dualObjective potential) infFloat with
  | error raised =>
    rw [start] at res
    cases res
  | ok timer =>
    rw [start] at res
    exact loop_mono res more

/-- The lower bound only rises. -/
theorem timedIteration_lowerBound {st' : MCFState m × TimerBounds}
    (step : G.timedIteration cancel epsilon st = .ok (.inl st')) :
    st.2.lowerBound ≤ st'.2.lowerBound := by
  cases upper : setBounds epsilon st.2 (-infFloat) st.1.w with
  | error raised => simp [MixedGraph.timedIteration, upper, bind, Except.bind] at step
  | ok timer =>
    refine (le_lowerBound_of_setBounds upper).1.trans (le_of_eq ?_)
    simp only [MixedGraph.timedIteration, upper, bind, Except.bind, pure, Except.pure] at step
    split at step
    · cases step
    · split at step
      · split at step <;> cases step
      · split at step <;> cases step
      · cases step
        rfl

/-- A lower bound above `-InfFloat` is not overridden. -/
theorem timedIteration_ne_negInf {r : MCFResult n m} (above : -infFloat + epsilon < st.2.lowerBound)
    (step : G.timedIteration cancel epsilon st = .ok (.inr r)) : r.value ≠ .negInf := by
  cases upper : setBounds epsilon st.2 (-infFloat) st.1.w with
  | error raised => simp [MixedGraph.timedIteration, upper, bind, Except.bind] at step
  | ok timer =>
    have above' := above.trans_le (le_lowerBound_of_setBounds upper).1
    have refused : setBounds epsilon timer (-infFloat) (-infFloat) =
        .error (.rejected "SetBounds" "Trying to override lower bound") :=
      if_pos (by linarith)
    simp only [MixedGraph.timedIteration, upper, refused, bind, Except.bind, pure,
      Except.pure] at step
    split at step
    · cases step
    · split at step
      · split at step
        · cases step
        · cases step
          simp
      · cases step
      · cases step

end

/-- Two opposite uncapacitated arcs of total length `-2`. -/
def uncapacitated : DiGraph 2 2 :=
  DiGraph.ofArcs ![0, 1] ![1, 0] (fun _ => 1000000000) (fun _ => 0) ![-3, 1] fun _ => 0

theorem uncapacitated_cycle : uncapacitated.UnboundedCycle :=
  ⟨0, [⟨0, false⟩, ⟨1, false⟩], ⟨rfl, rfl, rfl⟩, by decide, by decide +kernel, by decide +kernel⟩

end DiGraph

end Goblin
