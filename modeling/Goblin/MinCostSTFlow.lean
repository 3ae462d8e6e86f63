import Goblin.CapacityScaling

/-!
# Minimum cost st-flow by shortest paths

`MCF_EdmondsKarp` augments shortest paths from `s` to `t` until the demand of `t`
is met. It starts with the node potentials of the graph object if these satisfy
complementary slackness. Otherwise it replaces them by the labels of a label
correcting search from `s`.

That search measures arcs by their reduced lengths with respect to the old
potentials, but the labels are stored as potentials for the original lengths, and
nodes that `s` does not reach get `InfFloat`. So the new potentials need not be
compatible either.
-/

set_option autoImplicit false

namespace Goblin

open Library List Finset

variable {ε : ℚ}

/-- What `MCF_EdmondsKarp` works on; `delta` is the demand that is left. -/
structure STState (n m : ℕ) where
  delta : ℚ
  sub : Fin m → ℚ
  potential : Fin n → ℚ
  trace : List (Fin m → ℚ)

namespace MixedGraph

variable {n m : ℕ} (G : MixedGraph n m) (Q : MinQueue.{0, 0, 0} (Fin n) (WithTop ℚ)) (epsilon : ℚ)

section

variable (sub : Fin m → ℚ) (potential : Fin n → ℚ)

/-- The check for complementary slackness. -/
def methodAdmissible : Bool :=
  (arcs m).all fun a => !(decide (0 < G.resCap sub a) && decide (G.redLength potential a < 0))

/-- `SPX_FIFOLabelCorrecting` without a target. -/
def spxFIFOLabelCorrecting (delta : ℚ)
    (characteristic : TOptSPX) (s : Fin n) : Except Raise (NCResult n m) := do
  let labels ← G.negativeCycle sub potential delta characteristic (some s) 0
  match labels.root with
  | none => return labels
  | some _ => .error (.check "SPX_FIFOLabelCorrecting" "Negative length cycles")

/-- The node potentials that the first search works with. -/
def startPotential (s : Fin n) :
    Except Raise (Fin n → ℚ) :=
  if G.methodAdmissible sub potential then .ok potential
  else
    match G.spxFIFOLabelCorrecting sub potential 0 .residual s with
    | .ok labels => .ok fun v => (labels.dist v).untopD infFloat
    -- the exception carries no text, only the log does
    | .error (.check _ _) =>
      .error (.rejected "MCF_EdmondsKarp" "...Complementary slacks cannot be satisfied")
    | .error other => .error other

end

/-- One round of the main loop. -/
def ekIteration (s t : Fin n) (st : STState n m) : Except Raise (STState n m ⊕ MCFResult n m) :=
  if 0 < st.delta then do
    let labels ← G.spxDijkstra Q ⊤ epsilon st.sub st.potential 0 .redRes (.singletonIndex n s)
      (.singletonIndex n t)
    let dt := labels.dist t
    if dt = ⊤ then return .inr ⟨.posInf, st.sub, st.potential, st.trace⟩
    else
      let lambda ← G.findCap st.sub labels.pred s t
      let lambda := if st.delta < lambda then st.delta else lambda
      if lambda = infCap then return .inr ⟨.negInf, st.sub, st.potential, st.trace⟩
      else
        let next ← G.augment st.sub labels.pred s t lambda
        return .inl ⟨if st.delta = infCap then st.delta else st.delta - lambda, next.1,
          updatePotentials st.potential labels.dist (dt.untopD 0), next.1 :: st.trace⟩
  else .ok (.inr ⟨.weight (G.weight st.sub), st.sub, st.potential, st.trace⟩)

def mcfEdmondsKarp (fuel : ℕ) (sub : Fin m → ℚ) (potential : Fin n → ℚ) (s t : Fin n) :
    Except Raise (MCFResult n m) := do
  let delta := if G.demand t = infCap then G.demand t else G.demand t - G.divergence sub t
  let potential ← G.startPotential sub potential s
  loop .fuel (G.ekIteration Q epsilon s t) fuel ⟨delta, sub, potential, []⟩

end MixedGraph

namespace DiGraph

variable {n m : ℕ} {G : DiGraph n m} {sub : Fin m → ℚ} {potential : Fin n → ℚ} {s t : Fin n}
  {v u : Fin n} {st : STState n m}

/-! ## Potentials to start with -/

theorem methodAdmissible_iff : G.methodAdmissible sub potential = true ↔
    G.Compatible sub potential := by
  simp only [MixedGraph.methodAdmissible, all_eq_true, Compatible, Bool.not_eq_true',
    Bool.and_eq_false_iff, decide_eq_false_iff_not, not_lt]
  constructor
  · intro all a residual
    exact (all a (mem_arcs a)).resolve_left (not_le.2 residual)
  · intro compatible a _
    by_cases residual : 0 < G.resCap sub a
    · exact .inr (compatible a residual)
    · exact .inl (not_lt.1 residual)

section

variable (G : DiGraph n m) (sub : Fin m → ℚ)

/-- No cycle of residual arcs has negative length. -/
def NoNegativeCycle : Prop :=
  ∀ u p, IsWalk G.src G.dst u p u → (∀ a ∈ p, 0 < G.resCap sub a) → 0 ≤ (p.map G.dartLength).sum

section

variable (potential : Fin n → ℚ) (s : Fin n)

/-- The residual walks from `s` that meet no node twice are shorter than `InfFloat`. -/
def ShortFrom : Prop :=
  WalksBelow G.src G.dst (fun a => 0 < G.resCap sub a) (· = s) (G.redLength potential) infFloat

/-- The labels are the distances from `s` by the reduced lengths; in particular, `s` reaches all
nodes. -/
def StartLabels (labels : Fin n → ℚ) : Prop :=
  ∀ v, IsDistance G.src G.dst (fun a => 0 < G.resCap sub a) (G.redLength potential) (· = s) v
    (labels v)

/-- The distances from `s` by the reduced lengths are compatible potentials. -/
def StartCompatible : Prop :=
  G.ShortFrom sub potential s ∧
    ∃ labels, G.StartLabels sub potential s labels ∧ G.Compatible sub labels

end

end

/-- The reduced length of a walk. -/
theorem sum_redLength (potential : Fin n → ℚ) {p : List (Arc m)} (walk : IsWalk G.src G.dst u p v) :
    (p.map (G.redLength potential)).sum =
      (p.map G.dartLength).sum - (potential v - potential u) := by
  have split : (p.map G.dartLength).sum = (p.map (G.redLength potential)).sum +
      (p.map fun a => potential (G.dst a) - potential (G.src a)).sum := by
    rw [← sum_map_add]
    congr 1
    refine map_congr_left fun a _ => ?_
    rw [redLength_eq, dartLength]
    ring
  rw [split, walk.sum_sub potential, add_sub_cancel_right]

/-- Integers that are small enough for the search to be exact in double precision. -/
structure ExactNumbers (G : DiGraph n m) (potential : Fin n → ℚ) : Prop where
  lengths : ∀ e, ∃ k : ℤ, G.length e = k
  potentials : ∀ v, ∃ k : ℤ, potential v = k
  small : ∑ e, |G.length e| + 2 * ∑ v, |potential v| < 2 ^ 53

theorem ExactNumbers.shortFrom (exact : G.ExactNumbers potential) (sub : Fin m → ℚ) (s : Fin n) :
    G.ShortFrom sub potential s := by
  intro x p v first
  have simple : (x :: p.map G.dst).Nodup := by
    refine nodup_cons.2 ⟨fun again => ?_, first.nodup⟩
    obtain ⟨a, mem, eq⟩ := mem_map.1 again
    exact first.fresh a mem (eq.trans first.source)
  have edges := first.walk.edges_nodup simple
  have lengths : (p.map G.dartLength).sum ≤ ∑ e, |G.length e| := by
    calc (p.map G.dartLength).sum ≤ (p.map fun a => |G.length a.edge|).sum := by
          refine sum_le_sum fun a _ => ?_
          rw [dartLength, signed]
          split_ifs
          · exact neg_le_abs _
          · exact le_abs_self _
      _ = ((p.map Dart.edge).map fun e => |G.length e|).sum := by
          rw [List.map_map]
          rfl
      _ = ∑ e ∈ (p.map Dart.edge).toFinset, |G.length e| := (sum_toFinset _ edges).symm
      _ ≤ ∑ e, |G.length e| :=
          sum_le_sum_of_subset_of_nonneg (Finset.subset_univ _) fun e _ _ => abs_nonneg _
  have single : ∀ u, |potential u| ≤ ∑ v, |potential v| := fun u =>
    Finset.single_le_sum (fun v _ => abs_nonneg (potential v)) (Finset.mem_univ u)
  have small := exact.small
  have atX := (le_abs_self _).trans (single x)
  have atV := (neg_le_abs _).trans (single v)
  refine WithTop.coe_lt_coe.2 ?_
  rw [sum_redLength potential first.walk, infFloat]
  linarith

/-- Without negative cycles the label correcting search computes the distances
from `s`. -/
theorem startPotential_spec (noCycle : G.NoNegativeCycle sub) (potential : Fin n → ℚ) (s : Fin n)
    (incompatible : ¬ G.Compatible sub potential) (short : G.ShortFrom sub potential s)
    (reaches : ∀ v, ReachableFrom G.src G.dst (fun a => 0 < G.resCap sub a) (· = s) v) :
    ∃ start, G.startPotential sub potential s = .ok start ∧
      G.StartLabels sub potential s start := by
  have lengths : (fun a => G.searchLength potential .residual a + 0) = G.redLength potential := by
    funext a
    rw [add_zero, MixedGraph.searchLength, if_neg (by decide)]
  obtain ⟨r, res, spec⟩ := G.labelCorrect_spec (G.eligible sub 0 .residual)
    (G.redLength potential) (some s) (by
      intro a
      rw [redLength_rev, add_neg_cancel]) (MixedGraph.walksBelow_ncSource (by
      rintro _ ⟨⟩
      simpa only [eligible_residual_zero, ShortFrom] using short))
  have eligible : ∀ a, G.eligible sub 0 .residual a = true ↔ 0 < G.resCap sub a :=
    eligible_residual_zero
  have noRoot : r.root = none := by
    by_contra root
    obtain ⟨x, isRoot⟩ := Option.ne_none_iff_exists'.1 root
    obtain ⟨p, cycle, usable, neg⟩ := spec.negative x isRoot
    have walk := cycle.isWalk spec.consistent
    have nonneg := noCycle x p.reverse walk fun a mem =>
      (eligible a).1 (usable a (mem_reverse.1 mem))
    have closed := sum_redLength potential walk
    rw [sub_self, sub_zero] at closed
    rw [← closed, map_reverse, sum_reverse] at nonneg
    exact absurd neg (not_lt.2 nonneg)
  have isSource : ∀ v, MixedGraph.ncSource (some s) v ↔ v = s := by
    intro v
    simp [MixedGraph.ncSource, eq_comm]
  -- every walk from `s` is at least as long as the label of its end
  have bound : ∀ u v p, u = s → IsWalk G.src G.dst u p v → (∀ a ∈ p, 0 < G.resCap sub a) →
      r.dist v ≤ (((p.map (G.redLength potential)).sum : ℚ) : WithTop ℚ) := by
    rintro u v p rfl walk usable
    have label := spec.sources u ((isSource u).2 rfl)
    have walked := le_of_feasible (fun a => G.eligible sub 0 .residual a = true)
      (spec.feasible noRoot) walk fun a mem => (eligible a).2 (usable a mem)
    refine walked.trans ?_
    calc r.dist u + (((p.map (G.redLength potential)).sum : ℚ) : WithTop ℚ)
        ≤ 0 + (((p.map (G.redLength potential)).sum : ℚ) : WithTop ℚ) :=
          add_le_add_left label _
      _ = _ := zero_add _
  refine ⟨fun v => (r.dist v).untopD infFloat, ?_, fun v => ?_⟩
  · have notAdmissible : G.methodAdmissible sub potential = false := by
      rw [Bool.eq_false_iff, ne_eq, methodAdmissible_iff]
      exact incompatible
    simp only [MixedGraph.startPotential, notAdmissible, Bool.false_eq_true, if_false,
      MixedGraph.spxFIFOLabelCorrecting, MixedGraph.negativeCycle, lengths, res, noRoot, bind,
      Except.bind, pure, Except.pure]
  · obtain ⟨u, p, source, walk, usable⟩ := reaches v
    have label : r.dist v ≠ ⊤ :=
      ne_top_of_le_ne_top WithTop.coe_ne_top (bound u v p source walk usable)
    obtain ⟨d, val⟩ := WithTop.ne_top_iff_exists.1 label
    dsimp only
    rw [← val, WithTop.untopD_coe]
    obtain ⟨u, p, source, walk, usable, length⟩ := spec.attained v d val.symm
    refine ⟨⟨u, p, (isSource u).1 source, walk,
      fun a mem => (eligible a).1 (usable a mem), length⟩, ?_⟩
    intro u' p' source' walk' usable'
    have below := bound u' v p' source' walk' usable'
    rw [← val] at below
    exact_mod_cast below

/-! ## The main loop -/

/-- What holds between two augmentations. A counter of `InfCap` never changes. -/
structure EKInv (G : DiGraph n m) (s t : Fin n) (ε : ℚ) (st : STState n m) : Prop where
  flow : G.STFlow s t st.sub
  onGrid : ∀ e, st.sub e ∈ grid ε
  optimal : G.ReducedOptimal st.sub st.potential 0
  counter : st.delta = infCap ∨
    (st.delta = G.demand t - G.divergence st.sub t ∧ 0 ≤ st.delta)
  distinct : 0 < st.delta → s ≠ t

/-- What the method returns: the demand cannot be met, or it is met by a flow with
compatible potentials. -/
structure CertifiedSTFlow (G : DiGraph n m) (s t : Fin n) (r : MCFResult n m) : Prop where
  flow : G.STFlow s t r.sub
  outcome : r.value = .posInf ∨ (r.value = .weight (G.weight r.sub) ∧
    G.divergence r.sub t = G.demand t ∧ G.Compatible r.sub r.potential)

theorem mem_singletonIndex : (IndexSet.singletonIndex n u).isMember v = true ↔ v = u := by
  simp [IndexSet.singletonIndex, Fin.ext_iff]

section

variable (Q : MinQueue.{0, 0, 0} (Fin n) (WithTop ℚ)) {epsilon : ℚ} (tolerant : 0 ≤ epsilon)
  (finite : ∀ e, G.ucap e < infCap)
  (data : G.DataGrid ε) (inv : G.EKInv s t ε st)
include tolerant finite data inv

/-- **One round** augments a shortest path, or it ends the method. -/
theorem ekIteration_spec :
    (∃ st', G.ekIteration Q epsilon s t st = .ok (.inl st') ∧ G.EKInv s t ε st' ∧
      G.divergence st.sub t + ε ≤ G.divergence st'.sub t) ∨
    ∃ r, G.ekIteration Q epsilon s t st = .ok (.inr r) ∧ G.CertifiedSTFlow s t r := by
  by_cases guard : 0 < st.delta
  · have ne := inv.distinct guard
    obtain ⟨r, done, level, search, settled⟩ := spxDijkstra_redRes Q tolerant inv.optimal
      (.singletonIndex n s) (.singletonIndex n t)
    have notDone : t ∉ done := by
      intro mem
      have noTarget := settled.noTarget t mem
      rw [mem_singletonIndex.2 rfl] at noTarget
      cases noTarget
    rcases settled.target with ⟨-, top⟩ | ⟨u, -, isTarget, -, label, levelFinite⟩
    · have unlabelled : r.dist t = ⊤ := top_le_iff.1 (top ▸ settled.outside t notDone)
      refine .inr ⟨⟨.posInf, st.sub, st.potential, st.trace⟩, ?_, inv.flow, .inl rfl⟩
      simp only [MixedGraph.ekIteration, guard, if_true, search, unlabelled, bind, Except.bind,
        pure, Except.pure]
    obtain rfl := mem_singletonIndex.1 isTarget
    obtain ⟨d, rfl⟩ := WithTop.ne_top_iff_exists.1 levelFinite
    obtain ⟨s', p, source, path, usable, -⟩ := settled.labels.path
      (by rw [label]; exact levelFinite) (fun source => ne (mem_singletonIndex.1 source).symm)
    obtain rfl := mem_singletonIndex.1 source
    have consistent := settled.labels.consistent
    have residual : ∀ a ∈ p, 0 < G.resCap st.sub a := fun a mem =>
      above_iff.1 (usable a mem)
    have within := inv.flow.within
    obtain ⟨narrowest, inPath, val⟩ := MixedGraph.exists_bottleneck within path.ne_nil
    have bounded := MixedGraph.bottleneck_lt_infCap finite within path.ne_nil
    have bottleneckPos := MixedGraph.bottleneck_pos within path.ne_nil residual
    have bottleneckGrid : G.bottleneck st.sub p ∈ grid ε := by
      rw [val]
      exact resCap_mem_grid data.caps within inv.onGrid narrowest
    set x := if st.delta < G.bottleneck st.sub p then st.delta else G.bottleneck st.sub p with xEq
    have xPos : 0 < x := by
      rw [xEq]
      split_ifs
      · exact guard
      · exact bottleneckPos
    have below : x ≤ G.bottleneck st.sub p := by
      rw [xEq]
      split_ifs with less
      · exact less.le
      · exact le_refl _
    have small : x ≤ st.delta := by
      rw [xEq]
      split_ifs with less
      · exact le_refl _
      · exact not_lt.1 less
    have notInfinite : x ≠ infCap := (below.trans_lt bounded).ne
    have xGrid : x ∈ grid ε := by
      rw [xEq]
      split_ifs with less
      · rcases inv.counter with inf | ⟨val, -⟩
        · exact absurd (less.trans bounded) (by rw [inf]; exact lt_irrefl _)
        · rw [val]
          exact sub_mem (data.demands _) (divergence_mem_grid inv.onGrid _)
      · exact bottleneckGrid
    have room : ∀ a ∈ p, x ≤ G.resCap st.sub a := fun a mem =>
      below.trans (MixedGraph.bottleneck_le mem)
    obtain ⟨flow', grows⟩ := inv.flow.pushAll ne (path.isWalk consistent)
      (reverse_perm p).symm (path_edges_nodup ne consistent path) xPos.le room
    have capacity : G.findCap st.sub r.pred s' u = .ok (G.bottleneck st.sub p) :=
      MixedGraph.findCap_eq consistent path
    obtain ⟨pred', augmented⟩ := MixedGraph.augment_eq st.sub consistent path xPos
    refine .inl ⟨⟨if st.delta = infCap then st.delta else st.delta - x, pushAll st.sub p x,
      MixedGraph.updatePotentials st.potential r.dist d, pushAll st.sub p x :: st.trace⟩, ?_,
      ⟨flow', pushAll_mem_grid inv.onGrid xGrid p,
        inv.optimal.augment within settled path label ne xPos.le room, ?_,
        fun _ => ne⟩, ?_⟩
    · simp only [MixedGraph.ekIteration, guard, if_true, search, label, WithTop.coe_ne_top,
        if_false, capacity, ← xEq, notInfinite, augmented, WithTop.untopD_coe, bind, Except.bind,
        pure, Except.pure]
    · dsimp only
      by_cases inf : st.delta = infCap
      · exact .inl (by rw [if_pos inf, inf])
      · obtain ⟨val, -⟩ := inv.counter.resolve_left inf
        rw [if_neg inf, grows, val]
        exact .inr ⟨by ring, by linarith⟩
    · dsimp only
      rw [grows]
      linarith [le_of_pos_of_mem_grid data.pos xGrid xPos]
  · refine .inr ⟨⟨.weight (G.weight st.sub), st.sub, st.potential, st.trace⟩, ?_, inv.flow,
      .inr ⟨rfl, ?_, inv.optimal⟩⟩
    · simp only [MixedGraph.ekIteration, guard, if_false]
    · rcases inv.counter with inf | ⟨val, nonneg⟩
      · rw [inf] at guard
        exact absurd (by norm_num [infCap] : (0 : ℚ) < infCap) guard
      · dsimp only
        linarith

/-- **The main loop ends with a certified flow** when it starts with compatible
potentials. -/
theorem ekLoop_spec :
    ∃ enough, ∀ fuel ≥ enough, ∃ r, loop .fuel (G.ekIteration Q epsilon s t) fuel st = .ok r ∧
      G.CertifiedSTFlow s t r := by
  refine ⟨gridSteps ε (∑ e, G.bound e - G.divergence st.sub t) + 1, fun fuel enough => ?_⟩
  refine loop_of_measure Raise.fuel (G.ekIteration Q epsilon s t) (G.EKInv s t ε)
    (fun st => gridSteps ε (∑ e, G.bound e - G.divergence st.sub t)) (G.CertifiedSTFlow s t) ?_
    inv fuel enough
  intro st inv
  rcases ekIteration_spec Q tolerant finite data inv with ⟨st', res, inv', grows⟩ | final
  · refine .inl ⟨st', res, inv', gridSteps_lt data.pos ?_ ?_⟩
    · exact sub_nonneg.2 inv'.flow.value_le_total
    · linarith
  · exact .inr final

end

/-! ## The method -/

/-- What a finite weight stands for: all demands are met, and the potentials are
compatible with the flow. -/
def ReturnsCertified (G : DiGraph n m) (r : MCFResult n m) : Prop :=
  ∀ w, r.value = .weight w → w = G.weight r.sub ∧
    (∀ v, G.divergence r.sub v = G.demand v) ∧ G.Compatible r.sub r.potential

theorem STFlow.divergence_source (flow : G.STFlow s t sub) (ne : s ≠ t) :
    G.divergence sub s = -G.divergence sub t := by
  have total := sum_div_univ G.toNetwork sub
  simp only [← divergence_eq] at total
  rw [sum_eq_add s t ne (fun v _ other => flow.balanced v other.1 other.2)
    (fun missing => absurd (mem_univ s) missing)
    (fun missing => absurd (mem_univ t) missing)] at total
  linarith

theorem STFlow.divergence_eq_zero (flow : G.STFlow s t sub) (eq : s = t) :
    G.divergence sub t = 0 := by
  subst eq
  have total := sum_div_univ G.toNetwork sub
  simp only [← divergence_eq] at total
  rwa [sum_eq_single s (fun v _ other => flow.balanced v other other)
    (fun missing => absurd (mem_univ s) missing)] at total

/-- Only `s` and `t` have demands, and these are opposite. -/
structure STDemand (G : DiGraph n m) (s t : Fin n) : Prop where
  opposite : G.demand s = -G.demand t
  elsewhere : ∀ v, v ≠ s → v ≠ t → G.demand v = 0

theorem STDemand.met (demands : G.STDemand s t) (flow : G.STFlow s t sub)
    (target : G.divergence sub t = G.demand t) (v : Fin n) : G.divergence sub v = G.demand v := by
  by_cases atTarget : v = t
  · rw [atTarget, target]
  · by_cases atSource : v = s
    · subst atSource
      rw [flow.divergence_source atTarget, target, demands.opposite]
    · rw [flow.balanced v atSource atTarget, demands.elsewhere v atSource atTarget]

theorem mcfEdmondsKarp_mono {Q : MinQueue.{0, 0, 0} (Fin n) (WithTop ℚ)} {epsilon : ℚ} {fuel fuel' : ℕ}
    {r : MCFResult n m} (res : G.mcfEdmondsKarp Q epsilon fuel sub potential s t = .ok r)
    (more : fuel ≤ fuel') : G.mcfEdmondsKarp Q epsilon fuel' sub potential s t = .ok r := by
  rw [MixedGraph.mcfEdmondsKarp] at res ⊢
  cases start : G.startPotential sub potential s with
  | error raised =>
    rw [start] at res
    cases res
  | ok labels =>
    rw [start] at res
    exact loop_mono res more

theorem startPotential_compatible (compatible : G.Compatible sub potential) (s : Fin n) :
    G.startPotential sub potential s = .ok potential := by
  rw [MixedGraph.startPotential, if_pos (methodAdmissible_iff.2 compatible)]

/-- Distances to start with are compatible if and only if the condition holds. -/
theorem StartLabels.compatible_iff {start : Fin n → ℚ} (labels : G.StartLabels sub potential s start)
    (incompatible : ¬ G.Compatible sub potential) (short : G.ShortFrom sub potential s) :
    G.Compatible sub start ↔ G.Compatible sub potential ∨ G.StartCompatible sub potential s := by
  refine ⟨fun compatible => .inr ⟨short, start, labels, compatible⟩, ?_⟩
  rintro (compatible | ⟨-, labels', isLabel, compatible⟩)
  · exact absurd compatible incompatible
  · have same : start = labels' := funext fun v => (labels v).unique (isLabel v)
    rwa [same]

/-- One arc of length 5. -/
def costlyArc : DiGraph 2 1 := DiGraph.ofArcs ![0] ![1] ![2] ![0] ![5] ![-1, 1]

theorem costlyArc_demand : costlyArc.STDemand 0 1 := ⟨by decide +kernel, by decide +kernel⟩

end DiGraph

end Goblin
