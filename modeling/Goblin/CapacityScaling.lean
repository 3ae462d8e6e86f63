import Goblin.ShortestAugmentation

/-!
# Minimum cost flow by capacity scaling

`MCF_CapacityScaling` starts with any flow within bounds. A phase first saturates the
arcs of residual capacity above `delta` that have negative reduced length, and then
augments shortest paths from nodes with excess above `delta` to nodes with a
deficiency above `delta`. The total deficiency `defPlus` falls with every
augmentation, so a phase ends; in the last phase `delta` is zero, and then either all
demands are met or the labelled nodes form a cut that no flow can satisfy
(`CSEnd.infeasible`).

Without scaling there is one phase with `delta` zero, and it also ends when the
counter `defPlus` has been used up. The counter is set before the arcs are
saturated, so this is right only if saturating does not raise the deficiency. With
scaling, `CloseFold` raises if some demand is not met.
-/

set_option autoImplicit false

namespace Goblin

open Library List Finset

variable {ε surplus : ℚ} {doScale : Bool} {fuel : ℕ}

/-- The modules that `MCF_CapacityScaling` opens a fold for. -/
inductive TModule where
  | mcfCapScaling
  | shortPath2
deriving DecidableEq

/-- `CloseFold`, where `opened` is the module of the last `OpenFold`. -/
def closeFold (opened mod : TModule) : Except Raise Unit :=
  if opened ≠ mod then .error (.rejected "CloseFold" "Mismatching fold declarations") else .ok ()

/-- What `MCF_CapacityScaling` works on. -/
structure CSState (n m : ℕ) where
  sub : Fin m → ℚ
  potential : Fin n → ℚ
  defPlus : ℚ
  trace : List (Fin m → ℚ)

namespace MixedGraph

variable {n m : ℕ} (G : MixedGraph n m) (Q : MinQueue.{0, 0, 0} (Fin n) (WithTop ℚ)) (epsilon : ℚ)

section

variable (sub : Fin m → ℚ)

/-- What a node still needs. -/
def deficiency (v : Fin n) : ℚ := G.demand v - G.divergence sub v

/-- The total of the positive deficiencies. -/
def totalDefPlus : ℚ :=
  ∑ v, if 0 < G.deficiency sub v then G.deficiency sub v else 0

/-- The total of the other ones, with opposite sign. -/
def totalDefMinus : ℚ :=
  ∑ v, if 0 < G.deficiency sub v then 0 else -G.deficiency sub v

def supersaturatedNodes (delta : ℚ) : IndexSet n :=
  .ofMember n fun i =>
    if inRange : i < n then
      decide (delta < G.divergence sub ⟨i, inRange⟩ - G.demand ⟨i, inRange⟩)
    else false

def deficientNodes (delta : ℚ) : IndexSet n :=
  .ofMember n fun i =>
    if inRange : i < n then
      decide (G.divergence sub ⟨i, inRange⟩ - G.demand ⟨i, inRange⟩ < -delta)
    else false

end

section

variable (potential : Fin n → ℚ) (delta : ℚ) (sub : Fin m → ℚ)

/-- One arc of the loop that starts a phase. -/
def saturateArc (a : Arc m) : Fin m → ℚ :=
  if delta < G.resCap sub a ∧ G.redLength potential a < 0 then push sub a (G.resCap sub a)
  else sub

/-- Saturate the arcs that violate the reduced optimality criterion. -/
def saturate : Fin m → ℚ :=
  (arcs m).foldl (G.saturateArc potential delta) sub

end

/-- The loop back from the target to the first node with excess. -/
def scanPath (sub : Fin m → ℚ) (pred : Fin n → Option (Arc m)) :
    ℕ → Fin n → ℚ → Except Raise (Fin n × ℚ)
  | 0, _, _ => .error .fuel
  | left + 1, s, lambda =>
    match pred s with
    | none => .error (.range "ResCap" "Undefined arc")
    | some a =>
      if 0 ≤ G.deficiency sub (G.startNode a) then
        scanPath sub pred left (G.startNode a) (G.narrow sub lambda a)
      else .ok (G.startNode a, G.narrow sub lambda a)

/-- The amount of an augmentation between the nodes `s` and `t`. -/
def csAmount (sub : Fin m → ℚ) (s t : Fin n) (lambda : ℚ) : ℚ :=
  let defS := G.deficiency sub s
  let defT := G.deficiency sub t
  let lambda := if defT < lambda then defT else lambda
  if -defS < lambda then -defS else lambda

/-- One round of the inner loop. -/
def csIteration (doScale : Bool) (delta : ℚ) (st : CSState n m) :
    Except Raise (CSState n m ⊕ CSState n m) :=
  if doScale = true ∨ 0 < st.defPlus then do
    let labels ← G.spxDijkstra Q ⊤ epsilon st.sub st.potential delta .redRes
      (G.supersaturatedNodes st.sub delta) (G.deficientNodes st.sub delta)
    match labels.target with
    | none => return .inr st
    | some t =>
      let (s, lambda) ← G.scanPath st.sub labels.pred n t infFloat
      let lambda := G.csAmount st.sub s t lambda
      let next ← G.augment st.sub labels.pred s t lambda
      return .inl ⟨next.1, updatePotentials st.potential labels.dist ((labels.dist t).untopD 0),
        if doScale then st.defPlus else st.defPlus - lambda, next.1 :: st.trace⟩
  else .ok (.inr st)

/-- One phase: saturate, augment while this is possible, and halve `delta`. -/
def csPhase (fuel : ℕ) (doScale : Bool) (st : ℚ × CSState n m) :
    Except Raise ((ℚ × CSState n m) ⊕ CSState n m) := do
  let start := { st.2 with sub := G.saturate st.2.potential st.1 st.2.sub }
  let next ← loop .fuel (G.csIteration Q epsilon doScale st.1) fuel start
  if st.1 = 0 then return .inr next else return .inl ((⌊st.1 / 2⌋ : ℤ), next)

def mcfCapacityScaling (fuel : ℕ) (doScale : Bool) (sub : Fin m → ℚ) (potential : Fin n → ℚ) :
    Except Raise (MCFResult n m) := do
  if G.totalDefPlus sub ≠ G.totalDefMinus sub then
    .error (.rejected "MCF_CapacityScaling" "Node demands do not resolve")
  else
    let delta := if doScale then
      (if 0 < G.maxUCap then G.maxUCap - 1 else G.maxUCap) else 0
    let st ← loop .fuel (G.csPhase Q epsilon fuel doScale)
      fuel (delta, ⟨sub, potential, G.totalDefPlus sub, []⟩)
    let opened : TModule := if doScale then .mcfCapScaling else .shortPath2
    if ∀ v, G.demand v = G.divergence st.sub v then
      closeFold opened (if doScale then .mcfCapScaling else .shortPath2)
      return ⟨.weight (G.weight st.sub), st.sub, st.potential, st.trace⟩
    else
      -- the fold of the other module is closed here, also after scaling
      closeFold opened .shortPath2
      return ⟨.posInf, st.sub, st.potential, st.trace⟩

end MixedGraph

namespace DiGraph

variable {n m : ℕ} {G : DiGraph n m} {sub : Fin m → ℚ} {potential : Fin n → ℚ} {delta : ℚ}
  {v s t : Fin n} {p : List (Arc m)} {st : CSState n m}

/-! ## Deficiencies -/

theorem mem_supersaturatedNodes :
    (G.supersaturatedNodes sub delta).isMember v = true ↔ delta < -G.deficiency sub v := by
  simp [MixedGraph.supersaturatedNodes, IndexSet.ofMember, MixedGraph.deficiency]

theorem mem_deficientNodes :
    (G.deficientNodes sub delta).isMember v = true ↔ delta < G.deficiency sub v := by
  simp only [MixedGraph.deficientNodes, IndexSet.ofMember, MixedGraph.deficiency, v.isLt,
    dif_pos, decide_eq_true_iff]
  constructor <;> intro below <;> linarith

theorem totalDefPlus_nonneg (G : DiGraph n m) (sub : Fin m → ℚ) : 0 ≤ G.totalDefPlus sub := by
  refine Finset.sum_nonneg fun v _ => ?_
  split_ifs with pos
  · exact pos.le
  · exact le_refl 0

theorem deficiency_le_totalDefPlus (v : Fin n) : G.deficiency sub v ≤ G.totalDefPlus sub := by
  have term : G.deficiency sub v ≤ if 0 < G.deficiency sub v then G.deficiency sub v else 0 := by
    split_ifs with pos
    · exact le_refl _
    · exact not_lt.1 pos
  refine term.trans (single_le_sum (f := fun v =>
    if 0 < G.deficiency sub v then G.deficiency sub v else 0) (fun w _ => ?_)
    (mem_univ v))
  split_ifs with pos
  · exact pos.le
  · exact le_refl 0

section

variable (G : DiGraph n m) (sub : Fin m → ℚ)

theorem sum_deficiency : ∑ v, G.deficiency sub v = ∑ v, G.demand v := by
  have cancel := sum_div_univ G.toNetwork sub
  simp only [MixedGraph.deficiency, sum_sub_distrib, divergence_eq, cancel, sub_zero]

theorem totalDefPlus_sub_totalDefMinus :
    G.totalDefPlus sub - G.totalDefMinus sub = ∑ v, G.demand v := by
  rw [← G.sum_deficiency sub, MixedGraph.totalDefPlus, MixedGraph.totalDefMinus, ← sum_sub_distrib]
  refine sum_congr rfl fun v _ => ?_
  split_ifs <;> ring

end

theorem met_of_totalDefPlus (resolve : ∑ v, G.demand v = 0) (none : G.totalDefPlus sub ≤ 0)
    (v : Fin n) : G.deficiency sub v = 0 := by
  have all := G.sum_deficiency sub
  rw [resolve, sum_eq_zero_iff_of_nonpos fun w _ =>
    (deficiency_le_totalDefPlus w).trans none] at all
  exact all v (mem_univ v)

theorem totalDefPlus_of_met (met : ∀ v, G.deficiency sub v = 0) : G.totalDefPlus sub = 0 :=
  sum_eq_zero fun v _ => by simp [met v]

/-- Augmenting from a node with excess to a deficient one, by no more than either
of them has, lowers the total deficiency by the amount. -/
theorem totalDefPlus_pushAll {q : List (Arc m)} {x : ℚ} (ne : s ≠ t)
    (walk : IsWalk G.src G.dst s q t) (perm : p.Perm q) (nonneg : 0 ≤ x)
    (target : x ≤ G.deficiency sub t) (source : x ≤ -G.deficiency sub s) :
    G.totalDefPlus (pushAll sub p x) = G.totalDefPlus sub - x := by
  have change : ∀ v, G.deficiency (pushAll sub p x) v =
      G.deficiency sub v - ((if t = v then x else 0) - (if s = v then x else 0)) := by
    intro v
    have divergences := div_pushAll_of_walk G.toNetwork sub walk perm x v
    rw [← divergence_eq, ← divergence_eq] at divergences
    rw [MixedGraph.deficiency, MixedGraph.deficiency, divergences]
    ring
  have single : ∑ v, (if t = v then x else 0) = x := by simp
  have split : G.totalDefPlus sub - x = ∑ v, ((if 0 < G.deficiency sub v then
      G.deficiency sub v else 0) - (if t = v then x else 0)) := by
    rw [sum_sub_distrib, single, MixedGraph.totalDefPlus]
  rw [split, MixedGraph.totalDefPlus]
  refine sum_congr rfl fun v _ => ?_
  rw [change v]
  by_cases atTarget : t = v
  · subst atTarget
    rw [if_pos rfl, if_neg ne]
    split_ifs <;> linarith
  rw [if_neg atTarget]
  by_cases atSource : s = v
  · subst atSource
    rw [if_pos rfl, if_neg (by linarith), if_neg (by linarith)]
    ring
  · rw [if_neg atSource, sub_zero, sub_zero, sub_zero]

/-! ## Saturating -/

/-- Saturating an arc of negative reduced length meets the criterion at this arc,
and it cannot spoil it anywhere else. -/
theorem saturateArc_keeps (deltaNonneg : 0 ≤ delta) (within : G.WithinBounds sub)
    (potential : Fin n → ℚ) (a : Arc m) : G.WithinBounds (G.saturateArc potential delta sub a) ∧
      ∀ b, (b = a ∨ (delta < G.resCap sub b → 0 ≤ G.redLength potential b)) →
        delta < G.resCap (G.saturateArc potential delta sub a) b → 0 ≤ G.redLength potential b := by
  by_cases violated : delta < G.resCap sub a ∧ G.redLength potential a < 0
  · have pushed : G.saturateArc potential delta sub a = pushAll sub [a] (G.resCap sub a) := by
      rw [MixedGraph.saturateArc, if_pos violated, pushAll_cons, pushAll_nil]
    have nonneg := MixedGraph.resCap_nonneg within a
    have room : ∀ b ∈ [a], G.resCap sub a ≤ G.resCap sub b := by simp
    rw [pushed]
    refine ⟨MixedGraph.withinBounds_pushAll within (by simp) nonneg room, ?_⟩
    intro b before residual
    rcases MixedGraph.resCap_pushAll within (by simp) nonneg room b with
      ⟨mem, val⟩ | ⟨mem, -⟩ | eq
    · rw [List.mem_singleton.1 mem, sub_self] at val
      rw [List.mem_singleton.1 mem, val] at residual
      exact absurd residual (not_lt.2 deltaNonneg)
    · have reversed := redLength_rev G potential b
      rw [List.mem_singleton.1 mem] at reversed
      linarith [violated.2]
    · have other : b ≠ a := by
        rintro rfl
        have drop := (MixedGraph.resCap_of_pushed within
          (MixedGraph.withinBounds_pushAll within (by simp) nonneg room)
          (pushAll_of_mem sub (G.resCap sub b) (by simp) (List.mem_singleton.2 rfl))).1
        rw [eq] at drop
        linarith [violated.1]
      rw [eq] at residual
      exact before.resolve_left other residual
  · rw [MixedGraph.saturateArc, if_neg violated]
    refine ⟨within, fun b before residual => ?_⟩
    rcases before with rfl | before
    · rw [not_and, not_lt] at violated
      exact violated residual
    · exact before residual

theorem saturateArc_mem_grid (caps : G.CapsOnGrid ε) (within : G.WithinBounds sub)
    (onGrid : ∀ e, sub e ∈ grid ε) (potential : Fin n → ℚ) (a : Arc m) (e : Fin m) :
    G.saturateArc potential delta sub a e ∈ grid ε := by
  rw [MixedGraph.saturateArc]
  split_ifs
  · exact pushAll_mem_grid onGrid (resCap_mem_grid caps within onGrid a) [a] e
  · exact onGrid e

/-- **Saturating** makes any flow within bounds reduced optimal. -/
theorem saturate_keeps (deltaNonneg : 0 ≤ delta) (within : G.WithinBounds sub)
    (potential : Fin n → ℚ) : G.WithinBounds (G.saturate potential delta sub) ∧
      G.ReducedOptimal (G.saturate potential delta sub) potential delta := by
  -- the arcs that have been read satisfy the criterion
  have general : ∀ (l : List (Arc m)) (sub : Fin m → ℚ), G.WithinBounds sub →
      (∀ b, b ∉ l → delta < G.resCap sub b → 0 ≤ G.redLength potential b) →
      G.WithinBounds (l.foldl (G.saturateArc potential delta) sub) ∧
        G.ReducedOptimal (l.foldl (G.saturateArc potential delta) sub) potential delta := by
    intro l
    induction l with
    | nil => exact fun sub within done => ⟨within, fun b => done b (by simp)⟩
    | cons a l ih =>
      intro sub within done
      obtain ⟨within', kept⟩ := saturateArc_keeps deltaNonneg within potential a
      refine ih _ within' fun b notLater => kept b ?_
      by_cases eq : b = a
      · exact .inl eq
      · exact .inr (done b (by simp [eq, notLater]))
  exact general (arcs m) sub within fun b missing => absurd (mem_arcs b) missing

theorem saturate_spec (caps : G.CapsOnGrid ε) (deltaNonneg : 0 ≤ delta)
    (within : G.WithinBounds sub) (onGrid : ∀ e, sub e ∈ grid ε) (potential : Fin n → ℚ) :
    G.WithinBounds (G.saturate potential delta sub) ∧
      (∀ e, G.saturate potential delta sub e ∈ grid ε) ∧
      G.ReducedOptimal (G.saturate potential delta sub) potential delta := by
  have general : ∀ (l : List (Arc m)) (sub : Fin m → ℚ), G.WithinBounds sub →
      (∀ e, sub e ∈ grid ε) → ∀ e, l.foldl (G.saturateArc potential delta) sub e ∈ grid ε := by
    intro l
    induction l with
    | nil => exact fun sub _ onGrid => onGrid
    | cons a l ih =>
      intro sub within onGrid
      exact ih _ (saturateArc_keeps deltaNonneg within potential a).1
        (saturateArc_mem_grid caps within onGrid potential a)
  obtain ⟨within', optimal⟩ := saturate_keeps deltaNonneg within potential
  exact ⟨within', general (arcs m) sub within onGrid, optimal⟩

/-! ## Cutting the path -/

theorem scanPath_spec {pred : Fin n → Option (Arc m)} (path : BackPath pred G.src s t p)
    (excess : G.deficiency sub s < 0) {left : ℕ} (enough : p.length ≤ left) (lambda : ℚ) :
    ∃ s' p', G.scanPath sub pred left t lambda = .ok (s', p'.foldl (G.narrow sub) lambda) ∧
      BackPath pred G.src s' t p' ∧ G.deficiency sub s' < 0 ∧ ∀ a ∈ p', a ∈ p := by
  induction path generalizing left lambda with
  | @last t a label arrived =>
    obtain ⟨left, rfl⟩ : ∃ k, left = k + 1 := ⟨left - 1, by simp at enough; omega⟩
    refine ⟨s, [a], ?_, .last label arrived, excess, by simp⟩
    simp [MixedGraph.scanPath, label, arrived, not_le.2 excess]
  | @step t a p label onward rest ih =>
    obtain ⟨left, rfl⟩ : ∃ k, left = k + 1 := ⟨left - 1, by simp at enough; omega⟩
    rw [length_cons] at enough
    by_cases here : 0 ≤ G.deficiency sub (G.src a)
    · obtain ⟨s', p', scanned, path', excess', inside⟩ := ih (by omega : _ ≤ left) (G.narrow sub lambda a)
      refine ⟨s', a :: p', ?_, .step label ?_ path', excess', ?_⟩
      · simp only [MixedGraph.scanPath, label, here, if_true, foldl_cons]
        exact scanned
      · intro eq
        rw [eq] at here
        exact absurd excess' (not_lt.2 here)
      · intro b mem
        rcases mem_cons.1 mem with rfl | later
        · exact mem_cons_self
        · exact mem_cons_of_mem _ (inside b later)
    · refine ⟨G.src a, [a], ?_, .last label rfl, not_le.1 here, by simp⟩
      simp [MixedGraph.scanPath, label, here]

theorem csAmount_spec {lambda : ℚ} (lambdaPos : 0 < lambda) (target : 0 < G.deficiency sub t)
    (source : G.deficiency sub s < 0) (lambdaGrid : lambda ∈ grid ε)
    (deficiencies : ∀ v, G.deficiency sub v ∈ grid ε) :
    0 < G.csAmount sub s t lambda ∧ G.csAmount sub s t lambda ≤ lambda ∧
      G.csAmount sub s t lambda ≤ G.deficiency sub t ∧
      G.csAmount sub s t lambda ≤ -G.deficiency sub s ∧ G.csAmount sub s t lambda ∈ grid ε := by
  have sourceGrid := neg_mem (deficiencies s)
  have targetGrid := deficiencies t
  simp only [MixedGraph.csAmount]
  split_ifs <;> refine ⟨?_, ?_, ?_, ?_, ?_⟩ <;> first | assumption | linarith

/-! ## Infeasible demands -/

/-- A flow within the capacity bounds that meets all demands. -/
structure BFlow (G : DiGraph n m) (g : Fin m → ℚ) : Prop where
  bounds : ∀ e, G.lcap e ≤ g e ∧ g e ≤ G.ucap e
  met : ∀ v, G.divergence g v = G.demand v

/-- A set of nodes that holds all excess above `delta` but no deficiency above
`delta`, and that no arc above `delta` leaves. -/
structure StuckAt (G : DiGraph n m) (sub : Fin m → ℚ) (delta : ℚ) (R : Finset (Fin n)) :
    Prop where
  excess : ∀ v, delta < -G.deficiency sub v → v ∈ R
  noTarget : ∀ v ∈ R, G.deficiency sub v ≤ delta
  closed : ∀ a, delta < G.resCap sub a → G.src a ∈ R → G.dst a ∈ R

/-- A search that returns no target leaves such a set. -/
theorem stuckAt_of_settled {done : List (Fin n)} {level : WithTop ℚ} {r : SPResult n m}
    {len : Arc m → ℚ} (settled : G.Settled (G.above sub delta) len
      (MixedGraph.members (G.supersaturatedNodes sub delta)) (G.deficientNodes sub delta) done
      level r) (noTarget : r.target = none) : G.StuckAt sub delta done.toFinset := by
  have top : level = ⊤ := by
    rcases settled.target with ⟨-, top⟩ | ⟨u, returned, -⟩
    · exact top
    · rw [noTarget] at returned
      cases returned
  have labelled : ∀ v, r.dist v ≠ ⊤ → v ∈ done := by
    intro v finite
    by_contra out
    have high := settled.outside v out
    rw [top] at high
    exact finite (top_le_iff.1 high)
  refine ⟨fun v excess => ?_, fun v mem => ?_, fun a residual mem => ?_⟩
  · refine mem_toFinset.2 (labelled v ?_)
    rw [(settled.labels.sources v (mem_supersaturatedNodes.2 excess)).1]
    exact WithTop.zero_ne_top
  · have notDeficient := settled.noTarget v (mem_toFinset.1 mem)
    by_contra deficient
    rw [mem_deficientNodes.2 (not_le.1 deficient)] at notDeficient
    cases notDeficient
  · have inside := mem_toFinset.1 mem
    have relaxed := settled.relaxed a inside (above_iff.2 residual)
    refine mem_toFinset.2 (labelled _ (ne_top_of_le_ne_top ?_ relaxed))
    exact WithTop.add_ne_top.2 ⟨(settled.inside _ inside).2, WithTop.coe_ne_top⟩

/-- **A stuck flow that misses a demand proves that no flow meets them all.** -/
theorem infeasible_of_stuckAt {R : Finset (Fin n)} (finite : ∀ e, G.ucap e < infCap)
    (resolve : ∑ v, G.demand v = 0) (within : G.WithinBounds sub) (stuck : G.StuckAt sub 0 R)
    (missed : ∃ v, G.deficiency sub v ≠ 0) : ¬ ∃ g, G.BFlow g := by
  rintro ⟨g, flow⟩
  have excess : ∃ v ∈ R, G.deficiency sub v < 0 := by
    by_contra none
    push Not at none
    have nonneg : ∀ v, 0 ≤ G.deficiency sub v := by
      intro v
      by_contra neg
      have inside := stuck.excess v (by linarith)
      exact neg (none v inside)
    obtain ⟨v, notZero⟩ := missed
    have total := G.sum_deficiency sub
    rw [resolve, sum_eq_zero_iff_of_nonneg fun w _ => nonneg w] at total
    exact notZero (total v (mem_univ v))
  have neg : ∑ v ∈ R, G.deficiency sub v < 0 := by
    obtain ⟨v, mem, less⟩ := excess
    exact sum_neg' stuck.noTarget ⟨v, mem, less⟩
  have least : ∑ v ∈ R, div G.toNetwork sub v ≤ ∑ v ∈ R, div G.toNetwork g v := by
    refine sum_div_le_of_closed G.toNetwork (fun e => (flow.bounds e).1)
      (fun e => (flow.bounds e).2) ?_ ?_
    · intro e tail head
      have full : G.resCap sub ⟨e, false⟩ ≤ 0 := by
        by_contra residual
        exact head (stuck.closed ⟨e, false⟩ (not_le.1 residual) tail)
      rw [MixedGraph.resCap_forward within ⟨e, false⟩ rfl, MixedGraph.bound_eq_ucap (finite e)]
        at full
      have upper := (within e).2
      rw [MixedGraph.bound_eq_ucap (finite e)] at upper
      dsimp only at full
      linarith
    · intro e head tail
      have empty : G.resCap sub ⟨e, true⟩ ≤ 0 := by
        by_contra residual
        exact tail (stuck.closed ⟨e, true⟩ (not_le.1 residual) head)
      rw [MixedGraph.resCap_back ⟨e, true⟩ rfl] at empty
      have lower := (within e).1
      dsimp only at empty
      linarith
  simp only [MixedGraph.deficiency, sum_sub_distrib, ← flow.met, divergence_eq] at neg
  linarith

/-! ## One augmentation -/

/-- What holds between two augmentations. The counter exceeds the total deficiency
by a constant. -/
structure CSInv (G : DiGraph n m) (ε : ℚ) (doScale : Bool) (delta surplus : ℚ)
    (st : CSState n m) : Prop where
  within : G.WithinBounds st.sub
  onGrid : ∀ e, st.sub e ∈ grid ε
  optimal : G.ReducedOptimal st.sub st.potential delta
  counter : doScale = false → st.defPlus = G.totalDefPlus st.sub + surplus

theorem deficiency_mem_grid (data : G.DataGrid ε) (onGrid : ∀ e, sub e ∈ grid ε)
    (v : Fin n) : G.deficiency sub v ∈ grid ε := by
  rw [MixedGraph.deficiency]
  exact sub_mem (data.demands v) (divergence_mem_grid onGrid v)

theorem ucap_le_maxUCap (G : MixedGraph n m) (e : Fin m) : G.ucap e ≤ G.maxUCap := by
  have general : ∀ (l : List (Fin m)) (x : ℚ), x ≤ l.foldl (fun cap e => max cap (G.ucap e)) x ∧
      (e ∈ l → G.ucap e ≤ l.foldl (fun cap e => max cap (G.ucap e)) x) := by
    intro l
    induction l with
    | nil => exact fun x => ⟨le_refl x, fun mem => nomatch mem⟩
    | cons e' l ih =>
      intro x
      refine ⟨(le_max_left _ _).trans (ih _).1, fun mem => ?_⟩
      rcases mem_cons.1 mem with rfl | later
      · exact (le_max_right _ _).trans (ih _).1
      · exact (ih _).2 later
  exact (general _ 0).2 (mem_finRange e)

theorem resCap_le_maxUCap (finite : ∀ e, G.ucap e < infCap) (within : G.WithinBounds sub)
    (a : Arc m) : G.resCap sub a ≤ G.maxUCap := by
  have bounds := within a.edge
  rw [MixedGraph.bound_eq_ucap (finite _)] at bounds
  have nonneg := within.nonneg a.edge
  have lower := G.lcap_nonneg a.edge
  have largest := ucap_le_maxUCap G.toMixedGraph a.edge
  cases direction : a.back with
  | true =>
    rw [MixedGraph.resCap_back a direction]
    linarith
  | false =>
    rw [MixedGraph.resCap_forward within a direction, MixedGraph.bound_eq_ucap (finite _)]
    linarith

/-- **One round** augments, keeps the invariant and lowers the total deficiency, or
it ends the phase: the search is stuck, or the counter has been used up. -/
theorem csIteration_spec (Q : MinQueue.{0, 0, 0} (Fin n) (WithTop ℚ)) {epsilon : ℚ}
    (tolerant : 0 ≤ epsilon)
    (finite : ∀ e, G.ucap e < infCap) (data : G.DataGrid ε) (deltaNonneg : 0 ≤ delta)
    (inv : G.CSInv ε doScale delta surplus st) :
    (∃ st' x, G.csIteration Q epsilon doScale delta st = .ok (.inl st') ∧
      (doScale = true ∨ 0 < st.defPlus) ∧ G.CSInv ε doScale delta surplus st' ∧ ε ≤ x ∧
      x ≤ G.maxUCap ∧ G.totalDefPlus st'.sub = G.totalDefPlus st.sub - x) ∨
    (G.csIteration Q epsilon doScale delta st = .ok (.inr st) ∧
      ((∃ R, G.StuckAt st.sub delta R) ∨ (doScale = false ∧ st.defPlus ≤ 0))) := by
  by_cases guard : doScale = true ∨ 0 < st.defPlus
  · obtain ⟨r, done, level, search, settled⟩ := spxDijkstra_redRes Q tolerant inv.optimal
      (G.supersaturatedNodes st.sub delta) (G.deficientNodes st.sub delta)
    rcases settled.target with ⟨noTarget, -⟩ | ⟨t, found, isTarget, -, label, levelFinite⟩
    · refine .inr ⟨?_, .inl ⟨_, stuckAt_of_settled settled noTarget⟩⟩
      simp only [MixedGraph.csIteration, guard, if_true, search, noTarget, bind, Except.bind,
        pure, Except.pure]
    obtain ⟨d, rfl⟩ := WithTop.ne_top_iff_exists.1 levelFinite
    have deficient := mem_deficientNodes.1 isTarget
    have notSource : ¬ MixedGraph.members (G.supersaturatedNodes st.sub delta) t := by
      intro source
      have excess := mem_supersaturatedNodes.1 source
      linarith
    obtain ⟨s0, p0, source, path0, usable, -⟩ :=
      settled.labels.path (by rw [label]; exact levelFinite) notSource
    have excess0 := mem_supersaturatedNodes.1 source
    have consistent := settled.labels.consistent
    obtain ⟨s, p, scanned, path, excess, inside⟩ := scanPath_spec path0
      (by linarith : G.deficiency st.sub s0 < 0)
      (by simpa using path0.length_le_card consistent : p0.length ≤ n) infFloat
    have ne : s ≠ t := by
      rintro rfl
      linarith
    have residual : ∀ a ∈ p, 0 < G.resCap st.sub a := fun a mem =>
      deltaNonneg.trans_lt (above_iff.1 (usable a (inside a mem)))
    obtain ⟨narrowest, inPath, val⟩ :=
      MixedGraph.exists_bottleneck inv.within path.ne_nil
    have lambdaGrid : G.bottleneck st.sub p ∈ grid ε := by
      rw [val]
      exact resCap_mem_grid data.caps inv.within inv.onGrid narrowest
    obtain ⟨xPos, below, enoughT, enoughS, xGrid⟩ := csAmount_spec
      (MixedGraph.bottleneck_pos inv.within path.ne_nil residual)
      (deltaNonneg.trans_lt deficient) excess lambdaGrid
      (deficiency_mem_grid data inv.onGrid)
    set x := G.csAmount st.sub s t (G.bottleneck st.sub p) with xEq
    have room : ∀ a ∈ p, x ≤ G.resCap st.sub a := fun a mem =>
      below.trans (MixedGraph.bottleneck_le mem)
    have fall := totalDefPlus_pushAll ne (path.isWalk consistent)
      (reverse_perm p).symm xPos.le enoughT enoughS
    obtain ⟨pred', augmented⟩ := MixedGraph.augment_eq st.sub consistent path xPos
    refine .inl ⟨⟨pushAll st.sub p x, MixedGraph.updatePotentials st.potential r.dist d,
      if doScale then st.defPlus else st.defPlus - x, pushAll st.sub p x :: st.trace⟩, x, ?_,
      guard, ⟨?_, pushAll_mem_grid inv.onGrid xGrid p,
        inv.optimal.augment inv.within settled path label ne xPos.le room, ?_⟩,
      le_of_pos_of_mem_grid data.pos xGrid xPos, ?_, fall⟩
    · have amount : G.csAmount st.sub s t (p.foldl (G.narrow st.sub) infFloat) = x := xEq.symm
      simp only [MixedGraph.csIteration, guard, if_true, search, found, scanned, amount,
        augmented, label, WithTop.untopD_coe, bind, Except.bind, pure, Except.pure]
    · exact MixedGraph.withinBounds_pushAll inv.within
        (path_edges_nodup ne consistent path) xPos.le room
    · intro noScale
      dsimp only
      rw [fall, noScale, if_neg (by decide), inv.counter noScale]
      ring
    · exact (room narrowest inPath).trans (resCap_le_maxUCap finite inv.within narrowest)
  · have notScale : doScale = false := by simpa using fun scale => guard (.inl scale)
    refine .inr ⟨?_, .inr ⟨notScale, not_lt.1 fun more => guard (.inr more)⟩⟩
    simp only [MixedGraph.csIteration, guard, if_false]

/-! ## Phases -/

/-- No total deficiency exceeds this. -/
def deficiencyBound (G : DiGraph n m) : ℚ := ∑ v, (|G.demand v| + ∑ e, G.bound e)

theorem totalDefPlus_le_bound (within : G.WithinBounds sub) :
    G.totalDefPlus sub ≤ G.deficiencyBound := by
  refine Finset.sum_le_sum fun v _ => ?_
  have capacities : 0 ≤ ∑ e, G.bound e := Finset.sum_nonneg fun e _ =>
    (within.nonneg e).trans (within e).2
  have outflow : -∑ e, G.bound e ≤ G.divergence sub v := by
    rw [divergence_eq, div, ← Finset.sum_neg_distrib]
    refine Finset.sum_le_sum fun e _ => ?_
    have bounds := within e
    have nonneg := within.nonneg e
    split_ifs <;> linarith
  have demand := le_abs_self (G.demand v)
  split_ifs with pos
  · rw [MixedGraph.deficiency]
    linarith
  · exact add_nonneg (abs_nonneg _) capacities

/-- What a phase ends with. -/
structure PhaseEnd (G : DiGraph n m) (ε : ℚ) (doScale : Bool) (delta surplus : ℚ)
    (st : CSState n m) : Prop extends G.CSInv ε doScale delta surplus st where
  outcome : (∃ R, G.StuckAt st.sub delta R) ∨ (doScale = false ∧ st.defPlus ≤ 0)

/-- **The inner loop** ends, and keeps whatever every augmentation keeps. -/
theorem csLoop_spec (Q : MinQueue.{0, 0, 0} (Fin n) (WithTop ℚ)) {epsilon : ℚ}
    (tolerant : 0 ≤ epsilon) (finite : ∀ e, G.ucap e < infCap)
    (data : G.DataGrid ε) (deltaNonneg : 0 ≤ delta) (inv : G.CSInv ε doScale delta surplus st)
    (P : CSState n m → Prop) (start : P st)
    (keeps : ∀ st st' x, P st → G.CSInv ε doScale delta surplus st →
      (doScale = true ∨ 0 < st.defPlus) → x ≤ G.maxUCap →
      G.totalDefPlus st'.sub = G.totalDefPlus st.sub - x → P st')
    (enough : gridSteps ε G.deficiencyBound < fuel) :
    ∃ st', loop .fuel (G.csIteration Q epsilon doScale delta) fuel st = .ok st' ∧
      G.PhaseEnd ε doScale delta surplus st' ∧ P st' := by
  refine loop_of_measure Raise.fuel (G.csIteration Q epsilon doScale delta)
    (fun st => G.CSInv ε doScale delta surplus st ∧ P st)
    (fun st => gridSteps ε (G.totalDefPlus st.sub))
    (fun st => G.PhaseEnd ε doScale delta surplus st ∧ P st) ?_ ⟨inv, start⟩ fuel ?_
  · rintro st ⟨inv, kept⟩
    rcases csIteration_spec Q tolerant finite data deltaNonneg inv with
      ⟨st', x, res, guard, inv', large, small, fall⟩ | ⟨res, outcome⟩
    · refine .inl ⟨st', res, ⟨inv', keeps st st' x kept inv guard small fall⟩, ?_⟩
      refine gridSteps_lt data.pos (G.totalDefPlus_nonneg _) ?_
      rw [fall]
      linarith
    · exact .inr ⟨st, res, ⟨inv, outcome⟩, kept⟩
  · refine lt_of_le_of_lt (Nat.floor_mono ?_) enough
    exact div_le_div_of_nonneg_right (totalDefPlus_le_bound inv.within) data.pos.le

theorem csInv_saturate (doScale : Bool) (data : G.DataGrid ε) (deltaNonneg : 0 ≤ delta)
    (within : G.WithinBounds st.sub) (onGrid : ∀ e, st.sub e ∈ grid ε) :
    G.CSInv ε doScale delta (st.defPlus - G.totalDefPlus (G.saturate st.potential delta st.sub))
      { st with sub := G.saturate st.potential delta st.sub } := by
  obtain ⟨within', onGrid', optimal⟩ :=
    saturate_spec data.caps deltaNonneg within onGrid st.potential
  exact ⟨within', onGrid', optimal, fun _ => by ring⟩

section

variable (st : CSState n m) (Q : MinQueue.{0, 0, 0} (Fin n) (WithTop ℚ)) {epsilon : ℚ}
  (tolerant : 0 ≤ epsilon)
  (finite : ∀ e, G.ucap e < infCap) (data : G.DataGrid ε) (within : G.WithinBounds st.sub)
  (onGrid : ∀ e, st.sub e ∈ grid ε)
include tolerant finite data within onGrid

theorem csScaling_spec {d : ℕ} (enough : gridSteps ε G.deficiencyBound < fuel)
    (phases : d < fuel) :
    ∃ st', loop .fuel (G.csPhase Q epsilon fuel true) fuel ((d : ℚ), st) = .ok st' ∧
      ∃ surplus, G.PhaseEnd ε true 0 surplus st' := by
  refine loop_of_measure Raise.fuel (G.csPhase Q epsilon fuel true)
    (fun st => (∃ d : ℕ, st.1 = d) ∧ G.WithinBounds st.2.sub ∧ ∀ e, st.2.sub e ∈ grid ε)
    (fun st => ⌊st.1⌋₊) (fun st => ∃ surplus, G.PhaseEnd ε true 0 surplus st) ?_
    (s := ((d : ℚ), st)) ⟨⟨d, rfl⟩, within, onGrid⟩ fuel (by simpa using phases)
  rintro ⟨delta, st⟩ ⟨⟨d, rfl⟩, within, onGrid⟩
  obtain ⟨st', res, final, -⟩ := csLoop_spec Q tolerant finite data (Nat.cast_nonneg d)
    (csInv_saturate true data (Nat.cast_nonneg d) within onGrid) (fun _ => True)
    trivial (fun _ _ _ _ _ _ _ _ => trivial) enough
  by_cases last : (d : ℚ) = 0
  · refine .inr ⟨st', ?_, _, last ▸ final⟩
    simp only [MixedGraph.csPhase, res, if_pos last, bind, Except.bind, pure, Except.pure]
  have dPos : 0 < d := by
    rcases Nat.eq_zero_or_pos d with rfl | dPos
    · exact absurd Nat.cast_zero last
    · exact dPos
  refine .inl ⟨((⌊(d : ℚ) / 2⌋ : ℤ), st'), ?_, ⟨⟨d / 2, halving d⟩, final.within, final.onGrid⟩, ?_⟩
  · simp only [MixedGraph.csPhase, res, last, if_false, bind, Except.bind, pure, Except.pure]
  · dsimp only
    rw [halving d, Nat.floor_natCast, Nat.floor_natCast]
    omega

theorem csSingle_spec (P : CSState n m → Prop)
    (start : P { st with sub := G.saturate st.potential 0 st.sub })
    (keeps : ∀ st1 st2 x, P st1 → G.CSInv ε false 0
        (st.defPlus - G.totalDefPlus (G.saturate st.potential 0 st.sub)) st1 →
      0 < st1.defPlus → x ≤ G.maxUCap →
      G.totalDefPlus st2.sub = G.totalDefPlus st1.sub - x → P st2)
    (enough : gridSteps ε G.deficiencyBound < fuel) :
    ∃ st', loop .fuel (G.csPhase Q epsilon fuel false) fuel (0, st) = .ok st' ∧
      G.PhaseEnd ε false 0 (st.defPlus - G.totalDefPlus (G.saturate st.potential 0 st.sub)) st' ∧
      P st' := by
  obtain ⟨st', res, final, kept⟩ := csLoop_spec Q tolerant finite data (le_refl 0)
    (csInv_saturate false data (le_refl 0) within onGrid) P start
    (fun st1 st2 x holds inv guard => keeps st1 st2 x holds inv (by simpa using guard)) enough
  refine ⟨st', ?_, final, kept⟩
  obtain ⟨k, rfl⟩ : ∃ k, fuel = k + 1 := ⟨fuel - 1, by omega⟩
  refine loop_inr ?_ k
  simp only [MixedGraph.csPhase, res, if_true, bind, Except.bind, pure, Except.pure]

end

/-! ## The method -/

/-- What a minimum cost b-flow method has to deliver. -/
structure SolvesBFlow (G : DiGraph n m) (r : MCFResult n m) : Prop where
  infeasible : r.value = .posInf ↔ ¬ ∃ g, G.BFlow g
  flow : (∃ g, G.BFlow g) → G.BFlow r.sub
  compatible : (∃ g, G.BFlow g) → G.Compatible r.sub r.potential
  value : (∃ g, G.BFlow g) → r.value = .weight (G.weight r.sub)
  minimum : ∀ g, G.BFlow g → G.weight r.sub ≤ G.weight g

/-- What `MCF_CapacityScaling` makes of the last state. -/
def csResult (G : DiGraph n m) (st : CSState n m) : MCFResult n m :=
  ⟨if ∀ v, G.demand v = G.divergence st.sub v then .weight (G.weight st.sub) else .posInf,
    st.sub, st.potential, st.trace⟩

theorem csResult_value_met (met : ∀ v, G.deficiency st.sub v = 0) :
    (G.csResult st).value = .weight (G.weight st.sub) :=
  if_pos fun v => sub_eq_zero.1 (met v)

theorem csResult_value_missed (missed : ∃ v, G.deficiency st.sub v ≠ 0) :
    (G.csResult st).value = .posInf := by
  refine if_neg fun met => ?_
  obtain ⟨v, notZero⟩ := missed
  exact notZero (sub_eq_zero.2 (met v))

section

variable (finite : ∀ e, G.ucap e < infCap)
include finite

theorem solvesBFlow_of_met (within : G.WithinBounds st.sub)
    (compatible : G.Compatible st.sub st.potential)
    (met : ∀ v, G.deficiency st.sub v = 0) : G.SolvesBFlow (G.csResult st) := by
  have flow : G.BFlow st.sub :=
    ⟨(withinBounds_iff finite).1 within, fun v => (sub_eq_zero.1 (met v)).symm⟩
  refine ⟨⟨?_, fun none => absurd ⟨st.sub, flow⟩ none⟩, fun _ => flow, fun _ => compatible,
    fun _ => csResult_value_met met, fun g other => ?_⟩
  · rw [csResult_value_met met]
    intro posInf
    cases posInf
  · refine minimum_of_compatible ⟨within, fun _ => rfl⟩ compatible
      ⟨(withinBounds_iff finite).2 other.bounds, fun v => ?_⟩
    rw [other.met, flow.met]

theorem solvesBFlow_of_infeasible (within : G.WithinBounds st.sub) (infeasible : ¬ ∃ g, G.BFlow g) :
    G.SolvesBFlow (G.csResult st) := by
  have missed : ∃ v, G.deficiency st.sub v ≠ 0 := by
    by_contra met
    push Not at met
    exact infeasible ⟨st.sub, (withinBounds_iff finite).1 within,
      fun v => (sub_eq_zero.1 (met v)).symm⟩
  exact ⟨⟨fun _ => infeasible, fun _ => csResult_value_missed missed⟩,
    fun feasible => absurd feasible infeasible, fun feasible => absurd feasible infeasible,
    fun feasible => absurd feasible infeasible, fun g other => absurd ⟨g, other⟩ infeasible⟩

/-- A last phase that is stuck, or whose counter did not start too low, leads to
the right answer. -/
theorem PhaseEnd.solves (resolve : ∑ v, G.demand v = 0)
    (final : G.PhaseEnd ε doScale 0 surplus st) (counter : doScale = false → 0 ≤ surplus) :
    G.SolvesBFlow (G.csResult st) := by
  by_cases met : ∀ v, G.deficiency st.sub v = 0
  · exact solvesBFlow_of_met finite final.within final.optimal met
  rcases final.outcome with ⟨R, stuck⟩ | ⟨noScale, usedUp⟩
  · push Not at met
    exact solvesBFlow_of_infeasible finite final.within
      (infeasible_of_stuckAt finite resolve final.within stuck met)
  · have val := final.counter noScale
    have started := counter noScale
    exact absurd (met_of_totalDefPlus resolve (by linarith)) met

end

theorem SolvesBFlow.value_eq {r r' : MCFResult n m} (first : G.SolvesBFlow r)
    (second : G.SolvesBFlow r') : r'.value = r.value := by
  by_cases feasible : ∃ g, G.BFlow g
  · rw [first.value feasible, second.value feasible]
    exact congrArg MCFValue.weight (le_antisymm
      (second.minimum _ (first.flow feasible)) (first.minimum _ (second.flow feasible)))
  · rw [first.infeasible.2 feasible, second.infeasible.2 feasible]

section

variable (Q : MinQueue.{0, 0, 0} (Fin n) (WithTop ℚ)) {epsilon : ℚ}
  (resolve : ∑ v, G.demand v = 0) (deltaEq : (if doScale then
    (if 0 < G.maxUCap then G.maxUCap - 1 else G.maxUCap) else 0) = delta)
  (run : loop .fuel (G.csPhase Q epsilon fuel doScale) fuel
    (delta, ⟨sub, potential, G.totalDefPlus sub, []⟩) = .ok st)
include resolve deltaEq run

theorem mcfCapacityScaling_eq (allowed : doScale = true → ∀ v, G.deficiency st.sub v = 0) :
    G.mcfCapacityScaling Q epsilon fuel doScale sub potential = .ok (G.csResult st) := by
  have balance := G.totalDefPlus_sub_totalDefMinus sub
  rw [resolve, sub_eq_zero] at balance
  simp only [MixedGraph.mcfCapacityScaling, balance, ne_eq, not_true_eq_false, if_false,
    deltaEq] at run ⊢
  simp only [run, bind, Except.bind, csResult, pure, Except.pure, closeFold]
  by_cases met : ∀ v, G.demand v = G.divergence st.sub v
  · rw [if_pos met, if_pos met, if_neg (not_not.2 rfl)]
  · cases doScale with
    | true => exact absurd (fun v => sub_eq_zero.1 (allowed rfl v)) met
    | false =>
      rw [if_neg met, if_neg met]
      rfl

theorem mcfCapacityScaling_raises (scaling : doScale = true)
    (missed : ∃ v, G.deficiency st.sub v ≠ 0) :
    G.mcfCapacityScaling Q epsilon fuel doScale sub potential =
      .error (.rejected "CloseFold" "Mismatching fold declarations") := by
  have balance := G.totalDefPlus_sub_totalDefMinus sub
  rw [resolve, sub_eq_zero] at balance
  have notMet : ¬ ∀ v, G.demand v = G.divergence st.sub v := fun met =>
    missed.elim fun v notZero => notZero (sub_eq_zero.2 (met v))
  simp only [MixedGraph.mcfCapacityScaling, balance, ne_eq, not_true_eq_false, if_false,
    deltaEq] at run ⊢
  simp only [run, bind, Except.bind, closeFold]
  rw [if_neg notMet, scaling]
  rfl

end

theorem exists_firstDelta (integral : ∀ e, ∃ k : ℕ, G.ucap e = k) :
    ∃ d : ℕ, (if 0 < G.maxUCap then G.maxUCap - 1 else G.maxUCap) = (d : ℚ) := by
  obtain ⟨k, val⟩ := G.maxUCap_integral integral
  rw [val]
  rcases Nat.eq_zero_or_pos k with rfl | kPos
  · exact ⟨0, by simp⟩
  · refine ⟨k - 1, ?_⟩
    rw [if_pos (by exact_mod_cast kPos)]
    push_cast [Nat.cast_sub kPos]
    ring

/-- One arc that has to carry one unit. -/
def singleArc : DiGraph 2 1 := DiGraph.ofArcs ![0] ![1] ![2] ![0] ![1] ![-1, 1]

/-- A cycle with an arc of negative length. Its zero flow meets the zero demands. -/
def negativeLoop : DiGraph 2 2 :=
  DiGraph.ofArcs ![0, 1] ![1, 0] ![1, 1] (fun _ => 0) ![-1, 0] fun _ => 0

/-- Two nodes without an arc, whose demands cannot be met. -/
def twoNodes : DiGraph 2 0 := DiGraph.ofArcs ![] ![] ![] ![] ![] ![-1, 1]

end DiGraph

end Goblin
