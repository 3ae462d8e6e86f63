import Goblin.BFS
import Goblin.Library.Termination

/-!
# Maximum flow by augmenting paths

`MXF_EdmondsKarp` augments along the paths that `BFS` finds in the residual
graph. `MXF_CapacityScaling` runs the same loop in phases; within a phase the
search is restricted to residual capacities above `delta`, and `delta` is
halved from phase to phase until it is zero.

Both methods convert the residual capacity of the path to `TCap`, and this may
round it up. Then `SetSubRelative` raises, or the flow of a backward arc falls below
zero. In a run without such an augmentation, a phase that ends with `delta = 0` has
found a set of labelled nodes which no residual arc leaves, and the cut theorem of the
network turns these labels into a proof of optimality (`certificate_of_labels`).
-/

set_option autoImplicit false

namespace Goblin

open Library

variable {x ε delta : ℚ} {fuel : ℕ}

/-- What the maximum flow methods leave behind. The trace holds the flows after
every augmentation, the latest one first. -/
structure MXFResult (n m : ℕ) where
  val : ℚ
  sub : Fin m → ℚ
  dist : Fin n → ℕ∞
  trace : List (Fin m → ℚ)
  unbounded : Bool

/-- The value and the flow of the current iteration. -/
structure MXFState (m : ℕ) where
  val : ℚ
  sub : Fin m → ℚ
  trace : List (Fin m → ℚ)

namespace MixedGraph

variable {n m : ℕ} (G : MixedGraph n m)

/-- The flow that leaves `s` initially. The loop over the incidence list raises
when there is no incidence. -/
def initialValue (sub : Fin m → ℚ) (s : Fin n) : Except Raise ℚ :=
  match G.incidences s with
  | [] => .error (.range "Sub" "Undefined arc")
  | incident => .ok (incident.map fun a => if G.blocking a then 0 else sub a.edge).sum

/-- The check of `SetSubRelative`. -/
def amountInRange (sub : Fin m → ℚ) (lambda : ℚ) (a : Arc m) : Bool :=
  let thisSub := sub a.edge
  let next := |thisSub + signed a lambda|
  !decide ((0 < thisSub ∧ next < G.lcap a.edge) ∨
    (G.ucap a.edge < infCap ∧ G.ucap a.edge < next))

/-- The checks for the arcs of a path, in the order of the pushes. The edges of a path are
different, so the checks can be made before the first push. -/
def checkFrom (sub : Fin m → ℚ) (pred : Fin n → Option (Arc m)) (u : Fin n) (lambda : ℚ) :
    ℕ → Fin n → Except Raise Unit
  | 0, _ => .ok ()
  | left + 1, w =>
    match pred w with
    | none => .ok ()
    | some a =>
      if G.amountInRange sub lambda a = false then
        .error (.rejected "SetSubRelative" "Amount out of range")
      else if G.startNode a = u then .ok ()
      else checkFrom sub pred u lambda left (G.startNode a)

/-- One iteration: search, determine the bottleneck, augment. -/
def mxfIteration (delta : ℚ) (s t : Fin n) (st : MXFState m) :
    Except Raise (MXFState m ⊕ MXFResult n m) :=
  let labels := G.bfs st.sub delta .residual s (some t)
  if labels.dist t = ⊤ then .ok (.inr ⟨st.val, st.sub, labels.dist, st.trace, false⟩)
  else do
    let found ← G.findCap st.sub labels.pred s t
    let lambda := toTCap found
    if lambda = infCap then return .inr ⟨infCap, st.sub, labels.dist, st.trace, true⟩
    else
      G.checkFrom st.sub labels.pred s lambda n t
      let next ← G.augment st.sub labels.pred s t lambda
      return .inl ⟨st.val + lambda, next.1, next.1 :: st.trace⟩

section

variable (fuel : ℕ)

/-- Augment until the target is not reached any longer. -/
def mxfPhase (delta : ℚ) (s t : Fin n) (st : MXFState m) :
    Except Raise (MXFResult n m) :=
  loop .fuel (G.mxfIteration delta s t) fuel st

def mxfEdmondsKarp (sub : Fin m → ℚ) (s t : Fin n) :
    Except Raise (MXFResult n m) := do
  let val ← G.initialValue sub s
  G.mxfPhase fuel 0 s t ⟨val, sub, []⟩

/-- One scaling phase of `MXF_CapacityScaling`. -/
def mxfScalingPhase (s t : Fin n) (st : ℚ × MXFState m) :
    Except Raise (ℚ × MXFState m ⊕ MXFResult n m) := do
  let result ← G.mxfPhase fuel st.1 s t st.2
  if result.unbounded then return .inr result
  else if st.1 = 0 then return .inr result
  else return .inl ((⌊st.1 / 2⌋ : ℚ), ⟨result.val, result.sub, result.trace⟩)

/-- The value of `delta` in the first phase -/
def initialDelta : ℚ := if 0 < G.maxUCap then G.maxUCap - 1 else G.maxUCap

def mxfCapacityScaling (sub : Fin m → ℚ) (s t : Fin n) :
    Except Raise (MXFResult n m) := do
  let val ← G.initialValue sub s
  loop .fuel (G.mxfScalingPhase fuel s t) fuel (G.initialDelta, ⟨val, sub, []⟩)

end

/-- The states of a run that starts with the zero flow: an iteration augments, or a phase has
ended and `delta` is halved. -/
inductive MXFReached (s t : Fin n) (start : ℚ) : ℚ → MXFState m → Prop
  | start : MXFReached s t start start ⟨0, fun _ => 0, []⟩
  | augment {delta : ℚ} {st next : MXFState m} (reached : MXFReached s t start delta st)
      (step : G.mxfIteration delta s t st = .ok (.inl next)) : MXFReached s t start delta next
  | halve {delta : ℚ} {st : MXFState m} {r : MXFResult n m} (reached : MXFReached s t start delta st)
      (step : G.mxfIteration delta s t st = .ok (.inr r)) (more : delta ≠ 0) :
      MXFReached s t start ⌊delta / 2⌋ ⟨r.val, r.sub, r.trace⟩

/-- The conversion to `TCap` does not round the residual capacity of the path up. -/
def NotRoundedUp (delta : ℚ) (s t : Fin n) (sub : Fin m → ℚ) : Prop :=
  (G.bfs sub delta .residual s (some t)).dist t ≠ ⊤ → ∀ lambda,
    G.findCap sub (G.bfs sub delta .residual s (some t)).pred s t = .ok lambda →
    toTCap lambda ≤ lambda

variable {G} {sub : Fin m → ℚ} {pred : Fin n → Option (Arc m)} {u w : Fin n} {p : List (Arc m)}

theorem amountInRange_of_room {a : Arc m} (within : G.WithinBounds sub) (nonneg : 0 ≤ x)
    (room : x ≤ G.resCap sub a) : G.amountInRange sub x a = true := by
  have bounds := withinBounds_push within nonneg room a.edge
  rw [push_same] at bounds
  have nonneg' : 0 ≤ sub a.edge + signed a x := (G.lcap_nonneg a.edge).trans bounds.1
  unfold amountInRange
  dsimp only
  rw [abs_of_nonneg nonneg', Bool.not_eq_true', decide_eq_false_iff_not]
  rintro (⟨-, low⟩ | ⟨finite, high⟩)
  · exact not_lt.2 bounds.1 low
  · rw [bound_eq_ucap finite] at bounds
    exact not_lt.2 bounds.2 high

theorem checkFrom_eq {k : ℕ} (path : BackPath pred G.src u w p)
    (fits : ∀ a ∈ p, G.amountInRange sub x a = true) : G.checkFrom sub pred u x k w = .ok () := by
  induction path generalizing k with
  | last label arrived =>
    cases k with
    | zero => rfl
    | succ k => simp [checkFrom, label, arrived, fits _ (List.mem_singleton_self _)]
  | step label onward rest ih =>
    cases k with
    | zero => rfl
    | succ k =>
      have here := fits _ List.mem_cons_self
      simp only [checkFrom, label, here, onward, if_false, Bool.true_eq_false]
      exact ih fun a mem => fits a (List.mem_cons_of_mem _ mem)

end MixedGraph

namespace DiGraph

variable {n m : ℕ} (G : DiGraph n m)

/-- A flow within bounds that is balanced everywhere but at `s` and `t`. -/
structure STFlow (s t : Fin n) (sub : Fin m → ℚ) : Prop where
  within : G.WithinBounds sub
  balanced : ∀ v, v ≠ s → v ≠ t → G.divergence sub v = 0

variable {G} {s t : Fin n} {sub : Fin m → ℚ} {pred : Fin n → Option (Arc m)} {p : List (Arc m)}
  {r : MXFResult n m} {st : MXFState m}

/-! ## Augmenting a path -/

/-- A backward reading between different nodes meets no edge twice. -/
theorem path_edges_nodup (distinct : s ≠ t) (consistent : ∀ v a, pred v = some a → G.dst a = v)
    (path : BackPath pred G.src s t p) : (p.map Dart.edge).Nodup := by
  refine path.edges_nodup (N := G.toNetwork) consistent ?_
  rintro a rfl
  have label := path.label_head
  cases path with
  | step _ _ rest =>
    cases rest with
    | last _ arrived =>
      rw [Network.src_rev, consistent _ _ label] at arrived
      exact distinct arrived.symm
    | step _ _ rest => exact absurd rfl rest.ne_nil

/-- Augmenting along a path keeps an st-flow and adds to the divergence of the
target. -/
theorem STFlow.pushAll (flow : G.STFlow s t sub) {q : List (Arc m)} (distinct : s ≠ t)
    (walk : IsWalk G.src G.dst s q t) (perm : p.Perm q) (once : (p.map Dart.edge).Nodup)
    (nonneg : 0 ≤ x) (room : ∀ a ∈ p, x ≤ G.resCap sub a) : G.STFlow s t (pushAll sub p x) ∧
      G.divergence (Library.pushAll sub p x) t = G.divergence sub t + x := by
  have change : ∀ v, G.divergence (Library.pushAll sub p x) v =
      G.divergence sub v + ((if t = v then x else 0) - (if s = v then x else 0)) := by
    intro v
    rw [divergence_eq, divergence_eq]
    exact div_pushAll_of_walk G.toNetwork sub walk perm x v
  refine ⟨⟨MixedGraph.withinBounds_pushAll flow.within once nonneg room, ?_⟩, ?_⟩
  · intro v notSource notTarget
    rw [change v, if_neg (Ne.symm notSource), if_neg (Ne.symm notTarget),
      flow.balanced v notSource notTarget]
    ring
  · rw [change t, if_pos rfl, if_neg distinct]
    ring

/-! ## Optimality -/

/-- The nodes with a finite label. -/
def labelledNodes (dist : Fin n → ℕ∞) : Finset (Fin n) := Finset.univ.filter fun v => dist v ≠ ⊤

/-- The capacity of the cut around the labelled nodes. -/
def labelledCut (G : DiGraph n m) (dist : Fin n → ℕ∞) : ℚ :=
  cutCap G.toNetwork G.ucap (labelledNodes dist)

/-- The flow is a maximum flow of value `val` and the labelled nodes are a
minimum cut. -/
structure Certificate (G : DiGraph n m) (s t : Fin n) (r : MXFResult n m) : Prop where
  flow : G.STFlow s t r.sub
  value : G.divergence r.sub t = r.val
  source : s ∈ labelledNodes r.dist
  target : t ∉ labelledNodes r.dist
  cut : G.labelledCut r.dist = r.val
  maximum : ∀ g, G.STFlow s t g → G.divergence g t ≤ r.val
  minimum : ∀ R : Finset (Fin n), s ∈ R → t ∉ R → r.val ≤ cutCap G.toNetwork G.ucap R

variable (finite : ∀ e, G.ucap e < infCap) (lower : ∀ e, G.lcap e = 0)
include finite lower

theorem STFlow.value_le_cut (flow : G.STFlow s t sub) {R : Finset (Fin n)} (source : s ∈ R)
    (target : t ∉ R) : G.divergence sub t ≤ cutCap G.toNetwork G.ucap R := by
  rw [divergence_eq]
  refine div_target_le_cutCap G.toNetwork sub G.ucap source target ?_ ?_ ?_
  · intro v notSource notTarget
    rw [← divergence_eq]
    exact flow.balanced v notSource notTarget
  · exact fun e => lower e ▸ (flow.within e).1
  · exact fun e => MixedGraph.bound_eq_ucap (finite e) ▸ (flow.within e).2

/-- **Max-flow min-cut on labels.** When no residual arc leaves the labelled
nodes, the flow is maximum and they form a minimum cut. -/
theorem certificate_of_labels (flow : G.STFlow s t r.sub) (val : G.divergence r.sub t = r.val)
    (source : r.dist s ≠ ⊤) (target : r.dist t = ⊤)
    (closed : ∀ a, 0 < G.resCap r.sub a → r.dist (G.src a) ≠ ⊤ → r.dist (G.dst a) ≠ ⊤) :
    G.Certificate s t r := by
  have sourceIn : s ∈ labelledNodes r.dist := by simp [labelledNodes, source]
  have targetOut : t ∉ labelledNodes r.dist := by simp [labelledNodes, target]
  have saturated : ∀ a : Arc m, G.src a ∈ labelledNodes r.dist →
      G.dst a ∉ labelledNodes r.dist → G.resCap r.sub a = 0 := by
    intro a inside out
    have nonneg := MixedGraph.resCap_nonneg flow.within a
    by_contra positive
    simp only [labelledNodes, Finset.mem_filter, Finset.mem_univ, true_and] at inside out
    exact out (closed a (lt_of_le_of_ne nonneg (Ne.symm positive)) inside)
  have cut : G.divergence r.sub t = G.labelledCut r.dist := by
    rw [divergence_eq]
    refine div_target_eq_cutCap G.toNetwork r.sub G.ucap sourceIn targetOut ?_ ?_ ?_
    · intro v notSource notTarget
      rw [← divergence_eq]
      exact flow.balanced v notSource notTarget
    · intro e inside out
      have full := saturated ⟨e, false⟩ inside out
      rw [MixedGraph.resCap_forward flow.within ⟨e, false⟩ rfl,
        MixedGraph.bound_eq_ucap (finite e)] at full
      dsimp only at full
      linarith
    · intro e inside out
      have empty := saturated ⟨e, true⟩ inside out
      rw [MixedGraph.resCap_back ⟨e, true⟩ rfl] at empty
      dsimp only at empty
      rw [lower e] at empty
      linarith
  refine ⟨flow, val, sourceIn, targetOut, cut.symm.trans val, ?_, ?_⟩
  · intro g gFlow
    rw [← val, cut]
    exact gFlow.value_le_cut finite lower sourceIn targetOut
  · intro R inside out
    rw [← val]
    exact flow.value_le_cut finite lower inside out

omit finite lower

/-! ## The augmentation loop -/

/-- The state between two augmentations; `ε` is a grid of the capacities. -/
structure MXFInv (G : DiGraph n m) (s t : Fin n) (ε : ℚ) (st : MXFState m) : Prop where
  flow : G.STFlow s t st.sub
  value : G.divergence st.sub t = st.val
  onGrid : ∀ e, st.sub e ∈ grid ε
  history : ∀ f ∈ st.trace, G.STFlow s t f

/-- The capacities and lower bounds are multiples of `ε`. -/
def CapsOnGrid (G : DiGraph n m) (ε : ℚ) : Prop :=
  ∀ e, G.bound e ∈ grid ε ∧ G.lcap e ∈ grid ε

theorem capsOnGrid_one (integral : ∀ e, ∃ k : ℕ, G.ucap e = k) (finite : ∀ e, G.ucap e < infCap)
    (lower : ∀ e, G.lcap e = 0) : G.CapsOnGrid 1 := by
  intro e
  obtain ⟨k, value⟩ := integral e
  rw [MixedGraph.bound_eq_ucap (finite e), lower e, value]
  exact ⟨mem_grid_one.2 ⟨k, by simp⟩, zero_mem _⟩

theorem resCap_mem_grid (caps : G.CapsOnGrid ε) (within : G.WithinBounds sub)
    (onGrid : ∀ e, sub e ∈ grid ε) (a : Arc m) : G.resCap sub a ∈ grid ε := by
  cases direction : a.back with
  | true =>
    rw [MixedGraph.resCap_back a direction]
    exact sub_mem (onGrid _) (caps _).2
  | false =>
    rw [MixedGraph.resCap_forward within a direction]
    exact sub_mem (caps _).1 (onGrid _)

theorem signed_mem_grid (a : Arc m) (mem : x ∈ grid ε) : signed a x ∈ grid ε := by
  rw [signed]
  split_ifs
  · exact neg_mem mem
  · exact mem

theorem pushAll_mem_grid (onGrid : ∀ e, sub e ∈ grid ε) (mem : x ∈ grid ε) (p : List (Arc m))
    (e : Fin m) : pushAll sub p x e ∈ grid ε := by
  induction p generalizing sub with
  | nil => exact onGrid e
  | cons a p ih =>
    rw [pushAll_cons]
    refine ih fun e' => ?_
    by_cases eq : e' = a.edge
    · subst eq
      rw [push_same]
      exact add_mem (onGrid _) (signed_mem_grid a mem)
    · rw [push_of_ne sub a x eq]
      exact onGrid e'

/-- No flow value exceeds the sum of all capacities. -/
theorem STFlow.value_le_total (flow : G.STFlow s t sub) : G.divergence sub t ≤ ∑ e, G.bound e := by
  rw [divergence_eq, div]
  refine Finset.sum_le_sum fun e _ => ?_
  have bounds := flow.within e
  have nonneg := flow.within.nonneg e
  split_ifs <;> linarith

/-- The number of augmentations that are left at most. -/
def augmentationsLeft (G : DiGraph n m) (ε : ℚ) (st : MXFState m) : ℕ :=
  gridSteps ε (∑ e, G.bound e - st.val)

section

variable (finite : ∀ e, G.ucap e < infCap)
include finite

/-- With finite capacities the bottleneck of a residual path is finite. -/
theorem MXFInv.bottleneck (caps : G.CapsOnGrid ε) (inv : G.MXFInv s t ε st)
    (path : BackPath pred G.src s t p) (residual : ∀ a ∈ p, 0 < G.resCap st.sub a) :
    0 < G.bottleneck st.sub p ∧ G.bottleneck st.sub p < infCap ∧
      G.bottleneck st.sub p ∈ grid ε := by
  obtain ⟨narrowest, mem, val⟩ := MixedGraph.exists_bottleneck inv.flow.within path.ne_nil
  refine ⟨MixedGraph.bottleneck_pos inv.flow.within path.ne_nil residual,
    MixedGraph.bottleneck_lt_infCap finite inv.flow.within path.ne_nil, ?_⟩
  rw [val]
  exact resCap_mem_grid caps inv.flow.within inv.onGrid narrowest

end

/-- Augmenting a residual path by an amount that is no larger than the bottleneck keeps
the invariant and uses up one of the augmentations left. -/
theorem MXFInv.augment (pos : 0 < ε) (distinct : s ≠ t) (inv : G.MXFInv s t ε st)
    (consistent : ∀ v a, pred v = some a → G.dst a = v) (path : BackPath pred G.src s t p)
    (amountPos : 0 < x) (amountGrid : x ∈ grid ε) (room : x ≤ G.bottleneck st.sub p) :
    G.MXFInv s t ε ⟨st.val + x, pushAll st.sub p x, pushAll st.sub p x :: st.trace⟩ ∧
      G.augmentationsLeft ε ⟨st.val + x, pushAll st.sub p x, pushAll st.sub p x :: st.trace⟩ <
        G.augmentationsLeft ε st := by
  have once := path_edges_nodup distinct consistent path
  obtain ⟨flow', val'⟩ := inv.flow.pushAll distinct (path.isWalk consistent)
    (List.reverse_perm p).symm once amountPos.le
    fun a mem => room.trans (MixedGraph.bottleneck_le mem)
  have inv' : G.MXFInv s t ε
      ⟨st.val + x, pushAll st.sub p x, pushAll st.sub p x :: st.trace⟩ := by
    refine ⟨flow', by rw [val', inv.value], pushAll_mem_grid inv.onGrid amountGrid p, ?_⟩
    intro f inTrace
    rcases List.mem_cons.1 inTrace with rfl | earlier
    · exact flow'
    · exact inv.history f earlier
  refine ⟨inv', gridSteps_lt pos ?_ ?_⟩
  · have total := inv'.flow.value_le_total
    rw [inv'.value] at total
    linarith
  · have step := le_of_pos_of_mem_grid pos amountGrid amountPos
    dsimp only
    linarith

section

variable (finite : ∀ e, G.ucap e < infCap) (caps : G.CapsOnGrid 1) (distinct : s ≠ t)
include finite caps distinct

/-- The path that has been found, and its bottleneck, a natural number. -/
theorem mxf_path (deltaNonneg : 0 ≤ delta) (inv : G.MXFInv s t 1 st)
    (reached : (G.bfs st.sub delta .residual s (some t)).dist t ≠ ⊤) :
    ∃ p, BackPath (G.bfs st.sub delta .residual s (some t)).pred G.src s t p ∧
      G.findCap st.sub (G.bfs st.sub delta .residual s (some t)).pred s t =
        .ok (G.bottleneck st.sub p) ∧ G.bottleneck st.sub p < infCap ∧
      ∃ k : ℕ, 0 < k ∧ G.bottleneck st.sub p = k := by
  obtain ⟨p, path, usable⟩ := G.bfs_path st.sub delta .residual s (some t) distinct.symm reached
  have residual : ∀ a ∈ p, 0 < G.resCap st.sub a := by
    intro a mem
    have eligible := usable a mem
    rw [eligible_residual G st.sub delta rfl, decide_eq_true_iff] at eligible
    exact deltaNonneg.trans_lt eligible
  obtain ⟨positive, bounded, inGrid⟩ := inv.bottleneck finite caps path residual
  obtain ⟨k, val⟩ := mem_grid_one.1 inGrid
  have found : G.findCap st.sub (G.bfs st.sub delta .residual s (some t)).pred s t =
      .ok (G.bottleneck st.sub p) :=
    MixedGraph.findCap_eq (G.bfs_consistent st.sub delta .residual s (some t)) path
  rw [val] at positive
  have integral : 0 < k := by exact_mod_cast positive
  obtain ⟨j, rfl⟩ := Int.eq_ofNat_of_zero_le integral.le
  exact ⟨p, path, found, bounded, j, by exact_mod_cast integral, val⟩

/-- **One iteration.** If the residual capacity is not rounded up, it augments, keeps the
invariant and uses up one of the augmentations left, or it ends with labels that no arc above
`delta` leaves. -/
theorem mxfIteration_spec (deltaNonneg : 0 ≤ delta) (inv : G.MXFInv s t 1 st)
    (fits : G.NotRoundedUp delta s t st.sub) :
    (∃ st', G.mxfIteration delta s t st = .ok (.inl st') ∧ G.MXFInv s t 1 st' ∧
      st.val ≤ st'.val ∧ G.augmentationsLeft 1 st' < G.augmentationsLeft 1 st) ∨
    ∃ r, G.mxfIteration delta s t st = .ok (.inr r) ∧ r.unbounded = false ∧
      r.val = st.val ∧ r.sub = st.sub ∧ r.trace = st.trace ∧ r.dist s ≠ ⊤ ∧ r.dist t = ⊤ ∧
      ∀ a, delta < G.resCap r.sub a → r.dist (G.src a) ≠ ⊤ → r.dist (G.dst a) ≠ ⊤ := by
  by_cases reached : (G.bfs st.sub delta .residual s (some t)).dist t = ⊤
  · refine .inr ⟨⟨st.val, st.sub, (G.bfs st.sub delta .residual s (some t)).dist, st.trace, false⟩,
      if_pos reached, rfl, rfl, rfl, rfl, ?_, reached, ?_⟩
    · exact G.bfs_source st.sub delta .residual s (some t)
    · intro a residual labelled
      refine G.bfs_closed st.sub delta .residual s (some t) ?_ ?_ labelled
      · rintro v isTarget -
        cases isTarget
        exact reached
      · rw [eligible_residual G st.sub delta rfl]
        exact decide_eq_true residual
  · obtain ⟨p, path, found, bounded, k, positive, val⟩ :=
      mxf_path finite caps distinct deltaNonneg inv reached
    have consistent := G.bfs_consistent st.sub delta .residual s (some t)
    have room := fits reached _ found
    obtain ⟨j, amountPos, amount⟩ : ∃ j : ℕ, 0 < j ∧ toTCap (G.bottleneck st.sub p) = j := by
      rw [val]
      exact nearest_natCast (by decide) (by decide) positive
    have amountPos' : (0 : ℚ) < j := by exact_mod_cast amountPos
    rw [amount] at room
    obtain ⟨inv', less⟩ := inv.augment one_pos distinct consistent path amountPos'
      (mem_grid_one.2 ⟨j, by simp⟩) room
    obtain ⟨pred', augmented⟩ := MixedGraph.augment_eq st.sub consistent path amountPos'
    have checked := MixedGraph.checkFrom_eq (k := n) path fun a mem =>
      MixedGraph.amountInRange_of_room inv.flow.within amountPos'.le
        (room.trans (MixedGraph.bottleneck_le mem))
    have finite' : (j : ℚ) ≠ infCap := (room.trans_lt bounded).ne
    refine .inl ⟨_, ?_, inv', by dsimp only; linarith, less⟩
    unfold MixedGraph.mxfIteration
    rw [if_neg reached]
    simp only [found, amount, finite', if_false, checked, augmented, bind, Except.bind, pure,
      Except.pure]

section

variable {start : ℚ} (fits : ∀ delta st, G.MXFReached s t start delta st →
  G.NotRoundedUp delta s t st.sub)
include fits

/-- **A phase ends.** Its flow is again an st-flow, and its labels are closed
under the arcs of residual capacity above `delta`. -/
theorem mxfPhase_spec (deltaNonneg : 0 ≤ delta) (inv : G.MXFInv s t 1 st)
    (reached : G.MXFReached s t start delta st) (fuel : ℕ)
    (enough : G.augmentationsLeft 1 st < fuel) :
    ∃ r, G.mxfPhase fuel delta s t st = .ok r ∧ r.unbounded = false ∧
      G.MXFInv s t 1 ⟨r.val, r.sub, r.trace⟩ ∧ st.val ≤ r.val ∧
      (delta ≠ 0 → G.MXFReached s t start ⌊delta / 2⌋ ⟨r.val, r.sub, r.trace⟩) ∧
      r.dist s ≠ ⊤ ∧ r.dist t = ⊤ ∧
      ∀ a, delta < G.resCap r.sub a → r.dist (G.src a) ≠ ⊤ → r.dist (G.dst a) ≠ ⊤ := by
  obtain ⟨r, res, post⟩ := loop_of_measure Raise.fuel (G.mxfIteration delta s t)
    (fun st' => G.MXFInv s t 1 st' ∧ st.val ≤ st'.val ∧ G.MXFReached s t start delta st')
    (G.augmentationsLeft 1)
    (fun r => r.unbounded = false ∧ G.MXFInv s t 1 ⟨r.val, r.sub, r.trace⟩ ∧ st.val ≤ r.val ∧
      (delta ≠ 0 → G.MXFReached s t start ⌊delta / 2⌋ ⟨r.val, r.sub, r.trace⟩) ∧
      r.dist s ≠ ⊤ ∧ r.dist t = ⊤ ∧
      ∀ a, delta < G.resCap r.sub a → r.dist (G.src a) ≠ ⊤ → r.dist (G.dst a) ≠ ⊤)
    (fun st' inv' => by
      obtain ⟨inv', grown, reached'⟩ := inv'
      rcases mxfIteration_spec finite caps distinct deltaNonneg inv' (fits _ _ reached') with
        ⟨next, step, invNext, grows, less⟩ | ⟨r, step, bounded, val, sub, trace, rest⟩
      · exact .inl ⟨next, step, ⟨invNext, grown.trans grows, reached'.augment step⟩, less⟩
      · refine .inr ⟨r, step, bounded, ?_, ?_, fun more => reached'.halve step more, rest⟩
        · rw [val, sub, trace]
          exact inv'
        · rw [val]
          exact grown) ⟨inv, le_refl _, reached⟩ fuel enough
  exact ⟨r, res, post⟩

end

/-- Numbers of at most 24 binary digits are not rounded at all. -/
theorem notRoundedUp_of_small (small : ∀ e, G.ucap e < 2 ^ 24) (deltaNonneg : 0 ≤ delta)
    (inv : G.MXFInv s t 1 st) : G.NotRoundedUp delta s t st.sub := by
  intro reached lambda found
  obtain ⟨p, path, found', -, k, -, val⟩ :=
    mxf_path finite caps distinct deltaNonneg inv reached
  rw [found'] at found
  cases found
  obtain ⟨a, -, narrowest⟩ := MixedGraph.exists_bottleneck inv.flow.within path.ne_nil
  have bounds := inv.flow.within a.edge
  have lower := G.lcap_nonneg a.edge
  have capacity := small a.edge
  rw [MixedGraph.bound_eq_ucap (finite a.edge)] at bounds
  have low : G.resCap st.sub a < 2 ^ 24 := by
    cases direction : a.back with
    | true =>
      rw [MixedGraph.resCap_back a direction]
      linarith
    | false =>
      rw [MixedGraph.resCap_forward inv.flow.within a direction,
        MixedGraph.bound_eq_ucap (finite a.edge)]
      linarith
  rw [← narrowest, val] at low
  rw [val, toTCap_natCast (by exact_mod_cast low)]

end

theorem certificate_of_phase (finite : ∀ e, G.ucap e < infCap) (lower : ∀ e, G.lcap e = 0)
    (inv : G.MXFInv s t ε ⟨r.val, r.sub, r.trace⟩) (source : r.dist s ≠ ⊤) (target : r.dist t = ⊤)
    (closed : ∀ a, 0 < G.resCap r.sub a → r.dist (G.src a) ≠ ⊤ → r.dist (G.dst a) ≠ ⊤) :
    G.Certificate s t r ∧ ∀ f ∈ r.trace, G.STFlow s t f :=
  ⟨certificate_of_labels finite lower inv.flow inv.value source target closed, inv.history⟩

/-! ## The zero flow -/

theorem stFlow_zero (lower : ∀ e, G.lcap e = 0) : G.STFlow s t fun _ => 0 where
  within := by
    intro e
    refine ⟨(lower e).le, ?_⟩
    rw [MixedGraph.bound]
    split_ifs
    · exact G.ucap_nonneg e
    · norm_num [infCap]
  balanced := by
    intro v _ _
    simp [divergence_eq, div]

theorem initialValue_zero (incident : G.incidences s ≠ []) :
    G.initialValue (fun _ => 0) s = .ok 0 := by
  obtain ⟨a, rest, list⟩ := List.exists_cons_of_ne_nil incident
  have zero : ∀ l : List (Arc m), (l.map fun a => if G.blocking a then (0 : ℚ) else 0).sum = 0 := by
    intro l
    induction l with
    | nil => rfl
    | cons b l ih => simp
  simp only [MixedGraph.initialValue, list, zero]

theorem mxfInv_zero (lower : ∀ e, G.lcap e = 0) : G.MXFInv s t ε ⟨0, fun _ => 0, []⟩ where
  flow := stFlow_zero lower
  value := by simp [divergence_eq, div]
  onGrid := fun _ => zero_mem _
  history := by simp

theorem halving (k : ℕ) : ((⌊(k : ℚ) / 2⌋ : ℤ) : ℚ) = ((k / 2 : ℕ) : ℚ) := by
  have floor : ⌊(k : ℚ) / 2⌋ = ((k / 2 : ℕ) : ℤ) := by
    have cast := Rat.floor_intCast_div_natCast (k : ℤ) 2
    push_cast at cast ⊢
    exact cast
  rw [floor]
  norm_cast

/-- **With capacities below `2 ^ 24`, no run rounds up.** -/
theorem notRoundedUp_of_reached (finite : ∀ e, G.ucap e < infCap) (lower : ∀ e, G.lcap e = 0)
    (caps : G.CapsOnGrid 1) (distinct : s ≠ t) (small : ∀ e, G.ucap e < 2 ^ 24) {start : ℕ}
    (reached : G.MXFReached s t start delta st) : G.NotRoundedUp delta s t st.sub := by
  have holds : (∃ d : ℕ, delta = d) ∧ G.MXFInv s t 1 st := by
    induction reached with
    | start => exact ⟨⟨start, rfl⟩, mxfInv_zero lower⟩
    | augment reached step ih =>
      obtain ⟨⟨d, rfl⟩, inv⟩ := ih
      rcases mxfIteration_spec finite caps distinct (Nat.cast_nonneg d) inv
        (notRoundedUp_of_small finite caps distinct small (Nat.cast_nonneg d) inv) with
        ⟨next, step', inv', -⟩ | ⟨r, step', -⟩ <;> rw [step'] at step
      · cases step
        exact ⟨⟨d, rfl⟩, inv'⟩
      · cases step
    | halve reached step more ih =>
      obtain ⟨⟨d, rfl⟩, inv⟩ := ih
      refine ⟨⟨d / 2, halving d⟩, ?_⟩
      rcases mxfIteration_spec finite caps distinct (Nat.cast_nonneg d) inv
        (notRoundedUp_of_small finite caps distinct small (Nat.cast_nonneg d) inv) with
        ⟨next, step', -⟩ | ⟨r, step', -, val, sub, trace, -⟩ <;> rw [step'] at step
      · cases step
      · cases step
        rw [val, sub, trace]
        exact inv
  obtain ⟨⟨d, rfl⟩, inv⟩ := holds
  exact notRoundedUp_of_small finite caps distinct small (Nat.cast_nonneg d) inv

/-! ## The two methods -/

theorem mxfEdmondsKarp_spec (finite : ∀ e, G.ucap e < infCap) (lower : ∀ e, G.lcap e = 0)
    (caps : G.CapsOnGrid 1) (distinct : s ≠ t) (incident : G.incidences s ≠ [])
    (fits : ∀ delta st, G.MXFReached s t 0 delta st → G.NotRoundedUp delta s t st.sub)
    (enough : gridSteps 1 (∑ e, G.bound e) < fuel) :
    ∃ r, G.mxfEdmondsKarp fuel (fun _ => 0) s t = .ok r ∧ G.Certificate s t r ∧
      ∀ f ∈ r.trace, G.STFlow s t f := by
  obtain ⟨r, res, -, inv, -, -, source, target, closed⟩ :=
    mxfPhase_spec finite caps distinct fits (le_refl 0) (mxfInv_zero (s := s) (t := t) lower) .start
      fuel (by simpa [augmentationsLeft] using enough)
  refine ⟨r, ?_, certificate_of_phase finite lower inv source target closed⟩
  simp only [MixedGraph.mxfEdmondsKarp, initialValue_zero incident, bind, Except.bind]
  exact res

/-- The capacity scaling starts with a natural number. -/
theorem initialDelta_integral {k : ℕ} (integral : G.maxUCap = k) :
    ∃ d : ℕ, G.initialDelta = d ∧ d ≤ k := by
  unfold MixedGraph.initialDelta
  rw [integral]
  rcases Nat.eq_zero_or_pos k with rfl | kPos
  · exact ⟨0, by simp, le_refl 0⟩
  · refine ⟨k - 1, ?_, by omega⟩
    rw [if_pos (by exact_mod_cast kPos)]
    push_cast [Nat.cast_sub kPos]
    ring

theorem mxfCapacityScaling_spec (finite : ∀ e, G.ucap e < infCap) (lower : ∀ e, G.lcap e = 0)
    (caps : G.CapsOnGrid 1) (distinct : s ≠ t) (incident : G.incidences s ≠ [])
    (fits : ∀ delta st, G.MXFReached s t G.initialDelta delta st →
      G.NotRoundedUp delta s t st.sub)
    {k : ℕ} (integral : G.maxUCap = k) (enough : gridSteps 1 (∑ e, G.bound e) < fuel)
    (phases : k < fuel) :
    ∃ r, G.mxfCapacityScaling fuel (fun _ => 0) s t = .ok r ∧ G.Certificate s t r ∧
      ∀ f ∈ r.trace, G.STFlow s t f := by
  obtain ⟨d, deltaEq, dSmall⟩ := initialDelta_integral integral
  obtain ⟨r, res, post⟩ := loop_of_measure Raise.fuel (G.mxfScalingPhase fuel s t)
    (fun st => (∃ d : ℕ, st.1 = d) ∧ G.MXFInv s t 1 st.2 ∧ 0 ≤ st.2.val ∧
      G.MXFReached s t G.initialDelta st.1 st.2)
    (fun st => ⌊st.1⌋₊)
    (fun r => G.Certificate s t r ∧ ∀ f ∈ r.trace, G.STFlow s t f)
    (fun st inv => by
      obtain ⟨⟨d, deltaNat⟩, inv, valNonneg, reached⟩ := inv
      have nonneg : 0 ≤ st.1 := by
        rw [deltaNat]
        exact Nat.cast_nonneg d
      obtain ⟨r, phase, bounded, inv', grows, halved, source, target, closed⟩ :=
        mxfPhase_spec finite caps distinct fits nonneg inv reached fuel (by
          refine lt_of_le_of_lt ?_ enough
          refine Nat.floor_mono (div_le_div_of_nonneg_right ?_ zero_le_one)
          linarith)
      by_cases last : st.1 = 0
      · rw [last] at closed
        refine .inr ⟨r, ?_, certificate_of_phase finite lower inv' source target closed⟩
        simp only [MixedGraph.mxfScalingPhase, phase, bounded, bind, Except.bind, pure,
          Except.pure, Bool.false_eq_true, if_false, if_pos last]
      have dPos : 0 < d := by
        rcases Nat.eq_zero_or_pos d with rfl | dPos
        · exact absurd (by simpa using deltaNat) last
        · exact dPos
      refine .inl ⟨((⌊st.1 / 2⌋ : ℤ), ⟨r.val, r.sub, r.trace⟩), ?_, ?_, ?_⟩
      · simp [MixedGraph.mxfScalingPhase, phase, bounded, last, bind, Except.bind, pure,
          Except.pure]
      · exact ⟨⟨d / 2, by rw [deltaNat]; exact halving d⟩, inv', valNonneg.trans grows, halved last⟩
      · dsimp only
        rw [deltaNat, halving d, Nat.floor_natCast, Nat.floor_natCast]
        omega)
    (s := (G.initialDelta, ⟨0, fun _ => 0, []⟩))
    ⟨⟨d, deltaEq⟩, mxfInv_zero lower, le_refl 0, .start⟩ fuel (by
      dsimp only
      rw [deltaEq, Nat.floor_natCast]
      omega)
  refine ⟨r, ?_, post⟩
  simp only [MixedGraph.mxfCapacityScaling, initialValue_zero incident, bind, Except.bind]
  exact res

end DiGraph

end Goblin
