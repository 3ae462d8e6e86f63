import Goblin.CycleCanceling

/-!
# Augmenting shortest paths

The methods that augment shortest paths keep the reduced lengths of the residual
arcs non-negative. A search by reduced lengths stops at a target `t`, and
`UpdatePotentials` adds the labels, cut off at the label of `t`, to the node
potentials. This keeps the reduced lengths of all searched arcs non-negative and
turns those of the path into zero, so that the reversed arcs which the
augmentation makes residual do no harm (`ReducedOptimal.augment`).

Arcs of residual capacity at most `delta` are left out of the search, and nothing
is said about their reduced lengths.
-/

set_option autoImplicit false

namespace Goblin

open Library Finset

namespace DiGraph

variable {n m : ℕ} {G : DiGraph n m} {sub : Fin m → ℚ} {potential : Fin n → ℚ} {delta : ℚ}
  {a : Arc m} {v s : Fin n} {p : List (Arc m)}

section

variable (G : DiGraph n m) (sub : Fin m → ℚ)

/-- No arc of residual capacity above `delta` has negative reduced length. -/
def ReducedOptimal (potential : Fin n → ℚ) (delta : ℚ) :
    Prop :=
  ∀ a, delta < G.resCap sub a → 0 ≤ G.redLength potential a

/-- The arcs that `SPX_RED_RES` admits. -/
def above (delta : ℚ) (a : Arc m) : Bool :=
  decide (delta < G.resCap sub a)

end

theorem above_iff : G.above sub delta a = true ↔ delta < G.resCap sub a :=
  decide_eq_true_iff

/-- A search by reduced lengths never raises when these are non-negative. -/
theorem spxDijkstra_redRes (Q : MinQueue.{0, 0, 0} (Fin n) (WithTop ℚ)) {epsilon : ℚ}
    (tolerant : 0 ≤ epsilon) (optimal : G.ReducedOptimal sub potential delta) (S T : IndexSet n) :
    ∃ r done level, G.spxDijkstra Q ⊤ epsilon sub potential delta .redRes S T = .ok r ∧
      G.Settled (G.above sub delta) (G.redLength potential) (MixedGraph.members S) T done
        level r := by
  have usable : G.eligible sub delta .redRes = G.above sub delta := by
    funext a
    exact eligible_residual G sub delta rfl a
  have lengths : G.searchLength potential .redRes = G.redLength potential := by
    funext a
    exact if_neg (by decide)
  rw [MixedGraph.spxDijkstra, usable, lengths]
  exact G.dijkstra_spec Q tolerant (fun a mem => optimal a (above_iff.1 mem)) S T walksBelow_top

/-! ## New potentials -/

section

variable (dist : Fin n → WithTop ℚ) (d : ℚ) (v : Fin n)

/-- A label cut off at `d`. -/
def cutLabel : ℚ :=
  (min (dist v) (d : WithTop ℚ)).untopD 0

theorem coe_cutLabel :
    (cutLabel dist d v : WithTop ℚ) = min (dist v) (d : WithTop ℚ) := by
  have finite : min (dist v) (d : WithTop ℚ) ≠ ⊤ :=
    ne_top_of_le_ne_top WithTop.coe_ne_top (min_le_right _ _)
  obtain ⟨x, val⟩ := WithTop.ne_top_iff_exists.1 finite
  rw [cutLabel, ← val, WithTop.untopD_coe]

end

section

variable (potential : Fin n → ℚ) (dist : Fin n → WithTop ℚ) (d : ℚ)

theorem updatePotentials_eq (v : Fin n) :
    MixedGraph.updatePotentials potential dist d v = potential v + cutLabel dist d v := by
  rw [MixedGraph.updatePotentials, cutLabel]
  split_ifs with below
  · rw [min_eq_left below.le]
  · rw [min_eq_right (not_lt.1 below), WithTop.untopD_coe]

theorem redLength_updatePotentials
    (a : Arc m) : G.redLength (MixedGraph.updatePotentials potential dist d) a =
      G.redLength potential a + cutLabel dist d (G.src a) - cutLabel dist d (G.dst a) := by
  simp only [redLength_eq, updatePotentials_eq]
  ring

end

section Search

variable {S : Fin n → Prop} {T : IndexSet n} {done : List (Fin n)} {d : ℚ} {r : SPResult n m}

section

variable (optimal : G.ReducedOptimal sub potential delta)
include optimal

section

variable (settled : G.Settled (G.above sub delta) (G.redLength potential) S T done d r)
include settled

/-- The new potentials keep the searched arcs non-negative. -/
theorem ReducedOptimal.update :
    G.ReducedOptimal sub (MixedGraph.updatePotentials potential r.dist d) delta := by
  intro a residual
  have feasible := settled.truncate_feasible (fun b mem => optimal b (above_iff.1 mem))
    (above_iff.2 residual)
  rw [← coe_cutLabel, ← coe_cutLabel] at feasible
  have bound : cutLabel r.dist d (G.dst a) ≤ cutLabel r.dist d (G.src a) +
      G.redLength potential a := by exact_mod_cast feasible
  rw [redLength_updatePotentials]
  linarith

theorem redLength_pred_eq_zero (label : r.pred v = some a) (low : r.dist v ≤ d) :
    r.dist (G.src a) ≤ d ∧ G.redLength (MixedGraph.updatePotentials potential r.dist d) a = 0 := by
  have tight := settled.labels.tight v a label
  have nonneg := optimal a (above_iff.1 (settled.labels.usable v a label))
  have before : r.dist (G.src a) ≤ r.dist v := by
    rw [tight]
    exact le_add_of_nonneg_right (by exact_mod_cast nonneg)
  refine ⟨before.trans low, ?_⟩
  have eq : (cutLabel r.dist d v : WithTop ℚ) =
      cutLabel r.dist d (G.src a) + (G.redLength potential a : WithTop ℚ) := by
    rw [coe_cutLabel, coe_cutLabel, min_eq_left low, min_eq_left (before.trans low), tight]
  have equation : cutLabel r.dist d v = cutLabel r.dist d (G.src a) +
      G.redLength potential a := by exact_mod_cast eq
  rw [redLength_updatePotentials, settled.labels.consistent v a label]
  linarith

theorem redLength_path_eq_zero (path : BackPath r.pred G.src s v p) (low : r.dist v ≤ d) :
    ∀ a ∈ p, G.redLength (MixedGraph.updatePotentials potential r.dist d) a = 0 := by
  induction path with
  | last label arrived =>
    intro b mem
    rw [List.mem_singleton.1 mem]
    exact (redLength_pred_eq_zero optimal settled label low).2
  | step label onward rest ih =>
    obtain ⟨low', zero⟩ := redLength_pred_eq_zero optimal settled label low
    intro b mem
    rcases List.mem_cons.1 mem with rfl | later
    · exact zero
    · exact ih low' b later

end

end

/-- **Augmenting a shortest path keeps reduced optimality.** The path may start
anywhere on the predecessor arcs of the target. -/
theorem ReducedOptimal.augment (within : G.WithinBounds sub)
    (optimal : G.ReducedOptimal sub potential delta)
    (settled : G.Settled (G.above sub delta) (G.redLength potential) S T done d r) {t : Fin n}
    (path : BackPath r.pred G.src s t p) (label : r.dist t = d) (ne : s ≠ t) {x : ℚ}
    (nonneg : 0 ≤ x) (room : ∀ a ∈ p, x ≤ G.resCap sub a) :
    G.ReducedOptimal (pushAll sub p x) (MixedGraph.updatePotentials potential r.dist d) delta := by
  have once := path_edges_nodup ne settled.labels.consistent path
  have zero := redLength_path_eq_zero optimal settled path label.le
  have kept := optimal.update settled
  intro a residual
  rcases MixedGraph.resCap_pushAll within once nonneg room a with
    ⟨mem, -⟩ | ⟨mem, -⟩ | eq
  · exact (zero a mem).ge
  · rw [← neg_neg (G.redLength _ a), ← redLength_rev, zero _ mem, neg_zero]
  · rw [eq] at residual
    exact kept a residual

end Search

/-! ## Grids -/

/-- The capacities and the demands are multiples of `ε`. -/
structure DataGrid (G : DiGraph n m) (ε : ℚ) : Prop where
  pos : 0 < ε
  caps : G.CapsOnGrid ε
  demands : ∀ v, G.demand v ∈ grid ε

theorem divergence_mem_grid {ε : ℚ} (onGrid : ∀ e, sub e ∈ grid ε) (v : Fin n) :
    G.divergence sub v ∈ grid ε := by
  rw [divergence_eq, div]
  refine sum_mem fun e _ => sub_mem ?_ ?_ <;> split_ifs
  · exact onGrid e
  · exact zero_mem _
  · exact onGrid e
  · exact zero_mem _

/-- Every flow lies on a grid with the capacities and the demands. -/
theorem exists_dataGrid (G : DiGraph n m) (sub : Fin m → ℚ) :
    ∃ ε : ℚ, G.DataGrid ε ∧ ∀ e, sub e ∈ grid ε := by
  obtain ⟨ε, pos, caps⟩ := exists_grid (Finset.univ : Finset (Fin m × Fin 3))
    fun i => ![G.bound i.1, G.lcap i.1, sub i.1] i.2
  obtain ⟨δ, δPos, all⟩ := exists_grid (Finset.univ : Finset (Option (Fin n)))
    fun i => i.elim ε G.demand
  have refines : ∀ x, x ∈ grid ε → x ∈ grid δ := by
    intro x mem
    have inside := all none (mem_univ _)
    rw [Option.elim_none] at inside
    exact AddSubgroup.zmultiples_le_of_mem inside mem
  refine ⟨δ, ⟨δPos, fun e => ⟨?_, ?_⟩, fun v => all (some v) (mem_univ _)⟩, fun e => ?_⟩
  · exact refines _ (caps (e, 0) (mem_univ _))
  · exact refines _ (caps (e, 1) (mem_univ _))
  · exact refines _ (caps (e, 2) (mem_univ _))

end DiGraph

end Goblin
