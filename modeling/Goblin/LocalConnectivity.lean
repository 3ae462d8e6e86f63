import Goblin.Graph

/-!
# Local edge connectivity

`MCC_StrongEdgeConnectivity(source, target)` returns the value of a maximum flow, and colours the
nodes with finite distance labels. If the graph is directed and all demands are zero, the flow is
computed on the graph itself, otherwise on the orientation by the constructor of `diGraph`.

The constructor is called without `OPT_PARALLELS`. Hence only the first of some parallel arcs is
inserted, and in a bipartite graph only the arcs to larger nodes are. Moreover the value of the flow
is converted to `TCap`, which has 24 binary digits. The result is exact if and only if no arc that
has been left out leads out of the smallest minimum cut of the orientation and the capacity of this
cut is a `TCap` number, or if these two errors happen to compensate each other
(`mccStrongEdgeConnectivity_exact_iff`).
-/

set_option autoImplicit false

namespace Goblin

open Library List Function

/-! ## Cuts -/

/-- The arcs of a network by their end nodes, with their capacities. -/
abbrev FlowNetwork (n : ℕ) := List (Fin n × Fin n × ℚ)

namespace FlowNetwork

variable {n : ℕ} (N : FlowNetwork n) (source target : Fin n) (S : Finset (Fin n))

/-- The capacity of the arcs that leave `S`. -/
def cut : ℚ := (N.map fun e => if e.1 ∈ S ∧ e.2.1 ∉ S then e.2.2 else 0).sum

/-- `S` is a minimum cut, and it is contained in the other ones. -/
structure SmallestCut : Prop where
  separates : source ∈ S ∧ target ∉ S
  least : ∀ T, source ∈ T → target ∉ T → N.cut S ≤ N.cut T
  smallest : ∀ T, source ∈ T → target ∉ T → N.cut T = N.cut S → S ⊆ T

/-- What `MaxFlow` leaves: the value, and the nodes with finite distance labels. In the end, these
are the nodes to which the flow can be augmented. -/
structure MaximumFlow (result : ℚ × (Fin n → Bool)) : Prop where
  labelled : N.SmallestCut source target {v | result.2 v = true}
  value : result.1 = N.cut {v | result.2 v = true}

variable {N source target S}

theorem SmallestCut.unique {T : Finset (Fin n)} (first : N.SmallestCut source target S)
    (second : N.SmallestCut source target T) : S = T := by
  have bound := first.least T second.separates.1 second.separates.2
  have eq := bound.antisymm (second.least S first.separates.1 first.separates.2)
  exact (first.smallest T second.separates.1 second.separates.2 eq.symm).antisymm
    (second.smallest S first.separates.1 first.separates.2 eq)

end FlowNetwork

namespace MixedGraph

variable {n m : ℕ} (G : MixedGraph n m) (isDirected cDemand bipartite parallels : Bool)
  (source target : Fin n)

/-! ## The method -/

/-- The variables of the loop over the incidences. -/
structure Orienting (n m : ℕ) where
  adjacent : Fin n → Option (Fin n)
  inserted : List (Arc m)

/-- One arc that leaves `u`. -/
def orientArc (u : Fin n) (st : Orienting n m) (a : Arc m) : Orienting n m :=
  let v := G.endNode a
  if 0 < G.ucap a.edge ∧ G.blocking a = false ∧ (parallels = true ∨ st.adjacent v ≠ some u) then
    if bipartite = true ∧ v < u then st
    else ⟨update st.adjacent v (some u), st.inserted ++ [a]⟩
  else st

/-- The arcs of the orientation. -/
def oriented : List (Arc m) :=
  ((finRange n).foldl
    (fun st u => (G.incidences u).foldl (G.orientArc bipartite parallels u) st)
    ⟨fun _ => none, []⟩).inserted

def flowNetwork (A : List (Arc m)) : FlowNetwork n :=
  A.map fun a => (G.startNode a, G.endNode a, G.ucap a.edge)

/-- The flow is computed on the graph itself. -/
def Direct : Prop := isDirected = true ∧ cDemand = true ∧ G.demand ⟨0, source.pos⟩ = 0

instance : Decidable (G.Direct isDirected cDemand source) := inferInstanceAs (Decidable (_ ∧ _))

/-- The arcs of the network on which the flow is computed. -/
def searchedArcs : List (Arc m) :=
  if G.Direct isDirected cDemand source then (finRange m).map fun e => ⟨e, false⟩
  else G.oriented bipartite false

def searched : FlowNetwork n := G.flowNetwork (G.searchedArcs isDirected cDemand bipartite source)

/-- `MCC_StrongEdgeConnectivity`, with the nodes that get the colour `CONN_LEFT_HAND`. The value of
the flow is assigned to a variable of type `TCap`. -/
def mccStrongEdgeConnectivity
    (maxFlow : FlowNetwork n → Fin n → Fin n → ℚ × (Fin n → Bool)) : ℚ × (Fin n → Bool) :=
  let (flowValue, labelled) :=
    maxFlow (G.searched isDirected cDemand bipartite source) source target
  (toTCap flowValue, labelled)

/-- The capacity of the arcs that leave `S` and are not blocking. -/
def outCapacity (S : Finset (Fin n)) : ℚ :=
  (G.flowNetwork ((arcs m).filter fun a => !G.blocking a)).cut S

/-- The capacity of the arcs that leave `S`, are not blocking and do not belong to the list. -/
def leftOut (A : List (Arc m)) (S : Finset (Fin n)) : ℚ :=
  (G.flowNetwork ((arcs m).filter fun a => !G.blocking a && a ∉ A)).cut S

/-- The least capacity of a cut, and a cut of this capacity. -/
structure ExactConnectivity (result : ℚ × (Fin n → Bool)) : Prop where
  separates : result.2 source = true ∧ result.2 target = false
  value : result.1 = G.outCapacity {v | result.2 v = true}
  least : ∀ S, source ∈ S → target ∉ S → result.1 ≤ G.outCapacity S

variable {G isDirected cDemand bipartite parallels source target} {S : Finset (Fin n)}

/-! ## The orientation -/

/-- Every iteration of a loop appends some elements of its list. -/
theorem foldl_appends {σ β : Type} {step : σ → β → σ} {out : σ → List (Arc m)}
    {offered : β → List (Arc m)} {P : Arc m → Prop} (one : ∀ st b, ∃ k, k <+ offered b ∧
      out (step st b) = out st ++ k ∧ ∀ a ∈ k, P a) (l : List β) (st : σ) :
    ∃ k, k <+ l.flatMap offered ∧ out (l.foldl step st) = out st ++ k ∧ ∀ a ∈ k, P a := by
  induction l generalizing st with
  | nil => exact ⟨[], .slnil, (append_nil _).symm, nofun⟩
  | cons b l ih =>
    obtain ⟨k, sub, appended, holds⟩ := one st b
    obtain ⟨k', sub', appended', holds'⟩ := ih (step st b)
    refine ⟨k ++ k', sub.append sub', ?_, fun a mem => ?_⟩
    · rw [foldl_cons, appended', appended, append_assoc]
    · exact (mem_append.1 mem).elim (holds a) (holds' a)

theorem orientArc_appends (u : Fin n) (st : Orienting n m) (a : Arc m) :
    ∃ k, k <+ [a] ∧ (G.orientArc bipartite parallels u st a).inserted = st.inserted ++ k ∧
      ∀ a ∈ k, G.blocking a = false := by
  rw [orientArc]
  split_ifs with usable skipped
  · exact ⟨[], nil_sublist _, (append_nil _).symm, nofun⟩
  · exact ⟨[a], .refl _, rfl, fun b mem => mem_singleton.1 mem ▸ usable.2.1⟩
  · exact ⟨[], nil_sublist _, (append_nil _).symm, nofun⟩

theorem oriented_spec : (G.oriented bipartite parallels).Nodup ∧
    ∀ a ∈ G.oriented bipartite parallels, G.blocking a = false := by
  have node : ∀ st u, ∃ k, k <+ G.incidences u ∧
      ((G.incidences u).foldl (G.orientArc bipartite parallels u) st).inserted =
        st.inserted ++ k ∧ ∀ a ∈ k, G.blocking a = false := by
    intro st u
    simpa using foldl_appends (orientArc_appends (G := G) u) (G.incidences u) st
  obtain ⟨k, sub, inserted, free⟩ := foldl_appends node (finRange n) ⟨fun _ => none, []⟩
  rw [oriented, inserted, nil_append]
  refine ⟨sub.nodup (nodup_flatMap.2 ⟨fun u _ => G.nodup_incidences u, ?_⟩), free⟩
  refine (nodup_finRange n).imp fun {u v} other a atU atV => other ?_
  rw [← (G.mem_incidences u a).1 atU, (G.mem_incidences v a).1 atV]

/-! ## What has been left out -/

variable {A : List (Arc m)}

theorem terms_nonneg : ∀ x ∈ (G.flowNetwork A).map fun e =>
    if e.1 ∈ S ∧ e.2.1 ∉ S then e.2.2 else 0, 0 ≤ x := by
  intro x mem
  obtain ⟨e, inside, rfl⟩ := mem_map.1 mem
  obtain ⟨a, -, rfl⟩ := mem_map.1 inside
  dsimp only
  split_ifs
  · exact G.ucap_nonneg _
  · rfl

theorem cut_eq_zero_iff : (G.flowNetwork A).cut S = 0 ↔
    ∀ a ∈ A, 0 < G.ucap a.edge → G.startNode a ∈ S → G.endNode a ∈ S := by
  constructor
  · intro zero a mem pos inside
    by_contra out
    have term := single_le_sum terms_nonneg _
      (mem_map_of_mem (mem_map_of_mem (f := fun a => (G.startNode a, G.endNode a, G.ucap a.edge))
        mem) : _ ∈ (G.flowNetwork A).map fun e => if e.1 ∈ S ∧ e.2.1 ∉ S then e.2.2 else 0)
    rw [if_pos ⟨inside, out⟩] at term
    exact absurd (term.trans_eq zero) (not_le.2 pos)
  · intro closed
    refine sum_eq_zero fun x mem => ?_
    obtain ⟨e, inside, rfl⟩ := mem_map.1 mem
    obtain ⟨a, inA, rfl⟩ := mem_map.1 inside
    refine ite_eq_right_iff.2 fun leaves => ?_
    by_contra nonzero
    exact leaves.2 (closed a inA ((G.ucap_nonneg _).lt_of_ne' nonzero) leaves.1)

section

variable (nodup : A.Nodup) (free : ∀ a ∈ A, G.blocking a = false)
include nodup free

theorem outCapacity_eq : G.outCapacity S = (G.flowNetwork A).cut S + G.leftOut A S := by
  have parts : (arcs m).filter (fun a => !G.blocking a) ~
      A ++ (arcs m).filter fun a => !G.blocking a && a ∉ A := by
    have apart : A.Disjoint ((arcs m).filter fun a => !G.blocking a && a ∉ A) := by
      intro a inside out
      simp [inside] at out
    refine (perm_ext_iff_of_nodup ((nodup_arcs m).filter _)
      (nodup.append ((nodup_arcs m).filter _) apart)).2 fun a => ?_
    by_cases inside : a ∈ A <;> simp [inside, mem_arcs, free]
  have total := ((parts.map fun a => (G.startNode a, G.endNode a, G.ucap a.edge)).map
    fun e => if e.1 ∈ S ∧ e.2.1 ∉ S then e.2.2 else 0).sum_eq
  rwa [map_append, map_append, sum_append] at total

/-- A rounded flow is exact if and only if what has been left out of its cut is just what the
rounding has added, and the cut is a minimum cut nevertheless. -/
theorem exactConnectivity_iff {res : ℚ × (Fin n → Bool)}
    (maximum : (G.flowNetwork A).MaximumFlow source target res) :
    G.ExactConnectivity source target (toTCap res.1, res.2) ↔
      toTCap res.1 = res.1 + G.leftOut A {v | res.2 v = true} ∧
        ∀ S, source ∈ S → target ∉ S → G.outCapacity {v | res.2 v = true} ≤ G.outCapacity S := by
  obtain ⟨⟨separates, -, -⟩, val⟩ := maximum
  have total : G.outCapacity {v | res.2 v = true} = res.1 + G.leftOut A {v | res.2 v = true} := by
    rw [outCapacity_eq nodup free, val]
  constructor
  · intro exact
    have eq : toTCap res.1 = G.outCapacity {v | res.2 v = true} := exact.value
    refine ⟨eq.trans total, fun S inside outside => ?_⟩
    rw [← eq]
    exact exact.least S inside outside
  · rintro ⟨eq, least⟩
    refine ⟨by simpa using separates, eq.trans total.symm, fun S inside outside => ?_⟩
    dsimp only
    rw [eq, ← total]
    exact least S inside outside

/-- If nothing has been left out of the smallest minimum cut, then it is a minimum cut. -/
theorem outCapacity_le {T : Finset (Fin n)}
    (smallest : (G.flowNetwork A).SmallestCut source target S) (none : G.leftOut A S = 0)
    (inside : source ∈ T) (outside : target ∉ T) : G.outCapacity S ≤ G.outCapacity T := by
  rw [outCapacity_eq nodup free, outCapacity_eq nodup free, none, add_zero]
  exact (smallest.least T inside outside).trans (le_add_of_nonneg_right (sum_nonneg terms_nonneg))

end

theorem leftOut_eq_zero_iff : G.leftOut A S = 0 ↔
    ∀ a, G.blocking a = false → 0 < G.ucap a.edge → a ∉ A → G.startNode a ∈ S →
      G.endNode a ∈ S := by
  unfold leftOut
  rw [cut_eq_zero_iff]
  simp only [mem_filter, mem_arcs, true_and, Bool.and_eq_true, Bool.not_eq_true', and_imp,
    decide_eq_true_eq]
  exact forall_congr' fun a => ⟨fun closed open' pos out => closed open' out pos,
    fun closed open' out pos => closed open' pos out⟩

variable (G cDemand bipartite source) in
/-- The arcs that are searched are different, and not blocking. In a directed graph with zero
demands these are all of them. -/
theorem searchedArcs_spec (directed : isDirected = true → ∀ e, G.orientation e = true) :
    (G.searchedArcs isDirected cDemand bipartite source).Nodup ∧
      (∀ a ∈ G.searchedArcs isDirected cDemand bipartite source, G.blocking a = false) ∧
      (G.Direct isDirected cDemand source →
        ∀ S, G.leftOut (G.searchedArcs isDirected cDemand bipartite source) S = 0) := by
  unfold searchedArcs
  by_cases direct : G.Direct isDirected cDemand source
  · rw [if_pos direct]
    refine ⟨(nodup_finRange m).map fun e f eq => congrArg Dart.edge eq, ?_, fun _ S => ?_⟩
    · intro a mem
      obtain ⟨e, -, rfl⟩ := mem_map.1 mem
      exact Bool.and_false _
    · refine leftOut_eq_zero_iff.2 fun a open' _ out => absurd ?_ out
      refine mem_map.2 ⟨a.edge, mem_finRange _, ?_⟩
      rw [blocking, directed direct.1, Bool.true_and] at open'
      cases a with
      | mk e back => exact congrArg _ open'.symm
  · rw [if_neg direct]
    exact ⟨oriented_spec.1, oriented_spec.2, fun yes => absurd yes direct⟩

/-- **The result is exact** if and only if no usable arc that has been left out leads out of the
smallest minimum cut of the network, the graph itself or the orientation, and the capacity of this
cut is a `TCap` number; or if the rounding adds just what has been left out, and the cut is also
a minimum cut of the graph. -/
theorem mccStrongEdgeConnectivity_exact_iff
    (maxFlow : FlowNetwork n → Fin n → Fin n → ℚ × (Fin n → Bool))
    (directed : isDirected = true → ∀ e, G.orientation e = true)
    (maximum : (G.searched isDirected cDemand bipartite source).MaximumFlow source target
      (maxFlow (G.searched isDirected cDemand bipartite source) source target)) :
    G.ExactConnectivity source target
      (G.mccStrongEdgeConnectivity isDirected cDemand bipartite source target maxFlow) ↔
    ∀ S, (G.searched isDirected cDemand bipartite source).SmallestCut source target S →
      (toTCap ((G.searched isDirected cDemand bipartite source).cut S) =
          (G.searched isDirected cDemand bipartite source).cut S ∧
        (G.Direct isDirected cDemand source ∨ ∀ a, G.blocking a = false → 0 < G.ucap a.edge →
          a ∉ G.oriented bipartite false → G.startNode a ∈ S → G.endNode a ∈ S)) ∨
      (toTCap ((G.searched isDirected cDemand bipartite source).cut S) =
          (G.searched isDirected cDemand bipartite source).cut S +
            G.leftOut (G.searchedArcs isDirected cDemand bipartite source) S ∧
        ∀ T, source ∈ T → target ∉ T → G.outCapacity S ≤ G.outCapacity T) := by
  obtain ⟨nodup, free, whole⟩ := searchedArcs_spec G cDemand bipartite source directed
  have none : ∀ S, (G.Direct isDirected cDemand source ∨ ∀ a, G.blocking a = false →
      0 < G.ucap a.edge → a ∉ G.oriented bipartite false → G.startNode a ∈ S → G.endNode a ∈ S) →
      G.leftOut (G.searchedArcs isDirected cDemand bipartite source) S = 0 := by
    intro S closed
    by_cases direct : G.Direct isDirected cDemand source
    · exact whole direct S
    · unfold searchedArcs
      rw [if_neg direct]
      exact leftOut_eq_zero_iff.2 (closed.resolve_left direct)
  rw [mccStrongEdgeConnectivity]
  unfold searched at maximum ⊢
  generalize maxFlow (G.flowNetwork (G.searchedArcs isDirected cDemand bipartite source)) source
    target = res at maximum ⊢
  rw [exactConnectivity_iff nodup free maximum]
  constructor
  · rintro ⟨eq, least⟩ S smallest
    have same := maximum.labelled.unique smallest
    rw [maximum.value, same] at eq
    rw [same] at least
    exact .inr ⟨eq, least⟩
  · intro condition
    rcases condition _ maximum.labelled with ⟨eq, closed⟩ | ⟨eq, least⟩
    · refine ⟨?_, fun S => outCapacity_le nodup free maximum.labelled (none _ closed)⟩
      rw [none _ closed, add_zero, maximum.value]
      exact eq
    · rw [maximum.value]
      exact ⟨eq, least⟩

/-- Two nodes, and some edges between them. -/
def parallelEdges (m : ℕ) : MixedGraph 2 m :=
  .ofArcs (fun _ => 0) (fun _ => 1) (fun _ => false) (fun _ => 1) (fun _ => 0) (fun _ => 1) fun _ => 0

/-- A flow from the first node to the second one that saturates the arc between them. -/
theorem maximumFlow_edge :
    FlowNetwork.MaximumFlow [(0, 1, 1), (1, 0, 1)] (0 : Fin 2) 1 (1, fun v => v = 0) := by
  refine ⟨⟨?_, ?_, ?_⟩, ?_⟩ <;> decide +kernel

/-- Of a single edge, both arcs are inserted. -/
theorem mccStrongEdgeConnectivity_exact_single :
    (parallelEdges 1).ExactConnectivity 0 1 ((parallelEdges 1).mccStrongEdgeConnectivity
      false true false 0 1 fun _ _ _ => (1, fun v => v = 0)) := by
  have arcs : (parallelEdges 1).oriented false false = [⟨0, false⟩, ⟨0, true⟩] := by decide
  have maximum : ((parallelEdges 1).searched false true false 0).MaximumFlow 0 1
      (1, fun v => v = 0) := maximumFlow_edge
  refine (mccStrongEdgeConnectivity_exact_iff _ (absurd · Bool.false_ne_true) maximum).2
    fun S smallest => .inl ⟨?_, .inr fun a _ _ out => absurd ?_ out⟩
  · rw [smallest.unique maximum.labelled, ← maximum.value]
    decide +kernel
  · rw [arcs]
    revert a
    decide

/-- A directed graph with two arcs from the first node to the second one. -/
def widePair : MixedGraph 2 2 :=
  .ofArcs (fun _ => 0) (fun _ => 1) (fun _ => true) ![2 ^ 24, 1] (fun _ => 0) (fun _ => 1) fun _ => 0

theorem maximumFlow_widePair :
    (widePair.searched true true false 0).MaximumFlow 0 1 (2 ^ 24 + 1, fun v => v = 0) := by
  refine ⟨⟨?_, ?_, ?_⟩, ?_⟩ <;> decide +kernel

/-- Of two parallel edges, only the first one is inserted; and the value `2 ^ 24 + 1` is not a `TCap`
number. -/
theorem mccStrongEdgeConnectivity_fails : (¬ ∀ maxFlow : FlowNetwork 2 → Fin 2 → Fin 2 →
    ℚ × (Fin 2 → Bool), ((parallelEdges 2).searched false true false 0).MaximumFlow 0 1
      (maxFlow ((parallelEdges 2).searched false true false 0) 0 1) →
    (parallelEdges 2).ExactConnectivity 0 1
      ((parallelEdges 2).mccStrongEdgeConnectivity false true false 0 1 maxFlow)) ∧
    ¬ ∀ maxFlow : FlowNetwork 2 → Fin 2 → Fin 2 → ℚ × (Fin 2 → Bool),
      (widePair.searched true true false 0).MaximumFlow 0 1
        (maxFlow (widePair.searched true true false 0) 0 1) →
      widePair.ExactConnectivity 0 1
        (widePair.mccStrongEdgeConnectivity true true false 0 1 maxFlow) := by
  constructor <;> intro claim
  · have exact := claim (fun _ _ _ => (1, fun v => v = 0)) maximumFlow_edge
    exact absurd exact.value (by decide +kernel)
  · have exact := claim (fun _ _ _ => (2 ^ 24 + 1, fun v => v = 0)) maximumFlow_widePair
    exact absurd exact.value (by decide +kernel)

end MixedGraph

end Goblin
