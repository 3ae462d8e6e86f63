import Goblin.NodeImbalances
import Goblin.SparseConstruction

/-!
# Admissible b-flows

`AdmissibleBFlow` starts a maximum flow computation on the `digraphToDigraph` of the graph. A graph
with undirected edges is replaced with a `completeOrientation` before, where every undirected edge
has two antiparallel arcs.

The arcs of an orientation are inserted without lower capacity bounds. This is right for the
undirected edges, which must not have lower bounds. But a directed arc loses its bound, and
the flow that comes back may violate it.
-/

set_option autoImplicit false

namespace Goblin

open Library List Function
open List (foldlM_cons range range_succ)
open DigraphToDigraph (completed completed_edge imbalanced initialFlow netInflow_of_perfect perfect
  perfect_iff_admissible s1 t1 within_original)

variable {e i a : ℕ} {f x flow sub y : ℕ → ℚ}

/-- What `AdmissibleBFlow` sees of a graph. All arcs are directed if the class of the graph is
derived from `abstractDiGraph`. -/
structure FlowGraph extends Accessors where
  isDirected : Bool
  orientation : ℕ → Bool
  demand : ℕ → ℚ

namespace FlowGraph

variable (G : FlowGraph)

/-! ## The methods -/

def blocking (a : ℕ) : Bool :=
  if G.orientation (a / 2) = false then false
  else if a % 2 = 1 then true
  else false

section

variable (N : Accessors) (sub : ℕ → ℚ)

/-- `SetSub` of the graph representations -/
def setSub (a : ℕ) (multiplicity : ℚ) : Except Raise (ℕ → ℚ) :=
  if 2 * N.m ≤ a then .error (.range "SetSub" "No such arc")
  else if (0 < sub (a / 2) ∧ |multiplicity| < N.lcap a) ∨
      (N.ucap a < infCap ∧ N.ucap a < |multiplicity|) then
    .error (.rejected "SetSub" "Amount out of range")
  else .ok (update sub (a / 2) multiplicity)

def checkLimits (n m maxNode maxArc : ℕ) : Except Raise Unit :=
  if maxNode ≤ n then .error (.rejected "CheckLimits" "Number of nodes is out of range")
  else if maxArc - 2 < 2 * m then .error (.rejected "CheckLimits" "Number of arcs is out of range")
  else .ok ()

/-- The arcs that a complete orientation consists of, in the order of their insertion. -/
def origins : List ℕ := (range (2 * G.m)).filter fun a => !G.blocking a

def origin (i : ℕ) : ℕ := G.origins.getD i 0

/-- One insertion by the constructor of `completeOrientation`. -/
def orientArc (st : SparseState) (a : ℕ) : Except Raise SparseState :=
  match G.startNode a, G.endNode a with
  | some u, some v => st.insertArc u v
  | _, _ => .error (.range "StartNode" "No such arc")

/-- `completeOrientation`. `InsertArc` is called without a lower capacity bound, so it is
zero. -/
def completeOrientation (maxNode maxArc : ℕ) : Except Raise Accessors := do
  checkLimits G.n 0 maxNode maxArc
  let st ← G.origins.foldlM G.orientArc (SparseState.new G.n maxNode maxArc)
  pure (st.accessors (fun i => G.ucap (G.origin i)) (fun _ => 0)
    fun i => G.length (2 * (G.origin i / 2)))

/-- One edge in `MapFlowForward`, with the next arc of the orientation. -/
def forwardEdge (state : ℕ × (ℕ → ℚ)) (a : ℕ) :
    Except Raise (ℕ × (ℕ → ℚ)) := do
  let (aG, flow) := state
  let thisFlow := sub a
  let flow ← (if 0 < thisFlow then setSub N flow (2 * aG) thisFlow else pure flow)
  let aG := aG + 1
  if G.orientation a = false then
    if G.lcap (2 * a) ≠ 0 then
      .error (.rejected "MapFlowForward" "Lower capacity bound must be zero")
    else
      let flow ← (if thisFlow < 0 then setSub N flow (2 * aG) (-thisFlow) else pure flow)
      pure (aG + 1, flow)
  else pure (aG, flow)

def mapFlowForward : Except Raise (ℕ → ℚ) := do
  let (_, flow) ← (range G.m).foldlM (G.forwardEdge N sub) (0, fun _ => 0)
  pure flow

end

/-- One edge in `MapFlowBackward`. -/
def backwardEdge (flow : ℕ → ℚ) (state : ℕ × (ℕ → ℚ)) (a : ℕ) :
    Except Raise (ℕ × (ℕ → ℚ)) := do
  let (aG, sub) := state
  let thisFlow := flow aG
  let aG := aG + 1
  if G.orientation a = false then
    if G.lcap (2 * a) ≠ 0 then
      .error (.rejected "MapFlowBackward" "Lower capacity bound must be zero")
    else
      let sub ← setSub G.toAccessors sub (2 * a) (thisFlow - flow aG)
      pure (aG + 1, sub)
  else
    let sub ← setSub G.toAccessors sub (2 * a) thisFlow
    pure (aG, sub)

def mapFlowBackward (flow sub : ℕ → ℚ) : Except Raise (ℕ → ℚ) := do
  let (_, sub) ← (range G.m).foldlM (G.backwardEdge flow) (0, sub)
  pure sub

/-- The digraph on which the imbalances are eliminated, and its flow. -/
def orientedFlow (maxNode maxArc : ℕ) (sub : ℕ → ℚ) : Except Raise (Accessors × (ℕ → ℚ)) :=
  if G.isDirected then .ok (G.toAccessors, sub)
  else do
    let N ← G.completeOrientation maxNode maxArc
    let flow ← G.mapFlowForward N sub
    pure (N, flow)

/-- A procedure that changes a flow by pushing from a source to a target. -/
abbrev FlowSolver := Accessors → ℕ → ℕ → (ℕ → ℚ) → ℕ → ℚ

/-- `AdmissibleBFlow` with a method for maximum flows. The result is the return value and the
subgraph that has been left behind. -/
def admissibleBFlow (maxFlow : FlowSolver) (maxNode maxArc : ℕ) (sub : ℕ → ℚ) :
    Except Raise (Bool × (ℕ → ℚ)) :=
  if (range G.n).foldl (fun checkSum v => checkSum + G.demand v) 0 ≠ 0 then .ok (false, sub)
  else do
    let (N, flow) ← G.orientedFlow maxNode maxArc sub
    checkLimits (N.n + 2) (N.m + 2 * N.n + 1) maxNode maxArc
    let flow := maxFlow (imbalanced N G.demand flow) (s1 N)
      (t1 N) (initialFlow N G.demand flow)
    let ret := perfect N flow
    if G.isDirected then pure (ret, flow)
    else
      let sub ← G.mapFlowBackward flow sub
      pure (ret, sub)

/-! ## Feasibility -/

/-- The flow respects the capacities. The flow of an undirected edge is counted from the start
node to the end node, and may be negative. -/
def RespectsBounds (x : ℕ → ℚ) : Prop :=
  ∀ e, e < G.m → if G.orientation e then G.lcap (2 * e) ≤ x e ∧ x e ≤ G.ucap (2 * e)
    else |x e| ≤ G.ucap (2 * e)

/-- A flow within the capacities that meets the demands. -/
structure Admissible (x : ℕ → ℚ) : Prop where
  bounds : G.RespectsBounds x
  meets : ∀ v, v < G.n → G.netInflow x v = G.demand v

/-- The graph without lower capacity bounds. -/
def relaxed : FlowGraph := { G with lcap := fun _ => 0 }

/-- The node demands sum up to zero. -/
def Balanced : Prop := ∑ v ∈ Finset.range G.n, G.demand v = 0

/-- A graph that `AdmissibleBFlow` is made for. -/
structure WellFormed : Prop where
  start : ∀ a, a < 2 * G.m → ∃ v, v < G.n ∧ G.startNode a = some v
  symmetric : G.toAccessors.Symmetric
  lower : ∀ e, e < G.m → 0 ≤ G.lcap (2 * e) ∧ G.lcap (2 * e) ≤ G.ucap (2 * e)
  undirected : ∀ e, e < G.m → G.orientation e = false → G.lcap (2 * e) = 0
  directed : G.isDirected = true → ∀ e, e < G.m → G.orientation e = true

/-- The limits of the controller admit the orientation and the network with its artificial
arcs. -/
structure Fits (maxNode maxArc : ℕ) : Prop where
  nodes : G.n + 2 < maxNode
  arcs : 2 * (2 * G.m + 2 * G.n + 1) + 2 ≤ maxArc

/-! ## The arcs of the orientation -/

variable {G}

/-- The number of arcs that belong to an edge. -/
def width (G : FlowGraph) (e : ℕ) : ℕ := if G.orientation e then 1 else 2

/-- The number of arcs in front of those of an edge. -/
def index (G : FlowGraph) : ℕ → ℕ
  | 0 => 0
  | e + 1 => index G e + G.width e

theorem origins_succ (k : ℕ) : (range (2 * (k + 1))).filter (fun a => !G.blocking a) =
      (range (2 * k)).filter (fun a => !G.blocking a) ++
        if G.orientation k then [2 * k] else [2 * k, 2 * k + 1] := by
  have even : G.blocking (2 * k) = false := by
    rw [blocking, if_neg (by omega : ¬ 2 * k % 2 = 1)]
    split_ifs <;> rfl
  have odd : G.blocking (2 * k + 1) = G.orientation k := by
    rw [blocking, if_pos (by omega : (2 * k + 1) % 2 = 1), show (2 * k + 1) / 2 = k by omega]
    cases G.orientation k <;> rfl
  rw [show 2 * (k + 1) = 2 * k + 1 + 1 by omega, range_succ, range_succ,
    filter_append, filter_append, append_assoc]
  congr 1
  cases directed : G.orientation k <;> simp [List.filter, even, odd, directed]

theorem length_origins (k : ℕ) :
    ((range (2 * k)).filter fun a => !G.blocking a).length = G.index k := by
  induction k with
  | zero => rfl
  | succ k ih =>
    rw [origins_succ, length_append, ih, index, width]
    split_ifs <;> rfl

theorem index_mono {k : ℕ} (le : e ≤ k) : G.index e ≤ G.index k := by
  induction k, le using Nat.le_induction with
  | base => exact le_rfl
  | succ k _ ih => exact ih.trans (Nat.le_add_right _ _)

theorem index_lt (low : e < G.m) : G.index e + G.width e ≤ G.index G.m :=
  index_mono (G := G) (e := e + 1) low

theorem index_le (k : ℕ) : G.index k ≤ 2 * k := by
  induction k with
  | zero => exact le_rfl
  | succ k ih =>
    have small : G.width k ≤ 2 := by
      rw [width]
      split_ifs <;> omega
    rw [index]
    omega

theorem origins_getElem {r : ℕ} (low : e < G.m) (lowR : r < G.width e) :
    G.origins[G.index e + r]? = some (2 * e + r) := by
  have grows : ∀ k, e < k →
      ((range (2 * k)).filter fun a => !G.blocking a)[G.index e + r]? = some (2 * e + r) := by
    intro k after
    induction k, after using Nat.le_induction with
    | base =>
      rw [origins_succ, getElem?_append_right (by rw [length_origins]; omega),
        length_origins, Nat.add_sub_cancel_left]
      rw [width] at lowR
      split_ifs at lowR ⊢ with directed
      · obtain rfl : r = 0 := by omega
        rfl
      · obtain rfl | rfl : r = 0 ∨ r = 1 := by omega
        · rfl
        · rfl
    | succ k after ih =>
      have bound : G.index e + G.width e ≤ G.index k := index_mono (G := G) (e := e + 1) after
      rw [origins_succ, getElem?_append_left (by rw [length_origins]; omega)]
      exact ih
  exact grows G.m low

theorem origin_of_getElem (at_ : G.origins[i]? = some a) : G.origin i = a := by
  rw [origin, getD_eq_getElem?_getD, at_, Option.getD_some]

theorem width_pos (e : ℕ) : 0 < G.width e := by
  rw [width]
  split_ifs <;> omega

theorem origin_first (low : e < G.m) : G.origin (G.index e) = 2 * e :=
  origin_of_getElem (origins_getElem (r := 0) low (width_pos e))

theorem origin_second (low : e < G.m) (undirected : G.orientation e = false) :
    G.origin (G.index e + 1) = 2 * e + 1 :=
  origin_of_getElem (origins_getElem (r := 1) low (by rw [width, undirected]; decide))

theorem mem_origins (mem : a ∈ G.origins) : a < 2 * G.m :=
  List.mem_range.mp (List.mem_filter.mp mem).1

/-- A sum over the arcs of the orientation, edge by edge. -/
theorem sum_index (h : ℕ → ℚ) (k : ℕ) : ∑ i ∈ Finset.range (G.index k), h i = ∑ e ∈ Finset.range k,
        (h (G.index e) + if G.orientation e then 0 else h (G.index e + 1)) := by
  induction k with
  | zero => rfl
  | succ k ih =>
    rw [Finset.sum_range_succ, ← ih, index, width]
    cases G.orientation k
    · rw [if_neg Bool.false_ne_true, if_neg Bool.false_ne_true, Finset.sum_range_succ,
        Finset.sum_range_succ, add_assoc]
    · rw [if_pos rfl, if_pos rfl, Finset.sum_range_succ, add_zero]

/-! ## Flows of the orientation -/

/-- The flow of an edge that belongs to a flow of the orientation. -/
def netFlow (G : FlowGraph) (f : ℕ → ℚ) (e : ℕ) : ℚ :=
  f (G.index e) - if G.orientation e then 0 else f (G.index e + 1)

/-- The part of a flow that is mapped to the orientation. -/
def forwardFlow (G : FlowGraph) (sub : ℕ → ℚ) (e : ℕ) : ℚ :=
  if G.orientation e then max (sub e) 0 else sub e

/-- A flow of the orientation that belongs to a flow of the graph. -/
def split (G : FlowGraph) (x : ℕ → ℚ) (i : ℕ) : ℚ :=
  let a := G.origin i
  if G.orientation (a / 2) then x (a / 2)
  else if a % 2 = 0 then max (x (a / 2)) 0
  else max (-x (a / 2)) 0

theorem netFlow_split (x : ℕ → ℚ) (low : e < G.m) : G.netFlow (G.split x) e = x e := by
  have half : 2 * e / 2 = e := by omega
  have half' : (2 * e + 1) / 2 = e := by omega
  cases directed : G.orientation e with
  | true => simp [netFlow, split, origin_first low, half, directed]
  | false =>
    simp only [netFlow, split, origin_first low, origin_second low directed, half, half', directed]
    rw [if_neg Bool.false_ne_true, if_neg Bool.false_ne_true, if_neg Bool.false_ne_true,
      if_pos (by omega), if_neg (by omega)]
    rcases le_total 0 (x e) with pos | neg
    · rw [max_eq_left pos, max_eq_right (by linarith), sub_zero]
    · rw [max_eq_right neg, max_eq_left (by linarith)]
      ring

theorem netFlow_congr {g : ℕ → ℚ} (eq : ∀ i, i < G.index (e + 1) → f i = g i) :
    G.netFlow f e = G.netFlow g e := by
  rw [index, width] at eq
  rw [netFlow, netFlow]
  split_ifs at eq ⊢
  · rw [eq _ (by omega)]
  · rw [eq _ (by omega), eq _ (by omega)]

/-- What is known of the orientation. -/
structure Oriented (G : FlowGraph) (N : Accessors) : Prop where
  n : N.n = G.n
  m : N.m = G.index G.m
  startNode : ∀ i a, G.origins[i]? = some a →
    N.startNode (2 * i) = G.startNode a ∧ N.startNode (2 * i + 1) = G.endNode a
  ucap : ∀ i, N.ucap (2 * i) = G.ucap (G.origin i)
  lcap : ∀ a, N.lcap a = 0

theorem WellFormed.endNode (wellFormed : G.WellFormed) (low : a < 2 * G.m) :
    ∃ v, v < G.n ∧ G.endNode a = some v := by
  have lowR : a ^^^ 1 < 2 * G.m := SparseState.rev_lt.mpr low
  obtain ⟨v, lowV, start⟩ := wellFormed.start _ lowR
  exact ⟨v, lowV, (if_pos low).trans start⟩

theorem WellFormed.reverse_ucap (wellFormed : G.WellFormed) (low : e < G.m) :
    G.ucap (2 * e + 1) = G.ucap (2 * e) := by
  have eq := wellFormed.symmetric.ucap (2 * e) (by omega)
  rwa [xor_one_even (by omega)] at eq

theorem completeOrientation_ok {maxNode maxArc : ℕ} (wellFormed : G.WellFormed)
    (fits : G.Fits maxNode maxArc) :
    ∃ N, G.completeOrientation maxNode maxArc = .ok N ∧ G.Oriented N := by
  have count : G.origins.length = G.index G.m := length_origins G.m
  have small := index_le (G := G) G.m
  have room := fits.arcs
  -- the end nodes of the arcs exist, so the loop is a sequence of insertions
  let ends (a : ℕ) : ℕ × ℕ := ((G.startNode a).getD 0, (G.endNode a).getD 0)
  have both : ∀ a, a < 2 * G.m → (ends a).1 < G.n ∧ G.startNode a = some (ends a).1 ∧
        (ends a).2 < G.n ∧ G.endNode a = some (ends a).2 := by
    intro a low
    obtain ⟨u, lowU, start⟩ := wellFormed.start a low
    obtain ⟨v, lowV, end_⟩ := wellFormed.endNode low
    simp only [ends, start, end_, Option.getD_some]
    exact ⟨lowU, trivial, lowV, trivial⟩
  have loop : ∀ (l : List ℕ) (st : SparseState), (∀ a ∈ l, a < 2 * G.m) → l.foldlM G.orientArc st =
        (l.map ends).foldlM (fun st p => st.insertArc p.1 p.2) st := by
    intro l
    induction l with
    | nil => exact fun _ _ => rfl
    | cons a l ih =>
      intro st low
      obtain ⟨-, start, -, end_⟩ := both a (low a mem_cons_self)
      rw [List.map_cons, foldlM_cons, foldlM_cons, orientArc, start, end_]
      exact bind_congr fun st => ih st fun b mem => low b (List.mem_cons_of_mem a mem)
  obtain ⟨st, res, built, -, starts⟩ := (SparseState.built_new G.n maxNode maxArc).insertArcs
    (G.origins.map ends) (by
      intro p mem
      obtain ⟨a, inOrigins, rfl⟩ := mem_map.mp mem
      have facts := both a (mem_origins inOrigins)
      exact ⟨facts.1, facts.2.2.1⟩) (by rw [length_map, count]; omega)
  rw [length_map, count, Nat.zero_add] at built
  refine ⟨st.accessors (fun i => G.ucap (G.origin i)) (fun _ => 0)
    fun i => G.length (2 * (G.origin i / 2)), ?_, built.nAct, built.mAct, ?_, ?_, fun _ => rfl⟩
  · have nodes := fits.nodes
    rw [completeOrientation, checkLimits, if_neg (by omega), if_neg (by omega),
      loop _ _ fun a => mem_origins, res]
    rfl
  · intro i a at_
    have low : i < G.index G.m := by
      rw [← count]
      exact (List.getElem?_eq_some_iff.mp at_).1
    obtain ⟨startU, startV⟩ := starts i (ends a) (by rw [getElem?_map, at_]; rfl)
    obtain ⟨-, start, -, end_⟩ := both a (mem_origins (mem_of_getElem? at_))
    rw [Nat.zero_add] at startU startV
    rw [start, end_, ← startU, ← startV]
    have size : st.mAct = G.index G.m := built.mAct
    exact ⟨if_pos (by omega), if_pos (by omega)⟩
  · intro i
    change G.ucap (G.origin (2 * i / 2)) = _
    rw [Nat.mul_div_cancel_left i (by decide)]

section Mapped

variable {N : Accessors} (oriented : G.Oriented N) (wellFormed : G.WellFormed)
include oriented

theorem Oriented.ends (low : e < G.m) : N.startNode (2 * G.index e) = G.startNode (2 * e) ∧
      N.startNode (2 * G.index e + 1) = G.startNode (2 * e + 1) ∧
      (G.orientation e = false → N.startNode (2 * (G.index e + 1)) = G.startNode (2 * e + 1) ∧
        N.startNode (2 * (G.index e + 1) + 1) = G.startNode (2 * e)) := by
  have first := origins_getElem (r := 0) low (width_pos e)
  rw [Nat.add_zero, Nat.add_zero] at first
  obtain ⟨start, end_⟩ := oriented.startNode _ _ first
  refine ⟨start, ?_, fun undirected => ?_⟩
  · rw [end_, Accessors.endNode, if_pos (by omega), xor_one_even (by omega)]
  · obtain ⟨start', end'⟩ := oriented.startNode _ _
      (origins_getElem (r := 1) low (by rw [width, undirected]; decide))
    refine ⟨start', ?_⟩
    rw [end', Accessors.endNode, if_pos (by omega), xor_one_odd (by omega), Nat.add_sub_cancel]

theorem Oriented.start (wellFormed : G.WellFormed) (low : a < 2 * N.m) :
    ∃ v, v < N.n ∧ N.startNode a = some v := by
  rw [oriented.n]
  have lowI : a / 2 < G.origins.length := by
    rw [origins, length_origins, ← oriented.m]
    omega
  obtain ⟨start, end_⟩ := oriented.startNode (a / 2) _ (getElem?_eq_getElem lowI)
  have lowA := mem_origins (getElem_mem lowI)
  rcases Nat.mod_two_eq_zero_or_one a with even | odd
  · rw [show 2 * (a / 2) = a by omega] at start
    rw [start]
    exact wellFormed.start _ lowA
  · rw [show 2 * (a / 2) + 1 = a by omega] at end_
    rw [end_]
    exact wellFormed.endNode lowA

theorem Oriented.netInflow (f : ℕ → ℚ) (v : ℕ) : N.netInflow f v = G.netInflow (G.netFlow f) v := by
  rw [Accessors.netInflow, oriented.m, sum_index, Accessors.netInflow]
  refine Finset.sum_congr rfl fun e mem => ?_
  obtain ⟨start, end_, second⟩ := oriented.ends (Finset.mem_range.mp mem)
  rw [start, end_, netFlow]
  cases directed : G.orientation e with
  | true => rw [if_pos rfl, if_pos rfl, add_zero, sub_zero]
  | false =>
    obtain ⟨start', end'⟩ := second directed
    rw [if_neg Bool.false_ne_true, if_neg Bool.false_ne_true, start', end']
    split_ifs <;> ring

include wellFormed

theorem Oriented.netFlow_bounds (within : N.WithinBounds f) :
    G.relaxed.RespectsBounds (G.netFlow f) := by
  intro e low
  change e < G.m at low
  have bound := index_lt low
  have pos := width_pos (G := G) e
  have first := within (G.index e) (by rw [oriented.m]; omega)
  rw [oriented.lcap, oriented.ucap, origin_first low] at first
  change if G.orientation e = true then 0 ≤ _ ∧ _ ≤ G.ucap (2 * e) else |_| ≤ G.ucap (2 * e)
  cases directed : G.orientation e with
  | true =>
    rw [if_pos rfl, netFlow, directed, if_pos rfl, sub_zero]
    exact first
  | false =>
    rw [width, directed, if_neg Bool.false_ne_true] at bound
    have second := within (G.index e + 1) (by rw [oriented.m]; omega)
    rw [oriented.lcap, oriented.ucap, origin_second low directed,
      wellFormed.reverse_ucap low] at second
    rw [if_neg Bool.false_ne_true, netFlow, directed, if_neg Bool.false_ne_true, abs_le]
    exact ⟨by linarith, by linarith⟩

theorem Oriented.split_bounds (respects : G.relaxed.RespectsBounds x) :
    N.WithinBounds (G.split x) := by
  intro i low
  rw [oriented.m, ← length_origins] at low
  have at_ : G.origins[i]? = some G.origins[i] := getElem?_eq_getElem low
  set a := G.origins[i] with eqA
  have mem : a ∈ G.origins := getElem_mem low
  have lowA := mem_origins mem
  have open_ : G.blocking a = false := by simpa using (List.mem_filter.mp mem).2
  rw [oriented.lcap, oriented.ucap, split, origin_of_getElem at_]
  have bounds := respects (a / 2) (by change a / 2 < G.m; omega)
  change if G.orientation (a / 2) = true then 0 ≤ x (a / 2) ∧ x (a / 2) ≤ G.ucap (2 * (a / 2))
    else |x (a / 2)| ≤ G.ucap (2 * (a / 2)) at bounds
  rw [blocking] at open_
  cases directed : G.orientation (a / 2) with
  | true =>
    have even : ¬ a % 2 = 1 := by
      intro odd
      rw [directed, if_neg (by decide), if_pos odd] at open_
      exact Bool.noConfusion open_
    rw [directed, if_pos rfl, show 2 * (a / 2) = a by omega] at bounds
    exact bounds
  | false =>
    rw [directed, if_neg Bool.false_ne_true, abs_le] at bounds
    have zero : 0 ≤ G.ucap (2 * (a / 2)) := by linarith
    simp only [Bool.false_eq_true, if_false]
    rcases Nat.mod_two_eq_zero_or_one a with even | odd
    · rw [if_pos even]
      rw [show 2 * (a / 2) = a by omega] at bounds zero
      exact ⟨le_max_right _ _, max_le bounds.2 zero⟩
    · rw [if_neg (by omega)]
      rw [← wellFormed.reverse_ucap (by omega), show 2 * (a / 2) + 1 = a by omega]
        at bounds zero
      exact ⟨le_max_right _ _, max_le (by linarith) zero⟩

theorem Oriented.admissible (within : N.WithinBounds f)
    (meets : ∀ v, v < N.n → N.netInflow f v = G.demand v) : G.relaxed.Admissible (G.netFlow f) := by
  refine ⟨oriented.netFlow_bounds wellFormed within, fun v low => ?_⟩
  change G.netInflow (G.netFlow f) v = G.demand v
  rw [← oriented.netInflow]
  exact meets v (by rw [oriented.n]; exact low)

omit wellFormed in
theorem Oriented.split_meets (admissible : G.relaxed.Admissible x) {v : ℕ}
    (low : v < N.n) : N.netInflow (G.split x) v = G.demand v := by
  rw [oriented.netInflow, Accessors.netInflow_congr (g := x) fun e lowE => netFlow_split x lowE]
  exact admissible.meets v (lt_of_lt_of_eq low oriented.n)

/-! ## The flow on its way there and back -/

omit wellFormed in
theorem Oriented.setSub_ok {x : ℚ} (low : i < N.m) (bounded : |x| ≤ N.ucap (2 * i)) :
    setSub N flow (2 * i) x = .ok (update flow i x) := by
  have accepted : ¬ ((0 < flow (2 * i / 2) ∧ |x| < N.lcap (2 * i)) ∨
      (N.ucap (2 * i) < infCap ∧ N.ucap (2 * i) < |x|)) := by
    rintro (⟨-, below⟩ | ⟨-, above⟩)
    · rw [oriented.lcap] at below
      exact absurd below (not_lt.mpr (abs_nonneg x))
    · exact absurd above (not_lt.mpr bounded)
  rw [setSub, if_neg (by omega), if_neg accepted, Nat.mul_div_cancel_left i (by decide)]

theorem Oriented.forwardEdge_ok (low : e < G.m) (bounded : |sub e| ≤ G.ucap (2 * e))
    (empty : ∀ i, G.index e ≤ i → flow i = 0) :
    ∃ flow', G.forwardEdge N sub (G.index e, flow) e = .ok (G.index (e + 1), flow') ∧
      (∀ i, i < G.index e → flow' i = flow i) ∧ (∀ i, G.index (e + 1) ≤ i → flow' i = 0) ∧
      G.netFlow flow' e = G.forwardFlow sub e := by
  have bound := index_lt low
  have pos := width_pos (G := G) e
  obtain ⟨flow1, first, here, others⟩ : ∃ flow1,
      (if 0 < sub e then setSub N flow (2 * G.index e) (sub e) else pure flow) = .ok flow1 ∧
        flow1 (G.index e) = max (sub e) 0 ∧ ∀ i, i ≠ G.index e → flow1 i = flow i := by
    split_ifs with positive
    · refine ⟨_, oriented.setSub_ok (by rw [oriented.m]; omega) ?_, ?_, fun i other => ?_⟩
      · rwa [oriented.ucap, origin_first low]
      · rw [update_self, max_eq_left positive.le]
      · rw [update_of_ne other]
    · refine ⟨flow, rfl, ?_, fun _ _ => rfl⟩
      rw [empty _ le_rfl, max_eq_right (not_lt.mp positive)]
  cases directed : G.orientation e with
  | true =>
    refine ⟨flow1, ?_, fun i lowI => others i (by omega), fun i high => ?_, ?_⟩
    · simp only [forwardEdge, first, directed, index, width]
      rfl
    · rw [index] at high
      rw [others i (by omega), empty i (by omega)]
    · rw [netFlow, forwardFlow, directed, if_pos rfl, if_pos rfl, here, sub_zero]
  | false =>
    rw [width, directed, if_neg Bool.false_ne_true] at bound
    obtain ⟨flow2, second, there, others'⟩ : ∃ flow2, (if sub e < 0 then
        setSub N flow1 (2 * (G.index e + 1)) (-sub e) else pure flow1) = .ok flow2 ∧
          flow2 (G.index e + 1) = max (-sub e) 0 ∧
          ∀ i, i ≠ G.index e + 1 → flow2 i = flow1 i := by
      split_ifs with neg
      · refine ⟨_, oriented.setSub_ok (by rw [oriented.m]; omega) ?_, ?_, fun i other => ?_⟩
        · rwa [oriented.ucap, origin_second low directed, wellFormed.reverse_ucap low, abs_neg]
        · rw [update_self, max_eq_left (by linarith)]
        · rw [update_of_ne other]
      · refine ⟨flow1, rfl, ?_, fun _ _ => rfl⟩
        rw [others _ (by omega), empty _ (by omega), max_eq_right (by linarith)]
    have lower := wellFormed.undirected e low directed
    refine ⟨flow2, ?_, fun i lowI => ?_, fun i high => ?_, ?_⟩
    · simp only [forwardEdge, first, directed, index, width, lower, ne_eq, not_true, if_true,
        if_false, Bool.false_eq_true]
      change (do
        let flow ← (if sub e < 0 then setSub N flow1 (2 * (G.index e + 1)) (-sub e)
          else pure flow1)
        pure (G.index e + 1 + 1, flow)) = _
      rw [second]
      rfl
    · rw [others' i (by omega), others i (by omega)]
    · rw [index, width, directed, if_neg Bool.false_ne_true] at high
      rw [others' i (by omega), others i (by omega), empty i (by omega)]
    · rw [netFlow, forwardFlow, directed, if_neg Bool.false_ne_true, if_neg Bool.false_ne_true,
        others' _ (by omega), here, there]
      exact max_zero_sub_max_neg_zero_eq_self (sub e)

theorem Oriented.mapFlowForward_ok (bounded : ∀ e, e < G.m → |sub e| ≤ G.ucap (2 * e)) :
    ∃ flow, G.mapFlowForward N sub = .ok flow ∧
      ∀ e, e < G.m → G.netFlow flow e = G.forwardFlow sub e := by
  have loop : ∀ k, k ≤ G.m → ∃ flow,
      (range k).foldlM (G.forwardEdge N sub) (0, fun _ => 0) = .ok (G.index k, flow) ∧
        (∀ i, G.index k ≤ i → flow i = 0) ∧
        ∀ e, e < k → G.netFlow flow e = G.forwardFlow sub e := by
    intro k
    induction k with
    | zero => exact fun _ => ⟨_, rfl, fun _ _ => rfl, fun e low => absurd low (Nat.not_lt_zero e)⟩
    | succ k ih =>
      intro le
      obtain ⟨flow, before, empty, mapped⟩ := ih (by omega)
      obtain ⟨flow', step, below, empty', here⟩ := oriented.forwardEdge_ok wellFormed
        (Nat.lt_of_succ_le le) (bounded k (by omega)) empty
      refine ⟨flow', ?_, empty', fun e low => ?_⟩
      · rw [range_succ, foldlM_append, before]
        change foldlM (G.forwardEdge N sub) (G.index k, flow) [k] = _
        rw [foldlM_cons, step]
        rfl
      · rcases Nat.lt_succ_iff_lt_or_eq.mp low with low | rfl
        · rw [← mapped e low]
          exact netFlow_congr fun i lowI => below i (lowI.trans_le (index_mono low))
        · exact here
  obtain ⟨flow, run, -, mapped⟩ := loop G.m le_rfl
  refine ⟨flow, ?_, mapped⟩
  rw [mapFlowForward, run]
  rfl

end Mapped

/-- `SetSub` accepts the new flow of an arc. -/
def Accepts (G : FlowGraph) (f sub : ℕ → ℚ) (e : ℕ) : Prop :=
  0 < sub e → G.lcap (2 * e) ≤ |G.netFlow f e|

theorem backwardEdge_eq (wellFormed : G.WellFormed) (low : e < G.m) :
    G.backwardEdge f (G.index e, sub) e =
      (setSub G.toAccessors sub (2 * e) (G.netFlow f e)).map (G.index (e + 1), ·) := by
  cases directed : G.orientation e with
  | true =>
    simp only [backwardEdge, directed, index, width, netFlow, if_true, sub_zero]
    cases setSub G.toAccessors sub (2 * e) (f (G.index e)) <;> rfl
  | false =>
    have lower := wellFormed.undirected e low directed
    simp only [backwardEdge, directed, index, width, netFlow, lower, ne_eq, not_true, if_true,
      if_false, Bool.false_eq_true]
    cases setSub G.toAccessors sub (2 * e) (f (G.index e) - f (G.index e + 1)) <;> rfl

theorem setSub_cases (sub : ℕ → ℚ) (low : e < G.m) (bounded : |G.netFlow f e| ≤ G.ucap (2 * e)) :
    (G.Accepts f sub e ∧ setSub G.toAccessors sub (2 * e) (G.netFlow f e) =
      .ok (update sub e (G.netFlow f e))) ∨
    (¬ G.Accepts f sub e ∧ ∃ r, setSub G.toAccessors sub (2 * e) (G.netFlow f e) = .error r) := by
  have upper : ¬ (G.ucap (2 * e) < infCap ∧ G.ucap (2 * e) < |G.netFlow f e|) := fun both =>
    absurd both.2 (not_lt.mpr bounded)
  rw [setSub, if_neg (by omega), Nat.mul_div_cancel_left e (by decide)]
  by_cases accepts : G.Accepts f sub e
  · refine .inl ⟨accepts, if_neg ?_⟩
    rintro (⟨pos, below⟩ | both)
    · exact absurd below (not_lt.mpr (accepts pos))
    · exact upper both
  · refine .inr ⟨accepts, _, if_pos (.inl ?_)⟩
    rw [Accepts, Classical.not_imp, not_le] at accepts
    exact accepts

/-- `MapFlowBackward` leaves the flow of the orientation behind, unless an arc does not accept
it. -/
theorem mapFlowBackward_cases (wellFormed : G.WellFormed) (sub : ℕ → ℚ)
    (bounded : ∀ e, e < G.m → |G.netFlow f e| ≤ G.ucap (2 * e)) :
    ((∀ e, e < G.m → G.Accepts f sub e) ∧
      G.mapFlowBackward f sub = .ok fun e => if e < G.m then G.netFlow f e else sub e) ∨
    ((∃ e, e < G.m ∧ ¬ G.Accepts f sub e) ∧ ∃ r, G.mapFlowBackward f sub = .error r) := by
  have loop : ∀ k, k ≤ G.m → ((∀ e, e < k → G.Accepts f sub e) ∧
        (range k).foldlM (G.backwardEdge f) (0, sub) =
          .ok (G.index k, fun e => if e < k then G.netFlow f e else sub e)) ∨
      ((∃ e, e < k ∧ ¬ G.Accepts f sub e) ∧
        ∃ r, (range k).foldlM (G.backwardEdge f) (0, sub) = .error r) := by
    intro k
    induction k with
    | zero => exact fun _ => .inl ⟨fun e low => absurd low (Nat.not_lt_zero e), rfl⟩
    | succ k ih =>
      intro le
      rw [range_succ, foldlM_append]
      rcases ih (by omega) with ⟨before, res⟩ | ⟨⟨e, low, refused⟩, r, res⟩
      · have here : G.Accepts f (fun e => if e < k then G.netFlow f e else sub e) k ↔
            G.Accepts f sub k := by
          rw [Accepts, Accepts, if_neg (lt_irrefl k)]
        rw [res]
        change (_ ∧ foldlM (G.backwardEdge f) _ [k] = _) ∨
          (_ ∧ ∃ r, foldlM (G.backwardEdge f) _ [k] = .error r)
        rw [foldlM_cons, backwardEdge_eq wellFormed le]
        rcases setSub_cases (fun e => if e < k then G.netFlow f e else sub e) le
          (bounded k le) with ⟨accepts, step⟩ | ⟨refused, r, step⟩
        · refine .inl ⟨fun e low => ?_, ?_⟩
          · rcases Nat.lt_succ_iff_lt_or_eq.mp low with low | rfl
            · exact before e low
            · exact here.mp accepts
          · rw [step]
            refine congrArg (fun sub => Except.ok (G.index (k + 1), sub)) (funext fun e => ?_)
            by_cases eq : e = k
            · rw [eq, update_self, if_pos (Nat.lt_succ_self k)]
            · rw [update_of_ne eq]
              exact if_congr (by omega) rfl rfl
        · refine .inr ⟨⟨k, Nat.lt_succ_self k, fun accepts => refused (here.mpr accepts)⟩, r, ?_⟩
          rw [step]
          rfl
      · refine .inr ⟨⟨e, by omega, refused⟩, r, ?_⟩
        rw [res]
        rfl
  rcases loop G.m le_rfl with ⟨accepts, res⟩ | ⟨refused, r, res⟩
  · refine .inl ⟨accepts, ?_⟩
    rw [mapFlowBackward, res]
    rfl
  · refine .inr ⟨refused, r, ?_⟩
    rw [mapFlowBackward, res]
    rfl

/-! ## The decision -/

/-- A flow with which a maximum flow computation on the network may end. -/
def MayReturn (G : FlowGraph) (N : Accessors) (flow f : ℕ → ℚ) : Prop :=
  (imbalanced N G.demand flow).MaximumFlow (s1 N) (t1 N) (initialFlow N G.demand flow) f

/-- `MaxFlow` computes a maximum flow. -/
def Solves (G : FlowGraph) (maxFlow : FlowSolver) (maxNode maxArc : ℕ) (sub : ℕ → ℚ) : Prop :=
  ∀ N flow, G.orientedFlow maxNode maxArc sub = .ok (N, flow) →
    G.MayReturn N flow (maxFlow (imbalanced N G.demand flow) (s1 N) (t1 N)
      (initialFlow N G.demand flow))

/-- `AdmissibleBFlow` decides whether there is an admissible flow, and leaves one behind if there
is. -/
def Decides (G : FlowGraph) (maxNode maxArc : ℕ) (sub : ℕ → ℚ) : Prop :=
  ∀ maxFlow, G.Solves maxFlow maxNode maxArc sub →
    ∃ ret sub', G.admissibleBFlow maxFlow maxNode maxArc sub = .ok (ret, sub') ∧
      (ret = true ↔ G.Balanced ∧ ∃ x, G.Admissible x) ∧ (ret = true → G.Admissible sub')

/-- A flow that comes as close to the demands as a flow can that starts from the given one and
knows of no lower bounds. -/
def Closest (G : FlowGraph) (sub x : ℕ → ℚ) : Prop :=
  DigraphToDigraph.Closest G.toAccessors G.relaxed.RespectsBounds G.demand (G.forwardFlow sub) x

/-- The lower bounds are respected without being imposed. -/
structure LowerBoundsImplied (G : FlowGraph) (sub : ℕ → ℚ) : Prop where
  feasible : ∀ x, G.relaxed.Admissible x → G.RespectsBounds x
  infeasible : ∀ x, G.Closest sub x → ∀ e, e < G.m → G.orientation e = true → 0 < sub e →
    G.lcap (2 * e) ≤ x e

theorem checkSum_eq (count : ℕ) : (range count).foldl (fun checkSum v => checkSum + G.demand v) 0 =
      ∑ v ∈ Finset.range count, G.demand v := by
  induction count with
  | zero => rfl
  | succ count ih =>
    rw [range_succ, List.foldl_append, ih, Finset.sum_range_succ]
    rfl

theorem RespectsBounds.congr (respects : G.RespectsBounds x)
    (eq : ∀ e, e < G.m → y e = x e) : G.RespectsBounds y := by
  intro e low
  rw [eq e low]
  exact respects e low

theorem Admissible.congr (admissible : G.Admissible x)
    (eq : ∀ e, e < G.m → y e = x e) : G.Admissible y := by
  refine ⟨admissible.bounds.congr eq, fun v low => ?_⟩
  rw [Accessors.netInflow_congr eq]
  exact admissible.meets v low

/-- Without lower bounds there are more admissible flows. -/
theorem Admissible.relaxed (wellFormed : G.WellFormed) (admissible : G.Admissible x) :
    G.relaxed.Admissible x := by
  refine ⟨fun e low => ?_, admissible.meets⟩
  have bounds := admissible.bounds e low
  have lower := (wellFormed.lower e low).1
  change if G.orientation e = true then 0 ≤ x e ∧ x e ≤ G.ucap (2 * e) else |x e| ≤ G.ucap (2 * e)
  split_ifs at bounds ⊢ with directed
  · exact ⟨lower.trans bounds.1, bounds.2⟩
  · exact bounds

theorem RespectsBounds.abs_le (respects : G.relaxed.RespectsBounds x)
    (low : e < G.m) : |x e| ≤ G.ucap (2 * e) := by
  have bounds := respects e low
  change if G.orientation e = true then 0 ≤ x e ∧ x e ≤ G.ucap (2 * e)
    else |x e| ≤ G.ucap (2 * e) at bounds
  split_ifs at bounds with directed
  · rw [abs_of_nonneg bounds.1]
    exact bounds.2
  · exact bounds

section Runs

variable {maxNode maxArc : ℕ} {sub : ℕ → ℚ} {maxFlow : FlowSolver}

theorem admissibleBFlow_unbalanced (unbalanced : ¬ G.Balanced) :
    G.admissibleBFlow maxFlow maxNode maxArc sub = .ok (false, sub) := by
  rw [admissibleBFlow, if_pos]
  rwa [checkSum_eq]

theorem admissibleBFlow_balanced (maxFlow : FlowSolver) (balanced : G.Balanced)
    (fits : G.Fits maxNode maxArc) {N : Accessors}
    (res : G.orientedFlow maxNode maxArc sub = .ok (N, flow)) (sizeN : N.n = G.n)
    (sizeM : N.m ≤ 2 * G.m) : ∃ f, (G.Solves maxFlow maxNode maxArc sub → G.MayReturn N flow f) ∧
      (f = maxFlow (imbalanced N G.demand flow) (s1 N) (t1 N) (initialFlow N G.demand flow)) ∧
      G.admissibleBFlow maxFlow maxNode maxArc sub = if G.isDirected then .ok (perfect N f, f)
        else (G.mapFlowBackward f sub).map (perfect N f, ·) := by
  obtain ⟨nodes, arcs⟩ := fits
  refine ⟨_, fun solves => solves N flow res, rfl, ?_⟩
  rw [admissibleBFlow, if_neg (by rw [checkSum_eq]; exact not_not_intro balanced), res]
  change (do
    checkLimits (N.n + 2) (N.m + 2 * N.n + 1) maxNode maxArc
    _) = _
  rw [checkLimits, if_neg (by omega), if_neg (by omega)]
  cases G.isDirected
  · rfl
  · rfl

theorem orientedFlow_ok (wellFormed : G.WellFormed) (fits : G.Fits maxNode maxArc)
    (bounded : ∀ e, e < G.m → |sub e| ≤ G.ucap (2 * e)) (notDirected : G.isDirected = false) :
    ∃ N flow, G.orientedFlow maxNode maxArc sub = .ok (N, flow) ∧ G.Oriented N ∧
      ∀ e, e < G.m → G.netFlow flow e = G.forwardFlow sub e := by
  obtain ⟨N, built, oriented⟩ := completeOrientation_ok wellFormed fits
  obtain ⟨flow, mapped, forward⟩ := oriented.mapFlowForward_ok wellFormed bounded
  refine ⟨N, flow, ?_, oriented, forward⟩
  rw [orientedFlow, notDirected, built]
  change (do let flow ← G.mapFlowForward N sub; pure (N, flow)) = _
  rw [mapped]
  rfl

end Runs

section Decided

variable {N : Accessors} {sub flow f : ℕ → ℚ} (oriented : G.Oriented N)
  (wellFormed : G.WellFormed) (forward : ∀ e, e < G.m → G.netFlow flow e = G.forwardFlow sub e)
include oriented

theorem Oriented.deficit (f : ℕ → ℚ) (v : ℕ) : DigraphToDigraph.deficit N G.demand f v =
    DigraphToDigraph.deficit G.toAccessors G.demand (G.netFlow f) v := by
  rw [DigraphToDigraph.deficit, DigraphToDigraph.deficit, oriented.netInflow]

theorem Oriented.deficit_split (x : ℕ → ℚ) (v : ℕ) :
    DigraphToDigraph.deficit N G.demand (G.split x) v =
      DigraphToDigraph.deficit G.toAccessors G.demand x v := by
  rw [oriented.deficit, DigraphToDigraph.deficit, DigraphToDigraph.deficit,
    Accessors.netInflow_congr fun e low => netFlow_split x low]

theorem Oriented.shortfall (f : ℕ → ℚ) : DigraphToDigraph.shortfall N G.demand f =
    DigraphToDigraph.shortfall G.toAccessors G.demand (G.netFlow f) := by
  rw [DigraphToDigraph.shortfall, DigraphToDigraph.shortfall, oriented.n]
  exact Finset.sum_congr rfl fun v _ => by rw [oriented.deficit]

theorem Oriented.shortfall_split (x : ℕ → ℚ) : DigraphToDigraph.shortfall N G.demand (G.split x) =
      DigraphToDigraph.shortfall G.toAccessors G.demand x := by
  rw [DigraphToDigraph.shortfall, DigraphToDigraph.shortfall, oriented.n]
  exact Finset.sum_congr rfl fun v _ => by rw [oriented.deficit_split]

include forward

theorem Oriented.deficit_forward (v : ℕ) : DigraphToDigraph.deficit N G.demand flow v =
    DigraphToDigraph.deficit G.toAccessors G.demand (G.forwardFlow sub) v := by
  rw [oriented.deficit, DigraphToDigraph.deficit, DigraphToDigraph.deficit,
    Accessors.netInflow_congr forward]

theorem Oriented.between (f : ℕ → ℚ) : DigraphToDigraph.Between N G.demand flow f ↔
    DigraphToDigraph.Between G.toAccessors G.demand (G.forwardFlow sub) (G.netFlow f) := by
  rw [DigraphToDigraph.Between, DigraphToDigraph.Between, oriented.n]
  refine forall_congr' fun v => ?_
  rw [oriented.deficit, oriented.deficit_forward forward]

theorem Oriented.between_split (x : ℕ → ℚ) : DigraphToDigraph.Between N G.demand flow (G.split x) ↔
    DigraphToDigraph.Between G.toAccessors G.demand (G.forwardFlow sub) x := by
  rw [DigraphToDigraph.Between, DigraphToDigraph.Between, oriented.n]
  refine forall_congr' fun v => ?_
  rw [oriented.deficit_split, oriented.deficit_forward forward]

include wellFormed

theorem Oriented.closest (maximum : G.MayReturn N flow f) : G.Closest sub (G.netFlow f) := by
  have closest := DigraphToDigraph.closest_of_maximum
    (fun _ low => oriented.start wellFormed low) maximum
  refine ⟨oriented.netFlow_bounds wellFormed closest.within,
    (oriented.between forward f).mp closest.between, fun y bounds between => ?_⟩
  rw [← oriented.shortfall, ← oriented.shortfall_split y]
  exact closest.least _ (oriented.split_bounds wellFormed bounds)
    ((oriented.between_split forward y).mpr between)

theorem Oriented.mayReturn (closest : G.Closest sub x) :
    G.MayReturn N flow (completed N G.demand (G.split x)) := by
  refine DigraphToDigraph.maximum_of_closest (fun _ low => oriented.start wellFormed low)
    ⟨oriented.split_bounds wellFormed closest.within,
      (oriented.between_split forward x).mpr closest.between, fun y within between => ?_⟩
  rw [oriented.shortfall_split x, oriented.shortfall]
  exact closest.least _ (oriented.netFlow_bounds wellFormed within)
    ((oriented.between forward y).mp between)

omit wellFormed forward

theorem Oriented.netFlow_completed (x : ℕ → ℚ) (low : e < G.m) :
    G.netFlow (completed N G.demand (G.split x)) e = x e := by
  refine Eq.trans (netFlow_congr fun i lowI => ?_) (netFlow_split x low)
  refine completed_edge ?_
  rw [oriented.m]
  exact lowI.trans_le (index_mono low)

include wellFormed

theorem Oriented.result_bounded (maximum : G.MayReturn N flow f) (low : e < G.m) :
    |G.netFlow f e| ≤ G.ucap (2 * e) :=
  (oriented.netFlow_bounds wellFormed (within_original maximum.within)).abs_le low

variable (balanced : G.Balanced)
include balanced

/-- The network has been drained exactly if the graph without lower bounds has an admissible
flow. -/
theorem Oriented.perfect_iff (maximum : G.MayReturn N flow f) :
    perfect N f = true ↔ ∃ x, G.relaxed.Admissible x := by
  have balancedN : ∑ v ∈ Finset.range N.n, G.demand v = 0 := by
    rw [oriented.n]
    exact balanced
  rw [perfect_iff_admissible (fun _ low => oriented.start wellFormed low) balancedN maximum]
  constructor
  · rintro ⟨x, within, meets⟩
    exact ⟨_, oriented.admissible wellFormed within meets⟩
  · rintro ⟨x, admissible⟩
    exact ⟨_, oriented.split_bounds wellFormed admissible.bounds, fun v low =>
      oriented.split_meets admissible low⟩

theorem Oriented.admissible_of_perfect (maximum : G.MayReturn N flow f)
    (drained : perfect N f = true) : G.relaxed.Admissible (G.netFlow f) := by
  have balancedN : ∑ v ∈ Finset.range N.n, G.demand v = 0 := by
    rw [oriented.n]
    exact balanced
  refine oriented.admissible wellFormed (within_original maximum.within) fun v low => ?_
  exact netInflow_of_perfect (fun _ low => oriented.start wellFormed low)
    balancedN maximum drained low

end Decided

section Decisions

variable {maxNode maxArc : ℕ} {sub : ℕ → ℚ} (wellFormed : G.WellFormed)
  (fits : G.Fits maxNode maxArc) (balanced : G.Balanced)
include wellFormed fits balanced

theorem decides_directed (directed : G.isDirected = true) : G.Decides maxNode maxArc sub := by
  intro maxFlow solves
  have eq : G.orientedFlow maxNode maxArc sub = .ok (G.toAccessors, sub) := if_pos directed
  obtain ⟨f, maximum, -, run⟩ := admissibleBFlow_balanced maxFlow balanced fits eq rfl (by omega)
  have maximum := maximum solves
  have bounds : ∀ x, G.RespectsBounds x ↔ G.WithinBounds x := by
    intro x
    refine forall_congr' fun e => imp_congr_right fun low => ?_
    rw [wellFormed.directed directed e low, if_pos rfl]
  have decided := perfect_iff_admissible wellFormed.start balanced maximum
  rw [if_pos directed] at run
  refine ⟨_, f, run, decided.trans ?_, fun drained => ⟨?_, fun v low => ?_⟩⟩
  · constructor
    · rintro ⟨x, within, meets⟩
      exact ⟨balanced, x, (bounds x).mpr within, meets⟩
    · rintro ⟨-, x, admissible⟩
      exact ⟨x, (bounds x).mp admissible.bounds, admissible.meets⟩
  · exact (bounds f).mpr (within_original maximum.within)
  · exact netInflow_of_perfect wellFormed.start balanced maximum drained low

variable (bounded : ∀ e, e < G.m → |sub e| ≤ G.ucap (2 * e)) (notDirected : G.isDirected = false)
include bounded notDirected

theorem decides_of_implied (implied : G.LowerBoundsImplied sub) : G.Decides maxNode maxArc sub := by
  intro maxFlow solves
  obtain ⟨N, flow, res, oriented, forward⟩ :=
    orientedFlow_ok wellFormed fits bounded notDirected
  obtain ⟨f, maximum, -, run⟩ := admissibleBFlow_balanced maxFlow balanced fits res oriented.n
    (by rw [oriented.m]; exact index_le _)
  have maximum := maximum solves
  have decided := oriented.perfect_iff wellFormed balanced maximum
  rw [if_neg (by rw [notDirected]; exact Bool.false_ne_true)] at run
  have closest := oriented.closest wellFormed forward maximum
  obtain ⟨-, back⟩ | ⟨⟨e, low, refused⟩, -⟩ := mapFlowBackward_cases wellFormed sub
    fun e low => oriented.result_bounded wellFormed maximum low
  · rw [back] at run
    refine ⟨_, _, run, decided.trans ⟨?_, ?_⟩, fun drained => ?_⟩
    · rintro ⟨x, admissible⟩
      exact ⟨balanced, x, implied.feasible x admissible, admissible.meets⟩
    · rintro ⟨-, x, admissible⟩
      exact ⟨x, admissible.relaxed wellFormed⟩
    · have admissible := oriented.admissible_of_perfect wellFormed balanced maximum drained
      have whole : G.Admissible (G.netFlow f) :=
        ⟨implied.feasible _ admissible, admissible.meets⟩
      exact whole.congr fun e low => if_pos low
  · -- no arc refuses the flow that comes back
    refine absurd (fun pos => ?_) refused
    cases directed : G.orientation e with
    | true => exact (implied.infeasible _ closest e low directed pos).trans (le_abs_self _)
    | false =>
      rw [wellFormed.undirected e low directed]
      exact abs_nonneg _

theorem implied_of_decides (decides : G.Decides maxNode maxArc sub) : G.LowerBoundsImplied sub := by
  obtain ⟨N, flow, res, oriented, forward⟩ :=
    orientedFlow_ok wellFormed fits bounded notDirected
  -- a flow that may be returned comes back, and the decision is right
  have returned : ∀ x, G.Closest sub x → (∀ e, e < G.m → G.orientation e = true → 0 < sub e →
      G.lcap (2 * e) ≤ x e) ∧ (G.relaxed.Admissible x → G.RespectsBounds x) := by
    intro x closest
    have maximum := oriented.mayReturn wellFormed forward closest
    have eq := fun e low => oriented.netFlow_completed x (e := e) low
    set f := completed N G.demand (G.split x) with eqF
    have solves : G.Solves (fun _ _ _ _ => f) maxNode maxArc sub := by
      intro N' flow' res'
      rw [res] at res'
      cases res'
      exact maximum
    obtain ⟨ret, sub', ok, decided, admissible⟩ := decides _ solves
    obtain ⟨f', -, eqF', run⟩ := admissibleBFlow_balanced (fun _ _ _ _ => f) balanced
      fits res oriented.n (by rw [oriented.m]; exact index_le _)
    change f' = f at eqF'
    rw [if_neg (by rw [notDirected]; exact Bool.false_ne_true), ok, eqF'] at run
    obtain ⟨accepts, back⟩ | ⟨-, r, back⟩ := mapFlowBackward_cases wellFormed sub
      fun e low => oriented.result_bounded wellFormed maximum low
    · rw [back] at run
      cases run
      refine ⟨fun e low directed pos => ?_, fun feasible => ?_⟩
      · have bound := accepts e low pos
        have nonneg := closest.within e low
        change if G.orientation e = true then 0 ≤ x e ∧ _ else _ at nonneg
        rw [directed, if_pos rfl] at nonneg
        rwa [eq e low, abs_of_nonneg nonneg.1] at bound
      · have drained := (oriented.perfect_iff wellFormed balanced maximum).mpr ⟨x, feasible⟩
        exact (admissible drained).bounds.congr fun e low => by rw [if_pos low, eq e low]
    · rw [back] at run
      cases run
  refine ⟨fun x admissible => ?_, fun x closest => (returned x closest).1⟩
  have closest : G.Closest sub x := DigraphToDigraph.closest_of_admissible
    wellFormed.start G.relaxed.RespectsBounds admissible.bounds admissible.meets balanced
  exact (returned x closest).2 admissible

end Decisions

theorem lowerBoundsImplied_of_zero (zero : ∀ e, e < G.m → G.lcap (2 * e) = 0) :
    G.LowerBoundsImplied sub := by
  have nonneg : ∀ x, G.relaxed.RespectsBounds x → G.RespectsBounds x := by
    intro x respects e low
    rw [zero e low]
    exact respects e low
  refine ⟨fun x admissible => nonneg x admissible.bounds, ?_⟩
  intro x closest e low directed _
  have bounds := nonneg x closest.within e low
  rw [directed, if_pos rfl] at bounds
  exact bounds.1

/-- **When `AdmissibleBFlow` decides feasibility.** -/
theorem decides_iff {maxNode maxArc : ℕ} {sub : ℕ → ℚ} (wellFormed : G.WellFormed)
    (fits : G.Fits maxNode maxArc) (bounded : ∀ e, e < G.m → |sub e| ≤ G.ucap (2 * e)) :
    G.Decides maxNode maxArc sub ↔
      G.isDirected = true ∨ ¬ G.Balanced ∨ G.LowerBoundsImplied sub := by
  by_cases balanced : G.Balanced
  · cases directed : G.isDirected with
    | true =>
      exact iff_of_true (decides_directed wellFormed fits balanced directed) (.inl rfl)
    | false =>
      constructor
      · intro decides
        exact .inr (.inr (implied_of_decides wellFormed fits balanced bounded directed decides))
      · rintro (isTrue | unbalanced | implied)
        · exact Bool.noConfusion isTrue
        · exact absurd balanced unbalanced
        · exact decides_of_implied wellFormed fits balanced bounded directed implied
  · refine iff_of_true (fun maxFlow _ => ?_) (.inr (.inl balanced))
    refine ⟨false, sub, admissibleBFlow_unbalanced balanced, ?_, fun isTrue => ?_⟩
    · exact iff_of_false Bool.false_ne_true fun both => balanced both.1
    · exact Bool.noConfusion isTrue

/-! ## One edge -/

/-- Two nodes with one edge. -/
def singleEdge (directed : Bool) (lower demand : ℚ) : FlowGraph where
  n := 2
  m := 1
  startNode a := if a < 2 then some a else none
  first v := some v
  right a _ := some a
  ucap _ := 1
  lcap _ := lower
  length _ := 0
  isDirected := false
  orientation _ := directed
  demand v := if v = 0 then -demand else demand

theorem singleEdge_wellFormed {directed : Bool} {lower demand : ℚ} (nonneg : 0 ≤ lower)
    (le : lower ≤ 1) (undirected : directed = false → lower = 0) :
    (singleEdge directed lower demand).WellFormed := by
  refine ⟨fun a low => ⟨a, low, if_pos low⟩, ⟨fun _ _ => rfl, fun _ _ => rfl, fun _ _ => rfl⟩,
    fun _ _ => ⟨nonneg, le⟩, fun _ _ => undirected, fun no => Bool.noConfusion no⟩

/-- An undirected edge. -/
theorem decides_singleEdge : (singleEdge false 0 1).Decides 100 100 fun _ => 1 :=
  (decides_iff (singleEdge_wellFormed le_rfl zero_le_one fun _ => rfl) ⟨by decide, by decide⟩
    fun _ _ => by simp [singleEdge]).mpr (.inr (.inr (lowerBoundsImplied_of_zero fun _ _ => rfl)))

/-- A directed arc that must carry flow, between nodes that have no demands. -/
theorem not_decides_singleEdge : (singleEdge true 1 0).WellFormed ∧
    (singleEdge true 1 0).Fits 100 100 ∧ ¬ (singleEdge true 1 0).Decides 100 100 fun _ => 1 := by
  have wellFormed : (singleEdge true 1 0).WellFormed :=
    singleEdge_wellFormed zero_le_one le_rfl fun no => Bool.noConfusion no
  have fits : (singleEdge true 1 0).Fits 100 100 := ⟨by decide, by decide⟩
  refine ⟨wellFormed, fits, fun decides => ?_⟩
  have implied := implied_of_decides wellFormed fits (by simp [Balanced, singleEdge])
    (fun _ _ => by simp [singleEdge]) rfl decides
  -- the empty flow is admissible without the lower bound
  have empty : (singleEdge true 1 0).relaxed.Admissible fun _ => 0 := by
    refine ⟨fun e _ => ?_, fun v _ => ?_⟩
    · change if true = true then (0 : ℚ) ≤ 0 ∧ (0 : ℚ) ≤ 1 else _
      simp
    · simp [Accessors.netInflow, relaxed, singleEdge]
  have bounds := implied.feasible _ empty 0 (by decide)
  change if true = true then (1 : ℚ) ≤ 0 ∧ _ else _ at bounds
  rw [if_pos rfl] at bounds
  exact absurd bounds.1 (by norm_num)

end FlowGraph

end Goblin
