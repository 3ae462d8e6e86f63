import Goblin.TimerBounds
import Goblin.Library.PriorityQueue
import Goblin.Library.SpanningTree
import Goblin.Library.Termination

/-!
# Spanning trees that grow from a root

`MST_Prim` explores the nodes one after the other. Every node that has not been explored is
labelled by the shortest edge that leads to it from an explored node, and the next node is one
whose label is least. The basic version looks for this node among all nodes; the other version
keeps the labelled nodes in a priority queue. An explored node has the label `-sign*InfFloat`, a
node without a label has the distance `sign*InfFloat`, and `sign` is negative if a spanning tree of
maximum weight is wanted.

The invariant `Grows` is the same for both versions: the predecessor labels of the explored nodes
are the edges of a tree that is promising in the sense of the cut rule.
-/

set_option autoImplicit false

namespace Goblin

open Library List Finset Function

/-- `TMethMST` -/
inductive TMethMST where
  | default
  | prim
  | prim2
  | kruskal
  | edmonds
deriving DecidableEq, Repr

/-- `TOptMST`: the bits of the characteristic. -/
structure TOptMST where
  max : Bool
  oneCycle : Bool
  reduced : Bool
deriving DecidableEq, Repr

def TOptMST.sign (characteristic : TOptMST) : ℚ := if characteristic.max then -1 else 1

/-- `CLCap` and `MaxLCap`: what is known of the lower bounds without reading them all. -/
structure LowerBounds where
  cLCap : Bool
  maxLCap : ℚ

/-- Lower bounds may be positive. -/
def LowerBounds.uncertain (B : LowerBounds) : Bool := !B.cLCap || decide (0 < B.maxLCap)

/-- `Insert` refuses items that are queued. -/
def heapInsert {V : Type} [DecidableEq V] (Q : MinQueue.{0, 0, 0} V ℚ) (q : Q.Carrier) (v : V)
    (key : ℚ) : Except Raise Q.Carrier :=
  match Q.keys q v with
  | none => .ok (Q.insert q v key)
  | some _ => .error (.rejected "Insert" "Already on queue")

/-- `ChangeKey` refuses items that are not queued. -/
def heapChangeKey {V : Type} [DecidableEq V] (Q : MinQueue.{0, 0, 0} V ℚ) (q : Q.Carrier) (v : V)
    (key : ℚ) : Except Raise Q.Carrier :=
  match Q.keys q v with
  | none => .error (.range "ChangeKey" "No such item")
  | some _ => .ok (Q.changeKey q v key)

/-- The labels of the procedure, the weight that has been collected and the number of explored
nodes. -/
structure PrimState (n m : ℕ) where
  dist : Fin n → ℚ
  pred : Fin n → Option (Arc m)
  sum : ℚ
  nExplored : ℕ

namespace MixedGraph

variable {n m : ℕ} (G : MixedGraph n m)

/-- The root node: `0` if none is given. -/
def mstRoot (method : String) (r : ℕ) : Except Raise (Fin n) :=
  let r := if r = noNode then 0 else r
  if low : r < n then .ok ⟨r, low⟩ else .error (.range method "No such node")

/-- `MST_Length`. Without potentials, `RedLength` is the length. -/
def mstLength (characteristic : TOptMST) (potential : Option (Fin n → ℚ)) (a : Arc m) : ℚ :=
  if characteristic.reduced then G.redLength (potential.getD fun _ => 0) a else G.length a.edge

section Prim

variable (characteristic : TOptMST) (potential : Option (Fin n → ℚ))

section

variable (st : PrimState n m)

/-- The node gets a label. -/
def primLabel (v : Fin n) (l : ℚ) (a : Arc m) : PrimState n m :=
  { st with dist := update st.dist v l, pred := update st.pred v (some a) }

/-- One arc of the basic version. -/
def primRead (a : Arc m) : PrimState n m :=
  let v := G.endNode a
  let l := G.mstLength characteristic potential a
  if characteristic.sign * l < characteristic.sign * st.dist v ∧ 0 < G.ucap a.edge then
    primLabel st v l a
  else st

/-- The better one of the next node so far, which may be `NoNode`, and the node `v`. -/
def primBetter (dist : Fin n → ℚ) (u : Option (Fin n)) (v : Fin n) : Option (Fin n) :=
  if dist v ≠ -characteristic.sign * infFloat ∧
      ∀ u' ∈ u, characteristic.sign * dist v < characteristic.sign * dist u' then some v
  else u

/-- The search for the next node. -/
def primNext (dist : Fin n → ℚ) : Option (Fin n) :=
  (finRange n).foldl (primBetter characteristic dist) none

/-- The node is marked as explored, and its weight is added. -/
def primExplore (u : Fin n) (weight : ℚ) : PrimState n m :=
  { st with
    dist := update st.dist u (-characteristic.sign * infFloat)
    sum := st.sum + weight
    nExplored := st.nExplored + 1 }

end

/-- One iteration of the basic version. -/
def primStep (s : PrimState n m × Option (Fin n)) :
    Except Raise ((PrimState n m × Option (Fin n)) ⊕ PrimState n m) :=
  match s.2 with
  | none => .ok (.inr s.1)
  | some u =>
    if s.1.dist u = characteristic.sign * infFloat then .ok (.inr s.1)
    else
      let st := (G.incidences u).foldl (G.primRead characteristic potential)
        (primExplore characteristic s.1 u (s.1.dist u))
      .ok (.inl (st, primNext characteristic st.dist))

section Heap

variable (Q : MinQueue.{0, 0, 0} (Fin n) ℚ)

/-- One arc of the version with a queue. -/
def primRead2 (s : PrimState n m × Q.Carrier) (a : Arc m) :
    Except Raise (PrimState n m × Q.Carrier) :=
  let v := G.endNode a
  let l := if G.lcap a.edge = 0 then G.mstLength characteristic potential a
    else -characteristic.sign * infFloat
  if characteristic.sign * l < characteristic.sign * s.1.dist v ∧ 0 < G.ucap a.edge then do
    let q ← if s.1.dist v = characteristic.sign * infFloat then
        heapInsert Q s.2 v (characteristic.sign * l)
      else heapChangeKey Q s.2 v (characteristic.sign * l)
    return (primLabel s.1 v l a, q)
  else .ok s

/-- What a node that is taken from the queue adds to the weight. -/
def primWeight (r2 u : Fin n) (st : PrimState n m) : Except Raise ℚ :=
  if u ≠ r2 then do
    let a ← defined (st.pred u)
    return G.mstLength characteristic potential a
  else .ok 0

/-- One iteration of the version with a queue. -/
def primStep2 (r2 : Fin n) (s : PrimState n m × Q.Carrier) :
    Except Raise ((PrimState n m × Q.Carrier) ⊕ PrimState n m) :=
  match Q.delete s.2 with
  | none => .ok (.inr s.1)
  | some (u, q) => do
    let weight ← G.primWeight characteristic potential r2 u s.1
    let s ← (G.incidences u).foldlM (G.primRead2 characteristic potential Q)
      (primExplore characteristic s.1 u weight, q)
    return .inl s

end Heap

/-- One arc of the search for the two arcs at the root of a 1-cycle tree. -/
def primCycleRead (r : Fin n) (s : Option (Arc m) × Option (Arc m)) (a : Arc m) :
    Option (Arc m) × Option (Arc m) :=
  let better (b : Arc m) : Prop :=
    characteristic.sign * G.mstLength characteristic potential a <
        characteristic.sign * G.mstLength characteristic potential b ∧ G.lcap b.edge = 0
  if G.endNode a ≠ r ∧ 0 < G.ucap a.edge then
    if s.1 = none ∨ 0 < G.lcap a.edge ∨ ∃ b ∈ s.1, better b then (some a, s.1)
    else if s.2 = none ∨ ∃ b ∈ s.2, better b then (s.1, some a)
    else s
  else s

/-- The labels before a node has been explored. -/
def primInit : PrimState n m :=
  ⟨fun _ => characteristic.sign * infFloat, fun _ => none, 0, 0⟩

/-- The labels that the two arcs at the root impose. The search starts from the end node of the
first one. -/
def primCycle (r : Fin n) (a1 a2 : Arc m) : PrimState n m where
  dist := update (primInit (m := m) characteristic).dist r
    (-characteristic.sign * infFloat)
  pred := update (update (fun _ => none) (G.endNode a1) (some a1)) r
    (some a2.rev)
  sum := G.mstLength characteristic potential a1 + G.mstLength characteristic potential a2
  nExplored := 1

section

variable (B : LowerBounds) (Q : MinQueue.{0, 0, 0} (Fin n) ℚ) (method : TMethMST)

/-- The search from the node `u`, in the version that the method asks for. -/
def primSearch
    (u : Fin n) (st : PrimState n m) : Except Raise (ℚ × PrimState n m) := do
  let method := if B.uncertain then .prim2 else method
  let st := { st with dist := update st.dist u 0 }
  let st ← if method = .prim then
      loop .fuel (G.primStep characteristic potential) (n + 1) (st, some u)
    else do
      let q ← heapInsert Q Q.empty u 0
      loop .fuel (G.primStep2 characteristic potential Q u) (n + 1) (st, q)
  return (if st.nExplored < n then characteristic.sign * infFloat else st.sum, st)

/-- The tree and its weight. -/
def primTree (r : ℕ) :
    Except Raise (ℚ × PrimState n m) := do
  let r ← mstRoot "MST_Prim" r
  if characteristic.oneCycle then
    match (G.incidences r).foldl (G.primCycleRead characteristic potential r) (none, none) with
    | (some a1, some a2) =>
      G.primSearch characteristic potential B Q method (G.endNode a1)
        (G.primCycle characteristic potential r a1 a2)
    | _ => .ok (characteristic.sign * infFloat, primInit characteristic)
  else G.primSearch characteristic potential B Q method r (primInit characteristic)

def mstPrim (epsilon : ℚ) (r : ℕ) : Except Raise (ℚ × PrimState n m) := do
  let (sum, st) ← G.primTree characteristic potential B Q method r
  setResult epsilon sum
  return (sum, st)

end

end Prim

end MixedGraph

/-! ## Signs -/

namespace TOptMST

variable (c : TOptMST)

theorem sign_mul_sign : c.sign * c.sign = 1 := by
  rw [sign]
  split <;> norm_num

@[simp] theorem sign_mul_cancel (x : ℚ) : c.sign * (c.sign * x) = x := by
  rw [← mul_assoc, sign_mul_sign, one_mul]

@[simp] theorem sign_mul_neg_cancel (x : ℚ) : c.sign * (-c.sign * x) = -x := by
  rw [neg_mul, mul_neg, sign_mul_cancel]

theorem sign_mul_inj {x y : ℚ} : c.sign * x = c.sign * y ↔ x = y := by
  constructor
  · intro eq
    rw [← c.sign_mul_cancel x, eq, sign_mul_cancel]
  · exact fun eq => eq ▸ rfl

theorem abs_sign_mul (x : ℚ) : |c.sign * x| = |x| := by
  rw [sign]
  split <;> simp

end TOptMST

namespace MixedGraph

section Fields

variable {n m : ℕ} {c : TOptMST} {st : PrimState n m} {u v : Fin n} {x : ℚ} {a : Arc m}

@[simp] theorem primExplore_pred : (primExplore c st u x).pred = st.pred := rfl

@[simp] theorem primExplore_dist_self : (primExplore c st u x).dist u = -c.sign * infFloat :=
  update_self ..

theorem primExplore_dist (other : v ≠ u) : (primExplore c st u x).dist v = st.dist v :=
  update_of_ne other ..

@[simp] theorem primLabel_dist_self : (primLabel st v x a).dist v = x := update_self ..

@[simp] theorem primLabel_pred_self : (primLabel st v x a).pred v = some a :=
  update_self ..

theorem primLabel_dist (other : v ≠ u) : (primLabel st u x a).dist v = st.dist v :=
  update_of_ne other ..

theorem primLabel_pred (other : v ≠ u) : (primLabel st u x a).pred v = st.pred v :=
  update_of_ne other ..

end Fields

variable {n m : ℕ} {G : MixedGraph n m} {c : TOptMST} (potential : Option (Fin n → ℚ)) {r : Fin n}
  {e : Fin m} {a : Arc m} {v u : Fin n} {S : Finset (Fin n)} {F : Finset (Fin m)}
  {order : Fin n → ℕ} {st : PrimState n m}

/-! ## The task -/

/-- The edges that a spanning tree may use. -/
def usable (G : MixedGraph n m) : Finset (Fin m) := Finset.univ.filter fun e => 0 < G.ucap e

theorem mem_usable : e ∈ G.usable ↔ 0 < G.ucap e := by simp [usable]

/-- What is minimised. -/
def mstWeight (G : MixedGraph n m) (c : TOptMST) (e : Fin m) : ℚ := c.sign * G.length e

/-- The lengths are numbers, not the infinite value. -/
def FiniteLengths (G : MixedGraph n m) : Prop := ∀ e, |G.length e| < infFloat

theorem FiniteLengths.weight (finite : G.FiniteLengths) (c : TOptMST) (e : Fin m) :
    -infFloat < G.mstWeight c e ∧ G.mstWeight c e < infFloat := by
  rw [← abs_lt, mstWeight, c.abs_sign_mul]
  exact finite e

theorem mstLength_plain (plain : c.reduced = false) (a : Arc m) :
    G.mstLength c potential a = G.length a.edge := by
  rw [mstLength, plain]
  rfl

theorem linked_arc {S : Set (Fin m)} (mem : a.edge ∈ S) :
    Linked G.toNetwork S (G.src a) (G.dst a) := by
  have joined : Linked G.toNetwork S (G.tail a.edge) (G.head a.edge) := .edge mem
  cases a with
  | mk e back =>
    cases back with
    | false => exact joined
    | true => exact joined.symm

theorem exists_leaving {S : Set (Fin n)} (crosses : Library.Crosses G.toNetwork S e) :
    ∃ a : Arc m, a.edge = e ∧ G.src a ∈ S ∧ G.dst a ∉ S := by
  by_cases tail : G.tail e ∈ S
  · exact ⟨⟨e, false⟩, rfl, tail, fun head => crosses (iff_of_true tail head)⟩
  · refine ⟨⟨e, true⟩, rfl, ?_, tail⟩
    by_contra head
    exact crosses (iff_of_false tail head)

theorem crosses_of_leaving {S : Set (Fin n)} (inside : G.src a ∈ S)
    (out : G.dst a ∉ S) : Library.Crosses G.toNetwork S a.edge := by
  cases a with
  | mk e back =>
    cases back with
    | false => exact fun both => out (both.1 inside)
    | true => exact fun both => out (both.2 inside)

/-! ## The invariant -/

/-- What holds between two arcs of the search. The nodes of `S` have been explored in the given
order, `F` are the edges by which they have been reached, and the arcs of `pending` are still to be
read. -/
structure Grows (G : MixedGraph n m) (c : TOptMST) (r : Fin n) (S : Finset (Fin n))
    (F : Finset (Fin m)) (order : Fin n → ℕ) (pending : List (Arc m)) (st : PrimState n m) :
    Prop where
  count : st.nExplored = S.card
  explored : ∀ v, v ∈ S ↔ st.dist v = -c.sign * infFloat
  rooted : S.Nonempty → r ∈ S
  start : r ∉ S → st.dist r = 0
  rootLabel : st.pred r = none
  label : ∀ v, v ≠ r → st.dist v ≠ c.sign * infFloat → ∃ a, st.pred v = some a ∧
    G.dst a = v ∧ G.src a ∈ S ∧ 0 < G.ucap a.edge
  tight : ∀ v a, v ∉ S → st.pred v = some a → st.dist v = G.length a.edge
  reached : ∀ v a, v ∈ S → st.pred v = some a → a.edge ∈ F ∧ order (G.src a) < order v
  light : ∀ a, G.src a ∈ S → G.dst a ∉ S → 0 < G.ucap a.edge → a ∉ pending →
    c.sign * st.dist (G.dst a) ≤ G.mstWeight c a.edge
  edges : ∀ e ∈ F, ∃ v ∈ S, ∃ a, st.pred v = some a ∧ a.edge = e
  joined : ∀ v ∈ S, Linked G.toNetwork F r v
  ordered : ∀ v ∈ S, order v < S.card
  sum : st.sum = ∑ e ∈ F, G.length e
  promising : Connects G.toNetwork G.usable → Promising G.toNetwork G.usable (G.mstWeight c) F

namespace Grows

variable {S : Finset (Fin n)} {F : Finset (Fin m)} {order : Fin n → ℕ} {pending : List (Arc m)}
  {st : PrimState n m}

theorem init (order : Fin n → ℕ) (G : MixedGraph n m) (c : TOptMST) (r : Fin n) :
    Grows G c r ∅ ∅ order [] { primInit c with dist := update (primInit (m := m) c).dist r 0 } where
  count := rfl
  explored := by
    intro v
    refine iff_of_false (notMem_empty v) fun eq => ?_
    have key := c.sign_mul_inj.2 eq
    have pos := infFloat_pos
    rw [c.sign_mul_neg_cancel] at key
    dsimp only [primInit] at key
    by_cases here : v = r
    · rw [here, update_self] at key
      linarith
    · rw [update_of_ne here, c.sign_mul_cancel] at key
      linarith
  rooted := fun ⟨_, mem⟩ => absurd mem (notMem_empty _)
  start := fun _ => update_self ..
  rootLabel := rfl
  label := by
    intro v other labelled
    refine absurd ?_ labelled
    exact update_of_ne other ..
  tight := fun _ _ _ label => by cases label
  reached := fun v _ mem => absurd mem (notMem_empty v)
  light := fun a inside => absurd inside (notMem_empty _)
  edges := fun e mem => absurd mem (notMem_empty e)
  joined := fun v mem => absurd mem (notMem_empty v)
  ordered := fun v mem => absurd mem (notMem_empty v)
  sum := rfl
  promising := .empty

theorem dist_of_mem (grows : Grows G c r S F order pending st) (mem : v ∈ S) :
    c.sign * st.dist v = -infFloat := by
  rw [(grows.explored v).1 mem, c.sign_mul_neg_cancel]

/-- Nodes that have not been explored and are not the root are labelled by their predecessor. -/
theorem weight_of_label (grows : Grows G c r S F order pending st) (out : v ∉ S)
    (label : st.pred v = some a) : c.sign * st.dist v = G.mstWeight c a.edge := by
  rw [grows.tight v a out label, mstWeight]

theorem inside (grows : Grows G c r S F order pending st) {a : Arc m} (mem : a.edge ∈ F) :
    G.dst a ∈ S ∧ G.src a ∈ S := by
  obtain ⟨v, memberV, b, label, eq⟩ := grows.edges a.edge mem
  have other : v ≠ r := by
    rintro rfl
    rw [grows.rootLabel] at label
    cases label
  have labelled : st.dist v ≠ c.sign * infFloat := by
    intro inf
    have key := grows.dist_of_mem memberV
    rw [inf, c.sign_mul_cancel] at key
    linarith [infFloat_pos]
  obtain ⟨b', label', enters, leaves, -⟩ := grows.label v other labelled
  rw [label] at label'
  cases label'
  rw [← enters] at memberV
  rcases Dart.eq_or_eq_rev eq.symm with rfl | rfl
  · exact ⟨memberV, leaves⟩
  · rw [Network.dst_rev, Network.src_rev]
    exact ⟨leaves, memberV⟩

theorem explore_root (grows : Grows G c r S F order [] st) (out : r ∉ S) :
    Grows G c r (insert r S) F (update order r S.card) (G.incidences r) (primExplore c st r 0) := by
  have none : S = ∅ := not_nonempty_iff_eq_empty.1 fun ne =>
    out (grows.rooted ne)
  subst none
  have noEdges : F = ∅ := eq_empty_of_forall_notMem fun e mem => by
    obtain ⟨v, memberV, -⟩ := grows.edges e mem
    exact notMem_empty v memberV
  subst noEdges
  have only : ∀ v, v ∈ insert r (∅ : Finset (Fin n)) ↔ v = r := by simp
  refine ⟨?_, fun v => ?_, fun _ => by simp, fun absent => absurd (by simp) absent,
    grows.rootLabel, fun v other labelled => ?_, fun v a _ label => ?_, fun v a mem label => ?_,
    fun a leaves _ _ unread => ?_, fun e mem => absurd mem (notMem_empty e),
    fun v mem => ?_, fun v mem => ?_, ?_, grows.promising⟩
  · simp [primExplore, grows.count]
  · rw [only]
    by_cases here : v = r
    · simp [here]
    · rw [primExplore_dist here, ← grows.explored]
      simp [here]
  · rw [primExplore_dist other] at labelled
    obtain ⟨a, -, -, leaves, -⟩ := grows.label v other labelled
    exact absurd leaves (notMem_empty _)
  · have other : v ≠ r := by
      rintro rfl
      rw [primExplore_pred, grows.rootLabel] at label
      cases label
    rw [primExplore_dist other]
    exact grows.tight v a (notMem_empty v) label
  · rw [(only v).1 mem, primExplore_pred, grows.rootLabel] at label
    cases label
  · rw [only] at leaves
    exact absurd ((G.mem_incidences r a).2 leaves) unread
  · rw [(only v).1 mem]
    exact .refl r
  · rw [(only v).1 mem]
    simp
  · rw [primExplore, grows.sum, add_zero]

/-- **A node with a least label is explored.** By the cut rule its edge may be added. -/
theorem explore (grows : Grows G c r S F order [] st) (out : u ∉ S) (label : st.pred u = some a)
    (labelled : st.dist u ≠ c.sign * infFloat)
    (least : ∀ v, v ∉ S → c.sign * st.dist u ≤ c.sign * st.dist v) :
    Grows G c r (insert u S) (insert a.edge F) (update order u S.card) (G.incidences u)
      (primExplore c st u (G.length a.edge)) := by
  have notRoot : u ≠ r := by
    rintro rfl
    rw [grows.rootLabel] at label
    cases label
  obtain ⟨a', label', enters, leaves, capacity⟩ := grows.label u notRoot labelled
  rw [label] at label'
  cases label'
  have rootIn : r ∈ S := grows.rooted ⟨_, leaves⟩
  have leavesNot : G.src a ≠ u := fun eq => out (eq ▸ leaves)
  have new : a.edge ∉ F := fun mem => out (enters ▸ (grows.inside mem).1)
  have crosses : Library.Crosses G.toNetwork (S : Set (Fin n)) a.edge :=
    crosses_of_leaving (mem_coe.2 leaves) fun mem =>
      out (enters ▸ mem_coe.1 mem)
  have larger : (F : Set (Fin m)) ⊆ ((insert a.edge F : Finset (Fin m)) : Set (Fin m)) := by simp
  refine ⟨?_, fun v => ?_, fun _ => mem_insert_of_mem rootIn,
    fun absent => absurd (mem_insert_of_mem rootIn) absent, grows.rootLabel,
    fun v other labelled' => ?_, fun v b absent label' => ?_, fun v b mem label' => ?_,
    fun b leaves' enters' capacity' unread => ?_, fun e mem => ?_, fun v mem => ?_,
    fun v mem => ?_, ?_, fun connects => ?_⟩
  · rw [card_insert_of_notMem out, ← grows.count]
    rfl
  · by_cases here : v = u
    · simp [here]
    · rw [primExplore_dist here, ← grows.explored, mem_insert, or_iff_right here]
  · by_cases here : v = u
    · subst here
      exact ⟨a, label, enters, mem_insert_of_mem leaves, capacity⟩
    · rw [primExplore_dist here] at labelled'
      obtain ⟨b, label', enters', leaves', capacity'⟩ := grows.label v other labelled'
      exact ⟨b, label', enters', mem_insert_of_mem leaves', capacity'⟩
  · rw [mem_insert, not_or] at absent
    rw [primExplore_dist absent.1]
    exact grows.tight v b absent.2 label'
  · by_cases here : v = u
    · rw [here, primExplore_pred, label] at label'
      cases label'
      rw [here, update_self, update_of_ne leavesNot]
      exact ⟨mem_insert_self _ _, grows.ordered _ leaves⟩
    · have old := (mem_insert.1 mem).resolve_left here
      obtain ⟨inTree, earlier⟩ := grows.reached v b old label'
      have leavesOther : G.src b ≠ u := fun eq =>
        out (eq ▸ (grows.inside inTree).2)
      rw [update_of_ne here, update_of_ne leavesOther]
      exact ⟨mem_insert_of_mem inTree, earlier⟩
  · rw [mem_insert, not_or] at enters'
    rw [primExplore_dist enters'.1]
    rcases mem_insert.1 leaves' with here | old
    · exact absurd ((G.mem_incidences u b).2 here) unread
    · exact grows.light b old enters'.2 capacity' (by simp)
  · rcases mem_insert.1 mem with rfl | old
    · exact ⟨u, mem_insert_self u S, a, label, rfl⟩
    · obtain ⟨v, memberV, b, label', eq⟩ := grows.edges e old
      exact ⟨v, mem_insert_of_mem memberV, b, label', eq⟩
  · rcases mem_insert.1 mem with rfl | old
    · have last := linked_arc (G := G) (S := ((insert a.edge F : Finset (Fin m)) : Set (Fin m)))
        (a := a) (by simp)
      rw [enters] at last
      exact ((grows.joined _ leaves).mono larger).trans last
    · exact (grows.joined v old).mono larger
  · rw [card_insert_of_notMem out]
    by_cases here : v = u
    · rw [here, update_self]
      exact Nat.lt_succ_self _
    · rw [update_of_ne here]
      exact (grows.ordered v ((mem_insert.1 mem).resolve_left here)).trans (Nat.lt_succ_self _)
  · rw [sum_insert new, add_comm, ← grows.sum]
    rfl
  · refine (grows.promising connects).grow (fun f mem crosses' => ?_) (mem_usable.2 capacity)
      crosses fun f available crosses' => ?_
    · obtain ⟨b, rfl, -, absent⟩ := exists_leaving crosses'
      exact absent (mem_coe.2 (grows.inside mem).1)
    · obtain ⟨b, rfl, leaves', absent⟩ := exists_leaving crosses'
      rw [← grows.weight_of_label out label]
      exact (least _ absent).trans (grows.light b leaves' absent (mem_usable.1 available) (by simp))

theorem read (grows : Grows G c r S F order (a :: pending) st) (finite : G.FiniteLengths)
    (plain : c.reduced = false) (leaves : G.src a ∈ S) :
    Grows G c r S F order pending (G.primRead c potential st a) := by
  rw [primRead, mstLength_plain _ plain]
  split_ifs with improves
  · obtain ⟨less, capacity⟩ := improves
    have bounds := finite.weight c a.edge
    rw [mstWeight] at bounds
    have out : G.dst a ∉ S := by
      intro mem
      rw [grows.dist_of_mem mem] at less
      linarith
    have notRoot : G.dst a ≠ r := fun isRoot => out (isRoot ▸ grows.rooted ⟨_, leaves⟩)
    refine ⟨grows.count, fun v => ?_, grows.rooted,
      fun absent => absurd (grows.rooted ⟨_, leaves⟩) absent, ?_, fun v other labelled => ?_,
      fun v b absent label => ?_, fun v b mem label => ?_,
      fun b leaves' enters' capacity' unread => ?_, fun e mem => ?_, grows.joined,
      grows.ordered, grows.sum, grows.promising⟩
    · by_cases here : v = G.dst a
      · rw [here, primLabel_dist_self]
        refine iff_of_false out fun eq => ?_
        have key := c.sign_mul_inj.2 eq
        rw [c.sign_mul_neg_cancel] at key
        linarith
      · rw [primLabel_dist here]
        exact grows.explored v
    · rw [primLabel_pred notRoot.symm]
      exact grows.rootLabel
    · by_cases here : v = G.dst a
      · rw [here, primLabel_pred_self]
        exact ⟨a, rfl, rfl, leaves, capacity⟩
      · rw [primLabel_dist here] at labelled
        rw [primLabel_pred here]
        exact grows.label v other labelled
    · by_cases here : v = G.dst a
      · rw [here, primLabel_pred_self] at label
        cases label
        rw [here, primLabel_dist_self]
      · rw [primLabel_pred here] at label
        rw [primLabel_dist here]
        exact grows.tight v b absent label
    · have other : v ≠ G.dst a := fun here => out (here ▸ mem)
      rw [primLabel_pred other] at label
      exact grows.reached v b mem label
    · by_cases here : G.dst b = G.dst a
      · rw [here, primLabel_dist_self]
        by_cases eq : b = a
        · rw [eq, mstWeight]
        · have old := grows.light b leaves' enters' capacity' (by simp [eq, unread])
          rw [here] at old
          exact less.le.trans old
      · rw [primLabel_dist here]
        refine grows.light b leaves' enters' capacity' ?_
        rw [List.mem_cons, not_or]
        exact ⟨fun eq => here (eq ▸ rfl), unread⟩
    · obtain ⟨v, memberV, b, label, eq⟩ := grows.edges e mem
      have other : v ≠ G.dst a := fun here => out (here ▸ memberV)
      refine ⟨v, memberV, b, ?_, eq⟩
      rw [primLabel_pred other]
      exact label
  · refine { grows with light := fun b leaves' enters' capacity' unread => ?_ }
    by_cases eq : b = a
    · subst eq
      rw [mstWeight]
      exact not_lt.1 fun less => improves ⟨less, capacity'⟩
    · exact grows.light b leaves' enters' capacity' (by simp [eq, unread])

end Grows

/-! ## The basic version -/

namespace Grows

variable {S : Finset (Fin n)} {F : Finset (Fin m)} {order : Fin n → ℕ} {st : PrimState n m}

theorem readAll {pending : List (Arc m)} (grows : Grows G c r S F order pending st)
    (finite : G.FiniteLengths) (plain : c.reduced = false) (leave : ∀ a ∈ pending, G.src a ∈ S) :
    Grows G c r S F order [] (pending.foldl (G.primRead c potential) st) := by
  induction pending generalizing st with
  | nil => exact grows
  | cons a pending ih =>
    exact ih (grows.read potential finite plain (leave a mem_cons_self))
      fun b mem => leave b (mem_cons_of_mem a mem)

end Grows

section

variable (c : TOptMST) (S : Finset (Fin n)) (dist : Fin n → ℚ)

/-- A node with a least label among those that have not been explored. -/
def Least (u : Fin n) : Prop :=
  u ∉ S ∧ ∀ v, v ∉ S → c.sign * dist u ≤ c.sign * dist v

/-- The node is least among the nodes of `seen`. There is none if all of these are explored. -/
structure Scanned (seen : List (Fin n))
    (u : Option (Fin n)) : Prop where
  found : ∀ x ∈ u, x ∉ S ∧ ∀ v ∈ seen, v ∉ S → c.sign * dist x ≤ c.sign * dist v
  missing : u = none → ∀ v ∈ seen, v ∈ S

end

section Scan

variable {S : Finset (Fin n)} {dist : Fin n → ℚ} {seen : List (Fin n)} {u : Option (Fin n)}

theorem Scanned.step (scanned : Scanned c S dist seen u)
    (explored : ∀ v, v ∈ S ↔ dist v = -c.sign * infFloat) (w : Fin n) :
    Scanned c S dist (w :: seen) (primBetter c dist u w) := by
  rw [primBetter]
  split_ifs with chosen
  · refine ⟨fun x eq => ?_, fun none => by cases none⟩
    cases eq
    refine ⟨fun inside => chosen.1 ((explored w).1 inside), fun v mem out => ?_⟩
    rcases List.mem_cons.1 mem with rfl | old
    · exact le_rfl
    · cases u with
      | none => exact absurd (scanned.missing rfl v old) out
      | some u' => exact (chosen.2 u' rfl).le.trans ((scanned.found u' rfl).2 v old out)
  · have notBetter : w ∉ S → ¬ ∀ u' ∈ u, c.sign * dist w < c.sign * dist u' :=
      fun out less => chosen ⟨fun done => out ((explored w).2 done), less⟩
    refine ⟨fun x present => ⟨(scanned.found x present).1, fun v mem out => ?_⟩,
      fun none v mem => ?_⟩
    · rcases List.mem_cons.1 mem with rfl | old
      · by_contra less
        refine notBetter out fun u' eq => ?_
        rw [Option.mem_unique eq present]
        exact not_le.1 less
      · exact (scanned.found x present).2 v old out
    · rcases List.mem_cons.1 mem with rfl | old
      · by_contra out
        exact notBetter out (by simp [none])
      · exact scanned.missing none v old

section

variable (explored : ∀ v, v ∈ S ↔ dist v = -c.sign * infFloat)
include explored

theorem Scanned.run (l : List (Fin n))
    (scanned : Scanned c S dist seen u) :
    Scanned c S dist (l.reverse ++ seen) (l.foldl (primBetter c dist) u) := by
  induction l generalizing seen u with
  | nil => exact scanned
  | cons w l ih =>
    rw [reverse_cons, append_assoc]
    exact ih (scanned.step explored w)

theorem primNext_spec :
    (∀ u ∈ primNext c dist, Least c S dist u) ∧ (primNext c dist = none → ∀ v, v ∈ S) := by
  have start : Scanned c S dist [] none := ⟨by simp, by simp⟩
  have scanned := start.run explored (finRange n)
  have all : ∀ v, v ∈ (finRange n).reverse ++ [] := by simp
  refine ⟨fun u mem => ⟨(scanned.found u mem).1, fun v => ?_⟩, fun none v => ?_⟩
  · exact (scanned.found u mem).2 v (all v)
  · exact scanned.missing none v (all v)

end

end Scan

section

variable (G : MixedGraph n m) (c : TOptMST) (r : Fin n)

/-- What holds when the search ends: no usable edge leaves the explored nodes. -/
def Grown (st : PrimState n m) : Prop :=
  ∃ S F order, Grows G c r S F order [] st ∧ r ∈ S ∧ ∀ v, v ∉ S → st.dist v = c.sign * infFloat

/-- What holds between two iterations: the next node has a least label. -/
def PrimInv
    (s : PrimState n m × Option (Fin n)) : Prop :=
  ∃ S F order, Grows G c r S F order [] s.1 ∧ (∀ u ∈ s.2, Least c S s.1.dist u) ∧
    (s.2 = none → ∀ v, v ∈ S)

end

theorem Grows.next (grows : Grows G c r S F order [] st) : PrimInv G c r (st, primNext c st.dist) :=
  ⟨S, F, order, grows, (primNext_spec grows.explored).1, (primNext_spec grows.explored).2⟩

theorem Least.infinite {dist : Fin n → ℚ} (least : Least c S dist u)
    (inf : dist u = c.sign * infFloat) (bounded : ∀ v, c.sign * dist v ≤ infFloat) :
    ∀ v, v ∉ S → dist v = c.sign * infFloat := by
  intro v out
  have le := least.2 v out
  rw [inf, c.sign_mul_cancel] at le
  rw [← c.sign_mul_inj, c.sign_mul_cancel]
  exact le_antisymm (bounded v) le

namespace Grows

variable {S : Finset (Fin n)} {F : Finset (Fin m)} {order : Fin n → ℕ} {pending : List (Arc m)}
  {st : PrimState n m} {u : Fin n}

theorem bounded (grows : Grows G c r S F order pending st) (finite : G.FiniteLengths)
    (v : Fin n) : c.sign * st.dist v ≤ infFloat := by
  have pos := infFloat_pos
  by_cases inside : v ∈ S
  · rw [grows.dist_of_mem inside]
    linarith
  by_cases unlabelled : st.dist v = c.sign * infFloat
  · rw [unlabelled, c.sign_mul_cancel]
  by_cases isRoot : v = r
  · subst isRoot
    rw [grows.start inside, mul_zero]
    exact pos.le
  · obtain ⟨a, label, -⟩ := grows.label v isRoot unlabelled
    rw [grows.weight_of_label inside label]
    exact (finite.weight c a.edge).2.le

theorem root_mem (grows : Grows G c r S F order pending st)
    (inf : ∀ v, v ∉ S → st.dist v = c.sign * infFloat) : r ∈ S := by
  by_contra out
  have key := c.sign_mul_inj.2 (inf r out)
  rw [grows.start out, mul_zero, c.sign_mul_cancel] at key
  exact infFloat_pos.ne key

/-- What the node adds to the weight of the tree is its label. -/
theorem exploreLeast (grows : Grows G c r S F order [] st) (least : Least c S st.dist u)
    (labelled : st.dist u ≠ c.sign * infFloat) :
    ∃ F', Grows G c r (insert u S) F' (update order u S.card) (G.incidences u)
      (primExplore c st u (st.dist u)) := by
  obtain ⟨out, le⟩ := least
  by_cases isRoot : u = r
  · subst isRoot
    rw [grows.start out]
    exact ⟨F, grows.explore_root out⟩
  · obtain ⟨a, label, -⟩ := grows.label u isRoot labelled
    rw [grows.tight u a out label]
    exact ⟨_, grows.explore out label labelled le⟩

theorem nExplored_le (grows : Grows G c r S F order pending st) : st.nExplored ≤ n := by
  rw [grows.count]
  exact (card_le_univ S).trans_eq (Fintype.card_fin n)

end Grows

/-- **The basic version ends** with a tree that cannot grow. -/
theorem primLoop_spec (finite : G.FiniteLengths) (plain : c.reduced = false)
    {s : PrimState n m × Option (Fin n)} (start : PrimInv G c r s) :
    ∃ st, loop .fuel (G.primStep c potential) (n + 1) s = .ok st ∧ Grown G c r st := by
  refine loop_of_measure .fuel (G.primStep c potential) (PrimInv G c r)
    (fun s => n - s.1.nExplored) (Grown G c r) ?_ start (n + 1) (by omega)
  rintro ⟨st, u⟩ ⟨S, F, order, grows, least, complete⟩
  cases u with
  | none => exact .inr ⟨st, rfl, S, F, order, grows, complete rfl r, fun v out =>
    absurd (complete rfl v) out⟩
  | some u =>
    have leastU := least u rfl
    by_cases inf : st.dist u = c.sign * infFloat
    · have unlabelled := leastU.infinite inf (grows.bounded finite)
      refine .inr ⟨st, ?_, S, F, order, grows, grows.root_mem unlabelled, unlabelled⟩
      simp only [primStep, if_pos inf]
    obtain ⟨F', explored⟩ := grows.exploreLeast leastU inf
    have after := explored.readAll potential finite plain fun a mem => by
      rw [(G.mem_incidences u a).1 mem]
      exact mem_insert_self u S
    refine .inl ⟨_, ?_, after.next, ?_⟩
    · simp only [primStep, if_neg inf]
    · have le := after.nExplored_le
      have count := after.count
      rw [card_insert_of_notMem leastU.1, ← grows.count] at count
      dsimp only at le count ⊢
      omega

/-! ## The version with a queue -/

section Heap

variable {Q : MinQueue.{0, 0, 0} (Fin n) ℚ} {S : Finset (Fin n)} {F : Finset (Fin m)}
  {order : Fin n → ℕ} {pending : List (Arc m)} {s : PrimState n m × Q.Carrier}

/-- The labelled nodes that have not been explored are queued. -/
def Queued (Q : MinQueue.{0, 0, 0} (Fin n) ℚ) (c : TOptMST) (S : Finset (Fin n))
    (s : PrimState n m × Q.Carrier) : Prop :=
  ∀ v, Q.keys s.2 v =
    if v ∉ S ∧ s.1.dist v ≠ c.sign * infFloat then some (c.sign * s.1.dist v) else none

theorem Queued.read (queued : Queued Q c S s) (grows : Grows G c r S F order (a :: pending) s.1)
    (finite : G.FiniteLengths) (plain : c.reduced = false) (free : ∀ e, G.lcap e = 0) :
    ∃ q, G.primRead2 c potential Q s a = .ok (G.primRead c potential s.1 a, q) ∧
      Queued Q c S (G.primRead c potential s.1 a, q) := by
  simp only [primRead2, primRead, mstLength_plain _ plain, if_pos (free _)]
  by_cases improves : c.sign * G.length a.edge < c.sign * s.1.dist (G.endNode a) ∧ 0 < G.ucap a.edge
  · simp only [if_pos improves]
    have bounds := finite.weight c a.edge
    rw [mstWeight] at bounds
    have out : G.endNode a ∉ S := by
      intro mem
      have less := improves.1
      rw [grows.dist_of_mem mem] at less
      linarith
    have inf : G.length a.edge ≠ c.sign * infFloat := by
      intro eq
      rw [eq, c.sign_mul_cancel] at bounds
      exact lt_irrefl _ bounds.2
    -- in both cases the node has its new key afterwards
    have after : ∀ q : Q.Carrier, Q.keys q = update (Q.keys s.2) (G.endNode a)
          (some (c.sign * G.length a.edge)) →
        Queued Q c S (primLabel s.1 (G.endNode a) (G.length a.edge) a, q) := by
      intro q keys v
      dsimp only
      rw [keys]
      by_cases here : v = G.endNode a
      · subst here
        rw [update_self, primLabel_dist_self, if_pos ⟨out, inf⟩]
      · rw [update_of_ne here, primLabel_dist here]
        exact queued v
    have key := queued (G.endNode a)
    by_cases unlabelled : s.1.dist (G.endNode a) = c.sign * infFloat
    · rw [if_neg fun both => both.2 unlabelled] at key
      refine ⟨_, ?_, after _ (Q.keys_insert s.2 _ _ key)⟩
      simp only [if_pos unlabelled, heapInsert, key]
      rfl
    · rw [if_pos ⟨out, unlabelled⟩] at key
      refine ⟨_, ?_, after _ (Q.keys_changeKey s.2 _ _ (by simp [key]))⟩
      simp only [if_neg unlabelled, heapChangeKey, key]
      rfl
  · simp only [if_neg improves]
    exact ⟨s.2, rfl, queued⟩

theorem Queued.readAll (queued : Queued Q c S s) (grows : Grows G c r S F order pending s.1)
    (finite : G.FiniteLengths) (plain : c.reduced = false) (free : ∀ e, G.lcap e = 0)
    (leave : ∀ a ∈ pending, G.src a ∈ S) : ∃ q, pending.foldlM (G.primRead2 c potential Q) s =
        .ok (pending.foldl (G.primRead c potential) s.1, q) ∧
      Queued Q c S (pending.foldl (G.primRead c potential) s.1, q) := by
  induction pending generalizing s with
  | nil => exact ⟨s.2, rfl, queued⟩
  | cons a pending ih =>
    obtain ⟨q, res, queued'⟩ :=
      queued.read potential grows finite plain free
    obtain ⟨q', res', queued''⟩ := ih queued'
      (grows.read potential finite plain (leave a mem_cons_self))
      fun b mem => leave b (mem_cons_of_mem a mem)
    refine ⟨q', ?_, queued''⟩
    rw [foldlM_cons, res]
    exact res'

/-- What holds between two iterations of the version with a queue. -/
def HeapInv (G : MixedGraph n m) (c : TOptMST) (r : Fin n) (Q : MinQueue.{0, 0, 0} (Fin n) ℚ)
    (s : PrimState n m × Q.Carrier) : Prop :=
  ∃ S F order, Grows G c r S F order [] s.1 ∧ Queued Q c S s

theorem Queued.least {q : Q.Carrier} (queued : Queued Q c S s)
    (grows : Grows G c r S F order [] s.1) (finite : G.FiniteLengths)
    (taken : Q.delete s.2 = some (u, q)) : Least c S s.1.dist u ∧ s.1.dist u ≠ c.sign * infFloat ∧
      Queued Q c (insert u S) (primExplore c s.1 u (s.1.dist u), q) := by
  obtain ⟨k, key, least, keys⟩ := Q.delete_some s.2 u q taken
  have open' : u ∉ S ∧ s.1.dist u ≠ c.sign * infFloat := by
    by_contra closed
    rw [queued u, if_neg closed] at key
    cases key
  rw [queued u, if_pos open'] at key
  cases key
  refine ⟨⟨open'.1, fun v out => ?_⟩, open'.2, fun v => ?_⟩
  · by_cases unlabelled : s.1.dist v = c.sign * infFloat
    · rw [unlabelled, c.sign_mul_cancel]
      exact grows.bounded finite u
    · exact least v _ ((queued v).trans (if_pos ⟨out, unlabelled⟩))
  · dsimp only
    rw [keys]
    by_cases here : v = u
    · subst here
      rw [update_self, if_neg fun both => both.1 (mem_insert_self v S)]
    · rw [update_of_ne here, primExplore_dist here, queued v]
      simp only [mem_insert, here, false_or]

theorem Grows.weight_eq (grows : Grows G c r S F order [] st) (plain : c.reduced = false)
    (out : u ∉ S) (labelled : st.dist u ≠ c.sign * infFloat) :
    G.primWeight c potential r u st = .ok (st.dist u) := by
  rw [primWeight]
  by_cases isRoot : u = r
  · subst isRoot
    rw [if_neg (not_not.2 rfl), grows.start out]
  · obtain ⟨a, label, -⟩ := grows.label u isRoot labelled
    rw [if_pos isRoot, label, grows.tight u a out label, ← mstLength_plain _ plain a]
    rfl

/-- **The version with a queue ends** with a tree that cannot grow. -/
theorem primLoop2_spec (finite : G.FiniteLengths) (plain : c.reduced = false)
    (free : ∀ e, G.lcap e = 0) (start : HeapInv G c r Q s) :
    ∃ st, loop .fuel (G.primStep2 c potential Q r) (n + 1) s = .ok st ∧ Grown G c r st := by
  refine loop_of_measure .fuel (G.primStep2 c potential Q r) (HeapInv G c r Q)
    (fun s => n - s.1.nExplored) (Grown G c r) ?_ start (n + 1) (by omega)
  rintro s ⟨S, F, order, grows, queued⟩
  cases taken : Q.delete s.2 with
  | none =>
    have unlabelled : ∀ v, v ∉ S → s.1.dist v = c.sign * infFloat := by
      intro v out
      by_contra labelled
      have key := Q.delete_none s.2 taken v
      rw [queued v, if_pos ⟨out, labelled⟩] at key
      cases key
    refine .inr ⟨s.1, ?_, S, F, order, grows, grows.root_mem unlabelled, unlabelled⟩
    simp only [primStep2, taken]
  | some pair =>
    obtain ⟨u, q⟩ := pair
    obtain ⟨least, labelled, queued'⟩ := queued.least grows finite taken
    obtain ⟨F', explored⟩ := grows.exploreLeast least labelled
    have leave : ∀ a ∈ G.incidences u, G.src a ∈ insert u S := fun a mem => by
      rw [(G.mem_incidences u a).1 mem]
      exact mem_insert_self u S
    obtain ⟨q', res, queued''⟩ :=
      queued'.readAll potential explored finite plain free leave
    have after := explored.readAll potential finite plain leave
    refine .inl ⟨_, ?_, ⟨_, _, _, after, queued''⟩, ?_⟩
    · simp only [primStep2, taken]
      rw [grows.weight_eq potential plain least.1 labelled]
      simp only [bind, Except.bind] at res ⊢
      rw [res]
      rfl
    · have le := after.nExplored_le
      have count := after.count
      rw [card_insert_of_notMem least.1, ← grows.count] at count
      dsimp only at le count ⊢
      omega

end Heap

/-! ## The result -/

/-- The edges of the predecessor labels are the tree, and reading them back leads to the root. -/
structure TreeLabels (G : MixedGraph n m) (r : Fin n) (T : Finset (Fin m))
    (pred : Fin n → Option (Arc m)) : Prop where
  root : pred r = none
  enters : ∀ v, v ≠ r → ∃ a, pred v = some a ∧ G.dst a = v
  edges : ∀ e, e ∈ T ↔ ∃ v a, pred v = some a ∧ a.edge = e
  reach : ∀ v, v ≠ r → ∃ p, BackPath pred G.src r v p

/-- What a solver returns: a value and, if there is a spanning tree, one that is optimal and has
this weight. -/
structure Solves (G : MixedGraph n m) (c : TOptMST) (value : ℚ) (Tree : Finset (Fin m) → Prop) :
    Prop where
  connected : Connects G.toNetwork G.usable →
    ∃ T, MinimumTree G.toNetwork G.usable (G.mstWeight c) T ∧ value = ∑ e ∈ T, G.length e ∧ Tree T
  disconnected : ¬ Connects G.toNetwork G.usable → value = c.sign * infFloat

/-- The weight of a best tree is a number of the value range. -/
def BoundedTrees (G : MixedGraph n m) (c : TOptMST) : Prop :=
  ∀ T, MinimumTree G.toNetwork G.usable (G.mstWeight c) T → |∑ e ∈ T, G.length e| ≤ infFloat

theorem Solves.abs_le {value : ℚ} {Tree : Finset (Fin m) → Prop} (solves : Solves G c value Tree)
    (bounded : G.BoundedTrees c) : |value| ≤ infFloat := by
  by_cases connects : Connects G.toNetwork G.usable
  · obtain ⟨T, minimum, rfl, -⟩ := solves.connected connects
    exact bounded T minimum
  · rw [solves.disconnected connects, abs_mul, abs_of_pos infFloat_pos, TOptMST.sign]
    split <;> simp

/-- The explored nodes can be left if and only if some nodes are missing. -/
theorem Grows.not_connects (grows : Grows G c r S F order [] st) (finite : G.FiniteLengths)
    (rootIn : r ∈ S) (unlabelled : ∀ v, v ∉ S → st.dist v = c.sign * infFloat)
    (out : v ∉ S) : ¬ Connects G.toNetwork G.usable := by
  intro connects
  refine out (((connects r v).mem_iff (C := (S : Set (Fin n))) ?_).1 rootIn)
  intro e available crosses
  obtain ⟨a, rfl, leaves, absent⟩ := exists_leaving crosses
  have light := grows.light a leaves absent (mem_usable.1 available) (by simp)
  rw [unlabelled _ absent, c.sign_mul_cancel] at light
  exact absurd (finite.weight c a.edge).2 (not_lt.2 light)

/-- **A tree that cannot grow is optimal, or the graph is disconnected.** -/
theorem Grown.solves (grown : Grown G c r st) (finite : G.FiniteLengths) :
    Solves G c (if st.nExplored < n then c.sign * infFloat else st.sum)
      fun T => TreeLabels G r T st.pred := by
  obtain ⟨S, F, order, grows, rootIn, unlabelled⟩ := grown
  by_cases complete : ∀ v, v ∈ S
  · have all : S = Finset.univ := eq_univ_of_forall complete
    have count : st.nExplored = n := by
      rw [grows.count, all, card_univ, Fintype.card_fin]
    have connects : Connects G.toNetwork (F : Set (Fin m)) := fun x y =>
      (grows.joined x (complete x)).symm.trans (grows.joined y (complete y))
    have available : (F : Set (Fin m)) ⊆ G.usable := by
      intro e mem
      obtain ⟨v, memberV, a, label, rfl⟩ := grows.edges e mem
      have notRoot : v ≠ r := fun isRoot => by
        rw [isRoot, grows.rootLabel] at label
        cases label
      obtain ⟨a', label', -, -, capacity⟩ := grows.label v notRoot fun inf => by
        have key := grows.dist_of_mem memberV
        rw [inf, c.sign_mul_cancel] at key
        linarith [infFloat_pos]
      rw [label] at label'
      cases label'
      exact mem_usable.2 capacity
    have labels : ∀ v, v ≠ r → ∃ a, st.pred v = some a ∧ G.dst a = v := by
      intro v notRoot
      obtain ⟨a, label, enters, -⟩ := grows.label v notRoot fun inf => by
        have key := grows.dist_of_mem (complete v)
        rw [inf, c.sign_mul_cancel] at key
        linarith [infFloat_pos]
      exact ⟨a, label, enters⟩
    have connected : Connects G.toNetwork G.usable := fun x y => (connects x y).mono available
    refine ⟨fun _ => ⟨F, (grows.promising connected).minimumTree connects, ?_, grows.rootLabel,
      labels, fun e => ⟨fun mem => ?_, ?_⟩, fun v notRoot => ?_⟩,
      fun apart => absurd connected apart⟩
    · rw [if_neg (by omega), grows.sum]
    · obtain ⟨v, -, a, label, eq⟩ := grows.edges e mem
      exact ⟨v, a, label, eq⟩
    · rintro ⟨v, a, label, rfl⟩
      exact (grows.reached v a (complete v) label).1
    · refine BackPath.exists_of_rank order (fun _ => True) (fun x _ other => ?_) trivial notRoot
      obtain ⟨a, label, -⟩ := labels x other
      exact ⟨a, label, .inr trivial, (grows.reached x a (complete x) label).2⟩
  · push Not at complete
    obtain ⟨v, out⟩ := complete
    have apart := grows.not_connects finite rootIn unlabelled out
    have less : st.nExplored < n := by
      rw [grows.count]
      exact (card_lt_univ_of_notMem out).trans_eq (Fintype.card_fin n)
    exact ⟨fun connects => absurd connects apart, fun _ => if_pos less⟩

section

variable (B : LowerBounds) (Q : MinQueue.{0, 0, 0} (Fin n) ℚ) (method : TMethMST)

theorem primSearch_spec
    (r : Fin n) (finite : G.FiniteLengths) (plain : c.reduced = false) (free : ∀ e, G.lcap e = 0) :
    ∃ value st, G.primSearch c potential B Q method r (primInit c) = .ok (value, st) ∧
      Solves G c value fun T => TreeLabels G r T st.pred := by
  have init := Grows.init (fun _ => 0) G c r
  rw [primSearch]
  by_cases basic : (if B.uncertain then TMethMST.prim2 else method) = .prim
  · have start : PrimInv G c r
        ({ primInit c with dist := update (primInit (m := m) c).dist r 0 }, some r) := by
      refine ⟨∅, ∅, _, init, fun u eq => ?_, fun none => by cases none⟩
      cases eq
      refine ⟨notMem_empty r, fun v _ => ?_⟩
      by_cases here : v = r
      · rw [here]
      · dsimp only [primInit]
        rw [update_self, update_of_ne here, mul_zero, c.sign_mul_cancel]
        exact infFloat_pos.le
    obtain ⟨st, res, grown⟩ := primLoop_spec potential finite plain start
    refine ⟨_, st, ?_, grown.solves finite⟩
    dsimp only
    rw [if_pos basic, res]
    rfl
  · have key : Q.keys Q.empty r = none := Q.keys_empty r
    have start : HeapInv G c r Q ({ primInit c with dist := update (primInit (m := m) c).dist r 0 },
          Q.insert Q.empty r 0) := by
      refine ⟨∅, ∅, _, init, fun v => ?_⟩
      refine (congrFun (Q.keys_insert _ _ _ key) v).trans ?_
      by_cases here : v = r
      · subst here
        have labelled : (0 : ℚ) ≠ c.sign * infFloat := by
          intro eq
          have signed := c.sign_mul_inj.2 eq
          rw [mul_zero, c.sign_mul_cancel] at signed
          exact infFloat_pos.ne signed
        simp [labelled]
      · simp [here, Q.keys_empty, primInit]
    obtain ⟨st, res, grown⟩ := primLoop2_spec potential finite plain free start
    refine ⟨_, st, ?_, grown.solves finite⟩
    dsimp only
    rw [if_neg basic, heapInsert, key]
    change (loop .fuel (G.primStep2 c potential Q r) (n + 1) _ >>= _ : Except Raise _) = _
    rw [res]
    rfl

/-- **`MST_Prim` solves the task**, in both versions. -/
theorem mstPrim_spec
    {root : ℕ} (rooted : mstRoot "MST_Prim" root = .ok r) (finite : G.FiniteLengths)
    (plain : c.reduced = false) (tree : c.oneCycle = false) (free : ∀ e, G.lcap e = 0)
    {epsilon : ℚ} (nonneg : 0 ≤ epsilon) (bounded : G.BoundedTrees c) :
    ∃ val st, G.mstPrim c potential B Q method epsilon root = .ok (val, st) ∧
      Solves G c val fun T => TreeLabels G r T st.pred := by
  obtain ⟨val, st, res, solves⟩ :=
    primSearch_spec potential B Q method r finite plain free
  refine ⟨val, st, ?_, solves⟩
  have found : G.primTree c potential B Q method root = .ok (val, st) := by
    rw [primTree, rooted]
    change (if c.oneCycle = true then _ else _) = _
    rw [tree]
    exact res
  rw [mstPrim, found]
  change (setResult epsilon val >>= fun _ => pure (val, st) : Except Raise _) = _
  rw [setResult_ok nonneg (solves.abs_le bounded)]
  rfl

end

end MixedGraph

end Goblin
