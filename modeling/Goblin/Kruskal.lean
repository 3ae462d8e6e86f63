import Goblin.DisjointFamily
import Goblin.Prim

/-!
# Spanning trees from sorted edges

`MST_Kruskal` takes the edges from a priority queue and adds every edge to the subgraph whose end
nodes are in different sets of the node partition. Edges with a positive lower bound come first,
without any regard to their lengths. With `MST_ONE_CYCLE`, the root is left out and two edges
connect it to the tree at the end.

The sets of the partition are the components of the subgraph (`Collects`), and `Transversal` relates
their number to the number of edges, by which the loop decides when the tree is complete.
-/

set_option autoImplicit false

namespace Goblin

open Library List Finset Function DisjointFamily

variable {k : ℚ}

/-- The node partition, the subgraph, its weight and the number of its edges. -/
structure KruskalState (n m : ℕ) where
  partition : DisjointFamily
  sub : Fin m → ℚ
  sum : ℚ
  rank : ℕ

namespace MixedGraph

variable {n m : ℕ} (G : MixedGraph n m)

/-! ## Subgraphs -/

/-- The amounts that `SetSub` and `SetSubRelative` reject. -/
def SubOutOfRange (sub : Fin m → ℚ) (e : Fin m) (multiplicity : ℚ) : Prop :=
  (0 < sub e ∧ |multiplicity| < G.lcap e) ∨ (G.ucap e < infCap ∧ G.ucap e < |multiplicity|)

instance (sub : Fin m → ℚ) (e : Fin m) (multiplicity : ℚ) :
    Decidable (G.SubOutOfRange sub e multiplicity) :=
  inferInstanceAs (Decidable (_ ∨ _))

/-- The assignment that `SetSub` and `SetSubRelative` have in common. -/
def assignSub (method : String) (sub : Fin m → ℚ) (e : Fin m) (multiplicity : ℚ) :
    Except Raise (Fin m → ℚ) :=
  if G.SubOutOfRange sub e multiplicity then .error (.rejected method "Amount out of range")
  else .ok (update sub e multiplicity)

section

variable (sub : Fin m → ℚ)

def setSub (e : Fin m) (multiplicity : ℚ) : Except Raise (Fin m → ℚ) :=
  G.assignSub "SetSub" sub e multiplicity

def setSubRelative (e : Fin m) (lambda : ℚ) : Except Raise (Fin m → ℚ) :=
  G.assignSub "SetSubRelative" sub e (sub e + lambda)

def initSubgraph : Except Raise (Fin m → ℚ) :=
  (finRange m).foldlM (fun sub e => G.setSub sub e (G.lcap e)) sub

end

/-! ## The node partition -/

/-- A call of the node partition. -/
def onPartition {α : Type} (call : FamilyM α) (st : KruskalState n m) :
    Except Raise (α × KruskalState n m) :=
  match call st.partition with
  | .ok a partition => .ok (a, { st with partition := partition })
  | .error e _ => .error e

section Kruskal

variable (characteristic : TOptMST) (potential : Option (Fin n → ℚ)) (CT : FamilyContext)

/-- `InitPartition`, and `Bud` for all nodes. Nothing is known of the former ranks. -/
def kruskalPartition (ranks : ℕ → ℕ) : Except Raise DisjointFamily :=
  match (List.range n).forM (bud CT) (new n ranks) with
  | .ok _ partition => .ok partition
  | .error e _ => .error e

section

variable (e : Fin m) (st : KruskalState n m)

/-- `Find` for both end nodes of an edge -/
def kruskalFind :
    Except Raise ((ℕ × ℕ) × KruskalState n m) := do
  let (Bu, st) ← onPartition (find CT (G.tail e)) st
  let (Bv, st) ← onPartition (find CT (G.head e)) st
  return ((Bu, Bv), st)

/-- The sets of both end nodes are merged. -/
def kruskalMerge : Except Raise (KruskalState n m) := do
  let (_, st) ← onPartition (merge CT (G.tail e) (G.head e)) st
  return { st with
    sum := st.sum + G.mstLength characteristic potential ⟨e, false⟩
    rank := st.rank + 1 }

end

/-- The loop over the edges with a positive lower bound. The result tells if these have a cycle. -/
def kruskalFixed (r : Fin n) : List (Fin m) → KruskalState n m →
    Except Raise (Bool × KruskalState n m)
  | [], st => .ok (false, st)
  | e :: l, st =>
    if 0 < G.lcap e ∧ (characteristic.oneCycle = false ∨ (G.tail e ≠ r ∧ G.head e ≠ r)) then do
      let ((Bu, Bv), st) ← G.kruskalFind CT e st
      if Bu = Bv then return (true, st)
      else do
        let st ← G.kruskalMerge characteristic potential CT e st
        kruskalFixed r l st
    else kruskalFixed r l st

/-- This loop is skipped if all lower bounds are known to be zero. -/
def kruskalMandatory (B : LowerBounds) (r : Fin n) (st : KruskalState n m) :
    Except Raise (Bool × KruskalState n m) :=
  if B.uncertain then G.kruskalFixed characteristic potential CT r (finRange m) st
  else .ok (false, st)

variable (Q : MinQueue.{0, 0, 0} (Fin m) ℚ)

/-- The edges that are available are queued. -/
def kruskalQueue : Except Raise Q.Carrier :=
  (finRange m).foldlM (fun q e =>
    if G.length e ≠ characteristic.sign * infFloat ∧ 0 < G.ucap e then
      heapInsert Q q e (characteristic.sign * G.mstLength characteristic potential ⟨e, false⟩)
    else .ok q) Q.empty

/-- The edge connects two sets of the partition. -/
def kruskalAccepts (r : Fin n) (e : Fin m) (Bu Bv : ℕ) : Prop :=
  (characteristic.oneCycle = false ∧ Bu ≠ Bv) ∨
    (characteristic.oneCycle = true ∧ Bu ≠ Bv ∧ Bu ≠ r ∧ Bv ≠ r ∧ 0 < G.ucap e)

instance (r : Fin n) (e : Fin m) (Bu Bv : ℕ) :
    Decidable (G.kruskalAccepts characteristic r e Bu Bv) :=
  inferInstanceAs (Decidable (_ ∨ _))

/-- One iteration of the main loop. -/
def kruskalStep (r : Fin n) (s : KruskalState n m × Q.Carrier) :
    Except Raise ((KruskalState n m × Q.Carrier) ⊕ KruskalState n m) :=
  match Q.delete s.2 with
  | none => .ok (.inr s.1)
  | some (e, q) =>
    if s.1.rank < n - 1 then do
      let ((Bu, Bv), st) ← G.kruskalFind CT e s.1
      if G.kruskalAccepts characteristic r e Bu Bv then do
        let st ← G.kruskalMerge characteristic potential CT e st
        let sub ← G.setSubRelative st.sub e 1
        return .inl ({ st with sub := sub }, q)
      else return .inl (st, q)
    else .ok (.inr s.1)

/-! ## The two edges at the root of a 1-cycle tree -/

/-- One arc of the search for the two shortest arcs. -/
def kruskalCycleRead (r : Fin n) (s : Option (Arc m) × Option (Arc m)) (a : Arc m) :
    Option (Arc m) × Option (Arc m) :=
  let better (b : Arc m) : Prop :=
    characteristic.sign * G.mstLength characteristic potential a <
      characteristic.sign * G.mstLength characteristic potential b
  if G.endNode a ≠ r ∧ 0 < G.ucap a.edge then
    if s.1 = none ∨ ∃ b ∈ s.1, better b then (some a, s.1)
    else if s.2 = none ∨ ∃ b ∈ s.2, better b then (s.1, some a)
    else s
  else s

/-- One arc of the search for arcs with a positive lower bound, which are counted. -/
def kruskalFixedRead (s : (Option (Arc m) × Option (Arc m)) × ℕ) (a : Arc m) :
    (Option (Arc m) × Option (Arc m)) × ℕ :=
  if 0 < G.lcap a.edge ∧ s.1.1 ≠ some a ∧ s.1.2 ≠ some a then ((some a, s.1.1), s.2 + 1) else s

/-- An arc is added to the subgraph, unless it is there. -/
def kruskalAdd (sub : Fin m → ℚ) (a : Arc m) : Except Raise (Fin m → ℚ) :=
  if sub a.edge = 0 then G.setSub sub a.edge 1 else .ok sub

/-- The last part: the root is connected by two arcs. `n - 2` is a difference of unsigned
numbers. -/
def kruskalCycle (r : Fin n) (st : KruskalState n m) : Except Raise (ℚ × KruskalState n m) :=
  if st.rank < (n + 2 ^ 64 - 2) % 2 ^ 64 then .ok (characteristic.sign * infFloat, st)
  else
    let found := (G.incidences r).foldl (G.kruskalCycleRead characteristic potential r) (none, none)
    let s := (G.incidences r).foldl G.kruskalFixedRead (found, 0)
    if 2 < s.2 then .ok (characteristic.sign * infFloat, st)
    else match s.1 with
      | (some a1, some a2) => do
        let sub ← G.kruskalAdd st.sub a1
        let sub ← G.kruskalAdd sub a2
        let sum := st.sum + (G.mstLength characteristic potential a1 +
          G.mstLength characteristic potential a2)
        return (sum, { st with sub := sub, sum := sum, rank := st.rank + 2 })
      | _ => .ok (characteristic.sign * infFloat, st)

/-- The tree and its weight. -/
def kruskalTree (B : LowerBounds) (ranks : ℕ → ℕ) (sub : Fin m → ℚ) (r : ℕ) :
    Except Raise (ℚ × KruskalState n m) := do
  let r ← mstRoot "MST_Kruskal" r
  let sub ← G.initSubgraph sub
  let partition ← kruskalPartition (n := n) CT ranks
  let (cyclic, st) ← G.kruskalMandatory characteristic potential CT B r ⟨partition, sub, 0, 0⟩
  if cyclic then return (characteristic.sign * infFloat, st)
  else do
    let q ← G.kruskalQueue characteristic potential Q
    let st ← loop .fuel (G.kruskalStep characteristic potential CT Q r) (m + 1) (st, q)
    if characteristic.oneCycle then G.kruskalCycle characteristic potential r st
    else if st.rank < n - 1 then return (characteristic.sign * infFloat, st)
    else return (st.sum, st)

def mstKruskal (B : LowerBounds) (epsilon : ℚ) (ranks : ℕ → ℕ) (sub : Fin m → ℚ) (r : ℕ) :
    Except Raise (ℚ × KruskalState n m) := do
  let (sum, st) ← G.kruskalTree characteristic potential CT Q B ranks sub r
  setResult epsilon sum
  return (sum, st)

end Kruskal

end MixedGraph

namespace MixedGraph

variable {n m : ℕ} {G : MixedGraph n m} {c : TOptMST} (potential : Option (Fin n → ℚ))
  (CT : FamilyContext) {Q : MinQueue.{0, 0, 0} (Fin m) ℚ} {F : Finset (Fin m)}
  {st : KruskalState n m} {e : Fin m}

/-! ## The partition into components -/

/-- The end nodes of the edges, as items of the partition. -/
def pairs (G : MixedGraph n m) (F : Finset (Fin m)) (p q : ℕ) : Prop :=
  ∃ e ∈ F, (G.tail e : ℕ) = p ∧ (G.head e : ℕ) = q

theorem eqvGen_pairs {u v : Fin n} :
    Relation.EqvGen (G.pairs F) u v ↔ Linked G.toNetwork (F : Set (Fin m)) u v := by
  constructor
  · intro related
    have nodes : ∀ p q, Relation.EqvGen (G.pairs F) p q → p = q ∨
        ∃ x y : Fin n, (x : ℕ) = p ∧ (y : ℕ) = q ∧ Linked G.toNetwork (F : Set (Fin m)) x y := by
      intro p q related
      induction related with
      | rel p q pair =>
        obtain ⟨e, mem, tail, head⟩ := pair
        exact .inr ⟨_, _, tail, head, .edge mem⟩
      | refl p => exact .inl rfl
      | symm p q _ ih =>
        rcases ih with eq | ⟨x, y, atX, atY, joined⟩
        · exact .inl eq.symm
        · exact .inr ⟨y, x, atY, atX, joined.symm⟩
      | trans p q z _ _ ih ih' =>
        rcases ih with rfl | ⟨x, y, atX, atY, joined⟩
        · exact ih'
        · rcases ih' with rfl | ⟨y', z', atY', atZ, joined'⟩
          · exact .inr ⟨x, y, atX, atY, joined⟩
          · obtain rfl : y = y' := Fin.ext (atY.trans atY'.symm)
            exact .inr ⟨x, z', atX, atZ, joined.trans joined'⟩
    rcases nodes u v related with eq | ⟨x, y, atX, atY, joined⟩
    · exact Fin.ext eq ▸ .refl u
    · obtain rfl : x = u := Fin.ext atX
      obtain rfl : y = v := Fin.ext atY
      exact joined
  · intro joined
    refine joined.rec (R := fun x y : Fin n => Relation.EqvGen (G.pairs F) x y)
      ⟨fun x => .refl _, .symm _ _, .trans _ _ _⟩ fun e mem => ?_
    exact .rel _ _ ⟨e, mem, rfl, rfl⟩

theorem pairs_insert (e : Fin m) :
    G.pairs (insert e F) = fun p q => G.pairs F p q ∨ (p = G.tail e ∧ q = G.head e) := by
  funext p q
  simp only [pairs, exists_mem_insert, eq_iff_iff]
  rw [or_comm, @eq_comm _ p, @eq_comm _ q]

/-- The sets of the partition are the components of the edges. -/
structure Components (G : MixedGraph n m) (F : Finset (Fin m)) (partition : DisjointFamily) :
    Prop where
  represents : partition.Represents (G.pairs F)
  budded : ∀ v : Fin n, partition.B v ≠ none

theorem Components.compressed {partition partition' : DisjointFamily}
    (components : Components G F partition)
    (compressed : Compressed partition partition') :
    Components G F partition' :=
  ⟨components.represents.compressed compressed, fun v absent =>
    components.budded v (compressed.shortens.none_iff.1 absent)⟩

theorem kruskalPartition_spec (ranks : ℕ → ℕ) :
    ∃ partition, kruskalPartition (n := n) CT ranks = .ok partition ∧ Components G ∅ partition := by
  have buds : ∀ k ≤ n, ∃ st, (List.range k).forM (bud CT) (new n ranks) = .ok () st ∧
      st.Represents (G.pairs ∅) ∧ st.n = n ∧ ∀ v, st.B v ≠ none ↔ v < k := by
    intro k
    induction k with
    | zero =>
      refine fun _ => ⟨_, rfl, ⟨new_valid n ranks, ⟨?_, ?_⟩⟩, rfl, ?_⟩
      · rintro x y ⟨w, leads, -⟩
        exact absurd rfl leads.ne_none
      · rintro x y ⟨e, mem, -⟩
        exact absurd mem (notMem_empty e)
      · exact fun v => iff_of_false (fun defined => defined rfl) (Nat.not_lt_zero v)
    | succ k ih =>
      intro le
      obtain ⟨st, res, rep, count, defined⟩ := ih (by omega)
      have fresh : st.B k = none := by
        by_contra present
        exact lt_irrefl k ((defined k).1 present)
      obtain ⟨st', res', rep', count', defined'⟩ :=
        bud_spec CT rep (by omega) fresh
      refine ⟨st', ?_, rep', count'.trans count, fun v => ?_⟩
      · rw [range_succ, run_forM_append res]
        change (bud CT k >>= fun _ => pure () : FamilyM Unit) st = _
        rw [run_bind_ok res']
        rfl
      · rw [defined', defined]
        omega
  obtain ⟨st, res, rep, -, defined⟩ := buds n le_rfl
  refine ⟨st, ?_, rep, fun v => (defined v).2 v.isLt⟩
  simp only [kruskalPartition, res]

theorem kruskalFind_spec (e : Fin m) (components : Components G F st.partition) :
    ∃ Bu Bv partition, G.kruskalFind CT e st = .ok ((Bu, Bv), { st with partition := partition }) ∧
      Components G F partition ∧
      (Bu = Bv ↔ Linked G.toNetwork (F : Set (Fin m)) (G.tail e) (G.head e)) := by
  obtain ⟨Bu, first, found, leadsU, compressed⟩ :=
    find_spec CT components.represents.valid (components.budded (G.tail e))
  have components1 := components.compressed compressed
  obtain ⟨Bv, second, found', leadsV, compressed'⟩ :=
    find_spec CT components1.represents.valid (components1.budded (G.head e))
  refine ⟨Bu, Bv, second, ?_, components1.compressed compressed', ?_⟩
  · simp only [kruskalFind, onPartition, found, bind, Except.bind, found']
    rfl
  · have leadsU' := compressed.shortens.leads leadsU
    rw [← eqvGen_pairs, ← components1.represents.partitions.sameSet_iff leadsU']
    constructor
    · rintro rfl
      exact ⟨Bu, leadsU', leadsV⟩
    · rintro ⟨w, atU, atV⟩
      exact (leadsU'.unique atU).trans (leadsV.unique atV).symm

theorem kruskalMerge_spec (e : Fin m) (st : KruskalState n m)
    (components : Components G F st.partition) (plain : c.reduced = false) :
    ∃ partition, G.kruskalMerge c potential CT e st =
        .ok ⟨partition, st.sub, st.sum + G.length e, st.rank + 1⟩ ∧
      Components G (insert e F) partition := by
  obtain ⟨partition, res, rep, -, defined⟩ :=
    merge_spec CT components.represents (components.budded (G.tail e))
      (components.budded (G.head e))
  refine ⟨partition, ?_, ?_, fun v => (defined v).2 (components.budded v)⟩
  · simp only [kruskalMerge, onPartition, res, mstLength_plain _ plain]
    rfl
  · rw [pairs_insert]
    exact rep

/-! ## The subgraph -/

/-- The edges of the set have the multiplicity one, the others zero. -/
def SubgraphOf (T : Finset (Fin m)) (sub : Fin m → ℚ) : Prop :=
  ∀ e, sub e = if e ∈ T then 1 else 0

theorem initSubgraph_spec (free : ∀ e, G.lcap e = 0) (sub : Fin m → ℚ) :
    ∃ sub', G.initSubgraph sub = .ok sub' ∧ SubgraphOf ∅ sub' := by
  have run : ∀ (l : List (Fin m)) (sub : Fin m → ℚ), ∃ sub',
      l.foldlM (fun sub e => G.setSub sub e (G.lcap e)) sub = .ok sub' ∧
        ∀ e, sub' e = if e ∈ l then 0 else sub e := by
    intro l
    induction l with
    | nil => exact fun sub => ⟨sub, rfl, fun e => by simp⟩
    | cons x l ih =>
      intro sub
      obtain ⟨sub', res, values⟩ := ih (update sub x 0)
      have range : ¬ G.SubOutOfRange sub x 0 := by
        rw [SubOutOfRange, free x, abs_zero]
        rintro (⟨-, less⟩ | ⟨-, less⟩)
        · exact lt_irrefl _ less
        · exact absurd (G.ucap_nonneg x) (not_le.2 less)
      refine ⟨sub', ?_, fun e => ?_⟩
      · rw [foldlM_cons, free x, setSub, assignSub, if_neg range]
        exact res
      · rw [values e]
        by_cases here : e = x
        · simp [here]
        · simp [here]
  obtain ⟨sub', res, values⟩ := run (finRange m) sub
  exact ⟨sub', res, fun e => by simp [values e]⟩

theorem SubgraphOf.add {sub : Fin m → ℚ} (subgraph : SubgraphOf F sub) (new : e ∉ F)
    (unit : G.ucap e = 1) :
    ∃ sub', G.setSubRelative sub e 1 = .ok sub' ∧ SubgraphOf (insert e F) sub' := by
  have zero : sub e = 0 := (subgraph e).trans (if_neg new)
  have range : ¬ G.SubOutOfRange sub e 1 := by
    rw [SubOutOfRange, zero, unit, abs_one]
    rintro (⟨less, -⟩ | ⟨-, less⟩)
    · exact lt_irrefl _ less
    · exact lt_irrefl _ less
  refine ⟨update sub e 1, ?_, fun x => ?_⟩
  · rw [setSubRelative, zero, zero_add, assignSub, if_neg range]
  · by_cases here : x = e
    · simp [here]
    · simp [here, subgraph x]

/-! ## The main loop -/

theorem kruskalQueue_spec (finite : G.FiniteLengths) (plain : c.reduced = false) :
    ∃ q, G.kruskalQueue c potential Q = .ok q ∧
      ∀ e, Q.keys q e = if e ∈ G.usable then some (G.mstWeight c e) else none := by
  have run : ∀ (l : List (Fin m)) (q : Q.Carrier), l.Nodup → (∀ e ∈ l, Q.keys q e = none) →
      ∃ q', l.foldlM (fun q e =>
        if G.length e ≠ c.sign * infFloat ∧ 0 < G.ucap e then
          heapInsert Q q e (c.sign * G.mstLength c potential ⟨e, false⟩)
        else .ok q) q = .ok q' ∧
        ∀ e, Q.keys q' e = if e ∈ l ∧ e ∈ G.usable then some (G.mstWeight c e) else Q.keys q e := by
    intro l
    induction l with
    | nil => exact fun q _ _ => ⟨q, rfl, fun e => by simp⟩
    | cons x l ih =>
      intro q nodup absent
      obtain ⟨fresh, nodup⟩ := nodup_cons.1 nodup
      have number : G.length x ≠ c.sign * infFloat := by
        intro eq
        have less := (finite.weight c x).2
        rw [mstWeight, eq, c.sign_mul_cancel] at less
        exact lt_irrefl _ less
      have keyX := absent x mem_cons_self
      by_cases available : 0 < G.ucap x
      · have keys := Q.keys_insert q x (c.sign * G.length x) keyX
        have absent' : ∀ e ∈ l, Q.keys (Q.insert q x (c.sign * G.length x)) e = none := by
          intro e mem
          have other : e ≠ x := fun eq => fresh (eq ▸ mem)
          rw [keys, update_of_ne other]
          exact absent e (mem_cons_of_mem x mem)
        obtain ⟨q', res, after⟩ := ih _ nodup absent'
        refine ⟨q', ?_, fun e => ?_⟩
        · rw [foldlM_cons, if_pos ⟨number, available⟩, mstLength_plain _ plain, heapInsert, keyX]
          exact res
        · rw [after e, keys]
          by_cases here : e = x
          · subst here
            simp [fresh, mem_usable, available, mstWeight]
          · simp [here]
      · obtain ⟨q', res, after⟩ := ih q nodup fun e mem =>
          absent e (mem_cons_of_mem x mem)
        refine ⟨q', ?_, fun e => ?_⟩
        · rw [foldlM_cons, if_neg fun both => available both.2]
          exact res
        · rw [after e]
          by_cases here : e = x
          · subst here
            simp [mem_usable, available]
          · simp [here]
  obtain ⟨q, res, keys⟩ := run (finRange m) Q.empty (nodup_finRange m) fun e _ => Q.keys_empty e
  exact ⟨q, res, fun e => by simp [keys e, Q.keys_empty]⟩

section

variable (G : MixedGraph n m) (c : TOptMST) (Q : MinQueue.{0, 0, 0} (Fin m) ℚ)

/-- The edges `F` have been collected. The queue holds usable edges, and the other ones have been
settled: their end nodes are joined. -/
structure Collects
    (F : Finset (Fin m)) (s : KruskalState n m × Q.Carrier) : Prop where
  components : Components G F s.1.partition
  subgraph : SubgraphOf F s.1.sub
  sum : s.1.sum = ∑ e ∈ F, G.length e
  rank : s.1.rank = F.card
  available : F ⊆ G.usable
  count : ∃ R, Transversal G.toNetwork (F : Set (Fin m)) R ∧ R.card + F.card = n
  promising : Connects G.toNetwork G.usable → Promising G.toNetwork G.usable (G.mstWeight c) F
  queued : ∀ e k, Q.keys s.2 e = some k → e ∈ G.usable ∧ k = G.mstWeight c e
  settled : ∀ e ∈ G.usable, Q.keys s.2 e = none →
    Linked G.toNetwork (F : Set (Fin m)) (G.tail e) (G.head e)

/-- What holds when the loop ends. -/
def Collected
    (st : KruskalState n m) : Prop :=
  ∃ F q, Collects G c Q F (st, q) ∧ (n - 1 ≤ st.rank ∨ ∀ e, Q.keys q e = none)

end

namespace Collects

variable {s : KruskalState n m × Q.Carrier} {e : Fin m} {q : Q.Carrier}

/-- The edge is dropped because its end nodes are joined. -/
theorem drop (collects : Collects G c Q F s) {partition : DisjointFamily}
    (components : Components G F partition)
    (keys : Q.keys q = update (Q.keys s.2) e none)
    (joined : Linked G.toNetwork (F : Set (Fin m)) (G.tail e) (G.head e)) :
    Collects G c Q F ({ s.1 with partition := partition }, q) := by
  refine { collects with
    components := components
    queued := fun f k key => ?_
    settled := fun f available key => ?_ }
  · rw [keys] at key
    by_cases here : f = e
    · rw [here, update_self] at key
      cases key
    · rw [update_of_ne here] at key
      exact collects.queued f k key
  · by_cases here : f = e
    · rw [here]
      exact joined
    · rw [keys, update_of_ne here] at key
      exact collects.settled f available key

/-- **An edge between two components is collected.** It is a lightest one among the edges that
leave the component of its tail. -/
theorem add (collects : Collects G c Q F s) (components : Components G (insert e F) st.partition)
    (subgraph : SubgraphOf (insert e F) st.sub) (sum : st.sum = s.1.sum + G.length e)
    (rank : st.rank = s.1.rank + 1) (key : Q.keys s.2 e = some k)
    (least : ∀ f k', Q.keys s.2 f = some k' → k ≤ k') (keys : Q.keys q = update (Q.keys s.2) e none)
    (apart : ¬ Linked G.toNetwork (F : Set (Fin m)) (G.tail e) (G.head e)) :
    Collects G c Q (insert e F) (st, q) := by
  obtain ⟨usable, rfl⟩ := collects.queued e k key
  have new : e ∉ F := fun mem => apart (.edge mem)
  obtain ⟨R, transversal, cards⟩ := collects.count
  obtain ⟨R', transversal', less⟩ := transversal.insert apart
  have larger : (F : Set (Fin m)) ⊆ ((insert e F : Finset (Fin m)) : Set (Fin m)) := by simp
  refine ⟨components, subgraph, ?_, ?_, insert_subset usable collects.available,
    ⟨R', ?_, ?_⟩, fun connects => ?_, fun f k' key' => ?_, fun f available key' => ?_⟩
  · rw [sum_insert new, add_comm, ← collects.sum]
    exact sum
  · rw [card_insert_of_notMem new, ← collects.rank]
    exact rank
  · rw [coe_insert]
    exact transversal'
  · rw [card_insert_of_notMem new]
    omega
  · let C : Set (Fin n) := {x | Linked G.toNetwork (F : Set (Fin m)) (G.tail e) x}
    have inside : ∀ f, Linked G.toNetwork (F : Set (Fin m)) (G.tail f) (G.head f) →
        ¬ Library.Crosses G.toNetwork C f := fun f joined crosses =>
      crosses ⟨fun tail => Linked.trans tail joined, fun head => Linked.trans head joined.symm⟩
    refine (collects.promising connects).grow (C := C) (fun f mem => inside f (.edge mem))
      usable (fun eq => apart (eq.1 (.refl _))) fun f available crosses => ?_
    cases keyF : Q.keys s.2 f with
    | none => exact absurd crosses (inside f (collects.settled f available keyF))
    | some k' =>
      rw [← (collects.queued f k' keyF).2]
      exact least f k' keyF
  · rw [keys] at key'
    by_cases here : f = e
    · rw [here, update_self] at key'
      cases key'
    · rw [update_of_ne here] at key'
      exact collects.queued f k' key'
  · by_cases here : f = e
    · rw [here]
      exact .edge (by simp)
    · rw [keys, update_of_ne here] at key'
      exact (collects.settled f available key').mono larger

end Collects

/-- The number of queued edges. -/
noncomputable def queueSize (Q : MinQueue.{0, 0, 0} (Fin m) ℚ) (q : Q.Carrier) : ℕ :=
  (Finset.univ.filter fun e => (Q.keys q e).isSome).card

theorem queueSize_delete {q q' : Q.Carrier} (key : Q.keys q e = some k)
    (keys : Q.keys q' = update (Q.keys q) e none) : queueSize Q q' < queueSize Q q := by
  refine card_lt_card (ssubset_iff.2 ⟨e, ?_, fun f mem => ?_⟩)
  · simp [keys]
  · rw [Finset.mem_filter]
    refine ⟨Finset.mem_univ f, ?_⟩
    rcases Finset.mem_insert.1 mem with rfl | old
    · simp [key]
    · have present := (Finset.mem_filter.1 old).2
      rw [keys] at present
      by_cases here : f = e
      · simp [here] at present
      · rwa [update_of_ne here] at present

/-- **The main loop ends** with all edges settled or a complete tree. -/
theorem kruskalLoop_spec (r : Fin n) (plain : c.reduced = false) (tree : c.oneCycle = false)
    (unit : ∀ e, G.ucap e = 0 ∨ G.ucap e = 1) {s : KruskalState n m × Q.Carrier}
    (start : ∃ F, Collects G c Q F s) :
    ∃ st, loop .fuel (G.kruskalStep c potential CT Q r) (m + 1) s = .ok st ∧
      Collected G c Q st := by
  have size : queueSize Q s.2 < m + 1 :=
    Nat.lt_succ_of_le ((card_le_univ _).trans_eq (Fintype.card_fin m))
  refine loop_of_measure .fuel (G.kruskalStep c potential CT Q r) (fun s => ∃ F, Collects G c Q F s)
    (fun s => queueSize Q s.2) (Collected G c Q) ?_ start (m + 1) size
  rintro s ⟨F, collects⟩
  cases taken : Q.delete s.2 with
  | none =>
    refine .inr ⟨s.1, ?_, F, s.2, collects, .inr (Q.delete_none s.2 taken)⟩
    simp only [kruskalStep, taken]
  | some pair =>
    obtain ⟨e, q⟩ := pair
    obtain ⟨k, key, least, keys⟩ := Q.delete_some s.2 e q taken
    by_cases incomplete : s.1.rank < n - 1
    · obtain ⟨Bu, Bv, partition, found, components, eq⟩ :=
        kruskalFind_spec CT e collects.components
      by_cases joined : Bu = Bv
      · have rejected : ¬ G.kruskalAccepts c r e Bu Bv := by simp [kruskalAccepts, joined]
        refine .inl ⟨({ s.1 with partition := partition }, q), ?_,
          ⟨F, collects.drop components keys (eq.1 joined)⟩, queueSize_delete key keys⟩
        simp only [kruskalStep, taken, if_pos incomplete, found, bind, Except.bind, if_neg rejected]
        rfl
      have accepted : G.kruskalAccepts c r e Bu Bv := .inl ⟨tree, joined⟩
      have apart : ¬ Linked G.toNetwork (F : Set (Fin m)) (G.tail e) (G.head e) :=
        fun connected => joined (eq.2 connected)
      have capacity : G.ucap e = 1 := (unit e).resolve_left fun zero => by
        have pos := mem_usable.1 (collects.queued e k key).1
        rw [zero] at pos
        exact lt_irrefl _ pos
      obtain ⟨partition', merged, components'⟩ :=
        kruskalMerge_spec (c := c) potential CT e { s.1 with partition := partition } components
          plain
      obtain ⟨sub, added, subgraph⟩ :=
        collects.subgraph.add (fun mem => apart (.edge mem)) capacity
      refine .inl ⟨(⟨partition', sub, s.1.sum + G.length e, s.1.rank + 1⟩, q), ?_,
        ⟨_, collects.add components' subgraph rfl rfl key least keys apart⟩,
        queueSize_delete key keys⟩
      simp only [kruskalStep, taken, if_pos incomplete, found, bind, Except.bind,
        if_pos accepted, merged, added]
      rfl
    · refine .inr ⟨s.1, ?_, F, s.2, collects, .inl (not_lt.1 incomplete)⟩
      simp only [kruskalStep, taken, if_neg incomplete]

/-! ## The result -/

/-- **The collected edges are an optimal tree, or the graph is disconnected.** -/
theorem Collected.solves (collected : Collected G c Q st) (r : Fin n) :
    Solves G c (if st.rank < n - 1 then c.sign * infFloat else st.sum)
      fun T => SubgraphOf T st.sub := by
  obtain ⟨F, q, collects, done⟩ := collected
  obtain ⟨R, transversal, cards⟩ := collects.count
  have rank : st.rank = F.card := collects.rank
  have : Nonempty (Fin n) := ⟨r⟩
  by_cases incomplete : st.rank < n - 1
  · have settled := done.resolve_left (not_le.2 incomplete)
    refine ⟨fun connects => ?_, fun _ => if_pos incomplete⟩
    have connectsF : Connects G.toNetwork (F : Set (Fin m)) := fun x y =>
      (connects x y).rec (Linked.equivalence _ _) fun e available =>
        collects.settled e available (settled e)
    have one := transversal.card_eq_one_iff.2 connectsF
    omega
  · obtain ⟨x, mem, -⟩ := transversal.covers r
    have pos : 0 < R.card := card_pos.2 ⟨x, mem⟩
    have connectsF : Connects G.toNetwork (F : Set (Fin m)) :=
      transversal.card_eq_one_iff.1 (by omega)
    have connects : Connects G.toNetwork G.usable := fun x y =>
      (connectsF x y).mono (coe_subset.2 collects.available)
    refine ⟨fun _ => ⟨F, (collects.promising connects).minimumTree connectsF, ?_,
      collects.subgraph⟩, fun apart => absurd connects apart⟩
    rw [if_neg incomplete]
    exact collects.sum

theorem kruskalFixed_free (r : Fin n) (free : ∀ e, G.lcap e = 0) (l : List (Fin m))
    (st : KruskalState n m) : G.kruskalFixed c potential CT r l st = .ok (false, st) := by
  induction l with
  | nil => rfl
  | cons e l ih =>
    rw [kruskalFixed, if_neg fun both => lt_irrefl _ (both.1.trans_eq (free e))]
    exact ih

theorem mstKruskal_spec (B : LowerBounds) (Q : MinQueue.{0, 0, 0} (Fin m) ℚ)
    (ranks : ℕ → ℕ) (sub : Fin m → ℚ) {r : Fin n} {root : ℕ}
    (rooted : mstRoot "MST_Kruskal" root = .ok r) (finite : G.FiniteLengths)
    (plain : c.reduced = false) (tree : c.oneCycle = false) (free : ∀ e, G.lcap e = 0)
    (unit : ∀ e, G.ucap e = 0 ∨ G.ucap e = 1) {epsilon : ℚ} (nonneg : 0 ≤ epsilon)
    (bounded : G.BoundedTrees c) :
    ∃ value st, G.mstKruskal c potential CT Q B epsilon ranks sub root = .ok (value, st) ∧
      Solves G c value fun T => SubgraphOf T st.sub := by
  obtain ⟨sub0, cleared, empty⟩ := initSubgraph_spec free sub
  obtain ⟨partition, budded, components⟩ := kruskalPartition_spec (G := G) CT ranks
  obtain ⟨q, filled, keys⟩ := kruskalQueue_spec potential (Q := Q) finite plain
  have start : Collects G c Q ∅ (⟨partition, sub0, 0, 0⟩, q) := by
    refine ⟨components, empty, rfl, rfl, empty_subset _, ⟨Finset.univ, ?_, ?_⟩, .empty,
      fun e k key => ?_, fun e available key => ?_⟩
    · rw [coe_empty]
      exact .univ
    · simp
    · rw [keys] at key
      split_ifs at key with available
      cases key
      exact ⟨available, rfl⟩
    · rw [keys, if_pos available] at key
      cases key
  obtain ⟨st, res, collected⟩ := kruskalLoop_spec potential CT r plain tree unit ⟨∅, start⟩
  have solves := collected.solves r
  refine ⟨_, st, ?_, solves⟩
  have fixed : G.kruskalMandatory c potential CT B r ⟨partition, sub0, 0, 0⟩ =
      .ok (false, ⟨partition, sub0, 0, 0⟩) := by
    rw [kruskalMandatory, kruskalFixed_free _ CT r free, ite_self]
  have found : G.kruskalTree c potential CT Q B ranks sub root =
      .ok (if st.rank < n - 1 then c.sign * infFloat else st.sum, st) := by
    simp only [kruskalTree, rooted, cleared, budded, filled, fixed, res, bind, Except.bind, tree,
      Bool.false_eq_true, if_false]
    split_ifs <;> rfl
  simp only [mstKruskal, found, bind, Except.bind, setResult_ok nonneg (solves.abs_le bounded)]
  rfl

end MixedGraph

end Goblin
