import Goblin.Dijkstra

/-!
# Minimum edge covers

`MinCEdgeCover` takes two copies of a graph and joins the copies of every node by an artificial
arc, which is twice as long as the shortest edge at the node. From a perfect matching of minimum
length it reads the edges in the first copy, and for every artificial arc in the matching the
first incidence of the node which is as short as the arc demands, up to the tolerance `epsilon`.

`MinCMatching` is a parameter. The two copies carry the same length in a minimum perfect matching,
since either of them can replace the other.

Different lengths at a node must not be mistaken for each other: for two loops of the lengths
`1 + epsilon / 4` and `1`, the longer one may be chosen (`minCEdgeCover_near`).
-/

set_option autoImplicit false

namespace Goblin

open Library List Finset Function

/-- The arcs of the doubled graph: `2a` and `2a + 1` are the copies of the edge `a`, and `2m + v`
joins the copies of the node `v`. -/
abbrev DoubledArc (n m : ℕ) := Fin m × Bool ⊕ Fin n

/-- What `MinCEdgeCover` writes. -/
structure EdgeCovering (m : ℕ) where
  ret : ℚ
  edgeColour : Fin m → ℕ

/-- The sum of the values on the incidences of a node. Loops count twice. -/
def degreeOf {V E : Type} [DecidableEq V] [Fintype E] (N : Network V E) (x : E → ℚ) (v : V) : ℚ :=
  ∑ a : Dart E, if N.src a = v then x a.edge else 0

/-- Every node is an end of exactly one edge of the subgraph. -/
structure PerfectMatching {V E : Type} [DecidableEq V] [Fintype E] (N : Network V E)
    (sub : E → ℚ) : Prop where
  values : ∀ e, sub e = 0 ∨ sub e = 1
  degrees : ∀ v, degreeOf N sub v = 1

/-- A perfect matching of minimum length. -/
structure MinimumMatching {V E : Type} [DecidableEq V] [Fintype E] (N : Network V E)
    (length sub : E → ℚ) : Prop where
  perfect : PerfectMatching N sub
  least : ∀ sub', PerfectMatching N sub' → ∑ e, sub e * length e ≤ ∑ e, sub' e * length e

namespace MixedGraph

variable {n m : ℕ} (G : MixedGraph n m)

/-! ## The method -/

/-- The length of a shortest edge at a node. -/
def minLength (v : Fin n) : ℚ :=
  (G.incidences v).foldl (fun l a => if G.length a.edge < l then G.length a.edge else l) infFloat

/-- The two copies `2v` and `2v + 1` of every node, and the arcs between them. -/
def doubled : Network (Fin n × Bool) (DoubledArc n m) where
  tail
    | .inl (e, copy) => (G.tail e, copy)
    | .inr v => (v, false)
  head
    | .inl (e, copy) => (G.head e, copy)
    | .inr v => (v, true)

def doubledLength : DoubledArc n m → ℚ
  | .inl (e, _) => G.length e
  | .inr v => 2 * G.minLength v

/-- `SetEdgeColour(a, 1)`, and the length is added. -/
def addToCover (st : EdgeCovering m) (e : Fin m) : EdgeCovering m :=
  ⟨st.ret + G.length e, update st.edgeColour e 1⟩

/-- One of the two loops that read the matching. -/
def readCover {α : Type} (chosen : α → Option (Fin m)) (l : List α) (st : EdgeCovering m) :
    EdgeCovering m :=
  l.foldl (fun st x => (chosen x).elim st (G.addToCover st)) st

section

variable (epsilon : ℚ) (sub : DoubledArc n m → ℚ)

/-- The edge, if its first copy is in the matching. -/
def copyChosen (e : Fin m) : Option (Fin m) :=
  if epsilon < sub (.inl (e, false)) then some e else none

/-- The edge that covers a node whose copies are matched with each other. -/
def shortestChosen (v : Fin n) : Option (Fin m) :=
  if sub (.inr v) < epsilon then none
  else ((G.incidences v).find? fun a =>
    |2 * G.length a.edge - G.doubledLength (.inr v)| < epsilon).map Dart.edge

end

def minCEdgeCover (epsilon : ℚ) (minCMatching : Network (Fin n × Bool) (DoubledArc n m) →
    (DoubledArc n m → ℚ) → DoubledArc n m → ℚ) : Except Raise (EdgeCovering m) :=
  if ∃ v, G.incidences v = [] then
    .error (.rejected "MinEdgeCover" "Isolated vertex found")
  else
    let sub := minCMatching G.doubled G.doubledLength
    .ok <| G.readCover (G.shortestChosen epsilon sub) (finRange n) <|
      G.readCover (copyChosen epsilon sub) (finRange m) ⟨0, fun _ => 0⟩

/-- Every node is an end of an edge of the set. -/
def IsEdgeCover (C : Finset (Fin m)) : Prop := ∀ v, ∃ a : Arc m, a.edge ∈ C ∧ G.src a = v

/-- The coloured edges are a cover of minimum length, and this is the value. -/
structure MinimumEdgeCover (r : EdgeCovering m) : Prop where
  covers : G.IsEdgeCover {e | r.edgeColour e = 1}
  value : r.ret = ∑ e with r.edgeColour e = 1, G.length e
  least : ∀ C, G.IsEdgeCover C → r.ret ≤ ∑ e ∈ C, G.length e

/-- Isolated nodes are rejected. Otherwise the method ends with a minimum cover. -/
def CoversOptimally (result : Except Raise (EdgeCovering m)) : Prop :=
  if ∃ v, ∀ a, G.src a ≠ v then
    result = .error (.rejected "MinEdgeCover" "Isolated vertex found")
  else ∃ r, result = .ok r ∧ G.MinimumEdgeCover r

variable {G} {v : Fin n} {sub : DoubledArc n m → ℚ} {x y : Fin m → ℚ}

/-! ## Degrees -/

theorem degreeOf_eq (x : Fin m → ℚ) : degreeOf G.toNetwork x v =
    ∑ e, ((if G.tail e = v then x e else 0) + if G.head e = v then x e else 0) :=
  sum_dart _

theorem degreeOf_add :
    degreeOf G.toNetwork (x + y) v = degreeOf G.toNetwork x v + degreeOf G.toNetwork y v := by
  simp only [degreeOf, ← sum_add_distrib]
  refine sum_congr rfl fun a _ => ?_
  split_ifs <;> simp

theorem degreeOf_single (e : Fin m) : degreeOf G.toNetwork (Pi.single e 1) v =
    (if G.tail e = v then 1 else 0) + if G.head e = v then 1 else 0 := by
  rw [degreeOf_eq, sum_eq_single e]
  · simp
  · intro e' _ other
    simp [other]
  · simp

theorem eq_zero_of_degree (values : ∀ e, x e = 0 ∨ x e = 1) (zero : degreeOf G.toNetwork x v = 0)
    {a : Arc m} (here : G.src a = v) : x a.edge = 0 := by
  have each := (sum_eq_zero_iff_of_nonneg fun b _ => ?_).1 zero a (mem_univ a)
  · rwa [if_pos here] at each
  · rcases values b.edge with val | val <;> simp [val]
    split_ifs <;> simp

theorem src_of_edge {a : Arc m} {e : Fin m} (eq : a.edge = e) :
    G.src a = G.tail e ∨ G.src a = G.head e := by
  obtain ⟨_, back⟩ := a
  subst eq
  cases back <;> simp [Network.src]

/-- In the doubled graph, the artificial arc of a node completes the degrees of its copies. -/
theorem degreeOf_doubled (copy : Bool) : degreeOf G.doubled sub (v, copy) =
    degreeOf G.toNetwork (fun e => sub (.inl (e, copy))) v + sub (.inr v) := by
  rw [degreeOf_eq, degreeOf, sum_dart, Fintype.sum_sum_type, Fintype.sum_prod_type]
  congr 1
  · refine sum_congr rfl fun e _ => ?_
    cases copy <;> simp [doubled, Network.src]
  · rw [sum_eq_single v]
    · cases copy <;> simp [doubled, Network.src]
    · intro w _ other
      simp [doubled, Network.src, other]
    · simp

/-! ## Shortest edges -/

theorem minLength_fold (l : List (Arc m)) (bound : ℚ) :
    let r := l.foldl (fun l a => if G.length a.edge < l then G.length a.edge else l) bound
    r ≤ bound ∧ (∀ a ∈ l, r ≤ G.length a.edge) ∧ (r = bound ∨ ∃ a ∈ l, r = G.length a.edge) := by
  induction l generalizing bound with
  | nil => simp
  | cons b l ih =>
    have shorter : (if G.length b.edge < bound then G.length b.edge else bound) =
        min (G.length b.edge) bound := by
      rw [min_def]
      split_ifs <;> linarith
    obtain ⟨below, least, attained⟩ := ih (min (G.length b.edge) bound)
    rw [foldl_cons, shorter]
    refine ⟨below.trans (min_le_right ..), ?_, ?_⟩
    · rintro a (_ | ⟨_, mem⟩)
      · exact below.trans (min_le_left ..)
      · exact least a mem
    · rcases attained with eq | ⟨a, mem, eq⟩
      · rcases min_choice (G.length b.edge) bound with first | second
        · exact .inr ⟨b, mem_cons_self, eq.trans first⟩
        · exact .inl (eq.trans second)
      · exact .inr ⟨a, mem_cons_of_mem _ mem, eq⟩

theorem minLength_le {a : Arc m} (here : G.src a = v) : G.minLength v ≤ G.length a.edge :=
  (minLength_fold _ _).2.1 a ((G.mem_incidences v a).2 here)

theorem sum_insert_le {V : Type} [DecidableEq V] (S : Finset V) {f : V → ℚ} {w : V}
    (least : 0 ≤ f w) : ∑ v ∈ insert w S, f v ≤ f w + ∑ v ∈ S, f v := by
  by_cases mem : w ∈ S
  · rw [insert_eq_of_mem mem]
    exact le_add_of_nonneg_left least
  · rw [sum_insert mem]

section

variable (nonneg : ∀ e, 0 ≤ G.length e)
include nonneg

theorem minLength_nonneg (v : Fin n) : 0 ≤ G.minLength v := by
  obtain ⟨-, -, inf | ⟨a, -, eq⟩⟩ := minLength_fold (G := G) (G.incidences v) infFloat
  · exact (show (0 : ℚ) ≤ infFloat by norm_num [infFloat]).trans_eq inf.symm
  · exact (nonneg a.edge).trans_eq eq.symm

/-! ## From covers to matchings

The edges of a cover are searched one by one. An edge is selected if both its ends are free, and
otherwise it pays for the artificial arc of at most one end. -/

section

variable (G : MixedGraph n m) (C : Finset (Fin m)) (x : Fin m → ℚ)

/-- The ends of the edges in a set which are still free. -/
def freeEnds : Finset (Fin n) :=
  {v | (∃ a : Arc m, a.edge ∈ C ∧ G.src a = v) ∧ degreeOf G.toNetwork x v = 0}

/-- Disjoint edges are selected from a set, and the set pays for them and for the artificial arcs
at the free ends. -/
structure Selection : Prop where
  values : ∀ e, x e = 0 ∨ x e = 1
  degrees : ∀ v, degreeOf G.toNetwork x v = 0 ∨ degreeOf G.toNetwork x v = 1
  paid : ∑ e, x e * G.length e + ∑ v ∈ freeEnds G C x, G.minLength v ≤ ∑ e ∈ C, G.length e

end

section

variable {C : Finset (Fin m)} {e : Fin m} (selection : G.Selection C x) (new : e ∉ C)
include selection new

theorem Selection.select (ends : G.tail e ≠ G.head e)
    (freeTail : degreeOf G.toNetwork x (G.tail e) = 0)
    (freeHead : degreeOf G.toNetwork x (G.head e) = 0) :
    G.Selection (insert e C) (x + Pi.single e 1) := by
  have unselected : x e = 0 := eq_zero_of_degree selection.values freeTail (a := ⟨e, false⟩) rfl
  have degree : ∀ v, degreeOf G.toNetwork (x + Pi.single e 1) v = degreeOf G.toNetwork x v +
      ((if G.tail e = v then 1 else 0) + if G.head e = v then 1 else 0) := fun v => by
    rw [degreeOf_add, degreeOf_single]
  refine ⟨fun e' => ?_, fun v => ?_, ?_⟩
  · by_cases eq : e' = e
    · simp [eq, unselected]
    · simpa [eq] using selection.values e'
  · rw [degree]
    by_cases atTail : G.tail e = v
    · subst atTail
      simp [freeTail, Ne.symm ends]
    · by_cases atHead : G.head e = v
      · subst atHead
        simp [freeHead, ends]
      · simpa [atTail, atHead] using selection.degrees v
  · have fewer : freeEnds G (insert e C) (x + Pi.single e 1) ⊆ freeEnds G C x := fun v => by
      simp only [freeEnds, mem_filter_univ, degree, mem_insert]
      rintro ⟨⟨a, mem, here⟩, zero⟩
      have away : G.tail e ≠ v ∧ G.head e ≠ v := by
        rcases selection.degrees v with val | val <;> constructor <;> intro eq <;>
          simp only [eq, val, if_true] at zero <;> split_ifs at zero <;> linarith
      refine ⟨⟨a, mem.resolve_left fun eq => ?_, here⟩, by simpa [away] using zero⟩
      rcases src_of_edge (G := G) eq with tail | head
      · exact away.1 (tail.symm.trans here)
      · exact away.2 (head.symm.trans here)
    have less := sum_le_sum_of_subset_of_nonneg fewer fun v _ _ => minLength_nonneg nonneg v
    have weight : ∑ e', (x + Pi.single e 1 : Fin m → ℚ) e' * G.length e' =
        ∑ e', x e' * G.length e' + G.length e := by
      simp [add_mul, sum_add_distrib, Pi.single_apply]
    rw [weight, sum_insert new]
    linarith [selection.paid]

theorem Selection.pay (free : ¬ (G.tail e ≠ G.head e ∧ degreeOf G.toNetwork x (G.tail e) = 0 ∧
    degreeOf G.toNetwork x (G.head e) = 0)) : G.Selection (insert e C) x := by
  obtain ⟨w, ⟨a, ofEdge, here⟩, only⟩ : ∃ w, (∃ a : Arc m, a.edge = e ∧ G.src a = w) ∧
      ∀ v, degreeOf G.toNetwork x v = 0 → v = G.tail e ∨ v = G.head e → v = w := by
    by_cases freeTail : degreeOf G.toNetwork x (G.tail e) = 0
    · refine ⟨_, ⟨⟨e, false⟩, rfl, rfl⟩, ?_⟩
      rintro v zero (rfl | rfl)
      · rfl
      · by_contra ends
        exact free ⟨Ne.symm ends, freeTail, zero⟩
    · refine ⟨_, ⟨⟨e, true⟩, rfl, rfl⟩, ?_⟩
      rintro v zero (rfl | rfl)
      · exact absurd zero freeTail
      · rfl
  have more : freeEnds G (insert e C) x ⊆ insert w (freeEnds G C x) := fun v => by
    simp only [freeEnds, mem_filter_univ, mem_insert]
    rintro ⟨⟨b, eq | mem, atV⟩, zero⟩
    · refine .inl (only v zero ?_)
      simpa [atV] using src_of_edge (G := G) eq
    · exact .inr ⟨⟨b, mem, atV⟩, zero⟩
  have cheap : G.minLength w ≤ G.length e := ofEdge ▸ minLength_le here
  have less := sum_le_sum_of_subset_of_nonneg more fun v _ _ => minLength_nonneg nonneg v
  have atMost := sum_insert_le (freeEnds G C x) (minLength_nonneg nonneg w)
  refine ⟨selection.values, selection.degrees, ?_⟩
  rw [sum_insert new]
  linarith [selection.paid]

end

theorem exists_selection (C : Finset (Fin m)) : ∃ x, G.Selection C x := by
  induction C using Finset.induction_on with
  | empty => exact ⟨0, by simp, by simp [degreeOf], by simp [freeEnds]⟩
  | insert e C new ih =>
    obtain ⟨x, selection⟩ := ih
    by_cases free : G.tail e ≠ G.head e ∧ degreeOf G.toNetwork x (G.tail e) = 0 ∧
        degreeOf G.toNetwork x (G.head e) = 0
    · exact ⟨_, selection.select nonneg new free.1 free.2.1 free.2.2⟩
    · exact ⟨x, selection.pay nonneg new free⟩

/-! ## The two copies -/

omit nonneg in
theorem length_doubled (sub : DoubledArc n m → ℚ) : ∑ e, sub e * G.doubledLength e =
    ∑ e, sub (.inl (e, true)) * G.length e + ∑ e, sub (.inl (e, false)) * G.length e +
      2 * ∑ v, sub (.inr v) * G.minLength v := by
  rw [Fintype.sum_sum_type, Fintype.sum_prod_type, mul_sum, ← sum_add_distrib]
  congr 1
  · exact sum_congr rfl fun e _ => Fintype.sum_bool _
  · exact sum_congr rfl fun v _ => mul_left_comm ..

/-- A cover has a perfect matching of at most twice its length. -/
theorem exists_matching {C : Finset (Fin m)} (covers : G.IsEdgeCover C) :
    ∃ sub, PerfectMatching G.doubled sub ∧
      ∑ e, sub e * G.doubledLength e ≤ 2 * ∑ e ∈ C, G.length e := by
  obtain ⟨x, values, degrees, paid⟩ := exists_selection nonneg C
  have free : ∑ v ∈ freeEnds G C x, G.minLength v =
      ∑ v, (1 - degreeOf G.toNetwork x v) * G.minLength v := by
    rw [freeEnds, sum_filter]
    refine sum_congr rfl fun v _ => ?_
    rcases degrees v with val | val <;> simp [val, covers v]
  refine ⟨Sum.elim (fun e => x e.1) fun v => 1 - degreeOf G.toNetwork x v, ⟨?_, ?_⟩, ?_⟩
  · rintro (⟨e, copy⟩ | v)
    · exact values e
    · rcases degrees v with val | val <;> simp [val]
  · rintro ⟨v, copy⟩
    rw [degreeOf_doubled]
    simp
  · rw [length_doubled]
    simp only [Sum.elim_inl, Sum.elim_inr]
    linarith

omit nonneg in
theorem mirrored (perfect : PerfectMatching G.doubled sub) (copy : Bool) : PerfectMatching G.doubled
      (Sum.elim (fun e => sub (.inl (e.1, copy))) fun v => sub (.inr v)) := by
  refine ⟨?_, ?_⟩
  · rintro (⟨e, _⟩ | v)
    · exact perfect.values _
    · exact perfect.values _
  · rintro ⟨v, other⟩
    have degree := perfect.degrees (v, copy)
    rw [degreeOf_doubled] at degree ⊢
    exact degree

omit nonneg in
theorem copies_equal (best : MinimumMatching G.doubled G.doubledLength sub) :
    ∑ e, sub (.inl (e, true)) * G.length e = ∑ e, sub (.inl (e, false)) * G.length e := by
  have shorter : ∀ copy, ∑ e, sub e * G.doubledLength e ≤
      2 * ∑ e, sub (.inl (e, copy)) * G.length e + 2 * ∑ v, sub (.inr v) * G.minLength v :=
    fun copy => by
      have less := best.least _ (mirrored best.perfect copy)
      rw [length_doubled (Sum.elim _ _)] at less
      simp only [Sum.elim_inl, Sum.elim_inr] at less
      linarith
  have first := shorter false
  have second := shorter true
  rw [length_doubled] at first second
  linarith

end

/-! ## Reading the matching -/

section

variable {α : Type} {chosen : α → Option (Fin m)}

theorem readCover_spec (l : List α) (st : EdgeCovering m) : (G.readCover chosen l st).ret =
      st.ret + (l.map fun x => (chosen x).elim 0 G.length).sum ∧
    ∀ e, (G.readCover chosen l st).edgeColour e = 1 ↔
      st.edgeColour e = 1 ∨ ∃ x ∈ l, chosen x = some e := by
  induction l generalizing st with
  | nil => simp [readCover]
  | cons x l ih =>
    obtain ⟨ret, colours⟩ := ih ((chosen x).elim st (G.addToCover st))
    rw [readCover, foldl_cons]
    refine ⟨ret.trans ?_, fun e => (colours e).trans ?_⟩
    · cases here : chosen x <;> simp [here, addToCover, add_assoc]
    · cases here : chosen x with
      | none => simp [here]
      | some e' =>
        by_cases eq : e = e'
        · simp [here, addToCover, eq]
        · simp [here, addToCover, eq, Ne.symm eq]

theorem colours_le_ret (nonneg : ∀ e, 0 ≤ G.length e) (l : List α) (st : EdgeCovering m)
    (paid : ∑ e with st.edgeColour e = 1, G.length e ≤ st.ret) :
    ∑ e with (G.readCover chosen l st).edgeColour e = 1, G.length e ≤
      (G.readCover chosen l st).ret := by
  induction l generalizing st with
  | nil => exact paid
  | cons x l ih =>
    have step := ih ((chosen x).elim st (G.addToCover st))
    rw [readCover, foldl_cons]
    cases here : chosen x with
    | none =>
      rw [here] at step
      exact step paid
    | some e =>
      rw [here] at step
      refine step ?_
      have more : Finset.univ.filter (fun e' => (G.addToCover st e).edgeColour e' = 1) =
          insert e (Finset.univ.filter fun e' => st.edgeColour e' = 1) := by
        ext e'
        rw [mem_filter_univ, mem_insert, mem_filter_univ]
        by_cases eq : e' = e <;> simp [addToCover, eq]
      rw [Option.elim_some, more]
      refine (sum_insert_le _ (nonneg e)).trans ?_
      exact (add_le_add_right paid _).trans_eq (add_comm ..)

end

section

variable {epsilon : ℚ} (positive : 0 < epsilon) (low : epsilon < 1)
include positive low

theorem copyChosen_eq (perfect : PerfectMatching G.doubled sub) (e : Fin m) :
    copyChosen epsilon sub e = if sub (.inl (e, false)) = 1 then some e else none := by
  rcases perfect.values (.inl (e, false)) with val | val
  · simp [copyChosen, val, positive.le]
  · simp [copyChosen, val, low]

variable (finite : ∀ e, G.length e < infFloat)
  (apart : ∀ a b : Arc m, G.src a = G.src b →
    |2 * G.length a.edge - 2 * G.length b.edge| < epsilon → G.length a.edge = G.length b.edge)
  (covered : ∀ v, ∃ a, G.src a = v)
include finite apart covered

theorem shortestChosen_eq (val : sub (.inr v) = 1) :
    ∃ a : Arc m, G.src a = v ∧ G.shortestChosen epsilon sub v = some a.edge ∧
      G.length a.edge = G.minLength v := by
  obtain ⟨b, here⟩ := covered v
  obtain ⟨c, mem, least⟩ : ∃ c ∈ G.incidences v, G.minLength v = G.length c.edge :=
    (minLength_fold _ _).2.2.resolve_left fun inf =>
      ((finite b.edge).trans_eq inf.symm).not_ge (minLength_le here)
  rw [shortestChosen, val, if_neg (not_lt.2 low.le)]
  cases found : (G.incidences v).find? fun a =>
      |2 * G.length a.edge - G.doubledLength (.inr v)| < epsilon with
  | none =>
    have far := find?_eq_none.1 found c mem
    simp [doubledLength, least, positive.not_ge] at far
  | some a =>
    have atV := (G.mem_incidences v a).1 (mem_of_find?_eq_some found)
    have near := find?_some found
    rw [decide_eq_true_eq, doubledLength, least] at near
    have eq := apart a c (atV.trans ((G.mem_incidences v c).1 mem).symm) near
    exact ⟨a, atV, rfl, eq.trans least.symm⟩

end

/-- **`MinCEdgeCover` is optimal.** Lengths at a node must not differ by less than
`epsilon / 2`. -/
theorem minCEdgeCover_spec {epsilon : ℚ} (positive : 0 < epsilon) (low : epsilon < 1) (nonneg : ∀ e, 0 ≤ G.length e) (finite : ∀ e, G.length e < infFloat)
    (apart : ∀ a b : Arc m, G.src a = G.src b →
      |2 * G.length a.edge - 2 * G.length b.edge| < epsilon → G.length a.edge = G.length b.edge)
    (minCMatching : Network (Fin n × Bool) (DoubledArc n m) →
      (DoubledArc n m → ℚ) → DoubledArc n m → ℚ)
    (best : MinimumMatching G.doubled G.doubledLength (minCMatching G.doubled G.doubledLength)) :
    G.CoversOptimally (G.minCEdgeCover epsilon minCMatching) := by
  have isolated : (∃ v, G.incidences v = []) ↔ ∃ v, ∀ a, G.src a ≠ v := by
    simp only [eq_nil_iff_forall_not_mem, G.mem_incidences]
  simp only [CoversOptimally, minCEdgeCover, isolated]
  split_ifs with rejected
  · rfl
  push Not at rejected
  generalize minCMatching G.doubled G.doubledLength = sub at best ⊢
  refine ⟨_, rfl, ?_⟩
  set copies := G.readCover (copyChosen epsilon sub) (finRange m) ⟨0, fun _ => 0⟩
  set r := G.readCover (G.shortestChosen epsilon sub) (finRange n) copies
  have coloured : ∀ e, r.edgeColour e = 1 ↔
      (∃ e', copyChosen epsilon sub e' = some e) ∨
        ∃ v, G.shortestChosen epsilon sub v = some e := by
    simp [r, copies, readCover_spec]
  have shortest := fun v (value : sub (.inr v) = 1) =>
    shortestChosen_eq positive low finite apart rejected value
  have ret : r.ret = ∑ e, sub (.inl (e, false)) * G.length e +
      ∑ v, sub (.inr v) * G.minLength v := by
    simp only [r, copies, (readCover_spec _ _).1, zero_add, ← Fin.sum_univ_def]
    congr 1 <;> refine sum_congr rfl fun x _ => ?_
    · rw [copyChosen_eq positive low best.perfect]
      rcases best.perfect.values (.inl (x, false)) with value | value <;> simp [value]
    · rcases best.perfect.values (.inr x) with value | value
      · simp [shortestChosen, value, positive]
      · obtain ⟨a, -, found, same⟩ := shortest x value
        simp [found, same, value]
  have covers : G.IsEdgeCover {e | r.edgeColour e = 1} := fun v => by
    simp only [mem_filter_univ, coloured]
    rcases best.perfect.values (.inr v) with value | value
    · have degree := best.perfect.degrees (v, false)
      rw [degreeOf_doubled, value, add_zero] at degree
      obtain ⟨a, -, selected⟩ := exists_ne_zero_of_sum_ne_zero (degree.trans_ne one_ne_zero)
      rw [ite_ne_right_iff] at selected
      refine ⟨a, .inl ⟨a.edge, ?_⟩, selected.1⟩
      rw [copyChosen_eq positive low best.perfect, if_pos]
      exact (best.perfect.values _).resolve_left selected.2
    · obtain ⟨a, here, found, -⟩ := shortest v value
      exact ⟨a, .inr ⟨v, found⟩, here⟩
  have least : ∀ C, G.IsEdgeCover C → r.ret ≤ ∑ e ∈ C, G.length e := fun C cover => by
    obtain ⟨sub', perfect, short⟩ := exists_matching nonneg cover
    have less := (best.least sub' perfect).trans short
    rw [length_doubled, copies_equal best] at less
    linarith
  refine ⟨covers, le_antisymm (least _ covers) ?_, least⟩
  exact colours_le_ret nonneg _ _ (colours_le_ret nonneg _ _ (by simp))

/-- One node with two loops. -/
def twoLoops (first second : ℚ) : MixedGraph 1 2 :=
  .ofArcs (fun _ => 0) (fun _ => 0) (fun _ => false) (fun _ => 1) (fun _ => 0)
    ![first, second] fun _ => 0

/-- The artificial arc is matched. -/
def artificialMatching : DoubledArc 1 2 → ℚ := Sum.elim (fun _ => 0) fun _ => 1

theorem artificial_best (first second : ℚ) : MinimumMatching (twoLoops first second).doubled
    (twoLoops first second).doubledLength artificialMatching := by
  refine ⟨⟨?_, ?_⟩, fun sub' perfect => ?_⟩
  · rintro (e | v) <;> simp [artificialMatching]
  · rintro ⟨v, copy⟩
    rw [degreeOf_doubled]
    simp [artificialMatching, degreeOf]
  · have eq : ∀ copy, (sub' (.inl (0, copy)) = 0 ∧ sub' (.inl (1, copy)) = 0) ∧
        sub' (.inr 0) = 1 := fun copy => by
      have degree := perfect.degrees (0, copy)
      rw [degreeOf_doubled, degreeOf_eq, Fin.sum_univ_two] at degree
      simp only [twoLoops, ofArcs, if_true] at degree
      rcases perfect.values (.inl (0, copy)) with x | x <;>
        rcases perfect.values (.inl (1, copy)) with y | y <;>
        rcases perfect.values (.inr 0) with z | z <;>
        refine ⟨⟨?_, ?_⟩, ?_⟩ <;> linarith
    refine (sum_congr rfl fun e _ => ?_).le
    obtain ⟨e, copy⟩ | v := e
    · fin_cases e <;> simp [artificialMatching, eq]
    · simp [artificialMatching, Subsingleton.elim v 0, eq false]

theorem minCEdgeCover_twoLoops :
    (twoLoops 1 1).CoversOptimally
      ((twoLoops 1 1).minCEdgeCover (1 / 10000) fun _ _ => artificialMatching) :=
  minCEdgeCover_spec (by norm_num) (by norm_num) (fun e => by fin_cases e <;> norm_num [twoLoops, ofArcs])
    (fun e => by fin_cases e <;> norm_num [twoLoops, ofArcs, infFloat])
    (fun a b _ _ => by rcases a with ⟨e, _⟩; rcases b with ⟨e', _⟩; fin_cases e <;> fin_cases e' <;> rfl)
    _ (artificial_best 1 1)

/-- The first loop is longer by a quarter of the tolerance, and it is chosen. This is the
tolerance that the constructor of the controller sets. -/
theorem minCEdgeCover_near : ¬ ∀ {n m : ℕ} (G : MixedGraph n m)
    (minCMatching : Network (Fin n × Bool) (DoubledArc n m) →
      (DoubledArc n m → ℚ) → DoubledArc n m → ℚ),
    (∀ e, G.orientation e = false) → (∀ e, 0 ≤ G.length e) →
    MinimumMatching G.doubled G.doubledLength (minCMatching G.doubled G.doubledLength) →
      G.CoversOptimally (G.minCEdgeCover (1 / 10000) minCMatching) := by
  intro claim
  have optimal := claim (twoLoops (40001 / 40000) 1) (fun _ _ => artificialMatching)
    (fun _ => rfl) (fun e => by fin_cases e <;> norm_num [twoLoops, ofArcs])
    (artificial_best ..)
  have value : ((twoLoops (40001 / 40000) 1).minCEdgeCover (1 / 10000)
      fun _ _ => artificialMatching).map EdgeCovering.ret = .ok (40001 / 40000) := by
    decide +kernel
  rw [CoversOptimally, if_neg] at optimal
  · obtain ⟨r, result, minimum⟩ := optimal
    rw [result] at value
    have least := minimum.least {1} fun v => ⟨⟨1, false⟩, by simp, Subsingleton.elim _ _⟩
    rw [show r.ret = _ from Except.ok.inj value] at least
    norm_num [twoLoops, ofArcs] at least
  · rintro ⟨v, isolated⟩
    exact isolated ⟨1, false⟩ (Subsingleton.elim _ _)

end MixedGraph

end Goblin
