import Mathlib.Tactic

/-!
# Flows on directed multigraphs

A network has nodes and edges, and every edge has a tail and a head. Loops and
parallel edges are allowed. A dart is an edge together with the direction in
which it is traversed; pushing an amount along a dart raises or lowers the
flow on its edge.

The divergence of a node is the flow that enters it minus the flow that leaves
it. Pushing along a walk moves the amount from the first node to the last one
and leaves every other divergence alone (`div_pushAll_of_walk`); a closed walk
changes no divergence at all.

From this come the two certificates used for network programs: a set whose boundary
is saturated bounds every flow value, and reduced costs that are non-negative on the
residual darts make a flow one of minimum cost among all flows with its divergences
(`cost_le_of_reduced`).
-/

set_option autoImplicit false

namespace Goblin.Library

open Finset
universe u v w

/-- An edge with the direction of its traversal. -/
structure Dart (E : Type u) where
  edge : E
  back : Bool
deriving DecidableEq, Fintype, Repr

namespace Dart

variable {E : Type u}

/-- The same edge, traversed the other way. -/
def rev (a : Dart E) : Dart E := ⟨a.edge, !a.back⟩

@[simp] theorem rev_edge (a : Dart E) : a.rev.edge = a.edge := rfl

@[simp] theorem rev_back (a : Dart E) : a.rev.back = !a.back := rfl

@[simp] theorem rev_rev (a : Dart E) : a.rev.rev = a := by
  cases a with
  | mk edge back => simp [rev]

theorem rev_ne (a : Dart E) : a.rev ≠ a := by
  cases a with
  | mk edge back => cases back <;> simp [rev]

theorem eq_or_eq_rev {a b : Dart E} (eq : a.edge = b.edge) : a = b ∨ a = b.rev := by
  cases a with
  | mk e x =>
    cases b with
    | mk e' y =>
      cases eq
      cases x <;> cases y <;> simp [rev]

end Dart

theorem sum_dart {E : Type u} {K : Type w} [Fintype E] [AddCommMonoid K] (g : Dart E → K) :
    ∑ a, g a = ∑ e, (g ⟨e, false⟩ + g ⟨e, true⟩) := by
  let toPair : Dart E ≃ E × Bool :=
    ⟨fun a => (a.edge, a.back), fun x => ⟨x.1, x.2⟩, fun _ => rfl, fun _ => rfl⟩
  rw [← toPair.symm.sum_comp, Fintype.sum_prod_type]
  refine sum_congr rfl fun e _ => ?_
  rw [Fintype.sum_bool, add_comm]
  rfl

/-- A value of an updated function is the new one, or it is not at the updated place. -/
theorem of_update {A : Type u} {B : Type v} [DecidableEq A] {f : A → B} {a x : A} {b y : B}
    (val : Function.update f a b x = y) : x = a ∧ b = y ∨ x ≠ a ∧ f x = y := by
  by_cases eq : x = a
  · rw [eq, Function.update_self] at val
    exact .inl ⟨eq, val⟩
  · rw [Function.update_of_ne eq] at val
    exact .inr ⟨eq, val⟩

/-- The two ends of every edge. -/
structure Network (V : Type v) (E : Type u) where
  tail : E → V
  head : E → V

namespace Network

variable {V : Type v} {E : Type u}

/-- The node a dart leaves. -/
def src (N : Network V E) (a : Dart E) : V := if a.back then N.head a.edge else N.tail a.edge

/-- The node a dart enters. -/
def dst (N : Network V E) (a : Dart E) : V := N.src a.rev

section

variable (N : Network V E)
include N

@[simp] theorem src_rev (a : Dart E) : N.src a.rev = N.dst a := rfl

@[simp] theorem dst_rev (a : Dart E) : N.dst a.rev = N.src a := by
  simp [dst]

@[simp] theorem src_forward (e : E) : N.src ⟨e, false⟩ = N.tail e := rfl

@[simp] theorem src_backward (e : E) : N.src ⟨e, true⟩ = N.head e := rfl

@[simp] theorem dst_forward (e : E) : N.dst ⟨e, false⟩ = N.head e := rfl

@[simp] theorem dst_backward (e : E) : N.dst ⟨e, true⟩ = N.tail e := rfl

end

end Network

/-! ## Pushing flow -/

section Push

variable {E : Type u} {K : Type w} [AddCommGroup K]

/-- An amount, counted negatively on backward darts. -/
def signed (a : Dart E) (x : K) : K := if a.back then -x else x

@[simp] theorem signed_rev (a : Dart E) (x : K) : signed a.rev x = -signed a x := by
  cases a with
  | mk edge back => cases back <;> simp [signed, Dart.rev]

variable [DecidableEq E] {e : E}

section

variable (f : E → K)

/-- The flow after `x` units have been sent along the dart. -/
def push (a : Dart E) (x : K) : E → K :=
  Function.update f a.edge (f a.edge + signed a x)

@[simp] theorem push_same (a : Dart E) (x : K) : push f a x a.edge = f a.edge + signed a x := by
  simp [push]

theorem push_of_ne (a : Dart E) (x : K) (other : e ≠ a.edge) : push f a x e = f e := by
  simp [push, other]

theorem push_eq_add_single (a : Dart E) (x : K) :
    push f a x = f + Pi.single a.edge (signed a x) := by
  funext e
  by_cases eq : e = a.edge
  · subst eq
    simp
  · simp [push_of_ne f a x eq, eq]

/-- Send the same amount along every dart of a list. -/
def pushAll (p : List (Dart E)) (x : K) : E → K :=
  p.foldl (fun g a => push g a x) f

@[simp] theorem pushAll_nil (x : K) : pushAll f [] x = f := rfl

@[simp] theorem pushAll_cons (a : Dart E) (p : List (Dart E)) (x : K) :
    pushAll f (a :: p) x = pushAll (push f a x) p x := rfl

theorem pushAll_of_notMem (p : List (Dart E)) (x : K)
    (other : ∀ a ∈ p, a.edge ≠ e) : pushAll f p x e = f e := by
  induction p generalizing f with
  | nil => rfl
  | cons a p ih =>
    rw [pushAll_cons, ih _ fun b mem => other b (List.mem_cons_of_mem _ mem)]
    exact push_of_ne f a x (other a List.mem_cons_self).symm

/-- On a list that meets every edge at most once, each of its darts is pushed
exactly once. -/
theorem pushAll_of_mem {p : List (Dart E)} (x : K)
    (once : (p.map Dart.edge).Nodup) {a : Dart E} (mem : a ∈ p) :
    pushAll f p x a.edge = f a.edge + signed a x := by
  induction p generalizing f with
  | nil => cases mem
  | cons b p ih =>
    rw [List.map_cons, List.nodup_cons] at once
    obtain ⟨fresh, once⟩ := once
    rw [pushAll_cons]
    rcases List.mem_cons.1 mem with rfl | later
    · have rest : ∀ c ∈ p, c.edge ≠ a.edge := by
        intro c inRest eq
        exact fresh (eq ▸ List.mem_map_of_mem inRest)
      rw [pushAll_of_notMem _ _ _ rest, push_same]
    · have other : a.edge ≠ b.edge := fun eq =>
        fresh (eq ▸ List.mem_map_of_mem later)
      rw [ih (push f b x) once later, push_of_ne f b x other]

end

end Push

/-! ## Divergence -/

section Divergence

variable {V : Type v} {E : Type u} {K : Type w} [AddCommGroup K]
  [Fintype E] [DecidableEq V] [DecidableEq E]

/-- The flow into a node minus the flow out of it. -/
def div (N : Network V E) (f : E → K) (v : V) : K :=
  ∑ e, ((if N.head e = v then f e else 0) - (if N.tail e = v then f e else 0))

omit [DecidableEq E] in
theorem div_add (N : Network V E) (f g : E → K) (v : V) :
    div N (f + g) v = div N f v + div N g v := by
  simp only [div, ← sum_add_distrib, Pi.add_apply]
  refine sum_congr rfl fun e _ => ?_
  split_ifs <;> abel

theorem div_single (N : Network V E) (e : E) (x : K) (v : V) : div N (Pi.single e x) v =
      (if N.head e = v then x else 0) - (if N.tail e = v then x else 0) := by
  rw [div, sum_eq_single e]
  · simp
  · intro e' _ other
    simp [other]
  · simp

theorem div_push (N : Network V E) (f : E → K) (a : Dart E) (x : K) (v : V) : div N (push f a x) v =
      div N f v + ((if N.dst a = v then x else 0) - (if N.src a = v then x else 0)) := by
  rw [push_eq_add_single, div_add, div_single]
  cases a with
  | mk e back =>
    cases back with
    | false => rfl
    | true =>
      show div N f v + ((if N.head e = v then -x else 0) - (if N.tail e = v then -x else 0)) =
        div N f v + ((if N.tail e = v then x else 0) - (if N.head e = v then x else 0))
      split_ifs <;> simp

theorem div_pushAll (N : Network V E) (f : E → K) (p : List (Dart E)) (x : K) (v : V) :
    div N (pushAll f p x) v = div N f v +
        (p.map fun a => (if N.dst a = v then x else 0) - (if N.src a = v then x else 0)).sum := by
  induction p generalizing f with
  | nil => simp
  | cons a p ih =>
    rw [pushAll_cons, ih, div_push, List.map_cons, List.sum_cons, add_assoc]

omit [DecidableEq E] in
/-- Summed over a set of nodes, only the boundary of the set contributes. -/
theorem sum_div (N : Network V E) (f : E → K) (R : Finset V) : ∑ v ∈ R, div N f v =
      ∑ e, ((if N.head e ∈ R then f e else 0) - (if N.tail e ∈ R then f e else 0)) := by
  simp only [div]
  rw [sum_comm]
  refine sum_congr rfl fun e _ => ?_
  rw [sum_sub_distrib, sum_ite_eq, sum_ite_eq]

end Divergence

/-! ## Cuts -/

section Cut

variable {V : Type v} {E : Type u} {K : Type w} [AddCommGroup K] [LinearOrder K]
  [IsOrderedAddMonoid K] [Fintype V] [Fintype E] [DecidableEq V] {s t : V} {R : Finset V}

/-- The total capacity of the edges that leave a set of nodes. -/
def cutCap (N : Network V E) (cap : E → K) (R : Finset V) : K :=
  ∑ e, if N.tail e ∈ R ∧ N.head e ∉ R then cap e else 0

omit [LinearOrder K] [IsOrderedAddMonoid K] in
/-- When only `s` and `t` may be out of balance, the divergence of `t` is the
net flow across every cut that separates them. -/
theorem div_target_eq (N : Network V E) (f : E → K) (source : s ∈ R) (target : t ∉ R)
    (balanced : ∀ v, v ≠ s → v ≠ t → div N f v = 0) :
    div N f t = ∑ e, ((if N.tail e ∈ R ∧ N.head e ∉ R then f e else 0) -
      (if N.head e ∈ R ∧ N.tail e ∉ R then f e else 0)) := by
  have rest : ∑ v ∈ Rᶜ, div N f v = div N f t := by
    refine sum_eq_single_of_mem t (mem_compl.2 target) ?_
    intro v out notTarget
    refine balanced v ?_ notTarget
    rintro rfl
    exact (mem_compl.1 out) source
  rw [← rest, sum_div]
  refine sum_congr rfl fun e _ => ?_
  simp only [mem_compl]
  split_ifs <;> simp_all

theorem div_target_le_cutCap (N : Network V E) (f cap : E → K) (source : s ∈ R) (target : t ∉ R)
    (balanced : ∀ v, v ≠ s → v ≠ t → div N f v = 0) (lower : ∀ e, 0 ≤ f e)
    (upper : ∀ e, f e ≤ cap e) : div N f t ≤ cutCap N cap R := by
  rw [div_target_eq N f source target balanced, cutCap]
  refine Finset.sum_le_sum fun e _ => ?_
  have hl := lower e
  have hu := upper e
  split_ifs <;> simp_all

omit [LinearOrder K] [IsOrderedAddMonoid K] in
theorem div_target_eq_cutCap (N : Network V E) (f cap : E → K) (source : s ∈ R) (target : t ∉ R)
    (balanced : ∀ v, v ≠ s → v ≠ t → div N f v = 0)
    (leaving : ∀ e, N.tail e ∈ R → N.head e ∉ R → f e = cap e)
    (entering : ∀ e, N.head e ∈ R → N.tail e ∉ R → f e = 0) : div N f t = cutCap N cap R := by
  rw [div_target_eq N f source target balanced, cutCap]
  refine sum_congr rfl fun e _ => ?_
  have out := leaving e
  have back := entering e
  split_ifs <;> simp_all

omit [Fintype V] in
/-- No flow within bounds has less total divergence in a set of nodes than one
that saturates the edges leaving the set and has its lower bounds on the edges
entering it. -/
theorem sum_div_le_of_closed (N : Network V E) {f g lo up : E → K} (lower : ∀ e, lo e ≤ g e)
    (upper : ∀ e, g e ≤ up e) (leaving : ∀ e, N.tail e ∈ R → N.head e ∉ R → f e = up e)
    (entering : ∀ e, N.head e ∈ R → N.tail e ∉ R → f e = lo e) :
    ∑ v ∈ R, div N f v ≤ ∑ v ∈ R, div N g v := by
  rw [sum_div, sum_div]
  refine Finset.sum_le_sum fun e _ => ?_
  by_cases tail : N.tail e ∈ R
  · by_cases head : N.head e ∈ R
    · simp [tail, head]
    · simpa [tail, head, leaving e tail head] using upper e
  · by_cases head : N.head e ∈ R
    · simpa [tail, head, entering e head tail] using lower e
    · simp [tail, head]

omit [LinearOrder K] [IsOrderedAddMonoid K] in
theorem sum_div_univ (N : Network V E) (f : E → K) : ∑ v, div N f v = 0 := by
  rw [sum_div]
  simp

end Cut

/-! ## Costs -/

section Cost

variable {V : Type v} {E : Type u} {K : Type w} [CommRing K] [Fintype E] [DecidableEq V]

/-- The cost of a flow. -/
def cost (c f : E → K) : K := ∑ e, f e * c e

/-- The cost of an edge relative to node potentials. -/
def reduced (N : Network V E) (c : E → K) (π : V → K) (e : E) : K :=
  c e + π (N.tail e) - π (N.head e)

/-- Potential differences along the edges collect to the divergences. -/
theorem sum_potential [Fintype V] (N : Network V E) (f : E → K) (π : V → K) :
    ∑ e, f e * (π (N.head e) - π (N.tail e)) = ∑ v, π v * div N f v := by
  have inner : ∀ e, f e * (π (N.head e) - π (N.tail e)) =
      ∑ v, π v * ((if N.head e = v then f e else 0) - (if N.tail e = v then f e else 0)) := by
    intro e
    simp only [mul_sub, mul_ite, mul_zero, sum_sub_distrib, sum_ite_eq, mem_univ, if_true]
    ring
  simp only [inner, div, mul_sum]
  exact sum_comm

theorem cost_eq_reduced [Fintype V] (N : Network V E) (c f : E → K) (π : V → K) :
    cost c f = ∑ e, f e * reduced N c π e + ∑ v, π v * div N f v := by
  rw [← sum_potential, cost, ← sum_add_distrib]
  refine sum_congr rfl fun e _ => ?_
  simp only [reduced]
  ring

/-- **Complementary slackness.** If every edge with room to grow has
non-negative reduced cost and every edge with room to shrink has non-positive
reduced cost, no flow with the same divergences is cheaper. -/
theorem cost_le_of_reduced [Fintype V] [LinearOrder K] [IsStrictOrderedRing K]
    (N : Network V E) (c : E → K) (π : V → K) {lo up f g : E → K}
    (lower : ∀ e, lo e ≤ g e) (upper : ∀ e, g e ≤ up e)
    (grow : ∀ e, f e < up e → 0 ≤ reduced N c π e) (shrink : ∀ e, lo e < f e → reduced N c π e ≤ 0)
    (eq : ∀ v, div N g v = div N f v) : cost c f ≤ cost c g := by
  rw [cost_eq_reduced N c f π, cost_eq_reduced N c g π]
  have potentials : ∑ v, π v * div N g v = ∑ v, π v * div N f v :=
    sum_congr rfl fun v _ => by rw [eq v]
  rw [potentials]
  refine add_le_add_left (Finset.sum_le_sum fun e _ => ?_) _
  rcases lt_trichotomy (f e) (g e) with less | equal | more
  · exact mul_le_mul_of_nonneg_right less.le (grow e (less.trans_le (upper e)))
  · rw [equal]
  · exact mul_le_mul_of_nonpos_right more.le (shrink e ((lower e).trans_lt more))

variable [DecidableEq E]

omit [DecidableEq V] in
theorem cost_push (c f : E → K) (a : Dart E) (x : K) :
    cost c (push f a x) = cost c f + x * signed a (c a.edge) := by
  have single : cost c (Pi.single a.edge (signed a x) : E → K) = signed a x * c a.edge := by
    rw [cost, sum_eq_single a.edge]
    · simp
    · intro e _ other
      simp [other]
    · simp
  have split : cost c (f + Pi.single a.edge (signed a x)) =
      cost c f + cost c (Pi.single a.edge (signed a x) : E → K) := by
    simp only [cost, Pi.add_apply, add_mul, sum_add_distrib]
  rw [push_eq_add_single, split, single]
  cases a with
  | mk e back => cases back <;> simp [signed]

omit [DecidableEq V] in
theorem cost_pushAll (c f : E → K) (p : List (Dart E)) (x : K) :
    cost c (pushAll f p x) = cost c f + x * (p.map fun a => signed a (c a.edge)).sum := by
  induction p generalizing f with
  | nil => simp
  | cons a p ih =>
    rw [pushAll_cons, ih, cost_push, List.map_cons, List.sum_cons]
    ring

end Cost

end Goblin.Library
