import Goblin.Library.Rounding
import Goblin.Library.Walk

/-!
# Graph objects

The data that the solvers read from an `abstractMixedGraph`: `n` nodes, `m`
arcs, capacity bounds, lengths, node demands, and at every node the list of
incidences that an investigator enumerates. An arc index `a < 2m` is the edge
`a >> 1` together with the bit `a & 1`, so `a ^ 1` is the reverse arc.

`TCap` and `TFloat` values are exact rationals; `toTCap` is the conversion from
the latter to the former. `InfCap` is the constant of the library, because
`ResCap` computes with it.

The flow (`Sub`) and the node potentials are arguments of the operations below,
since the solvers change them. `Divergence` is computed from the incidence
lists as the library does it and agrees with the divergence of the network
(`DiGraph.divergence_eq`).
-/

set_option autoImplicit false

namespace Goblin

open Library List

def infCap : ℚ := 1000000000

def infFloat : ℚ := 10 ^ 50

theorem infFloat_pos : 0 < infFloat := by norm_num [infFloat]

def noNode : ℕ := 200000

/-- The conversion of a `TFloat` number to `TCap`, that is from double to float. -/
def toTCap (x : ℚ) : ℚ := nearest 24 (-149) x

theorem toTCap_natCast {k : ℕ} (small : k < 2 ^ 24) : toTCap k = k :=
  nearest_natCast_of_lt (by decide) (by decide) small

/-- Arc indices `a < 2m`: the edge `a >> 1` and the bit `a & 1`. -/
abbrev Arc (m : ℕ) := Dart (Fin m)

/-- The arc indices in increasing order. -/
def arcs (m : ℕ) : List (Arc m) :=
  (finRange m).flatMap fun e => [⟨e, false⟩, ⟨e, true⟩]

theorem mem_arcs {m : ℕ} (a : Arc m) : a ∈ arcs m := by
  rw [arcs, mem_flatMap]
  refine ⟨a.edge, mem_finRange _, ?_⟩
  cases a with
  | mk e back => cases back <;> simp

theorem nodup_arcs (m : ℕ) : (arcs m).Nodup := by
  rw [arcs, nodup_flatMap]
  refine ⟨fun e _ => by simp, (nodup_finRange m).imp ?_⟩
  intro e e' other
  simp [disjoint_left, other]

/-! The numerals of small graphs and the lists of nodes and arcs refer to these instances. -/

instance neZero_one : NeZero 1 := ⟨by decide⟩

instance neZero_two : NeZero 2 := ⟨by decide⟩

instance neZero_three : NeZero 3 := ⟨by decide⟩

instance neZero_five : NeZero 5 := ⟨by decide⟩

instance lawfulBEq_node (n : ℕ) : LawfulBEq (Fin n) := inferInstance

instance lawfulBEq_arc (m : ℕ) : LawfulBEq (Arc m) := inferInstance

/-- A graph with incidence lists, capacities, lengths and demands. The bounds
on the capacities are those that `SetUCap` and `SetLCap` enforce. -/
structure MixedGraph (n m : ℕ) extends Network (Fin n) (Fin m) where
  incidences : Fin n → List (Arc m)
  orientation : Fin m → Bool
  ucap : Fin m → ℚ
  lcap : Fin m → ℚ
  length : Fin m → ℚ
  demand : Fin n → ℚ
  mem_incidences : ∀ v a, a ∈ incidences v ↔ toNetwork.src a = v
  nodup_incidences : ∀ v, (incidences v).Nodup
  ucap_nonneg : ∀ e, 0 ≤ ucap e
  lcap_nonneg : ∀ e, 0 ≤ lcap e

/-- A graph all of whose arcs are directed. -/
structure DiGraph (n m : ℕ) extends MixedGraph n m where
  directed : ∀ e, orientation e = true

/-- The graph with the given arcs and integral capacities. Its incidence lists
are sorted by the arc indices. -/
def MixedGraph.ofArcs {n m : ℕ} (tail head : Fin m → Fin n) (orientation : Fin m → Bool)
    (ucap lcap : Fin m → ℕ) (length : Fin m → ℚ) (demand : Fin n → ℚ) : MixedGraph n m where
  tail := tail
  head := head
  incidences := fun v => (arcs m).filter fun a => (Network.mk tail head).src a = v
  orientation := orientation
  ucap := fun e => ucap e
  lcap := fun e => lcap e
  length := length
  demand := demand
  mem_incidences := by simp [mem_arcs]
  nodup_incidences := fun _ => (nodup_arcs m).filter _
  ucap_nonneg := by simp
  lcap_nonneg := by simp

/-- The same with directed arcs only. -/
def DiGraph.ofArcs {n m : ℕ} (tail head : Fin m → Fin n) (ucap lcap : Fin m → ℕ)
    (length : Fin m → ℚ) (demand : Fin n → ℚ) : DiGraph n m where
  toMixedGraph := MixedGraph.ofArcs tail head (fun _ => true) ucap lcap length demand
  directed := fun _ => rfl

/-- `TOptSPX`: which arcs a search may use and by which lengths. -/
inductive TOptSPX where
  | plain
  | subgraph
  | residual
  | reduced
  | redRes
deriving DecidableEq, Repr

namespace TOptSPX

/-- `characteristic & SPX_SUBGRAPH` -/
def hasSubgraph : TOptSPX → Bool
  | .subgraph => true
  | _ => false

/-- `characteristic & SPX_RESIDUAL` -/
def hasResidual : TOptSPX → Bool
  | .residual => true
  | .redRes => true
  | _ => false

end TOptSPX

namespace MixedGraph

variable {n m : ℕ} (G : MixedGraph n m)

abbrev startNode (a : Arc m) : Fin n := G.src a

abbrev endNode (a : Arc m) : Fin n := G.dst a

/-- Directed arcs cannot be traversed backwards. -/
def blocking (a : Arc m) : Bool := G.orientation a.edge && a.back

section

variable (sub : Fin m → ℚ)

/-- `ResCap`: uncapacitated arcs offer what is left up to `InfCap`. -/
def resCap (a : Arc m) : ℚ :=
  if a.back then sub a.edge - G.lcap a.edge
  else if G.ucap a.edge < infCap then G.ucap a.edge - sub a.edge
  else if sub a.edge < infCap then infCap - sub a.edge
  else 0

def redLength (potential : Fin n → ℚ) (a : Arc m) : ℚ :=
  if G.orientation a.edge then
    (if a.back then -G.length a.edge else G.length a.edge) +
      potential (G.startNode a) - potential (G.endNode a)
  else G.length a.edge + potential (G.startNode a) + potential (G.endNode a)

/-- `Eligible`: the arcs a search with this characteristic may use. -/
def eligible (delta : ℚ) (characteristic : TOptSPX) (a : Arc m) : Bool :=
  if characteristic.hasSubgraph then decide (0 < sub a.edge) && !G.blocking a
  else if characteristic.hasResidual && G.blocking ⟨a.edge, true⟩ then
    decide (delta < G.resCap sub a)
  else decide (0 < G.ucap a.edge) && !G.blocking a

def degIn (v : Fin n) : ℚ :=
  ((G.incidences v).map fun a => if G.blocking a then sub a.edge else 0).sum

def degOut (v : Fin n) : ℚ :=
  ((G.incidences v).map fun a => if G.blocking a.rev then sub a.edge else 0).sum

def divergence (v : Fin n) : ℚ := G.degIn sub v - G.degOut sub v

def weight : ℚ := ∑ e, |sub e| * G.length e

end

def maxUCap : ℚ := (finRange m).foldl (fun cap e => max cap (G.ucap e)) 0

theorem maxUCap_integral (integral : ∀ e, ∃ k : ℕ, G.ucap e = k) : ∃ k : ℕ, G.maxUCap = k := by
  have keeps : ∀ (l : List (Fin m)) (x : ℚ), (∃ k : ℕ, x = k) →
      ∃ k : ℕ, l.foldl (fun cap e => max cap (G.ucap e)) x = k := by
    intro l
    induction l with
    | nil => exact fun x start => start
    | cons e l ih =>
      rintro x ⟨k, rfl⟩
      obtain ⟨k', val⟩ := integral e
      exact ih _ ⟨max k k', by dsimp only; rw [val, Nat.cast_max]⟩
  exact keeps _ 0 ⟨0, by simp⟩

end MixedGraph

namespace DiGraph

variable {n m : ℕ} (G : DiGraph n m)

@[simp] theorem blocking_iff (a : Arc m) : G.blocking a = a.back := by
  simp [MixedGraph.blocking, G.directed]

section

variable (potential : Fin n → ℚ)
include potential

theorem redLength_eq (a : Arc m) : G.redLength potential a =
      signed a (G.length a.edge) + potential (G.startNode a) - potential (G.endNode a) := by
  simp [MixedGraph.redLength, G.directed, signed]

theorem redLength_rev (a : Arc m) : G.redLength potential a.rev = -G.redLength potential a := by
  simp only [redLength_eq, signed_rev, Dart.rev_edge, Network.src_rev, Network.dst_rev]
  ring

theorem redLength_forward (e : Fin m) :
    G.redLength potential ⟨e, false⟩ = reduced G.toNetwork G.length potential e := by
  simp [redLength_eq, signed, reduced]

theorem redLength_backward (e : Fin m) :
    G.redLength potential ⟨e, true⟩ = -reduced G.toNetwork G.length potential e :=
  (G.redLength_rev potential ⟨e, false⟩).trans (by rw [redLength_forward])

end

/-- On a directed graph the residual searches use the arcs of residual
capacity above `delta`. -/
theorem eligible_residual (sub : Fin m → ℚ) (delta : ℚ) {characteristic : TOptSPX}
    (residual : characteristic.hasResidual = true) (a : Arc m) :
    G.eligible sub delta characteristic a = decide (delta < G.resCap sub a) := by
  cases characteristic <;> simp [TOptSPX.hasResidual] at residual <;>
    simp [MixedGraph.eligible, TOptSPX.hasSubgraph, TOptSPX.hasResidual]

/-- **The degree labels describe the divergences of the network.** -/
theorem divergence_eq (sub : Fin m → ℚ) (v : Fin n) :
    G.divergence sub v = div G.toNetwork sub v := by
  have split : G.divergence sub v =
      ((G.incidences v).map fun a => if a.back then sub a.edge else -sub a.edge).sum := by
    rw [MixedGraph.divergence, MixedGraph.degIn, MixedGraph.degOut]
    induction G.incidences v with
    | nil => simp
    | cons a l ih =>
      simp only [map_cons, sum_cons, ← ih]
      cases a with
      | mk e back => cases back <;> simp <;> ring
  have finset : (G.incidences v).toFinset = Finset.univ.filter fun a => G.src a = v := by
    ext a
    simp [G.mem_incidences]
  rw [split, ← sum_toFinset _ (G.nodup_incidences v), finset, Finset.sum_filter, sum_dart, div]
  refine Finset.sum_congr rfl fun e _ => ?_
  simp only [Network.src_forward, Network.src_backward, Bool.false_eq_true, if_false, if_true]
  split_ifs <;> ring

end DiGraph

end Goblin
