import Goblin.Augment
import Goblin.Library.Termination

/-!
# Edge connected components

`EdgeConnected(k)` splits the nodes into classes, one colour each. The first class which is not
finished becomes a graph of its own. If its edge connectivity is at least `k`, the class is
finished. Otherwise the nodes on one side of a minimum cut get a new colour.

`EdgeConnectivity` is a parameter, as are the two methods that are called for `k = 1` and `k = 2`.
A set of nodes which no cut below `k` separates is never split, since the cuts of a class are not
smaller than those of its parts. `edgeConnected_spec` states that the final classes are the
maximal sets of this kind.
-/

set_option autoImplicit false

namespace Goblin

open Library Function Finset

/-! ## The graph of a class -/

/-- A graph with the nodes `0, …, n - 1`, and its edges with their capacities. -/
structure ClassGraph where
  n : ℕ
  edges : List (ℕ × ℕ × ℚ)

namespace ClassGraph

variable (H : ClassGraph) (side : ℕ → Bool)

/-- The capacity of the edges between the two sides. -/
def cut : ℚ := (H.edges.map fun e => if side e.1 = side e.2.1 then 0 else e.2.2).sum

/-- There are nodes on both sides. -/
def Proper : Prop := (∃ u < H.n, side u = true) ∧ ∃ u < H.n, side u = false

structure Valid : Prop where
  ends : ∀ e ∈ H.edges, e.1 < H.n ∧ e.2.1 < H.n
  cap_nonneg : ∀ e ∈ H.edges, 0 ≤ e.2.2

/-- The capacity of a minimum cut, and the nodes that get the colour `CONN_RIGHT_HAND`. -/
structure MinimumCut (result : ℚ × (ℕ → Bool)) : Prop where
  proper : H.Proper result.2
  value : result.1 = H.cut result.2
  least : ∀ side, H.Proper side → result.1 ≤ H.cut side

end ClassGraph

/-- The nodes of a class by their new numbers, and the new numbers of all nodes. -/
structure NodeMaps (n : ℕ) where
  revMap : List (Fin n)
  map : Fin n → ℕ

/-- The variables of `EdgeConnected`. -/
structure ClassState (n : ℕ) where
  nodeColour : Fin n → ℕ
  cNext : ℕ
  cCurrent : ℕ

namespace ClassState

variable {n : ℕ} (st : ClassState n)

/-- One node of the loop that numbers the nodes of the current class. -/
def enter (M : NodeMaps n) (v : Fin n) : NodeMaps n :=
  if st.nodeColour v = st.cCurrent then
    ⟨M.revMap ++ [v], update M.map v M.revMap.length⟩
  else { M with map := update M.map v noNode }

def collect : NodeMaps n := (List.finRange n).foldl st.enter ⟨[], fun _ => noNode⟩

/-- The right hand side of the cut gets the colour `cNext`. -/
def separate (M : NodeMaps n) (right : ℕ → Bool) : ClassState n :=
  { st with
    nodeColour := M.revMap.zipIdx.foldl
      (fun colour p => if right p.2 then update colour p.1 st.cNext else colour) st.nodeColour
    cNext := st.cNext + 1 }

def finish : ClassState n := { st with cCurrent := st.cCurrent + 1 }

/-- The nodes of a colour. -/
def members (c : ℕ) : Finset (Fin n) := {v | st.nodeColour v = c}

@[simp] theorem mem_members {st : ClassState n} {c : ℕ} {v : Fin n} :
    v ∈ st.members c ↔ st.nodeColour v = c :=
  mem_filter_univ v

end ClassState

namespace MixedGraph

variable {n m : ℕ} (G : MixedGraph n m) (edgeConnectivity : ClassGraph → ℚ × (ℕ → Bool)) (k : ℚ)

def classGraph (st : ClassState n) (M : NodeMaps n) : ClassGraph where
  n := M.revMap.length
  edges := (List.finRange m).filterMap fun e =>
    let x := G.startNode ⟨e, false⟩
    let y := G.endNode ⟨e, false⟩
    if st.nodeColour x = st.cCurrent ∧ st.nodeColour y = st.cCurrent then
      some (M.map x, M.map y, G.ucap e)
    else none

/-- One iteration of `EdgeConnected`. -/
def classRound (st : ClassState n) : Except Raise (ClassState n ⊕ ClassState n) :=
  if st.cCurrent < st.cNext then
    let M := st.collect
    if 1 < M.revMap.length then
      let (value, right) := edgeConnectivity (G.classGraph st M)
      if k ≤ value then .ok (.inl st.finish) else .ok (.inl (st.separate M right))
    else .ok (.inl st.finish)
  else .ok (.inr st)

def edgeConnected (connected biconnected : Except Raise (ClassState n × Bool)) (fuel : ℕ) :
    Except Raise (ClassState n × Bool) :=
  if k = 1 then connected
  else if k = 2 then biconnected
  else do
    let st ← loop .fuel (G.classRound edgeConnectivity k) fuel ⟨fun _ => 0, 1, 0⟩
    return (st, st.cNext = 1)

/-! ## Cuts -/

/-- The capacity of the edges within `U` that have one end in `S`. -/
def cutWithin (U S : Finset (Fin n)) : ℚ :=
  ∑ e with G.tail e ∈ U ∧ G.head e ∈ U ∧ ¬ (G.tail e ∈ S ↔ G.head e ∈ S), G.ucap e

/-- No cut of the subgraph that is induced by `U` has a capacity below `k`. -/
def EdgeConnectedOn (U : Finset (Fin n)) : Prop :=
  ∀ S, (∃ v ∈ U, v ∈ S) → (∃ v ∈ U, v ∉ S) → k ≤ G.cutWithin U S

variable {G k edgeConnectivity} {U W S T : Finset (Fin n)} {st : ClassState n} {M : NodeMaps n}
  {u v : Fin n}

theorem cutWithin_mono (subset : U ⊆ W) : G.cutWithin U S ≤ G.cutWithin W S := by
  refine sum_le_sum_of_subset_of_nonneg (fun e mem => ?_) fun e _ _ => G.ucap_nonneg e
  rw [mem_filter_univ] at mem ⊢
  exact ⟨subset mem.1, subset mem.2.1, mem.2.2⟩

theorem cutWithin_congr (eq : ∀ v ∈ U, v ∈ S ↔ v ∈ T) : G.cutWithin U S = G.cutWithin U T := by
  refine sum_congr (filter_congr fun e _ => ?_) fun _ _ => rfl
  refine and_congr_right fun tail => and_congr_right fun head => ?_
  rw [eq _ tail, eq _ head]

end MixedGraph

/-! ## The numbers of the nodes -/

section Numbers

variable {n : ℕ} {st : ClassState n} {M : NodeMaps n} {u v : Fin n} {right : ℕ → Bool}

/-- The two maps are inverse to each other on the nodes that have been entered. -/
def NodeMaps.Inverse (M : NodeMaps n) : Prop := ∀ i v, M.revMap[i]? = some v → M.map v = i

theorem NodeMaps.Inverse.reads (inverse : M.Inverse) (mem : v ∈ M.revMap) :
    M.revMap[M.map v]? = some v := by
  obtain ⟨i, reads⟩ := List.mem_iff_getElem?.1 mem
  rw [inverse i v reads, reads]

theorem ClassState.enter_fold (l : List (Fin n)) (nodup : l.Nodup) (inverse : M.Inverse)
    (fresh : ∀ v ∈ l, v ∉ M.revMap) : (l.foldl st.enter M).Inverse ∧
      ∀ v, v ∈ (l.foldl st.enter M).revMap ↔
        v ∈ M.revMap ∨ v ∈ l ∧ st.nodeColour v = st.cCurrent := by
  induction l generalizing M with
  | nil => exact ⟨inverse, by simp⟩
  | cons w l ih =>
    obtain ⟨notMem, nodup⟩ := List.nodup_cons.1 nodup
    have new : w ∉ M.revMap := fresh w List.mem_cons_self
    have kept : ∀ {i v} (x : ℕ), M.revMap[i]? = some v → update M.map w x v = i := by
      intro i v x reads
      rw [update_of_ne fun eq : v = w => new (eq ▸ List.mem_of_getElem? reads)]
      exact inverse i v reads
    rw [List.foldl_cons, enter]
    split_ifs with here
    · have inverse1 : NodeMaps.Inverse ⟨M.revMap ++ [w], update M.map w M.revMap.length⟩ := by
        intro i v reads
        rcases lt_or_ge i M.revMap.length with old | last
        · rw [List.getElem?_append_left old] at reads
          exact kept _ reads
        · rw [List.getElem?_append_right last, List.getElem?_singleton] at reads
          split_ifs at reads with zero
          cases reads
          show update M.map w _ w = i
          rw [update_self]
          omega
      obtain ⟨inverse', members⟩ := ih nodup inverse1 fun v later => by
        rw [List.mem_append, List.mem_singleton, not_or]
        exact ⟨fresh v (List.mem_cons_of_mem w later), fun eq => notMem (eq ▸ later)⟩
      refine ⟨inverse', fun v => (members v).trans ?_⟩
      by_cases eq : v = w <;> simp [eq, here]
    · obtain ⟨inverse', members⟩ := ih (M := { M with map := update M.map w noNode }) nodup
        (fun i v reads => kept _ reads) fun v later => fresh v (List.mem_cons_of_mem w later)
      refine ⟨inverse', fun v => (members v).trans ?_⟩
      by_cases eq : v = w <;> simp [eq, here]

theorem ClassState.collect_spec (st : ClassState n) : st.collect.Inverse ∧
    ∀ v, v ∈ st.collect.revMap ↔ st.nodeColour v = st.cCurrent := by
  obtain ⟨inverse, members⟩ : st.collect.Inverse ∧ _ := enter_fold (M := ⟨[], fun _ => noNode⟩)
    (List.finRange n) (List.nodup_finRange n) nofun fun _ _ => List.not_mem_nil
  exact ⟨inverse, fun v => (members v).trans (by simp)⟩

theorem ClassState.recolour (right : ℕ → Bool) (x : ℕ) (l : List (Fin n × ℕ))
    (numbers : ∀ p ∈ l, M.map p.1 = p.2) (colour : Fin n → ℕ) (v : Fin n) :
    l.foldl (fun colour p => if right p.2 then update colour p.1 x else colour) colour v =
      if v ∈ l.map Prod.fst ∧ right (M.map v) = true then x else colour v := by
  induction l generalizing colour with
  | nil => simp
  | cons p l ih =>
    rw [List.foldl_cons, ih fun q later => numbers q (List.mem_cons_of_mem p later)]
    have number := numbers p List.mem_cons_self
    by_cases eq : v = p.1
    · subst eq
      rw [number]
      by_cases isRight : right p.2 = true <;> simp [isRight]
    · have val : (if right p.2 then update colour p.1 x else colour) v = colour v := by
        split_ifs
        · exact update_of_ne eq ..
        · rfl
      simp only [val, List.map_cons, List.mem_cons, eq, false_or]

theorem ClassState.separate_colour (st : ClassState n) (right : ℕ → Bool) (v : Fin n) :
    (st.separate st.collect right).nodeColour v =
      if st.nodeColour v = st.cCurrent ∧ right (st.collect.map v) = true then st.cNext
      else st.nodeColour v := by
  obtain ⟨inverse, members⟩ := st.collect_spec
  have numbers : ∀ p ∈ st.collect.revMap.zipIdx, st.collect.map p.1 = p.2 := fun p mem =>
    inverse p.2 p.1 (List.mem_zipIdx_iff_getElem?.1 mem)
  have colours := recolour right st.cNext _ numbers st.nodeColour v
  simp only [List.zipIdx_map_fst, members] at colours
  exact colours

end Numbers

/-! ## The classes -/

/-- What `EdgeConnectivity` does for graphs with several nodes. -/
def FindsMinimumCuts (edgeConnectivity : ClassGraph → ℚ × (ℕ → Bool)) : Prop :=
  ∀ H : ClassGraph, 1 < H.n → H.Valid → H.MinimumCut (edgeConnectivity H)

theorem sum_filterMap {α β : Type} (P : α → Prop) [DecidablePred P] (F : α → β) (g : β → ℚ)
    (l : List α) : ((l.filterMap fun a => if P a then some (F a) else none).map g).sum =
      (l.map fun a => if P a then g (F a) else 0).sum := by
  induction l with
  | nil => rfl
  | cons a l ih =>
    by_cases holds : P a <;> simp [holds, ih]

namespace MixedGraph

variable {n m : ℕ} {G : MixedGraph n m} {edgeConnectivity : ClassGraph → ℚ × (ℕ → Bool)} {k : ℚ}
  {U S : Finset (Fin n)} {st : ClassState n} {u v : Fin n}

/-- A cut of the graph of a class is a cut of the subgraph that the class induces. -/
theorem cut_classGraph (M : NodeMaps n) (side : ℕ → Bool) : (G.classGraph st M).cut side =
    G.cutWithin (st.members st.cCurrent) {v | side (M.map v) = true} := by
  simp only [ClassGraph.cut, classGraph, sum_filterMap]
  rw [← List.ofFn_eq_map, List.sum_ofFn, cutWithin, sum_filter]
  refine sum_congr rfl fun e _ => ?_
  have ends : G.startNode ⟨e, false⟩ = G.tail e ∧ G.endNode ⟨e, false⟩ = G.head e := ⟨rfl, rfl⟩
  rw [ends.1, ends.2, ← ite_not (side _ = side _), ← ite_and]
  refine if_congr ?_ rfl rfl
  simp only [ClassState.mem_members, mem_filter_univ, and_assoc, ← Bool.eq_iff_iff]

theorem map_lt (mem : v ∈ st.members st.cCurrent) :
    st.collect.revMap[st.collect.map v]? = some v ∧
      st.collect.map v < st.collect.revMap.length := by
  obtain ⟨inverse, members⟩ := st.collect_spec
  have reads := inverse.reads ((members v).2 (ClassState.mem_members.1 mem))
  exact ⟨reads, (List.getElem?_eq_some_iff.1 reads).1⟩

theorem exists_map {i : ℕ} (low : i < st.collect.revMap.length) :
    ∃ v ∈ st.members st.cCurrent, st.collect.map v = i := by
  obtain ⟨inverse, members⟩ := st.collect_spec
  have reads := List.getElem?_eq_getElem low
  exact ⟨_, ClassState.mem_members.2 ((members _).1 (List.getElem_mem low)), inverse i _ reads⟩

theorem classGraph_valid : (G.classGraph st st.collect).Valid := by
  have source : ∀ e ∈ (G.classGraph st st.collect).edges, ∃ f : Fin m,
      (st.nodeColour (G.tail f) = st.cCurrent ∧ st.nodeColour (G.head f) = st.cCurrent) ∧
        (st.collect.map (G.tail f), st.collect.map (G.head f), G.ucap f) = e := by
    intro e mem
    obtain ⟨f, -, found⟩ := List.mem_filterMap.1 mem
    dsimp only at found
    split_ifs at found with inside
    exact ⟨f, inside, Option.some.inj found⟩
  have low : ∀ v, st.nodeColour v = st.cCurrent → st.collect.map v < st.collect.revMap.length :=
    fun v colour => (map_lt (ClassState.mem_members.2 colour)).2
  refine ⟨fun e mem => ?_, fun e mem => ?_⟩
  · obtain ⟨f, inside, rfl⟩ := source e mem
    exact ⟨low _ inside.1, low _ inside.2⟩
  · obtain ⟨f, -, rfl⟩ := source e mem
    exact G.ucap_nonneg f

section Cut

variable {result : ℚ × (ℕ → Bool)} (minimum : (G.classGraph st st.collect).MinimumCut result)
include minimum

theorem edgeConnectedOn_members (large : k ≤ result.1) :
    G.EdgeConnectedOn k (st.members st.cCurrent) := by
  rintro S ⟨v, memberV, inside⟩ ⟨w, memberW, out⟩
  have side : ∀ v ∈ st.members st.cCurrent,
      (st.collect.revMap[st.collect.map v]?.any fun v => decide (v ∈ S)) = decide (v ∈ S) := by
    intro v mem
    rw [(map_lt mem).1, Option.any_some]
  refine large.trans ((minimum.least
    (fun i => st.collect.revMap[i]?.any fun v => decide (v ∈ S)) ⟨?_, ?_⟩).trans_eq ?_)
  · exact ⟨_, (map_lt memberV).2, (side v memberV).trans (decide_eq_true inside)⟩
  · exact ⟨_, (map_lt memberW).2, (side w memberW).trans (decide_eq_false out)⟩
  · rw [cut_classGraph]
    refine cutWithin_congr fun v mem => ?_
    rw [mem_filter_univ, side v mem, decide_eq_true_iff]

theorem EdgeConnectedOn.same_side (connected : G.EdgeConnectedOn k U) (small : result.1 < k)
    (subset : U ⊆ st.members st.cCurrent) (memberU : u ∈ U) (memberV : v ∈ U)
    (right : result.2 (st.collect.map u) = true) : result.2 (st.collect.map v) = true := by
  by_contra left
  have least := connected {v | result.2 (st.collect.map v) = true}
    ⟨u, memberU, (mem_filter_univ u).2 right⟩
    ⟨v, memberV, fun mem => left ((mem_filter_univ v).1 mem)⟩
  have bound := least.trans (cutWithin_mono subset)
  rw [← cut_classGraph, ← minimum.value] at bound
  exact absurd small (not_lt.2 bound)

end Cut

/-! ## Rounds -/

/-- Each colour has been used, no set is split that cannot be separated, and the classes before
the current one cannot be separated. -/
structure ClassInv (G : MixedGraph n m) (k : ℚ) (st : ClassState n) : Prop where
  current : st.cCurrent ≤ st.cNext
  colours : ∀ c, (∃ v, st.nodeColour v = c) ↔ c < st.cNext
  kept : ∀ U, G.EdgeConnectedOn k U → ∀ u ∈ U, ∀ v ∈ U, st.nodeColour u = st.nodeColour v
  finished : ∀ c < st.cCurrent, G.EdgeConnectedOn k (st.members c)

theorem ClassInv.cNext_le (inv : ClassInv G k st) : st.cNext ≤ n := by
  have used : range st.cNext ⊆ univ.image st.nodeColour := fun c mem => by
    obtain ⟨v, colour⟩ := (inv.colours c).2 (mem_range.1 mem)
    exact mem_image.2 ⟨v, mem_univ v, colour⟩
  have count := (card_le_card used).trans card_image_le
  rwa [card_range, card_univ, Fintype.card_fin] at count

theorem ClassInv.finish (inv : ClassInv G k st) (more : st.cCurrent < st.cNext)
    (connected : G.EdgeConnectedOn k (st.members st.cCurrent)) : ClassInv G k st.finish := by
  refine ⟨more, inv.colours, inv.kept, fun c low => ?_⟩
  rcases Nat.lt_succ_iff_lt_or_eq.1 low with before | rfl
  · exact inv.finished c before
  · exact connected

theorem ClassInv.separate {result : ℚ × (ℕ → Bool)} (inv : ClassInv G k st)
    (more : st.cCurrent < st.cNext) (minimum : (G.classGraph st st.collect).MinimumCut result)
    (small : result.1 < k) : ClassInv G k (st.separate st.collect result.2) := by
  have colour := st.separate_colour result.2
  obtain ⟨⟨i, lowI, right⟩, j, lowJ, left⟩ := minimum.proper
  obtain ⟨x, memberX, rfl⟩ := exists_map lowI
  obtain ⟨y, memberY, rfl⟩ := exists_map lowJ
  rw [ClassState.mem_members] at memberX memberY
  have below : ∀ v, st.nodeColour v < st.cNext := fun v => (inv.colours _).1 ⟨v, rfl⟩
  refine ⟨more.le.trans (Nat.le_succ _), fun c => ⟨?_, fun low => ?_⟩, ?_, fun c low => ?_⟩
  · rintro ⟨v, rfl⟩
    rw [colour]
    split_ifs
    · exact Nat.lt_succ_self _
    · exact (below v).trans (Nat.lt_succ_self _)
  · rcases Nat.lt_succ_iff_lt_or_eq.1 low with before | rfl
    · obtain ⟨v, rfl⟩ := (inv.colours c).2 before
      by_cases moved : st.nodeColour v = st.cCurrent
      · exact ⟨y, by rw [colour, if_neg (by simp [left]), memberY, moved]⟩
      · exact ⟨v, by rw [colour, if_neg fun both => moved both.1]⟩
    · exact ⟨x, by rw [colour, if_pos ⟨memberX, right⟩]⟩
  · intro U connected u memberU v memberV
    have eq := inv.kept U connected
    rw [colour, colour, eq u memberU v memberV]
    by_cases here : st.nodeColour v = st.cCurrent
    · have subset : U ⊆ st.members st.cCurrent := fun w mem =>
        ClassState.mem_members.2 ((eq w mem v memberV).trans here)
      have sides : result.2 (st.collect.map u) = true ↔ result.2 (st.collect.map v) = true :=
        ⟨connected.same_side minimum small subset memberU memberV,
          connected.same_side minimum small subset memberV memberU⟩
      simp only [here, sides]
    · simp only [here, false_and, if_false]
  · have unchanged : (st.separate st.collect result.2).members c = st.members c := by
      have other : c ≠ st.cCurrent := Nat.ne_of_lt low
      have other' : c ≠ st.cNext := Nat.ne_of_lt (lt_trans low more)
      refine filter_congr fun v _ => ?_
      rw [colour]
      split_ifs with moved
      · rw [moved.1]
        exact iff_of_false other'.symm other.symm
      · exact Iff.rfl
    rw [unchanged]
    exact inv.finished c low

/-- **What one iteration preserves.** The classes become more, or one more is finished. -/
theorem classRound_spec (minimum : FindsMinimumCuts edgeConnectivity) (inv : ClassInv G k st) :
    (∃ st', G.classRound edgeConnectivity k st = .ok (.inl st') ∧ ClassInv G k st' ∧
      2 * n - (st'.cNext + st'.cCurrent) < 2 * n - (st.cNext + st.cCurrent)) ∨
    ∃ st', G.classRound edgeConnectivity k st = .ok (.inr st') ∧ ClassInv G k st' ∧
      st'.cCurrent = st'.cNext := by
  have bound := inv.cNext_le
  by_cases more : st.cCurrent < st.cNext
  swap
  · exact .inr ⟨st, if_neg more, inv, le_antisymm inv.current (not_lt.1 more)⟩
  have finish : G.EdgeConnectedOn k (st.members st.cCurrent) → ClassInv G k st.finish ∧
      2 * n - (st.finish.cNext + st.finish.cCurrent) < 2 * n - (st.cNext + st.cCurrent) :=
    fun connected => ⟨inv.finish more connected, by simp only [ClassState.finish]; omega⟩
  simp only [classRound, if_pos more]
  by_cases several : 1 < st.collect.revMap.length
  · have cut := minimum (G.classGraph st st.collect) several classGraph_valid
    simp only [if_pos several]
    by_cases large : k ≤ (edgeConnectivity (G.classGraph st st.collect)).1
    · exact .inl ⟨_, if_pos large, finish (edgeConnectedOn_members cut large)⟩
    · have inv' := inv.separate more cut (not_le.1 large)
      have bound' : st.cNext + 1 ≤ n := inv'.cNext_le
      refine .inl ⟨_, if_neg large, inv', ?_⟩
      simp only [ClassState.separate]
      omega
  · refine .inl ⟨_, if_neg several, finish fun S inside out => ?_⟩
    obtain ⟨v, memberV, inS⟩ := inside
    obtain ⟨w, memberW, notS⟩ := out
    have lowV := map_lt memberV
    have lowW := map_lt memberW
    have eq : st.collect.map v = st.collect.map w := by omega
    rw [eq, lowW.1] at lowV
    exact absurd (Option.some.inj lowV.1 ▸ inS) notS

/-- **`EdgeConnected` finds the `k`-edge connected components.** It returns, two nodes have the
same colour if and only if both are in a set that no cut below `k` separates, the colours are
`0, …, cNext - 1`, and the answer is whether no cut below `k` separates the graph. -/
theorem edgeConnected_spec (G : MixedGraph n m) (some : 0 < n) (high : 3 ≤ k)
    (minimum : FindsMinimumCuts edgeConnectivity)
    (connected biconnected : Except Raise (ClassState n × Bool)) :
    ∃ st answer, (∀ fuel, 2 * n ≤ fuel →
      G.edgeConnected edgeConnectivity k connected biconnected fuel = .ok (st, answer)) ∧
    (∀ u v, st.nodeColour u = st.nodeColour v ↔ ∃ U, u ∈ U ∧ v ∈ U ∧ G.EdgeConnectedOn k U) ∧
    (∀ c, (∃ v, st.nodeColour v = c) ↔ c < st.cNext) ∧
    (answer = true ↔ G.EdgeConnectedOn k univ) := by
  have start : ClassInv G k ⟨fun _ => 0, 1, 0⟩ := by
    refine ⟨Nat.zero_le _, fun c => ⟨?_, fun low => ⟨⟨0, some⟩, ?_⟩⟩, fun _ _ _ _ _ _ => rfl, nofun⟩
    · rintro ⟨v, rfl⟩
      exact Nat.one_pos
    · exact (Nat.lt_one_iff.1 low).symm
  obtain ⟨st, result, inv, done⟩ := loop_of_measure .fuel (G.classRound edgeConnectivity k)
    (ClassInv G k) (fun st => 2 * n - (st.cNext + st.cCurrent))
    (fun st => ClassInv G k st ∧ st.cCurrent = st.cNext)
    (fun st inv => classRound_spec minimum inv) start (2 * n) (by simp only; omega)
  have below : ∀ v, st.nodeColour v < st.cNext := fun v => (inv.colours _).1 ⟨v, rfl⟩
  refine ⟨st, st.cNext = 1, fun fuel enough => ?_, fun u v => ⟨fun same => ?_, ?_⟩, inv.colours, ?_⟩
  · rw [edgeConnected, if_neg (by linarith), if_neg (by linarith)]
    simp only [loop_mono result enough, bind, Except.bind]
    rfl
  · exact ⟨st.members (st.nodeColour u), ClassState.mem_members.2 rfl,
      ClassState.mem_members.2 same.symm, inv.finished _ (done ▸ below u)⟩
  · rintro ⟨U, memberU, memberV, connected⟩
    exact inv.kept U connected u memberU v memberV
  · rw [decide_eq_true_iff]
    constructor
    · intro single
      have all : st.members 0 = univ := filter_true_of_mem fun v _ =>
        Nat.lt_one_iff.1 (single ▸ below v)
      exact all ▸ inv.finished 0 (by omega)
    · intro whole
      by_contra several
      have first := below ⟨0, some⟩
      obtain ⟨x, colourX⟩ := (inv.colours 0).2 (by omega)
      obtain ⟨y, colourY⟩ := (inv.colours 1).2 (by omega)
      have same := inv.kept _ whole x (mem_univ x) y (mem_univ y)
      omega

/-! ## A search for a minimum cut -/

instance (H : ClassGraph) (side : ℕ → Bool) : Decidable (H.Proper side) :=
  inferInstanceAs (Decidable (_ ∧ _))

/-- The cuts of a graph with `n` nodes. -/
def sides (n : ℕ) : List (ℕ → Bool) := (List.range n).sublists.map fun l u => decide (u ∈ l)

/-- All cuts are compared. -/
def enumeratedCut (H : ClassGraph) : ℚ × (ℕ → Bool) :=
  match ((sides H.n).filter fun side => decide (H.Proper side)).argmin H.cut with
  | some side => (H.cut side, side)
  | none => (0, fun _ => false)

theorem exists_side {H : ClassGraph} {side : ℕ → Bool} (valid : H.Valid)
    (proper : H.Proper side) :
    ∃ side' ∈ (sides H.n).filter fun side => decide (H.Proper side),
      H.cut side' = H.cut side := by
  have same : ∀ u < H.n, decide (u ∈ (List.range H.n).filter side) = side u := fun u low => by
    simp [low]
  refine ⟨fun u => decide (u ∈ (List.range H.n).filter side), List.mem_filter.2 ⟨?_, ?_⟩, ?_⟩
  · exact List.mem_map_of_mem (List.mem_sublists.2 List.filter_sublist)
  · obtain ⟨⟨u, lowU, left⟩, v, lowV, right⟩ := proper
    exact decide_eq_true ⟨⟨u, lowU, (same u lowU).trans left⟩, v, lowV, (same v lowV).trans right⟩
  · unfold ClassGraph.cut
    congr 1
    refine List.map_congr_left fun e mem => ?_
    simp only [same _ (valid.ends e mem).1, same _ (valid.ends e mem).2]

theorem enumeratedCut_minimum : FindsMinimumCuts enumeratedCut := by
  intro H several valid
  unfold enumeratedCut
  cases least : ((sides H.n).filter fun side => decide (H.Proper side)).argmin H.cut with
  | none =>
    have first : H.Proper fun u => u = 0 := ⟨⟨0, by omega, rfl⟩, 1, several, rfl⟩
    obtain ⟨side, member, -⟩ := exists_side valid first
    rw [List.argmin_eq_none.1 least] at member
    exact absurd member List.not_mem_nil
  | some side =>
    refine ⟨of_decide_eq_true (List.mem_filter.1 (List.argmin_mem least)).2, rfl,
      fun other proper => ?_⟩
    obtain ⟨side', member, eq⟩ := exists_side valid proper
    rw [← eq]
    exact List.le_of_mem_argmin member least

/-- Three parallel edges between the nodes `0` and `1`, and one more to the node `2`. -/
def pendantNode : MixedGraph 3 4 :=
  .ofArcs ![0, 0, 0, 1] ![1, 1, 1, 2] (fun _ => false) (fun _ => 1) (fun _ => 0) (fun _ => 0)
    fun _ => 0

/-- The nodes `0` and `1` stay together, and the node `2` is split off. -/
theorem edgeConnected_pendantNode : ∃ st,
    pendantNode.edgeConnected enumeratedCut 3 (.error .fuel) (.error .fuel) 6 = .ok (st, false) ∧
      st.nodeColour 0 = st.nodeColour 1 ∧ st.nodeColour 0 ≠ st.nodeColour 2 := by
  obtain ⟨st, answer, returns, classes, -, meaning⟩ := edgeConnected_spec pendantNode (by decide)
    le_rfl enumeratedCut_minimum (.error .fuel) (.error .fuel)
  have bridge : ∀ U : Finset (Fin 3), 0 ∈ U → 2 ∈ U → ¬ pendantNode.EdgeConnectedOn 3 U := by
    intro U left right connected
    have high := (connected {2} ⟨2, right, by decide⟩ ⟨0, left, by decide⟩).trans
      (cutWithin_mono (subset_univ U))
    exact absurd high (by decide +kernel)
  have split : answer = false :=
    eq_false_of_ne_true fun whole => bridge univ (mem_univ 0) (mem_univ 2) (meaning.1 whole)
  refine ⟨st, split ▸ returns 6 le_rfl, ?_, fun same => ?_⟩
  · refine (classes 0 1).2 ⟨{0, 1}, by decide, by decide, ?_⟩
    unfold EdgeConnectedOn
    decide +kernel
  · obtain ⟨U, left, right, connected⟩ := (classes 0 2).1 same
    exact bridge U left right connected

end MixedGraph

end Goblin
