import Goblin.SimplexBasis

/-!
# Pivots preserve the basis

`PivotOperation` runs twice along the cycle that the pivot arc closes with the forest, from
both ends of the pivot arc upwards. The tree arcs it meets are the predecessors of nodes
above one end and not above the other (`CycleWalk.left_arc`, `CycleWalk.right_arc`), so no
edge is met twice, and the arc of least residual capacity is blocking afterwards.

Exchanging the blocking arc for the pivot arc is what `rehang_spec` describes, and
`pivots_preserve_basis` follows by induction over the pivots.
-/

set_option autoImplicit false

namespace Goblin

open Library List MixedGraph

variable {count : ℕ}

namespace DiGraph

variable {n m : ℕ} {G : DiGraph n m} {c : Arc m} {u v : Fin n}

/-! ## The pivot cycle -/

/-- The run along the pivot cycle from `u` and `v` on. The arcs are those that flow is
pushed along, and the flag marks the side of `u`. -/
inductive CycleWalk (G : DiGraph n m) (st : SimplexState n m) :
    Fin n → Fin n → List (Bool × Arc m) → Prop where
  | done {u v : Fin n} (stop : ¬ (v ≠ u ∧ (0 < st.depth u ∨ 0 < st.depth v))) :
      CycleWalk G st u v []
  | left {u v : Fin n} {a : Arc m} {p : List (Bool × Arc m)}
      (onward : v ≠ u ∧ (0 < st.depth u ∨ 0 < st.depth v)) (deeper : st.depth v < st.depth u)
      (label : st.pred u = some a) (rest : CycleWalk G st (G.startNode a) v p) :
      CycleWalk G st u v ((true, a) :: p)
  | right {u v : Fin n} {a : Arc m} {p : List (Bool × Arc m)}
      (onward : v ≠ u ∧ (0 < st.depth u ∨ 0 < st.depth v)) (deeper : ¬ st.depth v < st.depth u)
      (label : st.pred v = some a) (rest : CycleWalk G st u (G.startNode a) p) :
      CycleWalk G st u v ((false, a.rev) :: p)

section CycleWalk

variable {st : SimplexState n m} {u v : Fin n} {p : List (Bool × Arc m)} {a : Arc m}

theorem pred_of_depth (isDepth : IsDepth (G.parent st.pred) st.depth) (deep : 0 < st.depth v) :
    ∃ a, st.pred v = some a ∧ st.depth (G.startNode a) + 1 = st.depth v := by
  have notRoot : st.pred v ≠ none := by
    intro root
    rw [isDepth.root_iff.2 (parent_eq_none.2 root)] at deep
    omega
  obtain ⟨a, label⟩ := Option.ne_none_iff_exists'.1 notRoot
  exact ⟨a, label, (isDepth.of_parent (parent_of_pred label)).symm⟩

theorem exists_cycleWalk (isDepth : IsDepth (G.parent st.pred) st.depth) (u v : Fin n) :
    ∃ p, CycleWalk G st u v p ∧ p.length ≤ st.depth u + st.depth v := by
  induction total : st.depth u + st.depth v using Nat.strong_induction_on generalizing u v with
  | _ total ih =>
    by_cases onward : v ≠ u ∧ (0 < st.depth u ∨ 0 < st.depth v)
    · by_cases deeper : st.depth v < st.depth u
      · obtain ⟨a, label, depthA⟩ := pred_of_depth isDepth (show 0 < st.depth u by omega)
        obtain ⟨p, rest, short⟩ := ih _ (by omega) (G.startNode a) v rfl
        exact ⟨_, .left onward deeper label rest, by rw [length_cons]; omega⟩
      · obtain ⟨a, label, depthA⟩ := pred_of_depth isDepth (show 0 < st.depth v by omega)
        obtain ⟨p, rest, short⟩ := ih _ (by omega) u (G.startNode a) rfl
        exact ⟨_, .right onward deeper label rest, by rw [length_cons]; omega⟩
    · exact ⟨[], .done onward, by simp⟩

theorem CycleWalk.cycleCap_eq (walk : CycleWalk G st u v p) (enough : p.length < count)
    (delta : ℚ) :
    G.cycleCap st count u v delta = .ok ((p.map Prod.snd).foldl (G.narrow st.sub) delta) := by
  induction walk generalizing count delta with
  | done stop =>
    obtain ⟨count, rfl⟩ : ∃ k, count = k + 1 := ⟨count - 1, by simp at enough; omega⟩
    rw [cycleCap, if_neg stop]
    rfl
  | left onward deeper label rest ih =>
    rw [length_cons] at enough
    obtain ⟨count, rfl⟩ : ∃ k, count = k + 1 := ⟨count - 1, by omega⟩
    rw [cycleCap, if_pos onward, if_pos deeper]
    simp only [label, defined, bind, Except.bind]
    exact ih (by omega) _
  | right onward deeper label rest ih =>
    rw [length_cons] at enough
    obtain ⟨count, rfl⟩ : ∃ k, count = k + 1 := ⟨count - 1, by omega⟩
    rw [cycleCap, if_pos onward, if_neg deeper]
    simp only [label, defined, bind, Except.bind]
    exact ih (by omega) _

/-- The arcs on the side of `u` lead to nodes above `u` that are not above `v`, and
conversely. -/
theorem CycleWalk.arcs (isDepth : IsDepth (G.parent st.pred) st.depth)
    (walk : CycleWalk G st u v p) :
    (∀ a, (true, a) ∈ p → ∃ y, st.pred y = some a ∧ Ancestor (G.parent st.pred) y u ∧
      ¬ Ancestor (G.parent st.pred) y v) ∧
    ∀ a, (false, a) ∈ p → ∃ y, st.pred y = some a.rev ∧ Ancestor (G.parent st.pred) y v ∧
      ¬ Ancestor (G.parent st.pred) y u := by
  induction walk with
  | done stop => simp
  | @left u v b p onward deeper label rest ih =>
    have notAbove : ¬ Ancestor (G.parent st.pred) u v := fun above => by
      have bound := above.depth_le isDepth
      omega
    have step : Ancestor (G.parent st.pred) (G.startNode b) u := .single (parent_of_pred label)
    constructor
    · intro a mem
      rcases mem_cons.1 mem with eq | later
      · cases eq
        exact ⟨u, label, .refl, notAbove⟩
      · obtain ⟨y, labelY, above, other⟩ := ih.1 a later
        exact ⟨y, labelY, above.trans step, other⟩
    · intro a mem
      rcases mem_cons.1 mem with eq | later
      · cases eq
      obtain ⟨y, labelY, above, other⟩ := ih.2 a later
      refine ⟨y, labelY, above, fun above' => ?_⟩
      by_cases eq : y = u
      · exact notAbove (eq ▸ above)
      · obtain ⟨q, parentU, above''⟩ := above'.of_ne eq
        rw [parent_of_pred label] at parentU
        cases parentU
        exact other above''
  | @right u v b p onward deeper label rest ih =>
    have notAbove : ¬ Ancestor (G.parent st.pred) v u := fun above =>
      onward.1 (above.eq_of_depth isDepth (by omega))
    have step : Ancestor (G.parent st.pred) (G.startNode b) v := .single (parent_of_pred label)
    constructor
    · intro a mem
      rcases mem_cons.1 mem with eq | later
      · cases eq
      obtain ⟨y, labelY, above, other⟩ := ih.1 a later
      refine ⟨y, labelY, above, fun above' => ?_⟩
      by_cases eq : y = v
      · exact notAbove (eq ▸ above)
      · obtain ⟨q, parentV, above''⟩ := above'.of_ne eq
        rw [parent_of_pred label] at parentV
        cases parentV
        exact other above''
    · intro a mem
      rcases mem_cons.1 mem with eq | later
      · cases eq
        exact ⟨v, by rw [Dart.rev_rev]; exact label, .refl, notAbove⟩
      · obtain ⟨y, labelY, above, other⟩ := ih.2 a later
        exact ⟨y, labelY, above.trans step, other⟩

section

variable (basis : IsBasis G st)
include basis

theorem CycleWalk.treeArc (walk : CycleWalk G st u v p) {side : Bool}
    (mem : (side, a) ∈ p) : ∃ y b, st.pred y = some b ∧ a.edge = b.edge ∧
      (Ancestor (G.parent st.pred) y u ∨ Ancestor (G.parent st.pred) y v) := by
  cases side with
  | true =>
    obtain ⟨y, label, above, -⟩ := (walk.arcs basis.depth).1 a mem
    exact ⟨y, a, label, rfl, .inl above⟩
  | false =>
    obtain ⟨y, label, above, -⟩ := (walk.arcs basis.depth).2 a mem
    exact ⟨y, a.rev, label, rfl, .inr above⟩

theorem pred_injective {y z : Fin n} {b : Arc m}
    (labelY : st.pred y = some b) (labelZ : st.pred z = some c)
    (eq : b.edge = c.edge) : y = z := by
  rcases Dart.eq_or_eq_rev eq with rfl | rfl
  · rw [← basis.ends y b labelY, basis.ends z b labelZ]
  -- otherwise each of the two nodes is the parent of the other one
  have endY := basis.ends y _ labelY
  have endZ := basis.ends z _ labelZ
  have depthY := basis.depth.of_parent (parent_of_pred labelY)
  have depthZ := basis.depth.of_parent (parent_of_pred labelZ)
  rw [endNode, Network.dst_rev] at endY
  rw [startNode, Network.src_rev] at depthY
  rw [endNode] at endZ
  rw [endZ] at depthY
  rw [startNode, endY] at depthZ
  omega

/-- An arc of the cycle belongs to a node with a predecessor, below which the rest of the cycle is
not met again. -/
theorem CycleWalk.not_again (rest : CycleWalk G st u v p) {y : Fin n}
    {b : Arc m} (label : st.pred y = some b) (notU : ¬ Ancestor (G.parent st.pred) y u)
    (notV : ¬ Ancestor (G.parent st.pred) y v) (edge : c.edge = b.edge) :
    c.edge ∉ (p.map Prod.snd).map Dart.edge := by
  intro again
  rw [map_map, mem_map] at again
  obtain ⟨⟨side, a⟩, mem, eq⟩ := again
  obtain ⟨z, b', labelZ, edge', above⟩ := rest.treeArc basis mem
  have equal := pred_injective basis labelZ label (edge'.symm.trans (eq.trans edge))
  subst equal
  exact above.elim notU notV

theorem CycleWalk.edges_nodup (walk : CycleWalk G st u v p) :
    ((p.map Prod.snd).map Dart.edge).Nodup := by
  induction walk with
  | done stop => simp
  | @left u v b p onward deeper label rest ih =>
    have step := basis.depth.of_parent (parent_of_pred label)
    refine nodup_cons.2 ⟨rest.not_again basis label (fun above => ?_) (fun above => ?_) rfl, ih⟩
    · have bound := above.depth_le basis.depth
      omega
    · have bound := above.depth_le basis.depth
      omega
  | @right u v b p onward deeper label rest ih =>
    have step := basis.depth.of_parent (parent_of_pred label)
    refine nodup_cons.2 ⟨rest.not_again basis label (fun above => ?_) (fun above => ?_) rfl, ih⟩
    · exact onward.1 (above.eq_of_depth basis.depth (by omega))
    · have bound := above.depth_le basis.depth
      omega

end

end CycleWalk

/-! ## Pushing along the cycle -/

section CyclePush

variable {st : SimplexState n m} {u v : Fin n} {p : List (Bool × Arc m)}

/-- The candidate `old` has become `new` along the arcs of one side of the path, which have been
searched for blocking arcs. -/
structure Searched (G : DiGraph n m) (sub : Fin m → ℚ) (p : List (Bool × Arc m)) (side : Bool)
    (old new : Option (Arc m)) : Prop where
  found : ∀ a, new = some a → old = some a ∨ (side, a) ∈ p ∧ G.resCap sub a = 0
  missed : new = none → old = none ∧ ∀ a, (side, a) ∈ p → G.resCap sub a ≠ 0

section

variable {sub : Fin m → ℚ} {side side' : Bool} {old new : Option (Arc m)} {b : Arc m}

theorem Searched.skip (other : side' ≠ side) (rest : Searched G sub p side old new) :
    Searched G sub ((side', b) :: p) side old new := by
  refine ⟨fun a val => (rest.found a val).imp_right fun found =>
    ⟨mem_cons_of_mem _ found.1, found.2⟩, fun val => ?_⟩
  obtain ⟨start, open'⟩ := rest.missed val
  refine ⟨start, fun a mem => open' a ((mem_cons.1 mem).resolve_left fun eq => ?_)⟩
  cases eq
  exact other rfl

/-- A blocking arc becomes the candidate, at the latest if there is none. -/
theorem Searched.test {blocking : Prop} [Decidable blocking]
    (rest : Searched G sub p side (if blocking then some b else old) new)
    (zero : blocking → G.resCap sub b = 0) (blocks : G.resCap sub b = 0 → old = none → blocking) :
    Searched G sub ((side, b) :: p) side old new := by
  refine ⟨fun a val => ?_, fun val => ?_⟩
  · rcases rest.found a val with start | ⟨mem, zero'⟩
    · split_ifs at start with here
      · cases start
        exact .inr ⟨mem_cons_self, zero here⟩
      · exact .inl start
    · exact .inr ⟨mem_cons_of_mem _ mem, zero'⟩
  · obtain ⟨start, open'⟩ := rest.missed val
    split_ifs at start with here
    refine ⟨start, fun a mem => ?_⟩
    rcases mem_cons.1 mem with eq | later
    · cases eq
      exact fun zero => here (blocks zero start)
    · exact open' a later

end

/-- The second run: flow is pushed along all arcs, and the candidates are blocking arcs. -/
theorem CycleWalk.cyclePush_spec (walk : CycleWalk G st u v p) (delta : ℚ)
    (enough : p.length < count) (once : ((p.map Prod.snd).map Dart.edge).Nodup) (s : PivotPush m) :
    ∃ s', G.cyclePush st delta count u v s = .ok s' ∧
      s'.sub = pushAll s.sub (p.map Prod.snd) delta ∧
      Searched G s'.sub p true s.leftCandidate s'.leftCandidate ∧
      Searched G s'.sub p false s.rightCandidate s'.rightCandidate := by
  -- an arc that is not met again keeps its capacity
  have fixed : ∀ {b : Arc m} {p : List (Bool × Arc m)} {sub : Fin m → ℚ},
      b.edge ∉ (p.map Prod.snd).map Dart.edge →
      G.resCap (pushAll sub (p.map Prod.snd) delta) b = G.resCap sub b := fun once =>
    resCap_congr (pushAll_of_notMem _ _ _ fun c mem eq =>
      once (mem_map.2 ⟨c, mem, eq⟩))
  induction walk generalizing s count with
  | done stop =>
    obtain ⟨count, rfl⟩ : ∃ k, count = k + 1 := ⟨count - 1, by simp at enough; omega⟩
    refine ⟨s, by rw [cyclePush, if_neg stop], rfl, ?_, ?_⟩
    · exact ⟨fun _ => .inl, fun none => ⟨none, nofun⟩⟩
    · exact ⟨fun _ => .inl, fun none => ⟨none, nofun⟩⟩
  | @left u v b p onward deeper label rest ih =>
    rw [length_cons] at enough
    rw [map_cons, map_cons, nodup_cons] at once
    obtain ⟨count, rfl⟩ : ∃ k, count = k + 1 := ⟨count - 1, by omega⟩
    obtain ⟨s', res, flow, left, right⟩ := ih (by omega : p.length < count) once.2 { s with
      sub := push s.sub b delta
      leftCandidate := if G.resCap (push s.sub b delta) b = 0 ∧ s.leftCandidate = none
        then some b else s.leftCandidate }
    have eq : G.resCap s'.sub b = _ := flow ▸ fixed once.1
    refine ⟨s', ?_, flow, left.test (fun blocking => eq.trans blocking.1)
      fun zero none => ⟨eq.symm.trans zero, none⟩, right.skip (by decide)⟩
    rw [cyclePush, if_pos onward, if_pos deeper]
    simp only [label, defined, bind, Except.bind]
    exact res
  | @right u v b p onward deeper label rest ih =>
    rw [length_cons] at enough
    rw [map_cons, map_cons, nodup_cons] at once
    obtain ⟨count, rfl⟩ : ∃ k, count = k + 1 := ⟨count - 1, by omega⟩
    obtain ⟨s', res, flow, left, right⟩ := ih (by omega : p.length < count) once.2 { s with
      sub := push s.sub b.rev delta
      rightCandidate := if G.resCap (push s.sub b.rev delta) b.rev = 0
        then some b.rev else s.rightCandidate }
    have eq : G.resCap s'.sub b.rev = _ := flow ▸ fixed once.1
    refine ⟨s', ?_, flow, left.skip (by decide), right.test eq.trans
      fun zero _ => eq.symm.trans zero⟩
    rw [cyclePush, if_pos onward, if_neg deeper]
    simp only [label, defined, bind, Except.bind]
    exact res

end CyclePush

/-! ## Pivots -/

/-- All arcs with residual capacity in both directions belong to the forest. -/
def FreeInTree (G : DiGraph n m) (st : SimplexState n m) : Prop :=
  ∀ a, 0 < G.resCap st.sub a → 0 < G.resCap st.sub a.rev → G.TreeArc st.pred a

section Pivot

variable {st : SimplexState n m} {pivot : Arc m} {p : List (Bool × Arc m)}

/-- The pivot arc and the arcs that flow is pushed along with it. -/
def pivotArcs (pivot : Arc m) (p : List (Bool × Arc m)) : List (Arc m) := pivot :: p.map Prod.snd

theorem pivotArcs_nodup (basis : IsBasis G st) (improving : G.redLength st.potential pivot ≠ 0)
    (walk : CycleWalk G st u v p) : ((pivotArcs pivot p).map Dart.edge).Nodup := by
  rw [pivotArcs, map_cons, nodup_cons]
  refine ⟨fun again => improving ?_, walk.edges_nodup basis⟩
  rw [map_map, mem_map] at again
  obtain ⟨⟨side, c⟩, mem, eq⟩ := again
  obtain ⟨y, b, label, edge, -⟩ := walk.treeArc basis mem
  have zero := basis.tight y b label
  rcases Dart.eq_or_eq_rev (edge.symm.trans eq) with rfl | rfl
  · exact zero
  · rw [redLength_rev, neg_eq_zero] at zero
    exact zero

theorem freeInTree_push (basis : IsBasis G st) (within : G.WithinBounds st.sub)
    (free : FreeInTree G st) (walk : CycleWalk G st u v p) {x : ℚ}
    (once : ((pivotArcs pivot p).map Dart.edge).Nodup) (nonneg : 0 ≤ x)
    (room : ∀ a ∈ pivotArcs pivot p, x ≤ G.resCap st.sub a)
    (forth : 0 < G.resCap (pushAll st.sub (pivotArcs pivot p) x) c)
    (back : 0 < G.resCap (pushAll st.sub (pivotArcs pivot p) x) c.rev) :
    G.TreeArc st.pred c ∨ c.edge = pivot.edge := by
  have onCycle : ∀ b ∈ pivotArcs pivot p, b.edge = c.edge →
      G.TreeArc st.pred c ∨ c.edge = pivot.edge := by
    intro b mem eq
    rcases mem_cons.1 mem with rfl | later
    · exact .inr eq.symm
    obtain ⟨⟨side, b'⟩, inWalk, rfl⟩ := mem_map.1 later
    obtain ⟨y, d, label, edge, -⟩ := walk.treeArc basis inWalk
    have endD := basis.ends y d label
    rcases Dart.eq_or_eq_rev (eq.symm.trans edge) with rfl | rfl
    · exact .inl (.inl (by rw [endD]; exact label))
    · refine .inl (.inr ?_)
      rw [Dart.rev_rev, startNode, Network.src_rev, ← endNode, endD]
      exact label
  rcases resCap_pushAll within once nonneg room c with ⟨mem, -⟩ | ⟨mem, -⟩ | eq
  · exact onCycle c mem rfl
  · exact onCycle c.rev mem rfl
  · rcases resCap_pushAll within once nonneg room c.rev with
      ⟨mem, -⟩ | ⟨mem, -⟩ | eq'
    · exact onCycle c.rev mem rfl
    · exact onCycle _ mem rfl
    · rw [eq] at forth
      rw [eq'] at back
      exact .inl (free c forth back)

end Pivot

section PivotSpec

variable {st : SimplexState n m} {pivot : Arc m}

/-- What a pivot leaves behind. -/
structure PivotSpec (G : DiGraph n m) (st : SimplexState n m) (pivot : Arc m)
    (st' : SimplexState n m) : Prop where
  basis : IsBasis G st'
  within : G.WithinBounds st'.sub
  free : FreeInTree G st'
  roots : ∀ v, st'.pred v = none ↔ st.pred v = none
  flow : ∃ p, CycleWalk G st (G.startNode pivot) (G.endNode pivot) p ∧
    st'.sub = pushAll st.sub (pivotArcs pivot p) (G.bottleneck st.sub (pivotArcs pivot p))

theorem rehang_pivot {st1 : SimplexState n m} (basis : IsBasis G st1)
    (within : G.WithinBounds st1.sub) {a stop : Arc m}
    (free : ∀ c, 0 < G.resCap st1.sub c → 0 < G.resCap st1.sub c.rev →
      G.TreeArc st1.pred c ∨ c.edge = a.edge) (label : st1.pred (G.endNode stop) = some stop)
    (above : Ancestor (G.parent st1.pred) (G.endNode stop) (G.startNode a))
    (apart : ¬ Ancestor (G.parent st1.pred) (G.endNode stop) (G.endNode a))
    (blocked : G.resCap st1.sub stop = 0 ∨ G.resCap st1.sub stop.rev = 0) {mu : ℚ}
    (shift : G.redLength st1.potential a.rev = mu) :
    ∃ st', G.rehang st1 a stop (G.startNode a) (G.endNode a) (G.startNode stop) (G.endNode stop) mu =
        .ok st' ∧ IsBasis G st' ∧ G.WithinBounds st'.sub ∧ FreeInTree G st' ∧
      (∀ v, st'.pred v = none ↔ st1.pred v = none) ∧ st'.sub = st1.sub := by
  obtain ⟨st', res, basis', flow, roots, trees⟩ :=
    rehang_spec basis rfl rfl label above apart shift
  refine ⟨st', res, basis', flow ▸ within, ?_, roots, flow⟩
  intro c forth back
  rw [flow] at forth back
  rcases trees c (free c forth back) with tree | eq
  · exact tree
  -- the leaving arc is not free
  exfalso
  rcases Dart.eq_or_eq_rev eq with rfl | rfl
  · rcases blocked with zero | zero
    · exact forth.ne' zero
    · exact back.ne' zero
  · rw [Dart.rev_rev] at back
    rcases blocked with zero | zero
    · exact back.ne' zero
    · exact forth.ne' zero

/-- **`PivotOperation`** with an arc of negative reduced length returns, and it leaves a
basis behind unless the problem is unbounded. -/
theorem pivotOperation_spec (basis : IsBasis G st) (within : G.WithinBounds st.sub)
    (free : FreeInTree G st) (improving : G.redLength st.potential pivot < 0) :
    G.pivotOperation st pivot = .ok (true, st) ∨
      ∃ st', G.pivotOperation st pivot = .ok (false, st') ∧ PivotSpec G st pivot st' := by
  obtain ⟨p, walk, short⟩ := exists_cycleWalk basis.depth (G.startNode pivot) (G.endNode pivot)
  have enough : p.length < 2 * n + 1 := by
    have first := basis.depth.lt_card (G.startNode pivot)
    have second := basis.depth.lt_card (G.endNode pivot)
    rw [Fintype.card_fin] at first second
    omega
  have once := pivotArcs_nodup basis improving.ne walk
  have cap : G.cycleCap st (2 * n + 1) (G.startNode pivot) (G.endNode pivot) (G.resCap st.sub pivot) =
      .ok (G.bottleneck st.sub (pivotArcs pivot p)) := by
    have first : G.narrow st.sub infFloat pivot = G.resCap st.sub pivot := by
      have small := resCap_le_infCap within pivot
      rw [narrow, if_pos (small.trans_lt infCap_lt_infFloat)]
    rw [walk.cycleCap_eq enough, bottleneck, pivotArcs, foldl_cons, first]
  set delta := G.bottleneck st.sub (pivotArcs pivot p) with deltaEq
  by_cases unbounded : delta = infCap
  · left
    rw [pivotOperation]
    simp only [cap, bind, Except.bind]
    rw [if_pos unbounded]
    rfl
  right
  obtain ⟨c, onCycle, attained⟩ := exists_bottleneck within
    (show pivotArcs pivot p ≠ [] by simp [pivotArcs])
  have nonneg : 0 ≤ delta := by
    rw [deltaEq, attained]
    exact resCap_nonneg within c
  have room : ∀ a ∈ pivotArcs pivot p, delta ≤ G.resCap st.sub a := fun a mem =>
    bottleneck_le mem
  have within' := withinBounds_pushAll within once nonneg room
  have blocking : G.resCap (pushAll st.sub (pivotArcs pivot p) delta) c = 0 := by
    have pushed := resCap_of_pushed within within' (pushAll_of_mem st.sub delta once onCycle)
    rw [pushed.1, ← attained, ← deltaEq, sub_self]
  obtain ⟨s, pushed, flow, left', right'⟩ :=
    walk.cyclePush_spec delta enough (walk.edges_nodup basis) {
      sub := push st.sub pivot delta
      leftCandidate := none
      rightCandidate := if G.resCap (push st.sub pivot delta) pivot = 0 then some pivot else none }
  have flow' : s.sub = pushAll st.sub (pivotArcs pivot p) delta := flow
  have atPivot : G.resCap s.sub pivot = G.resCap (push st.sub pivot delta) pivot := by
    rw [flow]
    refine resCap_congr (pushAll_of_notMem _ _ _ fun b mem eq => ?_)
    rw [pivotArcs, map_cons, nodup_cons] at once
    exact once.1 (mem_map.2 ⟨b, mem, eq⟩)
  have basis1 : IsBasis G { st with sub := s.sub } :=
    ⟨basis.ends, basis.depth, basis.tours, basis.tight⟩
  have within1 : G.WithinBounds s.sub := flow' ▸ within'
  have free1 : ∀ c, 0 < G.resCap s.sub c → 0 < G.resCap s.sub c.rev →
      G.TreeArc st.pred c ∨ c.edge = pivot.edge := by
    intro c forth back
    rw [flow'] at forth back
    exact freeInTree_push basis within free walk once nonneg room forth back
  have finish : ∀ st', G.pivotOperation st pivot = .ok (false, st') → IsBasis G st' →
      G.WithinBounds st'.sub → FreeInTree G st' → (∀ v, st'.pred v = none ↔ st.pred v = none) →
      st'.sub = s.sub → ∃ st', G.pivotOperation st pivot = .ok (false, st') ∧
        PivotSpec G st pivot st' := fun st' res basis' within'' free' roots eq =>
    ⟨st', res, basis', within'', free', roots, p, walk, eq.trans flow'⟩
  cases right : s.rightCandidate with
  | some leaving =>
    by_cases isPivot : leaving = pivot
    · -- the pivot arc itself is blocking, and the forest does not change
      subst isPivot
      have zero : G.resCap s.sub leaving = 0 := by
        rcases right'.found leaving right with start | ⟨mem, zero⟩
        · dsimp only at start
          split_ifs at start with here
          exact atPivot.trans here
        · exact zero
      refine finish { st with sub := s.sub } ?_ basis1 within1 ?_ (fun _ => Iff.rfl) rfl
      · rw [pivotOperation]
        simp only [cap, bind, Except.bind]
        rw [if_neg unbounded]
        simp only [pushed, right, if_true]
        rfl
      · intro c forth back
        rcases free1 c forth back with tree | eq
        · exact tree
        · rcases Dart.eq_or_eq_rev eq with rfl | rfl
          · exact absurd zero forth.ne'
          · rw [Dart.rev_rev] at back
            exact absurd zero back.ne'
    · obtain ⟨mem, zero⟩ : (false, leaving) ∈ p ∧ G.resCap s.sub leaving = 0 := by
        rcases right'.found leaving right with start | found
        · dsimp only at start
          split_ifs at start
          cases start
          exact absurd rfl isPivot
        · exact found
      obtain ⟨y, label, above, apart⟩ := (walk.arcs basis.depth).2 leaving mem
      have endY : G.endNode leaving.rev = y := basis.ends y _ label
      have turn : G.endNode leaving.rev = G.startNode leaving := by
        rw [endNode, Network.dst_rev]
      have turn' : G.endNode pivot.rev = G.startNode pivot := by
        rw [endNode, Network.dst_rev]
      obtain ⟨st', res, basis', within'', free', roots, eq⟩ := rehang_pivot basis1 within1
        (a := pivot.rev) free1 (by rw [endY]; exact label) (by rw [endY]; exact above)
        (by rw [endY, turn']; exact apart) (.inr (by rw [Dart.rev_rev]; exact zero))
        (by rw [Dart.rev_rev])
      refine finish st' ?_ basis' within'' free' roots eq
      rw [turn, turn'] at res
      have res' : G.rehang { st with sub := s.sub } pivot.rev leaving.rev (G.endNode pivot)
        (G.startNode pivot) (G.endNode leaving) (G.startNode leaving)
        (G.redLength st.potential pivot) = .ok st' := res
      rw [pivotOperation]
      simp only [cap, bind, Except.bind]
      rw [if_neg unbounded]
      simp only [pushed, right]
      rw [if_neg isPivot, res']
      rfl
  | none =>
    obtain ⟨startNone, openRight⟩ := right'.missed right
    dsimp only at startNone
    split_ifs at startNone with pivotZero
    -- the arc of least capacity is on the left side
    obtain ⟨leaving, left⟩ : ∃ leaving, s.leftCandidate = some leaving := by
      refine Option.ne_none_iff_exists'.1 fun none => ?_
      obtain ⟨-, openLeft⟩ := left'.missed none
      rw [← flow'] at blocking
      rcases mem_cons.1 onCycle with rfl | later
      · exact pivotZero (atPivot.symm.trans blocking)
      · obtain ⟨⟨side, c'⟩, inWalk, rfl⟩ := mem_map.1 later
        cases side with
        | true => exact openLeft c' inWalk blocking
        | false => exact openRight c' inWalk blocking
    obtain ⟨mem, zero⟩ : (true, leaving) ∈ p ∧ G.resCap s.sub leaving = 0 := by
      rcases left'.found leaving left with start | found
      · cases start
      · exact found
    obtain ⟨y, label, above, apart⟩ := (walk.arcs basis.depth).1 leaving mem
    have endY : G.endNode leaving = y := basis.ends y _ label
    obtain ⟨st', res, basis', within'', free', roots, eq⟩ := rehang_pivot basis1 within1
      (a := pivot) free1 (by rw [endY]; exact label) (by rw [endY]; exact above)
      (by rw [endY]; exact apart) (.inl zero) (redLength_rev G _ pivot)
    have res' : G.rehang { st with sub := s.sub } pivot leaving (G.startNode pivot)
      (G.endNode pivot) (G.startNode leaving) (G.endNode leaving)
      (-G.redLength st.potential pivot) = .ok st' := res
    refine finish st' ?_ basis' within'' free' roots eq
    rw [pivotOperation]
    simp only [cap, bind, Except.bind]
    rw [if_neg unbounded]
    simp only [pushed, right, left, defined]
    rw [res']
    rfl

end PivotSpec

end DiGraph

end Goblin
