import Goblin.CycleShrinking

/-!
# Strongly feasible spanning forests

If the free edges do not contain a cycle, then each of them makes a cycle with its reversal
immediately, and no other labels are given before (`Calm`). When a set is split, one of its
members gets the label of the whole set, and all others keep their labels. So at most one
arc of a cycle is lost, and one of the two arcs of a free edge is kept.

The root of a tree lies in an item without a label, all of whose residual arcs stay within this
item.
-/

set_option autoImplicit false

namespace Goblin

open Library List Finset Function

variable {t : ℕ}

namespace DiGraph

variable {n m : ℕ} {G : DiGraph n m} {sub : Fin m → ℚ} {L : Nesting}
  {inArc : ℕ → Option (Arc m)} {k : ℕ} {cycle : ℕ → List (Arc m)} {S : NestedFamily} {a : Arc m}
  {s : StrongScan m} {p : List (Arc m)}

/-! ## The free edges in the queue -/

/-- The two arcs of an edge. -/
def edgeArcs (e : Fin m) : List (Arc m) := [⟨e, false⟩, ⟨e, true⟩]

/-- The free edges. -/
def freeEdges (G : DiGraph n m) (sub : Fin m → ℚ) : List (Fin m) :=
  (finRange m).filter fun e => G.Free sub ⟨e, false⟩

theorem Free.rev (free : G.Free sub a) : G.Free sub a.rev := by
  refine ⟨free.2, ?_⟩
  rw [Dart.rev_rev]
  exact free.1

theorem filter_free_edgeArcs (e : Fin m) :
    (edgeArcs e).filter (fun a => 0 < G.resCap sub a.rev ∧ 0 < G.resCap sub a) =
      if G.Free sub ⟨e, false⟩ then edgeArcs e else [] := by
  have forth : (0 < G.resCap sub ⟨e, true⟩ ∧ 0 < G.resCap sub ⟨e, false⟩) ↔
      G.Free sub ⟨e, false⟩ := and_comm
  have back : (0 < G.resCap sub ⟨e, false⟩ ∧ 0 < G.resCap sub ⟨e, true⟩) ↔
      G.Free sub ⟨e, false⟩ := Iff.rfl
  by_cases free : G.Free sub ⟨e, false⟩
  · simp [edgeArcs, Dart.rev, forth, back, free]
  · simp [edgeArcs, Dart.rev, forth, back, free]

theorem filter_free_arcs : (arcs m).filter (fun a => 0 < G.resCap sub a.rev ∧ 0 < G.resCap sub a) =
    (G.freeEdges sub).flatMap edgeArcs := by
  have whole : arcs m = (finRange m).flatMap edgeArcs := rfl
  rw [whole, freeEdges]
  induction finRange m with
  | nil => rfl
  | cons e l ih =>
    rw [List.flatMap_cons, List.filter_append, ih, filter_free_edgeArcs, List.filter_cons]
    by_cases free : G.Free sub ⟨e, false⟩
    · rw [if_pos free, if_pos (decide_eq_true free), List.flatMap_cons]
    · rw [if_neg free, if_neg (by simpa using free), List.nil_append]

theorem mem_strongQueue (within : G.WithinBounds sub) :
    a ∈ G.strongQueue sub ↔ 0 < G.resCap sub a.rev := by
  unfold strongQueue
  rw [mem_append, mem_filter, mem_filter, decide_eq_true_eq, decide_eq_true_eq]
  constructor
  · rintro (⟨-, useful, -⟩ | ⟨-, useful, -⟩)
    · exact useful
    · exact useful
  · intro useful
    rcases (MixedGraph.resCap_nonneg within a).eq_or_lt with blocked | free
    · exact .inr ⟨mem_arcs a, useful, blocked.symm⟩
    · exact .inl ⟨mem_arcs a, useful, free⟩

theorem nodup_strongQueue : (G.strongQueue sub).Nodup := by
  unfold strongQueue
  refine nodup_append.2 ⟨(nodup_arcs m).filter _, (nodup_arcs m).filter _, ?_⟩
  rintro a first _ second rfl
  have free := (of_decide_eq_true (mem_filter.1 first).2).2
  have blocked := (of_decide_eq_true (mem_filter.1 second).2).2
  rw [blocked] at free
  exact lt_irrefl _ free

/-! ## Walks of free arcs -/

/-- A walk that uses free arcs of the given edges only. -/
def Joined (G : DiGraph n m) (sub : Fin m → ℚ) (done : List (Fin m)) (x y : Fin n) : Prop :=
  ∃ p, IsWalk G.src G.dst x p y ∧ ∀ b ∈ p, G.Free sub b ∧ b.edge ∈ done

namespace Joined

variable {done done' : List (Fin m)} {x y z : Fin n}

theorem symm (joined : G.Joined sub done x y) : G.Joined sub done y x := by
  obtain ⟨p, walk, usable⟩ := joined
  refine ⟨_, walk.backwards, fun b mem => ?_⟩
  obtain ⟨a, inside, rfl⟩ := mem_map.1 (mem_reverse.1 mem)
  exact ⟨(usable a inside).1.rev, (usable a inside).2⟩

theorem trans (first : G.Joined sub done x y) (second : G.Joined sub done y z) :
    G.Joined sub done x z := by
  obtain ⟨p, walk, usable⟩ := first
  obtain ⟨q, walk', usable'⟩ := second
  refine ⟨p ++ q, isWalk_append.2 ⟨y, walk, walk'⟩, fun b mem => ?_⟩
  rcases mem_append.1 mem with inP | inQ
  · exact usable b inP
  · exact usable' b inQ

theorem mono (joined : G.Joined sub done x y) (more : done ⊆ done') : G.Joined sub done' x y := by
  obtain ⟨p, walk, usable⟩ := joined
  exact ⟨p, walk, fun b mem => ⟨(usable b mem).1, more (usable b mem).2⟩⟩

theorem single (free : G.Free sub a) (mem : a.edge ∈ done) :
    G.Joined sub done (G.src a) (G.dst a) := by
  refine ⟨[a], ⟨rfl, rfl⟩, fun b inside => ?_⟩
  rw [List.mem_singleton.1 inside]
  exact ⟨free, mem⟩

theorem exists_freeCycle (joined : G.Joined sub done (G.dst a) (G.src a)) (free : G.Free sub a)
    (fresh : a.edge ∉ done) : ∃ x c, G.FreeCycle sub x c := by
  obtain ⟨p, walk, usable⟩ := joined
  obtain ⟨q, simple, subset, nodup⟩ := walk.exists_simple
  refine ⟨G.src a, a :: q, ⟨⟨cons_ne_nil a q, ⟨rfl, simple⟩, fun b mem => ?_⟩, ?_⟩⟩
  · rcases List.mem_cons.1 mem with rfl | inside
    · exact free
    · exact (usable b (subset inside)).1
  · refine List.nodup_cons.2 ⟨fun again => ?_, simple.edges_nodup nodup⟩
    obtain ⟨b, mem, eq⟩ := mem_map.1 again
    exact fresh (eq ▸ (usable b (subset mem)).2)

end Joined

/-! ## Free edges make sets -/

/-- **Invariant while free edges are read.** No outermost item has a label, and the nodes of an
item are joined by free edges that have been read. -/
structure Calm (G : DiGraph n m) (sub : Fin m → ℚ) (L : Nesting) (cycle : ℕ → List (Arc m))
    (done : List (Fin m)) (s : StrongScan m) : Prop where
  inv : ShrinkingInv G sub L cycle s
  calm : ∀ t, L.parent t = none → s.inArc t = none
  all : s.edgeCount = s.queue.length
  joined : ∀ x y : Fin n, topOf L.parent x = topOf L.parent y → G.Joined sub done x y
  paired : ∀ e ∈ done, ∃ t ∈ L.sets, ⟨e, false⟩ ∈ cycle t ∧ ⟨e, true⟩ ∈ cycle t

namespace Calm

variable {s : StrongScan m} {done rest : List (Arc m)} {e : Fin m}

theorem joined_shrunk {done : List (Fin m)} {c : ℕ} {L' : Nesting} {C : Set ℕ}
    (grounded : Grounded L.parent) (collects : Collects L.parent L'.parent C c)
    (ends : ∀ x ∈ C, x = G.comesFrom L a ∨ x = G.goesTo L a)
    (out : ∀ x : Fin n, topOf L.parent x ≠ c)
    (joined : ∀ x y : Fin n, topOf L.parent x = topOf L.parent y → G.Joined sub done x y)
    (free : G.Free sub a) {x y : Fin n} (eq : topOf L'.parent x = topOf L'.parent y) :
    G.Joined sub (a.edge :: done) x y := by
  have old : ∀ {x y : Fin n}, topOf L.parent x = topOf L.parent y →
      G.Joined sub (a.edge :: done) x y :=
    fun eq => (joined _ _ eq).mono (subset_cons_self a.edge done)
  have across : G.Joined sub (a.edge :: done) (G.src a) (G.dst a) :=
    .single free mem_cons_self
  have toStart : ∀ x : Fin n, topOf L.parent x ∈ C → G.Joined sub (a.edge :: done) x (G.src a) := by
    intro x inside
    rcases ends _ inside with atStart | atEnd
    · exact old atStart
    · exact (old atEnd).trans across.symm
  by_cases insideX : topOf L.parent x ∈ C
  · rw [collects.topOf_inner grounded insideX] at eq
    by_cases insideY : topOf L.parent y ∈ C
    · exact (toStart x insideX).trans (toStart y insideY).symm
    · rw [collects.topOf_outer grounded insideY] at eq
      exact absurd eq.symm (out y)
  · rw [collects.topOf_outer grounded insideX] at eq
    by_cases insideY : topOf L.parent y ∈ C
    · rw [collects.topOf_inner grounded insideY] at eq
      exact absurd eq (out x)
    · rw [collects.topOf_outer grounded insideY] at eq
      exact old eq

theorem pair {done : List (Fin m)} (calm : Calm G sub L cycle done s)
    (forest : ∀ x c, ¬ G.FreeCycle sub x c) (free : G.Free sub ⟨e, false⟩) (fresh : e ∉ done)
    (first : s.queue = ⟨e, false⟩ :: ⟨e, true⟩ :: rest) :
    ∃ s1 s2 L' cycle', G.shrinkStep s = .ok (.inl s1) ∧ G.shrinkStep s1 = .ok (.inl s2) ∧
      openItems n s1.inArc < openItems n s.inArc ∧ openItems n s2.inArc < openItems n s1.inArc ∧
      Calm G sub L' cycle' (e :: done) s2 ∧ s2.queue = rest := by
  have laminar := calm.inv.family.laminar
  have grounded := laminar.grounded
  have branching := calm.inv.branching
  let a : Arc m := ⟨e, false⟩
  have turned : a.rev = ⟨e, true⟩ := rfl
  have apart : G.comesFrom L a ≠ G.goesTo L a := by
    intro eq
    obtain ⟨x, c, cycle⟩ :=
      (calm.joined (G.dst a) (G.src a) eq.symm).exists_freeCycle free fresh
    exact forest x c cycle
  have startOpen : s.inArc (G.comesFrom L a) = none := calm.calm _ (grounded.topOf _).top
  have endOpen : s.inArc (G.goesTo L a) = none := calm.calm _ (grounded.topOf _).top
  have count : s.edgeCount = (rest.length + 1) + 1 := by rw [calm.all, first]; rfl
  -- the edge becomes the label of its end
  obtain ⟨t, next, selects, queue, left⟩ := nextArc_head calm.inv.family first
    (count ▸ calm.inv.waiting) apart endOpen none
  rw [← count] at next
  obtain ⟨s1, step, inv1, labels1, queue1, count1⟩ := calm.inv.step_assign (p := []) next selects
    rfl startOpen apart
  have labels : ∀ x, x ≠ G.goesTo L a → s1.inArc x = s.inArc x := by
    intro x other
    rw [labels1, selects.labels, update_of_ne other]
  have known : s1.inArc (G.goesTo L a) = some a := by
    rw [labels1, selects.labels, update_self]
  -- the reversal closes the cycle
  have from' : G.comesFrom L a.rev = G.goesTo L a := rfl
  have to' : G.goesTo L a.rev = G.comesFrom L a := by
    unfold comesFrom goesTo
    rw [Network.dst_rev]
  have first1 : s1.queue = a.rev :: rest := queue1.trans queue
  have count' : s1.edgeCount = rest.length + 1 := count1.trans left
  have startOpen' : s1.inArc (G.goesTo L a.rev) = none := by
    rw [to', labels _ apart, startOpen]
  obtain ⟨t1, next1, selects1, queue1', -⟩ := nextArc_head inv1.family first1
    (count' ▸ inv1.waiting) (by rw [from', to']; exact apart.symm) startOpen' none
  rw [← count'] at next1
  have reads : ReadsTo s1.inArc (G.comesFrom L) (G.comesFrom L a.rev) [a] (G.goesTo L a.rev) :=
    ⟨known, to'.symm⟩
  obtain ⟨s2, step1, inv2, labels2, queue2, count2⟩ := inv1.step_shrink next1 selects1 reads
  have collects := inv1.branching.collects laminar (a := a.rev) (p := [a])
  obtain ⟨sets, -⟩ := shrunk_sets L (n + s1.nCycles) (G.comesFrom L a.rev :: [a].map (G.comesFrom L))
  refine ⟨s1, s2, _, _, step, step1, labels1 ▸ calm.inv.measure_lt selects,
    labels2 ▸ inv1.measure_lt selects1, ⟨inv2, fun t top => ?_, ?_, fun x y eq => ?_,
    fun e' mem => ?_⟩, queue2.trans queue1'⟩
  · rw [shrunk_parent] at top
    split_ifs at top with inside
    rw [List.map_singleton, List.mem_cons, List.mem_singleton, not_or] at inside
    rw [labels2, selects1.labels, update_of_ne (to' ▸ inside.2), labels t inside.1]
    exact calm.calm t top
  · rw [count2, queue2]
  · refine joined_shrunk grounded collects (fun x inside => ?_) (fun x => ?_) calm.joined free eq
    · rcases List.mem_cons.1 inside with atEnd | atStart
      · exact .inr atEnd
      · exact .inl (List.mem_singleton.1 atStart)
    · exact Nat.ne_of_lt (inv1.branching.topOf_lt laminar (by omega))
  · rw [sets]
    rcases List.mem_cons.1 mem with rfl | old
    · refine ⟨n + s1.nCycles, mem_insert_self _ _, ?_⟩
      rw [update_self]
      exact ⟨mem_cons_self, mem_cons_of_mem _ mem_cons_self⟩
    · obtain ⟨t, present, both⟩ := calm.paired e' old
      have low := ((inv1.branching.sets t).1 present).2
      refine ⟨t, mem_insert_of_mem present, ?_⟩
      rwa [update_of_ne (Nat.ne_of_lt low)]

end Calm

/-- **The free edges** are read one after the other. -/
theorem Calm.run (forest : ∀ x c, ¬ G.FreeCycle sub x c) {rest : List (Arc m)} :
    ∀ {es done : List (Fin m)} {L : Nesting} {cycle : ℕ → List (Arc m)} {s : StrongScan m}
      {fuel : ℕ}, Calm G sub L cycle done s → s.queue = es.flatMap edgeArcs ++ rest →
      (∀ e ∈ es, G.Free sub ⟨e, false⟩) → (es ++ done).Nodup → openItems n s.inArc < fuel →
      ∃ fuel' s' L' cycle' done', loop .fuel G.shrinkStep fuel s = loop .fuel G.shrinkStep fuel' s' ∧
        openItems n s'.inArc < fuel' ∧ Calm G sub L' cycle' done' s' ∧ es ⊆ done' ∧
        done ⊆ done' := by
  intro es
  induction es with
  | nil =>
    intro done L cycle s fuel calm _ _ _ enough
    exact ⟨fuel, s, L, cycle, done, rfl, enough, calm, nil_subset _, List.Subset.refl _⟩
  | cons e es ih =>
    intro done L cycle s fuel calm queue free nodup enough
    obtain ⟨absent, nodup'⟩ := List.nodup_cons.1 nodup
    have fresh : e ∉ done := fun old => absent (mem_append_right es old)
    have first : s.queue = ⟨e, false⟩ :: ⟨e, true⟩ :: (es.flatMap edgeArcs ++ rest) := queue
    obtain ⟨s1, s2, L2, cycle2, step, step1, less, less1, calm2, queue2⟩ :=
      calm.pair forest (free e mem_cons_self) fresh first
    obtain ⟨fuel, rfl⟩ : ∃ left, fuel = left + 1 + 1 := ⟨fuel - 2, by omega⟩
    have nodup2 : (es ++ e :: done).Nodup := perm_middle.nodup_iff.2 nodup
    obtain ⟨fuel', s', L', cycle', done', eq, enough', calm', allRead, old⟩ := ih calm2 queue2
      (fun e' mem => free e' (mem_cons_of_mem e mem)) nodup2 (by omega : _ < fuel)
    refine ⟨fuel', s', L', cycle', done', ?_, enough', calm', ?_, ?_⟩
    · rw [loop_inl step, loop_inl step1, eq]
    · exact cons_subset.2 ⟨old mem_cons_self, allRead⟩
    · exact fun e' mem => old (mem_cons_of_mem e mem)

/-- The free arcs have made sets. -/
def Paired (G : DiGraph n m) (sub : Fin m → ℚ) (L : Nesting) (cycle : ℕ → List (Arc m)) : Prop :=
  ∀ a, G.Free sub a → ∃ t ∈ L.sets, a ∈ cycle t ∧ a.rev ∈ cycle t

theorem Calm.covers {done : List (Fin m)} (calm : Calm G sub L cycle done s)
    (all : G.freeEdges sub ⊆ done) : G.Paired sub L cycle := by
  rintro ⟨e, back⟩ free
  have forth : G.Free sub ⟨e, false⟩ := by
    cases back with
    | false => exact free
    | true => exact free.rev
  have mem : e ∈ G.freeEdges sub :=
    mem_filter.2 ⟨mem_finRange e, decide_eq_true forth⟩
  obtain ⟨t, present, inF, inT⟩ := calm.paired e (all mem)
  cases back with
  | false => exact ⟨t, present, inF, inT⟩
  | true => exact ⟨t, present, inT, inF⟩

/-- What is known when the main loop has ended. -/
structure Shrunk (G : DiGraph n m) (sub : Fin m → ℚ) (L : Nesting) (cycle : ℕ → List (Arc m))
    (s : StrongScan m) : Prop where
  family : FamilyAt n s.S L
  branching : Branching G sub L s.inArc s.nCycles cycle
  exhausted : G.Exhausted sub L s.inArc
  paired : G.Paired sub L cycle

theorem start_calm (within : G.WithinBounds sub) (family : FamilyAt n S .initial) :
    Calm G sub .initial (fun _ => []) []
      { S := S, inArc := fun _ => none, queue := G.strongQueue sub,
        edgeCount := (G.strongQueue sub).length, nCycles := 0 } := by
  have self : ∀ x : ℕ, topOf Nesting.initial.parent x = x := fun x => Outermost.topOf_eq (.self rfl)
  have noSet : ∀ x, x ∉ Nesting.initial.sets := fun x => notMem_empty x
  refine ⟨⟨family, ⟨fun x => ?_, rfl, fun x s step => ?_, fun x _ a known => ?_,
    fun t _ _ => .self rfl, fun s mem => absurd mem (noSet s)⟩, fun _ _ => rfl, ?_,
    ⟨fun a => (mem_strongQueue within).1, nodup_strongQueue, fun x a known => ?_,
      fun a useful => .inl ((mem_strongQueue within).2 useful), fun a mem => ?_⟩⟩,
    fun _ _ => rfl, rfl, fun x y eq => ?_, fun e mem => ?_⟩
  · exact iff_of_false (noSet x) fun range => absurd range.2 (Nat.not_lt.2 range.1)
  · cases step
  · cases known
  · have bound := card_filter_le (Finset.range (n + 0)) fun x => Nesting.initial.parent x = none
    rw [card_range] at bound
    exact bound
  · cases known
  · rw [drop_length] at mem
    cases mem
  · rw [self, self] at eq
    exact ⟨[], Fin.ext eq, fun b mem => nomatch mem⟩
  · cases mem

theorem shrink_spec (within : G.WithinBounds sub) (forest : ∀ x c, ¬ G.FreeCycle sub x c)
    (family : FamilyAt n S .initial) :
    ∃ s L cycle, loop .fuel G.shrinkStep (itemFuel n)
      { S := S, inArc := fun _ => none, queue := G.strongQueue sub,
        edgeCount := (G.strongQueue sub).length, nCycles := 0 } = .ok s ∧
      Shrunk G sub L cycle s := by
  have calm := start_calm within family
  have few : openItems n (fun _ => none : ℕ → Option (Arc m)) < itemFuel n := by
    have bound := card_filter_le (Finset.range (3 * n))
      fun x => (fun _ => none : ℕ → Option (Arc m)) x = none
    rw [card_range] at bound
    exact Nat.lt_succ_of_le bound
  have free : ∀ e ∈ G.freeEdges sub, G.Free sub ⟨e, false⟩ := fun e mem =>
    of_decide_eq_true (mem_filter.1 mem).2
  have nodup : (G.freeEdges sub ++ []).Nodup := by
    rw [append_nil]
    exact (nodup_finRange m).filter _
  have queue : G.strongQueue sub = (G.freeEdges sub).flatMap edgeArcs ++
      (arcs m).filter (fun a => 0 < G.resCap sub a.rev ∧ G.resCap sub a = 0) := by
    rw [strongQueue, filter_free_arcs]
  obtain ⟨fuel, s1, L1, cycle1, done, eq, enough, calm1, all, -⟩ :=
    calm.run forest queue free nodup few
  rw [eq]
  have iteration : ∀ s, (∃ L cycle, ShrinkingInv G sub L cycle s ∧ G.Paired sub L cycle) →
      (∃ s', G.shrinkStep s = .ok (.inl s') ∧
        (∃ L cycle, ShrinkingInv G sub L cycle s' ∧ G.Paired sub L cycle) ∧
        openItems n s'.inArc < openItems n s.inArc) ∨
      ∃ s', G.shrinkStep s = .ok (.inr s') ∧ ∃ L cycle, Shrunk G sub L cycle s' := by
    rintro s ⟨L, cycle, inv, paired⟩
    rcases inv.step with ⟨s', L', cycle', step, inv', less, more, old⟩ |
      ⟨s', step, labels, sets, family', exhausted⟩
    · refine .inl ⟨s', step, ⟨L', cycle', inv', fun a free => ?_⟩, less⟩
      obtain ⟨t, present, forth, back⟩ := paired a free
      exact ⟨t, more present, (old t present).symm ▸ forth, (old t present).symm ▸ back⟩
    · refine .inr ⟨s', step, L, cycle, family', ?_, labels ▸ exhausted, paired⟩
      rw [labels, sets]
      exact inv.branching
  obtain ⟨s, run, L, cycle, shrunk⟩ := loop_of_measure .fuel G.shrinkStep _
    (fun s => openItems n s.inArc) _ iteration ⟨L1, cycle1, calm1.inv, calm1.covers all⟩ fuel enough
  exact ⟨s, L, cycle, run, shrunk⟩

/-! ## Splitting a set -/

/-- The loop ends at `u`, and the root is one of the members. -/
theorem chooseRoot_spec {label : ℕ → Option (Arc m)} {P : ℕ → Prop} {thisRoot u w : ℕ}
    (eq : ∀ x, x ≠ u → inArc x = label x) (stop : label u = none)
    (closed : ∀ x a, P x → inArc x = some a → P (G.comesFrom L a)) (family : FamilyAt n S L)
    (reads : ReadsTo label (G.comesFrom L) w p u) (start : P w) (root : P thisRoot) {fuel : ℕ}
    (enough : p.length < fuel) :
    ∃ r S', G.chooseRoot sub inArc u fuel w thisRoot S = .ok (r, S') ∧ P r ∧ FamilyAt n S' L := by
  induction p generalizing w S fuel thisRoot with
  | nil =>
    obtain ⟨fuel, rfl⟩ := Nat.exists_eq_succ_of_ne_zero (Nat.ne_of_gt enough)
    exact ⟨thisRoot, S, by rw [chooseRoot, if_pos (show w = u from reads)], root, family⟩
  | cons b p ih =>
    obtain ⟨fuel, rfl⟩ := Nat.exists_eq_succ_of_ne_zero (Nat.ne_of_gt (Nat.zero_lt_of_lt enough))
    obtain ⟨first, rest⟩ := reads
    have other : w ≠ u := by
      rintro rfl
      rw [stop] at first
      cases first
    have known : inArc w = some b := (eq w other).trans first
    obtain ⟨S1, run, family1⟩ := family.setOf (G.src b).isLt
    have chosen : P (if G.resCap sub b = 0 then w else thisRoot) := by
      split_ifs
      · exact start
      · exact root
    obtain ⟨r, S', rest', mem, family'⟩ := ih family1 rest (closed w b start known) chosen
      (Nat.lt_of_succ_lt_succ enough)
    refine ⟨r, S', ?_, mem, family'⟩
    simp only [chooseRoot, if_neg other, known, defined, bind, Except.bind, run]
    exact rest'

namespace Branching

variable {u : ℕ}

section

variable (branching : Branching G sub L inArc (k + 1) cycle)
include branching

theorem last_mem : n + k ∈ L.sets :=
  (branching.sets _).2 (by omega)

section

variable (laminar : L.Laminar n (2 * n))
include laminar

theorem last_top : L.parent (n + k) = none := by
  cases step : L.parent (n + k) with
  | none => rfl
  | some s =>
    have later := branching.rising _ _ step
    have range := (branching.sets s).1 (laminar.members _ s step).2
    omega

/-- An arc that comes from the last set comes from one of its members when the set is split. -/
theorem comesFrom_release (inside : G.comesFrom L a = n + k) :
    L.parent (G.comesFrom (L.release (n + k)) a) = some (n + k) := by
  have within := (laminar.grounded.topOf (G.src a)).within
  have isLast : topOf L.parent (G.src a) = n + k := inside
  rw [isLast] at within
  obtain ⟨v, mem, nested⟩ := within.exists_member (by omega)
  have found : G.comesFrom (L.release (n + k)) a = v :=
    topOf_dissolve_member (branching.last_top laminar) nested mem
  rw [found, mem]

theorem replaces (mem : L.parent u = some (n + k)) (x : Option (Arc m)) :
    Replaces inArc (update inArc u x) (G.comesFrom L) (G.comesFrom (L.release (n + k)))
      (n + k) {y | L.parent y = some (n + k)} where
  inner := fun _ inside => branching.comesFrom_release laminar inside
  outer := fun _ other =>
    topOf_dissolve_other laminar.grounded (branching.last_top laminar) other
  same := by
    intro y out
    refine update_of_ne ?_ ..
    rintro rfl
    exact out mem
  apart := by
    intro a inside
    have top := (laminar.grounded.topOf (G.src a)).top
    have step : L.parent (topOf L.parent (G.src a)) = some (n + k) := inside
    rw [top] at step
    cases step

theorem memberCycle : LabelCycle inArc (G.comesFrom (L.release (n + k))) (cycle (n + k)) ∧
      ∀ x, L.parent x = some (n + k) ↔
        x ∈ (cycle (n + k)).map (G.comesFrom (L.release (n + k))) := by
  obtain ⟨f, labels, within, members⟩ := branching.cycles _ branching.last_mem
  have eq : ∀ a ∈ cycle (n + k), G.comesFrom (L.release (n + k)) a = f a := by
    intro a inside
    exact topOf_dissolve_member (branching.last_top laminar) (within a inside)
      ((members _).2 (mem_map_of_mem inside))
  refine ⟨labels.congr_src eq, fun x => ?_⟩
  rw [members, map_congr_left eq]

theorem rooted_member (mem : L.parent u = some (n + k)) :
    Rooted (update inArc u (inArc (n + k))) (G.comesFrom (L.release (n + k))) u := by
  have replaces := branching.replaces laminar mem (inArc (n + k))
  have top := branching.last_top laminar
  obtain ⟨p, r, reads, root⟩ := branching.rooted (n + k) (by omega) top
  cases p with
  | nil =>
    cases reads
    exact .self (by rw [update_self, root])
  | cons a p =>
    have nodup := reads.nodup_of_root root
    obtain ⟨first, rest⟩ := reads
    rw [List.map_cons, List.nodup_cons, List.mem_cons, not_or] at nodup
    have other : G.comesFrom L a ≠ n + k := Ne.symm nodup.1.1
    refine Rooted.append (.single (a := a) (by rw [update_self, first])) ?_
    rw [replaces.outer a other]
    exact replaces.rooted_of_avoids rest root (replaces.apart a) nodup.1.2

/-- **The last set is split**, and one of its members gets its label. -/
theorem release (mem : L.parent u = some (n + k))
    (entered : ∀ a, inArc (n + k) = some a → Within L.parent (G.dst a) u) :
    Branching G sub (L.release (n + k)) (update inArc u (inArc (n + k))) k cycle := by
  have top := branching.last_top laminar
  have replaces := branching.replaces laminar mem (inArc (n + k))
  obtain ⟨labels, members⟩ := branching.memberCycle laminar
  have below := branching.rising u _ mem
  have within : ∀ {x t}, t < n + k →
      (Within (L.release (n + k)).parent x t ↔ Within L.parent x t) :=
    fun low => NestedFamily.within_release top (Nat.ne_of_lt low)
  refine ⟨fun x => ?_, ?_, fun x s step => ?_, fun x low a known => ?_, fun t low topT => ?_,
    fun s present => ?_⟩
  · change x ∈ L.sets.erase (n + k) ↔ _
    rw [mem_erase, branching.sets]
    omega
  · change L.fixed.erase (n + k) = L.sets.erase (n + k)
    rw [branching.fixed]
  · exact branching.rising x s (dissolve_eq_some.1 step).1
  · rw [within low, within low]
    rcases of_update known with ⟨here, known⟩ | ⟨-, known⟩
    · obtain ⟨-, out, useful⟩ := branching.enters (n + k) (by omega) a known
      rw [here]
      exact ⟨entered a known, fun nested => out (nested.trans (.single mem)), useful⟩
    · exact branching.enters x (by omega) a known
  · have rooted : ∀ y ∈ (cycle (n + k)).map (G.comesFrom (L.release (n + k))),
        Rooted (update inArc u (inArc (n + k))) (G.comesFrom (L.release (n + k))) y :=
      labels.rooted ((members u).1 mem) (branching.rooted_member laminar mem)
        fun x _ other => update_of_ne other ..
    rcases dissolve_eq_none.1 topT with inside | old
    · exact rooted t ((members t).1 inside)
    · refine replaces.rooted (fun y inside => rooted y ((members y).1 inside))
        (branching.rooted t (by omega) old) (fun inside => ?_) (Nat.ne_of_lt low)
      rw [Set.mem_ofPred_eq, old] at inside
      cases inside
  · obtain ⟨other, present⟩ := mem_erase.1 present
    obtain ⟨f, labels', within', members'⟩ := branching.cycles s present
    refine ⟨f, labels'.congr_nodes fun x inside => ?_, fun a inside => ?_, fun x => ?_⟩
    · refine update_of_ne ?_ ..
      rintro rfl
      exact other (Option.some.inj (((members' x).2 inside).symm.trans mem))
    · have step := (members' (f a)).2 (mem_map_of_mem inside)
      have range := (branching.sets s).1 present
      have lower := branching.rising _ _ step
      exact (within (by omega)).2 (within' a inside)
    · rw [← members' x]
      exact dissolve_eq_some.trans (and_iff_left other)

end

end

end Branching

/-! ## Splitting all sets -/

section

variable (n : ℕ) (L : Nesting) (inArc : ℕ → Option (Arc m)) (k : ℕ)

/-- A free edge has made a set that has not been split, or one of its arcs is the label of an
outermost item. -/
def Covers
    (cycle : ℕ → List (Arc m)) (a : Arc m) : Prop :=
  (∃ s ∈ L.sets, a ∈ cycle s ∧ a.rev ∈ cycle s) ∨
    ∃ t < n + k, L.parent t = none ∧ (inArc t = some a ∨ inArc t = some a.rev)

/-- An outermost item without a label. -/
structure RootItem (t : ℕ) : Prop where
  low : t < n + k
  top : L.parent t = none
  root : inArc t = none

end

/-- **Invariant while sets are split.** `outer` gives the outermost items of the main loop, and
`isRoot` those without a label. There is at most one root in each of them. -/
structure SplittingInv (G : DiGraph n m) (sub : Fin m → ℚ) (cycle : ℕ → List (Arc m))
    (outer : ℕ → ℕ) (isRoot : ℕ → Prop) (L : Nesting) (inArc : ℕ → Option (Arc m)) (k : ℕ) :
    Prop where
  branching : Branching G sub L inArc k cycle
  nested : ∀ x s, L.parent x = some s → outer x = outer s
  roots : ∀ t, RootItem n L inArc k t → isRoot (outer t)
  unique : ∀ t t', RootItem n L inArc k t → RootItem n L inArc k t' → outer t = outer t' → t = t'
  covers : ∀ a, G.Free sub a → Covers n L inArc k cycle a

namespace SplittingInv

variable {outer : ℕ → ℕ} {isRoot : ℕ → Prop} {u : ℕ}

/-- A root of the new family is an old one, or it is the member that gets no label. -/
theorem root_release (inv : SplittingInv G sub cycle outer isRoot L inArc (k + 1))
    (laminar : L.Laminar n (2 * n)) (mem : L.parent u = some (n + k))
    (found : RootItem n (L.release (n + k)) (update inArc u (inArc (n + k))) k t) :
    ∃ t', RootItem n L inArc (k + 1) t' ∧ outer t = outer t' ∧ (t = t' ∨ (t = u ∧ t' = n + k)) := by
  obtain ⟨labels, members⟩ := inv.branching.memberCycle laminar
  have low := found.low
  have root := found.root
  by_cases here : t = u
  · subst here
    rw [update_self] at root
    exact ⟨n + k, ⟨by omega, inv.branching.last_top laminar, root⟩, inv.nested t _ mem,
      .inr ⟨rfl, rfl⟩⟩
  · rw [update_of_ne here] at root
    rcases dissolve_eq_none.1 found.top with inside | old
    · obtain ⟨a, -, known⟩ := labels.exists_label ((members t).1 inside)
      rw [root] at known
      cases known
    · exact ⟨t, ⟨by omega, old, root⟩, rfl, .inl rfl⟩

theorem covers_release (branching : Branching G sub L inArc (k + 1) cycle)
    (laminar : L.Laminar n (2 * n)) (mem : L.parent u = some (n + k))
    (covers : Covers n L inArc (k + 1) cycle a) :
    Covers n (L.release (n + k)) (update inArc u (inArc (n + k))) k cycle a := by
  obtain ⟨labels, members⟩ := branching.memberCycle laminar
  have below := branching.rising u _ mem
  have newTop : ∀ {x}, L.parent x = some (n + k) → (L.release (n + k)).parent x = none :=
    fun inside => dissolve_eq_none.2 (.inl inside)
  rcases covers with ⟨s, present, forth, back⟩ | ⟨t, low, top, label⟩
  · by_cases isLast : s = n + k
    · subst isLast
      obtain ⟨x, metX, knownX⟩ := labels.exists_node forth
      obtain ⟨y, metY, knownY⟩ := labels.exists_node back
      have insideX := (members x).2 metX
      have insideY := (members y).2 metY
      have lowX := branching.rising x _ insideX
      have lowY := branching.rising y _ insideY
      by_cases lost : x = u
      · have kept : y ≠ u := by
          rintro rfl
          rw [lost, knownY] at knownX
          exact Dart.rev_ne a (Option.some.inj knownX)
        refine .inr ⟨y, lowY, newTop insideY, .inr ?_⟩
        rw [update_of_ne kept, knownY]
      · refine .inr ⟨x, lowX, newTop insideX, .inl ?_⟩
        rw [update_of_ne lost, knownX]
    · exact .inl ⟨s, mem_erase.2 ⟨isLast, present⟩, forth, back⟩
  · by_cases isLast : t = n + k
    · subst isLast
      refine .inr ⟨u, below, newTop mem, ?_⟩
      rwa [update_self]
    refine .inr ⟨t, by omega, dissolve_eq_none.2 (.inr top), ?_⟩
    rw [update_of_ne]
    · exact label
    · rintro rfl
      rw [top] at mem
      cases mem

/-- **The last set is split**, and one of its members gets its label. -/
theorem release (inv : SplittingInv G sub cycle outer isRoot L inArc (k + 1))
    (laminar : L.Laminar n (2 * n)) (mem : L.parent u = some (n + k))
    (entered : ∀ a, inArc (n + k) = some a → Within L.parent (G.dst a) u) :
    SplittingInv G sub cycle outer isRoot (L.release (n + k))
      (update inArc u (inArc (n + k))) k where
  branching := inv.branching.release laminar mem entered
  nested := fun x s step => inv.nested x s (dissolve_eq_some.1 step).1
  roots := by
    intro t found
    obtain ⟨t', old, eq, -⟩ := inv.root_release laminar mem found
    exact eq ▸ inv.roots t' old
  unique := by
    intro t1 t2 found1 found2 eq
    obtain ⟨t1', old1, eq1, which1⟩ := inv.root_release laminar mem found1
    obtain ⟨t2', old2, eq2, which2⟩ := inv.root_release laminar mem found2
    have both := inv.unique t1' t2' old1 old2 (eq1.symm.trans (eq.trans eq2))
    have low1 := found1.low
    have low2 := found2.low
    rcases which1 with here1 | ⟨here1, last1⟩
    · rcases which2 with here2 | ⟨-, last2⟩
      · rw [here1, here2, both]
      · omega
    · rcases which2 with here2 | ⟨here2, -⟩
      · omega
      · rw [here1, here2]
  covers := fun a free => covers_release inv.branching laminar mem (inv.covers a free)

end SplittingInv

theorem expandSet_spec (branching : Branching G sub L inArc (k + 1) cycle)
    (family : FamilyAt n S L) : ∃ S' u, G.expandSet sub (S, inArc) (n + k) =
        .ok (S', update inArc u (inArc (n + k))) ∧
      FamilyAt n S' (L.release (n + k)) ∧ L.parent u = some (n + k) ∧
      ∀ a, inArc (n + k) = some a → Within L.parent (G.dst a) u := by
  have laminar := family.laminar
  have top := branching.last_top laminar
  have present := branching.last_mem
  have fixed : n + k ∈ L.fixed := branching.fixed ▸ present
  obtain ⟨S1, splitted, family1⟩ := family.split fixed top
  cases known : inArc (n + k) with
  | none =>
    obtain ⟨u, first, mem⟩ := family.firstOf present fixed
    obtain ⟨labels, members⟩ := branching.memberCycle laminar
    have closed : ∀ x a, L.parent x = some (n + k) → inArc x = some a →
        L.parent (G.comesFrom (L.release (n + k)) a) = some (n + k) := by
      intro x a inside label
      obtain ⟨b, onCycle, label'⟩ := labels.exists_label ((members x).1 inside)
      rw [label] at label'
      cases label'
      exact (members _).2 (mem_map_of_mem onCycle)
    obtain ⟨a, onCycle, label⟩ := labels.exists_label ((members u).1 mem)
    obtain ⟨S2, run, family2⟩ := family1.setOf (G.src a).isLt
    have start := closed u a mem label
    have stop : update inArc u none u = none := update_self ..
    obtain ⟨p, reads⟩ : ∃ p, ReadsTo (update inArc u none)
        (G.comesFrom (L.release (n + k))) (G.comesFrom (L.release (n + k)) a) p u := by
      by_cases here : G.comesFrom (L.release (n + k)) a = u
      · exact ⟨[], here⟩
      · rcases labels.exists_path ((members _).1 start) ((members u).1 mem) with
          eq | ⟨p, path⟩
        · exact absurd eq here
        · exact ⟨p, path.readsTo_drop here⟩
    obtain ⟨r, S', chosen, inside, family'⟩ : ∃ r S',
        G.chooseRoot sub inArc u _ _ _ S2 = .ok (r, S') ∧ L.parent r = some (n + k) ∧
          FamilyAt n S' (L.release (n + k)) :=
      chooseRoot_spec (fun x other => (update_of_ne other ..).symm) stop closed family2
        reads start mem (reading_short family1.laminar reads stop)
    refine ⟨S', r, ?_, family', inside, fun a none_some => by cases none_some⟩
    simp only [expandSet, known, first, splitted, label, defined, bind, Except.bind, run]
    dsimp only [comesFrom] at chosen
    simp only [chosen]
    rfl
  | some a =>
    obtain ⟨within, -, -⟩ := branching.enters (n + k) (by omega) a known
    obtain ⟨u, mem, nested⟩ := within.exists_member (by omega)
    obtain ⟨S2, run, family2⟩ := family1.setOf (G.dst a).isLt
    have found : topOf (L.release (n + k)).parent (G.dst a) = u :=
      topOf_dissolve_member top nested mem
    rw [found] at run
    refine ⟨S2, u, ?_, family2, mem, fun b eq => ?_⟩
    · simp only [expandSet, known, splitted, bind, Except.bind, run]
      rfl
    · cases eq
      exact nested

theorem expand_spec {outer : ℕ → ℕ} {isRoot : ℕ → Prop} :
    ∀ {k : ℕ} {L : Nesting} {S : NestedFamily} {inArc : ℕ → Option (Arc m)},
      SplittingInv G sub cycle outer isRoot L inArc k → FamilyAt n S L →
      ∃ S' L' inArc', (range' n k).reverse.foldlM (G.expandSet sub) (S, inArc) = .ok (S', inArc') ∧
        FamilyAt n S' L' ∧ SplittingInv G sub cycle outer isRoot L' inArc' 0 := by
  intro k
  induction k with
  | zero =>
    intro L S inArc inv family
    exact ⟨S, L, inArc, rfl, family, inv⟩
  | succ k ih =>
    intro L S inArc inv family
    obtain ⟨S1, u, run, family1, mem, entered⟩ := expandSet_spec inv.branching family
    obtain ⟨S', L', inArc', rest, family', inv'⟩ :=
      ih (inv.release family.laminar mem entered) family1
    refine ⟨S', L', inArc', ?_, family', inv'⟩
    rw [range'_1_concat, reverse_append, reverse_singleton, singleton_append, foldlM_cons, run]
    exact rest

/-! ## The forest -/

section

variable (G : DiGraph n m) (sub : Fin m → ℚ)

/-- Each node can be reached from the other one by residual arcs. -/
def SameComponent (x y : Fin n) : Prop :=
  (∃ p, IsWalk G.src G.dst x p y ∧ ∀ b ∈ p, 0 < G.resCap sub b) ∧
    ∃ p, IsWalk G.src G.dst y p x ∧ ∀ b ∈ p, 0 < G.resCap sub b

/-- Predecessor labels that form a strongly feasible spanning forest: the labels lead to roots,
flow can be sent along them, every free edge is used, and no residual arc leads from the
strongly connected component of a root into another tree. -/
structure StronglyFeasible (pred : Fin n → Option (Arc m)) :
    Prop where
  rooted : ∀ v, ∃ p r, ReadsTo pred G.src v p r ∧ pred r = none
  enters : ∀ v a, pred v = some a → G.dst a = v ∧ 0 < G.resCap sub a.rev
  free : ∀ a, G.Free sub a → ∃ v, pred v = some a ∨ pred v = some a.rev
  closed : ∀ r b, pred r = none → G.SameComponent sub r (G.src b) → 0 < G.resCap sub b →
    ∃ p, ReadsTo pred G.src (G.dst b) p r

end

theorem readsTo_node {v : Fin n} (reads : ReadsTo inArc (fun a => (G.src a : ℕ)) v p t) :
    ∃ r : Fin n, (r : ℕ) = t ∧ ReadsTo (fun x : Fin n => inArc x) G.src v p r := by
  induction p generalizing v with
  | nil => exact ⟨v, reads, rfl⟩
  | cons a p ih =>
    obtain ⟨r, eq, rest⟩ := ih reads.2
    exact ⟨r, eq, reads.1, rest⟩

/-- Residual arcs do not leave an item without a label. -/
theorem Shrunk.stays (shrunk : Shrunk G sub L cycle s) (root : s.inArc t = none) {b : Arc m}
    (useful : 0 < G.resCap sub b)
    (start : topOf L.parent (G.src b) = t) : topOf L.parent (G.dst b) = t := by
  have entered : G.goesTo L b.rev = t := by
    unfold goesTo
    rw [Network.dst_rev, start]
  rcases shrunk.exhausted b.rev (by rwa [Dart.rev_rev]) with eq | taken
  · exact eq.trans entered
  · rw [entered] at taken
    exact absurd root taken

theorem Shrunk.splitting (shrunk : Shrunk G sub L cycle s) :
    SplittingInv G sub cycle (topOf L.parent) (fun t => s.inArc t = none) L s.inArc s.nCycles where
  branching := shrunk.branching
  nested := fun _ _ step => Within.topOf_eq shrunk.family.laminar.grounded (.single step)
  roots := fun t found => by rw [Outermost.topOf_eq (.self found.top)]; exact found.root
  unique := by
    intro t t' found found' eq
    rwa [Outermost.topOf_eq (.self found.top), Outermost.topOf_eq (.self found'.top)] at eq
  covers := fun a free => .inl (shrunk.paired a free)

/-- **A strongly feasible forest.** -/
theorem strongTree_spec (G : DiGraph n m) (memory : NestedFamily) (within : G.WithinBounds sub)
    (forest : ∀ x c, ¬ G.FreeCycle sub x c) :
    ∃ pred, G.strongTree memory sub = .ok pred ∧ G.StronglyFeasible sub pred := by
  obtain ⟨S0, made, represents, items, room, -⟩ :=
    NestedFamily.init_spec { memory with n := n, m := 2 * n }
  obtain ⟨s, L, cycle, run, shrunk⟩ := shrink_spec within forest ⟨⟨id, represents⟩, items, room⟩
  obtain ⟨S', L', inArc, expanded, family', inv⟩ := expand_spec shrunk.splitting shrunk.family
  refine ⟨fun v => inArc v, ?_, ?_⟩
  · simp only [strongTree, callFamily_ok made, bind, Except.bind, run, expanded]
    rfl
  have branching := inv.branching
  have top : ∀ x, L'.parent x = none := by
    intro x
    cases step : L'.parent x with
    | none => rfl
    | some t =>
      have range := (branching.sets t).1 (family'.laminar.members x t step).2
      omega
  have nodes : G.comesFrom L' = fun a => (G.src a : ℕ) :=
    funext fun a => Outermost.topOf_eq (.self (top _))
  have enters : ∀ (v : Fin n) a, inArc v = some a → G.dst a = v ∧ 0 < G.resCap sub a.rev := by
    intro v a known
    obtain ⟨inside, -, useful⟩ := branching.enters v (by omega) a known
    exact ⟨Fin.ext (inside.eq_of_top (top _)).symm, useful⟩
  have rooted : ∀ v : Fin n, ∃ p r, ReadsTo (fun x : Fin n => inArc x) G.src v p r ∧
      inArc r = none := by
    intro v
    obtain ⟨p, t, reads, root⟩ := branching.rooted v (by omega) (top v)
    rw [nodes] at reads
    obtain ⟨r, rfl, reads'⟩ := readsTo_node reads
    exact ⟨p, r, reads', root⟩
  refine ⟨rooted, enters, fun a free => ?_, fun r b root component useful => ?_⟩
  · rcases inv.covers a free with ⟨t, present, -⟩ | ⟨t, low, -, known⟩
    · have range := (branching.sets t).1 present
      omega
    · exact ⟨⟨t, low⟩, known⟩
  · have item : ∀ x : Fin n, inArc x = none → RootItem n L' inArc 0 x :=
      fun x root => ⟨x.isLt, top x, root⟩
    have isRoot := inv.roots r (item r root)
    obtain ⟨⟨walk, there, residual⟩, -⟩ := component
    have start : topOf L.parent (G.src b) = topOf L.parent r :=
      IsWalk.transport (P := fun x : Fin n => topOf L.parent x = topOf L.parent r) there rfl
        fun c member => shrunk.stays isRoot (residual c member)
    obtain ⟨p, r', reads, root'⟩ := rooted (G.dst b)
    -- labels are read against residual arcs
    have same : topOf L.parent r' = topOf L.parent r := by
      refine ReadsTo.transport (P := fun x : Fin n => topOf L.parent x = topOf L.parent r) reads
        (shrunk.stays isRoot useful start) fun y a known inside => ?_
      obtain ⟨head, residual'⟩ := enters y a known
      have start' : topOf L.parent (G.src a.rev) = topOf L.parent r := by
        rw [Network.src_rev, head]
        exact inside
      have back := shrunk.stays isRoot residual' start'
      rwa [Network.dst_rev] at back
    have isSame := inv.unique r' r (item r' root') (item r root) same
    exact ⟨p, Fin.ext isSame ▸ reads⟩

/-- One free edge. -/
def freeArc : DiGraph 2 1 :=
  .ofArcs (fun _ => 0) (fun _ => 1) (fun _ => 2) (fun _ => 0) (fun _ => 1) (fun _ => 0)

theorem strongTree_freeArc : freeArc.Free (fun _ => 1) ⟨0, false⟩ ∧
      ∃ pred, freeArc.strongTree (NestedFamily.blank true) (fun _ => 1) = .ok pred ∧
        freeArc.StronglyFeasible (fun _ => 1) pred := by
  refine ⟨by decide +kernel, strongTree_spec freeArc (NestedFamily.blank true)
    (by decide +kernel) ?_⟩
  intro x c cycle
  -- a cycle cannot use the edge twice
  have short := cycle.edges.length_le_card
  rw [length_map, Fintype.card_fin] at short
  match c, cycle.nonempty, cycle.walk, short with
  | [a], _, ⟨start, finish⟩, _ =>
    have noLoop : ∀ e back, freeArc.src ⟨e, back⟩ ≠ freeArc.dst ⟨e, back⟩ := by decide +kernel
    exact noLoop a.edge a.back (start.trans finish.symm)

end DiGraph

end Goblin
