import Goblin.Dijkstra
import Goblin.DisjointFamily

/-!
# Voronoi regions

`VoronoiRegions` searches from all terminals at once and then merges every
node with its predecessor in the disjoint set family of the graph. The nodes
are taken by their index, so an item may be merged long before the nodes on its
path are.

What the merged pairs connect does not depend on this order: two nodes are
connected if and only if their predecessor paths end at the same node
(`Root.eqvGen_iff`). For the labels of a search these ends are the terminals
and the nodes that the search has not reached.
-/

set_option autoImplicit false

namespace Goblin

open List Relation
open Library DisjointFamily

namespace MixedGraph

variable {n m : ℕ} (G : MixedGraph n m) (Q : MinQueue.{0, 0, 0} (Fin n) (WithTop ℚ))

/-- The loop that buds the nodes and counts the terminals. -/
def budNodes (CT : FamilyContext) (Terminals : IndexSet n) : List (Fin n) → ℕ → FamilyM ℕ
  | [], nTerminals => return nTerminals
  | i :: rest, nTerminals => do
    bud CT i
    budNodes CT Terminals rest (if Terminals.isMember i then nTerminals + 1 else nTerminals)

/-- A node is merged with its predecessor. -/
def mergePred (CT : FamilyContext) (pred : Fin n → Option (Arc m)) (i : Fin n) : FamilyM Unit :=
  match pred i with
  | none => return ()
  | some a => do
    let u ← find CT (G.startNode a)
    let v ← find CT i
    if u ≠ v then merge CT u v

/-- What follows the search, on the items of the partition. -/
def partitionRegions (CT : FamilyContext) (Terminals : IndexSet n)
    (pred : Fin n → Option (Arc m)) : FamilyM ℕ := do
  let nTerminals ← budNodes CT Terminals (finRange n) 0
  (finRange n).forM (G.mergePred CT pred)
  return nTerminals

/-- `VoronoiRegions`. It leaves the labels of the search and the partition, whose array `rank` is
not initialised, and returns the number of terminals. -/
def voronoiRegions (epsilon : ℚ) (sub : Fin m → ℚ) (potential : Fin n → ℚ) (delta : ℚ)
    (CT : FamilyContext) (rank : ℕ → ℕ) (Terminals : IndexSet n) :
    Except Raise (SPResult n m × ℕ × DisjointFamily) := do
  let r ← G.spxDijkstra Q infFloat epsilon sub potential delta .plain Terminals
    (.singletonIndex n noNode)
  match G.partitionRegions CT Terminals r.pred (.new n rank) with
  | .ok nTerminals partition => return (r, nTerminals, partition)
  | .error e _ => throw e

/-! ## Roots of predecessor paths -/

/-- The predecessor path of `v` ends at `t`. -/
def Root (pred : Fin n → Option (Arc m)) (v t : Fin n) : Prop :=
  pred t = none ∧ ∃ p, ReadsTo pred G.src v p t

/-- The pairs of nodes that are merged. -/
def predPairs (pred : Fin n → Option (Arc m)) (l : List (Fin n)) (x y : ℕ) : Prop :=
  ∃ i ∈ l, ∃ a, pred i = some a ∧ x = G.src a ∧ y = i

variable {G Q} {pred : Fin n → Option (Arc m)} {u v s t : Fin n} {a : Arc m}

theorem Root.of_none (noLabel : pred v = none) : G.Root pred v v := ⟨noLabel, [], rfl⟩

/-- The path of a node goes on as that of its predecessor. -/
theorem root_iff_of_pred (label : pred v = some a) : G.Root pred v t ↔ G.Root pred (G.src a) t := by
  constructor
  · rintro ⟨last, p, reads⟩
    cases p with
    | nil =>
      have here : v = t := reads
      rw [← here, label] at last
      cases last
    | cons b p =>
      have eq : a = b := Option.some.inj (label.symm.trans reads.1)
      exact ⟨last, p, eq ▸ reads.2⟩
  · rintro ⟨last, p, reads⟩
    exact ⟨last, a :: p, label, reads⟩

theorem Root.unique (first : G.Root pred v s) (second : G.Root pred v t) : s = t := by
  obtain ⟨lastS, p, reads⟩ := first
  induction p generalizing v with
  | nil =>
    cases reads
    obtain ⟨-, q, reads'⟩ := second
    cases q with
    | nil => exact reads'
    | cons b q =>
      rw [reads'.1] at lastS
      cases lastS
  | cons a p ih => exact ih ((root_iff_of_pred reads.1).1 second) reads.2

theorem Root.eqvGen (root : G.Root pred v t) : EqvGen (G.predPairs pred (finRange n)) t v := by
  obtain ⟨-, p, reads⟩ := root
  induction p generalizing v with
  | nil =>
    cases reads
    exact .refl _
  | cons a p ih =>
    exact (ih reads.2).trans _ _ _ (.rel _ _ ⟨v, mem_finRange v, a, reads.1, rfl, rfl⟩)

theorem roots_of_eqvGen {x y : ℕ} (connected : EqvGen (G.predPairs pred (finRange n)) x y) :
    x = y ∨ ∃ u v : Fin n, x = u ∧ y = v ∧ ∀ t, G.Root pred u t ↔ G.Root pred v t := by
  induction connected with
  | rel x y pair =>
    obtain ⟨i, -, a, label, rfl, rfl⟩ := pair
    exact .inr ⟨G.src a, i, rfl, rfl, fun t => (root_iff_of_pred label).symm⟩
  | refl x => exact .inl rfl
  | symm x y _ ih =>
    rcases ih with eq | ⟨u, v, atU, atV, roots⟩
    · exact .inl eq.symm
    · exact .inr ⟨v, u, atV, atU, fun t => (roots t).symm⟩
  | trans x y z _ _ first second =>
    rcases first with rfl | ⟨u, v, atU, atV, roots⟩
    · exact second
    · rcases second with rfl | ⟨v', w, atV', atW, roots'⟩
      · exact .inr ⟨u, v, atU, atV, roots⟩
      · have eq : v = v' := Fin.ext (atV.symm.trans atV')
        exact .inr ⟨u, w, atU, atW, fun t => (roots t).trans (eq ▸ roots' t)⟩

/-- **The merged pairs connect the nodes whose paths have the same end.** -/
theorem Root.eqvGen_iff (root : G.Root pred u s) (root' : G.Root pred v t) :
    EqvGen (G.predPairs pred (finRange n)) u v ↔ s = t := by
  constructor
  · intro connected
    rcases roots_of_eqvGen connected with eq | ⟨u', v', atU, atV, roots⟩
    · exact root.unique (Fin.ext eq ▸ root')
    · cases Fin.ext atU
      cases Fin.ext atV
      exact ((roots s).1 root).unique root'
  · rintro rfl
    exact (root.eqvGen.symm).trans _ _ _ root'.eqvGen

/-! ## The partition -/

variable {CT : FamilyContext} {Terminals : IndexSet n} {st : DisjointFamily} {joined : ℕ → ℕ → Prop}

section

variable (CT : FamilyContext)

theorem budNodes_spec (Terminals : IndexSet n) (rest : List (Fin n))
    (nTerminals : ℕ) (rep : st.Represents joined) (size : st.n = n) (nodup : rest.Nodup)
    (fresh : ∀ v ∈ rest, st.B v = none) : ∃ st', budNodes CT Terminals rest nTerminals st =
        .ok (nTerminals + (rest.filter fun v : Fin n => Terminals.isMember v).length) st' ∧
      st'.Represents joined ∧ ∀ v : Fin n, v ∈ rest ∨ st.B v ≠ none → st'.B v ≠ none := by
  induction rest generalizing st nTerminals with
  | nil => exact ⟨st, rfl, rep, fun v => Or.rec (fun absurd => nomatch absurd) id⟩
  | cons i rest ih =>
    obtain ⟨notLater, nodup⟩ := nodup_cons.1 nodup
    obtain ⟨st1, budded, rep1, size1, defined⟩ :=
      bud_spec CT rep (size.symm ▸ i.isLt) (fresh i mem_cons_self)
    have fresh1 : ∀ v ∈ rest, st1.B v = none := by
      intro v later
      by_contra present
      rcases (defined v).1 present with eq | old
      · exact notLater (Fin.ext eq ▸ later)
      · exact old (fresh v (mem_cons_of_mem _ later))
    obtain ⟨st', res, rep', all⟩ :=
      ih (if Terminals.isMember i then nTerminals + 1 else nTerminals) rep1
        (size1.trans size) nodup fresh1
    refine ⟨st', ?_, rep', fun v mem => ?_⟩
    · rw [budNodes, run_bind_ok budded, res, filter_cons]
      split_ifs
      · rw [length_cons]
        congr 1
        omega
      · rfl
    · refine all v ?_
      rcases mem with mem | old
      · rcases mem_cons.1 mem with rfl | later
        · exact .inr ((defined v).2 (.inl rfl))
        · exact .inl later
      · exact .inr ((defined v).2 (.inr old))

/-- **One node**: it is connected with its predecessor, through their canonical items. -/
theorem mergePred_spec (pred : Fin n → Option (Arc m)) (i : Fin n)
    (rep : st.Represents joined) (all : ∀ v : Fin n, st.B v ≠ none) :
    ∃ st', G.mergePred CT pred i st = .ok () st' ∧
      st'.Represents (fun x y => joined x y ∨ G.predPairs pred [i] x y) ∧
      ∀ v : Fin n, st'.B v ≠ none := by
  cases label : pred i with
  | none =>
    refine ⟨st, by rw [mergePred, label]; rfl, ?_, all⟩
    refine rep.congr (fun x y pair => .rel x y (.inl pair)) fun x y pair => ?_
    rcases pair with pair | ⟨i', here, a, label', -⟩
    · exact ⟨(rep.partitions.complete x y pair).elim fun w leads => leads.1.ne_none,
        .rel x y pair⟩
    · rw [mem_singleton.1 here, label] at label'
      cases label'
  | some a =>
    -- the only pair that is new
    have newPair : ∀ {x y : ℕ}, G.predPairs pred [i] x y → x = G.src a ∧ y = i := by
      rintro x y ⟨i', here, a', label', atX, atY⟩
      cases mem_singleton.1 here
      cases label.symm.trans label'
      exact ⟨atX, atY⟩
    obtain ⟨x, st1, foundX, leadsX, compressed1⟩ :=
      find_spec CT rep.valid (all (G.src a))
    have rep1 := rep.compressed compressed1
    have all1 : ∀ v : Fin n, st1.B v ≠ none := fun v absent =>
      all v (compressed1.shortens.none_iff.1 absent)
    obtain ⟨y, st2, foundY, leadsY, compressed2⟩ := find_spec CT rep1.valid (all1 i)
    have rep2 := rep1.compressed compressed2
    have all2 : ∀ v : Fin n, st2.B v ≠ none := fun v absent =>
      all1 v (compressed2.shortens.none_iff.1 absent)
    have leadsX2 : Library.Leads st2.B (G.src a) x :=
      compressed2.shortens.leads (compressed1.shortens.leads leadsX)
    have leadsY2 : Library.Leads st2.B i y := compressed2.shortens.leads leadsY
    have toX := rep2.partitions.sound _ _ ⟨x, leadsX2, leadsX2.canonical⟩
    have toY := rep2.partitions.sound _ _ ⟨y, leadsY2, leadsY2.canonical⟩
    have run : G.mergePred CT pred i st = (if x ≠ y then merge CT x y else pure ()) st2 := by
      rw [mergePred, label]
      dsimp only
      rw [run_bind_ok foundX, run_bind_ok foundY]
    by_cases eq : x = y
    · refine ⟨st2, by rw [run, if_neg (not_not.2 eq)]; rfl, ?_, all2⟩
      refine rep2.congr (fun p q pair => .rel p q (.inl pair)) fun p q pair => ?_
      rcases pair with pair | pair
      · exact ⟨(rep2.partitions.complete p q pair).elim fun w leads => leads.1.ne_none,
          .rel p q pair⟩
      · obtain ⟨rfl, rfl⟩ := newPair pair
        exact ⟨leadsX2.ne_none, toX.trans _ _ _ (eq ▸ toY.symm)⟩
    obtain ⟨st', merged, rep', -, defined⟩ :=
      merge_spec CT rep2 leadsX2.canonical.ne_none leadsY2.canonical.ne_none
    have all' : ∀ v : Fin n, st'.B v ≠ none := fun v => (defined v).2 (all2 v)
    refine ⟨st', by rw [run, if_pos eq, merged], rep'.congr ?_ ?_, all'⟩
    · rintro p q (pair | ⟨rfl, rfl⟩)
      · exact .rel p q (.inl pair)
      · have new : EqvGen (fun x y => joined x y ∨ G.predPairs pred [i] x y)
            (G.src a) i := .rel _ _ (.inr ⟨i, mem_singleton_self i, a, label, rfl, rfl⟩)
        exact (toX.mono fun _ _ => .inl).symm.trans _ _ _
          (new.trans _ _ _ (toY.mono fun _ _ => .inl))
    · rintro p q (pair | pair)
      · exact ⟨(rep'.partitions.complete p q (.inl pair)).elim
          fun w leads => leads.1.ne_none, .rel p q (.inl pair)⟩
      · obtain ⟨rfl, rfl⟩ := newPair pair
        refine ⟨all' _, (toX.mono fun _ _ => .inl).trans _ _ _ ?_⟩
        exact EqvGen.trans _ _ _ (.rel x y (.inr ⟨rfl, rfl⟩)) (toY.mono fun _ _ => .inl).symm

theorem mergePreds_spec (pred : Fin n → Option (Arc m)) (l : List (Fin n))
    (rep : st.Represents joined) (all : ∀ v : Fin n, st.B v ≠ none) :
    ∃ st', l.forM (G.mergePred CT pred) st = .ok () st' ∧
      st'.Represents (fun x y => joined x y ∨ G.predPairs pred l x y) ∧
      ∀ v : Fin n, st'.B v ≠ none := by
  induction l generalizing st joined with
  | nil =>
    refine ⟨st, rfl, ?_, all⟩
    have eq : (fun x y => joined x y ∨ G.predPairs pred [] x y) = joined := by
      funext x y
      simp [predPairs]
    rwa [eq]
  | cons i l ih =>
    obtain ⟨st1, step, rep1, all1⟩ := mergePred_spec CT pred i rep all
    obtain ⟨st', rest, rep', all'⟩ := ih rep1 all1
    refine ⟨st', ?_, ?_, all'⟩
    · change (G.mergePred CT pred i >>= fun _ => l.forM (G.mergePred CT pred)) st = _
      rw [run_bind_ok step, rest]
    · have eq : (fun x y => joined x y ∨ G.predPairs pred (i :: l) x y) =
          fun x y => (joined x y ∨ G.predPairs pred [i] x y) ∨ G.predPairs pred l x y := by
        funext x y
        simp [predPairs, or_assoc]
      rwa [eq]

/-- **The partition**: it counts the terminals and connects every node with its predecessor. -/
theorem partitionRegions_spec (Terminals : IndexSet n)
    (pred : Fin n → Option (Arc m)) (rank : ℕ → ℕ) :
    ∃ partition, G.partitionRegions CT Terminals pred (.new n rank) =
        .ok (Finset.univ.filter fun v : Fin n => Terminals.isMember v = true).card partition ∧
      partition.Represents (G.predPairs pred (finRange n)) ∧ ∀ v : Fin n, partition.B v ≠ none := by
  have start : (DisjointFamily.new n rank).Represents fun _ _ => False := by
    refine ⟨new_valid n rank, ⟨?_, fun x y pair => pair.elim⟩⟩
    rintro x y ⟨w, leads, -⟩
    exact absurd rfl leads.ne_none
  obtain ⟨st1, budded, rep1, all1⟩ := budNodes_spec CT Terminals (finRange n) 0 start
    rfl (nodup_finRange n) fun _ _ => rfl
  obtain ⟨st2, merged, rep2, all2⟩ := mergePreds_spec (G := G) CT pred (finRange n)
    rep1 fun v => all1 v (.inl (mem_finRange v))
  refine ⟨st2, ?_, ?_, all2⟩
  · have count : ((finRange n).filter fun v : Fin n => Terminals.isMember v).length =
        (Finset.univ.filter fun v : Fin n => Terminals.isMember v = true).card := by
      rw [← toFinset_card_of_nodup ((nodup_finRange n).filter _), toFinset_filter,
        toFinset_finRange]
    rw [partitionRegions, run_bind_ok budded, run_bind_ok merged, zero_add, count]
    rfl
  · simpa only [false_or] using rep2

end

/-! ## Correctness -/

/-- The classes of the canonical items are the Voronoi regions of the terminals: `len` measures
the arcs, `pred` are the predecessor labels. -/
structure VoronoiPartition (G : MixedGraph n m) (el : Arc m → Bool) (len : Arc m → ℚ)
    (Terminals : IndexSet n) (pred : Fin n → Option (Arc m)) (canonical : Fin n → ℕ) : Prop where
  same : ∀ u v, ReachableFrom G.src G.dst (fun a => el a = true) (members Terminals) u →
    ReachableFrom G.src G.dst (fun a => el a = true) (members Terminals) v →
    (canonical u = canonical v ↔ ∃ t, G.Root pred u t ∧ G.Root pred v t)
  terminal : ∀ v, ReachableFrom G.src G.dst (fun a => el a = true) (members Terminals) v →
    ∃! t, members Terminals t ∧ canonical t = canonical v
  nearest : ∀ v t, ReachableFrom G.src G.dst (fun a => el a = true) (members Terminals) v →
    members Terminals t → canonical t = canonical v →
    ∃ p, ReadsTo pred G.src v p t ∧ (∀ a ∈ p, el a = true) ∧
      IsDistance G.src G.dst (fun a => el a = true) len (members Terminals) v (p.map len).sum
  single : ∀ v, ¬ ReachableFrom G.src G.dst (fun a => el a = true) (members Terminals) v →
    ∀ u, canonical u = canonical v → u = v

section

variable {el : Arc m → Bool} {len : Arc m → ℚ} {done : List (Fin n)} {dist : Fin n → WithTop ℚ}
  {S : Fin n → Prop}

/-- The predecessor path of a node that has been reached ends at a source. -/
theorem Labels.root (labels : G.Labels el len S done dist pred) {d : ℚ} (label : dist v = d) :
    ∃ t p, S t ∧ G.Root pred v t ∧ ReadsTo pred G.src v p t ∧ (∀ a ∈ p, el a = true) ∧
      (p.map len).sum = d := by
  by_cases source : S v
  · obtain ⟨zero, noPred⟩ := labels.sources v source
    refine ⟨v, [], source, .of_none noPred, rfl, by simp, ?_⟩
    rw [zero] at label
    exact_mod_cast label
  · obtain ⟨t, p, isSource, path, usable, length⟩ :=
      labels.path (v := v) (by simp [label]) source
    have reads := path.readsTo
    refine ⟨t, p, isSource, ⟨(labels.sources t isSource).2, p, reads⟩, reads, usable, ?_⟩
    rw [label] at length
    exact_mod_cast length.symm

theorem Settled.pred_none {T : IndexSet n} {level : WithTop ℚ} {r : SPResult n m}
    (settled : G.Settled el len S T done level r) (unlabelled : r.dist v = ⊤) : r.pred v = none := by
  by_contra present
  obtain ⟨a, label⟩ := Option.ne_none_iff_exists'.1 present
  have finite := (settled.inside _ (settled.labels.earlier v a label).1).2
  have tight := settled.labels.tight v a label
  rw [unlabelled] at tight
  rcases WithTop.add_eq_top.1 tight.symm with top | top
  · exact finite top
  · exact WithTop.coe_ne_top top

end

/-- **The regions are those of the terminals.** The procedure returns and counts the terminals.
Afterwards, nodes that can be reached are in the same class if and only if their predecessor paths
end in the same terminal; it is the only one of its class and a nearest one for each node of
it. The other nodes form classes of their own. The walks have to be short enough for the labels of
the search. -/
theorem voronoiRegions_correct (G : MixedGraph n m) (Q : MinQueue.{0, 0, 0} (Fin n) (WithTop ℚ))
    {epsilon : ℚ} (tolerant : 0 ≤ epsilon) (sub : Fin m → ℚ) (potential : Fin n → ℚ) (delta : ℚ)
    (CT : FamilyContext) (rank : ℕ → ℕ) (Terminals : IndexSet n) (limit : n ≤ noNode)
    (nonneg : ∀ a, G.eligible sub delta .plain a = true → 0 ≤ G.length a.edge)
    (short : WalksBelow G.src G.dst (fun a => G.eligible sub delta .plain a = true)
      (members Terminals) (fun a => G.length a.edge) infFloat) :
    ∃ r partition, G.voronoiRegions Q epsilon sub potential delta CT rank Terminals = .ok
        (r, (Finset.univ.filter fun v : Fin n => Terminals.isMember v = true).card, partition) ∧
      ∃ canonical : Fin n → ℕ,
        (∀ CT' (v : Fin n), ∃ st', find CT' v partition = .ok (canonical v) st') ∧
        G.VoronoiPartition (G.eligible sub delta .plain) (fun a => G.length a.edge) Terminals r.pred
          canonical := by
  have noTargets : ∀ v : Fin n, (IndexSet.singletonIndex n noNode).isMember v = false := by
    intro v
    exact decide_eq_false (v.isLt.trans_le limit).ne
  obtain ⟨r, done, level, result, settled⟩ := G.dijkstra_spec Q tolerant nonneg Terminals
    (.singletonIndex n noNode) short
  have distances := settled.all_distances nonneg noTargets
  obtain ⟨partition, parts, represents, all⟩ := partitionRegions_spec (G := G) CT Terminals r.pred
    rank
  obtain ⟨canonical, found, same⟩ := represents.canonical
  -- reached nodes have a terminal as root, the others have none to go to
  have reached : ∀ v, ReachableFrom G.src G.dst (fun a => G.eligible sub delta .plain a = true)
      (members Terminals) v → ∃ t p, members Terminals t ∧ G.Root r.pred v t ∧
        ReadsTo r.pred G.src v p t ∧ (∀ a ∈ p, G.eligible sub delta .plain a = true) ∧
        IsDistance G.src G.dst (fun a => G.eligible sub delta .plain a = true)
          (fun a => G.length a.edge) (members Terminals) v (p.map fun a => G.length a.edge).sum := by
    intro v reachable
    obtain ⟨d, value⟩ := WithTop.ne_top_iff_exists.1 fun top => (distances v).1.1 top reachable
    obtain ⟨t, p, terminal, root, reads, usable, length⟩ := settled.labels.root value.symm
    exact ⟨t, p, terminal, root, reads, usable, length ▸ (distances v).2 d value.symm⟩
  have unreached : ∀ v, ¬ ReachableFrom G.src G.dst
      (fun a => G.eligible sub delta .plain a = true) (members Terminals) v →
      G.Root r.pred v v := fun v unreachable =>
    .of_none (settled.pred_none ((distances v).1.2 unreachable))
  have terminalRoot : ∀ t, members Terminals t → G.Root r.pred t t := fun t terminal =>
    .of_none (settled.labels.sources t terminal).2
  have classes : ∀ {u v s t : Fin n}, G.Root r.pred u s → G.Root r.pred v t →
      (canonical u = canonical v ↔ s = t) := fun {u v s t} root root' =>
    (same u v (all u) (all v)).trans (root.eqvGen_iff root')
  refine ⟨r, partition, ?_, fun v => canonical v, fun CT' v => found CT' v (all v), ?_, ?_, ?_, ?_⟩
  · have search : G.spxDijkstra Q infFloat epsilon sub potential delta .plain Terminals
        (.singletonIndex n noNode) = .ok r := result
    rw [voronoiRegions, search]
    simp only [bind, Except.bind, parts]
    rfl
  · intro u v reachableU reachableV
    obtain ⟨s, -, -, rootU, -⟩ := reached u reachableU
    obtain ⟨t, -, -, rootV, -⟩ := reached v reachableV
    rw [classes rootU rootV]
    constructor
    · rintro rfl
      exact ⟨s, rootU, rootV⟩
    · rintro ⟨x, rootU', rootV'⟩
      exact (rootU.unique rootU').trans (rootV'.unique rootV)
  · intro v reachable
    obtain ⟨t, -, terminal, root, -⟩ := reached v reachable
    refine ⟨t, ⟨terminal, (classes (terminalRoot t terminal) root).2 rfl⟩, ?_⟩
    rintro s ⟨terminal', inClass⟩
    exact (classes (terminalRoot s terminal') root).1 inClass
  · intro v t reachable terminal inClass
    obtain ⟨s, p, -, root, reads, usable, distance⟩ := reached v reachable
    have here : t = s := (classes (terminalRoot t terminal) root).1 inClass
    exact ⟨p, here ▸ reads, usable, distance⟩
  · intro v unreachable u inClass
    have rootV := unreached v unreachable
    by_cases reachable : ReachableFrom G.src G.dst
        (fun a => G.eligible sub delta .plain a = true) (members Terminals) u
    · obtain ⟨t, -, terminal, rootU, -⟩ := reached u reachable
      have here : t = v := (classes rootU rootV).1 inClass
      exact absurd ⟨v, [], here ▸ terminal, rfl, by simp⟩ unreachable
    · exact (classes (unreached u reachable) rootV).1 inClass

/-- Two terminals at the ends of a path, and an isolated node. -/
def twoTerminals : MixedGraph 5 3 :=
  MixedGraph.ofArcs ![0, 1, 2] ![1, 2, 3] (fun _ => false) (fun _ => 1) (fun _ => 0) ![1, 2, 1]
    fun _ => 0

theorem voronoiRegions_correct_twoTerminals :
    let Terminals : IndexSet 5 := .ofMember 5 fun i => i = 0 || i = 3
    ∃ r partition, twoTerminals.voronoiRegions (MinQueue.table 5 (WithTop ℚ)) 0 (fun _ => 0)
        (fun _ => 0) 0 ⟨1, true⟩ (fun _ => 0) Terminals = .ok (r, 2, partition) ∧
      ∃ canonical : Fin 5 → ℕ,
        (∀ CT' (v : Fin 5), ∃ st', find CT' v partition = .ok (canonical v) st') ∧
        twoTerminals.VoronoiPartition (twoTerminals.eligible (fun _ => 0) 0 .plain)
          (fun a => twoTerminals.length a.edge) Terminals r.pred canonical := by
  intro Terminals
  exact voronoiRegions_correct twoTerminals (MinQueue.table 5 (WithTop ℚ)) le_rfl (fun _ => 0)
    (fun _ => 0) 0 ⟨1, true⟩ (fun _ => 0) Terminals (by decide) (by decide +kernel)
    (walksBelow_of_card (c := 2) (by norm_num) (fun a _ => by revert a; decide +kernel)
      (WithTop.coe_lt_coe.2 (by norm_num [infFloat])))

/-- A node that is reached from the terminal, but too far for a label, forms a class without
a terminal. -/
theorem voronoiRegions_misses_farNode :
    ((longEdges.voronoiRegions (MinQueue.table 3 (WithTop ℚ)) 0 (fun _ => 0) (fun _ => 0) 0
      ⟨1, true⟩ (fun _ => 0) (.singletonIndex 3 0)).map fun r =>
        (r.1.pred 2, (List.range 3).map fun v => (find ⟨1, true⟩ v).run' r.2.2)) =
      .ok (none, [some 0, some 0, some 2]) ∧
    ReachableFrom longEdges.src longEdges.dst
      (fun a => longEdges.eligible (fun _ => 0) 0 .plain a = true)
      (members (.singletonIndex 3 0)) 2 :=
  ⟨by decide +kernel, 0, [⟨0, false⟩, ⟨1, false⟩], rfl, ⟨rfl, rfl, rfl⟩, by decide +kernel⟩

end MixedGraph

end Goblin
