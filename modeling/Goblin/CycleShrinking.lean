import Goblin.FreeCycles
import Goblin.Library.Shrinking
import Goblin.NestedSplit

/-!
# The branching of a strongly feasible forest

`MCF_NWSimplexStrongTree` computes the first basis of the network simplex method. It wants
every node to be able to send flow to the root of its tree, so it grows a branching with the
arcs whose reversals have residual capacity, beginning with the free arcs. A node receives
one arc only. When the arcs that have been selected close a cycle, its nodes are merged into
a new item of a `nestedFamily`, which may receive an arc again. In the end the items are split
in the reverse order, and each cycle loses the arc that enters the node where the whole item
is entered, or some arc if it is not entered.

The queue is a list, and the loops run with fuel. Logging is left out, and with it the number
of trees. The object for the nested family is constructed in memory whose contents are
arbitrary, and so is the option for path compression.
-/

set_option autoImplicit false

namespace Goblin

open Library List Finset Function
open NestedFamily (Mergeable NestedM Unused firstOf fixSet fixSet_spec init makeSet merge merge_spec
  outerSet split split_spec)

variable {c fuel v count : ℕ} {l : List ℕ}

/-- The variables of the main loop. -/
structure StrongScan (m : ℕ) where
  S : NestedFamily
  inArc : ℕ → Option (Arc m)
  queue : List (Arc m)
  edgeCount : ℕ
  nCycles : ℕ

namespace DiGraph

variable {n m : ℕ} (G : DiGraph n m)

/-! ## Calls of the nested family -/

/-- A call of a method. -/
def callFamily {α : Type} (method : NestedM α) (S : NestedFamily) :
    Except Raise (α × NestedFamily) :=
  match method S with
  | .ok result S => .ok (result, S)
  | .error raise _ => .error raise

/-- `Set`, as an index. -/
def setOf (S : NestedFamily) (x : ℕ) : Except Raise (ℕ × NestedFamily) := do
  let (t, S) ← callFamily (outerSet x) S
  let t ← defined t
  return (t, S)

/-! ## Shrinking -/

/-- The loop that looks for an arc which enters an item without one. It returns the last arc
that has been inspected, with the items of its end nodes. -/
def nextArc : ℕ → Option (Arc m × ℕ × ℕ) → StrongScan m →
    Except Raise (Option (Arc m × ℕ × ℕ) × StrongScan m)
  | 0, last, s => .ok (last, s)
  | count + 1, last, s =>
    match s.queue with
    | [] => .ok (last, s)
    | a :: queue => do
      let (u, S) ← setOf s.S (G.startNode a)
      let (v, S) ← setOf S (G.endNode a)
      if u = v then
        nextArc count (some (a, u, v)) { s with S := S, queue := queue, edgeCount := count }
      else if s.inArc v = none then
        return (some (a, u, v), { s with
          S := S
          inArc := update s.inArc v (some a)
          queue := queue
          edgeCount := count })
      else
        nextArc count (some (a, u, v)) { s with S := S, queue := queue ++ [a], edgeCount := count }

/-- `while (w!=v && inArc[w]!=NoArc) w = S.Set(StartNode(inArc[w]))` -/
def climb (inArc : ℕ → Option (Arc m)) (v : ℕ) :
    ℕ → ℕ → NestedFamily → Except Raise (ℕ × NestedFamily)
  | 0, _, _ => .error .fuel
  | fuel + 1, w, S =>
    if w = v then .ok (w, S)
    else match inArc w with
      | none => .ok (w, S)
      | some a => do
        let (w, S) ← setOf S (G.startNode a)
        climb inArc v fuel w S

/-- The loop that merges the items on the cycle, from `w` on until `v`. -/
def mergeCycle (inArc : ℕ → Option (Arc m)) (cycle v : ℕ) :
    ℕ → ℕ → NestedFamily → Except Raise NestedFamily
  | 0, _, _ => .error .fuel
  | fuel + 1, w, S =>
    if w = v then .ok S
    else do
      let a ← defined (inArc w)
      let (w, S) ← setOf S (G.startNode a)
      let (_, S) ← callFamily (merge cycle w) S
      mergeCycle inArc cycle v fuel w S

/-- More iterations than there are items. -/
def itemFuel (n : ℕ) : ℕ := 3 * n + 1

/-- The cycle from `u` to `v` is merged into a new set. -/
def shrinkCycle (inArc : ℕ → Option (Arc m)) (u v : ℕ) (S : NestedFamily) :
    Except Raise NestedFamily := do
  let (cycle, S) ← callFamily makeSet S
  let (_, S) ← callFamily (merge cycle u) S
  let S ← G.mergeCycle inArc cycle v (itemFuel n) u S
  let (_, S) ← callFamily (fixSet cycle) S
  return S

/-- One iteration of the main loop. -/
def shrinkStep (s : StrongScan m) : Except Raise (StrongScan m ⊕ StrongScan m) := do
  let (last, s) ← G.nextArc s.edgeCount none s
  match last with
  | none => return .inr s
  | some (a, u, v) =>
    if s.inArc v ≠ some a then return .inr s
    else
      let (w, S) ← G.climb s.inArc v (itemFuel n) u s.S
      if w = v then
        let S ← G.shrinkCycle s.inArc u v S
        return .inl { s with
          S := S
          edgeCount := s.queue.length
          nCycles := s.nCycles + 1 }
      else return .inl { s with S := S }

/-! ## Expanding -/

/-- The loop that selects the root of a cycle, from `w` on until `u`. -/
def chooseRoot (sub : Fin m → ℚ) (inArc : ℕ → Option (Arc m)) (u : ℕ) :
    ℕ → ℕ → ℕ → NestedFamily → Except Raise (ℕ × NestedFamily)
  | 0, _, _, _ => .error .fuel
  | fuel + 1, w, thisRoot, S =>
    if w = u then .ok (thisRoot, S)
    else do
      let a ← defined (inArc w)
      let (next, S) ← setOf S (G.startNode a)
      chooseRoot sub inArc u fuel next (if G.resCap sub a = 0 then w else thisRoot) S

/-- One iteration of the loop over the sets. -/
def expandSet (sub : Fin m → ℚ) (found : NestedFamily × (ℕ → Option (Arc m))) (v : ℕ) :
    Except Raise (NestedFamily × (ℕ → Option (Arc m))) := do
  let (S, inArc) := found
  match inArc v with
  | none =>
    let (u, S) ← callFamily (firstOf v) S
    let u ← defined u
    let (_, S) ← callFamily (split v) S
    let a ← defined (inArc u)
    let (w, S) ← setOf S (G.startNode a)
    let (thisRoot, S) ← G.chooseRoot sub inArc u (itemFuel n) w u S
    return (S, update inArc thisRoot none)
  | some a =>
    let (_, S) ← callFamily (split v) S
    let (u, S) ← setOf S (G.endNode a)
    return (S, update inArc u (some a))

/-! ## The whole method -/

/-- The arcs in the order in which the queue receives them. -/
def strongQueue (sub : Fin m → ℚ) : List (Arc m) :=
  (arcs m).filter (fun a => 0 < G.resCap sub a.rev ∧ 0 < G.resCap sub a) ++
    (arcs m).filter (fun a => 0 < G.resCap sub a.rev ∧ G.resCap sub a = 0)

/-- `MCF_NWSimplexStrongTree`: the predecessor labels. -/
def strongTree (memory : NestedFamily) (sub : Fin m → ℚ) :
    Except Raise (Fin n → Option (Arc m)) := do
  let (_, S) ← callFamily init { memory with n := n, m := 2 * n }
  let queue := G.strongQueue sub
  let s ← loop .fuel G.shrinkStep (itemFuel n) {
    S := S
    inArc := fun _ => none
    queue := queue
    edgeCount := queue.length
    nCycles := 0 }
  let (_, inArc) ← (range' n s.nCycles).reverse.foldlM (G.expandSet sub) (s.S, s.inArc)
  return fun v => inArc v

/-! ## The sets that the family represents -/

/-- The family represents these sets, and has room for `2 * n` of them. -/
structure FamilyAt (n : ℕ) (S : NestedFamily) (L : Nesting) : Prop where
  represents : ∃ rep, S.Represents L rep
  items : S.n = n
  room : S.m = 2 * n

variable {G} {S : NestedFamily} {L : Nesting}

theorem callFamily_ok {α : Type} {method : NestedM α} {res : α}
    {S' : NestedFamily} (run : method S = .ok res S') :
    callFamily method S = .ok (res, S') := by
  unfold callFamily
  rw [run]

namespace FamilyAt

variable {c s x : ℕ}

section

variable (family : FamilyAt n S L)
include family

theorem laminar : L.Laminar n (2 * n) := by
  obtain ⟨rep, represents⟩ := family.represents
  have laminar := represents.laminar
  rwa [family.items, family.room] at laminar

theorem setOf (real : x < n) : ∃ S', setOf S x = .ok (topOf L.parent x, S') ∧ FamilyAt n S' L := by
  obtain ⟨rep, represents⟩ := family.represents
  have item : L.Item S.n x := .inl (by rw [family.items]; exact real)
  obtain ⟨B, run, represents'⟩ :=
    NestedFamily.outerSet_spec represents item (represents.laminar.grounded.topOf x)
  refine ⟨{ S with B := B }, ?_, ⟨rep, represents'⟩, family.items, family.room⟩
  unfold DiGraph.setOf
  rw [callFamily_ok run]
  rfl

theorem firstOf (mem : s ∈ L.sets) (fixed : s ∈ L.fixed) :
    ∃ u, callFamily (firstOf s) S = .ok (some u, S) ∧ L.parent u = some s := by
  obtain ⟨rep, represents⟩ := family.represents
  obtain ⟨l, -, members, first, -⟩ := represents.lists.members s mem
  obtain ⟨v, step⟩ := represents.laminar.filled s fixed
  have run := callFamily_ok (NestedFamily.firstOf_spec represents mem)
  rw [first] at run
  cases l with
  | nil => exact absurd ((members v).2 step) (by simp)
  | cons u l => exact ⟨u, run, (members u).1 List.mem_cons_self⟩

theorem make (free : L.fresh n (2 * n) = some c) :
    ∃ S', callFamily makeSet S = .ok (c, S') ∧ FamilyAt n S' (L.make c) := by
  obtain ⟨rep, represents⟩ := family.represents
  rw [← family.room, ← family.items] at free
  obtain ⟨S', run, represents', items, room⟩ := NestedFamily.makeSet_spec represents free
  exact ⟨S', callFamily_ok run, ⟨_, represents'⟩, items.trans family.items, room.trans family.room⟩

end

theorem merge (family : FamilyAt n S L) (mergeable : Mergeable L n c x) :
    ∃ S', callFamily (merge c x) S = .ok ((), S') ∧ FamilyAt n S' (L.put c x) := by
  obtain ⟨rep, represents⟩ := family.represents
  rw [← family.items] at mergeable
  obtain ⟨S', rep', run, represents', items, room⟩ :=
    merge_spec represents mergeable
  exact ⟨S', callFamily_ok run, ⟨rep', represents'⟩, items.trans family.items,
    room.trans family.room⟩

theorem fix (family : FamilyAt n S L) (mem : c ∈ L.sets) (isOpen : c ∉ L.fixed)
    (inner : L.parent x = some c) :
    ∃ S', callFamily (fixSet c) S = .ok ((), S') ∧ FamilyAt n S' (L.fix c) := by
  obtain ⟨rep, represents⟩ := family.represents
  obtain ⟨S', run, represents', items, room⟩ :=
    fixSet_spec represents mem isOpen inner
  exact ⟨S', callFamily_ok run, ⟨rep, represents'⟩, items.trans family.items,
    room.trans family.room⟩

theorem split (family : FamilyAt n S L) (fixed : s ∈ L.fixed) (top : L.parent s = none) :
    ∃ S', callFamily (split s) S = .ok ((), S') ∧ FamilyAt n S' (L.release s) := by
  obtain ⟨rep, represents⟩ := family.represents
  obtain ⟨S', run, represents', items, room⟩ := split_spec represents fixed top
  exact ⟨S', callFamily_ok run, ⟨rep, represents'⟩, items.trans family.items,
    room.trans family.room⟩

end FamilyAt

/-- The item from whose nodes an arc comes. -/
noncomputable def comesFrom (G : DiGraph n m) (L : Nesting) (a : Arc m) : ℕ :=
  topOf L.parent (G.src a)

/-- The item into which an arc goes. -/
noncomputable def goesTo (G : DiGraph n m) (L : Nesting) (a : Arc m) : ℕ :=
  topOf L.parent (G.dst a)

/-! ## Branchings -/

/-- **Invariant of both phases.** The sets have the indices from `n` below `n + k`, and `cycle s`
are the arcs that have made the set `s`. The labels of the outermost items do not contain a
cycle. -/
structure Branching (G : DiGraph n m) (sub : Fin m → ℚ) (L : Nesting)
    (inArc : ℕ → Option (Arc m)) (k : ℕ) (cycle : ℕ → List (Arc m)) : Prop where
  sets : ∀ x, x ∈ L.sets ↔ n ≤ x ∧ x < n + k
  fixed : L.fixed = L.sets
  rising : ∀ x s, L.parent x = some s → x < s
  enters : ∀ x < n + k, ∀ a, inArc x = some a → Within L.parent (G.dst a) x ∧
    ¬ Within L.parent (G.src a) x ∧ 0 < G.resCap sub a.rev
  rooted : ∀ t < n + k, L.parent t = none → Rooted inArc (G.comesFrom L) t
  cycles : ∀ s ∈ L.sets, ∃ f : Arc m → ℕ, LabelCycle inArc f (cycle s) ∧
    (∀ a ∈ cycle s, Within L.parent (G.src a) (f a)) ∧
    ∀ x, L.parent x = some s ↔ x ∈ (cycle s).map f

variable {sub : Fin m → ℚ} {inArc : ℕ → Option (Arc m)} {k : ℕ} {cycle : ℕ → List (Arc m)}
  {a : Arc m} {s : StrongScan m} {queue : List (Arc m)}

namespace Branching

variable {a : Arc m} {p : List (Arc m)} {r x : ℕ}

section

variable (branching : Branching G sub L inArc k cycle)
include branching

theorem item_iff : L.Item n x ↔ x < n + k := by
  rw [Nesting.Item, branching.sets]
  omega

section

variable (laminar : L.Laminar n (2 * n))
include laminar

theorem topOf_lt (low : x < n + k) : topOf L.parent x < n + k := by
  rw [← branching.item_iff] at low ⊢
  exact laminar.item_above (laminar.grounded.topOf x).within low

theorem comesFrom_lt (a : Arc m) : G.comesFrom L a < n + k :=
  branching.topOf_lt laminar (by omega)

theorem goesTo_lt (a : Arc m) : G.goesTo L a < n + k :=
  branching.topOf_lt laminar (by omega)

end

end

/-- The cycles of the sets do not change when an item without a label gets one. -/
theorem labelCycle_assign {f : Arc m → ℕ} {q : List (Arc m)} (labels : LabelCycle inArc f q)
    (isOpen : inArc x = none) : LabelCycle (update inArc x (some a)) f q := by
  refine labels.congr_nodes fun y mem => update_of_ne ?_ ..
  rintro rfl
  obtain ⟨b, -, known⟩ := labels.exists_label mem
  rw [isOpen] at known
  cases known

theorem enters_assign (branching : Branching G sub L inArc k cycle)
    (laminar : L.Laminar n (2 * n)) (apart : G.comesFrom L a ≠ G.goesTo L a)
    (useful : 0 < G.resCap sub a.rev) :
    ∀ x < n + k, ∀ b, update inArc (G.goesTo L a) (some a) x = some b →
      Within L.parent (G.dst b) x ∧ ¬ Within L.parent (G.src b) x ∧ 0 < G.resCap sub b.rev := by
  intro x low b known
  rcases of_update known with ⟨here, ⟨⟩⟩ | ⟨-, known⟩
  · rw [here]
    have outer := laminar.grounded.topOf (G.dst a)
    refine ⟨outer.within, fun within => apart ?_, useful⟩
    exact Outermost.topOf_eq ⟨within, outer.top⟩
  · exact branching.enters x low b known

/-- **An item without a label gets one**, which does not close a cycle. -/
theorem assign (branching : Branching G sub L inArc k cycle) (laminar : L.Laminar n (2 * n))
    (apart : G.comesFrom L a ≠ G.goesTo L a) (useful : 0 < G.resCap sub a.rev)
    (isOpen : inArc (G.goesTo L a) = none)
    (reads : ReadsTo inArc (G.comesFrom L) (G.comesFrom L a) p r) (root : inArc r = none)
    (other : r ≠ G.goesTo L a) :
    Branching G sub L (update inArc (G.goesTo L a) (some a)) k cycle where
  sets := branching.sets
  fixed := branching.fixed
  rising := branching.rising
  enters := branching.enters_assign laminar apart useful
  rooted := fun t low top => (branching.rooted t low top).assign isOpen reads root other
  cycles := by
    intro s mem
    obtain ⟨f, labels, within, members⟩ := branching.cycles s mem
    exact ⟨f, labelCycle_assign labels isOpen, within, members⟩

end Branching

/-! ## Shrinking a cycle -/

section

variable (L : Nesting) (c : ℕ) (l : List ℕ)

/-- The family after items have been merged into a set. -/
def putAll : Nesting := l.foldl (fun L x => L.put c x) L

theorem putAll_parent (x : ℕ) : (putAll L c l).parent x = if x ∈ l then some c else L.parent x := by
  induction l generalizing L with
  | nil => simp [putAll]
  | cons y l ih =>
    have step : putAll L c (y :: l) = putAll (L.put c y) c l := rfl
    rw [step, ih]
    by_cases later : x ∈ l
    · simp [later]
    · by_cases here : x = y
      · simp [here]
      · rw [if_neg later, Nesting.put_parent L here, if_neg (by simp [here, later])]

theorem putAll_sets : (putAll L c l).sets = L.sets ∧ (putAll L c l).fixed = L.fixed := by
  induction l generalizing L with
  | nil => exact ⟨rfl, rfl⟩
  | cons y l ih => exact ih (L.put c y)

theorem putAll_concat (x : ℕ) : putAll L c (l ++ [x]) = (putAll L c l).put c x := by
  unfold putAll
  rw [foldl_append]
  rfl

/-- The family after the items of `l` have become the members of the new set `c`. -/
def shrunk : Nesting := (putAll (L.make c) c l).fix c

theorem shrunk_parent (x : ℕ) : (shrunk L c l).parent x = if x ∈ l then some c else L.parent x :=
  putAll_parent (L.make c) c l x

theorem shrunk_sets :
    (shrunk L c l).sets = insert c L.sets ∧ (shrunk L c l).fixed = insert c L.fixed := by
  obtain ⟨sets, fixed⟩ := putAll_sets (L.make c) c l
  refine ⟨sets, ?_⟩
  rw [shrunk, Nesting.fix, fixed]
  rfl

end

theorem collects_putAll (tops : ∀ x ∈ l, L.parent x = none) (other : c ∉ l)
    (top : L.parent c = none) :
    Collects L.parent (putAll (L.make c) c l).parent {x | x ∈ l} c where
  extends' := by
    intro x y step
    rw [putAll_parent, if_neg]
    · exact step
    · intro mem
      rw [tops x mem] at step
      cases step
  inner := fun x mem => (putAll_parent ..).trans (if_pos mem)
  outer := fun x out old => (putAll_parent ..).trans ((if_neg out).trans old)
  top := by rw [putAll_parent, if_neg other]; exact top

namespace Branching

variable {a : Arc m} {p : List (Arc m)} {x : ℕ}

section

variable (branching : Branching G sub L inArc k cycle)
include branching

section

variable (laminar : L.Laminar n (2 * n))
include laminar

theorem top_next : L.parent (n + k) = none := by
  cases step : L.parent (n + k) with
  | none => rfl
  | some s =>
    have item := branching.item_iff.1 (laminar.item_of_parent step)
    omega

theorem met_top (met : x ∈ G.comesFrom L a :: p.map (G.comesFrom L)) :
    L.parent x = none ∧ x < n + k := by
  rw [← List.map_cons (f := G.comesFrom L)] at met
  obtain ⟨b, -, rfl⟩ := mem_map.1 met
  exact ⟨(laminar.grounded.topOf _).top, branching.comesFrom_lt laminar b⟩

theorem collects :
    Collects L.parent (shrunk L (n + k) (G.comesFrom L a :: p.map (G.comesFrom L))).parent
      {x | x ∈ G.comesFrom L a :: p.map (G.comesFrom L)} (n + k) := by
  refine collects_putAll (fun x met => (branching.met_top laminar met).1) (fun met => ?_)
    (branching.top_next laminar)
  exact absurd (branching.met_top laminar met).2 (lt_irrefl _)

/-- **A cycle of labels becomes a set**, which does not have a label. -/
theorem shrink (apart : G.comesFrom L a ≠ G.goesTo L a) (useful : 0 < G.resCap sub a.rev)
    (isOpen : inArc (G.goesTo L a) = none) (blank : inArc (n + k) = none)
    (reads : ReadsTo inArc (G.comesFrom L) (G.comesFrom L a) p (G.goesTo L a)) :
    Branching G sub (shrunk L (n + k) (G.comesFrom L a :: p.map (G.comesFrom L)))
      (update inArc (G.goesTo L a) (some a)) (k + 1) (update cycle (n + k) (p ++ [a])) := by
  obtain ⟨sets, fixed⟩ := shrunk_sets L (n + k) (G.comesFrom L a :: p.map (G.comesFrom L))
  have parent := shrunk_parent L (n + k) (G.comesFrom L a :: p.map (G.comesFrom L))
  have tops : ∀ x ∈ G.comesFrom L a :: p.map (G.comesFrom L), L.parent x = none ∧ x < n + k :=
    fun x met => branching.met_top laminar met
  have last := reads.end_mem
  have grounded := laminar.grounded
  have below := branching.goesTo_lt laminar a
  have collects := branching.collects laminar (a := a) (p := p)
  have blank' : update inArc (G.goesTo L a) (some a) (n + k) = none := by
    rw [update_of_ne (by omega), blank]
  have keep : ∀ y b, inArc y = some b → update inArc (G.goesTo L a) (some a) y = some b := by
    intro y b known
    rw [update_of_ne, known]
    rintro rfl
    rw [isOpen] at known
    cases known
  refine ⟨fun x => ?_, by rw [sets, fixed, branching.fixed], fun x s step => ?_,
    fun x low b known => ?_, fun t low top => ?_, fun s mem => ?_⟩
  · rw [sets, mem_insert, branching.sets]
    omega
  · rw [parent] at step
    split_ifs at step with met
    · cases step
      exact (tops x met).2
    · exact branching.rising x s step
  · have other : x ≠ n + k := by
      rintro rfl
      rw [blank'] at known
      cases known
    obtain ⟨head, tail, useful'⟩ :=
      branching.enters_assign laminar apart useful x (by omega) b known
    exact ⟨head.mono collects.extends',
      fun within => tail (collects.within_of_ne within other), useful'⟩
  · by_cases here : t = n + k
    · rw [here]
      exact .self blank'
    have out : t ∉ G.comesFrom L a :: p.map (G.comesFrom L) := by
      intro met
      rw [parent, if_pos met] at top
      cases top
    rw [parent, if_neg out] at top
    refine (branching.rooted t (by omega) top).collapse
      (fun b inside => collects.topOf_inner grounded inside)
      (fun b away => collects.topOf_outer grounded away) (fun x away => ?_) blank' out
    refine update_of_ne ?_ ..
    rintro rfl
    exact away last
  · by_cases here : s = n + k
    · subst here
      rw [update_self]
      refine ⟨G.comesFrom L, .of_closes (reads.mono keep) (update_self ..) rfl,
        fun b _ => (grounded.topOf _).within.mono collects.extends', fun x => ?_⟩
      have fresh : L.parent x ≠ some (n + k) := by
        intro step
        have mem := (laminar.members x _ step).2
        rw [branching.sets] at mem
        omega
      have eq : x ∈ (p ++ [a]).map (G.comesFrom L) ↔
          x ∈ G.comesFrom L a :: p.map (G.comesFrom L) := by
        rw [List.map_append, List.map_singleton, List.mem_append, List.mem_singleton,
          List.mem_cons, or_comm]
      rw [parent, eq]
      split_ifs with met
      · exact iff_of_true rfl met
      · exact iff_of_false fresh met
    · rw [sets, mem_insert, or_iff_right here] at mem
      rw [update_of_ne here]
      obtain ⟨f, labels, within, members⟩ := branching.cycles s mem
      refine ⟨f, labelCycle_assign labels isOpen,
        fun b inside => (within b inside).mono collects.extends', fun x => ?_⟩
      rw [← members x, parent]
      split_ifs with met
      · rw [(tops x met).1]
        exact iff_of_false (fun eq => here (Option.some.inj eq).symm) (by simp)
      · rfl

end

end

end Branching

/-! ## The loops over a cycle -/

section Readings

variable {a : Arc m} {p : List (Arc m)} {label : ℕ → Option (Arc m)} {r v w : ℕ}

theorem reading_short (laminar : L.Laminar n (2 * n))
    (reads : ReadsTo label (G.comesFrom L) (G.comesFrom L a) p r) (root : label r = none) :
    p.length < itemFuel n := by
  have nodup := reads.nodup_of_root root
  have subset : G.comesFrom L a :: p.map (G.comesFrom L) ⊆ List.range (n + 2 * n) := by
    intro x met
    rw [← List.map_cons (f := G.comesFrom L)] at met
    obtain ⟨b, -, rfl⟩ := mem_map.1 met
    have outer := laminar.grounded.topOf (G.src b)
    exact List.mem_range.2 (laminar.item_lt (laminar.item_above outer.within (.inl (G.src b).isLt)))
  have bound := (nodup.subperm subset).length_le
  rw [List.length_cons, List.length_map, List.length_range] at bound
  unfold itemFuel
  omega

theorem climb_spec (eq : ∀ x, x ≠ v → inArc x = label x) (stop : label v = none)
    (family : FamilyAt n S L) (reads : ReadsTo label (G.comesFrom L) w p r) (root : label r = none)
    (enough : p.length < fuel) :
    ∃ S', G.climb inArc v fuel w S = .ok (r, S') ∧ FamilyAt n S' L := by
  induction p generalizing w S fuel with
  | nil =>
    obtain ⟨fuel, rfl⟩ := Nat.exists_eq_succ_of_ne_zero (Nat.ne_of_gt enough)
    cases reads
    refine ⟨S, ?_, family⟩
    by_cases here : r = v
    · rw [climb, if_pos here]
    · rw [climb, if_neg here, eq r here, root]
  | cons b p ih =>
    obtain ⟨fuel, rfl⟩ := Nat.exists_eq_succ_of_ne_zero (Nat.ne_of_gt (Nat.zero_lt_of_lt enough))
    obtain ⟨first, rest⟩ := reads
    have other : w ≠ v := by
      rintro rfl
      rw [stop] at first
      cases first
    obtain ⟨S1, run, family1⟩ := family.setOf (G.src b).isLt
    obtain ⟨S', climbed, family'⟩ := ih family1 rest (Nat.lt_of_succ_lt_succ enough)
    refine ⟨S', ?_, family'⟩
    rw [climb, if_neg other, eq w other, first]
    dsimp only
    rw [run]
    exact climbed

theorem mergeable_next {x : ℕ} (unused : Unused L n c) (fixed : L.fixed = L.sets)
    (item : L.Item n x) (top : L.parent x = none) (other : x ∉ l) :
    Mergeable (putAll (L.make c) c l) n c x := by
  obtain ⟨sets, fixed'⟩ := putAll_sets (L.make c) c l
  refine ⟨?_, ?_, ?_, ?_⟩
  · rw [sets]
    exact mem_insert_self c L.sets
  · rw [fixed']
    exact fun mem => unused.absent (fixed ▸ mem)
  · rw [putAll_parent, if_neg other]
    exact top
  · rw [fixed']
    exact item.imp id fun mem => fixed ▸ mem

theorem mergeCycle_spec (laminar : L.Laminar n (2 * n)) (fixed : L.fixed = L.sets)
    (unused : Unused L n c) (eq : ∀ x, x ≠ v → inArc x = label x)
    (stop : label v = none) (family : FamilyAt n S (putAll (L.make c) c (l ++ [w])))
    (reads : ReadsTo label (G.comesFrom L) w p v) (nodup : (l ++ w :: p.map (G.comesFrom L)).Nodup)
    (tops : ∀ x ∈ l ++ [w], L.parent x = none ∧ L.Item n x) (enough : p.length < fuel) :
    ∃ S', G.mergeCycle inArc c v fuel w S = .ok S' ∧
      FamilyAt n S' (putAll (L.make c) c (l ++ w :: p.map (G.comesFrom L))) := by
  induction p generalizing w S fuel l with
  | nil =>
    obtain ⟨fuel, rfl⟩ := Nat.exists_eq_succ_of_ne_zero (Nat.ne_of_gt enough)
    exact ⟨S, by rw [mergeCycle, if_pos (show w = v from reads)], family⟩
  | cons b p ih =>
    obtain ⟨fuel, rfl⟩ := Nat.exists_eq_succ_of_ne_zero (Nat.ne_of_gt (Nat.zero_lt_of_lt enough))
    obtain ⟨first, rest⟩ := reads
    have other : w ≠ v := by
      rintro rfl
      rw [stop] at first
      cases first
    have outer := laminar.grounded.topOf (G.src b)
    have item : L.Item n (G.comesFrom L b) :=
      laminar.item_above outer.within (.inl (G.src b).isLt)
    rw [List.map_cons, List.append_cons] at nodup
    have apart : G.comesFrom L b ∉ l ++ [w] := fun again =>
      (List.disjoint_of_nodup_append nodup) again List.mem_cons_self
    have collects : Collects L.parent (putAll (L.make c) c (l ++ [w])).parent
        {x | x ∈ l ++ [w]} c :=
      collects_putAll (fun x mem => (tops x mem).1)
        (fun mem => unused.not_item (tops c mem).2) (unused.top laminar)
    obtain ⟨S1, run, family1⟩ := family.setOf (G.src b).isLt
    rw [collects.topOf_outer laminar.grounded apart] at run
    obtain ⟨S2, merged, family2⟩ :=
      family1.merge (mergeable_next unused fixed item outer.top apart)
    rw [← putAll_concat] at family2
    have tops' : ∀ x ∈ (l ++ [w]) ++ [G.comesFrom L b], L.parent x = none ∧ L.Item n x := by
      intro x mem
      rcases List.mem_append.1 mem with old | new
      · exact tops x old
      · rw [List.mem_singleton.1 new]
        exact ⟨outer.top, item⟩
    obtain ⟨S', done, family'⟩ := ih family2 rest nodup tops' (Nat.lt_of_succ_lt_succ enough)
    refine ⟨S', ?_, ?_⟩
    · simp only [mergeCycle, if_neg other, eq w other, first, defined, bind, Except.bind, run]
      dsimp only [comesFrom] at merged
      simp only [merged]
      exact done
    · rw [List.map_cons, List.append_cons]
      exact family'

end Readings

theorem Branching.unused (branching : Branching G sub L inArc k cycle) : Unused L n (n + k) where
  high := Nat.le_add_right n k
  absent := fun mem => lt_irrefl _ ((branching.sets _).1 mem).2

theorem Branching.fresh_eq (branching : Branching G sub L inArc k cycle) (few : k < 2 * n) :
    L.fresh n (2 * n) = some (n + k) := by
  unfold Nesting.fresh
  rw [find?_range'_eq_some]
  refine ⟨decide_eq_true branching.unused.absent, mem_range'_1.2 (by omega), ?_⟩
  intro j high low
  simp [(branching.sets j).2 ⟨high, low⟩]

theorem shrinkCycle_spec {p : List (Arc m)} {label : ℕ → Option (Arc m)}
    (branching : Branching G sub L label k cycle) (few : k < 2 * n)
    (eq : ∀ x, x ≠ v → inArc x = label x) (stop : label v = none) (family : FamilyAt n S L)
    (reads : ReadsTo label (G.comesFrom L) (G.comesFrom L a) p v) :
    ∃ S', G.shrinkCycle inArc (G.comesFrom L a) v S = .ok S' ∧
      FamilyAt n S' (shrunk L (n + k) (G.comesFrom L a :: p.map (G.comesFrom L))) := by
  have laminar := family.laminar
  have outer := laminar.grounded.topOf (G.src a)
  have item : L.Item n (G.comesFrom L a) := laminar.item_above outer.within (.inl (G.src a).isLt)
  have unused := branching.unused
  obtain ⟨S1, made, family1⟩ := family.make (branching.fresh_eq few)
  obtain ⟨S2, merged, family2⟩ := family1.merge
    (mergeable_next (l := []) unused branching.fixed item outer.top (not_mem_nil))
  obtain ⟨S3, turned, family3⟩ := mergeCycle_spec (l := []) laminar branching.fixed unused eq
    stop family2 reads (reads.nodup_of_root stop)
    (fun x mem => by rw [List.mem_singleton.1 mem]; exact ⟨outer.top, item⟩)
    (reading_short laminar reads stop)
  obtain ⟨sets, fixed⟩ := putAll_sets (L.make (n + k)) (n + k)
    (G.comesFrom L a :: p.map (G.comesFrom L))
  obtain ⟨S', closed, family'⟩ := family3.fix (x := G.comesFrom L a)
    (by rw [List.nil_append, sets]; exact mem_insert_self ..)
    (by rw [List.nil_append, fixed]; exact fun mem => unused.absent (branching.fixed ▸ mem))
    (by rw [List.nil_append, putAll_parent, if_pos List.mem_cons_self])
  refine ⟨S', ?_, family'⟩
  simp only [shrinkCycle, bind, Except.bind, made, merged, turned, closed]
  rfl

/-! ## The queue -/

section

variable (G : DiGraph n m) (sub : Fin m → ℚ) (L : Nesting) (inArc : ℕ → Option (Arc m))

/-- What the queue holds. The arcs behind the first `edgeCount` ones have been inspected since
the last cycle was merged. -/
structure QueueAt
    (queue : List (Arc m)) (edgeCount : ℕ) : Prop where
  useful : ∀ a ∈ queue, 0 < G.resCap sub a.rev
  nodup : queue.Nodup
  apart : ∀ x a, inArc x = some a → a ∉ queue
  complete : ∀ a, 0 < G.resCap sub a.rev →
    a ∈ queue ∨ G.comesFrom L a = G.goesTo L a ∨ inArc (G.goesTo L a) = some a
  inspected : ∀ a ∈ queue.drop edgeCount,
    G.comesFrom L a = G.goesTo L a ∨ inArc (G.goesTo L a) ≠ none

/-- No arc can become the label of an item. -/
def Exhausted
    : Prop :=
  ∀ a, 0 < G.resCap sub a.rev → G.comesFrom L a = G.goesTo L a ∨ inArc (G.goesTo L a) ≠ none

end

namespace QueueAt

variable {a : Arc m} {queue : List (Arc m)} {edgeCount : ℕ}

theorem exhausted (waiting : QueueAt G sub L inArc queue edgeCount)
    (all : queue.drop edgeCount = queue) : G.Exhausted sub L inArc := by
  intro a useful
  rcases waiting.complete a useful with mem | eq | known
  · exact waiting.inspected a (all.symm ▸ mem)
  · exact .inl eq
  · exact .inr (by rw [known]; exact Option.some_ne_none a)

section

variable (waiting : QueueAt G sub L inArc (a :: queue) (edgeCount + 1))
include waiting

theorem drop (eq : G.comesFrom L a = G.goesTo L a) : QueueAt G sub L inArc queue edgeCount where
  useful := fun b mem => waiting.useful b (mem_cons_of_mem a mem)
  nodup := (nodup_cons.1 waiting.nodup).2
  apart := fun x b known mem => waiting.apart x b known (mem_cons_of_mem a mem)
  complete := by
    intro b useful
    rcases waiting.complete b useful with mem | settled
    · rcases List.mem_cons.1 mem with rfl | later
      · exact .inr (.inl eq)
      · exact .inl later
    · exact .inr settled
  inspected := waiting.inspected

/-- Arcs that enter an item with a label are inspected again later. -/
theorem requeue (taken : inArc (G.goesTo L a) ≠ none) :
    QueueAt G sub L inArc (queue ++ [a]) edgeCount := by
  have moved : ∀ b, b ∈ queue ++ [a] ↔ b ∈ a :: queue := by
    intro b
    rw [List.mem_append, List.mem_singleton, List.mem_cons, or_comm]
  refine ⟨fun b mem => waiting.useful b ((moved b).1 mem), ?_,
    fun x b known mem => waiting.apart x b known ((moved b).1 mem),
    fun b useful => (waiting.complete b useful).imp (moved b).2 id, fun b mem => ?_⟩
  · exact (perm_append_singleton a queue).nodup_iff.2 waiting.nodup
  · rw [drop_append, List.mem_append] at mem
    rcases mem with old | new
    · exact waiting.inspected b old
    · rw [List.mem_singleton.1 (List.mem_of_mem_drop new)]
      exact .inr taken

theorem select (isOpen : inArc (G.goesTo L a) = none) :
    QueueAt G sub L (update inArc (G.goesTo L a) (some a)) queue edgeCount := by
  have absent := (nodup_cons.1 waiting.nodup).1
  refine ⟨fun b mem => waiting.useful b (mem_cons_of_mem a mem),
    (nodup_cons.1 waiting.nodup).2, fun x b known mem => ?_, fun b useful => ?_,
    fun b mem => ?_⟩
  · rcases of_update known with ⟨-, ⟨⟩⟩ | ⟨-, known⟩
    · exact absent mem
    · exact waiting.apart x b known (mem_cons_of_mem a mem)
  · rcases waiting.complete b useful with mem | eq | known
    · rcases List.mem_cons.1 mem with rfl | later
      · exact .inr (.inr (update_self ..))
      · exact .inl later
    · exact .inr (.inl eq)
    · refine .inr (.inr ?_)
      rw [update_of_ne, known]
      intro here
      rw [here, isOpen] at known
      cases known
  · rcases waiting.inspected b mem with eq | taken
    · exact .inl eq
    · refine .inr ?_
      rw [update_of_ne]
      · exact taken
      · intro here
        exact taken (here ▸ isOpen)

end

theorem shrink {L' : Nesting} {C : Set ℕ} (waiting : QueueAt G sub L inArc queue edgeCount)
    (grounded : Grounded L.parent) (collects : Collects L.parent L'.parent C c)
    (closed : ∀ x ∈ C, ∀ b, inArc x = some b → G.comesFrom L b ∈ C) :
    QueueAt G sub L' inArc queue queue.length := by
  refine ⟨waiting.useful, waiting.nodup, waiting.apart, fun b useful => ?_, fun b mem => ?_⟩
  · rcases waiting.complete b useful with mem | eq | known
    · exact .inl mem
    · refine .inr (.inl ?_)
      unfold comesFrom goesTo at eq ⊢
      by_cases inside : topOf L.parent (G.src b) ∈ C
      · rw [collects.topOf_inner grounded inside, collects.topOf_inner grounded (eq ▸ inside)]
      · rw [collects.topOf_outer grounded inside, collects.topOf_outer grounded (eq ▸ inside),
          eq]
    · by_cases inside : G.goesTo L b ∈ C
      · have back := closed _ inside b known
        exact .inr (.inl ((collects.topOf_inner grounded back).trans
          (collects.topOf_inner grounded inside).symm))
      · refine .inr (.inr ?_)
        have kept : G.goesTo L' b = G.goesTo L b := collects.topOf_outer grounded inside
        rw [kept, known]
  · rw [drop_length] at mem
    cases mem

end QueueAt

section

variable (G : DiGraph n m) (sub : Fin m → ℚ) (L : Nesting) (inArc : ℕ → Option (Arc m)) (k : ℕ)

/-- An arc has been selected, and is the label of an item now. -/
structure Selects
    (a : Arc m) (s : StrongScan m) : Prop where
  labels : s.inArc = update inArc (G.goesTo L a) (some a)
  sets : s.nCycles = k
  family : FamilyAt n s.S L
  apart : G.comesFrom L a ≠ G.goesTo L a
  isOpen : inArc (G.goesTo L a) = none
  useful : 0 < G.resCap sub a.rev
  waiting : QueueAt G sub L s.inArc s.queue s.edgeCount

/-- The loop ends without a label. -/
structure Ends
    (last : Option (Arc m × ℕ × ℕ)) (s : StrongScan m) : Prop where
  labels : s.inArc = inArc
  sets : s.nCycles = k
  family : FamilyAt n s.S L
  stale : ∀ a u v, last = some (a, u, v) → inArc v ≠ some a
  exhausted : G.Exhausted sub L inArc

end

theorem nextArc_cons (family : FamilyAt n s.S L) (first : s.queue = a :: queue) (count : ℕ)
    (last : Option (Arc m × ℕ × ℕ)) :
    ∃ S', FamilyAt n S' L ∧ G.nextArc (count + 1) last s = if G.comesFrom L a = G.goesTo L a then
        G.nextArc count (some (a, G.comesFrom L a, G.goesTo L a))
          { s with S := S', queue := queue, edgeCount := count }
      else if s.inArc (G.goesTo L a) = none then
        .ok (some (a, G.comesFrom L a, G.goesTo L a), { s with
          S := S'
          inArc := update s.inArc (G.goesTo L a) (some a)
          queue := queue
          edgeCount := count })
      else
        G.nextArc count (some (a, G.comesFrom L a, G.goesTo L a))
          { s with S := S', queue := queue ++ [a], edgeCount := count } := by
  obtain ⟨S1, run, family1⟩ := family.setOf (G.src a).isLt
  obtain ⟨S2, run', family2⟩ := family1.setOf (G.dst a).isLt
  refine ⟨S2, family2, ?_⟩
  rw [nextArc, first]
  simp only [bind, Except.bind, run, run']
  rfl

theorem nextArc_head (family : FamilyAt n s.S L) (first : s.queue = a :: queue)
    (waiting : QueueAt G sub L s.inArc s.queue (count + 1)) (apart : G.comesFrom L a ≠ G.goesTo L a)
    (isOpen : s.inArc (G.goesTo L a) = none) (last : Option (Arc m × ℕ × ℕ)) :
    ∃ s', G.nextArc (count + 1) last s = .ok (some (a, G.comesFrom L a, G.goesTo L a), s') ∧
      Selects G sub L s.inArc s.nCycles a s' ∧ s'.queue = queue ∧ s'.edgeCount = count := by
  rw [first] at waiting
  obtain ⟨S', family', step⟩ := nextArc_cons family first count last
  rw [if_neg apart, if_pos isOpen] at step
  exact ⟨_, step, ⟨rfl, rfl, family', apart, isOpen, waiting.useful a List.mem_cons_self,
    waiting.select isOpen⟩, rfl, rfl⟩

theorem nextArc_spec {last : Option (Arc m × ℕ × ℕ)} (family : FamilyAt n s.S L)
    (waiting : QueueAt G sub L s.inArc s.queue count)
    (stale : ∀ a u v, last = some (a, u, v) → s.inArc v ≠ some a) :
    (∃ last' s', G.nextArc count last s = .ok (last', s') ∧ Ends G sub L s.inArc s.nCycles last' s') ∨
    ∃ a s', G.nextArc count last s = .ok (some (a, G.comesFrom L a, G.goesTo L a), s') ∧
      Selects G sub L s.inArc s.nCycles a s' := by
  induction count generalizing s last with
  | zero => exact .inl ⟨last, s, rfl, rfl, rfl, family, stale, waiting.exhausted rfl⟩
  | succ count ih =>
    cases first : s.queue with
    | nil =>
      refine .inl ⟨last, s, by rw [nextArc, first], rfl, rfl, family, stale, ?_⟩
      rw [first] at waiting
      exact waiting.exhausted rfl
    | cons a queue =>
      have whole := waiting
      rw [first] at waiting
      -- the arcs of the queue are not labels
      have stale' : ∀ b u v, some (a, G.comesFrom L a, G.goesTo L a) = some (b, u, v) →
          s.inArc v ≠ some b := by
        intro b u v eq known
        cases eq
        exact waiting.apart _ a known List.mem_cons_self
      obtain ⟨S', family', step⟩ := nextArc_cons family first count last
      by_cases eq : G.comesFrom L a = G.goesTo L a
      · rw [if_pos eq] at step
        rw [step]
        exact @ih { s with S := S', queue := queue, edgeCount := count } _ family'
          (waiting.drop eq) stale'
      by_cases isOpen : s.inArc (G.goesTo L a) = none
      · obtain ⟨s', run, selects, -, -⟩ :=
          nextArc_head family first whole eq isOpen last
        exact .inr ⟨a, s', run, selects⟩
      · rw [if_neg eq, if_neg isOpen] at step
        rw [step]
        exact @ih { s with S := S', queue := queue ++ [a], edgeCount := count } _ family'
          (waiting.requeue isOpen) stale'

/-! ## One iteration of the main loop -/

/-- The outermost items. -/
def tops (n : ℕ) (L : Nesting) (k : ℕ) : Finset ℕ :=
  (Finset.range (n + k)).filter fun x => L.parent x = none

/-- **Invariant of the main loop.** Each cycle leaves less outermost items. -/
structure ShrinkingInv (G : DiGraph n m) (sub : Fin m → ℚ) (L : Nesting)
    (cycle : ℕ → List (Arc m)) (s : StrongScan m) : Prop where
  family : FamilyAt n s.S L
  branching : Branching G sub L s.inArc s.nCycles cycle
  blank : ∀ x, n + s.nCycles ≤ x → s.inArc x = none
  few : (tops n L s.nCycles).card + s.nCycles ≤ n
  waiting : QueueAt G sub L s.inArc s.queue s.edgeCount

/-- Every iteration but the last one gives a label to an item. -/
def openItems (n : ℕ) (inArc : ℕ → Option (Arc m)) : ℕ :=
  ((Finset.range (3 * n)).filter fun x => inArc x = none).card

theorem openItems_assign (low : v < 3 * n) (isOpen : inArc v = none) (a : Arc m) :
    openItems n (update inArc v (some a)) < openItems n inArc := by
  refine card_lt_card (ssubset_iff_of_subset ?_ |>.2 ⟨v, ?_, ?_⟩)
  · intro x mem
    obtain ⟨range, blank⟩ := Finset.mem_filter.1 mem
    refine Finset.mem_filter.2 ⟨range, ?_⟩
    by_cases here : x = v
    · rw [here, isOpen]
    · rwa [update_of_ne here] at blank
  · exact Finset.mem_filter.2 ⟨Finset.mem_range.2 low, isOpen⟩
  · intro mem
    have blank := (Finset.mem_filter.1 mem).2
    rw [update_self] at blank
    cases blank

/-- A set with two members leaves less outermost items. -/
theorem tops_shrunk {u : ℕ} (memberU : u ∈ tops n L k) (memberV : v ∈ tops n L k) (apart : u ≠ v)
    (inU : u ∈ l) (inV : v ∈ l) :
    (tops n (shrunk L (n + k) l) (k + 1)).card + 1 ≤ (tops n L k).card := by
  have subset : tops n (shrunk L (n + k) l) (k + 1) ⊆
      insert (n + k) (((tops n L k).erase u).erase v) := by
    intro x mem
    obtain ⟨range, top⟩ := Finset.mem_filter.1 mem
    rw [shrunk_parent] at top
    split_ifs at top with inside
    have notU : x ≠ u := by
      rintro rfl
      exact inside inU
    have notV : x ≠ v := by
      rintro rfl
      exact inside inV
    rw [mem_insert, mem_erase, mem_erase, tops, Finset.mem_filter]
    rw [Finset.mem_range] at range ⊢
    by_cases here : x = n + k
    · exact .inl here
    · exact .inr ⟨notV, notU, by omega, top⟩
  have bound := (card_le_card subset).trans (card_insert_le _ _)
  have memberV' : v ∈ (tops n L k).erase u := mem_erase.2 ⟨apart.symm, memberV⟩
  have pos := card_pos.2 ⟨v, memberV'⟩
  rw [card_erase_of_mem memberV', card_erase_of_mem memberU] at bound
  rw [card_erase_of_mem memberU] at pos
  omega

namespace ShrinkingInv

variable {s s1 : StrongScan m} {a : Arc m} {p : List (Arc m)} {r : ℕ}

section

variable (inv : ShrinkingInv G sub L cycle s)
include inv

theorem measure_lt (selects : Selects G sub L s.inArc s.nCycles a s1) :
    openItems n s1.inArc < openItems n s.inArc := by
  rw [selects.labels]
  refine openItems_assign ?_ selects.isOpen a
  have laminar := inv.family.laminar
  have outer := laminar.grounded.topOf (G.dst a)
  have bound := laminar.item_lt (laminar.item_above outer.within (.inl (G.dst a).isLt))
  change topOf L.parent (G.dst a) < 3 * n
  omega

theorem mem_tops (x : Fin n) : topOf L.parent x ∈ tops n L s.nCycles := by
  have laminar := inv.family.laminar
  refine Finset.mem_filter.2 ⟨Finset.mem_range.2 ?_, (laminar.grounded.topOf _).top⟩
  exact inv.branching.topOf_lt laminar (by omega)

/-- **No cycle is closed** by the arc that has been selected. -/
theorem step_assign
    (next : G.nextArc s.edgeCount none s = .ok (some (a, G.comesFrom L a, G.goesTo L a), s1))
    (selects : Selects G sub L s.inArc s.nCycles a s1)
    (reads : ReadsTo s.inArc (G.comesFrom L) (G.comesFrom L a) p r) (root : s.inArc r = none)
    (other : r ≠ G.goesTo L a) :
    ∃ s', G.shrinkStep s = .ok (.inl s') ∧ ShrinkingInv G sub L cycle s' ∧
      s'.inArc = s1.inArc ∧ s'.queue = s1.queue ∧ s'.edgeCount = s1.edgeCount := by
  have laminar := inv.family.laminar
  have eq : ∀ x, x ≠ G.goesTo L a → s1.inArc x = s.inArc x := by
    intro x elsewhere
    rw [selects.labels, update_of_ne elsewhere]
  obtain ⟨S', climbed, family'⟩ := climb_spec eq selects.isOpen selects.family reads root
    (reading_short laminar reads root)
  have branching := inv.branching.assign laminar selects.apart selects.useful selects.isOpen reads
    root other
  refine ⟨{ s1 with S := S' }, ?_, ⟨family', ?_, fun x high => ?_, ?_, selects.waiting⟩,
    rfl, rfl, rfl⟩
  · have known : s1.inArc (G.goesTo L a) = some a := by
      rw [selects.labels, update_self]
    simp only [shrinkStep, bind, Except.bind, next]
    rw [if_neg (not_not.2 known)]
    simp only [climbed]
    rw [if_neg other]
    rfl
  · rw [selects.labels, selects.sets]
    exact branching
  · dsimp only at high ⊢
    rw [selects.sets] at high
    have below := inv.branching.goesTo_lt laminar a
    rw [eq x (by omega)]
    exact inv.blank x high
  · dsimp only
    rw [selects.sets]
    exact inv.few

end

end ShrinkingInv

namespace ShrinkingInv

variable {s s1 : StrongScan m} {a : Arc m} {p : List (Arc m)}

/-- **A cycle is closed** by the arc that has been selected, and is merged. -/
theorem step_shrink (inv : ShrinkingInv G sub L cycle s)
    (next : G.nextArc s.edgeCount none s = .ok (some (a, G.comesFrom L a, G.goesTo L a), s1))
    (selects : Selects G sub L s.inArc s.nCycles a s1)
    (reads : ReadsTo s.inArc (G.comesFrom L) (G.comesFrom L a) p (G.goesTo L a)) :
    ∃ s', G.shrinkStep s = .ok (.inl s') ∧ ShrinkingInv G sub
        (shrunk L (n + s.nCycles) (G.comesFrom L a :: p.map (G.comesFrom L)))
        (update cycle (n + s.nCycles) (p ++ [a])) s' ∧
      s'.inArc = s1.inArc ∧ s'.queue = s1.queue ∧ s'.edgeCount = s1.queue.length := by
  have laminar := inv.family.laminar
  have isOpen := selects.isOpen
  have eq : ∀ x, x ≠ G.goesTo L a → s1.inArc x = s.inArc x := by
    intro x elsewhere
    rw [selects.labels, update_of_ne elsewhere]
  have known : s1.inArc (G.goesTo L a) = some a := by
    rw [selects.labels, update_self]
  have last := reads.end_mem
  have fewer : (tops n (shrunk L (n + s.nCycles) (G.comesFrom L a :: p.map (G.comesFrom L)))
      (s.nCycles + 1)).card + 1 ≤ (tops n L s.nCycles).card := tops_shrunk (inv.mem_tops (G.src a))
    (inv.mem_tops (G.dst a)) selects.apart List.mem_cons_self last
  have few := inv.few
  obtain ⟨S2, climbed, family2⟩ := climb_spec eq isOpen selects.family reads isOpen
    (reading_short laminar reads isOpen)
  obtain ⟨S', merged, family'⟩ := shrinkCycle_spec inv.branching (by omega) eq isOpen family2 reads
  have branching := inv.branching.shrink laminar selects.apart selects.useful isOpen
    (inv.blank _ le_rfl) reads
  have collects := inv.branching.collects laminar (a := a) (p := p)
  -- the labels of the members come from members
  have closed : ∀ x ∈ {x | x ∈ G.comesFrom L a :: p.map (G.comesFrom L)}, ∀ b, s1.inArc x = some b →
        G.comesFrom L b ∈ {x | x ∈ G.comesFrom L a :: p.map (G.comesFrom L)} := by
    intro x inside b label
    have reads' : ReadsTo s1.inArc (G.comesFrom L) (G.comesFrom L a) p (G.goesTo L a) := by
      refine reads.mono fun y c old => ?_
      rw [eq, old]
      rintro rfl
      rw [isOpen] at old
      cases old
    rcases reads'.label_or_end inside with rfl | ⟨c, mem, label'⟩
    · rw [known] at label
      cases label
      exact List.mem_cons_self
    · rw [label'] at label
      cases label
      exact mem_cons_of_mem _ (mem_map_of_mem mem)
  refine ⟨{ s1 with S := S', edgeCount := s1.queue.length, nCycles := s1.nCycles + 1 }, ?_,
    ⟨family', ?_, fun x high => ?_, ?_,
      selects.waiting.shrink laminar.grounded collects closed⟩, rfl, rfl, rfl⟩
  · simp only [shrinkStep, bind, Except.bind, next]
    rw [if_neg (not_not.2 known)]
    simp only [climbed, if_true, merged]
    rfl
  · dsimp only
    rw [selects.labels, selects.sets]
    exact branching
  · dsimp only at high ⊢
    rw [selects.sets] at high
    have below := inv.branching.goesTo_lt laminar a
    rw [eq x (by omega)]
    exact inv.blank x (by omega)
  · dsimp only
    rw [selects.sets]
    omega

/-- **One iteration** selects an arc, or there is none left. -/
theorem step (inv : ShrinkingInv G sub L cycle s) :
    (∃ s' L' cycle', G.shrinkStep s = .ok (.inl s') ∧ ShrinkingInv G sub L' cycle' s' ∧
      openItems n s'.inArc < openItems n s.inArc ∧ L.sets ⊆ L'.sets ∧
      ∀ t ∈ L.sets, cycle' t = cycle t) ∨
    ∃ s', G.shrinkStep s = .ok (.inr s') ∧ s'.inArc = s.inArc ∧ s'.nCycles = s.nCycles ∧
      FamilyAt n s'.S L ∧ G.Exhausted sub L s.inArc := by
  have laminar := inv.family.laminar
  have stale : ∀ a u v, (none : Option (Arc m × ℕ × ℕ)) = some (a, u, v) →
      s.inArc v ≠ some a := fun a u v none_some => by cases none_some
  rcases nextArc_spec inv.family inv.waiting stale with
    ⟨last, s1, next, ends⟩ | ⟨a, s1, next, selects⟩
  · refine .inr ⟨s1, ?_, ends.labels, ends.sets, ends.family, ends.exhausted⟩
    rw [shrinkStep, next]
    cases last with
    | none => rfl
    | some found =>
      obtain ⟨a, u, v⟩ := found
      have other : s1.inArc v ≠ some a := ends.labels ▸ ends.stale a u v rfl
      exact if_pos other
  · refine .inl ?_
    have less := inv.measure_lt selects
    obtain ⟨p, r, reads, root⟩ := inv.branching.rooted _ (inv.branching.comesFrom_lt laminar a)
      (laminar.grounded.topOf _).top
    by_cases closes : r = G.goesTo L a
    · subst closes
      obtain ⟨s', step, inv', labels, -, -⟩ := inv.step_shrink next selects reads
      refine ⟨s', _, _, step, inv', labels ▸ less, ?_, fun t mem => ?_⟩
      · rw [(shrunk_sets ..).1]
        exact subset_insert _ _
      · have bound := ((inv.branching.sets t).1 mem).2
        exact update_of_ne (Nat.ne_of_lt bound) ..
    · obtain ⟨s', step, inv', labels, -, -⟩ := inv.step_assign next selects reads root closes
      exact ⟨s', L, cycle, step, inv', labels ▸ less, Finset.Subset.refl _, fun _ _ => rfl⟩

end ShrinkingInv

end DiGraph

end Goblin
