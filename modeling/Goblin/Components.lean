import Goblin.AttributeBounds
import Goblin.DepthFirst

/-!
# Components

`Connected` colours the nodes that a search finds. `StronglyConnected` searches backwards first
and puts the nodes on a stack when they are left. Then it takes them from the stack, and a forward
search among the nodes that have been found and not coloured yet finds the component of each.

This is correct since the node of a component that has been left last precedes, on the stack, all
nodes that lead to the component (`strong_of_reach`).
-/

set_option autoImplicit false

namespace Goblin

open Library List Relation Function

variable {n m : ℕ}

/-- The registers, the incidences that have not been read, and the number of colours. -/
structure Numbering (n m : ℕ) where
  scan : Scan n m
  unread : Fin n → List (Arc m)
  i : ℕ

namespace MixedGraph

variable (G : MixedGraph n m)

/-- `UCap(a)>0 && !Blocking(a)` -/
def passable (a : Arc m) : Bool := decide (0 < G.ucap a.edge) && !G.blocking a

/-- The state before the first root. -/
def numbering : Numbering n m :=
  ⟨⟨fun _ => none, fun _ => none, fun _ => false, [], []⟩, G.incidences, 0⟩

/-- The search of `Connected`. -/
def connectedVisits (r : Fin n) (i : ℕ) : Visits n m where
  admits scan a := decide (0 < G.ucap a.edge) && decide (scan.pred (G.endNode a) = none) &&
    decide (G.endNode a ≠ r)
  enter _ scan := scan
  leave u scan := .ok { scan with nodeColour := update scan.nodeColour u (some i) }
  resets := false

def connectedFrom (st : Numbering n m) (r : Fin n) : Except Raise (Numbering n m) :=
  if st.scan.nodeColour r ≠ none then .ok st
  else do
    let s ← G.searchFrom (G.connectedVisits r st.i) r st.scan st.unread
    return ⟨s.scan, s.unread, st.i + 1⟩

def connected : Except Raise (Numbering n m × Bool) := do
  let st ← (finRange n).foldlM G.connectedFrom G.numbering
  return (st, decide (st.i ≤ 1))

/-- The search for the forward tree of `StronglyConnected`, along the reverse arcs. -/
def forwardVisits (r : Fin n) : Visits n m where
  admits scan a := G.passable a.rev && decide (scan.pred (G.endNode a) = none) &&
    decide (scan.nodeColour (G.endNode a) = none) && decide (G.endNode a ≠ r)
  enter _ scan := scan
  leave u scan :=
    if u ∈ scan.stack ∨ u ∈ scan.recovery then
      .error (.check "Insert" "Item is already on the stack")
    else .ok { scan with
      stack := u :: scan.stack
      recovery := u :: scan.recovery
      marked := update scan.marked u true }
  resets := true

/-- The search of `StronglyConnected` for the component of `s`. -/
def componentVisits (s : Fin n) (i : ℕ) : Visits n m where
  admits scan a := G.passable a && decide (scan.nodeColour (G.endNode a) = none) &&
    scan.marked (G.endNode a) && decide (G.endNode a ≠ s)
  enter v scan := { scan with marked := update scan.marked v false }
  leave u scan :=
    if u ∈ scan.recovery then .error (.check "Insert" "Item is already on the stack")
    else .ok { scan with
      recovery := u :: scan.recovery
      nodeColour := update scan.nodeColour u (some i) }
  resets := true

/-- The nodes of the stack `Recovery` lose their predecessor labels. The library is built with
tracing, for which this is done. -/
def recovered (scan : Scan n m) : Scan n m :=
  { scan with
    pred := fun v => if v ∈ scan.recovery then none else scan.pred v
    recovery := [] }

/-- The node `s` is taken from the stack. -/
def componentFrom (st : Numbering n m) (s : Fin n) : Except Raise (Numbering n m) :=
  let scan := { st.scan with stack := st.scan.stack.tail }
  if scan.nodeColour s ≠ none ∨ scan.marked s = false then .ok { st with scan := scan }
  else do
    let t ← G.searchFrom (G.componentVisits s st.i) s scan st.unread
    return ⟨recovered t.scan, t.unread, st.i + 1⟩

def stronglyFrom (st : Numbering n m) (r : Fin n) : Except Raise (Numbering n m) :=
  if st.scan.nodeColour r ≠ none then .ok st
  else do
    let t ← G.searchFrom (G.forwardVisits r) r st.scan st.unread
    t.scan.stack.foldlM G.componentFrom ⟨recovered t.scan, t.unread, st.i⟩

/-- The searches of `StronglyConnected`. -/
def stronglySearched : Except Raise (Numbering n m × Bool) := do
  let st ← (finRange n).foldlM G.stronglyFrom G.numbering
  return (st, decide (st.i ≤ 1))

/-! ## Colours -/

/-- There is a path of edges with positive capacity. -/
def Joined : Fin n → Fin n → Prop :=
  ReflTransGen fun x y => ∃ a, G.src a = x ∧ G.dst a = y ∧ 0 < G.ucap a.edge

/-- There is a path of passable arcs. -/
def LeadsTo : Fin n → Fin n → Prop :=
  ReflTransGen fun x y => ∃ a, G.src a = x ∧ G.dst a = y ∧ G.passable a = true

/-- Reachable by searches in forward and in backward direction, among the nodes of `S`. -/
abbrev Forward (S : Fin n → Prop) := G.Reach (fun a => G.passable a = true) S

abbrev Backward (S : Fin n → Prop) := G.Reach (fun a => G.passable a.rev = true) S

/-- Each node can be reached from the other. -/
def Strong (x y : Fin n) : Prop := G.LeadsTo x y ∧ G.LeadsTo y x

/-- The coloured nodes are classes of `rel`, with the colours `0, …, i - 1`. -/
structure Coloured (rel : Fin n → Fin n → Prop) (colour : Fin n → Option ℕ) (i : ℕ) : Prop where
  below : ∀ v c, colour v = some c → c < i
  used : ∀ c < i, ∃ v, colour v = some c
  classes : ∀ u v, colour u ≠ none → (colour u = colour v ↔ rel u v)

/-- The colours of all nodes are the classes of `rel`, and the answer says whether there is at most
one. -/
def Exact (rel : Fin n → Fin n → Prop) (result : Except Raise (Numbering n m × Bool)) : Prop :=
  ∃ st answer k, result = .ok (st, answer) ∧ (∀ v, ∃ c < k, st.scan.nodeColour v = some c) ∧
    (∀ c < k, ∃ v, st.scan.nodeColour v = some c) ∧
    (∀ u v, st.scan.nodeColour u = st.scan.nodeColour v ↔ rel u v) ∧ (answer = true ↔ k ≤ 1)

variable {G} {rel : Fin n → Fin n → Prop} {colour : Fin n → Option ℕ} {i : ℕ} {r s x y v : Fin n}

section

variable (coloured : Coloured rel colour i) (equiv : Equivalence rel) (none : colour s = none)
include coloured equiv none

theorem Coloured.fresh (related : rel s v) : colour v = Option.none := by
  by_contra present
  have eq := (coloured.classes v s present).2 (equiv.symm related)
  exact present (eq.trans none)

theorem Coloured.extend {colour' : Fin n → Option ℕ} {left : List (Fin n)}
    (colours : ∀ v, colour' v = if v ∈ left then some i else colour v)
    (members : ∀ v, v ∈ left ↔ rel s v) : Coloured rel colour' (i + 1) := by
  have differ : ∀ v, colour v ≠ some i := fun v val =>
    Nat.lt_irrefl i (coloured.below v i val)
  have inside : ∀ v, rel s v → colour' v = some i := fun v related =>
    (colours v).trans (if_pos ((members v).2 related))
  have others : ∀ v, ¬ rel s v → colour' v = colour v := fun v other =>
    (colours v).trans (if_neg fun mem => other ((members v).1 mem))
  refine ⟨fun v c val => ?_, fun c low => ?_, fun u v present => ?_⟩
  · by_cases related : rel s v
    · rw [inside v related] at val
      cases val
      exact Nat.lt_succ_self i
    · rw [others v related] at val
      exact Nat.lt_succ_of_lt (coloured.below v c val)
  · rcases Nat.lt_succ_iff_lt_or_eq.1 low with old | eq
    · obtain ⟨v, val⟩ := coloured.used c old
      refine ⟨v, (others v fun related => ?_).trans val⟩
      rw [coloured.fresh equiv none related] at val
      cases val
    · exact ⟨s, eq ▸ inside s (equiv.refl s)⟩
  · by_cases inU : rel s u
    · rw [inside u inU]
      by_cases inV : rel s v
      · exact iff_of_true (inside v inV).symm (equiv.trans (equiv.symm inU) inV)
      · rw [others v inV]
        exact iff_of_false (differ v).symm fun related => inV (equiv.trans inU related)
    · rw [others u inU] at present ⊢
      by_cases inV : rel s v
      · rw [inside v inV]
        exact iff_of_false (differ u) fun related => inU (equiv.trans inV (equiv.symm related))
      · rw [others v inV]
        exact coloured.classes u v present

end

section Painted

variable {colour' : Fin n → Option ℕ} {left : List (Fin n)}
  (colours : ∀ v, colour' v = if v ∈ left then some i else colour v)
include colours

theorem painted_eq_none : colour' v = none ↔ v ∉ left ∧ colour v = none := by
  rw [colours]
  split_ifs <;> simp [*]

theorem painted_ne_none (present : colour v ≠ none) : colour' v ≠ none := fun none =>
  present ((painted_eq_none colours).1 none).2

theorem painted_update (u : Fin n) :
    update colour' u (some i) v = if v ∈ u :: left then some i else colour v := by
  by_cases here : v = u
  · simp [here]
  · rw [update_of_ne here, colours v]
    simp [here]

end Painted

theorem Coloured.exact {st : Numbering n m} (coloured : Coloured rel st.scan.nodeColour st.i)
    (all : ∀ v, st.scan.nodeColour v ≠ none) : Exact rel (.ok (st, decide (st.i ≤ 1))) := by
  refine ⟨st, _, st.i, rfl, fun v => ?_, coloured.used, fun u v => coloured.classes u v (all u),
    decide_eq_true_iff⟩
  obtain ⟨c, val⟩ := Option.ne_none_iff_exists'.1 (all v)
  exact ⟨c, coloured.below v c val, val⟩

theorem foldlM_roots {step : Numbering n m → Fin n → Except Raise (Numbering n m)}
    {P : Numbering n m → Prop} {l : List (Fin n)} {st : Numbering n m} (start : P st)
    (keeps : ∀ st r, P st → ∃ st', step st r = .ok st' ∧ P st' ∧ st'.scan.nodeColour r ≠ none ∧
      ∀ v, st.scan.nodeColour v ≠ none → st'.scan.nodeColour v ≠ none) :
    ∃ st', l.foldlM step st = .ok st' ∧ P st' ∧ (∀ r ∈ l, st'.scan.nodeColour r ≠ none) ∧
      ∀ v, st.scan.nodeColour v ≠ none → st'.scan.nodeColour v ≠ none := by
  induction l generalizing st with
  | nil => exact ⟨st, rfl, start, by simp, fun _ present => present⟩
  | cons r l ih =>
    obtain ⟨st1, res1, inv1, root, kept1⟩ := keeps st r start
    obtain ⟨st2, res2, inv2, roots, kept2⟩ := ih inv1
    refine ⟨st2, ?_, inv2, forall_mem_cons.2 ⟨kept2 r root, roots⟩, fun v present =>
      kept2 v (kept1 v present)⟩
    rw [foldlM_cons, res1]
    exact res2

/-! ## `Connected` -/

theorem joined_equivalence : Equivalence G.Joined := by
  refine ⟨fun _ => .refl, fun joined => ?_, fun first second => first.trans second⟩
  induction joined with
  | refl => exact .refl
  | tail _ step ih =>
    obtain ⟨a, start, arrives, open'⟩ := step
    exact ih.head ⟨a.rev, (G.src_rev a).trans arrives, (G.dst_rev a).trans start, open'⟩

/-- What holds between two roots of `Connected`. -/
structure ConnectedInv (G : MixedGraph n m) (st : Numbering n m) : Prop where
  coloured : Coloured G.Joined st.scan.nodeColour st.i
  pred : ∀ v, st.scan.nodeColour v = none → st.scan.pred v = none
  unread : ∀ v, st.unread v = G.incidences v ∨
    (¬ st.scan.nodeColour v = none ∧ st.unread v = [])

/-- The registers when the nodes of `path` and `left` have been visited. -/
def ConnectedVisited (colour : Fin n → Option ℕ) (r : Fin n) (i : ℕ) (scan : Scan n m)
    (path left : List (Fin n)) : Prop :=
  (∀ v, scan.nodeColour v = if v ∈ left then some i else colour v) ∧
    (∀ v, colour v = none → (scan.pred v = none ↔ v ∉ path ++ left ∨ v = r)) ∧ r ∈ path ++ left ∧
    ∀ v ∈ path, colour v = none

theorem label_iff {pred : Fin n → Option (Arc m)} {visited : List (Fin n)} {w : Fin n} {a : Arc m}
    (old : pred v = none ↔ v ∉ visited ∨ v = r) (root : r ∈ visited) (new : w ∉ visited) :
    update pred w (some a) v = none ↔ v ∉ w :: visited ∨ v = r := by
  by_cases here : v = w
  · rw [here, update_self]
    refine iff_of_false (by simp) ?_
    rintro (out | rfl)
    · exact out mem_cons_self
    · exact new root
  · rw [update_of_ne here, old, mem_cons, or_iff_right here]

theorem connected_follows (coloured : Coloured G.Joined colour i) :
    G.Follows (G.connectedVisits r i) (fun a => 0 < G.ucap a.edge) (fun v => colour v = none)
      (ConnectedVisited colour r i) := by
  constructor
  · rintro scan path left a ⟨-, labels, root, inside⟩ start
    have onward : 0 < G.ucap a.edge → colour (G.dst a) = none := fun open' =>
      coloured.fresh joined_equivalence (inside _ start) (.single ⟨a, rfl, rfl, open'⟩)
    simp only [connectedVisits, Bool.and_eq_true, decide_eq_true_iff]
    constructor
    · rintro ⟨⟨open', label⟩, other⟩
      exact ⟨open', onward open', ((labels _ (onward open')).1 label).resolve_right other⟩
    · rintro ⟨open', uncoloured, new⟩
      exact ⟨⟨open', (labels _ uncoloured).2 (.inl new)⟩, fun eq : G.dst a = r =>
        new (eq ▸ root)⟩
  · rintro scan path left a ⟨colours, labels, root, inside⟩ uncoloured new
    refine ⟨rfl, colours, fun v none => label_iff (labels v none) root new,
      mem_cons_of_mem _ root, forall_mem_cons.2 ⟨uncoloured, inside⟩⟩
  · rintro scan u path left ⟨colours, labels, root, inside⟩ -
    have perm : ((u :: path) ++ left).Perm (path ++ u :: left) := perm_middle.symm
    refine ⟨_, rfl, rfl, fun v => painted_update colours u, fun v none => ?_, perm.mem_iff.1 root,
      fun v mem => inside v (mem_cons_of_mem u mem)⟩
    rw [← perm.mem_iff]
    exact labels v none

theorem connectedFrom_spec {st : Numbering n m} (inv : ConnectedInv G st) (r : Fin n) :
    ∃ st', G.connectedFrom st r = .ok st' ∧ ConnectedInv G st' ∧ st'.scan.nodeColour r ≠ none ∧
      ∀ v, st.scan.nodeColour v ≠ none → st'.scan.nodeColour v ≠ none := by
  by_cases present : st.scan.nodeColour r ≠ none
  · exact ⟨st, if_pos present, inv, present, fun _ present => present⟩
  have uncoloured := not_not.1 present
  obtain ⟨s, left, res, ⟨colours, labels, -, -⟩, reached, -, -, unread⟩ := searchFrom_spec
    (connected_follows (r := r) inv.coloured) uncoloured inv.unread
    ⟨fun v => by simp, fun v none => iff_of_true (inv.pred v none) (by simp [or_comm, em]),
      mem_cons_self, fun v mem => mem_singleton.1 mem ▸ uncoloured⟩
  have joined : ∀ v, v ∈ left ↔ G.Joined r v := by
    intro v
    rw [reached]
    constructor
    · refine ReflTransGen.mono ?_ _ _
      rintro x y ⟨a, start, arrives, open', -⟩
      exact ⟨a, start, arrives, open'⟩
    · intro path
      induction path with
      | refl => exact .refl
      | tail before step ih =>
        obtain ⟨a, start, arrives, open'⟩ := step
        exact ih.tail ⟨a, start, arrives, open', inv.coloured.fresh joined_equivalence uncoloured
          (before.tail ⟨a, start, arrives, open'⟩)⟩
  refine ⟨⟨s.scan, s.unread, st.i + 1⟩, ?_, ⟨?_, fun v none => ?_, fun v => ?_⟩, fun none => ?_,
    fun v => painted_ne_none colours⟩
  · rw [connectedFrom, if_neg present, res]
    rfl
  · exact inv.coloured.extend joined_equivalence uncoloured colours joined
  · obtain ⟨unvisited, none⟩ := (painted_eq_none colours).1 none
    exact (labels v none).2 (.inl (by simpa using unvisited))
  · simp only [painted_eq_none colours, unread]
    by_cases mem : v ∈ left
    · simp [mem, connectedVisits]
    · simpa [mem] using inv.unread v
  · exact ((painted_eq_none colours).1 none).1 ((joined r).2 (joined_equivalence.refl r))

theorem connected_exact : Exact G.Joined G.connected := by
  have start : ConnectedInv G (n := n) (m := m) G.numbering :=
    ⟨⟨by simp [numbering], by simp [numbering], by simp [numbering]⟩, fun _ _ => rfl,
      fun _ => .inl rfl⟩
  obtain ⟨st, res, inv, roots, -⟩ := foldlM_roots start fun st r inv =>
    connectedFrom_spec inv r
  rw [connected, res]
  exact inv.coloured.exact fun v => roots v (mem_finRange v)

/-! ## `StronglyConnected` -/

theorem strong_equivalence : Equivalence G.Strong :=
  ⟨fun _ => ⟨.refl, .refl⟩, fun ⟨there, back⟩ => ⟨back, there⟩, fun ⟨there, back⟩ ⟨there', back'⟩ =>
    ⟨there.trans there', back'.trans back⟩⟩

/-- What holds between two roots of `StronglyConnected`. -/
structure StronglyInv (G : MixedGraph n m) (st : Numbering n m) : Prop where
  coloured : Coloured G.Strong st.scan.nodeColour st.i
  pred : ∀ v, st.scan.nodeColour v = none → st.scan.pred v = none
  marked : ∀ v, st.scan.nodeColour v = none → st.scan.marked v = false
  unread : st.unread = G.incidences
  stack : st.scan.stack = []
  recovery : st.scan.recovery = []

omit G in
theorem recovered_pred {scan : Scan n m} (unlabelled : scan.pred v = none) :
    (recovered scan).pred v = none := by
  simp only [recovered]
  split_ifs
  · rfl
  · exact unlabelled

section

variable (scan0 : Scan n m)

/-- The registers in the backward search. -/
def ForwardVisited (r : Fin n) (scan : Scan n m) (path left : List (Fin n)) :
    Prop :=
  scan.nodeColour = scan0.nodeColour ∧ scan.stack = left ∧ scan.recovery = left ∧
    (∀ v, scan0.nodeColour v = none → (scan.marked v = true ↔ v ∈ left)) ∧
    (∀ v, scan0.nodeColour v = none → (scan.pred v = none ↔ v ∉ path ++ left ∨ v = r)) ∧
    r ∈ path ++ left

theorem forward_follows : G.Follows (G.forwardVisits r) (fun a => G.passable a.rev = true)
      (fun v => scan0.nodeColour v = none) (ForwardVisited scan0 r) := by
  constructor
  · rintro scan path left a ⟨colours, -, -, -, labels, root⟩ -
    simp only [forwardVisits, Bool.and_eq_true, decide_eq_true_iff, colours]
    constructor
    · rintro ⟨⟨⟨open', label⟩, uncoloured⟩, other⟩
      exact ⟨open', uncoloured, ((labels _ uncoloured).1 label).resolve_right other⟩
    · rintro ⟨open', uncoloured, new⟩
      exact ⟨⟨⟨open', (labels _ uncoloured).2 (.inl new)⟩, uncoloured⟩, fun eq : G.dst a = r =>
        new (eq ▸ root)⟩
  · rintro scan path left a ⟨colours, stack, recovery, marks, labels, root⟩ uncoloured new
    exact ⟨rfl, colours, stack, recovery, marks, fun v none => label_iff (labels v none) root new,
      mem_cons_of_mem _ root⟩
  · rintro scan u path left ⟨colours, stack, recovery, marks, labels, root⟩ fresh
    have perm : ((u :: path) ++ left).Perm (path ++ u :: left) := perm_middle.symm
    have new : ¬ (u ∈ scan.stack ∨ u ∈ scan.recovery) := by
      rwa [stack, recovery, or_self]
    refine ⟨_, if_neg new, rfl, colours, congrArg (u :: ·) stack, congrArg (u :: ·) recovery,
      fun v none => ?_, fun v none => ?_, perm.mem_iff.1 root⟩
    · dsimp only
      by_cases here : v = u
      · simp [here]
      · rw [update_of_ne here, marks v none]
        simp [here]
    · rw [← perm.mem_iff]
      exact labels v none

/-- The registers in the search for a component. -/
def ComponentVisited (s : Fin n) (i : ℕ) (scan : Scan n m)
    (path left : List (Fin n)) : Prop :=
  (∀ v, scan.nodeColour v = if v ∈ left then some i else scan0.nodeColour v) ∧
    scan.stack = scan0.stack ∧ scan.recovery = left ∧
    (∀ v, scan.marked v = if v ≠ s ∧ v ∈ path ++ left then false else scan0.marked v) ∧
    (∀ v, v ∉ path ++ left → scan.pred v = scan0.pred v) ∧ s ∈ path ++ left

theorem component_follows : G.Follows (G.componentVisits s i) (fun a => G.passable a = true)
      (fun v => scan0.nodeColour v = none ∧ scan0.marked v = true)
      (ComponentVisited scan0 s i) := by
  constructor
  · rintro scan path left a ⟨colours, -, -, marks, -, root⟩ -
    simp only [componentVisits, Bool.and_eq_true, decide_eq_true_iff, colours, marks]
    by_cases visited : G.dst a ∈ path ++ left
    · by_cases isRoot : G.dst a = s
      · simp [isRoot, root]
      · simp [isRoot, visited]
    · have notLeft : G.dst a ∉ left := fun mem => visited (mem_append_right _ mem)
      have other : G.dst a ≠ s := fun eq => visited (eq ▸ root)
      simp [visited, notLeft, other, and_assoc]
  · rintro scan path left a ⟨colours, stack, recovery, marks, labels, root⟩ uncoloured new
    refine ⟨rfl, colours, stack, recovery, fun v => ?_, fun v out => ?_, mem_cons_of_mem _ root⟩
    · simp only [entered, componentVisits, cons_append, mem_cons]
      by_cases here : v = G.dst a
      · have other : G.dst a ≠ s := fun eq => new (eq ▸ root)
        simp [here, other]
      · rw [update_of_ne here, marks v]
        simp [here]
    · rw [cons_append, mem_cons, not_or] at out
      exact (update_of_ne out.1 ..).trans (labels v out.2)
  · rintro scan u path left ⟨colours, stack, recovery, marks, labels, root⟩ fresh
    have perm : ((u :: path) ++ left).Perm (path ++ u :: left) := perm_middle.symm
    rw [← recovery] at fresh
    refine ⟨_, if_neg fresh, rfl, fun v => painted_update colours u, stack,
      congrArg (u :: ·) recovery, fun v => ?_, fun v out => ?_, perm.mem_iff.1 root⟩
    · simp only [← perm.mem_iff]
      exact marks v
    · rw [← perm.mem_iff] at out
      exact labels v out

end

theorem leadsTo_of_reach {S : Fin n → Prop} (reach : G.Backward S x y) : G.LeadsTo y x := by
  refine ReflTransGen.mono ?_ _ _ (ReflTransGen.swap _ _ reach)
  rintro y x ⟨a, rfl, rfl, open', -⟩
  exact ⟨a.rev, G.src_rev a, G.dst_rev a, open'⟩

/-- Searches in both directions stay in a component. -/
theorem reach_of_strong {S : Fin n → Prop} (inside : ∀ v, G.Strong s v → S v)
    (strong : G.Strong s v) : G.Forward S s v ∧ G.Backward S s v := by
  constructor
  · obtain ⟨there, back⟩ := strong
    induction there with
    | refl => exact .refl
    | tail before step ih =>
      obtain ⟨a, start, arrives, open'⟩ := step
      have onward := ReflTransGen.head ⟨a, start, arrives, open'⟩ back
      exact (ih onward).tail ⟨a, start, arrives, open', inside _
        ⟨before.tail ⟨a, start, arrives, open'⟩, back⟩⟩
  · obtain ⟨there, back⟩ := strong
    induction back using ReflTransGen.head_induction_on with
    | refl => exact .refl
    | head step after ih =>
      obtain ⟨a, start, arrives, open'⟩ := step
      refine (ih (there.tail ⟨a, start, arrives, open'⟩)).tail ⟨a.rev, (G.src_rev a).trans arrives,
        (G.dst_rev a).trans start, ?_, inside _ ⟨there, after.head ⟨a, start, arrives, open'⟩⟩⟩
      dsimp only
      rwa [Dart.rev_rev]

/-- **The nodes that the first uncoloured node of the stack leads to** lead back to it. -/
theorem strong_of_reach {S : Fin n → Prop} {order front back : List (Fin n)}
    (coloured : Coloured G.Strong colour i) (nodup : order.Nodup)
    (split : order = front ++ s :: back) (done : ∀ v ∈ front, colour v ≠ none) (uncoloured : colour v = none)
    (leads : G.Leads (fun a => G.passable a.rev = true) S order v)
    (there : G.LeadsTo s v) (reach : G.Backward S v s) : G.Strong s v := by
  obtain ⟨front', y, back', split', toY, fromY, last⟩ := leads
  have strong : G.Strong v y := ⟨leadsTo_of_reach fromY, leadsTo_of_reach toY⟩
  have pending : colour y = none := coloured.fresh strong_equivalence uncoloured strong
  have behind : s ∈ y :: back' := last s reach
  have behind' : y ∈ s :: back := by
    have mem : y ∈ order := by simp [split']
    rw [split] at mem
    exact (mem_append.1 mem).resolve_left fun early => done y early pending
  have eq : y = s := by
    by_contra other
    have late := (mem_cons.1 behind).resolve_left (Ne.symm other)
    have late' := (mem_cons.1 behind').resolve_left other
    obtain ⟨p, q, rfl⟩ := append_of_mem late'
    have early : s ∈ front' := by
      have twice : front' ++ y :: back' = (front ++ s :: p) ++ y :: q := by simp [← split', split]
      rw [split'] at nodup
      have once : y ∉ front' := fun mem =>
        (nodup_append.1 nodup).2.2 y mem y mem_cons_self rfl
      have once' : y ∉ back' := (nodup_cons.1 (nodup_append.1 nodup).2.1).1
      rw [((append_cons_inj_of_notMem once once').1 twice).1]
      simp
    rw [split'] at nodup
    exact (nodup_append.1 nodup).2.2 s early s (mem_cons_of_mem y late) rfl
  exact ⟨there, eq ▸ leadsTo_of_reach fromY⟩

section

variable (G : MixedGraph n m) (old : Fin n → Option ℕ)

/-- What holds between two nodes of the stack, of which those of `front` have been taken. -/
structure Stacked (order front back : List (Fin n))
    (st : Numbering n m) : Prop where
  coloured : Coloured G.Strong st.scan.nodeColour st.i
  kept : ∀ v, old v ≠ none → st.scan.nodeColour v ≠ none
  taken : ∀ v ∈ front, st.scan.nodeColour v ≠ none
  marked : ∀ v, st.scan.nodeColour v = none → (st.scan.marked v = true ↔ v ∈ order)
  pred : ∀ v, st.scan.nodeColour v = none → v ∉ order → st.scan.pred v = none
  unread : st.unread = G.incidences
  stack : st.scan.stack = back
  recovery : st.scan.recovery = []

/-- What the backward search from `r` has found. -/
structure Ordered (r : Fin n) (order : List (Fin n)) :
    Prop where
  nodup : order.Nodup
  reached : ∀ v, v ∈ order ↔ G.Backward (fun v => old v = none) r v
  leads : ∀ v ∈ order, G.Leads (fun a => G.passable a.rev = true) (fun v => old v = none) order v

end

theorem component_iff {old : Fin n → Option ℕ} {order front back : List (Fin n)}
    {st : Numbering n m} (ordered : G.Ordered old r order) (split : order = front ++ s :: back)
    (stacked : G.Stacked old order front (s :: back) st) (pending : st.scan.nodeColour s = none) :
    G.Forward
      (fun v => st.scan.nodeColour v = none ∧ st.scan.marked v = true) s v ↔ G.Strong s v := by
  have before : ∀ v, st.scan.nodeColour v = none → old v = none := fun v none => by
    by_contra present
    exact stacked.kept v present none
  have mem : s ∈ order := by simp [split]
  constructor
  · intro reach
    have back' : st.scan.nodeColour v = none ∧ st.scan.marked v = true ∧ G.LeadsTo s v ∧
        G.Backward (fun v => old v = none) v s := by
      induction reach with
      | refl => exact ⟨pending, (stacked.marked s pending).2 mem, .refl, .refl⟩
      | tail _ step ih =>
        obtain ⟨a, rfl, rfl, open', none, marked⟩ := step
        refine ⟨none, marked, ih.2.2.1.tail ⟨a, rfl, rfl, open'⟩, ih.2.2.2.head ⟨a.rev, G.src_rev a,
          G.dst_rev a, ?_, before _ ih.1⟩⟩
        dsimp only
        rwa [Dart.rev_rev]
    obtain ⟨none, marked, there, back'⟩ := back'
    exact strong_of_reach stacked.coloured ordered.nodup split stacked.taken none
      (ordered.leads v ((stacked.marked v none).1 marked)) there back'
  · intro strong
    have uncoloured : ∀ w, G.Strong s w → st.scan.nodeColour w = none := fun w related =>
      stacked.coloured.fresh strong_equivalence pending related
    refine (reach_of_strong (fun w related => ⟨uncoloured w related, ?_⟩) strong).1
    rw [stacked.marked w (uncoloured w related), ordered.reached]
    exact ((ordered.reached s).1 mem).trans
      (reach_of_strong (fun w related => before w (uncoloured w related)) related).2

theorem componentFrom_spec {old : Fin n → Option ℕ} {order front back : List (Fin n)}
    {st : Numbering n m} (ordered : G.Ordered old r order) (split : order = front ++ s :: back)
    (stacked : G.Stacked old order front (s :: back) st) :
    ∃ st', G.componentFrom st s = .ok st' ∧ G.Stacked old order (front ++ [s]) back st' := by
  set scan := { st.scan with stack := st.scan.stack.tail } with eq
  have stack : scan.stack = back := by rw [eq, stacked.stack]; rfl
  by_cases pending : st.scan.nodeColour s = none
  · have marked : st.scan.marked s = true := (stacked.marked s pending).2 (by simp [split])
    obtain ⟨t, left, res, ⟨colours, stack', -, marks, labels, -⟩, reached, -, -, unread⟩ :=
      searchFrom_spec (component_follows (s := s) (i := st.i) scan) ⟨pending, marked⟩
        (fun v => .inl (congrFun stacked.unread v)) ⟨fun v => by simp, rfl, stacked.recovery,
          fun v => by simp, fun v _ => rfl, mem_cons_self⟩
    have component : ∀ v, v ∈ left ↔ G.Strong s v := fun v =>
      (reached v).trans (component_iff ordered split stacked pending)
    have out : ∀ v, t.scan.nodeColour v = none → v ∉ left ∧ st.scan.nodeColour v = none :=
      fun v => (painted_eq_none colours).1
    refine ⟨⟨recovered t.scan, t.unread, st.i + 1⟩, ?_, stacked.coloured.extend strong_equivalence
      pending colours component, fun v present => painted_ne_none colours (stacked.kept v present),
      fun v mem => ?_, fun v none => ?_, fun v none apart => recovered_pred ?_, ?_,
      stack'.trans stack, rfl⟩
    · rw [componentFrom, if_neg (by simp [pending, marked]), ← eq, res]
      rfl
    · rcases mem_append.1 mem with early | here
      · exact painted_ne_none colours (stacked.taken v early)
      · rw [mem_singleton.1 here]
        exact fun none => (out s none).1 ((component s).2 (strong_equivalence.refl s))
    · obtain ⟨unvisited, none⟩ := out v none
      change t.scan.marked v = true ↔ _
      rw [← stacked.marked v none, marks v, if_neg fun both => unvisited (by simpa using both.2)]
    · obtain ⟨unvisited, none⟩ := out v none
      exact (labels v (by simpa using unvisited)).trans (stacked.pred v none apart)
    · funext v
      rw [← stacked.unread]
      exact (unread v).trans (if_neg (by simp [componentVisits]))
  · refine ⟨{ st with scan := scan }, if_pos (.inl pending), stacked.coloured, stacked.kept,
      fun v mem => ?_, stacked.marked, stacked.pred, stacked.unread, stack, stacked.recovery⟩
    rcases mem_append.1 mem with early | here
    · exact stacked.taken v early
    · rwa [mem_singleton.1 here]

theorem components_fold {old : Fin n → Option ℕ} {order front back : List (Fin n)}
    {st : Numbering n m} (ordered : G.Ordered old r order) (split : order = front ++ back)
    (stacked : G.Stacked old order front back st) :
    ∃ st', back.foldlM G.componentFrom st = .ok st' ∧ G.Stacked old order order [] st' := by
  induction back generalizing front st with
  | nil =>
    rw [append_nil] at split
    exact ⟨st, rfl, split ▸ stacked⟩
  | cons s back ih =>
    obtain ⟨st1, res, stacked1⟩ := componentFrom_spec ordered split stacked
    obtain ⟨st2, results, stacked2⟩ := ih (by simp [split]) stacked1
    refine ⟨st2, ?_, stacked2⟩
    rw [foldlM_cons, res]
    exact results

theorem stronglyFrom_spec {st : Numbering n m} (inv : StronglyInv G st) (r : Fin n) :
    ∃ st', G.stronglyFrom st r = .ok st' ∧ StronglyInv G st' ∧ st'.scan.nodeColour r ≠ none ∧
      ∀ v, st.scan.nodeColour v ≠ none → st'.scan.nodeColour v ≠ none := by
  by_cases present : st.scan.nodeColour r ≠ none
  · exact ⟨st, if_pos present, inv, present, fun _ present => present⟩
  have uncoloured := not_not.1 present
  obtain ⟨t, order, res, ⟨colours, stack, -, marks, labels, -⟩, reached, nodup, leads, unread⟩ :=
    searchFrom_spec (forward_follows (r := r) st.scan) uncoloured
      (fun v => .inl (congrFun inv.unread v)) ⟨rfl, inv.stack, inv.recovery, fun v none => by
        simp [inv.marked v none], fun v none => iff_of_true (inv.pred v none) (by
          simp [or_comm, em]), mem_cons_self⟩
  have ordered : G.Ordered st.scan.nodeColour r order := ⟨nodup, reached, leads⟩
  have start : G.Stacked st.scan.nodeColour order [] order ⟨recovered t.scan, t.unread, st.i⟩ := by
    have same : (recovered t.scan).nodeColour = st.scan.nodeColour := colours
    refine ⟨same.symm ▸ inv.coloured, fun v present => same.symm ▸ present, by simp,
      fun v none => marks v (same ▸ none), fun v none apart => recovered_pred ?_, ?_, stack, rfl⟩
    · exact (labels v (same ▸ none)).2 (.inl (by simpa using apart))
    · funext v
      rw [← inv.unread]
      exact (unread v).trans (if_neg (by simp [forwardVisits]))
  obtain ⟨st', results, stacked⟩ := components_fold ordered rfl start
  refine ⟨st', ?_, ⟨stacked.coloured, fun v none => ?_, fun v none => ?_, stacked.unread,
    stacked.stack, stacked.recovery⟩, stacked.taken r ((reached r).2 .refl), stacked.kept⟩
  · rw [← stack] at results
    rw [stronglyFrom, if_neg present, res]
    exact results
  · exact stacked.pred v none fun mem => stacked.taken v mem none
  · by_contra marked
    exact stacked.taken v ((stacked.marked v none).1 (by simpa using marked)) none

theorem stronglySearched_exact : Exact G.Strong G.stronglySearched := by
  have start : StronglyInv G (n := n) (m := m) G.numbering :=
    ⟨⟨by simp [numbering], by simp [numbering], by simp [numbering]⟩, fun _ _ => rfl,
      fun _ _ => rfl, rfl, rfl, rfl⟩
  obtain ⟨st, res, inv, roots, -⟩ := foldlM_roots start fun st r inv =>
    stronglyFrom_spec inv r
  rw [stronglySearched, res]
  exact inv.coloured.exact fun v => roots v (mem_finRange v)

/-- Without directed edges, the components are the same. -/
theorem strong_iff_joined (undirected : ∀ e, G.orientation e = false) :
    G.Strong x y ↔ G.Joined x y := by
  have eq : G.LeadsTo = G.Joined := by
    unfold LeadsTo Joined
    simp [passable, blocking, undirected]
  rw [Strong, eq]
  exact and_iff_left_of_imp joined_equivalence.symm

end MixedGraph

/-! ## The representation of the orientations -/

/-- A graph object with the attribute that represents the orientations. The values at the known
bounds are right. -/
structure RepresentedGraph (n m : ℕ) extends MixedGraph n m where
  orientations : CachedAttribute Bool
  attained : orientations.Attained
  orientation_eq : ∀ e : Fin m, orientation e = orientations.value e

namespace RepresentedGraph

variable (G : RepresentedGraph n m)

def cOrientation : Bool := G.orientations.isConstant.2

def stronglyConnected : Except Raise (Numbering n m × Bool) :=
  if m = 0 ∨ (G.cOrientation = true ∧ ∀ pos : 0 < m, G.orientation ⟨0, pos⟩ = false) then
    G.connected
  else G.stronglySearched

theorem orientation_eq_default (constant : G.cOrientation = true) (e : Fin m) :
    G.orientation e = G.orientations.defaultValue := by
  have values := G.attained.isConstant constant
  rw [G.orientation_eq, CachedAttribute.value, getD_eq_getElem?_getD]
  rcases lt_or_ge (e : ℕ) G.orientations.data.length with low | high
  · rw [getElem?_eq_getElem low, Option.getD_some]
    exact values _ (getElem_mem low)
  · rw [getElem?_eq_none high, Option.getD_none]

/-- **Components are exact.** -/
theorem components_exact :
    MixedGraph.Exact G.Joined G.connected ∧ MixedGraph.Exact G.Strong G.stronglyConnected := by
  refine ⟨MixedGraph.connected_exact, ?_⟩
  rw [stronglyConnected]
  split_ifs with undirected
  · have none : ∀ e, G.orientation e = false := by
      intro e
      rcases undirected with rfl | ⟨constant, first⟩
      · exact e.elim0
      · have pos : 0 < m := e.pos
        rw [← first pos, G.orientation_eq_default constant, G.orientation_eq_default constant]
    obtain ⟨st, answer, k, result, below, used, classes, answers⟩ :=
      MixedGraph.connected_exact (G := G.toMixedGraph)
    exact ⟨st, answer, k, result, below, used, fun u v =>
      (classes u v).trans (MixedGraph.strong_iff_joined none).symm, answers⟩
  · exact MixedGraph.stronglySearched_exact

/-- Three arcs, the last of which is directed. An arc before them has been deleted: it has been
swapped with the last one, and the smallest index of a minimum is not known any longer. -/
def directedTriangle : RepresentedGraph 3 3 where
  toMixedGraph := .ofArcs ![2, 1, 0] ![0, 2, 1] ![false, false, true] (fun _ => 1) (fun _ => 0)
    (fun _ => 0) fun _ => 0
  orientations := ⟨[false, false, true], false, some 1, some 2⟩
  attained := by
    refine ⟨fun i known => ?_, fun i known => ?_⟩ <;> cases known <;> decide
  orientation_eq := by decide

theorem components_exact_directedTriangle :
    MixedGraph.Exact directedTriangle.Joined directedTriangle.connected ∧
      MixedGraph.Exact directedTriangle.Strong directedTriangle.stronglyConnected :=
  directedTriangle.components_exact

end RepresentedGraph

end Goblin
