import Goblin.TimerBounds
import Goblin.Library.BoundedLabels
import Goblin.Library.Extrema
import Goblin.Library.ShortestPath

/-!
# Searching acyclic digraphs

`DAGSearch` takes the nodes in a topological order: a node is queued as soon as
all arcs that enter it have been scanned. One loop serves three purposes. It
numbers the nodes, it computes shortest paths from a node, and it computes
longest paths from the nodes that no arc enters.

The counters are the numbers of the entering arcs that are still to be scanned
(`DagInv.count`). So a scanned arc never leads to a node that has been taken
from the queue, and the labels of these nodes are final (`DagLabels`).

Labels that are not less than `InfFloat` are not stored, nor those of critical paths
that are not greater than `-InfFloat`.
-/

set_option autoImplicit false

namespace Goblin

open Library List Finset Function
open List (append_assoc finRange mem_append)

/-- `TOptDAGSearch` -/
inductive TOptDAGSearch where
  | topSort
  | critical
  | spTree
deriving DecidableEq, Repr

/-- The state of the search. Labels without a value are `InfFloat` for shortest paths, and
`-InfFloat` for critical paths. -/
@[ext] structure DagState (n m : ℕ) where
  idg : Fin n → ℕ
  queue : List (Fin n)
  dist : Fin n → Option ℚ
  pred : Fin n → Option (Arc m)
  nodeColour : Fin n → Option ℕ
  nr : ℕ

/-- The registers that the search leaves, and the node that it returns. -/
structure DagResult (n m : ℕ) where
  dist : Fin n → Option ℚ
  pred : Fin n → Option (Arc m)
  nodeColour : Fin n → Option ℕ
  node : Option (Fin n)

namespace DagState

variable {n m : ℕ}

/-- `Insert` refuses nodes that are queued. -/
def insert (v : Fin n) (st : DagState n m) : Except Raise (DagState n m) :=
  if v ∈ st.queue then .error (.check "Insert" "Item is already on the queue")
  else .ok { st with queue := st.queue ++ [v] }

end DagState

namespace MixedGraph

variable {n m : ℕ} (G : MixedGraph n m)

section Model

variable (el : Arc m → Bool) (len : Arc m → ℚ) (opt : TOptDAGSearch)

/-- The in-degrees. -/
def dagDegrees : Fin n → ℕ :=
  (arcs m).foldl (fun idg a =>
    if el a = true then update idg (G.endNode a) (idg (G.endNode a) + 1) else idg)
    fun _ => 0

/-- The nodes that no arc enters are queued, and labelled. -/
def dagStart (s : Option (Fin n)) (st : DagState n m) (v : Fin n) :
    Except Raise (DagState n m) :=
  if st.idg v = 0 then do
    let st ← st.insert v
    if opt = .critical ∨ (opt = .spTree ∧ s = none) then
      return { st with dist := update st.dist v (some 0) }
    else return st
  else .ok st

/-- The number that is stored for a label. -/
def dagNumber (label : Option ℚ) : ℚ :=
  label.getD (if opt = .critical then -infFloat else infFloat)

/-- Whether `dist[w]` is replaced by a given label. -/
def dagImproves (label : Option ℚ) (thisLabel : ℚ) : Bool :=
  match opt with
  | .topSort => false
  | .spTree => decide (thisLabel < dagNumber .spTree label)
  | .critical => decide (dagNumber .critical label < thisLabel)

/-- The comparison of the labels of the end nodes of an arc. -/
def dagRelabel (v : Fin n) (a : Arc m) (st : DagState n m) : DagState n m :=
  let label := dagNumber opt (st.dist v)
  if (opt = .critical ∨ label < infFloat) ∧
      dagImproves opt (st.dist (G.endNode a)) (label + len a) = true then
    { st with
      dist := update st.dist (G.endNode a) (some (label + len a))
      pred := update st.pred (G.endNode a) (some a) }
  else st

/-- One arc of the incidence list of `v`. -/
def dagRead (v : Fin n) (st : DagState n m) (a : Arc m) : Except Raise (DagState n m) :=
  if el a = true then
    let w := G.endNode a
    let st := { st with idg := update st.idg w (st.idg w - 1) }
    let st := G.dagRelabel len opt v a st
    if st.idg w = 0 then st.insert w else .ok st
  else .ok st

/-- The main loop. Every node is queued at most once. -/
def dagLoop : ℕ → DagState n m → Except Raise (DagState n m)
  | 0, _ => .error .fuel
  | left + 1, st =>
    match st.queue with
    | [] => .ok st
    | v :: queue => do
      let st ← (G.incidences v).foldlM (G.dagRead el len opt v)
        { st with
          queue := queue
          nodeColour := if opt ≠ .critical then update st.nodeColour v (some st.nr)
            else st.nodeColour
          nr := st.nr + 1 }
      dagLoop left st

/-- The node with the largest label. -/
def dagMaximum (dist : Fin n → Option ℚ) : Option (Fin n) :=
  (finRange n).foldl (fun maxNode v =>
    match dist v, maxNode with
    | none, maxNode => maxNode
    | some _, none => some v
    | some x, some u => if (dist u).all fun y => decide (y < x) then some v else some u) none

/-- The node that is returned. -/
def dagReturn (st : DagState n m) : Option (Fin n) :=
  if opt = .critical then
    if st.nr < n then none else dagMaximum st.dist
  else if st.nr < n then (finRange n).find? fun v => st.nodeColour v = none
  else none

/-- The search for given arcs and lengths. -/
def dagSearch (s : Option (Fin n)) : Except Raise (DagResult n m) := do
  let st ← (finRange n).foldlM (dagStart opt s)
    { idg := G.dagDegrees el
      queue := []
      dist := fun v => if opt = .spTree ∧ s = some v then some 0 else none
      pred := fun _ => none
      nodeColour := fun _ => none
      nr := 0 }
  let st ← G.dagLoop el len opt (n + 1) st
  return ⟨st.dist, st.pred, st.nodeColour, dagReturn opt st⟩

end Model

/-! ## Counters -/

variable {G} {el : Arc m → Bool} {len : Arc m → ℚ} {opt : TOptDAGSearch} {w : Fin n}
  {queue : List (Fin n)}

/-- The arcs that enter `w` and are still to be scanned. The nodes of `order` have been taken from
the queue, and `pending` are the arcs of the last one that are still to be read. -/
def openArcs (G : MixedGraph n m) (el : Arc m → Bool) (order : List (Fin n))
    (pending : List (Arc m)) (w : Fin n) : Finset (Arc m) :=
  Finset.univ.filter fun a => el a = true ∧ G.dst a = w ∧ ¬ (G.src a ∈ order ∧ a ∉ pending)

theorem mem_openArcs {order : List (Fin n)} {pending : List (Arc m)} {a : Arc m} :
    a ∈ openArcs G el order pending w ↔
      el a = true ∧ G.dst a = w ∧ ¬ (G.src a ∈ order ∧ a ∉ pending) := by
  simp [openArcs]

theorem dagDegrees_eq (G : MixedGraph n m) (el : Arc m → Bool) (w : Fin n) :
    G.dagDegrees el w = (openArcs G el [] [] w).card := by
  have all : ∀ (l : List (Arc m)) (idg : Fin n → ℕ),
      l.foldl (fun idg a => if el a = true then
        update idg (G.dst a) (idg (G.dst a) + 1) else idg) idg w =
        idg w + (l.filter fun a => el a = true ∧ G.dst a = w).length := by
    intro l
    induction l with
    | nil => simp
    | cons a l ih =>
      intro idg
      rw [foldl_cons, ih]
      by_cases usable : el a = true
      · by_cases here : G.dst a = w
        · subst here
          simp [usable]
          omega
        · simp [usable, here, Ne.symm here]
      · simp [usable]
  have set : openArcs G el [] [] w =
      ((arcs m).filter fun a => el a = true ∧ G.dst a = w).toFinset := by
    ext a
    simp [openArcs, mem_arcs]
  rw [set, toFinset_card_of_nodup ((nodup_arcs m).filter _), dagDegrees, all, Nat.zero_add]

theorem openArcs_read {order : List (Fin n)} {pending : List (Arc m)} {a : Arc m}
    (usable : el a = true) (scanned : G.src a ∈ order) (fresh : a ∉ pending) :
    openArcs G el order (a :: pending) (G.dst a) =
      insert a (openArcs G el order pending (G.dst a)) := by
  ext b
  rw [Finset.mem_insert, mem_openArcs, mem_openArcs, List.mem_cons]
  by_cases eq : b = a
  · subst eq
    simp [usable]
  · simp [eq]

theorem openArcs_read_of_ne {order : List (Fin n)} {pending : List (Arc m)} {a : Arc m}
    (other : el a = false ∨ G.dst a ≠ w) :
    openArcs G el order (a :: pending) w = openArcs G el order pending w := by
  ext b
  rw [mem_openArcs, mem_openArcs, List.mem_cons]
  by_cases eq : b = a
  · subst eq
    rcases other with unusable | other
    · simp [unusable]
    · simp [other]
  · simp [eq]

theorem openArcs_pop {order : List (Fin n)} {v : Fin n} (fresh : v ∉ order) (w : Fin n) :
    openArcs G el (order ++ [v]) (G.incidences v) w = openArcs G el order [] w := by
  ext a
  rw [mem_openArcs, mem_openArcs, G.mem_incidences, mem_append, List.mem_singleton]
  by_cases here : G.src a = v
  · simp [here, fresh]
  · simp [here]

/-! ## The invariant -/

section

variable (G : MixedGraph n m) (el : Arc m → Bool)

/-- What the counters and the queue say. -/
structure DagInv (opt : TOptDAGSearch)
    (order : List (Fin n)) (pending : List (Arc m)) (st : DagState n m) : Prop where
  nodup : (order ++ st.queue).Nodup
  count : ∀ w, st.idg w = (openArcs G el order pending w).card
  ready : ∀ w, w ∈ order ++ st.queue ↔ st.idg w = 0
  number : st.nr = order.length
  colour : opt ≠ .critical → ∀ v, st.nodeColour v = if v ∈ order then some (order.idxOf v) else none
  sorted : ∀ a, el a = true → G.dst a ∈ order →
    G.src a ∈ order ∧ order.idxOf (G.src a) < order.idxOf (G.dst a)

/-- Longest paths are shortest ones for the negative lengths. -/
def dagSign : TOptDAGSearch → ℚ
  | .critical => -1
  | _ => 1

/-- The labels, of which the lower ones are better. -/
def signedDist (opt : TOptDAGSearch) (dist : Fin n → Option ℚ) (v : Fin n) : WithTop ℚ :=
  (dist v).elim ⊤ fun x => ((dagSign opt * x : ℚ) : WithTop ℚ)

/-- What the labels say. -/
structure DagLabels (len : Arc m → ℚ)
    (opt : TOptDAGSearch) (S : Fin n → Prop) (order : List (Fin n)) (pending : List (Arc m))
    (st : DagState n m) : Prop where
  source : ∀ v, st.pred v = none → S v → st.dist v = some 0
  unlabelled : ∀ v, st.pred v = none → ¬ S v → st.dist v = none
  label : ∀ v a, st.pred v = some a → el a = true ∧ G.dst a = v ∧ G.src a ∈ order ∧
    ∃ y, st.dist (G.src a) = some y ∧ st.dist v = some (y + len a)
  bounded : ∀ v, S v → ∃ x, st.dist v = some x ∧ dagSign opt * x ≤ 0
  relaxed : ∀ a, el a = true → G.src a ∈ order → a ∉ pending → ∀ y, st.dist (G.src a) = some y →
    ∃ x, st.dist (G.dst a) = some x ∧ dagSign opt * x ≤ dagSign opt * (y + len a)
  known : opt = .critical → ∀ v ∈ order, ∃ x, st.dist v = some x
  entries : opt = .critical → ∀ v, (∀ a, el a = true → G.dst a ≠ v) → S v
  anchored : Anchored G.src G.dst (fun a => el a = true) S (fun a => dagSign opt * len a)
    (signedDist opt st.dist)
  short : WalksBelow G.src G.dst (fun a => el a = true) S (fun a => dagSign opt * len a) infFloat

end

variable {S : Fin n → Prop} {order : List (Fin n)} {pending : List (Arc m)} {st : DagState n m}
  {v : Fin n} {a : Arc m}

/-- An arc that is still to be scanned leads to a node that has not been queued. -/
theorem DagInv.fresh (inv : DagInv G el opt order pending st)
    (isOpen : a ∈ openArcs G el order pending w) : w ∉ order ++ st.queue := by
  intro queued
  have zero := (inv.ready w).1 queued
  rw [inv.count, card_eq_zero] at zero
  rw [zero] at isOpen
  cases isOpen

/-- The labels depend on the distances and the predecessors only. -/
theorem DagLabels.congr {st' : DagState n m} (labels : DagLabels G el len opt S order pending st)
    (dist : st'.dist = st.dist) (pred : st'.pred = st.pred) :
    DagLabels G el len opt S order pending st' := by
  obtain ⟨source, unlabelled, label, bounded, relaxed, known, entries, anchored, short⟩ := labels
  rw [← dist] at source unlabelled label bounded relaxed known anchored
  rw [← pred] at source unlabelled label
  exact ⟨source, unlabelled, label, bounded, relaxed, known, entries, anchored, short⟩

theorem signedDist_ne_top {dist : Fin n → Option ℚ} :
    signedDist opt dist v ≠ ⊤ ↔ ∃ x, dist v = some x := by
  unfold signedDist
  cases dist v with
  | none => simp
  | some x => exact iff_of_true WithTop.coe_ne_top ⟨x, rfl⟩

theorem signedDist_update (dist : Fin n → Option ℚ) (w : Fin n) (x : ℚ) :
    signedDist opt (update dist w (some x)) =
      update (signedDist opt dist) w ((dagSign opt * x : ℚ) : WithTop ℚ) := by
  funext v
  by_cases here : v = w
  · subst here
    simp [signedDist]
  · simp [signedDist, here]

/-- Only numbers that can be stored count as improvements. -/
theorem dagImproves_iff (label : Option ℚ) (thisLabel : ℚ) :
    dagImproves opt label thisLabel = true ↔ opt ≠ .topSort ∧
      dagSign opt * thisLabel < label.elim infFloat fun x => dagSign opt * x := by
  cases opt <;> cases label <;> simp [dagImproves, dagSign, dagNumber, neg_lt]

theorem dagRelabel_frame (G : MixedGraph n m) (len : Arc m → ℚ) (opt : TOptDAGSearch) (v : Fin n)
    (a : Arc m) (st : DagState n m) :
    ∃ dist pred, G.dagRelabel len opt v a st = { st with dist := dist, pred := pred } ∧
      (opt = .topSort → dist = st.dist ∧ pred = st.pred) := by
  unfold dagRelabel
  dsimp only
  split_ifs with improves
  · refine ⟨_, _, rfl, fun sorting => ?_⟩
    exact absurd sorting ((dagImproves_iff _ _).1 improves.2).1
  · exact ⟨st.dist, st.pred, rfl, fun _ => ⟨rfl, rfl⟩⟩

theorem DagLabels.relabel (labelled : opt ≠ .topSort)
    (labels : DagLabels G el len opt S order (a :: pending) st) (usable : el a = true)
    (scanned : G.src a ∈ order) (later : G.dst a ∉ order) :
    DagLabels G el len opt S order pending (G.dagRelabel len opt (G.src a) a st) := by
  have final : ∀ u ∈ order, u ≠ G.dst a := by
    rintro u mem rfl
    exact later mem
  cases val : st.dist (G.src a) with
  | none =>
    have plain : opt ≠ .critical := fun critical => by
      obtain ⟨x, some⟩ := labels.known critical _ scanned
      rw [val] at some
      cases some
    have res : G.dagRelabel len opt (G.src a) a st = st := by
      unfold dagRelabel
      rw [if_neg]
      simp [val, dagNumber, plain]
    rw [res]
    refine ⟨labels.source, labels.unlabelled, labels.label, labels.bounded, ?_, labels.known,
      labels.entries, labels.anchored, labels.short⟩
    intro b usable' scanned' read y set
    refine labels.relaxed b usable' scanned' ?_ y set
    rw [List.mem_cons, not_or]
    refine ⟨?_, read⟩
    rintro rfl
    rw [val] at set
    cases set
  | some label =>
    have stored : signedDist opt st.dist (G.src a) = ((dagSign opt * label : ℚ) : WithTop ℚ) := by
      simp [signedDist, val]
    have isSource : ∀ v, S v → signedDist opt st.dist v ≠ ⊤ := fun v source =>
      signedDist_ne_top.2 ((labels.bounded v source).imp fun x both => both.1)
    have starts : signedDist opt st.dist (G.src a) ≠ ⊤ := signedDist_ne_top.2 ⟨label, val⟩
    have sum : signedDist opt st.dist (G.src a) + ((dagSign opt * len a : ℚ) : WithTop ℚ) =
        ((dagSign opt * (label + len a) : ℚ) : WithTop ℚ) := by
      rw [stored, mul_add, WithTop.coe_add]
    have below := labels.anchored.lt labels.short starts
    have res : G.dagRelabel len opt (G.src a) a st =
        if signedDist opt st.dist (G.src a) + ((dagSign opt * len a : ℚ) : WithTop ℚ) <
          signedDist opt st.dist (G.dst a) then
        { st with
          dist := update st.dist (G.dst a) (some (label + len a))
          pred := update st.pred (G.dst a) (some a) }
        else st := by
      unfold dagRelabel
      have number : dagNumber opt (st.dist (G.src a)) = label := by simp [dagNumber, val]
      rw [number]
      have room : opt = .critical ∨ label < infFloat := by
        rw [stored, WithTop.coe_lt_coe] at below
        cases opt with
        | topSort => exact absurd rfl labelled
        | critical => exact .inl rfl
        | spTree => exact .inr (by simpa [dagSign] using below)
      refine if_congr ?_ rfl rfl
      rw [and_iff_right room, dagImproves_iff, and_iff_right labelled]
      refine ⟨fun improves => ?_, fun improves => ?_⟩
      · rw [sum]
        change _ < (st.dist (G.dst a)).elim ⊤ _
        cases old : st.dist (G.dst a) with
        | none => exact WithTop.coe_lt_top _
        | some x =>
          rw [old] at improves
          exact WithTop.coe_lt_coe.2 improves
      · have fits := labels.anchored.label_lt isSource starts usable labels.short improves
        rw [sum] at fits improves
        change _ < (st.dist (G.dst a)).elim ⊤ _ at improves
        cases old : st.dist (G.dst a) with
        | none => exact WithTop.coe_lt_coe.1 fits
        | some x =>
          rw [old] at improves
          exact WithTop.coe_lt_coe.1 improves
    rw [res]
    split_ifs with improves
    · have lower : ∀ x, st.dist (G.dst a) = some x →
          dagSign opt * (label + len a) < dagSign opt * x := by
        intro x old
        rw [sum, signedDist, old] at improves
        exact WithTop.coe_lt_coe.1 improves
      refine ⟨?_, ?_, ?_, ?_, ?_, ?_, labels.entries, ?_, labels.short⟩
      · intro v unset source
        dsimp only at unset ⊢
        have other : v ≠ G.dst a := by
          rintro rfl
          rw [update_self] at unset
          cases unset
        rw [update_of_ne other] at unset ⊢
        exact labels.source v unset source
      · intro v unset noSource
        dsimp only at unset ⊢
        have other : v ≠ G.dst a := by
          rintro rfl
          rw [update_self] at unset
          cases unset
        rw [update_of_ne other] at unset ⊢
        exact labels.unlabelled v unset noSource
      · intro v b set
        dsimp only at set ⊢
        by_cases eq : v = G.dst a
        · subst eq
          rw [update_self] at set
          cases set
          refine ⟨usable, rfl, scanned, label, ?_, update_self _ _ _⟩
          rw [update_of_ne (final _ scanned)]
          exact val
        · rw [update_of_ne eq] at set ⊢
          obtain ⟨usable', leads, scanned', y, first, second⟩ := labels.label v b set
          refine ⟨usable', leads, scanned', y, ?_, second⟩
          rw [update_of_ne (final _ scanned')]
          exact first
      · intro v source
        dsimp only
        by_cases eq : v = G.dst a
        · subst eq
          rw [update_self]
          obtain ⟨x, old, nonpos⟩ := labels.bounded _ source
          exact ⟨_, rfl, (lower x old).le.trans nonpos⟩
        · rw [update_of_ne eq]
          exact labels.bounded v source
      · intro b usable' scanned' read y set
        dsimp only at set ⊢
        rw [update_of_ne (final _ scanned')] at set
        by_cases sameArc : b = a
        · subst sameArc
          rw [val] at set
          cases set
          rw [update_self]
          exact ⟨_, rfl, le_rfl⟩
        · obtain ⟨x, old, bound⟩ := labels.relaxed b usable' scanned'
            (by simp [sameArc, read]) y set
          by_cases eq : G.dst b = G.dst a
          · rw [eq, update_self]
            rw [eq] at old
            exact ⟨_, rfl, (lower x old).le.trans bound⟩
          · rw [update_of_ne eq]
            exact ⟨x, old, bound⟩
      · intro critical v mem
        dsimp only
        rw [update_of_ne (final v mem)]
        exact labels.known critical v mem
      · rw [signedDist_update, ← sum]
        exact labels.anchored.relax isSource starts usable improves
    · obtain ⟨x, old, bound⟩ : ∃ x, st.dist (G.dst a) = some x ∧
          dagSign opt * x ≤ dagSign opt * (label + len a) := by
        rw [sum, signedDist] at improves
        cases old : st.dist (G.dst a) with
        | none =>
          rw [old] at improves
          exact absurd (WithTop.coe_lt_top _) improves
        | some x =>
          rw [old] at improves
          exact ⟨x, rfl, WithTop.coe_le_coe.1 (not_lt.1 improves)⟩
      refine ⟨labels.source, labels.unlabelled, labels.label, labels.bounded, ?_, labels.known,
        labels.entries, labels.anchored, labels.short⟩
      intro b usable' scanned' read y set
      by_cases sameArc : b = a
      · subst sameArc
        rw [val] at set
        cases set
        exact ⟨x, old, bound⟩
      · exact labels.relaxed b usable' scanned' (by simp [sameArc, read]) y set

/-! ## The search -/

/-- **One arc**: its end node is queued if no other arc is to be waited for. -/
theorem dagRead_spec (len : Arc m → ℚ) (inv : DagInv G el opt order (a :: pending) st)
    (labels : opt ≠ .topSort → DagLabels G el len opt S order (a :: pending) st)
    (scanned : G.src a ∈ order) (unread : a ∉ pending) :
    ∃ st', G.dagRead el len opt (G.src a) st a = .ok st' ∧ DagInv G el opt order pending st' ∧
      (opt ≠ .topSort → DagLabels G el len opt S order pending st') := by
  by_cases usable : el a = true
  · have isOpen : a ∈ openArcs G el order (a :: pending) (G.dst a) := by
      simp [mem_openArcs, usable]
    have later := inv.fresh isOpen
    rw [mem_append, not_or] at later
    set st1 : DagState n m :=
      { st with idg := update st.idg (G.dst a) (st.idg (G.dst a) - 1) } with st1Eq
    have relabelled : opt ≠ .topSort →
        DagLabels G el len opt S order pending (G.dagRelabel len opt (G.src a) a st1) := by
      exact fun other => .relabel other ((labels other).congr rfl rfl) usable scanned later.1
    obtain ⟨dist, pred, res, -⟩ := dagRelabel_frame G len opt (G.src a) a st1
    rw [res] at relabelled
    have count : ∀ w, st1.idg w = (openArcs G el order pending w).card := by
      intro w
      by_cases here : w = G.dst a
      · have closed : a ∉ openArcs G el order pending (G.dst a) := by
          simp [mem_openArcs, scanned, unread]
        have one := inv.count (G.dst a)
        rw [openArcs_read usable scanned unread, card_insert_of_notMem closed] at one
        rw [here, st1Eq]
        simp [one]
      · rw [st1Eq]
        dsimp only
        rw [update_of_ne here, inv.count, openArcs_read_of_ne (.inr (Ne.symm here))]
    have others : ∀ w, w ≠ G.dst a → st1.idg w = st.idg w := fun w other =>
      update_of_ne other _ _
    have start : G.dagRead el len opt (G.src a) st a =
        if st1.idg (G.dst a) = 0 then DagState.insert (G.dst a) { st1 with dist := dist, pred := pred }
        else .ok { st1 with dist := dist, pred := pred } := by
      unfold dagRead
      rw [if_pos usable]
      simp only [← st1Eq, res]
    by_cases last : st1.idg (G.dst a) = 0
    · have insert : DagState.insert (G.dst a) { st1 with dist := dist, pred := pred } =
          .ok { st1 with dist := dist, pred := pred, queue := st.queue ++ [G.dst a] } :=
        if_neg later.2
      refine ⟨{ st1 with dist := dist, pred := pred, queue := st.queue ++ [G.dst a] }, ?_,
        ⟨?_, count, ?_, inv.number, inv.colour, inv.sorted⟩, fun other => ?_⟩
      · rw [start, if_pos last, insert]
      · dsimp only
        rw [← append_assoc, nodup_append]
        refine ⟨inv.nodup, nodup_singleton _, ?_⟩
        rintro w mem _ (_ | ⟨_, none⟩) rfl
        · rcases mem_append.1 mem with first | second
          · exact later.1 first
          · exact later.2 second
        · cases none
      · intro w
        dsimp only
        rw [← append_assoc, mem_append, List.mem_singleton]
        by_cases here : w = G.dst a
        · subst here
          exact iff_of_true (.inr rfl) last
        · rw [others w here, ← inv.ready w]
          simp [here]
      · exact (relabelled other).congr rfl rfl
    · refine ⟨{ st1 with dist := dist, pred := pred }, ?_,
        ⟨inv.nodup, count, ?_, inv.number, inv.colour, inv.sorted⟩, relabelled⟩
      · rw [start, if_neg last]
      · intro w
        by_cases here : w = G.dst a
        · subst here
          exact iff_of_false (by simpa using later) last
        · have eq := others w here
          dsimp only
          rw [eq]
          exact inv.ready w
  · rw [Bool.not_eq_true] at usable
    have eq : ∀ w, openArcs G el order (a :: pending) w = openArcs G el order pending w :=
      fun w => openArcs_read_of_ne (.inl usable)
    refine ⟨st, if_neg (by simp [usable]), ⟨inv.nodup, fun w => ?_, inv.ready, inv.number,
      inv.colour, inv.sorted⟩, fun other => ?_⟩
    · rw [inv.count, eq]
    · have before := labels other
      refine ⟨before.source, before.unlabelled, before.label, before.bounded, ?_, before.known,
        before.entries, before.anchored, before.short⟩
      intro b usable' scanned' read
      refine before.relaxed b usable' scanned' ?_
      rw [List.mem_cons, not_or]
      refine ⟨?_, read⟩
      rintro rfl
      rw [usable] at usable'
      cases usable'

theorem dagRead_foldlM (len : Arc m → ℚ) (l : List (Arc m)) (nodup : l.Nodup)
    (start : ∀ a ∈ l, G.src a = v) (scanned : v ∈ order) (inv : DagInv G el opt order l st)
    (labels : opt ≠ .topSort → DagLabels G el len opt S order l st) :
    ∃ st', l.foldlM (G.dagRead el len opt v) st = .ok st' ∧ DagInv G el opt order [] st' ∧
      (opt ≠ .topSort → DagLabels G el len opt S order [] st') := by
  induction l generalizing st with
  | nil => exact ⟨st, rfl, inv, labels⟩
  | cons a l ih =>
    rw [nodup_cons] at nodup
    obtain rfl := start a mem_cons_self
    obtain ⟨st1, read, inv1, labels1⟩ := dagRead_spec len inv labels scanned nodup.1
    obtain ⟨st2, rest, facts⟩ := ih nodup.2
      (fun b mem => start b (mem_cons_of_mem _ mem)) inv1 labels1
    refine ⟨st2, ?_, facts⟩
    rw [foldlM_cons, read]
    exact rest

/-- **Taking a node from the queue**: all arcs that enter it have been scanned. -/
theorem DagInv.pop (inv : DagInv G el opt order [] st) (first : st.queue = v :: queue) :
    v ∉ order ∧ DagInv G el opt (order ++ [v]) (G.incidences v)
      { st with
        queue := queue
        nodeColour := if opt ≠ .critical then update st.nodeColour v (some st.nr)
          else st.nodeColour
        nr := st.nr + 1 } := by
  have nodup := inv.nodup
  rw [first] at nodup
  have fresh : v ∉ order := fun mem =>
    (nodup_append.1 nodup).2.2 v mem v mem_cons_self rfl
  have ready : st.idg v = 0 := (inv.ready v).1 (by simp [first])
  refine ⟨fresh, by simpa using nodup, ?_, ?_, ?_, ?_, ?_⟩
  · intro w
    rw [openArcs_pop fresh]
    exact inv.count w
  · intro w
    have eq := inv.ready w
    rw [first] at eq
    simpa using eq
  · simp [inv.number]
  · intro other w
    have colour := inv.colour other w
    dsimp only
    rw [if_pos other]
    by_cases here : w = v
    · subst here
      rw [update_self, if_pos (by simp), idxOf_append_of_notMem fresh]
      simp [inv.number]
    · rw [update_of_ne here, colour]
      by_cases mem : w ∈ order
      · rw [if_pos mem, if_pos (mem_append_left _ mem), List.idxOf_append_of_mem mem]
      · rw [if_neg mem, if_neg (by simp [mem, here])]
  · intro a usable mem
    rw [mem_append, List.mem_singleton] at mem
    rcases mem with before | here
    · obtain ⟨scanned, less⟩ := inv.sorted a usable before
      rw [List.idxOf_append_of_mem scanned, List.idxOf_append_of_mem before]
      exact ⟨mem_append_left _ scanned, less⟩
    have closed : a ∉ openArcs G el order [] v := by
      intro isOpen
      rw [inv.count, card_eq_zero] at ready
      rw [ready] at isOpen
      cases isOpen
    have scanned : G.src a ∈ order := by
      by_contra absent
      exact closed (mem_openArcs.2 ⟨usable, here, fun both => absent both.1⟩)
    rw [here, List.idxOf_append_of_mem scanned, idxOf_append_of_notMem fresh]
    have less := idxOf_lt_length_iff.2 scanned
    exact ⟨mem_append_left _ scanned, by omega⟩

/-- A node that is taken from the queue has been labelled if all paths are considered. -/
theorem DagLabels.known_first (labels : DagLabels G el len opt S order [] st)
    (inv : DagInv G el opt order [] st) (first : st.queue = v :: queue)
    (critical : opt = .critical) : ∃ x, st.dist v = some x := by
  by_cases entered : ∃ a, el a = true ∧ G.dst a = v
  · obtain ⟨a, usable, rfl⟩ := entered
    have scanned : G.src a ∈ order := by
      by_contra absent
      have isOpen : a ∈ openArcs G el order [] (G.dst a) :=
        mem_openArcs.2 ⟨usable, rfl, fun both => absent both.1⟩
      exact inv.fresh isOpen (by simp [first])
    obtain ⟨y, val⟩ := labels.known critical _ scanned
    obtain ⟨x, label, -⟩ := labels.relaxed a usable scanned (by simp) y val
    exact ⟨x, label⟩
  · push Not at entered
    exact (labels.bounded v (labels.entries critical v entered)).imp fun x both => both.1

theorem DagLabels.pop {colour : Fin n → Option ℕ} {nr : ℕ}
    (labels : DagLabels G el len opt S order [] st)
    (known : opt = .critical → ∃ x, st.dist v = some x) :
    DagLabels G el len opt S (order ++ [v]) (G.incidences v)
      { st with queue := queue, nodeColour := colour, nr := nr } := by
  refine ⟨labels.source, labels.unlabelled, ?_, labels.bounded, ?_, ?_, labels.entries,
    labels.anchored, labels.short⟩
  · intro w b set
    obtain ⟨usable, leads, scanned, rest⟩ := labels.label w b set
    exact ⟨usable, leads, mem_append_left _ scanned, rest⟩
  · intro b usable scanned read
    rw [G.mem_incidences] at read
    rw [mem_append, List.mem_singleton] at scanned
    exact labels.relaxed b usable (scanned.resolve_right read) (by simp)
  · intro critical w mem
    rw [mem_append, List.mem_singleton] at mem
    rcases mem with before | rfl
    · exact labels.known critical w before
    · exact known critical

theorem dagLoop_spec (len : Arc m → ℚ) (left : ℕ) (inv : DagInv G el opt order [] st)
    (labels : opt ≠ .topSort → DagLabels G el len opt S order [] st)
    (fuel : n < left + order.length) :
    ∃ st' order', G.dagLoop el len opt left st = .ok st' ∧ DagInv G el opt order' [] st' ∧
      (opt ≠ .topSort → DagLabels G el len opt S order' [] st') ∧ st'.queue = [] := by
  induction left generalizing st order with
  | zero =>
    have bound := (nodup_append.1 inv.nodup).1.length_le_card
    rw [Fintype.card_fin] at bound
    omega
  | succ left ih =>
    unfold dagLoop
    cases first : st.queue with
    | nil => exact ⟨st, order, rfl, inv, labels, first⟩
    | cons v queue =>
      obtain ⟨fresh, popped⟩ := inv.pop first
      obtain ⟨st1, scan, inv1, labels1⟩ := dagRead_foldlM len (G.incidences v)
        (G.nodup_incidences v) (fun a mem => (G.mem_incidences v a).1 mem)
        (by simp) popped fun other => (labels other).pop ((labels other).known_first inv first)
      obtain ⟨st2, order2, res, facts⟩ := ih inv1 labels1 (by
        rw [length_append, length_singleton]
        omega)
      refine ⟨st2, order2, ?_, facts⟩
      dsimp only
      rw [scan]
      exact res

/-! ## The first nodes -/

section

variable (G : MixedGraph n m) (el : Arc m → Bool) (opt : TOptDAGSearch) (s : Option (Fin n))

/-- The nodes where paths start. -/
def dagSource
    (v : Fin n) : Prop :=
  if opt = .spTree ∧ s ≠ none then s = some v else ∀ a, el a = true → G.dst a ≠ v

/-- The state after the nodes of `done` have been considered. -/
def dagStarted
    (done : List (Fin n)) : DagState n m where
  idg := G.dagDegrees el
  queue := done.filter fun v => G.dagDegrees el v = 0
  dist v := if (opt = .spTree ∧ s = some v) ∨ ((opt = .critical ∨ (opt = .spTree ∧ s = none)) ∧
    v ∈ done ∧ G.dagDegrees el v = 0) then some 0 else none
  pred _ := none
  nodeColour _ := none
  nr := 0

theorem dagStart_eq {done : List (Fin n)} (fresh : v ∉ done) :
    dagStart opt s (dagStarted G el opt s done) v = .ok (dagStarted G el opt s (done ++ [v])) := by
  unfold dagStart
  by_cases zero : G.dagDegrees el v = 0
  · have absent : v ∉ (dagStarted G el opt s done).queue := fun mem =>
      fresh (mem_of_mem_filter mem)
    have inserted : DagState.insert v (dagStarted G el opt s done) =
        .ok { dagStarted G el opt s done with
          queue := (dagStarted G el opt s done).queue ++ [v] } := if_neg absent
    have queue : (dagStarted G el opt s done).queue ++ [v] =
        (dagStarted G el opt s (done ++ [v])).queue := by
      simp [dagStarted, zero]
    rw [if_pos (show (dagStarted G el opt s done).idg v = 0 from zero), inserted]
    change (if _ then _ else _) = _
    split_ifs with labelled
    · refine congrArg Except.ok (DagState.ext rfl queue ?_ rfl rfl rfl)
      funext w
      by_cases here : w = v
      · subst here
        simp [dagStarted, labelled, zero]
      · simp [dagStarted, here]
    · refine congrArg Except.ok (DagState.ext rfl queue ?_ rfl rfl rfl)
      funext w
      simp [dagStarted, labelled]
  · rw [if_neg (show ¬ (dagStarted G el opt s done).idg v = 0 from zero)]
    refine congrArg Except.ok (DagState.ext rfl ?_ ?_ rfl rfl rfl)
    · simp [dagStarted, zero]
    · funext w
      by_cases here : w = v
      · subst here
        simp [dagStarted, zero]
      · simp [dagStarted, here]

end

theorem dagStart_spec (G : MixedGraph n m) (el : Arc m → Bool) (len : Arc m → ℚ)
    (opt : TOptDAGSearch) (s : Option (Fin n))
    (short : opt ≠ .topSort → WalksBelow G.src G.dst (fun a => el a = true)
      (dagSource G el opt s) (fun a => dagSign opt * len a) infFloat) :
    ∃ st, (finRange n).foldlM (dagStart opt s)
        { idg := G.dagDegrees el
          queue := []
          dist := fun v => if opt = .spTree ∧ s = some v then some 0 else none
          pred := fun _ => none
          nodeColour := fun _ => none
          nr := 0 } = .ok st ∧
      DagInv G el opt [] [] st ∧
      (opt ≠ .topSort → DagLabels G el len opt (dagSource G el opt s) [] [] st) := by
  have all : ∀ (l done : List (Fin n)), (done ++ l).Nodup →
      l.foldlM (dagStart opt s) (dagStarted G el opt s done) =
        .ok (dagStarted G el opt s (done ++ l)) := by
    intro l
    induction l with
    | nil =>
      intro done _
      rw [append_nil]
      rfl
    | cons v l ih =>
      intro done nodup
      have fresh : v ∉ done := fun mem =>
        (nodup_append.1 nodup).2.2 v mem v mem_cons_self rfl
      rw [foldlM_cons, dagStart_eq G el opt s fresh]
      have rest := ih (done ++ [v]) (by simpa using nodup)
      rw [append_assoc, singleton_append] at rest
      exact rest
  have res := all (finRange n) [] (by simpa using nodup_finRange n)
  have first : dagStarted G el opt s [] = { idg := G.dagDegrees el
                                            queue := []
                                            dist := fun v => if opt = .spTree ∧ s = some v then some 0
                                              else none
                                            pred := fun _ => none
                                            nodeColour := fun _ => none
                                            nr := 0 } := by
    simp [dagStarted]
  rw [first, nil_append] at res
  have entered : ∀ v, G.dagDegrees el v = 0 ↔ ∀ a, el a = true → G.dst a ≠ v := by
    intro v
    rw [dagDegrees_eq, card_eq_zero, eq_empty_iff_forall_notMem]
    refine forall_congr' fun a => ?_
    simp [mem_openArcs]
  have sources : opt ≠ .topSort → ∀ v,
      (dagStarted G el opt s (finRange n)).dist v = some 0 ↔ dagSource G el opt s v := by
    intro other v
    simp only [dagStarted, dagSource, mem_finRange, true_and, entered]
    cases opt with
    | topSort => exact absurd rfl other
    | critical => simp
    | spTree => cases s <;> simp
  refine ⟨_, res, ⟨?_, fun w => dagDegrees_eq G el w, ?_, rfl, ?_, ?_⟩, fun other =>
    ⟨?_, ?_, ?_, ?_, ?_, ?_, ?_, ?_, short other⟩⟩
  · rw [nil_append]
    exact (nodup_finRange n).filter _
  · intro w
    simp [dagStarted]
  · intro _ v
    rfl
  · intro a _ mem
    cases mem
  · intro v _ source
    exact (sources other v).2 source
  · intro v _ noSource
    rw [← sources other v] at noSource
    by_contra labelled
    exact noSource (if_pos (by_contra fun none => labelled (if_neg none)))
  · intro v a set
    cases set
  · intro v source
    exact ⟨0, (sources other v).2 source, by simp⟩
  · intro a _ mem
    cases mem
  · intro _ v mem
    cases mem
  · intro critical v entry
    rw [dagSource, if_neg (by simp [critical])]
    exact entry
  · refine .init (fun v labelled => ?_) fun v source => ?_
    · obtain ⟨x, val⟩ := signedDist_ne_top.1 labelled
      rw [← sources other v]
      refine if_pos (by_contra fun none => ?_)
      have absent : (dagStarted G el opt s (finRange n)).dist v = Option.none := if_neg none
      rw [absent] at val
      cases val
    · rw [signedDist, (sources other v).2 source]
      simp

/-! ## The end of the search -/

theorem length_lt_iff (nodup : order.Nodup) : order.length < n ↔ ∃ v, v ∉ order := by
  constructor
  · intro short
    by_contra all
    push Not at all
    have bound := card_le_card (fun v (_ : v ∈ Finset.univ) => mem_toFinset.2 (all v))
    rw [toFinset_card_of_nodup nodup, card_univ, Fintype.card_fin] at bound
    omega
  · rintro ⟨v, absent⟩
    have bound := (nodup_cons.2 ⟨absent, nodup⟩).length_le_card
    rw [Fintype.card_fin, length_cons] at bound
    exact bound

/-- **Nodes that are never queued** have entering arcs from each other, so there is a cycle. -/
theorem DagInv.exists_cycle (inv : DagInv G el opt order [] st) (done : st.queue = [])
    (absent : v ∉ order) : ∃ x c, IsCycle G.src G.dst (fun a => el a = true) x c := by
  have entering : ∀ w, w ∉ order → ∃ a, el a = true ∧ G.dst a = w ∧ G.src a ∉ order := by
    intro w out
    have pos : st.idg w ≠ 0 := by
      intro zero
      have queued := (inv.ready w).2 zero
      rw [done, append_nil] at queued
      exact out queued
    rw [inv.count, Finset.card_ne_zero] at pos
    obtain ⟨a, isOpen⟩ := pos
    obtain ⟨usable, leads, unscanned⟩ := mem_openArcs.1 isOpen
    exact ⟨a, usable, leads, fun scanned => unscanned ⟨scanned, by simp⟩⟩
  classical
  let label : Fin n → Option (Arc m) := fun w =>
    if out : w ∉ order then some (entering w out).choose else none
  have labelled : ∀ w a, label w = some a → el a = true ∧ G.dst a = w ∧ G.src a ∉ order := by
    intro w a set
    by_cases out : w ∉ order
    · have val : label w = some (entering w out).choose := dif_pos out
      rw [val] at set
      cases set
      exact (entering w out).choose_spec
    · have val : label w = none := dif_neg out
      rw [val] at set
      cases set
  by_contra none
  have acyclic : ∀ x q, ¬ BackPath label G.src x x q := by
    intro x q cycle
    have consistent : ∀ y a, label y = some a → G.dst a = y := fun y a set => (labelled y a set).2.1
    refine none ⟨x, q.reverse, cycle.isCycle consistent fun a mem => ?_⟩
    exact (labelled _ a (cycle.label_of_mem consistent mem)).1
  obtain ⟨p, x, reads, root⟩ := exists_readsTo_root acyclic v
  have out : ∀ {w : Fin n} {q : List (Arc m)}, w ∉ order → ReadsTo label G.src w q x →
      x ∉ order := by
    intro w q
    induction q generalizing w with
    | nil =>
      rintro start rfl
      exact start
    | cons a q ih =>
      rintro - ⟨set, rest⟩
      exact ih (labelled w a set).2.2 rest
  have val : label x = some _ := dif_pos (out absent reads)
  rw [root] at val
  cases val

theorem DagInv.acyclic (inv : DagInv G el opt order [] st) (all : ∀ v, v ∈ order) :
    ¬ ∃ x c, IsCycle G.src G.dst (fun a => el a = true) x c := by
  rintro ⟨x, c, cycle⟩
  have later : ∀ {u v : Fin n} {p : List (Arc m)}, IsWalk G.src G.dst u p v →
      (∀ a ∈ p, el a = true) → order.idxOf u + p.length ≤ order.idxOf v := by
    intro u v p
    induction p generalizing u with
    | nil =>
      rintro rfl -
      simp
    | cons a p ih =>
      rintro ⟨rfl, rest⟩ usable
      have less := (inv.sorted a (usable a mem_cons_self) (all _)).2
      have more := ih rest fun b mem => usable b (mem_cons_of_mem _ mem)
      rw [length_cons]
      omega
  have bound := later cycle.walk cycle.usable
  have pos := length_pos_iff.2 cycle.nonempty
  omega

/-! ## The labels at the end -/

theorem DagLabels.path (inv : DagInv G el opt order [] st) (all : ∀ v, v ∈ order)
    (labels : DagLabels G el len opt S order [] st) {d : ℚ} (val : st.dist v = some d) :
    ∃ p x, ReadsTo st.pred G.src v p x ∧ S x ∧ st.pred x = none ∧ (∀ a ∈ p, el a = true) ∧
      (p.map len).sum = d := by
  have earlier : ∀ {u w : Fin n} {q : List (Arc m)}, BackPath st.pred G.src u w q →
      order.idxOf u < order.idxOf w := by
    intro u w q path
    have one : ∀ {w : Fin n} {a : Arc m}, st.pred w = some a →
        order.idxOf (G.src a) < order.idxOf w := by
      intro w a set
      obtain ⟨usable, rfl, -⟩ := labels.label w a set
      exact (inv.sorted a usable (all _)).2
    induction path with
    | last set arrived => exact arrived ▸ one set
    | step set _ _ ih => exact ih.trans (one set)
  obtain ⟨p, x, reads, root⟩ :=
    exists_readsTo_root (fun x q cycle => lt_irrefl _ (earlier cycle)) v
  have along : ∀ {w : Fin n} {q : List (Arc m)} {y : ℚ}, ReadsTo st.pred G.src w q x →
      st.dist w = some y → ∃ z, st.dist x = some z ∧ y = z + (q.map len).sum := by
    intro w q
    induction q generalizing w with
    | nil =>
      rintro y rfl set
      exact ⟨y, set, by simp⟩
    | cons a q ih =>
      rintro y ⟨set, rest⟩ known
      obtain ⟨-, -, -, y', first, second⟩ := labels.label w a set
      obtain ⟨z, final, total⟩ := ih rest first
      rw [known] at second
      cases second
      refine ⟨z, final, ?_⟩
      rw [total, List.map_cons, List.sum_cons]
      ring
  obtain ⟨z, final, total⟩ := along reads val
  have source : S x := by
    by_contra noSource
    rw [labels.unlabelled x root noSource] at final
    cases final
  rw [labels.source x root source] at final
  cases final
  refine ⟨p, x, reads, source, root, reads.forall_mem fun y a set => (labels.label y a set).1, ?_⟩
  rw [total, zero_add]

theorem DagLabels.lower (all : ∀ v, v ∈ order) (labels : DagLabels G el len opt S order [] st)
    {u : Fin n} {p : List (Arc m)} (source : S u) (walk : IsWalk G.src G.dst u p v)
    (usable : ∀ a ∈ p, el a = true) :
    ∃ d, st.dist v = some d ∧ dagSign opt * d ≤ dagSign opt * (p.map len).sum := by
  induction p using reverseRecOn generalizing v with
  | nil =>
    obtain rfl : u = v := walk
    simpa using labels.bounded u source
  | append_singleton p a ih =>
    obtain ⟨first, rfl⟩ := isWalk_concat.1 walk
    obtain ⟨y, val, bound⟩ := ih first fun b mem => usable b (mem_append_left _ mem)
    obtain ⟨x, val', bound'⟩ :=
      labels.relaxed a (usable a (by simp)) (all _) (by simp) y val
    refine ⟨x, val', bound'.trans ?_⟩
    rw [List.map_append, List.sum_append, List.map_singleton, List.sum_singleton, mul_add,
      mul_add]
    linarith

theorem DagInv.exists_entry (inv : DagInv G el opt order [] st) (all : ∀ v, v ∈ order) (v : Fin n) :
    ∃ u p, (∀ a, el a = true → G.dst a ≠ u) ∧ IsWalk G.src G.dst u p v ∧ ∀ a ∈ p, el a = true := by
  induction index : order.idxOf v using Nat.strong_induction_on generalizing v with
  | _ k ih =>
    by_cases entered : ∃ a, el a = true ∧ G.dst a = v
    · obtain ⟨a, usable, rfl⟩ := entered
      have less := (inv.sorted a usable (all _)).2
      obtain ⟨u, p, isEntry, walk, along⟩ := ih _ (index ▸ less) (G.src a) rfl
      refine ⟨u, p ++ [a], isEntry, isWalk_concat.2 ⟨walk, rfl⟩, fun b mem => ?_⟩
      rcases mem_append.1 mem with before | last
      · exact along b before
      · rw [List.mem_singleton.1 last]
        exact usable
    · push Not at entered
      exact ⟨v, [], entered, rfl, by simp⟩

theorem dagMaximum_spec (dist : Fin n → Option ℚ) :
    match dagMaximum dist with
    | none => ∀ v, dist v = none
    | some u => ∃ y, dist u = some y ∧ ∀ v x, dist v = some x → x ≤ y := by
  have whole : Selected (· ≥ ·) dist (fun u y => dist u = some y) (finRange n)
      (dagMaximum dist) := by
    refine selected_foldl _ (fun v best none => by simp only [none])
      (fun v x val => ⟨v, by simp only [val], val⟩) (fun v x u y val known => ?_) _
    by_cases less : y < x
    · exact .inl ⟨v, by simp [val, known, less], val, less.le⟩
    · exact .inr ⟨by simp [val, known, less], not_lt.1 less⟩
  cases found : dagMaximum dist with
  | none =>
    rw [found] at whole
    exact fun v => whole v (mem_finRange v)
  | some u =>
    rw [found] at whole
    obtain ⟨y, known, upper⟩ := whole
    exact ⟨y, known, fun v => upper v (mem_finRange v)⟩

/-! ## The three purposes -/

section

variable (G : MixedGraph n m) (el : Arc m → Bool) (len : Arc m → ℚ)

/-- The lengths of paths are numbers between `-InfFloat` and `InfFloat`. -/
def BoundedPaths : Prop :=
  ∀ u p v, IsWalk G.src G.dst u p v → (∀ a ∈ p, el a = true) → |(p.map len).sum| < infFloat

theorem BoundedPaths.below {G : MixedGraph n m} {el : Arc m → Bool} {len : Arc m → ℚ}
    (bounded : G.BoundedPaths el len) (opt : TOptDAGSearch) (S : Fin n → Prop) :
    WalksBelow G.src G.dst (fun a => el a = true) S (fun a => dagSign opt * len a) infFloat := by
  intro x p v first
  rw [sum_map_mul_left]
  refine WithTop.coe_lt_coe.2 (lt_of_le_of_lt ?_ (bounded x p v first.walk first.usable))
  cases opt
  · simpa [dagSign] using le_abs_self _
  · simpa [dagSign] using neg_le_abs _
  · simpa [dagSign] using le_abs_self _

theorem dagSearch_ends
    (opt : TOptDAGSearch) (s : Option (Fin n))
    (short : opt ≠ .topSort → WalksBelow G.src G.dst (fun a => el a = true)
      (dagSource G el opt s) (fun a => dagSign opt * len a) infFloat) :
    ∃ st order, G.dagSearch el len opt s =
        .ok ⟨st.dist, st.pred, st.nodeColour, dagReturn opt st⟩ ∧
      DagInv G el opt order [] st ∧ st.queue = [] ∧
      (opt ≠ .topSort → DagLabels G el len opt (dagSource G el opt s) order [] st) ∧
      (st.nr < n ↔ ∃ x c, IsCycle G.src G.dst (fun a => el a = true) x c) ∧
      (¬ st.nr < n → ∀ v, v ∈ order) := by
  obtain ⟨st1, started, inv1, labels1⟩ := dagStart_spec G el len opt s short
  obtain ⟨st, order, res, inv, labels, done⟩ :=
    dagLoop_spec len (n + 1) inv1 labels1 (by simp)
  have nodup : order.Nodup := (nodup_append.1 inv.nodup).1
  have covered : ¬ st.nr < n → ∀ v, v ∈ order := by
    intro many v
    by_contra absent
    rw [inv.number, length_lt_iff nodup] at many
    exact many ⟨v, absent⟩
  refine ⟨st, order, ?_, inv, done, labels, ⟨fun few => ?_, fun cyclic => ?_⟩, covered⟩
  · simp only [dagSearch, started, bind, Except.bind, res, pure, Except.pure]
  · rw [inv.number, length_lt_iff nodup] at few
    obtain ⟨v, absent⟩ := few
    exact inv.exists_cycle done absent
  · by_contra many
    exact inv.acyclic (covered many) cyclic

/-- **Topological orders**: no node is returned exactly if there is no cycle, and then the nodes
are numbered along the arcs. -/
theorem dagSearch_topSort (s : Option (Fin n)) : ∃ r, G.dagSearch el len .topSort s = .ok r ∧
      (r.node = none ↔ ¬ ∃ x c, IsCycle G.src G.dst (fun a => el a = true) x c) ∧
      (r.node = none → ∃ number : Fin n ≃ Fin n, (∀ v, r.nodeColour v = some (number v).val) ∧
        ∀ a, el a = true → number (G.src a) < number (G.dst a)) := by
  obtain ⟨st, order, res, inv, -, -, cyclic, covered⟩ :=
    dagSearch_ends G el len .topSort s fun other => absurd rfl other
  have nodup : order.Nodup := (nodup_append.1 inv.nodup).1
  have colour := inv.colour (by decide)
  have returned : dagReturn .topSort st = none ↔ ¬ st.nr < n := by
    by_cases few : st.nr < n
    · have found := few
      rw [inv.number, length_lt_iff nodup] at found
      obtain ⟨v, absent⟩ := found
      refine iff_of_false (fun noNode => ?_) (not_not.2 few)
      have search : (finRange n).find? (fun v => st.nodeColour v = none) = none := by
        rw [← noNode]
        exact ((if_neg (by decide)).trans (if_pos few)).symm
      have coloured := find?_eq_none.1 search v (mem_finRange v)
      rw [colour v, if_neg absent] at coloured
      simp at coloured
    · exact iff_of_true ((if_neg (by decide)).trans (if_neg few)) few
  refine ⟨_, res, returned.trans (not_congr cyclic), fun noNode => ?_⟩
  have all := covered (returned.1 noNode)
  have count : order.length = n := by
    have upper := nodup.length_le_card
    have lower := returned.1 noNode
    rw [inv.number] at lower
    rw [Fintype.card_fin] at upper
    omega
  have number : Function.Bijective fun v : Fin n =>
      (⟨order.idxOf v, (idxOf_lt_length_iff.2 (all v)).trans_eq count⟩ : Fin n) := by
    refine Finite.injective_iff_bijective.1 fun u v eq => ?_
    exact (idxOf_inj (all u)).1 (Fin.mk.inj_iff.1 eq)
  refine ⟨Equiv.ofBijective _ number, fun v => ?_, fun a usable => ?_⟩
  · exact (colour v).trans (if_pos (all v))
  · exact (inv.sorted a usable (all _)).2

/-- **Shortest paths** in acyclic graphs, for arbitrary lengths. -/
theorem dagSearch_spTree (s : Fin n)
    (acyclic : ¬ ∃ x c, IsCycle G.src G.dst (fun a => el a = true) x c)
    (bounded : G.BoundedPaths el len) :
    ∃ r, G.dagSearch el len .spTree (some s) = .ok r ∧ (∀ v d, r.dist v = some d →
        IsDistance G.src G.dst (fun a => el a = true) len (· = s) v d) ∧
      ∀ v, r.dist v = none → ¬ ReachableFrom G.src G.dst (fun a => el a = true) (· = s) v := by
  obtain ⟨st, order, res, inv, -, labels, cyclic, covered⟩ :=
    dagSearch_ends G el len .spTree (some s) fun _ => bounded.below _ _
  have all := covered (mt cyclic.1 acyclic)
  have labelled := labels (by decide)
  have source : ∀ v, dagSource G el .spTree (some s) v ↔ v = s := by
    intro v
    simp [dagSource, eq_comm]
  refine ⟨_, res, fun v d val => ⟨?_, ?_⟩, fun v val => ?_⟩
  · obtain ⟨p, x, reads, start, -, usable, sum⟩ := labelled.path inv all val
    refine ⟨x, p.reverse, (source x).1 start,
      reads.isWalk fun y a set => (labelled.label y a set).2.1,
      fun a mem => usable a (mem_reverse.1 mem), ?_⟩
    rw [map_reverse, sum_reverse, sum]
  · rintro u p rfl walk usable
    obtain ⟨d', val', bound⟩ := labelled.lower all ((source u).2 rfl) walk usable
    cases val.symm.trans val'
    simpa [dagSign] using bound
  · rintro ⟨u, p, rfl, walk, usable⟩
    obtain ⟨d', val', -⟩ := labelled.lower all ((source u).2 rfl) walk usable
    cases val.symm.trans val'

/-- **Critical paths**: the node that is returned is the end of a longest path from a node that no
arc enters, and the predecessor labels describe such a path. -/
theorem dagSearch_critical
    (s : Option (Fin n)) (acyclic : ¬ ∃ x c, IsCycle G.src G.dst (fun a => el a = true) x c)
    (bounded : G.BoundedPaths el len) (ne : 0 < n) :
    ∃ r v d, G.dagSearch el len .critical s = .ok r ∧ r.node = some v ∧
      (∀ u w p, (∀ a, el a = true → G.dst a ≠ u) → IsWalk G.src G.dst u p w →
        (∀ a ∈ p, el a = true) → (p.map len).sum ≤ d) ∧
      ∃ p x, ReadsTo r.pred G.src v p x ∧ (∀ a, el a = true → G.dst a ≠ x) ∧ r.pred x = none ∧
        IsWalk G.src G.dst x p.reverse v ∧ (∀ a ∈ p, el a = true) ∧ (p.map len).sum = d := by
  obtain ⟨st, order, res, inv, -, labels, cyclic, covered⟩ :=
    dagSearch_ends G el len .critical s fun _ => bounded.below _ _
  have many := mt cyclic.1 acyclic
  have all := covered many
  have labelled := labels (by decide)
  have source : ∀ v, dagSource G el .critical s v ↔ ∀ a, el a = true → G.dst a ≠ v := by
    intro v
    simp [dagSource]
  have known : ∀ v, ∃ d, st.dist v = some d := by
    intro v
    obtain ⟨u, p, isEntry, walk, usable⟩ := inv.exists_entry all v
    obtain ⟨d, val, -⟩ := labelled.lower all ((source u).2 isEntry) walk usable
    exact ⟨d, val⟩
  have maximum := dagMaximum_spec st.dist
  cases found : dagMaximum st.dist with
  | none =>
    rw [found] at maximum
    obtain ⟨d, val⟩ := known ⟨0, ne⟩
    rw [maximum ⟨0, ne⟩] at val
    cases val
  | some v =>
    rw [found] at maximum
    obtain ⟨d, val, upper⟩ := maximum
    obtain ⟨p, x, reads, start, root, usable, sum⟩ := labelled.path inv all val
    refine ⟨_, v, d, res, ?_, ?_, p, x, reads, (source x).1 start, root,
      reads.isWalk fun y a set => (labelled.label y a set).2.1, usable, sum⟩
    · change dagReturn .critical st = some v
      rw [dagReturn, if_pos rfl, if_neg many, found]
    · intro u w q isEntry walk along
      obtain ⟨d', val', bound⟩ := labelled.lower all ((source u).2 isEntry) walk along
      have less := upper w d' val'
      simp only [dagSign, neg_mul, one_mul, neg_le_neg_iff] at bound
      linarith

end

end MixedGraph

namespace DiGraph

variable {n m : ℕ}

/-- `DAGSearch`: the label of the target node is reported if the graph is acyclic. -/
def dagSearch (G : DiGraph n m) (sub : Fin m → ℚ) (delta epsilon : ℚ) (opt : TOptDAGSearch)
    (s t : Option (Fin n)) : Except Raise (DagResult n m) := do
  let r ← G.toMixedGraph.dagSearch (G.eligible sub delta .plain) (fun a => G.length a.edge) opt s
  match t with
  | some t =>
    if opt = .spTree ∧ r.node = none then
      setResult epsilon (MixedGraph.dagNumber opt (r.dist t))
    return r
  | none => return r

/-- No cycle consists of arcs of positive capacity. -/
def Acyclic (G : DiGraph n m) (sub : Fin m → ℚ) (delta : ℚ) : Prop :=
  ¬ ∃ x c, IsCycle G.src G.dst (fun a => G.eligible sub delta .plain a = true) x c

/-- Every path of arcs of positive capacity has a length between `-InfFloat` and `InfFloat`. -/
def BoundedPaths (G : DiGraph n m) (sub : Fin m → ℚ) (delta : ℚ) : Prop :=
  G.toMixedGraph.BoundedPaths (G.eligible sub delta .plain) fun a => G.length a.edge

section

variable {G : DiGraph n m} {sub : Fin m → ℚ} {delta epsilon : ℚ} {opt : TOptDAGSearch}
  {s t : Option (Fin n)} {r : DagResult n m}

theorem dagSearch_of_bounded (nonneg : 0 ≤ epsilon)
    (res : G.toMixedGraph.dagSearch (G.eligible sub delta .plain) (fun a => G.length a.edge) opt s =
      .ok r) (bounded : opt = .spTree → ∀ v d, r.dist v = some d → |d| ≤ infFloat) :
    G.dagSearch sub delta epsilon opt s t = .ok r := by
  unfold dagSearch
  rw [res]
  cases t with
  | none => rfl
  | some t =>
    simp only [bind, Except.bind]
    split_ifs with report
    · rw [setResult_ok nonneg]
      · rfl
      · obtain ⟨rfl, -⟩ := report
        cases val : r.dist t with
        | none => exact (abs_of_pos infFloat_pos).le
        | some d => exact bounded rfl t d val
    · rfl

end

/-- **One search for three purposes**: topological orders, and shortest and longest paths in acyclic
graphs whose path lengths are in the range of the labels. -/
theorem dagSearch_correct (G : DiGraph n m) (sub : Fin m → ℚ) (delta epsilon : ℚ)
    (nonneg : 0 ≤ epsilon) :
    (∀ s t, ∃ r, G.dagSearch sub delta epsilon .topSort s t = .ok r ∧
      (r.node = none ↔ G.Acyclic sub delta) ∧
      (r.node = none → ∃ number : Fin n ≃ Fin n, (∀ v, r.nodeColour v = some (number v).val) ∧
        ∀ a, G.eligible sub delta .plain a = true → number (G.src a) < number (G.dst a))) ∧
    (G.Acyclic sub delta → G.BoundedPaths sub delta →
      ∀ s t, ∃ r, G.dagSearch sub delta epsilon .spTree (some s) t = .ok r ∧
      (∀ v d, r.dist v = some d →
        IsDistance G.src G.dst (fun a => G.eligible sub delta .plain a = true)
          (fun a => G.length a.edge) (· = s) v d) ∧
      ∀ v, r.dist v = none →
        ¬ ReachableFrom G.src G.dst (fun a => G.eligible sub delta .plain a = true) (· = s) v) ∧
    (G.Acyclic sub delta → G.BoundedPaths sub delta → 0 < n →
      ∀ s t, ∃ r v d, G.dagSearch sub delta epsilon .critical s t = .ok r ∧
      r.node = some v ∧
      (∀ u w p, (∀ a, G.eligible sub delta .plain a = true → G.dst a ≠ u) →
        IsWalk G.src G.dst u p w → (∀ a ∈ p, G.eligible sub delta .plain a = true) →
        (p.map fun a => G.length a.edge).sum ≤ d) ∧
      ∃ p x, ReadsTo r.pred G.src v p x ∧
        (∀ a, G.eligible sub delta .plain a = true → G.dst a ≠ x) ∧ r.pred x = none ∧
        IsWalk G.src G.dst x p.reverse v ∧ (∀ a ∈ p, G.eligible sub delta .plain a = true) ∧
        (p.map fun a => G.length a.edge).sum = d) := by
  refine ⟨fun s t => ?_, fun acyclic bounded s t => ?_, fun acyclic bounded nonempty s t => ?_⟩
  · obtain ⟨r, res, facts⟩ := G.dagSearch_topSort (G.eligible sub delta .plain)
      (fun a => G.length a.edge) s
    exact ⟨r, dagSearch_of_bounded nonneg res (by simp), facts⟩
  · obtain ⟨r, res, shortest, rest⟩ := G.dagSearch_spTree _ _ s acyclic bounded
    refine ⟨r, dagSearch_of_bounded nonneg res fun _ v d val => ?_, shortest, rest⟩
    obtain ⟨⟨u, p, -, walk, usable, sum⟩, -⟩ := shortest v d val
    rw [← sum]
    exact (bounded u p v walk usable).le
  · obtain ⟨r, v, d, res, facts⟩ := G.dagSearch_critical _ _ s acyclic bounded nonempty
    exact ⟨r, v, d, dagSearch_of_bounded nonneg res (by simp), facts⟩

/-- A path of two arcs. -/
def twoArcs (first second : ℚ) : DiGraph 3 2 :=
  DiGraph.ofArcs ![0, 1] ![1, 2] ![1, 1] ![0, 0] ![first, second] ![0, 0, 0]

theorem twoArcs_acyclic (first second : ℚ) : (twoArcs first second).Acyclic (fun _ => 0) 0 := by
  rintro ⟨x, c, cycle⟩
  have rises : ∀ a, (twoArcs first second).eligible (fun _ => 0) 0 .plain a = true →
      (twoArcs first second).src a < (twoArcs first second).dst a := by
    change ∀ a, (twoArcs 0 0).eligible (fun _ => 0) 0 .plain a = true →
      (twoArcs 0 0).src a < (twoArcs 0 0).dst a
    rintro ⟨e, back⟩
    revert e back
    decide +kernel
  have closed := cycle.walk.sum_sub fun v => (v.val : ℤ)
  rw [sub_self] at closed
  refine absurd closed (sum_pos _ (fun y member => ?_) (by simpa using cycle.nonempty)).ne'
  obtain ⟨a, inCycle, rfl⟩ := mem_map.1 member
  have less := rises a (cycle.usable a inCycle)
  rw [Fin.lt_def] at less
  omega

theorem dagSearch_correct_negativePath : (twoArcs 2 (-5)).Acyclic (fun _ => 0) 0 ∧
      ∃ r, (twoArcs 2 (-5)).dagSearch (fun _ => 0) 0 0 .spTree (some 0) (some 2) = .ok r := by
  have acyclic := twoArcs_acyclic 2 (-5)
  have bounded : (twoArcs 2 (-5)).BoundedPaths (fun _ => 0) 0 := by
    have step : ∀ a, (twoArcs 2 (-5)).eligible (fun _ => 0) 0 .plain a = true →
        |(twoArcs 2 (-5)).length a.edge| ≤
          5 * (((twoArcs 2 (-5)).dst a).val - ((twoArcs 2 (-5)).src a).val : ℚ) := by
      rintro ⟨e, back⟩
      revert e back
      decide +kernel
    intro u p v walk usable
    have close : |(p.map fun a => (twoArcs 2 (-5)).length a.edge).sum| ≤
        5 * (v.val - u.val : ℚ) := by
      induction p generalizing u with
      | nil =>
        obtain rfl : u = v := walk
        simp
      | cons a p ih =>
        obtain ⟨rfl, rest⟩ := walk
        rw [List.map_cons, List.sum_cons]
        have first := step a (usable a mem_cons_self)
        have others := ih _ rest fun b mem => usable b (mem_cons_of_mem _ mem)
        exact (abs_add_le _ _).trans (by linarith)
    have last : (v.val : ℚ) ≤ 2 := by exact_mod_cast Nat.lt_succ_iff.1 v.isLt
    refine close.trans_lt ?_
    rw [infFloat]
    linarith [(Nat.cast_nonneg u.val : (0 : ℚ) ≤ u.val)]
  obtain ⟨-, shortest, -⟩ := (twoArcs 2 (-5)).dagSearch_correct (fun _ => 0) 0 0 le_rfl
  obtain ⟨r, result, -⟩ := shortest acyclic bounded 0 (some 2)
  exact ⟨acyclic, r, result⟩

/-- A path that is too long for the labels. Its last node gets no label; with negative lengths, the
label is refused as a bound. -/
theorem dagSearch_misses_farNode :
    (twoArcs (6 * 10 ^ 49) (6 * 10 ^ 49)).Acyclic (fun _ => 0) 0 ∧
    (((twoArcs (6 * 10 ^ 49) (6 * 10 ^ 49)).dagSearch (fun _ => 0) 0 0 .spTree (some 0) none).map
      fun r => r.dist 2) = .ok none ∧
    ReachableFrom (twoArcs (6 * 10 ^ 49) (6 * 10 ^ 49)).src
      (twoArcs (6 * 10 ^ 49) (6 * 10 ^ 49)).dst
      (fun a => (twoArcs (6 * 10 ^ 49) (6 * 10 ^ 49)).eligible (fun _ => 0) 0 .plain a = true)
      (· = 0) 2 ∧
    (twoArcs (-6 * 10 ^ 49) (-6 * 10 ^ 49)).Acyclic (fun _ => 0) 0 ∧
    ((twoArcs (-6 * 10 ^ 49) (-6 * 10 ^ 49)).dagSearch (fun _ => 0) 0 0 .spTree (some 0)
      (some 2)).map (fun r => r.dist 2) =
      .error (.rejected "SetBounds" "Trying to override lower bound") := by
  refine ⟨twoArcs_acyclic _ _, by decide +kernel,
    ⟨0, [⟨0, false⟩, ⟨1, false⟩], rfl, ⟨rfl, rfl, rfl⟩, by decide +kernel⟩, twoArcs_acyclic _ _,
    by decide +kernel⟩

end DiGraph

end Goblin
