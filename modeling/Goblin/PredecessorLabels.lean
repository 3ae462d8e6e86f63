import Goblin.GraphFrames

/-!
# Predecessor labels and deletions

The label `pred[v]` is an arc with the end node `v`. When arcs are deleted, the last edge takes the
place of the deleted one, so that arcs get other indices. `SwapArcs` exchanges the entries of all
attributes of the two arcs, but the labels are attributes of the nodes. They are exchanged when
nodes are renumbered, and `CancelArc` drops those which denote the cancelled arc. No method renames
the arcs that occur as values.

So the labels survive a deletion exactly if none of them denotes an arc that has to move.
-/

set_option autoImplicit false

namespace Goblin

open Library Finset Option Equiv Function Equiv.Perm Option
open SparseState (rev)

variable {gone : ℕ → Prop} {fuel last : ℕ}

/-! ## The methods -/

/-- A sparse graph with its predecessor labels. -/
structure LabelledGraph where
  graph : SparseGraph
  /-- `TokRegPredecessor` -/
  predecessors : Option (Attribute (Option ℕ))

/-- The methods of a sparse graph that access the labels. -/
abbrev LabelM := EStateM Raise LabelledGraph

namespace LabelledGraph

open SparseGraph

/-- A method that does not access the labels. -/
def lift {α : Type} (x : GraphM α) : LabelM α := fun st =>
  match x st.graph with
  | .ok value graph => .ok value { st with graph := graph }
  | .error e graph => .error e { st with graph := graph }

def pred (v : ℕ) : LabelM (Option ℕ) := do
  let st ← get
  if st.graph.n ≤ v then throw (.range "Pred" "No such node")
  else return (getArray st.predecessors).bind fun A => A.getValue v

def setPred (v : ℕ) (thisPred : Option ℕ) : LabelM Unit := do
  let st ← get
  if st.graph.n ≤ v then throw (.range "SetPred" "No such node")
  else if thisPred.any fun a => 2 * st.graph.m ≤ a then throw (.range "SetPred" "No such arc")
  else if thisPred.any fun a => st.graph.rep.startNode (rev a) ≠ some v then
    throw (.rejected "SetPred" "Mismatching end node")
  else
    match getArray st.predecessors with
    | some A => set { st with predecessors := some (A.setValue v thisPred) }
    | none =>
      if thisPred = none then pure ()
      else do
        let A ← lift (initArray st.predecessors st.graph.rep.nAct)
        set { st with predecessors := some (A.setValue v thisPred) }

/-- The test of `CancelArc` for a label that denotes the cancelled arc `a`. -/
def dropPred (v a : ℕ) : LabelM Unit := do
  let label ← pred v
  if label = some a then setPred v none else pure ()

/-- `CancelArc`. The test for the exterior face does not matter here. -/
def cancelArc (a : ℕ) : LabelM Unit := do
  let st ← get
  if 2 * st.graph.rep.mAct ≤ a then throw (.range "CancelArc" "No such arc")
  else
    match st.graph.rep.startNode a with
    | none => throw (.range "CancelArc" "Cancelled arc")
    | some u => do
      let v ← lift (labelNode (st.graph.rep.startNode (rev a)))
      lift (markAdjacency u v none)
      dropPred v a
      dropPred u (rev a)
      lift (match st.graph.sub with
        | none => pure ()
        | some sub =>
          if st.graph.rep.mAct ≤ a then throw .fault
          else adjustDegrees (2 * (a / 2) + 1) (sub a))
      lift (onIncidences fun rep => rep.cancelArc a)

/-- The loop of `CancelNode`. -/
def cancelNode (v : ℕ) : ℕ → LabelM Unit
  | 0 => throw .fuel
  | fuel + 1 => do
    let st ← get
    match st.graph.rep.first v with
    | none => pure ()
    | some a => do
      cancelArc a
      cancelNode v fuel

/-- `SwapNodes`. The labels of two graph nodes are exchanged. -/
def swapNodes (u v : ℕ) : LabelM Unit := do
  let st ← get
  lift (SparseGraph.swapNodes u v)
  if u = v ∨ st.graph.rep.nAct ≤ u ∨ st.graph.rep.nAct ≤ v then pure ()
  else modify fun st => { st with
    predecessors := st.predecessors.map fun A => A.swapItems u v }

/-- `DeleteArc`. The labels that denote the last edge are not renamed. -/
def deleteArc (a : ℕ) : LabelM Unit := do
  let st ← get
  if 2 * st.graph.rep.mAct ≤ a then throw (.range "DeleteArc" "No such arc")
  else do
    let a := a &&& rev a
    let ad := 2 * st.graph.rep.mAct - 2
    (if st.graph.rep.startNode a ≠ none then cancelArc a else pure ())
    lift (discard (releaseBendNodes a))
    lift (swapArcs a ad)
    lift do
      modify fun st => (st.eraseItems .graphArcs 1).eraseItems .arcsTwice 2
      modify fun st => { st with rep := { st.rep with mAct := st.rep.mAct - 1 } }
      modify fun st => { st with ni := st.lAct - st.rep.nAct, m := st.rep.mAct }

def deleteArcs : ℕ → ℕ → LabelM Unit
  | 0, _ => throw .fuel
  | fuel + 1, a => do
    let st ← get
    if a < 2 * st.graph.rep.mAct then
      if st.graph.rep.startNode a = none then do
        deleteArc a
        deleteArcs fuel a
      else deleteArcs fuel (a + 2)
    else pure ()

def deleteNode (v : ℕ) : LabelM Unit := do
  let st ← get
  if st.graph.lAct ≤ v then throw (.range "DeleteNode" "No such node")
  else do
    (if v < st.graph.rep.nAct then do
        lift (modify fun st => { st with adj := none, sDeg := none, sDegInOut := none })
        cancelNode v (st.graph.rep.mAct + 1)
        lift (discard (releaseShapeNodes v))
        swapNodes v (st.graph.rep.nAct - 1)
        modify fun st => { st with
          predecessors := st.predecessors.map fun A => A.eraseItems 1 }
        let st ← get
        (if st.graph.rep.nAct < st.graph.lAct then
          swapNodes (st.graph.rep.nAct - 1) (st.graph.lAct - 1) else pure ())
        lift do
          modify fun st => (st.eraseItems .graphNodes 1).eraseItems .layoutNodes 1
          modify fun st => { st with
            rep := { st.rep with nAct := st.rep.nAct - 1 }
            lAct := st.lAct - 1 }
        deleteArcs (st.graph.rep.mAct + 1) 0
      else lift do
        bypass v
        eraseLayoutNode v)
    lift (modify fun st => { st with
      n := st.rep.nAct, m := st.rep.mAct, ni := st.lAct - st.rep.nAct })

/-! ## Labels that survive -/

/-- The label of a node, if the labels are there. -/
def labelOf (predecessors : Option (Attribute (Option ℕ))) (w : ℕ) : Option ℕ :=
  (getArray predecessors).bind fun A => A.getValue w

/-- The attributes of the edges have the sizes of the graph, or no entries. -/
structure Filed (st : SparseGraph) : Prop where
  sound : st.rep.Sound
  ucap : Ranked st.ucap st.rep.mAct
  lcap : Ranked st.lcap st.rep.mAct
  length : Ranked st.length st.rep.mAct
  orientation : Ranked st.orientation st.rep.mAct

/-- The labels denote arcs which end at their nodes. -/
structure Labelled (st : LabelledGraph) : Prop where
  n : st.graph.n = st.graph.rep.nAct
  m : st.graph.m = st.graph.rep.mAct
  filed : Filed st.graph
  ranked : Ranked st.predecessors st.graph.rep.nAct
  valid : ∀ w, w < st.graph.rep.nAct → ∀ l, labelOf st.predecessors w = some l →
    l < 2 * st.graph.rep.mAct ∧ st.graph.rep.startNode (rev l) = some w

/-- The arc `b` of `st'` is the arc `a` of `st`, where the node `w` of `st'` is the node `node w` of
`st`. -/
structure SameArc (st st' : SparseGraph) (node : Equiv.Perm ℕ) (a b : ℕ) : Prop where
  start : (st'.rep.startNode b).map node = st.rep.startNode a
  ends : (st'.rep.startNode (rev b)).map node = st.rep.startNode (rev a)
  length : valueOf st'.length 1 (b / 2) = valueOf st.length 1 (a / 2)
  uCap : st'.uCap b = st.uCap a
  lCap : st'.lCap b = st.lCap a
  subOf : st'.subOf b = st.subOf a
  blocking : st'.blocking b = st.blocking a

section

variable (st st' : LabelledGraph) (node : Equiv.Perm ℕ) (gone : ℕ → Prop)

/-- The remaining labels are arcs which end at their nodes, and those of the arcs which are not
`gone` still denote the same arcs. -/
def Survive : Prop :=
  (∀ w, w < st'.graph.rep.nAct → ∀ l, labelOf st'.predecessors w = some l →
    l < 2 * st'.graph.rep.mAct ∧ st'.graph.rep.startNode (rev l) = some w) ∧
  ∀ w, w < st'.graph.rep.nAct → ∀ l, labelOf st.predecessors (node w) = some l → ¬ gone l →
    ∃ l', labelOf st'.predecessors w = some l' ∧ SameArc st.graph st'.graph node l l'

/-- What a deletion does to labels and arcs. The arcs that keep their indices stay what they are. -/
structure Outcome : Prop where
  nodes : ∀ w, w < st'.graph.rep.nAct → node w < st.graph.rep.nAct
  label : ∀ w, w < st'.graph.rep.nAct → ∀ l, labelOf st'.predecessors w = some l ↔
    labelOf st.predecessors (node w) = some l ∧ ¬ gone l
  arcs : ∀ b, b < 2 * st'.graph.rep.mAct → ¬ gone b → st.graph.rep.startNode b ≠ none →
    SameArc st.graph st'.graph node b b

end

section Survival

variable {st st' : LabelledGraph} {node : Equiv.Perm ℕ} {gone : ℕ → Prop}

theorem Labelled.present (labelled : st.Labelled) {w l : ℕ} (low : w < st.graph.rep.nAct)
    (label : labelOf st.predecessors w = some l) : st.graph.rep.startNode l ≠ none := by
  obtain ⟨lowL, ends⟩ := labelled.valid w low l label
  intro cancelled
  rw [(labelled.filed.sound.paired l lowL).1 cancelled] at ends
  cases ends

/-- The labels survive if the arcs that they denote keep their indices. -/
theorem Outcome.survive_iff (labelled : st.Labelled) (outcome : Outcome st st' node gone) :
    Survive st st' node gone ↔ ∀ w, w < st'.graph.rep.nAct → ∀ l,
      labelOf st.predecessors (node w) = some l → ¬ gone l → l < 2 * st'.graph.rep.mAct := by
  constructor
  · intro survive w low l label stays
    exact (survive.1 w low l ((outcome.label w low l).2 ⟨label, stays⟩)).1
  · intro inRange
    have kept : ∀ w, w < st'.graph.rep.nAct → ∀ l, labelOf st.predecessors (node w) = some l →
        ¬ gone l → SameArc st.graph st'.graph node l l := fun w low l label stays =>
      outcome.arcs l (inRange w low l label stays) stays
        (labelled.present (outcome.nodes w low) label)
    refine ⟨fun w low l label' => ?_, fun w low l label stays => ?_⟩
    · obtain ⟨label, stays⟩ := (outcome.label w low l).1 label'
      have ends := (kept w low l label stays).ends
      rw [(labelled.valid _ (outcome.nodes w low) l label).2] at ends
      obtain ⟨x, start, eq⟩ := map_eq_some_iff.1 ends
      rw [node.injective eq] at start
      exact ⟨inRange w low l label stays, start⟩
    · exact ⟨l, (outcome.label w low l).2 ⟨label, stays⟩, kept w low l label stays⟩

end Survival

/-! ## Cancelled arcs -/

theorem getArray_of_ranked {α : Type} {A : Option (Attribute α)} {B : Attribute α} {count : ℕ}
    (ranked : Ranked A count) (array : getArray A = some B) : A = some B ∧ B.size = count := by
  obtain ⟨val, filled⟩ := filter_eq_some_iff.1 array
  refine ⟨val, (ranked B val).resolve_left fun empty => ?_⟩
  rw [List.eq_nil_of_length_eq_zero empty] at filled
  cases filled

theorem getArray_some {α : Type} {B : Attribute α} (filled : 0 < B.size) :
    getArray (some B) = some B := by
  refine filter_eq_some_iff.2 ⟨rfl, ?_⟩
  simpa using List.ne_nil_of_length_pos filled

section Cancelling

variable {st st' st1 st2 : LabelledGraph} {a u v : ℕ} {g : SparseGraph}

theorem run_lift {α : Type} (st : LabelledGraph) {x : GraphM α} {val : α} {graph : SparseGraph}
    (result : x st.graph = .ok val graph) : lift x st = .ok val { st with graph := graph } := by
  rw [lift, result]

theorem dropPred_spec (st : LabelledGraph) (lowV : v < st.graph.n)
    (n : st.graph.n = st.graph.rep.nAct) (ranked : Ranked st.predecessors st.graph.rep.nAct)
    (a : ℕ) :
    ∃ P, dropPred v a st = .ok () { st with predecessors := P } ∧ Ranked P st.graph.rep.nAct ∧
      ∀ w l, labelOf P w = some l ↔ labelOf st.predecessors w = some l ∧ ¬ (w = v ∧ l = a) := by
  have read : pred v st = .ok (labelOf st.predecessors v) st := by
    rw [pred, run_bind_get, if_neg (not_le.2 lowV)]
    rfl
  rw [dropPred, run_bind_ok read]
  by_cases denotes : labelOf st.predecessors v = some a
  · obtain ⟨A, array, val⟩ := bind_eq_some_iff.1 denotes
    obtain ⟨whole, size⟩ := getArray_of_ranked ranked array
    have low : v < A.size := by omega
    have array' : getArray (some (A.setValue v none)) = some (A.setValue v none) :=
      getArray_some (by rw [size_setValue]; omega)
    refine ⟨some (A.setValue v none), ?_, ?_, fun w l => ?_⟩
    · rw [if_pos denotes, setPred, run_bind_get, if_neg (not_le.2 lowV)]
      simp only [any_none, Bool.false_eq_true, if_false, array]
      rfl
    · intro B eq
      cases eq
      exact .inr ((size_setValue A v none).trans size)
    · simp only [labelOf, array', array, bind_some]
      rw [getValue_setValue A low]
      by_cases here : w = v
      · grind
      · simp [here]
  · refine ⟨st.predecessors, by rw [if_neg denotes, run_pure], ranked, fun w l => ?_⟩
    grind

/-- The attributes of the edges. -/
def edgeData (st : SparseGraph) :
    Option (ℕ → ℚ) × Option (Attribute ℚ) × Option (Attribute ℚ) × Option (Attribute ℚ) ×
      Option (Attribute ℕ) :=
  (st.sub, st.ucap, st.lcap, st.length, st.orientation)

/-- The arcs that are `gone` have been cancelled, and their labels have been dropped. -/
structure Cleared (st st' : LabelledGraph) (gone : ℕ → Prop) : Prop where
  labelled : st'.Labelled
  size : SparseState.SameSize st.graph.rep st'.graph.rep
  data : edgeData st'.graph = edgeData st.graph
  start : ∀ b, b < 2 * st.graph.rep.mAct →
    (gone b → st'.graph.rep.startNode b = none) ∧
      (¬ gone b → st'.graph.rep.startNode b = st.graph.rep.startNode b)
  label : ∀ w, w < st.graph.rep.nAct → ∀ l, labelOf st'.predecessors w = some l ↔
    labelOf st.predecessors w = some l ∧ ¬ gone l

theorem Filed.of_data {g' : SparseGraph} (filed : Filed g) (data : edgeData g' = edgeData g)
    (sound : g'.rep.Sound) (count : g'.rep.mAct = g.rep.mAct) : Filed g' := by
  simp only [edgeData, Prod.mk.injEq] at data
  obtain ⟨-, ucap, lcap, length, orientation⟩ := data
  refine ⟨sound, ?_, ?_, ?_, ?_⟩
  · rw [ucap, count]
    exact filed.ucap
  · rw [lcap, count]
    exact filed.lcap
  · rw [length, count]
    exact filed.length
  · rw [orientation, count]
    exact filed.orientation

theorem half_eq_iff {b : ℕ} : b / 2 = a / 2 ↔ b = a ∨ b = rev a := by
  rw [SparseState.rev_eq]
  split_ifs <;> omega

theorem half_rev (a : ℕ) : rev a / 2 = a / 2 := half_eq_iff.2 (.inr rfl)

section

variable (labelled : st.Labelled)
include labelled

/-- The incidence lists and the labels after an arc has been cancelled. -/
theorem Cleared.of_cancelled {P : Option (Attribute (Option ℕ))}
    (cancelled : Cancelled st.graph.rep a g.rep) (n : g.n = st.graph.n) (m : g.m = st.graph.m)
    (data : edgeData g = edgeData st.graph) (ranked : Ranked P st.graph.rep.nAct)
    (label : ∀ w, w < st.graph.rep.nAct → ∀ l, labelOf P w = some l ↔
      labelOf st.predecessors w = some l ∧ l / 2 ≠ a / 2) :
    Cleared st ⟨g, P⟩ fun b => b / 2 = a / 2 := by
  have nodes := cancelled.size.nAct
  have arcs := cancelled.size.mAct
  have start : ∀ b, (b / 2 = a / 2 → g.rep.startNode b = none) ∧
      (¬ b / 2 = a / 2 → g.rep.startNode b = st.graph.rep.startNode b) := by
    intro b
    rw [cancelled.startNode, half_eq_iff]
    constructor
    · rintro (rfl | rfl)
      · rw [update_of_ne (SparseState.rev_ne b).symm, update_self]
      · rw [update_self]
    · intro other
      obtain ⟨notA, notRev⟩ := not_or.1 other
      rw [update_of_ne notRev, update_of_ne notA]
  refine ⟨⟨n.trans (labelled.n.trans nodes.symm), m.trans (labelled.m.trans arcs.symm),
    labelled.filed.of_data data cancelled.sound arcs, nodes ▸ ranked, fun w low l kept => ?_⟩,
    cancelled.size, data, fun b _ => start b, label⟩
  have lowW : w < st.graph.rep.nAct := nodes ▸ low
  obtain ⟨old, other⟩ := (label w lowW l).1 kept
  obtain ⟨lowL, ends⟩ := labelled.valid w lowW l old
  have other' : ¬ rev l / 2 = a / 2 := by
    rw [half_rev]
    exact other
  exact ⟨arcs.symm ▸ lowL, ((start (rev l)).2 other').trans ends⟩

/-- `CancelArc` returns if it does so without labels, and drops the labels of the arc. -/
theorem cancelArc_spec (result : SparseGraph.cancelArc a st.graph = .ok () g) :
    ∃ P, cancelArc a st = .ok () ⟨g, P⟩ ∧ Cleared st ⟨g, P⟩ fun b => b / 2 = a / 2 := by
  obtain ⟨u, v, rep, s1, s2, low, startA, startRev, cancelled, marked, reported, rfl⟩ :=
    of_cancelArc_steps labelled.filed.sound result
  have nodes : ∀ b w, b < 2 * st.graph.rep.mAct → st.graph.rep.startNode b = some w →
      w < st.graph.rep.nAct := by
    intro b w lowB start
    obtain ⟨w', lowW, start'⟩ := labelled.filed.sound.linked.node b ⟨lowB, by simp [start]⟩
    rw [start] at start'
    cases start'
    exact lowW
  have lowU : u < st.graph.rep.nAct := nodes a u low startA
  have lowV : v < st.graph.rep.nAct := nodes _ v (SparseState.rev_lt.2 low) startRev
  rw [SparseGraph.cancelArc, run_bind_get, if_neg (not_le.2 low), startA] at result
  obtain ⟨v', s, named, result⟩ := of_run_bind result
  have named' : labelNode (st.graph.rep.startNode (rev a)) st.graph = .ok v st.graph := by
    rw [startRev]
    rfl
  rw [named'] at named
  cases named
  obtain ⟨_, s1', mark, result⟩ := of_run_bind result
  obtain ⟨_, s2', adjust, unlink⟩ := of_run_bind result
  have eq1 : s1' = s1 := (of_markAdjacency mark).trans marked.symm
  subst eq1
  have nodes1 : s1'.n = st.graph.n ∧ s1'.rep = st.graph.rep := by
    rw [marked]
    exact ⟨rfl, rfl⟩
  obtain ⟨P1, drop1, ranked1, label1⟩ := dropPred_spec ⟨s1', st.predecessors⟩ (v := v)
    (by rw [nodes1.1, labelled.n]; exact lowV) (by rw [nodes1.1, nodes1.2, labelled.n])
    (by rw [nodes1.2]; exact labelled.ranked) a
  obtain ⟨P2, drop2, ranked2, label2⟩ := dropPred_spec ⟨s1', P1⟩ (v := u)
    (by rw [nodes1.1, labelled.n]; exact lowU) (by rw [nodes1.1, nodes1.2, labelled.n]) ranked1
    (rev a)
  have kept : s2.n = st.graph.n ∧ s2.m = st.graph.m ∧ edgeData s2 = edgeData st.graph := by
    rcases reported with ⟨-, rfl⟩ | ⟨sub, -, adjusts⟩
    · rw [marked]
      exact ⟨rfl, rfl, rfl⟩
    · rw [(adjustDegrees_relabelled adjusts).same, marked]
      exact ⟨rfl, rfl, rfl⟩
  refine ⟨P2, ?_, .of_cancelled labelled cancelled kept.1 kept.2.1 kept.2.2 (nodes1.2 ▸ ranked2)
    fun w lowW l => ?_⟩
  · rw [cancelArc, run_bind_get, if_neg (not_le.2 low), startA]
    dsimp only
    rw [run_bind_ok (run_lift _ named'), run_bind_ok (run_lift _ mark), run_bind_ok drop1,
      run_bind_ok drop2, run_bind_ok (run_lift _ adjust), run_lift _ unlink]
  · rw [label2, label1, and_assoc]
    refine and_congr_right fun label => ?_
    have ends := (labelled.valid w lowW l label).2
    rw [ne_eq, half_eq_iff, not_or]
    refine and_congr (not_congr (and_iff_right_of_imp ?_)) (not_congr (and_iff_right_of_imp ?_))
    · rintro rfl
      exact some.inj (ends.symm.trans startRev)
    · rintro rfl
      rw [SparseState.rev_rev] at ends
      exact some.inj (ends.symm.trans startA)

/-- The arcs at a node. -/
def Incident (g : SparseGraph) (v b : ℕ) : Prop :=
  g.rep.startNode b = some v ∨ g.rep.startNode (rev b) = some v

instance (g : SparseGraph) (v b : ℕ) : Decidable (Incident g v b) :=
  inferInstanceAs (Decidable (_ ∨ _))

theorem Cleared.refl (none : ∀ b, b < 2 * st.graph.rep.mAct → ¬ gone b) : Cleared st st gone :=
  ⟨labelled, .refl _, rfl, fun b low => ⟨fun isGone => absurd isGone (none b low), fun _ => rfl⟩,
    fun w low l => ⟨fun label => ⟨label, none l (labelled.valid w low l label).1⟩, And.left⟩⟩

theorem Cleared.trans {p q : ℕ → Prop} (first : Cleared st st1 p) (second : Cleared st1 st2 q)
    (both : ∀ b, b < 2 * st.graph.rep.mAct → (gone b ↔ p b ∨ q b)) : Cleared st st2 gone := by
  refine ⟨second.labelled, first.size.trans second.size, second.data.trans first.data,
    fun b low => ?_, fun w low l => ?_⟩
  · have low1 : b < 2 * st1.graph.rep.mAct := first.size.mAct.symm ▸ low
    rw [both b low]
    refine ⟨fun isGone => ?_, fun stays => ?_⟩
    · by_cases later : q b
      · exact (second.start b low1).1 later
      · rw [(second.start b low1).2 later]
        exact (first.start b low).1 (isGone.resolve_right later)
    · obtain ⟨notP, notQ⟩ := not_or.1 stays
      rw [(second.start b low1).2 notQ, (first.start b low).2 notP]
  · have low1 : w < st1.graph.rep.nAct := first.size.nAct.symm ▸ low
    rw [second.label w low1, first.label w low, and_assoc]
    refine and_congr_right fun label => ?_
    rw [both l (labelled.valid w low l label).1, not_or]

end

theorem cancelNode_spec (st : LabelledGraph) (labelled : st.Labelled) (lowV : v < st.graph.rep.nAct)
    (result : SparseGraph.cancelNode v fuel st.graph = .ok () g) :
    ∃ P, cancelNode v fuel st = .ok () ⟨g, P⟩ ∧ Cleared st ⟨g, P⟩ (Incident st.graph v) ∧
      g.rep.first v = none := by
  induction fuel generalizing st with
  | zero => cases result
  | succ fuel ih =>
    rw [SparseGraph.cancelNode, run_bind_get] at result
    rw [cancelNode, run_bind_get]
    cases first : st.graph.rep.first v with
    | none =>
      rw [first] at result
      cases result
      refine ⟨st.predecessors, rfl, .refl labelled fun b low incident => ?_, first⟩
      have noArc := labelled.filed.sound.linked.firstNone v lowV first
      rcases incident with start | start
      · exact noArc b ⟨low, by simp [start]⟩ start
      · exact noArc _ ⟨SparseState.rev_lt.2 low, by simp [start]⟩ start
    | some a =>
      rw [first] at result
      obtain ⟨_, g1, cancel, result⟩ := of_run_bind result
      obtain ⟨⟨lowA, -⟩, startA⟩ := labelled.filed.sound.linked.firstSome v lowV a first
      obtain ⟨P1, cancel', cleared1⟩ := cancelArc_spec labelled cancel
      obtain ⟨P2, rest, cleared2, empty⟩ := ih ⟨g1, P1⟩ cleared1.labelled
        (cleared1.size.nAct.symm ▸ lowV) result
      refine ⟨P2, (run_bind_ok cancel').trans rest, cleared1.trans labelled cleared2
        fun b low => ?_, empty⟩
      by_cases isA : b / 2 = a / 2
      · refine iff_of_true ?_ (.inl isA)
        rcases half_eq_iff.1 isA with rfl | rfl
        · exact .inl startA
        · right
          rwa [SparseState.rev_rev]
      · have isA' : ¬ rev b / 2 = a / 2 := by
          rw [half_rev]
          exact isA
        rw [or_iff_right isA, Incident, Incident, (cleared1.start b low).2 isA,
          (cleared1.start _ (SparseState.rev_lt.2 low)).2 isA']

end Cancelling

/-! ## Removed edges -/

section Removing

variable {s g g' g1 g2 : SparseGraph} {node : Equiv.Perm ℕ} {a b c x y : ℕ}

theorem SameArc.trans (first : SameArc g g1 node a b) (second : SameArc g1 g2 1 b c) :
    SameArc g g2 node a c := by
  refine ⟨?_, ?_, second.length.trans first.length, second.uCap.trans first.uCap,
    second.lCap.trans first.lCap, second.subOf.trans first.subOf,
    second.blocking.trans first.blocking⟩
  · rw [← first.start, ← second.start, coe_one, map_id_fun, id]
  · rw [← first.ends, ← second.ends, coe_one, map_id_fun, id]

/-- The attributes of the edges decide what an arc is, apart from its end nodes. -/
theorem SameArc.of_data (data : edgeData g' = edgeData g)
    (start : (g'.rep.startNode b).map node = g.rep.startNode b)
    (ends : (g'.rep.startNode (rev b)).map node = g.rep.startNode (rev b)) :
    SameArc g g' node b b := by
  simp only [edgeData, Prod.mk.injEq] at data
  obtain ⟨sub, ucap, lcap, length, orientation⟩ := data
  exact ⟨start, ends, by rw [length], by rw [SparseGraph.uCap, SparseGraph.uCap, ucap],
    by rw [SparseGraph.lCap, SparseGraph.lCap, lcap],
    by simp only [SparseGraph.subOf, SparseGraph.lCap, sub, lcap],
    by simp only [SparseGraph.blocking, orientationOf, orientation]⟩

theorem edgeData_freeOfLayout : FreeOfLayout edgeData := fun _ _ _ _ _ _ _ => rfl

/-- The attributes after the last edge has taken the place of the edge of `x`. -/
def removedData (s : SparseGraph) (x : ℕ) :=
  edgeData ((if x = 2 * s.rep.mAct - 2 then s
    else s.swapEdges (x / 2) ((2 * s.rep.mAct - 2) / 2)).eraseItems .graphArcs 1)

theorem swapArcs_data (result : swapArcs x y g = .ok () g') :
    edgeData g' = edgeData (if x = y then g else g.swapEdges (x / 2) (y / 2)) := by
  obtain ⟨_, s1, swap, result⟩ := of_run_bind result
  obtain ⟨rep, swapped, rfl⟩ := of_onIncidences swap
  by_cases eq : x = y
  · rw [if_pos eq] at result ⊢
    cases result
    rfl
  rw [if_neg eq, run_bind_modify] at result
  rw [if_neg eq]
  refine (Keeps.of_ok (f := edgeData)
    (.ite (.pure _) (Keeps.get.bind fun s => ?_)) result).trans rfl
  cases getArray s.align with
  | none => exact .pure _
  | some align =>
    exact (edgeData_freeOfLayout.reverseBends _).bind fun _ =>
      .ite (edgeData_freeOfLayout.reverseBends _) (.pure _)

theorem eraseItems_data (eq : edgeData g' = edgeData g) :
    edgeData (g'.eraseItems .graphArcs 1) = edgeData (g.eraseItems .graphArcs 1) := by
  simp only [edgeData, Prod.mk.injEq] at eq
  obtain ⟨sub, ucap, lcap, length, orientation⟩ := eq
  simp only [edgeData, eraseItems, sub, ucap, lcap, length, orientation]

theorem swapEdges_data (eq : edgeData g' = edgeData g) (i j : ℕ) :
    edgeData (g'.swapEdges i j) = edgeData (g.swapEdges i j) := by
  simp only [edgeData, Prod.mk.injEq] at eq
  obtain ⟨sub, ucap, lcap, length, orientation⟩ := eq
  simp only [edgeData, swapEdges, sub, ucap, lcap, length, orientation]

theorem of_deleteArc_data (sound : g.rep.Sound) (result : SparseGraph.deleteArc a g = .ok () g') :
    a < 2 * g.rep.mAct ∧ ∃ s, ((g.rep.startNode (2 * (a / 2)) = none ∧ s = g) ∨
        SparseGraph.cancelArc (2 * (a / 2)) g = .ok () s) ∧ Removed s g' (2 * (a / 2)) ∧
      edgeData g' = removedData s (2 * (a / 2)) := by
  obtain ⟨low, s, origin, removed⟩ := of_deleteArc sound result
  refine ⟨low, s, origin, removed, ?_⟩
  rw [SparseGraph.deleteArc, run_bind_get, if_neg (not_le.2 low)] at result
  simp only [SparseState.and_rev] at result
  obtain ⟨_, s1, cancel, result⟩ := of_run_bind result
  obtain ⟨_, s2, release, result⟩ := of_run_bind result
  obtain ⟨_, s3, swap, result⟩ := of_run_bind result
  have eq : s1 = s := by
    rcases origin with ⟨present, rfl⟩ | cancelled
    · rw [if_neg (not_not.2 present)] at cancel
      cases cancel
      rfl
    by_cases present : g.rep.startNode (2 * (a / 2)) = none
    · rw [SparseGraph.cancelArc, run_bind_get, if_neg (by omega), present] at cancelled
      cases cancelled
    · rw [if_pos present, cancelled] at cancel
      cases cancel
      rfl
  subst eq
  have data2 : edgeData s2 = edgeData s1 :=
    (edgeData_freeOfLayout.releaseBendNodes _).discard.of_ok release
  have data3 := swapArcs_data swap
  have arcs : s1.rep.mAct = g.rep.mAct := by
    rcases origin with ⟨-, rfl⟩ | cancelled
    · rfl
    · obtain ⟨_, _, rep, -, -, -, gone, core1⟩ := of_cancelArc sound cancelled
      have rep1 : s1.rep = rep := congrArg Core.rep core1
      rw [rep1, gone.size.mAct]
  have data' : edgeData g' = edgeData (s3.eraseItems .graphArcs 1) := by
    cases result
    rfl
  rw [data', removedData, arcs]
  refine eraseItems_data (data3.trans ?_)
  split_ifs
  · exact data2
  · exact swapEdges_data data2 _ _

theorem movedArc_rev (x y b : ℕ) :
    SparseState.movedArc x y (rev b) = rev (SparseState.movedArc x y b) := by
  simp only [SparseState.movedArc]
  by_cases isX : b = x
  · subst isX
    rw [if_neg (SparseState.rev_ne b), if_pos rfl, if_pos rfl]
  by_cases isRev : b = rev x
  · subst isRev
    rw [SparseState.rev_rev, if_pos rfl, if_neg (SparseState.rev_ne x), if_pos rfl,
      SparseState.rev_rev]
  · have notX : rev b ≠ x := fun eq => isRev (by rw [← eq, SparseState.rev_rev])
    have notRev : rev b ≠ rev x := fun eq => isX (SparseState.rev_injective eq)
    rw [if_neg notX, if_neg notRev, if_neg isX, if_neg isRev]

theorem movedArc_of_ne (other : b / 2 ≠ x / 2) (y : ℕ) : SparseState.movedArc x y b = b := by
  obtain ⟨notX, notRev⟩ := not_or.1 fun either => other (half_eq_iff.2 either)
  rw [SparseState.movedArc, if_neg notX, if_neg notRev]

theorem half_movedArc (evenX : x % 2 = 0) (evenY : y % 2 = 0) (b : ℕ) :
    SparseState.movedArc x y b / 2 = (if b / 2 = x / 2 then y / 2 else b / 2) ∧
      SparseState.movedArc x y b % 2 = b % 2 := by
  rw [SparseState.movedArc, SparseState.rev_eq, SparseState.rev_eq]
  split_ifs <;> omega

/-- An attribute of the edges after the last one has taken the place of the edge `i`. -/
def movedItems {α : Type} (A : Option (Attribute α)) (i last : ℕ) : Option (Attribute α) :=
  (if i = last then A else A.map fun B => B.swapItems i last).map fun B => B.eraseItems 1

theorem ranked_movedItems {α : Type} {A : Option (Attribute α)} {i : ℕ}
    (ranked : Ranked A (last + 1)) : Ranked (movedItems A i last) last := by
  rw [movedItems]
  split_ifs
  · exact ranked.eraseItems
  · exact (ranked.swapItems _ _).eraseItems

/-- The arcs after the last edge has taken the place of the edge of `x`. -/
theorem sameArc_removed (filed : Filed s) (removed : Removed s g' x) (even : x % 2 = 0)
    (low : x < 2 * s.rep.mAct) (data : edgeData g' = removedData s x) :
    Filed g' ∧ ∀ b, b < 2 * g'.rep.mAct →
      SameArc s g' 1 (SparseState.movedArc x (2 * s.rep.mAct - 2) b) b := by
  have count := removed.count
  have half : (2 * s.rep.mAct - 2) / 2 = g'.rep.mAct := by omega
  have last : x = 2 * s.rep.mAct - 2 ↔ x / 2 = g'.rep.mAct := by omega
  have fields : edgeData g' = (if x / 2 = g'.rep.mAct then s.sub else s.sub.map fun sub =>
        update (update sub (x / 2) (sub g'.rep.mAct)) g'.rep.mAct (sub (x / 2)),
      movedItems s.ucap (x / 2) g'.rep.mAct, movedItems s.lcap (x / 2) g'.rep.mAct,
      movedItems s.length (x / 2) g'.rep.mAct, movedItems s.orientation (x / 2) g'.rep.mAct) := by
    rw [data, removedData, half]
    by_cases isLast : x / 2 = g'.rep.mAct
    · simp only [edgeData, eraseItems, movedItems, if_pos (last.2 isLast), if_pos isLast]
    · simp only [edgeData, eraseItems, movedItems, swapEdges, if_neg (mt last.1 isLast),
        if_neg isLast]
  simp only [edgeData, Prod.mk.injEq] at fields
  obtain ⟨sub, ucap, lcap, length, orientation⟩ := fields
  have filed' : Filed g' := by
    refine ⟨removed.sound, ?_, ?_, ?_, ?_⟩
    · rw [ucap]
      exact ranked_movedItems (count ▸ filed.ucap)
    · rw [lcap]
      exact ranked_movedItems (count ▸ filed.lcap)
    · rw [length]
      exact ranked_movedItems (count ▸ filed.length)
    · rw [orientation]
      exact ranked_movedItems (count ▸ filed.orientation)
  refine ⟨filed', fun b lowB => ?_⟩
  have lowE : b / 2 < g'.rep.mAct := by omega
  have lowX : x / 2 ≤ g'.rep.mAct := by omega
  obtain ⟨place, parity⟩ := half_movedArc even (show (2 * s.rep.mAct - 2) % 2 = 0 by omega) b
  rw [half] at place
  have val : ∀ {α : Type} (A : Option (Attribute α)) (default : α), Ranked A s.rep.mAct →
      valueOf (movedItems A (x / 2) g'.rep.mAct) default (b / 2) =
        valueOf A default (SparseState.movedArc x (2 * s.rep.mAct - 2) b / 2) := by
    intro α A default ranked
    rw [place]
    exact valueOf_removed (count ▸ ranked) lowX lowE
  have lower : g'.lCap b = s.lCap (SparseState.movedArc x (2 * s.rep.mAct - 2) b) := by
    change valueOf g'.lcap 0 (b / 2) = _
    rw [lcap]
    exact val s.lcap 0 filed.lcap
  refine ⟨?_, ?_, ?_, ?_, lower, ?_, ?_⟩
  · rw [coe_one, map_id_fun, id, removed.startNode b lowB]
  · rw [coe_one, map_id_fun, id, removed.startNode _ (SparseState.rev_lt.2 lowB), movedArc_rev]
  · rw [length]
    exact val s.length 1 filed.length
  · change valueOf g'.ucap 1 (b / 2) = _
    rw [ucap]
    exact val s.ucap 1 filed.ucap
  · cases present : s.sub with
    | none =>
      rw [present, map_none, ite_self] at sub
      simp only [subOf, sub, present, lower]
    | some f =>
      rw [present] at sub
      by_cases isLast : x / 2 = g'.rep.mAct
      · rw [if_pos isLast] at sub
        simp only [subOf, sub, present, place]
        rw [if_neg (by omega)]
      rw [if_neg isLast, map_some] at sub
      simp only [subOf, sub, present, place]
      rw [update_of_ne (by omega)]
      split_ifs with here
      · rw [here, update_self]
      · rw [update_of_ne here]
  · refine blocking_congr parity.symm ?_
    rw [orientation]
    exact val s.orientation 0 filed.orientation

end Removing

/-! ## Deleted arcs -/

section Deleting

variable {st : LabelledGraph} {g g' s : SparseGraph} {P : Option (Attribute (Option ℕ))} {a : ℕ}

theorem deleteArc_of_cancel (result : SparseGraph.deleteArc a st.graph = .ok () g')
    (labels : ∀ s, (if st.graph.rep.startNode (2 * (a / 2)) ≠ none then
        SparseGraph.cancelArc (2 * (a / 2)) else pure ()) st.graph = .ok () s →
      (if st.graph.rep.startNode (2 * (a / 2)) ≠ none then
        cancelArc (2 * (a / 2)) else pure ()) st = .ok () ⟨s, P⟩) :
    deleteArc a st = .ok () ⟨g', P⟩ := by
  rw [SparseGraph.deleteArc, run_bind_get] at result
  rw [deleteArc, run_bind_get]
  by_cases high : 2 * st.graph.rep.mAct ≤ a
  · rw [if_pos high] at result
    cases result
  rw [if_neg high] at result ⊢
  simp only [SparseState.and_rev] at result ⊢
  obtain ⟨_, s1, cancel, result⟩ := of_run_bind result
  obtain ⟨_, s2, release, result⟩ := of_run_bind result
  obtain ⟨_, s3, swap, result⟩ := of_run_bind result
  rw [run_bind_ok (labels s1 cancel), run_bind_ok (run_lift ⟨s1, P⟩ release),
    run_bind_ok (run_lift ⟨s2, P⟩ swap)]
  exact run_lift ⟨s3, P⟩ result

theorem deleteArc_dead (dead : st.graph.rep.startNode (2 * (a / 2)) = none)
    (result : SparseGraph.deleteArc a st.graph = .ok () g') :
    deleteArc a st = .ok () { st with graph := g' } := by
  refine deleteArc_of_cancel result fun s cancel => ?_
  rw [if_neg (not_not.2 dead)] at cancel ⊢
  cases cancel
  rfl

section

variable (labelled : st.Labelled) (result : SparseGraph.deleteArc a st.graph = .ok () g')
include labelled result

theorem deleteArc_spec :
    ∃ P s, deleteArc a st = .ok () ⟨g', P⟩ ∧ Cleared st ⟨s, P⟩ (fun b => b / 2 = a / 2) ∧
      Removed s g' (2 * (a / 2)) ∧ edgeData g' = removedData s (2 * (a / 2)) := by
  obtain ⟨low, s, origin, removed, data⟩ := of_deleteArc_data labelled.filed.sound result
  have half : 2 * (a / 2) / 2 = a / 2 := by omega
  by_cases present : st.graph.rep.startNode (2 * (a / 2)) = none
  · rcases origin with ⟨-, rfl⟩ | cancelled
    · have gone : ∀ b, b / 2 = a / 2 → st.graph.rep.startNode b = none := by
        intro b eq
        rw [← half, half_eq_iff] at eq
        rcases eq with rfl | rfl
        · exact present
        · exact (labelled.filed.sound.paired _ (by omega)).1 present
      refine ⟨st.predecessors, st.graph, deleteArc_dead present result, ⟨labelled, .refl _, rfl,
        fun b _ => ⟨gone b, fun _ => rfl⟩, fun w lowW l => ?_⟩, removed, data⟩
      exact ⟨fun label => ⟨label, fun eq => labelled.present lowW label (gone l eq)⟩, And.left⟩
    · rw [SparseGraph.cancelArc, run_bind_get, if_neg (by omega), present] at cancelled
      cases cancelled
  · have cancelled := origin.resolve_left fun dead => present dead.1
    obtain ⟨P, cancel, cleared⟩ := cancelArc_spec labelled cancelled
    rw [half] at cleared
    refine ⟨P, s, deleteArc_of_cancel result fun s' cancel' => ?_, cleared, removed, data⟩
    rw [if_pos present] at cancel' ⊢
    rw [cancelled] at cancel'
    cases cancel'
    exact cancel

theorem deleteArc_outcome : ∃ P, deleteArc a st = .ok () ⟨g', P⟩ ∧
      Outcome st ⟨g', P⟩ 1 (fun b => b / 2 = a / 2) ∧ g'.rep.nAct = st.graph.rep.nAct ∧
      g'.rep.mAct + 1 = st.graph.rep.mAct := by
  obtain ⟨P, s, run, cleared, removed, data⟩ := deleteArc_spec labelled result
  obtain ⟨low, -⟩ := of_deleteArc labelled.filed.sound result
  have half : 2 * (a / 2) / 2 = a / 2 := by omega
  have nodes : g'.rep.nAct = st.graph.rep.nAct := removed.nAct.trans cleared.size.nAct
  have arcs : s.rep.mAct = st.graph.rep.mAct := cleared.size.mAct
  obtain ⟨-, eq⟩ := sameArc_removed cleared.labelled.filed removed (by omega)
    (show 2 * (a / 2) < 2 * s.rep.mAct by omega) data
  refine ⟨P, run, ⟨fun w lowW => nodes ▸ lowW, fun w lowW => cleared.label w (nodes ▸ lowW),
    fun b lowB stays _ => ?_⟩, nodes, removed.count.trans arcs⟩
  have lowB' : b < 2 * st.graph.rep.mAct := by
    have count := removed.count
    dsimp only at lowB
    omega
  have moved := eq b lowB
  rw [movedArc_of_ne (by rw [half]; exact stays)] at moved
  have stays' : ¬ rev b / 2 = a / 2 := by
    rw [half_rev]
    exact stays
  refine (SameArc.of_data cleared.data ?_ ?_ : SameArc st.graph s 1 b b).trans moved
  · rw [coe_one, map_id_fun, id, (cleared.start b lowB').2 stays]
  · rw [coe_one, map_id_fun, id, (cleared.start _ (SparseState.rev_lt.2 lowB')).2 stays']

end

theorem liveCount_eq_sum (rep : SparseState) : rep.liveCount =
    ∑ e ∈ Finset.range rep.mAct, if rep.startNode (2 * e) ≠ none then 1 else 0 :=
  card_filter (fun e => rep.startNode (2 * e) ≠ none) (Finset.range rep.mAct)

theorem liveCount_removed {x : ℕ} (removed : Removed s g' x) (even : x % 2 = 0)
    (low : x < 2 * s.rep.mAct) (dead : s.rep.startNode x = none) :
    g'.rep.liveCount = s.rep.liveCount := by
  set f : ℕ → ℕ := fun e => if s.rep.startNode (2 * e) ≠ none then 1 else 0 with fEq
  have count := removed.count
  have place : ∀ e, e < g'.rep.mAct → (if g'.rep.startNode (2 * e) ≠ none then 1 else 0) =
      update f (x / 2) (f g'.rep.mAct) e := by
    intro e lowE
    have double : SparseState.movedArc x (2 * s.rep.mAct - 2) (2 * e) =
        2 * if e = x / 2 then g'.rep.mAct else e := by
      have evenLast : (2 * s.rep.mAct - 2) % 2 = 0 := by omega
      obtain ⟨half, parity⟩ := half_movedArc even evenLast (2 * e)
      split_ifs at half ⊢ <;> omega
    rw [removed.startNode _ (by omega), double, update_apply]
    by_cases here : e = x / 2
    · rw [if_pos here, if_pos here]
    · rw [if_neg here, if_neg here]
  have empty : f (x / 2) = 0 := by
    have double : 2 * (x / 2) = x := by omega
    simp only [fEq, double, dead]
    rfl
  rw [liveCount_eq_sum, liveCount_eq_sum, ← count, Finset.sum_range_succ,
    Finset.sum_congr rfl fun e mem => place e (mem_range.1 mem)]
  by_cases isLast : x / 2 = g'.rep.mAct
  · rw [← isLast, update_eq_self]
    change _ = _ + f (x / 2)
    rw [empty, Nat.add_zero]
  · have inside : x / 2 ∈ Finset.range g'.rep.mAct := mem_range.2 (by omega)
    rw [sum_update_of_mem inside, sum_eq_sum_sdiff_singleton_add inside f]
    rw [empty, Nat.add_zero, Nat.add_comm]

/-- All edges that are left are there, and those which have kept their indices are the same. -/
structure Packed (g g' : SparseGraph) : Prop where
  filed : Filed g'
  nAct : g'.rep.nAct = g.rep.nAct
  count : g'.rep.mAct = g.rep.liveCount
  full : ∀ b, b < 2 * g'.rep.mAct → g'.rep.startNode b ≠ none
  same : ∀ b, b < 2 * g'.rep.mAct → g.rep.startNode b ≠ none → SameArc g g' 1 b b

theorem SameArc.refl (g : SparseGraph) (b : ℕ) : SameArc g g 1 b b :=
  .of_data rfl (by rw [coe_one, map_id_fun, id]) (by rw [coe_one, map_id_fun, id])

theorem liveCount_of_full {rep : SparseState}
    (full : ∀ b, b < 2 * rep.mAct → rep.startNode b ≠ none) : rep.liveCount = rep.mAct := by
  have whole : ((List.range rep.mAct).filter fun e => rep.startNode (2 * e) ≠ none) =
      List.range rep.mAct := by
    refine List.filter_eq_self.2 fun e mem => decide_eq_true ?_
    exact full _ (by have := List.mem_range.1 mem; omega)
  rw [SparseState.liveCount, whole, List.length_range]

theorem deleteArcs_spec (st : LabelledGraph) (filed : Filed st.graph) (even : a % 2 = 0)
    (passed : ∀ b, b < a → b < 2 * st.graph.rep.mAct → st.graph.rep.startNode b ≠ none)
    (result : SparseGraph.deleteArcs fuel a st.graph = .ok () g') :
    deleteArcs fuel a st = .ok () { st with graph := g' } ∧ Packed st.graph g' := by
  induction fuel generalizing st a with
  | zero => cases result
  | succ fuel ih =>
    rw [SparseGraph.deleteArcs, run_bind_get] at result
    rw [deleteArcs, run_bind_get]
    by_cases inside : a < 2 * st.graph.rep.mAct
    · rw [if_pos inside] at result ⊢
      by_cases dead : st.graph.rep.startNode a = none
      · rw [if_pos dead] at result ⊢
        obtain ⟨_, g1, first, rest⟩ := of_run_bind result
        have double : 2 * (a / 2) = a := by omega
        have dead' : st.graph.rep.startNode (2 * (a / 2)) = none := double.symm ▸ dead
        obtain ⟨-, s, origin, removed, data⟩ := of_deleteArc_data filed.sound first
        have eq : s = st.graph := by
          rcases origin with ⟨-, rfl⟩ | cancelled
          · rfl
          · rw [SparseGraph.cancelArc, run_bind_get, if_neg (by omega), dead'] at cancelled
            cases cancelled
        subst eq
        rw [double] at removed data
        obtain ⟨filed1, eq⟩ := sameArc_removed filed removed even inside data
        have stays : ∀ b, b / 2 ≠ a / 2 →
            SparseState.movedArc a (2 * st.graph.rep.mAct - 2) b = b := fun b other =>
          movedArc_of_ne other _
        obtain ⟨run, packed⟩ := ih { st with graph := g1 } filed1 even (fun b before lowB => by
            rw [removed.startNode b lowB, stays b (by omega)]
            exact passed b before (by omega)) rest
        refine ⟨(run_bind_ok (deleteArc_dead dead' first)).trans run, packed.filed,
          packed.nAct.trans removed.nAct,
          packed.count.trans (liveCount_removed removed even inside dead), packed.full,
          fun b lowB live => ?_⟩
        have small : g'.rep.mAct ≤ g1.rep.mAct := by
          rw [packed.count]
          exact g1.rep.liveCount_le
        have other : b / 2 ≠ a / 2 := by
          intro eq
          rcases half_eq_iff.1 eq with rfl | rfl
          · exact live dead
          · exact live ((filed.sound.paired a inside).1 dead)
        have moved := eq b (by omega)
        rw [stays b other] at moved
        refine moved.trans (packed.same b lowB ?_)
        dsimp only
        rw [removed.startNode b (by omega), stays b other]
        exact live
      · rw [if_neg dead] at result ⊢
        refine ih st filed (by omega) (fun b before lowB => ?_) result
        rcases Nat.lt_or_ge b a with earlier | later
        · exact passed b earlier lowB
        · rcases half_eq_iff.1 (show b / 2 = a / 2 by omega) with rfl | rfl
          · exact dead
          · exact mt (filed.sound.paired a inside).2 dead
    · rw [if_neg inside] at result ⊢
      cases result
      have full : ∀ b, b < 2 * st.graph.rep.mAct → st.graph.rep.startNode b ≠ none :=
        fun b lowB => passed b (by omega) lowB
      exact ⟨rfl, filed, rfl, (liveCount_of_full full).symm, full, fun b _ _ => .refl _ b⟩

end Deleting

/-! ## Deleted nodes -/

section Nodes

variable {st : LabelledGraph} {g g' : SparseGraph} {P : Option (Attribute (Option ℕ))} {u v w : ℕ}

/-- The labels after the last node has taken the place of `v`. -/
theorem labelOf_movedItems (ranked : Ranked P (last + 1)) (lowV : v ≤ last) (lowW : w < last) :
    labelOf (movedItems P v last) w = labelOf P (Equiv.swap v last w) := by
  have place : Equiv.swap v last w = if w = v then last else w := by
    rw [swap_apply_def]
    split_ifs <;> omega
  rw [place]
  cases P with
  | none => simp [labelOf, movedItems, getArray]
  | some B =>
    have val : valueOf (movedItems (some B) v last) none w = _ :=
      valueOf_removed ranked lowV lowW
    rcases ranked B rfl with empty | full
    · have data : B.data = [] := List.eq_nil_of_length_eq_zero empty
      have eq : movedItems (some B) v last = some B := by
        simp [movedItems, Attribute.swapItems, Attribute.eraseItems, data]
      have absent : getArray (some B) = none :=
        filter_eq_none_iff.2 fun A is => by cases is; simp [data]
      rw [eq, labelOf, labelOf, absent, bind_none, bind_none]
    · obtain ⟨B', size', moved⟩ : ∃ B', B'.size = last ∧ movedItems (some B) v last = some B' := by
        rw [movedItems]
        split_ifs
        · exact ⟨_, size_eraseItems full 1, rfl⟩
        · exact ⟨_, size_eraseItems ((size_swapItems B v last).trans full) 1, rfl⟩
      rw [moved, labelOf, labelOf, getArray_some (by omega), getArray_some (by omega)]
      rw [moved] at val
      exact val

theorem of_swapNodes (sound : g.rep.Sound) (lowU : u < g.rep.nAct) (lowV : v < g.rep.nAct)
    (result : SparseGraph.swapNodes u v g = .ok () g') :
    g'.rep.Sound ∧ SparseState.SameSize g.rep g'.rep ∧ edgeData g' = edgeData g ∧
      (∀ a, a < 2 * g.rep.mAct → g'.rep.startNode a = (g.rep.startNode a).map (Equiv.swap u v)) ∧
      ∀ w, g'.rep.first w = g.rep.first (Equiv.swap u v w) := by
  rw [SparseGraph.swapNodes, run_bind_get] at result
  by_cases highU : g.lAct ≤ u
  · rw [if_pos highU] at result
    cases result
  by_cases highV : g.lAct ≤ v
  · rw [if_neg highU, if_pos highV] at result
    cases result
  by_cases eq : u = v
  · rw [if_neg highU, if_neg highV, if_pos eq] at result
    cases result
    subst eq
    exact ⟨sound, .refl _, rfl, by simp, by simp⟩
  rw [if_neg highU, if_neg highV, if_neg eq, run_bind_modify, run_bind_modify,
    if_neg (by omega)] at result
  obtain ⟨rep, swapped, rfl⟩ := of_onIncidences result
  have rep1 : (g.exchangeReferences u v).rep = g.rep :=
    congrArg Core.rep (core_freeOfLayout.exchangeReferences g u v)
  rw [rep1] at swapped
  obtain ⟨rep', swapped', sound', size, start, first⟩ := SparseState.swapNodes_spec sound lowU lowV
  rw [swapped] at swapped'
  cases swapped'
  exact ⟨sound', size, edgeData_freeOfLayout.exchangeReferences g u v, start, first⟩

/-- The number of edges that are not at the node. -/
def edgesApart (g : SparseGraph) (v : ℕ) : ℕ :=
  ((List.range g.rep.mAct).filter fun e =>
    g.rep.startNode (2 * e) ≠ none ∧ ¬ Incident g v (2 * e)).length

/-- The graph and the labels in front of `DeleteArcs`. The node `v` has no arcs, and the last node
has taken its place. -/
structure Renumbered (st : LabelledGraph) (v : ℕ) (g : SparseGraph)
    (P : Option (Attribute (Option ℕ))) : Prop where
  filed : Filed g
  nAct : g.rep.nAct + 1 = st.graph.rep.nAct
  mAct : g.rep.mAct = st.graph.rep.mAct
  data : edgeData g = edgeData st.graph
  start : ∀ b, b < 2 * st.graph.rep.mAct →
    (Incident st.graph v b → g.rep.startNode b = none) ∧
      (¬ Incident st.graph v b → g.rep.startNode b =
        (st.graph.rep.startNode b).map (Equiv.swap v (st.graph.rep.nAct - 1)))
  label : ∀ w, w < g.rep.nAct → ∀ l, labelOf P w = some l ↔
    labelOf st.predecessors (Equiv.swap v (st.graph.rep.nAct - 1) w) = some l ∧
      ¬ Incident st.graph v l

theorem Renumbered.liveCount (renumbered : Renumbered st v g P) :
    g.rep.liveCount = edgesApart st.graph v := by
  rw [SparseState.liveCount, edgesApart, renumbered.mAct]
  refine congrArg List.length (List.filter_congr fun e mem => decide_eq_decide.2 ?_)
  have low : 2 * e < 2 * st.graph.rep.mAct := by
    have := List.mem_range.1 mem
    omega
  obtain ⟨gone, stays⟩ := renumbered.start _ low
  by_cases incident : Incident st.graph v (2 * e)
  · simp [incident, gone incident]
  · simp [incident, stays incident]

theorem swap_lt (lowV : v ≤ last) (lowW : w ≤ last) : Equiv.swap v last w ≤ last := by
  rw [swap_apply_def]
  split_ifs <;> omega

/-- What `DeleteNode` has done when `DeleteArcs` has returned. -/
theorem Renumbered.outcome (renumbered : Renumbered st v g P) (lowV : v < st.graph.rep.nAct)
    (packed : Packed g g') :
    Outcome st ⟨g', P⟩ (Equiv.swap v (st.graph.rep.nAct - 1)) (Incident st.graph v) ∧
      g'.rep.mAct = edgesApart st.graph v := by
  have nodes := renumbered.nAct
  have nodes' := packed.nAct
  have small : g'.rep.mAct ≤ st.graph.rep.mAct := by
    rw [packed.count, ← renumbered.mAct]
    exact g.rep.liveCount_le
  refine ⟨⟨fun w lowW => ?_, fun w lowW => renumbered.label w (nodes' ▸ lowW),
    fun b lowB stays live => ?_⟩, packed.count.trans renumbered.liveCount⟩
  · dsimp only at lowW
    have below : Equiv.swap v (st.graph.rep.nAct - 1) w ≤ st.graph.rep.nAct - 1 :=
      swap_lt (by omega) (by omega)
    omega
  · dsimp only at lowB
    have low : b < 2 * st.graph.rep.mAct := by omega
    have stays' : ¬ Incident st.graph v (rev b) := by
      rw [Incident, SparseState.rev_rev, or_comm]
      exact stays
    have back : ∀ x : Option ℕ, (x.map (Equiv.swap v (st.graph.rep.nAct - 1))).map
        (Equiv.swap v (st.graph.rep.nAct - 1)) = x := by
      intro x
      cases x with
      | none => rfl
      | some w => simp
    have start := (renumbered.start b low).2 stays
    refine (SameArc.of_data renumbered.data ?_ ?_ :
      SameArc st.graph g (Equiv.swap v (st.graph.rep.nAct - 1)) b b).trans (packed.same b lowB ?_)
    · rw [start, back]
    · rw [(renumbered.start _ (SparseState.rev_lt.2 low)).2 stays', back]
    · rw [start]
      simpa using live

theorem swapNodes_run (st : LabelledGraph) (lowU : u < st.graph.rep.nAct)
    (lowV : v < st.graph.rep.nAct) (result : SparseGraph.swapNodes u v st.graph = .ok () g') :
    swapNodes u v st = .ok () ⟨g', if u = v then st.predecessors
      else st.predecessors.map fun A => A.swapItems u v⟩ := by
  rw [swapNodes, run_bind_get, run_bind_ok (run_lift _ result)]
  by_cases eq : u = v
  · rw [if_pos (.inl eq), if_pos eq]
    rfl
  · rw [if_neg (by omega), if_neg eq]
    rfl

theorem swapNodes_layout (layout : st.graph.rep.nAct ≤ v)
    (result : SparseGraph.swapNodes u v st.graph = .ok () g') :
    swapNodes u v st = .ok () { st with graph := g' } := by
  rw [swapNodes, run_bind_get, run_bind_ok (run_lift _ result), if_pos (.inr (.inr layout))]
  rfl

theorem deleteNode_outcome (labelled : st.Labelled) (lowV : v < st.graph.rep.nAct)
    (result : SparseGraph.deleteNode v st.graph = .ok () g') :
    ∃ P, deleteNode v st = .ok () ⟨g', P⟩ ∧
      Outcome st ⟨g', P⟩ (Equiv.swap v (st.graph.rep.nAct - 1)) (Incident st.graph v) ∧
      g'.rep.nAct + 1 = st.graph.rep.nAct ∧ g'.rep.mAct = edgesApart st.graph v := by
  obtain ⟨high, result⟩ := of_run_check result
  rw [if_pos lowV] at result
  obtain ⟨_, g8, result, final⟩ := of_run_bind result
  rw [run_bind_modify] at result
  obtain ⟨_, g2, cancel, result⟩ := of_run_bind result
  obtain ⟨_, g3, release, result⟩ := of_run_bind result
  obtain ⟨_, g4, swap, result⟩ := of_run_bind result
  rw [run_bind_get] at result
  obtain ⟨_, g5, mixed, result⟩ := of_run_bind result
  -- the labels of the arcs at the node are dropped
  obtain ⟨P, cancel', cleared, empty⟩ := cancelNode_spec
    ⟨{ st.graph with adj := none, sDeg := none, sDegInOut := none }, st.predecessors⟩
    ⟨labelled.n, labelled.m, ⟨labelled.filed.sound, labelled.filed.ucap, labelled.filed.lcap,
      labelled.filed.length, labelled.filed.orientation⟩, labelled.ranked, labelled.valid⟩
    lowV cancel
  have nodes2 : g2.rep.nAct = st.graph.rep.nAct := cleared.size.nAct
  have arcs2 : g2.rep.mAct = st.graph.rep.mAct := cleared.size.mAct
  have rep3 : g3.rep = g2.rep :=
    congrArg Core.rep ((core_freeOfLayout.releaseShapeNodes v).discard.of_ok release)
  have data3 : edgeData g3 = edgeData g2 :=
    (edgeData_freeOfLayout.releaseShapeNodes v).discard.of_ok release
  -- the last node takes the place of `v`
  have sound2 : g2.rep.Sound := cleared.labelled.filed.sound
  obtain ⟨sound4, size4, data4, start4, first4⟩ := of_swapNodes (rep3 ▸ sound2)
    (by rw [rep3, nodes2]; exact lowV) (by rw [rep3, nodes2]; omega) swap
  rw [rep3] at size4 start4 first4
  have nodes4 : g4.rep.nAct = st.graph.rep.nAct := size4.nAct.trans nodes2
  have arcs4 : g4.rep.mAct = st.graph.rep.mAct := size4.mAct.trans arcs2
  have kept5 : g5.rep = g4.rep ∧ edgeData g5 = edgeData g4 := by
    by_cases more : g4.rep.nAct < g4.lAct
    · rw [if_pos more] at mixed
      have layout : g4.rep.nAct ≤ g4.rep.nAct - 1 ∨ g4.rep.nAct ≤ g4.lAct - 1 := .inr (by omega)
      exact ⟨congrArg Core.rep ((core_freeOfLayout.swapNodes layout).of_ok mixed),
        (edgeData_freeOfLayout.swapNodes layout).of_ok mixed⟩
    · rw [if_neg more] at mixed
      cases mixed
      exact ⟨rfl, rfl⟩
  obtain ⟨rep5, data5⟩ := kept5
  set g6 : SparseGraph := { (g5.eraseItems .graphNodes 1).eraseItems .layoutNodes 1 with
    rep := { g5.rep with nAct := g5.rep.nAct - 1 }, lAct := g5.lAct - 1 } with g6Eq
  have data6 : edgeData g6 = edgeData st.graph :=
    (show edgeData g6 = edgeData g5 from rfl).trans
      (data5.trans (data4.trans (data3.trans cleared.data)))
  have renumbered : Renumbered st v g6 (movedItems P v (st.graph.rep.nAct - 1)) := by
    have one : st.graph.rep.nAct - 1 + 1 = st.graph.rep.nAct := by omega
    refine ⟨labelled.filed.of_data data6 ?_ ?_, ?_, ?_, data6, fun b low => ?_, fun w lowW l => ?_⟩
    · change ({ g5.rep with nAct := g5.rep.nAct - 1 } : SparseState).Sound
      rw [rep5]
      refine sound4.dropNode (by omega) ?_
      rw [first4, nodes4, swap_apply_right]
      exact empty
    · change g5.rep.mAct = _
      rw [rep5, arcs4]
    · change g5.rep.nAct - 1 + 1 = _
      rw [rep5, nodes4, one]
    · change g5.rep.mAct = _
      rw [rep5, arcs4]
    · obtain ⟨gone, stays⟩ := cleared.start b low
      change (Incident st.graph v b → g5.rep.startNode b = none) ∧
        (¬ Incident st.graph v b → g5.rep.startNode b = _)
      rw [rep5, start4 b (arcs2.symm ▸ low)]
      refine ⟨fun incident => ?_, fun apart => ?_⟩
      · rw [gone incident, map_none]
      · rw [stays apart]
    · change w < g5.rep.nAct - 1 at lowW
      rw [rep5, nodes4] at lowW
      have ranked := cleared.labelled.ranked
      rw [show g2.rep.nAct = st.graph.rep.nAct - 1 + 1 by omega] at ranked
      rw [labelOf_movedItems ranked (by omega) lowW]
      have below : Equiv.swap v (st.graph.rep.nAct - 1) w ≤ st.graph.rep.nAct - 1 :=
        swap_lt (by omega) (by omega)
      exact cleared.label _ (show _ < st.graph.rep.nAct by omega) l
  obtain ⟨rest, packed⟩ := deleteArcs_spec
    ⟨g6, movedItems P v (st.graph.rep.nAct - 1)⟩ renumbered.filed rfl
    (fun b before => absurd before (Nat.not_lt_zero b)) result
  have packed' : Packed g6 g' := by
    cases final
    exact ⟨⟨packed.filed.sound, packed.filed.ucap, packed.filed.lcap, packed.filed.length,
      packed.filed.orientation⟩, packed.nAct, packed.count, packed.full, fun b low live =>
        (packed.same b low live).trans (.of_data rfl (SameArc.refl g8 b).start
          (SameArc.refl g8 b).ends)⟩
  obtain ⟨outcome, count⟩ := renumbered.outcome lowV packed'
  refine ⟨movedItems P v (st.graph.rep.nAct - 1), ?_, outcome, ?_, count⟩
  · have lowLast : st.graph.rep.nAct - 1 < st.graph.rep.nAct := by omega
    have swap' := swapNodes_run ⟨g3, P⟩ (by rw [rep3, nodes2]; exact lowV)
      (by rw [rep3, nodes2]; exact lowLast) swap
    have mixed' : (if g4.rep.nAct < g4.lAct then swapNodes (g4.rep.nAct - 1) (g4.lAct - 1)
        else pure ()) ⟨g4, movedItems P v (st.graph.rep.nAct - 1)⟩ =
        .ok () ⟨g5, movedItems P v (st.graph.rep.nAct - 1)⟩ := by
      by_cases more : g4.rep.nAct < g4.lAct
      · rw [if_pos more] at mixed ⊢
        exact swapNodes_layout (by dsimp only; omega) mixed
      · rw [if_neg more] at mixed ⊢
        cases mixed
        rfl
    rw [deleteNode, run_bind_get, if_neg high, if_pos lowV]
    refine (run_bind_ok (?_ : _ = EStateM.Result.ok () (LabelledGraph.mk g8 _))).trans
      (run_lift _ final)
    rw [run_bind_ok (run_lift _ (run_modify _ _)), run_bind_ok cancel',
      run_bind_ok (run_lift ⟨g2, P⟩ release), run_bind_ok swap', run_bind_modify,
      run_bind_get]
    refine (run_bind_ok mixed').trans ?_
    exact rest
  · have nodes := renumbered.nAct
    rw [packed'.nAct]
    exact nodes

theorem deleteNode_layout (layout : st.graph.rep.nAct ≤ v)
    (result : SparseGraph.deleteNode v st.graph = .ok () g') :
    deleteNode v st = .ok () ⟨g', st.predecessors⟩ ∧
      Outcome st ⟨g', st.predecessors⟩ 1 (fun _ => False) ∧ g'.rep = st.graph.rep := by
  obtain ⟨high, result⟩ := of_run_check result
  rw [if_neg (not_lt.2 layout)] at result
  obtain ⟨_, g1, erase, final⟩ := of_run_bind result
  have rep1 : g1.rep = st.graph.rep := congrArg Core.rep
    (((core_freeOfLayout.bypass v).bind fun _ => core_freeOfLayout.eraseLayoutNode v).of_ok erase)
  have data1 : edgeData g1 = edgeData st.graph :=
    ((edgeData_freeOfLayout.bypass v).bind fun _ =>
      edgeData_freeOfLayout.eraseLayoutNode v).of_ok erase
  have kept : g'.rep = st.graph.rep ∧ edgeData g' = edgeData st.graph := by
    cases final
    exact ⟨rep1, data1⟩
  obtain ⟨rep, data⟩ := kept
  refine ⟨?_, ⟨fun w lowW => ?_, fun w _ l => by simp, fun b _ _ _ => .of_data data ?_ ?_⟩, rep⟩
  · rw [deleteNode, run_bind_get, if_neg high, if_neg (not_lt.2 layout),
      run_bind_ok (run_lift _ erase)]
    exact run_lift ⟨g1, st.predecessors⟩ final
  · rwa [rep] at lowW
  · rw [rep, coe_one, map_id_fun, id]
  · rw [rep, coe_one, map_id_fun, id]

end Nodes

/-! ## Correctness -/

/-- **When predecessor labels survive.** The deletions return as they do without labels. After
`DeleteArc`, the labels are correct if and only if the arc belonged to the last edge or no label
denoted the last edge. After `DeleteNode`, they are correct if and only if the labels of arcs which
were not at the node had indices that are still in use. Layout nodes can be deleted without harm. -/
theorem labels_survive_iff {st : LabelledGraph} (labelled : st.Labelled) :
    (∀ a g', SparseGraph.deleteArc a st.graph = .ok () g' →
      ∃ st', deleteArc a st = .ok () st' ∧ st'.graph = g' ∧
        (Survive st st' 1 (fun b => b / 2 = a / 2) ↔ a / 2 + 1 = st.graph.rep.mAct ∨
          ∀ w, w < st.graph.rep.nAct → ∀ l, labelOf st.predecessors w = some l →
            l / 2 + 1 ≠ st.graph.rep.mAct)) ∧
    (∀ v g', v < st.graph.rep.nAct → SparseGraph.deleteNode v st.graph = .ok () g' →
      ∃ st', deleteNode v st = .ok () st' ∧ st'.graph = g' ∧
        (Survive st st' (Equiv.swap v (st.graph.rep.nAct - 1)) (Incident st.graph v) ↔
          ∀ w, w < st.graph.rep.nAct → ∀ l, labelOf st.predecessors w = some l →
            ¬ Incident st.graph v l → l < 2 * edgesApart st.graph v)) ∧
    ∀ v g', st.graph.rep.nAct ≤ v → SparseGraph.deleteNode v st.graph = .ok () g' →
      ∃ st', deleteNode v st = .ok () st' ∧ st'.graph = g' ∧ Survive st st' 1 fun _ => False := by
  refine ⟨fun a g' result => ?_, fun v g' lowV result => ?_, fun v g' layout result => ?_⟩
  · obtain ⟨P, run, outcome, nodes, arcs⟩ := deleteArc_outcome labelled result
    refine ⟨_, run, rfl, (outcome.survive_iff labelled).trans ?_⟩
    simp only [coe_one, id]
    rw [nodes]
    constructor
    · intro inRange
      by_cases isLast : a / 2 + 1 = st.graph.rep.mAct
      · exact .inl isLast
      · refine .inr fun w lowW l label last => ?_
        have := inRange w lowW l label (by omega)
        omega
    · intro harmless w lowW l label stays
      have lowL := (labelled.valid w lowW l label).1
      rcases harmless with isLast | unused
      · omega
      · have := unused w lowW l label
        omega
  · obtain ⟨P, run, outcome, nodes, arcs⟩ := deleteNode_outcome labelled lowV result
    refine ⟨_, run, rfl, (outcome.survive_iff labelled).trans ?_⟩
    rw [arcs]
    constructor
    · intro inRange w lowW l label stays
      have other : w ≠ v := by
        rintro rfl
        exact stays (.inr (labelled.valid w lowW l label).2)
      have below : Equiv.swap v (st.graph.rep.nAct - 1) w < g'.rep.nAct := by
        rw [swap_apply_def]
        split_ifs <;> omega
      refine inRange _ below l ?_ stays
      rwa [swap_apply_self]
    · intro inRange w lowW l label stays
      exact inRange _ (outcome.nodes w lowW) l label stays
  · obtain ⟨run, outcome, rep⟩ := deleteNode_layout layout result
    refine ⟨_, run, rfl, (outcome.survive_iff labelled).2 fun w lowW l label _ => ?_⟩
    rw [rep] at lowW ⊢
    exact (labelled.valid w lowW l label).1

/-- A path with two arcs and its labels. -/
def path : LabelM Unit := do
  lift (discard (insertArc 0 1 1 1 0))
  lift (discard (insertArc 1 2 1 1 0))
  setPred 1 (some 0)
  setPred 2 (some 2)

theorem path_labelled {st : LabelledGraph} (result : path ⟨new 3 100 100 none, none⟩ = .ok () st) :
    st.Labelled := by
  have reach1 : SparseReach 3 100 100 _ := .step (.insertArc 0 1) .start (by decide) rfl
  have reach2 : SparseReach 3 100 100 _ := .step (.insertArc 1 2) reach1 (by decide) rfl
  have facts : SparseReach 3 100 100 st.graph.rep ∧ st.graph.n = 3 ∧ st.graph.m = 2 ∧
      st.graph.rep.nAct = 3 ∧ st.graph.rep.mAct = 2 ∧ st.graph.ucap = none ∧
      st.graph.lcap = none ∧ st.graph.length = none ∧ st.graph.orientation = none ∧
      st.predecessors = some ⟨[none, some 0, some 2], none⟩ ∧
      st.graph.rep.startNode 1 = some 1 ∧ st.graph.rep.startNode 3 = some 2 := by
    cases result
    exact ⟨reach2, rfl, rfl, rfl, rfl, rfl, rfl, rfl, rfl, rfl, rfl, rfl⟩
  obtain ⟨reach, n, m, nodes, arcs, ucap, lcap, length, orientation, labels, at1, at3⟩ := facts
  have absent : ∀ {α : Type} {A : Option (Attribute α)} {k : ℕ}, A = none → Ranked A k := by
    rintro α A k rfl B val
    cases val
  refine ⟨n.trans nodes.symm, m.trans arcs.symm, ⟨SparseState.reach_sound reach, absent ucap,
    absent lcap, absent length, absent orientation⟩, ?_, fun w low l label => ?_⟩
  · rw [labels, nodes]
    rintro B ⟨⟩
    exact .inr rfl
  · rw [nodes] at low
    rw [labels] at label
    rw [arcs]
    interval_cases w
    · cases label
    · cases label
      exact ⟨by decide, at1⟩
    · cases label
      exact ⟨by decide, at3⟩

/-- Deleting the last arc, or the last node. -/
theorem labels_survive_last : ∃ st st1 st2, path ⟨new 3 100 100 none, none⟩ = .ok () st ∧
    deleteArc 2 st = .ok () st1 ∧ Survive st st1 1 (fun b => b / 2 = 2 / 2) ∧
    deleteNode 2 st = .ok () st2 ∧
    Survive st st2 (Equiv.swap 2 (st.graph.rep.nAct - 1)) (Incident st.graph 2) := by
  obtain ⟨st, result⟩ : ∃ st, path ⟨new 3 100 100 none, none⟩ = .ok () st := ⟨_, rfl⟩
  have facts : st.graph.rep.mAct = 2 ∧ st.graph.rep.nAct = 3 ∧
      (∃ a g, SparseGraph.deleteArc 2 st.graph = .ok a g ∧ true = true) ∧
      (∃ a g, SparseGraph.deleteNode 2 st.graph = .ok a g ∧ true = true) ∧
      st.predecessors = some ⟨[none, some 0, some 2], none⟩ ∧ edgesApart st.graph 2 = 1 ∧
      Incident st.graph 2 2 := by
    cases result
    exact ⟨rfl, rfl, exists_run (by decide +kernel), exists_run (by decide +kernel), rfl, rfl,
      .inr rfl⟩
  obtain ⟨arcs, nodes, ⟨_, g1, arc, -⟩, ⟨_, g2, node, -⟩, labels, apart, last⟩ := facts
  obtain ⟨arcIff, nodeIff, -⟩ := labels_survive_iff (path_labelled result)
  obtain ⟨st1, run1, -, iff1⟩ := arcIff 2 g1 arc
  obtain ⟨st2, run2, -, iff2⟩ := nodeIff 2 g2 (by omega) node
  refine ⟨st, st1, st2, result, run1, iff1.2 (.inl (by omega)), run2,
    iff2.2 fun w low l label stays => ?_⟩
  rw [nodes] at low
  rw [labels] at label
  rw [apart]
  interval_cases w
  · cases label
  · cases label
    decide
  · cases label
    exact absurd last stays

/-- Deleting the first arc, or the first node. The label of the last node denotes no arc
afterwards. -/
theorem labels_lost : ∃ st st1 st2, path ⟨new 3 100 100 none, none⟩ = .ok () st ∧ st.Labelled ∧
    deleteArc 0 st = .ok () st1 ∧ ¬ Survive st st1 1 (fun b => b / 2 = 0 / 2) ∧
    deleteNode 0 st = .ok () st2 ∧
    ¬ Survive st st2 (Equiv.swap 0 (st.graph.rep.nAct - 1)) (Incident st.graph 0) := by
  obtain ⟨st, result⟩ : ∃ st, path ⟨new 3 100 100 none, none⟩ = .ok () st := ⟨_, rfl⟩
  have runs : (∃ a st1, deleteArc 0 st = .ok a st1 ∧ decide (2 < st1.graph.rep.nAct ∧
        labelOf st1.predecessors 2 = some 2 ∧ st1.graph.rep.mAct = 1) = true) ∧
      ∃ a st2, deleteNode 0 st = .ok a st2 ∧ decide (0 < st2.graph.rep.nAct ∧
        labelOf st2.predecessors 0 = some 2 ∧ st2.graph.rep.mAct = 1) = true := by
    cases result
    exact ⟨exists_run (by decide +kernel), exists_run (by decide +kernel)⟩
  obtain ⟨⟨_, st1, run1, after1⟩, ⟨_, st2, run2, after2⟩⟩ := runs
  obtain ⟨low1, label1, arcs1⟩ := of_decide_eq_true after1
  obtain ⟨low2, label2, arcs2⟩ := of_decide_eq_true after2
  refine ⟨st, st1, st2, result, path_labelled result, run1, fun survive => ?_, run2,
    fun survive => ?_⟩
  · have := (survive.1 2 low1 2 label1).1
    omega
  · have := (survive.1 0 low2 2 label2).1
    omega

end LabelledGraph

end Goblin
