import Goblin.Augment
import Goblin.Library.CircularList

/-!
# Incidence lists

A `sparseRepresentation` keeps the arcs that leave a node in a circular list:
`first` is an arc of the list, and `right` leads from one arc to the next. The array
`left` with the reverse links is built by the first call of `Left` and maintained
from then on. Arcs that have been cancelled have no start node and no links.

Arcs and nodes are array indices, and `none` stands for `NoArc` and `NoNode`. Only
the entries below `2 * mAct` and `nMax` are meaningful; what is beyond is what former
arcs have left behind.
-/

set_option autoImplicit false

namespace Goblin

open Library Function

/-- The arrays of a `sparseRepresentation`, with `maxNode` and `maxArc` from the
controller. -/
structure SparseState where
  nAct : ℕ
  nMax : ℕ
  mAct : ℕ
  mMax : ℕ
  maxNode : ℕ
  maxArc : ℕ
  startNode : ℕ → Option ℕ
  first : ℕ → Option ℕ
  right : ℕ → Option ℕ
  left : Option (ℕ → Option ℕ)

namespace SparseState

/-- The reverse arc, `a ^ 1`. -/
def rev (a : ℕ) : ℕ := a ^^^ 1

/-- The constructor, for a graph with `n` nodes and without arcs. -/
def new (n maxNode maxArc : ℕ) : SparseState where
  nAct := n
  nMax := n
  mAct := 0
  mMax := 0
  maxNode := maxNode
  maxArc := maxArc
  startNode := fun _ => none
  first := fun _ => none
  right := fun _ => none
  left := none

variable (st : SparseState)

/-! ## Links -/

/-- One step of the loop by which `Left` builds the reverse links. -/
def reverseLink (left : ℕ → Option ℕ) (a : ℕ) : Except Raise (ℕ → Option ℕ) :=
  match st.right a with
  | none => .ok left
  | some r =>
    match left r with
    | none => .ok (update left r (some a))
    | some _ => .error (.internal "Left" "Inconsistent incidence lists")

/-- Build the reverse links unless they are present. -/
def allocLeft : Except Raise (SparseState × (ℕ → Option ℕ)) :=
  match st.left with
  | some left => .ok (st, left)
  | none => do
    let left ← (List.range (2 * st.mAct)).foldlM st.reverseLink fun _ => none
    return ({ st with left := some left }, left)

/-- `Left` -/
def leftArc (a : ℕ) : Except Raise (SparseState × Option ℕ) :=
  if 2 * st.mAct ≤ a then .error (.range "Left" "No such arc")
  else do
    let (st, left) ← st.allocLeft
    return (st, left a)

def setFirst (v a : ℕ) : Except Raise SparseState :=
  if st.nAct ≤ v then .error (.range "SetFirst" "No such node")
  else if st.startNode a ≠ some v then .error (.rejected "SetFirst" "Mismatching start node")
  else .ok { st with first := update st.first v (some a) }

/-- The loop of `MarkExteriorFace`. -/
def faceLoop (exteriorArc : ℕ) : ℕ → ℕ → SparseState → Except Raise SparseState
  | 0, _, _ => .error .fuel
  | count + 1, a, st => do
    let v ← defined (st.startNode (rev a))
    let st ← st.setFirst v (rev a)
    let next ← defined (st.right (rev a))
    if next = exteriorArc then return st else faceLoop exteriorArc count next st

def markExteriorFace (exteriorArc : ℕ) : Except Raise SparseState :=
  faceLoop exteriorArc (2 * st.mAct) exteriorArc st

/-- Put an arc behind the first arc of a node; half of `SetRouting`. -/
def linkArc (a u : ℕ) : Except Raise SparseState :=
  match st.first u with
  | none => .ok { st with
      first := update st.first u (some a)
      right := update st.right a (some a)
      left := st.left.map fun left => update left a (some a) }
  | some f => do
    let next ← defined (st.right f)
    return { st with
      first := update st.first u (some a)
      right := update (update st.right a (some next)) f (some a)
      left := st.left.map fun left =>
        update (update left next (some a)) a (some f) }

def setRouting (af u v : ℕ) : Except Raise SparseState := do
  let st := { st with
    startNode := update (update st.startNode af (some u)) (rev af) (some v) }
  let st ← st.linkArc af u
  st.linkArc (rev af) v

/-- Take an arc out of its list; half of `CancelArc`. -/
def unlinkArc (ad : ℕ) : Except Raise SparseState := do
  let (st, left) ← st.allocLeft
  let v ← defined (st.startNode ad)
  if st.right ad = some ad then
    return { st with
      first := update st.first v none
      startNode := update st.startNode ad none
      right := update st.right ad none
      left := some (update left ad none) }
  else do
    let al ← defined (left ad)
    let ar ← defined (st.right ad)
    return { st with
      first := if st.first v = some ad then update st.first v (some al) else st.first
      startNode := update st.startNode ad none
      right := update (update st.right al (some ar)) ad none
      left := some (update (update left ar (some al)) ad none) }

/-! ## Arcs -/

def insertArc (u v : ℕ) : Except Raise SparseState :=
  if st.nAct ≤ u then .error (.range "InsertArc" "No such node")
  else if st.nAct ≤ v then .error (.range "InsertArc" "No such node")
  else if st.maxArc - 2 < 2 * st.mMax then
    .error (.rejected "InsertArc" "Number of arcs is out of range")
  else
    let mAct := st.mAct + 1
    { st with mAct := mAct, mMax := if st.mMax + 1 = mAct then st.mMax + 1 else st.mMax }.setRouting
      (2 * st.mAct) u v

/-- `CancelArc`. The test for the exterior face reads `(aExtNew!=ad)^1`, so the face is
marked if the reverse arc is followed by the arc itself. -/
def cancelArc (a : ℕ) : Except Raise SparseState :=
  if 2 * st.mAct ≤ a then .error (.range "CancelArc" "No such arc")
  else if st.startNode a = none then .error (.range "CancelArc" "Cancelled arc")
  else do
    let st ← (if st.right (rev a) = some a then st.markExteriorFace a else .ok st)
    let st ← st.unlinkArc a
    st.unlinkArc (rev a)

def routeArc (a u v : ℕ) : Except Raise SparseState :=
  if 2 * st.mAct ≤ a then .error (.range "RouteArc" "No such arc")
  else if st.nAct ≤ u then .error (.range "RouteArc" "No such node")
  else if st.nAct ≤ v then .error (.range "RouteArc" "No such node")
  else if st.startNode a = some u ∧ st.startNode (rev a) = some v then .ok st
  else do
    let st ← (if st.startNode a ≠ none ∨ st.startNode (rev a) ≠ none then st.cancelArc a
      else .ok st)
    st.setRouting a u v

/-- Give `a1` the links that `a2` has had; one of the two symmetric blocks of
`SwapArcs`. -/
def takeLinks (links : (ℕ → Option ℕ) × (ℕ → Option ℕ)) (a1 a2 : ℕ) (a1l a1r a2l a2r : Option ℕ) :
    Except Raise ((ℕ → Option ℕ) × (ℕ → Option ℕ)) :=
  if a2r = some a2 then
    .ok (update links.1 a1 (some a1), update links.2 a1 (some a1))
  else
    let left := update links.1 a1 a2l
    let right := update links.2 a1 a2r
    match a1r with
    | none => .ok (left, right)
    | some r => do
      let l ← defined a1l
      return (update left r (some a2), update right l (some a2))

/-- Exchange the positions of two arcs in their lists; done for both directions by
`SwapArcs`. -/
def swapLinks (a1 a2 : ℕ) : Except Raise SparseState := do
  let (st, left) ← st.allocLeft
  let a1l := left a1
  let a2l := left a2
  let a1r := st.right a1
  let a2r := st.right a2
  if a1l ≠ some a2 ∧ a2l ≠ some a1 then do
    let links ← takeLinks (left, st.right) a1 a2 a1l a1r a2l a2r
    let links ← takeLinks links a2 a1 a2l a2r a1l a1r
    return { st with left := some links.1, right := links.2 }
  else return st

/-- Let `first` follow an arc that is renamed. -/
def moveFirst (first : ℕ → Option ℕ) (u : Option ℕ) (a1 a2 : ℕ) : Except Raise (ℕ → Option ℕ) := do
  let u ← defined u
  return if first u = some a1 then update first u (some a2) else first

def swapArcs (a1 a2 : ℕ) : Except Raise SparseState :=
  if 2 * st.mAct ≤ a1 then .error (.range "SwapArcs" "No such arc")
  else if 2 * st.mAct ≤ a2 then .error (.range "SwapArcs" "No such arc")
  else if a1 = a2 then .ok st
  else do
    let u1 := st.startNode a1
    let u2 := st.startNode a2
    let v1 := st.startNode (rev a1)
    let v2 := st.startNode (rev a2)
    let startNode := update (update (update (update
      st.startNode a1 u2) a2 u1) (rev a1) v2) (rev a2) v1
    let first ← (if u1 ≠ none then do
        let first ← moveFirst st.first u1 a1 a2
        moveFirst first v1 (rev a1) (rev a2)
      else .ok st.first)
    let first ← (if u2 ≠ none then do
        let first ← (if u1 ≠ u2 then moveFirst first u2 a2 a1 else .ok first)
        if v1 ≠ v2 then moveFirst first v2 (rev a2) (rev a1) else .ok first
      else .ok first)
    let st ← { st with startNode := startNode, first := first }.swapLinks a1 a2
    if rev a2 ≠ a1 then st.swapLinks (rev a1) (rev a2) else return st

def deleteArc (a : ℕ) : Except Raise SparseState :=
  if 2 * st.mAct ≤ a then .error (.range "DeleteArc" "No such arc")
  else do
    let a := a &&& rev a
    let ad := 2 * st.mAct - 2
    let st ← (if st.startNode a ≠ none then st.cancelArc a else .ok st)
    let st ← st.swapArcs a ad
    return { st with mAct := st.mAct - 1 }

/-- The loop of `DeleteArcs`. -/
def deleteArcsFrom : ℕ → ℕ → SparseState → Except Raise SparseState
  | 0, _, _ => .error .fuel
  | count + 1, a, st =>
    if a < 2 * st.mAct then
      if st.startNode a = none then do
        let st ← st.deleteArc a
        deleteArcsFrom count a st
      else deleteArcsFrom count (a + 2) st
    else .ok st

def deleteArcs : Except Raise SparseState := deleteArcsFrom (st.mAct + 1) 0 st

/-! ## Nodes -/

def insertNode : Except Raise SparseState :=
  if st.maxNode - 1 < st.nMax then
    .error (.rejected "InsertNode" "Number of nodes is out of range")
  else
    let nAct := st.nAct + 1
    if st.nMax + 1 = nAct then
      .ok { st with
        nAct := nAct
        nMax := st.nMax + 1
        first := update st.first st.nMax none }
    else .ok { st with nAct := nAct }

/-- The loop of `CancelNode`. -/
def cancelNodeLoop (v : ℕ) : ℕ → SparseState → Except Raise SparseState
  | 0, _ => .error .fuel
  | count + 1, st =>
    match st.first v with
    | none => .ok st
    | some a => do
      let st ← st.cancelArc a
      cancelNodeLoop v count st

def cancelNode (v : ℕ) : Except Raise SparseState :=
  if st.nAct ≤ v then .error (.range "CancelNode" "No such node")
  else cancelNodeLoop v (st.mAct + 1) st

/-- Go once around a list, from the arc `a` to the one before `stop`, and set the start
nodes. Returns the last arc, too. -/
def relabel (right : ℕ → Option ℕ) (stop x : ℕ) :
    ℕ → ℕ → (ℕ → Option ℕ) → Except Raise ((ℕ → Option ℕ) × ℕ)
  | 0, _, _ => .error .fuel
  | count + 1, a, startNode => do
    let startNode := update startNode a (some x)
    let next ← defined (right a)
    if next = stop then return (startNode, a) else relabel right stop x count next startNode

/-- Set the start node of all arcs in the list of `v`. -/
def relabelNode (v x : ℕ) : Except Raise SparseState :=
  match st.first v with
  | none => .ok st
  | some a => do
    let (startNode, _) ← relabel st.right a x (2 * st.mAct) a st.startNode
    return { st with startNode := startNode }

/-- `SwapNodes`, for graph nodes -/
def swapNodes (u v : ℕ) : Except Raise SparseState :=
  if st.nAct ≤ u then .error (.range "SwapNodes" "No such node")
  else if st.nAct ≤ v then .error (.range "SwapNodes" "No such node")
  else if u = v then .ok st
  else do
    let st ← st.relabelNode u v
    let st ← st.relabelNode v u
    return { st with
      first := update (update st.first u (st.first v)) v (st.first u) }

def deleteNode (v : ℕ) : Except Raise SparseState :=
  if st.nAct ≤ v then .error (.range "DeleteNode" "No such node")
  else do
    let st ← st.cancelNode v
    let st ← st.swapNodes v (st.nAct - 1)
    { st with nAct := st.nAct - 1 }.deleteArcs

/-- The loop of `DeleteNodes`. -/
def deleteNodesFrom : ℕ → ℕ → SparseState → Except Raise SparseState
  | 0, _, _ => .error .fuel
  | count + 1, v, st =>
    if v < st.nAct then
      if st.first v = none then do
        let st ← st.deleteNode v
        deleteNodesFrom count v st
      else deleteNodesFrom count (v + 1) st
    else .ok st

def deleteNodes : Except Raise SparseState := deleteNodesFrom (st.nAct + 1) 0 st

def contractArc (ac : ℕ) : Except Raise SparseState :=
  if 2 * st.mAct ≤ ac then .error (.range "ContractArc" "No such arc")
  else if st.startNode ac = st.startNode (rev ac) then
    .error (.rejected "ContractArc" "Arc is a loop")
  else do
    let u ← defined (st.startNode ac)
    let v ← defined (st.startNode (rev ac))
    let (startNode, a) ← relabel st.right (rev ac) u (2 * st.mAct) (rev ac) st.startNode
    let next ← defined (st.right ac)
    { st with
      startNode := startNode
      right := update (update st.right a (some next)) ac (some (rev ac))
      left := st.left.map fun left =>
        update (update left next (some a)) (rev ac) (some ac)
      first := update st.first v none }.cancelArc ac

end SparseState

/-! ## Runs -/

/-- The operations that change the incidence lists, and `Left`, which allocates the
reverse links. -/
inductive SparseOp where
  | insertNode
  | insertArc (u v : ℕ)
  | cancelArc (a : ℕ)
  | cancelNode (v : ℕ)
  | deleteArc (a : ℕ)
  | deleteArcs
  | deleteNode (v : ℕ)
  | deleteNodes
  | routeArc (a u v : ℕ)
  | contractArc (a : ℕ)
  | left (a : ℕ)
deriving DecidableEq, Repr

namespace SparseOp

/-- What an operation does. -/
def run (st : SparseState) : SparseOp → Except Raise SparseState
  | insertNode => st.insertNode
  | insertArc u v => st.insertArc u v
  | cancelArc a => st.cancelArc a
  | cancelNode v => st.cancelNode v
  | deleteArc a => st.deleteArc a
  | deleteArcs => st.deleteArcs
  | deleteNode v => st.deleteNode v
  | deleteNodes => st.deleteNodes
  | routeArc a u v => st.routeArc a u v
  | contractArc a => st.contractArc a
  | left a => (st.leftArc a).map Prod.fst

/-- The arguments with which an operation may be called. -/
def Legal (st : SparseState) : SparseOp → Prop
  | insertNode => st.nMax ≤ st.maxNode - 1
  | insertArc u v => u < st.nAct ∧ v < st.nAct ∧ 2 * st.mMax ≤ st.maxArc - 2
  | cancelArc a => a < 2 * st.mAct ∧ st.startNode a ≠ none
  | cancelNode v => v < st.nAct
  | deleteArc a => a < 2 * st.mAct
  | deleteArcs => True
  | deleteNode v => v < st.nAct
  | deleteNodes => True
  | routeArc a u v => a < 2 * st.mAct ∧ u < st.nAct ∧ v < st.nAct
  | contractArc a => a < 2 * st.mAct ∧ st.startNode a ≠ none ∧
      st.startNode a ≠ st.startNode (SparseState.rev a)
  | left a => a < 2 * st.mAct

instance (st : SparseState) (op : SparseOp) : Decidable (op.Legal st) :=
  match op with
  | insertNode => inferInstanceAs (Decidable (_ ≤ _))
  | insertArc _ _ => inferInstanceAs (Decidable (_ ∧ _ ∧ _))
  | cancelArc _ => inferInstanceAs (Decidable (_ ∧ _))
  | cancelNode _ => inferInstanceAs (Decidable (_ < _))
  | deleteArc _ => inferInstanceAs (Decidable (_ < _))
  | deleteArcs => inferInstanceAs (Decidable True)
  | deleteNode _ => inferInstanceAs (Decidable (_ < _))
  | deleteNodes => inferInstanceAs (Decidable True)
  | routeArc _ _ _ => inferInstanceAs (Decidable (_ ∧ _ ∧ _))
  | contractArc _ => inferInstanceAs (Decidable (_ ∧ _ ∧ _))
  | left _ => inferInstanceAs (Decidable (_ < _))

end SparseOp

/-- The states that sequences of legal operations reach from the constructor. -/
inductive SparseReach (n maxNode maxArc : ℕ) : SparseState → Prop where
  | start : SparseReach n maxNode maxArc (.new n maxNode maxArc)
  | step {st st' : SparseState} (op : SparseOp) (before : SparseReach n maxNode maxArc st)
      (legal : op.Legal st) (result : op.run st = .ok st') : SparseReach n maxNode maxArc st'

end Goblin
