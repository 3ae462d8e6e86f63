import Goblin.BinaryHeap
import Goblin.Library.StateRuns
import Goblin.SparseRuns

/-!
# Sparse graph objects

A sparse graph is an `abstractMixedGraph` with a `sparseRepresentation`. Both count nodes and arcs,
the former by `n`, `m` and `ni`, the latter by `nAct`, `mAct` and `lAct`. Besides the incidence
lists there are the attributes, the multiplicities `sub`, the layout nodes, and caches of the
node degrees and of the adjacencies.

An attribute is a vector with a default value. It has either one entry for every object of its
dimension, or none at all. Of the attributes only those are modelled that the methods read; of the
others the sizes. The layout nodes follow the graph nodes in the index range.

A method that raises leaves the state as it is then, so the methods are state transformers with
exceptions. Exception specifications are not modelled. A write to a degree label of `NoNode`, a
`NULL` pointer that is used, and an entry of `sub` that has not been initialised are faults.
-/

set_option autoImplicit false

namespace Goblin

open Library Function

/-! ## Attributes -/

/-- `TArrayDim` -/
inductive ArrayDim where
  | graphNodes
  | graphArcs
  | arcsTwice
  | layoutNodes
  | singleton
deriving DecidableEq

/-- An `attribute`. -/
structure Attribute (α : Type) where
  data : List α
  defaultValue : α

namespace Attribute

variable {α : Type} (A : Attribute α)

def size : ℕ := A.data.length

def getValue (i : ℕ) : α := A.data.getD i A.defaultValue

/-- `SetValue`, for an index that is represented -/
def setValue (i : ℕ) (x : α) : Attribute α := { A with data := A.data.set i x }

/-- `IncreaseSize` of an attribute of size zero -/
def increaseSize (size : ℕ) : Attribute α := { A with data := List.replicate size A.defaultValue }

def appendItems (k : ℕ) : Attribute α :=
  if A.data.isEmpty then A else { A with data := A.data ++ List.replicate k A.defaultValue }

/-- `EraseItems`. The default value is restored from the first entry. -/
def eraseItems (k : ℕ) : Attribute α :=
  if A.data.isEmpty then A
  else
    { data := A.data.take (A.data.length - k)
      defaultValue := if k = A.data.length then A.data.headD A.defaultValue else A.defaultValue }

def swapItems (i j : ℕ) : Attribute α :=
  if i < A.data.length ∧ j < A.data.length then
    { A with data := (A.data.set i (A.getValue j)).set j (A.getValue i) }
  else A

end Attribute

/-- What `SetUCap`, `SetLCap` and `SetLength` do to their attribute. It is allocated when the
first value is assigned that is not the default value. -/
def assign {α : Type} [DecidableEq α] (A : Option (Attribute α)) (default : α) (mAct i : ℕ) (x : α) :
    Option (Attribute α) :=
  match A with
  | none =>
    if x = default then none
    else some (((Attribute.mk [] default).increaseSize mAct).setValue i x)
  | some A =>
    if A.size = 0 then
      if x = A.defaultValue then some A else some ((A.increaseSize mAct).setValue i x)
    else some (A.setValue i x)

/-- `GetArray`, for an attribute of full rank -/
def getArray {α : Type} (A : Option (Attribute α)) : Option (Attribute α) :=
  A.filter fun A => !A.data.isEmpty

/-! ## State -/

/-- A sparse graph object. -/
structure SparseGraph where
  n : ℕ
  m : ℕ
  ni : ℕ
  referenced : Bool
  balanced : Bool
  rep : SparseState
  lAct : ℕ
  lMax : ℕ
  /-- The multiplicities, by the edges. -/
  sub : Option (ℕ → ℚ)
  ucap : Option (Attribute ℚ)
  lcap : Option (Attribute ℚ)
  length : Option (Attribute ℚ)
  orientation : Option (Attribute ℕ)
  /-- `TokLayoutArcLabel` -/
  align : Option (Attribute (Option ℕ))
  /-- `TokLayoutThread` -/
  thread : Option (Attribute (Option ℕ))
  /-- The dimensions and sizes of the other attributes. -/
  others : List (ArrayDim × ℕ)
  sDeg : Option (ℕ → ℚ)
  /-- `sDegIn` and `sDegOut`, which are allocated and released together. -/
  sDegInOut : Option ((ℕ → ℚ) × (ℕ → ℚ))
  /-- The table of adjacencies, by the index `u * n + v`. -/
  adj : Option (ℕ → Option ℕ)

/-- The methods of a sparse graph. -/
abbrev GraphM := EStateM Raise SparseGraph

namespace SparseGraph

open SparseState (rev)

/-- The constructor, for a graph with `n` nodes and without arcs. The orientation is an attribute
of the class: it is not there if the edges are undirected, and of size zero for a digraph. -/
def new (n maxNode maxArc : ℕ) (orientation : Option (Attribute ℕ)) : SparseGraph where
  n := n
  m := 0
  ni := 0
  referenced := false
  balanced := false
  rep := SparseState.new n maxNode maxArc
  lAct := n
  lMax := n
  sub := none
  ucap := none
  lcap := none
  length := none
  orientation := orientation
  align := none
  thread := none
  others := []
  sDeg := none
  sDegInOut := none
  adj := none

/-- An operation on the incidence lists. -/
def onIncidences (op : SparseState → Except Raise SparseState) : GraphM Unit := fun st =>
  match op st.rep with
  | .ok rep => .ok () { st with rep := rep }
  | .error e => .error e st

section Reading

variable (st : SparseGraph)

section

variable (a : ℕ)

def uCap : ℚ := (st.ucap.map fun A => A.getValue (a / 2)).getD 1

def lCap : ℚ := (st.lcap.map fun A => A.getValue (a / 2)).getD 0

/-- `Sub` -/
def subOf : ℚ :=
  match st.sub with
  | none => st.lCap a
  | some sub => sub (a / 2)

/-- `Orientation(a)` -/
def orientationOf : ℕ := (st.orientation.map fun A => A.getValue (a / 2)).getD 0

def blocking : Bool := st.orientationOf a != 0 && a % 2 == 1

end

/-- `AppendItems`, for all attributes of this dimension -/
def appendItems (dim : ArrayDim) (k : ℕ) : SparseGraph :=
  let st := { st with
    others := st.others.map fun A => if A.1 = dim ∧ A.2 ≠ 0 then (A.1, A.2 + k) else A }
  match dim with
  | .graphArcs => { st with
      ucap := st.ucap.map fun A => A.appendItems k
      lcap := st.lcap.map fun A => A.appendItems k
      length := st.length.map fun A => A.appendItems k
      orientation := st.orientation.map fun A => A.appendItems k
      align := st.align.map fun A => A.appendItems k }
  | .layoutNodes => { st with thread := st.thread.map fun A => A.appendItems k }
  | _ => st

/-- `EraseItems`, for all attributes of this dimension -/
def eraseItems (dim : ArrayDim) (k : ℕ) : SparseGraph :=
  let st := { st with
    others := st.others.map fun A => if A.1 = dim then (A.1, A.2 - k) else A }
  match dim with
  | .graphArcs => { st with
      ucap := st.ucap.map fun A => A.eraseItems k
      lcap := st.lcap.map fun A => A.eraseItems k
      length := st.length.map fun A => A.eraseItems k
      orientation := st.orientation.map fun A => A.eraseItems k
      align := st.align.map fun A => A.eraseItems k }
  | .layoutNodes => { st with thread := st.thread.map fun A => A.eraseItems k }
  | _ => st

end Reading

/-! ## Degrees -/

/-- `d[v] += lambda` -/
def addAt (d : ℕ → ℚ) (v : ℕ) (lambda : ℚ) : ℕ → ℚ := update d v (d v + lambda)

def releaseDegrees : GraphM Unit := modify fun st => { st with sDeg := none, sDegInOut := none }

/-- An access to a label of a start node or end node. -/
def labelNode (v : Option ℕ) : GraphM ℕ :=
  match v with
  | some v => pure v
  | none => throw .fault

/-- The edge has no direction. -/
def Undirected (st : SparseGraph) (a : ℕ) : Prop :=
  st.blocking a = false ∧ st.blocking (rev a) = false

instance (st : SparseGraph) (a : ℕ) : Decidable (st.Undirected a) :=
  inferInstanceAs (Decidable (_ ∧ _))

/-- What `AdjustDegrees` does to `sDegIn` and `sDegOut`. -/
def adjustInOut (st : SparseGraph) (a u v : ℕ) (lambda : ℚ) (d : (ℕ → ℚ) × (ℕ → ℚ)) :
    (ℕ → ℚ) × (ℕ → ℚ) :=
  let d := if st.blocking (rev a) then (d.1, addAt d.2 u lambda) else (addAt d.1 u lambda, d.2)
  if st.blocking a then (d.1, addAt d.2 v lambda) else (addAt d.1 v lambda, d.2)

def adjustDegrees (a : ℕ) (lambda : ℚ) : GraphM Unit := do
  let st ← get
  if 2 * st.m ≤ a then throw (.range "AdjustDegrees" "No such arc")
  else if st.sDeg ≠ none ∧ st.Undirected a then do
    let u ← labelNode (st.rep.startNode a)
    let v ← labelNode (st.rep.startNode (rev a))
    modify fun st => { st with sDeg := st.sDeg.map fun d => addAt (addAt d u lambda) v lambda }
  else if st.sDegInOut ≠ none then do
    let u ← labelNode (st.rep.startNode a)
    let v ← labelNode (st.rep.startNode (rev a))
    modify fun st => { st with sDegInOut := st.sDegInOut.map (st.adjustInOut a u v lambda) }
  else pure ()

/-- The arcs that the investigator reads, from `a` to the one before `stop`. -/
def ringFrom (right : ℕ → Option ℕ) (stop : ℕ) : ℕ → ℕ → List ℕ
  | 0, _ => []
  | fuel + 1, a =>
    match right a with
    | none => [a]
    | some next => if next = stop then [a] else a :: ringFrom right stop fuel next

section

variable (st : SparseGraph) (v : ℕ)

/-- The arcs that the investigator reads at a node. -/
def incidences : List ℕ :=
  match st.rep.first v with
  | none => []
  | some f => ringFrom st.rep.right f (2 * st.rep.mAct) f

/-- The label of a node that `InitDegrees` computes. -/
def degree : ℚ :=
  ((st.incidences v).map fun a =>
    if st.Undirected a then st.subOf a else 0).sum

/-- The label of a node in `sDegIn` that `InitDegInOut` computes. -/
def degreeIn : ℚ :=
  ((st.incidences v).map fun a => if st.blocking a then st.subOf a else 0).sum

/-- The label of a node in `sDegOut` that `InitDegInOut` computes. -/
def degreeOut : ℚ :=
  ((st.incidences v).map fun a => if st.blocking (rev a) then st.subOf a else 0).sum

end

def deg (v : ℕ) : GraphM ℚ := do
  let st ← get
  if st.n ≤ v then throw (.range "Deg" "No such node")
  else
    match st.sDeg with
    | some d => return d v
    | none => do
      modify fun st => { st with sDeg := some st.degree }
      return st.degree v

/-- The labels of `InitDegInOut`, which are computed unless they are present. -/
def initDegInOut : GraphM ((ℕ → ℚ) × (ℕ → ℚ)) := do
  let st ← get
  match st.sDegInOut with
  | some d => return d
  | none => do
    modify fun st => { st with sDegInOut := some (st.degreeIn, st.degreeOut) }
    return (st.degreeIn, st.degreeOut)

def degIn (v : ℕ) : GraphM ℚ := do
  let st ← get
  if st.n ≤ v then throw (.range "DegIn" "No such node")
  else return (← initDegInOut).1 v

def degOut (v : ℕ) : GraphM ℚ := do
  let st ← get
  if st.n ≤ v then throw (.range "DegOut" "No such node")
  else return (← initDegInOut).2 v

/-! ## Subgraphs and capacities -/

/-- `NewSubgraph`. The entries of arcs that do not exist are not initialised. -/
def newSubgraph : GraphM Unit := do
  let st ← get
  if st.sub = none then do
    modify fun st => { st with sub := some fun a => st.lCap (2 * a) }
    (List.range st.rep.mAct).forM fun a =>
      if 0 < st.lCap (2 * a) then adjustDegrees (2 * a) (st.lCap (2 * a)) else pure ()
  else throw (.rejected "NewSubgraph" "A subgraph is already present")

def releaseSubgraph : GraphM Unit := modify fun st => { st with sub := none }

/-- The multiplicities, which are allocated by the first assignment. -/
def allocSub : GraphM Unit := do
  let st ← get
  if st.sub = none then newSubgraph else pure ()

/-- The amounts that `SetSub` and `SetSubRelative` reject. -/
def OutOfRange (st : SparseGraph) (a : ℕ) (multiplicity : ℚ) : Prop :=
  (0 < st.subOf a ∧ |multiplicity| < st.lCap a) ∨ (st.uCap a < infCap ∧ st.uCap a < |multiplicity|)

instance (st : SparseGraph) (a : ℕ) (multiplicity : ℚ) : Decidable (st.OutOfRange a multiplicity) :=
  inferInstanceAs (Decidable (_ ∨ _))

section

variable (a : ℕ)

def setSub (multiplicity : ℚ) : GraphM Unit := do
  let st ← get
  if 2 * st.rep.mAct ≤ a then throw (.range "SetSub" "No such arc")
  else if st.OutOfRange a multiplicity then throw (.rejected "SetSub" "Amount out of range")
  else do
    allocSub
    let st ← get
    adjustDegrees a (multiplicity - st.subOf a)
    modify fun st => { st with
      sub := st.sub.map fun sub => update sub (a / 2) multiplicity }

def setSubRelative (lambda : ℚ) : GraphM Unit := do
  let st ← get
  if 2 * st.rep.mAct ≤ a then throw (.range "SetSubRelative" "No such arc")
  else if st.OutOfRange a (st.subOf a + lambda) then
    throw (.rejected "SetSubRelative" "Amount out of range")
  else do
    allocSub
    modify fun st => { st with sub := st.sub.map fun sub => addAt sub (a / 2) lambda }
    adjustDegrees a lambda

def setLength (length : ℚ) : GraphM Unit := do
  let st ← get
  if 2 * st.rep.mAct ≤ a then throw (.range "SetLength" "No such arc")
  else modify fun st => { st with length := assign st.length 1 st.rep.mAct (a / 2) length }

def setUCap (ucap : ℚ) : GraphM Unit := do
  let st ← get
  if 2 * st.rep.mAct ≤ a then throw (.range "SetUCap" "No such arc")
  else if ucap < 0 then throw (.range "SetUCap" "Illegal assignment")
  else do
    (if ucap < st.subOf a then setSub a ucap else pure ())
    modify fun st => { st with ucap := assign st.ucap 1 st.rep.mAct (a / 2) ucap }

def setLCap (lcap : ℚ) : GraphM Unit := do
  let st ← get
  if 2 * st.rep.mAct ≤ a then throw (.range "SetLCap" "No such arc")
  else if lcap < 0 then throw (.range "SetLCap" "Illegal assignment")
  else do
    (if |st.subOf a| < lcap then setSub a (if 0 ≤ st.subOf a then lcap else -lcap) else pure ())
    modify fun st => { st with lcap := assign st.lcap 0 st.rep.mAct (a / 2) lcap }

end

def setCUCap (ucap : ℚ) : GraphM Unit :=
  if ucap < 0 then throw (.range "SetCUCap" "Illegal assignment")
  else do
    releaseSubgraph
    modify fun st => { st with ucap := if ucap ≠ 1 then some ⟨[], ucap⟩ else none }

def setCLCap (lcap : ℚ) : GraphM Unit :=
  if lcap < 0 then throw (.range "SetCLCap" "Illegal assignment")
  else do
    releaseSubgraph
    modify fun st => { st with lcap := if lcap ≠ 0 then some ⟨[], lcap⟩ else none }

/-! ## Adjacencies -/

def markAdjacency (u v : ℕ) (a : Option ℕ) : GraphM Unit := do
  let st ← get
  match st.adj with
  | none => pure ()
  | some adj =>
    if st.n ≤ u then throw (.range "MarkAdjacency" "No such node")
    else if st.n ≤ v then throw (.range "MarkAdjacency" "No such node")
    else if a.any fun a => 2 * st.m ≤ a then throw (.range "MarkAdjacency" "No such arc")
    else if a.any fun a => st.rep.startNode a != some u || st.rep.startNode (rev a) != some v ||
        st.blocking a then
      throw (.rejected "MarkAdjacency" "Mismatching end nodes")
    else modify fun st => { st with adj := some (update adj (u * st.n + v) a) }

/-- `TMethAdjacency` -/
inductive MethAdjacency where
  | search
  | matrix
deriving DecidableEq

/-- The better one of two parallel arcs. An arc that is not blocking is preferred, then the
smaller index. -/
def prefer (st : SparseGraph) (best : Option ℕ) (a : ℕ) : Option ℕ :=
  match best with
  | none => some a
  | some b =>
    if st.blocking b ∧ ¬ st.blocking a then some a
    else if st.blocking a ∧ ¬ st.blocking b then some b
    else if a < b then some a
    else some b

/-- `Adjacency` by `ADJ_SEARCH`, on the incidence list of `u` -/
def searchAdjacency (st : SparseGraph) (u v : ℕ) : Option ℕ :=
  (st.incidences u).foldl
    (fun best a => if st.rep.startNode (rev a) = some v then st.prefer best a else best) none

/-- The body of the loop by which `Adjacency` fills the table. The index of a cancelled arc is out
of range. -/
def enterAdjacency (a : ℕ) : GraphM Unit := do
  let st ← get
  match st.adj, st.rep.startNode a, st.rep.startNode (rev a) with
  | some adj, some u, some v =>
    modify fun st => { st with
      adj := some (update adj (u * st.n + v) (st.prefer (adj (u * st.n + v)) a)) }
  | _, _, _ => throw (.range "Key" "No such item")

def adjacency (u v : ℕ) (method : MethAdjacency) : GraphM (Option ℕ) := do
  let st ← get
  if st.n ≤ u then throw (.range "Adjacency" "No such node")
  else if st.n ≤ v then throw (.range "Adjacency" "No such node")
  else
    match st.adj, method with
    | some adj, _ => return adj (u * st.n + v)
    | none, .search => return st.searchAdjacency u v
    | none, .matrix =>
      if 0 < st.m then do
        modify fun st => { st with adj := some fun _ => none }
        (List.range (2 * st.m)).forM enterAdjacency
        let st ← get
        return st.adj.bind fun adj => adj (u * st.n + v)
      else return none

/-! ## Arcs -/

section

variable (u v : ℕ) (cap length lower : ℚ)

/-- `sparseRepresentation::InsertArc` -/
def sparseInsertArc : GraphM ℕ := do
  let st ← get
  if st.referenced then throw (.rejected "InsertArc" "Object is referenced")
  else do
    onIncidences fun rep => rep.insertArc u v
    let a := st.rep.mAct
    (if st.sub ≠ none then do
        modify fun st => { st with sub := st.sub.map fun sub => update sub a lower }
        if 0 < lower then releaseDegrees else pure ()
      else pure ())
    modify fun st => (st.appendItems .graphArcs 1).appendItems .arcsTwice 2
    setLength (2 * a) length
    setUCap (2 * a) cap
    setLCap (2 * a) lower
    markAdjacency u v (some (2 * a))
    return a

def insertArc : GraphM ℕ := do
  let st ← get
  if st.n ≤ u then throw (.range "InsertArc" "No such node")
  else if st.n ≤ v then throw (.range "InsertArc" "No such node")
  else do
    (if st.balanced then do
        modify fun st => { st with m := st.m + 1 }
        discard (sparseInsertArc (rev v) (rev u) cap length lower)
      else pure ())
    modify fun st => { st with m := st.m + 1 }
    sparseInsertArc u v cap length lower

end

/-- `CancelArc`. The multiplicity is read by the arc and not by the edge. The test for the
exterior face and the labels of predecessors do not matter here. -/
def cancelArc (a : ℕ) : GraphM Unit := do
  let st ← get
  if 2 * st.rep.mAct ≤ a then throw (.range "CancelArc" "No such arc")
  else
    match st.rep.startNode a with
    | none => throw (.range "CancelArc" "Cancelled arc")
    | some u => do
      let v ← labelNode (st.rep.startNode (rev a))
      markAdjacency u v none
      (match st.sub with
        | none => pure ()
        | some sub =>
          if st.rep.mAct ≤ a then throw .fault
          else adjustDegrees (2 * (a / 2) + 1) (sub a))
      onIncidences fun rep => rep.cancelArc a

/-! ## Layout nodes -/

/-- The references in `align` and `thread` after `u` and `v` have been exchanged. Those in `thread`
are not updated unless there is an array `align`, and those of `u` and `v` are not updated at all. -/
def exchangeReferences (st : SparseGraph) (u v : ℕ) : SparseGraph :=
  match getArray st.align with
  | none => st
  | some align => { st with
      align := some { align with data := align.data.map fun x => x.map (Equiv.swap u v) }
      thread := (getArray st.thread).elim st.thread fun thread =>
        some { thread with data := thread.data.mapIdx fun w x =>
          if w = u ∨ w = v then x else x.map (Equiv.swap u v) } }

def swapNodes (u v : ℕ) : GraphM Unit := do
  let st ← get
  if st.lAct ≤ u then throw (.range "SwapNodes" "No such node")
  else if st.lAct ≤ v then throw (.range "SwapNodes" "No such node")
  else if u = v then pure ()
  else do
    modify fun st => st.exchangeReferences u v
    modify fun st => { st with thread := st.thread.map fun thread => thread.swapItems u v }
    if st.rep.nAct ≤ u ∨ st.rep.nAct ≤ v then pure ()
    else onIncidences fun rep => rep.swapNodes u v

def insertLayoutPoint : GraphM ℕ := do
  let st ← get
  if st.rep.maxNode - 1 < st.lMax then
    throw (.rejected "InsertLayoutPoint" "Number of nodes is out of range")
  else do
    modify fun st => { st with
      lAct := st.lAct + 1
      lMax := if st.lMax + 1 = st.lAct + 1 then st.lMax + 1 else st.lMax }
    modify fun st => st.appendItems .layoutNodes 1
    modify fun st => { st with ni := st.ni + 1 }
    return st.lAct

/-- `InitArray` with `NoNode`, for an array that is not there. If the attribute exists, it has
size zero, and there is still no array. -/
def initArray (A : Option (Attribute (Option ℕ))) (size : ℕ) : GraphM (Attribute (Option ℕ)) :=
  match A with
  | none => pure ((Attribute.mk [] none).increaseSize size)
  | some _ => throw .fault

def insertArcLabelAnchor (a : ℕ) : GraphM ℕ := do
  let st ← get
  if 2 * st.rep.mAct ≤ a then throw (.range "InsertArcLabelAnchor" "No such arc")
  else do
    let u ← insertLayoutPoint
    let st ← get
    (match getArray st.align with
      | some align =>
        if align.getValue (a / 2) ≠ none then
          throw (.rejected "InsertArcLabelAnchor" "Redefinition of alignment point")
        else modify fun st => { st with align := some (align.setValue (a / 2) (some u)) }
      | none => do
        let align ← initArray st.align st.rep.mAct
        modify fun st => { st with align := some (align.setValue (a / 2) (some u)) })
    modify fun st => { st with thread := st.thread.map fun thread => thread.setValue u none }
    return u

def insertThreadSuccessor (v : ℕ) : GraphM ℕ := do
  let st ← get
  if st.lAct ≤ v then throw (.range "InsertThreadSuccessor" "No such node")
  else do
    let u ← insertLayoutPoint
    let st ← get
    let thread ← (match getArray st.thread with
      | some thread => pure thread
      | none => initArray st.thread st.lAct)
    modify fun st => { st with
      thread := some ((thread.setValue u (thread.getValue v)).setValue v (some u)) }
    return u

def eraseLayoutNode (v : ℕ) : GraphM Unit := do
  let st ← get
  if st.lAct ≤ v ∨ v < st.rep.nAct then throw (.range "EraseLayoutNode" "No such node")
  else do
    swapNodes v (st.lAct - 1)
    modify fun st => { st with lAct := st.lAct - 1 }
    modify fun st => st.eraseItems .layoutNodes 1

/-- The conversion of an unsigned integer of 64 bits to a floating point number, which has 53
binary digits. It is rounded to the nearest one, and in case of a tie to the even one. -/
def toFloat (x : ℕ) : ℕ :=
  let unit := 2 ^ (x.log2 - 52)
  if x % unit * 2 < unit ∨ (x % unit * 2 = unit ∧ x / unit % 2 = 0) then x / unit * unit
  else (x / unit + 1) * unit

/-- The key `-w` of an unsigned index. -/
def negatedKey (w : ℕ) : ℕ := toFloat ((2 ^ 64 - w) % 2 ^ 64)

/-- An operation of the priority queue. -/
def onQueue {α : Type} (result : Except Raise α) : GraphM α :=
  match result with
  | .ok value => pure value
  | .error e => throw e

/-- The first loop of `ReleaseBendNodes` and `ReleaseShapeNodes`, which takes the nodes from `w` on
out of the thread. -/
def collect : ℕ → BinaryHeap ℕ → Option ℕ → GraphM (BinaryHeap ℕ)
  | 0, _, _ => throw .fuel
  | _ + 1, Q, none => pure Q
  | fuel + 1, Q, some w => do
    let st ← get
    match getArray st.thread with
    | none => pure Q
    | some thread => do
      modify fun st => { st with thread := some (thread.setValue w none) }
      let Q ← onQueue (Q.insert w (negatedKey w))
      collect fuel Q (thread.getValue w)

/-- The second loop, which erases the nodes. -/
def eraseAll : ℕ → BinaryHeap ℕ → GraphM Unit
  | 0, _ => throw .fuel
  | fuel + 1, Q =>
    if Q.maxIndex = 0 then pure ()
    else do
      let (Q, w) ← onQueue Q.delete
      eraseLayoutNode w
      eraseAll fuel Q

/-- Both loops, for the thread from `w` on. -/
def releaseThread (w : ℕ) : GraphM Unit := do
  let st ← get
  let Q ← collect (st.lAct + 1) (BinaryHeap.new st.lAct (fun _ => 0) fun _ => 0) (some w)
  eraseAll (Q.maxIndex + 1) Q
  modify fun st => { st with ni := st.lAct - st.rep.nAct }

def releaseBendNodes (a : ℕ) : GraphM Bool := do
  let st ← get
  if 2 * st.rep.mAct ≤ a then throw (.range "ReleaseBendNodes" "No such arc")
  else
    match getArray st.align with
    | none => return false
    | some align =>
      match align.getValue (a / 2) with
      | none => return false
      | some w => do
        modify fun st => { st with align := some (align.setValue (a / 2) none) }
        releaseThread w
        return true

def releaseShapeNodes (v : ℕ) : GraphM Bool := do
  let st ← get
  if st.rep.nAct ≤ v then throw (.range "ReleaseShapeNodes" "No such node")
  else
    match getArray st.thread with
    | none => return false
    | some thread =>
      match thread.getValue v with
      | none => return false
      | some w => do
        modify fun st => { st with thread := some (thread.setValue v none) }
        releaseThread w
        return true

/-! ## Deletion of arcs -/

/-- The first loop by which `SwapArcs` reverts the bends of an arc: the bends from `y` on, with
their predecessors, and the last bend. -/
def reverseLinks (thread : Attribute (Option ℕ)) :
    ℕ → (ℕ → Option ℕ) → ℕ → Option ((ℕ → Option ℕ) × ℕ)
  | 0, _, _ => none
  | fuel + 1, revThread, y =>
    match thread.getValue y with
    | none => some (revThread, y)
    | some z => reverseLinks thread fuel (update revThread z (some y)) z

/-- The second loop. -/
def relink (revThread : ℕ → Option ℕ) :
    ℕ → Attribute (Option ℕ) → Option ℕ → Option (Attribute (Option ℕ))
  | 0, _, _ => none
  | _ + 1, thread, none => some thread
  | fuel + 1, thread, some y =>
    relink revThread fuel (thread.setValue y (revThread y)) (revThread y)

/-- Revert the order of the bends of an arc with the anchor `x`. -/
def reverseBends (x : Option ℕ) : GraphM Unit := do
  let st ← get
  match x, getArray st.thread with
  | some x, some thread =>
    match thread.getValue x with
    | none => pure ()
    | some y =>
      match reverseLinks thread (st.lAct + 1) (fun _ => none) y with
      | none => throw .fuel
      | some (revThread, last) =>
        match relink revThread (st.lAct + 1) (thread.setValue x (some last)) (some last) with
        | none => throw .fuel
        | some thread => modify fun st => { st with thread := some thread }
  | _, _ => pure ()

/-- The exchange of the entries of two edges. -/
def swapEdges (st : SparseGraph) (i j : ℕ) : SparseGraph :=
  { st with
    sub := st.sub.map fun sub => update (update sub i (sub j)) j (sub i)
    ucap := st.ucap.map fun A => A.swapItems i j
    lcap := st.lcap.map fun A => A.swapItems i j
    length := st.length.map fun A => A.swapItems i j
    orientation := st.orientation.map fun A => A.swapItems i j
    align := st.align.map fun A => A.swapItems i j }

/-- `SwapArcs`. The test for the orientations is made with the reverse arcs. -/
def swapArcs (a1 a2 : ℕ) : GraphM Unit := do
  onIncidences fun rep => rep.swapArcs a1 a2
  if a1 = a2 then pure ()
  else do
    modify fun st => st.swapEdges (a1 / 2) (a2 / 2)
    if (rev a1 &&& 1) ^^^ (rev a2 ^^^ 1) = 0 then pure ()
    else do
      let st ← get
      match getArray st.align with
      | none => pure ()
      | some align => do
        reverseBends (align.getValue (a1 / 2))
        if a1 ≠ rev a2 then reverseBends (align.getValue (a2 / 2)) else pure ()

def deleteArc (a : ℕ) : GraphM Unit := do
  let st ← get
  if 2 * st.rep.mAct ≤ a then throw (.range "DeleteArc" "No such arc")
  else do
    let a := a &&& rev a
    let ad := 2 * st.rep.mAct - 2
    (if st.rep.startNode a ≠ none then cancelArc a else pure ())
    discard (releaseBendNodes a)
    swapArcs a ad
    modify fun st => (st.eraseItems .graphArcs 1).eraseItems .arcsTwice 2
    modify fun st => { st with rep := { st.rep with mAct := st.rep.mAct - 1 } }
    modify fun st => { st with ni := st.lAct - st.rep.nAct, m := st.rep.mAct }

def deleteArcs : ℕ → ℕ → GraphM Unit
  | 0, _ => throw .fuel
  | fuel + 1, a => do
    let st ← get
    if a < 2 * st.rep.mAct then
      if st.rep.startNode a = none then do
        deleteArc a
        deleteArcs fuel a
      else deleteArcs fuel (a + 2)
    else pure ()

/-- The part of `ContractArc` that moves the arcs of the end node to the start node. -/
def joinIncidences (ac : ℕ) (rep : SparseState) : Except Raise SparseState := do
  let u ← defined (rep.startNode ac)
  let v ← defined (rep.startNode (rev ac))
  let (startNode, a) ← SparseState.relabel rep.right (rev ac) u (2 * rep.mAct) (rev ac) rep.startNode
  let next ← defined (rep.right ac)
  return { rep with
    startNode := startNode
    right := update (update rep.right a (some next)) ac (some (rev ac))
    left := rep.left.map fun left =>
      update (update left next (some a)) (rev ac) (some ac)
    first := update rep.first v none }

def contractArc (ac : ℕ) : GraphM Unit := do
  let st ← get
  if 2 * st.rep.mAct ≤ ac then throw (.range "ContractArc" "No such arc")
  else if st.rep.startNode ac = st.rep.startNode (rev ac) then
    throw (.rejected "ContractArc" "Arc is a loop")
  else do
    discard (releaseBendNodes ac)
    onIncidences (joinIncidences ac)
    cancelArc ac
    modify fun st => { st with n := st.rep.nAct, m := st.rep.mAct, ni := st.lAct - st.rep.nAct }

/-! ## Nodes -/

/-- `sparseRepresentation::InsertNode` -/
def sparseInsertNode : GraphM ℕ := do
  let st ← get
  if st.referenced then throw (.rejected "InsertNode" "Object is referenced")
  else do
    onIncidences fun rep => rep.insertNode
    modify fun st => { st with
      lAct := st.lAct + 1
      lMax := if st.lMax + 1 = st.lAct + 1 then st.lMax + 1 else st.lMax }
    modify fun st => (st.appendItems .graphNodes 1).appendItems .layoutNodes 1
    let st ← get
    (if st.rep.nAct < st.lAct then swapNodes (st.rep.nAct - 1) (st.lAct - 1) else pure ())
    return st.rep.nAct - 1

def insertNode : GraphM ℕ := do
  modify fun st => { st with n := st.n + 1 }
  let v ← sparseInsertNode
  modify fun st => { st with
    adj := none
    sDegInOut := st.sDegInOut.map fun d =>
      (update d.1 (st.n - 1) 0, update d.2 (st.n - 1) 0)
    sDeg := st.sDeg.map fun d => update d (st.n - 1) 0 }
  return v

/-- The loop of `CancelNode`. -/
def cancelNode (v : ℕ) : ℕ → GraphM Unit
  | 0 => throw .fuel
  | fuel + 1 => do
    let st ← get
    match st.rep.first v with
    | none => pure ()
    | some a => do
      cancelArc a
      cancelNode v fuel

/-- The search of `DeleteNode` for the predecessor of a layout node, from `j` on. -/
def threadPredecessor (thread : Attribute (Option ℕ)) (v : ℕ) : ℕ → ℕ → ℕ
  | 0, j => j
  | count + 1, j =>
    if thread.getValue j = some v then j else threadPredecessor thread v count (j + 1)

/-- The part of `DeleteNode` that takes a layout node out of its thread. -/
def bypass (v : ℕ) : GraphM Unit := do
  let st ← get
  match getArray st.align with
  | none => pure ()
  | some align =>
    let i := align.data.findIdx fun x => x = some v
    if i < align.data.length then
      modify fun st => { st with align := some (align.setValue i
        ((getArray st.thread).elim none fun thread => thread.getValue v)) }
    else
      match getArray st.thread with
      | none => throw .fault
      | some thread =>
        let j := threadPredecessor thread v (st.lAct - st.rep.nAct) st.rep.nAct
        if st.lAct ≤ j then throw .fault
        else modify fun st => { st with
          thread := some (thread.setValue j (thread.getValue v)) }

def deleteNode (v : ℕ) : GraphM Unit := do
  let st ← get
  if st.lAct ≤ v then throw (.range "DeleteNode" "No such node")
  else do
    (if v < st.rep.nAct then do
        modify fun st => { st with adj := none, sDeg := none, sDegInOut := none }
        cancelNode v (st.rep.mAct + 1)
        discard (releaseShapeNodes v)
        swapNodes v (st.rep.nAct - 1)
        let st ← get
        (if st.rep.nAct < st.lAct then swapNodes (st.rep.nAct - 1) (st.lAct - 1) else pure ())
        modify fun st => (st.eraseItems .graphNodes 1).eraseItems .layoutNodes 1
        modify fun st => { st with
          rep := { st.rep with nAct := st.rep.nAct - 1 }
          lAct := st.lAct - 1 }
        deleteArcs (st.rep.mAct + 1) 0
      else do
        bypass v
        eraseLayoutNode v)
    modify fun st => { st with n := st.rep.nAct, m := st.rep.mAct, ni := st.lAct - st.rep.nAct }

end SparseGraph

end Goblin
