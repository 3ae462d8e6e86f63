import Goblin.AtomicInsertion

/-!
# The sizes of the attributes

Attributes are kept in pools. Those of the full-rank pools (`geometry`, `layoutData` and
`registers`) have one entry for each node, arc or layout point of the graph, and those of the pool
`representation` may instead have no entries if all values are the same.

`AppendItems` skips the attributes without entries, in every pool. So an attribute of full rank
which has lost all of its entries gets no new ones. `Harmless` says that this does not happen: no
dimension grows from zero while there are attributes of this dimension in the full-rank pools.
-/

set_option autoImplicit false

namespace Goblin

open Library Returns Keeps

/-- The attributes of the full-rank pools other than `TokLayoutArcLabel` and `TokLayoutThread`. -/
inductive PoolToken where
  | geoDim | geoMetric | geoAxis0 | geoAxis1 | geoAxis2
  | layoutModel | layoutHiddenNode | layoutHiddenArc | layoutExteriorArc
  | regLabel | regPredecessor | regPotential | regNodeColour | regEdgeColour
  | regOriginalNode | regOriginalArc
  | v_T | edgeType | preO | postO | low1 | low2
deriving DecidableEq

/-- The dimensions in the tables of the pools. -/
def PoolToken.arrayDim : PoolToken → ArrayDim
  | geoDim | geoMetric | layoutModel | layoutExteriorArc => .singleton
  | geoAxis0 | geoAxis1 | geoAxis2 => .layoutNodes
  | layoutHiddenNode | regLabel | regPredecessor | regPotential | regNodeColour
  | regOriginalNode | v_T | preO | postO => .graphNodes
  | layoutHiddenArc | regEdgeColour | regOriginalArc | low1 | low2 => .graphArcs
  | edgeType => .arcsTwice

/-- A sparse graph with its pools. The attributes in `graph.others` have these tokens. -/
structure PooledGraph where
  graph : SparseGraph
  tokens : List PoolToken
  /-- `TokReprDemand` -/
  demand : Option (Attribute ℚ)

/-- The methods of a sparse graph that access the pools. -/
abbrev PoolM := EStateM Raise PooledGraph

/-- `SizeInfo` with `SIZE_ACTUAL` -/
def SparseGraph.sizeInfo (st : SparseGraph) : ArrayDim → ℕ
  | .graphNodes => st.rep.nAct
  | .graphArcs => st.rep.mAct
  | .arcsTwice => 2 * st.rep.mAct
  | .layoutNodes => st.lAct
  | .singleton => 1

/-- `SizeInfo` with `SIZE_RESERVED` -/
def SparseGraph.reserved (st : SparseGraph) : ArrayDim → ℕ
  | .graphNodes => st.rep.nMax
  | .graphArcs => st.rep.mMax
  | .arcsTwice => 2 * st.rep.mMax
  | .layoutNodes => st.lMax
  | .singleton => 1

namespace PooledGraph

open SparseState (rev)

/-- The constructor, for a graph with `n` nodes and without arcs. -/
def new (n maxNode maxArc : ℕ) (orientation : Option (Attribute ℕ)) : PooledGraph :=
  ⟨SparseGraph.new n maxNode maxArc orientation, [], none⟩

/-- A method that only accesses attributes which belong to the graph. -/
def lift {α : Type} (x : GraphM α) : PoolM α := fun pg =>
  match x pg.graph with
  | .ok value graph => .ok value { pg with graph := graph }
  | .error e graph => .error e { pg with graph := graph }

/-! ## Pools -/

/-- The size of an attribute, if it is in the pool. -/
def attributeSize (pg : PooledGraph) (token : PoolToken) : Option ℕ :=
  ((pg.tokens.zip pg.graph.others).find? fun A => A.1 = token).map fun A => A.2.2

section

variable (token : PoolToken)

/-- `MakeAttribute` with `ATTR_FULL_RANK`, for an attribute that is not in the pool. There is none
if nothing can be represented. -/
def makeAttribute : PoolM Bool := do
  let pg ← get
  if pg.graph.reserved token.arrayDim = 0 then return false
  else do
    set { pg with
      graph := { pg.graph with
        others := (token.arrayDim, pg.graph.sizeInfo token.arrayDim) :: pg.graph.others }
      tokens := token :: pg.tokens }
    return true

/-- `InitAttribute`, which leaves the size of an attribute as it is. -/
def initAttribute : PoolM Bool := do
  let pg ← get
  if token ∈ pg.tokens then return true else makeAttribute token

/-- `InitArray`. It is a fault if no attribute has been made. -/
def initArray : PoolM Unit := do
  let made ← initAttribute token
  if made then pure () else throw .fault

def releaseAttribute : PoolM Unit := do
  let pg ← get
  let i := pg.tokens.findIdx fun t => t = token
  set { pg with
    graph := { pg.graph with others := pg.graph.others.eraseIdx i }
    tokens := pg.tokens.eraseIdx i }

/-- An access to an entry of an attribute. -/
def writeEntry (i : ℕ) : PoolM Unit := do
  let pg ← get
  match pg.attributeSize token with
  | some size => if i < size then pure () else throw .fault
  | none => throw .fault

/-- What the methods `SetDist`, `SetPotential` and so on do to their register. The array is
allocated when the first value is assigned that is not the default value. -/
def setRegister (i : ℕ) (isDefault : Prop) [Decidable isDefault] :
    PoolM Unit := do
  let pg ← get
  match pg.attributeSize token with
  | some (_ + 1) => writeEntry token i
  | _ =>
    if isDefault then pure ()
    else do
      initArray token
      writeEntry token i

end

section

variable (v : ℕ)

def setDist (x : ℚ) : PoolM Unit := do
  let pg ← get
  if pg.graph.n ≤ v then throw (.range "SetDist" "No such node")
  else setRegister .regLabel v (x = infFloat)

def setPotential (x : ℚ) : PoolM Unit := do
  let pg ← get
  if pg.graph.n ≤ v then throw (.range "SetPotential" "No such node")
  else setRegister .regPotential v (x = 0)

def setNodeColour (colour : Option ℕ) : PoolM Unit := do
  let pg ← get
  if pg.graph.n ≤ v then throw (.range "SetNodeColour" "No such node")
  else setRegister .regNodeColour v (colour = none)

def setEdgeColour (a : ℕ) (colour : Option ℕ) : PoolM Unit := do
  let pg ← get
  if 2 * pg.graph.m ≤ a then throw (.range "SetEdgeColour" "No such arc")
  else setRegister .regEdgeColour (a / 2) (colour = none)

def setPred (pred : Option ℕ) : PoolM Unit := do
  let pg ← get
  if pg.graph.n ≤ v then throw (.range "SetPred" "No such node")
  else if pred.any fun a => 2 * pg.graph.m ≤ a then throw (.range "SetPred" "No such arc")
  else if pred.any fun a => pg.graph.rep.startNode (rev a) ≠ some v then
    throw (.rejected "SetPred" "Mismatching end node")
  else setRegister .regPredecessor v (pred = none)

/-- The token of a coordinate. -/
def axis : ℕ → PoolToken
  | 0 => .geoAxis0
  | 1 => .geoAxis1
  | _ => .geoAxis2

def setC (i : ℕ) (pos : ℚ) : PoolM Unit := do
  let pg ← get
  if pg.graph.lAct ≤ v then throw (.range "SetC" "No such node")
  else if 2 < i then pure ()
  else if axis i ∈ pg.tokens then writeEntry (axis i) v
  else if pos = 0 then pure ()
  else do
    let made ← initAttribute (axis i)
    if made then writeEntry (axis i) v else pure ()

def setDemand (x : ℚ) : PoolM Unit := do
  let pg ← get
  if pg.graph.rep.nAct ≤ v then throw (.range "SetDemand" "No such node")
  else modify fun pg => { pg with demand := assign pg.demand 0 pg.graph.rep.nAct v x }

end

def setCDemand (x : ℚ) : PoolM Unit :=
  modify fun pg => { pg with demand := if x ≠ 0 then some ⟨[], x⟩ else none }

def setCLength (x : ℚ) : PoolM Unit :=
  modify fun pg => { pg with
    graph := { pg.graph with length := if x ≠ 1 then some ⟨[], x⟩ else none } }

/-! ## Insertions -/

def insertNode : PoolM ℕ := do
  let v ← lift SparseGraph.insertNode
  modify fun pg => { pg with demand := pg.demand.map fun A => A.appendItems 1 }
  return v

/-! ## Deletions -/

/-- `CancelArc`. It sets the exterior arc if the reverse arc is followed by the arc itself, and
releases it otherwise. -/
def cancelArc (a : ℕ) : PoolM Unit := do
  let pg ← get
  lift (SparseGraph.cancelArc a)
  if pg.graph.rep.right (rev a) = some a then discard (initAttribute .layoutExteriorArc)
  else releaseAttribute .layoutExteriorArc

/-- The loop of `CancelNode`. -/
def cancelLoop (v : ℕ) : ℕ → PoolM Unit
  | 0 => throw .fuel
  | fuel + 1 => do
    let pg ← get
    match pg.graph.rep.first v with
    | none => pure ()
    | some a => do
      cancelArc a
      cancelLoop v fuel

/-- `CancelNode`. A coordinate is set, and allocated if there is none. -/
def cancelNode (v : ℕ) : PoolM Unit := do
  let pg ← get
  if pg.graph.rep.nAct ≤ v then throw (.range "CancelNode" "No such node")
  else do
    cancelLoop v (pg.graph.rep.mAct + 1)
    setC v 0 (-infFloat)

def deleteArc (a : ℕ) : PoolM Unit := do
  let pg ← get
  if 2 * pg.graph.rep.mAct ≤ a then throw (.range "DeleteArc" "No such arc")
  else do
    let a := a &&& rev a
    let ad := 2 * pg.graph.rep.mAct - 2
    (if pg.graph.rep.startNode a ≠ none then cancelArc a else pure ())
    lift (discard (SparseGraph.releaseBendNodes a))
    lift (SparseGraph.swapArcs a ad)
    lift do
      modify fun st => (st.eraseItems .graphArcs 1).eraseItems .arcsTwice 2
      modify fun st => { st with rep := { st.rep with mAct := st.rep.mAct - 1 } }
      modify fun st => { st with ni := st.lAct - st.rep.nAct, m := st.rep.mAct }

def deleteArcs : ℕ → ℕ → PoolM Unit
  | 0, _ => throw .fuel
  | fuel + 1, a => do
    let pg ← get
    if a < 2 * pg.graph.rep.mAct then
      if pg.graph.rep.startNode a = none then do
        deleteArc a
        deleteArcs fuel a
      else deleteArcs fuel (a + 2)
    else pure ()

/-- `sparseRepresentation::DeleteNode`, for a graph node -/
def deleteGraphNode (v : ℕ) : PoolM Unit := do
  lift (modify fun st => { st with adj := none })
  releaseAttribute .layoutExteriorArc
  lift (modify fun st => { st with sDeg := none, sDegInOut := none })
  cancelNode v
  lift (discard (SparseGraph.releaseShapeNodes v))
  let pg ← get
  lift (SparseGraph.swapNodes v (pg.graph.rep.nAct - 1))
  let pg ← get
  lift (if pg.graph.rep.nAct < pg.graph.lAct then
    SparseGraph.swapNodes (pg.graph.rep.nAct - 1) (pg.graph.lAct - 1) else pure ())
  modify fun pg => { pg with demand := pg.demand.map fun A => A.eraseItems 1 }
  lift do
    modify fun st => (st.eraseItems .graphNodes 1).eraseItems .layoutNodes 1
    modify fun st => { st with
      rep := { st.rep with nAct := st.rep.nAct - 1 }
      lAct := st.lAct - 1 }
  let pg ← get
  deleteArcs (pg.graph.rep.mAct + 1) 0

def deleteNode (v : ℕ) : PoolM Unit := do
  let pg ← get
  if pg.graph.lAct ≤ v then throw (.range "DeleteNode" "No such node")
  else do
    (if v < pg.graph.rep.nAct then deleteGraphNode v
      else lift do
        SparseGraph.bypass v
        SparseGraph.eraseLayoutNode v)
    lift (modify fun st => { st with
      n := st.rep.nAct, m := st.rep.mAct, ni := st.lAct - st.rep.nAct })

/-! ## Requests -/

/-- The requests to a graph with its pools. -/
inductive Request where
  | insertNode
  | insertArc (u v : ℕ) (cap length lower : ℚ)
  | insertLayoutPoint
  | insertArcLabelAnchor (a : ℕ)
  | insertThreadSuccessor (v : ℕ)
  | cancelArc (a : ℕ)
  | cancelNode (v : ℕ)
  | deleteArc (a : ℕ)
  | deleteNode (v : ℕ)
  | swapNodes (u v : ℕ)
  | setLength (a : ℕ) (x : ℚ)
  | setUCap (a : ℕ) (x : ℚ)
  | setLCap (a : ℕ) (x : ℚ)
  | setDemand (v : ℕ) (x : ℚ)
  | setCLength (x : ℚ)
  | setCUCap (x : ℚ)
  | setCLCap (x : ℚ)
  | setCDemand (x : ℚ)
  | setC (v i : ℕ) (x : ℚ)
  | setDist (v : ℕ) (x : ℚ)
  | setPotential (v : ℕ) (x : ℚ)
  | setNodeColour (v : ℕ) (x : Option ℕ)
  | setEdgeColour (a : ℕ) (x : Option ℕ)
  | setPred (v : ℕ) (x : Option ℕ)
  /-- `InitPredecessors`, `InitDistanceLabels`, and so on -/
  | initArray (token : PoolToken)
  /-- `ReleaseLabels`, `ReleaseCoordinate`, and so on -/
  | releaseAttribute (token : PoolToken)

/-- A request. -/
def Request.run : Request → PoolM Unit
  | insertNode => discard PooledGraph.insertNode
  | insertArc u v cap length lower => lift (discard (SparseGraph.insertArc u v cap length lower))
  | insertLayoutPoint => lift (discard SparseGraph.insertLayoutPoint)
  | insertArcLabelAnchor a => lift (discard (SparseGraph.insertArcLabelAnchor a))
  | insertThreadSuccessor v => lift (discard (SparseGraph.insertThreadSuccessor v))
  | cancelArc a => PooledGraph.cancelArc a
  | cancelNode v => PooledGraph.cancelNode v
  | deleteArc a => PooledGraph.deleteArc a
  | deleteNode v => PooledGraph.deleteNode v
  | swapNodes u v => lift (SparseGraph.swapNodes u v)
  | setLength a x => lift (SparseGraph.setLength a x)
  | setUCap a x => lift (SparseGraph.setUCap a x)
  | setLCap a x => lift (SparseGraph.setLCap a x)
  | setDemand v x => PooledGraph.setDemand v x
  | setCLength x => PooledGraph.setCLength x
  | setCUCap x => lift (SparseGraph.setCUCap x)
  | setCLCap x => lift (SparseGraph.setCLCap x)
  | setCDemand x => PooledGraph.setCDemand x
  | setC v i x => PooledGraph.setC v i x
  | setDist v x => PooledGraph.setDist v x
  | setPotential v x => PooledGraph.setPotential v x
  | setNodeColour v x => PooledGraph.setNodeColour v x
  | setEdgeColour a x => PooledGraph.setEdgeColour a x
  | setPred v x => PooledGraph.setPred v x
  | initArray token => PooledGraph.initArray token
  | releaseAttribute token => PooledGraph.releaseAttribute token

/-- No attribute of a full-rank pool has this dimension. -/
def Unused (st : SparseGraph) (dim : ArrayDim) : Prop :=
  (∀ A ∈ st.others, A.1 ≠ dim) ∧ (dim = .graphArcs → st.align = none) ∧
    (dim = .layoutNodes → st.thread = none)

/-- No dimension grows from zero which is in use. -/
def Harmless (pg : PooledGraph) : Request → Prop
  | .insertNode => (pg.graph.rep.nAct = 0 → Unused pg.graph .graphNodes) ∧
      (pg.graph.lAct = 0 → Unused pg.graph .layoutNodes)
  | .insertArc .. => pg.graph.rep.mAct = 0 → Unused pg.graph .graphArcs ∧ Unused pg.graph .arcsTwice
  | .insertLayoutPoint | .insertArcLabelAnchor _ | .insertThreadSuccessor _ =>
    pg.graph.lAct = 0 → Unused pg.graph .layoutNodes
  | _ => True

/-! ## Operations on the incidences -/

section Incidences

open SparseState

variable (rep : SparseState)

theorem returns_allocLeft : Returns (fun r => SameSize rep r.1) rep.allocLeft := by
  rw [SparseState.allocLeft]
  cases rep.left with
  | some left => exact .ok (.refl rep)
  | none => exact (any _).bind fun left _ => .ok ⟨rfl, rfl, rfl, rfl, rfl, rfl⟩

theorem returns_faceLoop (exteriorArc : ℕ) : ∀ (count a : ℕ) (rep : SparseState),
    Returns (SameSize rep) (faceLoop exteriorArc count a rep)
  | 0, _, _ => .error _
  | count + 1, a, rep => by
    refine (any _).bind fun v _ => ?_
    have first : Returns (SameSize rep) (rep.setFirst v (rev a)) := by
      exact .ite (.error _) (.ite (.error _) (.ok ⟨rfl, rfl, rfl, rfl, rfl, rfl⟩))
    refine first.bind fun rep1 eq => (any _).bind fun next _ => .ite (.ok eq) ?_
    exact fun rep2 res => eq.trans (returns_faceLoop exteriorArc count next rep1 rep2 res)

theorem returns_unlinkArc (ad : ℕ) : Returns (SameSize rep) (rep.unlinkArc ad) := by
  refine (returns_allocLeft rep).bind fun r eq => (any _).bind fun v _ => .ite ?_ ?_
  · exact .ok ⟨eq.nAct, eq.nMax, eq.mAct, eq.mMax, eq.maxNode, eq.maxArc⟩
  · refine (any _).bind fun al _ => (any _).bind fun ar _ => .ok ?_
    exact ⟨eq.nAct, eq.nMax, eq.mAct, eq.mMax, eq.maxNode, eq.maxArc⟩

theorem returns_cancelArc (a : ℕ) : Returns (SameSize rep) (rep.cancelArc a) := by
  refine .ite (.error _) (.ite (.error _) ?_)
  have marked : Returns (SameSize rep)
      (if rep.right (rev a) = some a then rep.markExteriorFace a else .ok rep) :=
    .ite (returns_faceLoop a _ a rep) (.ok (.refl rep))
  refine marked.bind fun rep1 eq1 => (returns_unlinkArc rep1 a).bind fun rep2 eq2 => ?_
  exact fun rep3 res => (eq1.trans eq2).trans (returns_unlinkArc rep2 (rev a) rep3 res)

theorem returns_swapLinks (a1 a2 : ℕ) : Returns (SameSize rep) (rep.swapLinks a1 a2) := by
  refine (returns_allocLeft rep).bind fun r eq => .ite ?_ (.ok eq)
  refine (any _).bind fun links _ => (any _).bind fun links _ => .ok ?_
  exact ⟨eq.nAct, eq.nMax, eq.mAct, eq.mMax, eq.maxNode, eq.maxArc⟩

theorem returns_swapArcs (a1 a2 : ℕ) : Returns (SameSize rep) (rep.swapArcs a1 a2) := by
  refine .ite (.error _) (.ite (.error _) (.ite (.ok (.refl rep)) ?_))
  refine (any _).bind fun first _ => (any _).bind fun first _ => ?_
  refine (returns_swapLinks _ a1 a2).bind fun rep1 eq => .ite ?_ (.ok ?_)
  · intro rep2 res
    have eq' := eq.trans (returns_swapLinks rep1 (rev a1) (rev a2) rep2 res)
    exact ⟨eq'.nAct, eq'.nMax, eq'.mAct, eq'.mMax, eq'.maxNode, eq'.maxArc⟩
  · exact ⟨eq.nAct, eq.nMax, eq.mAct, eq.mMax, eq.maxNode, eq.maxArc⟩

theorem returns_relabelNode (v x : ℕ) : Returns (SameSize rep) (rep.relabelNode v x) := by
  rw [SparseState.relabelNode]
  cases rep.first v with
  | none => exact .ok (.refl rep)
  | some a => exact (any _).bind fun r _ => .ok ⟨rfl, rfl, rfl, rfl, rfl, rfl⟩

theorem returns_swapNodes (u v : ℕ) : Returns (SameSize rep) (rep.swapNodes u v) := by
  refine .ite (.error _) (.ite (.error _) (.ite (.ok (.refl rep)) ?_))
  refine (returns_relabelNode rep u v).bind fun rep1 eq1 => ?_
  refine (returns_relabelNode rep1 v u).bind fun rep2 eq2 => .ok ?_
  have eq := eq1.trans eq2
  exact ⟨eq.nAct, eq.nMax, eq.mAct, eq.mMax, eq.maxNode, eq.maxArc⟩

theorem returns_linkArc (a u : ℕ) : Returns (SameSize rep) (rep.linkArc a u) := by
  rw [SparseState.linkArc]
  cases rep.first u with
  | none => exact .ok ⟨rfl, rfl, rfl, rfl, rfl, rfl⟩
  | some f => exact (any _).bind fun next _ => .ok ⟨rfl, rfl, rfl, rfl, rfl, rfl⟩

theorem returns_insertArc (u v : ℕ) : Returns
    (fun rep' => rep'.nAct = rep.nAct ∧ rep'.mAct = rep.mAct + 1) (rep.insertArc u v) := by
  refine .ite (.error _) (.ite (.error _) (.ite (.error _) ?_))
  refine (returns_linkArc _ _ _).bind fun rep1 eq1 rep2 res => ?_
  have eq := eq1.trans (returns_linkArc rep1 _ _ rep2 res)
  exact ⟨eq.nAct, eq.mAct⟩

theorem returns_insertNode : Returns
    (fun rep' => rep'.nAct = rep.nAct + 1 ∧ rep'.mAct = rep.mAct) rep.insertNode :=
  .ite (.error _) (.ite (.ok ⟨rfl, rfl⟩) (.ok ⟨rfl, rfl⟩))

end Incidences

/-! ## Methods that keep the sizes -/

section Shape

open SparseGraph

variable {α : Type} {st : SparseGraph}

/-- The counters and the sizes of the attributes. -/
def shape (st : SparseGraph) : (ℕ × ℕ × ℕ) × List (Option ℕ) × List (ArrayDim × ℕ) :=
  ((st.rep.nAct, st.rep.mAct, st.lAct), attributeSizes st)

theorem getArray_eq_some {A : Option (Attribute α)} {B : Attribute α} (array : getArray A = some B) :
    A = some B := (Option.filter_eq_some_iff.1 array).1

theorem keepsAt_modify {γ : Type} {f : SparseGraph → γ} {g : SparseGraph → SparseGraph}
    (eq : f (g st) = f st) : KeepsAt f (modify g : GraphM PUnit) st := eq

theorem keeps_shape_onIncidences {op : SparseState → Except Raise SparseState}
    (eq : ∀ rep, Returns (SparseState.SameSize rep) (op rep)) :
    Keeps shape (onIncidences op) := by
  intro st
  simp only [KeepsAt, finalState, onIncidences]
  cases res : op st.rep with
  | ok rep =>
    have counts := eq st.rep rep res
    simp only [shape, attributeSizes, counts.nAct, counts.mAct]
  | error e => rfl

theorem keeps_shape_cancelArc (a : ℕ) : Keeps shape (SparseGraph.cancelArc a) := by
  refine get.bind fun st => .ite (.throw _) ?_
  cases st.rep.startNode a with
  | none => exact .throw _
  | some u =>
    refine (keeps_labelNode _).bind fun v => ?_
    refine (keeps_markAdjacency (fun _ _ => rfl) u v none).bind fun _ => bind ?_ fun _ => ?_
    · cases st.sub with
      | none => exact .pure _
      | some sub => exact .ite (.throw _) (keeps_adjustDegrees (fun _ _ _ => rfl) _ _)
    · exact keeps_shape_onIncidences fun rep => returns_cancelArc rep a

theorem shape_exchangeReferences (st : SparseGraph) (u v : ℕ) :
    shape (st.exchangeReferences u v) = shape st := by
  rw [exchangeReferences]
  cases array : getArray st.align with
  | none => rfl
  | some align =>
    have alignEq := getArray_eq_some array
    cases arrayT : getArray st.thread with
    | none => simp [shape, attributeSizes, alignEq, Attribute.size]
    | some thread =>
      have threadEq := getArray_eq_some arrayT
      simp [shape, attributeSizes, alignEq, threadEq, Attribute.size]

theorem size_map_swapItems (A : Option (Attribute α)) (i j : ℕ) :
    (A.map fun A => A.swapItems i j).map Attribute.size = A.map Attribute.size := by
  rw [Option.map_map]
  congr 1
  funext A
  exact size_swapItems A i j

theorem keeps_shape_swapNodes (u v : ℕ) : Keeps shape (SparseGraph.swapNodes u v) := by
  refine get.bind fun st => .ite (.throw _) (.ite (.throw _) (.ite (.pure _) ?_))
  refine (modify fun st => shape_exchangeReferences st u v).bind fun _ => ?_
  refine bind (.modify fun st => ?_) fun _ => .ite (.pure _) ?_
  · simp only [shape, attributeSizes, size_map_swapItems]
  · exact keeps_shape_onIncidences fun rep => returns_swapNodes rep u v

theorem size_relink (revThread : ℕ → Option ℕ) : ∀ (fuel : ℕ) (thread : Attribute (Option ℕ))
    (y : Option ℕ) {thread' : Attribute (Option ℕ)},
    relink revThread fuel thread y = some thread' → thread'.size = thread.size
  | 0, _, _, _, res => by cases res
  | _ + 1, _, none, _, res => by cases res; rfl
  | fuel + 1, thread, some y, thread', res => by
    rw [size_relink revThread fuel _ _ res, size_setValue]

theorem keeps_shape_reverseBends (x : Option ℕ) : Keeps shape (reverseBends x) := by
  intro st
  refine KeepsAt.bind (get st) fun st1 s res => ?_
  cases res
  split
  · rename_i x thread array
    have threadEq := getArray_eq_some array
    split
    · exact pure _ st
    split
    · exact throw _ st
    split
    · exact throw _ st
    · rename_i thread' relinked
      refine keepsAt_modify ?_
      have size := size_relink _ _ _ _ relinked
      simp [shape, attributeSizes, threadEq, size]
  · exact pure _ st

theorem keeps_shape_swapArcs (a1 a2 : ℕ) : Keeps shape (SparseGraph.swapArcs a1 a2) := by
  refine (keeps_shape_onIncidences fun rep => returns_swapArcs rep a1 a2).bind fun _ =>
    .ite (.pure _) ?_
  refine bind (.modify fun st => ?_) fun _ => .ite (.pure _) (get.bind fun st => ?_)
  · simp only [shape, attributeSizes, swapEdges, size_map_swapItems]
  · cases getArray st.align with
    | none => exact .pure _
    | some align =>
      exact (keeps_shape_reverseBends _).bind fun _ => .ite (keeps_shape_reverseBends _) (.pure _)

theorem keeps_shape_onQueue (res : Except Raise α) : Keeps shape (onQueue res) := by
  cases res with
  | ok val => exact .pure _
  | error e => exact .throw _

theorem keeps_shape_collect : ∀ (fuel : ℕ) (Q : BinaryHeap ℕ) (w : Option ℕ),
    Keeps shape (collect fuel Q w)
  | 0, _, _ => .throw _
  | _ + 1, _, none => .pure _
  | fuel + 1, Q, some w => by
    intro st
    refine KeepsAt.bind (get st) fun st1 s res => ?_
    cases res
    cases array : getArray st.thread with
    | none => exact pure _ st
    | some thread =>
      have threadEq := getArray_eq_some array
      refine KeepsAt.bind (keepsAt_modify ?_) fun _ s _ => ?_
      · simp [shape, attributeSizes, threadEq]
      · exact ((keeps_shape_onQueue _).bind fun Q => keeps_shape_collect fuel Q _) s

end Shape

end PooledGraph

end Goblin
