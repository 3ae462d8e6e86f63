import Goblin.BaseTypes
import Goblin.FileImport

/-!
# Loading a graph

A graph file is a pool of attributes and of further pools. `ReadPool` calls `ReadAttribute` until
it reads an empty label, and `ReadAttribute` looks up the label and either reads an
array of values, passes the control to `ReadSpecial`, or skips a tuple with an unknown
label. All of them read tokens until one closes the tuple; none of them asks whether the file
has come to its end.

The number of steps is bounded by an argument, and exceeding it is an error of its own. What the
graph object does with the data it receives is a parameter (`GraphObject`), as the
loops do not depend on it. The flag `starved` is no part of the program. It records
that `Scan` has been called at the end of the file by another loop than that of `ReadPool`, or
with a label in the old buffer.
-/

set_option autoImplicit false

namespace Goblin

open Goblin.Library

/-- What `ReadSpecial` does for a token. -/
inductive Special (P : Type) where
  | nothing
  | pool (p : P)
  | layout (p : P)
  | nodes
  | arcs
  | incidences
  | subgraph
  | configuration

/-- The pools of an object with their tables. -/
structure Schema (P : Type) where
  table : P → List PoolEntry
  fullRank : P → Bool
  special : P → Nat → Special P

/-- The entry with a label, where synonymous tokens are replaced. -/
def Schema.lookup {P : Type} (S : Schema P) (p : P) (label : List Char) :
    Option (Nat × PoolEntry) := do
  let found ← (S.table p).find? fun entry => entry.tokenLabel = label
  let entry ← (S.table p)[found.primaryIndex]?
  return (found.primaryIndex, entry)

/-- Why the data is not accepted. -/
inductive Refusal where
  /-- An unknown layout model, which is a parse error, too. -/
  | layoutModel
  /-- Another exception of the graph object, memory that is deleted twice, or boolean entries,
  which are written through a dangling pointer. -/
  | rejected
  deriving DecidableEq, Repr

inductive LoadError where
  | parse (e : ParseError)
  | refused (e : Refusal)
  | outOfFuel
  deriving DecidableEq, Repr

/-- The methods of a graph object that receive the data. -/
structure GraphObject (X : Type) where
  /-- `SizeInfo` with `SIZE_ACTUAL` -/
  sizeInfo : X → ArrayDim → Nat
  /-- `SizeInfo` with `SIZE_RESERVED` -/
  reserved : X → ArrayDim → Nat
  nAct : X → Nat
  m : X → Nat
  /-- The end of `ReadNNodes` -/
  setNodes : X → List Value → X
  /-- The end of `ReadNArcs`, with `CheckLimits` and `Reserve` -/
  setArcs : X → List Value → Except Refusal X
  /-- The assignments in `ReadIncidences` -/
  setIncidences : X → List (List Value) → X
  /-- The end of `ReadSubgraph`, with its test of the bounds -/
  setSubgraph : X → List Value → Nat → Except Refusal X
  /-- The end of `ReadLayoutData` -/
  setLayout : X → AttributePool → Except Refusal X
  /-- `Configure` -/
  configure : X → List (List Char) → X

structure Loader (P X : Type) where
  F : GoblinImport
  object : X
  pools : P → AttributePool
  starved : Bool

abbrev LoadM (P X : Type) := EStateM LoadError (Loader P X)

namespace LoadM

variable {P X : Type}

def scan : LoadM P X (List Char) := fun s =>
  match s.F.scan none with
  | .ok (text, F) => .ok text { s with F := F }
  | .error e => .error (.parse e) s

/-- `Scan` in a loop that waits for the end of a tuple. -/
def scanInside : LoadM P X (List Char) := do
  modify fun s => { s with starved := s.starved || s.F.impFile.exhausted }
  scan

/-- `Scan` where a label or the end of a pool is expected. -/
def scanLabel : LoadM P X (List Char) := do
  let s ← get
  let label ← scan
  modify fun t => { t with starved := t.starved || (s.F.impFile.exhausted && label ≠ []) }
  return label

/-- A result of the graph object. -/
def accept (result : Except Refusal X) : LoadM P X Unit := fun s =>
  match result with
  | .ok object => .ok () { s with object := object }
  | .error e => .error (.refused e) s

def setLength (length : Nat) : LoadM P X Unit :=
  modify fun s => { s with F := { s.F with length := length } }

/-! ## Tuples -/

/-- `while (!F.Tail()) F.Scan();` -/
def skipTuple : Nat → LoadM P X Unit
  | 0 => throw .outOfFuel
  | fuel + 1 => do
    let s ← get
    if s.F.tail then pure ()
    else do
      let _ ← scanInside
      skipTuple fuel

/-- The loop of `ReadTupleValues`. One entry too many is left out; what is written
for further ones is beyond the end of the array. -/
def readValues (type : BaseType) (reqLength : Nat) :
    Nat → List Value → Nat → LoadM P X (List Value × Nat)
  | 0, _, _ => throw .outOfFuel
  | fuel + 1, array, length => do
    let s ← get
    if s.F.tail then return (array, length)
    else do
      let label ← scanInside
      if label = [] then readValues type reqLength fuel array length
      else if length = reqLength ∧ 0 < length then
        readValues type reqLength fuel array (length + 1)
      else if type = .special then readValues type reqLength fuel array length
      else readValues type reqLength fuel (array.set length (type.read label)) (length + 1)

def readTupleValues (type : BaseType) (reqLength fuel : Nat) (array : List Value) :
    LoadM P X (List Value) := do
  let result ← readValues type reqLength fuel array 0
  setLength result.2
  if result.2 < reqLength ∧ result.2 ≠ 1 then throw (.parse .lengthMismatch)
  else return result.1

/-- The loop of `GetTNodeTuple` and `GetTArcTuple`. -/
def readIndices (type : BaseType) (k : Nat) : Nat → List Value → LoadM P X (List Value)
  | 0, _ => throw .outOfFuel
  | fuel + 1, tuple => do
    let s ← get
    if s.F.tail then return tuple
    else do
      let label ← scanInside
      if label = [] then readIndices type k fuel tuple
      else if tuple.length = k ∧ 0 < tuple.length then throw (.parse .lengthMismatch)
      else readIndices type k fuel (tuple ++ [type.read label])

def getIndexTuple (type : BaseType) (k fuel : Nat) : LoadM P X (List Value) := do
  let tuple ← readIndices type k fuel []
  setLength tuple.length
  if tuple.length ≠ 1 ∧ tuple.length ≠ k ∧ k ≠ 0 then throw (.parse .lengthMismatch)
  else return tuple

def getTNodeTuple (k fuel : Nat) : LoadM P X (List Value) :=
  getIndexTuple .nodeIndex k fuel

def getTArcTuple (k fuel : Nat) : LoadM P X (List Value) :=
  getIndexTuple .arcIndex k fuel

/-- The loop of `GetTFloatTuple`. What exceeds the length is counted only. -/
def readFloats (k : Nat) : Nat → List Value → Nat → LoadM P X (List Value × Nat)
  | 0, _, _ => throw .outOfFuel
  | fuel + 1, tuple, length => do
    let s ← get
    if s.F.tail then return (tuple, length)
    else do
      let label ← scanInside
      if label = [] then readFloats k fuel tuple length
      else if length < k ∨ (length = 0 ∧ k = 0) then
        readFloats k fuel (tuple ++ [BaseType.floatValue.read label]) (length + 1)
      else readFloats k fuel tuple (length + 1)

def getTFloatTuple (k fuel : Nat) : LoadM P X (List Value × Nat) := do
  let result ← readFloats k fuel [] 0
  setLength result.2
  if result.2 < k ∧ result.2 ≠ 1 then throw (.parse .lengthMismatch)
  else return result

/-! ## Special data -/

/-- The lists of `ReadIncidences`, one for each node. -/
def readLists (fuel : Nat) : Nat → List (List Value) → LoadM P X (List (List Value))
  | 0, lists => return lists
  | nodes + 1, lists => do
    let _ ← scanInside
    let list ← getTArcTuple 0 fuel
    readLists fuel nodes (lists ++ [list])

section

variable (O : GraphObject X)

def readIncidences (fuel : Nat) : LoadM P X Unit := do
  let s ← get
  let lists ← readLists fuel (O.nAct s.object) []
  let _ ← scanInside
  modify fun s => { s with object := O.setIncidences s.object lists }

/-- The first loop of `ReadConfiguration`, with its bounds on the number of parameters and
on their length. -/
def readParams : Nat → List (List Char) → Nat → LoadM P X (List (List Char))
  | 0, _, _ => throw .outOfFuel
  | fuel + 1, params, offset => do
    let s ← get
    if s.F.tail then return params
    else do
      let token ← scanInside
      if params.length + 1 = 500 ∨ 2000 - offset < token.length + 1 then return params
      else readParams fuel (params ++ [token]) (offset + (token.length + 1))

/-- The two loops of `ReadConfiguration` and what follows them. -/
def readParameters (fuel : Nat) : LoadM P X Unit := do
  let params ← readParams fuel [] 0
  skipTuple fuel
  modify fun s => { s with object := O.configure s.object params }

/-- `ReadConfiguration`. The handler of parse errors deletes the parameters, which are
used and deleted afterwards. -/
def readConfiguration (fuel : Nat) : LoadM P X Unit := fun s =>
  match readParameters O fuel s with
  | .error (.parse _) s' => .error (.refused .rejected) s'
  | result => result

end

/-! ## Pools -/

variable [DecidableEq P]

def setPool (p : P) (pool : AttributePool) : LoadM P X Unit :=
  modify fun s => { s with pools := Function.update s.pools p pool }

/-- The array of an attribute, which is kept as a constant or dropped if it is a single
value. -/
def readArray (S : Schema P) (O : GraphObject X) (fuel : Nat) (p : P) (token : Nat)
    (entry : PoolEntry) : LoadM P X Unit := do
  let s ← get
  let made := (s.pools p).makeAttribute token entry.arrayType
    (O.sizeInfo s.object entry.arrayDim) (O.reserved s.object entry.arrayDim)
  setPool p made.1
  -- `GetArray` has no address for the bits of a boolean attribute
  if entry.arrayType = .bool then throw (.refused .rejected)
  else do
    let data ← readTupleValues entry.arrayType made.2.size fuel made.2.data
    let s ← get
    let A : Attribute Value := { made.2 with data := data }
    if entry.arrayDim ≠ .singleton ∧ s.F.length = 1 then
      if S.fullRank p then setPool p ((s.pools p).releaseAttribute token)
      else setPool p ((s.pools p).setAttribute token ⟨[], A.getValue 0⟩)
    else setPool p ((s.pools p).setAttribute token A)

mutual

/-- `ReadAttribute`, which returns the token -/
def readAttribute (S : Schema P) (O : GraphObject X) : Nat → P → LoadM P X Nat
  | 0, _ => throw .outOfFuel
  | fuel + 1, p => do
    let label ← scanLabel
    if label = [] then return (S.table p).length
    else
      match S.lookup p label with
      | none => do
        skipTuple fuel
        return (S.table p).length - 1
      | some (token, entry) => do
        (if entry.arrayType = .special then readSpecial S O fuel p token
          else readArray S O fuel p token entry)
        return token

def readSpecial (S : Schema P) (O : GraphObject X) : Nat → P → Nat → LoadM P X Unit
  | 0, _, _ => throw .outOfFuel
  | fuel + 1, p, token =>
    match S.special p token with
    | .nothing => pure ()
    | .pool q => readPool S O fuel q
    | .layout q => do
      readPool S O fuel q
      let s ← get
      accept (O.setLayout s.object (s.pools q))
    | .nodes => do
      let nodes ← getTNodeTuple 3 fuel
      modify fun s => { s with object := O.setNodes s.object nodes }
    | .arcs => do
      let arcs ← getTArcTuple 1 fuel
      let s ← get
      accept (O.setArcs s.object arcs)
    | .incidences => readIncidences O fuel
    | .subgraph => do
      let s ← get
      let result ← getTFloatTuple (O.m s.object) fuel
      let s ← get
      accept (O.setSubgraph s.object result.1 result.2)
    | .configuration => readConfiguration O fuel

def readPool (S : Schema P) (O : GraphObject X) : Nat → P → LoadM P X Unit
  | 0, _ => throw .outOfFuel
  | fuel + 1, p => do
    let token ← readAttribute S O fuel p
    if token = (S.table p).length then pure () else readPool S O fuel p

end

end LoadM

/-! ## Graph files -/

/-- The pools of a graph. The first one is known to the loader only. -/
inductive GraphPool where
  | root
  | representation
  | geometry
  | layout
  | registers
  deriving DecidableEq, Repr

private def poolEntry (label : String) (arrayType : BaseType) (arrayDim : ArrayDim)
    (primaryIndex : Nat) : PoolEntry :=
  ⟨label.toList, arrayType, arrayDim, primaryIndex⟩

def listOfGraphPars : List PoolEntry :=
  [ poolEntry "definition" .special .singleton 0, poolEntry "objectives" .special .singleton 1,
    poolEntry "geometry" .special .singleton 2,
    poolEntry "layout" .special .singleton 3,
    poolEntry "solutions" .special .singleton 4,
    poolEntry "configure" .special .singleton 5,
    poolEntry "commodities" .int .singleton 6,
    poolEntry "bound" .floatValue .singleton 7,
    poolEntry "length" .special .singleton 8 ]

def listOfReprPars : List PoolEntry :=
  [ poolEntry "ucap" .capValue .graphArcs 0, poolEntry "lcap" .capValue .graphArcs 1,
    poolEntry "length" .floatValue .graphArcs 2,
    poolEntry "demand" .capValue .graphNodes 3,
    poolEntry "directed" .orientation .graphArcs 4,
    poolEntry "first" .special .graphNodes 5,
    poolEntry "right" .special .arcsTwice 6,
    poolEntry "startNode" .special .arcsTwice 7,
    poolEntry "incidences" .special .singleton 8,
    poolEntry "nodes" .special .singleton 9,
    poolEntry "arcs" .special .singleton 10,
    poolEntry "comm0" .floatValue .graphArcs 2 ]

def listOfGeometryPars : List PoolEntry :=
  [ poolEntry "dim" .int .singleton 0, poolEntry "metrics" .int .singleton 1,
    poolEntry "coordinates" .special .singleton 2,
    poolEntry "axis0" .floatValue .layoutNodes 3,
    poolEntry "axis1" .floatValue .layoutNodes 4,
    poolEntry "axis2" .floatValue .layoutNodes 5 ]

def listOfLayoutPars : List PoolEntry :=
  [ poolEntry "model" .int .singleton 0, poolEntry "style" .int .singleton 0,
    poolEntry "align" .nodeIndex .graphArcs 2,
    poolEntry "thread" .nodeIndex .layoutNodes 3,
    poolEntry "interpolate" .nodeIndex .layoutNodes 3,
    poolEntry "hiddenNode" .bool .graphNodes 5,
    poolEntry "hiddenArc" .bool .graphArcs 6,
    poolEntry "exteriorArc" .arcIndex .singleton 7 ]

def listOfRegisters : List PoolEntry :=
  [ poolEntry "label" .floatValue .graphNodes 0, poolEntry "predecessor" .arcIndex .graphNodes 1,
    poolEntry "subgraph" .special .graphArcs 2,
    poolEntry "potential" .floatValue .graphNodes 3,
    poolEntry "nodeColour" .nodeIndex .graphNodes 4,
    poolEntry "edgeColour" .arcIndex .graphArcs 5,
    poolEntry "colour" .nodeIndex .graphNodes 4,
    poolEntry "originalNode" .index .graphNodes 7,
    poolEntry "originalArc" .index .graphArcs 8,
    poolEntry "V_T" .bool .graphNodes 9,
    poolEntry "EdgeType" .int .arcsTwice 10,
    poolEntry "PreO" .nodeIndex .graphNodes 11,
    poolEntry "PostO" .nodeIndex .graphNodes 12,
    poolEntry "Low1" .nodeIndex .graphArcs 13,
    poolEntry "Low2" .nodeIndex .graphArcs 14 ]

/-- The switch of `ReadSpecial`, for graphs with a sparse representation. -/
def graphSpecial : GraphPool → Nat → Special GraphPool
  | .root, 0 => .pool .representation
  | .root, 1 => .pool .root
  | .root, 2 => .pool .geometry
  | .root, 3 => .layout .layout
  | .root, 4 => .pool .registers
  | .root, 5 => .configuration
  | .root, 8 => .pool .representation
  | .representation, 8 => .incidences
  | .representation, 9 => .nodes
  | .representation, 10 => .arcs
  | .geometry, 2 => .pool .geometry
  | .registers, 2 => .subgraph
  | _, _ => .nothing

def graphSchema : Schema GraphPool where
  table
    | .root => listOfGraphPars
    | .representation => listOfReprPars
    | .geometry => listOfGeometryPars
    | .layout => listOfLayoutPars
    | .registers => listOfRegisters
  fullRank p := p ≠ .representation
  special := graphSpecial

def LoadM.readAllData {X : Type} (O : GraphObject X) (fuel : Nat) : LoadM GraphPool X Unit :=
  LoadM.readPool graphSchema O fuel .root

end Goblin
