import Goblin.BaseTypes
import Goblin.TupleRoundTrip

/-!
# Writing attribute pools

A pool is written as a tuple of tuples, one for each attribute. The tuple of an attribute has its
label and all of its entries, where one value of each type, the undefined one, is written as an
asterisk. A single entry stands in the line of the label, several entries are arranged in columns.

The width of the columns is computed from the formatted numbers, which pass through a buffer of 25
characters, the undefined ones included.

A `TypedPool` is a pool as the template code can build it: its entries have the types of the table.
-/

set_option autoImplicit false

namespace Goblin

open List Value
open Goblin.Library

variable {externalPrecision : ℕ}

/-! ## Values -/

/-- The type of an entry of an attribute. -/
def Value.HasType : Value → BaseType → Prop
  | .index _, type => type = .nodeIndex ∨ type = .arcIndex ∨ type = .index ∨ type = .varIndex ∨
      type = .restrIndex
  | .float _, type => type = .floatValue ∨ type = .capValue
  | .orientation _, type => type = .orientation
  | .int _, type => type = .int
  | .bool _, type => type = .bool
  | .string s, type => type = .string ∧ s ≠ .inBuffer

instance (v : Value) (type : BaseType) : Decidable (v.HasType type) := by
  cases v <;> unfold HasType <;> infer_instance

/-- The value which `attributePool::WriteAttribute` declares to be undefined. -/
def BaseType.omitted : BaseType → Value
  | .int => .int (-1)
  | type => type.undefined

/-- The characters that a string pointer leads to. -/
def TString.chars : TString → List Char
  | .text chars => chars
  | _ => []

/-- Floating point numbers are taken exactly: they have as many digits as are written. -/
def Value.Exact (externalPrecision : ℕ) : Value → Prop
  | .float q => ∃ k : ℤ, q = k / 10 ^ externalPrecision
  | _ => True

/-! ## The writer -/

/-- The settings of the controller, with the bound of `SetExternalPrecision`. What `sprintf` prints
for `%.*g` is needed for its length only. -/
structure NumberFormat where
  externalFloatLength : ℕ
  generalLength : ℕ → Int64 → ℕ
  bounded : externalFloatLength ≤ 15

namespace GoblinExport

variable (CT : NumberFormat)

/-- `MakeStringItem`, for texts of any length -/
def makeText (item : List Char) (length : ℕ) (F : GoblinExport) : GoblinExport :=
  { F.indent with expFile := F.indent.expFile ++ (padded length ['"'] ++ (item ++ ['"'])) }

/-- `MakeItem` -/
def makeValue (item : Value) (length : ℕ) (F : GoblinExport) : Except ExportError GoblinExport :=
  match item with
  | .index i => .ok (F.makeIntItem i.toInt64 length)
  | .float q => F.makeFloatItem q length
  | .orientation c => .ok (F.makeIntItem c.toInt64 length)
  | .int i => .ok (F.makeIntItem i.toInt64 length)
  | .bool b => .ok (F.makeIntItem (if b then 1 else 0) length)
  | .string s => .ok (F.makeText s.chars length)

def externalIntLength (val : Int64) (F : GoblinExport) : ℕ :=
  min (CT.generalLength F.externalPrecision val) CT.externalFloatLength

/-- `ExternalFloatLength`. The text passes through `lengthCheckBuffer`, which has room for 24
characters. -/
def externalFloatLength (val : ℚ) (F : GoblinExport) : Except ExportError ℕ :=
  let lengthCheckBuffer := fixedText F.externalPrecision val
  if 25 ≤ lengthCheckBuffer.length then .error .itemOverflow
  else .ok (min lengthCheckBuffer.length CT.externalFloatLength)

/-- `ExternalLength` as a character, which is not considered unless it is positive. -/
def externalLength (value : Value) (F : GoblinExport) : Except ExportError ℕ :=
  match value with
  | .index i => .ok (F.externalIntLength CT i.toInt64)
  | .float q => F.externalFloatLength CT q
  | .orientation c => .ok (F.externalIntLength CT c.toInt64)
  | .int i => .ok (F.externalIntLength CT i.toInt64)
  | .bool b => .ok (F.externalIntLength CT (if b then 1 else 0))
  | .string s => .ok (Int8.ofNat (s.chars.length + 2)).toInt.toNat

/-- The first loop of `WriteAttribute`. -/
def columnWidth (undefined : Value) (F : GoblinExport) : List Value → ℕ → Except ExportError ℕ
  | [], length => .ok length
  | v :: array, length => do
    let thisLength ← F.externalLength CT v
    columnWidth undefined F array
      (if v ≠ undefined ∧ length < thisLength then thisLength else length)

/-- An entry, or an asterisk. -/
def writeEntry (undefined : Value) (length : ℕ) (v : Value) (F : GoblinExport) :
    Except ExportError GoblinExport :=
  if v = undefined then .ok (F.makeNoItem length) else F.makeValue v length

/-- The second loop of `WriteAttribute`. -/
def writeEntries (undefined : Value) (length : ℕ) :
    List Value → GoblinExport → Except ExportError GoblinExport
  | [], F => .ok F
  | v :: array, F => do
    let F ← F.writeEntry undefined length v
    writeEntries undefined length array F

def writeAttribute (label : Label) (undefined : Value) (array : List Value) (F : GoblinExport) :
    Except ExportError GoblinExport :=
  match array with
  | [v] => do
    let F ← F.startTuple label 1
    let F ← F.writeEntry undefined 0 v
    F.endTuple
  | _ => do
    let F ← F.startTuple label 10
    let length ← F.columnWidth CT undefined array 1
    let F ← F.writeEntries undefined length array
    F.endTuple

end GoblinExport

/-! ## Pools -/

/-- A table as the library has them: the labels are words, and they are different. -/
structure Labelled (table : List PoolEntry) : Prop where
  isWord : ∀ entry ∈ table, IsWord entry.tokenLabel
  visible : ∀ entry ∈ table, '\x00' ∉ entry.tokenLabel
  unclosed : ∀ entry ∈ table, entry.tokenLabel.getLast? ≠ some ')'
  short : ∀ entry ∈ table, entry.tokenLabel.length < 250
  distinct : (table.map PoolEntry.tokenLabel).Nodup

/-- The label of a token. -/
def Labelled.label {table : List PoolEntry} (labelled : Labelled table)
    (token : Fin table.length) : Label :=
  .header ⟨table[token].tokenLabel, labelled.isWord _ (getElem_mem _),
    labelled.visible _ (getElem_mem _), labelled.unclosed _ (getElem_mem _),
    labelled.short _ (getElem_mem _)⟩

/-- A pool whose attributes have the types of the table and one entry for each index of their
dimension. Special data is no attribute. -/
structure TypedPool (table : List PoolEntry) (sizeInfo : ArrayDim → ℕ) (externalPrecision : ℕ) where
  attributes : List (Fin table.length × Attribute Value)
  distinct : (attributes.map Prod.fst).Nodup
  primary : ∀ A ∈ attributes, table[A.1].primaryIndex = A.1
  ordinary : ∀ A ∈ attributes, table[A.1].arrayType ≠ .special
  full : ∀ A ∈ attributes, A.2.size = sizeInfo table[A.1].arrayDim
  typed : ∀ A ∈ attributes, ∀ v ∈ A.2.data, v.HasType table[A.1].arrayType
  exact : ∀ A ∈ attributes, ∀ v ∈ A.2.data, v.Exact externalPrecision

namespace TypedPool

variable {table : List PoolEntry} {sizeInfo : ArrayDim → ℕ} {externalPrecision : ℕ}

/-- The pool without its types. -/
def untyped (pool : TypedPool table sizeInfo externalPrecision) : AttributePool :=
  ⟨pool.attributes.map fun A => (A.1.val, A.2)⟩

end TypedPool

/-- `GetArray`, for an attribute of the given type -/
def arrayOf (type : BaseType) (data : List Value) : Except ExportError (List Value) :=
  if type = .bool then .error .dangling else .ok data

/-- The loop of `WritePool`. -/
def writeAttributes {table : List PoolEntry} (CT : NumberFormat) (labelled : Labelled table) :
    List (Fin table.length × Attribute Value) → GoblinExport → Except ExportError GoblinExport
  | [], F => .ok F
  | A :: attributes, F => do
    let array ← arrayOf table[A.1].arrayType A.2.data
    let F ← F.writeAttribute CT (labelled.label A.1) table[A.1].arrayType.omitted array
    writeAttributes CT labelled attributes F

/-- The loop of `WritePool` for the special data of the object, which `WriteSpecial` writes. -/
def writeSpecials {table : List PoolEntry}
    (writeSpecial : Fin table.length → GoblinExport → Except ExportError GoblinExport) :
    List (Fin table.length) → GoblinExport → Except ExportError GoblinExport
  | [], F => .ok F
  | token :: tokens, F => do
    let F ← if table[token].arrayType = .special then writeSpecial token F else .ok F
    writeSpecials writeSpecial tokens F

def writePool {table : List PoolEntry} (CT : NumberFormat) (labelled : Labelled table)
    (writeSpecial : Fin table.length → GoblinExport → Except ExportError GoblinExport)
    (attributes : List (Fin table.length × Attribute Value)) (poolLabel : Header)
    (F : GoblinExport) : Except ExportError GoblinExport := do
  let F ← F.startTuple (.header poolLabel) 0
  let F ← writeAttributes CT labelled attributes F
  let F ← writeSpecials writeSpecial (finRange table.length) F
  F.endTuple

/-! ## The widths -/

namespace GoblinExport

variable {CT : NumberFormat} {undefined : Value} {F : GoblinExport} {array : List Value}
  {length width : ℕ}

/-- The entries that pass through `lengthCheckBuffer` are short. -/
def Short (externalPrecision : ℕ) (array : List Value) : Prop :=
  ∀ q, float q ∈ array → (fixedText externalPrecision q).length ≤ 24

theorem externalLength_ok (CT : NumberFormat) (v : Value) (short : Short F.externalPrecision [v]) :
    ∃ thisLength, F.externalLength CT v = .ok thisLength ∧
      ((∀ s, v ≠ .string s) → thisLength ≤ 15) := by
  cases v with
  | float q =>
    have fits : ¬ 25 ≤ (fixedText F.externalPrecision q).length := by
      have := short q (by simp)
      omega
    refine ⟨_, if_neg fits, fun _ => ?_⟩
    exact (min_le_right _ _).trans CT.bounded
  | string s => exact ⟨_, rfl, fun other => absurd rfl (other s)⟩
  | index i | orientation c | int i => exact ⟨_, rfl, fun _ => (min_le_right _ _).trans CT.bounded⟩
  | bool b => exact ⟨_, rfl, fun _ => (min_le_right _ _).trans CT.bounded⟩

theorem columnWidth_ok (CT : NumberFormat) (undefined : Value) (length : ℕ)
    (short : Short F.externalPrecision array) :
    ∃ width, F.columnWidth CT undefined array length = .ok width ∧
      ((∀ s, string s ∉ array) → length ≤ 15 → width ≤ 15) := by
  induction array generalizing length with
  | nil => exact ⟨length, rfl, fun _ bound => bound⟩
  | cons v array ih =>
    have first : Short F.externalPrecision [v] :=
      fun q mem => short q (by simp [mem_singleton.mp mem])
    obtain ⟨thisLength, res, bounded⟩ := externalLength_ok CT v first
    obtain ⟨width, later, narrow⟩ := ih
      (if v ≠ undefined ∧ length < thisLength then thisLength else length)
      fun q mem => short q (mem_cons_of_mem v mem)
    refine ⟨width, by rw [columnWidth, res]; exact later, fun other bound => ?_⟩
    refine narrow (fun s mem => other s (mem_cons_of_mem v mem)) ?_
    split
    · exact bounded fun s eq => other s (by simp [eq])
    · exact bound

theorem short_of_columnWidth (computed : F.columnWidth CT undefined array length = .ok width) :
    Short F.externalPrecision array := by
  induction array generalizing length with
  | nil =>
    intro q mem
    cases mem
  | cons v array ih =>
    rw [columnWidth] at computed
    cases res : F.externalLength CT v with
    | error e =>
      rw [res] at computed
      cases computed
    | ok thisLength =>
      rw [res] at computed
      intro q mem
      rcases mem_cons.mp mem with rfl | later
      · rw [externalLength, externalFloatLength] at res
        by_contra long
        rw [if_pos (by omega)] at res
        cases res
      · exact ih computed q later

/-! ## The calls -/

end GoblinExport

/-- An entry as an item of the file. -/
def Value.item (v undefined : Value) : Item :=
  if v = undefined then .none
  else
    match v with
    | .index i => .int i.toInt64
    | .float q => .float q
    | .orientation c => .int c.toInt64
    | .int i => .int i.toInt64
    | .bool b => .int (if b then 1 else 0)
    | .string _ => .none

/-- Strings are written as asterisks only. -/
def Wordless (undefined : Value) (array : List Value) : Prop :=
  ∀ s, string s ∈ array → string s = undefined

theorem Value.item_ne_string (v undefined : Value) (s : ShortString) :
    v.item undefined ≠ .string s := by
  unfold item
  split
  · simp
  · cases v <;> simp

namespace GoblinExport

variable {undefined : Value} {F : GoblinExport} {array : List Value} {length : ℕ}

theorem writeEntry_eq {v : Value} (wordless : ∀ s, v = .string s → v = undefined) :
    F.writeEntry undefined length v = Call.run (.item (v.item undefined) length) F := by
  unfold writeEntry item
  split
  · rfl
  · rename_i other
    cases v with
    | string s => exact absurd (wordless s rfl) other
    | _ => rfl

theorem writeEntries_eq (wordless : Wordless undefined array) :
    F.writeEntries undefined length array =
      runCalls (itemCalls (array.map fun v => (v.item undefined, length))) F := by
  induction array generalizing F with
  | nil => rfl
  | cons v array ih =>
    have first : ∀ s, v = .string s → v = undefined := by
      rintro s rfl
      exact wordless s mem_cons_self
    rw [writeEntries, writeEntry_eq first]
    change (do
      let F ← Call.run (.item (v.item undefined) length) F
      writeEntries undefined length array F) = (do
      let F ← Call.run (.item (v.item undefined) length) F
      runCalls (itemCalls (array.map fun v => (v.item undefined, length))) F)
    congr 1
    funext F
    exact ih fun s mem => wordless s (mem_cons_of_mem v mem)

end GoblinExport

theorem runCalls_append (first second : List Call) (F : GoblinExport) :
    runCalls (first ++ second) F = (do
      let F ← runCalls first F
      runCalls second F) := by
  induction first generalizing F with
  | nil => rfl
  | cons call first ih =>
    rw [cons_append, runCalls, runCalls, bind_assoc]
    congr 1
    funext F
    exact ih F

theorem runCalls_row (label : Label) (type : Int8) (items : List (Item × ℕ)) (F : GoblinExport) :
    runCalls (.startTuple label type :: (itemCalls items ++ [.endTuple])) F = (do
      let F ← F.startTuple label type
      let F ← runCalls (itemCalls items) F
      F.endTuple) := by
  rw [runCalls]
  congr 1
  funext F
  rw [runCalls_append]
  congr 1
  funext F
  exact bind_pure F.endTuple

namespace GoblinExport

variable {CT : NumberFormat} {undefined : Value} {F F' : GoblinExport} {array : List Value}
  {length : ℕ} {label : Label}

/-- **An attribute is a row**: what `WriteAttribute` writes is written by the calls for a row with
the entries of the attribute. -/
theorem writeAttribute_calls (wordless : Wordless undefined array)
    (written : F.writeAttribute CT label undefined array = .ok F') :
    ∃ type : Int8, type ≠ 0 ∧ ∃ length, runCalls (.startTuple label type ::
      (itemCalls (array.map fun v => (v.item undefined, length)) ++ [.endTuple])) F = .ok F' := by
  unfold writeAttribute at written
  split at written
  · rename_i v
    refine ⟨1, by decide, 0, ?_⟩
    rw [runCalls_row, ← written]
    congr 1
    funext F
    rw [← writeEntries_eq wordless, writeEntries]
    congr 1
    cases F.writeEntry undefined 0 v <;> rfl
  · cases opened : F.startTuple label 10 with
    | error e =>
      rw [opened] at written
      cases written
    | ok F1 =>
      rw [opened] at written
      cases computed : F1.columnWidth CT undefined array 1 with
      | error e =>
        simp only [bind, Except.bind, computed] at written
        cases written
      | ok length =>
        simp only [bind, Except.bind, computed] at written
        refine ⟨10, by decide, length, ?_⟩
        rw [runCalls_row, opened, ← written, writeEntries_eq wordless]
        rfl

end GoblinExport

/-! ## The events -/

/-- What is written for an entry. -/
def Value.written (v : Value) (externalPrecision : ℕ) (undefined : Value) : List Char :=
  (v.item undefined).text externalPrecision

/-- The events of the tuple of an attribute. -/
def rowEvents (label : List Char) (texts : List (List Char)) : List Event :=
  .opened label :: (texts.map .item ++ [.closed])

theorem Value.item_plain (v undefined : Value) :
    (v.item undefined).Plain ∧ (v.item undefined).HasBlank := by
  cases eq : v.item undefined with
  | string s => exact absurd eq (v.item_ne_string undefined s)
  | _ => exact ⟨trivial, trivial⟩

theorem rowCalls_events (externalPrecision : ℕ) (label : Label) (type : Int8) (undefined : Value)
    (array : List Value) (length : ℕ) : (Call.startTuple label type ::
      (itemCalls (array.map fun v => (v.item undefined, length)) ++ [.endTuple])).map
        (Call.event externalPrecision) =
      rowEvents label.text (array.map fun v => v.written externalPrecision undefined) := by
  simp [rowEvents, itemCalls, Call.event, written, Function.comp_def]

theorem rowReadable (undefined : Value) (array : List Value) (length : ℕ) :
    RowReadable (array.map fun v => (v.item undefined, length)) := by
  have plain : ∀ entry ∈ array.map fun v => (v.item undefined, length),
      entry.1.Plain ∧ entry.1.HasBlank := by
    intro entry mem
    obtain ⟨v, -, rfl⟩ := mem_map.mp mem
    exact v.item_plain undefined
  exact ⟨fun entry mem => (plain entry mem).1,
    fun entry last => (plain entry (mem_of_getLast? last)).2⟩

section Pools

variable {table : List PoolEntry} {CT : NumberFormat} {labelled : Labelled table}
  {attributes : List (Fin table.length × Attribute Value)} {F F' : GoblinExport}
  {poolLabel : Header} {E : GoblinExport}

/-- The events of the attributes of a pool. -/
def poolEvents (externalPrecision : ℕ) (attributes : List (Fin table.length × Attribute Value)) :
    List Event :=
  attributes.flatMap fun A => rowEvents table[A.1].tokenLabel
    (A.2.data.map fun v => v.written externalPrecision table[A.1].arrayType.omitted)

theorem writeAttributes_cons {A : Fin table.length × Attribute Value}
    (written : writeAttributes CT labelled (A :: attributes) F = .ok F') :
    table[A.1].arrayType ≠ .bool ∧ ∃ F1,
      F.writeAttribute CT (labelled.label A.1) table[A.1].arrayType.omitted A.2.data = .ok F1 ∧
        writeAttributes CT labelled attributes F1 = .ok F' := by
  rw [writeAttributes, arrayOf] at written
  split_ifs at written with boolean
  · cases written
  cases first : F.writeAttribute CT (labelled.label A.1) table[A.1].arrayType.omitted A.2.data with
  | error e =>
    simp only [bind, Except.bind, first] at written
    cases written
  | ok F1 =>
    simp only [bind, Except.bind, first] at written
    exact ⟨boolean, F1, rfl, written⟩

theorem writeAttributes_calls
    (wordless : ∀ A ∈ attributes, Wordless table[A.1].arrayType.omitted A.2.data)
    (written : writeAttributes CT labelled attributes F = .ok F') :
    ∃ entries : TupleEntries, runCalls entries.calls F = .ok F' ∧ entries.Readable ∧
      entries.depth ≤ 1 ∧ ∀ externalPrecision, entries.calls.map (Call.event externalPrecision) =
        poolEvents externalPrecision attributes := by
  induction attributes generalizing F with
  | nil =>
    cases written
    exact ⟨.nil, rfl, trivial, by simp [TupleEntries.depth], fun _ => rfl⟩
  | cons A attributes ih =>
    obtain ⟨-, F1, first, written⟩ := writeAttributes_cons written
    obtain ⟨type, typed, length, row⟩ := GoblinExport.writeAttribute_calls
      (wordless A mem_cons_self) first
    obtain ⟨entries, run, readable, depth, events⟩ := ih
      (fun B mem => wordless B (mem_cons_of_mem A mem)) written
    have calls : (TupleEntries.row (labelled.label A.1) type typed
        (A.2.data.map fun v => (v.item table[A.1].arrayType.omitted, length)) entries).calls =
        (.startTuple (labelled.label A.1) type ::
          (itemCalls (A.2.data.map fun v => (v.item table[A.1].arrayType.omitted, length)) ++
            [.endTuple])) ++ entries.calls := by
      simp [TupleEntries.calls]
    refine ⟨.row (labelled.label A.1) type typed
      (A.2.data.map fun v => (v.item table[A.1].arrayType.omitted, length)) entries, ?_,
      ⟨rowReadable _ _ _, readable⟩, ?_, fun externalPrecision => ?_⟩
    · rw [calls, runCalls_append, row]
      exact run
    · rw [TupleEntries.depth, rowDepth]
      split <;> omega
    · rw [calls, map_append, rowCalls_events, events]
      rfl

/-- Objects without special data write nothing else. -/
theorem writeSpecials_nothing (tokens : List (Fin table.length)) (F : GoblinExport) :
    writeSpecials (fun _ => .ok) tokens F = .ok F := by
  induction tokens with
  | nil => rfl
  | cons token tokens ih =>
    rw [writeSpecials, ite_self]
    exact ih

theorem writePool_calls
    (wordless : ∀ A ∈ attributes, Wordless table[A.1].arrayType.omitted A.2.data)
    (written : writePool CT labelled (fun _ => .ok) attributes poolLabel
      (GoblinExport.create externalPrecision) = .ok E) :
    ∃ entries, (Tuple.nest (.header poolLabel) entries).write externalPrecision = .ok E ∧
      (Tuple.nest (.header poolLabel) entries).Readable ∧
      (Tuple.nest (.header poolLabel) entries).events externalPrecision =
        .opened poolLabel.chars :: (poolEvents externalPrecision attributes ++ [.closed]) := by
  unfold writePool at written
  cases opened : (GoblinExport.create externalPrecision).startTuple (.header poolLabel) 0 with
  | error e =>
    rw [opened] at written
    cases written
  | ok F1 =>
    rw [opened] at written
    cases inside : writeAttributes CT labelled attributes F1 with
    | error e =>
      simp only [bind, Except.bind, inside] at written
      cases written
    | ok F2 =>
      simp only [bind, Except.bind, inside, writeSpecials_nothing] at written
      obtain ⟨entries, run, readable, depth, events⟩ := writeAttributes_calls wordless inside
      refine ⟨entries, ?_, ⟨readable, by omega⟩, ?_⟩
      · rw [Tuple.write, Tuple.calls, runCalls]
        change (do
          let F ← (GoblinExport.create externalPrecision).startTuple (.header poolLabel) 0
          runCalls (entries.calls ++ [Call.endTuple]) F) = _
        rw [opened]
        change runCalls (entries.calls ++ [.endTuple]) F1 = _
        rw [runCalls_append, run, ← written]
        exact bind_pure F2.endTuple
      · rw [Tuple.events, Tuple.calls, map_cons, map_append, events]
        rfl

theorem nest_reproduces {label : Header} {entries : TupleEntries} {events : List Event}
    (written : (Tuple.nest (.header label) entries).write externalPrecision = .ok E)
    (readable : (Tuple.nest (.header label) entries).Readable)
    (eq : (Tuple.nest (.header label) entries).events externalPrecision =
      .opened label.chars :: events) (clears : Bool) (buffer : List Char) (length : ℕ) :
    ∃ F', (GoblinImport.create E.close clears buffer length).scan none = .ok (label.chars, F') ∧
      ∃ d, F'.Reproduces d events := by
  obtain ⟨rest, F', scans⟩ := scans_head_of_nest written clears buffer length
  have reproduces :=
    (reproduces_create_iff _ externalPrecision E written clears buffer length).mpr readable
  rw [eq] at reproduces
  have more : (GoblinImport.create E.close clears buffer length).impFile.exhausted = false := by
    cases exhausted : (GoblinImport.create E.close clears buffer length).impFile.exhausted with
    | false => rfl
    | true => cases (GoblinImport.reproduces_of_exhausted exhausted).mp reproduces
  obtain ⟨later, split, -, -, follows⟩ :=
    (GoblinImport.reproduces_step more scans).mp reproduces
  obtain rfl : events = later := (List.cons.inj split).2
  exact ⟨F', scans.result, _, follows⟩

/-- **Scanning a pool**: the label is scanned, and the tokens of the attributes follow. -/
theorem writePool_reproduces
    (wordless : ∀ A ∈ attributes, Wordless table[A.1].arrayType.omitted A.2.data)
    (written : writePool CT labelled (fun _ => .ok) attributes poolLabel
      (GoblinExport.create externalPrecision) = .ok E) (clears : Bool) (buffer : List Char)
    (length : ℕ) :
    ∃ F', (GoblinImport.create E.close clears buffer length).scan none = .ok (poolLabel.chars, F') ∧
      ∃ d, F'.Reproduces d (poolEvents externalPrecision attributes ++ [.closed]) := by
  obtain ⟨entries, calls, readable, events⟩ := writePool_calls wordless written
  exact nest_reproduces calls readable events clears buffer length

end Pools

/-! ## Pools that can be written -/

/-- Numbers do not run over the end of a buffer. A single undefined value is not formatted. -/
def Printable (externalPrecision : ℕ) (undefined : Value) (array : List Value) : Prop :=
  ∀ q, float q ∈ array → (fixedText externalPrecision q).length ≤ 24 ∨
    (array = [.float q] ∧ .float q = undefined)

namespace GoblinExport

variable {CT : NumberFormat} {undefined : Value} {F F' : GoblinExport} {array : List Value}
  {length : ℕ} {label : Label}

/-- The level and the precision. -/
def SameLevel (F F' : GoblinExport) : Prop :=
  F'.currentLevel = F.currentLevel ∧ F'.externalPrecision = F.externalPrecision

theorem makeWord_sameLevel (text : List Char) (length : ℕ) (F : GoblinExport) :
    SameLevel F (F.makeWord text length) := by
  obtain ⟨-, -, -, -, level, -, precision⟩ := makeWord_writes text length F
  exact ⟨level, precision⟩

theorem makeValue_ok (v : Value)
    (fits : ∀ q, v = .float q → (fixedText F.externalPrecision q).length ≤ 24 ∧ length ≤ 24) :
    ∃ F', F.makeValue v length = .ok F' ∧ SameLevel F F' := by
  cases v with
  | float q =>
    obtain ⟨short, narrow⟩ := fits q rfl
    obtain ⟨F', run⟩ : ∃ F', F.makeFloatItem q length = .ok F' := by
      by_cases inf : |q| = infFloat
      · exact ⟨_, if_pos inf⟩
      · have room : ¬ 25 ≤ (padded length (fixedText F.externalPrecision q)).length := by
          rw [padded, length_leftpad]
          omega
        exact ⟨_, (if_neg inf).trans (if_neg room)⟩
    obtain ⟨-, -, -, -, level, -, precision⟩ := makeFloatItem_writes run
    exact ⟨F', run, level, precision⟩
  | string s =>
    obtain ⟨-, -, -, -, level, -, precision⟩ := indent_writes F
    exact ⟨_, rfl, level, precision⟩
  | index i | orientation c | int i | bool b => exact ⟨_, rfl, makeWord_sameLevel _ _ F⟩

theorem writeEntry_ok (undefined : Value) (length : ℕ) (v : Value) (fits : ∀ q, v = .float q → v = undefined ∨
      ((fixedText F.externalPrecision q).length ≤ 24 ∧ length ≤ 24)) :
    ∃ F', F.writeEntry undefined length v = .ok F' ∧ SameLevel F F' := by
  unfold writeEntry
  split
  · exact ⟨_, rfl, makeWord_sameLevel _ _ F⟩
  · rename_i other
    exact makeValue_ok v fun q eq => (fits q eq).resolve_left other

theorem writeEntries_ok (undefined : Value) (fits : ∀ q, float q ∈ array →
      (fixedText F.externalPrecision q).length ≤ 24 ∧ length ≤ 24) :
    ∃ F', F.writeEntries undefined length array = .ok F' ∧ SameLevel F F' := by
  induction array generalizing F with
  | nil => exact ⟨F, rfl, rfl, rfl⟩
  | cons v array ih =>
    obtain ⟨F1, first, level, precision⟩ := writeEntry_ok (F := F) undefined length v
      fun q eq => .inr (fits q (by simp [eq]))
    obtain ⟨F2, later, level', precision'⟩ := ih (F := F1) fun q mem => by
      rw [precision]
      exact fits q (mem_cons_of_mem v mem)
    refine ⟨F2, ?_, level'.trans level, precision'.trans precision⟩
    rw [writeEntries, first]
    exact later

theorem endTuple_ok (inside : F.currentLevel = 2) :
    ∃ F', F.endTuple = .ok F' ∧ F'.currentType = 0 ∧ F'.currentLevel = 1 ∧
      F'.externalPrecision = F.externalPrecision := by
  have outer : F.currentLevel ≠ 0 := by
    rw [inside]
    decide
  refine ⟨_, if_neg outer, rfl, ?_, rfl⟩
  change F.currentLevel - 1 = 1
  rw [inside]
  rfl

theorem startTuple_ok (label : Label) (type : Int8) (row : F.currentType = 0) (level : F.currentLevel = 1) :
    ∃ F', F.startTuple label type = .ok F' ∧ F'.currentLevel = 2 ∧
      F'.externalPrecision = F.externalPrecision := by
  have deeper : F.currentLevel + 1 = 2 := by
    rw [level]
    rfl
  cases label with
  | header word | number k => exact ⟨_, if_neg (not_not.mpr row), deeper, rfl⟩

theorem writeAttribute_ok (CT : NumberFormat) (label : Label) {type : BaseType}
    (typed : ∀ v ∈ array, v.HasType type)
    (printable : Printable F.externalPrecision undefined array) (row : F.currentType = 0)
    (level : F.currentLevel = 1) :
    ∃ F', F.writeAttribute CT label undefined array = .ok F' ∧ F'.currentType = 0 ∧
      F'.currentLevel = 1 ∧ F'.externalPrecision = F.externalPrecision := by
  unfold writeAttribute
  split
  · rename_i v
    obtain ⟨F1, opened, level1, precision1⟩ := startTuple_ok label 1 row level
    obtain ⟨F2, entry, level2, precision2⟩ := writeEntry_ok (F := F1) undefined 0 v fun q eq => by
        rcases printable q (by simp [eq]) with short | ⟨-, absent⟩
        · rw [precision1]
          exact .inr ⟨short, by omega⟩
        · exact .inl (eq.trans absent)
    obtain ⟨F3, closed, row3, level3, precision3⟩ := endTuple_ok (level2.trans level1)
    refine ⟨F3, ?_, row3, level3, precision3.trans (precision2.trans precision1)⟩
    rw [opened]
    change (do
      let F ← F1.writeEntry undefined 0 v
      F.endTuple) = _
    rw [entry]
    exact closed
  · rename_i several
    have short : Short F.externalPrecision array := by
      intro q mem
      exact (printable q mem).resolve_right fun single => several _ single.1
    obtain ⟨F1, opened, level1, precision1⟩ := startTuple_ok label 10 row level
    rw [← precision1] at short
    obtain ⟨width, computed, narrow⟩ := columnWidth_ok CT undefined 1 short
    have fits : ∀ q, float q ∈ array →
        (fixedText F1.externalPrecision q).length ≤ 24 ∧ width ≤ 24 := by
      intro q mem
      have numbers : ∀ s, string s ∉ array := by
        intro s mem'
        have first := typed _ mem
        have second := (typed _ mem').1
        simp [HasType, second] at first
      exact ⟨short q mem, by have := narrow numbers (by omega); omega⟩
    obtain ⟨F2, entries, level2, precision2⟩ := writeEntries_ok undefined fits
    obtain ⟨F3, closed, row3, level3, precision3⟩ := endTuple_ok (level2.trans level1)
    refine ⟨F3, ?_, row3, level3, precision3.trans (precision2.trans precision1)⟩
    rw [opened]
    change (do
      let length ← F1.columnWidth CT undefined array 1
      let F ← F1.writeEntries undefined length array
      F.endTuple) = _
    rw [computed]
    change (do
      let F ← F1.writeEntries undefined width array
      F.endTuple) = _
    rw [entries]
    exact closed

/-- Conversely, the numbers of an attribute that has been written fit into the buffers. -/
theorem short_of_writeAttribute (written : F.writeAttribute CT label undefined array = .ok F') :
    ∀ q, float q ∈ array → (fixedText F.externalPrecision q).length ≤ 24 ∨
      (array = [.float q] ∧ (.float q = undefined ∨ |q| = infFloat)) := by
  unfold writeAttribute at written
  split at written
  · rename_i v
    intro q mem
    obtain rfl := mem_singleton.mp mem
    cases opened : F.startTuple label 1 with
    | error e =>
      rw [opened] at written
      cases written
    | ok F1 =>
      rw [opened] at written
      obtain ⟨-, -, -, precision⟩ := startTuple_writes opened
      by_cases absent : float q = undefined
      · exact .inr ⟨rfl, .inl absent⟩
      by_cases inf : |q| = infFloat
      · exact .inr ⟨rfl, .inr inf⟩
      left
      rw [← precision]
      by_contra long
      have overflow : F1.writeEntry undefined 0 (.float q) = .error .itemOverflow := by
        have room : 25 ≤ (padded (0 : ℕ) (fixedText F1.externalPrecision q)).length := by
          rw [padded, length_leftpad]
          omega
        rw [writeEntry, if_neg absent]
        exact (if_neg inf).trans (if_pos room)
      change (do
        let F ← F1.writeEntry undefined 0 (.float q)
        F.endTuple) = _ at written
      rw [overflow] at written
      cases written
  · intro q mem
    cases opened : F.startTuple label 10 with
    | error e =>
      rw [opened] at written
      cases written
    | ok F1 =>
      rw [opened] at written
      obtain ⟨-, -, -, precision⟩ := startTuple_writes opened
      cases computed : F1.columnWidth CT undefined array 1 with
      | error e =>
        simp only [bind, Except.bind, computed] at written
        cases written
      | ok width =>
        left
        rw [← precision]
        exact short_of_columnWidth computed q mem

end GoblinExport

theorem runCalls_precision {calls : List Call} {F F' : GoblinExport}
    (run : runCalls calls F = .ok F') : F'.externalPrecision = F.externalPrecision := by
  induction calls generalizing F with
  | nil =>
    cases run
    rfl
  | cons call calls ih =>
    rw [runCalls] at run
    cases first : call.run F with
    | error e =>
      rw [first] at run
      cases run
    | ok F1 =>
      rw [first] at run
      obtain ⟨-, -, -, precision⟩ := call_writes first
      exact (ih run).trans precision

section Pools

variable {table : List PoolEntry} {CT : NumberFormat} {labelled : Labelled table}
  {attributes : List (Fin table.length × Attribute Value)} {F F' : GoblinExport}

section

variable (CT : NumberFormat) (labelled : Labelled table)

theorem writeAttributes_ok (noBools : ∀ A ∈ attributes, table[A.1].arrayType ≠ .bool)
    (typed : ∀ A ∈ attributes, ∀ v ∈ A.2.data, v.HasType table[A.1].arrayType)
    (printable : ∀ A ∈ attributes,
      Printable F.externalPrecision table[A.1].arrayType.omitted A.2.data)
    (row : F.currentType = 0) (level : F.currentLevel = 1) :
    ∃ F', writeAttributes CT labelled attributes F = .ok F' ∧ F'.currentLevel = 1 := by
  induction attributes generalizing F with
  | nil => exact ⟨F, rfl, level⟩
  | cons A attributes ih =>
    obtain ⟨F1, first, row1, level1, precision⟩ := GoblinExport.writeAttribute_ok CT
      (labelled.label A.1) (typed A mem_cons_self) (printable A mem_cons_self) row level
    obtain ⟨F2, later, level2⟩ := ih (fun B mem => noBools B (mem_cons_of_mem A mem))
      (fun B mem => typed B (mem_cons_of_mem A mem))
      (fun B mem => by
        rw [precision]
        exact printable B (mem_cons_of_mem A mem)) row1 level1
    refine ⟨F2, ?_, level2⟩
    rw [writeAttributes, arrayOf, if_neg (noBools A mem_cons_self)]
    simp only [bind, Except.bind, first]
    exact later

/-- **Writing a pool**: the numbers have to fit into the buffers. -/
theorem writePool_ok (poolLabel : Header)
    (noBools : ∀ A ∈ attributes, table[A.1].arrayType ≠ .bool)
    (typed : ∀ A ∈ attributes, ∀ v ∈ A.2.data, v.HasType table[A.1].arrayType)
    (printable : ∀ A ∈ attributes,
      Printable externalPrecision table[A.1].arrayType.omitted A.2.data) :
    ∃ E, writePool CT labelled (fun _ => .ok) attributes poolLabel
      (GoblinExport.create externalPrecision) = .ok E := by
  obtain ⟨F2, inside, level⟩ := writeAttributes_ok CT labelled
    (F := (GoblinExport.create externalPrecision).openTuple [] poolLabel.chars 0) noBools typed
    printable rfl rfl
  have outer : F2.currentLevel ≠ 0 := by
    rw [level]
    decide
  obtain ⟨E, closed⟩ : ∃ E, F2.endTuple = .ok E := ⟨_, if_neg outer⟩
  have opened : (GoblinExport.create externalPrecision).startTuple (.header poolLabel) 0 =
      .ok ((GoblinExport.create externalPrecision).openTuple [] poolLabel.chars 0) := rfl
  refine ⟨E, ?_⟩
  simp only [writePool, opened, bind, Except.bind, inside, writeSpecials_nothing]
  exact closed

end

section

variable (wordless : ∀ A ∈ attributes, Wordless table[A.1].arrayType.omitted A.2.data)
include wordless

theorem short_of_writeAttributes (written : writeAttributes CT labelled attributes F = .ok F') :
    ∀ A ∈ attributes, table[A.1].arrayType ≠ .bool ∧ ∀ q, float q ∈ A.2.data →
      (fixedText F.externalPrecision q).length ≤ 24 ∨ (A.2.data = [.float q] ∧
        (.float q = table[A.1].arrayType.omitted ∨ |q| = infFloat)) := by
  induction attributes generalizing F with
  | nil =>
    intro A mem
    cases mem
  | cons A attributes ih =>
    obtain ⟨ordinary, F1, first, written⟩ := writeAttributes_cons written
    intro B mem
    rcases mem_cons.mp mem with rfl | later
    · exact ⟨ordinary, GoblinExport.short_of_writeAttribute first⟩
    · obtain ⟨_, _, _, row⟩ := GoblinExport.writeAttribute_calls (wordless A mem_cons_self) first
      have others := ih (fun C mem => wordless C (mem_cons_of_mem A mem)) written
      rw [← runCalls_precision row]
      exact others B later

theorem short_of_writePool {poolLabel : Header} {E : GoblinExport}
    (written : writePool CT labelled (fun _ => .ok) attributes poolLabel
      (GoblinExport.create externalPrecision) = .ok E) :
    ∀ A ∈ attributes, table[A.1].arrayType ≠ .bool ∧ ∀ q, float q ∈ A.2.data →
      (fixedText externalPrecision q).length ≤ 24 ∨ (A.2.data = [.float q] ∧
        (.float q = table[A.1].arrayType.omitted ∨ |q| = infFloat)) := by
  have opened : (GoblinExport.create externalPrecision).startTuple (.header poolLabel) 0 =
      .ok ((GoblinExport.create externalPrecision).openTuple [] poolLabel.chars 0) := rfl
  simp only [writePool, opened, bind, Except.bind] at written
  cases inside : writeAttributes CT labelled attributes
      ((GoblinExport.create externalPrecision).openTuple [] poolLabel.chars 0) with
  | error e =>
    rw [inside] at written
    cases written
  | ok F2 =>
    have short := short_of_writeAttributes wordless inside
    have precision : ((GoblinExport.create externalPrecision).openTuple [] poolLabel.chars
        0).externalPrecision = externalPrecision := rfl
    rw [precision] at short
    exact short

end

end Pools

end Goblin
