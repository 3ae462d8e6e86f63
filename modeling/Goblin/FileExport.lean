import Goblin.Graph
import Goblin.Library.Decimal

/-!
# Writing data objects to file

The text of a data object is a tree of tuples. A tuple is opened with a label
(`StartTuple`), has numbers, undefined entries, quoted strings and further tuples as its
entries, and is closed again (`EndTuple`). The number `type` says how many entries go
into a line; type 0 is for tuples of tuples, whose closing parenthesis stands on a line
of its own.

The widths of the entries are non-negative here, as the callers compute them. The counters
are characters in the source and count modulo 256.
-/

set_option autoImplicit false

namespace Goblin

open Goblin.Library

/-! ## Labels and items -/

/-- A header as the library passes it: a word that does not look like the end of a tuple. -/
structure Header where
  chars : List Char
  isWord : IsWord chars
  visible : '\x00' ∉ chars
  unclosed : chars.getLast? ≠ some ')'
  short : chars.length < 250

/-- A tuple is headed by a word or by a number. -/
inductive Label where
  | header (word : Header)
  | number (k : UInt64)

def Label.text : Label → List Char
  | .header word => word.chars
  | .number k => Nat.toDigits 10 k.toNat

/-- A string value of fewer than 250 characters. -/
structure ShortString where
  chars : List Char
  visible : '\x00' ∉ chars
  short : chars.length < 250

inductive Item where
  | int (item : Int64)
  | float (item : ℚ)
  | none
  | string (item : ShortString)

/-- What an item looks like, without padding and quotes. -/
def Item.text (externalPrecision : Nat) : Item → List Char
  | .int item => intText item.toInt
  | .float item => if |item| = infFloat then ['*'] else fixedText externalPrecision item
  | .none => ['*']
  | .string item => item.chars

/-! ## The writer -/

structure GoblinExport where
  currentLevel : Int8
  currentPos : Int8
  currentType : Int8
  externalPrecision : Nat
  expFile : List Char
  deriving DecidableEq

inductive ExportError where
  /-- A tuple is opened in the middle of a line. -/
  | illegalOperation
  /-- There is no tuple to close. -/
  | minimumDepth
  /-- A number runs over the end of `itemBuffer`, and what is written then is undefined. -/
  | itemOverflow
  /-- Boolean entries are bits, and `GetArray` returns the address of a temporary object. -/
  | dangling
  deriving DecidableEq, Repr

namespace GoblinExport

/-- A new file. -/
def create (externalPrecision : Nat) : GoblinExport where
  currentLevel := 0
  currentPos := 0
  currentType := 0
  externalPrecision := externalPrecision
  expFile := []

/-- A text is written right-aligned into the given number of columns. -/
def padded (width : Int) (text : List Char) : List Char :=
  List.leftpad width.toNat ' ' text

/-- Both forms of `StartTuple` after their test, with the line break they begin with. -/
def openTuple (lineBreak label : List Char) (type : Int8) (F : GoblinExport) : GoblinExport :=
  { F with
    currentLevel := F.currentLevel + 1
    currentPos := type
    currentType := type
    expFile := F.expFile ++ (lineBreak ++ padded (F.currentLevel + 1).toInt ['('] ++ label) }

def startTuple (label : Label) (type : Int8) (F : GoblinExport) :
    Except ExportError GoblinExport :=
  if F.currentType ≠ 0 then .error .illegalOperation
  else
    match label with
    | .header word =>
      .ok (F.openTuple (if F.currentLevel > 0 then ['\n'] else []) word.chars type)
    | .number k => .ok (F.openTuple ['\n'] (Nat.toDigits 10 k.toNat) type)

def endTuple (F : GoblinExport) : Except ExportError GoblinExport :=
  if F.currentLevel = 0 then .error .minimumDepth
  else
    let text := if F.currentType = 0 then '\n' :: padded F.currentLevel.toInt [')'] else [')']
    .ok { F with
      currentType := 0
      currentLevel := F.currentLevel - 1
      expFile := F.expFile ++ text }

/-- The next item begins a new line. -/
def lineIsFull (F : GoblinExport) : Bool :=
  F.currentType ≠ 1 && F.currentType = F.currentPos

/-- Numbers and undefined entries share their width with the indentation. -/
def makeWord (text : List Char) (length : Nat) (F : GoblinExport) : GoblinExport :=
  if F.lineIsFull then
    { F with
      currentPos := 1
      expFile := F.expFile ++ '\n' :: padded (length + F.currentLevel.toInt + 1) text }
  else
    { F with
      currentPos := F.currentPos + 1
      expFile := F.expFile ++ ' ' :: padded length text }

def makeIntItem (item : Int64) (length : Nat) (F : GoblinExport) : GoblinExport :=
  F.makeWord (intText item.toInt) length

def makeNoItem (length : Nat) (F : GoblinExport) : GoblinExport :=
  F.makeWord ['*'] length

/-- Floating point numbers and strings are indented first. -/
def indent (F : GoblinExport) : GoblinExport :=
  if F.lineIsFull then
    { F with
      currentPos := 1
      expFile := F.expFile ++ '\n' :: padded (F.currentLevel.toInt + 1) [] }
  else
    { F with
      currentPos := F.currentPos + 1
      expFile := F.expFile ++ [' '] }

/-- The text passes through `itemBuffer`, which has room for 24 characters. -/
def makeFloatItem (item : ℚ) (length : Nat) (F : GoblinExport) :
    Except ExportError GoblinExport :=
  if |item| = infFloat then .ok (F.makeNoItem length)
  else
    let itemBuffer := padded length (fixedText F.externalPrecision item)
    if 25 ≤ itemBuffer.length then .error .itemOverflow
    else .ok { F.indent with expFile := F.indent.expFile ++ padded length itemBuffer }

def makeStringItem (item : ShortString) (length : Nat) (F : GoblinExport) : GoblinExport :=
  { F.indent with
    expFile := F.indent.expFile ++ (padded length ['"'] ++ (item.chars ++ ['"'])) }

def makeItem (item : Item) (length : Nat) (F : GoblinExport) :
    Except ExportError GoblinExport :=
  match item with
  | .int item => .ok (F.makeIntItem item length)
  | .float item => F.makeFloatItem item length
  | .none => .ok (F.makeNoItem length)
  | .string item => .ok (F.makeStringItem item length)

/-- The destructor ends the last line. -/
def close (F : GoblinExport) : List Char :=
  F.expFile ++ ['\n']

end GoblinExport

/-! ## Sequences of calls and trees -/

inductive Call where
  | startTuple (label : Label) (type : Int8)
  | endTuple
  | item (value : Item) (length : Nat)

def Call.run : Call → GoblinExport → Except ExportError GoblinExport
  | .startTuple label type => GoblinExport.startTuple label type
  | .endTuple => GoblinExport.endTuple
  | .item value length => GoblinExport.makeItem value length

def runCalls : List Call → GoblinExport → Except ExportError GoblinExport
  | [], F => .ok F
  | call :: calls, F => do
    let F ← call.run F
    runCalls calls F

/-- The entries of a tuple of type 0. A tuple of another type is a row: `StartTuple` rejects
tuples inside of it, so its entries are items. -/
inductive TupleEntries where
  | nil
  | item (value : Item) (length : Nat) (rest : TupleEntries)
  | row (label : Label) (type : Int8) (typed : type ≠ 0) (items : List (Item × Nat))
      (rest : TupleEntries)
  | nest (label : Label) (entries : TupleEntries) (rest : TupleEntries)

/-- A whole file. -/
inductive Tuple where
  | row (label : Label) (type : Int8) (typed : type ≠ 0) (items : List (Item × Nat))
  | nest (label : Label) (entries : TupleEntries)

def itemCalls (items : List (Item × Nat)) : List Call :=
  items.map fun entry => .item entry.1 entry.2

def TupleEntries.calls : TupleEntries → List Call
  | .nil => []
  | .item value length rest => .item value length :: rest.calls
  | .row label type _ items rest =>
    .startTuple label type :: (itemCalls items ++ .endTuple :: rest.calls)
  | .nest label entries rest => .startTuple label 0 :: (entries.calls ++ .endTuple :: rest.calls)

def Tuple.calls : Tuple → List Call
  | .row label type _ items => .startTuple label type :: (itemCalls items ++ [.endTuple])
  | .nest label entries => .startTuple label 0 :: (entries.calls ++ [.endTuple])

/-- A tree is written unless the tuples are too deep or a number is too long. -/
def Tuple.write (t : Tuple) (externalPrecision : Nat) : Except ExportError GoblinExport :=
  runCalls t.calls (GoblinExport.create externalPrecision)

end Goblin
