import Goblin.FileExport
import Goblin.FileImport

/-!
# Reading back the tuples

A tree of tuples is a sequence of events: a tuple is opened, an item is read, the
current tuple is closed. Each token of `Scan` stands for one or two of them. The file reproduces
the tree if the tokens give the events of the tree in order, if `currentLevel` is the
number of open tuples after every token, and if it is zero exactly after the last one.

This does not hold of every tree. A closing parenthesis directly behind a quoted string is lost
unless the string has white space, and a string that has a quote or that ends with a parenthesis is
not read as it was written. The tuples may be nested 127 deep, since `currentLevel` is a character.
-/

set_option autoImplicit false

namespace Goblin

open List GoblinExport
open Goblin.Library

variable {blank text : List Char} {value : ℚ} {length : Nat}

/-! ## Events -/

inductive Event where
  | opened (label : List Char)
  | item (text : List Char)
  | closed
  deriving DecidableEq, Repr

/-- The number of open tuples after an event. -/
def Event.depth (d : Nat) : Event → Nat
  | .opened _ => d + 1
  | .item _ => d
  | .closed => d - 1

/-- A token without text that closes a tuple is a parenthesis that stands alone. -/
def GoblinImport.Token.events (t : GoblinImport.Token) : List Event :=
  if t.head then .opened t.text :: (if t.tail then [.closed] else [])
  else if t.tail then
    if t.text = [] then [.closed] else [.item t.text, .closed]
  else [.item t.text]

def Call.event (externalPrecision : Nat) : Call → Event
  | .startTuple label _ => .opened label.text
  | .endTuple => .closed
  | .item value _ => .item (value.text externalPrecision)

/-- The labels and items of a tree in their order. -/
def Tuple.events (t : Tuple) (externalPrecision : Nat) : List Event :=
  t.calls.map (Call.event externalPrecision)

/-- The level is the number of open tuples after every token, and returns to zero with the last
token only. -/
def Levels : Nat → List GoblinImport.Token → Prop
  | _, [] => True
  | d, t :: tokens =>
    t.level.toInt = t.events.foldl Event.depth d ∧ (t.level = 0 ↔ tokens = []) ∧
      Levels (t.events.foldl Event.depth d) tokens

/-- Scanning to the end of the file delivers the events of a tree. -/
def Tuple.RoundTrips (t : Tuple) (externalPrecision : Nat) (F : GoblinImport) : Prop :=
  ∃ tokens, F.scanAll = .ok tokens ∧
    tokens.flatMap GoblinImport.Token.events = t.events externalPrecision ∧ Levels 0 tokens

/-! ## The trees that are read back -/

/-- A string without a quote and without a parenthesis at its end. -/
def ShortString.Plain (s : ShortString) : Prop :=
  '"' ∉ s.chars ∧ s.chars.getLast? ≠ some ')'

def ShortString.HasBlank (s : ShortString) : Prop :=
  ∃ c ∈ s.chars, isSpace c = true

def Item.Plain : Item → Prop
  | .string s => s.Plain
  | _ => True

def Item.HasBlank : Item → Prop
  | .string s => s.HasBlank
  | _ => True

/-- The items of a row are plain, and a string has white space if it is the last one. -/
def RowReadable (items : List (Item × Nat)) : Prop :=
  (∀ entry ∈ items, entry.1.Plain) ∧ ∀ entry ∈ items.getLast?, entry.1.HasBlank

def TupleEntries.Readable : TupleEntries → Prop
  | .nil => True
  | .item value _ rest => value.Plain ∧ rest.Readable
  | .row _ _ _ items rest => RowReadable items ∧ rest.Readable
  | .nest _ entries rest => entries.Readable ∧ rest.Readable

/-- The number of levels that are needed to read a row. A row without items is read at once. -/
def rowDepth (items : List (Item × Nat)) : Nat :=
  if items = [] then 0 else 1

def TupleEntries.depth : TupleEntries → Nat
  | .nil => 0
  | .item _ _ rest => rest.depth
  | .row _ _ _ items rest => max (rowDepth items) rest.depth
  | .nest _ entries rest => max (1 + entries.depth) rest.depth

def Tuple.Readable : Tuple → Prop
  | .row _ _ _ items => RowReadable items
  | .nest _ entries => entries.Readable ∧ 1 + entries.depth ≤ 127

/-! ## What the calls write -/

theorem padded_eq (width : Int) (text : List Char) :
    ∃ blank, padded width text = blank ++ text ∧ ∀ c ∈ blank, isSpace c = true := by
  refine ⟨List.replicate (width.toNat - text.length) ' ', rfl, ?_⟩
  intro c mem
  rw [eq_of_mem_replicate mem]
  decide

/-- An item with its quotes. -/
def Item.visible (externalPrecision : Nat) : Item → List Char
  | .string s => '"' :: (s.chars ++ ['"'])
  | value => value.text externalPrecision

/-- The calls are accepted and write the given text, to the end of the file. -/
def Writes (E : GoblinExport) (calls : List Call) (text : List Char) : Prop :=
  ∃ E', runCalls calls E = .ok E' ∧ E'.close = E.expFile ++ text

/-- What is written by one call, and what becomes of the level and the type. -/
inductive WritesCall (E E1 : GoblinExport) : Call → List Char → Prop
  | startTuple {label : Label} {type : Int8} {blank : List Char}
      (spaces : ∀ c ∈ blank, isSpace c = true) (broken : 0 < E.currentLevel → blank ≠ [])
      (before : E.currentType = 0) (level : E1.currentLevel = E.currentLevel + 1)
      (after : E1.currentType = type) :
      WritesCall E E1 (.startTuple label type) (blank ++ '(' :: label.text)
  | endTuple {blank : List Char} (spaces : ∀ c ∈ blank, isSpace c = true)
      (broken : blank = [] ↔ E.currentType ≠ 0) (inside : E.currentLevel ≠ 0)
      (level : E1.currentLevel = E.currentLevel - 1) (after : E1.currentType = 0) :
      WritesCall E E1 .endTuple (blank ++ [')'])
  | item {value : Item} {length : Nat} {blank : List Char}
      (spaces : ∀ c ∈ blank, isSpace c = true) (broken : blank ≠ [])
      (short : (value.text E.externalPrecision).length < 250)
      (level : E1.currentLevel = E.currentLevel) (same : E1.currentType = E.currentType) :
      WritesCall E E1 (.item value length) (blank ++ value.visible E.externalPrecision)

variable {E E1 : GoblinExport} {type : Int8} {calls : List Call}

theorem startTuple_writes {label : Label} (run : E.startTuple label type = .ok E1) :
    ∃ piece, E1.expFile = E.expFile ++ piece ∧ WritesCall E E1 (.startTuple label type) piece ∧
      E1.externalPrecision = E.externalPrecision := by
  obtain ⟨blank, pad, spaces⟩ := padded_eq (E.currentLevel + 1).toInt ['(']
  unfold startTuple at run
  split at run
  · cases run
  rename_i typed
  have before : E.currentType = 0 := not_not.mp typed
  have breaks : ∀ c ∈ ['\n'] ++ blank, isSpace c = true := by
    intro c mem
    rcases mem_cons.mp mem with rfl | inside
    · decide
    · exact spaces c inside
  cases label with
  | number k =>
    cases run
    refine ⟨['\n'] ++ blank ++ '(' :: Nat.toDigits 10 k.toNat, ?_,
      .startTuple breaks (fun _ => by simp) before rfl rfl, rfl⟩
    simp only [openTuple, pad, cons_append, append_assoc, nil_append]
  | header word =>
    cases run
    by_cases pos : E.currentLevel > 0
    · refine ⟨['\n'] ++ blank ++ '(' :: word.chars, ?_,
        .startTuple breaks (fun _ => by simp) before rfl rfl, rfl⟩
      simp only [openTuple, pad, if_pos pos, cons_append, append_assoc, nil_append]
    · refine ⟨blank ++ '(' :: word.chars, ?_,
        .startTuple spaces (fun above => absurd above pos) before rfl rfl, rfl⟩
      simp only [openTuple, pad, if_neg pos, append_assoc, singleton_append, nil_append]

theorem endTuple_writes (run : E.endTuple = .ok E1) :
    ∃ piece, E1.expFile = E.expFile ++ piece ∧ WritesCall E E1 .endTuple piece ∧
      E1.externalPrecision = E.externalPrecision := by
  obtain ⟨blank, pad, spaces⟩ := padded_eq E.currentLevel.toInt [')']
  rw [endTuple] at run
  split at run
  · cases run
  rename_i inside
  cases run
  by_cases nested : E.currentType = 0
  · refine ⟨'\n' :: blank ++ [')'], by simp [nested, pad], ?_, rfl⟩
    refine .endTuple ?_ (by simp [nested]) inside rfl rfl
    intro c mem
    rcases mem_cons.mp mem with rfl | later
    · decide
    · exact spaces c later
  · refine ⟨[] ++ [')'], by simp [nested], ?_, rfl⟩
    exact .endTuple (by simp) (by simp [nested]) inside rfl rfl

theorem newline_spaces (spaces : ∀ c ∈ blank, isSpace c = true) :
    ∀ c ∈ '\n' :: blank, isSpace c = true := by
  intro c mem
  rcases mem_cons.mp mem with rfl | inside
  · decide
  · exact spaces c inside

theorem space_spaces (spaces : ∀ c ∈ blank, isSpace c = true) :
    ∀ c ∈ ' ' :: blank, isSpace c = true := by
  intro c mem
  rcases mem_cons.mp mem with rfl | inside
  · decide
  · exact spaces c inside

theorem makeWord_writes (text : List Char) (length : Nat) (E : GoblinExport) :
    ∃ blank, (∀ c ∈ blank, isSpace c = true) ∧ blank ≠ [] ∧
      (E.makeWord text length).expFile = E.expFile ++ (blank ++ text) ∧
      (E.makeWord text length).currentLevel = E.currentLevel ∧
      (E.makeWord text length).currentType = E.currentType ∧
      (E.makeWord text length).externalPrecision = E.externalPrecision := by
  unfold makeWord
  split
  · obtain ⟨blank, pad, spaces⟩ := padded_eq (length + E.currentLevel.toInt + 1) text
    exact ⟨'\n' :: blank, newline_spaces spaces, cons_ne_nil _ _, by simp [pad], rfl, rfl, rfl⟩
  · obtain ⟨blank, pad, spaces⟩ := padded_eq length text
    exact ⟨' ' :: blank, space_spaces spaces, cons_ne_nil _ _, by simp [pad], rfl, rfl, rfl⟩

theorem indent_writes (E : GoblinExport) : ∃ blank, (∀ c ∈ blank, isSpace c = true) ∧ blank ≠ [] ∧
      E.indent.expFile = E.expFile ++ blank ∧ E.indent.currentLevel = E.currentLevel ∧
      E.indent.currentType = E.currentType ∧ E.indent.externalPrecision = E.externalPrecision := by
  unfold indent
  split
  · obtain ⟨blank, pad, spaces⟩ := padded_eq (E.currentLevel.toInt + 1) []
    exact ⟨'\n' :: blank, newline_spaces spaces, cons_ne_nil _ _, by simp [pad], rfl, rfl, rfl⟩
  · exact ⟨[' '], space_spaces (by simp), cons_ne_nil _ _, rfl, rfl, rfl, rfl⟩

theorem append_spaces {first second : List Char} (spaces1 : ∀ c ∈ first, isSpace c = true)
    (spaces2 : ∀ c ∈ second, isSpace c = true) : ∀ c ∈ first ++ second, isSpace c = true := by
  intro c mem
  rcases mem_append.mp mem with left | right
  · exact spaces1 c left
  · exact spaces2 c right

/-- A number that passes through `itemBuffer` is short. -/
theorem makeFloatItem_short (run : E.makeFloatItem value length = .ok E1) :
    ((Item.float value).text E.externalPrecision).length < 250 := by
  unfold makeFloatItem at run
  rw [Item.text]
  split at run
  · rename_i infinite
    rw [if_pos infinite]
    decide
  rename_i finite
  rw [if_neg finite]
  dsimp only at run
  split at run
  · cases run
  · rename_i fits
    rw [padded, length_leftpad] at fits
    omega

theorem makeFloatItem_writes (run : E.makeFloatItem value length = .ok E1) :
    ∃ blank, (∀ c ∈ blank, isSpace c = true) ∧ blank ≠ [] ∧
      E1.expFile = E.expFile ++ (blank ++ (Item.float value).text E.externalPrecision) ∧
      E1.currentLevel = E.currentLevel ∧ E1.currentType = E.currentType ∧
      E1.externalPrecision = E.externalPrecision := by
  unfold makeFloatItem at run
  split at run
  · rename_i infinite
    cases run
    rw [Item.text, if_pos infinite]
    exact makeWord_writes ['*'] length E
  rename_i finite
  dsimp only at run
  split at run
  · cases run
  cases run
  obtain ⟨first, spaces1, broken, indented, level, type, precision⟩ := indent_writes E
  obtain ⟨second, pad2, spaces2⟩ := padded_eq length (fixedText E.externalPrecision value)
  obtain ⟨third, pad3, spaces3⟩ := padded_eq length
    (padded length (fixedText E.externalPrecision value))
  refine ⟨first ++ (third ++ second), append_spaces spaces1 (append_spaces spaces3 spaces2),
    by simp [broken], ?_, level, type, precision⟩
  rw [pad3, pad2, indented]
  simp [Item.text, finite]

theorem makeStringItem_writes (E : GoblinExport) (s : ShortString) (length : Nat) :
    ∃ blank, (∀ c ∈ blank, isSpace c = true) ∧ blank ≠ [] ∧ (E.makeStringItem s length).expFile =
        E.expFile ++ (blank ++ (Item.string s).visible E.externalPrecision) ∧
      (E.makeStringItem s length).currentLevel = E.currentLevel ∧
      (E.makeStringItem s length).currentType = E.currentType ∧
      (E.makeStringItem s length).externalPrecision = E.externalPrecision := by
  obtain ⟨first, spaces1, broken, indented, level, type, precision⟩ := indent_writes E
  obtain ⟨second, pad, spaces2⟩ := padded_eq length ['"']
  refine ⟨first ++ second, append_spaces spaces1 spaces2, by simp [broken], ?_, level, type,
    precision⟩
  simp [makeStringItem, pad, indented, Item.visible]

theorem length_intText_int64 (value : Int64) : (intText value.toInt).length < 250 := by
  have low := value.minValue_le_toInt
  have high := value.toInt_le
  have bound : value.toInt.natAbs < 10 ^ 19 := by
    rw [show Int64.minValue.toInt = -9223372036854775808 from rfl] at low
    rw [show Int64.maxValue.toInt = 9223372036854775807 from rfl] at high
    omega
  have := length_intText_le (by decide) bound
  omega

theorem makeItem_short {value : Item} (run : E.makeItem value length = .ok E1) :
    (value.text E.externalPrecision).length < 250 := by
  cases value with
  | int value => exact length_intText_int64 value
  | float value => exact makeFloatItem_short run
  | none => simp [Item.text]
  | string s => exact s.short

theorem makeItem_writes {value : Item} (run : E.makeItem value length = .ok E1) :
    ∃ piece, E1.expFile = E.expFile ++ piece ∧ WritesCall E E1 (.item value length) piece ∧
      E1.externalPrecision = E.externalPrecision := by
  suffices written : ∃ blank, (∀ c ∈ blank, isSpace c = true) ∧ blank ≠ [] ∧
      E1.expFile = E.expFile ++ (blank ++ value.visible E.externalPrecision) ∧
      E1.currentLevel = E.currentLevel ∧ E1.currentType = E.currentType ∧
      E1.externalPrecision = E.externalPrecision by
    obtain ⟨blank, spaces, broken, text, level, type, precision⟩ := written
    exact ⟨_, text, .item spaces broken (makeItem_short run) level type, precision⟩
  cases value with
  | int value =>
    cases run
    exact makeWord_writes (intText value.toInt) length E
  | float value => exact makeFloatItem_writes run
  | none =>
    cases run
    exact makeWord_writes ['*'] length E
  | string s =>
    cases run
    exact makeStringItem_writes E s length

theorem call_writes {call : Call} (run : call.run E = .ok E1) :
    ∃ piece, E1.expFile = E.expFile ++ piece ∧ WritesCall E E1 call piece ∧
      E1.externalPrecision = E.externalPrecision := by
  cases call with
  | startTuple label type => exact startTuple_writes run
  | endTuple => exact endTuple_writes run
  | item value length => exact makeItem_writes run

theorem runCalls_appends {E' : GoblinExport}
    (run : runCalls calls E = .ok E') : ∃ text, E'.expFile = E.expFile ++ text := by
  induction calls generalizing E with
  | nil =>
    cases run
    exact ⟨[], (append_nil _).symm⟩
  | cons call calls ih =>
    rw [runCalls] at run
    cases first : call.run E with
    | error e =>
      rw [first] at run
      cases run
    | ok E1 =>
      rw [first] at run
      obtain ⟨piece, text1, -, -⟩ := call_writes first
      obtain ⟨text, text2⟩ := ih run
      exact ⟨piece ++ text, by rw [text2, text1, append_assoc]⟩

namespace Writes

theorem nil_iff : Writes E [] text ↔ text = ['\n'] := by
  simp [Writes, runCalls, close, eq_comm]

theorem cons {E : GoblinExport} {call : Call} {calls : List Call} {text : List Char}
    (writes : Writes E (call :: calls) text) :
    ∃ E1 piece later, text = piece ++ later ∧ WritesCall E E1 call piece ∧
      E1.externalPrecision = E.externalPrecision ∧ Writes E1 calls later := by
  obtain ⟨E', run, closed⟩ := writes
  rw [runCalls] at run
  cases first : call.run E with
  | error e =>
    rw [first] at run
    cases run
  | ok E1 =>
    rw [first] at run
    obtain ⟨piece, text1, step, precision⟩ := call_writes first
    obtain ⟨later, text2⟩ := runCalls_appends run
    refine ⟨E1, piece, later ++ ['\n'], ?_, step, precision, E', run, ?_⟩
    · rw [close, text2, text1, append_assoc, append_assoc, append_cancel_left_eq] at closed
      rw [← closed]
    · rw [close, text2, append_assoc]

end Writes

/-! ## The words of the file -/

/-- A text that `Scan` delivers as it stands. -/
structure Scannable (text : List Char) : Prop where
  isWord : IsWord text
  visible : '\x00' ∉ text
  unmarked : GoblinImport.Unmarked text
  unclosed : text.getLast? ≠ some ')'
  unquoted : '"' ∉ text

theorem scannable_of_isNumber (number : IsNumber text) : Scannable text where
  isWord := number.isWord
  visible := number.notMem (by decide)
  unmarked := by
    intro c mem
    have numeral := number.numerals c (mem_of_mem_head? mem)
    constructor <;> rintro rfl <;> simp [isNumeral] at numeral
  unclosed := fun last => number.notMem (by decide) (mem_of_getLast? last)
  unquoted := number.notMem (by decide)

theorem scannable_star : Scannable ['*'] where
  isWord := isWord_of_all (by decide) (by decide)
  visible := by decide
  unmarked := by
    intro c mem
    cases mem
    decide
  unclosed := by decide
  unquoted := by decide

theorem Item.scannable {value : Item} (other : ∀ s, value ≠ .string s) (externalPrecision : Nat) :
    value.visible externalPrecision = value.text externalPrecision ∧
      Scannable (value.text externalPrecision) := by
  cases value with
  | int value => exact ⟨rfl, scannable_of_isNumber (isNumber_intText _)⟩
  | float value =>
    refine ⟨rfl, ?_⟩
    rw [Item.text]
    split
    · exact scannable_star
    · exact scannable_of_isNumber (isNumber_fixedText _ _)
  | none => exact ⟨rfl, scannable_star⟩
  | string s => exact absurd rfl (other s)

theorem Item.visible_solid (value : Item) (externalPrecision : Nat) :
    ∃ c ∈ value.visible externalPrecision, isSpace c = false := by
  by_cases string : ∃ s, value = .string s
  · obtain ⟨s, rfl⟩ := string
    exact ⟨'"', mem_cons_self, by decide⟩
  · obtain ⟨same, scannable⟩ := Item.scannable (fun s eq => string ⟨s, eq⟩) externalPrecision
    rw [same]
    obtain ⟨c, tail, cons⟩ := exists_cons_of_ne_nil scannable.isWord.nonempty
    exact ⟨c, by simp [cons], scannable.isWord.solid c (by simp [cons])⟩

/-- Labels are words. -/
structure Label.Valid (label : Label) : Prop where
  isWord : IsWord label.text
  visible : '\x00' ∉ label.text
  unclosed : label.text.getLast? ≠ some ')'
  short : label.text.length < 250

theorem Label.valid (label : Label) : label.Valid := by
  cases label with
  | header word => exact ⟨word.isWord, word.visible, word.unclosed, word.short⟩
  | number k =>
    have scannable := scannable_of_isNumber (isNumber_toDigits k.toNat)
    refine ⟨scannable.isWord, scannable.visible, scannable.unclosed, ?_⟩
    have bound : k.toNat < 10 ^ 20 := lt_trans k.toNat_lt (by decide)
    have := length_toDigits_le (by decide) bound
    simp only [Label.text]
    omega

/-- The next call writes a parenthesis directly behind the last character. -/
def closesNext (type : Int8) : List Call → Bool
  | .endTuple :: _ => type ≠ 0
  | _ => false

theorem closesNext_zero (calls : List Call) : closesNext 0 calls = false := by
  cases calls with
  | nil => rfl
  | cons call calls => cases call <;> rfl

theorem closesNext_eq_true
    (closes : closesNext type calls = true) : type ≠ 0 ∧ ∃ later, calls = .endTuple :: later := by
  cases calls with
  | nil => cases closes
  | cons call calls =>
    cases call with
    | endTuple => exact ⟨of_decide_eq_true closes, calls, rfl⟩
    | startTuple label type | item value length => cases closes

theorem separated_append (spaces : ∀ c ∈ blank, isSpace c = true)
    (broken : blank ≠ []) : Separated (blank ++ text) := by
  obtain ⟨c, tail, rfl⟩ := exists_cons_of_ne_nil broken
  exact separated_cons.mpr (spaces c mem_cons_self)

namespace Writes

variable {E : GoblinExport} {calls : List Call} {text : List Char}

theorem separated (writes : Writes E calls text) (level : 0 < E.currentLevel ∨ calls = [])
    (still : closesNext E.currentType calls = false) : Separated text := by
  cases calls with
  | nil =>
    rw [nil_iff.mp writes]
    exact separated_cons.mpr (by decide)
  | cons call calls =>
    obtain ⟨E1, piece, later, rfl, step, -, -⟩ := writes.cons
    cases step with
    | startTuple spaces broken =>
      rw [append_assoc]
      exact separated_append spaces (broken (level.resolve_right (cons_ne_nil _ _)))
    | endTuple spaces broken =>
      rw [append_assoc]
      refine separated_append spaces fun empty => ?_
      exact absurd (broken.mp empty) (by simpa [closesNext] using still)
    | item spaces broken =>
      rw [append_assoc]
      exact separated_append spaces broken

theorem exhausted_iff (writes : Writes E calls text) :
    InStream.exhausted ⟨text, false⟩ = true ↔ calls = [] := by
  cases calls with
  | nil =>
    rw [nil_iff.mp writes]
    simp [InStream.exhausted, isSpace]
  | cons call calls =>
    obtain ⟨E1, piece, later, rfl, step, -, -⟩ := writes.cons
    have solid : ∃ c ∈ piece ++ later, isSpace c = false := by
      cases step with
      | startTuple spaces broken => exact ⟨'(', by simp, by decide⟩
      | endTuple spaces broken => exact ⟨')', by simp, by decide⟩
      | @item value length blank spaces broken =>
        obtain ⟨c, mem, solid⟩ := value.visible_solid E.externalPrecision
        exact ⟨c, by simp [mem], solid⟩
    obtain ⟨c, mem, solid⟩ := solid
    constructor
    · intro exhausted
      rw [InStream.exhausted, Bool.false_or, all_eq_true] at exhausted
      rw [exhausted c mem] at solid
      cases solid
    · intro empty
      cases empty

theorem endTuple {d : Nat} (writes : Writes E (.endTuple :: calls) text)
    (level : E.currentLevel = Int8.ofNat (d + 1)) :
    ∃ E1 blank later, text = blank ++ ')' :: later ∧ (∀ c ∈ blank, isSpace c = true) ∧
      (blank = [] ↔ E.currentType ≠ 0) ∧ E1.currentLevel = Int8.ofNat d ∧ E1.currentType = 0 ∧
      E1.externalPrecision = E.externalPrecision ∧ Writes E1 calls later := by
  obtain ⟨E1, piece, later, rfl, step, precision, after⟩ := writes.cons
  cases step with
  | @endTuple blank spaces broken inside lower type =>
    refine ⟨E1, blank, later, by simp, spaces, broken, ?_, type, precision, after⟩
    rw [lower, level, Int8.ofNat_add]
    exact Int8.add_sub_cancel _ _

end Writes

end Goblin
