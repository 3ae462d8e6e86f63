import Goblin.Library.CharStreams
import Mathlib.Data.List.Basic

/-!
# Reading data objects from file

`Scan` reads one word into the buffer. A word that begins with a parenthesis is the head
of a tuple, and a parenthesis at the end of a word closes the current tuple. Quoted
strings may extend beyond the word. The reader counts the open tuples in `currentLevel`,
a character that counts modulo 256.

If the buffer is empty, `Scan` examines the byte in front of it. It is the last byte of
the handle `goblinRootObject::OH`, a zero byte, so no parenthesis is found there.
-/

set_option autoImplicit false

namespace Goblin

open List
open Goblin.Library

variable {text label blank rest : List Char} {closed : Bool}

inductive ParseError where
  | misplacedSpace
  | unexpectedToken (found expected : List Char)
  | parenthesisMismatch
  | lengthMismatch
  deriving DecidableEq, Repr

structure GoblinImport where
  impFile : InStream
  /-- Whether an extraction that fails leaves an empty buffer or the old one. -/
  clears : Bool
  buffer : List Char
  currentLevel : Int8
  head : Bool
  tail : Bool
  length : Nat
  deriving DecidableEq, Repr

namespace GoblinImport

/-- A file is opened. The buffer and `length` are not initialised. -/
def create (text : List Char) (clears : Bool) (buffer : List Char) (length : Nat) :
    GoblinImport where
  impFile := ⟨text, false⟩
  clears := clears
  buffer := buffer
  currentLevel := 0
  head := false
  tail := false
  length := length

/-! ## Scan -/

/-- `impFile >> ws >> buffer` with width 255. -/
def extract (F : GoblinImport) : GoblinImport :=
  match F.impFile.word 254 with
  | (some text, file) => { F with impFile := file, buffer := cString text }
  | (none, file) => { F with impFile := file, buffer := if F.clears then [] else F.buffer }

/-- The buffer without its opening parenthesis. -/
def scanLabel (token : Option (List Char)) (label : List Char) (F : GoblinImport) :
    Except ParseError (List Char × GoblinImport) :=
  if label = [] then .error .misplacedSpace
  else
    let closed := decide (label.getLast? = some ')')
    let label := if closed then label.dropLast else label
    let F := { F with
      head := true
      tail := closed
      currentLevel := if closed then F.currentLevel else F.currentLevel + 1
      buffer := '(' :: label }
    match token with
    | none => .ok (label, F)
    | some expected =>
      if expected ≠ label then .error (.unexpectedToken label expected) else .ok (label, F)

/-- The buffer without its opening quote. If the closing one is missing, the text up to the
next quote is appended; otherwise what follows the quote is dropped. -/
def scanString (body : List Char) (file : InStream) : List Char × InStream :=
  let text := body.takeWhile fun c => c ≠ '"'
  if text.length = body.length then
    let (buffer2, file) := file.get (254 - (body.length + 1)) '"'
    (body ++ cString buffer2, file.getChar)
  else (text, file)

/-- A parenthesis at the end of the buffer is cut off. -/
def scanItem (text : List Char) (F : GoblinImport) :
    Except ParseError (List Char × GoblinImport) :=
  if text.getLast? = some ')' then
    if F.currentLevel = 0 then .error .parenthesisMismatch
    else
      .ok (text.dropLast, { F with
        head := false
        tail := true
        currentLevel := F.currentLevel - 1
        buffer := text.dropLast })
  else .ok (text, { F with head := false, tail := false, buffer := text })

def scan (token : Option (List Char)) (F : GoblinImport) :
    Except ParseError (List Char × GoblinImport) :=
  let F := F.extract
  match F.buffer with
  | '(' :: label => F.scanLabel token label
  | '"' :: body =>
    let (text, file) := scanString body F.impFile
    scanItem text { F with impFile := file }
  | text => F.scanItem text

/-! ## The delivered tokens -/

/-- What a call of `Scan` delivers, with the values of `Head`, `Tail` and
`currentLevel` after it. -/
structure Token where
  text : List Char
  head : Bool
  tail : Bool
  level : Int8
  deriving DecidableEq, Repr

/-- The token in the buffer. -/
def token (text : List Char) (F : GoblinImport) : Token :=
  ⟨text, F.head, F.tail, F.currentLevel⟩

/-- Repeated scanning, a bounded number of times. -/
def scanTokens : Nat → GoblinImport → Except ParseError (List Token)
  | 0, _ => .ok []
  | count + 1, F =>
    if F.impFile.exhausted then .ok []
    else do
      let (text, F) ← F.scan none
      let tokens ← scanTokens count F
      return F.token text :: tokens

/-- Repeated scanning to the end of the file. Every call takes a character at least. -/
def scanAll (F : GoblinImport) : Except ParseError (List Token) :=
  scanTokens F.impFile.rest.length F

/-! ## Scan on a text with a known beginning -/

/-- The parenthesis behind the last entry of a tuple. -/
def mark (closed : Bool) : List Char :=
  if closed then [')'] else []

/-- A call of `Scan` that delivers a token and leaves the given text. -/
structure Scans (F : GoblinImport) (t : Token) (rest : List Char) (F' : GoblinImport) : Prop where
  result : F.scan none = .ok (t.text, F')
  delivered : F'.token t.text = t
  file : F'.impFile = ⟨rest, false⟩

variable {F F' : GoblinImport} {tokens : List Token}

theorem extract_of_word {file : InStream} (word : F.impFile.word 254 = (some text, file)) :
    F.extract = { F with impFile := file, buffer := cString text } := by
  simp only [extract, word]

section

variable (token : Option (List Char))

theorem scan_of_label (buffer : F.extract.buffer = '(' :: label) :
    F.scan token = F.extract.scanLabel token label := by
  simp only [scan, buffer]

theorem scan_of_quote {body : List Char} (buffer : F.extract.buffer = '"' :: body) :
    F.scan token = scanItem (scanString body F.extract.impFile).1
      { F.extract with impFile := (scanString body F.extract.impFile).2 } := by
  simp only [scan, buffer]

/-- The first character of a text that is neither a head nor a quoted string. -/
def Unmarked (text : List Char) : Prop :=
  ∀ c ∈ text.head?, c ≠ '(' ∧ c ≠ '"'

theorem scan_of_unmarked (buffer : F.extract.buffer = text)
    (unmarked : Unmarked text) : F.scan token = F.extract.scanItem text := by
  simp only [scan, buffer]
  split
  · exact absurd rfl (unmarked '(' (by simp)).1
  · exact absurd rfl (unmarked '"' (by simp)).2
  · rfl

end

theorem scanLabel_mark (ne : label ≠ []) (unclosed : label.getLast? ≠ some ')')
    (closed : Bool) :
    F.scanLabel none (label ++ mark closed) = .ok (label, { F with
        head := true
        tail := closed
        currentLevel := if closed then F.currentLevel else F.currentLevel + 1
        buffer := '(' :: label }) := by
  cases closed with
  | true => simp [scanLabel, mark]
  | false => simp [scanLabel, mark, ne, unclosed]

theorem scanItem_mark (unclosed : text.getLast? ≠ some ')') (closed : Bool)
    (inside : closed = true → F.currentLevel ≠ 0) :
    F.scanItem (text ++ mark closed) = .ok (text, { F with
        head := false
        tail := closed
        currentLevel := if closed then F.currentLevel - 1 else F.currentLevel
        buffer := text }) := by
  cases closed with
  | true => simp [scanItem, mark, inside rfl]
  | false => simp [scanItem, mark, unclosed]

theorem length_mark_le (closed : Bool) : (mark closed).length ≤ 1 := by
  cases closed <;> simp [mark]

theorem isWord_append_mark (isWord : IsWord text) (closed : Bool) :
    IsWord (text ++ mark closed) := by
  cases closed with
  | false => simpa [mark] using isWord
  | true =>
    refine ⟨by simp [mark], ?_⟩
    intro c mem
    rw [mark, if_pos rfl, mem_append, mem_singleton] at mem
    rcases mem with inside | rfl
    · exact isWord.solid c inside
    · decide

theorem notMem_append_mark (visible : '\x00' ∉ text) (closed : Bool) :
    '\x00' ∉ text ++ mark closed := by
  cases closed <;> simp [mark, visible]

/-- The head of a tuple is read, with the parenthesis that may close it at once. -/
theorem scan_label (file : F.impFile = ⟨blank ++ ('(' :: (label ++ mark closed) ++ rest), false⟩)
    (spaces : ∀ c ∈ blank, isSpace c = true) (isWord : IsWord label) (visible : '\x00' ∉ label)
    (unclosed : label.getLast? ≠ some ')') (short : label.length < 250)
    (separated : Separated rest) : ∃ F', Scans F ⟨label, true, closed,
      if closed then F.currentLevel else F.currentLevel + 1⟩ rest F' := by
  have whole : IsWord ('(' :: (label ++ mark closed)) := by
    refine ⟨cons_ne_nil _ _, ?_⟩
    intro c mem
    rcases mem_cons.mp mem with rfl | inside
    · decide
    · exact (isWord_append_mark isWord closed).solid c inside
  have fits : ('(' :: (label ++ mark closed)).length ≤ 254 := by
    have := length_mark_le closed
    simp only [length_cons, length_append]
    omega
  have word := InStream.word_append spaces whole fits separated
  rw [← file] at word
  have extracted := extract_of_word word
  have text : cString ('(' :: (label ++ mark closed)) = '(' :: (label ++ mark closed) := by
    apply cString_of_notMem
    simp [notMem_append_mark visible closed]
  have buffer : F.extract.buffer = '(' :: (label ++ mark closed) := by rw [extracted, text]
  have scanned := scan_of_label none buffer
  rw [scanLabel_mark isWord.nonempty unclosed, extracted] at scanned
  exact ⟨_, scanned, rfl, rfl⟩

theorem scan_word_eq (file : F.impFile = ⟨blank ++ (text ++ rest), false⟩)
    (spaces : ∀ c ∈ blank, isSpace c = true) (isWord : IsWord text) (visible : '\x00' ∉ text)
    (unmarked : Unmarked text) (fits : text.length ≤ 254) (separated : Separated rest) :
    F.scan none = scanItem text { F with impFile := ⟨rest, false⟩, buffer := text } := by
  have word := InStream.word_append spaces isWord fits separated
  rw [← file] at word
  have extracted := extract_of_word word
  rw [cString_of_notMem visible] at extracted
  have buffer : F.extract.buffer = text := by rw [extracted]
  rw [scan_of_unmarked none buffer unmarked, extracted]

/-- An item without quotes is read, with the parenthesis that may follow. The text may
be empty, which is a parenthesis that stands alone. -/
theorem scan_word (file : F.impFile = ⟨blank ++ ((text ++ mark closed) ++ rest), false⟩)
    (spaces : ∀ c ∈ blank, isSpace c = true) (isWord : IsWord (text ++ mark closed))
    (visible : '\x00' ∉ text) (unmarked : Unmarked (text ++ mark closed))
    (unclosed : text.getLast? ≠ some ')') (short : text.length < 250)
    (inside : closed = true → F.currentLevel ≠ 0) (separated : Separated rest) :
    ∃ F', Scans F ⟨text, false, closed,
      if closed then F.currentLevel - 1 else F.currentLevel⟩ rest F' := by
  have fits : (text ++ mark closed).length ≤ 254 := by
    have := length_mark_le closed
    simp only [length_append]
    omega
  have scanned := scan_word_eq file spaces isWord (notMem_append_mark visible closed) unmarked
    fits separated
  exact ⟨_, scanned.trans (scanItem_mark unclosed closed fun close => inside close), rfl, rfl⟩

/-! ## Quoted strings -/

theorem takeWhile_quote (absent : '"' ∉ text) :
    (text ++ '"' :: rest).takeWhile (fun c => decide (c ≠ '"')) = text := by
  have all : ∀ c ∈ text, decide (c ≠ '"') = true := by
    intro c mem
    exact decide_eq_true fun eq => absent (eq ▸ mem)
  rw [takeWhile_append_of_pos all]
  simp

/-- A string without white space ends in the word it begins in. The rest of this
word is lost. -/
theorem scan_string_solid {lost : List Char}
    (file : F.impFile = ⟨blank ++ ('"' :: (text ++ '"' :: lost) ++ rest), false⟩)
    (spaces : ∀ c ∈ blank, isSpace c = true) (solid : ∀ c ∈ text ++ '"' :: lost, isSpace c = false)
    (visible : '\x00' ∉ text) (absent : '"' ∉ text) (fits : (text ++ '"' :: lost).length < 254)
    (separated : Separated rest) :
    ∃ buffer, F.scan none =
      scanItem text { F with impFile := ⟨rest, false⟩, buffer := buffer } := by
  have whole : IsWord ('"' :: (text ++ '"' :: lost)) := by
    refine ⟨cons_ne_nil _ _, ?_⟩
    intro c member
    rcases mem_cons.mp member with rfl | inside
    · decide
    · exact solid c inside
  have word := InStream.word_append spaces whole (Nat.succ_le_of_lt fits) separated
  rw [← file] at word
  have extracted := extract_of_word word
  have text' : cString ('"' :: (text ++ '"' :: lost)) = '"' :: (text ++ '"' :: cString lost) := by
    have all : ∀ c ∈ '"' :: (text ++ ['"']), decide (c ≠ '\x00') = true := by
      intro c member
      simp only [mem_cons, mem_append, not_mem_nil, or_false] at member
      refine decide_eq_true fun same => ?_
      rcases member with rfl | inside | rfl
      · cases same
      · exact visible (same ▸ inside)
      · cases same
    have split : '"' :: (text ++ '"' :: lost) = '"' :: (text ++ ['"']) ++ lost := by simp
    rw [cString, split, takeWhile_append_of_pos all]
    simp [cString]
  have buffer : F.extract.buffer = '"' :: (text ++ '"' :: cString lost) := by
    rw [extracted, text']
  have read : scanString (text ++ '"' :: cString lost) F.extract.impFile =
      (text, F.extract.impFile) := by
    simp only [scanString, takeWhile_quote absent]
    rw [if_neg (by simp)]
  have scanned := scan_of_quote none buffer
  rw [read, extracted] at scanned
  exact ⟨_, scanned⟩

theorem scan_string_cut {later : List Char}
    (file : F.impFile = ⟨blank ++ ('"' :: (text ++ '"' :: (later ++ rest))), false⟩)
    (spaces : ∀ c ∈ blank, isSpace c = true) (solid : ∀ c ∈ text, isSpace c = false)
    (visible : '\x00' ∉ text) (absent : '"' ∉ text) (fits : text.length + later.length < 253)
    (separated : Separated rest) :
    ∃ buffer, F.scan none = scanItem text { F with
        impFile := ⟨(later ++ rest).dropWhile fun c => !isSpace c, false⟩
        buffer := buffer } := by
  have lost := length_takeWhile_solid_le later separated
  have reached := separated_dropWhile (later ++ rest)
  have word : ∀ c ∈ (later ++ rest).takeWhile fun c => !isSpace c, isSpace c = false := by
    intro c member
    simpa using mem_takeWhile_imp member
  have cut := takeWhile_append_dropWhile (p := fun c => !isSpace c) (l := later ++ rest)
  generalize (later ++ rest).takeWhile (fun c => !isSpace c) = taken at lost word cut
  generalize (later ++ rest).dropWhile (fun c => !isSpace c) = left at reached cut ⊢
  have file' : F.impFile = ⟨blank ++ ('"' :: (text ++ '"' :: taken) ++ left), false⟩ := by
    rw [file, ← cut]
    simp
  have whole : ∀ c ∈ text ++ '"' :: taken, isSpace c = false := by
    intro c mem
    rcases mem_append.mp mem with inside | rest
    · exact solid c inside
    · rcases mem_cons.mp rest with rfl | inside
      · decide
      · exact word c inside
  refine scan_string_solid file' spaces whole visible absent ?_ reached
  rw [length_append, length_cons]
  omega

theorem scan_string_blank (file : F.impFile = ⟨blank ++ ('"' :: (text ++ '"' :: rest)), false⟩)
    (spaces : ∀ c ∈ blank, isSpace c = true) (broken : ∃ c ∈ text, isSpace c = true)
    (visible : '\x00' ∉ text) (absent : '"' ∉ text) (short : text.length < 250) :
    ∃ buffer, F.scan none =
      scanItem text { F with impFile := ⟨rest, false⟩, buffer := buffer } := by
  let solid : Char → Bool := fun c => !isSpace c
  have split : text = text.takeWhile solid ++ text.dropWhile solid :=
    (takeWhile_append_dropWhile).symm
  have later : text.dropWhile solid ≠ [] := by
    intro none
    obtain ⟨c, member, space⟩ := broken
    have := dropWhile_eq_nil_iff.mp none c member
    simp [solid, space] at this
  have separated : Separated (text.dropWhile solid ++ '"' :: rest) := by
    have first := head_dropWhile_not solid later
    obtain ⟨c, tail, cons⟩ := exists_cons_of_ne_nil later
    simp only [cons, head_cons] at first
    rw [cons, cons_append, separated_cons]
    simpa [solid] using first
  have visible' : '\x00' ∉ text.takeWhile solid :=
    fun mem => visible ((takeWhile_sublist _).mem mem)
  have absent' : '"' ∉ text.takeWhile solid :=
    fun member => absent ((takeWhile_sublist _).mem member)
  have lengths := congrArg List.length split
  rw [length_append] at lengths
  have whole : IsWord ('"' :: text.takeWhile solid) := by
    refine ⟨cons_ne_nil _ _, ?_⟩
    intro c mem
    rcases mem_cons.mp mem with rfl | inside
    · decide
    · simpa [solid] using mem_takeWhile_imp inside
  have fits : ('"' :: text.takeWhile solid).length ≤ 254 := by
    rw [length_cons]
    omega
  have word := InStream.word_append spaces whole fits separated
  have file' : F.impFile =
      ⟨blank ++ ('"' :: text.takeWhile solid ++ (text.dropWhile solid ++ '"' :: rest)), false⟩ := by
    rw [file, cons_append, ← append_assoc (text.takeWhile solid), ← split]
  rw [← file'] at word
  have extracted := extract_of_word word
  have buffer : F.extract.buffer = '"' :: text.takeWhile solid := by
    rw [extracted, cString_of_notMem (by simp [visible'])]
  have all : (text.takeWhile solid).takeWhile (fun c => decide (c ≠ '"')) =
      text.takeWhile solid := by
    apply takeWhile_eq_self_iff.mpr
    intro c member
    exact decide_eq_true fun same => absent' (same ▸ member)
  have got : InStream.get (254 - ((text.takeWhile solid).length + 1)) '"'
      ⟨text.dropWhile solid ++ '"' :: rest, false⟩ = (text.dropWhile solid, ⟨'"' :: rest, false⟩) :=
    InStream.get_append later
      (fun mem => absent ((dropWhile_suffix _).sublist.mem mem)) (by omega)
  have visible'' : '\x00' ∉ text.dropWhile solid :=
    fun mem => visible ((dropWhile_suffix _).sublist.mem mem)
  have read : scanString (text.takeWhile solid) F.extract.impFile = (text, ⟨rest, false⟩) := by
    simp only [scanString, all, if_true, extracted, got, cString_of_notMem visible'',
      InStream.getChar_cons, ← split]
  have scanned := scan_of_quote none buffer
  rw [read, extracted] at scanned
  exact ⟨_, scanned⟩

/-! ## Scanning to the end of the file -/

/-- Scanning to the end of the file as a relation. -/
inductive Delivers : GoblinImport → List Token → Prop
  | nil {F : GoblinImport} (exhausted : F.impFile.exhausted = true) : Delivers F []
  | cons {F F' : GoblinImport} {text : List Char} {tokens : List Token}
      (more : F.impFile.exhausted = false) (scanned : F.scan none = .ok (text, F'))
      (later : Delivers F' tokens) : Delivers F (F'.token text :: tokens)

theorem extract_length_lt (more : F.impFile.exhausted = false) :
    F.extract.impFile.rest.length < F.impFile.rest.length := by
  obtain ⟨text, read, -, -, shorter⟩ :=
    InStream.word_of_not_exhausted (show 0 < 254 by decide) more
  unfold extract
  split
  · rename_i word
    rw [word] at shorter
    exact shorter
  · rename_i word
    rw [word] at read
    cases read

theorem scanLabel_file {F F' : GoblinImport} {token : Option (List Char)}
    {label text : List Char} (scanned : F.scanLabel token label = .ok (text, F')) :
    F'.impFile = F.impFile ∧ F'.head = true := by
  simp only [scanLabel] at scanned
  split at scanned
  · cases scanned
  cases token with
  | none =>
    cases scanned
    exact ⟨rfl, rfl⟩
  | some expected =>
    dsimp only at scanned
    generalize (if decide (label.getLast? = some ')') = true then label.dropLast else label) =
      shown at scanned
    by_cases other : expected ≠ shown
    · rw [if_pos other] at scanned
      cases scanned
    · rw [if_neg other] at scanned
      cases scanned
      exact ⟨rfl, rfl⟩

theorem scanItem_cases {delivered : List Char} (scanned : F.scanItem text = .ok (delivered, F')) :
    F'.impFile = F.impFile ∧ F'.head = false ∧
      ((F'.tail = false ∧ delivered = text ∧ text.getLast? ≠ some ')') ∨
        (F'.tail = true ∧ text = delivered ++ [')'])) := by
  simp only [scanItem] at scanned
  split at scanned
  · rename_i last
    split at scanned
    · cases scanned
    · cases scanned
      refine ⟨rfl, rfl, .inr ⟨rfl, ?_⟩⟩
      exact (dropLast_append_getLast? _ last).symm
  · rename_i last
    cases scanned
    exact ⟨rfl, rfl, .inl ⟨rfl, rfl, last⟩⟩

/-- A word that begins with a parenthesis is delivered as a head. -/
theorem head_of_scan (file : F.impFile = ⟨blank ++ '(' :: text, false⟩)
    (spaces : ∀ c ∈ blank, isSpace c = true)
    (scanned : F.scan none = .ok (label, F')) : F'.head = true := by
  obtain ⟨taken, rest, word⟩ :=
    InStream.word_cons 253 spaces (show isSpace '(' = false by decide)
  rw [← file] at word
  have buffer : F.extract.buffer = '(' :: cString taken := by
    rw [extract_of_word word]
    rfl
  rw [scan_of_label none buffer] at scanned
  exact (scanLabel_file scanned).2

theorem notMem_scanString (body : List Char) (file : InStream) :
    '"' ∉ (scanString body file).1 := by
  have absent : ∀ text : List Char, '"' ∉ text.takeWhile fun c => decide (c ≠ '"') := by
    intro text member
    simpa using mem_takeWhile_imp member
  unfold scanString
  dsimp only
  split
  · rename_i whole
    have all : body.takeWhile (fun c => decide (c ≠ '"')) = body :=
      (List.takeWhile_prefix _).eq_of_length whole
    intro mem
    rcases mem_append.mp mem with first | second
    · rw [← all] at first
      exact absent _ first
    · have visible := (takeWhile_sublist _).mem second
      unfold InStream.get at visible
      split at visible
      · simp at visible
      · exact absent _ (mem_of_mem_take visible)
  · exact absent body

theorem scan_text (more : F.impFile.exhausted = false) (scanned : F.scan none = .ok (text, F'))
    (item : F'.head = false) : (∀ c ∈ text, isSpace c = false) ∨ '"' ∉ text := by
  have part : ∀ {G : GoblinImport} {whole : List Char},
      G.scanItem whole = .ok (text, F') → ∀ c ∈ text, c ∈ whole := by
    intro G whole res c mem
    rcases (scanItem_cases res).2.2 with ⟨-, rfl, -⟩ | ⟨-, rfl⟩
    · exact mem
    · exact mem_append_left _ mem
  simp only [scan] at scanned
  split at scanned
  · rw [(scanLabel_file scanned).2] at item
    cases item
  · exact .inr fun mem => notMem_scanString _ _ (part scanned _ mem)
  · left
    intro c mem
    have inside := part scanned c mem
    obtain ⟨word, read, -⟩ := InStream.word_of_not_exhausted (show 0 < 254 by decide) more
    have taken : ∃ file, F.impFile.word 254 = (some word, file) :=
      ⟨(F.impFile.word 254).2, by rw [← read]⟩
    obtain ⟨file, taken⟩ := taken
    rw [extract_of_word taken] at inside
    exact InStream.word_solid taken c ((takeWhile_sublist _).mem inside)

theorem length_scanString_le (body : List Char) (file : InStream) :
    (scanString body file).2.rest.length ≤ file.rest.length := by
  unfold scanString
  dsimp only
  split
  · exact (InStream.length_getChar_le _).trans (InStream.length_get_le _ _ _)
  · exact le_rfl

theorem extract_length_le (F : GoblinImport) :
    F.extract.impFile.rest.length ≤ F.impFile.rest.length := by
  have shorter := InStream.length_word_le 254 F.impFile
  unfold extract
  split <;> rename_i word <;> rw [word] at shorter <;> exact shorter

theorem scan_length_le {F F' : GoblinImport} {token : Option (List Char)} {text : List Char}
    (scanned : F.scan token = .ok (text, F')) : F'.impFile.rest.length ≤ F.impFile.rest.length := by
  have shorter := F.extract_length_le
  simp only [scan] at scanned
  split at scanned
  · rw [(scanLabel_file scanned).1]
    exact shorter
  · rename_i body _
    rw [(scanItem_cases scanned).1]
    exact (length_scanString_le body _).trans shorter
  · rw [(scanItem_cases scanned).1]
    exact shorter

theorem scan_length_lt {F F' : GoblinImport} {token : Option (List Char)} {text : List Char}
    (more : F.impFile.exhausted = false) (scanned : F.scan token = .ok (text, F')) :
    F'.impFile.rest.length < F.impFile.rest.length := by
  have shorter := extract_length_lt more
  simp only [scan] at scanned
  split at scanned
  · rw [(scanLabel_file scanned).1]
    exact shorter
  · rename_i body _
    rw [(scanItem_cases scanned).1]
    exact (length_scanString_le body _).trans_lt shorter
  · rw [(scanItem_cases scanned).1]
    exact shorter

theorem scanTokens_iff {count : Nat} (enough : F.impFile.rest.length ≤ count) :
    scanTokens count F = .ok tokens ↔ Delivers F tokens := by
  induction count generalizing F tokens with
  | zero =>
    have none : F.impFile.rest = [] := eq_nil_of_length_eq_zero (Nat.le_zero.mp enough)
    have exhausted : F.impFile.exhausted = true := by simp [InStream.exhausted, none]
    constructor
    · intro delivered
      cases delivered
      exact .nil exhausted
    · intro delivers
      cases delivers with
      | nil => rfl
      | cons more => simp [exhausted] at more
  | succ count ih =>
    rw [scanTokens]
    cases exhausted : F.impFile.exhausted with
    | true =>
      rw [if_pos rfl]
      constructor
      · intro delivered
        cases delivered
        exact .nil exhausted
      · intro delivers
        cases delivers with
        | nil => rfl
        | cons more => simp [exhausted] at more
    | false =>
      rw [if_neg (by decide)]
      constructor
      · intro delivered
        cases scanned : F.scan none with
        | error e =>
          rw [scanned] at delivered
          cases delivered
        | ok res =>
          obtain ⟨text, F'⟩ := res
          rw [scanned] at delivered
          have shorter := scan_length_lt exhausted scanned
          cases rest : scanTokens count F' with
          | error e =>
            simp only [bind, Except.bind, rest] at delivered
            cases delivered
          | ok later =>
            simp only [bind, Except.bind, rest, pure, Except.pure] at delivered
            cases delivered
            exact .cons exhausted scanned ((ih (by omega)).mp rest)
      · intro delivers
        cases delivers with
        | nil none => simp [exhausted] at none
        | cons more scanned later =>
          have shorter := scan_length_lt exhausted scanned
          have rest := (ih (by omega)).mpr later
          simp only [scanned, bind, Except.bind, rest, pure, Except.pure]

theorem scanAll_iff : F.scanAll = .ok tokens ↔ Delivers F tokens :=
  scanTokens_iff le_rfl

end GoblinImport

end Goblin
