import Mathlib.Data.List.TakeWhile

/-!
# Character streams

An input stream is the text still to be read together with a flag that says that a read
has failed, after which nothing is read any more. The reads are those of a C library:
words separated by white space and cut at a width, everything in front of a delimiter cut at
a width, and a single character. Reading past the end sets the flag.

The laws say what a read takes from a text whose beginning is known, and that
every successful read shortens the text.
-/

set_option autoImplicit false

namespace Goblin.Library

open List
variable {text blank rest : List Char} {c : Char} {limit : Nat}

/-- White space in the sense of the standard locale. -/
def isSpace (c : Char) : Bool :=
  c = ' ' || c = '\t' || c = '\n' || c = '\x0b' || c = '\x0c' || c = '\r'

/-- The part of a text that a zero byte leaves visible. -/
def cString (text : List Char) : List Char :=
  text.takeWhile (· ≠ '\x00')

theorem cString_of_notMem (absent : '\x00' ∉ text) : cString text = text := by
  apply takeWhile_eq_self_iff.mpr
  intro c mem
  simpa using fun eq : c = '\x00' => absent (eq ▸ mem)

/-- The text that is left of an input file, and whether a read has failed. -/
structure InStream where
  rest : List Char
  failed : Bool
  deriving DecidableEq, Repr

namespace InStream

/-- The next word, of at most `limit` characters. -/
def word (limit : Nat) (s : InStream) : Option (List Char) × InStream :=
  if s.failed then (none, s)
  else
    let text := s.rest.dropWhile isSpace
    if text = [] then (none, { rest := [], failed := true })
    else
      let taken := (text.takeWhile fun c => !isSpace c).take limit
      (some taken, { rest := text.drop taken.length, failed := false })

/-- The text in front of the next `delim`, at most `limit` characters of it. Taking nothing
is a failure. -/
def get (limit : Nat) (delim : Char) (s : InStream) : List Char × InStream :=
  if s.failed then ([], s)
  else
    let taken := (s.rest.takeWhile fun c => c ≠ delim).take limit
    (taken, { rest := s.rest.drop taken.length, failed := taken = [] })

/-- One character is read and forgotten. -/
def getChar (s : InStream) : InStream :=
  if s.failed then s
  else
    match s.rest with
    | [] => { s with failed := true }
    | _ :: rest => { s with rest := rest }

/-- Nothing but white space is left. -/
def exhausted (s : InStream) : Bool :=
  s.failed || s.rest.all isSpace

end InStream

/-! ## White space and words -/

/-- A text that ends a word: it is empty or begins with white space. -/
def Separated (text : List Char) : Prop :=
  ∀ c ∈ text.head?, isSpace c = true

@[simp] theorem separated_nil : Separated [] := by
  intro c mem
  simp at mem

@[simp] theorem separated_cons : Separated (c :: text) ↔ isSpace c = true := by
  simp [Separated]

/-- A text without white space that is not empty. -/
structure IsWord (text : List Char) : Prop where
  nonempty : text ≠ []
  solid : ∀ c ∈ text, isSpace c = false

theorem solid_of_all (solid : (text.all fun c => !isSpace c) = true) :
    ∀ c ∈ text, isSpace c = false := by
  intro c mem
  have here := all_eq_true.mp solid c mem
  simpa using here

theorem isWord_of_all (ne : text ≠ [])
    (solid : (text.all fun c => !isSpace c) = true) : IsWord text :=
  ⟨ne, solid_of_all solid⟩

theorem dropWhile_isSpace_append (spaces : ∀ c ∈ blank, isSpace c = true)
    (solid : ∀ c ∈ text.head?, isSpace c = false) : (blank ++ text).dropWhile isSpace = text := by
  rw [dropWhile_append, dropWhile_eq_nil_iff.mpr spaces]
  simp only [isEmpty_nil, if_true]
  cases text with
  | nil => rfl
  | cons c text => exact dropWhile_cons_of_neg (by simp [solid c (by simp)])

theorem takeWhile_solid_append (solid : ∀ c ∈ text, isSpace c = false)
    (separated : Separated rest) : (text ++ rest).takeWhile (fun c => !isSpace c) = text := by
  have all : ∀ c ∈ text, (!isSpace c) = true := by
    intro c mem
    simp [solid c mem]
  rw [takeWhile_append_of_pos all]
  cases rest with
  | nil => simp
  | cons c rest =>
    rw [separated_cons] at separated
    simp [separated]

theorem separated_dropWhile (text : List Char) :
    Separated (text.dropWhile fun c => !isSpace c) := by
  cases left : text.dropWhile fun c => !isSpace c with
  | nil => exact separated_nil
  | cons c rest =>
    have first := head_dropWhile_not (fun c => !isSpace c) (l := text) (by simp [left])
    simp only [left, head_cons, Bool.not_eq_eq_eq_not, Bool.not_false] at first
    exact separated_cons.mpr first

/-- A word does not go beyond the place where the text is separated. -/
theorem length_takeWhile_solid_le (text : List Char) (separated : Separated rest) :
    ((text ++ rest).takeWhile fun c => !isSpace c).length ≤ text.length := by
  induction text with
  | nil =>
    cases rest with
    | nil => simp
    | cons c rest => simp [separated_cons.mp separated]
  | cons c text ih =>
    rw [cons_append, takeWhile_cons]
    split
    · simpa using ih
    · simp

theorem drop_length_takeWhile (p : Char → Bool) (text : List Char) :
    text.drop (text.takeWhile p).length = text.dropWhile p := by
  have split := takeWhile_append_dropWhile (p := p) (l := text)
  calc text.drop (text.takeWhile p).length
      = (text.takeWhile p ++ text.dropWhile p).drop (text.takeWhile p).length := by rw [split]
    _ = text.dropWhile p := drop_left

theorem dropWhile_solid_append (solid : ∀ c ∈ text, isSpace c = false)
    (separated : Separated rest) : (text ++ rest).dropWhile (fun c => !isSpace c) = rest := by
  rw [← drop_length_takeWhile, takeWhile_solid_append solid separated, drop_left]

namespace InStream

theorem word_of_solid (spaces : ∀ c ∈ blank, isSpace c = true) (solid : isSpace c = false)
    (short : ((c :: text).takeWhile fun c => !isSpace c).length ≤ limit) :
    word limit ⟨blank ++ c :: text, false⟩ = (some ((c :: text).takeWhile fun c => !isSpace c),
        ⟨(c :: text).dropWhile fun c => !isSpace c, false⟩) := by
  have first : ∀ d ∈ (c :: text).head?, isSpace d = false := by
    intro d mem
    cases mem
    exact solid
  simp only [word, Bool.false_eq_true, if_false, dropWhile_isSpace_append spaces first,
    reduceCtorEq, take_of_length_le short, drop_length_takeWhile]

theorem word_cons (limit : Nat) (spaces : ∀ c ∈ blank, isSpace c = true)
    (solid : isSpace c = false) :
    ∃ taken file, word (limit + 1) ⟨blank ++ c :: text, false⟩ = (some (c :: taken), file) := by
  have first : ∀ d ∈ (c :: text).head?, isSpace d = false := by
    intro d mem
    cases mem
    exact solid
  simp [word, dropWhile_isSpace_append spaces first, solid]

theorem word_append (spaces : ∀ c ∈ blank, isSpace c = true) (isWord : IsWord text)
    (short : text.length ≤ limit) (separated : Separated rest) :
    word limit ⟨blank ++ (text ++ rest), false⟩ = (some text, ⟨rest, false⟩) := by
  have all : (text ++ rest).takeWhile (fun c => !isSpace c) = text :=
    takeWhile_solid_append isWord.solid separated
  obtain ⟨c, tail, rfl⟩ := exists_cons_of_ne_nil isWord.nonempty
  have solid := isWord.solid c mem_cons_self
  rw [cons_append] at all ⊢
  rw [word_of_solid spaces solid (by rw [all]; exact short), all, ← cons_append,
    dropWhile_solid_append isWord.solid separated]

theorem get_append {delim : Char} (ne : text ≠ []) (absent : delim ∉ text)
    (short : text.length ≤ limit) :
    get limit delim ⟨text ++ delim :: rest, false⟩ = (text, ⟨delim :: rest, false⟩) := by
  have all : ∀ c ∈ text, decide (c ≠ delim) = true := by
    intro c mem
    exact decide_eq_true fun eq => absent (eq ▸ mem)
  have taken : (text ++ delim :: rest).takeWhile (fun c => decide (c ≠ delim)) = text := by
    rw [takeWhile_append_of_pos all]
    simp
  simp only [get, Bool.false_eq_true, if_false, taken, take_of_length_le short,
    drop_left, ne, decide_false]

@[simp] theorem getChar_cons (c : Char) (rest : List Char) :
    getChar ⟨c :: rest, false⟩ = ⟨rest, false⟩ := rfl

/-! ### Progress -/

variable {s : InStream}

theorem word_failed (failed : s.failed = true) : word limit s = (none, s) := by
  simp only [word, failed, if_true]

theorem word_of_exhausted (exhausted : s.exhausted = true) : (word limit s).1 = none := by
  cases failed : s.failed with
  | true => rw [word_failed failed]
  | false =>
    rw [InStream.exhausted, failed, Bool.false_or, all_eq_true] at exhausted
    simp only [word, failed, Bool.false_eq_true, if_false,
      dropWhile_eq_nil_iff.mpr exhausted, if_true]

theorem exhausted_word_of_exhausted
    (exhausted : s.exhausted = true) : (word limit s).2.exhausted = true := by
  cases failed : s.failed with
  | true =>
    rw [word_failed failed]
    exact exhausted
  | false =>
    rw [InStream.exhausted, failed, Bool.false_or, all_eq_true] at exhausted
    simp only [word, failed, Bool.false_eq_true, if_false,
      dropWhile_eq_nil_iff.mpr exhausted, if_true]
    rfl

theorem word_of_not_exhausted (pos : 0 < limit) (more : s.exhausted = false) :
    ∃ text, (word limit s).1 = some text ∧ text ≠ [] ∧ (word limit s).2.failed = false ∧
      (word limit s).2.rest.length < s.rest.length := by
  rw [InStream.exhausted, Bool.or_eq_false_iff] at more
  obtain ⟨alive, some⟩ := more
  have left : s.rest.dropWhile isSpace ≠ [] := by
    intro none
    rw [dropWhile_eq_nil_iff, ← all_eq_true, some] at none
    cases none
  have solid := head_dropWhile_not isSpace left
  obtain ⟨c, text, first⟩ := exists_cons_of_ne_nil left
  simp only [first, head_cons] at solid
  obtain ⟨limit, rfl⟩ := Nat.exists_eq_succ_of_ne_zero pos.ne'
  have taken : ((c :: text).takeWhile fun c => !isSpace c).take (limit + 1) =
      c :: (text.takeWhile fun c => !isSpace c).take limit := by
    simp [solid]
  refine ⟨c :: (text.takeWhile fun c => !isSpace c).take limit, ?_, cons_ne_nil _ _, ?_, ?_⟩
  · simp only [word, alive, Bool.false_eq_true, if_false, first, reduceCtorEq, taken]
  · simp only [word, alive, Bool.false_eq_true, if_false, first, reduceCtorEq]
  · simp only [word, alive, Bool.false_eq_true, if_false, first, reduceCtorEq, taken,
      length_cons, drop_succ_cons, length_drop]
    have shorter : (s.rest.dropWhile isSpace).length ≤ s.rest.length :=
      (dropWhile_suffix _).length_le
    rw [first, length_cons] at shorter
    omega

theorem word_solid {file : InStream}
    (read : word limit s = (some text, file)) : ∀ c ∈ text, isSpace c = false := by
  unfold word at read
  split at read
  · cases read
  dsimp only at read
  split at read
  · cases read
  · cases read
    intro c mem
    simpa using mem_takeWhile_imp (mem_of_mem_take mem)

theorem not_exhausted_of_mem (mem : c ∈ text)
    (solid : isSpace c = false) : exhausted ⟨text, false⟩ = false := by
  rw [exhausted, Bool.false_or, all_eq_false]
  exact ⟨c, mem, by simp [solid]⟩

theorem length_word_le (limit : Nat) (s : InStream) :
    (word limit s).2.rest.length ≤ s.rest.length := by
  have shorter : (s.rest.dropWhile isSpace).length ≤ s.rest.length :=
    (dropWhile_suffix _).length_le
  unfold word
  split
  · exact le_rfl
  · dsimp only
    split
    · exact Nat.zero_le _
    · rw [length_drop]
      omega

theorem length_get_le (limit : Nat) (delim : Char) (s : InStream) :
    (get limit delim s).2.rest.length ≤ s.rest.length := by
  cases failed : s.failed <;> simp [get, failed]

theorem length_getChar_le (s : InStream) : s.getChar.rest.length ≤ s.rest.length := by
  unfold getChar
  split
  · exact le_rfl
  · split <;> simp_all

end InStream

end Goblin.Library
