import Goblin.AttributeWriter
import Goblin.LoadTermination

/-!
# Reading back the attributes

The pool that has been written is scanned tuple by tuple. `ReadAttribute` makes an attribute for each
of them, and converts the entries one by one.

The conversions restore the numbers, but they recognise the asterisk for four of the types only, and
strings are pointers into the buffer afterwards. A tuple with one entry is taken for a constant,
which is dropped by the pools of full rank, and a tuple without entries is an error if
the graph has no room for the indices. These are the only exceptions (`attributes_roundTrip_iff`).
-/

set_option autoImplicit false

namespace Goblin

open List Option AttributePool
open Value (bool float int item string written)
open Goblin.Library

variable {c : Char} {text label : List Char} {externalPrecision length fuel token reserved : ℕ}
  {later : List Event} {array array' : List Value} {texts : List (List Char)} {full : Bool}

/-! ## Conversions -/

theorem not_isSpace_of_isDigit (digit : c.isDigit = true) : isSpace c = false :=
  isSpace_of_isNumeral (isNumeral_of_isDigit digit)

theorem digits_toDigits (n : ℕ) : ∀ c ∈ Nat.toDigits 10 n, c.isDigit = true :=
  fun _ mem => Nat.isDigit_of_mem_toDigits (by decide) (by decide) mem

theorem signOf_digits (digit : c.isDigit = true) : signOf (c :: text) = (false, c :: text) := by
  unfold signOf
  split
  · rename_i eq
    cases eq
    exact absurd digit (by decide)
  · rename_i eq
    cases eq
    exact absurd digit (by decide)
  · rfl

theorem signOf_number (neg : Prop) [Decidable neg] (n : ℕ) (text : List Char) :
    signOf (((if neg then ['-'] else []) ++ (Nat.toDigits 10 n ++ text)).dropWhile isSpace) =
      (decide neg, Nat.toDigits 10 n ++ text) := by
  obtain ⟨c, digits, number⟩ := exists_cons_of_ne_nil (Nat.toDigits_ne_nil (b := 10) (n := n))
  have digit : c.isDigit = true := digits_toDigits n c (by simp [number])
  rw [number]
  split_ifs with sign
  · have solid : isSpace '-' = false := by decide
    simp [solid, signOf, sign]
  · simp [not_isSpace_of_isDigit digit, signOf_digits digit, sign]

theorem takeWhile_digits {digits : List Char} (text : List Char)
    (all : ∀ c ∈ digits, c.isDigit = true) (other : ∀ c ∈ text.head?, c.isDigit = false) :
    (digits ++ text).takeWhile Char.isDigit = digits ∧
      (digits ++ text).dropWhile Char.isDigit = text := by
  have stop : text.takeWhile Char.isDigit = [] ∧ text.dropWhile Char.isDigit = text := by
    cases text with
    | nil => exact ⟨rfl, rfl⟩
    | cons c text =>
      have here : c.isDigit = false := other c rfl
      simp [takeWhile, dropWhile, here]
  rw [takeWhile_append_of_pos all, dropWhile_append_of_pos all]
  simp [stop]

theorem leadingInt_intText (i : ℤ) : leadingInt (intText i) = i := by
  have sign := signOf_number (i < 0) i.natAbs []
  have digits := takeWhile_digits [] (digits_toDigits i.natAbs) (by simp)
  rw [append_nil] at sign digits
  unfold leadingInt
  rw [intText, sign]
  simp only [digits.1, Nat.ofDigitChars_ten_toDigits, decide_eq_true_eq]
  split_ifs <;> omega

theorem atol_intText (x : Int64) : atol (intText x.toInt) = x := by
  rw [atol, leadingInt_intText, Int64.ofIntClamp_toInt]

theorem roundHalfEven_natCast (n : ℕ) : roundHalfEven (n : ℚ) = n := by
  simp [roundHalfEven]

theorem ofDigitChars_leftpad {digits n : ℕ} (bound : n < 10 ^ digits) (pos : 0 < digits) :
    Nat.ofDigitChars 10 (leftpad digits '0' (Nat.toDigits 10 n)) 0 = n ∧
      (leftpad digits '0' (Nat.toDigits 10 n)).length = digits := by
  constructor
  · rw [leftpad, Nat.ofDigitChars_append, Nat.ofDigitChars_replicate_zero, Nat.mul_zero,
      Nat.ofDigitChars_ten_toDigits]
  · rw [length_leftpad]
    exact max_eq_left (length_toDigits_le pos bound)

theorem isDigit_leftpad (digits n : ℕ) :
    ∀ c ∈ leftpad digits '0' (Nat.toDigits 10 n), c.isDigit = true := by
  intro c mem
  rw [leftpad, mem_append, mem_replicate] at mem
  rcases mem with ⟨-, rfl⟩ | digit
  · decide
  · exact digits_toDigits n c digit

theorem atof_fixedText (digits : ℕ) (k : ℤ) :
    atof (fixedText digits ((k : ℚ) / 10 ^ digits)) = (k : ℚ) / 10 ^ digits := by
  have power : (0 : ℚ) < 10 ^ digits := by positivity
  have scaled : roundHalfEven (|(k : ℚ) / 10 ^ digits| * 10 ^ digits) = k.natAbs := by
    rw [abs_div, abs_of_pos power, div_mul_cancel₀ _ power.ne', ← Int.cast_abs, Int.abs_eq_natAbs,
      Int.cast_natCast, roundHalfEven_natCast]
  have neg : (k : ℚ) / 10 ^ digits < 0 ↔ k < 0 := by
    rw [div_lt_iff₀ power, zero_mul, Int.cast_lt_zero]
  have val : (if (k : ℚ) / 10 ^ digits < 0 then -((k.natAbs : ℚ) / 10 ^ digits)
      else (k.natAbs : ℚ) / 10 ^ digits) = (k : ℚ) / 10 ^ digits := by
    have natAbs : ((k.natAbs : ℕ) : ℚ) = |(k : ℚ)| := by
      rw [← Int.cast_abs, Int.abs_eq_natAbs, Int.cast_natCast]
    rw [natAbs]
    split_ifs with sign
    · rw [abs_of_neg (by exact_mod_cast neg.mp sign), neg_div, neg_neg]
    · rw [abs_of_nonneg (by exact_mod_cast not_lt.mp (mt neg.mpr sign))]
  unfold fixedText atof
  simp only [scaled, append_assoc]
  rcases Nat.eq_zero_or_pos digits with rfl | pos
  · have sign := signOf_number ((k : ℚ) / 10 ^ 0 < 0) (k.natAbs / 10 ^ 0) []
    have whole := takeWhile_digits [] (digits_toDigits (k.natAbs / 10 ^ 0)) (by simp)
    simp only [if_true, sign, whole.1, whole.2]
    simp only [append_nil, Nat.ofDigitChars_ten_toDigits, length_nil, zpow_zero, mul_one,
      decide_eq_true_eq, pow_zero, Nat.div_one, div_one] at val ⊢
    exact val
  have below : k.natAbs % 10 ^ digits < 10 ^ digits := Nat.mod_lt _ (by positivity)
  obtain ⟨fraction, length⟩ := ofDigitChars_leftpad below pos
  have sign := signOf_number ((k : ℚ) / 10 ^ digits < 0) (k.natAbs / 10 ^ digits)
    ('.' :: leftpad digits '0' (Nat.toDigits 10 (k.natAbs % 10 ^ digits)))
  have whole := takeWhile_digits
    ('.' :: leftpad digits '0' (Nat.toDigits 10 (k.natAbs % 10 ^ digits)))
    (digits_toDigits (k.natAbs / 10 ^ digits)) (by simp)
  have rest := takeWhile_digits [] (isDigit_leftpad digits (k.natAbs % 10 ^ digits)) (by simp)
  rw [append_nil] at rest
  rw [if_neg pos.ne', sign]
  simp only [whole.1, whole.2, rest.1, rest.2, Nat.ofDigitChars_append,
    Nat.ofDigitChars_ten_toDigits]
  rw [Nat.ofDigitChars_eq_ofDigitChars_zero, fraction, length, Nat.div_add_mod]
  simp only [zpow_zero, mul_one, decide_eq_true_eq]
  exact val

/-! ## Entries -/

/-- The entry is read as it has been written: it is no string, no asterisk that is not recognised,
and no infinite value that is written as the undefined one. -/
structure Value.Restored (v : Value) (type : BaseType) : Prop where
  number : ∀ s, v ≠ .string s
  recognised : v = type.omitted → type ≠ .index ∧ type ≠ .varIndex ∧ type ≠ .restrIndex ∧ type ≠ .int
  finite : ∀ q, v = .float q → |q| = infFloat → v = type.omitted

theorem star_ne_number (number : IsNumber text) : text ≠ ['*'] := by
  rintro rfl
  exact number.notMem (c := '*') (by decide) (by simp)

theorem Value.written_omitted (externalPrecision : ℕ) (v : Value) :
    v.written externalPrecision v = ['*'] := by
  simp [written, item, Item.text]

theorem read_index {type : BaseType} (i : UInt64) (typed : (Value.index i).HasType type)
    (number : text ≠ ['*']) : type.read text = .index (indexOf text) := by
  rcases typed with rfl | rfl | rfl | rfl | rfl <;> simp [BaseType.read, number]

theorem read_written_iff {v : Value} {type : BaseType} (typed : v.HasType type)
    (exact : v.Exact externalPrecision) :
    type.read (v.written externalPrecision type.omitted) = v ↔ v.Restored type := by
  by_cases omitted : v = type.omitted
  · rw [← omitted, Value.written_omitted]
    constructor
    · intro eq
      refine ⟨?_, fun _ => ⟨?_, ?_, ?_, ?_⟩, fun _ _ _ => omitted⟩
      · rintro s rfl
        obtain ⟨rfl, other⟩ := typed
        exact other (string.inj eq).symm
      all_goals
        rintro rfl
        rw [omitted] at eq
        revert eq
        decide
    · rintro ⟨number, recognised, -⟩
      obtain ⟨index, varIndex, restrIndex, int⟩ := recognised omitted
      subst omitted
      cases type with
      | string | special => exact absurd rfl (number .null)
      | index => exact absurd rfl index
      | varIndex => exact absurd rfl varIndex
      | restrIndex => exact absurd rfl restrIndex
      | int => exact absurd rfl int
      | _ => decide
  · cases v with
    | index i =>
      have text : (Value.index i).written externalPrecision type.omitted =
          intText i.toInt64.toInt := by
        simp [written, item, omitted, Item.text]
      have restored : type.read (intText i.toInt64.toInt) = .index i := by
        rw [read_index i typed (star_ne_number (isNumber_intText _)), indexOf, atol_intText,
          UInt64.toUInt64_toInt64]
      rw [text]
      exact iff_of_true restored
        ⟨by simp, fun eq => absurd eq omitted, fun q eq => by cases eq⟩
    | float q =>
      have text : (float q).written externalPrecision type.omitted =
          if |q| = infFloat then ['*'] else fixedText externalPrecision q := by
        simp [written, item, omitted, Item.text]
      rw [text]
      split_ifs with inf
      · refine iff_of_false ?_ fun restored => omitted (restored.finite q rfl inf)
        intro eq
        rcases typed with rfl | rfl
        · exact omitted eq.symm
        · exact omitted eq.symm
      obtain ⟨k, rfl⟩ := exact
      have star := star_ne_number
        (isNumber_fixedText externalPrecision ((k : ℚ) / 10 ^ externalPrecision))
      have restored : type.read (fixedText externalPrecision ((k : ℚ) / 10 ^ externalPrecision)) =
          .float (k / 10 ^ externalPrecision) := by
        rcases typed with rfl | rfl
        · rw [BaseType.read, if_neg star, atof_fixedText]
        · rw [BaseType.read, if_neg star, atof_fixedText]
      refine iff_of_true restored ⟨by simp, fun eq => absurd eq omitted, ?_⟩
      intro q eq inf'
      cases eq
      exact absurd inf' inf
    | orientation c =>
      obtain rfl : type = .orientation := typed
      have text : (Value.orientation c).written externalPrecision BaseType.orientation.omitted =
          intText c.toInt64.toInt := by
        simp [written, item, omitted, Item.text]
      have restored : BaseType.orientation.read (intText c.toInt64.toInt) = .orientation c := by
        rw [BaseType.read, atoi, atol_intText, Int8.toInt32_toInt64, Int8.toInt8_toInt32]
      rw [text]
      exact iff_of_true restored
        ⟨by simp, fun eq => absurd eq omitted, fun q eq => by cases eq⟩
    | int i =>
      obtain rfl : type = .int := typed
      have text : (int i).written externalPrecision BaseType.int.omitted =
          intText i.toInt64.toInt := by
        simp [written, item, omitted, Item.text]
      have restored : BaseType.int.read (intText i.toInt64.toInt) = .int i := by
        rw [BaseType.read, atoi, atol_intText, Int32.toInt32_toInt64]
      rw [text]
      exact iff_of_true restored
        ⟨by simp, fun eq => absurd eq omitted, fun q eq => by cases eq⟩
    | bool b =>
      obtain rfl : type = .bool := typed
      cases b with
      | false => exact absurd rfl omitted
      | true =>
        have text : (bool true).written externalPrecision BaseType.bool.omitted = ['1'] := rfl
        rw [text]
        exact iff_of_true (by decide)
          ⟨by simp, fun eq => absurd eq omitted, fun q eq => by cases eq⟩
    | string s =>
      obtain ⟨rfl, other⟩ := typed
      refine iff_of_false ?_ fun restored => restored.number s rfl
      intro eq
      exact other (string.inj eq).symm

/-! ## Tokens -/

namespace GoblinImport

variable {F : GoblinImport} {d : ℕ} {rest : List Event} {F' : GoblinImport}

/-- A token has been scanned, and the other events are to follow. -/
structure Next (F : GoblinImport) (text : List Char) (F' : GoblinImport) (later : List Event) :
    Prop where
  scanned : F.scan none = .ok (text, F')
  follows : ∃ d, F'.Reproduces d later

/-- The five kinds of tokens. -/
inductive Kind (F : GoblinImport) (text : List Char) : List Event → Prop
  | head (tail : F.tail = false) : Kind F text [.opened text]
  | empty (tail : F.tail = true) : Kind F text [.opened text, .closed]
  | item (tail : F.tail = false) : Kind F text [.item text]
  | last (tail : F.tail = true) : Kind F text [.item text, .closed]
  | bracket (tail : F.tail = true) (none : text = []) : Kind F text [.closed]

theorem kind (F : GoblinImport) (text : List Char) : Kind F text (F.token text).events := by
  cases head : F.head with
  | true =>
    cases tail : F.tail with
    | true => simpa [Token.events, token, head, tail] using Kind.empty tail
    | false => simpa [Token.events, token, head, tail] using Kind.head tail
  | false =>
    cases tail : F.tail with
    | true =>
      by_cases none : text = []
      · simpa [Token.events, token, head, tail, none] using Kind.bracket tail none
      · simpa [Token.events, token, head, tail, none] using Kind.last tail
    | false => simpa [Token.events, token, head, tail] using Kind.item tail

theorem Reproduces.next {e : Event} (reproduces : F.Reproduces d (e :: rest)) :
    ∃ text F' later events, Next F text F' later ∧ Kind F' text events ∧
      e :: rest = events ++ later := by
  have more : F.impFile.exhausted = false := by
    cases exhausted : F.impFile.exhausted with
    | false => rfl
    | true => cases (reproduces_of_exhausted exhausted).mp reproduces
  obtain ⟨text, F', later, scanned, eq, -, -, follows⟩ := reproduces.first more
  exact ⟨text, F', later, _, ⟨scanned, _, follows⟩, F'.kind text, eq⟩

/-- The head of a tuple is scanned, with its end if there is nothing between them. -/
theorem Reproduces.opened (reproduces : F.Reproduces d (.opened label :: rest)) :
    ∃ F' later, Next F label F' later ∧ ((F'.tail = false ∧ rest = later) ∨
      (F'.tail = true ∧ rest = .closed :: later)) := by
  obtain ⟨text, F', later, events, next, kind, eq⟩ := reproduces.next
  cases kind with
  | head tail =>
    cases eq
    exact ⟨F', later, next, .inl ⟨tail, rfl⟩⟩
  | empty tail =>
    cases eq
    exact ⟨F', later, next, .inr ⟨tail, rfl⟩⟩
  | _ => cases eq

theorem Reproduces.item {text : List Char} (reproduces : F.Reproduces d (.item text :: rest)) :
    ∃ F' later, Next F text F' later ∧ ((F'.tail = false ∧ rest = later) ∨
      (F'.tail = true ∧ rest = .closed :: later)) := by
  obtain ⟨text', F', later, events, next, kind, eq⟩ := reproduces.next
  cases kind with
  | item tail =>
    cases eq
    exact ⟨F', later, next, .inl ⟨tail, rfl⟩⟩
  | last tail =>
    cases eq
    exact ⟨F', later, next, .inr ⟨tail, rfl⟩⟩
  | _ => cases eq

theorem Reproduces.closed (reproduces : F.Reproduces d (.closed :: rest)) :
    ∃ F', Next F [] F' rest ∧ F'.tail = true := by
  obtain ⟨text, F', later, events, next, kind, eq⟩ := reproduces.next
  cases kind with
  | bracket tail none =>
    cases eq
    subst none
    exact ⟨F', next, tail⟩
  | _ => cases eq

/-! `Scan` does not use the number of entries that have been read last. -/

theorem extract_length (F : GoblinImport) (length : ℕ) :
    extract { F with length := length } = { F.extract with length := length } := by
  unfold extract
  cases F.impFile.word 254 with
  | mk word file => cases word <;> rfl

theorem scanLabel_length (length : ℕ) (scanned : F.scanLabel none label = .ok (text, F')) :
    scanLabel none label { F with length := length } = .ok (text, { F' with length := length }) := by
  unfold scanLabel at scanned ⊢
  split_ifs at scanned ⊢
  cases scanned
  rfl

theorem scanItem_length {item : List Char} (length : ℕ)
    (scanned : F.scanItem item = .ok (text, F')) :
    scanItem item { F with length := length } = .ok (text, { F' with length := length }) := by
  unfold scanItem at scanned ⊢
  split_ifs at scanned ⊢ <;> cases scanned <;> rfl

theorem scan_length (length : ℕ) (scanned : F.scan none = .ok (text, F')) :
    scan none { F with length := length } = .ok (text, { F' with length := length }) := by
  unfold scan at scanned ⊢
  simp only [extract_length] at scanned ⊢
  generalize F.extract = G at scanned ⊢
  cases buffer : G.buffer with
  | nil =>
    simp only [buffer] at scanned ⊢
    exact scanItem_length length scanned
  | cons c body =>
    simp only [buffer] at scanned ⊢
    split at scanned
    · exact scanLabel_length length scanned
    · exact scanItem_length length scanned
    · exact scanItem_length length scanned

theorem Delivers.setLength {tokens : List Token} (delivers : Delivers F tokens) (length : ℕ) :
    Delivers { F with length := length } tokens := by
  induction delivers with
  | nil exhausted => exact .nil exhausted
  | cons more scanned later ih =>
    have step := fun more' => Delivers.cons more' (scan_length length scanned) ih
    exact step more

theorem Reproduces.setLength {events : List Event} (reproduces : F.Reproduces d events)
    (length : ℕ) : Reproduces { F with length := length } d events := by
  obtain ⟨tokens, delivers, eq⟩ := reproduces
  exact ⟨tokens, delivers.setLength length, eq⟩

end GoblinImport

/-! ## Tuples -/

namespace LoadM

variable {P X : Type} {α : Type} {s s' : Loader P X} {F' : GoblinImport} {p : P}

/-- Given enough steps, the run has this result. -/
def Settles (steps : ℕ) (x : ℕ → LoadM P X α) (s : Loader P X)
    (Q : EStateM.Result LoadError (Loader P X) α → Prop) : Prop :=
  ∀ fuel, Q (x fuel s) ∨ (fuel ≤ steps ∧ ∃ s', x fuel s = .error .outOfFuel s')

/-- The reader has come to these events, and nothing else has changed. -/
structure Ahead (s s' : Loader P X) (later : List Event) : Prop where
  object : s'.object = s.object
  pools : s'.pools = s.pools
  follows : ∃ d, s'.F.Reproduces d later

theorem scanInside_next (next : GoblinImport.Next s.F text F' later) :
    ∃ s', scanInside s = .ok text s' ∧ s'.F = F' ∧ Ahead s s' later := by
  refine ⟨{ s with F := F', starved := s.starved || s.F.impFile.exhausted }, ?_, rfl, rfl, rfl,
    next.follows⟩
  change scan { s with starved := s.starved || s.F.impFile.exhausted } = _
  simp only [scan, next.scanned]

theorem scanLabel_next (next : GoblinImport.Next s.F text F' later) :
    ∃ s', scanLabel s = .ok text s' ∧ s'.F = F' ∧ Ahead s s' later := by
  refine ⟨{ s with F := F', starved := s.starved || (s.F.impFile.exhausted && decide (text ≠ [])) },
    ?_, rfl, rfl, rfl, next.follows⟩
  have first : scan s = .ok text { s with F := F' } := by
    simp only [scan, next.scanned]
  rw [scanLabel, run_bind_get, run_bind_ok first, run_bind_modify]
  rfl

/-- The values of a list of entries, from some position on. -/
def store (type : BaseType) : List Value → ℕ → List (List Char) → List Value
  | array, _, [] => array
  | array, length, text :: texts => store type (array.set length (type.read text)) (length + 1) texts

theorem store_eq (type : BaseType) (full : array.length = length + texts.length) :
    store type array length texts = array.take length ++ texts.map type.read := by
  induction texts generalizing array length with
  | nil =>
    rw [store, take_of_length_le (by simpa using full.le)]
    simp
  | cons text texts ih =>
    rw [length_cons] at full
    rw [store, ih (by rw [length_set]; omega), take_succ_eq_append_getElem (by simp; omega),
      take_set_of_le le_rfl]
    simp

/-- What is ahead behind the label of a tuple. -/
inductive Row (s : Loader P X) : List (List Char) → List Event → Prop
  | open {texts : List (List Char)} {later : List Event} {d : ℕ} (tail : s.F.tail = false)
      (follows : s.F.Reproduces d (texts.map .item ++ .closed :: later)) : Row s texts later
  | shut {later : List Event} {d : ℕ} (tail : s.F.tail = true) (follows : s.F.Reproduces d later) :
      Row s [] later

theorem Row.of_opened {rest : List Event} (ahead : Ahead s s' later) (ends : (s'.F.tail = false ∧
      texts.map .item ++ .closed :: rest = later) ∨
      (s'.F.tail = true ∧ texts.map .item ++ .closed :: rest = .closed :: later)) :
    Row s' texts rest := by
  obtain ⟨d, follows⟩ := ahead.follows
  rcases ends with ⟨tail, eq⟩ | ⟨tail, eq⟩
  · rw [← eq] at follows
    exact .open tail follows
  · cases texts with
    | nil =>
      cases eq
      exact .shut tail follows
    | cons text texts => cases eq

theorem readValues_shut (type : BaseType) (reqLength fuel : ℕ) (array : List Value) (length : ℕ)
    (tail : s.F.tail = true) :
    readValues type reqLength (fuel + 1) array length s = .ok (array, length) s := by
  rw [readValues, run_bind_get, if_pos tail]
  rfl

/-- The result of reading the entries of a row. -/
def RowRead (s : Loader P X) (array : List Value) (length : ℕ) (later : List Event) :
    EStateM.Result LoadError (Loader P X) (List Value × ℕ) → Prop :=
  fun r => ∃ s', r = .ok (array, length) s' ∧ Ahead s s' later

theorem Ahead.trans {s'' : Loader P X} {between : List Event} (first : Ahead s s' between)
    (second : Ahead s' s'' later) : Ahead s s'' later :=
  ⟨second.object.trans first.object, second.pools.trans first.pools, second.follows⟩

theorem readValues_settles {type : BaseType} (ordinary : type ≠ .special) (reqLength : ℕ)
    (array : List Value) (length : ℕ) (row : Row s texts later)
    (visible : ∀ text ∈ texts, text ≠ []) (room : length + texts.length ≤ reqLength) :
    Settles (texts.length + 1) (fun fuel => readValues type reqLength fuel array length) s
      (RowRead s (store type array length texts) (length + texts.length) later) := by
  induction texts generalizing s array length with
  | nil =>
    intro fuel
    cases row with
    | shut tail follows =>
      cases fuel with
      | zero => exact .inr ⟨by simp, s, rfl⟩
      | succ fuel =>
        exact .inl ⟨s, readValues_shut type reqLength fuel array length tail, rfl, rfl, _, follows⟩
    | «open» tail follows =>
      cases fuel with
      | zero => exact .inr ⟨by simp, s, rfl⟩
      | succ fuel =>
        obtain ⟨F', next, tail'⟩ := follows.closed
        obtain ⟨s1, scanned, rfl, ahead⟩ := scanInside_next next
        have step : readValues type reqLength (fuel + 1) array length s =
            readValues type reqLength fuel array length s1 := by
          rw [readValues, run_bind_get, if_neg (by simp [tail]), run_bind_ok scanned, if_pos rfl]
        simp only [step]
        cases fuel with
        | zero => exact .inr ⟨by simp, s1, rfl⟩
        | succ fuel =>
          exact .inl ⟨s1, readValues_shut type reqLength fuel array length tail', ahead⟩
  | cons text texts ih =>
    intro fuel
    cases row with
    | «open» tail follows =>
      cases fuel with
      | zero => exact .inr ⟨by simp, s, rfl⟩
      | succ fuel =>
        rw [length_cons] at room
        obtain ⟨F', rest, next, ends⟩ := follows.item
        obtain ⟨s1, scanned, rfl, ahead⟩ := scanInside_next next
        have step : readValues type reqLength (fuel + 1) array length s =
            readValues type reqLength fuel (array.set length (type.read text)) (length + 1) s1 := by
          rw [readValues, run_bind_get, if_neg (by simp [tail]), run_bind_ok scanned,
            if_neg (visible text mem_cons_self), if_neg (by omega), if_neg ordinary]
        have behind : Row s1 texts later := Row.of_opened ahead ends
        simp only [step]
        have others := ih (array.set length (type.read text)) (length + 1) behind
          (fun text' mem => visible text' (mem_cons_of_mem text mem)) (by omega) fuel
        rcases others with ⟨s2, res, ahead'⟩ | ⟨few, exceeded⟩
        · refine .inl ⟨s2, res.trans ?_, ahead.trans ahead'⟩
          rw [store, length_cons, Nat.add_assoc, Nat.add_comm 1]
        · exact .inr ⟨by rw [length_cons]; omega, exceeded⟩

theorem readTupleValues_settles {type : BaseType} (ordinary : type ≠ .special) (reqLength : ℕ)
    (array : List Value) (row : Row s texts later) (visible : ∀ text ∈ texts, text ≠ [])
    (room : texts.length ≤ reqLength) :
    Settles (texts.length + 1) (fun fuel => readTupleValues type reqLength fuel array) s fun r =>
      if texts.length < reqLength ∧ texts.length ≠ 1 then ∃ e s', r = .error e s'
      else ∃ s', r = .ok (store type array 0 texts) s' ∧ s'.F.length = texts.length ∧
        Ahead s s' later := by
  intro fuel
  rcases readValues_settles ordinary reqLength array 0 row visible
      (by rwa [Nat.zero_add]) fuel with
    ⟨s1, res, ahead⟩ | ⟨few, s1, exceeded⟩
  · left
    have first : readValues type reqLength fuel array 0 s =
        .ok (store type array 0 texts, texts.length) s1 := by
      simpa using res
    have step : readTupleValues type reqLength fuel array s =
        (if texts.length < reqLength ∧ texts.length ≠ 1 then throw (.parse .lengthMismatch)
          else pure (store type array 0 texts) : LoadM P X (List Value))
          { s1 with F := { s1.F with length := texts.length } } := by
      rw [readTupleValues, run_bind_ok first]
      rfl
    simp only [step]
    split_ifs with mismatch
    · exact ⟨_, _, rfl⟩
    · refine ⟨_, rfl, rfl, ahead.object, ahead.pools, ?_⟩
      obtain ⟨d, follows⟩ := ahead.follows
      exact ⟨d, follows.setLength texts.length⟩
  · right
    refine ⟨few, s1, ?_⟩
    have first : readValues type reqLength fuel array 0 s = .error .outOfFuel s1 := exceeded
    simp only [readTupleValues, run_bind_error first]

/-! ## Attributes -/

section Lookup

variable {token t : ℕ} {A B : Attribute Value}

theorem findAttribute_cons (attributes : List (ℕ × Attribute Value)) :
    findAttribute ⟨(token, A) :: attributes⟩ t =
      if t = token then some A else findAttribute ⟨attributes⟩ t := by
  rw [findAttribute, findAttribute, find?_cons]
  by_cases eq : t = token
  · simp [eq]
  · simp [eq, Ne.symm eq]

theorem setAttribute_cons {attributes : List (ℕ × Attribute Value)}
    (new : findAttribute ⟨attributes⟩ token = none) :
    setAttribute ⟨(token, A) :: attributes⟩ token B = ⟨(token, B) :: attributes⟩ := by
  have others : attributes.map (fun C => if C.1 = token then (token, B) else C) = attributes := by
    rw [findAttribute, map_eq_none_iff, find?_eq_none] at new
    refine (map_congr_left fun C mem => ?_).trans (map_id attributes)
    exact if_neg (by simpa using new C mem)
  rw [setAttribute, map_cons, others]
  simp

theorem releaseAttribute_cons (attributes : List (ℕ × Attribute Value)) :
    releaseAttribute ⟨(token, A) :: attributes⟩ token = ⟨attributes⟩ := by
  simp [releaseAttribute]

end Lookup

/-- The attribute after reading: a single entry is a constant, or dropped. -/
def readBack (full : Bool) (entry : PoolEntry) (data : List Value) : Option (Attribute Value) :=
  let A : Attribute Value := ⟨data, entry.arrayType.undefined⟩
  if entry.arrayDim ≠ .singleton ∧ data.length = 1 then
    if full then none else some ⟨[], A.getValue 0⟩
  else some A

section Arrays

variable {S : Schema P} {O : GraphObject X} {p : P} {token : ℕ} {entry : PoolEntry}

/-- The attribute has been read. -/
structure ArrayRead (S : Schema P) (p : P) (token : ℕ) (entry : PoolEntry) (data : List Value)
    (later : List Event) (s s' : Loader P X) : Prop where
  object : s'.object = s.object
  found : ∀ t, (s'.pools p).findAttribute t =
    if t = token then readBack (S.fullRank p) entry data else (s.pools p).findAttribute t
  follows : ∃ d, s'.F.Reproduces d later

/-- The result of reading the tuple of an attribute. There is no room for indices that do not exist,
if nothing has been reserved. -/
def ArrayResult (S : Schema P) (O : GraphObject X) (p : P) (token : ℕ) (entry : PoolEntry)
    (data : List Value) (later : List Event) (s : Loader P X) :
    EStateM.Result LoadError (Loader P X) Unit → Prop := fun r =>
  if data = [] ∧ O.reserved s.object entry.arrayDim = 0 then ∃ e s', r = .error e s'
  else ∃ s', r = .ok () s' ∧ ArrayRead S p token entry data later s s'

theorem lookup_label (labelled : Labelled (S.table p)) {token : Fin (S.table p).length}
    (primary : (S.table p)[token].primaryIndex = token) :
    S.lookup p (S.table p)[token].tokenLabel = some (token.val, (S.table p)[token]) := by
  have mem : (S.table p)[token] ∈ S.table p := getElem_mem _
  have found : (S.table p).find? (fun entry => entry.tokenLabel = (S.table p)[token].tokenLabel) =
      some (S.table p)[token] := by
    cases search : (S.table p).find?
        (fun entry => entry.tokenLabel = (S.table p)[token].tokenLabel) with
    | none =>
      have absent := find?_eq_none.mp search _ mem
      simp at absent
    | some entry =>
      have eq : entry.tokenLabel = (S.table p)[token].tokenLabel := by
        simpa using find?_some search
      exact congrArg some (inj_on_of_nodup_map labelled.distinct
        (mem_of_find?_eq_some search) mem eq)
  have index : (S.table p)[token.val].primaryIndex = token.val := primary
  simp only [Schema.lookup, found]
  simp [index]

/-- The entries of an attribute after reading. -/
def reread (table : List PoolEntry) (externalPrecision : ℕ) (A : Fin table.length × Attribute Value) :
    List Value :=
  A.2.data.map fun v =>
    (table.get A.1).arrayType.read (v.written externalPrecision (table.get A.1).arrayType.omitted)

/-- An attribute after the attributes of a pool have been read. -/
def rereadAttribute (S : Schema P) (p : P) (externalPrecision : ℕ)
    (attributes : List (Fin (S.table p).length × Attribute Value)) (t : ℕ)
    (old : Option (Attribute Value)) : Option (Attribute Value) :=
  match attributes.find? fun A => A.1.val = t with
  | some A => readBack (S.fullRank p) (S.table p)[A.1] (reread (S.table p) externalPrecision A)
  | none => old

/-- The result of reading a pool. -/
def PoolResult (S : Schema P) (O : GraphObject X) (p : P) (externalPrecision : ℕ)
    (attributes : List (Fin (S.table p).length × Attribute Value)) (s : Loader P X) :
    EStateM.Result LoadError (Loader P X) Unit → Prop := fun r =>
  if ∃ A ∈ attributes, A.2.data = [] ∧ O.reserved s.object (S.table p)[A.1].arrayDim = 0 then
    ∃ e s', r = .error e s'
  else ∃ s', r = .ok () s' ∧ ∀ t, (s'.pools p).findAttribute t =
    rereadAttribute S p externalPrecision attributes t ((s.pools p).findAttribute t)

theorem written_ne_nil (externalPrecision : ℕ) (undefined v : Value) :
    v.written externalPrecision undefined ≠ [] := by
  have plain := fun s => v.item_ne_string undefined s
  exact (Item.scannable plain externalPrecision).2.isWord.nonempty

theorem rereadAttribute_cons (externalPrecision : ℕ)
    {attributes : List (Fin (S.table p).length × Attribute Value)} {A : Fin (S.table p).length × Attribute Value}
    (new : ∀ B ∈ attributes, B.1 ≠ A.1) (t : ℕ) (old : Option (Attribute Value)) :
    rereadAttribute S p externalPrecision attributes t (if t = A.1.val then
      readBack (S.fullRank p) (S.table p)[A.1] (reread (S.table p) externalPrecision A) else old) =
      rereadAttribute S p externalPrecision (A :: attributes) t old := by
  unfold rereadAttribute
  rw [find?_cons]
  by_cases here : A.1.val = t
  · have absent : attributes.find? (fun B => B.1.val = t) = none := by
      refine find?_eq_none.mpr fun B mem => ?_
      simpa [← here, Fin.val_inj] using new B mem
    simp [absent, here]
  · simp [here, Ne.symm here]

variable [DecidableEq P]

/-- What becomes of the attribute that has been made at the beginning of the pool. -/
theorem keepArray (S : Schema P) (p : P) (entry : PoolEntry) (data : List Value) (undefined : Value)
    (eq : undefined = entry.arrayType.undefined) {attributes : List (ℕ × Attribute Value)}
    {pool : AttributePool} {A : Attribute Value} (here : pool = ⟨(token, A) :: attributes⟩)
    (new : findAttribute ⟨attributes⟩ token = none) :
    ∃ pool' : AttributePool, (∀ t, pool'.findAttribute t =
        if t = token then readBack (S.fullRank p) entry data else findAttribute ⟨attributes⟩ t) ∧
      (if entry.arrayDim ≠ .singleton ∧ data.length = 1 then
          if S.fullRank p then setPool p (pool.releaseAttribute token)
          else setPool p (pool.setAttribute token ⟨[], Attribute.getValue ⟨data, undefined⟩ 0⟩)
        else setPool p (pool.setAttribute token ⟨data, undefined⟩) : LoadM P X Unit) =
        setPool p pool' := by
  subst here eq
  rw [releaseAttribute_cons, setAttribute_cons new, setAttribute_cons new]
  unfold readBack
  by_cases single : entry.arrayDim ≠ .singleton ∧ data.length = 1
  · simp only [if_pos single]
    cases S.fullRank p with
    | true =>
      refine ⟨⟨attributes⟩, fun t => ?_, rfl⟩
      by_cases here : t = token
      · rw [if_pos here, if_pos rfl, here, new]
      · rw [if_neg here]
    | false => exact ⟨_, fun t => findAttribute_cons attributes, rfl⟩
  · simp only [if_neg single]
    exact ⟨_, fun t => findAttribute_cons attributes, rfl⟩

/-- **Reading an attribute**: the entries are converted one by one. -/
theorem readArray_settles (ordinary : entry.arrayType ≠ .special)
    (notBool : entry.arrayType ≠ .bool) (row : Row s texts later)
    (visible : ∀ text ∈ texts, text ≠ []) (new : (s.pools p).findAttribute token = none)
    (full : texts.length = O.sizeInfo s.object entry.arrayDim)
    (fits : O.sizeInfo s.object entry.arrayDim ≤ O.reserved s.object entry.arrayDim) :
    Settles (texts.length + 1) (fun fuel => readArray S O fuel p token entry) s
      (ArrayResult S O p token entry (texts.map entry.arrayType.read) later s) := by
  let size := if O.reserved s.object entry.arrayDim = 0 then 1
    else O.sizeInfo s.object entry.arrayDim
  let A : Attribute Value :=
    ⟨List.replicate size entry.arrayType.undefined, entry.arrayType.undefined⟩
  have made : (s.pools p).makeAttribute token entry.arrayType (O.sizeInfo s.object entry.arrayDim)
      (O.reserved s.object entry.arrayDim) = (⟨(token, A) :: (s.pools p).attributes⟩, A) := by
    rw [makeAttribute, new]
  let s0 : Loader P X :=
    { s with pools := Function.update s.pools p ⟨(token, A) :: (s.pools p).attributes⟩ }
  have row0 : Row s0 texts later := by
    cases row with
    | «open» tail follows => exact .open tail follows
    | shut tail follows => exact .shut tail follows
  have room : texts.length ≤ size := by
    change texts.length ≤ if _ then _ else _
    split <;> omega
  intro fuel
  have start : readArray S O fuel p token entry s = (do
      let data ← readTupleValues entry.arrayType A.size fuel A.data
      let s ← get
      let B : Attribute Value := { A with data := data }
      if entry.arrayDim ≠ .singleton ∧ s.F.length = 1 then
        if S.fullRank p then setPool p ((s.pools p).releaseAttribute token)
        else setPool p ((s.pools p).setAttribute token ⟨[], B.getValue 0⟩)
      else setPool p ((s.pools p).setAttribute token B) : LoadM P X Unit) s0 := by
    rw [readArray, run_bind_get, made, setPool, run_bind_modify, if_neg notBool]
  have sizeA : A.size = size := by simp [A, Attribute.size]
  rw [sizeA] at start
  simp only [start]
  have unreserved : (texts.length < size ∧ texts.length ≠ 1) ↔
      (texts.map entry.arrayType.read = [] ∧ O.reserved s.object entry.arrayDim = 0) := by
    rw [map_eq_nil_iff, ← length_eq_zero_iff]
    change (texts.length < (if _ then _ else _) ∧ _) ↔ _
    split <;> omega
  rcases readTupleValues_settles ordinary size A.data row0 visible room fuel with
    res | ⟨few, s1, exceeded⟩
  · left
    simp only [unreserved] at res
    unfold ArrayResult
    by_cases empty : texts.map entry.arrayType.read = [] ∧ O.reserved s.object entry.arrayDim = 0
    · rw [if_pos empty] at res ⊢
      obtain ⟨e, s1, res⟩ := res
      exact ⟨e, s1, run_bind_error res⟩
    rw [if_neg empty] at res ⊢
    obtain ⟨s1, res, length, ahead⟩ := res
    have rank : texts.length = size := by
      rw [← unreserved] at empty
      change _ = if _ then _ else _
      change ¬ (_ < (if _ then _ else _) ∧ _) at empty
      split_ifs at empty ⊢ <;> omega
    have data : store entry.arrayType A.data 0 texts = texts.map entry.arrayType.read := by
      rw [store_eq entry.arrayType (by simp [A, rank])]
      simp
    rw [data] at res
    have here : s1.pools p = ⟨(token, A) :: (s.pools p).attributes⟩ := by
      rw [ahead.pools]
      simp [s0]
    obtain ⟨pool, found, kept⟩ := keepArray (X := X) S p entry (texts.map entry.arrayType.read)
      entry.arrayType.undefined rfl here new
    refine ⟨{ s1 with pools := Function.update s1.pools p pool }, ?_, ?_⟩
    · rw [run_bind_ok res, run_bind_get, length, ← length_map entry.arrayType.read, kept]
      rfl
    · refine ⟨ahead.object, fun t => ?_, ahead.follows⟩
      rw [← found t]
      simp
  · right
    refine ⟨few, s1, ?_⟩
    have first : readTupleValues entry.arrayType size fuel A.data s0 = .error .outOfFuel s1 :=
      exceeded
    rw [run_bind_error first]

section Pools

variable {attributes : List (Fin (S.table p).length × Attribute Value)}

theorem readLabelled_label (labelled : Labelled (S.table p)) (fuel : ℕ) {token : Fin (S.table p).length}
    (primary : (S.table p)[token].primaryIndex = token)
    (ordinary : (S.table p)[token].arrayType ≠ .special) :
    (readLabelled S O fuel p (S.table p)[token].tokenLabel : LoadM P X ℕ) = (do
      readArray S O fuel p token.val (S.table p)[token]
      return token.val) := by
  rw [readLabelled, lookup_label labelled primary]
  simp only [if_neg ordinary]

/-- The result of reading one attribute of a pool. -/
def AttributeResult (S : Schema P) (O : GraphObject X) (p : P) (externalPrecision : ℕ)
    (A : Fin (S.table p).length × Attribute Value) (later : List Event) (s : Loader P X) :
    EStateM.Result LoadError (Loader P X) ℕ → Prop := fun r =>
  if A.2.data = [] ∧ O.reserved s.object (S.table p)[A.1].arrayDim = 0 then ∃ e s', r = .error e s'
  else ∃ s', r = .ok A.1.val s' ∧ ArrayRead S p A.1 (S.table p)[A.1]
    (reread (S.table p) externalPrecision A) later s s'

theorem readAttribute_settles (labelled : Labelled (S.table p)) (externalPrecision : ℕ)
    {A : Fin (S.table p).length × Attribute Value} (rest : List Event)
    (primary : (S.table p)[A.1].primaryIndex = A.1)
    (ordinary : (S.table p)[A.1].arrayType ≠ .special)
    (notBool : (S.table p)[A.1].arrayType ≠ .bool)
    (full : A.2.size = O.sizeInfo s.object (S.table p)[A.1].arrayDim)
    (fits : ∀ dim, O.sizeInfo s.object dim ≤ O.reserved s.object dim)
    (new : (s.pools p).findAttribute A.1 = none)
    (follows : ∃ d, s.F.Reproduces d (rowEvents (S.table p)[A.1].tokenLabel (A.2.data.map fun v =>
      v.written externalPrecision (S.table p)[A.1].arrayType.omitted) ++ rest)) :
    Settles (A.2.data.length + 2) (fun fuel => readAttribute S O fuel p) s
      (AttributeResult S O p externalPrecision A rest s) := by
  intro fuel
  cases fuel with
  | zero => exact .inr ⟨by omega, s, by simp only [readAttribute]; rfl⟩
  | succ fuel =>
    have visible : ∀ text ∈ A.2.data.map fun v =>
        v.written externalPrecision (S.table p)[A.1].arrayType.omitted, text ≠ [] := by
      intro text mem
      obtain ⟨v, -, rfl⟩ := mem_map.mp mem
      exact written_ne_nil externalPrecision _ v
    obtain ⟨d, follows⟩ := follows
    rw [rowEvents, cons_append, append_assoc] at follows
    obtain ⟨F', later, next, ends⟩ := follows.opened
    obtain ⟨s1, scanned, rfl, ahead⟩ := scanLabel_next next
    have word := (labelled.isWord (S.table p)[A.1] (getElem_mem _)).nonempty
    have start : readAttribute S O (fuel + 1) p s =
        (readArray S O fuel p A.1 (S.table p)[A.1] >>= fun _ => pure A.1.val : LoadM P X ℕ) s1 := by
      rw [readAttribute_succ, run_bind_ok scanned, if_neg word,
        readLabelled_label labelled fuel primary ordinary]
    have fresh : (s1.pools p).findAttribute A.1 = none := by
      rw [ahead.pools]
      exact new
    have array : Settles _ (fun fuel => readArray S O fuel p A.1 (S.table p)[A.1]) s1 _ :=
      readArray_settles ordinary notBool (Row.of_opened ahead ends) visible fresh
        (by rw [ahead.object, length_map]; exact full) (by rw [ahead.object]; exact fits _)
    simp only [start]
    rcases array fuel with res | ⟨few, s2, exceeded⟩
    · left
      have data : ((A.2.data.map fun v => v.written externalPrecision
          (S.table p)[A.1].arrayType.omitted).map (S.table p)[A.1].arrayType.read) =
          reread (S.table p) externalPrecision A := by
        simp [reread]
      unfold ArrayResult at res
      rw [data, ahead.object] at res
      have empty : reread (S.table p) externalPrecision A = [] ↔ A.2.data = [] := by simp [reread]
      simp only [empty] at res
      unfold AttributeResult
      split_ifs at res ⊢ with unreserved
      · obtain ⟨e, s2, res⟩ := res
        exact ⟨e, s2, run_bind_error res⟩
      · obtain ⟨s2, res, read⟩ := res
        refine ⟨s2, run_bind_ok res, read.object.trans ahead.object, fun t => ?_, read.follows⟩
        rw [read.found t, ahead.pools]
    · rw [length_map] at few
      exact .inr ⟨by omega, s2, run_bind_error exceeded⟩

theorem readPool_zero : readPool S O 0 p s = .error .outOfFuel s := by
  rw [readPool]
  rfl

theorem readPool_end (res : readAttribute S O fuel p s = .ok (S.table p).length s') :
    readPool S O (fuel + 1) p s = .ok () s' := by
  rw [readPool, run_bind_ok res, if_pos rfl]
  rfl

theorem readPool_next {token : Fin (S.table p).length}
    (res : readAttribute S O fuel p s = .ok token.val s') :
    readPool S O (fuel + 1) p s = readPool S O fuel p s' := by
  rw [readPool, run_bind_ok res, if_neg token.isLt.ne]

theorem readPool_error {e : LoadError} (res : readAttribute S O fuel p s = .error e s') :
    readPool S O (fuel + 1) p s = .error e s' := by
  rw [readPool, run_bind_error res]

theorem readPool_closed {d : ℕ} (follows : s.F.Reproduces d (.closed :: later)) :
    Settles 1 (fun fuel => readPool S O fuel p) s fun r => ∃ s', r = .ok () s' ∧ Ahead s s' later := by
  intro fuel
  cases fuel with
  | zero => exact .inr ⟨by omega, s, readPool_zero⟩
  | succ fuel =>
    cases fuel with
    | zero => exact .inr ⟨by omega, s, readPool_error (by rw [readAttribute]; rfl)⟩
    | succ fuel =>
      obtain ⟨F', next, -⟩ := follows.closed
      obtain ⟨s1, scanned, -, ahead⟩ := scanLabel_next next
      have last : readAttribute S O (fuel + 1) p s = .ok (S.table p).length s1 := by
        rw [readAttribute_succ, run_bind_ok scanned, if_pos rfl]
        rfl
      exact .inl ⟨s1, readPool_end last, ahead⟩

/-- **Reading a pool**: one attribute is made for each tuple. -/
theorem readPool_settles (labelled : Labelled (S.table p))
    (ne : (attributes.map Prod.fst).Nodup)
    (primary : ∀ A ∈ attributes, (S.table p)[A.1].primaryIndex = A.1)
    (ordinary : ∀ A ∈ attributes, (S.table p)[A.1].arrayType ≠ .special)
    (noBools : ∀ A ∈ attributes, (S.table p)[A.1].arrayType ≠ .bool)
    (full : ∀ A ∈ attributes, A.2.size = O.sizeInfo s.object (S.table p)[A.1].arrayDim)
    (fits : ∀ dim, O.sizeInfo s.object dim ≤ O.reserved s.object dim)
    (new : ∀ A ∈ attributes, (s.pools p).findAttribute A.1 = none)
    (follows : ∃ d, s.F.Reproduces d (poolEvents externalPrecision attributes ++ [.closed])) :
    Settles ((poolEvents externalPrecision attributes).length + 1) (fun fuel => readPool S O fuel p) s
      (PoolResult S O p externalPrecision attributes s) := by
  intro fuel
  induction attributes generalizing s fuel with
  | nil =>
    obtain ⟨d, follows⟩ := follows
    rcases readPool_closed follows fuel with ⟨s1, res, ahead⟩ | ⟨few, s1, exceeded⟩
    · refine .inl ((if_neg (by simp)).mpr ⟨s1, res, fun t => ?_⟩)
      rw [ahead.pools]
      rfl
    · exact .inr ⟨by omega, s1, exceeded⟩
  | cons A attributes ih =>
    cases fuel with
    | zero => exact .inr ⟨by omega, s, readPool_zero⟩
    | succ fuel =>
      have count : (poolEvents externalPrecision (A :: attributes)).length =
          A.2.data.length + 2 + (poolEvents externalPrecision attributes).length := by
        simp only [poolEvents, rowEvents, flatMap_cons, length_append, length_cons,
          length_map, length_nil]
      rw [map_cons, nodup_cons] at ne
      have others : ∀ B ∈ attributes, B.1 ≠ A.1 := by
        intro B mem eq
        exact ne.1 (eq ▸ mem_map_of_mem mem)
      have first := readAttribute_settles labelled externalPrecision
        (poolEvents externalPrecision attributes ++ [.closed])
        (primary A mem_cons_self) (ordinary A mem_cons_self) (noBools A mem_cons_self)
        (full A mem_cons_self) fits (new A mem_cons_self) (by simpa [poolEvents] using follows) fuel
      rcases first with res | ⟨few, s1, exceeded⟩
      · unfold AttributeResult at res
        by_cases unreserved : A.2.data = [] ∧ O.reserved s.object (S.table p)[A.1].arrayDim = 0
        · rw [if_pos unreserved] at res
          obtain ⟨e, s1, res⟩ := res
          exact .inl ((if_pos ⟨A, mem_cons_self, unreserved⟩).mpr
            ⟨e, s1, readPool_error res⟩)
        rw [if_neg unreserved] at res
        obtain ⟨s1, res, read⟩ := res
        have fresh : ∀ B ∈ attributes, (s1.pools p).findAttribute B.1 = none := by
          intro B mem
          rw [read.found, if_neg fun eq => others B mem (Fin.ext eq)]
          exact new B (mem_cons_of_mem A mem)
        have later := ih ne.2 (fun B mem => primary B (mem_cons_of_mem A mem))
          (fun B mem => ordinary B (mem_cons_of_mem A mem))
          (fun B mem => noBools B (mem_cons_of_mem A mem))
          (fun B mem => by
            rw [read.object]
            exact full B (mem_cons_of_mem A mem))
          (by rw [read.object]; exact fits) fresh read.follows fuel
        rcases later with res' | ⟨few, s2, exceeded⟩
        · left
          unfold PoolResult at res' ⊢
          rw [read.object] at res'
          by_cases any : ∃ B ∈ attributes,
              B.2.data = [] ∧ O.reserved s.object (S.table p)[B.1].arrayDim = 0
          · rw [if_pos any] at res'
            obtain ⟨e, s2, res'⟩ := res'
            obtain ⟨B, mem, here⟩ := any
            rw [if_pos ⟨B, mem_cons_of_mem A mem, here⟩]
            exact ⟨e, s2, (readPool_next res).trans res'⟩
          rw [if_neg any] at res'
          obtain ⟨s2, res', found⟩ := res'
          have none : ¬ ∃ B ∈ A :: attributes,
              B.2.data = [] ∧ O.reserved s.object (S.table p)[B.1].arrayDim = 0 := by
            rintro ⟨B, mem, here⟩
            rcases mem_cons.mp mem with rfl | later
            · exact unreserved here
            · exact any ⟨B, later, here⟩
          rw [if_neg none]
          refine ⟨s2, (readPool_next res).trans res', fun t => ?_⟩
          rw [found t, read.found t, rereadAttribute_cons externalPrecision others]
        · exact .inr ⟨by omega, s2, (readPool_next res).trans exceeded⟩
      · exact .inr ⟨by omega, s1, readPool_error exceeded⟩

end Pools

end Arrays

/-! ## Strings -/

/-- A string that has been read is no text. -/
def Unread (type : BaseType) (v : Value) : Prop :=
  type = .string → v = .string .null ∨ v = .string .inBuffer

/-- The default value and the entries of an attribute are no texts. -/
def UnreadAttribute (type : BaseType) (A : Attribute Value) : Prop :=
  Unread type A.defaultValue ∧ ∀ v ∈ A.data, Unread type v

/-- The attributes of the pools are no texts. -/
def UnreadPools (S : Schema P) (s : Loader P X) : Prop :=
  ∀ p A entry, A ∈ (s.pools p).attributes → (S.table p)[A.1]? = some entry →
    UnreadAttribute entry.arrayType A.2

section Strings

variable {S : Schema P} {O : GraphObject X} {type : BaseType} {A : Attribute Value}
  {pool : AttributePool} {entry : PoolEntry}

theorem unread_undefined (type : BaseType) : Unread type type.undefined := by
  rintro rfl
  exact .inl rfl

theorem unread_read (type : BaseType) (label : List Char) : Unread type (type.read label) := by
  rintro rfl
  exact .inr rfl

theorem unread_eraseItems (unread : UnreadAttribute type A) (k : ℕ) :
    UnreadAttribute type (A.eraseItems k) := by
  unfold Attribute.eraseItems
  split_ifs with empty last
  · exact unread
  · refine ⟨?_, fun v mem => unread.2 v (mem_of_mem_take mem)⟩
    cases data : A.data with
    | nil => exact unread.1
    | cons v data => exact unread.2 v (by simp [data])
  · exact ⟨unread.1, fun v mem => unread.2 v (mem_of_mem_take mem)⟩

theorem unread_resize (unread : UnreadAttribute type A) (size : ℕ) :
    UnreadAttribute type (resize size A) := by
  unfold resize
  split_ifs
  · exact unread_eraseItems unread _
  · refine ⟨unread.1, fun v mem => ?_⟩
    rw [mem_singleton.mp mem]
    exact unread.1
  · exact unread
  · refine ⟨unread.1, fun v mem => ?_⟩
    rcases mem_append.mp mem with old | fresh
    · exact unread.2 v old
    · rw [eq_of_mem_replicate fresh]
      exact unread.1
  · exact unread_eraseItems unread _
  · exact unread

/-- The pools are not accessed. -/
abbrev KeepsPools (x : LoadM P X α) : Prop := Keeps (fun s => s.pools) x

namespace KeepsPools

theorem scan : KeepsPools (scan : LoadM P X (List Char)) := by
  intro s
  cases scanned : s.F.scan none with
  | error e | ok res => simp only [KeepsAt, finalState, LoadM.scan, scanned]

theorem setLength (length : ℕ) : KeepsPools (setLength length : LoadM P X Unit) :=
  .modify fun _ => rfl

theorem scanInside : KeepsPools (scanInside : LoadM P X (List Char)) := by
  refine Keeps.bind (.modify ?_) fun _ => scan
  exact fun _ => rfl

theorem scanLabel : KeepsPools (scanLabel : LoadM P X (List Char)) := by
  refine Keeps.get.bind fun s => scan.bind fun label => Keeps.bind (.modify ?_) fun _ => .pure _
  exact fun _ => rfl

theorem accept (res : Except Refusal X) : KeepsPools (accept res : LoadM P X Unit) := by
  intro s
  cases res with
  | ok object | error e => rfl

theorem skipTuple (fuel : ℕ) : KeepsPools (skipTuple fuel : LoadM P X Unit) := by
  induction fuel with
  | zero => exact .throw _
  | succ fuel ih => exact Keeps.get.bind fun s => .ite (.pure _) (scanInside.bind fun _ => ih)

theorem readValues (type : BaseType) (reqLength fuel : ℕ) (array : List Value) (length : ℕ) :
    KeepsPools (readValues type reqLength fuel array length : LoadM P X _) := by
  induction fuel generalizing array length with
  | zero => exact .throw _
  | succ fuel ih =>
    exact Keeps.get.bind fun s => .ite (.pure _) (scanInside.bind fun label =>
      .ite (ih _ _) (.ite (ih _ _) (.ite (ih _ _) (ih _ _))))

theorem readTupleValues (type : BaseType) (reqLength fuel : ℕ) (array : List Value) :
    KeepsPools (readTupleValues type reqLength fuel array : LoadM P X _) :=
  (readValues _ _ _ _ _).bind fun _ => (setLength _).bind fun _ =>
    .ite (.throw _) (.pure _)

theorem readIndices (type : BaseType) (k fuel : ℕ) (tuple : List Value) :
    KeepsPools (readIndices type k fuel tuple : LoadM P X _) := by
  induction fuel generalizing tuple with
  | zero => exact .throw _
  | succ fuel ih =>
    exact Keeps.get.bind fun s => .ite (.pure _) (scanInside.bind fun label =>
      .ite (ih _) (.ite (.throw _) (ih _)))

theorem getIndexTuple (type : BaseType) (k fuel : ℕ) :
    KeepsPools (getIndexTuple type k fuel : LoadM P X _) :=
  (readIndices _ _ _ _).bind fun _ => (setLength _).bind fun _ =>
    .ite (.throw _) (.pure _)

theorem readFloats (k fuel : ℕ) (tuple : List Value) (length : ℕ) :
    KeepsPools (readFloats k fuel tuple length : LoadM P X _) := by
  induction fuel generalizing tuple length with
  | zero => exact .throw _
  | succ fuel ih =>
    exact Keeps.get.bind fun s => .ite (.pure _) (scanInside.bind fun label =>
      .ite (ih _ _) (.ite (ih _ _) (ih _ _)))

theorem getTFloatTuple (k fuel : ℕ) : KeepsPools (getTFloatTuple k fuel : LoadM P X _) :=
  (readFloats _ _ _ _).bind fun _ => (setLength _).bind fun _ =>
    .ite (.throw _) (.pure _)

theorem readLists (fuel nodes : ℕ) (lists : List (List Value)) :
    KeepsPools (readLists fuel nodes lists : LoadM P X _) := by
  induction nodes generalizing lists with
  | zero => exact .pure _
  | succ nodes ih => exact scanInside.bind fun _ => (getIndexTuple _ _ _).bind fun _ => ih _

theorem readIncidences (O : GraphObject X) (fuel : ℕ) :
    KeepsPools (readIncidences O fuel : LoadM P X Unit) :=
  Keeps.get.bind fun _ => (readLists _ _ _).bind fun _ => scanInside.bind fun _ =>
    .modify fun _ => rfl

theorem readParams (fuel : ℕ) (params : List (List Char)) (offset : ℕ) :
    KeepsPools (readParams fuel params offset : LoadM P X _) := by
  induction fuel generalizing params offset with
  | zero => exact .throw _
  | succ fuel ih =>
    exact Keeps.get.bind fun s => .ite (.pure _) (scanInside.bind fun token =>
      .ite (.pure _) (ih _ _))

theorem readConfiguration (O : GraphObject X) (fuel : ℕ) :
    KeepsPools (readConfiguration O fuel : LoadM P X Unit) := by
  intro s
  have parameters : KeepsPools (readParameters O fuel : LoadM P X Unit) :=
    (readParams _ _ _).bind fun _ => (skipTuple _).bind fun _ => .modify fun _ => rfl
  have keeps := parameters s
  unfold KeepsAt at keeps ⊢
  rw [← keeps]
  simp only [finalState, LoadM.readConfiguration]
  cases LoadM.readParameters O fuel s with
  | ok a s' => rfl
  | error e s' => cases e <;> rfl

end KeepsPools

section

variable (type : BaseType) (reqLength fuel : ℕ)

theorem unread_readValues {length' : ℕ}
    (unread : ∀ v ∈ array, Unread type v)
    (res : readValues type reqLength fuel array length s = .ok (array', length') s') :
    ∀ v ∈ array', Unread type v := by
  induction fuel generalizing array length s with
  | zero => cases res
  | succ fuel ih =>
    rw [readValues, run_bind_get] at res
    by_cases tail : s.F.tail = true
    · rw [if_pos tail] at res
      cases res
      exact unread
    rw [if_neg tail] at res
    obtain ⟨label, s1, -, res⟩ := of_run_bind res
    split_ifs at res
    · exact ih unread res
    · exact ih unread res
    · exact ih unread res
    · refine ih (fun v mem => ?_) res
      rcases mem_or_eq_of_mem_set mem with old | rfl
      · exact unread v old
      · exact unread_read type label

theorem unread_readTupleValues
    (unread : ∀ v ∈ array, Unread type v)
    (res : readTupleValues type reqLength fuel array s = .ok array' s') :
    ∀ v ∈ array', Unread type v := by
  obtain ⟨⟨array'', length⟩, s1, first, res⟩ := of_run_bind res
  have read := unread_readValues type reqLength fuel unread first
  rw [setLength, run_bind_modify] at res
  split_ifs at res
  · cases res
  · cases res
    exact read

end

theorem preserves_of_keepsPools {x : LoadM P X α} (keeps : KeepsPools x) :
    Preserves (UnreadPools S) x := by
  intro s unread p
  have eq : (finalState x s).pools = s.pools := keeps s
  rw [eq]
  exact unread p

theorem unread_setPool [DecidableEq P] (unread : UnreadPools S s)
    (attributes : ∀ A entry, A ∈ pool.attributes →
      (S.table p)[A.1]? = some entry → UnreadAttribute entry.arrayType A.2) :
    EndsIn (UnreadPools S) (setPool p pool : LoadM P X Unit) s := by
  intro q A entry mem found
  change A ∈ (Function.update s.pools p pool q).attributes at mem
  by_cases eq : q = p
  · subst eq
    rw [Function.update_self] at mem
    exact attributes A entry mem found
  · rw [Function.update_of_ne eq] at mem
    exact unread q A entry mem found

theorem unread_setAttribute (here : (S.table p)[token]? = some entry)
    (unread : UnreadAttribute entry.arrayType A)
    (attributes : ∀ A entry, A ∈ pool.attributes → (S.table p)[A.1]? = some entry →
      UnreadAttribute entry.arrayType A.2) :
    ∀ B entry, B ∈ (pool.setAttribute token A).attributes → (S.table p)[B.1]? = some entry →
      UnreadAttribute entry.arrayType B.2 := by
  intro B entry' mem found
  obtain ⟨C, inside, rfl⟩ := mem_map.mp mem
  by_cases eq : C.1 = token
  · rw [if_pos eq] at found ⊢
    rw [here] at found
    cases found
    exact unread
  · rw [if_neg eq] at found ⊢
    exact attributes C entry' inside found

theorem unread_readArray [DecidableEq P] (here : (S.table p)[token]? = some entry) (fuel : ℕ) :
    Preserves (UnreadPools S) (readArray S O fuel p token entry) := by
  refine Preserves.get_bind fun s unread => ?_
  have pool := unread p
  have made : UnreadAttribute entry.arrayType ((s.pools p).makeAttribute token entry.arrayType
      (O.sizeInfo s.object entry.arrayDim) (O.reserved s.object entry.arrayDim)).2 ∧
      ∀ A entry', A ∈ ((s.pools p).makeAttribute token entry.arrayType
        (O.sizeInfo s.object entry.arrayDim) (O.reserved s.object entry.arrayDim)).1.attributes →
        (S.table p)[A.1]? = some entry' → UnreadAttribute entry'.arrayType A.2 := by
    unfold makeAttribute
    cases search : (s.pools p).findAttribute token with
    | some A =>
      obtain ⟨B, found, rfl⟩ := map_eq_some_iff.mp search
      have old : UnreadAttribute entry.arrayType B.2 := by
        refine unread p B entry (mem_of_find?_eq_some found) ?_
        have token' : B.1 = token := by simpa using find?_some found
        rw [token', here]
      have resized := unread_resize old (O.sizeInfo s.object entry.arrayDim)
      have kept : UnreadAttribute entry.arrayType
          { resize (O.sizeInfo s.object entry.arrayDim) B.2 with
            defaultValue := entry.arrayType.undefined } :=
        ⟨unread_undefined _, resized.2⟩
      exact ⟨kept, unread_setAttribute here kept pool⟩
    | none =>
      have fresh : UnreadAttribute entry.arrayType
          ⟨List.replicate (if O.reserved s.object entry.arrayDim = 0 then 1
            else O.sizeInfo s.object entry.arrayDim) entry.arrayType.undefined,
            entry.arrayType.undefined⟩ := by
        refine ⟨unread_undefined _, fun v mem => ?_⟩
        rw [eq_of_mem_replicate mem]
        exact unread_undefined _
      refine ⟨fresh, fun A entry' mem found => ?_⟩
      rcases mem_cons.mp mem with rfl | old
      · rw [here] at found
        cases found
        exact fresh
      · exact pool A entry' old found
  refine (unread_setPool unread made.2).bind fun _ s1 _ unread1 => ?_
  by_cases boolean : entry.arrayType = .bool
  · rw [if_pos boolean]
    exact Preserves.throw _ s1 unread1
  rw [if_neg boolean]
  refine (preserves_of_keepsPools (KeepsPools.readTupleValues _ _ _ _) s1 unread1).bind
    fun data s2 read unread2 => EndsIn.bind_ok (run_get s2) ?_
  have entries := unread_readTupleValues _ _ fuel made.1.2 read
  split_ifs
  · refine unread_setPool unread2 fun A entry' mem found => ?_
    exact unread2 p A entry' (mem_of_mem_eraseP mem) found
  · refine unread_setPool unread2 (unread_setAttribute here ⟨?_, by simp⟩ (unread2 p))
    unfold Attribute.getValue
    cases data with
    | nil => exact made.1.1
    | cons v data => exact entries v mem_cons_self
  · exact unread_setPool unread2 (unread_setAttribute here ⟨made.1.1, entries⟩ (unread2 p))

theorem lookup_entry
    (found : S.lookup p label = some (token, entry)) : (S.table p)[token]? = some entry := by
  simp only [Schema.lookup] at found
  obtain ⟨first, -, found⟩ := bind_eq_some_iff.mp found
  obtain ⟨second, here, found⟩ := bind_eq_some_iff.mp found
  cases found
  exact here

theorem unread_readPools [DecidableEq P] (S : Schema P) (O : GraphObject X) (fuel : ℕ) :
    (∀ p, Preserves (UnreadPools S) (readAttribute S O fuel p)) ∧
      (∀ p token, Preserves (UnreadPools S) (readSpecial S O fuel p token)) ∧
      ∀ p, Preserves (UnreadPools S) (readPool S O fuel p) := by
  induction fuel with
  | zero =>
    refine ⟨fun p => ?_, fun p token => ?_, fun p => ?_⟩
    · rw [readAttribute]
      exact .throw _
    · rw [readSpecial]
      exact .throw _
    · rw [readPool]
      exact .throw _
  | succ fuel ih =>
    obtain ⟨array, special, pool⟩ := ih
    refine ⟨fun p => ?_, fun p token => ?_, fun p => ?_⟩
    · rw [readAttribute]
      refine (preserves_of_keepsPools KeepsPools.scanLabel).bind fun label => .ite (.pure _) ?_
      cases found : S.lookup p label with
      | none => exact (preserves_of_keepsPools (KeepsPools.skipTuple _)).bind fun _ => .pure _
      | some found' =>
        obtain ⟨token, entry⟩ := found'
        exact (Preserves.ite (special p token)
          (unread_readArray (lookup_entry found) fuel)).bind fun _ => .pure _
    · rw [readSpecial]
      cases S.special p token with
      | nothing => exact .pure _
      | pool q => exact pool q
      | layout q =>
        refine (pool q).bind fun _ => Preserves.get_bind fun s unread => ?_
        exact preserves_of_keepsPools (KeepsPools.accept _) s unread
      | nodes =>
        exact (preserves_of_keepsPools (KeepsPools.getIndexTuple _ _ _)).bind fun _ =>
          .modify fun _ unread => unread
      | arcs =>
        refine (preserves_of_keepsPools (KeepsPools.getIndexTuple _ _ _)).bind fun _ =>
          Preserves.get_bind fun s unread => ?_
        exact preserves_of_keepsPools (KeepsPools.accept _) s unread
      | incidences => exact preserves_of_keepsPools (KeepsPools.readIncidences O fuel)
      | subgraph =>
        refine preserves_of_keepsPools (Keeps.get.bind fun _ =>
          (KeepsPools.getTFloatTuple _ _).bind fun _ => Keeps.get.bind fun _ =>
            KeepsPools.accept _)
      | configuration => exact preserves_of_keepsPools (KeepsPools.readConfiguration O fuel)
    · rw [readPool]
      exact (array p).bind fun _ => .ite (.pure _) (pool p)

end Strings

/-- The label of a pool is read, and the pool. -/
def loadPool [DecidableEq P] (S : Schema P) (O : GraphObject X) (fuel : ℕ) (p : P) :
    LoadM P X Unit := do
  let _ ← scanLabel
  readPool S O fuel p

end LoadM

/-! ## The round trip -/

/-- The exact condition under which an attribute is restored. -/
structure Restorable (full : Bool) (reserved externalPrecision : ℕ) (entry : PoolEntry)
    (A : Attribute Value) : Prop where
  /-- Strings are pointers into the buffer afterwards. -/
  noStrings : entry.arrayType = .string → A.data = []
  /-- Boolean entries have no addresses. -/
  notBool : entry.arrayType ≠ .bool
  /-- The asterisk is read as the index zero. -/
  noIndex : entry.arrayType = .index ∨ entry.arrayType = .varIndex ∨ entry.arrayType = .restrIndex →
    Value.index noIndexValue ∉ A.data
  /-- The asterisk is read as the number zero. -/
  noInt : entry.arrayType = .int → int (-1) ∉ A.data
  printable : Printable externalPrecision entry.arrayType.omitted A.data
  /-- A single value is a constant, which is dropped. -/
  several : A.size = 1 → entry.arrayDim = .singleton ∨ full = false
  /-- A new attribute has an entry if nothing can be represented. -/
  reserved : A.size = 0 → reserved ≠ 0

theorem length_fixedText_infinite {q : ℚ} (inf : |q| = infFloat) (externalPrecision : ℕ) :
    24 < (fixedText externalPrecision q).length := by
  have scaled : roundHalfEven (|q| * 10 ^ externalPrecision) = 10 ^ 50 * 10 ^ externalPrecision := by
    have cast : |q| * 10 ^ externalPrecision =
        ((10 ^ 50 * 10 ^ externalPrecision : ℕ) : ℚ) := by
      rw [inf, infFloat]
      push_cast
      rfl
    rw [cast, roundHalfEven_natCast]
  have whole : 24 < (Nat.toDigits 10 (10 ^ 50)).length := by
    by_contra short
    have bound := (Nat.length_toDigits_le_iff (b := 10) (k := 24) (n := 10 ^ 50) (by decide)
      (by decide)).mp (not_lt.mp short)
    revert bound
    decide
  unfold fixedText
  rw [scaled]
  dsimp only
  rw [Nat.mul_div_cancel _ (by positivity), length_append, length_append]
  omega

theorem Value.exists_other (v : Value) {type : BaseType} (typed : v.HasType type) :
    ∃ default : Value, default.HasType type ∧ default ≠ v := by
  cases v with
  | index i => exact ⟨.index (i + 1), typed, by simp⟩
  | float q => exact ⟨.float (q + 1), typed, by simp⟩
  | orientation c => exact ⟨.orientation (c + 1), typed, by simp⟩
  | int i => exact ⟨.int (i + 1), typed, by simp⟩
  | bool b => exact ⟨.bool !b, typed, by simp⟩
  | string s =>
    cases s with
    | null => exact ⟨.string (.text []), ⟨typed.1, by simp⟩, by simp⟩
    | text chars => exact ⟨.string .null, ⟨typed.1, by simp⟩, by simp⟩
    | inBuffer => exact absurd rfl typed.2

namespace TypedPool

variable {P X : Type} {S : Schema P} {O : GraphObject X} {x : X} {p : P} {externalPrecision : ℕ}

/-- The object before reading. -/
def start (E : GoblinExport) (x : X) (clears : Bool) (buffer : List Char) (length : ℕ) :
    Loader P X :=
  ⟨GoblinImport.create E.close clears buffer length, x, fun _ => ⟨[]⟩, false⟩

/-- The pool is written and read back into an object of the same dimensions, which restores the
attribute values. -/
def RoundTrips [DecidableEq P] (pool : TypedPool (S.table p) (O.sizeInfo x) externalPrecision)
    (CT : NumberFormat) (labelled : Labelled (S.table p)) (poolLabel : Header) (clears : Bool)
    (buffer : List Char) (length : ℕ) : Prop :=
  ∃ E, writePool CT labelled (fun _ => .ok) pool.attributes poolLabel
      (GoblinExport.create externalPrecision) = .ok E ∧
    ∃ fuel s', LoadM.loadPool S O fuel p
        (start E x clears buffer length) = .ok () s' ∧
      ∀ (token : Fin (S.table p).length) (i : ℕ) (default : Value),
        i < O.sizeInfo x (S.table p)[token].arrayDim →
        default.HasType (S.table p)[token].arrayType →
        (s'.pools p).getValue token i default = pool.untyped.getValue token i default

variable (pool : TypedPool (S.table p) (O.sizeInfo x) externalPrecision)
  {A : Fin (S.table p).length × Attribute Value}

theorem find_eq (mem : A ∈ pool.attributes) :
    pool.attributes.find? (fun B => B.1.val = A.1.val) = some A := by
  cases search : pool.attributes.find? (fun B => B.1.val = A.1.val) with
  | none =>
    have absent := find?_eq_none.mp search A mem
    simp at absent
  | some B =>
    have eq : B.1 = A.1 := Fin.ext (by simpa using find?_some search)
    exact congrArg some (inj_on_of_nodup_map pool.distinct
      (mem_of_find?_eq_some search) mem eq)

theorem findAttribute_untyped (t : ℕ) :
    pool.untyped.findAttribute t = (pool.attributes.find? fun A => A.1.val = t).map Prod.snd := by
  rw [findAttribute, untyped, List.find?_map, Option.map_map]
  rfl

theorem getValue_untyped (mem : A ∈ pool.attributes) (i : ℕ) (default : Value) :
    pool.untyped.getValue A.1 i default = A.2.getValue i := by
  simp only [getValue, findAttribute_untyped, pool.find_eq mem, map_some]

theorem getValue_kept {entry : PoolEntry} {data : List Value}
    (several : data.length = 1 → entry.arrayDim = .singleton ∨ full = false) {i : ℕ}
    (bound : i < data.length) (default : Value) :
    ((LoadM.readBack full entry data).map fun B => B.getValue i).getD default = data[i] := by
  unfold LoadM.readBack
  dsimp only
  split_ifs with single dropped
  · rcases several single.2 with here | kept
    · exact absurd here single.1
    · rw [dropped] at kept
      cases kept
  · obtain rfl : i = 0 := by
      have := single.2
      omega
    simp [Attribute.getValue, bound]
  · simp [Attribute.getValue, bound]

/-- **Values**: an attribute that has been read has the values that have been written exactly if it
has not been dropped and its entries are restored. -/
theorem getValue_readBack_iff (S : Schema P) (p : P) (externalPrecision : ℕ)
    (A : Fin (S.table p).length × Attribute Value)
    (typed : ∀ v ∈ A.2.data, v.HasType (S.table p)[A.1].arrayType)
    (exact : ∀ v ∈ A.2.data, v.Exact externalPrecision) :
    (∀ (i : ℕ) (default : Value), i < A.2.data.length → default.HasType (S.table p)[A.1].arrayType →
      ((LoadM.readBack (S.fullRank p) (S.table p)[A.1]
        (LoadM.reread (S.table p) externalPrecision A)).map fun B => B.getValue i).getD default =
          A.2.getValue i) ↔
      (A.2.data.length = 1 → (S.table p)[A.1].arrayDim = .singleton ∨ S.fullRank p = false) ∧
        ∀ v ∈ A.2.data, v.Restored (S.table p)[A.1].arrayType := by
  have length : (LoadM.reread (S.table p) externalPrecision A).length = A.2.data.length := by
    simp [LoadM.reread]
  have val : ∀ {i : ℕ} (bound : i < A.2.data.length), A.2.getValue i = A.2.data[i] := by
    intro i bound
    simp [Attribute.getValue, bound]
  constructor
  · intro eq
    have several : A.2.data.length = 1 → (S.table p)[A.1].arrayDim = .singleton ∨
        S.fullRank p = false := by
      intro single
      by_contra dropped
      rw [not_or, Bool.not_eq_false] at dropped
      have none : LoadM.readBack (S.fullRank p) (S.table p)[A.1]
          (LoadM.reread (S.table p) externalPrecision A) = none := by
        unfold LoadM.readBack
        simp only [if_pos (And.intro dropped.1 (length.trans single)), if_pos dropped.2]
      have bound : 0 < A.2.data.length := by omega
      obtain ⟨default, typed', other⟩ := (A.2.data[0]).exists_other
        (typed _ (getElem_mem _))
      have first := eq 0 default bound typed'
      rw [none, val bound] at first
      exact other first
    refine ⟨several, fun v mem => ?_⟩
    obtain ⟨i, bound, rfl⟩ := mem_iff_getElem.mp mem
    have here := eq i (A.2.data[i]) bound (typed _ mem)
    rw [getValue_kept (by rw [length]; exact several) (by rw [length]; exact bound), val bound]
      at here
    rw [← read_written_iff (typed _ mem) (exact _ mem)]
    simpa [LoadM.reread] using here
  · rintro ⟨several, restored⟩ i default bound -
    rw [getValue_kept (by rw [length]; exact several) (by rw [length]; exact bound), val bound]
    have mem : A.2.data[i] ∈ A.2.data := getElem_mem _
    have here := (read_written_iff (typed _ mem) (exact _ mem)).mpr (restored _ mem)
    simpa [LoadM.reread] using here

variable [DecidableEq P] {CT : NumberFormat} {labelled : Labelled (S.table p)} {poolLabel : Header}
  {E : GoblinExport}

section

variable (fits : ∀ dim, O.sizeInfo x dim ≤ O.reserved x dim)
  (wordless : ∀ A ∈ pool.attributes, Wordless (S.table p)[A.1].arrayType.omitted A.2.data)
  (written : writePool CT labelled (fun _ => .ok) pool.attributes poolLabel (GoblinExport.create
  externalPrecision) = .ok E) (clears : Bool) (buffer : List Char) (length : ℕ)
include fits wordless written

theorem loadPool_settles : ∃ steps, LoadM.Settles steps (fun fuel => LoadM.loadPool S O fuel p)
      (start E x clears buffer length) (LoadM.PoolResult S O p externalPrecision pool.attributes
        (start E x clears buffer length)) := by
  obtain ⟨F', scanned, follows⟩ := writePool_reproduces wordless written clears buffer length
  obtain ⟨s1, label, -, ahead⟩ := LoadM.scanLabel_next
    (s := start (P := P) E x clears buffer length) ⟨scanned, follows⟩
  have object : s1.object = x := ahead.object
  have fresh : ∀ A ∈ pool.attributes, (s1.pools p).findAttribute A.1 = none := by
    intro A _
    rw [ahead.pools]
    rfl
  have rest := LoadM.readPool_settles labelled pool.distinct pool.primary pool.ordinary
    (fun A mem => (short_of_writePool wordless written A mem).1)
    (by rw [object]; exact pool.full) (by rw [object]; exact fits) fresh ahead.follows
  refine ⟨(poolEvents externalPrecision pool.attributes).length + 1, fun fuel => ?_⟩
  have run : LoadM.loadPool S O fuel p (start E x clears buffer length) =
      LoadM.readPool S O fuel p s1 := run_bind_ok label
  simp only [run]
  have res := rest fuel
  unfold LoadM.PoolResult at res ⊢
  rw [ahead.object, ahead.pools] at res
  exact res

theorem loaded_iff :
    (∃ fuel s', LoadM.loadPool S O fuel p (start E x clears buffer length) = .ok () s' ∧
      ∀ (token : Fin (S.table p).length) (i : ℕ) (default : Value),
        i < O.sizeInfo x (S.table p)[token].arrayDim →
        default.HasType (S.table p)[token].arrayType →
        (s'.pools p).getValue token i default = pool.untyped.getValue token i default) ↔
      ∀ A ∈ pool.attributes, (A.2.data = [] → O.reserved x (S.table p)[A.1].arrayDim ≠ 0) ∧
        (A.2.data.length = 1 → (S.table p)[A.1].arrayDim = .singleton ∨ S.fullRank p = false) ∧
        ∀ v ∈ A.2.data, v.Restored (S.table p)[A.1].arrayType := by
  obtain ⟨steps, settles⟩ := pool.loadPool_settles fits wordless written clears buffer length
  have read : ∀ {s' : Loader P X}, (∀ t, (s'.pools p).findAttribute t =
      LoadM.rereadAttribute S p externalPrecision pool.attributes t none) →
      ∀ A ∈ pool.attributes, ∀ (i : ℕ) (default : Value),
        (s'.pools p).getValue A.1 i default = ((LoadM.readBack (S.fullRank p) (S.table p)[A.1]
          (LoadM.reread (S.table p) externalPrecision A)).map fun B => B.getValue i).getD
            default := by
    intro s' found A mem i default
    rw [getValue, found, LoadM.rereadAttribute, pool.find_eq mem]
    dsimp only
    cases LoadM.readBack (S.fullRank p) (S.table p)[A.1]
      (LoadM.reread (S.table p) externalPrecision A) <;> rfl
  constructor
  · rintro ⟨fuel, s', res, eq⟩
    rcases settles fuel with outcome | ⟨-, s'', exceeded⟩
    · unfold LoadM.PoolResult at outcome
      split_ifs at outcome with empty
      · obtain ⟨e, s'', failed⟩ := outcome
        have both := res.symm.trans failed
        cases both
      obtain ⟨s'', res', found⟩ := outcome
      have both := res.symm.trans res'
      cases both
      intro A mem
      refine ⟨fun none reserved => empty ⟨A, mem, none, reserved⟩, ?_⟩
      rw [← getValue_readBack_iff S p externalPrecision A (pool.typed A mem)
        (pool.exact A mem)]
      intro i default bound typed
      rw [← read found A mem, ← pool.getValue_untyped mem i default]
      refine eq A.1 i default ?_ typed
      rw [← pool.full A mem]
      exact bound
    · have both := res.symm.trans exceeded
      cases both
  · intro restored
    rcases settles (steps + 1) with outcome | ⟨few, -⟩
    · have allocated : ¬ ∃ A ∈ pool.attributes,
          A.2.data = [] ∧ O.reserved x (S.table p)[A.1].arrayDim = 0 := by
        rintro ⟨A, mem, none, reserved⟩
        exact (restored A mem).1 none reserved
      unfold LoadM.PoolResult at outcome
      obtain ⟨s', res, found⟩ := (if_neg allocated).mp outcome
      refine ⟨steps + 1, s', res, fun token i default bound typed => ?_⟩
      cases search : pool.attributes.find? (fun A => A.1.val = token.val) with
      | none =>
        have absent : (s'.pools p).findAttribute token = none := by
          rw [found, LoadM.rereadAttribute, search]
          rfl
        simp only [getValue, absent, pool.findAttribute_untyped, search,
          map_none]
      | some A =>
        have mem := mem_of_find?_eq_some search
        obtain rfl : A.1 = token := Fin.ext (by simpa using find?_some search)
        rw [read found A mem, pool.getValue_untyped mem]
        refine (getValue_readBack_iff S p externalPrecision A (pool.typed A mem)
          (pool.exact A mem)).mpr (restored A mem).2 i default ?_ typed
        rw [← pool.full A mem] at bound
        exact bound
    · omega

end

omit [DecidableEq P] in
theorem restored_of_restorable (mem : A ∈ pool.attributes)
    (restorable : Restorable full reserved externalPrecision (S.table p)[A.1] A.2) :
    ∀ v ∈ A.2.data, v.Restored (S.table p)[A.1].arrayType := by
  intro v inside
  have typed := pool.typed A mem v inside
  refine ⟨?_, fun absent => ?_, ?_⟩
  · rintro s rfl
    rw [restorable.noStrings typed.1] at inside
    cases inside
  · refine ⟨fun type => ?_, fun type => ?_, fun type => ?_, fun type => ?_⟩
    · rw [absent, type] at inside
      exact restorable.noIndex (.inl type) inside
    · rw [absent, type] at inside
      exact restorable.noIndex (.inr (.inl type)) inside
    · rw [absent, type] at inside
      exact restorable.noIndex (.inr (.inr type)) inside
    · rw [absent, type] at inside
      exact restorable.noInt type inside
  · rintro q rfl inf
    rcases restorable.printable q inside with short | ⟨-, absent⟩
    · have long := length_fixedText_infinite inf externalPrecision
      omega
    · exact absent

omit [DecidableEq P] in
theorem restorable_of_restored (mem : A ∈ pool.attributes)
    (short : ∀ q, float q ∈ A.2.data → (fixedText externalPrecision q).length ≤ 24 ∨
      (A.2.data = [.float q] ∧
        (.float q = (S.table p)[A.1].arrayType.omitted ∨ |q| = infFloat)))
    (notBool : (S.table p)[A.1].arrayType ≠ .bool)
    (allocated : A.2.data = [] → reserved ≠ 0)
    (several : A.2.data.length = 1 → (S.table p)[A.1].arrayDim = .singleton ∨ full = false)
    (restored : ∀ v ∈ A.2.data, v.Restored (S.table p)[A.1].arrayType) :
    Restorable full reserved externalPrecision (S.table p)[A.1] A.2 where
  noStrings type := by
    refine eq_nil_iff_forall_not_mem.mpr fun v inside => ?_
    have typed := pool.typed A mem v inside
    rw [type] at typed
    cases v with
    | string s => exact (restored _ inside).number s rfl
    | _ => simp [Value.HasType] at typed
  notBool := notBool
  noIndex type inside := by
    have recognised := (restored _ inside).recognised
    rcases type with type | type | type
    · rw [type] at recognised
      exact (recognised rfl).1 rfl
    · rw [type] at recognised
      exact (recognised rfl).2.1 rfl
    · rw [type] at recognised
      exact (recognised rfl).2.2.1 rfl
  noInt type inside := by
    have recognised := (restored _ inside).recognised
    rw [type] at recognised
    exact (recognised rfl).2.2.2 rfl
  printable q inside := by
    rcases short q inside with short | ⟨single, absent | inf⟩
    · exact .inl short
    · exact .inr ⟨single, absent⟩
    · exact .inr ⟨single, (restored _ inside).finite q rfl inf⟩
  several := several
  reserved none := allocated (length_eq_zero_iff.mp none)

theorem wordless_of_loaded {clears : Bool} {buffer : List Char} {s' : Loader P X}
    (res : LoadM.loadPool S O fuel p (start E x clears buffer length) = .ok () s')
    (eq : ∀ (token : Fin (S.table p).length) (i : ℕ) (default : Value),
      i < O.sizeInfo x (S.table p)[token].arrayDim → default.HasType (S.table p)[token].arrayType →
      (s'.pools p).getValue token i default = pool.untyped.getValue token i default) :
    ∀ A ∈ pool.attributes, Wordless (S.table p)[A.1].arrayType.omitted A.2.data := by
  intro A mem s inside
  obtain ⟨type, other⟩ := pool.typed A mem _ inside
  obtain ⟨i, bound, here⟩ := mem_iff_getElem.mp inside
  have unread : LoadM.UnreadPools S s' := by
    have kept := (LoadM.preserves_of_keepsPools LoadM.KeepsPools.scanLabel).bind
      (fun _ => (LoadM.unread_readPools S O fuel).2.2 p) (start E x clears buffer length)
      (by intro q B entry mem; cases mem)
    have final : finalState (LoadM.loadPool S O fuel p) (start E x clears buffer length) =
        s' := by
      rw [finalState, res]
    rw [← final]
    exact kept
  have val := eq A.1 i (.string .null) (by rw [← pool.full A mem]; exact bound)
    ⟨type, by simp⟩
  rw [pool.getValue_untyped mem, Attribute.getValue, getD_eq_getElem?_getD,
    getElem?_eq_getElem bound, getD_some, here] at val
  have loaded : string s = .string .null ∨ string s = .string .inBuffer := by
    rw [← val, getValue]
    cases search : (s'.pools p).findAttribute A.1 with
    | none => exact .inl rfl
    | some B =>
      obtain ⟨C, found, rfl⟩ := map_eq_some_iff.mp search
      have token : C.1 = A.1.val := by simpa using find?_some found
      have texts := unread p C (S.table p)[A.1] (mem_of_find?_eq_some found)
        (by rw [token]; simp)
      dsimp only
      rw [Attribute.getValue, getD_eq_getElem?_getD]
      cases entry : C.2.data[i]? with
      | none => exact texts.1 type
      | some v => exact texts.2 v (mem_of_getElem? entry) type
  rcases loaded with null | buffered
  · rw [null, type]
    rfl
  · exact absurd (string.inj buffered) other

/-- **The round trip of attributes**: for every table, every pool with entries of the types of the
table, every object which has reserved the space that it uses, and every state of the buffers, the
pool is restored exactly if each of its attributes is restorable. -/
theorem attributes_roundTrip_iff (fits : ∀ dim, O.sizeInfo x dim ≤ O.reserved x dim)
    (CT : NumberFormat) (labelled : Labelled (S.table p)) (poolLabel : Header) (clears : Bool)
    (buffer : List Char) (length : ℕ) : pool.RoundTrips CT labelled poolLabel clears buffer length ↔
      ∀ A ∈ pool.attributes, Restorable (S.fullRank p)
        (O.reserved x (S.table p)[A.1].arrayDim) externalPrecision (S.table p)[A.1] A.2 := by
  constructor
  · rintro ⟨E, written, fuel, s', result, same⟩ A member
    have wordless := pool.wordless_of_loaded result same
    have loaded := (pool.loaded_iff fits wordless written clears buffer length).mp
      ⟨fuel, s', result, same⟩
    obtain ⟨allocated, several, restored⟩ := loaded A member
    obtain ⟨notBool, short⟩ := short_of_writePool wordless written A member
    exact pool.restorable_of_restored member short notBool allocated several restored
  · intro restorable
    have wordless : ∀ A ∈ pool.attributes,
        Wordless (S.table p)[A.1].arrayType.omitted A.2.data := by
      intro A member s inside
      exact absurd rfl ((pool.restored_of_restorable member (restorable A member) _ inside).number s)
    obtain ⟨E, written⟩ := writePool_ok CT labelled poolLabel
      (fun A member => (restorable A member).notBool) pool.typed
      fun A member => (restorable A member).printable
    refine ⟨E, written, (pool.loaded_iff fits wordless written clears buffer length).mpr ?_⟩
    intro A member
    refine ⟨fun none => (restorable A member).reserved (length_eq_zero_iff.mpr none),
      (restorable A member).several, pool.restored_of_restorable member (restorable A member)⟩

/-! ## The registers of a graph -/

end TypedPool

instance (text : List Char) : Decidable (IsWord text) :=
  -- there is an instance for all characters, too, which cannot be evaluated
  letI : Decidable (∀ c ∈ text, isSpace c = false) := decidableBAll _ text
  decidable_of_iff (text ≠ [] ∧ ∀ c ∈ text, isSpace c = false)
    ⟨fun word => ⟨word.1, word.2⟩, fun word => ⟨word.nonempty, word.solid⟩⟩

theorem labelled_graphSchema (p : GraphPool) : Labelled (graphSchema.table p) := by
  constructor
  all_goals
    cases p <;> decide +kernel

namespace TypedPool

/-- The registers of a graph with three nodes, where the original node of the second one has the
given index. -/
def originalNodes (index : UInt64) : TypedPool (graphSchema.table .registers)
    (pathObject.sizeInfo ()) 2 where
  attributes := [(⟨7, by decide⟩,
    ⟨[.index 0, .index index, .index 1], .index noIndexValue⟩)]
  distinct := nodup_singleton _
  primary := forall_mem_singleton.mpr rfl
  ordinary := forall_mem_singleton.mpr (show BaseType.index ≠ .special by decide)
  full := forall_mem_singleton.mpr rfl
  typed := by
    have typed : ∀ i, (Value.index i).HasType .index := fun _ => .inr (.inr (.inl rfl))
    refine forall_mem_singleton.mpr ?_
    rintro v (_ | ⟨_, _ | ⟨_, _ | ⟨_, none⟩⟩⟩)
    · exact typed 0
    · exact typed index
    · exact typed 1
    · cases none
  exact := by
    refine forall_mem_singleton.mpr ?_
    rintro v (_ | ⟨_, _ | ⟨_, _ | ⟨_, none⟩⟩⟩)
    · trivial
    · trivial
    · trivial
    · cases none

theorem attributes_roundTrip_originalNodes :
    (∀ dim, pathObject.sizeInfo () dim ≤ pathObject.reserved () dim) ∧
      (originalNodes 5).RoundTrips ⟨15, fun _ _ => 1, le_rfl⟩ (labelled_graphSchema .registers)
        ⟨"registers".toList, by decide, by decide, by decide, by decide⟩ true [] 0 := by
  have fits : ∀ dim, pathObject.sizeInfo () dim ≤ pathObject.reserved () dim :=
    fun dim => by cases dim <;> rfl
  refine ⟨fits, (attributes_roundTrip_iff (originalNodes 5) fits _ _ _ _ _ _).mpr ?_⟩
  intro A member
  obtain rfl := mem_singleton.mp member
  refine ⟨by decide, by decide, by decide, by decide, ?_, by decide, by decide⟩
  intro q inside
  simp at inside

/-- An index that does not exist is read back as the index zero. -/
theorem originalNodes_lost :
    ¬ ∀ index : UInt64, (originalNodes index).RoundTrips ⟨15, fun _ _ => 1, le_rfl⟩
      (labelled_graphSchema .registers)
      ⟨"registers".toList, by decide, by decide, by decide, by decide⟩ true [] 0 := by
  intro all
  obtain ⟨E, written, loads⟩ := all noIndexValue
  have fits : ∀ dim, pathObject.sizeInfo () dim ≤ pathObject.reserved () dim :=
    fun dim => by cases dim <;> rfl
  have wordless : ∀ A ∈ (originalNodes noIndexValue).attributes,
      Wordless (graphSchema.table .registers)[A.1].arrayType.omitted A.2.data := by
    intro A member s inside
    obtain rfl := mem_singleton.mp member
    simp at inside
  have loaded := ((originalNodes noIndexValue).loaded_iff fits wordless written true [] 0).mp loads
  obtain ⟨-, -, restored⟩ := loaded _ (mem_singleton_self _)
  exact ((restored (.index noIndexValue) (by simp)).recognised rfl).1 rfl

end TypedPool

end Goblin
