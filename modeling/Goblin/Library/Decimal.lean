import Goblin.Library.CharStreams
import Mathlib.Data.Rat.Floor

/-!
# Numbers as text

Integers are written in decimal, rational numbers with a fixed number of digits after
the point, the last one rounded and ties going to the even digit. Such a text consists of
digits, a point and a sign, so it is a word that no punctuation of a file format can occur in.
-/

set_option autoImplicit false

namespace Goblin.Library

open List
variable {c : Char} {n k : Nat} {text : List Char}

/-- An integer in decimal. -/
def intText (i : Int) : List Char :=
  (if i < 0 then ['-'] else []) ++ Nat.toDigits 10 i.natAbs

/-- The integer next to a non-negative number, the even one of two. -/
def roundHalfEven (q : ℚ) : Nat :=
  let below := ⌊q⌋.toNat
  let part := q - below
  if part < 1 / 2 then below
  else if 1 / 2 < part then below + 1
  else if below % 2 = 0 then below else below + 1

/-- A rational number with `digits` digits after the point. -/
def fixedText (digits : Nat) (q : ℚ) : List Char :=
  let scaled := roundHalfEven (|q| * 10 ^ digits)
  (if q < 0 then ['-'] else []) ++ Nat.toDigits 10 (scaled / 10 ^ digits) ++
    (if digits = 0 then []
     else '.' :: leftpad digits '0' (Nat.toDigits 10 (scaled % 10 ^ digits)))

/-- The characters of numbers. -/
def isNumeral (c : Char) : Bool :=
  c.isDigit || c = '-' || c = '.'

theorem isNumeral_of_isDigit (digit : c.isDigit = true) : isNumeral c = true := by
  simp [isNumeral, digit]

/-- A text of numeral characters. -/
structure IsNumber (text : List Char) : Prop where
  nonempty : text ≠ []
  numerals : ∀ c ∈ text, isNumeral c = true

theorem isNumeral_mem_toDigits (mem : c ∈ Nat.toDigits 10 n) : isNumeral c = true :=
  isNumeral_of_isDigit (Nat.isDigit_of_mem_toDigits (by decide) (by decide) mem)

theorem isNumber_toDigits (n : Nat) : IsNumber (Nat.toDigits 10 n) where
  nonempty := Nat.toDigits_ne_nil
  numerals := fun _ mem => isNumeral_mem_toDigits mem

theorem isNumber_intText (i : Int) : IsNumber (intText i) where
  nonempty := by simp [intText, Nat.toDigits_ne_nil]
  numerals := by
    intro c mem
    rw [intText, mem_append] at mem
    rcases mem with sign | digit
    · split at sign
      · rw [mem_singleton.mp sign]
        decide
      · simp at sign
    · exact isNumeral_mem_toDigits digit

theorem isNumber_fixedText (digits : Nat) (q : ℚ) : IsNumber (fixedText digits q) where
  nonempty := by simp [fixedText, Nat.toDigits_ne_nil]
  numerals := by
    intro c mem
    simp only [fixedText, mem_append] at mem
    rcases mem with (sign | digit) | fraction
    · split at sign
      · rw [mem_singleton.mp sign]
        decide
      · simp at sign
    · exact isNumeral_mem_toDigits digit
    · split at fraction
      · simp at fraction
      rcases mem_cons.mp fraction with point | pad
      · rw [point]
        decide
      · rw [leftpad, mem_append, mem_replicate] at pad
        rcases pad with ⟨-, zero⟩ | digit
        · rw [zero]
          decide
        · exact isNumeral_mem_toDigits digit

theorem isSpace_of_isNumeral (numeral : isNumeral c = true) : isSpace c = false := by
  cases blank : isSpace c with
  | false => rfl
  | true =>
    simp only [isSpace, Bool.or_eq_true, decide_eq_true_eq] at blank
    rcases blank with ((((rfl | rfl) | rfl) | rfl) | rfl) | rfl <;> simp [isNumeral] at numeral

theorem IsNumber.isWord (number : IsNumber text) : IsWord text where
  nonempty := number.nonempty
  solid := fun c mem => isSpace_of_isNumeral (number.numerals c mem)

theorem IsNumber.notMem (number : IsNumber text) (other : isNumeral c = false) : c ∉ text := by
  intro mem
  rw [number.numerals c mem] at other
  cases other

theorem length_toDigits_le (pos : 0 < k) (bound : n < 10 ^ k) :
    (Nat.toDigits 10 n).length ≤ k :=
  (Nat.length_toDigits_le_iff (by decide) pos).mpr bound

theorem length_intText_le {i : Int} (pos : 0 < k) (bound : i.natAbs < 10 ^ k) :
    (intText i).length ≤ k + 1 := by
  have digits := length_toDigits_le pos bound
  rw [intText, length_append]
  split <;> simp <;> omega

end Goblin.Library
