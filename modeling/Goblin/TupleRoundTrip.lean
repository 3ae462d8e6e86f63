import Goblin.TupleSyntax

/-!
# The round trip of tuples

The proof follows the sequence of calls. Writer and reader are aligned in front of a call if
the rest of the file is what the remaining calls write and if both are on the level of
the tree. A call that is read back leads to an aligned state again, at times together
with the end of the tuple behind it.

A parenthesis that is lost puts the reader one level behind. It then would have to find
the missing event in the next calls, and `not_reproduces_of_lost` excludes this.
-/

set_option autoImplicit false

namespace Goblin

open List
open Int8 (ofNat)
open Goblin.Library

variable {d k : Nat} {events : List Event} {word x : List Char} {closed : Bool} {event : Event}

/-! ## Reproduction of a sequence of events -/

namespace GoblinImport

/-- From this state on, scanning delivers the given events. -/
def Reproduces (F : GoblinImport) (d : Nat) (events : List Event) : Prop :=
  ∃ tokens, Delivers F tokens ∧ tokens.flatMap Token.events = events ∧ Levels d tokens

variable {F : GoblinImport}

theorem reproduces_of_exhausted
    (exhausted : F.impFile.exhausted = true) : F.Reproduces d events ↔ events = [] := by
  constructor
  · rintro ⟨tokens, delivers, eq, -⟩
    cases delivers with
    | nil => exact eq.symm
    | cons more => simp [exhausted] at more
  · rintro rfl
    exact ⟨[], .nil exhausted, rfl, trivial⟩

theorem Reproduces.first {F : GoblinImport} {d : Nat} {events : List Event}
    (reproduces : F.Reproduces d events) (more : F.impFile.exhausted = false) :
    ∃ text F' later, F.scan none = .ok (text, F') ∧ events = (F'.token text).events ++ later ∧
      (F'.token text).level.toInt = (F'.token text).events.foldl Event.depth d ∧
      ((F'.token text).level = 0 ↔ F'.impFile.exhausted = true) ∧
      F'.Reproduces ((F'.token text).events.foldl Event.depth d) later := by
  obtain ⟨tokens, delivers, eq, levels⟩ := reproduces
  cases delivers with
  | nil exhausted => simp [exhausted] at more
  | @cons _ F' text tokens _ scanned later =>
    obtain ⟨level, last, levels⟩ := levels
    refine ⟨text, F', tokens.flatMap Token.events, scanned, ?_, level, ?_, tokens, later, rfl,
      levels⟩
    · rw [← eq, flatMap_cons]
    · rw [last]
      constructor
      · rintro rfl
        cases later
        assumption
      · intro exhausted
        cases later with
        | nil => rfl
        | cons more' => simp [exhausted] at more'

theorem reproduces_step {F' : GoblinImport} {t : Token} {rest : List Char}
    (more : F.impFile.exhausted = false) (scans : Scans F t rest F') : F.Reproduces d events ↔
      ∃ later, events = t.events ++ later ∧ t.level.toInt = t.events.foldl Event.depth d ∧
        (t.level = 0 ↔ F'.impFile.exhausted = true) ∧
        F'.Reproduces (t.events.foldl Event.depth d) later := by
  constructor
  · intro reproduces
    obtain ⟨text, G, later, scanned, eq, level, last, others⟩ := reproduces.first more
    rw [scans.result] at scanned
    cases scanned
    rw [scans.delivered] at eq level last others
    exact ⟨later, eq, level, last, others⟩
  · rintro ⟨later, rfl, level, last, tokens, delivers, eq, levels⟩
    have delivers' := Delivers.cons more scans.result delivers
    rw [scans.delivered] at delivers'
    refine ⟨t :: tokens, delivers', by rw [flatMap_cons, eq], level, ?_, levels⟩
    rw [last]
    constructor
    · intro exhausted
      cases delivers with
      | nil => rfl
      | cons more' => simp [exhausted] at more'
    · rintro rfl
      cases delivers
      assumption

end GoblinImport

/-! ## Levels -/

theorem toInt_ofNat_level (depth : d ≤ 127) : (ofNat d).toInt = d :=
  Int8.toInt_ofNat_of_lt (by omega)

theorem level_eq_zero_iff (depth : d ≤ 127) : ofNat d = 0 ↔ d = 0 := by
  constructor
  · intro zero
    have val := congrArg Int8.toInt zero
    rw [toInt_ofNat_level depth] at val
    simpa using val
  · rintro rfl
    rfl

theorem level_pos (pos : 0 < d) (depth : d ≤ 127) : 0 < ofNat d := by
  rw [Int8.lt_iff_toInt_lt, toInt_ofNat_level depth]
  simpa using pos

theorem level_succ (d : Nat) : ofNat d + 1 = ofNat (d + 1) :=
  (Int8.ofNat_add d 1).symm

theorem level_pred (d : Nat) : ofNat (d + 1) - 1 = ofNat d := by
  rw [Int8.ofNat_add]
  exact Int8.add_sub_cancel _ _

/-! ## Aligned states -/

/-- From depth `d` the calls lead back to depth zero, for the first time with the last call. -/
def Inside : Nat → List Call → Prop
  | 0, calls => calls = []
  | _ + 1, [] => False
  | d + 1, .startTuple _ _ :: calls => Inside (d + 2) calls
  | d + 1, .endTuple :: calls => Inside d calls
  | d + 1, .item _ _ :: calls => Inside (d + 1) calls

variable {calls : List Call} {E : GoblinExport} {type : Int8}

theorem Inside.nil_iff (inside : Inside d calls) : calls = [] ↔ d = 0 := by
  cases d with
  | zero =>
    rw [Inside] at inside
    exact ⟨fun _ => rfl, fun _ => inside⟩
  | succ d =>
    constructor
    · rintro rfl
      exact absurd inside id
    · intro zero
      cases zero

theorem Writes.separated_of_inside {text : List Char} (writes : Writes E calls text)
    (written : E.currentLevel = ofNat d) (depth : d ≤ 127) (inside : Inside d calls)
    (still : closesNext E.currentType calls = false) : Separated text := by
  refine writes.separated ?_ still
  rcases Nat.eq_zero_or_pos d with zero | pos
  · exact .inr (inside.nil_iff.mpr zero)
  · rw [written]
    exact .inl (level_pos pos depth)

/-- The strings of a sequence of calls can be read back, and the levels can be counted. -/
def GoodCalls : Int8 → Nat → List Call → Prop
  | _, _, [] => True
  | _, d, .startTuple _ type :: calls =>
    (closesNext type calls = false → d + 1 ≤ 127) ∧ GoodCalls type (d + 1) calls
  | _, d, .endTuple :: calls => GoodCalls 0 (d - 1) calls
  | type, d, .item value _ :: calls =>
    value.Plain ∧ (closesNext type calls = true → value.HasBlank) ∧ GoodCalls type d calls

/-- The reader is in front of what the remaining calls write. -/
structure Aligned (E : GoblinExport) (F : GoblinImport) (d : Nat) (calls : List Call) : Prop where
  writes : Writes E calls F.impFile.rest
  alive : F.impFile.failed = false
  written : E.currentLevel = ofNat d
  read : F.currentLevel = ofNat d
  inside : Inside d calls

/-- The reader reproduces the calls exactly if they are good. -/
def Faithful (calls : List Call) : Prop :=
  ∀ {E : GoblinExport} {F : GoblinImport} {d : Nat}, Aligned E F d calls → d ≤ 127 →
    closesNext E.currentType calls = false →
    (F.Reproduces d (calls.map (Call.event E.externalPrecision)) ↔ GoodCalls E.currentType d calls)

namespace Aligned

variable {E : GoblinExport} {F : GoblinImport} {d : Nat} {calls : List Call}

theorem exhausted_iff (aligned : Aligned E F d calls) : F.impFile.exhausted = true ↔ d = 0 := by
  have all := aligned.writes.exhausted_iff
  rw [aligned.inside.nil_iff] at all
  rw [← all]
  have file : F.impFile = ⟨F.impFile.rest, false⟩ := by
    rw [← aligned.alive]
  rw [← file]

end Aligned

/-! ## One call -/

section Steps

open GoblinImport

variable {E : GoblinExport} {F F' : GoblinImport} {d : Nat} {calls : List Call} {t : Token}
  {blank text rest : List Char} {label : Label} {s : ShortString}

theorem GoblinImport.Scans.aligned (scans : Scans F t rest F')
    (writes : Writes E calls rest) (written : E.currentLevel = ofNat d)
    (level : t.level = ofNat d) (inside : Inside d calls) : Aligned E F' d calls where
  writes := by
    rw [scans.file]
    exact writes
  alive := by rw [scans.file]
  written := written
  read := by
    rw [← level, ← scans.delivered]
    rfl
  inside := inside

/-- A token that leads to an aligned state can be taken off. -/
theorem reproduces_token (aligned : Aligned E F' k calls) (depth : k ≤ 127)
    (more : F.impFile.exhausted = false) (scans : Scans F t rest F')
    (level : t.level = ofNat k) (counts : t.events.foldl Event.depth d = k)
    (events : List Event) : F.Reproduces d (t.events ++ events) ↔ F'.Reproduces k events := by
  rw [reproduces_step more scans, counts]
  constructor
  · rintro ⟨later, eq, -, -, reproduces⟩
    rw [append_cancel_left_eq] at eq
    rw [eq]
    exact reproduces
  · intro reproduces
    refine ⟨events, rfl, ?_, ?_, reproduces⟩
    · rw [level, toInt_ofNat_level depth]
    · rw [level, level_eq_zero_iff depth, aligned.exhausted_iff]

theorem not_exhausted_of_cons {c : Char} (file : F.impFile = ⟨blank ++ c :: text, false⟩)
    (solid : isSpace c = false) : F.impFile.exhausted = false := by
  rw [file]
  exact InStream.not_exhausted_of_mem (c := c) (by simp) solid

theorem not_exhausted_of_word (file : F.impFile = ⟨blank ++ (word ++ text), false⟩)
    (isWord : IsWord word) : F.impFile.exhausted = false := by
  obtain ⟨c, tail, rfl⟩ := exists_cons_of_ne_nil isWord.nonempty
  exact not_exhausted_of_cons file (isWord.solid c mem_cons_self)

theorem Writes.closing (writes : Writes E calls text) (written : E.currentLevel = ofNat (d + 1))
    (depth : d ≤ 127) (inside : Inside (d + 1) calls)
    (closes : closesNext E.currentType calls = true) : ∃ E2 rest later,
      calls = .endTuple :: later ∧ text = ')' :: rest ∧ E2.currentLevel = ofNat d ∧
      E2.currentType = 0 ∧ E2.externalPrecision = E.externalPrecision ∧ Writes E2 later rest ∧
      Inside d later ∧ closesNext E2.currentType later = false ∧ Separated rest := by
  obtain ⟨typed, later, rfl⟩ := closesNext_eq_true closes
  obtain ⟨E2, blank', rest, rfl, -, broken, written', type', precision, writes'⟩ :=
    writes.endTuple written
  have still : closesNext E2.currentType later = false := by
    rw [type']
    exact closesNext_zero _
  exact ⟨E2, rest, later, rfl, by rw [broken.mpr typed, nil_append], written', type', precision,
    writes', inside, still, writes'.separated_of_inside written' depth inside still⟩

theorem not_reproduces_deep (file : F.impFile = ⟨blank ++ '(' :: (label.text ++ text), false⟩)
    (spaces : ∀ c ∈ blank, isSpace c = true) (deep : 127 ≤ d) (writes : Writes E calls text)
    (written : E.currentLevel = ofNat (d + 1)) (still : closesNext E.currentType calls = false) :
    ¬ F.Reproduces d (.opened label.text :: calls.map (Call.event E.externalPrecision)) := by
  intro reproduces
  have valid := label.valid
  have more := not_exhausted_of_cons file (by decide)
  obtain ⟨shown, F', later, scanned, eq, level, -, -⟩ := reproduces.first more
  have head := head_of_scan file spaces scanned
  cases tail : F'.tail with
  | false =>
    -- The level would be beyond the range of characters.
    have bound := (F'.token shown).level.toInt_le
    rw [level, Token.events] at bound
    simp [GoblinImport.token, head, tail, Event.depth] at bound
    have := show Int8.maxValue.toInt = 127 from rfl
    omega
  | true =>
    -- The tuple would be closed at once, but its end is on the next line.
    rw [Token.events] at eq
    simp only [GoblinImport.token, head, tail, if_true, cons_append, nil_append,
      List.cons.injEq] at eq
    obtain ⟨ends, others, rfl⟩ : ∃ ends others, calls = ends :: others := by
      apply exists_cons_of_ne_nil
      rintro rfl
      simp at eq
    have isEnd : ends = .endTuple := by
      cases ends with
      | endTuple => rfl
      | startTuple label type | item val length => simp [Call.event] at eq
    subst isEnd
    obtain ⟨E2, blank', rest, rfl, spaces', broken, -, -, -, -⟩ := writes.endTuple written
    have separated : Separated (blank' ++ ')' :: rest) := by
      refine separated_append spaces' fun empty => ?_
      exact broken.mp empty (by simpa [closesNext] using still)
    have file' : F.impFile =
        ⟨blank ++ ('(' :: (label.text ++ mark false) ++ (blank' ++ ')' :: rest)), false⟩ := by
      rw [file]
      simp [mark]
    obtain ⟨F'', scans⟩ := scan_label file' spaces valid.isWord valid.visible valid.unclosed
      valid.short separated
    have again := scans.result
    rw [scanned] at again
    cases again
    have unclosed := congrArg Token.tail scans.delivered
    rw [GoblinImport.token, tail] at unclosed
    cases unclosed

/-- A head in front of its items is delivered alone, in front of the end of an empty row
together with it. -/
theorem startTuple_reproduces (faithful : ∀ later : List Call,
      later.length ≤ calls.length → Faithful later)
    (file : F.impFile = ⟨blank ++ '(' :: (label.text ++ text), false⟩)
    (spaces : ∀ c ∈ blank, isSpace c = true) (read : F.currentLevel = ofNat d)
    (depth : d ≤ 127) (writes : Writes E calls text) (written : E.currentLevel = ofNat (d + 1))
    (inside : Inside (d + 1) calls) :
    F.Reproduces d (.opened label.text :: calls.map (Call.event E.externalPrecision)) ↔
      (closesNext E.currentType calls = false → d + 1 ≤ 127) ∧
        GoodCalls E.currentType (d + 1) calls := by
  have valid := label.valid
  have more := not_exhausted_of_cons file (by decide)
  cases closes : closesNext E.currentType calls with
  | true =>
    obtain ⟨E2, rest, later, rfl, rfl, written', type', precision, writes', inside, still,
      separated⟩ := writes.closing written depth inside closes
    have file' : F.impFile = ⟨blank ++ ('(' :: (label.text ++ mark true) ++ rest), false⟩ := by
      rw [file]
      simp [mark]
    obtain ⟨F', scans⟩ := scan_label file' spaces valid.isWord valid.visible valid.unclosed
      valid.short separated
    rw [if_pos rfl, read] at scans
    have aligned := scans.aligned writes' written' rfl inside
    have step := reproduces_token (d := d) aligned depth more scans rfl rfl
      (later.map (Call.event E.externalPrecision))
    rw [← precision] at step ⊢
    refine step.trans ((faithful later (by simp) aligned depth still).trans ?_)
    rw [type', GoodCalls]
    simp
  | false =>
    have file' : F.impFile = ⟨blank ++ ('(' :: (label.text ++ mark false) ++ text), false⟩ := by
      rw [file]
      simp [mark]
    rcases Nat.lt_or_ge d 127 with shallow | deep
    · have separated := writes.separated_of_inside written shallow inside closes
      obtain ⟨F', scans⟩ := scan_label file' spaces valid.isWord valid.visible valid.unclosed
        valid.short separated
      rw [if_neg (by decide), read, level_succ] at scans
      have aligned := scans.aligned writes written rfl inside
      have step := reproduces_token (d := d) aligned shallow more scans rfl rfl
        (calls.map (Call.event E.externalPrecision))
      refine step.trans ((faithful calls le_rfl aligned shallow closes).trans ?_)
      simp [Nat.succ_le_of_lt shallow]
    · constructor
      · intro reproduces
        exact absurd reproduces (not_reproduces_deep file spaces deep writes written closes)
      · rintro ⟨bound, -⟩
        have := bound rfl
        omega

theorem unmarked_close : Unmarked [')'] := by
  intro c mem
  cases mem
  decide

theorem endTuple_reproduces (faithful : Faithful calls)
    (file : F.impFile = ⟨blank ++ ')' :: rest, false⟩) (spaces : ∀ c ∈ blank, isSpace c = true)
    (read : F.currentLevel = ofNat (d + 1)) (depth : d + 1 ≤ 127)
    (writes : Writes E calls rest) (written : E.currentLevel = ofNat d)
    (type : E.currentType = 0) (inside : Inside d calls) :
    F.Reproduces (d + 1) (.closed :: calls.map (Call.event E.externalPrecision)) ↔
      GoodCalls 0 d calls := by
  have more := not_exhausted_of_cons file (by decide)
  have still : closesNext E.currentType calls = false := by
    rw [type]
    exact closesNext_zero _
  have separated := writes.separated_of_inside written (by omega) inside still
  have file' : F.impFile = ⟨blank ++ (([] ++ mark true) ++ rest), false⟩ := by
    rw [file]
    simp [mark]
  have level : F.currentLevel ≠ 0 := by
    rw [read, Ne, level_eq_zero_iff depth]
    omega
  have isWord : IsWord [')'] := isWord_of_all (by decide) (by decide)
  obtain ⟨F', scans⟩ := scan_word file' spaces isWord (by decide) unmarked_close (by decide)
    (by decide) (fun _ => level) separated
  rw [if_pos rfl, read, level_pred] at scans
  have aligned := scans.aligned writes written rfl inside
  have step := reproduces_token (d := d + 1) aligned (by omega) more scans rfl rfl
    (calls.map (Call.event E.externalPrecision))
  have good := faithful aligned (by omega) still
  rw [type] at good
  exact step.trans good

theorem unmarked_append (ne : word ≠ [])
    (unmarked : Unmarked word) : Unmarked (word ++ text) := by
  intro c mem
  rw [head?_append_of_ne_nil _ ne] at mem
  exact unmarked c mem

theorem word_reproduces
    (faithful : ∀ later : List Call, later.length ≤ calls.length → Faithful later)
    (file : F.impFile = ⟨blank ++ (word ++ text), false⟩) (spaces : ∀ c ∈ blank, isSpace c = true)
    (scannable : Scannable word) (short : word.length < 250)
    (read : F.currentLevel = ofNat (d + 1)) (depth : d + 1 ≤ 127)
    (writes : Writes E calls text) (written : E.currentLevel = ofNat (d + 1))
    (inside : Inside (d + 1) calls) :
    F.Reproduces (d + 1) (.item word :: calls.map (Call.event E.externalPrecision)) ↔
      GoodCalls E.currentType (d + 1) calls := by
  have ne := scannable.isWord.nonempty
  have more := not_exhausted_of_word file scannable.isWord
  have level : F.currentLevel ≠ 0 := by
    rw [read, Ne, level_eq_zero_iff depth]
    omega
  cases closes : closesNext E.currentType calls with
  | true =>
    obtain ⟨E2, rest, later, rfl, rfl, written', type', precision, writes', inside, still,
      separated⟩ := writes.closing written (by omega) inside closes
    have file' : F.impFile = ⟨blank ++ ((word ++ mark true) ++ rest), false⟩ := by
      rw [file]
      simp [mark]
    obtain ⟨F', scans⟩ := scan_word file' spaces (isWord_append_mark scannable.isWord true)
      scannable.visible (unmarked_append ne scannable.unmarked) scannable.unclosed short
      (fun _ => level) separated
    rw [if_pos rfl, read, level_pred] at scans
    have aligned := scans.aligned writes' written' rfl inside
    have events : (⟨word, false, true, ofNat d⟩ : Token).events = [.item word, .closed] := by
      simp [Token.events, ne]
    have step := reproduces_token (d := d + 1) aligned (by omega) more scans rfl
      (by rw [events]; rfl) (later.map (Call.event E.externalPrecision))
    have good := faithful later (by simp) aligned (by omega) still
    rw [events] at step
    rw [precision, type'] at good
    exact step.trans good
  | false =>
    have separated := writes.separated_of_inside written depth inside closes
    have file' : F.impFile = ⟨blank ++ ((word ++ mark false) ++ text), false⟩ := by
      rw [file]
      simp [mark]
    obtain ⟨F', scans⟩ := scan_word file' spaces (isWord_append_mark scannable.isWord false)
      scannable.visible (unmarked_append ne scannable.unmarked) scannable.unclosed short
      (fun _ => level) separated
    rw [if_neg (by decide), read] at scans
    have aligned := scans.aligned writes written rfl inside
    have step := reproduces_token (d := d + 1) aligned depth more scans rfl rfl
      (calls.map (Call.event E.externalPrecision))
    exact step.trans (faithful calls le_rfl aligned depth closes)

/-! ## Strings -/

theorem takeWhile_quote_of_mem (member : '"' ∈ text) :
    ∃ later, text = (text.takeWhile fun c => decide (c ≠ '"')) ++ '"' :: later := by
  induction text with
  | nil => simp at member
  | cons c text ih =>
    by_cases quote : c = '"'
    · exact ⟨text, by simp [quote]⟩
    · obtain ⟨later, split⟩ := ih ((mem_cons.mp member).resolve_left (Ne.symm quote))
      refine ⟨later, ?_⟩
      rw [takeWhile_cons_of_pos (by simp [quote]), cons_append, ← split]

theorem takeWhile_eq_of_notMem (absent : '"' ∉ text) :
    text.takeWhile (fun c => decide (c ≠ '"')) = text := by
  apply takeWhile_eq_self_iff.mpr
  intro c mem
  exact decide_eq_true fun eq => absent (eq ▸ mem)

theorem solid_append_quote (solid : ∀ c ∈ text, isSpace c = false)
    (closed : Bool) : ∀ c ∈ text ++ '"' :: mark closed, isSpace c = false := by
  intro c mem
  rcases mem_append.mp mem with inside | later
  · exact solid c inside
  rcases mem_cons.mp later with rfl | close
  · decide
  · cases closed with
    | true =>
      rw [mem_singleton.mp close]
      decide
    | false => simp [mark] at close

theorem scan_quoted_of_mem (quoted : '"' ∈ s.chars)
    (file : F.impFile = ⟨blank ++ '"' :: (s.chars ++ '"' :: (mark closed ++ rest)), false⟩)
    (spaces : ∀ c ∈ blank, isSpace c = true) (separated : Separated rest) :
    ∃ buffer file', F.scan none = scanItem (s.chars.takeWhile fun c => decide (c ≠ '"'))
        { F with impFile := file', buffer := buffer } ∧
      ((∀ c ∈ s.chars, isSpace c = false) → file' = ⟨rest, false⟩) := by
  have short := s.short
  have visible := s.visible
  have margin := length_mark_le closed
  obtain ⟨later, split⟩ := takeWhile_quote_of_mem quoted
  have unquoted : '"' ∉ s.chars.takeWhile fun c => decide (c ≠ '"') := by
    intro mem
    simpa using mem_takeWhile_imp mem
  generalize s.chars.takeWhile (fun c => decide (c ≠ '"')) = first at split unquoted ⊢
  have lengths := congrArg List.length split
  rw [length_append, length_cons] at lengths
  have visible' : '\x00' ∉ first := by
    intro member
    rw [split] at visible
    exact visible (mem_append_left _ member)
  have file' : F.impFile = ⟨blank ++ ('"' :: (first ++ '"' ::
      ((later ++ '"' :: mark closed) ++ rest))), false⟩ := by
    rw [file, split]
    simp
  by_cases broken : ∃ c ∈ first, isSpace c = true
  · obtain ⟨buffer, scanned⟩ :=
      scan_string_blank file' spaces broken visible' unquoted (by omega)
    refine ⟨buffer, _, scanned, fun solid => ?_⟩
    obtain ⟨c, mem, space⟩ := broken
    rw [solid c (split ▸ mem_append_left _ mem)] at space
    cases space
  · have solid : ∀ c ∈ first, isSpace c = false :=
      fun c mem => Bool.eq_false_iff.mpr fun space => broken ⟨c, mem, space⟩
    have fits : first.length + (later ++ '"' :: mark closed).length < 253 := by
      rw [length_append, length_cons]
      omega
    obtain ⟨buffer, scanned⟩ := scan_string_cut file' spaces solid visible' unquoted fits separated
    refine ⟨buffer, _, scanned, fun all => ?_⟩
    rw [dropWhile_solid_append (solid_append_quote (fun c mem => ?_) closed) separated]
    exact all c (split ▸ mem_append_right _ (mem_cons_of_mem _ mem))

theorem scan_quoted
    (file : F.impFile = ⟨blank ++ '"' :: (s.chars ++ '"' :: (mark closed ++ rest)), false⟩)
    (spaces : ∀ c ∈ blank, isSpace c = true) (separated : Separated rest) :
    ∃ buffer file', F.scan none = scanItem (s.chars.takeWhile fun c => decide (c ≠ '"'))
        { F with impFile := file', buffer := buffer } ∧
      ('"' ∉ s.chars → s.HasBlank → file' = ⟨mark closed ++ rest, false⟩) ∧
      ((∀ c ∈ s.chars, isSpace c = false) → file' = ⟨rest, false⟩) := by
  have short := s.short
  have margin := length_mark_le closed
  by_cases quoted : '"' ∈ s.chars
  · obtain ⟨buffer, file', scanned, exactly⟩ := scan_quoted_of_mem quoted file spaces separated
    exact ⟨buffer, file', scanned, fun absent => absurd quoted absent, exactly⟩
  rw [takeWhile_eq_of_notMem quoted]
  by_cases broken : s.HasBlank
  · obtain ⟨buffer, scanned⟩ := scan_string_blank file spaces broken s.visible quoted short
    refine ⟨buffer, _, scanned, fun _ _ => rfl, fun solid => ?_⟩
    obtain ⟨c, member, space⟩ := broken
    rw [solid c member] at space
    cases space
  have all : ∀ c ∈ s.chars, isSpace c = false :=
    fun c member => Bool.eq_false_iff.mpr fun space => broken ⟨c, member, space⟩
  have file' : F.impFile = ⟨blank ++ ('"' :: (s.chars ++ '"' :: mark closed) ++ rest), false⟩ := by
    rw [file]
    simp
  have fits : (s.chars ++ '"' :: mark closed).length < 254 := by
    rw [length_append, length_cons]
    omega
  obtain ⟨buffer, scanned⟩ := scan_string_solid file' spaces (solid_append_quote all closed)
    s.visible quoted fits separated
  exact ⟨buffer, _, scanned, fun _ blank => absurd blank broken, fun _ => rfl⟩

/-! ## The first event -/

theorem events_of_item (shown : List Char) (item : F.head = false) (still : F.tail = false) :
    (F.token shown).events = [.item shown] := by
  simp [Token.events, GoblinImport.token, item, still]

theorem events_of_close (shown : List Char) (item : F.head = false) (tail : F.tail = true) :
    (F.token shown).events = if shown = [] then [.closed] else [.item shown, .closed] := by
  simp [Token.events, GoblinImport.token, item, tail]

theorem first_of_head (file : F.impFile = ⟨blank ++ '(' :: text, false⟩)
    (spaces : ∀ c ∈ blank, isSpace c = true)
    (reproduces : F.Reproduces k (event :: events)) : ∃ label, event = .opened label := by
  have more := not_exhausted_of_cons file (by decide)
  obtain ⟨shown, F', later, scanned, eq, -, -, -⟩ := reproduces.first more
  rw [Token.events, GoblinImport.token, head_of_scan file spaces scanned, if_pos rfl] at eq
  exact ⟨shown, (List.cons.inj eq).1⟩

theorem first_of_close (file : F.impFile = ⟨blank ++ ')' :: rest, false⟩)
    (spaces : ∀ c ∈ blank, isSpace c = true) (separated : Separated rest)
    (reproduces : F.Reproduces k (event :: events)) :
    event = .closed ∧ ∃ F' : GoblinImport, ∃ k', F'.impFile = ⟨rest, false⟩ ∧
      F'.Reproduces k' events := by
  have more := not_exhausted_of_cons file (by decide)
  have file' : F.impFile = ⟨blank ++ ([')'] ++ rest), false⟩ := file
  obtain ⟨shown, F', later, scanned, eq, -, -, others⟩ := reproduces.first more
  have isWord : IsWord [')'] := isWord_of_all (by decide) (by decide)
  rw [scan_word_eq file' spaces isWord (by decide) unmarked_close (by decide) separated] at scanned
  obtain ⟨left, head, ⟨-, -, unclosed⟩ | ⟨tail, close⟩⟩ := scanItem_cases scanned
  · exact absurd rfl unclosed
  · have empty : shown = [] := by
      simpa using close
    subst empty
    rw [events_of_close _ head tail, if_pos rfl] at eq
    obtain ⟨rfl, rfl⟩ := List.cons.inj eq
    exact ⟨rfl, F', _, left, others⟩

theorem first_of_word (file : F.impFile = ⟨blank ++ (word ++ rest), false⟩)
    (spaces : ∀ c ∈ blank, isSpace c = true) (scannable : Scannable word)
    (short : word.length < 250) (separated : Separated rest)
    (reproduces : F.Reproduces k (event :: events)) : event = .item word := by
  have more := not_exhausted_of_word file scannable.isWord
  obtain ⟨shown, F', later, scanned, eq, -, -, others⟩ := reproduces.first more
  rw [scan_word_eq file spaces scannable.isWord scannable.visible scannable.unmarked (by omega)
    separated] at scanned
  obtain ⟨-, head, ⟨tail, rfl, -⟩ | ⟨-, rfl⟩⟩ := scanItem_cases scanned
  · rw [events_of_item _ head tail] at eq
    exact (List.cons.inj eq).1
  · exact absurd (by simp) scannable.unclosed

section

variable (file : F.impFile = ⟨blank ++ '"' :: (s.chars ++ '"' :: (mark closed ++ rest)), false⟩)
  (spaces : ∀ c ∈ blank, isSpace c = true) (separated : Separated rest)
include file spaces separated

theorem first_of_string (reproduces : F.Reproduces k events) :
    ∃ F' : GoblinImport, ∃ k' later shown, F'.Reproduces k' later ∧
      ((∀ c ∈ s.chars, isSpace c = false) → F'.impFile = ⟨rest, false⟩) ∧
      ((shown = s.chars.takeWhile (fun c => decide (c ≠ '"')) ∧ shown.getLast? ≠ some ')' ∧
          events = .item shown :: later) ∨
        (s.chars.takeWhile (fun c => decide (c ≠ '"')) = shown ++ [')'] ∧
          events = (if shown = [] then [.closed] else [.item shown, .closed]) ++ later)) := by
  have more := not_exhausted_of_cons file (by decide)
  obtain ⟨shown, F', later, scanned, same, -, -, others⟩ := reproduces.first more
  obtain ⟨buffer, file', res, -, exactly⟩ := scan_quoted file spaces separated
  rw [res] at scanned
  obtain ⟨left, head, ⟨tail, eq, last⟩ | ⟨tail, eq⟩⟩ := scanItem_cases scanned
  · rw [events_of_item _ head tail] at same
    refine ⟨F', _, later, shown, others, fun solid => left.trans (exactly solid), .inl ?_⟩
    exact ⟨eq, eq ▸ last, same⟩
  · rw [events_of_close _ head tail] at same
    exact ⟨F', _, later, shown, others, fun solid => left.trans (exactly solid), .inr ⟨eq, same⟩⟩

theorem plain_of_reproduces (reproduces : F.Reproduces k (.item s.chars :: events)) : s.Plain := by
  obtain ⟨F', k', later, shown, -, -, ⟨eq, last, same⟩ | ⟨eq, same⟩⟩ :=
    first_of_string file spaces separated reproduces
  · have whole : s.chars = shown := by
      injection same with item
      injection item
    refine ⟨?_, whole ▸ last⟩
    rw [whole, eq]
    intro mem
    simpa using mem_takeWhile_imp mem
  · have short := (takeWhile_sublist (fun c => decide (c ≠ '"')) (l := s.chars)).length_le
    rw [eq, length_append, length_singleton] at short
    split at same
    · cases same
    · injection same with item
      injection item with whole
      rw [whole] at short
      omega

end

theorem not_reproduces_item (foreign : '"' ∈ x ∨ x = [')']) (writes : Writes E calls text)
    (written : E.currentLevel = ofNat d) (depth : d ≤ 127) (type : E.currentType = 0)
    (inside : Inside d calls) (file : F.impFile = ⟨text, false⟩) :
    ¬ F.Reproduces k (.item x :: calls.map (Call.event E.externalPrecision)) := by
  intro reproduces
  cases calls with
  | nil =>
    rw [reproduces_of_exhausted (by rw [file]; exact writes.exhausted_iff.mpr rfl)] at reproduces
    cases reproduces
  | cons call calls =>
    obtain ⟨E1, piece, later, rfl, step, precision, after⟩ := writes.cons
    obtain ⟨d, rfl⟩ : ∃ k, d = k + 1 :=
      Nat.exists_eq_succ_of_ne_zero fun zero => cons_ne_nil _ _ (inside.nil_iff.mpr zero)
    cases step with
    | @startTuple label type' blank spaces =>
      rw [append_assoc] at file
      obtain ⟨label', opened⟩ := first_of_head file spaces reproduces
      cases opened
    | @endTuple blank spaces broken lower level type' =>
      rw [written, level_pred] at level
      rw [append_assoc] at file
      have separated := after.separated_of_inside level (by omega) inside
        (by rw [type']; exact closesNext_zero _)
      have closed := (first_of_close file spaces separated reproduces).1
      cases closed
    | @item value length blank spaces broken short level same =>
      rw [append_assoc] at file
      rw [written] at level
      have separated := after.separated_of_inside level depth inside
        (by rw [same, type]; exact closesNext_zero _)
      by_cases string : ∃ s, value = .string s
      · obtain ⟨s, rfl⟩ := string
        have file' : F.impFile =
            ⟨blank ++ '"' :: (s.chars ++ '"' :: (mark false ++ later)), false⟩ := by
          rw [file]
          simp [Item.visible, mark]
        obtain ⟨F', k', others, shown, -, -, ⟨eq, last, events⟩ | ⟨eq, events⟩⟩ :=
          first_of_string file' spaces separated reproduces
        · injection events with item
          injection item with whole
          subst whole
          rcases foreign with quote | close
          · rw [eq] at quote
            simpa using mem_takeWhile_imp quote
          · exact last (by rw [close]; rfl)
        · split at events
          · cases events
          · injection events with item events
            cases events
      · obtain ⟨visible, scannable⟩ :=
          Item.scannable (fun s eq => string ⟨s, eq⟩) E.externalPrecision
        rw [visible] at file
        have item := first_of_word file spaces scannable short separated reproduces
        injection item with whole
        subst whole
        rcases foreign with quote | close
        · exact scannable.unquoted quote
        · exact scannable.unclosed (by rw [close]; rfl)

theorem not_reproduces_mixed (quoted : '"' ∈ x)
    (broken : ¬ ∀ c ∈ x, isSpace c = false) : ¬ F.Reproduces k (.item x :: events) := by
  intro reproduces
  cases more : F.impFile.exhausted with
  | true =>
    rw [reproduces_of_exhausted more] at reproduces
    cases reproduces
  | false =>
    obtain ⟨shown, F', later, scanned, eq, -, -, -⟩ := reproduces.first more
    cases head : F'.head with
    | true => simp [Token.events, GoblinImport.token, head] at eq
    | false =>
      have whole : x = shown := by
        cases tail : F'.tail with
        | false =>
          rw [events_of_item _ head tail] at eq
          injection eq with item
          injection item
        | true =>
          rw [events_of_close _ head tail] at eq
          split at eq
          · cases eq
          · injection eq with item
            injection item
      subst whole
      rcases scan_text more scanned head with solid | unquoted
      · exact broken solid
      · exact unquoted quoted

theorem not_reproduces_of_lost (writes : Writes E calls text)
    (written : E.currentLevel = ofNat d) (depth : d ≤ 127) (type : E.currentType = 0)
    (inside : Inside d calls) (file : F.impFile = ⟨text, false⟩) :
    ¬ F.Reproduces k (.closed :: calls.map (Call.event E.externalPrecision)) := by
  induction calls generalizing E F d k text with
  | nil =>
    intro reproduces
    rw [reproduces_of_exhausted (by rw [file]; exact writes.exhausted_iff.mpr rfl)] at reproduces
    cases reproduces
  | cons call calls ih =>
    intro reproduces
    obtain ⟨E1, piece, later, rfl, step, precision, after⟩ := writes.cons
    obtain ⟨d, rfl⟩ : ∃ k, d = k + 1 :=
      Nat.exists_eq_succ_of_ne_zero fun zero => cons_ne_nil _ _ (inside.nil_iff.mpr zero)
    cases step with
    | @startTuple label type' blank spaces =>
      rw [append_assoc] at file
      obtain ⟨label', opened⟩ := first_of_head file spaces reproduces
      cases opened
    | @endTuple blank spaces broken lower level type' =>
      rw [written, level_pred] at level
      rw [append_assoc] at file
      have separated := after.separated_of_inside level (by omega) inside
        (by rw [type']; exact closesNext_zero _)
      obtain ⟨-, F', k', file', others⟩ := first_of_close file spaces separated reproduces
      rw [← precision] at others
      exact ih after level (by omega) type' inside file' others
    | @item val length blank spaces broken short level same =>
      rw [append_assoc] at file
      rw [written] at level
      have type1 : E1.currentType = 0 := same.trans type
      have separated := after.separated_of_inside level depth inside
        (by rw [type1]; exact closesNext_zero _)
      by_cases string : ∃ s, val = .string s
      · obtain ⟨s, rfl⟩ := string
        have file' : F.impFile =
            ⟨blank ++ '"' :: (s.chars ++ '"' :: (mark false ++ later)), false⟩ := by
          rw [file]
          simp [Item.visible, mark]
        obtain ⟨F', k', others, shown, reproduces', exactly, ⟨-, -, events⟩ | ⟨eq, events⟩⟩ :=
          first_of_string file' spaces separated reproduces
        · cases events
        · -- The string begins with a parenthesis. Its own event is still to come.
          by_cases empty : shown = []
          · rw [if_pos empty, singleton_append] at events
            obtain ⟨-, rfl⟩ := List.cons.inj events
            rw [← precision] at reproduces'
            by_cases quoted : '"' ∈ s.chars
            · by_cases solid : ∀ c ∈ s.chars, isSpace c = false
              · exact not_reproduces_item (.inl quoted) after level depth type1 inside
                  (exactly solid) reproduces'
              · exact not_reproduces_mixed quoted solid reproduces'
            · rw [takeWhile_eq_of_notMem quoted, empty, nil_append] at eq
              refine not_reproduces_item (.inr eq) after level depth type1 inside (exactly ?_)
                reproduces'
              rw [eq]
              exact solid_of_all (by decide)
          · rw [if_neg empty] at events
            cases events
      · obtain ⟨visible, scannable⟩ :=
          Item.scannable (fun s eq => string ⟨s, eq⟩) E.externalPrecision
        rw [visible] at file
        have item := first_of_word file spaces scannable short separated reproduces
        cases item

theorem scans_plain (plain : s.Plain)
    (file : F.impFile = ⟨blank ++ '"' :: (s.chars ++ '"' :: (mark closed ++ rest)), false⟩)
    (spaces : ∀ c ∈ blank, isSpace c = true) (separated : Separated rest) :
    (s.HasBlank → ∃ F', Scans F ⟨s.chars, false, false, F.currentLevel⟩ (mark closed ++ rest) F') ∧
      (¬ s.HasBlank → ∃ F', Scans F ⟨s.chars, false, false, F.currentLevel⟩ rest F') := by
  obtain ⟨buffer, file', res, kept, exactly⟩ := scan_quoted file spaces separated
  rw [takeWhile_eq_of_notMem plain.1] at res
  rw [scanItem, if_neg plain.2] at res
  constructor
  · intro broken
    exact ⟨_, res, rfl, kept plain.1 broken⟩
  · intro solid
    refine ⟨_, res, rfl, exactly fun c mem => ?_⟩
    exact Bool.eq_false_iff.mpr fun space => solid ⟨c, mem, space⟩

theorem string_reproduces
    (faithful : ∀ later : List Call, later.length ≤ calls.length → Faithful later)
    (file : F.impFile = ⟨blank ++ '"' :: (s.chars ++ '"' :: text), false⟩)
    (spaces : ∀ c ∈ blank, isSpace c = true) (read : F.currentLevel = ofNat (d + 1))
    (depth : d + 1 ≤ 127) (writes : Writes E calls text)
    (written : E.currentLevel = ofNat (d + 1)) (inside : Inside (d + 1) calls) :
    F.Reproduces (d + 1) (.item s.chars :: calls.map (Call.event E.externalPrecision)) ↔
      s.Plain ∧ (closesNext E.currentType calls = true → s.HasBlank) ∧
        GoodCalls E.currentType (d + 1) calls := by
  have more := not_exhausted_of_cons file (by decide)
  cases closes : closesNext E.currentType calls with
  | false =>
    have separated := writes.separated_of_inside written depth inside closes
    have file' : F.impFile =
        ⟨blank ++ '"' :: (s.chars ++ '"' :: (mark false ++ text)), false⟩ := file
    by_cases plain : s.Plain
    · have scans : ∃ F', Scans F ⟨s.chars, false, false, F.currentLevel⟩ text F' := by
        by_cases broken : s.HasBlank
        · exact (scans_plain plain file' spaces separated).1 broken
        · exact (scans_plain plain file' spaces separated).2 broken
      obtain ⟨F', scans⟩ := scans
      rw [read] at scans
      have aligned := scans.aligned writes written rfl inside
      have step := reproduces_token (d := d + 1) aligned depth more scans rfl rfl
        (calls.map (Call.event E.externalPrecision))
      refine (step.trans (faithful calls le_rfl aligned depth closes)).trans ?_
      simp [plain]
    · constructor
      · intro reproduces
        exact absurd (plain_of_reproduces file' spaces separated reproduces) plain
      · intro good
        exact absurd good.1 plain
  | true =>
    obtain ⟨E2, rest, later, rfl, rfl, written', type', precision, writes', inside', -,
      separated⟩ := writes.closing written (by omega) inside closes
    have file' : F.impFile =
        ⟨blank ++ '"' :: (s.chars ++ '"' :: (mark true ++ rest)), false⟩ := file
    by_cases plain : s.Plain
    · by_cases broken : s.HasBlank
      · obtain ⟨F', scans⟩ := (scans_plain plain file' spaces separated).1 broken
        rw [read] at scans
        have aligned := scans.aligned writes written rfl inside
        have step := reproduces_token (d := d + 1) aligned depth more scans rfl rfl
          ((Call.endTuple :: later).map (Call.event E.externalPrecision))
        have left : F'.impFile = ⟨[] ++ ')' :: rest, false⟩ := scans.file
        have last := endTuple_reproduces (faithful later (by simp)) left (by simp) aligned.read
          depth writes' written' type' inside'
        rw [precision] at last
        refine (step.trans last).trans ?_
        simp [plain, broken, GoodCalls]
      · obtain ⟨F', scans⟩ := (scans_plain plain file' spaces separated).2 broken
        constructor
        · intro reproduces
          obtain ⟨others, eq, -, -, reproduces'⟩ := (reproduces_step more scans).mp reproduces
          have events : others = .closed :: later.map (Call.event E2.externalPrecision) := by
            rw [precision]
            exact (List.cons.inj eq).2.symm
          rw [events] at reproduces'
          exact absurd reproduces' (not_reproduces_of_lost writes' written' (by omega) type'
            inside' scans.file)
        · intro good
          exact absurd (good.2.1 rfl) broken
    · constructor
      · intro reproduces
        exact absurd (plain_of_reproduces file' spaces separated reproduces) plain
      · intro good
        exact absurd good.1 plain

end Steps

/-! ## Sequences of calls -/

/-- **Reading follows the calls**: from an aligned state the file reproduces the remaining
calls exactly if they are good. -/
theorem faithful_calls (calls : List Call) : Faithful calls := by
  induction size : calls.length using Nat.strong_induction_on generalizing calls with
  | _ size ih =>
    subst size
    intro E F d aligned depth still
    have file : F.impFile = ⟨F.impFile.rest, false⟩ := by rw [← aligned.alive]
    have written := aligned.written
    have inside := aligned.inside
    cases calls with
    | nil =>
      rw [GoblinImport.reproduces_of_exhausted (aligned.exhausted_iff.mpr (inside.nil_iff.mp rfl))]
      simp [GoodCalls]
    | cons call calls =>
      have faithful : ∀ later : List Call, later.length ≤ calls.length → Faithful later :=
        fun later shorter => ih later.length (Nat.lt_succ_of_le shorter) later rfl
      obtain ⟨d, rfl⟩ : ∃ k, d = k + 1 :=
        Nat.exists_eq_succ_of_ne_zero fun zero => cons_ne_nil _ _ (inside.nil_iff.mpr zero)
      obtain ⟨E1, piece, later, text, step, precision, after⟩ := aligned.writes.cons
      rw [text] at file
      rw [map_cons, ← precision]
      cases step with
      | @startTuple label type blank spaces broken before level type' =>
        rw [written, level_succ] at level
        have file' : F.impFile = ⟨blank ++ '(' :: (label.text ++ later), false⟩ := by
          rw [file]
          simp
        refine (startTuple_reproduces faithful file' spaces aligned.read depth after level
          inside).trans ?_
        rw [GoodCalls, type']
      | @endTuple blank spaces broken lower level type' =>
        rw [written, level_pred] at level
        have file' : F.impFile = ⟨blank ++ ')' :: later, false⟩ := by
          rw [file]
          simp
        exact endTuple_reproduces (faithful calls le_rfl) file' spaces aligned.read depth after
          level type' inside
      | @item val length blank spaces broken short level same =>
        rw [Inside] at inside
        rw [written] at level
        rw [GoodCalls, ← same]
        by_cases string : ∃ s, val = .string s
        · obtain ⟨s, rfl⟩ := string
          have file' : F.impFile = ⟨blank ++ '"' :: (s.chars ++ '"' :: later), false⟩ := by
            rw [file]
            simp [Item.visible]
          exact string_reproduces faithful file' spaces aligned.read depth after level inside
        obtain ⟨visible, scannable⟩ :=
          Item.scannable (fun s eq => string ⟨s, eq⟩) E.externalPrecision
        rw [visible, append_assoc, ← precision] at file
        rw [← precision] at scannable short
        refine (word_reproduces faithful file spaces scannable short aligned.read depth after
          level inside).trans ?_
        have plain : val.Plain ∧ val.HasBlank := by
          cases val with
          | string s => exact absurd ⟨s, rfl⟩ string
          | _ => exact ⟨trivial, trivial⟩
        simp [plain.1, plain.2]

/-! ## Trees -/

theorem inside_items (items : List (Item × Nat)) (calls : List Call) :
    Inside (d + 1) (itemCalls items ++ calls) ↔ Inside (d + 1) calls := by
  induction items with
  | nil => rfl
  | cons entry items ih => exact ih

theorem inside_entries (entries : TupleEntries) (calls : List Call) :
    Inside (d + 1) (entries.calls ++ calls) ↔ Inside (d + 1) calls := by
  induction entries generalizing d calls with
  | nil => rfl
  | item val length rest ih => exact ih calls
  | row label type typed items rest ih =>
    rw [TupleEntries.calls, cons_append, append_assoc, cons_append, Inside,
      inside_items, Inside, ih]
  | nest label entries rest ih ih' =>
    rw [TupleEntries.calls, cons_append, append_assoc, cons_append, Inside, ih, Inside, ih']

section

variable (typed : type ≠ 0) (items : List (Item × Nat)) (calls : List Call)
include typed

theorem closesNext_items :
    closesNext type (itemCalls items ++ .endTuple :: calls) = true ↔ items = [] := by
  cases items with
  | nil => simp [itemCalls, closesNext, typed]
  | cons entry items => simp [itemCalls, closesNext]

theorem goodCalls_items : GoodCalls type d (itemCalls items ++ .endTuple :: calls) ↔
      RowReadable items ∧ GoodCalls 0 (d - 1) calls := by
  induction items with
  | nil => simp [itemCalls, GoodCalls, RowReadable]
  | cons entry items ih =>
    have first : GoodCalls type d (itemCalls (entry :: items) ++ .endTuple :: calls) ↔
        entry.1.Plain ∧ (items = [] → entry.1.HasBlank) ∧
          GoodCalls type d (itemCalls items ++ .endTuple :: calls) := by
      rw [← closesNext_items typed items calls]
      rfl
    rw [first, ih]
    cases items with
    | nil | cons next items => simp [RowReadable, and_assoc]

end

theorem goodCalls_row (typed : type ≠ 0) (depth : d ≤ 127) (label : Label)
    (items : List (Item × Nat)) (calls : List Call) :
    GoodCalls 0 d (.startTuple label type :: (itemCalls items ++ .endTuple :: calls)) ↔
      RowReadable items ∧ d + rowDepth items ≤ 127 ∧ GoodCalls 0 d calls := by
  have opens : (closesNext type (itemCalls items ++ .endTuple :: calls) = false → d + 1 ≤ 127) ↔
      d + rowDepth items ≤ 127 := by
    rw [← Bool.not_eq_true, closesNext_items typed, rowDepth]
    split
    · simp_all
    · simp_all
  rw [GoodCalls, opens, goodCalls_items typed, Nat.add_sub_cancel]
  exact and_left_comm

theorem goodCalls_entries (depth : d ≤ 127) (entries : TupleEntries) (calls : List Call) :
    GoodCalls 0 d (entries.calls ++ calls) ↔
      entries.Readable ∧ d + entries.depth ≤ 127 ∧ GoodCalls 0 d calls := by
  induction entries generalizing d calls with
  | nil => simp [TupleEntries.calls, TupleEntries.Readable, TupleEntries.depth, depth]
  | item val length rest ih =>
    rw [TupleEntries.calls, cons_append, GoodCalls, closesNext_zero, ih depth,
      TupleEntries.Readable, TupleEntries.depth]
    simp [and_assoc]
  | row label type typed items rest ih =>
    rw [TupleEntries.calls, cons_append, append_assoc, cons_append,
      goodCalls_row typed depth, ih depth, TupleEntries.Readable, TupleEntries.depth]
    constructor
    · rintro ⟨row, shallow, readable, bound, good⟩
      exact ⟨⟨row, readable⟩, by omega, good⟩
    · rintro ⟨⟨row, readable⟩, bound, good⟩
      exact ⟨row, by omega, readable, by omega, good⟩
  | nest label entries rest ih ih' =>
    rw [TupleEntries.calls, cons_append, append_assoc, cons_append, GoodCalls,
      closesNext_zero, TupleEntries.Readable, TupleEntries.depth]
    constructor
    · rintro ⟨shallow, good⟩
      obtain ⟨readable, bound, good⟩ := (ih (shallow rfl) _).mp good
      obtain ⟨readable', bound', good⟩ := (ih' depth _).mp good
      exact ⟨⟨readable, readable'⟩, by omega, good⟩
    · rintro ⟨⟨readable, readable'⟩, bound, good⟩
      refine ⟨fun _ => by omega, (ih (by omega) _).mpr ⟨readable, by omega, ?_⟩⟩
      exact (ih' depth _).mpr ⟨readable', by omega, good⟩

theorem inside_tuple (t : Tuple) :
    ∃ label type body, t.calls = .startTuple label type :: body ∧ Inside 1 body := by
  cases t with
  | row label type typed items =>
    exact ⟨label, type, _, rfl, (inside_items items _).mpr (by simp [Inside])⟩
  | nest label entries =>
    exact ⟨label, 0, _, rfl, (inside_entries entries _).mpr (by simp [Inside])⟩

theorem goodCalls_tuple (t : Tuple) : GoodCalls 0 0 t.calls ↔ t.Readable := by
  cases t with
  | row label type typed items =>
    rw [Tuple.calls, goodCalls_row typed (by decide), Tuple.Readable, rowDepth]
    simp only [GoodCalls, and_true, and_iff_left_iff_imp]
    intro _
    split <;> decide
  | nest label entries =>
    rw [Tuple.calls, GoodCalls, closesNext_zero, goodCalls_entries (by decide), Tuple.Readable]
    simp [GoodCalls]

theorem reproduces_create_iff (t : Tuple) (externalPrecision : Nat) (E : GoblinExport)
    (written : t.write externalPrecision = .ok E) (clears : Bool) (buffer : List Char)
    (length : Nat) :
    (GoblinImport.create E.close clears buffer length).Reproduces 0 (t.events externalPrecision) ↔
      t.Readable := by
  obtain ⟨label, type, body, calls, inside⟩ := inside_tuple t
  have writes : Writes (GoblinExport.create externalPrecision) (.startTuple label type :: body)
      E.close := by
    rw [← calls]
    exact ⟨E, written, rfl⟩
  obtain ⟨E1, piece, later, text, step, precision, after⟩ := writes.cons
  cases step with
  | @startTuple _ _ blank spaces broken before level type' =>
    have file : (GoblinImport.create E.close clears buffer length).impFile =
        ⟨blank ++ '(' :: (label.text ++ later), false⟩ := by
      rw [GoblinImport.create, text]
      simp
    have reproduces := startTuple_reproduces (d := 0) (fun later _ => faithful_calls later) file
      spaces rfl (by decide) after level inside
    rw [precision, type'] at reproduces
    rw [← goodCalls_tuple, Tuple.events, calls]
    exact reproduces

/-- The head of a tuple of tuples is scanned alone, since its end is on a line of its own. -/
theorem scans_head_of_nest {label : Label} {entries : TupleEntries} {externalPrecision : Nat}
    (written : (Tuple.nest label entries).write externalPrecision = .ok E) (clears : Bool)
    (buffer : List Char) (length : Nat) :
    ∃ rest F', GoblinImport.Scans (GoblinImport.create E.close clears buffer length)
      ⟨label.text, true, false, 1⟩ rest F' := by
  have writes : Writes (GoblinExport.create externalPrecision)
      (.startTuple label 0 :: (entries.calls ++ [.endTuple])) E.close := ⟨E, written, rfl⟩
  have inside : Inside 1 (entries.calls ++ [.endTuple]) :=
    (inside_entries entries _).mpr (by simp [Inside])
  obtain ⟨E1, piece, later, text, step, precision, after⟩ := writes.cons
  cases step with
  | @startTuple _ _ blank spaces broken before level type' =>
    have valid := label.valid
    have still : closesNext E1.currentType (entries.calls ++ [.endTuple]) = false := by
      rw [type']
      exact closesNext_zero _
    have separated := after.separated_of_inside (d := 1) level (by decide) inside still
    have file : (GoblinImport.create E.close clears buffer length).impFile =
        ⟨blank ++ ('(' :: (label.text ++ GoblinImport.mark false) ++ later), false⟩ := by
      rw [GoblinImport.create, text]
      simp [GoblinImport.mark]
    obtain ⟨F', scans⟩ := GoblinImport.scan_label file spaces valid.isWord valid.visible
      valid.unclosed valid.short separated
    exact ⟨later, F', scans⟩

/-- **Tuple round trip**: whatever tree is written, the tokens of the file have its labels and
items in their order and its nesting exactly if every string is plain, the strings at the
end of rows have white space, and the tuples are nested at most 127 deep. -/
theorem tuple_roundTrip_iff (t : Tuple) (externalPrecision : Nat) (E : GoblinExport)
    (written : t.write externalPrecision = .ok E) (clears : Bool) (buffer : List Char)
    (length : Nat) :
    t.RoundTrips externalPrecision (GoblinImport.create E.close clears buffer length) ↔
      t.Readable := by
  rw [← reproduces_create_iff t externalPrecision E written clears buffer length]
  simp only [Tuple.RoundTrips, GoblinImport.scanAll_iff]
  rfl

/-- A label. -/
def nameLabel : Label :=
  .header ⟨['n', 'a', 'm', 'e'], isWord_of_all (by decide) (by decide), by decide, by decide,
    by decide⟩

/-- The row `(name "x y")`. -/
def blankRow : Tuple :=
  .row nameLabel 1 (by decide) [(.int 7, 0), (.string ⟨['x', ' ', 'y'], by decide, by decide⟩, 0)]

theorem tuple_roundTrip_blank : ∃ E, blankRow.write 2 = .ok E ∧
      blankRow.RoundTrips 2 (GoblinImport.create E.close false [] 0) := by
  refine ⟨⟨0, 3, 0, 2, ['(', 'n', 'a', 'm', 'e', ' ', '7', ' ', '"', 'x', ' ', 'y', '"', ')']⟩,
    by decide, ?_⟩
  refine (tuple_roundTrip_iff blankRow 2 _ (by decide) false [] 0).mpr ⟨?_, ?_⟩
  · intro entry member
    simp only [mem_cons, not_mem_nil, or_false] at member
    rcases member with rfl | rfl
    · trivial
    · exact ⟨by decide, by decide⟩
  · intro entry last
    cases last
    exact ⟨' ', by decide, by decide⟩

/-- The row `(name "x")`. -/
def solidRow : Tuple :=
  .row nameLabel 1 (by decide) [(.string ⟨['x'], by decide, by decide⟩, 0)]

/-- The parenthesis behind a string without white space is lost: the reader stays on
level 1. -/
theorem tuple_parenthesis_lost : ∃ E, solidRow.write 2 = .ok E ∧
      ¬ solidRow.RoundTrips 2 (GoblinImport.create E.close false [] 0) := by
  refine ⟨⟨0, 2, 0, 2, ['(', 'n', 'a', 'm', 'e', ' ', '"', 'x', '"', ')']⟩, by decide, ?_⟩
  rintro ⟨tokens, scanned, events, -⟩
  have delivered : (GoblinImport.create
      ['(', 'n', 'a', 'm', 'e', ' ', '"', 'x', '"', ')', '\n'] false [] 0).scanAll =
      .ok [⟨['n', 'a', 'm', 'e'], true, false, 1⟩, ⟨['x'], false, false, 1⟩] := by decide
  have same := scanned.symm.trans delivered
  cases same
  revert events
  decide

end Goblin
