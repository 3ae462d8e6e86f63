import Goblin.LoadTermination

/-!
# Unknown tuples

`ReadAttribute` skips a tuple whose label is not in the table: it calls `Scan` until `Tail` holds.
This is the first word that ends with a parenthesis, so the tuple has not come to its end
if there are other tuples in its body. The word behind a closing parenthesis is taken for a label
then. A further word is no label of the table in most cases, and `ReadAttribute` skips it and what
follows up to the next closing parenthesis, and so on. In the end the whole tuple has been skipped.

There are three exceptions. A parenthesis that stands alone behind a nested tuple is an empty label
and ends the pool. A word behind a nested tuple that is a label of the table begins an attribute.
And a closing parenthesis is a mismatch if `currentLevel` is zero, which it also is 256 levels
deep.
-/

set_option autoImplicit false

namespace Goblin

open Goblin.Library

variable {label text whole : List Char} {d : Nat}

namespace GoblinImport

/-! ## Words -/

/-- What `Scan` delivers for a word, whatever the level is. -/
structure Word where
  text : List Char
  head : Bool
  tail : Bool
  deriving DecidableEq

/-- The word closes a tuple which it does not open. -/
def Word.closes (w : Word) : Bool := !w.head && w.tail

/-- `currentLevel` after the word. -/
def Word.level (w : Word) (level : Int8) : Int8 :=
  if w.head && !w.tail then level + 1 else if w.closes then level - 1 else level

/-- The number of open tuples after the word. -/
def Word.depth (w : Word) (d : Nat) : Nat :=
  if w.head && !w.tail then d + 1 else if w.closes then d - 1 else d

/-- The words close the given number of open tuples, the last one with the last word. -/
def Balanced : List Word → Nat → Prop
  | [], d => d = 0
  | w :: ws, d => 0 < d ∧ Balanced ws (w.depth d)

/-- A tuple: a label, and a body with balanced parentheses. -/
def IsTuple : List Word → Prop
  | [] => False
  | w :: ws => w.head = true ∧ Balanced ws (w.depth 0)

def decidableBalanced : ∀ ws d, Decidable (Balanced ws d)
  | [], d => inferInstanceAs (Decidable (d = 0))
  | w :: ws, d => by
    have := decidableBalanced ws (w.depth d)
    exact inferInstanceAs (Decidable (_ ∧ _))

instance (ws : List Word) (d : Nat) : Decidable (Balanced ws d) := decidableBalanced ws d

instance (ws : List Word) : Decidable (IsTuple ws) := by
  cases ws with
  | nil => exact inferInstanceAs (Decidable False)
  | cons w ws => exact inferInstanceAs (Decidable (_ ∧ _))

def atLevel (level : Int8) (F : GoblinImport) : GoblinImport := { F with currentLevel := level }

/-- `Scan` delivers the words. The level is one in front of each of them, so that parentheses
do not mismatch. -/
inductive Spells : GoblinImport → List Word → GoblinImport → Prop
  | nil (F : GoblinImport) : Spells F [] F
  | cons {F F' F'' : GoblinImport} {text : List Char} {ws : List Word}
      (more : F.impFile.exhausted = false) (scanned : (F.atLevel 1).scan none = .ok (text, F'))
      (later : Spells F' ws F'') : Spells F (⟨text, F'.head, F'.tail⟩ :: ws) F''

/-! ## The level -/

theorem extract_atLevel (level : Int8) (F : GoblinImport) :
    (F.atLevel level).extract = F.extract.atLevel level := by
  simp only [extract, atLevel]
  split <;> rfl

variable {F F' G : GoblinImport} {ws : List Word}

theorem scanLabel_atLevel (scanned : (F.atLevel 1).scanLabel none label = .ok (text, F'))
    (level : Int8) : (F.atLevel level).scanLabel none label =
      .ok (text, F'.atLevel ((Word.mk text F'.head F'.tail).level level)) ∧ F'.head = true := by
  by_cases empty : label = []
  · simp [scanLabel, empty] at scanned
  simp only [scanLabel, empty, if_false] at scanned ⊢
  cases scanned
  by_cases closed : label.getLast? = some ')'
  · simp [closed, Word.level, Word.closes, atLevel]
  · simp [closed, Word.level, atLevel]

theorem scanItem_atLevel (scanned : (F.atLevel 1).scanItem whole = .ok (text, F')) (level : Int8) :
    (F.atLevel level).scanItem whole =
      if (Word.mk text F'.head F'.tail).closes = true ∧ level = 0 then .error .parenthesisMismatch
      else .ok (text, F'.atLevel ((Word.mk text F'.head F'.tail).level level)) := by
  by_cases closed : whole.getLast? = some ')'
  · simp only [scanItem, closed, if_true] at scanned ⊢
    have inside : ¬ (F.atLevel 1).currentLevel = 0 := show ¬ (1 : Int8) = 0 by decide
    rw [if_neg inside] at scanned
    cases scanned
    by_cases zero : level = 0
    · simp [zero, atLevel, Word.closes]
    · simp [zero, atLevel, Word.closes, Word.level]
  · simp only [scanItem, closed, if_false] at scanned ⊢
    cases scanned
    simp [Word.closes, Word.level, atLevel]

/-- A buffer begins with a parenthesis, with a quote, or with none of them. -/
theorem marked_cases (buffer : List Char) :
    (∃ label, buffer = '(' :: label) ∨ (∃ body, buffer = '"' :: body) ∨ Unmarked buffer := by
  cases buffer with
  | nil => exact .inr (.inr (by simp [Unmarked]))
  | cons c rest =>
    by_cases opening : c = '('
    · exact .inl ⟨rest, by rw [opening]⟩
    · by_cases quote : c = '"'
      · exact .inr (.inl ⟨rest, by rw [quote]⟩)
      · refine .inr (.inr fun d first => ?_)
        cases first
        exact ⟨opening, quote⟩

/-- **The level matters to a closing parenthesis only.** -/
theorem scan_atLevel (scanned : (F.atLevel 1).scan none = .ok (text, F')) (level : Int8) :
    (F.atLevel level).scan none =
      if (Word.mk text F'.head F'.tail).closes = true ∧ level = 0 then .error .parenthesisMismatch
      else .ok (text, F'.atLevel ((Word.mk text F'.head F'.tail).level level)) := by
  have eq : ∀ level, (F.atLevel level).extract.buffer = F.extract.buffer := fun level => by
    rw [extract_atLevel]
    rfl
  rcases marked_cases F.extract.buffer with ⟨label, buffer⟩ | ⟨body, buffer⟩ | unmarked
  · have read := fun level => scan_of_label none ((eq level).trans buffer)
    rw [read, extract_atLevel] at scanned
    obtain ⟨res, head⟩ := scanLabel_atLevel scanned level
    rw [read, extract_atLevel, res, if_neg]
    simp [Word.closes, head]
  · have read := fun level => scan_of_quote none ((eq level).trans buffer)
    rw [read, extract_atLevel] at scanned
    rw [read, extract_atLevel]
    exact scanItem_atLevel (F := { F.extract with
      impFile := (scanString body F.extract.impFile).2 }) scanned level
  · have read := fun level => scan_of_unmarked none (eq level) unmarked
    rw [read, extract_atLevel] at scanned
    rw [read, extract_atLevel]
    exact scanItem_atLevel scanned level

/-! ## What a scan depends on -/

/-- The files are read alike. -/
structure Alike (F G : GoblinImport) : Prop where
  impFile : F.impFile = G.impFile
  clears : F.clears = G.clears
  level : F.currentLevel = G.currentLevel
  length : F.length = G.length

theorem Alike.scanItem (alike : Alike F G) (text : List Char) :
    F.scanItem text = G.scanItem text := by
  simp only [GoblinImport.scanItem, alike.impFile, alike.clears, alike.level, alike.length]

theorem Alike.scanLabel (alike : Alike F G) (label : List Char) :
    F.scanLabel none label = G.scanLabel none label := by
  simp only [GoblinImport.scanLabel, alike.impFile, alike.clears, alike.level, alike.length]

/-- The old buffer does not matter while there is a word left. -/
theorem Alike.scan (alike : Alike F G) (more : F.impFile.exhausted = false) :
    F.scan none = G.scan none := by
  obtain ⟨text, read, -⟩ := InStream.word_of_not_exhausted (show 0 < 254 by decide) more
  have word : F.impFile.word 254 = (some text, (F.impFile.word 254).2) := Prod.ext read rfl
  have extractF := extract_of_word word
  have extractG := extract_of_word (alike.impFile ▸ word)
  have extracted : Alike F.extract G.extract := by
    rw [extractF, extractG]
    exact ⟨congrArg (fun file => (file.word 254).2) alike.impFile, alike.clears, alike.level,
      alike.length⟩
  have bufferF : F.extract.buffer = cString text := by rw [extractF]
  have bufferG : G.extract.buffer = cString text := by rw [extractG]
  rcases marked_cases (cString text) with ⟨label, buffer⟩ | ⟨body, buffer⟩ | unmarked
  · rw [scan_of_label none (bufferF.trans buffer), scan_of_label none (bufferG.trans buffer)]
    exact extracted.scanLabel label
  · have behind : Alike { F.extract with impFile := (scanString body F.extract.impFile).2 }
        { G.extract with impFile := (scanString body G.extract.impFile).2 } :=
      ⟨congrArg (fun file => (scanString body file).2) extracted.impFile, extracted.clears,
        extracted.level, extracted.length⟩
    rw [scan_of_quote none (bufferF.trans buffer), scan_of_quote none (bufferG.trans buffer),
      behind.scanItem, extracted.impFile]
  · rw [scan_of_unmarked none bufferF unmarked, scan_of_unmarked none bufferG unmarked]
    exact extracted.scanItem _

theorem scanItem_fields (scanned : F.scanItem whole = .ok (text, F')) :
    F'.clears = F.clears ∧ F'.length = F.length := by
  simp only [scanItem] at scanned
  split_ifs at scanned
  · cases scanned
    exact ⟨rfl, rfl⟩
  · cases scanned
    exact ⟨rfl, rfl⟩

theorem scanLabel_fields (scanned : F.scanLabel none label = .ok (text, F')) :
    F'.clears = F.clears ∧ F'.length = F.length := by
  by_cases empty : label = []
  · simp [scanLabel, empty] at scanned
  · simp only [scanLabel, empty, if_false] at scanned
    cases scanned
    exact ⟨rfl, rfl⟩

theorem extract_fields (F : GoblinImport) :
    F.extract.clears = F.clears ∧ F.extract.length = F.length := by
  unfold extract
  split
  · exact ⟨rfl, rfl⟩
  · exact ⟨rfl, rfl⟩

theorem scan_fields
    (scanned : F.scan none = .ok (text, F')) : F'.clears = F.clears ∧ F'.length = F.length := by
  have first := F.extract_fields
  simp only [scan] at scanned
  split at scanned
  · obtain ⟨clears, length⟩ := scanLabel_fields scanned
    exact ⟨clears.trans first.1, length.trans first.2⟩
  · obtain ⟨clears, length⟩ := scanItem_fields scanned
    exact ⟨clears.trans first.1, length.trans first.2⟩
  · obtain ⟨clears, length⟩ := scanItem_fields scanned
    exact ⟨clears.trans first.1, length.trans first.2⟩

/-! ## Balanced words -/

/-- `currentLevel` after the words. -/
def levelAfter (level : Int8) (ws : List Word) : Int8 :=
  ws.foldl (fun level w => w.level level) level

theorem Word.level_sub_depth (w : Word) (level : Int8) (d : Nat) (open' : w.closes = true → 0 < d) :
    w.level level - Int8.ofNat (w.depth d) = level - Int8.ofNat d := by
  by_cases opens : (w.head && !w.tail) = true
  · rw [Word.level, Word.depth, if_pos opens, if_pos opens, Int8.ofNat_add]
    grind
  by_cases closes : w.closes = true
  · obtain ⟨k, rfl⟩ : ∃ k, d = k + 1 := ⟨d - 1, by have := open' closes; omega⟩
    rw [Word.level, Word.depth, if_neg opens, if_neg opens, if_pos closes, if_pos closes,
      Nat.add_sub_cancel, Int8.ofNat_add]
    grind
  · rw [Word.level, Word.depth, if_neg opens, if_neg opens, if_neg closes, if_neg closes]

theorem Balanced.eq_nil (balanced : Balanced ws 0) : ws = [] := by
  cases ws with
  | nil => rfl
  | cons w ws => exact absurd balanced.1 (lt_irrefl 0)

theorem Balanced.levelAfter (balanced : Balanced ws d) (level : Int8) :
    levelAfter level ws = level - Int8.ofNat d := by
  induction ws generalizing d level with
  | nil =>
    cases balanced
    exact (Int8.sub_zero level).symm
  | cons w ws ih =>
    obtain ⟨pos, later⟩ := balanced
    have rest := ih later (w.level level)
    rw [w.level_sub_depth level d fun _ => pos] at rest
    exact rest

theorem IsTuple.levelAfter (tuple : IsTuple ws) (level : Int8) : levelAfter level ws = level := by
  cases ws with
  | nil => exact tuple.elim
  | cons w ws =>
    obtain ⟨head, balanced⟩ := tuple
    have open' : w.closes = true → 0 < 0 := by simp [Word.closes, head]
    have rest := balanced.levelAfter (w.level level)
    rw [w.level_sub_depth level 0 open'] at rest
    exact rest.trans (Int8.sub_zero level)

section

variable (spells : Spells F ws F')
include spells

/-- The last word that closes a tuple ends with a parenthesis. -/
theorem Spells.tail_of_balanced (pos : 0 < d)
    (balanced : Balanced ws d) : F'.tail = true := by
  induction spells generalizing d with
  | nil F => exact absurd balanced pos.ne'
  | @cons F F' F'' text ws more scanned later ih =>
    obtain ⟨-, rest⟩ := balanced
    by_cases depth : (Word.mk text F'.head F'.tail).depth d = 0
    · rw [depth] at rest
      cases rest.eq_nil
      cases later
      rw [Word.depth] at depth
      split_ifs at depth with opens closes
      · simp only [Word.closes, Bool.and_eq_true] at closes
        exact closes.2
      · exact absurd depth pos.ne'
    · exact ih (Nat.pos_of_ne_zero depth) rest

theorem Spells.tail_of_isTuple (tuple : IsTuple ws) : F'.tail = true := by
  cases spells with
  | nil F => exact tuple.elim
  | @cons F F1 F'' text ws more scanned later =>
    obtain ⟨head, balanced⟩ := tuple
    rw [Word.depth] at balanced
    cases tail : F1.tail with
    | false =>
      rw [if_pos (by simp_all)] at balanced
      exact later.tail_of_balanced Nat.one_pos balanced
    | true =>
      rw [if_neg (by simp_all), if_neg (by simp_all [Word.closes])] at balanced
      cases balanced.eq_nil
      cases later
      exact tail

theorem Spells.keeps :
    F'.impFile.rest.length ≤ F.impFile.rest.length ∧ F'.clears = F.clears ∧
      F'.length = F.length := by
  induction spells with
  | nil F => exact ⟨le_rfl, rfl, rfl⟩
  | cons more scanned later ih =>
    obtain ⟨shorter, clears, length⟩ := ih
    have fields := scan_fields scanned
    have step := scan_length_le scanned
    exact ⟨shorter.trans step, clears.trans fields.1, length.trans fields.2⟩

end

end GoblinImport

namespace LoadM

open GoblinImport

variable {P X : Type} {s : Loader P X} {F F' : GoblinImport} {text : List Char} {level : Int8}

/-! ## Reading a word -/

/-- The loader with another file. -/
def place (F : GoblinImport) (s : Loader P X) : Loader P X := { s with F := F }

section

variable (scanned : (F.atLevel 1).scan none = .ok (text, F'))
include scanned

theorem scan_word
    (fits : (Word.mk text F'.head F'.tail).closes = true → level ≠ 0) :
    scan (place (F.atLevel level) s) =
      .ok text (place (F'.atLevel ((Word.mk text F'.head F'.tail).level level)) s) := by
  have here := scan_atLevel scanned level
  rw [if_neg fun mismatch => fits mismatch.1 mismatch.2] at here
  simp only [scan, place, here]

theorem scan_mismatch
    (closes : (Word.mk text F'.head F'.tail).closes = true) : scan (place (F.atLevel 0) s) =
      .error (.parse .parenthesisMismatch) (place (F.atLevel 0) s) := by
  have here := scan_atLevel scanned 0
  rw [if_pos ⟨closes, rfl⟩] at here
  simp only [scan, place, here]

end

/-- The flag is not touched while there is a word left. -/
theorem scanLabel_eq (more : s.F.impFile.exhausted = false) : scanLabel s = scan s := by
  rw [scanLabel, run_bind_get]
  cases scanned : scan s with
  | ok label t =>
    rw [run_bind_ok scanned, run_bind_modify]
    simp [more]
    rfl
  | error e t => rw [run_bind_error scanned]

theorem scanInside_eq (more : s.F.impFile.exhausted = false) : scanInside s = scan s := by
  rw [scanInside, run_bind_modify]
  simp [more]

/-! ## What `ReadPool` leads to -/

variable [DecidableEq P] (S : Schema P) (O : GraphObject X) (p : P)

/-- `ReadPool` ends with this result, if the number of steps suffices. -/
def PoolReads (s : Loader P X) (r : EStateM.Result LoadError (Loader P X) Unit) : Prop :=
  ∃ steps, ∀ fuel, steps ≤ fuel → readPool S O fuel p s = r

/-- The same, if a tuple has to be skipped first. -/
def Resumes (gap : Nat) (s : Loader P X) (r : EStateM.Result LoadError (Loader P X) Unit) : Prop :=
  ∃ steps, ∀ fuel, steps ≤ fuel → (skipTuple fuel >>= fun _ => readPool S O (fuel + gap) p) s = r

variable {S O p} {r r' : EStateM.Result LoadError (Loader P X) Unit} {gap : Nat} {t : Loader P X}
  {e : LoadError} {F1 : GoblinImport} {ws : List Word}

theorem PoolReads.unique (reads : PoolReads S O p s r) (reads' : PoolReads S O p s r') :
    r = r' := by
  obtain ⟨steps, run⟩ := reads
  obtain ⟨steps', run'⟩ := reads'
  rw [← run (steps + steps') (Nat.le_add_right ..), run' (steps + steps') (Nat.le_add_left ..)]

/-- An unknown label is followed by a loop that skips the tuple. -/
theorem poolReads_iff_resumes (table : S.table p ≠ []) (scanned : scanLabel s = .ok text t)
    (ne : text ≠ [])
    (unknown : S.lookup p text = none) : PoolReads S O p s r ↔ Resumes S O p 1 t r := by
  have last : (S.table p).length - 1 ≠ (S.table p).length := by
    have := List.length_pos_iff.2 table
    omega
  have step : ∀ fuel, readPool S O (fuel + 2) p s =
      (skipTuple fuel >>= fun _ => readPool S O (fuel + 1) p) t := by
    intro fuel
    have array : readAttribute S O (fuel + 1) p s =
        (skipTuple fuel >>= fun _ => pure ((S.table p).length - 1)) t := by
      rw [readAttribute_succ, run_bind_ok scanned, if_neg ne, readLabelled, unknown]
    rw [readPool]
    cases skipped : skipTuple fuel t with
    | ok a t' =>
      rw [run_bind_ok skipped] at array ⊢
      rw [run_bind_ok array, if_neg last]
    | error e t' =>
      rw [run_bind_error skipped] at array ⊢
      rw [run_bind_error array]
  constructor
  · rintro ⟨steps, run⟩
    refine ⟨steps, fun fuel enough => ?_⟩
    rw [← step fuel, run (fuel + 2) (by omega)]
  · rintro ⟨steps, run⟩
    refine ⟨steps + 2, fun fuel enough => ?_⟩
    obtain ⟨k, rfl⟩ : ∃ k, fuel = k + 2 := ⟨fuel - 2, by omega⟩
    rw [step k, run k (by omega)]

theorem resumes_iff_resumes (open' : s.F.tail = false) (scanned : scanInside s = .ok text t) :
    Resumes S O p gap s r ↔ Resumes S O p (gap + 1) t r := by
  have step : ∀ fuel, (skipTuple (fuel + 1) >>= fun _ => readPool S O (fuel + 1 + gap) p) s =
      (skipTuple fuel >>= fun _ => readPool S O (fuel + (gap + 1)) p) t := by
    intro fuel
    have skip : skipTuple (fuel + 1) s = skipTuple fuel t := by
      rw [skipTuple, run_bind_get, if_neg (by simp [open']), run_bind_ok scanned]
    have total : fuel + 1 + gap = fuel + (gap + 1) := by omega
    rw [total]
    cases skipped : skipTuple fuel t with
    | ok a t' => rw [run_bind_ok (skip.trans skipped), run_bind_ok skipped]
    | error e t' => rw [run_bind_error (skip.trans skipped), run_bind_error skipped]
  constructor
  · rintro ⟨steps, run⟩
    refine ⟨steps, fun fuel enough => ?_⟩
    rw [← step fuel, run (fuel + 1) (by omega)]
  · rintro ⟨steps, run⟩
    refine ⟨steps + 1, fun fuel enough => ?_⟩
    obtain ⟨k, rfl⟩ : ∃ k, fuel = k + 1 := ⟨fuel - 1, by omega⟩
    rw [step k, run k (by omega)]

theorem resumes_iff_poolReads (closed : s.F.tail = true) :
    Resumes S O p gap s r ↔ PoolReads S O p s r := by
  have step : ∀ fuel, (skipTuple (fuel + 1) >>= fun _ => readPool S O (fuel + 1 + gap) p) s =
      readPool S O (fuel + 1 + gap) p s := by
    intro fuel
    have skip : skipTuple (fuel + 1) s = .ok () s := by
      rw [skipTuple, run_bind_get, if_pos closed]
      rfl
    rw [run_bind_ok skip]
  constructor
  · rintro ⟨steps, run⟩
    refine ⟨steps + 1 + gap, fun fuel enough => ?_⟩
    obtain ⟨k, rfl⟩ : ∃ k, fuel = k + 1 + gap := ⟨fuel - 1 - gap, by omega⟩
    rw [← step k, run (k + 1) (by omega)]
  · rintro ⟨steps, run⟩
    refine ⟨steps + 1, fun fuel enough => ?_⟩
    obtain ⟨k, rfl⟩ : ∃ k, fuel = k + 1 := ⟨fuel - 1, by omega⟩
    rw [step k, run (k + 1 + gap) (by omega)]

theorem poolReads_of_empty (scanned : scanLabel s = .ok [] t) : PoolReads S O p s (.ok () t) := by
  refine ⟨2, fun fuel enough => ?_⟩
  obtain ⟨k, rfl⟩ : ∃ k, fuel = k + 2 := ⟨fuel - 2, by omega⟩
  have array : readAttribute S O (k + 1) p s = .ok (S.table p).length t := by
    rw [readAttribute_succ, run_bind_ok scanned, if_pos rfl]
    rfl
  rw [readPool, run_bind_ok array, if_pos rfl]
  rfl

theorem poolReads_of_error (scanned : scanLabel s = .error e t) :
    PoolReads S O p s (.error e t) := by
  refine ⟨2, fun fuel enough => ?_⟩
  obtain ⟨k, rfl⟩ : ∃ k, fuel = k + 2 := ⟨fuel - 2, by omega⟩
  have array : readAttribute S O (k + 1) p s = .error e t := by
    rw [readAttribute_succ, run_bind_error scanned]
  rw [readPool, run_bind_error array]

theorem resumes_of_error (open' : s.F.tail = false)
    (scanned : scanInside s = .error e t) : Resumes S O p gap s (.error e t) := by
  refine ⟨1, fun fuel enough => ?_⟩
  obtain ⟨k, rfl⟩ : ∃ k, fuel = k + 1 := ⟨fuel - 1, by omega⟩
  have skip : skipTuple (k + 1) s = .error e t := by
    rw [skipTuple, run_bind_get, if_neg (by simp [open']), run_bind_error scanned]
  rw [run_bind_error skip]

theorem PoolReads.congr {G : GoblinImport} (alike : Alike F G) (more : F.impFile.exhausted = false)
    (reads : PoolReads S O p (place F s) (.ok () t)) : PoolReads S O p (place G s) (.ok () t) := by
  obtain ⟨steps, run⟩ := reads
  have more' : G.impFile.exhausted = false := alike.impFile ▸ more
  have scans := alike.scan more
  cases res : F.scan none with
  | error e =>
    have scanned : scanLabel (place F s) = .error (.parse e) (place F s) := by
      rw [scanLabel_eq more]
      simp only [scan, place, res]
    have failed := run (steps + 2) (Nat.le_add_right ..)
    rw [readPool, run_bind_error (by rw [readAttribute_succ, run_bind_error scanned])] at failed
    cases failed
  | ok found =>
    obtain ⟨label, F'⟩ := found
    have scannedF : scanLabel (place F s) = .ok label (place F' s) := by
      rw [scanLabel_eq more]
      simp only [scan, place, res]
    have scannedG : scanLabel (place G s) = .ok label (place F' s) := by
      rw [scanLabel_eq more']
      simp only [scan, place, ← scans, res]
    refine ⟨steps + 2, fun fuel enough => ?_⟩
    obtain ⟨k, rfl⟩ : ∃ k, fuel = k + 2 := ⟨fuel - 2, by omega⟩
    have array : readAttribute S O (k + 1) p (place G s) =
        readAttribute S O (k + 1) p (place F s) := by
      rw [readAttribute_succ, run_bind_ok scannedF, run_bind_ok scannedG]
    have rest := run (k + 2) (by omega)
    rw [readPool] at rest ⊢
    cases read : readAttribute S O (k + 1) p (place F s) with
    | ok token t' =>
      rw [run_bind_ok read] at rest
      rw [run_bind_ok (array.trans read), rest]
    | error e t' =>
      rw [run_bind_error read] at rest
      rw [run_bind_error (array.trans read), rest]

/-! ## Words that are skipped -/

/-- The words are skipped: no parenthesis mismatches, and a word that is taken for a label is
neither empty nor a label of the table. A label is expected at first, or after a closing
parenthesis. -/
def Skippable (S : Schema P) (p : P) : Bool → Int8 → List Word → Prop
  | _, _, [] => True
  | fresh, level, w :: ws =>
    (w.closes = true → level ≠ 0) ∧ (fresh = true → w.text ≠ [] ∧ S.lookup p w.text = none) ∧
      Skippable S p w.tail (w.level level) ws

/-- The words that are taken for labels are no labels of the table, unless they are empty. -/
def LabelsUnknown (S : Schema P) (p : P) : Bool → List Word → Prop
  | _, [] => True
  | fresh, w :: ws =>
    (fresh = true → w.text ≠ [] → S.lookup p w.text = none) ∧ LabelsUnknown S p w.tail ws

def decidableSkippable (S : Schema P) (p : P) : ∀ ws fresh level,
    Decidable (Skippable S p fresh level ws)
  | [], _, _ => inferInstanceAs (Decidable True)
  | w :: ws, fresh, level => by
    have := decidableSkippable S p ws w.tail (w.level level)
    exact inferInstanceAs (Decidable (_ ∧ _))

instance (S : Schema P) (p : P) (ws : List Word) (fresh : Bool) (level : Int8) :
    Decidable (Skippable S p fresh level ws) := decidableSkippable S p ws fresh level

/-- **What is skipped does not matter**, where a label is expected and within the loop. -/
theorem skippable_iff (table : S.table p ≠ []) (closed : F1.tail = true) (spells : Spells F ws F1)
    (level : Int8) : (Skippable S p true level ws → (PoolReads S O p (place (F.atLevel level) s) r ↔
      PoolReads S O p (place (F1.atLevel (levelAfter level ws)) s) r)) ∧
    (F.tail = false → Skippable S p false level ws → ∀ gap,
      (Resumes S O p gap (place (F.atLevel level) s) r ↔
        PoolReads S O p (place (F1.atLevel (levelAfter level ws)) s) r)) := by
  induction spells generalizing level with
  | nil F =>
    refine ⟨fun _ => Iff.rfl, fun open' => ?_⟩
    rw [closed] at open'
    cases open'
  | @cons F F' F1 text ws more scanned later ih =>
    obtain ⟨fresh, within⟩ := ih closed ((Word.mk text F'.head F'.tail).level level)
    -- Behind the word a label is expected, or the loop goes on.
    have behind : ∀ closing, F'.tail = closing →
        Skippable S p closing ((Word.mk text F'.head F'.tail).level level) ws → ∀ gap,
        (Resumes S O p gap (place (F'.atLevel ((Word.mk text F'.head F'.tail).level level)) s) r ↔
          PoolReads S O p
            (place (F1.atLevel (levelAfter level (⟨text, F'.head, F'.tail⟩ :: ws))) s) r) := by
      intro closing tail skippable gap
      cases closing with
      | true => exact (resumes_iff_poolReads tail).trans (fresh skippable)
      | false => exact within tail skippable gap
    constructor
    · rintro ⟨fits, label, skippable⟩
      obtain ⟨ne, unknown⟩ := label rfl
      have read := scan_word (s := s) scanned fits
      rw [← scanLabel_eq more] at read
      exact (poolReads_iff_resumes table read ne unknown).trans (behind _ rfl skippable 1)
    · rintro open' ⟨fits, -, skippable⟩ gap
      have read := scan_word (s := s) scanned fits
      rw [← scanInside_eq more] at read
      exact (resumes_iff_resumes open' read).trans (behind _ rfl skippable (gap + 1))

/-- The pool does not end normally in front of the last part of the text. -/
def Misses (length : Nat) (r : EStateM.Result LoadError (Loader P X) Unit) : Prop :=
  ∀ t, r = .ok () t → length ≤ left t

/-- **What is not skipped** is an error or the end of the pool, where a label is expected and within
the loop. -/
theorem misses_of_not_skippable (table : S.table p ≠ []) (spells : Spells F ws F1) (level : Int8) :
    (LabelsUnknown S p true ws → ¬ Skippable S p true level ws →
      ∃ r, PoolReads S O p (place (F.atLevel level) s) r ∧ Misses F1.impFile.rest.length r) ∧
    (F.tail = false → LabelsUnknown S p false ws → ¬ Skippable S p false level ws → ∀ gap,
      ∃ r, Resumes S O p gap (place (F.atLevel level) s) r ∧ Misses F1.impFile.rest.length r) := by
  induction spells generalizing level with
  | nil F => exact ⟨fun _ stuck => absurd trivial stuck, fun _ _ stuck => absurd trivial stuck⟩
  | @cons F F' F1 text ws more scanned later ih =>
    obtain ⟨fresh, within⟩ := ih ((Word.mk text F'.head F'.tail).level level)
    have behind : ∀ closing, F'.tail = closing → LabelsUnknown S p closing ws →
        ¬ Skippable S p closing ((Word.mk text F'.head F'.tail).level level) ws →
        ∀ gap, ∃ r, Resumes S O p gap
            (place (F'.atLevel ((Word.mk text F'.head F'.tail).level level)) s) r ∧
          Misses F1.impFile.rest.length r := by
      intro closing tail unknown stuck gap
      cases closing with
      | true =>
        obtain ⟨r, reads, misses⟩ := fresh unknown stuck
        exact ⟨r, (resumes_iff_poolReads tail).2 reads, misses⟩
      | false => exact within tail unknown stuck gap
    constructor
    · rintro ⟨label, unknown⟩ stuck
      by_cases mismatch : (Word.mk text F'.head F'.tail).closes = true ∧ level = 0
      · obtain ⟨closes, rfl⟩ := mismatch
        have read := scan_mismatch (s := s) scanned closes
        rw [← scanLabel_eq more] at read
        exact ⟨_, poolReads_of_error read, fun t res => by cases res⟩
      have fits : (Word.mk text F'.head F'.tail).closes = true → level ≠ 0 := fun closes zero =>
        mismatch ⟨closes, zero⟩
      have read := scan_word (s := s) scanned fits
      rw [← scanLabel_eq more] at read
      by_cases empty : text = []
      · subst empty
        refine ⟨_, poolReads_of_empty read, fun t res => ?_⟩
        cases res
        exact later.keeps.1
      obtain ⟨r, resumes, misses⟩ := behind _ rfl unknown
        (fun skippable => stuck ⟨fits, fun _ => ⟨empty, label rfl empty⟩, skippable⟩) 1
      exact ⟨r, (poolReads_iff_resumes table read empty (label rfl empty)).2 resumes, misses⟩
    · rintro open' ⟨-, unknown⟩ stuck gap
      by_cases mismatch : (Word.mk text F'.head F'.tail).closes = true ∧ level = 0
      · obtain ⟨closes, rfl⟩ := mismatch
        have read := scan_mismatch (s := s) scanned closes
        rw [← scanInside_eq more] at read
        exact ⟨_, resumes_of_error open' read, fun t res => by cases res⟩
      have fits : (Word.mk text F'.head F'.tail).closes = true → level ≠ 0 := fun closes zero =>
        mismatch ⟨closes, zero⟩
      have read := scan_word (s := s) scanned fits
      rw [← scanInside_eq more] at read
      obtain ⟨r, resumes, misses⟩ := behind _ rfl unknown
        (fun skippable => stuck ⟨fits, (fun fresh => nomatch fresh), skippable⟩) (gap + 1)
      exact ⟨r, (resumes_iff_resumes open' read).2 resumes, misses⟩

theorem PoolReads.left_lt (more : s.F.impFile.exhausted = false)
    (reads : PoolReads S O p s (.ok () t)) : left t < left s := by
  obtain ⟨steps, run⟩ := reads
  have res := run (steps + 2) (Nat.le_add_right ..)
  rw [readPool] at res
  obtain ⟨token, t1, array, last⟩ := of_run_bind res
  rw [readAttribute_succ] at array
  obtain ⟨label, t0, first, read⟩ := of_run_bind array
  rw [scanLabel_eq more] at first
  have word : left t0 < left s := by
    cases scanned : s.F.scan none with
    | error e =>
      simp only [scan, scanned] at first
      cases first
    | ok found =>
      simp only [scan, scanned] at first
      cases first
      exact scan_length_lt more scanned
  have labelled : left t1 ≤ left t0 := by
    have tame : Tame (if label = [] then pure (S.table p).length
        else readLabelled (X := X) S O steps p label) :=
      (Tame.pure _).ite (Tame.readLabelled steps p label)
    simpa only [finalState, read] using (tame t0).1
  have others : left t ≤ left t1 := by
    have tame : Tame (if token = (S.table p).length then pure ()
        else readPool (X := X) S O (steps + 1) p) :=
      (Tame.pure _).ite ((Tame.readPools S O (steps + 1)).2.2 p)
    simpa only [finalState, last] using (tame t1).1
  exact others.trans_lt (labelled.trans_lt word)

/-! ## A tuple in front of the rest of a pool -/

/-- The loader in front of a pool, with a text put in front of what is left of the file. -/
def insertText (T : List Char) (s : Loader P X) : Loader P X :=
  place { s.F with impFile := { s.F.impFile with rest := T ++ s.F.impFile.rest } } s

/-- The text is a tuple in front of the text that is left of the file. -/
structure TupleText (s : Loader P X) (T : List Char) (ws : List Word) : Prop where
  tuple : IsTuple ws
  spells : ∃ F, Spells (insertText T s).F ws F ∧ F.impFile = s.F.impFile

/-- **A tuple that is skipped does not change what `ReadPool` leads to**, and if none of the words
which are taken for labels is a label of the table, only such a tuple does not. -/
theorem unknown_tuple_skipped (table : S.table p ≠ []) {s t : Loader P X} {T : List Char}
    {ws : List Word} (more : s.F.impFile.exhausted = false)
    (reads : PoolReads S O p s (.ok () t)) (text : TupleText s T ws) :
    (Skippable S p true s.F.currentLevel ws → PoolReads S O p (insertText T s) (.ok () t)) ∧
      (LabelsUnknown S p true ws → (PoolReads S O p (insertText T s) (.ok () t) ↔
          Skippable S p true s.F.currentLevel ws)) := by
  obtain ⟨F, spells, file⟩ := text.spells
  have same : levelAfter s.F.currentLevel ws = s.F.currentLevel := text.tuple.levelAfter _
  have alike : Alike s.F (F.atLevel (levelAfter s.F.currentLevel ws)) := by
    obtain ⟨-, clears, length⟩ := spells.keeps
    exact ⟨file.symm, clears.symm, same.symm, length.symm⟩
  have enough : Skippable S p true s.F.currentLevel ws →
      PoolReads S O p (insertText T s) (.ok () t) := by
    intro skippable
    have skips := (skippable_iff (s := s) (r := .ok () t) (O := O) table
      (spells.tail_of_isTuple text.tuple) spells s.F.currentLevel).1 skippable
    exact skips.2 (reads.congr (F := s.F) alike more)
  refine ⟨enough, fun unknown => ⟨fun inserted => ?_, enough⟩⟩
  by_contra stuck
  obtain ⟨r, reads', misses⟩ := (misses_of_not_skippable (s := s) (O := O) table spells
    s.F.currentLevel).1 unknown stuck
  have later := misses t (reads'.unique inserted)
  rw [file] at later
  exact absurd (reads.left_lt more) (not_lt.2 later)

/-- The end of a pool, behind white space. -/
def poolEnd : GoblinImport := ⟨⟨" )".toList, false⟩, true, [], 1, false, false, 0⟩

/-- What is left behind the end of the pool. -/
def poolEnded : GoblinImport := ⟨⟨[], false⟩, true, [], 0, false, true, 0⟩

theorem poolEnd_reads {X : Type} (O : GraphObject X) (object : X)
    (pools : GraphPool → AttributePool) :
    PoolReads graphSchema O .root ⟨poolEnd, object, pools, false⟩
      (.ok () ⟨poolEnded, object, pools, false⟩) := by
  have scanned : poolEnd.scan none = .ok ([], poolEnded) := by decide +kernel
  apply poolReads_of_empty
  rw [scanLabel_eq (show poolEnd.impFile.exhausted = false by decide)]
  simp only [scan, scanned]

/-- The reader behind the words, if `Scan` delivers them. -/
def spelled : List Word → GoblinImport → Option GoblinImport
  | [], F => some F
  | w :: ws, F =>
    match (F.atLevel 1).scan none with
    | .error _ => none
    | .ok (text, F') =>
      if F.impFile.exhausted = false ∧ ⟨text, F'.head, F'.tail⟩ = w then spelled ws F' else none

theorem spells_of_spelled {ws : List Word} {F F'' : GoblinImport}
    (read : spelled ws F = some F'') : Spells F ws F'' := by
  induction ws generalizing F with
  | nil =>
    cases read
    exact .nil _
  | cons w ws ih =>
    rw [spelled] at read
    cases scanned : (F.atLevel 1).scan none with
    | error e => simp [scanned] at read
    | ok word =>
      obtain ⟨text, F'⟩ := word
      simp only [scanned, Option.ite_none_right_eq_some] at read
      obtain ⟨⟨more, rfl⟩, later⟩ := read
      exact .cons more scanned (ih later)

theorem poolEnd_tupleText {X : Type} (object : X) (pools : GraphPool → AttributePool)
    {T : List Char} {ws : List Word} (tuple : IsTuple ws)
    (read : (spelled ws { poolEnd with impFile := ⟨T ++ poolEnd.impFile.rest, false⟩ }).map
      GoblinImport.impFile = some poolEnd.impFile) :
    TupleText (⟨poolEnd, object, pools, false⟩ : Loader GraphPool X) T ws := by
  obtain ⟨F, read, file⟩ := Option.map_eq_some_iff.1 read
  exact ⟨tuple, F, spells_of_spelled read, file⟩

/-- The words of a tuple without other tuples in its body. -/
def flatWords : List Word :=
  [⟨['f', 'o', 'o'], true, false⟩, ⟨['1'], false, false⟩, ⟨['2'], false, true⟩]

/-- The words of a tuple with another one in front of its last entry. -/
def innerWords : List Word :=
  [⟨['f', 'o', 'o'], true, false⟩, ⟨['b', 'a', 'r'], true, false⟩, ⟨['1'], false, true⟩,
    ⟨['2'], false, true⟩]

/-- A flat unknown tuple is skipped, and so is one whose entries are a tuple and a number. -/
theorem unknown_tuple_flat_inner : IsTuple flatWords ∧ IsTuple innerWords ∧
    ∀ (X : Type) (O : GraphObject X) (object : X) (pools : GraphPool → AttributePool),
      PoolReads graphSchema O .root
        (insertText "\n(foo 1 2)".toList ⟨poolEnd, object, pools, false⟩)
        (.ok () ⟨poolEnded, object, pools, false⟩) ∧
      PoolReads graphSchema O .root
        (insertText "\n(foo (bar 1) 2)".toList ⟨poolEnd, object, pools, false⟩)
        (.ok () ⟨poolEnded, object, pools, false⟩) := by
  refine ⟨by decide, by decide, fun X O object pools => ?_⟩
  have more : poolEnd.impFile.exhausted = false := by decide
  have base := poolEnd_reads O object pools
  have flat : Skippable graphSchema .root true poolEnd.currentLevel flatWords := by decide
  have inner : Skippable graphSchema .root true poolEnd.currentLevel innerWords := by decide
  exact ⟨(unknown_tuple_skipped (by decide) more base
      (poolEnd_tupleText object pools (by decide) (by decide +kernel))).1 flat,
    (unknown_tuple_skipped (by decide) more base
      (poolEnd_tupleText object pools (by decide) (by decide +kernel))).1 inner⟩

/-- The words of a tuple whose last parenthesis stands alone behind another tuple. -/
def nestedWords : List Word :=
  [⟨['f', 'o', 'o'], true, false⟩, ⟨['b', 'a', 'r'], true, false⟩, ⟨['1'], false, true⟩,
    ⟨[], false, true⟩]

/-- An unknown tuple with another one in its body ends the pool. -/
theorem unknown_tuple_nested : IsTuple nestedWords ∧
    graphSchema.lookup .root ['f', 'o', 'o'] = none ∧
    graphSchema.lookup .root ['b', 'a', 'r'] = none ∧
    ∀ (X : Type) (O : GraphObject X) (object : X) (pools : GraphPool → AttributePool),
      TupleText ⟨poolEnd, object, pools, false⟩ "\n(foo (bar 1)\n)".toList nestedWords ∧
      PoolReads graphSchema O .root ⟨poolEnd, object, pools, false⟩
        (.ok () ⟨poolEnded, object, pools, false⟩) ∧ ¬ PoolReads graphSchema O .root
        (insertText "\n(foo (bar 1)\n)".toList ⟨poolEnd, object, pools, false⟩)
        (.ok () ⟨poolEnded, object, pools, false⟩) := by
  refine ⟨by decide, by decide +kernel, by decide +kernel, fun X O object pools => ?_⟩
  have text : TupleText (⟨poolEnd, object, pools, false⟩ : Loader GraphPool X)
    "\n(foo (bar 1)\n)".toList nestedWords :=
      poolEnd_tupleText object pools (by decide) (by decide +kernel)
  refine ⟨text, poolEnd_reads O object pools, fun inserted => ?_⟩
  obtain ⟨F, spells, file⟩ := text.spells
  have unknown : LabelsUnknown graphSchema .root true nestedWords := by
    refine ⟨fun _ _ => by decide +kernel, (fun fresh => nomatch fresh), (fun fresh => nomatch fresh),
      fun _ nonempty => absurd rfl nonempty, trivial⟩
  have stuck : ¬ Skippable graphSchema .root true poolEnd.currentLevel nestedWords := by decide
  obtain ⟨r, reads, misses⟩ := (misses_of_not_skippable (O := O)
    (s := ⟨poolEnd, object, pools, false⟩) (by decide) spells poolEnd.currentLevel).1 unknown stuck
  have later := misses _ (reads.unique inserted)
  rw [file] at later
  have further : ¬ poolEnd.impFile.rest.length ≤ poolEnded.impFile.rest.length := by decide
  exact further later

end LoadM

end Goblin
