import Goblin.AttributeRoundTrip
import Goblin.SubgraphLabels

/-!
# The subgraph in a file

`WriteSubgraph` writes the multiplicities `Sub(2*a)` of all edges as a tuple of numbers, unless the
subgraph is void. `ReadSubgraph` tests the numbers against the capacity bounds and calls `SetSub`.
The tuple belongs to the pool of registers, which `WriteRegisters` calls `solutions`.

A subgraph is considered void if no `Sub(2*a)` exceeds `LCap(a)`. This is not the lower bound of
the arc `2*a`, but of the arc `a`, which belongs to the edge `a/2`. And a multiplicity may
also differ from the lower bound by being less, namely if it is negative. In both cases a subgraph
may be dropped which is not the default one.

What is written is restored, as long as the numbers fit into the buffer that `ExternalFloatLength`
prints to. The exception are dense graphs, where `SetSub` adds the lower bound once more.
-/

set_option autoImplicit false

namespace Goblin

open Library List Function

variable {texts : List (List Char)} {later : List Event} {st : Option (ℕ → ℚ)} {index : ℕ → ℕ}
  {key : ℕ → ℚ}

/-! ## Writing -/

/-- The label of the tuple. -/
def subgraphLabel : Label := (labelled_graphSchema .registers).label ⟨2, by decide⟩

namespace GoblinExport

variable (CT : NumberFormat)

/-- The loop of `WriteSubgraph` that determines the width of the columns. -/
def subgraphWidth (F : GoblinExport) : List ℚ → ℕ → Except ExportError ℕ
  | [], length => .ok length
  | x :: array, length => do
    let thisLength ← F.externalFloatLength CT x
    subgraphWidth F array (if thisLength > length then thisLength else length)

/-- The loop of `WriteSubgraph` that writes the numbers. -/
def makeFloatItems (length : ℕ) : List ℚ → GoblinExport → Except ExportError GoblinExport
  | [], F => .ok F
  | x :: array, F => do
    let F ← F.makeFloatItem x length
    makeFloatItems length array F

/-- The tuple of a subgraph that is not void. -/
def writeMultiplicities (array : List ℚ) (F : GoblinExport) : Except ExportError GoblinExport := do
  let F ← F.startTuple subgraphLabel 10
  let length ← F.subgraphWidth CT array 1
  let F ← makeFloatItems length array F
  F.endTuple

end GoblinExport

/-- The label that `WriteRegisters` gives to the pool. -/
def solutionsHeader : Header :=
  ⟨"solutions".toList, by decide, by decide, by decide, by decide⟩

namespace ArcBounds

variable (B : ArcBounds)

/-- The first loop of `WriteSubgraph`. The lower bound is the one of the directed arc `a`. -/
def VoidSubgraph (sub : ℕ → ℚ) : Prop :=
  ∀ a < B.mAct, ¬ sub (2 * a) > B.lcap (a / 2)

instance (sub : ℕ → ℚ) : Decidable (B.VoidSubgraph sub) :=
  inferInstanceAs (Decidable (∀ a < B.mAct, ¬ sub (2 * a) > B.lcap (a / 2)))

/-- The numbers in the order of the edges. -/
def multiplicities (sub : ℕ → ℚ) : List ℚ :=
  (List.range B.mAct).map fun a => sub (2 * a)

section

variable (CT : NumberFormat) (sub : ℕ → ℚ) (F : GoblinExport)

/-- `WriteSubgraph`, where `sub` is what `Sub` returns. -/
def writeSubgraph :
    Except ExportError GoblinExport :=
  if B.VoidSubgraph sub then .ok F else F.writeMultiplicities CT (B.multiplicities sub)

/-- `WriteRegisters` for a graph without other registers. `WriteSpecial` calls `WriteSubgraph` for
the token of the subgraph. -/
def writeRegisters :
    Except ExportError GoblinExport :=
  writePool CT (labelled_graphSchema .registers)
    (fun token F => if token.val = 2 then B.writeSubgraph CT sub F else .ok F) [] solutionsHeader F

end

/-! ## Reading -/

variable {σ : Type} (I : SubClass σ)

section

variable (tmpSub : List Value) (length : ℕ)

/-- The body of the loop of `ReadSubgraph`, where `length` is the number of values in the file. -/
def readMultiplicity (a : ℕ) (st : Option σ) :
    Except Refusal (Option σ) :=
  match tmpSub[if length = 1 then 0 else a]? with
  | some (.float thisSub) =>
    if |thisSub| < B.lcap (2 * a / 2) ∨ |thisSub| > B.ucap (2 * a / 2) then .error .rejected
    else
      match I.serve (.setSub (2 * a) thisSub) st with
      | .ok st => .ok st
      | .error _ => .error .rejected
  | _ => .error .rejected

/-- The loop of `ReadSubgraph`. -/
def readSubgraph (st : Option σ) : Except Refusal (Option σ) :=
  (List.range B.mAct).foldlM (fun st a => B.readMultiplicity I tmpSub length a st) st

end

/-- A graph object whose subgraph is served by the class. What it does with other data is given. -/
def subgraphObject (O : GraphObject (Option σ)) : GraphObject (Option σ) :=
  { O with
    m := fun _ => B.mAct
    setSubgraph := fun st tmpSub length => B.readSubgraph I tmpSub length st }

/-- The subgraph is restored in a graph with the default subgraph `st0`, and it is omitted only if
it is the default one. -/
structure SubgraphRoundTrip (O : GraphObject (Option σ)) (CT : NumberFormat)
    (externalPrecision : ℕ) (sub : ℕ → ℚ) (st0 : Option σ) (clears : Bool) (buffer : List Char)
    (length : ℕ) : Prop where
  restored : ∃ E, B.writeRegisters CT sub (GoblinExport.create externalPrecision) = .ok E ∧
    ∃ fuel s', LoadM.loadPool graphSchema (B.subgraphObject I O) fuel .registers
        (TypedPool.start E st0 clears buffer length) = .ok () s' ∧
      ∀ a < B.mAct, I.sub (2 * a) s'.object = .ok (sub (2 * a))
  omitted : B.VoidSubgraph sub → ∀ a < B.mAct, sub (2 * a) = B.lcap (2 * a / 2)

end ArcBounds

/-! ## The tuple in the file -/

/-- No multiplicity is this value. -/
def noMultiplicity : Value := .bool false

/-- What is written for the multiplicities. -/
def multiplicityTexts (externalPrecision : ℕ) (array : List ℚ) : List (List Char) :=
  (array.map Value.float).map fun v => v.written externalPrecision noMultiplicity

theorem wordless_floats (array : List ℚ) : Wordless noMultiplicity (array.map .float) := by
  intro s mem
  obtain ⟨q, -, eq⟩ := mem_map.mp mem
  cases eq

namespace GoblinExport

variable {CT : NumberFormat} {F F' : GoblinExport} {array : List ℚ} {length : ℕ}

section

variable (F : GoblinExport) (array : List ℚ) (length : ℕ)

theorem subgraphWidth_eq :
    F.subgraphWidth CT array length =
      F.columnWidth CT noMultiplicity (array.map .float) length := by
  induction array generalizing length with
  | nil => rfl
  | cons x array ih =>
    rw [subgraphWidth, map_cons, columnWidth]
    congr 1
    funext thisLength
    rw [ih]
    simp [noMultiplicity]

theorem makeFloatItems_eq :
    F.makeFloatItems length array = F.writeEntries noMultiplicity length (array.map .float) := by
  induction array generalizing F with
  | nil => rfl
  | cons x array ih =>
    rw [makeFloatItems, map_cons, writeEntries]
    congr 1
    funext F
    exact ih F

end

/-- The tuple is a row with the multiplicities, which have passed the buffer. -/
theorem writeMultiplicities_calls (written : F.writeMultiplicities CT array = .ok F') :
    (∀ q ∈ array, (fixedText F.externalPrecision q).length ≤ 24) ∧ ∃ length,
      runCalls (.startTuple subgraphLabel 10 :: (itemCalls ((array.map Value.float).map fun v =>
        (v.item noMultiplicity, length)) ++ [.endTuple])) F = .ok F' := by
  unfold writeMultiplicities at written
  cases opened : F.startTuple subgraphLabel 10 with
  | error e =>
    rw [opened] at written
    cases written
  | ok F1 =>
    rw [opened] at written
    cases computed : F1.subgraphWidth CT array 1 with
    | error e =>
      simp only [bind, Except.bind, computed] at written
      cases written
    | ok length =>
      simp only [bind, Except.bind, computed] at written
      obtain ⟨-, -, -, precision⟩ := startTuple_writes opened
      rw [subgraphWidth_eq] at computed
      refine ⟨fun q mem => ?_, length, ?_⟩
      · rw [← precision]
        exact short_of_columnWidth computed q (mem_map_of_mem mem)
      · rw [runCalls_row, opened, ← written, makeFloatItems_eq,
          writeEntries_eq (wordless_floats array)]
        rfl

theorem writeMultiplicities_ok (CT : NumberFormat)
    (short : ∀ q ∈ array, (fixedText F.externalPrecision q).length ≤ 24) (row : F.currentType = 0)
    (level : F.currentLevel = 1) :
    ∃ F', F.writeMultiplicities CT array = .ok F' ∧ F'.currentLevel = 1 := by
  obtain ⟨F1, opened, level1, precision1⟩ := startTuple_ok subgraphLabel 10 row level
  have floats : Short F1.externalPrecision (array.map .float) := by
    intro q mem
    obtain ⟨q', mem', eq⟩ := mem_map.mp mem
    cases eq
    rw [precision1]
    exact short q mem'
  obtain ⟨width, computed, narrow⟩ := columnWidth_ok CT noMultiplicity 1 floats
  have bound : width ≤ 15 := by
    apply narrow _ (by decide)
    intro s mem
    obtain ⟨q, -, eq⟩ := mem_map.mp mem
    cases eq
  have fits : ∀ q, Value.float q ∈ array.map .float →
      (fixedText F1.externalPrecision q).length ≤ 24 ∧ width ≤ 24 :=
    fun q mem => ⟨floats q mem, by omega⟩
  obtain ⟨F2, entries, level2, -⟩ := writeEntries_ok noMultiplicity fits
  obtain ⟨F3, closed, -, level3, -⟩ := endTuple_ok (level2.trans level1)
  refine ⟨F3, ?_, level3⟩
  rw [← subgraphWidth_eq] at computed
  rw [← makeFloatItems_eq] at entries
  simp only [writeMultiplicities, opened, bind, Except.bind, computed, entries]
  exact closed

end GoblinExport

theorem writeSpecials_filter {table : List PoolEntry}
    (writeSpecial : Fin table.length → GoblinExport → Except ExportError GoblinExport)
    (tokens : List (Fin table.length)) (F : GoblinExport) : writeSpecials writeSpecial tokens F =
      writeSpecials writeSpecial
        (tokens.filter fun token => (table.get token).arrayType = .special) F := by
  induction tokens generalizing F with
  | nil => rfl
  | cons token tokens ih =>
    rw [filter_cons, writeSpecials]
    by_cases special : table[token].arrayType = .special
    · rw [if_pos special, if_pos (by simpa using special), writeSpecials, if_pos special]
      congr 1
      funext F
      exact ih F
    · rw [if_neg special, if_neg (by simpa using special)]
      exact ih F

/-- The events of the registers, where the tuple of the subgraph may be missing. -/
def subgraphEvents (externalPrecision : ℕ) (array : Option (List ℚ)) : List Event :=
  match array with
  | none => []
  | some array => rowEvents "subgraph".toList (multiplicityTexts externalPrecision array)

namespace ArcBounds

variable {B : ArcBounds} {CT : NumberFormat} {sub : ℕ → ℚ} {externalPrecision : ℕ}
  {E : GoblinExport}

/-- What is written into the registers. -/
def written (B : ArcBounds) (sub : ℕ → ℚ) : Option (List ℚ) :=
  if B.VoidSubgraph sub then none else some (B.multiplicities sub)

theorem writeRegisters_eq (B : ArcBounds) (CT : NumberFormat) (sub : ℕ → ℚ) (F : GoblinExport) :
    B.writeRegisters CT sub F = (do
      let F ← F.startTuple (.header solutionsHeader) 0
      let F ← B.writeSubgraph CT sub F
      F.endTuple) := by
  unfold writeRegisters writePool
  congr 1
  funext F
  have tokens : (finRange (graphSchema.table .registers).length).filter
      (fun token => ((graphSchema.table .registers).get token).arrayType = .special) =
      [⟨2, by decide⟩] := by
    decide +kernel
  simp only [writeAttributes, bind, Except.bind]
  rw [writeSpecials_filter, tokens]
  have special : (graphSchema.table .registers)[(⟨2, by decide⟩ :
      Fin (graphSchema.table .registers).length)].arrayType = .special := by
    decide +kernel
  simp only [writeSpecials, if_pos special, if_true, bind, Except.bind]
  cases B.writeSubgraph CT sub F <;> rfl

section

variable (saved : B.writeRegisters CT sub (GoblinExport.create externalPrecision) = .ok E)
include saved

theorem writeRegisters_calls : (¬ B.VoidSubgraph sub → ∀ q ∈ B.multiplicities sub,
      (fixedText externalPrecision q).length ≤ 24) ∧
    ∃ entries, (Tuple.nest (.header solutionsHeader) entries).write externalPrecision = .ok E ∧
      (Tuple.nest (.header solutionsHeader) entries).Readable ∧
      (Tuple.nest (.header solutionsHeader) entries).events externalPrecision =
        .opened solutionsHeader.chars ::
          (subgraphEvents externalPrecision (B.written sub) ++ [.closed]) := by
  have opened : (GoblinExport.create externalPrecision).startTuple (.header solutionsHeader) 0 =
      .ok ((GoblinExport.create externalPrecision).openTuple [] solutionsHeader.chars 0) := rfl
  rw [writeRegisters_eq, opened] at saved
  simp only [bind, Except.bind] at saved
  by_cases isVoid : B.VoidSubgraph sub
  · rw [writeSubgraph, if_pos isVoid] at saved
    refine ⟨fun other => absurd isVoid other, .nil, ?_, ⟨trivial, by decide⟩, ?_⟩
    · rw [← saved]
      exact bind_pure (GoblinExport.endTuple
        ((GoblinExport.create externalPrecision).openTuple [] solutionsHeader.chars 0))
    · rw [written, if_pos isVoid]
      rfl
  rw [writeSubgraph, if_neg isVoid] at saved
  cases inside : GoblinExport.writeMultiplicities CT (B.multiplicities sub)
      ((GoblinExport.create externalPrecision).openTuple [] solutionsHeader.chars 0) with
  | error e =>
    rw [inside] at saved
    cases saved
  | ok F1 =>
    rw [inside] at saved
    obtain ⟨short, length, calls⟩ := GoblinExport.writeMultiplicities_calls inside
    have entries : (TupleEntries.row subgraphLabel 10 (by decide)
        (((B.multiplicities sub).map Value.float).map fun v => (v.item noMultiplicity, length))
          .nil).calls =
        .startTuple subgraphLabel 10 :: (itemCalls (((B.multiplicities sub).map
          Value.float).map fun v => (v.item noMultiplicity, length)) ++ [.endTuple]) := by
      simp [TupleEntries.calls]
    refine ⟨fun _ => short, .row subgraphLabel 10 (by decide) (((B.multiplicities sub).map
      Value.float).map fun v => (v.item noMultiplicity, length)) .nil, ?_,
      ⟨⟨rowReadable _ _ _, trivial⟩, ?_⟩, ?_⟩
    · rw [Tuple.write, Tuple.calls, entries]
      change runCalls ((.startTuple subgraphLabel 10 :: (itemCalls _ ++ [.endTuple])) ++
        [.endTuple]) ((GoblinExport.create externalPrecision).openTuple [] solutionsHeader.chars
          0) = _
      rw [runCalls_append, calls, ← saved]
      exact bind_pure F1.endTuple
    · rw [TupleEntries.depth, rowDepth, TupleEntries.depth]
      split <;> omega
    · rw [Tuple.events, Tuple.calls, entries, map_cons, map_append, rowCalls_events,
        written, if_neg isVoid]
      rfl

/-- **Scanning the registers**: the label is scanned, and the tuple of the subgraph follows. -/
theorem writeRegisters_reproduces (clears : Bool) (buffer : List Char) (length : ℕ) :
    ∃ F', (GoblinImport.create E.close clears buffer length).scan none =
        .ok (solutionsHeader.chars, F') ∧
      ∃ d, F'.Reproduces d (subgraphEvents externalPrecision (B.written sub) ++ [.closed]) := by
  obtain ⟨-, entries, calls, readable, events⟩ := writeRegisters_calls saved
  exact nest_reproduces calls readable events clears buffer length

end

theorem writeRegisters_ok (CT : NumberFormat) (short : ¬ B.VoidSubgraph sub →
      ∀ q ∈ B.multiplicities sub, (fixedText externalPrecision q).length ≤ 24) :
    ∃ E, B.writeRegisters CT sub (GoblinExport.create externalPrecision) = .ok E := by
  have opened : (GoblinExport.create externalPrecision).startTuple (.header solutionsHeader) 0 =
      .ok ((GoblinExport.create externalPrecision).openTuple [] solutionsHeader.chars 0) := rfl
  obtain ⟨F1, inside, level⟩ : ∃ F1, B.writeSubgraph CT sub
      ((GoblinExport.create externalPrecision).openTuple [] solutionsHeader.chars 0) = .ok F1 ∧
      F1.currentLevel = 1 := by
    unfold writeSubgraph
    split
    · exact ⟨_, rfl, rfl⟩
    · rename_i present
      exact GoblinExport.writeMultiplicities_ok CT (short present) rfl rfl
  have outer : F1.currentLevel ≠ 0 := by
    rw [level]
    decide
  obtain ⟨E, closed⟩ : ∃ E, F1.endTuple = .ok E := ⟨_, if_neg outer⟩
  refine ⟨E, ?_⟩
  rw [writeRegisters_eq, opened]
  simp only [bind, Except.bind, inside]
  exact closed

end ArcBounds

/-! ## Reading the tuple -/

namespace LoadM

variable {P X : Type} {s s' : Loader P X} {O : GraphObject X}

theorem readFloats_shut (k fuel : ℕ) (tuple : List Value) (length : ℕ) (tail : s.F.tail = true) :
    readFloats k (fuel + 1) tuple length s = .ok (tuple, length) s := by
  rw [readFloats, run_bind_get, if_pos tail]
  rfl

theorem readFloats_settles (k : ℕ) (tuple : List Value) (row : Row s texts later)
    (visible : ∀ text ∈ texts, text ≠ []) (room : tuple.length + texts.length ≤ k) :
    Settles (texts.length + 1) (fun fuel => readFloats k fuel tuple tuple.length) s
      (RowRead s (tuple ++ texts.map BaseType.floatValue.read) (tuple.length + texts.length)
        later) := by
  induction texts generalizing s tuple with
  | nil =>
    intro fuel
    rw [map_nil, append_nil]
    cases row with
    | shut tail follows =>
      cases fuel with
      | zero => exact .inr ⟨by simp, s, rfl⟩
      | succ fuel =>
        exact .inl ⟨s, readFloats_shut k fuel tuple tuple.length tail, rfl, rfl, _, follows⟩
    | «open» tail follows =>
      cases fuel with
      | zero => exact .inr ⟨by simp, s, rfl⟩
      | succ fuel =>
        obtain ⟨F', next, tail'⟩ := follows.closed
        obtain ⟨s1, scanned, rfl, ahead⟩ := scanInside_next next
        have step : readFloats k (fuel + 1) tuple tuple.length s =
            readFloats k fuel tuple tuple.length s1 := by
          rw [readFloats, run_bind_get, if_neg (by simp [tail]), run_bind_ok scanned, if_pos rfl]
        simp only [step]
        cases fuel with
        | zero => exact .inr ⟨by simp, s1, rfl⟩
        | succ fuel =>
          exact .inl ⟨s1, readFloats_shut k fuel tuple tuple.length tail', ahead⟩
  | cons text texts ih =>
    intro fuel
    cases row with
    | «open» tail follows =>
      cases fuel with
      | zero => exact .inr ⟨by simp, s, rfl⟩
      | succ fuel =>
        rw [length_cons] at room
        obtain ⟨F', rest, next, ends⟩ := follows.item
        obtain ⟨s1, scanned, rfl, ahead⟩ := scanInside_next next
        have behind : Row s1 texts later := Row.of_opened ahead ends
        have longer : (tuple ++ [BaseType.floatValue.read text]).length = tuple.length + 1 := by
          simp
        have step : readFloats k (fuel + 1) tuple tuple.length s =
            readFloats k fuel (tuple ++ [BaseType.floatValue.read text])
              (tuple ++ [BaseType.floatValue.read text]).length s1 := by
          rw [readFloats, run_bind_get, if_neg (by simp [tail]), run_bind_ok scanned,
            if_neg (visible text mem_cons_self), if_pos (.inl (by omega)), longer]
        simp only [step]
        have others := ih (tuple ++ [BaseType.floatValue.read text]) behind
          (fun text' mem => visible text' (mem_cons_of_mem text mem))
          (by omega) fuel
        rcases others with ⟨s2, res, ahead'⟩ | ⟨few, exceeded⟩
        · refine .inl ⟨s2, res.trans ?_, ahead.trans ahead'⟩
          rw [longer, append_assoc, singleton_append, map_cons, length_cons,
            Nat.add_assoc, Nat.add_comm 1]
        · exact .inr ⟨by rw [length_cons]; omega, exceeded⟩

theorem getTFloatTuple_settles (row : Row s texts later) (visible : ∀ text ∈ texts, text ≠ []) :
    Settles (texts.length + 1) (fun fuel => getTFloatTuple texts.length fuel) s
      (RowRead s (texts.map BaseType.floatValue.read) texts.length later) := by
  intro fuel
  rcases readFloats_settles texts.length [] row visible (by simp) fuel with
    ⟨s1, res, ahead⟩ | ⟨few, s1, exceeded⟩
  · left
    have first : readFloats texts.length fuel [] 0 s =
        .ok (texts.map BaseType.floatValue.read, texts.length) s1 := by
      simpa using res
    obtain ⟨d, follows⟩ := ahead.follows
    refine ⟨{ s1 with F := { s1.F with length := texts.length } }, ?_, ahead.object, ahead.pools,
      d, follows.setLength texts.length⟩
    simp only [getTFloatTuple, run_bind_ok first]
    rw [if_neg (by simp)]
    rfl
  · right
    have first : readFloats texts.length fuel [] 0 s = .error .outOfFuel s1 := exceeded
    exact ⟨few, s1, by simp only [getTFloatTuple, run_bind_error first]⟩

/-- The result of handing the numbers over to the object. -/
def SubgraphResult {α : Type} (O : GraphObject X) (array : List Value) (token : α)
    (later : List Event) (s : Loader P X) :
    EStateM.Result LoadError (Loader P X) α → Prop := fun r =>
  match O.setSubgraph s.object array array.length with
  | .ok x => ∃ s', r = .ok token s' ∧ s'.object = x ∧ ∃ d, s'.F.Reproduces d later
  | .error _ => ∃ e s', r = .error e s'

/-- The entry of the table is found, and it is special data. -/
theorem lookup_subgraph : ∃ entry, entry.arrayType = .special ∧
    graphSchema.lookup .registers "subgraph".toList = some (2, entry) := by
  let token : Fin (graphSchema.table .registers).length := ⟨2, by decide⟩
  have primary : (graphSchema.table .registers)[token].primaryIndex = token := by decide +kernel
  exact ⟨_, by decide +kernel, lookup_label (labelled_graphSchema .registers) primary⟩

theorem readSubgraphTuple_settles {s : Loader GraphPool X} (row : Row s texts later)
    (visible : ∀ text ∈ texts, text ≠ []) (count : O.m s.object = texts.length) :
    Settles (texts.length + 2) (fun fuel => readLabelled graphSchema O fuel .registers
      "subgraph".toList) s (SubgraphResult O (texts.map BaseType.floatValue.read) 2 later s) := by
  intro fuel
  obtain ⟨entry, special, found⟩ := lookup_subgraph
  have enter : (readLabelled graphSchema O fuel .registers "subgraph".toList :
      LoadM GraphPool X ℕ) = (do
        readSpecial graphSchema O fuel .registers 2
        return 2) := by
    simp only [readLabelled, found, if_pos special]
  cases fuel with
  | zero =>
    refine .inr ⟨by omega, s, ?_⟩
    have exceeded : readSpecial graphSchema O 0 .registers 2 s = .error .outOfFuel s := by
      rw [readSpecial]
      rfl
    simp only [enter, run_bind_error exceeded]
  | succ fuel =>
    have read : (readSpecial graphSchema O (fuel + 1) .registers 2 : LoadM GraphPool X Unit) s = (do
          let res ← getTFloatTuple texts.length fuel
          let s ← get
          accept (O.setSubgraph s.object res.1 res.2) : LoadM GraphPool X Unit) s := by
      rw [readSpecial, ← count]
      rfl
    rcases getTFloatTuple_settles row visible fuel with ⟨s1, res, ahead⟩ | ⟨few, s1, exceeded⟩
    · left
      rw [run_bind_ok res, run_bind_get, ahead.object] at read
      unfold SubgraphResult
      rw [length_map]
      cases accepted : O.setSubgraph s.object (texts.map BaseType.floatValue.read) texts.length with
      | error e =>
        simp only [accepted, accept] at read
        refine ⟨.refused e, s1, ?_⟩
        simp only [enter, run_bind_error read]
      | ok x =>
        simp only [accepted, accept] at read
        refine ⟨{ s1 with object := x }, ?_, rfl, ahead.follows⟩
        simp only [enter, run_bind_ok read]
        rfl
    · right
      refine ⟨by omega, s1, ?_⟩
      rw [run_bind_error exceeded] at read
      simp only [enter, run_bind_error read]

/-- The result of reading the registers. -/
def RegistersResult (O : GraphObject X) (externalPrecision : ℕ) (array : Option (List ℚ))
    (s : Loader GraphPool X) : EStateM.Result LoadError (Loader GraphPool X) Unit → Prop := fun r =>
  match array with
  | none => ∃ s', r = .ok () s' ∧ s'.object = s.object
  | some numbers =>
    match O.setSubgraph s.object
      ((multiplicityTexts externalPrecision numbers).map BaseType.floatValue.read)
        numbers.length with
    | .ok x => ∃ s', r = .ok () s' ∧ s'.object = x
    | .error _ => ∃ e s', r = .error e s'

/-- **Reading the registers**: the numbers are handed over to the object, if there are any. -/
theorem readRegisters_settles {s : Loader GraphPool X} {externalPrecision : ℕ}
    {array : Option (List ℚ)}
    (count : ∀ numbers, array = some numbers → O.m s.object = numbers.length)
    (follows : ∃ d, s.F.Reproduces d (subgraphEvents externalPrecision array ++ [.closed])) :
    ∃ steps, Settles steps (fun fuel => readPool graphSchema O fuel .registers) s
      (RegistersResult O externalPrecision array s) := by
  obtain ⟨d, follows⟩ := follows
  cases array with
  | none =>
    refine ⟨1, fun fuel => ?_⟩
    rcases readPool_closed follows fuel with ⟨s1, res, ahead⟩ | exceeded
    · exact .inl ⟨s1, res, ahead.object⟩
    · exact .inr exceeded
  | some numbers =>
    have size : (multiplicityTexts externalPrecision numbers).length = numbers.length := by
      simp [multiplicityTexts]
    have visible : ∀ text ∈ multiplicityTexts externalPrecision numbers, text ≠ [] := by
      intro text mem
      obtain ⟨v, -, rfl⟩ := mem_map.mp mem
      exact written_ne_nil externalPrecision _ v
    refine ⟨numbers.length + 4, fun fuel => ?_⟩
    cases fuel with
    | zero => exact .inr ⟨by omega, s, readPool_zero⟩
    | succ fuel =>
      cases fuel with
      | zero => exact .inr ⟨by omega, s, readPool_error (by rw [readAttribute]; rfl)⟩
      | succ fuel =>
        rw [subgraphEvents, rowEvents, cons_append, append_assoc] at follows
        obtain ⟨F', later, next, ends⟩ := follows.opened
        obtain ⟨s1, scanned, rfl, ahead⟩ := scanLabel_next next
        have start : readAttribute graphSchema O (fuel + 1) .registers s =
            (readLabelled graphSchema O fuel .registers "subgraph".toList : LoadM GraphPool X ℕ)
              s1 := by
          rw [readAttribute_succ, run_bind_ok scanned, if_neg (by decide)]
        have count' : O.m s1.object = (multiplicityTexts externalPrecision numbers).length := by
          rw [ahead.object, size]
          exact count numbers rfl
        rcases readSubgraphTuple_settles (Row.of_opened ahead ends) visible count' fuel with
          res | ⟨few, s2, exceeded⟩
        · unfold SubgraphResult at res
          rw [length_map, size, ahead.object] at res
          cases accepted : O.setSubgraph s.object
              ((multiplicityTexts externalPrecision numbers).map BaseType.floatValue.read)
              numbers.length with
          | error e =>
            rw [accepted] at res
            obtain ⟨e', s2, failed⟩ := res
            left
            simp only [RegistersResult, accepted]
            exact ⟨e', s2, readPool_error (start.trans failed)⟩
          | ok x =>
            rw [accepted] at res
            obtain ⟨s2, done, object, d', behind⟩ := res
            let token : Fin (graphSchema.table .registers).length := ⟨2, by decide⟩
            have first : readAttribute graphSchema O (fuel + 1) .registers s = .ok token.val s2 :=
              start.trans done
            have step : readPool graphSchema O (fuel + 2) .registers s =
                readPool graphSchema O (fuel + 1) .registers s2 := readPool_next first
            simp only [step]
            rcases readPool_closed behind (fuel + 1) with ⟨s3, last, ahead'⟩ | ⟨few, exceeded⟩
            · left
              simp only [RegistersResult, accepted]
              exact ⟨s3, last, ahead'.object.trans object⟩
            · exact .inr ⟨by omega, exceeded⟩
        · exact .inr ⟨by omega, s2, readPool_error (start.trans exceeded)⟩

end LoadM

/-! ## Setting the multiplicities -/

namespace ArcBounds

/-- A class whose states hold multiplicities, and where `SetSub` stores an entry. -/
structure Stores {σ : Type} (B : ArcBounds) (I : SubClass σ) (entry : ℕ → ℚ → ℚ)
    (Holds : Option σ → (ℕ → ℚ) → Prop) : Prop where
  sub : ∀ {st f a}, Holds st f → a < B.mAct → I.sub (2 * a) st = .ok (f a)
  setSub : ∀ {st f a x}, Holds st f → a < B.mAct → B.lcap a ≤ |x| → |x| ≤ B.ucap a →
    ∃ st', I.serve (.setSub (2 * a) x) st = .ok st' ∧ Holds st' (update f a (entry a x))

section Classes

variable {B : ArcBounds} {f : ℕ → ℚ} {a : ℕ} {x : ℚ} {d : Option (HashTable ℚ)} {t : HashTable ℚ}

/-- The sparse representation stores the multiplicity. -/
theorem sparse_setSub (memory : ℕ → ℚ) (holds : ∀ a < B.mAct, Sparse.sub B (2 * a) st = .ok (f a))
    (low : a < B.mAct) (lower : B.lcap a ≤ |x|) (upper : |x| ≤ B.ucap a) :
    ∃ g, Sparse.setSub B memory (2 * a) x st = .ok g ∧ ∀ b < B.mAct, g b = update f a x b := by
  have legal : ¬ 2 * B.mAct ≤ 2 * a := by omega
  have half : ∀ b, 2 * b / 2 = b := fun b => Nat.mul_div_cancel_left b (by decide)
  have inRange : ¬ B.outOfRange (2 * a) (f a) x := by
    rintro (⟨-, below⟩ | ⟨-, above⟩)
    · rw [half] at below
      exact absurd lower (not_le.mpr below)
    · rw [half] at above
      exact absurd upper (not_le.mpr above)
  obtain ⟨h, allocated, values⟩ : ∃ h, Sparse.allocated B memory st = .ok h ∧
      ∀ b < B.mAct, h b = f b := by
    cases st with
    | none =>
      refine ⟨_, rfl, fun b bound => ?_⟩
      have read := holds b bound
      rw [Sparse.sub, if_neg (by omega), half] at read
      rw [if_pos bound]
      exact Except.ok.inj read
    | some h =>
      refine ⟨h, rfl, fun b bound => ?_⟩
      have read := holds b bound
      rw [Sparse.sub, if_neg (by omega), half] at read
      exact Except.ok.inj read
  refine ⟨update h (2 * a / 2) x, ?_, fun b bound => ?_⟩
  · rw [Sparse.setSub, if_neg legal, holds a low]
    simp only [bind, Except.bind, pure, Except.pure, if_neg inRange, allocated]
  · rw [half]
    by_cases eq : b = a
    · rw [eq, update_self, update_self]
    · rw [update_of_ne eq, update_of_ne eq, values b bound]

theorem sparse_stores (B : ArcBounds) (memory : ℕ → ℚ) : B.Stores (B.sparse memory) (fun _ x => x)
      fun st f => ∀ a < B.mAct, Sparse.sub B (2 * a) st = .ok (f a) := by
  refine ⟨fun holds low => holds _ low, fun holds low lower upper => ?_⟩
  obtain ⟨g, res, values⟩ := sparse_setSub memory holds low lower upper
  refine ⟨some g, ?_, fun b bound => ?_⟩
  · change some <$> Sparse.setSub B memory _ _ _ = _
    rw [res]
    rfl
  · rw [Sparse.sub, if_neg (by omega), Nat.mul_div_cancel_left b (by decide), values b bound]

theorem dense_stores (B : ArcBounds) (index : ℕ → ℕ) (key : ℕ → ℚ) :
    B.Stores (B.dense index key) (fun a x => B.lcap a + x)
      fun d f => ∃ st, B.Denotes d st ∧ ∀ a < B.mAct, Sparse.sub B (2 * a) st = .ok (f a) := by
  constructor
  · rintro d f a ⟨st, eq, holds⟩ low
    exact (eq.sub_eq (2 * a)).trans (holds a low)
  · rintro d f a x ⟨st, eq, holds⟩ low lower upper
    have half : 2 * a / 2 = a := Nat.mul_div_cancel_left a (by decide)
    obtain ⟨g, res, values⟩ := sparse_setSub (fun _ => 0) holds low lower upper
    obtain ⟨-, -, t, stored, table⟩ := eq.setSub index key res
    rw [half] at table
    refine ⟨some t, ?_, some (update g a (B.lcap a + x)), fun _ => table, fun b bound => ?_⟩
    · change some <$> Dense.setSub B index key (2 * a) x d = _
      rw [stored]
      rfl
    · rw [Sparse.sub, if_neg (by omega), Nat.mul_div_cancel_left b (by decide)]
      by_cases here : b = a
      · rw [here, update_self, update_self]
      · rw [update_of_ne here, update_of_ne here, values b bound, update_of_ne here]

theorem sparse_setSub_of_dense (memory : ℕ → ℚ) (eq : B.Denotes d st)
    (res : Dense.setSub B index key a x d = .ok t) :
    ∃ g, Sparse.setSub B memory a x st = .ok g := by
  by_cases legal : 2 * B.mAct ≤ a
  · rw [Dense.setSub, if_pos legal] at res
    cases res
  obtain ⟨-, f, -, allocated, -, read⟩ := eq.allocated index key memory (not_le.mp legal)
  rw [Dense.setSub, if_neg legal, eq.sub_eq a, read] at res
  rw [Sparse.setSub, if_neg legal, read]
  by_cases checked : B.outOfRange a (f (a / 2)) x
  · simp only [bind, Except.bind, if_pos checked] at res
    cases res
  · simp only [bind, Except.bind, pure, Except.pure, if_neg checked, allocated]
    exact ⟨_, rfl⟩

theorem sparse_setSubRelative_of_dense (memory : ℕ → ℚ) (eq : B.Denotes d st)
    (res : Dense.setSubRelative B index key a x d = .ok t) :
    ∃ g, Sparse.setSubRelative B memory a x st = .ok g := by
  by_cases legal : 2 * B.mAct ≤ a
  · rw [Dense.setSubRelative, if_pos legal] at res
    cases res
  obtain ⟨-, f, -, allocated, -, read⟩ := eq.allocated index key memory (not_le.mp legal)
  rw [Dense.setSubRelative, if_neg legal, eq.sub_eq a, read] at res
  rw [Sparse.setSubRelative, if_neg legal, read]
  by_cases checked : B.outOfRange a (f (a / 2)) (f (a / 2) + x)
  · simp only [bind, Except.bind, if_pos checked] at res
    cases res
  · simp only [bind, Except.bind, pure, Except.pure, if_neg checked, allocated]
    exact ⟨_, rfl⟩

theorem denotes_serve {d' : Option (HashTable ℚ)} {call : SubCall} (eq : B.Denotes d st)
    (res : Dense.serve B index key call d = .ok d') : ∃ st', B.Denotes d' st' := by
  cases call with
  | setSub a x =>
    cases stored : Dense.setSub B index key a x d with
    | error e =>
      rw [Dense.serve, stored] at res
      cases res
    | ok t =>
      obtain ⟨g, sparse⟩ := sparse_setSub_of_dense (fun _ => 0) eq stored
      obtain ⟨-, -, t', stored', table⟩ := eq.setSub index key sparse
      rw [Dense.serve, stored'] at res
      cases res
      exact ⟨some _, fun _ => table⟩
  | setSubRelative a lambda =>
    cases stored : Dense.setSubRelative B index key a lambda d with
    | error e =>
      rw [Dense.serve, stored] at res
      cases res
    | ok t =>
      obtain ⟨g, sparse⟩ := sparse_setSubRelative_of_dense (fun _ => 0) eq stored
      obtain ⟨-, -, t', stored', table⟩ := eq.setSubRelative index key sparse
      rw [Dense.serve, stored'] at res
      cases res
      exact ⟨some g, fun _ => table⟩
  | sub a =>
    rw [Dense.serve] at res
    cases read : Dense.sub B a d with
    | error e =>
      rw [read] at res
      cases res
    | ok y =>
      rw [read] at res
      cases res
      exact ⟨st, eq⟩
  | newSubgraph =>
    cases d with
    | some t => cases res
    | none =>
      cases res
      exact ⟨some _, fun some_arc => tableOf_new index key (fun _ => 0) some_arc⟩
  | releaseSubgraph =>
    cases res
    exact ⟨none, trivial⟩

theorem denotes_run {calls : List SubCall} (run : (B.dense index key).run calls = .ok d) :
    ∃ st, B.Denotes d st := by
  induction calls using reverseRecOn generalizing d with
  | nil =>
    cases run
    exact ⟨none, trivial⟩
  | append_singleton calls call ih =>
    obtain ⟨d0, before⟩ := SubClass.run_prefix run (prefix_append calls [call])
    obtain ⟨st, eq⟩ := ih before
    rw [SubClass.run_append, before] at run
    exact denotes_serve eq run

end Classes

/-! ## The round trip -/

section RoundTrip

variable {B : ArcBounds} {σ : Type} {I : SubClass σ} {entry : ℕ → ℚ → ℚ}
  {Holds : Option σ → (ℕ → ℚ) → Prop} {st0 : Option σ} {f0 sub : ℕ → ℚ} {externalPrecision : ℕ}

theorem texts_get (exact : ∀ a < B.mAct, ∃ k : ℤ, sub (2 * a) = k / 10 ^ externalPrecision)
    (short : ∀ q ∈ B.multiplicities sub, (fixedText externalPrecision q).length ≤ 24) {a : ℕ}
    (low : a < B.mAct) : ((multiplicityTexts externalPrecision (B.multiplicities sub)).map
      BaseType.floatValue.read)[a]? = some (.float (sub (2 * a))) := by
  have mem : sub (2 * a) ∈ B.multiplicities sub :=
    mem_map_of_mem (mem_range.mpr low)
  have finite : |sub (2 * a)| ≠ infFloat := by
    intro inf
    have long := length_fixedText_infinite inf externalPrecision
    have fits := short _ mem
    omega
  have text : (Value.float (sub (2 * a))).written externalPrecision noMultiplicity =
      fixedText externalPrecision (sub (2 * a)) := by
    simp [Value.written, Value.item, noMultiplicity, Item.text, finite]
  obtain ⟨k, val⟩ := exact a low
  have star := star_ne_number (isNumber_fixedText externalPrecision (sub (2 * a)))
  have read : BaseType.floatValue.read (fixedText externalPrecision (sub (2 * a))) =
      .float (sub (2 * a)) := by
    rw [BaseType.read, if_neg star, val, atof_fixedText]
  simp [multiplicityTexts, multiplicities, low, text, read]

theorem readSubgraph_spec (stores : B.Stores I entry Holds) (holds : Holds st0 f0)
    (bounds : ∀ a < B.mAct, B.lcap a ≤ |sub (2 * a)| ∧ |sub (2 * a)| ≤ B.ucap a)
    {tmpSub : List Value} (values : ∀ a < B.mAct, tmpSub[a]? = some (.float (sub (2 * a)))) :
    ∃ st, B.readSubgraph I tmpSub B.mAct st0 = .ok st ∧
      Holds st fun a => if a < B.mAct then entry a (sub (2 * a)) else f0 a := by
  -- after `k` rounds the multiplicities of the first `k` edges are stored
  have rounds : ∀ k ≤ B.mAct, ∃ st,
      (List.range k).foldlM (fun st a => B.readMultiplicity I tmpSub B.mAct a st) st0 = .ok st ∧
        Holds st fun a => if a < k then entry a (sub (2 * a)) else f0 a := by
    intro k
    induction k with
    | zero => exact fun _ => ⟨st0, rfl, by simpa using holds⟩
    | succ k ih =>
      intro bound
      obtain ⟨st, before, stored⟩ := ih (by omega)
      obtain ⟨lower, upper⟩ := bounds k (by omega)
      have half : 2 * k / 2 = k := Nat.mul_div_cancel_left k (by decide)
      have position : (if B.mAct = 1 then 0 else k) = k := by
        split <;> omega
      obtain ⟨st', set, stored'⟩ := stores.setSub stored (by omega) lower upper
      have round : B.readMultiplicity I tmpSub B.mAct k st = .ok st' := by
        rw [readMultiplicity, position, values k (by omega)]
        dsimp only
        rw [half, if_neg (by rintro (below | above) <;> linarith), set]
      refine ⟨st', ?_, ?_⟩
      · rw [range_succ, foldlM_append, before]
        simp only [bind, Except.bind, foldlM_cons, foldlM_nil, round]
        rfl
      · convert stored' using 1
        funext a
        by_cases here : a = k
        · subst here
          rw [if_pos (by omega), update_self]
        · rw [update_of_ne here]
          by_cases before : a < k
          · rw [if_pos before, if_pos (by omega)]
          · rw [if_neg before, if_neg (by omega)]
  exact rounds B.mAct le_rfl

/-- The condition under which the subgraph is restored: it is dropped as the default one, or its
numbers fit into the buffer. -/
def Kept (B : ArcBounds) (externalPrecision : ℕ) (sub : ℕ → ℚ) : Prop :=
  if B.VoidSubgraph sub then ∀ a < B.mAct, sub (2 * a) = B.lcap (2 * a / 2)
  else ∀ a < B.mAct, (fixedText externalPrecision (sub (2 * a))).length ≤ 24

theorem loadRegisters_settles {CT : NumberFormat} {E : GoblinExport} (O : GraphObject (Option σ))
    (saved : B.writeRegisters CT sub (GoblinExport.create externalPrecision) = .ok E)
    (st0 : Option σ) (clears : Bool) (buffer : List Char) (length : ℕ) :
    ∃ steps s1, s1.object = st0 ∧ LoadM.Settles steps
      (fun fuel => LoadM.loadPool graphSchema (B.subgraphObject I O) fuel .registers)
      (TypedPool.start E st0 clears buffer length)
      (LoadM.RegistersResult (B.subgraphObject I O) externalPrecision (B.written sub) s1) := by
  obtain ⟨F', scanned, follows⟩ := writeRegisters_reproduces saved clears buffer length
  obtain ⟨s1, label, -, ahead⟩ := LoadM.scanLabel_next
    (s := TypedPool.start (P := GraphPool) E st0 clears buffer length) ⟨scanned, follows⟩
  have count : ∀ numbers, B.written sub = some numbers →
      (B.subgraphObject I O).m s1.object = numbers.length := by
    intro numbers eq
    rw [written] at eq
    split at eq
    · cases eq
    · cases eq
      simp [multiplicities, subgraphObject]
  obtain ⟨steps, settles⟩ := LoadM.readRegisters_settles count ahead.follows
  refine ⟨steps, s1, ahead.object, fun fuel => ?_⟩
  have run : LoadM.loadPool graphSchema (B.subgraphObject I O) fuel .registers
      (TypedPool.start E st0 clears buffer length) =
        LoadM.readPool graphSchema (B.subgraphObject I O) fuel .registers s1 := run_bind_ok label
  simp only [run]
  exact settles fuel

section

variable (stores : B.Stores I entry Holds) (holds : Holds st0 f0)
include stores holds

/-- What the loop returns in a graph with the default subgraph, and what `Sub` returns then. -/
theorem setSubgraph_spec
    (bounds : ∀ a < B.mAct, B.lcap a ≤ |sub (2 * a)| ∧ |sub (2 * a)| ≤ B.ucap a)
    (exact : ∀ a < B.mAct, ∃ k : ℤ, sub (2 * a) = k / 10 ^ externalPrecision)
    (short : ∀ q ∈ B.multiplicities sub, (fixedText externalPrecision q).length ≤ 24)
    (O : GraphObject (Option σ)) : ∃ st, (B.subgraphObject I O).setSubgraph st0
        ((multiplicityTexts externalPrecision (B.multiplicities sub)).map BaseType.floatValue.read)
        (B.multiplicities sub).length = .ok st ∧
      ∀ a < B.mAct, I.sub (2 * a) st = .ok (entry a (sub (2 * a))) := by
  obtain ⟨st, read, stored⟩ := readSubgraph_spec stores holds bounds
    fun a low => texts_get exact short low
  refine ⟨st, ?_, fun a low => ?_⟩
  · have count : (B.multiplicities sub).length = B.mAct := by simp [multiplicities]
    rw [count]
    exact read
  · rw [stores.sub stored low, if_pos low]

theorem roundTrip_iff_of_stores
    (default : ∀ a < B.mAct, f0 a = B.lcap (2 * a / 2))
    (bounds : ∀ a < B.mAct, B.lcap a ≤ |sub (2 * a)| ∧ |sub (2 * a)| ≤ B.ucap a)
    (exact : ∀ a < B.mAct, ∃ k : ℤ, sub (2 * a) = k / 10 ^ externalPrecision)
    (O : GraphObject (Option σ)) (CT : NumberFormat) (clears : Bool) (buffer : List Char)
    (length : ℕ) : B.SubgraphRoundTrip I O CT externalPrecision sub st0 clears buffer length ↔
      B.Kept externalPrecision sub ∧ (¬ B.VoidSubgraph sub →
        ∀ a < B.mAct, entry a (sub (2 * a)) = sub (2 * a)) := by
  constructor
  · rintro ⟨⟨E, saved, fuel, s', run, eq⟩, omitted⟩
    by_cases isVoid : B.VoidSubgraph sub
    · refine ⟨?_, fun other => absurd isVoid other⟩
      rw [Kept, if_pos isVoid]
      exact omitted isVoid
    have short := (writeRegisters_calls saved).1 isVoid
    refine ⟨?_, fun _ a low => ?_⟩
    · rw [Kept, if_neg isVoid]
      exact fun a low => short _ (mem_map_of_mem (mem_range.mpr low))
    · obtain ⟨st, read, values⟩ := setSubgraph_spec stores holds bounds exact short O
      obtain ⟨steps, s1, object, settles⟩ :=
        loadRegisters_settles (I := I) O saved st0 clears buffer length
      rcases settles fuel with outcome | ⟨-, s2, exceeded⟩
      · rw [written, if_neg isVoid] at outcome
        simp only [LoadM.RegistersResult, object, read] at outcome
        obtain ⟨s2, res, reached⟩ := outcome
        have both := run.symm.trans res
        cases both
        have here := eq a low
        rw [reached, values a low] at here
        exact Except.ok.inj here
      · have both := run.symm.trans exceeded
        cases both
  · rintro ⟨kept, stored⟩
    have short : ¬ B.VoidSubgraph sub →
        ∀ q ∈ B.multiplicities sub, (fixedText externalPrecision q).length ≤ 24 := by
      intro present q mem
      obtain ⟨a, low, rfl⟩ := mem_map.mp mem
      rw [Kept, if_neg present] at kept
      exact kept a (mem_range.mp low)
    have omitted : B.VoidSubgraph sub → ∀ a < B.mAct, sub (2 * a) = B.lcap (2 * a / 2) := by
      intro isVoid
      rw [Kept, if_pos isVoid] at kept
      exact kept
    obtain ⟨E, saved⟩ := writeRegisters_ok CT short
    obtain ⟨steps, s1, object, settles⟩ :=
      loadRegisters_settles (I := I) O saved st0 clears buffer length
    refine ⟨⟨E, saved, steps + 1, ?_⟩, omitted⟩
    rcases settles (steps + 1) with outcome | ⟨few, -⟩
    · by_cases isVoid : B.VoidSubgraph sub
      · rw [written, if_pos isVoid] at outcome
        obtain ⟨s', res, reached⟩ := outcome
        refine ⟨s', res, fun a low => ?_⟩
        rw [reached, object, stores.sub holds low, default a low, omitted isVoid a low]
      · obtain ⟨st, read, values⟩ :=
          setSubgraph_spec stores holds bounds exact (short isVoid) O
        rw [written, if_neg isVoid] at outcome
        simp only [LoadM.RegistersResult, object, read] at outcome
        obtain ⟨s', res, reached⟩ := outcome
        refine ⟨s', res, fun a low => ?_⟩
        rw [reached, values a low, stored isVoid a low]
    · omega

end

end RoundTrip

/-- **The subgraph round trip.** A graph with multiplicities between the bounds is written, and read
back into one with the default subgraph. With a sparse representation this restores all
multiplicities exactly if the subgraph is dropped only as the default one and the numbers
fit into the buffer otherwise. With a dense representation the lower bounds must be zero in
addition, unless the subgraph is dropped. -/
theorem subgraph_roundTrip_iff (B : ArcBounds) {sub : ℕ → ℚ} {externalPrecision : ℕ}
    (bounds : ∀ a < B.mAct, B.lcap a ≤ |sub (2 * a)| ∧ |sub (2 * a)| ≤ B.ucap a)
    (exact : ∀ a < B.mAct, ∃ k : ℤ, sub (2 * a) = k / 10 ^ externalPrecision)
    (CT : NumberFormat) (clears : Bool) (buffer : List Char) (length : ℕ) :
    (∀ (memory : ℕ → ℚ) (O : GraphObject (Option (ℕ → ℚ))) (st₀ : Option (ℕ → ℚ)),
      (∀ a < B.mAct, (B.sparse memory).sub (2 * a) st₀ = .ok (B.lcap (2 * a / 2))) →
      (B.SubgraphRoundTrip (B.sparse memory) O CT externalPrecision sub st₀ clears buffer length ↔
        B.Kept externalPrecision sub)) ∧
    ∀ (index : ℕ → ℕ) (key : ℕ → ℚ) (O : GraphObject (Option (HashTable ℚ)))
      (d0 : Option (HashTable ℚ)) (calls : List SubCall), (B.dense index key).run calls = .ok d0 →
      (∀ a < B.mAct, (B.dense index key).sub (2 * a) d0 = .ok (B.lcap (2 * a / 2))) →
      (B.SubgraphRoundTrip (B.dense index key) O CT externalPrecision sub d0 clears buffer length ↔
        B.Kept externalPrecision sub ∧ (¬ B.VoidSubgraph sub → ∀ a < B.mAct, B.lcap a = 0)) := by
  constructor
  · intro memory O st₀ default
    rw [roundTrip_iff_of_stores (B.sparse_stores memory) default
      (fun _ _ => rfl) bounds exact O CT clears buffer length]
    exact and_iff_left fun _ _ _ => rfl
  · intro index key O d0 calls run default
    obtain ⟨st, same⟩ := denotes_run run
    have sparse : ∀ a < B.mAct, Sparse.sub B (2 * a) st = .ok (B.lcap (2 * a / 2)) := by
      intro a low
      rw [← same.sub_eq]
      exact default a low
    rw [roundTrip_iff_of_stores (B.dense_stores index key) ⟨st, same, sparse⟩ (fun _ _ => rfl)
      bounds exact O CT clears buffer length]
    simp only [add_eq_right]

/-- Two nodes and two parallel arcs, the first one with the lower bound two. -/
def firstBounded : ArcBounds where
  nMax := 2
  mAct := 2
  mMax := 2
  lcap := fun e => if e = 0 then 2 else 0
  ucap := fun _ => 3
  mAct_le := boundedArcs_arcs
  nodes := boundedArcs_nodes
  nonneg := by
    intro e _
    split_ifs <;> norm_num
  ordered := by
    intro e _
    split_ifs <;> norm_num

/-- The multiplicity three for the first arc, and one for the other. -/
def threeAndOne (a : ℕ) : ℚ := if a / 2 = 0 then 3 else 1

theorem forall_firstBounded {p : ℕ → Prop} (first : p 0) (second : p 1) :
    ∀ a < firstBounded.mAct, p a
  | 0, _ => first
  | 1, _ => second
  | a + 2, low => absurd low (not_lt.mpr (Nat.le_add_left 2 a))

/-- The multiplicities three and one are restored. -/
theorem subgraph_restored : firstBounded.mAct = 2 ∧
    ∀ (memory : ℕ → ℚ) (O : GraphObject (Option (ℕ → ℚ))) (CT : NumberFormat),
      firstBounded.SubgraphRoundTrip (firstBounded.sparse memory) O CT 2 threeAndOne none true []
        0 := by
  refine ⟨rfl, fun memory O CT => ?_⟩
  have bounds : ∀ a < firstBounded.mAct, firstBounded.lcap a ≤ |threeAndOne (2 * a)| ∧
      |threeAndOne (2 * a)| ≤ firstBounded.ucap a :=
    forall_firstBounded (by decide +kernel) (by decide +kernel)
  have exact : ∀ a < firstBounded.mAct, ∃ k : ℤ, threeAndOne (2 * a) = k / 10 ^ 2 :=
    forall_firstBounded ⟨300, by decide +kernel⟩ ⟨100, by decide +kernel⟩
  have kept : firstBounded.Kept 2 threeAndOne := by
    have present : ¬ firstBounded.VoidSubgraph threeAndOne := fun isVoid =>
      isVoid 0 (by decide) (by decide +kernel)
    rw [Kept, if_neg present]
    exact forall_firstBounded (by decide +kernel) (by decide +kernel)
  have default : ∀ a < firstBounded.mAct, (firstBounded.sparse memory).sub (2 * a) none =
      .ok (firstBounded.lcap (2 * a / 2)) := forall_firstBounded rfl rfl
  exact ((subgraph_roundTrip_iff firstBounded bounds exact CT true [] 0).1 memory O none
    default).2 kept

/-- The multiplicity two for the first arc, and one for the other. -/
def twoAndOne (a : ℕ) : ℚ := if a / 2 = 0 then 2 else 1

/-- The multiplicities two and one are dropped, as the second one is compared with the lower bound
of the first arc. The second one is zero after reading. -/
theorem subgraph_dropped : (∀ a < firstBounded.mAct, firstBounded.lcap a ≤ |twoAndOne (2 * a)| ∧
      |twoAndOne (2 * a)| ≤ firstBounded.ucap a) ∧
    twoAndOne 2 = 1 ∧ firstBounded.lcap (2 / 2) = 0 ∧ firstBounded.VoidSubgraph twoAndOne ∧
    ∀ (memory : ℕ → ℚ) (O : GraphObject (Option (ℕ → ℚ))) (CT : NumberFormat),
      ¬ firstBounded.SubgraphRoundTrip (firstBounded.sparse memory) O CT 2 twoAndOne none true []
        0 ∧
      ∀ E fuel s', firstBounded.writeRegisters CT twoAndOne (GoblinExport.create 2) = .ok E →
        LoadM.loadPool graphSchema (firstBounded.subgraphObject (firstBounded.sparse memory) O) fuel
          .registers (TypedPool.start E none true [] 0) = .ok () s' →
        (firstBounded.sparse memory).sub 2 s'.object = .ok 0 := by
  have isVoid : firstBounded.VoidSubgraph twoAndOne :=
    forall_firstBounded (by decide +kernel) (by decide +kernel)
  refine ⟨forall_firstBounded (by decide +kernel) (by decide +kernel), by decide +kernel,
    by decide +kernel, isVoid, fun memory O CT => ⟨fun restored => ?_, ?_⟩⟩
  · have same := restored.omitted isVoid 1 (by decide)
    revert same
    decide +kernel
  · intro E fuel s' saved run
    obtain ⟨steps, s1, object, settles⟩ := loadRegisters_settles
      (I := firstBounded.sparse memory) O saved none true [] 0
    rcases settles fuel with outcome | ⟨-, s2, exceeded⟩
    · rw [written, if_pos isVoid] at outcome
      obtain ⟨s2, result, reached⟩ := outcome
      have both := run.symm.trans result
      cases both
      rw [reached, object]
      rfl
    · have both := run.symm.trans exceeded
      cases both

end ArcBounds

end Goblin
