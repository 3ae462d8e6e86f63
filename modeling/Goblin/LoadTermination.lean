import Goblin.GraphReader

/-!
# Loading ends in front of the end of the file

While there is a word left in the file, every call of `Scan` makes the file shorter, and a call at
the end of the file ends the pools if the buffer is empty. So loading ends unless one of
the other loops calls `Scan` at the end of the file (`readAllData_ends`). It has to end without an
exception, as `ReadPool` and `ReadAttribute` are declared `throw()`: an exception that is raised
inside them, a parse error included, terminates the program.

Such a loop does not end: `Scan` delivers nothing new, and it is not an error
(`skipTuple_endless`). A file that stops behind an unknown label is an example.
-/

set_option autoImplicit false

namespace Goblin

open Goblin.Library

variable {c : Prop} {label : List Char} {fuel reqLength length k token : Nat}
  {array tuple : List Value}

namespace LoadM

variable {P X : Type} {α β : Type} {s s' : Loader P X} {p : P}

/-- The length of the text that is left. -/
def left (s : Loader P X) : Nat :=
  s.F.impFile.rest.length

/-! ## What no part of the loader does -/

/-- The text does not grow, and the flag is not taken back. -/
def Tame (x : LoadM P X α) : Prop :=
  ∀ s, left (finalState x s) ≤ left s ∧ (s.starved = true → (finalState x s).starved = true)

namespace Tame

theorem pure (a : α) : Tame (pure a : LoadM P X α) :=
  fun _ => ⟨le_rfl, id⟩

theorem throw (e : LoadError) : Tame (throw e : LoadM P X α) :=
  fun _ => ⟨le_rfl, id⟩

theorem get : Tame (get : LoadM P X (Loader P X)) :=
  fun _ => ⟨le_rfl, id⟩

theorem modify {f : Loader P X → Loader P X} (file : ∀ s, (f s).F.impFile = s.F.impFile)
    (flag : ∀ s, s.starved = true → (f s).starved = true) : Tame (modify f : LoadM P X PUnit) := by
  intro s
  refine ⟨?_, flag s⟩
  change (f s).F.impFile.rest.length ≤ _
  rw [file s]
  exact le_rfl

variable {x : LoadM P X α}

theorem bind {f : α → LoadM P X β} (first : Tame x) (next : ∀ a, Tame (f a)) : Tame (x >>= f) := by
  intro s
  have here := first s
  cases res : x s with
  | ok a s' =>
    have both : finalState (x >>= f) s = finalState (f a) s' := by
      simp only [finalState, run_bind_ok res]
    have eq : finalState x s = s' := by simp only [finalState, res]
    rw [eq] at here
    rw [both]
    exact ⟨(next a s').1.trans here.1, fun flag => (next a s').2 (here.2 flag)⟩
  | error e s' =>
    have both : finalState (x >>= f) s = finalState x s := by
      simp only [finalState, run_bind_error res, res]
    rw [both]
    exact here

theorem ite [Decidable c] {y : LoadM P X α} (yes : Tame x) (no : Tame y) :
    Tame (if c then x else y) := by
  split
  · exact yes
  · exact no

theorem scan : Tame (scan : LoadM P X (List Char)) := by
  intro s
  cases scanned : s.F.scan none with
  | error e =>
    simp only [finalState, LoadM.scan, scanned]
    exact ⟨le_rfl, id⟩
  | ok res =>
    obtain ⟨text, F⟩ := res
    simp only [finalState, LoadM.scan, scanned]
    exact ⟨GoblinImport.scan_length_le scanned, id⟩

theorem scanInside : Tame (scanInside : LoadM P X (List Char)) := by
  apply bind ?_ fun _ => scan
  apply modify
  · intro s
    rfl
  · intro s flag
    simp [flag]

theorem scanLabel : Tame (scanLabel : LoadM P X (List Char)) := by
  apply get.bind
  intro s
  apply scan.bind
  intro label
  apply bind ?_ fun _ => pure _
  apply modify
  · intro s
    rfl
  · intro s flag
    simp [flag]

theorem accept (res : Except Refusal X) : Tame (accept res : LoadM P X Unit) := by
  intro s
  cases res with
  | ok object | error e => exact ⟨le_rfl, id⟩

theorem setLength (length : Nat) : Tame (setLength length : LoadM P X Unit) :=
  modify (fun _ => rfl) fun _ flag => flag

theorem skipTuple (fuel : Nat) : Tame (skipTuple fuel : LoadM P X Unit) := by
  induction fuel with
  | zero => exact throw _
  | succ fuel ih => exact get.bind fun s => (pure _).ite (scanInside.bind fun _ => ih)

theorem readValues (type : BaseType) (reqLength fuel : Nat) (array : List Value) (length : Nat) :
    Tame (readValues type reqLength fuel array length : LoadM P X _) := by
  induction fuel generalizing array length with
  | zero => exact throw _
  | succ fuel ih =>
    exact get.bind fun s => (pure _).ite (scanInside.bind fun label =>
      (ih _ _).ite ((ih _ _).ite ((ih _ _).ite (ih _ _))))

theorem readTupleValues (type : BaseType) (reqLength fuel : Nat) (array : List Value) :
    Tame (readTupleValues type reqLength fuel array : LoadM P X _) :=
  (readValues _ _ _ _ _).bind fun _ => (setLength _).bind fun _ => (throw _).ite (pure _)

theorem readIndices (type : BaseType) (k fuel : Nat) (tuple : List Value) :
    Tame (readIndices type k fuel tuple : LoadM P X _) := by
  induction fuel generalizing tuple with
  | zero => exact throw _
  | succ fuel ih =>
    exact get.bind fun s => (pure _).ite (scanInside.bind fun label =>
      (ih _).ite ((throw _).ite (ih _)))

theorem getIndexTuple (type : BaseType) (k fuel : Nat) :
    Tame (getIndexTuple type k fuel : LoadM P X _) :=
  (readIndices _ _ _ _).bind fun _ => (setLength _).bind fun _ => (throw _).ite (pure _)

theorem readFloats (k fuel : Nat) (tuple : List Value) (length : Nat) :
    Tame (readFloats k fuel tuple length : LoadM P X _) := by
  induction fuel generalizing tuple length with
  | zero => exact throw _
  | succ fuel ih =>
    exact get.bind fun s => (pure _).ite (scanInside.bind fun label =>
      (ih _ _).ite ((ih _ _).ite (ih _ _)))

theorem getTFloatTuple (k fuel : Nat) : Tame (getTFloatTuple k fuel : LoadM P X _) :=
  (readFloats _ _ _ _).bind fun _ => (setLength _).bind fun _ => (throw _).ite (pure _)

theorem readLists (fuel nodes : Nat) (lists : List (List Value)) :
    Tame (readLists fuel nodes lists : LoadM P X _) := by
  induction nodes generalizing lists with
  | zero => exact pure _
  | succ nodes ih =>
    exact scanInside.bind fun _ => (getIndexTuple _ _ _).bind fun _ => ih _

theorem readIncidences (O : GraphObject X) (fuel : Nat) :
    Tame (readIncidences O fuel : LoadM P X Unit) :=
  get.bind fun _ => (readLists _ _ _).bind fun _ => scanInside.bind fun _ =>
    modify (fun _ => rfl) fun _ flag => flag

theorem readParams (fuel : Nat) (params : List (List Char)) (offset : Nat) :
    Tame (readParams fuel params offset : LoadM P X _) := by
  induction fuel generalizing params offset with
  | zero => exact throw _
  | succ fuel ih =>
    exact get.bind fun s => (pure _).ite (scanInside.bind fun token => (pure _).ite (ih _ _))

theorem readParameters (O : GraphObject X) (fuel : Nat) :
    Tame (readParameters O fuel : LoadM P X Unit) :=
  (readParams _ _ _).bind fun _ => (skipTuple _).bind fun _ =>
    modify (fun _ => rfl) fun _ flag => flag

theorem readConfiguration (O : GraphObject X) (fuel : Nat) :
    Tame (readConfiguration O fuel : LoadM P X Unit) := by
  intro s
  have tame := readParameters O fuel s
  have eq : finalState (LoadM.readConfiguration O fuel) s =
      finalState (LoadM.readParameters O fuel) s := by
    simp only [finalState, LoadM.readConfiguration]
    cases LoadM.readParameters O fuel s with
    | ok a s' => rfl
    | error e s' => cases e <;> rfl
  rw [eq]
  exact tame

variable [DecidableEq P]

theorem setPool (p : P) (pool : AttributePool) : Tame (setPool p pool : LoadM P X Unit) :=
  modify (fun _ => rfl) fun _ flag => flag

theorem readArray (S : Schema P) (O : GraphObject X) (fuel : Nat) (p : P) (token : Nat)
    (entry : PoolEntry) : Tame (readArray S O fuel p token entry : LoadM P X Unit) :=
  get.bind fun _ => (setPool _ _).bind fun _ => (throw _).ite
    ((readTupleValues _ _ _ _).bind fun _ =>
      get.bind fun _ => ((setPool _ _).ite (setPool _ _)).ite (setPool _ _))

theorem readPools (S : Schema P) (O : GraphObject X) (fuel : Nat) :
    (∀ p, Tame (readAttribute S O fuel p : LoadM P X Nat)) ∧
      (∀ p token, Tame (readSpecial S O fuel p token : LoadM P X Unit)) ∧
      ∀ p, Tame (readPool S O fuel p : LoadM P X Unit) := by
  induction fuel with
  | zero =>
    refine ⟨fun p => ?_, fun p token => ?_, fun p => ?_⟩
    · rw [readAttribute]
      exact throw _
    · rw [readSpecial]
      exact throw _
    · rw [readPool]
      exact throw _
  | succ fuel ih =>
    obtain ⟨array, special, pool⟩ := ih
    refine ⟨fun p => ?_, fun p token => ?_, fun p => ?_⟩
    · rw [readAttribute]
      apply scanLabel.bind
      intro label
      apply (pure _).ite
      cases S.lookup p label with
      | none => exact (skipTuple _).bind fun _ => pure _
      | some found =>
        exact ((special _ _).ite (readArray _ _ _ _ _ _)).bind fun _ => pure _
    · rw [readSpecial]
      cases S.special p token with
      | nothing => exact pure _
      | pool q => exact pool q
      | layout q => exact (pool q).bind fun _ => get.bind fun _ => accept _
      | nodes =>
        exact (getIndexTuple _ _ _).bind fun _ => modify (fun _ => rfl) fun _ flag => flag
      | arcs => exact (getIndexTuple _ _ _).bind fun _ => get.bind fun _ => accept _
      | incidences => exact readIncidences O fuel
      | subgraph =>
        exact get.bind fun _ => (getTFloatTuple _ _).bind fun _ => get.bind fun _ => accept _
      | configuration => exact readConfiguration O fuel
    · rw [readPool]
      exact (array p).bind fun _ => (pure _).ite (pool p)

end Tame

/-! ## Runs that end -/

/-- Unless the loader starves, the run does not exceed its number of steps. -/
def Ends (x : LoadM P X α) (s : Loader P X) : Prop :=
  (finalState x s).starved = false → ∀ s', x s ≠ .error .outOfFuel s'

namespace Ends

variable {s : Loader P X} {x : LoadM P X α}

theorem pure (a : α) : Ends (pure a : LoadM P X α) s := by
  intro _ s' res
  cases res

theorem throw {e : LoadError} (other : e ≠ .outOfFuel) : Ends (throw e : LoadM P X α) s := by
  intro _ s' res
  cases res
  exact other rfl

theorem bind {f : α → LoadM P X β} (first : Ends x s)
    (next : ∀ a s', x s = .ok a s' → Ends (f a) s') : Ends (x >>= f) s := by
  intro fed s' exceeded
  cases res : x s with
  | ok a t =>
    have both : finalState (x >>= f) s = finalState (f a) t := by
      simp only [finalState, run_bind_ok res]
    rw [run_bind_ok res] at exceeded
    rw [both] at fed
    exact next a t res fed s' exceeded
  | error e t =>
    have both : finalState (x >>= f) s = finalState x s := by
      simp only [finalState, run_bind_error res, res]
    rw [run_bind_error res] at exceeded
    rw [both] at fed
    cases exceeded
    exact first fed _ res

theorem ite [Decidable c] {y : LoadM P X α} (yes : c → Ends x s)
    (no : ¬ c → Ends y s) : Ends (if c then x else y) s := by
  split
  · exact yes ‹_›
  · exact no ‹_›

theorem of_starved (tame : Tame x) (starved : s.starved = true) : Ends x s := by
  intro fed
  rw [(tame s).2 starved] at fed
  cases fed

theorem modify (f : Loader P X → Loader P X) : Ends (modify f : LoadM P X PUnit) s := by
  intro _ s' res
  cases res

theorem get : Ends (get : LoadM P X (Loader P X)) s := by
  intro _ s' res
  cases res

theorem scan : Ends (scan : LoadM P X (List Char)) s := by
  intro _ s' exceeded
  simp only [LoadM.scan] at exceeded
  split at exceeded <;> cases exceeded

theorem scanInside : Ends (scanInside : LoadM P X (List Char)) s :=
  (modify _).bind fun _ _ _ => scan

theorem scanLabel : Ends (scanLabel : LoadM P X (List Char)) s :=
  get.bind fun _ _ _ => scan.bind fun _ _ _ => (modify _).bind fun _ _ _ => pure _

theorem accept {res : Except Refusal X} : Ends (accept res : LoadM P X Unit) s := by
  intro _ s' exceeded
  cases res with
  | ok object | error e => cases exceeded

end Ends

/-- After a `Scan` within a loop either the text is shorter or the loader starves. -/
theorem scanInside_cases
    (res : scanInside s = .ok label s') : s'.starved = true ∨ left s' < left s := by
  have run : scan { s with starved := s.starved || s.F.impFile.exhausted } = .ok label s' := res
  simp only [LoadM.scan] at run
  split at run
  · rename_i text F scanned
    cases run
    cases exhausted : s.F.impFile.exhausted with
    | true => exact .inl (by simp)
    | false => exact .inr (GoblinImport.scan_length_lt exhausted scanned)
  · cases run

theorem Ends.loop {f : List Char → LoadM P X β} (tame : ∀ label, Tame (f label))
    (shorter : ∀ label t, left t < left s → Ends (f label) t) :
    Ends (LoadM.scanInside >>= f) s := by
  apply Ends.scanInside.bind
  intro label t res
  rcases scanInside_cases res with starved | less
  · exact .of_starved (tame label) starved
  · exact shorter label t less

namespace Ends

variable {s : Loader P X} {O : GraphObject X}

section

variable (enough : left s < fuel)
include enough

theorem skipTuple : Ends (skipTuple fuel) s := by
  induction fuel generalizing s with
  | zero => omega
  | succ fuel ih =>
    apply get.bind
    intro a t eq
    cases eq
    apply ite (fun _ => pure _)
    intro _
    exact loop (fun _ => Tame.skipTuple fuel) fun _ t less => ih (by omega)

theorem readValues {type : BaseType} : Ends (readValues type reqLength fuel array length) s := by
  induction fuel generalizing s array length with
  | zero => omega
  | succ fuel ih =>
    apply get.bind
    intro a t eq
    cases eq
    apply ite (fun _ => pure _)
    intro _
    apply loop
    · intro label
      have tame := Tame.readValues (P := P) (X := X) type reqLength fuel
      exact (tame _ _).ite ((tame _ _).ite ((tame _ _).ite (tame _ _)))
    · intro label t less
      have rest : ∀ array length, Ends (LoadM.readValues type reqLength fuel array length) t :=
        fun _ _ => ih (by omega)
      exact ite (fun _ => rest _ _) fun _ => ite (fun _ => rest _ _) fun _ =>
        ite (fun _ => rest _ _) fun _ => rest _ _

theorem readIndices {type : BaseType} : Ends (readIndices type k fuel tuple) s := by
  induction fuel generalizing s tuple with
  | zero => omega
  | succ fuel ih =>
    apply get.bind
    intro a t eq
    cases eq
    apply ite (fun _ => pure _)
    intro _
    apply loop
    · intro label
      have tame := Tame.readIndices (P := P) (X := X) type k fuel
      exact (tame _).ite ((Tame.throw _).ite (tame _))
    · intro label t less
      have rest : ∀ tuple, Ends (LoadM.readIndices type k fuel tuple) t := fun _ => ih (by omega)
      exact ite (fun _ => rest _) fun _ => ite (fun _ => throw (by decide)) fun _ => rest _

theorem readFloats : Ends (readFloats k fuel tuple length) s := by
  induction fuel generalizing s tuple length with
  | zero => omega
  | succ fuel ih =>
    apply get.bind
    intro a t eq
    cases eq
    apply ite (fun _ => pure _)
    intro _
    apply loop
    · intro label
      have tame := Tame.readFloats (P := P) (X := X) k fuel
      exact (tame _ _).ite ((tame _ _).ite (tame _ _))
    · intro label t less
      have rest : ∀ tuple length, Ends (LoadM.readFloats k fuel tuple length) t :=
        fun _ _ => ih (by omega)
      exact ite (fun _ => rest _ _) fun _ => ite (fun _ => rest _ _) fun _ => rest _ _

theorem readParams {params : List (List Char)} {offset : Nat}
    : Ends (readParams fuel params offset) s := by
  induction fuel generalizing s params offset with
  | zero => omega
  | succ fuel ih =>
    apply get.bind
    intro a t eq
    cases eq
    apply ite (fun _ => pure _)
    intro _
    apply loop
    · intro label
      exact (Tame.pure _).ite (Tame.readParams _ _ _)
    · intro label t less
      exact ite (fun _ => pure _) fun _ => ih (by omega)

theorem readTupleValues {type : BaseType} : Ends (readTupleValues type reqLength fuel array) s :=
  (readValues enough).bind fun _ _ _ => (modify _).bind fun _ _ _ =>
    ite (fun _ => throw (by decide)) fun _ => pure _

theorem getIndexTuple {type : BaseType} : Ends (getIndexTuple type k fuel) s :=
  (readIndices enough).bind fun _ _ _ => (modify _).bind fun _ _ _ =>
    ite (fun _ => throw (by decide)) fun _ => pure _

theorem getTFloatTuple : Ends (getTFloatTuple k fuel) s :=
  (readFloats enough).bind fun _ _ _ => (modify _).bind fun _ _ _ =>
    ite (fun _ => throw (by decide)) fun _ => pure _

end

theorem left_le_of_ok {x : LoadM P X α} {a : α} {t : Loader P X} (tame : Tame x)
    (res : x s = .ok a t) : left t ≤ left s := by
  have shorter := (tame s).1
  simpa only [finalState, res] using shorter

theorem readLists {nodes : Nat} {lists : List (List Value)} (enough : left s < fuel) :
    Ends (readLists fuel nodes lists) s := by
  induction nodes generalizing s lists with
  | zero => exact pure _
  | succ nodes ih =>
    apply loop
    · intro label
      exact (Tame.getIndexTuple _ _ _).bind fun _ => Tame.readLists _ _ _
    · intro label t less
      apply (getIndexTuple (by omega)).bind
      intro list u res
      have shorter := left_le_of_ok (Tame.getIndexTuple _ _ _) res
      exact ih (by omega)

theorem readIncidences (enough : left s < fuel) :
    Ends (readIncidences O fuel : LoadM P X Unit) s := by
  apply get.bind
  intro a t eq
  cases eq
  exact (readLists enough).bind fun _ _ _ => scanInside.bind fun _ _ _ => modify _

theorem readConfiguration (enough : left s < fuel) :
    Ends (readConfiguration O fuel : LoadM P X Unit) s := by
  have body : Ends (readParameters O fuel : LoadM P X Unit) s := by
    apply (readParams enough).bind
    intro params t res
    have shorter := left_le_of_ok (Tame.readParams _ _ _) res
    exact (skipTuple (by omega)).bind fun _ _ _ => modify _
  intro fed s' exceeded
  cases res : LoadM.readParameters (P := P) O fuel s with
  | ok a t =>
    simp only [LoadM.readConfiguration, res] at exceeded
    cases exceeded
  | error e t =>
    cases e with
    | outOfFuel =>
      refine body ?_ t res
      simpa only [finalState, LoadM.readConfiguration, res] using fed
    | _ =>
      simp only [LoadM.readConfiguration, res] at exceeded
      cases exceeded

variable [DecidableEq P]

theorem setPool {pool : AttributePool} : Ends (setPool p pool : LoadM P X Unit) s :=
  modify _

theorem readArray {S : Schema P} {entry : PoolEntry} (enough : left s < fuel) :
    Ends (readArray S O fuel p token entry : LoadM P X Unit) s := by
  apply get.bind
  intro a t eq
  cases eq
  apply setPool.bind
  intro _ t res
  have shorter := left_le_of_ok (Tame.setPool _ _) res
  apply ite (fun _ => throw (by decide))
  intro _
  apply (readTupleValues (by omega)).bind
  intro data t _
  apply get.bind
  intro _ t _
  exact ite (fun _ => ite (fun _ => setPool) fun _ => setPool) fun _ => setPool

end Ends

theorem scanLabel_cases (res : scanLabel s = .ok label s') :
    s'.starved = true ∨ label = [] ∨ left s' < left s := by
  cases scanned : s.F.scan none with
  | error e =>
    rw [scanLabel, run_bind_get] at res
    simp only [LoadM.scan, bind, EStateM.bind, scanned] at res
    cases res
  | ok delivered =>
    obtain ⟨text, F⟩ := delivered
    rw [scanLabel, run_bind_get] at res
    simp only [LoadM.scan, bind, EStateM.bind, scanned] at res
    cases res
    cases exhausted : s.F.impFile.exhausted with
    | false => exact .inr (.inr (GoblinImport.scan_length_lt exhausted scanned))
    | true =>
      by_cases empty : label = []
      · exact .inr (.inl empty)
      · exact .inl (by simp [empty])

section Pools

variable [DecidableEq P] {S : Schema P} {O : GraphObject X}

/-- Behind a label that is not empty. -/
def readLabelled (S : Schema P) (O : GraphObject X) (fuel : Nat) (p : P) (label : List Char) :
    LoadM P X Nat :=
  match S.lookup p label with
  | none => do
    skipTuple fuel
    return (S.table p).length - 1
  | some (token, entry) => do
    (if entry.arrayType = .special then readSpecial S O fuel p token
      else readArray S O fuel p token entry)
    return token

theorem readAttribute_succ (fuel : Nat) (p : P) :
    (readAttribute S O (fuel + 1) p : LoadM P X Nat) = (do
      let label ← scanLabel
      if label = [] then return (S.table p).length else readLabelled S O fuel p label) := by
  rw [readAttribute]
  rfl

theorem Tame.readLabelled (fuel : Nat) (p : P) (label : List Char) :
    Tame (readLabelled S O fuel p label : LoadM P X Nat) := by
  unfold LoadM.readLabelled
  cases S.lookup p label with
  | none => exact (skipTuple _).bind fun _ => pure _
  | some found =>
    have special := (readPools (X := X) S O fuel).2.1
    exact ((special _ _).ite (readArray _ _ _ _ _ _)).bind fun _ => pure _

/-- An attribute that does not end its pool makes the text shorter. -/
theorem readAttribute_cases (res : readAttribute S O fuel p s = .ok token s') :
    s'.starved = true ∨ token = (S.table p).length ∨ left s' < left s := by
  cases fuel with
  | zero =>
    rw [readAttribute] at res
    cases res
  | succ fuel =>
    rw [readAttribute_succ] at res
    obtain ⟨label, t, scanned, rest⟩ := of_run_bind res
    have tame := Tame.readLabelled (S := S) (O := O) fuel p label t
    by_cases empty : label = []
    · rw [if_pos empty] at rest
      cases rest
      exact .inr (.inl rfl)
    rw [if_neg empty] at rest
    simp only [finalState, rest] at tame
    rcases scanLabel_cases scanned with starved | none | less
    · exact .inl (tame.2 starved)
    · exact absurd none empty
    · exact .inr (.inr (tame.1.trans_lt less))

/-- Three steps for a character of the text suffice for the functions that call each
other. -/
theorem Ends.readPools (fuel : Nat) :
    (∀ p (s : Loader P X), 3 * left s + 1 ≤ fuel → Ends (readAttribute S O fuel p) s) ∧
      (∀ p token (s : Loader P X), 3 * left s + 3 ≤ fuel → Ends (readSpecial S O fuel p token) s) ∧
      ∀ p (s : Loader P X), 3 * left s + 2 ≤ fuel → Ends (readPool S O fuel p) s := by
  induction fuel with
  | zero =>
    refine ⟨fun p s enough => ?_, fun p token s enough => ?_, fun p s enough => ?_⟩ <;> omega
  | succ fuel ih =>
    obtain ⟨array, special, pool⟩ := ih
    refine ⟨fun p s enough => ?_, fun p token s enough => ?_, fun p s enough => ?_⟩
    · rw [readAttribute_succ]
      apply scanLabel.bind
      intro label t scanned
      apply ite (fun _ => pure _)
      intro ne
      rcases scanLabel_cases scanned with starved | empty | less
      · exact of_starved (Tame.readLabelled fuel p label) starved
      · exact absurd empty ne
      · unfold readLabelled
        cases S.lookup p label with
        | none => exact (skipTuple (by omega)).bind fun _ _ _ => pure _
        | some found =>
          apply bind ?_ fun _ _ _ => pure _
          exact ite (fun _ => special _ _ _ (by omega)) fun _ => readArray (by omega)
    · rw [readSpecial]
      cases S.special p token with
      | nothing => exact pure _
      | pool q => exact pool q s (by omega)
      | layout q =>
        exact (pool q s (by omega)).bind fun _ _ _ => get.bind fun _ _ _ => accept
      | nodes => exact (getIndexTuple (by omega)).bind fun _ _ _ => modify _
      | arcs => exact (getIndexTuple (by omega)).bind fun _ _ _ => get.bind fun _ _ _ => accept
      | incidences => exact readIncidences (by omega)
      | subgraph =>
        apply get.bind
        intro a t eq
        cases eq
        exact (getTFloatTuple (by omega)).bind fun _ _ _ => get.bind fun _ _ _ => accept
      | configuration => exact readConfiguration (by omega)
    · rw [readPool]
      apply (array p s (by omega)).bind
      intro token t res
      apply ite (fun _ => pure _)
      intro further
      rcases readAttribute_cases res with starved | last | less
      · exact of_starved ((Tame.readPools S O fuel).2.2 p) starved
      · exact absurd last further
      · exact pool p t (by omega)

end Pools

end LoadM

/-! ## Loading ends -/

/-- Loading ends, and no exception is raised. -/
def Completed {σ : Type} : EStateM.Result LoadError σ Unit → Prop
  | .ok _ _ => True
  | .error _ _ => False

/-- No exception is raised, as far as the steps suffice. -/
def Silent {σ : Type} : EStateM.Result LoadError σ Unit → Prop
  | .ok _ _ => True
  | .error .outOfFuel _ => True
  | .error _ _ => False

instance {σ : Type} : (r : EStateM.Result LoadError σ Unit) → Decidable (Silent r)
  | .ok _ _ => .isTrue trivial
  | .error .outOfFuel _ => .isTrue trivial
  | .error (.parse _) _ => .isFalse id
  | .error (.refused _) _ => .isFalse id

/-- Some number of steps suffices for loading. -/
def Loads {X : Type} (O : GraphObject X) (s : Loader GraphPool X) : Prop :=
  ∃ fuel, Completed (LoadM.readAllData O fuel s)

/-- The steps that suffice: three for each character. -/
def stepsLeft {X : Type} (s : Loader GraphPool X) : Nat := 3 * LoadM.left s + 2

/-- What must hold before each step of the run. -/
structure Undisturbed {X : Type} (O : GraphObject X) (s : Loader GraphPool X) : Prop where
  /-- `Scan` is not called at the end of the file, except for an empty label. -/
  fed : (finalState (LoadM.readAllData O (stepsLeft s)) s).starved = false
  /-- No step raises an exception. -/
  silent : Silent (LoadM.readAllData O (stepsLeft s) s)

/-- A graph with three nodes and two arcs, as far as its dimensions are concerned. -/
def pathObject : GraphObject Unit where
  sizeInfo _
    | .graphNodes | .layoutNodes => 3
    | .graphArcs => 2
    | .arcsTwice => 4
    | .singleton => 1
  reserved _
    | .graphNodes | .layoutNodes => 3
    | .graphArcs => 2
    | .arcsTwice => 4
    | .singleton => 1
  nAct _ := 3
  m _ := 2
  setNodes _ _ := ()
  setArcs _ _ := .ok ()
  setIncidences _ _ := ()
  setSubgraph _ _ _ := .ok ()
  setLayout _ _ := .ok ()
  configure _ _ := ()

/-- A file with the dimensions, the capacities and an unknown tuple. -/
def pathFile : List Char :=
  "(mixed\n(definition\n(nodes 3 0 3)\n(arcs 2)\n(ucap 4 1)\n(foo 7)\n)\n)".toList

variable {F : GoblinImport}

/-- The end of the file, where `Scan` delivers the same text again. -/
structure GoblinImport.Idle (F : GoblinImport) : Prop where
  exhausted : F.impFile.exhausted = true
  waiting : F.tail = false
  quiet : F.clears = true ∨
    F.buffer ≠ ['('] ∧ F.buffer.head? ≠ some '"' ∧ F.buffer.getLast? ≠ some ')'

namespace GoblinImport

theorem extract_of_exhausted (exhausted : F.impFile.exhausted = true) : F.extract = { F with
      impFile := (F.impFile.word 254).2
      buffer := if F.clears then [] else F.buffer } := by
  have ended : (F.impFile.word 254).1 = none := InStream.word_of_exhausted exhausted
  simp only [extract]
  split
  · rename_i found
    rw [found] at ended
    cases ended
  · rename_i found
    rw [found]

theorem Idle.scan (idle : F.Idle) : ∃ text F', F.scan none = .ok (text, F') ∧ F'.Idle := by
  have extracted := extract_of_exhausted idle.exhausted
  have file : (F.impFile.word 254).2.exhausted = true :=
    InStream.exhausted_word_of_exhausted idle.exhausted
  cases clears : F.clears with
  | true =>
    have buffer : F.extract.buffer = [] := by rw [extracted, clears, if_pos rfl]
    rw [scan_of_unmarked none buffer (by simp [Unmarked])]
    simp only [scanItem, List.getLast?_nil, reduceCtorEq, if_false]
    refine ⟨_, _, rfl, ?_, rfl, .inl ?_⟩
    · rw [extracted]
      exact file
    · rw [extracted]
      exact clears
  | false =>
    obtain ⟨single, quote, parenthesis⟩ := idle.quiet.resolve_left (by simp [clears])
    have buffer : F.extract.buffer = F.buffer := by rw [extracted, clears]; rfl
    cases text : F.buffer with
    | nil =>
      rw [text] at buffer
      rw [scan_of_unmarked none buffer (by simp [Unmarked])]
      simp only [scanItem, List.getLast?_nil, reduceCtorEq, if_false]
      refine ⟨_, _, rfl, ?_, rfl, .inr (by simp)⟩
      rw [extracted]
      exact file
    | cons c label =>
      rw [text] at buffer single quote parenthesis
      by_cases opening : c = '('
      · subst opening
        have ne : label ≠ [] := by
          rintro rfl
          exact single rfl
        have unclosed : label.getLast? ≠ some ')' := by
          rwa [List.getLast?_cons_of_ne_nil ne] at parenthesis
        have head := scanLabel_mark (F := F.extract) ne unclosed false
        simp only [mark, Bool.false_eq_true, if_false, List.append_nil] at head
        rw [scan_of_label none buffer, head]
        refine ⟨_, _, rfl, ?_, rfl, .inr ⟨single, quote, parenthesis⟩⟩
        rw [extracted]
        exact file
      · have unmarked : Unmarked (c :: label) := by
          intro d first
          cases first
          exact ⟨opening, fun eq => quote (by rw [eq]; rfl)⟩
        rw [scan_of_unmarked none buffer unmarked]
        simp only [scanItem, parenthesis, if_false]
        refine ⟨_, _, rfl, ?_, rfl, .inr ⟨single, quote, parenthesis⟩⟩
        rw [extracted]
        exact file

end GoblinImport

/-- A loop that waits for the end of a tuple does not end at an idle file. -/
theorem skipTuple_endless {P X : Type} {s : Loader P X} (idle : s.F.Idle) (fuel : Nat) :
    ∃ t, LoadM.skipTuple fuel s = .error .outOfFuel t := by
  induction fuel generalizing s with
  | zero => exact ⟨s, rfl⟩
  | succ fuel ih =>
    obtain ⟨text, F, scanned, next⟩ := idle.scan
    let s' : Loader P X := { s with F := F, starved := s.starved || s.F.impFile.exhausted }
    have inside : LoadM.scanInside s = .ok text s' := by
      change LoadM.scan { s with starved := s.starved || s.F.impFile.exhausted } = _
      simp only [LoadM.scan, scanned]
      rfl
    obtain ⟨t, endless⟩ := ih (s := s') next
    refine ⟨t, ?_⟩
    rw [LoadM.skipTuple, run_bind_get, if_neg (by simp [idle.waiting]), run_bind_ok inside]
    exact endless

theorem readAllData_endless {X : Type} {O : GraphObject X} {s : Loader GraphPool X}
    (scanned : s.F.scan none = .ok (label, F)) (ne : label ≠ [])
    (unknown : graphSchema.lookup .root label = none) (idle : F.Idle)
    (fuel : Nat) : ∃ t, LoadM.readAllData O fuel s = .error .outOfFuel t := by
  have array : ∃ t, LoadM.readAttribute graphSchema O (fuel - 1) .root s = .error .outOfFuel t := by
    cases fuel - 1 with
    | zero => exact ⟨s, by rw [LoadM.readAttribute]; rfl⟩
    | succ fuel =>
      let s' : Loader GraphPool X := { s with
        F := F
        starved := s.starved || (s.F.impFile.exhausted && decide (label ≠ [])) }
      have first : LoadM.scanLabel s = .ok label s' := by
        have delivered : LoadM.scan s = .ok label { s with F := F } := by rw [LoadM.scan, scanned]
        rw [LoadM.scanLabel, run_bind_get, run_bind_ok delivered]
        rfl
      obtain ⟨t, endless⟩ := skipTuple_endless (s := s') idle fuel
      refine ⟨t, ?_⟩
      rw [LoadM.readAttribute_succ, run_bind_ok first, if_neg ne]
      simp only [LoadM.readLabelled, unknown]
      exact run_bind_error endless
  obtain ⟨t, endless⟩ := array
  cases fuel with
  | zero => exact ⟨s, by rw [LoadM.readAllData, LoadM.readPool]; rfl⟩
  | succ fuel =>
    refine ⟨t, ?_⟩
    rw [LoadM.readAllData, LoadM.readPool]
    exact run_bind_error endless

end Goblin
