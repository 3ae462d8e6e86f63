import Goblin.HashTable

/-!
# Labels of a subgraph

The representation of a graph stores the multiplicities `Sub` of a subgraph. A
`sparseRepresentation` keeps them in an array of absolute values, a `denseRepresentation` keeps them
in a hash table with the default key zero, whose entries are added to the lower bound on reading.

`SetSubRelative` adds to the entry and is correct for both. `SetSub` stores the multiplicity
itself, which is the entry of the array but not the entry of the table: with a lower bound other
than zero, the dense class returns more than what has been set.
-/

set_option autoImplicit false

namespace Goblin

open Library List Function

variable {x lambda : ℚ} {g : ℕ → ℚ} {st' : Option (ℕ → ℚ)}

/-- The arc set of a representation with its capacity bounds. The bounds of the arc `a` are those
of the edge `a >> 1`. -/
structure ArcBounds where
  nMax : ℕ
  mAct : ℕ
  mMax : ℕ
  lcap : ℕ → ℚ
  ucap : ℕ → ℚ
  mAct_le : mAct ≤ mMax
  nodes : 0 < mAct → 0 < nMax
  nonneg : ∀ e, e < mAct → 0 ≤ lcap e
  ordered : ∀ e, e < mAct → lcap e ≤ ucap e

/-- The calls that concern the subgraph. -/
inductive SubCall where
  | setSub (a : ℕ) (multiplicity : ℚ)
  | setSubRelative (a : ℕ) (lambda : ℚ)
  | sub (a : ℕ)
  | newSubgraph
  | releaseSubgraph

/-- A class that serves the calls. A subgraph of type `σ` is present or not. -/
structure SubClass (σ : Type) where
  serve : SubCall → Option σ → Except Raise (Option σ)
  sub : ℕ → Option σ → Except Raise ℚ

namespace SubClass

variable {σ : Type} (I : SubClass σ)

section

variable (calls : List SubCall)

/-- The state after some calls, beginning without a subgraph. -/
def run : Except Raise (Option σ) :=
  calls.foldlM (fun st call => I.serve call st) none

/-- What `Sub(a)` returns after some calls. -/
def answer (a : ℕ) : Except Raise ℚ := do
  let st ← I.run calls
  I.sub a st

theorem run_append (call : SubCall) :
    I.run (calls ++ [call]) = (I.run calls).bind (I.serve call) := by
  simp only [run, foldlM_append, foldlM_cons, foldlM_nil, bind_pure]
  rfl

end

variable {I} {calls : List SubCall} {st : Option σ}

theorem answer_eq (run : I.run calls = .ok st) (a : ℕ) : I.answer calls a = I.sub a st := by
  rw [answer, run]
  rfl

theorem run_prefix {before : List SubCall} (run : I.run calls = .ok st)
    (start : before <+: calls) : ∃ st0, I.run before = .ok st0 := by
  obtain ⟨after, rfl⟩ := start
  rw [SubClass.run, foldlM_append] at run
  cases res : I.run before with
  | ok st0 => exact ⟨st0, rfl⟩
  | error e =>
    rw [SubClass.run] at res
    rw [res] at run
    cases run

end SubClass

namespace ArcBounds

variable (B : ArcBounds)

/-- The range check of `SetSub` and `SetSubRelative` for the new multiplicity `x`. -/
def outOfRange (a : ℕ) (thisSub x : ℚ) : Prop :=
  (thisSub > 0 ∧ |x| < B.lcap (a / 2)) ∨ (B.ucap (a / 2) < infCap ∧ |x| > B.ucap (a / 2))

instance (a : ℕ) (thisSub x : ℚ) : Decidable (B.outOfRange a thisSub x) :=
  inferInstanceAs (Decidable (_ ∨ _))

/-! ## The dense class -/

namespace Dense

variable (index : ℕ → ℕ) (key : ℕ → ℚ)

/-- `NewSubgraph`. The arrays of the hash table are not initialised. -/
def newSubgraph : Option (HashTable ℚ) → Except Raise (HashTable ℚ)
  | none => .ok (HashTable.new B.mMax (2 * B.nMax) 0 index key)
  | some _ => .error (.rejected "NewSubgraph" "A subgraph is already present")

def sub (a : ℕ) (st : Option (HashTable ℚ)) : Except Raise ℚ :=
  if 2 * B.mAct ≤ a then .error (.range "Sub" "No such arc")
  else
    match st with
    | none => .ok (B.lcap (a / 2))
    | some t => do return B.lcap (a / 2) + (← t.keyOf (a / 2))

/-- The subgraph, which is allocated when there is none. -/
def allocated (st : Option (HashTable ℚ)) : Except Raise (HashTable ℚ) :=
  match st with
  | none => newSubgraph B index key none
  | some t => .ok t

/-- `SetSub`. The former entry is read for the node degrees. -/
def setSub (a : ℕ) (multiplicity : ℚ) (st : Option (HashTable ℚ)) :
    Except Raise (HashTable ℚ) := do
  if 2 * B.mAct ≤ a then throw (.range "SetSub" "No such arc")
  let thisSub ← sub B a st
  if B.outOfRange a thisSub multiplicity then throw (.rejected "SetSub" "Amount out of range")
  let t ← allocated B index key st
  let _ ← t.keyOf (a / 2)
  t.changeKey (a / 2) multiplicity

def setSubRelative (a : ℕ) (lambda : ℚ) (st : Option (HashTable ℚ)) :
    Except Raise (HashTable ℚ) := do
  if 2 * B.mAct ≤ a then throw (.range "SetSubRelative" "No such arc")
  let thisSub ← sub B a st
  if B.outOfRange a thisSub (thisSub + lambda) then
    throw (.rejected "SetSubRelative" "Amount out of range")
  let t ← allocated B index key st
  let alpha ← t.keyOf (a / 2)
  t.changeKey (a / 2) (alpha + lambda)

/-- The calls to a `denseRepresentation`. -/
def serve (call : SubCall) (st : Option (HashTable ℚ)) : Except Raise (Option (HashTable ℚ)) :=
  match call with
  | .setSub a multiplicity => some <$> setSub B index key a multiplicity st
  | .setSubRelative a lambda => some <$> setSubRelative B index key a lambda st
  | .sub a => (fun _ => st) <$> sub B a st
  | .newSubgraph => some <$> newSubgraph B index key st
  | .releaseSubgraph => .ok none

end Dense

/-- A `denseRepresentation` -/
def dense (index : ℕ → ℕ) (key : ℕ → ℚ) : SubClass (HashTable ℚ) :=
  ⟨Dense.serve B index key, Dense.sub B⟩

/-! ## The sparse class -/

namespace Sparse

variable (memory : ℕ → ℚ)

/-- `NewSubgraph`. The entries beyond the current number of arcs are not initialised. -/
def newSubgraph : Option (ℕ → ℚ) → Except Raise (ℕ → ℚ)
  | none => .ok fun e => if e < B.mAct then B.lcap e else memory e
  | some _ => .error (.rejected "NewSubgraph" "A subgraph is already present")

def sub (a : ℕ) (st : Option (ℕ → ℚ)) : Except Raise ℚ :=
  if 2 * B.mAct ≤ a then .error (.range "Sub" "No such arc")
  else
    match st with
    | none => .ok (B.lcap (a / 2))
    | some f => .ok (f (a / 2))

/-- The subgraph, which is allocated when there is none. -/
def allocated (st : Option (ℕ → ℚ)) : Except Raise (ℕ → ℚ) :=
  match st with
  | none => newSubgraph B memory none
  | some f => .ok f

def setSub (a : ℕ) (multiplicity : ℚ) (st : Option (ℕ → ℚ)) : Except Raise (ℕ → ℚ) := do
  if 2 * B.mAct ≤ a then throw (.range "SetSub" "No such arc")
  let thisSub ← sub B a st
  if B.outOfRange a thisSub multiplicity then throw (.rejected "SetSub" "Amount out of range")
  let f ← allocated B memory st
  return update f (a / 2) multiplicity

def setSubRelative (a : ℕ) (lambda : ℚ) (st : Option (ℕ → ℚ)) : Except Raise (ℕ → ℚ) := do
  if 2 * B.mAct ≤ a then throw (.range "SetSubRelative" "No such arc")
  let thisSub ← sub B a st
  if B.outOfRange a thisSub (thisSub + lambda) then
    throw (.rejected "SetSubRelative" "Amount out of range")
  let f ← allocated B memory st
  return update f (a / 2) (f (a / 2) + lambda)

/-- The calls to a `sparseRepresentation`. -/
def serve (call : SubCall) (st : Option (ℕ → ℚ)) : Except Raise (Option (ℕ → ℚ)) :=
  match call with
  | .setSub a multiplicity => some <$> setSub B memory a multiplicity st
  | .setSubRelative a lambda => some <$> setSubRelative B memory a lambda st
  | .sub a => (fun _ => st) <$> sub B a st
  | .newSubgraph => some <$> newSubgraph B memory st
  | .releaseSubgraph => .ok none

end Sparse

/-- A `sparseRepresentation` -/
def sparse (memory : ℕ → ℚ) : SubClass (ℕ → ℚ) := ⟨Sparse.serve B memory, Sparse.sub B⟩

/-! ## The table as an array -/

/-- The table holds the differences between the multiplicities `f` and the lower bounds. -/
def TableOf (t : HashTable ℚ) (f : ℕ → ℚ) : Prop :=
  t.range = B.mMax ∧ t.defaultKey = 0 ∧
    ∃ k place, t.Holds k place ∧ ∀ e, e < B.mAct → f e = B.lcap e + k e

/-- A state of the dense class and a state of the sparse class with the same multiplicities. -/
def Denotes : Option (HashTable ℚ) → Option (ℕ → ℚ) → Prop
  | none, none => True
  | some t, some f => 0 < B.mAct → B.TableOf t f
  | _, _ => False

variable {B} {a : ℕ} {d : Option (HashTable ℚ)} {st : Option (ℕ → ℚ)}

section Requests

variable (index : ℕ → ℕ) (key : ℕ → ℚ) {memory : ℕ → ℚ}

theorem tableOf_new (memory : ℕ → ℚ) (some_arc : 0 < B.mAct) :
    B.TableOf (HashTable.new B.mMax (2 * B.nMax) 0 index key)
      fun e => if e < B.mAct then B.lcap e else memory e := by
  have pos := B.nodes some_arc
  refine ⟨rfl, rfl, fun _ => 0, fun _ => none, HashTable.init_holds ?_ rfl rfl, ?_⟩
  · change 0 < 2 * B.nMax
    omega
  · intro e low
    simp only [if_pos low, add_zero]

theorem TableOf.store {t : HashTable ℚ} {f : ℕ → ℚ} {e : ℕ} (table : B.TableOf t f)
    (low : e < B.mAct) (x : ℚ) : t.keyOf e = .ok (f e - B.lcap e) ∧
      ∃ t', t.changeKey e x = .ok t' ∧ B.TableOf t' (update f e (B.lcap e + x)) := by
  obtain ⟨range_eq, default_eq, k, place, holds, entries⟩ := table
  have inRange : e < t.range := range_eq ▸ low.trans_le B.mAct_le
  obtain ⟨t', place', res, range', default', holds'⟩ := HashTable.changeKey_spec holds x inRange
  refine ⟨?_, t', res, range'.trans range_eq, default'.trans default_eq, _, place', holds', ?_⟩
  · rw [HashTable.keyOf_spec holds inRange, entries e low, add_sub_cancel_left]
  · intro e' low'
    by_cases eq : e' = e
    · rw [eq, update_self, update_self]
    · rw [update_of_ne eq, update_of_ne eq, entries e' low']

/-- Both classes return the same multiplicities, or raise alike. -/
theorem Denotes.sub_eq (eq : B.Denotes d st) (a : ℕ) : Dense.sub B a d = Sparse.sub B a st := by
  unfold Dense.sub Sparse.sub
  split_ifs with legal
  · rfl
  match d, st, eq with
  | none, none, _ => rfl
  | some t, some f, table =>
    have entry := ((table (by omega)).store (by omega : a / 2 < B.mAct) 0).1
    simp only [entry, bind, Except.bind, pure, Except.pure, add_sub_cancel]

theorem Denotes.allocated (memory : ℕ → ℚ) (eq : B.Denotes d st) (legal : a < 2 * B.mAct) :
    ∃ t f, Dense.allocated B index key d = .ok t ∧ Sparse.allocated B memory st = .ok f ∧
      B.TableOf t f ∧ Sparse.sub B a st = .ok (f (a / 2)) := by
  have low : a / 2 < B.mAct := by omega
  match d, st, eq with
  | none, none, _ =>
    refine ⟨_, _, rfl, rfl, tableOf_new index key memory (by omega), ?_⟩
    rw [Sparse.sub, if_neg (by omega), if_pos low]
  | some t, some f, table =>
    refine ⟨t, f, rfl, rfl, table (by omega), ?_⟩
    rw [Sparse.sub, if_neg (by omega)]

/-! ## The requests -/

/-- `SetSub` stores the multiplicity as the entry of the table, on top of the lower bound. -/
theorem Denotes.setSub (eq : B.Denotes d st) (res : Sparse.setSub B memory a x st = .ok g) :
    a < 2 * B.mAct ∧ g (a / 2) = x ∧ ∃ t, Dense.setSub B index key a x d = .ok t ∧
      B.TableOf t (update g (a / 2) (B.lcap (a / 2) + x)) := by
  by_cases legal : 2 * B.mAct ≤ a
  · rw [Sparse.setSub, if_pos legal] at res
    cases res
  obtain ⟨t, f, dense, sparse, table, read⟩ :=
    eq.allocated index key memory (by omega : a < 2 * B.mAct)
  obtain ⟨entry, t', changed, table'⟩ := table.store (by omega : a / 2 < B.mAct) x
  rw [Sparse.setSub, if_neg legal, read] at res
  rw [Dense.setSub, if_neg legal, eq.sub_eq a, read]
  by_cases checked : B.outOfRange a (f (a / 2)) x
  · simp only [bind, Except.bind, pure, Except.pure, if_pos checked] at res
    cases res
  simp only [bind, Except.bind, pure, Except.pure, if_neg checked, sparse] at res
  cases res
  refine ⟨by omega, update_self _ _ _, t', ?_, ?_⟩
  · simp only [bind, Except.bind, if_neg checked, dense, entry, changed]
  · rw [update_idem]
    exact table'

theorem Denotes.setSubRelative (eq : B.Denotes d st)
    (res : Sparse.setSubRelative B memory a lambda st = .ok g) :
    a < 2 * B.mAct ∧ (∃ y, Sparse.sub B a st = .ok y ∧ g (a / 2) = y + lambda) ∧
      ∃ t, Dense.setSubRelative B index key a lambda d = .ok t ∧ B.TableOf t g := by
  by_cases legal : 2 * B.mAct ≤ a
  · rw [Sparse.setSubRelative, if_pos legal] at res
    cases res
  obtain ⟨t, f, dense, sparse, table, read⟩ :=
    eq.allocated index key memory (by omega : a < 2 * B.mAct)
  obtain ⟨entry, t', changed, table'⟩ :=
    table.store (by omega : a / 2 < B.mAct) (f (a / 2) - B.lcap (a / 2) + lambda)
  rw [Sparse.setSubRelative, if_neg legal, read] at res
  rw [Dense.setSubRelative, if_neg legal, eq.sub_eq a, read]
  by_cases checked : B.outOfRange a (f (a / 2)) (f (a / 2) + lambda)
  · simp only [bind, Except.bind, pure, Except.pure, if_pos checked] at res
    cases res
  simp only [bind, Except.bind, pure, Except.pure, if_neg checked, sparse] at res
  cases res
  refine ⟨by omega, ⟨_, rfl, update_self _ _ _⟩, t', ?_, ?_⟩
  · simp only [bind, Except.bind, if_neg checked, dense, entry, changed]
  · have sum : B.lcap (a / 2) + (f (a / 2) - B.lcap (a / 2) + lambda) = f (a / 2) + lambda := by
      ring
    exact sum ▸ table'

/-- A call is harmless unless it sets the multiplicity of an arc with a lower bound. -/
def Harmless (B : ArcBounds) : SubCall → Prop
  | .setSub a _ => B.lcap (a / 2) = 0
  | _ => True

theorem Denotes.serve {call : SubCall} (eq : B.Denotes d st) (harmless : B.Harmless call)
    (res : Sparse.serve B memory call st = .ok st') :
    ∃ d', Dense.serve B index key call d = .ok d' ∧ B.Denotes d' st' := by
  cases call with
  | setSub a x =>
    cases served : Sparse.setSub B memory a x st with
    | error e =>
      rw [Sparse.serve, served] at res
      cases res
    | ok g =>
      rw [Sparse.serve, served] at res
      cases res
      obtain ⟨legal, val, t, dense, table⟩ :=
        eq.setSub index key served
      refine ⟨some t, by rw [Dense.serve, dense]; rfl, fun _ => ?_⟩
      rw [show B.lcap (a / 2) = 0 from harmless, zero_add, ← val, update_eq_self] at table
      exact table
  | setSubRelative a lambda =>
    cases served : Sparse.setSubRelative B memory a lambda st with
    | error e =>
      rw [Sparse.serve, served] at res
      cases res
    | ok g =>
      rw [Sparse.serve, served] at res
      cases res
      obtain ⟨legal, -, t, dense, table⟩ :=
        eq.setSubRelative index key served
      exact ⟨some t, by rw [Dense.serve, dense]; rfl, fun _ => table⟩
  | sub a =>
    rw [Sparse.serve, ← eq.sub_eq a] at res
    rw [Dense.serve]
    cases served : Dense.sub B a d with
    | error e =>
      rw [served] at res
      cases res
    | ok y =>
      rw [served] at res
      cases res
      exact ⟨d, rfl, eq⟩
  | newSubgraph =>
    match d, st, eq with
    | none, none, _ =>
      cases res
      exact ⟨_, rfl, fun some_arc => tableOf_new index key memory some_arc⟩
    | some t, some f, _ => cases res
  | releaseSubgraph =>
    cases res
    exact ⟨none, rfl, trivial⟩

/-- Harmless calls lead both classes to the same multiplicities. -/
theorem run_denotes {calls : List SubCall} (harmless : ∀ call ∈ calls, B.Harmless call)
    (run : (B.sparse memory).run calls = .ok st) :
    ∃ d, (B.dense index key).run calls = .ok d ∧ B.Denotes d st := by
  induction calls using reverseRecOn generalizing st with
  | nil =>
    cases run
    exact ⟨none, rfl, trivial⟩
  | append_singleton calls call ih =>
    obtain ⟨st0, before⟩ := SubClass.run_prefix run (prefix_append _ _)
    rw [SubClass.run_append, before] at run
    obtain ⟨d0, before', eq⟩ :=
      ih (fun c mem => harmless c (mem_append_left _ mem)) before
    obtain ⟨d, res, eq'⟩ := eq.serve index key (harmless call (by simp)) run
    refine ⟨d, ?_, eq'⟩
    rw [SubClass.run_append, before']
    exact res

end Requests

/-! ## Agreement -/

/-- After every part of the calls, both classes return the same value for every arc. It is the
lower bound in the beginning, the multiplicity that has been set after `SetSub`, and grows by
the given amount with `SetSubRelative`. -/
structure LabelsAgree (B : ArcBounds) (index : ℕ → ℕ) (key memory : ℕ → ℚ)
    (calls : List SubCall) : Prop where
  alike : ∀ before, before <+: calls → ∀ a, a < 2 * B.mAct →
    ∃ y, (B.dense index key).answer before a = .ok y ∧ (B.sparse memory).answer before a = .ok y
  initial : ∀ a, a < 2 * B.mAct → (B.dense index key).answer [] a = .ok (B.lcap (a / 2))
  setSub : ∀ before a x, before ++ [.setSub a x] <+: calls →
    (B.dense index key).answer (before ++ [.setSub a x]) a = .ok x
  setSubRelative : ∀ before a lambda, before ++ [.setSubRelative a lambda] <+: calls →
    ∃ y, (B.dense index key).answer before a = .ok y ∧
      (B.dense index key).answer (before ++ [.setSubRelative a lambda]) a = .ok (y + lambda)

variable {index : ℕ → ℕ} {key memory : ℕ → ℚ} {calls : List SubCall} {before : List SubCall}

theorem answer_nil (legal : a < 2 * B.mAct) :
    (B.dense index key).answer [] a = .ok (B.lcap (a / 2)) := by
  have start : (B.dense index key).run [] = .ok none := rfl
  rw [SubClass.answer_eq start]
  exact if_neg (by omega)

/-- After the same multiplicities, the classes return the same values. -/
theorem answer_denotes (dense : (B.dense index key).run before = .ok d)
    (sparse : (B.sparse memory).run before = .ok st) (eq : B.Denotes d st) (a : ℕ) :
    (B.dense index key).answer before a = (B.sparse memory).answer before a := by
  rw [SubClass.answer_eq dense, SubClass.answer_eq sparse]
  exact eq.sub_eq a

theorem sparse_sub_ok (legal : a < 2 * B.mAct) (st : Option (ℕ → ℚ)) :
    ∃ y, Sparse.sub B a st = .ok y := by
  have listed : ¬ 2 * B.mAct ≤ a := by omega
  cases st with
  | none | some f => exact ⟨_, if_neg listed⟩

theorem answer_setSub (dense : (B.dense index key).run before = .ok d)
    (sparse : (B.sparse memory).run before = .ok st) (eq : B.Denotes d st)
    (run : (B.sparse memory).run (before ++ [.setSub a x]) = .ok st') :
    a < 2 * B.mAct ∧ (B.sparse memory).answer (before ++ [.setSub a x]) a = .ok x ∧
      (B.dense index key).answer (before ++ [.setSub a x]) a = .ok (B.lcap (a / 2) + x) := by
  have last := run
  rw [SubClass.run_append, sparse] at last
  obtain ⟨g, served, rfl⟩ : ∃ g, Sparse.setSub B memory a x st = .ok g ∧ st' = some g := by
    cases served : Sparse.setSub B memory a x st with
    | error e =>
      change some <$> Sparse.setSub B memory a x st = _ at last
      rw [served] at last
      cases last
    | ok g =>
      change some <$> Sparse.setSub B memory a x st = _ at last
      rw [served] at last
      cases last
      exact ⟨g, rfl, rfl⟩
  obtain ⟨legal, val, t, res, table⟩ := eq.setSub index key served
  have listed : ¬ 2 * B.mAct ≤ a := by omega
  have dense' : (B.dense index key).run (before ++ [.setSub a x]) = .ok (some t) := by
    rw [SubClass.run_append, dense]
    change some <$> Dense.setSub B index key a x d = _
    rw [res]
    rfl
  refine ⟨legal, ?_, ?_⟩
  · rw [SubClass.answer_eq run, ← val]
    exact if_neg listed
  · rw [SubClass.answer_eq dense']
    have shifted : B.Denotes (some t)
      (some (update g (a / 2) (B.lcap (a / 2) + x))) := fun _ => table
    refine (shifted.sub_eq a).trans ((if_neg listed).trans ?_)
    simp only [update_self]

/-- After `SetSubRelative(a,λ)`, both classes return the former value increased by `λ`. -/
theorem sparse_answer_setSubRelative (sparse : (B.sparse memory).run before = .ok st)
    (eq : B.Denotes d st)
    (run : (B.sparse memory).run (before ++ [.setSubRelative a lambda]) = .ok st') :
    ∃ y, (B.sparse memory).answer before a = .ok y ∧
      (B.sparse memory).answer (before ++ [.setSubRelative a lambda]) a = .ok (y + lambda) := by
  have last := run
  rw [SubClass.run_append, sparse] at last
  change some <$> Sparse.setSubRelative B memory a lambda st = _ at last
  cases served : Sparse.setSubRelative B memory a lambda st with
  | error e =>
    rw [served] at last
    cases last
  | ok g =>
    rw [served] at last
    cases last
    obtain ⟨legal, ⟨y, read, val⟩, -⟩ :=
      eq.setSubRelative (fun _ => 0) (fun _ => 0) served
    refine ⟨y, (SubClass.answer_eq sparse a).trans read, ?_⟩
    rw [SubClass.answer_eq run, ← val]
    exact if_neg (by omega)

theorem labelsAgree_of_harmless (run : (B.sparse memory).run calls = .ok st)
    (harmless : ∀ call ∈ calls, B.Harmless call) : B.LabelsAgree index key memory calls := by
  have reached : ∀ before, before <+: calls → ∃ d s, (B.dense index key).run before = .ok d ∧
      (B.sparse memory).run before = .ok s ∧ B.Denotes d s := by
    intro before start
    obtain ⟨s, sparse⟩ := SubClass.run_prefix run start
    obtain ⟨d, dense, eq⟩ := run_denotes index key
      (fun call mem => harmless call (start.subset mem)) sparse
    exact ⟨d, s, dense, sparse, eq⟩
  refine ⟨?_, fun a legal => answer_nil legal, ?_, ?_⟩
  · intro before start a legal
    obtain ⟨d, s, dense, sparse, eq⟩ := reached before start
    obtain ⟨y, val⟩ := sparse_sub_ok legal s
    have sparseValue : (B.sparse memory).answer before a = .ok y :=
      (SubClass.answer_eq sparse a).trans val
    exact ⟨y, (answer_denotes dense sparse eq a).trans sparseValue, sparseValue⟩
  · intro before a x start
    obtain ⟨d, s, dense, sparse, eq⟩ := reached _ ((prefix_append _ _).trans start)
    obtain ⟨st', run'⟩ := SubClass.run_prefix run start
    have unbounded : B.lcap (a / 2) = 0 := harmless (.setSub a x) (start.subset (by simp))
    have val := (answer_setSub dense sparse eq run').2.2
    rw [unbounded, zero_add] at val
    exact val
  · intro before a lambda start
    obtain ⟨d, s, dense, sparse, eq⟩ := reached _ ((prefix_append _ _).trans start)
    obtain ⟨d', s', dense', sparse', eq'⟩ := reached _ start
    obtain ⟨y, val, val'⟩ := sparse_answer_setSubRelative sparse eq sparse'
    exact ⟨y, (answer_denotes dense sparse eq a).trans val,
      (answer_denotes dense' sparse' eq' a).trans val'⟩

theorem boundedArcs_arcs : 2 ≤ 2 := le_refl 2

theorem boundedArcs_nodes : 0 < 2 → 0 < 2 := by decide

/-- Two nodes and two parallel arcs, the second one with the lower bound one. -/
def boundedArcs : ArcBounds where
  nMax := 2
  mAct := 2
  mMax := 2
  lcap := fun e => if e = 0 then 0 else 1
  ucap := fun _ => 3
  mAct_le := boundedArcs_arcs
  nodes := boundedArcs_nodes
  nonneg := by
    intro e _
    split_ifs <;> norm_num
  ordered := by
    intro e _
    split_ifs <;> norm_num

end ArcBounds

end Goblin
