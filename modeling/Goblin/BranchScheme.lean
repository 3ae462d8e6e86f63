import Goblin.Augment
import Goblin.Library.Termination
import Mathlib.Data.List.GetD

/-!
# Branch and bound

A `branchScheme` keeps a list of branch nodes that have been explored. It takes a node from the
list, by depth first or by best first search, restricts a variable in two ways, and inspects both
results: a node is cut off unless its relaxation improves the saved objective by one, it is saved
if it is feasible, and otherwise it is added to the list. Whenever a solution has been saved, nodes
which are no longer of interest are stripped from the list.

A class of branch nodes is given by its virtual methods. It is exact for a set of solutions if the
relaxations bound the solutions below a node, a restricted variable splits them, feasible nodes
attain their objective, and every restriction leaves less decisions (`ExactFamily`). Then the
search ends with the best solution or the a priori bound.
-/

set_option autoImplicit false

namespace Goblin

open Library List

variable {bound b : ℚ}

/-- `TSearchLevel` -/
inductive SearchLevel where
  | feasible
  | construct
  | exhaustive
deriving DecidableEq

/-- `TSearchState` -/
inductive SearchState where
  | initialDFS
  | constructBFS
  | constructDFS
  | exhaustiveBFS
  | exhaustiveDFS
deriving DecidableEq

/-- The virtual methods of a class of branch nodes. `SolveRelaxation` depends on the data of the
node only, so `Objective` is a value. The directions tell whether `RAISE_FIRST` is returned. -/
structure BranchClass (N : Type) where
  objective : N → ℚ
  feasible : N → Bool
  selectVariable : N → Except Raise ℕ
  directionConstructive : N → ℕ → Bool
  directionExhaustive : N → ℕ → Bool
  raise : N → ℕ → Except Raise N
  lower : N → ℕ → Except Raise N
  localSearch : N → ℚ
  maximize : Bool
  infeasibility : ℚ

/-- The controller. `running` is `SolverRunning()` after so many nodes have been evaluated. -/
structure BranchContext where
  epsilon : ℚ
  maxBBNodes : ℕ
  maxBBIterations : ℤ
  running : ℕ → Bool

/-- The data of a `branchScheme`. The list `saved` has the nodes for which `SaveSolution` has been
called, the last one first. -/
structure BranchScheme (N : Type) where
  active : List N
  nActive : ℕ
  nIterations : ℕ
  feasible : Bool
  savedObjective : ℚ
  bestBound : ℚ
  saved : List N

namespace BranchClass

variable {N : Type} (C : BranchClass N) (CT : BranchContext) (level : SearchLevel) (depth : ℕ)

/-! ## The methods -/

def sign : ℚ := if C.maximize then -1 else 1

def queueExploredNode (x : N) (st : BranchScheme N) : BranchScheme N :=
  { st with
    active := x :: st.active
    nActive := st.nActive + 1
    bestBound := if C.sign * C.objective x < C.sign * st.bestBound then C.objective x
      else st.bestBound }

/-- The loop of `StripQueue`, behind a node that stays. The node that follows a deleted one
is passed over. The result includes the number of deleted nodes. -/
def strip (cut : N → Bool) : List N → List N × ℕ
  | [] => ([], 0)
  | [y] => if cut y then ([], 1) else ([y], 0)
  | y :: z :: rest =>
    if cut y then (z :: (strip cut rest).1, (strip cut rest).2 + 1)
    else (y :: (strip cut (z :: rest)).1, (strip cut (z :: rest)).2)

def stripQueue (st : BranchScheme N) : BranchScheme N :=
  match st.active with
  | [] => st
  | first :: rest =>
    let stripped := strip (fun y => decide
      (C.sign * st.savedObjective + CT.epsilon - 1 < C.sign * C.objective y)) rest
    { st with active := first :: stripped.1, nActive := st.nActive - stripped.2 }

/-- The node is worth to be explored. -/
def Improves (x : N) (st : BranchScheme N) : Prop :=
  C.sign * C.objective x ≤ C.sign * st.savedObjective + CT.epsilon - 1 ∨
    (C.sign * C.objective x ≤ C.sign * st.savedObjective + CT.epsilon ∧
      C.objective x ≠ C.infeasibility ∧ st.feasible = false)

instance (x : N) (st : BranchScheme N) : Decidable (C.Improves CT x st) :=
  inferInstanceAs (Decidable (_ ∨ _))

/-- `Inspect`. The Boolean tells whether the node is to be deleted. -/
def inspect (x : N) (st : BranchScheme N) : BranchScheme N × Bool :=
  if C.Improves CT x st then
    if C.feasible x then
      let st := C.stripQueue CT { st with
        feasible := true
        savedObjective := C.localSearch x
        saved := x :: st.saved }
      ({ st with nIterations := st.nIterations + 1 }, true)
    else
      let st := C.queueExploredNode x st
      ({ st with nIterations := st.nIterations + 1 }, false)
  else ({ st with nIterations := st.nIterations + 1 }, true)

section

variable (st : BranchScheme N)

/-- `SearchState`. A division by zero is a fault. -/
def searchState : Except Raise SearchState :=
  if st.nIterations < 5 * depth ∧ level ≠ .exhaustive then .ok .initialDFS
  else if CT.maxBBNodes * 100 < st.nActive + depth + 2 then .ok .exhaustiveDFS
  else do
    let dfs ← if level ≠ .exhaustive ∧ 0 < depth then
        if depth / 2 = 0 then .error .fault
        else .ok (decide (depth / 20 < st.nIterations % (depth / 2)))
      else .ok false
    if dfs then return .exhaustiveDFS
    else if level = .exhaustive ∨ 2 * CT.maxBBNodes * 100 < 3 * st.nActive then
      return .exhaustiveBFS
    else return .constructBFS

/-- The loop of the best first search: the number of passed nodes, the position of the best one
and its objective. -/
def bestPosition (first : N) (rest : List N) : ℕ :=
  (rest.foldl (fun (found : ℕ × ℕ × ℚ) x =>
    if C.sign * C.objective x < C.sign * found.2.2 then (found.1 + 1, found.1 + 1, C.objective x)
    else (found.1 + 1, found.2)) (0, 0, C.objective first)).2.1

def selectActiveNode : Except Raise (BranchScheme N × N) :=
  match st.active with
  | [] => .error .fault
  | first :: rest => do
    let state ← searchState CT level depth st
    let position := if state ≠ .constructBFS ∧ state ≠ .exhaustiveBFS then 0
      else C.bestPosition first rest
    let active := (first :: rest).eraseIdx position
    return ({ st with
      active := active
      nActive := st.nActive - 1
      bestBound := active.foldl (fun bound x =>
        if C.sign * C.objective x < C.sign * bound then C.objective x else bound)
        st.savedObjective }, (first :: rest).getD position first)

/-- The limits have not been reached. -/
def WithinLimits : Prop :=
  CT.running st.nIterations = true ∧ st.nActive < CT.maxBBNodes * 100 ∧
    (CT.maxBBIterations < 0 ∨ (st.nIterations : ℤ) < CT.maxBBIterations * 1000)

/-- There are active nodes left that may improve the solution. -/
def Open : Prop :=
  0 < st.nActive ∧ (level ≠ .feasible ∨ st.feasible = false) ∧
    (C.sign * st.bestBound ≤ C.sign * st.savedObjective + CT.epsilon - 1 ∨
      (C.sign * st.bestBound ≤ C.sign * st.savedObjective + CT.epsilon ∧ st.feasible = false))

end

instance (st : BranchScheme N) : Decidable (WithinLimits CT st) :=
  inferInstanceAs (Decidable (_ ∧ _))

instance (st : BranchScheme N) : Decidable (C.Open CT level st) :=
  inferInstanceAs (Decidable (_ ∧ _))

/-- A round of `Optimize`. The node itself becomes the left child. -/
def round (st : BranchScheme N) : Except Raise (BranchScheme N ⊕ BranchScheme N) :=
  if WithinLimits CT st ∧ C.Open CT level st then do
    let (st, x) ← C.selectActiveNode CT level depth st
    let i ← C.selectVariable x
    let raiseFirst := if st.feasible then C.directionExhaustive x i
      else C.directionConstructive x i
    let right ← C.raise x i
    let left ← C.lower x i
    if raiseFirst then return .inl (C.inspect CT right (C.inspect CT left st).1).1
    else return .inl (C.inspect CT left (C.inspect CT right st).1).1
  else .ok (.inr st)

/-- The scheme before the root is inspected. -/
def initial (root : N) (aPrioriBound : ℚ) : BranchScheme N where
  active := []
  nActive := 0
  nIterations := 0
  feasible := decide (aPrioriBound ≠ C.infeasibility)
  savedObjective := aPrioriBound
  bestBound := C.objective root
  saved := []

/-- The end of the constructor: unless the search has been interrupted, the bound is set to the
saved objective. -/
def conclude (st : BranchScheme N) : BranchScheme N :=
  if C.sign * st.bestBound ≤ C.sign * (st.savedObjective + CT.epsilon) - 1 ∨
      (C.sign * st.bestBound ≤ C.sign * (st.savedObjective + CT.epsilon) ∧
        st.feasible = false ∧ 0 < st.nActive) then st
  else { st with bestBound := st.savedObjective }

/-- The constructor, with `Optimize`. -/
def branchScheme (fuel : ℕ) (root : N) (aPrioriBound : ℚ) : Except Raise (BranchScheme N) :=
  let inspected := C.inspect CT root (C.initial root aPrioriBound)
  if inspected.2 then .ok (C.conclude CT inspected.1)
  else (loop .fuel (C.round CT level depth) fuel inspected.1).map (C.conclude CT)

/-! ## Exact families -/

variable {S : Type} {C} {CT} {level} {depth} {st st' : BranchScheme N}

/-- A family of branch nodes with the solutions below each of them, for which the methods do what
a branch and bound method needs. The solutions have integral objectives. -/
structure ExactFamily (C : BranchClass N) (family : N → Prop) (below : N → Set S) (value : S → ℤ)
    (decisions : N → ℕ) (root : N) : Prop where
  member : family root
  /-- The relaxation bounds the solutions, and no solution is as bad as infeasibility. -/
  bound : ∀ x, family x → ∀ s ∈ below x, C.sign * C.objective x ≤ C.sign * value s
  finite : ∀ s ∈ below root, C.sign * value s < C.sign * C.infeasibility
  /-- Feasible nodes attain their objective, or a better one by a local search. -/
  attained : ∀ x, family x → C.feasible x = true → C.objective x ≠ C.infeasibility →
    C.sign * C.localSearch x ≤ C.sign * C.objective x ∧
      ∃ s ∈ below root, (value s : ℚ) = C.localSearch x
  /-- The other nodes are split, and less decisions are left. -/
  split : ∀ x, family x → C.feasible x = false → C.objective x ≠ C.infeasibility →
    ∃ i left right, C.selectVariable x = .ok i ∧ C.raise x i = .ok right ∧
      C.lower x i = .ok left ∧ family left ∧ family right ∧ below x = below left ∪ below right ∧
      decisions left < decisions x ∧ decisions right < decisions x

/-- The a priori bound is the objective of a solution that is known already, if there is one. -/
def APriori (C : BranchClass N) (bound : ℚ) : Prop :=
  bound = C.infeasibility ∨ ∃ k : ℤ, bound = k ∧ C.sign * k < C.sign * C.infeasibility

theorem APriori.le (aPriori : APriori C bound) : C.sign * bound ≤ C.sign * C.infeasibility := by
  rcases aPriori with rfl | ⟨k, rfl, less⟩
  · exact le_rfl
  · exact less.le

/-- What the search is for: the best of the a priori bound and the solutions. -/
structure Solves (C : BranchClass N) (family : N → Prop) (below : N → Set S) (value : S → ℤ)
    (root : N) (aPrioriBound : ℚ) (st : BranchScheme N) : Prop where
  better : C.sign * st.savedObjective ≤ C.sign * aPrioriBound
  bound : ∀ s ∈ below root, C.sign * st.savedObjective ≤ C.sign * value s
  attained : st.savedObjective = aPrioriBound ∨
    ∃ s ∈ below root, (value s : ℚ) = st.savedObjective
  feasible : st.feasible = true ↔ (∃ s, s ∈ below root) ∨ aPrioriBound ≠ C.infeasibility
  /-- The last node that has been saved is optimal if the a priori bound is not. -/
  saved : (∃ s ∈ below root, C.sign * value s < C.sign * aPrioriBound) →
    ∃ x rest, st.saved = x :: rest ∧ family x ∧ C.feasible x = true ∧
      C.localSearch x = st.savedObjective ∧ ∃ s ∈ below root, (value s : ℚ) = st.savedObjective
  unsaved : (∀ s ∈ below root, C.sign * aPrioriBound ≤ C.sign * value s) → st.saved = []

/-- The states between the rounds. -/
inductive Rounds (C : BranchClass N) (CT : BranchContext) (level : SearchLevel) (depth : ℕ)
    (root : N) (aPrioriBound : ℚ) : BranchScheme N → Prop
  | start {st : BranchScheme N}
      (kept : C.inspect CT root (C.initial root aPrioriBound) = (st, false)) :
      Rounds C CT level depth root aPrioriBound st
  | next {st st' : BranchScheme N} (rounds : Rounds C CT level depth root aPrioriBound st)
      (step : C.round CT level depth st = .ok (.inl st')) :
      Rounds C CT level depth root aPrioriBound st'

/-- The search goes on, and `SearchState` divides by zero. -/
def DividesByZero (C : BranchClass N) (CT : BranchContext) (level : SearchLevel) (depth : ℕ)
    (st : BranchScheme N) : Prop :=
  (WithinLimits CT st ∧ C.Open CT level st) ∧ level ≠ .exhaustive ∧ depth = 1 ∧
    5 ≤ st.nIterations ∧ st.nActive + 3 ≤ CT.maxBBNodes * 100

/-! ## The list of active nodes -/

theorem sign_eq (C : BranchClass N) : C.sign = 1 ∨ C.sign = -1 := by
  unfold sign
  split_ifs
  · exact .inr rfl
  · exact .inl rfl

/-- Integral objectives that differ by less than one are not better. -/
theorem sign_gap {a b : ℤ} (gap : C.sign * b - 1 < C.sign * a) : C.sign * (b : ℚ) ≤ C.sign * a := by
  rcases C.sign_eq with sense | sense <;> rw [sense] at gap ⊢
  · have less : (b : ℚ) < a + 1 := by linarith
    have integral : b ≤ a := by exact_mod_cast Int.lt_add_one_iff.1 (by exact_mod_cast less)
    have cast : (b : ℚ) ≤ a := by exact_mod_cast integral
    linarith
  · have less : (a : ℚ) < b + 1 := by linarith
    have integral : a ≤ b := by exact_mod_cast Int.lt_add_one_iff.1 (by exact_mod_cast less)
    have cast : (a : ℚ) ≤ b := by exact_mod_cast integral
    linarith

theorem strip_spec (cut : N → Bool) (l : List N) :
    (strip cut l).1.Sublist l ∧ (strip cut l).1.length + (strip cut l).2 = l.length ∧
      ∀ y ∈ l, y ∈ (strip cut l).1 ∨ cut y = true := by
  induction l using strip.induct cut with
  | case1 => exact ⟨Sublist.refl _, rfl, by simp⟩
  | case2 y here =>
    rw [strip, if_pos here]
    exact ⟨nil_sublist _, rfl, by simp [here]⟩
  | case3 y here =>
    rw [strip, if_neg here]
    exact ⟨Sublist.refl _, rfl, by simp⟩
  | case4 y z rest here ih =>
    obtain ⟨sublist, count, kept⟩ := ih
    rw [strip, if_pos here]
    refine ⟨(sublist.cons_cons z).cons y, ?_, fun x mem => ?_⟩
    · simp only [length_cons]
      omega
    · rcases mem_cons.1 mem with rfl | mem
      · exact .inr here
      · rcases mem_cons.1 mem with rfl | mem
        · exact .inl mem_cons_self
        · exact (kept x mem).imp_left (mem_cons_of_mem z)
  | case5 y z rest here ih =>
    obtain ⟨sublist, count, kept⟩ := ih
    rw [strip, if_neg here]
    refine ⟨sublist.cons_cons y, ?_, fun x mem => ?_⟩
    · simp only [length_cons] at count ⊢
      omega
    · rcases mem_cons.1 mem with rfl | mem
      · exact .inl mem_cons_self
      · exact (kept x mem).imp_left (mem_cons_of_mem y)

theorem stripQueue_spec (C : BranchClass N) (CT : BranchContext) (st : BranchScheme N) :
    ∃ active nActive, C.stripQueue CT st = { st with active := active, nActive := nActive } ∧
      active.Sublist st.active ∧ (st.nActive = st.active.length → nActive = active.length) ∧
      ∀ y ∈ st.active, y ∈ active ∨
        C.sign * st.savedObjective + CT.epsilon - 1 < C.sign * C.objective y := by
  unfold stripQueue
  cases active : st.active with
  | nil =>
    refine ⟨[], st.nActive, ?_, Sublist.refl _, fun count => count, by simp⟩
    simp only
    rw [← active]
  | cons first rest =>
    obtain ⟨sublist, count, kept⟩ := strip_spec (fun y => decide
      (C.sign * st.savedObjective + CT.epsilon - 1 < C.sign * C.objective y)) rest
    refine ⟨_, _, rfl, sublist.cons_cons first, fun all => ?_, fun y mem => ?_⟩
    · rw [all, length_cons, length_cons]
      omega
    · rcases mem_cons.1 mem with rfl | mem
      · exact .inl mem_cons_self
      · refine (kept y mem).imp (mem_cons_of_mem first) fun cut => ?_
        exact of_decide_eq_true cut

theorem bestPosition_le (first : N) (rest : List N) : C.bestPosition first rest ≤ rest.length := by
  have general : ∀ (l : List N) (found : ℕ × ℕ × ℚ), found.2.1 ≤ found.1 →
      (l.foldl (fun (found : ℕ × ℕ × ℚ) x =>
        if C.sign * C.objective x < C.sign * found.2.2 then
          (found.1 + 1, found.1 + 1, C.objective x)
        else (found.1 + 1, found.2)) found).2.1 ≤ found.1 + l.length := by
    intro l
    induction l with
    | nil => exact fun found low => low
    | cons x l ih =>
      intro found low
      rw [foldl_cons, length_cons]
      split_ifs
      · exact (ih (found.1 + 1, found.1 + 1, C.objective x) le_rfl).trans (by dsimp only; omega)
      · exact (ih (found.1 + 1, found.2) (low.trans (Nat.le_succ found.1))).trans
          (by dsimp only; omega)
  exact (general rest (0, 0, C.objective first) le_rfl).trans (by rw [Nat.zero_add])

theorem foldl_bound (bound : ℚ) (l : List N) : C.sign * l.foldl (fun bound x =>
        if C.sign * C.objective x < C.sign * bound then C.objective x else bound) bound ≤
      C.sign * bound ∧ ∀ x ∈ l, C.sign * l.foldl (fun bound x =>
        if C.sign * C.objective x < C.sign * bound then C.objective x else bound) bound ≤
      C.sign * C.objective x := by
  induction l generalizing bound with
  | nil => exact ⟨le_rfl, by simp⟩
  | cons y l ih =>
    obtain ⟨first, rest⟩ := ih
      (if C.sign * C.objective y < C.sign * bound then C.objective y else bound)
    have chosen : C.sign *
        (if C.sign * C.objective y < C.sign * bound then C.objective y else bound) ≤
          C.sign * bound ∧
        C.sign * (if C.sign * C.objective y < C.sign * bound then C.objective y else bound) ≤
          C.sign * C.objective y := by
      split_ifs with less
      · exact ⟨less.le, le_rfl⟩
      · exact ⟨le_rfl, not_lt.1 less⟩
    rw [foldl_cons]
    refine ⟨first.trans chosen.1, fun x mem => ?_⟩
    rcases mem_cons.1 mem with rfl | mem
    · exact first.trans chosen.2
    · exact rest x mem

/-! ## The invariant -/

/-- The invariant of the search. The nodes of `pending` have been taken from the list, or not been
added to it yet. -/
structure SchemeInv (C : BranchClass N) (family : N → Prop) (below : N → Set S) (value : S → ℤ)
    (root : N) (aPrioriBound : ℚ) (pending : List N) (st : BranchScheme N) : Prop where
  count : st.nActive = st.active.length
  live : ∀ x ∈ st.active, C.feasible x = false ∧ C.objective x ≠ C.infeasibility
  inside : ∀ x ∈ st.active ++ pending, family x ∧ below x ⊆ below root
  covered : ∀ s ∈ below root, C.sign * st.savedObjective ≤ C.sign * value s ∨
    ∃ x ∈ st.active ++ pending, s ∈ below x
  bestBound : ∀ x ∈ st.active, C.sign * st.bestBound ≤ C.sign * C.objective x
  better : C.sign * st.savedObjective ≤ C.sign * aPrioriBound
  attained : (st.savedObjective = aPrioriBound ∧ st.saved = []) ∨
    (C.sign * st.savedObjective < C.sign * aPrioriBound ∧
      ∃ x rest, st.saved = x :: rest ∧ family x ∧ C.feasible x = true ∧
        C.localSearch x = st.savedObjective ∧ ∃ s ∈ below root, (value s : ℚ) = st.savedObjective)
  feasible : st.feasible = true ↔ st.savedObjective ≠ C.infeasibility

variable {family : N → Prop} {below : N → Set S} {value : S → ℤ} {decisions : N → ℕ} {root : N}
  {aPrioriBound : ℚ} {pending : List N} {x : N}

theorem SchemeInv.initial (exactness : ExactFamily C family below value decisions root) :
    SchemeInv C family below value root aPrioriBound [root] (C.initial root aPrioriBound) where
  count := rfl
  live := nofun
  inside y member := by
    rw [mem_singleton.1 member]
    exact ⟨exactness.member, subset_rfl⟩
  covered s member := .inr ⟨root, mem_singleton_self root, member⟩
  bestBound := nofun
  better := le_rfl
  attained := .inl ⟨rfl, rfl⟩
  feasible := decide_eq_true_iff

section

variable (inv : SchemeInv C family below value root aPrioriBound pending st)
include inv

theorem SchemeInv.integral (aPriori : C.APriori aPrioriBound) (feasible : st.feasible = true) :
    ∃ k : ℤ, st.savedObjective = k := by
  rcases inv.attained with ⟨eq, -⟩ | ⟨-, -, -, -, -, -, -, s, -, eq⟩
  · rcases aPriori with infeasible | ⟨k, value, -⟩
    · exact absurd (eq.trans infeasible) (inv.feasible.1 feasible)
    · exact ⟨k, eq.trans value⟩
  · exact ⟨value s, eq.symm⟩

theorem SchemeInv.no_better
    (exactness : ExactFamily C family below value decisions root) (aPriori : C.APriori aPrioriBound)
    {s : S} (solution : s ∈ below root) (bounded : C.sign * bound ≤ C.sign * value s)
    (worse : C.sign * st.savedObjective - 1 < C.sign * bound)
    (cut : st.feasible = false → C.sign * bound ≤ C.sign * st.savedObjective →
      bound = C.infeasibility) : C.sign * st.savedObjective ≤ C.sign * value s := by
  by_cases feasible : st.feasible = true
  · obtain ⟨k, integral⟩ := inv.integral aPriori feasible
    rw [integral] at worse ⊢
    exact sign_gap (worse.trans_le bounded)
  -- without a solution the saved objective is infeasibility, and all solutions are better
  have none : st.savedObjective = C.infeasibility := by
    by_contra other
    exact feasible (inv.feasible.2 other)
  have finite := exactness.finite s solution
  by_cases within : C.sign * bound ≤ C.sign * st.savedObjective
  · rw [cut (by simpa using feasible) within] at bounded
    exact absurd bounded (not_le.2 finite)
  · rw [none] at within
    linarith

end

theorem inspect_keeps (exactness : ExactFamily C family below value decisions root)
    (aPriori : C.APriori aPrioriBound) (exactly : CT.epsilon = 0)
    (inv : SchemeInv C family below value root aPrioriBound (x :: pending) st) :
    SchemeInv C family below value root aPrioriBound pending (C.inspect CT x st).1 := by
  have family_x := inv.inside x (mem_append_right _ mem_cons_self)
  have smaller : ∀ y ∈ st.active ++ pending, y ∈ st.active ++ x :: pending := by
    intro y mem
    rcases mem_append.1 mem with old | later
    · exact mem_append_left _ old
    · exact mem_append_right _ (mem_cons_of_mem x later)
  -- a solution is below one of the other nodes, or below this one
  have cases : ∀ s ∈ below root, C.sign * st.savedObjective ≤ C.sign * value s ∨
      (∃ y ∈ st.active ++ pending, s ∈ below y) ∨ s ∈ below x := by
    intro s solution
    rcases inv.covered s solution with done | ⟨y, mem, inY⟩
    · exact .inl done
    · rcases mem_append.1 mem with old | later
      · exact .inr (.inl ⟨y, mem_append_left _ old, inY⟩)
      · rcases mem_cons.1 later with rfl | later
        · exact .inr (.inr inY)
        · exact .inr (.inl ⟨y, mem_append_right _ later, inY⟩)
  unfold inspect
  by_cases improves : C.Improves CT x st
  · rw [if_pos improves]
    rw [Improves, exactly, add_zero] at improves
    have notWorse : C.sign * C.objective x ≤ C.sign * st.savedObjective := by
      rcases improves with less | ⟨less, -⟩ <;> linarith
    have finite_x : C.objective x ≠ C.infeasibility := by
      intro eq
      rcases improves with less | ⟨-, other, -⟩
      · rw [eq] at less
        linarith [inv.better, aPriori.le]
      · exact other eq
    split_ifs with feasible
    · obtain ⟨attains, s0, solution0, value0⟩ :=
        exactness.attained x family_x.1 feasible finite_x
      have better : C.sign * C.localSearch x ≤ C.sign * st.savedObjective :=
        attains.trans notWorse
      have strictly : C.sign * C.localSearch x < C.sign * aPrioriBound := by
        rcases improves with less | ⟨-, -, infeasible⟩
        · linarith [inv.better]
        have none : st.savedObjective = C.infeasibility := by
          by_contra other
          exact absurd (inv.feasible.2 other) (by simp [infeasible])
        have finite := exactness.finite s0 solution0
        rw [value0, ← none] at finite
        exact finite.trans_le inv.better
      obtain ⟨active, nActive, stripped, sublist, count, kept⟩ := C.stripQueue_spec CT { st with
        feasible := true
        savedObjective := C.localSearch x
        saved := x :: st.saved }
      dsimp only at stripped kept count
      rw [stripped]
      have old : ∀ y ∈ active ++ pending, y ∈ st.active ++ pending := fun y mem =>
        append_subset.2 ⟨fun z inActive => mem_append_left _ (sublist.subset inActive),
          subset_append_right _ _⟩ mem
      refine ⟨count inv.count, fun y mem => inv.live y (sublist.subset mem),
        fun y mem => inv.inside y (smaller y (old y mem)), fun s solution => ?_,
        fun y mem => inv.bestBound y (sublist.subset mem), better.trans inv.better,
        .inr ⟨strictly, x, st.saved, rfl, family_x.1, feasible, rfl, s0, solution0, value0⟩,
        iff_of_true rfl fun eq => ?_⟩
      · dsimp only
        rcases cases s solution with done | ⟨y, mem, inY⟩ | here
        · exact .inl (better.trans done)
        · rcases mem_append.1 mem with inActive | later
          · rcases kept y inActive with stays | cut
            · exact .inr ⟨y, mem_append_left _ stays, inY⟩
            · have bounded := exactness.bound y (inv.inside y (smaller y mem)).1 s inY
              rw [exactly, add_zero, ← value0] at cut
              rw [← value0]
              exact .inl (sign_gap (cut.trans_le bounded))
          · exact .inr ⟨y, mem_append_right _ later, inY⟩
        · exact .inl (attains.trans (exactness.bound x family_x.1 s here))
      · have less := exactness.finite s0 solution0
        have value : C.localSearch x = C.infeasibility := eq
        rw [value0, value] at less
        exact lt_irrefl _ less
    · refine ⟨congrArg (· + 1) inv.count, fun y mem => ?_, fun y mem => ?_,
        fun s solution => ?_, fun y mem => ?_, inv.better, inv.attained, inv.feasible⟩
      · rcases mem_cons.1 mem with rfl | old
        · exact ⟨by simpa using feasible, finite_x⟩
        · exact inv.live y old
      · rw [queueExploredNode, cons_append] at mem
        rcases mem_cons.1 mem with rfl | old
        · exact family_x
        · exact inv.inside y (smaller y old)
      · rcases cases s solution with done | ⟨y, old, inY⟩ | here
        · exact .inl done
        · exact .inr ⟨y, mem_cons_of_mem x old, inY⟩
        · exact .inr ⟨x, mem_cons_self, here⟩
      · change C.sign * (if C.sign * C.objective x < C.sign * st.bestBound then C.objective x
          else st.bestBound) ≤ _
        rcases mem_cons.1 mem with rfl | old
        · split_ifs with less
          · exact le_rfl
          · exact not_lt.1 less
        · have before := inv.bestBound y old
          split_ifs with less
          · exact less.le.trans before
          · exact before
  · rw [if_neg improves]
    rw [Improves, exactly, add_zero, not_or] at improves
    refine ⟨inv.count, inv.live, fun y mem => inv.inside y (smaller y mem),
      fun s solution => ?_, inv.bestBound, inv.better, inv.attained, inv.feasible⟩
    rcases cases s solution with done | other | here
    · exact .inl done
    · exact .inr other
    · refine .inl (inv.no_better exactness aPriori solution
        (exactness.bound x family_x.1 s here) (not_le.1 improves.1) fun infeasible within => ?_)
      by_contra finite
      exact improves.2 ⟨within, finite, infeasible⟩

/-! ## Rounds -/

theorem inspect_sublist (C : BranchClass N) (CT : BranchContext) (x : N) (st : BranchScheme N) :
    (C.inspect CT x st).1.active.Sublist (x :: st.active) := by
  unfold inspect
  split_ifs
  · obtain ⟨active, nActive, stripped, sublist, -⟩ := C.stripQueue_spec CT { st with
      feasible := true
      savedObjective := C.localSearch x
      saved := x :: st.saved }
    dsimp only
    rw [stripped]
    exact sublist.cons x
  · exact Sublist.refl _
  · exact sublist_cons_self x _

/-- `SearchState` returns unless it divides by zero. -/
theorem searchState_ok (level : SearchLevel) (depth : ℕ) (st : BranchScheme N)
    (defined : level ≠ .exhaustive → depth = 1 → 5 ≤ st.nIterations →
      CT.maxBBNodes * 100 < st.nActive + 3) :
    ∃ state, searchState CT level depth st = .ok state := by
  unfold searchState
  by_cases early : st.nIterations < 5 * depth ∧ level ≠ .exhaustive
  · exact ⟨_, if_pos early⟩
  rw [if_neg early]
  by_cases full : CT.maxBBNodes * 100 < st.nActive + depth + 2
  · exact ⟨_, if_pos full⟩
  rw [if_neg full]
  have positive : ¬ (level ≠ .exhaustive ∧ 0 < depth ∧ depth / 2 = 0) := by
    rintro ⟨notExhaustive, pos, zero⟩
    have one : depth = 1 := by omega
    subst one
    have late : ¬ st.nIterations < 5 * 1 := fun less => early ⟨less, notExhaustive⟩
    have := defined notExhaustive rfl (by omega)
    omega
  by_cases construct : level ≠ .exhaustive ∧ 0 < depth
  · have half : ¬ depth / 2 = 0 := fun zero => positive ⟨construct.1, construct.2, zero⟩
    rw [if_pos construct, if_neg half]
    simp only [bind, Except.bind]
    split_ifs <;> exact ⟨_, rfl⟩
  · rw [if_neg construct]
    simp only [bind, Except.bind]
    split_ifs <;> exact ⟨_, rfl⟩

theorem searchState_fault {level : SearchLevel} (st : BranchScheme N)
    (notExhaustive : level ≠ .exhaustive) (late : 5 ≤ st.nIterations)
    (room : st.nActive + 3 ≤ CT.maxBBNodes * 100) : searchState CT level 1 st = .error .fault := by
  unfold searchState
  rw [if_neg (by omega), if_neg (by omega), if_pos ⟨notExhaustive, Nat.one_pos⟩, if_pos rfl]
  rfl

/-- What the decisions of the active nodes leave to do. -/
def work (decisions : N → ℕ) (l : List N) : ℕ := (l.map fun x => 3 ^ decisions x).sum

/-- **A node is selected**: it is no longer in the list, and the bound is computed anew. -/
theorem selectActiveNode_spec
    (inv : SchemeInv C family below value root aPrioriBound [] st) (some : 0 < st.nActive)
    (defined : ∃ state, searchState CT level depth st = .ok state) (decisions : N → ℕ) :
    ∃ st' x, C.selectActiveNode CT level depth st = .ok (st', x) ∧ family x ∧
      C.feasible x = false ∧ C.objective x ≠ C.infeasibility ∧
      SchemeInv C family below value root aPrioriBound [x] st' ∧
      work decisions st.active = 3 ^ decisions x + work decisions st'.active := by
  obtain ⟨state, found⟩ := defined
  unfold selectActiveNode
  cases active : st.active with
  | nil =>
    rw [inv.count, active] at some
    exact absurd some (lt_irrefl 0)
  | cons first rest =>
    dsimp only
    rw [found]
    simp only [bind, Except.bind]
    -- the position lies in the list
    obtain ⟨position, chosen, low⟩ : ∃ position,
        (if state ≠ .constructBFS ∧ state ≠ .exhaustiveBFS then 0
          else C.bestPosition first rest) = position ∧ position < (first :: rest).length := by
      refine ⟨_, rfl, ?_⟩
      rw [length_cons]
      split_ifs
      · exact Nat.succ_pos _
      · exact Nat.lt_succ_of_le (C.bestPosition_le first rest)
    rw [chosen, getD_eq_getElem _ _ low]
    have perm := getElem_cons_eraseIdx_perm low
    have mem : (first :: rest)[position] ∈ st.active := by
      rw [active]
      exact getElem_mem low
    have smaller : ∀ y ∈ (first :: rest).eraseIdx position, y ∈ st.active := by
      intro y inRest
      rw [active]
      exact (eraseIdx_sublist _ _).subset inRest
    obtain ⟨notFeasible, finite⟩ := inv.live _ mem
    refine ⟨_, _, rfl, (inv.inside _ (mem_append_left _ mem)).1, notFeasible, finite,
      ⟨?_, fun y inRest => inv.live y (smaller y inRest), fun y inRest => ?_,
        fun s solution => ?_, ?_, inv.better, inv.attained, inv.feasible⟩, ?_⟩
    · dsimp only
      rw [inv.count, active, length_eraseIdx_of_lt low]
    · refine inv.inside y (mem_append_left _ ?_)
      rcases mem_append.1 inRest with old | last
      · exact smaller y old
      · rw [mem_singleton.1 last]
        exact mem
    · rcases inv.covered s solution with done | ⟨y, inAll, inY⟩
      · exact .inl done
      · rw [append_nil, active, ← perm.mem_iff] at inAll
        refine .inr ⟨y, ?_, inY⟩
        rcases mem_cons.1 inAll with eq | old
        · exact mem_append_right _ (mem_singleton.2 eq)
        · exact mem_append_left _ old
    · exact (foldl_bound (C := C) _ _).2
    · exact ((perm.map fun x => 3 ^ decisions x).sum_eq).symm

/-- **A round keeps the invariant and leaves less to do**, unless it divides by zero. -/
theorem round_spec (exactness : ExactFamily C family below value decisions root)
    (aPriori : C.APriori aPrioriBound) (exactly : CT.epsilon = 0)
    (inv : SchemeInv C family below value root aPrioriBound [] st)
    (continues : WithinLimits CT st ∧ C.Open CT level st)
    (defined : ¬ C.DividesByZero CT level depth st) :
    ∃ st', C.round CT level depth st = .ok (.inl st') ∧
      SchemeInv C family below value root aPrioriBound [] st' ∧
      work decisions st'.active < work decisions st.active := by
  have state : ∃ state, searchState CT level depth st = .ok state := by
    refine searchState_ok level depth st fun notExhaustive one late => ?_
    by_contra room
    exact defined ⟨continues, notExhaustive, one, late, not_lt.1 room⟩
  obtain ⟨st1, x, selected, family_x, notFeasible, finite, inv1, measure1⟩ :=
    selectActiveNode_spec inv continues.2.1 state decisions
  obtain ⟨i, left, right, branching, raised, lowered, familyL, familyR, split, lessL, lessR⟩ :=
    exactness.split x family_x notFeasible finite
  have inside := (inv1.inside x (mem_append_right _ (mem_singleton_self x))).2
  have insideL : below left ⊆ below root := fun s inL => inside (split ▸ Or.inl inL)
  have insideR : below right ⊆ below root := fun s inR => inside (split ▸ Or.inr inR)
  -- the children, in either order, instead of the node
  have children : ∀ y z, family y → family z → below y ⊆ below root → below z ⊆ below root →
      below x = below y ∪ below z →
      SchemeInv C family below value root aPrioriBound [y, z] st1 := by
    intro y z familyY familyZ insideY insideZ union
    refine ⟨inv1.count, inv1.live, fun w mem => ?_, fun s solution => ?_, inv1.bestBound,
      inv1.better, inv1.attained, inv1.feasible⟩
    · rcases mem_append.1 mem with old | new
      · exact inv1.inside w (mem_append_left _ old)
      · rcases mem_pair.1 new with rfl | rfl
        · exact ⟨familyY, insideY⟩
        · exact ⟨familyZ, insideZ⟩
    · rcases inv1.covered s solution with done | ⟨w, mem, inW⟩
      · exact .inl done
      rcases mem_append.1 mem with old | new
      · exact .inr ⟨w, mem_append_left _ old, inW⟩
      · rw [mem_singleton.1 new, union] at inW
        rcases inW with inY | inZ
        · exact .inr ⟨y, by simp, inY⟩
        · exact .inr ⟨z, by simp, inZ⟩
  have both : ∀ y z, decisions y < decisions x → decisions z < decisions x →
      SchemeInv C family below value root aPrioriBound [y, z] st1 →
      SchemeInv C family below value root aPrioriBound []
        (C.inspect CT z (C.inspect CT y st1).1).1 ∧
      work decisions (C.inspect CT z (C.inspect CT y st1).1).1.active <
        work decisions st.active := by
    intro y z lessY lessZ start
    have first := inspect_keeps exactness aPriori exactly start
    refine ⟨inspect_keeps exactness aPriori exactly first, ?_⟩
    have grown : (C.inspect CT z (C.inspect CT y st1).1).1.active.Sublist (z :: y :: st1.active) :=
      (C.inspect_sublist CT z _).trans ((C.inspect_sublist CT y _).cons_cons z)
    have bound : work decisions (C.inspect CT z (C.inspect CT y st1).1).1.active ≤
        3 ^ decisions z + (3 ^ decisions y + work decisions st1.active) :=
      (grown.map fun x => 3 ^ decisions x).sum_le_sum fun k _ => Nat.zero_le k
    obtain ⟨k, pos⟩ : ∃ k, decisions x = k + 1 := ⟨decisions x - 1, by omega⟩
    have powY : 3 ^ decisions y ≤ 3 ^ k := Nat.pow_le_pow_right (by omega) (by omega)
    have powZ : 3 ^ decisions z ≤ 3 ^ k := Nat.pow_le_pow_right (by omega) (by omega)
    have pow : 0 < 3 ^ k := Nat.pow_pos (by omega)
    rw [pos, pow_succ] at measure1
    omega
  unfold round
  rw [if_pos continues, selected]
  simp only [bind, Except.bind, branching, raised, lowered]
  generalize (if st1.feasible = true then C.directionExhaustive x i
    else C.directionConstructive x i) = raiseFirst
  cases raiseFirst with
  | true =>
    exact ⟨_, rfl, both left right lessL lessR
      (children left right familyL familyR insideL insideR split)⟩
  | false =>
    exact ⟨_, rfl, both right left lessR lessL
      (children right left familyR familyL insideR insideL (split.trans (Set.union_comm _ _)))⟩

theorem SchemeInv.solves (inv : SchemeInv C family below value root aPrioriBound [] st)
    (exactness : ExactFamily C family below value decisions root) (aPriori : C.APriori aPrioriBound)
    (exactly : CT.epsilon = 0) (notFeasible : level ≠ .feasible) (closed : ¬ C.Open CT level st) :
    C.Solves family below value root aPrioriBound st := by
  have bound : ∀ s ∈ below root, C.sign * st.savedObjective ≤ C.sign * value s := by
    intro s solution
    rcases inv.covered s solution with done | ⟨x, mem, inX⟩
    · exact done
    rw [append_nil] at mem
    have bounded := (inv.bestBound x mem).trans
      (exactness.bound x (inv.inside x (mem_append_left _ mem)).1 s inX)
    have some : 0 < st.nActive := by
      rw [inv.count]
      exact length_pos_of_mem mem
    rw [Open, exactly, add_zero] at closed
    have exhausted := not_or.1 fun isOpen => closed ⟨some, .inl notFeasible, isOpen⟩
    refine inv.no_better exactness aPriori solution bounded (not_le.1 exhausted.1)
      fun infeasible within => ?_
    exact absurd ⟨within, infeasible⟩ exhausted.2
  refine ⟨inv.better, bound, ?_, ?_, ?_, ?_⟩
  · rcases inv.attained with ⟨eq, -⟩ | ⟨-, -, -, -, -, -, -, attained⟩
    · exact .inl eq
    · exact .inr attained
  · rw [inv.feasible]
    constructor
    · intro finite
      rcases inv.attained with ⟨eq, -⟩ | ⟨-, -, -, -, -, -, -, s, solution, -⟩
      · exact .inr (eq ▸ finite)
      · exact .inl ⟨s, solution⟩
    · rintro (⟨s, solution⟩ | finite) eq
      · have less := (bound s solution).trans_lt (exactness.finite s solution)
        rw [eq] at less
        exact lt_irrefl _ less
      · have better := inv.better
        rw [eq] at better
        rcases aPriori with infeasible | ⟨k, value, less⟩
        · exact finite infeasible
        · rw [value] at better
          exact absurd less (not_lt.2 better)
  · rintro ⟨s, solution, less⟩
    rcases inv.attained with ⟨eq, -⟩ | ⟨-, found⟩
    · have least := bound s solution
      rw [eq] at least
      exact absurd less (not_lt.2 least)
    · exact found
  · intro none
    rcases inv.attained with ⟨-, empty⟩ | ⟨less, -, -, -, -, -, -, s, solution, eq⟩
    · exact empty
    · rw [← eq] at less
      exact absurd less (not_lt.2 (none s solution))

/-! ## The search -/

theorem inspect_cut (cut : (C.inspect CT x st).2 = true) :
    (C.inspect CT x st).1.active.Sublist st.active := by
  unfold inspect at cut ⊢
  split_ifs at cut ⊢
  · obtain ⟨active, nActive, stripped, sublist, -⟩ := C.stripQueue_spec CT { st with
      feasible := true
      savedObjective := C.localSearch x
      saved := x :: st.saved }
    dsimp only
    rw [stripped]
    exact sublist
  · exact Sublist.refl _

theorem round_fault (divides : C.DividesByZero CT level depth st) :
    C.round CT level depth st = .error .fault := by
  obtain ⟨continues, notExhaustive, rfl, late, room⟩ := divides
  unfold round
  rw [if_pos continues]
  unfold selectActiveNode
  cases st.active with
  | nil => rfl
  | cons first rest =>
    dsimp only
    rw [searchState_fault st notExhaustive late room]
    rfl

theorem Rounds.loop_eq (rounds : Rounds C CT level depth root aPrioriBound st) :
    (C.inspect CT root (C.initial root aPrioriBound)).2 = false ∧
      ∀ fuel b, loop .fuel (C.round CT level depth) fuel
        (C.inspect CT root (C.initial root aPrioriBound)).1 = .ok b →
        ∃ fuel', loop .fuel (C.round CT level depth) fuel' st = .ok b := by
  induction rounds with
  | start kept =>
    rw [kept]
    exact ⟨rfl, fun fuel b res => ⟨fuel, res⟩⟩
  | next _ step ih =>
    refine ⟨ih.1, fun fuel b res => ?_⟩
    obtain ⟨fuel', res'⟩ := ih.2 fuel b res
    cases fuel' with
    | zero => cases res'
    | succ fuel' =>
      rw [loop_inl step] at res'
      exact ⟨fuel', res'⟩

theorem Solves.conclude
    (solves : WithinLimits CT st → C.Solves family below value root aPrioriBound st)
    (within : WithinLimits CT (C.conclude CT st)) :
    C.Solves family below value root aPrioriBound (C.conclude CT st) := by
  unfold BranchClass.conclude at within ⊢
  split_ifs at within ⊢
  · exact solves within
  · have found := solves within
    exact ⟨found.better, found.bound, found.attained, found.feasible, found.saved, found.unsaved⟩

/-- **The search solves the problem if it never divides by zero.** -/
theorem branchScheme_solves (exactness : ExactFamily C family below value decisions root)
    (aPriori : C.APriori aPrioriBound) (exactly : CT.epsilon = 0) (notFeasible : level ≠ .feasible)
    (defined : ∀ st, Rounds C CT level depth root aPrioriBound st →
      ¬ C.DividesByZero CT level depth st) :
    ∃ fuel st, C.branchScheme CT level depth fuel root aPrioriBound = .ok st ∧
      (WithinLimits CT st → C.Solves family below value root aPrioriBound st) := by
  have start := inspect_keeps exactness aPriori exactly (SchemeInv.initial exactness)
  unfold branchScheme
  dsimp only
  cases cut : (C.inspect CT root (C.initial root aPrioriBound)).2 with
  | true =>
    refine ⟨0, _, rfl, Solves.conclude fun _ =>
      start.solves exactness aPriori exactly notFeasible fun isOpen => ?_⟩
    have empty := sublist_nil.1 (inspect_cut cut)
    have some := isOpen.1
    rw [start.count, empty] at some
    exact lt_irrefl 0 some
  | false =>
    obtain ⟨st1, res, inv, closed⟩ := loop_of_measure .fuel (C.round CT level depth)
      (fun st => SchemeInv C family below value root aPrioriBound [] st ∧
        Rounds C CT level depth root aPrioriBound st)
      (fun st => work decisions st.active)
      (fun st => SchemeInv C family below value root aPrioriBound [] st ∧
        ¬ (WithinLimits CT st ∧ C.Open CT level st))
      (by
        rintro st ⟨inv, rounds⟩
        by_cases continues : WithinLimits CT st ∧ C.Open CT level st
        · obtain ⟨st', step, inv', less⟩ := round_spec exactness aPriori exactly inv continues
            (defined st rounds)
          exact .inl ⟨st', step, ⟨inv', rounds.next step⟩, less⟩
        · exact .inr ⟨st, if_neg continues, inv, continues⟩)
      ⟨start, .start (Prod.ext rfl cut)⟩ _ (Nat.lt_succ_self _)
    refine ⟨_, C.conclude CT st1, congrArg (Except.map (C.conclude CT)) res,
      Solves.conclude fun within => ?_⟩
    exact inv.solves exactness aPriori exactly notFeasible fun isOpen => closed ⟨within, isOpen⟩

theorem not_dividesByZero (safe : depth ≠ 1 ∨ level = .exhaustive) :
    ¬ C.DividesByZero CT level depth st := by
  rintro ⟨-, notExhaustive, one, -⟩
  rcases safe with other | exhaustive
  · exact other one
  · exact notExhaustive exhaustive

theorem Rounds.not_dividesByZero {fuel : ℕ} {res : BranchScheme N}
    (rounds : Rounds C CT level depth root aPrioriBound st)
    (ends : C.branchScheme CT level depth fuel root aPrioriBound = .ok res) :
    ¬ C.DividesByZero CT level depth st := by
  intro divides
  obtain ⟨kept, follows⟩ := rounds.loop_eq
  unfold branchScheme at ends
  dsimp only at ends
  rw [kept] at ends
  cases looped : loop .fuel (C.round CT level depth) fuel
      (C.inspect CT root (C.initial root aPrioriBound)).1 with
  | error err =>
    rw [looped] at ends
    cases ends
  | ok b =>
    obtain ⟨fuel', res'⟩ := follows fuel b looped
    cases fuel' with
    | zero => cases res'
    | succ fuel' =>
      rw [loop, round_fault divides] at res'
      cases res'

/-- The least value of one variable. The range of size `2 ^ d` from `x` on is bisected. -/
def bisection : BranchClass (ℕ × ℕ) where
  objective x := x.1
  feasible x := decide (x.2 = 0)
  selectVariable _ := .ok 0
  directionConstructive _ _ := false
  directionExhaustive _ _ := false
  raise x _ := .ok (x.1 + 2 ^ (x.2 - 1), x.2 - 1)
  lower x _ := .ok (x.1, x.2 - 1)
  localSearch x := x.1
  maximize := false
  infeasibility := infFloat

/-- The values in the range of a node. -/
def range (x : ℕ × ℕ) : Set ℕ := { k | x.1 ≤ k ∧ k < x.1 + 2 ^ x.2 }

theorem bisection_exact (d : ℕ) (small : d ≤ 100) :
    bisection.ExactFamily (fun x => x.1 + 2 ^ x.2 ≤ 2 ^ d) range (fun k => (k : ℤ)) Prod.snd
      (0, d) where
  member := by simp
  bound x _ k inRange := by
    have low : (x.1 : ℚ) ≤ k := by exact_mod_cast inRange.1
    simpa [sign, bisection] using low
  finite k inRange := by
    have large : (k : ℚ) < 2 ^ 100 := by
      have high : k < 2 ^ 100 := by
        have below : k < 2 ^ d := by simpa using inRange.2
        exact below.trans_le (Nat.pow_le_pow_right (by omega) small)
      exact_mod_cast high
    have less : (k : ℚ) < infFloat := large.trans (by norm_num [infFloat])
    simpa [sign, bisection] using less
  attained x member leaf _ := by
    have single : x.2 = 0 := of_decide_eq_true leaf
    rw [single, pow_zero] at member
    refine ⟨le_rfl, x.1, ⟨Nat.zero_le _, ?_⟩, rfl⟩
    dsimp only
    omega
  split x member leaf _ := by
    have several : x.2 ≠ 0 := of_decide_eq_false leaf
    obtain ⟨e, size⟩ : ∃ e, x.2 = e + 1 := ⟨x.2 - 1, by omega⟩
    rw [size, pow_succ] at member
    refine ⟨0, (x.1, x.2 - 1), (x.1 + 2 ^ (x.2 - 1), x.2 - 1), rfl, rfl, rfl, ?_, ?_, ?_, ?_, ?_⟩
    · simp only [size, Nat.add_sub_cancel]
      omega
    · simp only [size, Nat.add_sub_cancel]
      omega
    · ext k
      simp only [range, size, Nat.add_sub_cancel, pow_succ, Set.mem_ofPred_eq, Set.mem_union]
      omega
    · dsimp only
      omega
    · dsimp only
      omega

/-- The state after a round, if the search goes on. -/
def after (C : BranchClass N) (CT : BranchContext) (level : SearchLevel) (depth : ℕ)
    (st : BranchScheme N) : BranchScheme N :=
  match C.round CT level depth st with
  | .ok (.inl next) => next
  | _ => st

theorem Rounds.after (rounds : Rounds C CT level depth root aPrioriBound st) :
    Rounds C CT level depth root aPrioriBound (C.after CT level depth st) := by
  unfold BranchClass.after
  cases step : C.round CT level depth st with
  | error err => exact rounds
  | ok res =>
    cases res with
    | inl next => exact rounds.next step
    | inr done => exact rounds

/-- A controller with these limits. -/
def withLimits (nodes : ℕ) : BranchContext where
  epsilon := 0
  maxBBNodes := nodes
  maxBBIterations := -1
  running _ := true

end BranchClass

end Goblin
