import Goblin.Augment
import Goblin.Library.Links
import Goblin.Library.NestedSets
import Goblin.Library.Representatives
import Goblin.Library.StateRuns

/-!
# Nested families

A `nestedFamily` keeps `n` real items and up to `m` sets, which may contain each other. A set is
made empty. Items are merged into it until it is fixed; then it may become a member of another set.
A set that is no member can be split, and its index may be used for another set later.

The members of a set are linked: `first` is the latest one, and the earliest one is its own
successor. In addition, all items that are nested in a set point, by `B`, to a common root, from
which `set` leads to the outermost set. The roots are linked by `depth` when an item is merged. The
root that a set has when it is fixed is its canonical item, and becomes a root again when the set
is released from an outer one. If pointers are compressed they may have lost the way to the
canonical item by then; therefore `Split` redirects all nested items (`Adjust`).

The value `UNDEFINED` is `none` here.
-/

set_option autoImplicit false

namespace Goblin

open Library List Finset Relation Function

variable {n m : ℕ} {depth : ℕ → ℕ}

/-- A `nestedFamily`. -/
structure NestedFamily where
  n : ℕ
  m : ℕ
  compress : Bool
  B : ℕ → Option ℕ
  depth : ℕ → ℕ
  set : ℕ → ℕ
  canonical : ℕ → Option ℕ
  first : ℕ → Option ℕ
  next : ℕ → Option ℕ

namespace NestedFamily

/-- The methods of a nested family. -/
abbrev NestedM := EStateM Raise NestedFamily

def bud (v : ℕ) : NestedM Unit := do
  let st ← get
  if st.n ≤ v then throw (.range "Bud" "No such item")
  else if st.B v ≠ none then throw (.rejected "Bud" "Already present")
  else modify fun st => { st with
    B := update st.B v (some v)
    depth := update st.depth v 1
    next := update st.next v none
    set := update st.set v v }

def init : NestedM Unit := do
  modify fun st => { st with B := fun _ => none }
  let st ← get
  (List.range st.n).forM bud

def makeSet : NestedM ℕ := do
  let st ← get
  match (range' st.n st.m).find? fun u => (st.B u).isNone with
  | none => throw (.rejected "MakeSet" "No more sets available")
  | some u => do
    modify fun st => { st with
      B := update st.B u (some u)
      depth := update st.depth u 1
      first := update st.first (u - st.n) none
      next := update st.next u none
      set := update st.set u u
      canonical := update st.canonical (u - st.n) none }
    return u

/-- `Top`. Items that do not exist are top level. -/
def top (v : ℕ) : NestedM Bool := do
  let st ← get
  if st.n + st.m ≤ v then throw (.range "Top" "No such item")
  else if st.B v = none then return true
  else return decide (st.next v = none)

/-- The redirection of a pointer at the end of `Find`. -/
def redirect (v : ℕ) (w : Option ℕ) : NestedM Unit :=
  modify fun st => if st.compress then { st with B := update st.B v w } else st

/-- The recursion of `Find`. -/
def findFrom : ℕ → ℕ → NestedM (Option ℕ)
  | 0, _ => throw .fuel
  | fuel + 1, v => do
    let st ← get
    if st.n + st.m ≤ v then throw (.range "Find" "No such item")
    else match st.B v with
    | none => return none
    | some u => do
      let w ← if u = v then pure (some v) else findFrom fuel u
      redirect v w
      return w

def find (v : ℕ) : NestedM (Option ℕ) := do
  let st ← get
  findFrom (st.n + st.m) v

/-- The root of an item that exists. -/
def findRoot (v : ℕ) : NestedM ℕ := do
  match ← find v with
  | none => throw .fault
  | some w => return w

/-- `Set` -/
def outerSet (v : ℕ) : NestedM (Option ℕ) := do
  let st ← get
  if st.n + st.m ≤ v then throw (.range "Set" "No such item")
  else if st.B v = none then return none
  else do
    let w ← findRoot v
    let st ← get
    return some (st.set w)

/-- `First` -/
def firstOf (v : ℕ) : NestedM (Option ℕ) := do
  let st ← get
  if st.n + st.m ≤ v ∨ v < st.n then throw (.range "First" "Not a set")
  else if st.B v = none then return none
  else return st.first (v - st.n)

/-- `Next` -/
def nextOf (v : ℕ) : NestedM (Option ℕ) := do
  let st ← get
  if st.n + st.m ≤ v then throw (.range "Next" "No such item")
  else if st.B v = none then throw (.rejected "Next" "No such item")
  else if st.next v = none then throw (.rejected "Next" "Toplevel item")
  else return st.next v

/-- The roots of the set `s` and of the item are linked. -/
def linkRoots (s u w : ℕ) (st : NestedFamily) : NestedFamily :=
  if st.depth u < st.depth w then { st with
    B := update st.B u (some w)
    set := update st.set w s }
  else { st with
    B := update st.B w (some u)
    set := update st.set u s
    depth := if st.depth w = st.depth u then update st.depth u (st.depth u + 1)
      else st.depth }

/-- The item `v` becomes the first one of the set `s`. -/
def linkMember (s v : ℕ) (st : NestedFamily) : NestedFamily :=
  { st with
    next := update st.next v (match st.first (s - st.n) with
      | some w => some w
      | none => some v)
    first := update st.first (s - st.n) (some v) }

def merge (s v : ℕ) : NestedM Unit := do
  let st ← get
  if s < st.n ∨ st.n + st.m ≤ s then throw (.range "Merge" "Not a set")
  else if st.canonical (s - st.n) ≠ none then throw (.rejected "Merge" "Set is already fixed")
  else if st.n ≤ v ∧ st.canonical (v - st.n) = none then
    throw (.rejected "Merge" "Item has not been fixed")
  else do
    let isTop ← top v
    if isTop = false then throw (.rejected "Merge" "Item is already shrunk")
    else do
      let w ← findRoot v
      let u ← findRoot s
      modify (linkRoots s u w)
      modify (linkMember s v)

def fixSet (s : ℕ) : NestedM Unit := do
  let st ← get
  if s < st.n ∨ st.n + st.m ≤ s then throw (.range "FixSet" "Not a set")
  else if st.canonical (s - st.n) ≠ none then throw (.rejected "FixSet" "Set is already fixed")
  else if st.first (s - st.n) = none then throw (.rejected "FixSet" "Set is empty")
  else do
    let u ← find s
    modify fun st => { st with canonical := update st.canonical (s - st.n) u }

/-- The loop of `Adjust` over the members of a set, where `u` is the last member. For members that
are sets, `Adjust` is called. -/
def adjustFrom (b : ℕ) : ℕ → Option ℕ → Option ℕ → NestedM Unit
  | 0, _, _ => throw .fuel
  | fuel + 1, u, w =>
    if u = w then pure ()
    else match w with
    | none => throw .fault
    | some w => do
      modify fun st => { st with B := update st.B w (some b) }
      let st ← get
      (if st.n ≤ w then adjustFrom b fuel none (st.first (w - st.n)) else pure ())
      let st ← get
      adjustFrom b fuel (some w) (st.next w)

def adjust (s b : ℕ) : NestedM Unit := do
  let st ← get
  if st.n + st.m ≤ s ∨ s < st.n then throw (.range "Adjust" "Not a set")
  else if st.n + st.m ≤ b then throw (.range "Adjust" "No such item")
  else adjustFrom b (st.n + st.m + 1) none (st.first (s - st.n))

/-- A member of a set that is split. -/
def releaseMember (v : ℕ) : NestedM Unit := do
  let st ← get
  if v < st.n then modify fun st => { st with
    B := update st.B v (some v)
    set := if st.compress then update st.set v v else st.set }
  else match st.canonical (v - st.n) with
    | none => throw .fault
    | some x => do
      modify fun st => { st with
        B := update (update st.B x (some x)) v (some x) }
      (if st.compress then adjust v x else pure ())
      modify fun st => { st with set := update st.set x v }

/-- The loop of `Split` over the members, where `v` is the last member. -/
def splitFrom : ℕ → Option ℕ → Option ℕ → NestedM Unit
  | 0, _, _ => throw .fuel
  | fuel + 1, v, w =>
    if v = w then pure ()
    else match w with
    | none => throw .fault
    | some w => do
      releaseMember w
      let st ← get
      modify fun st => { st with next := update st.next w none }
      splitFrom fuel (some w) (st.next w)

def split (s : ℕ) : NestedM Unit := do
  let st ← get
  if st.n + st.m ≤ s ∨ s < st.n ∨ st.B s = none then throw (.range "Split" "Not a set")
  else if st.first (s - st.n) = none then throw (.rejected "Split" "Empty set")
  else do
    let u ← findRoot s
    let st ← get
    if st.set u ≠ s then throw (.rejected "Split" "Not a toplevel set")
    else if st.canonical (s - st.n) = none then
      throw (.rejected "Split" "Set has not been fixed")
    else do
      splitFrom (st.n + st.m + 1) none (st.first (s - st.n))
      modify fun st => { st with B := update st.B s none }

end NestedFamily

/-! ## The sets -/

/-- The sets that a user knows: those that exist, those that are fixed, and the set that contains
an item. -/
structure Nesting where
  sets : Finset ℕ
  fixed : Finset ℕ
  parent : ℕ → Option ℕ

namespace Nesting

section

variable (L : Nesting)

/-- The real items and the sets. -/
def Item (n x : ℕ) : Prop := x < n ∨ x ∈ L.sets

/-- At first there are no sets. -/
def initial : Nesting := ⟨∅, ∅, fun _ => none⟩

/-- The first index that is free. -/
def fresh (n m : ℕ) : Option ℕ :=
  (range' n m).find? fun u => decide (u ∉ L.sets)

/-- The family with a new set. -/
def make (s : ℕ) : Nesting := { L with sets := insert s L.sets }

/-- The family after an item has been put into a set. -/
def put (s v : ℕ) : Nesting := { L with parent := update L.parent v (some s) }

@[simp] theorem put_parent_self (s v : ℕ) : (L.put s v).parent v = some s :=
  update_self ..

theorem put_parent {s v x : ℕ} (other : x ≠ v) : (L.put s v).parent x = L.parent x :=
  update_of_ne other ..

/-- The family after a set has been fixed. -/
def fix (s : ℕ) : Nesting := { L with fixed := insert s L.fixed }

/-- The family after a set has been split. -/
def release (s : ℕ) : Nesting :=
  ⟨L.sets.erase s, L.fixed.erase s, dissolve L.parent s⟩

/-- Sets that are not fixed are not contained in others, and sets that are fixed have members. -/
structure Laminar (n m : ℕ) : Prop where
  low : ∀ s ∈ L.sets, n ≤ s ∧ s < n + m
  fixed : L.fixed ⊆ L.sets
  filled : ∀ s ∈ L.fixed, ∃ v, L.parent v = some s
  members : ∀ x s, L.parent x = some s → (x < n ∨ x ∈ L.fixed) ∧ s ∈ L.sets
  grounded : Grounded L.parent

end

namespace Laminar

variable {L : Nesting} {n m s t u x : ℕ}

section

variable (laminar : L.Laminar n m)
include laminar

theorem item_lt (item : L.Item n x) : x < n + m := by
  rcases item with real | mem
  · omega
  · exact (laminar.low x mem).2

theorem item_of_parent (step : L.parent x = some s) : L.Item n x :=
  (laminar.members x s step).1.imp id fun fixed => laminar.fixed fixed

theorem length_children_lt {l : List ℕ} (nodup : l.Nodup)
    (members : ∀ c, c ∈ l ↔ L.parent c = some s) : l.length < n + m + 1 := by
  have subset : l ⊆ List.range (n + m) := fun c inside =>
    List.mem_range.2 (laminar.item_lt (laminar.item_of_parent ((members c).1 inside)))
  have le := (nodup.subperm subset).length_le
  rw [List.length_range] at le
  exact Nat.lt_succ_of_le le

theorem item_within (within : Within L.parent u t) (item : L.Item n t) : L.Item n u := by
  rcases ReflTransGen.cases_head within with rfl | ⟨y, step, -⟩
  · exact item
  · exact laminar.item_of_parent step

theorem item_above (within : Within L.parent u t) (item : L.Item n u) : L.Item n t := by
  rcases ReflTransGen.cases_tail within with rfl | ⟨y, -, step⟩
  · exact item
  · exact .inr (laminar.members y t step).2

theorem eq_of_real (within : Within L.parent u x) (real : x < n) : u = x := by
  rcases ReflTransGen.cases_tail within with rfl | ⟨y, -, step⟩
  · rfl
  · exact absurd real (Nat.not_lt.2 (laminar.low x (laminar.members y x step).2).1)

theorem top_of_open (mem : s ∈ L.sets) (isOpen : s ∉ L.fixed) : L.parent s = none := by
  cases val : L.parent s with
  | none => rfl
  | some t =>
    rcases (laminar.members s t val).1 with real | fixed
    · exact absurd real (Nat.not_lt.2 (laminar.low s mem).1)
    · exact absurd fixed isOpen

end

end Laminar

end Nesting

namespace NestedFamily

variable {st st' : NestedFamily} {L : Nesting} {rep : ℕ → ℕ} {s t u v w x : ℕ}

/-! ## The invariant -/

section

variable (L : Nesting) (n : ℕ)

/-- The common roots: `rep t` is the canonical item of `t` or, if `t` has not been fixed, the root
of its items. It may be the same for several sets that contain each other. -/
structure Roots (rep depth : ℕ → ℕ) : Prop where
  within : ∀ t, L.Item n t → Within L.parent (rep t) t
  down : ∀ t t', L.Item n t → Within L.parent t' t → Within L.parent (rep t) t' → rep t' = rep t
  sets : ∀ s ∈ L.sets, rep s ∈ L.sets
  higher : ∀ t u, L.Item n t → Within L.parent u t → u ≠ rep t → depth u < depth (rep t)
  positive : ∀ x, L.Item n x → 0 < depth x
  real : ∀ v < n, depth v = 1

/-- Pointers lead from the items of a set to its root and do not leave it before. If they may be
compressed, this is so for the outermost sets only. -/
structure Pointers (compress : Bool) (rep depth set : ℕ → ℕ)
    (B : ℕ → Option ℕ) : Prop where
  exist : ∀ x, B x ≠ none ↔ L.Item n x
  loop : ∀ t, L.Item n t → L.parent t = none → B (rep t) = some (rep t)
  inward : ∀ t, L.Item n t → L.parent t = none ∨ compress = false →
    ∀ u, Within L.parent u t → u ≠ rep t → ∃ p, B u = some p ∧ p ≠ u ∧ Within L.parent p t
  rising : Rising B depth
  owner : ∀ t, L.Item n t → L.parent t = none → set (rep t) = t
  real : ∀ v < n, set v = v

/-- The members of the sets are linked. -/
structure Lists (first next : ℕ → Option ℕ) : Prop where
  members : ∀ s ∈ L.sets, ∃ l : List ℕ, l.Nodup ∧ (∀ v, v ∈ l ↔ L.parent v = some s) ∧
    first (s - n) = l.head? ∧ Links next l l.getLast?
  tops : ∀ x, L.Item n x → L.parent x = none → next x = none

end

/-- What the arrays say about the sets. -/
structure Represents (st : NestedFamily) (L : Nesting) (rep : ℕ → ℕ) : Prop where
  laminar : L.Laminar st.n st.m
  roots : Roots L st.n rep st.depth
  pointers : Pointers L st.n st.compress rep st.depth st.set st.B
  lists : Lists L st.n st.first st.next
  canonical : ∀ s ∈ L.sets, st.canonical (s - st.n) = if s ∈ L.fixed then some (rep s) else none

theorem Roots.eq_of_real (roots : Roots L n rep depth) (laminar : L.Laminar n m)
    (real : x < n) : rep x = x :=
  laminar.eq_of_real (roots.within x (.inl real)) real

theorem Roots.depth_le (roots : Roots L n rep depth) (item : L.Item n t)
    (within : Within L.parent u t) : depth u ≤ depth (rep t) := by
  by_cases isRoot : u = rep t
  · rw [isRoot]
  · exact (roots.higher t u item within isRoot).le

/-- The items of an outermost set lead to its root. -/
theorem Represents.leads (represents : st.Represents L rep) (item : L.Item st.n t)
    (top : L.parent t = none) (within : Within L.parent u t) : Leads st.B u (rep t) := by
  -- by induction on the depth that is left
  induction gap : st.depth (rep t) - st.depth u using Nat.strong_induction_on generalizing u with
  | _ k ih =>
    by_cases isRoot : u = rep t
    · subst isRoot
      exact .root (represents.pointers.loop t item top)
    · obtain ⟨p, ptr, moved, inside⟩ :=
        represents.pointers.inward t item (.inl top) u within isRoot
      have rises := represents.pointers.rising u p ptr moved
      have le := represents.roots.depth_le item inside
      exact .step ptr moved (ih _ (by omega) inside rfl)

/-! ## Find -/

theorem Represents.compressed (represents : st.Represents L rep) {B : ℕ → Option ℕ}
    (shortens : Shortens st.B B) (idle : st.compress = false → B = st.B) :
    Represents { st with B := B } L rep := by
  obtain ⟨laminar, roots, pointers, lists, canonical⟩ := represents
  refine ⟨laminar, roots, ⟨fun x => ?_, fun t item top => ?_, fun t item inner u within other => ?_,
    shortens.rising pointers.rising, pointers.owner, pointers.real⟩, lists, canonical⟩
  · rw [ne_eq, shortens.none_iff, ← ne_eq, pointers.exist]
  · exact (shortens.leads (.root (pointers.loop t item top))).loop
  · dsimp only at inner ⊢
    cases compress : st.compress with
    | false =>
      rw [idle compress]
      exact pointers.inward t item inner u within other
    | true =>
      have top : L.parent t = none := inner.resolve_right (by simp [compress])
      rcases shortens u with eq | ⟨w, leads, ptr⟩
      · rw [eq]
        exact pointers.inward t item inner u within other
      · have leads' := Represents.leads ⟨laminar, roots, pointers, lists, canonical⟩ item top within
        rw [leads.unique leads'] at ptr
        exact ⟨rep t, ptr, other.symm, roots.within t item⟩

theorem findFrom_spec (low : ∀ x, st.B x ≠ none → x < st.n + st.m) (rising : Rising st.B st.depth)
    (leads : Leads st.B v w) (fuel : ℕ)
    (enough : higher st.depth (Finset.range (st.n + st.m)) v < fuel) :
    ∃ B, findFrom fuel v st = .ok (some w) { st with B := B } ∧ Shortens st.B B ∧
      (st.compress = false → B = st.B) := by
  have redirects : ∀ {B : ℕ → Option ℕ} {v : ℕ}, Shortens st.B B → (st.compress = false → B = st.B) →
      Leads st.B v w → ∃ B', redirect v (some w) { st with B := B } = .ok () { st with B := B' } ∧
        Shortens st.B B' ∧ (st.compress = false → B' = st.B) := by
    intro B v shortens idle leads
    cases compress : st.compress with
    | true =>
      refine ⟨update B v (some w), ?_, shortens.trans (.update (shortens.leads leads)), by simp⟩
      simp [redirect, run_modify]
    | false =>
      refine ⟨B, ?_, shortens, fun _ => idle compress⟩
      simp [redirect, run_modify]
  induction fuel generalizing v with
  | zero => exact absurd enough (Nat.not_lt_zero _)
  | succ fuel ih =>
    have lowV : ¬ st.n + st.m ≤ v := not_le.2 (low v leads.ne_none)
    obtain ⟨u, ptr⟩ := Option.ne_none_iff_exists'.1 leads.ne_none
    by_cases isRoot : u = v
    · subst isRoot
      obtain rfl := leads.eq_of_loop ptr
      obtain ⟨B, res, after⟩ := redirects (.refl st.B) (fun _ => rfl) leads
      refine ⟨B, ?_, after⟩
      rw [findFrom, run_bind_get, if_neg lowV, ptr]
      simp only [if_true]
      change (redirect w (some w) >>= fun _ => pure (some w) : NestedM (Option ℕ)) st = _
      rw [run_bind_ok res]
      rfl
    · have leadsU := leads.of_pointer ptr
      have mem : u ∈ Finset.range (st.n + st.m) := Finset.mem_range.2 (low u leadsU.ne_none)
      have less := higher_lt mem (rising v u ptr isRoot)
      obtain ⟨B1, found, shortens, idle⟩ := ih leadsU (by omega)
      obtain ⟨B, res, after⟩ := redirects shortens idle leads
      refine ⟨B, ?_, after⟩
      rw [findFrom, run_bind_get, if_neg lowV, ptr]
      simp only [if_neg isRoot]
      rw [run_bind_ok found, run_bind_ok res]
      rfl

section

variable (represents : st.Represents L rep)
include represents

section

variable (item : L.Item st.n v) (outer : Outermost L.parent v t)
include item outer

/-- **`Find` returns the root of the outermost set.** -/
theorem find_spec : ∃ B, find v st = .ok (some (rep t)) { st with B := B } ∧
      Represents { st with B := B } L rep := by
  have itemT := represents.laminar.item_above outer.within item
  have leads := represents.leads itemT outer.top outer.within
  have low : ∀ x, st.B x ≠ none → x < st.n + st.m := fun x present =>
    represents.laminar.item_lt ((represents.pointers.exist x).1 present)
  have short : higher st.depth (Finset.range (st.n + st.m)) v < (Finset.range (st.n + st.m)).card :=
    higher_lt_card (Finset.mem_range.2 (represents.laminar.item_lt item))
  rw [Finset.card_range] at short
  obtain ⟨B, res, shortens, idle⟩ :=
    findFrom_spec low represents.pointers.rising leads _ short
  refine ⟨B, ?_, represents.compressed shortens idle⟩
  rw [find, run_bind_get]
  exact res

theorem findRoot_spec : ∃ B, findRoot v st = .ok (rep t) { st with B := B } ∧
      Represents { st with B := B } L rep := by
  obtain ⟨B, res, after⟩ := find_spec represents item outer
  refine ⟨B, ?_, after⟩
  rw [findRoot, run_bind_ok res]
  rfl

theorem outerSet_spec : ∃ B, outerSet v st = .ok (some t) { st with B := B } ∧
      Represents { st with B := B } L rep := by
  obtain ⟨B, res, after⟩ := findRoot_spec represents item outer
  have itemT := represents.laminar.item_above outer.within item
  refine ⟨B, ?_, after⟩
  rw [outerSet, run_bind_get, if_neg (not_le.2 (represents.laminar.item_lt item)),
    if_neg ((represents.pointers.exist v).2 item), run_bind_ok res, run_bind_get]
  dsimp only
  rw [represents.pointers.owner t itemT outer.top]
  rfl

end

end

/-! ## The other queries -/

theorem Links.ne_none {r : ℕ → Option ℕ} {l : List ℕ} (links : Links r l l.getLast?)
    (mem : v ∈ l) : r v ≠ none := by
  rcases links.target_mem mem with ⟨y, -, ptr⟩ | last
  · simp [ptr]
  · rw [last, ne_eq, getLast?_eq_none_iff]
    rintro rfl
    cases mem

section

variable (represents : st.Represents L rep)
include represents

theorem Represents.next_eq_none (item : L.Item st.n v) : st.next v = none ↔ L.parent v = none := by
  refine ⟨fun absent => ?_, represents.lists.tops v item⟩
  cases val : L.parent v with
  | none => rfl
  | some s =>
    obtain ⟨l, -, members, -, links⟩ :=
      represents.lists.members s (represents.laminar.members v s val).2
    exact absurd absent (Links.ne_none links ((members v).2 val))

/-- **`Top` tells whether an item is in no set.** -/
theorem top_spec (item : L.Item st.n v) : top v st = .ok (decide (L.parent v = none)) st := by
  rw [top, run_bind_get, if_neg (not_le.2 (represents.laminar.item_lt item)),
    if_neg ((represents.pointers.exist v).2 item), run_pure]
  simp only [represents.next_eq_none item]

theorem firstOf_spec (mem : s ∈ L.sets) : firstOf s st = .ok (st.first (s - st.n)) st := by
  have low := represents.laminar.low s mem
  have present := (represents.pointers.exist s).2 (.inr mem)
  rw [firstOf, run_bind_get, if_neg (by omega), if_neg present]
  rfl

theorem nextOf_spec (inner : L.parent v = some s) : nextOf v st = .ok (st.next v) st := by
  have item := represents.laminar.item_of_parent inner
  have linked : st.next v ≠ none := by
    rw [ne_eq, represents.next_eq_none item, inner]
    simp
  rw [nextOf, run_bind_get, if_neg (not_le.2 (represents.laminar.item_lt item)),
    if_neg ((represents.pointers.exist v).2 item), if_neg linked]
  rfl

end

/-! ## Init and MakeSet -/

theorem within_initial (within : Within Nesting.initial.parent x t) : x = t :=
  (within.eq_of_top rfl).symm

theorem bud_spec (low : v < st.n) (fresh : st.B v = none) : bud v st = .ok () { st with
      B := update st.B v (some v)
      depth := update st.depth v 1
      next := update st.next v none
      set := update st.set v v } := by
  rw [bud, run_bind_get, if_neg (not_le.2 low), if_neg (not_not.2 fresh)]
  rfl

section

variable (start : NestedFamily)

/-- The state after the first `k` items have been budded. -/
structure BuddedTo (k : ℕ) (st : NestedFamily) : Prop where
  n : st.n = start.n
  m : st.m = start.m
  compress : st.compress = start.compress
  pointers : ∀ x, st.B x = if x < k then some x else none
  items : ∀ x < k, st.depth x = 1 ∧ st.set x = x ∧ st.next x = none

theorem buds_spec (k : ℕ) (le : k ≤ start.n) :
    ∃ st, (List.range k).forM bud { start with B := fun _ => none } = .ok () st ∧
      BuddedTo start k st := by
  induction k with
  | zero => exact ⟨_, rfl, rfl, rfl, rfl, fun x => by simp, fun x low => absurd low (by omega)⟩
  | succ k ih =>
    obtain ⟨st, res, budded⟩ := ih (by omega)
    have fresh : st.B k = none := by rw [budded.pointers, if_neg (lt_irrefl k)]
    have last := bud_spec (by rw [budded.n]; omega) fresh
    have run := run_forM_append (k := [k]) res
    rw [← range_succ] at run
    refine ⟨_, run.trans (run_bind_ok last), budded.n, budded.m, budded.compress,
      fun x => ?_, fun x low => ?_⟩
    · dsimp only
      by_cases here : x = k
      · simp [here]
      · rw [update_of_ne here, budded.pointers]
        exact if_congr (by omega) rfl rfl
    · by_cases here : x = k
      · simp [here]
      · simp only [update_of_ne here]
        exact budded.items x (by omega)

theorem init_spec :
    ∃ st, init start = .ok () st ∧ st.Represents .initial id ∧ st.n = start.n ∧ st.m = start.m ∧
      st.compress = start.compress := by
  obtain ⟨st, res, budded⟩ := buds_spec start start.n le_rfl
  have n := budded.n
  have noSet : ∀ {s}, s ∉ Nesting.initial.sets := fun {s} => notMem_empty s
  have real : ∀ {x}, Nesting.initial.Item st.n x → x < start.n := by
    rintro x (low | mem)
    · omega
    · exact absurd mem noSet
  refine ⟨st, ?_, ⟨⟨?_, Finset.Subset.refl _, ?_, ?_, fun x => ⟨x, .self rfl⟩⟩, ⟨?_, ?_, ?_, ?_, ?_, ?_⟩,
    ⟨?_, ?_, ?_, ?_, ?_, ?_⟩, ⟨?_, ?_⟩, ?_⟩, budded.n, budded.m, budded.compress⟩
  · rw [init, run_bind_modify, run_bind_get]
    exact res
  · exact fun s mem => absurd mem noSet
  · exact fun s fixed => absurd fixed (notMem_empty s)
  · exact fun x s step => by cases step
  · exact fun t _ => .refl t
  · exact fun t t' _ within _ => within_initial within
  · exact fun s mem => absurd mem noSet
  · exact fun t u _ within other => absurd (within_initial within) other
  · exact fun x item => by rw [(budded.items x (real item)).1]; exact Nat.one_pos
  · exact fun v low => (budded.items v (by omega)).1
  · intro x
    rw [budded.pointers]
    constructor
    · intro present
      by_contra absent
      exact present (if_neg fun low => absent (.inl (by omega)))
    · intro item
      simp [real item]
  · exact fun t item _ => by rw [budded.pointers, id, if_pos (real item)]
  · exact fun t _ _ u within other => absurd (within_initial within) other
  · intro x u ptr moved
    rw [budded.pointers] at ptr
    split_ifs at ptr
    exact absurd (Option.some.inj ptr).symm moved
  · exact fun t item _ => (budded.items t (real item)).2.1
  · exact fun v low => (budded.items v (by omega)).2.1
  · exact fun s mem => absurd mem noSet
  · exact fun x item _ => (budded.items x (real item)).2.2
  · exact fun s mem => absurd mem noSet

end

/-- A new index is not used by any set. -/
structure Unused (L : Nesting) (n s : ℕ) : Prop where
  high : n ≤ s
  absent : s ∉ L.sets

namespace Unused

variable {n m : ℕ}

section

variable (unused : Unused L n s)
include unused

theorem not_item : ¬ L.Item n s := by
  rintro (real | mem)
  · exact absurd unused.high (not_le.2 real)
  · exact unused.absent mem

theorem top (laminar : L.Laminar n m) : L.parent s = none := by
  cases val : L.parent s with
  | none => rfl
  | some t => exact absurd (laminar.item_of_parent val) unused.not_item

theorem eq_of_within (laminar : L.Laminar n m) (within : Within L.parent u s) : u = s := by
  rcases ReflTransGen.cases_tail within with eq | ⟨y, -, step⟩
  · exact eq.symm
  · exact absurd (laminar.members y s step).2 unused.absent

theorem ne_of_item (item : L.Item n x) : x ≠ s := by
  rintro rfl
  exact unused.not_item item

end

end Unused

theorem item_of_make (item : (L.make s).Item n x) (other : x ≠ s) : L.Item n x :=
  item.imp id fun mem => (mem_insert.1 mem).resolve_left other

theorem Represents.make (represents : st.Represents L rep) (unused : Unused L st.n s)
    (low : s < st.n + st.m) :
    Represents { st with
      B := update st.B s (some s)
      depth := update st.depth s 1
      first := update st.first (s - st.n) none
      next := update st.next s none
      set := update st.set s s
      canonical := update st.canonical (s - st.n) none } (L.make s)
      (update rep s s) := by
  obtain ⟨laminar, roots, pointers, lists, canonical⟩ := represents
  have offset : ∀ t ∈ L.sets, t - st.n ≠ s - st.n := by
    intro t mem eq
    have lowT := laminar.low t mem
    have high := unused.high
    exact unused.absent ((by omega : t = s) ▸ mem)
  have repNe : ∀ {t}, L.Item st.n t → rep t ≠ s := fun {t} item isS =>
    unused.not_item (isS ▸ laminar.item_within (roots.within t item) item)
  refine ⟨⟨?_, ?_, laminar.filled, ?_, laminar.grounded⟩, ⟨?_, ?_, ?_, ?_, ?_, ?_⟩, ⟨?_, ?_, ?_, ?_, ?_, ?_⟩,
    ⟨?_, ?_⟩, ?_⟩
  · intro t mem
    rcases mem_insert.1 mem with rfl | old
    · exact ⟨unused.high, low⟩
    · exact laminar.low t old
  · exact laminar.fixed.trans (subset_insert s L.sets)
  · intro x t step
    exact (laminar.members x t step).imp id (mem_insert_of_mem ·)
  · intro t item
    by_cases here : t = s
    · rw [here, update_self]
      exact .refl s
    · rw [update_of_ne here]
      exact roots.within t (item_of_make item here)
  · intro t t' item within inside
    by_cases here : t = s
    · subst here
      rw [unused.eq_of_within laminar within]
    · have old := item_of_make item here
      have other : t' ≠ s := unused.ne_of_item (laminar.item_within within old)
      rw [update_of_ne here] at inside ⊢
      rw [update_of_ne other]
      exact roots.down t t' old within inside
  · intro t mem
    by_cases here : t = s
    · rw [here, update_self]
      exact mem_insert_self s _
    · rw [update_of_ne here]
      exact mem_insert_of_mem (roots.sets t ((mem_insert.1 mem).resolve_left here))
  · intro t u item within other
    by_cases here : t = s
    · rw [here, update_self] at other
      exact absurd (unused.eq_of_within laminar (here ▸ within)) other
    have old := item_of_make item here
    rw [update_of_ne here] at other ⊢
    dsimp only
    rw [update_of_ne (unused.ne_of_item (laminar.item_within within old)), update_of_ne (repNe old)]
    exact roots.higher t u old within other
  · intro x item
    dsimp only
    by_cases here : x = s
    · rw [here, update_self]
      exact Nat.one_pos
    · rw [update_of_ne here]
      exact roots.positive x (item_of_make item here)
  · intro v real
    have other : v ≠ s := unused.ne_of_item (.inl real)
    dsimp only
    rw [update_of_ne other]
    exact roots.real v real
  · intro x
    dsimp only
    by_cases here : x = s
    · subst here
      simp [Nesting.Item, Nesting.make]
    · rw [update_of_ne here, pointers.exist]
      simp [Nesting.Item, Nesting.make, here]
  · intro t item top
    by_cases here : t = s
    · simp [here]
    · have old := item_of_make item here
      dsimp only
      rw [update_of_ne here, update_of_ne (repNe old)]
      exact pointers.loop t old top
  · intro t item inner u within other
    by_cases here : t = s
    · rw [here, update_self] at other
      exact absurd (unused.eq_of_within laminar (here ▸ within)) other
    · have old := item_of_make item here
      rw [update_of_ne here] at other
      dsimp only
      rw [update_of_ne (unused.ne_of_item (laminar.item_within within old))]
      exact pointers.inward t old inner u within other
  · intro x u ptr moved
    dsimp only at ptr ⊢
    rcases of_update ptr with ⟨here, ptr⟩ | ⟨here, ptr⟩
    · exact absurd ((Option.some.inj ptr).symm.trans here.symm) moved
    have itemX : L.Item st.n x := (pointers.exist x).1 (by simp [ptr])
    obtain ⟨t, outer⟩ := laminar.grounded x
    have itemT := laminar.item_above outer.within itemX
    have leads := Represents.leads ⟨laminar, roots, pointers, lists, canonical⟩ itemT outer.top
      outer.within
    have itemU := (pointers.exist u).1 (leads.of_pointer ptr).ne_none
    rw [update_of_ne here, update_of_ne (unused.ne_of_item itemU)]
    exact pointers.rising x u ptr moved
  · intro t item top
    dsimp only
    by_cases here : t = s
    · simp [here]
    · have old := item_of_make item here
      rw [update_of_ne here, update_of_ne (repNe old)]
      exact pointers.owner t old top
  · intro v real
    dsimp only
    rw [update_of_ne (unused.ne_of_item (.inl real))]
    exact pointers.real v real
  · intro t mem
    dsimp only
    by_cases here : t = s
    · subst here
      refine ⟨[], nodup_nil, fun v => ?_, by simp, trivial⟩
      refine iff_of_false (by simp) fun step => ?_
      exact unused.absent (laminar.members v t step).2
    · have old := (mem_insert.1 mem).resolve_left here
      obtain ⟨l, nodup, members, first, links⟩ := lists.members t old
      refine ⟨l, nodup, members, ?_, links.congr fun v inside => ?_⟩
      · rw [update_of_ne (offset t old)]
        exact first
      · have item := laminar.item_of_parent ((members v).1 inside)
        rw [update_of_ne (unused.ne_of_item item)]
  · intro x item top
    dsimp only
    by_cases here : x = s
    · rw [here, update_self]
    · rw [update_of_ne here]
      exact lists.tops x (item_of_make item here) top
  · intro t mem
    dsimp only
    by_cases here : t = s
    · subst here
      rw [update_self, if_neg]
      exact fun fixed => unused.absent (laminar.fixed fixed)
    · have old := (mem_insert.1 mem).resolve_left here
      rw [update_of_ne (offset t old), update_of_ne here]
      exact canonical t old

/-- **`MakeSet` returns the first index that is free.** -/
theorem makeSet_spec (represents : st.Represents L rep) (free : L.fresh st.n st.m = some s) :
    ∃ st', makeSet st = .ok s st' ∧ st'.Represents (L.make s) (update rep s s) ∧
      st'.n = st.n ∧ st'.m = st.m := by
  have eq : ∀ u ∈ range' st.n st.m, (st.B u).isNone = decide (u ∉ L.sets) := by
    intro u mem
    have high : st.n ≤ u := (mem_range'_1.1 mem).1
    rw [Bool.eq_iff_iff, Option.isNone_iff_eq_none, decide_eq_true_eq, ← not_iff_not, not_not,
      ← ne_eq, represents.pointers.exist, Nesting.Item, or_iff_right (not_lt.2 high)]
  have search : (range' st.n st.m).find? (fun u => (st.B u).isNone) = some s := by
    rw [find?_congr eq]
    exact free
  have range := mem_range'_1.1 (mem_of_find?_eq_some free)
  have absent : s ∉ L.sets := by simpa using find?_some free
  refine ⟨_, ?_, represents.make ⟨range.1, absent⟩ range.2, rfl, rfl⟩
  rw [makeSet, run_bind_get, search]
  rfl

/-! ## FixSet -/

theorem fixSet_spec (represents : st.Represents L rep) (mem : s ∈ L.sets)
    (isOpen : s ∉ L.fixed) (inner : L.parent v = some s) :
    ∃ st', fixSet s st = .ok () st' ∧ st'.Represents (L.fix s) rep ∧ st'.n = st.n ∧
      st'.m = st.m := by
  have low := represents.laminar.low s mem
  have top := represents.laminar.top_of_open mem isOpen
  have open' : st.canonical (s - st.n) = none :=
    (represents.canonical s mem).trans (if_neg isOpen)
  have ne : st.first (s - st.n) ≠ none := by
    obtain ⟨l, -, members, first, -⟩ := represents.lists.members s mem
    rw [first, ne_eq, head?_eq_none_iff]
    rintro rfl
    exact absurd ((members v).2 inner) (by simp)
  obtain ⟨B, res, after⟩ := find_spec represents (.inr mem) (.self top)
  refine ⟨{ st with
    B := B
    canonical := update st.canonical (s - st.n) (some (rep s)) }, ?_,
    ⟨?_, { after.roots with }, { after.pointers with }, { after.lists with }, ?_⟩, rfl, rfl⟩
  · rw [fixSet, run_bind_get, if_neg (by omega), if_neg (not_not.2 open'), if_neg ne,
      run_bind_ok res]
    rfl
  · refine ⟨after.laminar.low, ?_, fun t fixed => ?_, fun x t step => ?_, after.laminar.grounded⟩
    · exact insert_subset mem after.laminar.fixed
    · rcases mem_insert.1 fixed with rfl | old
      · exact ⟨v, inner⟩
      · exact after.laminar.filled t old
    · exact (after.laminar.members x t step).imp (Or.imp id (mem_insert_of_mem ·)) id
  · intro t memberT
    dsimp only
    by_cases here : t = s
    · subst here
      rw [update_self]
      exact (if_pos (mem_insert_self t _)).symm
    · have offset : t - st.n ≠ s - st.n := by
        have lowT := represents.laminar.low t memberT
        omega
      rw [update_of_ne offset, represents.canonical t memberT]
      exact if_congr (by simp [Nesting.fix, here]) rfl rfl

/-! ## Merge -/

/-- The items that may be merged: those that are in no set, and fixed if they are sets. -/
structure Mergeable (L : Nesting) (n s v : ℕ) : Prop where
  member : s ∈ L.sets
  isOpen : s ∉ L.fixed
  top : L.parent v = none
  ready : v < n ∨ v ∈ L.fixed

/-- One of the roots of `s` and `v` is made to point to the other one, whose depth may become
`k`. -/
structure Linkage (L : Nesting) (rep depth : ℕ → ℕ) (s v a b k : ℕ) : Prop where
  ends : (a = rep s ∧ b = rep v) ∨ (a = rep v ∧ b = rep s)
  loser : depth a < k
  winner : depth b ≤ k
  set : b ∈ L.sets

section Merge

variable {a b k : ℕ}

theorem Mergeable.ne (mergeable : Mergeable L n s v) (laminar : L.Laminar n m) : s ≠ v := by
  rintro rfl
  rcases mergeable.ready with real | fixed
  · exact absurd real (not_lt.2 (laminar.low s mergeable.member).1)
  · exact mergeable.isOpen fixed

theorem Mergeable.item {n m : ℕ} (mergeable : Mergeable L n s v) (laminar : L.Laminar n m) :
    L.Item n v :=
  mergeable.ready.imp id (laminar.fixed ·)

/-- The outermost items `s` and `v` before they are merged. -/
structure Ends (st : NestedFamily) (L : Nesting) (rep : ℕ → ℕ) (s v x : ℕ) : Prop where
  item : L.Item st.n x
  top : L.parent x = none
  either : x = s ∨ x = v

/-- The root of `s` or of `v`, within that item. -/
theorem Linkage.of_root (represents : st.Represents L rep) (mergeable : Mergeable L st.n s v)
    (linkage : Linkage L rep st.depth s v a b k) :
    (∃ x, Ends st L rep s v x ∧ a = rep x) ∧ (∃ x, Ends st L rep s v x ∧ b = rep x) := by
  have laminar := represents.laminar
  have atS : Ends st L rep s v s :=
    ⟨.inr mergeable.member, laminar.top_of_open mergeable.member mergeable.isOpen, .inl rfl⟩
  have atV : Ends st L rep s v v := ⟨mergeable.item laminar, mergeable.top, .inr rfl⟩
  rcases linkage.ends with ⟨rfl, rfl⟩ | ⟨rfl, rfl⟩
  · exact ⟨⟨s, atS, rfl⟩, ⟨v, atV, rfl⟩⟩
  · exact ⟨⟨v, atV, rfl⟩, ⟨s, atS, rfl⟩⟩

theorem Linkage.rep_eq (linkage : Linkage L rep st.depth s v a b k) (ends : Ends st L rep s v x) :
    rep x = a ∨ rep x = b := by
  rcases linkage.ends with ⟨rfl, rfl⟩ | ⟨rfl, rfl⟩ <;> rcases ends.either with rfl | rfl
  · exact .inl rfl
  · exact .inr rfl
  · exact .inr rfl
  · exact .inl rfl

section

variable (represents : st.Represents L rep)
include represents

section

variable (item : L.Item st.n x) (top : L.parent x = none) (within : Within L.parent (rep x) t)
include item top within

theorem Represents.rep_eq_of_within : rep t = rep x := by
  refine represents.roots.down x t item ?_ within
  rcases within.comparable (represents.roots.within x item) with inside | out
  · exact inside
  · rw [out.eq_of_top top]
    exact .refl x

theorem Represents.eq_of_within (topT : L.parent t = none) : t = x :=
  Outermost.unique (x := rep x) ⟨within, topT⟩ ⟨represents.roots.within x item, top⟩

end

theorem Represents.put (mergeable : Mergeable L st.n s v)
    (linkage : Linkage L rep st.depth s v a b k) :
    Represents { st with
      B := update st.B a (some b)
      set := update st.set b s
      depth := update st.depth b k
      next := update st.next v (match st.first (s - st.n) with
        | some w => some w
        | none => some v)
      first := update st.first (s - st.n) (some v) } (L.put s v)
      (update rep s b) := by
  obtain ⟨⟨x, endsX, rootA⟩, ⟨y, endsY, rootB⟩⟩ := linkage.of_root represents mergeable
  have represents' := represents
  obtain ⟨laminar, roots, pointers, lists, canonical⟩ := represents'
  have other := mergeable.ne laminar
  have topS := laminar.top_of_open mergeable.member mergeable.isOpen
  have itemS : L.Item st.n s := .inr mergeable.member
  have itemV := mergeable.item laminar
  have different : b ≠ a := by
    rcases linkage.ends with ⟨rfl, rfl⟩ | ⟨rfl, rfl⟩
    · intro eq
      exact other (represents.eq_of_within itemV mergeable.top (eq ▸ roots.within s itemS) topS)
    · intro eq
      exact other (represents.eq_of_within itemV mergeable.top (eq ▸ roots.within s itemS) topS)
  have within : ∀ {x t}, Within (L.put s v).parent x t ↔
      Within L.parent x t ∨ (Within L.parent x v ∧ t = s) :=
    within_merge topS mergeable.top other
  have within' : ∀ {x t}, t ≠ s → (Within (L.put s v).parent x t ↔ Within L.parent x t) := by
    intro x t notS
    rw [within]
    exact or_iff_left fun both => notS both.2
  have ofEnds : ∀ {x z}, Ends st L rep s v x → Within L.parent z x →
      Within (L.put s v).parent z s := by
    intro x z ends inside
    rcases ends.either with rfl | rfl
    · exact within.2 (.inl inside)
    · exact within.2 (.inr ⟨inside, rfl⟩)
  have toEnds : ∀ {z}, Within (L.put s v).parent z s →
      ∃ x, Ends st L rep s v x ∧ Within L.parent z x := by
    intro z inside
    rcases within.1 inside with inside | ⟨inside, -⟩
    · exact ⟨s, ⟨itemS, topS, .inl rfl⟩, inside⟩
    · exact ⟨v, ⟨itemV, mergeable.top, .inr rfl⟩, inside⟩
  have topOf : ∀ {t}, (L.put s v).parent t = none → t ≠ v ∧ L.parent t = none := by
    intro t top
    by_cases here : t = v
    · rw [here, Nesting.put_parent_self] at top
      cases top
    · rw [L.put_parent here] at top
      exact ⟨here, top⟩
  have notEnd : ∀ {t z}, L.Item st.n t → (L.put s v).parent t = none → t ≠ s →
      Ends st L rep s v z → rep t ≠ rep z := by
    intro t z item top notS ends eq
    obtain ⟨notV, top⟩ := topOf top
    have isT := represents.eq_of_within ends.item ends.top (eq ▸ roots.within t item) top
    rcases ends.either with rfl | rfl
    · exact notS isT
    · exact notV isT
  have high : st.n ≤ b := (laminar.low b linkage.set).1
  have loopB : st.B b = some b := by
    rw [rootB]
    exact pointers.loop y endsY.item endsY.top
  have itemA : L.Item st.n a := by
    rw [rootA]
    exact laminar.item_within (roots.within x endsX.item) endsX.item
  have raised : ∀ z, st.depth z ≤ update st.depth b k z := by
    intro z
    by_cases here : z = b
    · rw [here, update_self]
      exact linkage.winner
    · rw [update_of_ne here]
  refine ⟨⟨laminar.low, laminar.fixed, ?_, ?_, laminar.grounded.merge topS mergeable.top other⟩,
    ⟨?_, ?_, ?_, ?_, ?_, ?_⟩, ⟨?_, ?_, ?_, ?_, ?_, ?_⟩, ⟨?_, ?_⟩, ?_⟩
  · intro t fixed
    obtain ⟨z, step⟩ := laminar.filled t fixed
    have notV : z ≠ v := by
      rintro rfl
      rw [mergeable.top] at step
      cases step
    exact ⟨z, (L.put_parent notV).trans step⟩
  · intro z t step
    by_cases here : z = v
    · rw [here, Nesting.put_parent_self] at step
      cases step
      rw [here]
      exact ⟨mergeable.ready, mergeable.member⟩
    · rw [L.put_parent here] at step
      exact laminar.members z t step
  · intro t item
    by_cases here : t = s
    · rw [here, update_self, rootB]
      exact ofEnds endsY (roots.within y endsY.item)
    · rw [update_of_ne here]
      exact (within' here).2 (roots.within t item)
  · intro t t' item inside root
    by_cases here' : t' = s
    · subst here'
      by_cases here : t = t'
      · rw [here]
      · exact absurd (((within' here).1 inside).eq_of_top topS) here
    rw [update_of_ne here']
    rw [within' here'] at root
    by_cases here : t = s
    · subst here
      rw [update_self] at root ⊢
      rw [rootB] at root ⊢
      exact represents.rep_eq_of_within endsY.item endsY.top root
    · rw [update_of_ne here] at root ⊢
      exact roots.down t t' item ((within' here).1 inside) root
  · intro t mem
    by_cases here : t = s
    · rw [here, update_self]
      exact linkage.set
    · rw [update_of_ne here]
      exact roots.sets t mem
  · intro t u item inside notRoot
    dsimp only
    by_cases here : t = s
    · subst here
      rw [update_self] at notRoot ⊢
      rw [update_self, update_of_ne notRoot]
      obtain ⟨z, ends, insideZ⟩ := toEnds inside
      rcases linkage.rep_eq ends with isA | isB
      · exact ((roots.depth_le ends.item insideZ).trans_eq (by rw [isA])).trans_lt linkage.loser
      · exact (isB ▸ roots.higher z u ends.item insideZ (isB ▸ notRoot)).trans_le linkage.winner
    · rw [update_of_ne here] at notRoot ⊢
      have old := (within' here).1 inside
      have notB : u ≠ b := by
        rintro rfl
        rw [rootB] at old notRoot
        exact notRoot (represents.rep_eq_of_within endsY.item endsY.top old).symm
      rw [update_of_ne notB]
      exact (roots.higher t u item old notRoot).trans_le (raised _)
  · exact fun z item => (roots.positive z item).trans_le (raised z)
  · intro z real
    dsimp only at real ⊢
    rw [update_of_ne (by omega : z ≠ b)]
    exact roots.real z real
  · intro z
    dsimp only
    by_cases here : z = a
    · rw [here, update_self]
      exact iff_of_true (by simp) itemA
    · rw [update_of_ne here]
      exact pointers.exist z
  · intro t item top
    dsimp only
    by_cases here : t = s
    · rw [here, update_self, update_of_ne different]
      exact loopB
    · rw [update_of_ne here]
      have notA : rep t ≠ a := rootA ▸ notEnd item top here endsX
      rw [update_of_ne notA]
      exact pointers.loop t item (topOf top).2
  · intro t item inner u inside notRoot
    dsimp only at inner ⊢
    by_cases here : t = s
    · subst here
      rw [update_self] at notRoot
      by_cases isA : u = a
      · refine ⟨b, by rw [isA, update_self], notRoot.symm, ?_⟩
        rw [rootB]
        exact ofEnds endsY (roots.within y endsY.item)
      obtain ⟨z, ends, insideZ⟩ := toEnds inside
      have notRep : u ≠ rep z := by
        rcases linkage.rep_eq ends with eq | eq
        · exact eq ▸ isA
        · exact eq ▸ notRoot
      obtain ⟨p, ptr, moved, target⟩ :=
        pointers.inward z ends.item (.inl ends.top) u insideZ notRep
      exact ⟨p, by rw [update_of_ne isA, ptr], moved, ofEnds ends target⟩
    · rw [update_of_ne here] at notRoot
      have old := (within' here).1 inside
      have notA : u ≠ a := by
        rintro rfl
        rw [rootA] at old notRoot
        exact notRoot (represents.rep_eq_of_within endsX.item endsX.top old).symm
      obtain ⟨p, ptr, moved, target⟩ :=
        pointers.inward t item (inner.imp (fun top => (topOf top).2) id) u old notRoot
      exact ⟨p, by rw [update_of_ne notA, ptr], moved, (within' here).2 target⟩
  · refine (pointers.rising.raise loopB linkage.winner).link ?_
    rw [update_self, update_of_ne different.symm]
    exact linkage.loser
  · intro t item top
    dsimp only
    by_cases here : t = s
    · rw [here, update_self, update_self]
    · rw [update_of_ne here]
      have notB : rep t ≠ b := rootB ▸ notEnd item top here endsY
      rw [update_of_ne notB]
      exact pointers.owner t item (topOf top).2
  · intro z real
    dsimp only at real ⊢
    rw [update_of_ne (by omega : z ≠ b)]
    exact pointers.real z real
  · intro t mem
    obtain ⟨l, nodup, members, first, links⟩ := lists.members t mem
    have absent : v ∉ l := by
      intro inside
      have step := (members v).1 inside
      rw [mergeable.top] at step
      cases step
    by_cases here : t = s
    · subst here
      refine ⟨v :: l, nodup_cons.2 ⟨absent, nodup⟩, fun z => ?_, ?_, ?_, ?_⟩
      · rw [List.mem_cons, members]
        by_cases isV : z = v
        · simp [isV]
        · simp [isV, L.put_parent isV]
      · exact update_self ..
      · dsimp only
        rw [update_self, first]
        cases l with
        | nil | cons c l => rfl
      · cases l with
        | nil => trivial
        | cons c l =>
          rw [getLast?_cons_cons]
          refine links.congr fun z inside => update_of_ne ?_ _ _
          rintro rfl
          exact absent inside
    · have offset : t - st.n ≠ s - st.n := by
        have low := laminar.low t mem
        have low' := laminar.low s mergeable.member
        omega
      refine ⟨l, nodup, fun z => ?_, ?_, links.congr fun z inside => update_of_ne ?_ _ _⟩
      · rw [members]
        by_cases isV : z = v
        · simp [isV, mergeable.top, Ne.symm here]
        · rw [L.put_parent isV]
      · dsimp only
        rw [update_of_ne offset]
        exact first
      · rintro rfl
        exact absent inside
  · intro z item top
    obtain ⟨notV, top⟩ := topOf top
    dsimp only
    rw [update_of_ne notV]
    exact lists.tops z item top
  · intro t mem
    dsimp only
    by_cases here : t = s
    · subst here
      rw [canonical t mem, if_neg mergeable.isOpen]
      exact (if_neg mergeable.isOpen).symm
    · rw [update_of_ne here]
      exact canonical t mem

end

end Merge

theorem merge_spec (represents : st.Represents L rep) (mergeable : Mergeable L st.n s v) :
    ∃ st' rep', merge s v st = .ok () st' ∧ st'.Represents (L.put s v) rep' ∧ st'.n = st.n ∧
      st'.m = st.m := by
  have laminar := represents.laminar
  have low := laminar.low s mergeable.member
  have topS := laminar.top_of_open mergeable.member mergeable.isOpen
  have itemV := mergeable.item laminar
  have isOpen : st.canonical (s - st.n) = none :=
    (represents.canonical s mergeable.member).trans (if_neg mergeable.isOpen)
  have ready : ¬ (st.n ≤ v ∧ st.canonical (v - st.n) = none) := by
    rintro ⟨high, absent⟩
    have fixed := mergeable.ready.resolve_left (not_lt.2 high)
    rw [represents.canonical v (laminar.fixed fixed), if_pos fixed] at absent
    cases absent
  obtain ⟨B1, found, represents1⟩ := findRoot_spec represents itemV (.self mergeable.top)
  obtain ⟨B2, found', represents2⟩ := findRoot_spec represents1 (.inr mergeable.member) (.self topS)
  have run : merge s v st = .ok ()
      (linkMember s v (linkRoots s (rep s) (rep v) { st with B := B2 })) := by
    rw [merge, run_bind_get, if_neg (by omega), if_neg (not_not.2 isOpen), if_neg ready,
      run_bind_ok (top_spec represents itemV)]
    simp only [mergeable.top, decide_true, Bool.true_eq_false, if_false]
    rw [run_bind_ok found, run_bind_ok found']
    rfl
  by_cases less : st.depth (rep s) < st.depth (rep v)
  · -- the root of `v` is deeper, hence `v` is a set
    have set : v ∈ L.sets := by
      refine itemV.resolve_left fun real => ?_
      rw [represents.roots.eq_of_real laminar real, represents.roots.real v real] at less
      have pos := represents.roots.positive _
        (laminar.item_within (represents.roots.within s (.inr mergeable.member))
          (.inr mergeable.member))
      omega
    have linkage : Linkage L rep st.depth s v (rep s) (rep v) (st.depth (rep v)) :=
      ⟨.inl ⟨rfl, rfl⟩, less, le_rfl, represents.roots.sets v set⟩
    refine ⟨_, update rep s (rep v), run, ?_, by simp [linkMember, linkRoots, less],
      by simp [linkMember, linkRoots, less]⟩
    have after := represents2.put mergeable linkage
    rw [linkRoots, if_pos less]
    dsimp only at after
    rw [update_eq_self] at after
    exact after
  · have linkage : Linkage L rep st.depth s v (rep v) (rep s)
        (if st.depth (rep v) = st.depth (rep s) then st.depth (rep s) + 1
          else st.depth (rep s)) := by
      refine ⟨.inr ⟨rfl, rfl⟩, ?_, ?_, represents.roots.sets s mergeable.member⟩
      · split_ifs <;> omega
      · split_ifs <;> omega
    refine ⟨_, update rep s (rep s), run, ?_, by simp [linkMember, linkRoots, less],
      by simp [linkMember, linkRoots, less]⟩
    have after := represents2.put mergeable linkage
    rw [linkRoots, if_neg less]
    by_cases tie : st.depth (rep v) = st.depth (rep s)
    · rw [if_pos tie] at after
      simp only [if_pos tie]
      exact after
    · rw [if_neg tie] at after
      dsimp only at after
      rw [update_eq_self] at after
      simp only [if_neg tie]
      exact after

end NestedFamily

end Goblin
