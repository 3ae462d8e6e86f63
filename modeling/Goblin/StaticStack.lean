import Goblin.StaticQueue

/-!
# Static stacks

The items of a `staticStack` are linked by an array `prev`, from the top to the bottom. As for
queues, copies share the array and, from the first copy on, labels by the handles of the stacks,
which are the same for all copies.

The bottom item points to nothing, as does an item that is on no stack. `Insert` compares with the
bottom of its own stack only, so it accepts the bottom item of another stack. `staticStack_family`
states that the stacks are exclusive LIFO lists as long as this does not happen, and when
`IsMember` is correct.
-/

set_option autoImplicit false

namespace Goblin

open Library List Option ListRequest
open SharedFamily.Represents (add all_labelled initial length_le master replace retire tells)
open Function (update update_self update_of_ne update_eq_self update_idem)

variable {x : ℕ}

/-- What a `staticStack` holds of its own. -/
structure StaticStack where
  top : Option ℕ
  bottom : Option ℕ
  depth : ℕ
  /-- The pointer `set` is not `NULL`. -/
  labelled : Bool
  OH : ℕ

/-- The stacks that share the array `prev`. -/
structure StackFamily where
  n : ℕ
  prev : ℕ → Option ℕ
  set : ℕ → ℕ
  stackAt : ℕ → Option StaticStack

namespace StackFamily

/-- The constructor. -/
def new (n handle : ℕ) (set : ℕ → ℕ) : StackFamily where
  n := n
  prev := fun _ => none
  set := set
  stackAt := update (fun _ => none) 0 (some ⟨none, none, 0, false, handle⟩)

/-- The copy constructor. -/
def copy (q q' : ℕ) (st : StackFamily) : Except Raise StackFamily := do
  let S ← defined (st.stackAt q)
  let st := if S.labelled then st
    else { st with
      set := fun i => if st.prev i ≠ none ∨ S.bottom = some i then S.OH else noHandle
      stackAt := update st.stackAt q (some { S with labelled := true }) }
  return { st with
    stackAt := update st.stackAt q' (some ⟨none, none, 0, true, noHandle⟩) }

/-- The family after an item has been put on the stack `S`. -/
def inserted (st : StackFamily) (q w : ℕ) (S : StaticStack) : StackFamily :=
  { st with
    prev := update st.prev w S.top
    set := if S.labelled then update st.set w S.OH else st.set
    stackAt := update st.stackAt q (some { S with
      top := some w
      bottom := if S.depth + 1 = 1 then some w else S.bottom
      depth := S.depth + 1 }) }

def insert (q w : ℕ) (throws : Bool) (st : StackFamily) : Except Raise StackFamily := do
  let S ← defined (st.stackAt q)
  if st.n ≤ w then throw (.range "Insert" "No such item")
  else if st.prev w ≠ none ∨ S.bottom = some w then
    if throws then throw (.check "Insert" "Item is already on the stack") else return st
  else return st.inserted q w S

/-- The family after the top item `temp` of the stack `S` has been deleted. -/
def deleted (st : StackFamily) (q temp : ℕ) (S : StaticStack) : StackFamily :=
  { st with
    prev := update st.prev temp none
    stackAt := update st.stackAt q (some { S with
      top := st.prev temp
      bottom := if S.depth - 1 = 0 then none else S.bottom
      depth := S.depth - 1 }) }

def delete (q : ℕ) (st : StackFamily) : Except Raise (StackFamily × ℕ) := do
  let S ← defined (st.stackAt q)
  match S.top with
  | none => throw (.rejected "Delete" "Queue is empty")
  | some temp => return (st.deleted q temp S, temp)

/-- The loop of the destructor. -/
def deleteAll (q : ℕ) : ℕ → StackFamily → Except Raise StackFamily
  | 0, _ => throw .fuel
  | fuel + 1, st => do
    let S ← defined (st.stackAt q)
    if S.top = none then return st
    else
      let (st, _) ← delete q st
      deleteAll q fuel st

/-- The destructor of a copy. -/
def destroy (q : ℕ) (st : StackFamily) : Except Raise StackFamily := do
  let st ← deleteAll q (st.n + 1) st
  return { st with stackAt := update st.stackAt q none }

def isMember (q i : ℕ) (st : StackFamily) : Except Raise Bool := do
  let S ← defined (st.stackAt q)
  if st.n ≤ i then throw (.range "IsMember" "No such item")
  else if S.bottom = some i then return true
  else if S.labelled ∧ st.prev i ≠ none then return st.set i = S.OH
  else return st.prev i ≠ none

def first (q : ℕ) (st : StackFamily) : Except Raise (Option ℕ) := do
  let S ← defined (st.stackAt q)
  return S.top

def successor (q i : ℕ) (st : StackFamily) : Except Raise (Option ℕ) := do
  let S ← defined (st.stackAt q)
  if st.n ≤ i then throw (.range "Successor" "No such item")
  else if S.bottom = some i then return none
  else return st.prev i

/-- A request. -/
def serve (request : ListRequest) (st : StackFamily) : Except Raise (StackFamily × Option ℕ) :=
  match request with
  | .insert q w throws => (fun st => (st, none)) <$> insert q w throws st
  | .delete q => (fun answer => (answer.1, some answer.2)) <$> delete q st
  | .copy q q' => (fun st => (st, none)) <$> copy q q' st
  | .destroy q => (fun st => (st, none)) <$> destroy q st

/-- The item to be inserted is not the bottom of another stack. -/
def Admits (st : StackFamily) : ListRequest → Prop
  | .insert q w _ => ∀ p S, p ≠ q → st.stackAt p = some S → S.bottom ≠ some w
  | _ => True

/-! ## The lists -/

variable {st st' : StackFamily} {S : StaticStack} {prev prev' : ℕ → Option ℕ} {l : List ℕ}
  {lists : Lists} {p q w i handle : ℕ}

/-- A stack holds the items of a list, from the top to the bottom. -/
structure Holds (prev : ℕ → Option ℕ) (S : StaticStack) (l : List ℕ) : Prop where
  top : S.top = l.head?
  bottom : S.bottom = l.getLast?
  depth : S.depth = l.length
  links : Links prev l none

theorem Holds.congr (holds : Holds prev S l) (eq : ∀ i ∈ l, prev' i = prev i) : Holds prev' S l :=
  ⟨holds.top, holds.bottom, holds.depth, holds.links.congr eq⟩

/-- The bottom item is the only one that points to nothing. -/
theorem Holds.prev_eq_none (holds : Holds prev S l) (nodup : l.Nodup) (mem : i ∈ l) :
    prev i = none ↔ S.bottom = some i := by
  obtain ⟨front, rest, rfl⟩ := append_of_mem mem
  obtain ⟨-, link, -⟩ := links_append.1 holds.links
  have val : prev i = rest.head? := by rw [link, or_none]
  rw [val, holds.bottom, getLast?_append]
  cases rest with
  | nil => simp
  | cons y rest =>
    refine iff_of_false (by simp) fun last => ?_
    have notMem : i ∉ y :: rest := (nodup_cons.1 (nodup_append.1 nodup).2.1).1
    rw [getLast?_cons_cons] at last
    have inRest : i ∈ (y :: rest).getLast? := by
      rw [getLast?_eq_some_getLast (cons_ne_nil y rest)] at last ⊢
      exact last
    exact notMem (mem_of_getLast? inRest)

theorem Holds.insert (holds : Holds prev S l) (free : w ∉ l) : Holds (update prev w S.top) { S with
      top := some w
      bottom := if S.depth + 1 = 1 then some w else S.bottom
      depth := S.depth + 1 } (w :: l) := by
  refine ⟨rfl, ?_, by simp [holds.depth], ?_⟩
  · dsimp only
    rw [holds.depth, holds.bottom]
    cases l with
    | nil => rfl
    | cons y l => simp
  · refine ⟨?_, holds.links.congr fun c mem => update_of_ne ?_ _ _⟩
    · rw [update_self, holds.top, or_none]
    · rintro rfl
      exact free mem

theorem Holds.delete (holds : Holds prev S (x :: l)) (nodup : (x :: l).Nodup) :
    Holds (update prev x none) { S with
      top := prev x
      bottom := if S.depth - 1 = 0 then none else S.bottom
      depth := S.depth - 1 } l := by
  obtain ⟨link, rest⟩ := holds.links
  refine ⟨?_, ?_, by simp [holds.depth], rest.congr fun c mem => update_of_ne ?_ _ _⟩
  · dsimp only
    rw [link, or_none]
  · dsimp only
    rw [holds.depth, holds.bottom]
    cases l with
    | nil => rfl
    | cons y l => simp
  · rintro rfl
    exact (nodup_cons.1 nodup).1 mem

/-! ## The invariant -/

/-- The arrays of the family. -/
def family (st : StackFamily) : SharedFamily StaticStack := ⟨st.n, st.prev, st.set, st.stackAt⟩

/-- Stacks keep their lists by `Holds`, and label their items by their handles. -/
def keeping : Keeping StaticStack := ⟨Holds, Holds.congr, StaticStack.OH, StaticStack.labelled⟩

/-- The stacks hold these lists. -/
def Represents (handle : ℕ) (st : StackFamily) (lists : Lists) : Prop :=
  st.family.Represents keeping (QueueFamily.handleOf handle) lists

section

variable (represents : Represents handle st lists)
include represents

theorem Represents.live (live : lists q = some l) :
    ∃ S, st.stackAt q = some S ∧ Holds st.prev S l ∧ S.OH = QueueFamily.handleOf handle q ∧
      (S.labelled = true → ∀ i ∈ l, st.set i = S.OH) ∧
      (S.labelled = false → ∀ p, lists p ≠ none → p = q) :=
  SharedFamily.Represents.live represents q l live

theorem Represents.exclusive : lists.Exclusive :=
  SharedFamily.Represents.exclusive represents

theorem Represents.low (present : lists.Present i) : i < st.n :=
  SharedFamily.Represents.low represents i present

theorem Represents.absent (dead : lists q = none) : st.stackAt q = none :=
  SharedFamily.Represents.absent represents q dead

theorem Represents.present (linked : st.prev i ≠ none) : lists.Present i :=
  SharedFamily.Represents.present represents i linked

end

theorem holds_nil (prev : ℕ → Option ℕ) (labelled : Bool) (OH : ℕ) :
    Holds prev ⟨none, none, 0, labelled, OH⟩ [] := ⟨rfl, rfl, rfl, trivial⟩

theorem new_represents (n handle : ℕ) (set : ℕ → ℕ) :
    Represents handle (new n handle set) Lists.initial :=
  initial rfl (holds_nil _ false handle) rfl (fun _ => rfl)
    fun q notMaster => by simp [family, new, notMaster]

/-- The item is not the bottom of another list. -/
def Apart (lists : Lists) (q w : ℕ) : Prop :=
  ∀ p k, p ≠ q → lists p = some k → k.getLast? ≠ some w

theorem Represents.apart (represents : Represents handle st lists) {throws : Bool}
    (admitted : st.Admits (.insert q w throws)) : Apart lists q w := by
  intro p k other val last
  obtain ⟨P, objectP, holdsP, -⟩ := represents.live val
  exact admitted p P other objectP (holdsP.bottom.trans last)

/-- The test by which `Insert` finds out that an item is on a stack. -/
theorem Represents.present_iff (represents : Represents handle st lists) (live : lists q = some l)
    (object : st.stackAt q = some S) (apart : Apart lists q w) :
    st.prev w ≠ none ∨ S.bottom = some w ↔ lists.Present w := by
  obtain ⟨S', object', holds, -⟩ := represents.live live
  rw [object] at object'
  cases object'
  constructor
  · rintro (linked | bottom)
    · exact represents.present linked
    · rw [holds.bottom] at bottom
      exact ⟨q, l, live, mem_of_getLast? bottom⟩
  · rintro ⟨p, k, val, mem⟩
    by_contra neither
    obtain ⟨free, notBottom⟩ := not_or.1 neither
    obtain ⟨P, objectP, holdsP, -⟩ := represents.live val
    have nodup := represents.exclusive.nodup p k val
    have bottomP : P.bottom = some w := (holdsP.prev_eq_none nodup mem).1 (not_not.1 free)
    by_cases eq : p = q
    · subst eq
      rw [object] at objectP
      cases objectP
      exact notBottom bottomP
    · exact apart p k eq val (holdsP.bottom.symm.trans bottomP)

/-! ## Requests -/

section

variable (represents : Represents handle st lists)
include represents

theorem Represents.insert (live : lists q = some l)
    (low : w < st.n) (free : ¬ lists.Present w) (throws : Bool) :
    ∃ st', StackFamily.insert q w throws st = .ok st' ∧ st'.n = st.n ∧
      Represents handle st' (update lists q (some (w :: l))) := by
  obtain ⟨S, object, holds, handleS, labels, alone⟩ := represents.live live
  have apart : Apart lists q w := fun p k _ val last =>
    free ⟨p, k, val, mem_of_getLast? last⟩
  have passed : ¬ (st.prev w ≠ none ∨ S.bottom = some w) := fun found =>
    free ((represents.present_iff live object apart).1 found)
  have notMem : w ∉ l := fun mem => free ⟨q, l, live, mem⟩
  refine ⟨st.inserted q w S, ?_, rfl, replace represents live ?_ rfl rfl ?_ ?_
    ?_ ?_ handleS ?_ alone ?_⟩
  · simp only [StackFamily.insert, object, defined, bind, Except.bind, if_neg (not_le.2 low),
      if_neg passed]
    rfl
  · exact represents.exclusive.insert live free (List.Perm.refl _)
  · intro i _ notK
    exact update_of_ne (fun eq => notK (by simp [eq])) ..
  · intro i _ notK
    have notW : i ≠ w := fun eq => notK (by simp [eq])
    dsimp only [inserted, family]
    split_ifs
    · exact update_of_ne notW ..
    · rfl
  · exact fun i inL notK => absurd (mem_cons_of_mem w inL) notK
  · exact holds.insert notMem
  · intro labelled i inK
    have labelled' : S.labelled = true := labelled
    dsimp only [inserted, family, keeping]
    rw [if_pos labelled']
    by_cases new : i = w
    · rw [new, update_self]
    · rw [update_of_ne new]
      exact labels labelled' i ((mem_cons.1 inK).resolve_left new)
  · intro i inK
    rcases mem_cons.1 inK with rfl | inL
    · exact low
    · exact represents.low ⟨q, l, live, inL⟩

theorem Represents.insert_present (live : lists q ≠ none)
    (present : lists.Present w) (throws : Bool) (apart : Apart lists q w) :
    StackFamily.insert q w throws st =
      if throws then .error (.check "Insert" "Item is already on the stack") else .ok st := by
  obtain ⟨l, live⟩ := ne_none_iff_exists'.1 live
  obtain ⟨S, object, -⟩ := represents.live live
  have low : ¬ st.n ≤ w := not_le.2 (represents.low present)
  have found := (represents.present_iff live object apart).2 present
  simp only [StackFamily.insert, object, defined, bind, Except.bind, if_neg low, if_pos found]
  rfl

theorem Represents.delete (live : lists q = some (x :: l)) :
    ∃ st', StackFamily.delete q st = .ok (st', x) ∧ st'.n = st.n ∧
      Represents handle st' (update lists q (some l)) := by
  obtain ⟨S, object, holds, handleS, labels, alone⟩ := represents.live live
  have nodup := represents.exclusive.nodup q (x :: l) live
  refine ⟨st.deleted q x S, ?_, rfl, replace represents live ?_ rfl rfl ?_ ?_
    ?_ ?_ handleS ?_ alone ?_⟩
  · simp only [StackFamily.delete, object, defined, bind, Except.bind, holds.top, head?_cons]
    rfl
  · exact represents.exclusive.shrink live (sublist_cons_self x l)
  · intro i notL _
    refine update_of_ne ?_ _ _
    rintro rfl
    exact notL mem_cons_self
  · exact fun _ _ _ => rfl
  · intro i inL notK
    rw [(mem_cons.1 inL).resolve_right notK]
    exact update_self ..
  · exact holds.delete nodup
  · exact fun labelled i mem => labels labelled i (mem_cons_of_mem x mem)
  · exact fun i mem => represents.low ⟨q, x :: l, live, mem_cons_of_mem x mem⟩

theorem Represents.destroy (live : lists q ≠ none) (notMaster : q ≠ 0) :
    ∃ st', StackFamily.destroy q st = .ok st' ∧ st'.n = st.n ∧
      Represents handle st' (update lists q none) := by
  obtain ⟨l, live⟩ := ne_none_iff_exists'.1 live
  have enough : l.length < st.n + 1 :=
    Nat.lt_succ_of_le (length_le represents live)
  obtain ⟨st', res, after, n⟩ := deleteAll_spec
    (fun st' lists => Represents handle st' lists ∧ st'.n = st.n)
    (fun fuel st1 lists inv empty => show StackFamily.deleteAll q (fuel + 1) st1 = .ok st1 by
      obtain ⟨S, object, holds, -⟩ := inv.1.live empty
      have none : S.top = none := holds.top
      simp only [deleteAll, object, defined, bind, Except.bind, if_pos none]
      rfl)
    (fun fuel st1 lists x l inv live => by
      obtain ⟨S, object, holds, -⟩ := inv.1.live live
      have some : ¬ S.top = none := by simp [holds.top]
      obtain ⟨st', res, size, after⟩ := inv.1.delete live
      refine ⟨st', ?_, after, size.trans inv.2⟩
      simp only [deleteAll, object, defined, bind, Except.bind, if_neg some, res])
    l ⟨represents, rfl⟩ live enough
  refine ⟨{ st' with stackAt := update st'.stackAt q none }, ?_, n, ?_⟩
  · simp only [StackFamily.destroy, res, bind, Except.bind]
    rfl
  · have retired : Represents handle { st' with stackAt := update st'.stackAt q none } _ :=
      retire after (update_self ..) notMaster rfl rfl rfl rfl
    rwa [update_idem] at retired

theorem Represents.copy {q' : ℕ} (live : lists q ≠ none) (fresh : lists q' = none) :
    ∃ st', StackFamily.copy q q' st = .ok st' ∧ st'.n = st.n ∧
      Represents handle st' (update lists q' (some [])) := by
  obtain ⟨l, liveQ⟩ := ne_none_iff_exists'.1 live
  obtain ⟨S, object, holds, handleS, labels, alone⟩ := represents.live liveQ
  have notMaster : q' ≠ 0 := by
    rintro rfl
    exact master represents fresh
  have other : ∀ p j, lists p = some j → p ≠ q' := by
    rintro p j val rfl
    rw [fresh] at val
    cases val
  have handle' : noHandle = QueueFamily.handleOf handle q' := by
    rw [QueueFamily.handleOf, if_neg notMaster]
  by_cases labelled : S.labelled = true
  · refine ⟨{ st with stackAt := update st.stackAt q' (some ⟨none, none, 0, true, noHandle⟩) },
      ?_, rfl, ?_⟩
    · simp only [StackFamily.copy, object, defined, bind, Except.bind, if_pos labelled]
      rfl
    · refine add represents fresh (fun p j val => ?_) rfl rfl
        (update_self ..) (fun p new dead => ?_) (holds_nil _ _ _) handle' rfl
      swap
      · exact (update_of_ne new ..).trans (represents.absent dead)
      obtain ⟨P, objectP, rest⟩ :=
        all_labelled represents live object labelled val
      exact ⟨P, (update_of_ne (other p j val) ..).trans objectP, rest⟩
  · refine ⟨{ st with
        set := fun i => if st.prev i ≠ none ∨ S.bottom = some i then S.OH else noHandle
        stackAt := update (update st.stackAt q (some { S with labelled := true })) q'
          (some ⟨none, none, 0, true, noHandle⟩) }, ?_, rfl, ?_⟩
    · simp only [StackFamily.copy, object, defined, bind, Except.bind, if_neg labelled]
      rfl
    · refine add represents fresh (fun p j val => ?_) rfl rfl
        (update_self ..) (fun p new dead => ?_) (holds_nil _ _ _) handle' rfl
      swap
      · have dead' : p ≠ q := fun here => live (here ▸ dead)
        exact (update_of_ne new ..).trans ((update_of_ne dead' ..).trans (represents.absent dead))
      have eq := alone (by simpa using labelled) p (by simp [val])
      subst eq
      rw [liveQ] at val
      cases val
      refine ⟨{ S with labelled := true }, ?_, ⟨holds.top, holds.bottom, holds.depth, holds.links⟩,
        handleS, rfl, fun i mem => if_pos ?_⟩
      · exact (update_of_ne (other p l liveQ) ..).trans (update_self ..)
      · rw [← holds.prev_eq_none (represents.exclusive.nodup p l liveQ) mem]
        exact (em _).symm

theorem Represents.serve (req : ListRequest)
    (legal : req.Legal lists) (admitted : st.Admits req) :
    Represents handle (served StackFamily.serve req st)
        (req.listsAfter st.n List.cons lists) ∧
      (served StackFamily.serve req st).n = st.n := by
  cases req with
  | insert q w throws =>
    obtain ⟨l, live⟩ := ne_none_iff_exists'.1 legal
    by_cases high : st.n ≤ w
    · obtain ⟨S, object, -⟩ := represents.live live
      have failed : StackFamily.serve (.insert q w throws) st =
          .error (.range "Insert" "No such item") := by
        simp only [StackFamily.serve, StackFamily.insert, object, defined, bind, Except.bind,
          if_pos high]
        rfl
      rw [served, failed, listsAfter_refused (.inl high)]
      exact ⟨represents, rfl⟩
    by_cases present : lists.Present w
    · have ignored := represents.insert_present legal present throws (represents.apart admitted)
      rw [listsAfter_refused (.inr present)]
      have eq : served StackFamily.serve (.insert q w throws) st = st := by
        rw [served, StackFamily.serve, ignored]
        cases throws with
        | true | false => rfl
      rw [eq]
      exact ⟨represents, rfl⟩
    · obtain ⟨st', res, n, after⟩ :=
        represents.insert live (not_le.1 high) present throws
      rw [listsAfter_insert (not_le.1 high) present live, served, StackFamily.serve, res]
      exact ⟨after, n⟩
  | delete q =>
    obtain ⟨l, live⟩ := ne_none_iff_exists'.1 legal
    cases l with
    | nil =>
      obtain ⟨S, object, holds, -⟩ := represents.live live
      have failed : StackFamily.serve (.delete q) st =
          .error (.rejected "Delete" "Queue is empty") := by
        simp only [StackFamily.serve, StackFamily.delete, object, defined, bind, Except.bind,
          holds.top, head?_nil]
        rfl
      rw [served, failed, listsAfter_delete_nil live]
      exact ⟨represents, rfl⟩
    | cons x l =>
      obtain ⟨st', res, n, after⟩ := represents.delete live
      rw [listsAfter_delete live, served, StackFamily.serve, res]
      exact ⟨after, n⟩
  | copy q q' =>
    obtain ⟨st', res, n, after⟩ := represents.copy legal.1 legal.2
    rw [served, StackFamily.serve, res]
    exact ⟨after, n⟩
  | destroy q =>
    obtain ⟨st', res, n, after⟩ := represents.destroy legal.1 legal.2
    rw [served, StackFamily.serve, res]
    exact ⟨after, n⟩

theorem Represents.insert_bottom {k : List ℕ}
    (live : lists q = some l) (other : p ≠ q) (live' : lists p = some k)
    (bottom : k.getLast? = some w) (throws : Bool) :
    ∃ st', StackFamily.insert q w throws st = .ok st' ∧ StackFamily.isMember q w st' = .ok true ∧
      StackFamily.isMember p w st' = .ok true := by
  obtain ⟨S, object, holds, -⟩ := represents.live live
  obtain ⟨P, objectP, holdsP, -⟩ := represents.live live'
  have mem : w ∈ k := mem_of_getLast? bottom
  have bottomP : P.bottom = some w := holdsP.bottom.trans bottom
  have low : ¬ st.n ≤ w := not_le.2 (represents.low ⟨p, k, live', mem⟩)
  have unlinked : st.prev w = none :=
    (holdsP.prev_eq_none (represents.exclusive.nodup p k live') mem).2 bottomP
  have notMem : w ∉ l := fun both =>
    other (represents.exclusive.disjoint p q k l live' live w mem both)
  have passed : ¬ (st.prev w ≠ none ∨ S.bottom = some w) := by
    rintro (linked | bottomS)
    · exact linked unlinked
    · rw [holds.bottom] at bottomS
      exact notMem (mem_of_getLast? bottomS)
  refine ⟨st.inserted q w S, ?_, ?_, ?_⟩
  · simp only [StackFamily.insert, object, defined, bind, Except.bind, if_neg low, if_neg passed]
    rfl
  · have object' := update_self (β := fun _ => Option StaticStack) q (some { S with
      top := some w
      bottom := if S.depth + 1 = 1 then some w else S.bottom
      depth := S.depth + 1 }) st.stackAt
    have low' : ¬ (st.inserted q w S).n ≤ w := low
    have res : StackFamily.isMember q w (st.inserted q w S) =
        if (if S.depth + 1 = 1 then some w else S.bottom) = some w then .ok true
        else if S.labelled = true ∧ (st.inserted q w S).prev w ≠ none then
          .ok (decide ((st.inserted q w S).set w = S.OH))
        else .ok (decide ((st.inserted q w S).prev w ≠ none)) := by
      simp only [StackFamily.isMember, bind, Except.bind, if_neg low']
      rw [show (st.inserted q w S).stackAt q = _ from object']
      rfl
    rw [res]
    have link : (st.inserted q w S).prev w = S.top := update_self ..
    cases l with
    | nil =>
      rw [if_pos (by rw [holds.depth]; rfl)]
    | cons x l =>
      have linked : (st.inserted q w S).prev w ≠ none := by simp [link, holds.top]
      have ne : ¬ S.depth + 1 = 1 := by simp [holds.depth]
      rw [if_neg ne, if_neg fun found => passed (.inr found)]
      by_cases labelled : S.labelled = true
      · have label : (st.inserted q w S).set w = S.OH := by
          rw [inserted, if_pos labelled]
          exact update_self ..
        rw [if_pos ⟨labelled, linked⟩, label, decide_eq_true rfl]
      · rw [if_neg fun both => labelled both.1, decide_eq_true linked]
  · have kept : (st.inserted q w S).stackAt p = some P :=
      (update_of_ne other ..).trans objectP
    have low' : ¬ (st.inserted q w S).n ≤ w := low
    simp only [StackFamily.isMember, kept, defined, bind, Except.bind, if_neg low', if_pos bottomP]
    rfl

end

/-! ## Queries -/

theorem Represents.traversal (represents : Represents handle st lists) (live : lists q = some l) :
    StackFamily.first q st = .ok l.head? ∧ ∃ next : ℕ → Option ℕ,
      (∀ i ∈ l, StackFamily.successor q i st = .ok (next i)) ∧ Links next l none := by
  obtain ⟨S, object, holds, -⟩ := represents.live live
  refine ⟨?_, st.prev, fun i mem => ?_, holds.links⟩
  · simp only [StackFamily.first, object, defined, bind, Except.bind, holds.top]
    rfl
  · have low : ¬ st.n ≤ i := not_le.2 (represents.low ⟨q, l, live, mem⟩)
    have ending := holds.prev_eq_none (represents.exclusive.nodup q l live) mem
    by_cases bottom : S.bottom = some i
    · simp only [StackFamily.successor, object, defined, bind, Except.bind, if_neg low,
        if_pos bottom, ending.2 bottom]
      rfl
    · simp only [StackFamily.successor, object, defined, bind, Except.bind, if_neg low,
        if_neg bottom]
      rfl

theorem Represents.isMember (represents : Represents handle st lists) (live : lists q ≠ none)
    (low : i < st.n) (registered : handle ≠ noHandle) :
    ∃ answer, StackFamily.isMember q i st = .ok answer ∧ (answer = true ↔
      ∃ p l, lists p = some l ∧ i ∈ l ∧ (p = q ∨ (p ≠ 0 ∧ q ≠ 0 ∧ l.getLast? ≠ some i))) := by
  obtain ⟨k, liveQ⟩ := ne_none_iff_exists'.1 live
  obtain ⟨S, object, holds, handleS, -⟩ := represents.live liveQ
  by_cases bottom : S.bottom = some i
  · refine ⟨true, ?_, iff_of_true rfl ⟨q, k, liveQ, ?_, .inl rfl⟩⟩
    · simp only [StackFamily.isMember, object, defined, bind, Except.bind, if_neg (not_le.2 low),
        if_pos bottom]
      rfl
    · rw [holds.bottom] at bottom
      exact mem_of_getLast? bottom
  have ending : ∀ p l, lists p = some l → i ∈ l → (st.prev i = none ↔ l.getLast? = some i) := by
    intro p l val mem
    obtain ⟨P, -, holdsP, -⟩ := represents.live val
    rw [← holdsP.bottom]
    exact holdsP.prev_eq_none (represents.exclusive.nodup p l val) mem
  by_cases linked : st.prev i ≠ none
  swap
  · refine ⟨decide (st.prev i ≠ none), ?_, ?_⟩
    · have notBoth : ¬ (S.labelled = true ∧ st.prev i ≠ none) := fun both => linked both.2
      simp only [StackFamily.isMember, object, defined, bind, Except.bind, if_neg (not_le.2 low),
        if_neg bottom, if_neg notBoth]
      rfl
    · rw [decide_eq_true_iff]
      refine iff_of_false linked ?_
      rintro ⟨p, l, val, mem, rfl | ⟨-, -, inside⟩⟩
      · rw [liveQ] at val
        cases val
        exact bottom (holds.bottom.trans ((ending p k liveQ mem).1 (not_not.1 linked)))
      · exact inside ((ending p l val mem).1 (not_not.1 linked))
  obtain ⟨p, l, val, mem⟩ := represents.present linked
  have inside : l.getLast? ≠ some i := fun last => linked ((ending p l val mem).2 last)
  have onlyP : (∃ p' l', lists p' = some l' ∧ i ∈ l' ∧
      (p' = q ∨ (p' ≠ 0 ∧ q ≠ 0 ∧ l'.getLast? ≠ some i))) ↔ p = q ∨ (p ≠ 0 ∧ q ≠ 0) := by
    constructor
    · rintro ⟨p', l', val', mem', which⟩
      rw [represents.exclusive.disjoint p p' l l' val val' i mem mem']
      exact which.imp id fun both => ⟨both.1, both.2.1⟩
    · exact fun which =>
        ⟨p, l, val, mem, which.imp id fun both => ⟨both.1, both.2, inside⟩⟩
  rw [onlyP]
  rw [← QueueFamily.handleOf_eq_iff registered, ← tells represents live object handleS val mem]
  by_cases labelled : S.labelled = true
  · refine ⟨decide (st.set i = S.OH), ?_, by simp [labelled, keeping, family]⟩
    have both : S.labelled = true ∧ st.prev i ≠ none := ⟨labelled, linked⟩
    simp only [StackFamily.isMember, object, defined, bind, Except.bind, if_neg (not_le.2 low),
      if_neg bottom, if_pos both]
    rfl
  · refine ⟨decide (st.prev i ≠ none), ?_, by simp [labelled, linked, keeping]⟩
    have notBoth : ¬ (S.labelled = true ∧ st.prev i ≠ none) := fun both => labelled both.1
    simp only [StackFamily.isMember, object, defined, bind, Except.bind, if_neg (not_le.2 low),
      if_neg bottom, if_neg notBoth]
    rfl

/-! ## Runs -/

/-- The states of a run, with the lists. No request inserts the bottom item of another stack. -/
def Reaches (n handle : ℕ) (set : ℕ → ℕ) : StackFamily → Lists → Prop :=
  ListReach n List.cons (new n handle set) serve Admits

theorem Reaches.represents {n : ℕ} {set : ℕ → ℕ} (reaches : Reaches n handle set st lists) :
    Represents handle st lists ∧ st.n = n := by
  refine ListReach.invariant (fun st lists => Represents handle st lists ∧ st.n = n)
    ⟨new_represents n handle set, rfl⟩ ?_ reaches
  rintro st lists ⟨represents, rfl⟩ req legal admitted
  exact represents.serve req legal admitted

/-- **The stacks of a family are exclusive LIFO lists**, as long as no bottom item of another stack
is inserted. `Delete` returns the item that has been inserted last, and `First` and `Successor`
read the stack from the top. An item that is on any stack is rejected or ignored if and only if it
is not the bottom of another stack; otherwise it is on both stacks afterwards. `IsMember` is
correct unless there are two items on a copy while another copy exists. -/
theorem staticStack_family {n : ℕ} {set : ℕ → ℕ} (registered : handle ≠ noHandle)
    (reaches : Reaches n handle set st lists) : lists.Exclusive ∧ (∀ q l, lists q = some l →
      (∀ x k, l = x :: k → ∃ st', serve (.delete q) st = .ok (st', some x) ∧
        Reaches n handle set st' (update lists q (some k))) ∧ first q st = .ok l.head? ∧
      (∃ next, (∀ i ∈ l, successor q i st = .ok (next i)) ∧ Links next l none) ∧ ∀ w throws,
        (lists.Present w → Apart lists q w → insert q w throws st =
          if throws then .error (.check "Insert" "Item is already on the stack") else .ok st) ∧
        (∀ p k, p ≠ q → lists p = some k → k.getLast? = some w →
          ∃ st', insert q w throws st = .ok st' ∧ isMember q w st' = .ok true ∧
            isMember p w st' = .ok true) ∧
        (w < n → ¬ lists.Present w → ∃ st', insert q w throws st = .ok st' ∧
          Reaches n handle set st' (update lists q (some (w :: l))))) ∧
    ((∀ q l, lists q = some l → ∀ i, i < n → isMember q i st = .ok (decide (i ∈ l))) ↔
      ∀ p q l, p ≠ q → p ≠ 0 → q ≠ 0 → lists p ≠ none → lists q = some l → l.length ≤ 1) := by
  obtain ⟨represents, size⟩ := reaches.represents
  refine ⟨represents.exclusive, fun q l live => ⟨?_, ?_, ?_, fun w throws => ⟨?_, ?_, ?_⟩⟩, ?_⟩
  · rintro x k rfl
    obtain ⟨st', result, -, -⟩ := represents.delete live
    have answer : serve (.delete q) st = .ok (st', some x) := by rw [serve, result]; rfl
    refine ⟨st', answer, ?_⟩
    have next := ListReach.step (.delete q) reaches (by simp [Legal, live]) trivial
    rw [listsAfter_delete live, served, answer] at next
    exact next
  · exact (represents.traversal live).1
  · exact (represents.traversal live).2
  · intro present apart
    exact represents.insert_present (by simp [live]) present throws apart
  · intro p k other live' bottom
    exact represents.insert_bottom live other live' bottom throws
  · intro low free
    obtain ⟨st', result, -, -⟩ := represents.insert live (size.symm ▸ low) free throws
    have answer : serve (.insert q w throws) st = .ok (st', none) := by rw [serve, result]; rfl
    refine ⟨st', result, ?_⟩
    have admitted : st.Admits (.insert q w throws) := by
      intro p P _ object bottom
      obtain ⟨k, live'⟩ := ne_none_iff_exists'.1 fun dead =>
        some_ne_none P (object.symm.trans (represents.absent dead))
      obtain ⟨P', object', holds, -⟩ := represents.live live'
      rw [object] at object'
      cases object'
      exact free ⟨p, k, live', mem_of_getLast? (holds.bottom.symm.trans bottom)⟩
    have next := ListReach.step (.insert q w throws) reaches (by simp [Legal, live]) admitted
    rw [listsAfter_insert low free live, served, answer] at next
    exact next
  · refine (represents.exclusive.member_correct (fun l i => l.getLast? ≠ some i)
      (fun i on => size ▸ represents.low on) fun q i live low =>
        represents.isMember live (size.symm ▸ low) registered).trans ?_
    refine forall₅_congr fun p q l _ _ => forall₃_congr fun _ _ live => ?_
    simp only [not_not]
    have nodup := represents.exclusive.nodup q l live
    rcases l with _ | ⟨x, _ | ⟨y, rest⟩⟩
    · simp
    · simp
    · refine iff_of_false (fun last => ?_) (by simp)
      have top := last x mem_cons_self
      rw [getLast?_cons_cons] at top
      exact (nodup_cons.1 nodup).1 (mem_of_getLast? top)

/-- Two items are on a stack with a copy. -/
theorem staticStack_family_copy : ∃ st lists, Reaches 3 1 (fun _ => 0) st lists ∧
    lists 0 = some [0, 2] ∧ lists 1 = some [] ∧ isMember 1 2 st = .ok false ∧
    ∃ st', serve (.delete 0) st = .ok (st', some 0) := by
  have zero : Lists.initial 0 = some [] := rfl
  have absent : ∀ w, ¬ Lists.initial.Present w := Lists.not_present_initial
  have only : ∀ {st : StackFamily} {S : StaticStack}, st.stackAt = update
      (fun _ => none) 0 (some S) → ∀ w throws, st.Admits (.insert 0 w throws) := by
    intro st S single w throws p P other object
    rw [single, update_of_ne other] at object
    cases object
  have run1 : Reaches 3 1 (fun _ => 0) _ _ :=
    .step (.insert 0 2 true) .start (some_ne_none []) (only rfl 2 true)
  rw [listsAfter_insert (by decide) (absent 2) zero] at run1
  have free : ¬ Lists.Present (update Lists.initial 0 (some [2])) 0 := by
    rw [Lists.present_update]
    rintro (⟨j, value, member⟩ | ⟨p, j, -, value, member⟩)
    · cases value
      simp at member
    · exact absent 0 ⟨p, j, value, member⟩
  have run2 : Reaches 3 1 (fun _ => 0) _ _ :=
    .step (.insert 0 0 true) run1 (by simp [Legal]) (only (update_idem ..) 0 true)
  rw [listsAfter_insert (by decide) free (update_self ..)] at run2
  have run3 : Reaches 3 1 (fun _ => 0) _ _ :=
    .step (.copy 0 1) run2 (by simp [Legal, Lists.initial]) trivial
  have copies : ∀ p, listsAfter 3 List.cons (update (update
      Lists.initial 0 (some [2])) 0 (some [0, 2])) (.copy 0 1) p ≠ none → p ≠ 0 → p = 1 := by
    intro p live notMaster
    by_contra other
    exact live (by simp [listsAfter, other, notMaster, Lists.initial])
  obtain ⟨-, stacksOf, member⟩ := staticStack_family (by decide) run3
  refine ⟨_, _, run3, rfl, rfl, member.2 ?_ 1 [] rfl 2 (by decide), ?_⟩
  · intro p q l other notMaster notMaster' live live'
    have present := ne_none_iff_exists'.2 ⟨l, live'⟩
    exact absurd ((copies p live notMaster).trans (copies q present notMaster').symm) other
  · obtain ⟨st', result, -⟩ := (stacksOf 0 [0, 2] rfl).1 0 [2] rfl
    exact ⟨st', result⟩

/-- The only item of the master is accepted by a copy, and both return it. -/
theorem staticStack_not_exclusive : ∃ st1 st2 st3 st4 st5,
    insert 0 0 true (new 1 1 fun _ => 0) = .ok st1 ∧ copy 0 1 st1 = .ok st2 ∧
    insert 1 0 true st2 = .ok st3 ∧ delete 0 st3 = .ok (st4, 0) ∧ delete 1 st4 = .ok (st5, 0) :=
  ⟨_, _, _, _, _, rfl, rfl, rfl, rfl, rfl⟩

end StackFamily

end Goblin
