import Goblin.Augment
import Goblin.Library.Links
import Goblin.Library.ListFamilies

/-!
# Static queues

The items of a `staticQueue` are linked by an array `next`, where the last item points to itself
and an item that is not queued points to nothing. The copy constructor makes another, empty queue
with the same array. From the first copy on, an array `set` says on which queue an item is, by the
handle of the queue. But a copy is not registered in the context, so its handle is
`NoHandle`, as for all other copies.

The value `n` of a pointer is `none` here. A variable that has not been initialised has a value
from `memory`. Objects are addressed by numbers; the queue which has allocated the arrays is `0`.
-/

set_option autoImplicit false

namespace Goblin

open Library List Option ListRequest
open SharedFamily.Represents (absent add all_labelled initial length_le master present replace
  retire tells)
open Function (update update_self update_of_ne update_eq_self update_idem)

variable {x : ℕ}

def noHandle : ℕ := 2000000000

/-- What a `staticQueue` holds of its own. -/
structure StaticQueue where
  first : Option ℕ
  last : ℕ
  length : ℕ
  /-- The pointer `set` is not `NULL`. -/
  labelled : Bool
  OH : ℕ

/-- The queues that share the array `next`. -/
structure QueueFamily where
  n : ℕ
  next : ℕ → Option ℕ
  set : ℕ → ℕ
  queues : ℕ → Option StaticQueue
  memory : ℕ → ℕ

namespace QueueFamily

/-- The constructor. -/
def new (n handle : ℕ) (set memory : ℕ → ℕ) : QueueFamily where
  n := n
  next := fun _ => none
  set := set
  queues := update (fun _ => none) 0 (some ⟨none, memory 0, 0, false, handle⟩)
  memory := memory

/-- The copy constructor. -/
def copy (q q' : ℕ) (st : QueueFamily) : Except Raise QueueFamily := do
  let Q ← defined (st.queues q)
  let st := if Q.labelled then st
    else { st with
      set := fun i => if st.next i ≠ none then Q.OH else noHandle
      queues := update st.queues q (some { Q with labelled := true }) }
  return { st with
    queues := update st.queues q' (some ⟨none, st.memory q', 0, true, noHandle⟩) }

/-- The family after a free item has been appended to the queue `Q`. -/
def inserted (st : QueueFamily) (q w : ℕ) (Q : StaticQueue) : QueueFamily :=
  let next := if Q.first = none then st.next else update st.next Q.last (some w)
  { st with
    next := update next w (some w)
    set := if Q.labelled then update st.set w Q.OH else st.set
    queues := update st.queues q (some { Q with
      first := Q.first.or (some w)
      last := w
      length := Q.length + 1 }) }

def insert (q w : ℕ) (throws : Bool) (st : QueueFamily) : Except Raise QueueFamily := do
  let Q ← defined (st.queues q)
  if st.n ≤ w then throw (.range "Insert" "No such item")
  else if st.next w ≠ none then
    if throws then throw (.check "Insert" "Item is already on the queue") else return st
  else return st.inserted q w Q

/-- The family after the first item `temp` of the queue `Q` has been deleted. -/
def deleted (st : QueueFamily) (q temp : ℕ) (Q : StaticQueue) : QueueFamily :=
  { st with
    next := update st.next temp none
    queues := update st.queues q (some { Q with
      first := if st.next temp = some temp then none else st.next temp
      length := Q.length - 1 }) }

def delete (q : ℕ) (st : QueueFamily) : Except Raise (QueueFamily × ℕ) := do
  let Q ← defined (st.queues q)
  match Q.first with
  | none => throw (.rejected "Delete" "Queue is empty")
  | some temp => return (st.deleted q temp Q, temp)

/-- The loop of the destructor. -/
def deleteAll (q : ℕ) : ℕ → QueueFamily → Except Raise QueueFamily
  | 0, _ => throw .fuel
  | fuel + 1, st => do
    let Q ← defined (st.queues q)
    if Q.first = none then return st
    else
      let (st, _) ← delete q st
      deleteAll q fuel st

/-- The destructor of a copy. -/
def destroy (q : ℕ) (st : QueueFamily) : Except Raise QueueFamily := do
  let st ← deleteAll q (st.n + 1) st
  return { st with queues := update st.queues q none }

def isMember (q i : ℕ) (st : QueueFamily) : Except Raise Bool := do
  let Q ← defined (st.queues q)
  if st.n ≤ i then throw (.range "IsMember" "No such item")
  else if Q.labelled ∧ st.next i ≠ none then return st.set i = Q.OH
  else return st.next i ≠ none

def first (q : ℕ) (st : QueueFamily) : Except Raise (Option ℕ) := do
  let Q ← defined (st.queues q)
  return Q.first

def successor (q i : ℕ) (st : QueueFamily) : Except Raise (Option ℕ) := do
  let Q ← defined (st.queues q)
  if st.n ≤ i then throw (.range "Successor" "No such item")
  else if i = Q.last then return none
  else return st.next i

def cardinality (q : ℕ) (st : QueueFamily) : Except Raise ℕ := do
  let Q ← defined (st.queues q)
  return Q.length

/-- A request. -/
def serve (request : ListRequest) (st : QueueFamily) : Except Raise (QueueFamily × Option ℕ) :=
  match request with
  | .insert q w throws => (fun st => (st, none)) <$> insert q w throws st
  | .delete q => (fun answer => (answer.1, some answer.2)) <$> delete q st
  | .copy q q' => (fun st => (st, none)) <$> copy q q' st
  | .destroy q => (fun st => (st, none)) <$> destroy q st

/-- An item is inserted at the end. -/
def push (w : ℕ) (l : List ℕ) : List ℕ := l ++ [w]

/-! ## The lists -/

variable {st st' : QueueFamily} {Q : StaticQueue} {next next' : ℕ → Option ℕ} {l : List ℕ}
  {lists : Lists} {p q w i handle : ℕ}

/-- A queue holds the items of a list. The last one points to itself. -/
structure Holds (next : ℕ → Option ℕ) (Q : StaticQueue) (l : List ℕ) : Prop where
  first : Q.first = l.head?
  last : ∀ z, l.getLast? = some z → Q.last = z
  length : Q.length = l.length
  links : Links next l l.getLast?

theorem Holds.congr (holds : Holds next Q l) (eq : ∀ i ∈ l, next' i = next i) : Holds next' Q l :=
  ⟨holds.first, holds.last, holds.length, holds.links.congr eq⟩

theorem Holds.next_ne_none (holds : Holds next Q l) (mem : i ∈ l) : next i ≠ none := by
  rcases holds.links.target_mem mem with ⟨y, -, val⟩ | last
  · simp [val]
  · rw [last, ne_eq, getLast?_eq_none_iff]
    rintro rfl
    cases mem

theorem Holds.insert (holds : Holds next Q l) (nodup : l.Nodup) (free : w ∉ l) :
    Holds (update (if Q.first = none then next else update next Q.last (some w)) w
      (some w)) { Q with first := Q.first.or (some w), last := w, length := Q.length + 1 }
      (push w l) := by
  refine ⟨?_, ?_, ?_, ?_⟩
  · simp only [push, holds.first, head?_append, head?_cons]
  · intro z last
    simpa [push] using last
  · simp [push, holds.length]
  · rw [push, getLast?_append, getLast?_singleton, some_or, links_concat]
    refine ⟨?_, update_self ..⟩
    rcases eq_nil_or_concat l with rfl | ⟨front, z, rfl⟩
    · trivial
    have last : Q.last = z := holds.last z (by simp)
    have occupied : ¬ Q.first = none := by simp [holds.first]
    have links := holds.links
    rw [concat_eq_append] at links nodup free ⊢
    rw [getLast?_append, getLast?_singleton, some_or] at links
    rw [if_neg occupied, last]
    refine (links.retarget rfl nodup (some w)).congr fun c mem => update_of_ne ?_ _ _
    rintro rfl
    exact free mem

theorem Holds.delete (holds : Holds next Q (x :: l)) (nodup : (x :: l).Nodup) :
    Holds (update next x none) { Q with
      first := if next x = some x then none else next x, length := Q.length - 1 } l := by
  obtain ⟨notMem, -⟩ := nodup_cons.1 nodup
  obtain ⟨head, rest⟩ := holds.links
  refine ⟨?_, fun z last => holds.last z ?_, ?_, ?_⟩
  · dsimp only
    cases l with
    | nil => simp [head]
    | cons y l =>
      have other : y ≠ x := fun eq => notMem (eq ▸ mem_cons_self)
      have val : next x = some y := head
      rw [val, if_neg fun eq => other (Option.some.inj eq)]
      rfl
  · rw [getLast?_cons, last]
    rfl
  · simp [holds.length]
  · cases l with
    | nil => trivial
    | cons y l =>
      rw [getLast?_cons_cons] at rest
      refine rest.congr fun c mem => update_of_ne ?_ _ _
      rintro rfl
      exact notMem mem

/-! ## The invariant -/

/-- The handle of a queue. -/
def handleOf (handle q : ℕ) : ℕ := if q = 0 then handle else noHandle

/-- The arrays of the family. -/
def family (st : QueueFamily) : SharedFamily StaticQueue := ⟨st.n, st.next, st.set, st.queues⟩

/-- Queues keep their lists by `Holds`, and label their items by their handles. -/
def keeping : Keeping StaticQueue := ⟨Holds, Holds.congr, StaticQueue.OH, StaticQueue.labelled⟩

/-- The queues hold these lists. -/
def Represents (handle : ℕ) (st : QueueFamily) (lists : Lists) : Prop :=
  st.family.Represents keeping (handleOf handle) lists

section

variable (represents : Represents handle st lists)
include represents

theorem Represents.live (live : lists q = some l) :
    ∃ Q, st.queues q = some Q ∧ Holds st.next Q l ∧ Q.OH = handleOf handle q ∧
      (Q.labelled = true → ∀ i ∈ l, st.set i = Q.OH) ∧
      (Q.labelled = false → ∀ p, lists p ≠ none → p = q) :=
  SharedFamily.Represents.live represents q l live

theorem Represents.exclusive : lists.Exclusive :=
  SharedFamily.Represents.exclusive represents

theorem Represents.low (present : lists.Present i) : i < st.n :=
  SharedFamily.Represents.low represents i present

theorem Represents.next_ne_none_iff : st.next i ≠ none ↔ lists.Present i := by
  refine ⟨present represents i, ?_⟩
  rintro ⟨q, l, live, mem⟩
  obtain ⟨Q, -, holds, -⟩ := represents.live live
  exact holds.next_ne_none mem

end

theorem holds_nil (next : ℕ → Option ℕ) (last : ℕ) (labelled : Bool) (OH : ℕ) :
    Holds next ⟨none, last, 0, labelled, OH⟩ [] := by
  refine ⟨rfl, fun z last => ?_, rfl, trivial⟩
  cases last

theorem new_represents (n handle : ℕ) (set memory : ℕ → ℕ) :
    Represents handle (new n handle set memory) Lists.initial :=
  initial rfl (holds_nil _ (memory 0) false handle) rfl (fun _ => rfl)
    fun q notMaster => by simp [family, new, notMaster]

/-! ## Requests -/

section

variable (represents : Represents handle st lists)
include represents

theorem Represents.insert (live : lists q = some l)
    (low : w < st.n) (free : ¬ lists.Present w) (throws : Bool) :
    ∃ st', QueueFamily.insert q w throws st = .ok st' ∧ st'.n = st.n ∧
      Represents handle st' (update lists q (some (push w l))) := by
  obtain ⟨Q, object, holds, handleQ, labels, alone⟩ := represents.live live
  have notLinked : ¬ st.next w ≠ none := fun linked => free (represents.next_ne_none_iff.1 linked)
  have notMem : w ∉ l := fun mem => free ⟨q, l, live, mem⟩
  have mem : ∀ {i}, i ∈ push w l ↔ i ∈ l ∨ i = w := fun {i} => by simp [push]
  have lastMem : Q.first ≠ none → Q.last ∈ l := by
    intro some
    rcases eq_nil_or_concat l with rfl | ⟨front, z, rfl⟩
    · exact absurd holds.first some
    · rw [holds.last z (by simp)]
      simp
  refine ⟨st.inserted q w Q, ?_, rfl, replace represents live ?_
    rfl rfl ?_ ?_ ?_ ?_ handleQ ?_ alone
    ?_⟩
  · simp only [QueueFamily.insert, object, defined, bind, Except.bind, if_neg (not_le.2 low),
      if_neg notLinked]
    rfl
  · exact represents.exclusive.insert live free perm_append_comm
  · intro i notL notK
    have notW : i ≠ w := fun eq => notK (mem.2 (.inr eq))
    dsimp only [inserted, family]
    rw [update_of_ne notW]
    by_cases empty : Q.first = none
    · rw [if_pos empty]
    · rw [if_neg empty]
      refine update_of_ne ?_ _ _
      rintro rfl
      exact notL (lastMem empty)
  · intro i notL notK
    have notW : i ≠ w := fun eq => notK (mem.2 (.inr eq))
    dsimp only [inserted, family]
    split_ifs
    · exact update_of_ne notW ..
    · rfl
  · exact fun i inL notK => absurd (mem.2 (.inl inL)) notK
  · exact holds.insert (represents.exclusive.nodup q l live) notMem
  · intro labelled i inK
    have labelled' : Q.labelled = true := labelled
    dsimp only [inserted, family, keeping]
    rw [if_pos labelled']
    by_cases new : i = w
    · rw [new, update_self]
    · rw [update_of_ne new]
      exact labels labelled' i ((mem.1 inK).resolve_right new)
  · intro i inK
    rcases mem.1 inK with inL | rfl
    · exact represents.low ⟨q, l, live, inL⟩
    · exact low

theorem Represents.insert_present (live : lists q ≠ none)
    (present : lists.Present w) (throws : Bool) : QueueFamily.insert q w throws st =
      if throws then .error (.check "Insert" "Item is already on the queue") else .ok st := by
  obtain ⟨l, live⟩ := ne_none_iff_exists'.1 live
  obtain ⟨Q, object, -⟩ := represents.live live
  have low : ¬ st.n ≤ w := not_le.2 (represents.low present)
  have linked : st.next w ≠ none := represents.next_ne_none_iff.2 present
  simp only [QueueFamily.insert, object, defined, bind, Except.bind, if_neg low, if_pos linked]
  rfl

theorem Represents.delete (live : lists q = some (x :: l)) :
    ∃ st', QueueFamily.delete q st = .ok (st', x) ∧ st'.n = st.n ∧
      Represents handle st' (update lists q (some l)) := by
  obtain ⟨Q, object, holds, handleQ, labels, alone⟩ := represents.live live
  have nodup := represents.exclusive.nodup q (x :: l) live
  have notMem := (nodup_cons.1 nodup).1
  refine ⟨st.deleted q x Q, ?_, rfl, replace represents live ?_ rfl rfl ?_ ?_ ?_ ?_ handleQ ?_ alone
    ?_⟩
  · simp only [QueueFamily.delete, object, defined, bind, Except.bind, holds.first, head?_cons]
    rfl
  · exact represents.exclusive.shrink live (sublist_cons_self x l)
  · intro i notL _
    refine update_of_ne ?_ _ _
    rintro rfl
    exact notL mem_cons_self
  · exact fun _ _ _ => rfl
  · intro i inL notK
    rw [(mem_cons.1 inL).resolve_right notK]
    exact update_self ..
  · exact holds.delete nodup
  · exact fun labelled i mem => labels labelled i (mem_cons_of_mem x mem)
  · exact fun i mem => represents.low ⟨q, x :: l, live, mem_cons_of_mem x mem⟩

theorem Represents.destroy (live : lists q ≠ none) (notMaster : q ≠ 0) :
    ∃ st', QueueFamily.destroy q st = .ok st' ∧ st'.n = st.n ∧
      Represents handle st' (update lists q none) := by
  obtain ⟨l, live⟩ := ne_none_iff_exists'.1 live
  have enough : l.length < st.n + 1 :=
    Nat.lt_succ_of_le (length_le represents live)
  obtain ⟨st', res, after, n⟩ := deleteAll_spec
    (fun st' lists => Represents handle st' lists ∧ st'.n = st.n)
    (fun fuel st1 lists inv empty => show QueueFamily.deleteAll q (fuel + 1) st1 = .ok st1 by
      obtain ⟨Q, object, holds, -⟩ := inv.1.live empty
      have none : Q.first = none := holds.first
      simp only [deleteAll, object, defined, bind, Except.bind, if_pos none]
      rfl)
    (fun fuel st1 lists x l inv live => by
      obtain ⟨Q, object, holds, -⟩ := inv.1.live live
      have some : ¬ Q.first = none := by simp [holds.first]
      obtain ⟨st', res, size, after⟩ := inv.1.delete live
      refine ⟨st', ?_, after, size.trans inv.2⟩
      simp only [deleteAll, object, defined, bind, Except.bind, if_neg some, res])
    l ⟨represents, rfl⟩ live enough
  refine ⟨{ st' with queues := update st'.queues q none }, ?_, n, ?_⟩
  · simp only [QueueFamily.destroy, res, bind, Except.bind]
    rfl
  · have retired : Represents handle { st' with queues := update st'.queues q none } _ :=
      retire after (update_self ..) notMaster rfl rfl rfl rfl
    rwa [update_idem] at retired

/-- The copy constructor makes an empty queue. The first copy labels the items. -/
theorem Represents.copy {q' : ℕ} (live : lists q ≠ none) (fresh : lists q' = none) :
    ∃ st', QueueFamily.copy q q' st = .ok st' ∧ st'.n = st.n ∧
      Represents handle st' (update lists q' (some [])) := by
  obtain ⟨l, liveQ⟩ := ne_none_iff_exists'.1 live
  obtain ⟨Q, object, holds, handleQ, labels, alone⟩ := represents.live liveQ
  have notMaster : q' ≠ 0 := by
    rintro rfl
    exact master represents fresh
  have other : ∀ p j, lists p = some j → p ≠ q' := by
    rintro p j val rfl
    rw [fresh] at val
    cases val
  have handle' : noHandle = handleOf handle q' := by rw [handleOf, if_neg notMaster]
  by_cases labelled : Q.labelled = true
  · refine ⟨{ st with
        queues := update st.queues q' (some ⟨none, st.memory q', 0, true, noHandle⟩) },
      ?_, rfl, ?_⟩
    · simp only [QueueFamily.copy, object, defined, bind, Except.bind, if_pos labelled]
      rfl
    · refine add represents fresh (fun p j val => ?_) rfl rfl
        (update_self ..) (fun p new dead => ?_) (holds_nil _ _ _ _) handle' rfl
      swap
      · exact (update_of_ne new ..).trans (absent represents p dead)
      obtain ⟨P, objectP, rest⟩ :=
        all_labelled represents live object labelled val
      exact ⟨P, (update_of_ne (other p j val) ..).trans objectP, rest⟩
  · refine ⟨{ st with
        set := fun i => if st.next i ≠ none then Q.OH else noHandle
        queues := update (update st.queues q (some { Q with labelled := true })) q'
          (some ⟨none, st.memory q', 0, true, noHandle⟩) }, ?_, rfl, ?_⟩
    · simp only [QueueFamily.copy, object, defined, bind, Except.bind, if_neg labelled]
      rfl
    · refine add represents fresh (fun p j val => ?_) rfl rfl
        (update_self ..) (fun p new dead => ?_) (holds_nil _ _ _ _) handle' rfl
      swap
      · have dead' : p ≠ q := fun here => live (here ▸ dead)
        exact (update_of_ne new ..).trans ((update_of_ne dead' ..).trans (absent represents p dead))
      have eq := alone (by simpa using labelled) p (by simp [val])
      subst eq
      rw [liveQ] at val
      cases val
      refine ⟨{ Q with labelled := true }, ?_, ⟨holds.first, holds.last, holds.length, holds.links⟩,
        handleQ, rfl, fun i mem => if_pos (holds.next_ne_none mem)⟩
      exact (update_of_ne (other p l liveQ) ..).trans (update_self ..)

theorem Represents.serve (req : ListRequest) (legal : req.Legal lists) :
    Represents handle (served QueueFamily.serve req st) (req.listsAfter st.n push lists) ∧
      (served QueueFamily.serve req st).n = st.n := by
  cases req with
  | insert q w throws =>
    obtain ⟨l, live⟩ := ne_none_iff_exists'.1 legal
    by_cases high : st.n ≤ w
    · obtain ⟨Q, object, -⟩ := represents.live live
      have failed : QueueFamily.serve (.insert q w throws) st =
          .error (.range "Insert" "No such item") := by
        simp only [QueueFamily.serve, QueueFamily.insert, object, defined, bind, Except.bind,
          if_pos high]
        rfl
      rw [served, failed, listsAfter_refused (.inl high)]
      exact ⟨represents, rfl⟩
    by_cases present : lists.Present w
    · have ignored := represents.insert_present legal present throws
      rw [listsAfter_refused (.inr present)]
      have eq : served QueueFamily.serve (.insert q w throws) st = st := by
        rw [served, QueueFamily.serve, ignored]
        cases throws with
        | true | false => rfl
      rw [eq]
      exact ⟨represents, rfl⟩
    · obtain ⟨st', res, n, after⟩ := represents.insert live (not_le.1 high) present throws
      rw [listsAfter_insert (not_le.1 high) present live, served, QueueFamily.serve, res]
      exact ⟨after, n⟩
  | delete q =>
    obtain ⟨l, live⟩ := ne_none_iff_exists'.1 legal
    cases l with
    | nil =>
      obtain ⟨Q, object, holds, -⟩ := represents.live live
      have failed : QueueFamily.serve (.delete q) st =
          .error (.rejected "Delete" "Queue is empty") := by
        simp only [QueueFamily.serve, QueueFamily.delete, object, defined, bind, Except.bind,
          holds.first, head?_nil]
        rfl
      rw [served, failed, listsAfter_delete_nil live]
      exact ⟨represents, rfl⟩
    | cons x l =>
      obtain ⟨st', res, n, after⟩ := represents.delete live
      rw [listsAfter_delete live, served, QueueFamily.serve, res]
      exact ⟨after, n⟩
  | copy q q' =>
    obtain ⟨st', res, n, after⟩ := represents.copy legal.1 legal.2
    rw [served, QueueFamily.serve, res]
    exact ⟨after, n⟩
  | destroy q =>
    obtain ⟨st', res, n, after⟩ := represents.destroy legal.1 legal.2
    rw [served, QueueFamily.serve, res]
    exact ⟨after, n⟩

end

/-! ## Queries -/

theorem Represents.successor (represents : Represents handle st lists) (live : lists q = some l)
    (mem : i ∈ l) : ∃ Q, st.queues q = some Q ∧
      QueueFamily.successor q i st = .ok (if i = Q.last then none else st.next i) := by
  obtain ⟨Q, object, -⟩ := represents.live live
  refine ⟨Q, object, ?_⟩
  have low : ¬ st.n ≤ i := not_le.2 (represents.low ⟨q, l, live, mem⟩)
  simp only [QueueFamily.successor, object, defined, bind, Except.bind, if_neg low]
  split_ifs <;> rfl

theorem Represents.traversal (represents : Represents handle st lists) (live : lists q = some l) :
    QueueFamily.first q st = .ok l.head? ∧ ∃ next : ℕ → Option ℕ,
      (∀ i ∈ l, QueueFamily.successor q i st = .ok (next i)) ∧ Links next l none := by
  obtain ⟨Q, object, holds, -⟩ := represents.live live
  refine ⟨?_, fun i => if i = Q.last then none else st.next i, fun i mem => ?_, ?_⟩
  · simp only [QueueFamily.first, object, defined, bind, Except.bind, holds.first]
    rfl
  · obtain ⟨Q', object', res⟩ := represents.successor live mem
    rw [object] at object'
    cases object'
    exact res
  · rcases eq_nil_or_concat l with rfl | ⟨front, z, rfl⟩
    · trivial
    have last : Q.last = z := holds.last z (by simp)
    have nodup := represents.exclusive.nodup q _ live
    have links := holds.links
    rw [concat_eq_append] at links nodup ⊢
    rw [getLast?_append, getLast?_singleton, some_or] at links
    refine (links.retarget rfl nodup none).congr fun c _ => ?_
    by_cases isLast : c = z
    · rw [last, if_pos isLast, isLast, update_self]
    · rw [last, if_neg isLast, update_of_ne isLast]

theorem handleOf_eq_iff (registered : handle ≠ noHandle) :
    handleOf handle p = handleOf handle q ↔ p = q ∨ (p ≠ 0 ∧ q ≠ 0) := by
  rw [handleOf, handleOf]
  by_cases zeroP : p = 0
  · by_cases zeroQ : q = 0
    · simp [zeroP, zeroQ]
    · simp [zeroP, zeroQ, registered, Ne.symm zeroQ]
  · by_cases zeroQ : q = 0
    · simp [zeroP, zeroQ, Ne.symm registered]
    · simp [zeroP, zeroQ]

theorem Represents.isMember (represents : Represents handle st lists) (live : lists q ≠ none)
    (low : i < st.n) (registered : handle ≠ noHandle) :
    ∃ answer, QueueFamily.isMember q i st = .ok answer ∧ (answer = true ↔
      ∃ p l, lists p = some l ∧ i ∈ l ∧ (p = q ∨ (p ≠ 0 ∧ q ≠ 0))) := by
  obtain ⟨k, liveQ⟩ := ne_none_iff_exists'.1 live
  obtain ⟨Q, object, -, handleQ, -⟩ := represents.live liveQ
  by_cases linked : st.next i ≠ none
  swap
  · refine ⟨decide (st.next i ≠ none), ?_, ?_⟩
    · have notBoth : ¬ (Q.labelled = true ∧ st.next i ≠ none) := fun both => linked both.2
      simp only [QueueFamily.isMember, object, defined, bind, Except.bind, if_neg (not_le.2 low),
        if_neg notBoth]
      rfl
    · rw [decide_eq_true_iff]
      refine iff_of_false linked ?_
      rintro ⟨p, l, val, mem, -⟩
      exact linked (represents.next_ne_none_iff.2 ⟨p, l, val, mem⟩)
  obtain ⟨p, l, val, mem⟩ := represents.next_ne_none_iff.1 linked
  have onlyP : (∃ p' l', lists p' = some l' ∧ i ∈ l' ∧ (p' = q ∨ (p' ≠ 0 ∧ q ≠ 0))) ↔
      p = q ∨ (p ≠ 0 ∧ q ≠ 0) := by
    constructor
    · rintro ⟨p', l', val', mem', which⟩
      rwa [represents.exclusive.disjoint p p' l l' val val' i mem mem']
    · exact fun which => ⟨p, l, val, mem, which⟩
  rw [onlyP]
  rw [← handleOf_eq_iff registered, ← tells represents live object handleQ val mem]
  by_cases labelled : Q.labelled = true
  · refine ⟨decide (st.set i = Q.OH), ?_, by simp [labelled, keeping, family]⟩
    have both : Q.labelled = true ∧ st.next i ≠ none := ⟨labelled, linked⟩
    simp only [QueueFamily.isMember, object, defined, bind, Except.bind, if_neg (not_le.2 low),
      if_pos both]
    rfl
  · refine ⟨decide (st.next i ≠ none), ?_, by simp [labelled, linked, keeping]⟩
    have notBoth : ¬ (Q.labelled = true ∧ st.next i ≠ none) := fun both => labelled both.1
    simp only [QueueFamily.isMember, object, defined, bind, Except.bind, if_neg (not_le.2 low),
      if_neg notBoth]
    rfl

/-! ## Runs -/

/-- The states of a run, with the lists. All requests are admitted. -/
def Reaches (n handle : ℕ) (set memory : ℕ → ℕ) : QueueFamily → Lists → Prop :=
  ListReach n push (new n handle set memory) serve fun _ _ => True

theorem Reaches.represents {n : ℕ} {set memory : ℕ → ℕ}
    (reaches : Reaches n handle set memory st lists) : Represents handle st lists ∧ st.n = n := by
  refine ListReach.invariant (fun st lists => Represents handle st lists ∧ st.n = n)
    ⟨new_represents n handle set memory, rfl⟩ ?_ reaches
  rintro st lists ⟨represents, rfl⟩ req legal -
  exact represents.serve req legal

/-- **The queues of a family are exclusive FIFO lists.** `Delete` returns the first item of its
queue, `First` and `Successor` read the queue to its end, `Cardinality` is the number of items,
and an item that is on any queue is rejected or ignored. `IsMember` is correct unless there
are items on a copy while another copy exists. -/
theorem staticQueue_family {n : ℕ} {set memory : ℕ → ℕ} (registered : handle ≠ noHandle)
    (reaches : Reaches n handle set memory st lists) : lists.Exclusive ∧ (∀ q l, lists q = some l →
      (∀ x k, l = x :: k → ∃ st', serve (.delete q) st = .ok (st', some x) ∧
        Reaches n handle set memory st' (update lists q (some k))) ∧ first q st = .ok l.head? ∧
      (∃ next, (∀ i ∈ l, successor q i st = .ok (next i)) ∧ Links next l none) ∧
      cardinality q st = .ok l.length ∧ ∀ w throws, (lists.Present w → insert q w throws st =
          if throws then .error (.check "Insert" "Item is already on the queue") else .ok st) ∧
        (w < n → ¬ lists.Present w → ∃ st', insert q w throws st = .ok st' ∧
          Reaches n handle set memory st' (update lists q (some (l ++ [w]))))) ∧
    ((∀ q l, lists q = some l → ∀ i, i < n → isMember q i st = .ok (decide (i ∈ l))) ↔
      ∀ p q l, p ≠ q → p ≠ 0 → q ≠ 0 → lists p ≠ none → lists q = some l → l = []) := by
  obtain ⟨represents, size⟩ := reaches.represents
  refine ⟨represents.exclusive, fun q l live => ⟨?_, ?_, ?_, ?_, fun w throws => ⟨?_, ?_⟩⟩, ?_⟩
  · rintro x k rfl
    obtain ⟨st', result, -, -⟩ := represents.delete live
    have answer : serve (.delete q) st = .ok (st', some x) := by rw [serve, result]; rfl
    refine ⟨st', answer, ?_⟩
    have next := ListReach.step (.delete q) reaches (by simp [Legal, live]) trivial
    rw [listsAfter_delete live, served, answer] at next
    exact next
  · exact (represents.traversal live).1
  · exact (represents.traversal live).2
  · obtain ⟨Q, object, holds, -⟩ := represents.live live
    simp only [cardinality, object, defined, bind, Except.bind, holds.length]
    rfl
  · intro present
    exact represents.insert_present (by simp [live]) present throws
  · intro low free
    obtain ⟨st', result, -, -⟩ := represents.insert live (size.symm ▸ low) free throws
    have answer : serve (.insert q w throws) st = .ok (st', none) := by rw [serve, result]; rfl
    refine ⟨st', result, ?_⟩
    have next := ListReach.step (.insert q w throws) reaches (by simp [Legal, live]) trivial
    rw [listsAfter_insert low free live, served, answer] at next
    exact next
  · refine (represents.exclusive.member_correct (fun _ _ => True)
      (fun i on => size ▸ represents.low on) fun q i live low => ?_).trans ?_
    · simpa only [and_true] using represents.isMember live (size.symm ▸ low) registered
    · simp only [not_true, imp_false, eq_nil_iff_forall_not_mem]

/-- Two items wait on a queue with a copy. -/
theorem staticQueue_family_copy : ∃ st lists, Reaches 3 1 (fun _ => 0) (fun _ => 0) st lists ∧
    lists 0 = some [2, 0] ∧ lists 1 = some [] ∧ isMember 1 2 st = .ok false ∧
    ∃ st', serve (.delete 0) st = .ok (st', some 2) := by
  have zero : Lists.initial 0 = some [] := rfl
  have absent : ∀ w, ¬ Lists.initial.Present w := Lists.not_present_initial
  have run1 : Reaches 3 1 (fun _ => 0) (fun _ => 0) _ _ :=
    .step (.insert 0 2 true) .start (some_ne_none []) trivial
  rw [listsAfter_insert (by decide) (absent 2) zero] at run1
  have free : ¬ Lists.Present (update Lists.initial 0 (some (push 2 []))) 0 := by
    rw [Lists.present_update]
    rintro (⟨j, value, member⟩ | ⟨p, j, -, value, member⟩)
    · cases value
      simp [push] at member
    · exact absent 0 ⟨p, j, value, member⟩
  have run2 : Reaches 3 1 (fun _ => 0) (fun _ => 0) _ _ :=
    .step (.insert 0 0 true) run1 (by simp [Legal]) trivial
  rw [listsAfter_insert (by decide) free (update_self ..)] at run2
  have run3 : Reaches 3 1 (fun _ => 0) (fun _ => 0) _ _ :=
    .step (.copy 0 1) run2 (by simp [Legal, Lists.initial]) trivial
  have copies : ∀ p, listsAfter 3 push (update (update Lists.initial 0
      (some (push 2 []))) 0 (some (push 0 (push 2 [])))) (.copy 0 1) p ≠ none → p ≠ 0 → p = 1 := by
    intro p live notMaster
    by_contra other
    exact live (by simp [listsAfter, other, notMaster, Lists.initial])
  obtain ⟨-, queues, member⟩ := staticQueue_family (by decide) run3
  refine ⟨_, _, run3, rfl, rfl, member.2 ?_ 1 [] rfl 2 (by decide), ?_⟩
  · intro p q l other notMaster notMaster' live live'
    have present := ne_none_iff_exists'.2 ⟨l, live'⟩
    exact absurd ((copies p live notMaster).trans (copies q present notMaster').symm) other
  · obtain ⟨st', result, -⟩ := (queues 0 [2, 0] rfl).1 2 [0] rfl
    exact ⟨st', result⟩

/-- The copies have the same handle, so an item on one of them is a member of the other. -/
theorem staticQueue_not_exclusive : ∃ st1 st2 st3,
    copy 0 1 (new 1 1 (fun _ => 0) fun _ => 0) = .ok st1 ∧ copy 0 2 st1 = .ok st2 ∧
    insert 1 0 true st2 = .ok st3 ∧ isMember 2 0 st3 = .ok true ∧ cardinality 2 st3 = .ok 0 :=
  ⟨_, _, _, rfl, rfl, rfl, rfl, rfl⟩

end QueueFamily

end Goblin
