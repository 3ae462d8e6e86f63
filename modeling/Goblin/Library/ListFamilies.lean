import Mathlib.Data.List.Nodup
import Mathlib.Data.List.Perm.Subperm

/-!
# Families of lists with common items

Several lists hold items below a capacity `n`, and each item is on at most one of them. A list is
known by a number, and the list `0` has been there from the beginning. The others come and
go: a new list is made from another one and is empty, and a list that is destroyed gives its items
free. An item is deleted at the head of a list. Where it is inserted, at the head or at
the end, is a parameter `push`; the insertion of an item that is on a list has no effect.

An implementation may keep the lists in an array of links which all of them share. `Represents`
is the invariant of that, and says which changes preserve it, however an object holds its list.
-/

set_option autoImplicit false

namespace Goblin.Library

open List Option
open Function (update update_self update_of_ne update_eq_self update_idem)

universe u v

variable {throws : Bool} {k : List ℕ}

/-- The lists that exist, with their items. -/
abbrev Lists := ℕ → Option (List ℕ)

/-- The requests to a family of lists. -/
inductive ListRequest where
  | insert (q w : ℕ) (throws : Bool)
  | delete (q : ℕ)
  | copy (q q' : ℕ)
  | destroy (q : ℕ)

variable {n q w : ℕ} {l : List ℕ} {lists : Lists} {push : ℕ → List ℕ → List ℕ}

/-- The item is on a list. -/
def Lists.Present (lists : Lists) (w : ℕ) : Prop := ∃ q l, lists q = some l ∧ w ∈ l

/-- Every item is on at most one list, and only once. -/
structure Lists.Exclusive (lists : Lists) : Prop where
  nodup : ∀ q l, lists q = some l → l.Nodup
  disjoint : ∀ p q l k, lists p = some l → lists q = some k → ∀ x ∈ l, x ∈ k → p = q

/-- At first there is one list without items. -/
def Lists.initial : Lists := fun q => if q = 0 then some [] else none

theorem Lists.of_initial (live : Lists.initial q = some l) : q = 0 ∧ l = [] := by
  rw [Lists.initial] at live
  by_cases here : q = 0
  · rw [if_pos here] at live
    exact ⟨here, (Option.some.inj live).symm⟩
  · rw [if_neg here] at live
    cases live

theorem Lists.not_present_initial (w : ℕ) : ¬ Lists.initial.Present w := by
  rintro ⟨q, l, live, mem⟩
  rw [(of_initial live).2] at mem
  cases mem

theorem Lists.exclusive_initial : Lists.initial.Exclusive := by
  refine ⟨fun q l live => ?_, fun p q l k live _ x mem _ => ?_⟩
  · rw [(of_initial live).2]
    exact nodup_nil
  · exact absurd ⟨p, l, live, mem⟩ (not_present_initial x)

theorem Lists.present_update {k : Option (List ℕ)} : Lists.Present (update lists q k) w ↔
      (∃ j, k = some j ∧ w ∈ j) ∨ ∃ p j, p ≠ q ∧ lists p = some j ∧ w ∈ j := by
  constructor
  · rintro ⟨p, j, live, mem⟩
    by_cases here : p = q
    · rw [here, update_self] at live
      exact .inl ⟨j, live, mem⟩
    · rw [update_of_ne here] at live
      exact .inr ⟨p, j, here, live, mem⟩
  · rintro (⟨j, rfl, mem⟩ | ⟨p, j, other, live, mem⟩)
    · exact ⟨q, j, update_self .., mem⟩
    · exact ⟨p, j, by rw [update_of_ne other, live], mem⟩

namespace ListRequest

/-- The requests that make sense. Whether an item exists and whether a list has any items is
checked by the implementation. -/
def Legal (lists : Lists) : ListRequest → Prop
  | insert q _ _ => lists q ≠ none
  | delete q => lists q ≠ none
  | copy q q' => lists q ≠ none ∧ lists q' = none
  | destroy q => lists q ≠ none ∧ q ≠ 0

open Classical in
/-- The lists after a request. -/
noncomputable def listsAfter (n : ℕ) (push : ℕ → List ℕ → List ℕ) (lists : Lists) :
    ListRequest → Lists
  | insert q w _ =>
    if w < n ∧ ¬ lists.Present w then update lists q ((lists q).map (push w)) else lists
  | delete q => update lists q ((lists q).map List.tail)
  | copy _ q' => update lists q' (some [])
  | destroy q => update lists q none

theorem listsAfter_insert (low : w < n) (free : ¬ lists.Present w) (live : lists q = some l) :
    listsAfter n push lists (insert q w throws) = update lists q (some (push w l)) := by
  rw [listsAfter, if_pos ⟨low, free⟩, live]
  rfl

theorem listsAfter_refused (refused : n ≤ w ∨ lists.Present w) :
    listsAfter n push lists (insert q w throws) = lists := by
  rw [listsAfter, if_neg]
  rintro ⟨low, free⟩
  rcases refused with high | present
  · exact absurd low (Nat.not_lt.2 high)
  · exact free present

theorem listsAfter_delete (live : lists q = some l) :
    listsAfter n push lists (delete q) = update lists q (some l.tail) := by
  rw [listsAfter, live]
  rfl

theorem listsAfter_delete_nil (live : lists q = some []) :
    listsAfter n push lists (delete q) = lists := by
  rw [listsAfter_delete live, tail_nil, ← live, update_eq_self]

end ListRequest

namespace Lists.Exclusive

section

variable (exclusive : lists.Exclusive)
include exclusive

theorem shrink (live : lists q = some l)
    (sub : k.Sublist l) : Lists.Exclusive (update lists q (some k)) := by
  have part : ∀ p j, update lists q (some k) p = some j → ∃ i, lists p = some i ∧ j.Sublist i := by
    intro p j val
    by_cases here : p = q
    · rw [here, update_self] at val
      cases val
      exact ⟨l, here ▸ live, sub⟩
    · rw [update_of_ne here] at val
      exact ⟨j, val, Sublist.refl j⟩
  refine ⟨fun p j val => ?_, fun p p' j j' val val' x mem mem' => ?_⟩
  · obtain ⟨i, old, part⟩ := part p j val
    exact (exclusive.nodup p i old).sublist part
  · obtain ⟨i, old, sub⟩ := part p j val
    obtain ⟨i', old', sub'⟩ := part p' j' val'
    exact exclusive.disjoint p p' i i' old old' x (sub.subset mem) (sub'.subset mem')

theorem insert (live : lists q = some l) (free : ¬ lists.Present w)
    (perm : k.Perm (w :: l)) : Lists.Exclusive (update lists q (some k)) := by
  have mem : ∀ {x}, x ∈ k ↔ x = w ∨ x ∈ l := fun {x} => by rw [perm.mem_iff, mem_cons]
  have other : ∀ p j x, p ≠ q → lists p = some j → x ∈ j → x ∉ k := by
    intro p j x ne val inside both
    rcases mem.1 both with rfl | old
    · exact free ⟨p, j, val, inside⟩
    · exact ne (exclusive.disjoint p q j l val live x inside old)
  refine ⟨fun p j val => ?_, fun p p' j j' val val' x inside inside' => ?_⟩
  · by_cases here : p = q
    · rw [here, update_self] at val
      cases val
      refine perm.nodup_iff.2 (nodup_cons.2 ⟨fun on => free ⟨q, l, live, on⟩, ?_⟩)
      exact exclusive.nodup q l live
    · rw [update_of_ne here] at val
      exact exclusive.nodup p j val
  · by_cases here : p = q
    · by_cases here' : p' = q
      · exact here.trans here'.symm
      · rw [here, update_self] at val
        rw [update_of_ne here'] at val'
        cases val
        exact absurd inside (other p' j' x here' val' inside')
    · rw [update_of_ne here] at val
      by_cases here' : p' = q
      · rw [here', update_self] at val'
        cases val'
        exact absurd inside' (other p j x here val inside)
      · rw [update_of_ne here'] at val'
        exact exclusive.disjoint p p' j j' val val' x inside inside'

/-- The list has no items, or does not exist any more. -/
theorem vacate {k : Option (List ℕ)} (vacant : ∀ j, k = some j → j = []) :
    Lists.Exclusive (update lists q k) := by
  have old : ∀ p j x, update lists q k p = some j → x ∈ j → lists p = some j := by
    intro p j x val inside
    by_cases here : p = q
    · rw [here, update_self] at val
      rw [vacant j val] at inside
      cases inside
    · rwa [update_of_ne here] at val
  refine ⟨fun p j val => ?_, fun p p' j j' val val' x inside inside' => ?_⟩
  · by_cases here : p = q
    · rw [here, update_self] at val
      rw [vacant j val]
      exact nodup_nil
    · rw [update_of_ne here] at val
      exact exclusive.nodup p j val
  · exact exclusive.disjoint p p' j j' (old p j x val inside) (old p' j' x val' inside') x inside
      inside'

/-- When queries for members are correct that do not tell the lists apart, except for the list `0`
and for some of the items. -/
theorem member_correct {ε : Type v} (Blurred : List ℕ → ℕ → Prop)
    {isMember : ℕ → ℕ → Except ε Bool} (low : ∀ i, lists.Present i → i < n)
    (meaning : ∀ q i, lists q ≠ none → i < n → ∃ answer, isMember q i = .ok answer ∧
      (answer = true ↔ ∃ p l, lists p = some l ∧ i ∈ l ∧ (p = q ∨ (p ≠ 0 ∧ q ≠ 0 ∧ Blurred l i)))) :
    (∀ q l, lists q = some l → ∀ i, i < n → isMember q i = .ok (decide (i ∈ l))) ↔
      ∀ p q l, p ≠ q → p ≠ 0 → q ≠ 0 → lists p ≠ none → lists q = some l →
        ∀ i ∈ l, ¬ Blurred l i := by
  constructor
  · intro correct p q l other notMaster notMaster' live live' i mem blurred
    obtain ⟨k, liveP⟩ := ne_none_iff_exists'.1 live
    have lowI : i < n := low i ⟨q, l, live', mem⟩
    obtain ⟨answer, res, meaning⟩ := meaning p i live lowI
    have yes : answer = true := meaning.2 ⟨q, l, live', mem, .inr ⟨notMaster', notMaster, blurred⟩⟩
    have both := correct p k liveP i lowI
    rw [res, yes] at both
    have onP : i ∈ k := of_decide_eq_true (Except.ok.inj both).symm
    exact other (exclusive.disjoint p q k l liveP live' i onP mem)
  · intro apart q l live i lowI
    have present : lists q ≠ none := by simp [live]
    obtain ⟨answer, res, meaning⟩ := meaning q i present lowI
    rw [res]
    congr 1
    rw [Bool.eq_iff_iff, meaning, decide_eq_true_iff]
    constructor
    · rintro ⟨p, k, val, mem, rfl | ⟨notMaster, notMaster', blurred⟩⟩
      · rw [live] at val
        cases val
        exact mem
      · by_contra notMem
        have other : q ≠ p := by
          rintro rfl
          rw [live] at val
          cases val
          exact notMem mem
        exact apart q p k other notMaster' notMaster present val i mem blurred
    · exact fun mem => ⟨q, l, live, mem, .inl rfl⟩

end

end Lists.Exclusive

/-! ## Lists in a shared array of links -/

/-- Objects of type `O` which share an array of links and an array of labels. -/
structure SharedFamily (O : Type u) where
  n : ℕ
  link : ℕ → Option ℕ
  set : ℕ → ℕ
  objects : ℕ → Option O

/-- How an object holds a list: it only depends on the links of the items. From some point on,
the objects label their items. -/
structure Keeping (O : Type u) where
  Holds : (ℕ → Option ℕ) → O → List ℕ → Prop
  congr : ∀ {link link' : ℕ → Option ℕ} {o : O} {l : List ℕ}, Holds link o l →
    (∀ i ∈ l, link' i = link i) → Holds link' o l
  label : O → ℕ
  labelled : O → Bool

namespace SharedFamily

variable {O : Type u} {K : Keeping O} {labelOf : ℕ → ℕ} {F F' : SharedFamily O} {o : O} {p i : ℕ}

/-- The objects hold these lists. An object without labels is the only one. -/
structure Represents (K : Keeping O) (labelOf : ℕ → ℕ) (F : SharedFamily O) (lists : Lists) :
    Prop where
  exclusive : lists.Exclusive
  master : lists 0 ≠ none
  live : ∀ q l, lists q = some l → ∃ o, F.objects q = some o ∧ K.Holds F.link o l ∧
    K.label o = labelOf q ∧ (K.labelled o = true → ∀ i ∈ l, F.set i = K.label o) ∧
    (K.labelled o = false → ∀ p, lists p ≠ none → p = q)
  absent : ∀ q, lists q = none → F.objects q = none
  low : ∀ i, lists.Present i → i < F.n
  present : ∀ i, F.link i ≠ none → lists.Present i

namespace Represents

theorem length_le (represents : F.Represents K labelOf lists) (live : lists q = some l) :
    l.length ≤ F.n := by
  have subset : l ⊆ List.range F.n := fun i mem =>
    mem_range.2 (represents.low i ⟨q, l, live, mem⟩)
  have count := ((represents.exclusive.nodup q l live).subperm subset).length_le
  rwa [length_range] at count

section

variable (represents : F.Represents K labelOf lists) (live : lists q ≠ none)
  (object : F.objects q = some o)
include represents live object

theorem all_labelled (labelled : K.labelled o = true) (live' : lists p = some l) :
    ∃ o', F.objects p = some o' ∧ K.Holds F.link o' l ∧ K.label o' = labelOf p ∧
      K.labelled o' = true ∧ ∀ i ∈ l, F.set i = K.label o' := by
  obtain ⟨o', object', holds, label, labels, alone⟩ := represents.live p l live'
  have labelled' : K.labelled o' = true := by
    by_contra unlabelled
    have eq := alone (by simpa using unlabelled) q live
    subst eq
    rw [object] at object'
    cases object'
    exact unlabelled labelled
  exact ⟨o', object', holds, label, labelled', labels labelled'⟩

/-- An object with labels tells by the label of an item whether the item is its own, one without
labels has no need to. -/
theorem tells (label : K.label o = labelOf q) (val : lists p = some l)
    (mem : i ∈ l) : (K.labelled o = true → F.set i = K.label o) ↔ labelOf p = labelOf q := by
  by_cases labelled : K.labelled o = true
  · obtain ⟨o', -, -, label', -, labels⟩ := represents.all_labelled live object labelled val
    rw [labels i mem, label', label]
    exact ⟨fun eq => eq labelled, fun eq _ => eq⟩
  · obtain ⟨k, live⟩ := ne_none_iff_exists'.1 live
    obtain ⟨o', object', -, -, -, alone⟩ := represents.live q k live
    rw [object] at object'
    cases object'
    have eq := alone (by simpa using labelled) p (by simp [val])
    exact iff_of_true (fun on => absurd on labelled) (by rw [eq])

end

theorem initial (object : F.objects 0 = some o) (holds : K.Holds F.link o [])
    (label : K.label o = labelOf 0) (vacant : ∀ i, F.link i = none)
    (single : ∀ q, q ≠ 0 → F.objects q = none) : F.Represents K labelOf Lists.initial := by
  refine ⟨Lists.exclusive_initial, some_ne_none [], fun q l live => ?_,
    fun q dead => single q (by rintro rfl; cases dead),
    fun i on => absurd on (Lists.not_present_initial i), fun i linked => absurd (vacant i) linked⟩
  obtain ⟨rfl, rfl⟩ := Lists.of_initial live
  refine ⟨o, object, holds, label, fun _ i mem => ?_, fun _ p live' => ?_⟩
  · cases mem
  · obtain ⟨l, live'⟩ := ne_none_iff_exists'.1 live'
    exact (Lists.of_initial live').1

section

variable (represents : F.Represents K labelOf lists)
include represents

theorem replace (live : lists q = some l)
    (exclusive : Lists.Exclusive (update lists q (some k))) (n : F'.n = F.n)
    (objects : F'.objects = update F.objects q (some o))
    (link : ∀ i, i ∉ l → i ∉ k → F'.link i = F.link i)
    (set : ∀ i, i ∉ l → i ∉ k → F'.set i = F.set i) (removed : ∀ i ∈ l, i ∉ k → F'.link i = none)
    (holds : K.Holds F'.link o k) (label : K.label o = labelOf q)
    (labels : K.labelled o = true → ∀ i ∈ k, F'.set i = K.label o)
    (alone : K.labelled o = false → ∀ p, lists p ≠ none → p = q) (low : ∀ i ∈ k, i < F.n) :
    F'.Represents K labelOf (update lists q (some k)) := by
  have lives : ∀ p, update lists q (some k) p ≠ none → lists p ≠ none := by
    intro p live'
    by_cases here : p = q
    · rw [here, live]
      exact some_ne_none l
    · rwa [update_of_ne here] at live'
  have apart : ∀ p j, p ≠ q → lists p = some j → ∀ i ∈ j, i ∉ l ∧ i ∉ k := by
    refine fun p j other val i mem => ⟨fun both => other ?_, fun both => other ?_⟩
    · exact represents.exclusive.disjoint p q j l val live i mem both
    · exact exclusive.disjoint p q j k (by rw [update_of_ne other, val])
        (update_self ..) i mem both
  refine ⟨exclusive, ?_, fun p j val => ?_, fun p dead => ?_, fun i on => ?_, fun i linked => ?_⟩
  · by_cases here : 0 = q
    · rw [← here, update_self]
      exact some_ne_none k
    · rw [update_of_ne here]
      exact represents.master
  · by_cases here : p = q
    · subst here
      rw [update_self] at val
      cases val
      refine ⟨o, ?_, holds, label, labels, fun unlabelled p' live' => ?_⟩
      · rw [objects, update_self]
      · exact alone unlabelled p' (lives p' live')
    · rw [update_of_ne here] at val
      obtain ⟨o', object, holds', label', labels', alone'⟩ := represents.live p j val
      have out := apart p j here val
      refine ⟨o', ?_, K.congr holds' fun i mem => ?_, label', fun labelled i mem => ?_,
        fun unlabelled p' live' => alone' unlabelled p' (lives p' live')⟩
      · rw [objects, update_of_ne here, object]
      · exact link i (out i mem).1 (out i mem).2
      · rw [set i (out i mem).1 (out i mem).2, labels' labelled i mem]
  · have other : p ≠ q := by
      rintro rfl
      rw [update_self] at dead
      cases dead
    rw [update_of_ne other] at dead
    rw [objects, update_of_ne other, represents.absent p dead]
  · rw [n]
    rcases Lists.present_update.1 on with ⟨j, val, mem⟩ | ⟨p, j, -, val, mem⟩
    · cases val
      exact low i mem
    · exact represents.low i ⟨p, j, val, mem⟩
  · rw [Lists.present_update]
    by_cases inK : i ∈ k
    · exact .inl ⟨k, rfl, inK⟩
    by_cases inL : i ∈ l
    · exact absurd (removed i inL inK) linked
    rw [link i inL inK] at linked
    obtain ⟨p, j, val, mem⟩ := represents.present i linked
    refine .inr ⟨p, j, ?_, val, mem⟩
    rintro rfl
    rw [live] at val
    cases val
    exact inL mem

theorem retire (live : lists q = some [])
    (notMaster : q ≠ 0) (n : F'.n = F.n) (link : F'.link = F.link) (set : F'.set = F.set)
    (objects : F'.objects = update F.objects q none) :
    F'.Represents K labelOf (update lists q none) := by
  have old : ∀ p j, update lists q none p = some j → p ≠ q ∧ lists p = some j := by
    intro p j val
    have other : p ≠ q := by
      rintro rfl
      rw [update_self] at val
      cases val
    rw [update_of_ne other] at val
    exact ⟨other, val⟩
  refine ⟨represents.exclusive.vacate (fun j val => by cases val), ?_, fun p j val => ?_,
    fun p dead => ?_, fun i on => ?_, fun i linked => ?_⟩
  · rw [update_of_ne notMaster.symm]
    exact represents.master
  · obtain ⟨other, val'⟩ := old p j val
    obtain ⟨o', object, holds, label, labels, alone⟩ := represents.live p j val'
    refine ⟨o', ?_, link ▸ holds, label, set ▸ labels, fun unlabelled p' live' => ?_⟩
    · rw [objects, update_of_ne other, object]
    · obtain ⟨j', val''⟩ := ne_none_iff_exists'.1 live'
      exact alone unlabelled p' (by simp [(old p' j' val'').2])
  · rw [objects]
    by_cases here : p = q
    · rw [here, update_self]
    · rw [update_of_ne here] at dead ⊢
      exact represents.absent p dead
  · obtain ⟨p, j, val, mem⟩ := on
    rw [n]
    exact represents.low i ⟨p, j, (old p j val).2, mem⟩
  · rw [link] at linked
    obtain ⟨p, j, val, mem⟩ := represents.present i linked
    have other : p ≠ q := by
      rintro rfl
      rw [live] at val
      cases val
      cases mem
    exact ⟨p, j, by rw [update_of_ne other, val], mem⟩

theorem add (fresh : lists q = none)
    (labelled : ∀ p l, lists p = some l → ∃ o', F'.objects p = some o' ∧ K.Holds F.link o' l ∧
      K.label o' = labelOf p ∧ K.labelled o' = true ∧ ∀ i ∈ l, F'.set i = K.label o')
    (n : F'.n = F.n) (link : F'.link = F.link) (object : F'.objects q = some o)
    (absent : ∀ p, p ≠ q → lists p = none → F'.objects p = none)
    (holds : K.Holds F.link o []) (label : K.label o = labelOf q) (isLabelled : K.labelled o = true) :
    F'.Represents K labelOf (update lists q (some [])) := by
  have notMaster : q ≠ 0 := by
    rintro rfl
    exact represents.master fresh
  refine ⟨represents.exclusive.vacate fun j val => (Option.some.inj val).symm, ?_,
    fun p j val => ?_, fun p dead => ?_, fun i on => ?_, fun i linked => ?_⟩
  · rw [update_of_ne notMaster.symm]
    exact represents.master
  · by_cases here : p = q
    · subst here
      rw [update_self] at val
      cases val
      refine ⟨o, object, link ▸ holds, label, fun _ i mem => ?_, fun unlabelled => ?_⟩
      · cases mem
      · rw [isLabelled] at unlabelled
        cases unlabelled
    · rw [update_of_ne here] at val
      obtain ⟨o', object', holds', label', labelled', labels'⟩ := labelled p j val
      refine ⟨o', object', link ▸ holds', label', fun _ => labels', fun unlabelled => ?_⟩
      rw [labelled'] at unlabelled
      cases unlabelled
  · have other : p ≠ q := by
      rintro rfl
      rw [update_self] at dead
      cases dead
    rw [update_of_ne other] at dead
    exact absent p other dead
  · rw [n]
    rcases Lists.present_update.1 on with ⟨j, val, mem⟩ | ⟨p, j, -, val, mem⟩
    · cases val
      cases mem
    · exact represents.low i ⟨p, j, val, mem⟩
  · rw [link] at linked
    obtain ⟨p, j, val, mem⟩ := represents.present i linked
    refine Lists.present_update.2 (.inr ⟨p, j, ?_, val, mem⟩)
    rintro rfl
    rw [fresh] at val
    cases val

end

end Represents

end SharedFamily

/-! ## Runs -/

section Reach

variable {σ : Type u} {ε : Type v}

/-- The state after a request, which is the same as before if the request raises. -/
def served (serve : ListRequest → σ → Except ε (σ × Option ℕ)) (request : ListRequest) (st : σ) : σ :=
  match serve request st with
  | .ok (st', _) => st'
  | .error _ => st

/-- The states that are reached from `start` by legal requests which the implementation admits,
with the lists. -/
inductive ListReach (n : ℕ) (push : ℕ → List ℕ → List ℕ) (start : σ)
    (serve : ListRequest → σ → Except ε (σ × Option ℕ)) (Admits : σ → ListRequest → Prop) :
    σ → Lists → Prop
  | start : ListReach n push start serve Admits start Lists.initial
  | step {st : σ} {lists : Lists} (request : ListRequest)
      (reach : ListReach n push start serve Admits st lists) (legal : request.Legal lists)
      (admitted : Admits st request) :
      ListReach n push start serve Admits (served serve request st)
        (request.listsAfter n push lists)

variable {start : σ} {serve : ListRequest → σ → Except ε (σ × Option ℕ)}
  {Admits : σ → ListRequest → Prop}

/-- An invariant of the initial state that all admitted requests keep holds in every reachable
state. -/
theorem ListReach.invariant (Inv : σ → Lists → Prop) (initial : Inv start Lists.initial)
    (preserved : ∀ st lists, Inv st lists → ∀ req : ListRequest, req.Legal lists →
      Admits st req → Inv (served serve req st) (req.listsAfter n push lists)) {st : σ}
    (reach : ListReach n push start serve Admits st lists) : Inv st lists := by
  induction reach with
  | start => exact initial
  | step req _ legal admitted ih => exact preserved _ _ ih req legal admitted

theorem deleteAll_spec (Inv : σ → Lists → Prop) {deleteAll : ℕ → σ → Except ε σ}
    (stop : ∀ fuel st lists, Inv st lists → lists q = some [] → deleteAll (fuel + 1) st = .ok st)
    (next : ∀ fuel st lists x l, Inv st lists → lists q = some (x :: l) →
      ∃ st', deleteAll (fuel + 1) st = deleteAll fuel st' ∧ Inv st' (update lists q (some l))) :
    ∀ (l : List ℕ) {fuel : ℕ} {st : σ} {lists : Lists}, Inv st lists → lists q = some l →
      l.length < fuel → ∃ st', deleteAll fuel st = .ok st' ∧ Inv st' (update lists q (some []))
  | [], fuel + 1, st, lists, inv, live, _ =>
    ⟨st, stop fuel st lists inv live, by rwa [← live, update_eq_self]⟩
  | x :: l, fuel + 1, st, lists, inv, live, enough => by
    obtain ⟨st1, step, inv1⟩ := next fuel st lists x l inv live
    have shorter : l.length < fuel := Nat.lt_of_succ_lt_succ enough
    obtain ⟨st', res, inv'⟩ := deleteAll_spec Inv stop next l inv1 (update_self ..) shorter
    rw [update_idem] at inv'
    exact ⟨st', step.trans res, inv'⟩

end Reach

end Goblin.Library
