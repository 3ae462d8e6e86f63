import Mathlib.Tactic

/-!
# Linked lists in arrays

Elements that are chained by a successor function `r`, as arrays of links
represent them. `Links r l e` says that every element of `l` points to the next one
and the last one to `e`, which may be the end of the list or another element.
-/

set_option autoImplicit false

namespace Goblin.Library

open List Function

universe u

variable {A : Type u} {r r' : A → Option A} {x y : A} {e : Option A} {l k : List A} {front : List A}

/-- Every element points to the next one, and the last one to `e`. -/
def Links (r : A → Option A) : List A → Option A → Prop
  | [], _ => True
  | a :: l, e => r a = l.head?.or e ∧ Links r l e

theorem links_append : Links r (l ++ k) e ↔ Links r l (k.head?.or e) ∧ Links r k e := by
  induction l with
  | nil => simp [Links]
  | cons a l ih =>
    have head : (l ++ k).head?.or e = l.head?.or (k.head?.or e) := by
      cases l with
      | nil | cons c l => rfl
    rw [cons_append, Links, Links, ih, head, and_assoc]

theorem links_concat : Links r (l ++ [x]) e ↔ Links r l (some x) ∧ r x = e := by
  rw [links_append]
  simp [Links]

theorem Links.congr (links : Links r l e) (eq : ∀ c ∈ l, r' c = r c) : Links r' l e := by
  induction l with
  | nil => trivial
  | cons a l ih =>
    obtain ⟨first, rest⟩ := links
    refine ⟨?_, ih rest fun c mem => eq c (mem_cons_of_mem _ mem)⟩
    rw [eq a mem_cons_self, first]

/-- What an element points to lies in the list or is its end. -/
theorem Links.target_mem (links : Links r l e) (mem : x ∈ l) :
    (∃ y ∈ l, r x = some y) ∨ r x = e := by
  induction l with
  | nil => cases mem
  | cons a l ih =>
    obtain ⟨first, rest⟩ := links
    rcases mem_cons.1 mem with rfl | later
    · cases l with
      | nil => exact .inr first
      | cons c l => exact .inl ⟨c, by simp, first⟩
    · rcases ih rest later with ⟨y, inside, val⟩ | last
      · exact .inl ⟨y, mem_cons_of_mem _ inside, val⟩
      · exact .inr last

theorem Links.unique (links : Links r (x :: l) none) (links' : Links r (x :: k) none) : l = k := by
  induction l generalizing x k with
  | nil =>
    cases k with
    | nil => rfl
    | cons z k =>
      have val := links'.1
      rw [links.1] at val
      cases val
  | cons y l ih =>
    cases k with
    | nil =>
      have val := links'.1
      rw [links.1] at val
      cases val
    | cons z k =>
      have val := links'.1
      rw [links.1] at val
      cases val
      rw [ih links.2 links'.2]

theorem Links.nodup (links : Links r l none) : l.Nodup := by
  induction l with
  | nil => exact nodup_nil
  | cons a l ih =>
    obtain ⟨first, rest⟩ := links
    refine nodup_cons.2 ⟨fun mem => ?_, ih rest⟩
    -- the part behind the second occurrence would be as long as the whole list
    obtain ⟨front, back, split⟩ := append_of_mem mem
    have again : Links r (a :: back) none := by
      rw [split, links_append] at rest
      exact rest.2
    have whole := congrArg List.length (Links.unique ⟨first, rest⟩ again)
    rw [split, length_append, length_cons] at whole
    omega

theorem Links.retarget [DecidableEq A] (links : Links r l e) (last : l = front ++ [x])
    (nodup : l.Nodup) (e' : Option A) : Links (update r x e') l e' := by
  subst last
  rw [links_concat] at links ⊢
  refine ⟨links.1.congr fun c mem => update_of_ne ?_ _ _, update_self _ _ _⟩
  rintro rfl
  exact (nodup_append.1 nodup).2.2 c mem c (by simp) rfl

theorem Links.splice [DecidableEq A] {C tail : List A} {c : A} (links : Links r (l ++ x :: k) e)
    (nodup : (l ++ x :: k).Nodup) {e' : Option A} (chain : Links r C e') (nodupC : C.Nodup)
    (head : C = c :: tail) (last : C = front ++ [y]) (disjoint : ∀ z ∈ C, z ∉ l ++ x :: k) :
    Links (update (update r y (r x)) x (some c)) (l ++ x :: (C ++ k)) e := by
  have inC : y ∈ C := by
    rw [last]
    simp
  have notX : ∀ z ∈ C, z ≠ x := by
    rintro z mem rfl
    exact disjoint z mem (by simp)
  have kept : ∀ z, z ≠ x → z ∈ l ++ x :: k → update (update r y (r x)) x (some c) z = r z := by
    intro z other mem
    rw [update_of_ne other, update_of_ne]
    rintro rfl
    exact disjoint z inC mem
  obtain ⟨-, nodupX, apart⟩ := nodup_append.1 nodup
  rw [links_append] at links ⊢
  obtain ⟨linksL, atX, linksK⟩ := links
  refine ⟨linksL.congr fun z mem => kept z ?_ (by simp [mem]), ?_, ?_⟩
  · rintro rfl
    exact apart z mem z (by simp) rfl
  · rw [update_self, head]
    rfl
  · rw [links_append]
    constructor
    · have chain' := chain.retarget last nodupC (r x)
      rw [atX] at chain'
      refine chain'.congr fun z mem => ?_
      rw [update_of_ne (notX z mem), atX]
    · refine linksK.congr fun z mem => kept z ?_ (by simp [mem])
      rintro rfl
      exact (nodup_cons.1 nodupX).1 mem

end Goblin.Library
