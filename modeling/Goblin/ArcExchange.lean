import Goblin.IncidenceLists

/-!
# Exchanging arcs

`SwapArcs` is to exchange the names of two arcs and of their reverse arcs, and everything else is
to stay where it is. The start nodes and the first arcs of the nodes follow. The lists follow at an
end if both arcs are alone in their lists there, or neither of them is.
-/

set_option autoImplicit false

namespace Goblin

open Library Option Equiv Function Equiv Option

variable {c : ℕ}

theorem Library.Rings.alone_iff {A V : Type} {r : A → Option A} {group : A → V} {D : A → Prop}
    {a : A} (rings : Rings r group D) (inD : D a) :
    r a = some a ↔ ∀ c, D c → group c = group a → c = a := by
  obtain ⟨l, ring, mem⟩ := rings a inD
  constructor
  · intro alone c inC eq
    have member := (mem c).2 ⟨inC, eq⟩
    cases l with
    | nil => exact List.mem_singleton.1 member
    | cons b l =>
      have next := ring.next
      rw [alone, List.headD_cons] at next
      have repeated := (List.nodup_cons.1 ring.nodup).1
      rw [some.inj next] at repeated
      exact absurd List.mem_cons_self repeated
  · intro only
    obtain ⟨b, next, inB, eq⟩ := rings.next inD
    rw [next, only b inB eq]

namespace SparseState

variable {st st' : SparseState} {D : ℕ → Prop} {group left right' left' : ℕ → Option ℕ} {x y : ℕ}

/-! ## One end -/

section

variable (st : SparseState) (left group : ℕ → Option ℕ) (D : ℕ → Prop) (x y : ℕ)

/-- Two arcs have been exchanged in the lists of the arcs of `D`. -/
structure Exchanged
    (right' left' : ℕ → Option ℕ) : Prop where
  rings : Rings right' (fun c => group (swap x y c)) fun c => D (swap x y c)
  back : Back right' left' fun c => D (swap x y c)
  unlinked : ∀ c, ¬ D (swap x y c) → (¬ D c → st.right c = none ∧ left c = none) →
    st.right c ≠ some c → right' c = none ∧ left' c = none

/-- `swapLinks` succeeds, and the arcs have been exchanged. -/
def SwapsLinks : Prop :=
  ∃ right' left', st.swapLinks x y = .ok { st with right := right', left := some left' } ∧
    Exchanged st left group D x y right' left'

end

section

variable (exchanged : Exchanged st left group D x y right' left')
include exchanged

theorem Exchanged.symm : Exchanged st left group D y x right' left' := by
  have eq : swap y x = swap x y := swap_comm y x
  constructor
  · rw [eq]
    exact exchanged.rings
  · rw [eq]
    exact exchanged.back
  · rw [eq]
    exact exchanged.unlinked

/-- Arcs that are not exchanged stay without links. -/
theorem Exchanged.kept (notX : c ≠ x)
    (notY : c ≠ y) (out : ¬ D c) (old : st.right c = none ∧ left c = none) :
    right' c = none ∧ left' c = none := by
  apply exchanged.unlinked c _ fun _ => old
  · rw [old.1]
    exact fun eq => by cases eq
  · rwa [swap_apply_of_ne_of_ne notX notY]

theorem Exchanged.alone_iff
    (rings : Rings st.right group D) (notX : c ≠ x) (notY : c ≠ y) (inC : D c) :
    right' c = some c ↔ st.right c = some c := by
  have fixed : swap x y c = c := swap_apply_of_ne_of_ne notX notY
  have inC' : D (swap x y c) := by rwa [fixed]
  rw [rings.alone_iff inC, exchanged.rings.alone_iff inC']
  constructor
  · intro only d inD eq
    have here := only (swap x y d)
    rw [swap_apply_self] at here
    have equal := here inD (by rw [fixed, eq])
    rw [swap_apply_eq_iff, fixed] at equal
    exact equal
  · intro only d inD eq
    have equal := only _ inD (by rw [eq, fixed])
    rw [swap_apply_eq_iff, fixed] at equal
    exact equal

theorem Exchanged.clear {bound : ℕ}
    (unlinked : ∀ c, c < bound → ¬ D c → st.right c = none ∧ left c = none) (lowX : x < bound)
    (lowY : y < bound) (both : st.right x = some x ↔ st.right y = some y) :
    ∀ c, c < bound → ¬ D (swap x y c) → right' c = none ∧ left' c = none := by
  have linked : ∀ c, c < bound → st.right c = some c → D c := by
    intro c low alone
    by_contra outside
    rw [(unlinked c low outside).1] at alone
    cases alone
  intro c low dead
  refine exchanged.unlinked c dead (unlinked c low) fun alone => dead ?_
  rw [swap_apply_def]
  split_ifs with isX isY
  · exact linked y lowY (both.1 (isX ▸ alone))
  · exact linked x lowX (both.2 (isY ▸ alone))
  · exact linked c low alone

end

theorem swapLinks_congr (present : st.left = some left) (apart : left x ≠ some y ∧ left y ≠ some x)
    (taken : (do
      let links ← takeLinks (left, st.right) x y (left x) (st.right x) (left y) (st.right y)
      takeLinks links y x (left y) (st.right y) (left x) (st.right x)) = .ok (left', right')) :
    st.swapLinks x y = .ok { st with right := right', left := some left' } := by
  have alloc : st.allocLeft = .ok (st, left) := by rw [allocLeft, present]
  simp only [bind, Except.bind] at taken
  simp only [swapLinks, alloc, bind, Except.bind, if_pos apart]
  split at taken
  · cases taken
  · rename_i first result
    rw [taken]
    rfl

theorem swapLinks_adjacent (present : st.left = some left)
    (adjacent : left x = some y ∨ left y = some x) : st.swapLinks x y = .ok st := by
  have alloc : st.allocLeft = .ok (st, left) := by rw [allocLeft, present]
  have together : ¬ (left x ≠ some y ∧ left y ≠ some x) := by
    rintro ⟨notX, notY⟩
    exact adjacent.elim notX notY
  simp only [swapLinks, alloc, bind, Except.bind, if_neg together]
  rfl

section

variable (rings : Rings st.right group D) (back : Back st.right left D)
include rings back

theorem exchanged_adjacent
    (inX : D x) (inY : D y) (eq : group x = group y) :
    Exchanged st left group D x y st.right left := by
  have inside : (fun c => D (swap x y c)) = D := by
    funext c
    by_cases isX : c = x
    · rw [isX, swap_apply_left]
      exact propext (iff_of_true inY inX)
    · by_cases isY : c = y
      · rw [isY, swap_apply_right]
        exact propext (iff_of_true inX inY)
      · rw [swap_apply_of_ne_of_ne isX isY]
  have groups : (fun c => group (swap x y c)) = group := by
    funext c
    by_cases isX : c = x
    · rw [isX, swap_apply_left, eq]
    · by_cases isY : c = y
      · rw [isY, swap_apply_right, eq]
      · rw [swap_apply_of_ne_of_ne isX isY]
  refine ⟨?_, ?_, fun c out old _ => old ?_⟩
  · rw [groups, inside]
    exact rings
  · rw [inside]
    exact back
  · rwa [← congrFun inside c]

theorem exchanged_of_map
    (links : ∀ c, D c → right' (swap x y c) = (st.right c).map (swap x y))
    (links' : ∀ c, D c → left' (swap x y c) = (left c).map (swap x y))
    (unlinked : ∀ c, ¬ D (swap x y c) → (¬ D c → st.right c = none ∧ left c = none) →
      st.right c ≠ some c → right' c = none ∧ left' c = none) :
    Exchanged st left group D x y right' left' := by
  have image : (fun d => ∃ c, D c ∧ swap x y c = d) = fun d => D (swap x y d) := by
    funext d
    apply propext
    constructor
    · rintro ⟨c, inD, rfl⟩
      rwa [swap_apply_self]
    · exact fun inD => ⟨_, inD, swap_apply_self x y d⟩
  refine ⟨?_, ?_, unlinked⟩
  · rw [← image]
    refine rings.rename (swap x y) (fun _ _ _ _ eq => (swap x y).injective eq)
      links fun c _ => ?_
    rw [swap_apply_self]
  · rw [← image]
    exact back.rename (swap x y) rings links links'

end

theorem unlinked_of_kept (inX : D x) (inY : D y)
    (kept : ∀ c, ¬ D c → right' c = st.right c ∧ left' c = left c) :
    ∀ c, ¬ D (swap x y c) → (¬ D c → st.right c = none ∧ left c = none) →
      st.right c ≠ some c → right' c = none ∧ left' c = none := by
  intro c out old _
  have out' : ¬ D c := by
    intro inC
    apply out
    rw [swap_apply_def]
    split_ifs
    exacts [inY, inX, inC]
  rw [(kept c out').1, (kept c out').2]
  exact old out'

section

variable (rings : Rings st.right group D)
include rings

section

variable (back : Back st.right left D)
include back

section

variable (present : st.left = some left)
include present

theorem swapLinks_both_alone (inX : D x) (inY : D y) (distinct : x ≠ y)
    (aloneX : st.right x = some x) (aloneY : st.right y = some y) :
    SwapsLinks st left group D x y := by
  have leftX := back x x inX aloneX
  have leftY := back y y inY aloneY
  have eq : ∀ (f : ℕ → Option ℕ), f x = some x → f y = some y →
      update (update f x (some x)) y (some y) = f := by
    intro f atX atY
    rw [← atX, update_eq_self, ← atY, update_eq_self]
  refine ⟨st.right, left, swapLinks_congr present ⟨?_, ?_⟩ ?_, ?_⟩
  · rw [leftX]
    exact fun equal => distinct (some.inj equal)
  · rw [leftY]
    exact fun equal => distinct (some.inj equal).symm
  · simp only [takeLinks, aloneX, aloneY, if_true, bind, Except.bind, eq left leftX leftY,
      eq st.right aloneX aloneY]
  · have fixed : ∀ (f : ℕ → Option ℕ), f x = some x → f y = some y →
        (∀ c, D c → c ≠ x → c ≠ y → f c ≠ some x ∧ f c ≠ some y) → ∀ c, D c →
        f (swap x y c) = (f c).map (swap x y) := by
      intro f atX atY away c inC
      by_cases isX : c = x
      · rw [isX, swap_apply_left, atX, atY, map_some, swap_apply_left]
      by_cases isY : c = y
      · rw [isY, swap_apply_right, atX, atY, map_some, swap_apply_right]
      rw [swap_apply_of_ne_of_ne isX isY]
      obtain ⟨notX, notY⟩ := away c inC isX isY
      cases val : f c with
      | none => rfl
      | some d =>
        rw [map_some, swap_apply_of_ne_of_ne]
        · rintro rfl
          exact notX val
        · rintro rfl
          exact notY val
    refine exchanged_of_map rings back (fixed st.right aloneX aloneY ?_)
      (fixed left leftX leftY ?_) (unlinked_of_kept inX inY fun _ _ => ⟨rfl, rfl⟩)
    · intro c inC isX isY
      exact ⟨fun val => isX (rings.injective inC inX (val.trans aloneX.symm)),
        fun val => isY (rings.injective inC inY (val.trans aloneY.symm))⟩
    · intro c inC isX isY
      refine ⟨fun val => ?_, fun val => ?_⟩
      · have next := (back.unique rings inC val).2
        rw [aloneX] at next
        exact isX (some.inj next).symm
      · have next := (back.unique rings inC val).2
        rw [aloneY] at next
        exact isY (some.inj next).symm

theorem swapLinks_both_longer (inX : D x) (inY : D y) (distinct : x ≠ y)
    (apart : left x ≠ some y ∧ left y ≠ some x)
    (moreX : st.right x ≠ some x) (moreY : st.right y ≠ some y) :
    SwapsLinks st left group D x y := by
  obtain ⟨b, nextX, inB, -⟩ := rings.next inX
  obtain ⟨d, nextY, inD, -⟩ := rings.next inY
  obtain ⟨a, beforeX, inA, -⟩ := rings.previous inX
  obtain ⟨e, beforeY, inE, -⟩ := rings.previous inY
  have leftX := back a x inA beforeX
  have leftY := back e y inE beforeY
  have leftB := back x b inX nextX
  have leftD := back y d inY nextY
  -- the neighbours are neither of the two arcs
  have aX : a ≠ x := fun eq => moreX (eq ▸ beforeX)
  have eY : e ≠ y := fun eq => moreY (eq ▸ beforeY)
  have bX : b ≠ x := fun eq => moreX (eq ▸ nextX)
  have dY : d ≠ y := fun eq => moreY (eq ▸ nextY)
  have aY : a ≠ y := fun eq => apart.1 (eq ▸ leftX)
  have eX : e ≠ x := fun eq => apart.2 (eq ▸ leftY)
  have bY : b ≠ y := by
    rintro rfl
    exact eX (rings.injective inE inX (beforeY.trans nextX.symm))
  have dX : d ≠ x := by
    rintro rfl
    exact aY (rings.injective inA inY (beforeX.trans nextY.symm))
  have ae : a ≠ e := by
    rintro rfl
    exact distinct (some.inj (beforeX.symm.trans beforeY))
  have bd : b ≠ d := by
    rintro rfl
    exact distinct (rings.injective inX inY (nextX.trans nextY.symm))
  set right' := update (update (update (update st.right x
    (some d)) a (some y)) y (some b)) e (some x) with rightEq
  set left' := update (update (update (update left x
    (some e)) b (some y)) y (some a)) d (some x) with leftEq
  refine ⟨right', left', swapLinks_congr present apart ?_, ?_⟩
  · simp only [takeLinks, nextX, nextY, leftX, leftY, some.injEq, dY, bX, if_false, defined,
      bind, Except.bind, pure, Except.pure, rightEq, leftEq]
  · have renamed : ∀ (f g : ℕ → Option ℕ) (p q s t : ℕ), f p = some x → f q = some y →
        f x = some s → f y = some t → p ≠ x → p ≠ y → q ≠ x → q ≠ y → p ≠ q →
        s ≠ x → s ≠ y → t ≠ x → t ≠ y →
        g = update (update (update (update f x (some t)) p (some y)) y (some s)) q (some x) →
        (∀ c, D c → f c = some x → c = p) → (∀ c, D c → f c = some y → c = q) →
        ∀ c, D c → g (swap x y c) = (f c).map (swap x y) := by
      intro f g p q s t atP atQ atX atY pX pY qX qY pq sX sY tX tY val onlyP onlyQ c inC
      subst val
      by_cases isX : c = x
      · rw [isX, swap_apply_left, update_of_ne qY.symm, update_self, atX,
          map_some, swap_apply_of_ne_of_ne sX sY]
      by_cases isY : c = y
      · rw [isY, swap_apply_right, update_of_ne qX.symm,
          update_of_ne distinct, update_of_ne pX.symm, update_self, atY,
          map_some, swap_apply_of_ne_of_ne tX tY]
      rw [swap_apply_of_ne_of_ne isX isY]
      by_cases isQ : c = q
      · rw [isQ, update_self, atQ, map_some, swap_apply_right]
      rw [update_of_ne isQ, update_of_ne isY]
      by_cases isP : c = p
      · rw [isP, update_self, atP, map_some, swap_apply_left]
      rw [update_of_ne isP, update_of_ne isX]
      cases next : f c with
      | none => rfl
      | some z =>
        rw [map_some, swap_apply_of_ne_of_ne]
        · rintro rfl
          exact isP (onlyP c inC next)
        · rintro rfl
          exact isQ (onlyQ c inC next)
    refine exchanged_of_map rings back
      (renamed st.right right' a e b d beforeX beforeY nextX nextY aX aY eX eY ae bX bY dX dY
        rightEq ?_ ?_)
      (renamed left left' b d a e leftB leftD leftX leftY bX bY dX dY bd aX aY eX eY leftEq ?_ ?_)
      (unlinked_of_kept inX inY ?_)
    · exact fun c inC next => rings.injective inC inA (next.trans beforeX.symm)
    · exact fun c inC next => rings.injective inC inE (next.trans beforeY.symm)
    · intro c inC val
      have next := (back.unique rings inC val).2
      rw [nextX] at next
      exact (some.inj next).symm
    · intro c inC val
      have next := (back.unique rings inC val).2
      rw [nextY] at next
      exact (some.inj next).symm
    · intro c out
      have other : ∀ z, D z → c ≠ z := by
        rintro z inZ rfl
        exact out inZ
      rw [rightEq, leftEq]
      simp only [update_of_ne (other _ inX), update_of_ne (other _ inY),
        update_of_ne (other _ inA), update_of_ne (other _ inB),
        update_of_ne (other _ inD), update_of_ne (other _ inE), and_self]

section

variable (deadX : ¬ D x) (inY : D y) (unlinked : st.right x = none ∧ left x = none)
include deadX inY unlinked

theorem swapLinks_one
    : SwapsLinks st left group D x y := by
  obtain ⟨b, next, inB, -⟩ := rings.next inY
  obtain ⟨z, prev, inZ, -⟩ := rings.previous inY
  have leftY := back z y inZ prev
  have leftB := back y b inY next
  have notX : ∀ c, D c → c ≠ x := by
    rintro c inD rfl
    exact deadX inD
  have onlyZ : ∀ c, D c → st.right c = some y → c = z := fun c inD val =>
    rings.injective inD inZ (val.trans prev.symm)
  have onlyB : ∀ c, D c → left c = some y → c = b := by
    intro c inD val
    have next' := (back.unique rings inD val).2
    rw [next] at next'
    exact (some.inj next').symm
  set right' := update (update (update st.right x (some (swap x y b))) y none) z (some x)
    with rightEq
  set left' := update (update (update left x (some (swap x y z))) y none) b (some x) with leftEq
  have res : st.swapLinks x y = .ok { st with right := right', left := some left' } := by
    refine swapLinks_congr present ?_ ?_
    · rw [unlinked.2, leftY]
      simp [notX z inZ]
    · simp only [takeLinks, unlinked.1, unlinked.2, next, leftY, some.injEq, reduceCtorEq,
        if_false, defined, bind, Except.bind, pure, Except.pure]
      by_cases alone : b = y
      · have alone' := onlyZ y inY (alone ▸ next)
        simp only [alone, if_true, rightEq, leftEq, ← alone', swap_apply_right]
      · have alone' : z ≠ y := fun eq => alone (onlyB y inY (eq ▸ leftY)).symm
        simp only [alone, if_false, rightEq, leftEq, swap_apply_of_ne_of_ne (notX b inB) alone,
          swap_apply_of_ne_of_ne (notX z inZ) alone']
  have renamed : ∀ (f : ℕ → Option ℕ) (p s : ℕ), f y = some s → f p = some y → D p →
      (∀ c, D c → f c = some y → c = p) → (∀ c d, D c → f c = some d → D d) → ∀ c, D c →
      update (update (update f x (some (swap x y s))) y none) p (some x)
        (swap x y c) = (f c).map (swap x y) := by
    intro f p s atY atP inP only inside c inC
    by_cases isY : c = y
    · rw [isY, swap_apply_right, update_of_ne (notX p inP).symm,
        update_of_ne (notX y inY).symm, update_self, atY, map_some]
    rw [swap_apply_of_ne_of_ne (notX c inC) isY]
    by_cases isP : c = p
    · rw [isP, update_self, atP, map_some, swap_apply_right]
    rw [update_of_ne isP, update_of_ne isY, update_of_ne (notX c inC)]
    cases val : f c with
    | none => rfl
    | some d =>
      rw [map_some, swap_apply_of_ne_of_ne (notX d (inside c d inC val))]
      rintro rfl
      exact isP (only c inC val)
  refine ⟨right', left', res, exchanged_of_map rings back
    (renamed st.right z b next prev inZ onlyZ ?_) (renamed left b z leftY leftB inB onlyB ?_)
    fun c out old longer => ?_⟩
  · intro c d inC val
    obtain ⟨d', next', inD, -⟩ := rings.next inC
    rw [val] at next'
    cases next'
    exact inD
  · exact fun c d inC val => (back.unique rings inC val).1
  · have otherX : c ≠ x := by
      rintro rfl
      rw [swap_apply_left] at out
      exact out inY
    by_cases isY : c = y
    · rw [isY] at longer ⊢
      have otherZ : y ≠ z := fun eq => longer (eq ▸ prev)
      have otherB : y ≠ b := fun eq => longer (eq ▸ next)
      rw [rightEq, leftEq, update_of_ne otherZ, update_self, update_of_ne otherB, update_self]
      exact ⟨rfl, rfl⟩
    · rw [swap_apply_of_ne_of_ne otherX isY] at out
      rw [rightEq, leftEq, update_of_ne (by rintro rfl; exact out inZ), update_of_ne isY,
        update_of_ne otherX, update_of_ne (by rintro rfl; exact out inB), update_of_ne isY,
        update_of_ne otherX]
      exact old out

theorem swapLinks_comm
    : st.swapLinks y x = st.swapLinks x y := by
  obtain ⟨b, next, inB, -⟩ := rings.next inY
  obtain ⟨z, before, inZ, -⟩ := rings.previous inY
  have leftY := back z y inZ before
  have other : ∀ c, D c → x ≠ c := by
    rintro c inD rfl
    exact deadX inD
  have single : b = y ↔ z = y := by
    constructor
    · rintro rfl
      exact rings.injective inZ inY (before.trans next.symm)
    · rintro rfl
      rw [next] at before
      exact some.inj before
  have notX : left y ≠ some x := by
    rw [leftY]
    exact fun eq => other z inZ (some.inj eq).symm
  have notY : left x ≠ some y := by
    rw [unlinked.2]
    exact fun eq => by cases eq
  -- the writes for one arc and those for the other one are to different places
  have commute : ∀ (f : ℕ → Option ℕ) (p q : ℕ) (v : Option ℕ), D p → D q →
      update (update (update f p none) q (some x)) x v =
        update (update (update f x v) p none) q (some x) := by
    intro f p q v inP inQ
    rw [update_comm (other q inQ).symm, update_comm (other p inP).symm]
  by_cases alone : b = y
  · have alone' := single.1 alone
    rw [alone] at next
    rw [alone'] at leftY
    rw [@swapLinks_congr _ left _ _ y x present ⟨notX, notY⟩ (by
        simp only [takeLinks, unlinked.1, unlinked.2, next, leftY, reduceCtorEq, if_false, if_true,
          defined, bind, Except.bind, pure, Except.pure]
        rfl),
      swapLinks_congr present ⟨notY, notX⟩ (by
        simp only [takeLinks, unlinked.1, unlinked.2, next, leftY, reduceCtorEq, if_false, if_true,
          defined, bind, Except.bind, pure, Except.pure]
        rfl)]
    rw [commute left y y _ inY inY, commute st.right y y _ inY inY]
  · have alone' : z ≠ y := fun eq => alone (single.2 eq)
    rw [@swapLinks_congr _ left _ _ y x present ⟨notX, notY⟩ (by
        simp only [takeLinks, unlinked.1, unlinked.2, next, leftY, reduceCtorEq, if_false,
          some.injEq, alone, defined, bind, Except.bind, pure, Except.pure]
        rfl),
      swapLinks_congr present ⟨notY, notX⟩ (by
        simp only [takeLinks, unlinked.1, unlinked.2, next, leftY, reduceCtorEq, if_false,
          some.injEq, alone, defined, bind, Except.bind, pure, Except.pure]
        rfl)]
    rw [commute left y b _ inY inB, commute st.right y z _ inY inZ]

end

end

end

end

/-- **One end**: the arcs are exchanged unless exactly one of two linked arcs is alone. -/
theorem swapLinks_exchanges (rings : Rings st.right group D) (back : Back st.right left D)
    (present : st.left = some left) (distinct : x ≠ y)
    (unlinkedX : ¬ D x → st.right x = none ∧ left x = none)
    (unlinkedY : ¬ D y → st.right y = none ∧ left y = none)
    (matched : D x → D y → (st.right x = some x ↔ st.right y = some y)) :
    SwapsLinks st left group D x y := by
  by_cases inX : D x
  · by_cases inY : D y
    · by_cases aloneX : st.right x = some x
      · exact swapLinks_both_alone rings back present inX inY distinct aloneX
          ((matched inX inY).1 aloneX)
      have aloneY : st.right y ≠ some y := fun alone => aloneX ((matched inX inY).2 alone)
      by_cases adjacent : left x = some y ∨ left y = some x
      · have whole : { st with right := st.right, left := some left } = st := by rw [← present]
        refine ⟨st.right, left, ?_, exchanged_adjacent rings back inX inY ?_⟩
        · rw [swapLinks_adjacent present adjacent, whole]
        · have groups : ∀ c d, D c → left c = some d → group c = group d := by
            intro c d inC before
            obtain ⟨inD, next⟩ := back.unique rings inC before
            obtain ⟨c', next', -, eq⟩ := rings.next inD
            rw [next] at next'
            cases next'
            exact eq
          rcases adjacent with before | before
          · exact groups x y inX before
          · exact (groups y x inY before).symm
      · exact swapLinks_both_longer rings back present inX inY distinct (not_or.1 adjacent)
          aloneX aloneY
    · obtain ⟨right', left', res, exchanged⟩ :=
        swapLinks_one rings back present inY inX (unlinkedY inY)
      refine ⟨right', left', ?_, exchanged.symm⟩
      rw [swapLinks_comm rings back present inY inX (unlinkedY inY)]
      exact res
  · by_cases inY : D y
    · exact swapLinks_one rings back present inX inY (unlinkedX inX)
    obtain ⟨rightX, leftX⟩ := unlinkedX inX
    obtain ⟨rightY, leftY⟩ := unlinkedY inY
    refine ⟨st.right, left, swapLinks_congr present ?_ ?_, ?_⟩
    · simp [leftX, leftY]
    · simp only [takeLinks, rightX, rightY, leftX, leftY, reduceCtorEq, if_false, bind,
        Except.bind, update_none leftX, update_none leftY, update_none rightX, update_none rightY]
    · have inside : (fun c => D (swap x y c)) = D := by
        funext c
        by_cases isX : c = x
        · rw [isX, swap_apply_left]
          exact propext (iff_of_false inY inX)
        · by_cases isY : c = y
          · rw [isY, swap_apply_right]
            exact propext (iff_of_false inX inY)
          · rw [swap_apply_of_ne_of_ne isX isY]
      have fixed : ∀ c, D c → swap x y c = c := by
        intro c inC
        refine swap_apply_of_ne_of_ne ?_ ?_
        · rintro rfl
          exact inX inC
        · rintro rfl
          exact inY inC
      refine ⟨?_, ?_, fun c out old _ => old ?_⟩
      · rw [inside]
        refine rings.congr (fun _ _ => rfl) fun c d inC inD => ?_
        rw [fixed c inC, fixed d inD]
      · rw [inside]
        exact back
      · rwa [← congrFun inside c]

/-! ## Both ends -/

/-- Exchange the names of two arcs, and those of their reverse arcs. -/
def exchange (a1 a2 c : ℕ) : ℕ :=
  if c = a1 then a2
  else if c = a2 then a1
  else if c = rev a1 then rev a2
  else if c = rev a2 then rev a1
  else c

/-- The arcs of `st` are those of `st'` under other names: their start nodes, the lists of the
nodes, and the reverse links. -/
structure ArcsRenamed (st st' : SparseState) (s : ℕ → ℕ) : Prop where
  start : ∀ a, a < 2 * st.mAct → st'.startNode (s a) = st.startNode a
  first : ∀ v, v < st.nAct →
    (st'.first v = none ↔ ∀ a, a < 2 * st.mAct → st.startNode a ≠ some v)
  lists : ∀ v, v < st.nAct → ∀ f, st'.first v = some f → ∃ l, CircularList st'.right f l ∧
    ∀ c, c ∈ f :: l ↔ ∃ a, a < 2 * st.mAct ∧ st.startNode a = some v ∧ s a = c
  inverse : ∀ left, st'.left = some left → ∀ a, a < 2 * st.mAct → st'.startNode a ≠ none →
    ∃ b, st'.right a = some b ∧ left b = some a

section Ends

variable {a1 a2 c : ℕ}

/-- The start nodes that `SwapArcs` sets. -/
def exchangedStart (startNode : ℕ → Option ℕ) (a1 a2 : ℕ) : ℕ → Option ℕ :=
  update (update (update (update startNode a1
    (startNode a2)) a2 (startNode a1)) (rev a1) (startNode (rev a2))) (rev a2) (startNode (rev a1))

theorem rev_eq_iff {a b : ℕ} : rev a = b ↔ a = rev b := by
  constructor
  · rintro rfl
    rw [rev_rev]
  · rintro rfl
    rw [rev_rev]

theorem rev_facts (a b : ℕ) :
    rev a ≠ a ∧ rev b ≠ b ∧ (rev a = b ↔ a = rev b) ∧ (rev a = rev b ↔ a = b) :=
  ⟨rev_ne a, rev_ne b, rev_eq_iff, rev_injective, congrArg rev⟩

theorem exchange_exchange (a1 a2 c : ℕ) : exchange a1 a2 (exchange a1 a2 c) = c := by
  obtain ⟨ne1, ne2, eq1, inj⟩ := rev_facts a1 a2
  unfold exchange
  grind

theorem exchangedStart_apply (startNode : ℕ → Option ℕ) (distinct : a1 ≠ a2) (c : ℕ) :
    exchangedStart startNode a1 a2 c = startNode (exchange a1 a2 c) := by
  obtain ⟨ne1, ne2, eq1, inj⟩ := rev_facts a1 a2
  unfold exchangedStart exchange
  simp only [update_apply]
  grind

theorem exchange_eq_swap (flip : rev a2 = a1) (c : ℕ) : exchange a1 a2 c = swap a1 a2 c := by
  have ne2 := rev_ne a2
  have back : rev a1 = a2 := by rw [← flip, rev_rev]
  unfold exchange
  simp only [swap_apply_def]
  grind

theorem exchange_eq_swaps (apart : rev a2 ≠ a1) (c : ℕ) :
    exchange a1 a2 c = swap a1 a2 (swap (rev a1) (rev a2) c) := by
  obtain ⟨ne1, ne2, eq1, inj⟩ := rev_facts a1 a2
  unfold exchange
  simp only [swap_apply_def]
  grind

theorem exchange_rev (a1 a2 c : ℕ) : exchange a1 a2 (rev c) = rev (exchange a1 a2 c) := by
  obtain ⟨ne1, ne2, eq1, inj⟩ := rev_facts a1 a2
  obtain ⟨-, -, c1, c3⟩ := rev_facts c a1
  obtain ⟨-, -, c2, c4⟩ := rev_facts c a2
  have twice1 := rev_rev a1
  have twice2 := rev_rev a2
  unfold exchange
  grind

theorem exchange_self (a c : ℕ) : exchange a a c = c := by
  unfold exchange
  grind

theorem exchange_lt (low1 : a1 < 2 * st.mAct) (low2 : a2 < 2 * st.mAct) (low : c < 2 * st.mAct) :
    exchange a1 a2 c < 2 * st.mAct := by
  rw [exchange]
  split_ifs
  · exact low2
  · exact low1
  · exact rev_lt.2 low2
  · exact rev_lt.2 low1
  · exact low

end Ends

/-! ## The first arcs -/

/-- The first arcs are those of the new start nodes, but for the ones that satisfy `P`. -/
def FirstsBut (st : SparseState) (start first : ℕ → Option ℕ) (P : ℕ → Prop) : Prop :=
  (∀ v, first v = none ↔ st.first v = none) ∧ ∀ v f, v < st.nAct → first v = some f →
    f < 2 * st.mAct ∧ (start f = some v ∨ (st.startNode f = some v ∧ P f))

section Firsts

variable {start first : ℕ → Option ℕ} {P : ℕ → Prop} {u p q : ℕ}

theorem FirstsBut.move (firsts : st.FirstsBut start first P) (startP : st.startNode p = some u)
    (startQ : start q = some u) (lowQ : q < 2 * st.mAct) :
    ∃ first', moveFirst first (some u) p q = .ok first' ∧
      st.FirstsBut start first' fun f => P f ∧ f ≠ p := by
  obtain ⟨eq, firsts⟩ := firsts
  by_cases here : first u = some p
  · refine ⟨update first u (some q), ?_, fun v => ?_, fun v f low val => ?_⟩
    · simp only [moveFirst, defined, bind, Except.bind, pure, Except.pure, here, if_true]
    · by_cases atU : v = u
      · rw [atU, update_self, ← eq u, here]
        simp
      · rw [update_of_ne atU]
        exact eq v
    · rcases of_update val with ⟨atU, ⟨⟩⟩ | ⟨atU, val⟩
      · exact ⟨lowQ, .inl (atU ▸ startQ)⟩
      · refine (firsts v f low val).imp_right (Or.imp_right fun old => ⟨old.1, old.2, ?_⟩)
        rintro rfl
        exact atU (some.inj (old.1.symm.trans startP))
  · refine ⟨first, ?_, eq, fun v f low val => ?_⟩
    · simp only [moveFirst, defined, bind, Except.bind, pure, Except.pure, here, if_false]
    · refine (firsts v f low val).imp_right (Or.imp_right fun old => ⟨old.1, old.2, ?_⟩)
      rintro rfl
      have atU : v = u := some.inj (old.1.symm.trans startP)
      exact here (atU ▸ val)

theorem FirstsBut.keep (firsts : st.FirstsBut start first P)
    (kept : ∀ v, st.startNode p = some v → start p = some v) :
    st.FirstsBut start first fun f => P f ∧ f ≠ p := by
  refine ⟨firsts.1, fun v f low val => ?_⟩
  obtain ⟨lowF, new | ⟨old, inP⟩⟩ := firsts.2 v f low val
  · exact ⟨lowF, .inl new⟩
  · refine ⟨lowF, ?_⟩
    by_cases isP : f = p
    · rw [isP] at old ⊢
      exact .inl (kept v old)
    · exact .inr ⟨old, inP, isP⟩

end Firsts

/-! ## The lists of a consistent state -/

theorem IncidenceLists.rings (lists : st.IncidenceLists) : Rings st.right st.startNode st.Live := by
  rintro a ⟨low, present⟩
  obtain ⟨v, start⟩ := ne_none_iff_exists'.1 present
  have lowV := lists.nodes a low v start
  obtain ⟨f, first⟩ := ne_none_iff_exists'.1 fun none =>
    (lists.first v lowV).1 none a low start
  obtain ⟨l, ring, mem⟩ := lists.lists v lowV f first
  obtain ⟨k, ring', mem'⟩ := ring.startAt ((mem a).2 ⟨low, start⟩)
  refine ⟨k, ring', fun c => ?_⟩
  rw [mem', mem c, start]
  constructor
  · rintro ⟨lowC, startC⟩
    exact ⟨⟨lowC, by simp [startC]⟩, startC⟩
  · rintro ⟨⟨lowC, -⟩, startC⟩
    exact ⟨lowC, startC⟩

theorem IncidenceLists.back (lists : st.IncidenceLists) (left : ℕ → Option ℕ)
    (present : st.left = some left) : Back st.right left st.Live := by
  intro a b live next
  obtain ⟨b', next', before⟩ := lists.inverse left present a live
  rw [next] at next'
  cases next'
  exact before

theorem swapLinks_alloc (alloc : st.allocLeft = .ok ({ st with left := some left }, left)) :
    st.swapLinks x y = ({ st with left := some left } : SparseState).swapLinks x y := by
  have again : ({ st with left := some left } : SparseState).allocLeft =
      .ok ({ st with left := some left }, left) := rfl
  simp only [swapLinks, alloc, again]

/-- **What comes before the lists**: the first arcs follow, and the reverse links are there. -/
theorem swapArcs_eq (lists : st.IncidenceLists) {a1 a2 : ℕ} (low1 : a1 < 2 * st.mAct)
    (low2 : a2 < 2 * st.mAct) (distinct : a1 ≠ a2) :
    ∃ first left, st.swapArcs a1 a2 = (do
        let st ← ({ st with
          startNode := exchangedStart st.startNode a1 a2
          first := first
          left := some left } : SparseState).swapLinks a1 a2
        if rev a2 ≠ a1 then st.swapLinks (rev a1) (rev a2) else return st) ∧
      (∀ v, first v = none ↔ st.first v = none) ∧
      (∀ v f, v < st.nAct → first v = some f →
        f < 2 * st.mAct ∧ exchangedStart st.startNode a1 a2 f = some v) ∧
      Back st.right left st.Live ∧
      ∀ a, a < 2 * st.mAct → ¬ st.Live a → st.right a = none ∧ left a = none := by
  set start := exchangedStart st.startNode a1 a2 with startEq
  have dead : ∀ a, a < 2 * st.mAct → ¬ st.Live a → st.startNode a = none := by
    intro a low notLive
    by_contra present
    exact notLive ⟨low, present⟩
  have values : start a1 = st.startNode a2 ∧ start a2 = st.startNode a1 ∧
      start (rev a1) = st.startNode (rev a2) ∧ start (rev a2) = st.startNode (rev a1) := by
    obtain ⟨ne1, ne2, eq1, inj⟩ := rev_facts a1 a2
    simp only [startEq, exchangedStart_apply st.startNode distinct]
    unfold exchange
    grind
  obtain ⟨start1, start2, startRev1, startRev2⟩ := values
  have old : st.FirstsBut start st.first fun _ => True := by
    refine ⟨fun _ => Iff.rfl, fun v f low val => ?_⟩
    obtain ⟨l, -, mem⟩ := lists.lists v low f val
    obtain ⟨lowF, startF⟩ := (mem f).1 List.mem_cons_self
    exact ⟨lowF, .inr ⟨startF, trivial⟩⟩
  have paired1 := lists.paired a1 low1
  have paired2 := lists.paired a2 low2
  -- the first half of the updates
  have half1 : ∃ first, (if st.startNode a1 ≠ none then do
        let first ← moveFirst st.first (st.startNode a1) a1 a2
        moveFirst first (st.startNode (rev a1)) (rev a1) (rev a2)
      else .ok st.first) = .ok first ∧
      st.FirstsBut start first fun f => (True ∧ f ≠ a1) ∧ f ≠ rev a1 := by
    by_cases present : st.startNode a1 = none
    · have absent := paired1.1 present
      refine ⟨st.first, if_neg (not_not.2 present), (old.keep ?_).keep ?_⟩
      · intro v val
        rw [present] at val
        cases val
      · intro v val
        rw [absent] at val
        cases val
    · obtain ⟨u, atU⟩ := ne_none_iff_exists'.1 present
      obtain ⟨v, atV⟩ := ne_none_iff_exists'.1 fun none => present (paired1.2 none)
      obtain ⟨first1, moved1, firsts1⟩ := old.move atU (start2.trans atU) low2
      obtain ⟨first2, moved2, firsts2⟩ := firsts1.move atV (startRev2.trans atV) (rev_lt.2 low2)
      refine ⟨first2, ?_, firsts2⟩
      rw [if_pos present, atU, atV, moved1]
      exact moved2
  obtain ⟨first2, moved2, firsts2⟩ := half1
  -- the second half
  have half2 : ∃ first, (if st.startNode a2 ≠ none then do
        let first ← (if st.startNode a1 ≠ st.startNode a2 then
          moveFirst first2 (st.startNode a2) a2 a1 else .ok first2)
        if st.startNode (rev a1) ≠ st.startNode (rev a2) then
          moveFirst first (st.startNode (rev a2)) (rev a2) (rev a1) else .ok first
      else .ok first2) = .ok first ∧
      st.FirstsBut start first fun f =>
        (((True ∧ f ≠ a1) ∧ f ≠ rev a1) ∧ f ≠ a2) ∧ f ≠ rev a2 := by
    by_cases present : st.startNode a2 = none
    · have absent := paired2.1 present
      refine ⟨first2, if_neg (not_not.2 present), (firsts2.keep ?_).keep ?_⟩
      · intro v val
        rw [present] at val
        cases val
      · intro v val
        rw [absent] at val
        cases val
    obtain ⟨u, atU⟩ := ne_none_iff_exists'.1 present
    obtain ⟨v, atV⟩ := ne_none_iff_exists'.1 fun none => present (paired2.2 none)
    have third : ∃ first, (if st.startNode a1 ≠ st.startNode a2 then
          moveFirst first2 (st.startNode a2) a2 a1 else .ok first2) = .ok first ∧
        st.FirstsBut start first fun f => ((True ∧ f ≠ a1) ∧ f ≠ rev a1) ∧ f ≠ a2 := by
      by_cases eq : st.startNode a1 = st.startNode a2
      · refine ⟨first2, if_neg (not_not.2 eq), firsts2.keep fun v val => ?_⟩
        rw [start2, eq, val]
      · rw [if_pos eq, atU]
        exact firsts2.move atU (start1.trans atU) low1
    obtain ⟨first3, moved3, firsts3⟩ := third
    rw [if_pos present, moved3]
    simp only [bind, Except.bind]
    by_cases eq : st.startNode (rev a1) = st.startNode (rev a2)
    · refine ⟨first3, if_neg (not_not.2 eq), firsts3.keep fun v val => ?_⟩
      rw [startRev2, eq, val]
    · rw [if_pos eq, atV]
      exact firsts3.move atV (startRev1.trans atV) (rev_lt.2 low1)
  obtain ⟨first, moved, firsts⟩ := half2
  obtain ⟨left, alloc, back, unlinked⟩ := @allocLeft_back
    { st with startNode := start, first := first } st.Live _ lists.rings lists.back
    (fun _ a low notLive => (lists.cancelled a low (dead a low notLive)).1) fun a live => live.1
  refine ⟨first, left, ?_, firsts.1, fun v f low val => ?_, back, fun a low notLive => ?_⟩
  · rw [swapArcs, if_neg (not_le.2 low1), if_neg (not_le.2 low2), if_neg distinct]
    simp only [bind, Except.bind] at moved2 moved ⊢
    rw [moved2]
    dsimp only
    rw [moved]
    dsimp only
    rw [← exchangedStart, ← startEq, swapLinks_alloc alloc]
  · obtain ⟨lowF, new | ⟨unchanged, ⟨⟨⟨-, not1⟩, notRev1⟩, not2⟩, notRev2⟩⟩ :=
      firsts.2 v f low val
    · exact ⟨lowF, new⟩
    · refine ⟨lowF, ?_⟩
      rw [startEq, exchangedStart_apply st.startNode distinct, exchange, if_neg not1, if_neg not2,
        if_neg notRev1, if_neg notRev2]
      exact unchanged
  · have unlinked' := lists.cancelled a low (dead a low notLive)
    exact ⟨unlinked'.1, unlinked a notLive unlinked'.2⟩

/-! ## The whole procedure -/

section Whole

variable {a1 a2 : ℕ} {first : ℕ → Option ℕ}

theorem live_exchange (low1 : a1 < 2 * st.mAct) (low2 : a2 < 2 * st.mAct) :
    st.Live (exchange a1 a2 c) ↔ c < 2 * st.mAct ∧ st.startNode (exchange a1 a2 c) ≠ none := by
  refine and_congr_left fun _ => ⟨fun low => ?_, exchange_lt low1 low2⟩
  have back := exchange_lt low1 low2 low
  rwa [exchange_exchange] at back

section

variable (lists : st.IncidenceLists) (low1 : a1 < 2 * st.mAct) (low2 : a2 < 2 * st.mAct)
  (distinct : a1 ≠ a2)
include lists low1 low2 distinct

theorem renamed_of_rings (empty : ∀ v, first v = none ↔ st.first v = none)
    (firsts : ∀ v f, v < st.nAct → first v = some f →
      f < 2 * st.mAct ∧ exchangedStart st.startNode a1 a2 f = some v)
    (rings : Rings right' (fun c => st.startNode (exchange a1 a2 c))
      fun c => st.Live (exchange a1 a2 c))
    (back : Back right' left' fun c => st.Live (exchange a1 a2 c)) :
    ArcsRenamed st { st with
      startNode := exchangedStart st.startNode a1 a2
      first := first
      right := right'
      left := some left' } (exchange a1 a2) := by
  have start : ∀ c, exchangedStart st.startNode a1 a2 c = st.startNode (exchange a1 a2 c) :=
    exchangedStart_apply st.startNode distinct
  refine ⟨fun a _ => ?_, fun v low => ?_, fun v low f val => ?_, fun left present a low start' => ?_⟩
  · exact (start _).trans (congrArg st.startNode (exchange_exchange a1 a2 a))
  · exact (empty v).trans (lists.first v low)
  · obtain ⟨lowF, startF⟩ := firsts v f low val
    rw [start] at startF
    obtain ⟨l, ring, mem⟩ := rings f ((live_exchange low1 low2).2 ⟨lowF, by simp [startF]⟩)
    refine ⟨l, ring, fun c => ?_⟩
    rw [mem c]
    dsimp only
    rw [startF]
    constructor
    · rintro ⟨live, startC⟩
      exact ⟨_, live.1, startC, exchange_exchange a1 a2 c⟩
    · rintro ⟨a, lowA, startA, rfl⟩
      rw [exchange_exchange]
      exact ⟨⟨lowA, by simp [startA]⟩, startA⟩
  · cases present
    have live : st.Live (exchange a1 a2 a) :=
      (live_exchange low1 low2).2 ⟨low, fun none => start' ((start a).trans none)⟩
    obtain ⟨b, next, -, -⟩ := rings.next live
    exact ⟨b, next, back a b live next⟩

section

variable (matched : st.Live a1 → st.Live a2 → (st.right a1 = some a1 ↔ st.right a2 = some a2))
  (matched' : st.Live (rev a1) → st.Live (rev a2) → (st.right (rev a1) = some (rev a1) ↔ st.right
  (rev a2) = some (rev a2)))
include matched matched'

/-- **`SwapArcs` exchanges the arcs** if at every end both arcs are alone or neither is, as far as
they are linked. A cancelled arc has links afterwards only if the one of this name has been alone. -/
theorem swapArcs_exchanged : ∃ first right' left', st.swapArcs a1 a2 = .ok { st with
        startNode := exchangedStart st.startNode a1 a2
        first := first
        right := right'
        left := some left' } ∧
      (∀ v, first v = none ↔ st.first v = none) ∧
      (∀ v f, v < st.nAct → first v = some f →
        f < 2 * st.mAct ∧ exchangedStart st.startNode a1 a2 f = some v) ∧
      Rings right' (fun c => st.startNode (exchange a1 a2 c))
        (fun c => st.Live (exchange a1 a2 c)) ∧
      Back right' left' (fun c => st.Live (exchange a1 a2 c)) ∧
      ∀ c, c < 2 * st.mAct → ¬ st.Live (exchange a1 a2 c) → st.right c ≠ some c →
        right' c = none ∧ left' c = none := by
  obtain ⟨first, left, res, empty, firsts, back, unlinked⟩ := swapArcs_eq lists low1 low2 distinct
  set st0 : SparseState := { st with
    startNode := exchangedStart st.startNode a1 a2
    first := first
    left := some left } with st0Eq
  obtain ⟨right1, left1, res1, exchanged1⟩ := @swapLinks_exchanges st0 st.Live st.startNode left
    a1 a2 lists.rings back rfl distinct (unlinked a1 low1) (unlinked a2 low2) matched
  by_cases flip : rev a2 = a1
  · have names : exchange a1 a2 = swap a1 a2 := funext (exchange_eq_swap flip)
    rw [names]
    refine ⟨first, right1, left1, ?_, empty, firsts, exchanged1.rings, exchanged1.back,
      fun c low dead => exchanged1.unlinked c dead (unlinked c low)⟩
    rw [res, res1]
    simp only [bind, Except.bind, flip, ne_eq, not_true_eq_false, if_false]
    rfl
  · have apart1 : rev a1 ≠ a2 := fun eq => flip (by rw [← eq, rev_rev])
    have fixed1 : swap a1 a2 (rev a1) = rev a1 :=
      swap_apply_of_ne_of_ne (rev_ne a1) apart1
    have fixed2 : swap a1 a2 (rev a2) = rev a2 := swap_apply_of_ne_of_ne flip (rev_ne a2)
    have low1' : rev a1 < 2 * st.mAct := rev_lt.2 low1
    have low2' : rev a2 < 2 * st.mAct := rev_lt.2 low2
    -- the other arcs are alone if they have been alone before
    have alone : ∀ c, c < 2 * st.mAct → c ≠ a1 → c ≠ a2 →
        (right1 c = some c ↔ st.right c = some c) := by
      intro c low not1 not2
      by_cases live : st.Live c
      · exact exchanged1.alone_iff lists.rings not1 not2 live
      · rw [(unlinked c low live).1, (exchanged1.kept not1 not2 live (unlinked c low live)).1]
    have alone1 := alone _ low1' (rev_ne a1) apart1
    have alone2 := alone _ low2' flip (rev_ne a2)
    have unlinked1 : ∀ c, c < 2 * st.mAct → st.right c ≠ some c →
        ¬ st.Live (swap a1 a2 c) → right1 c = none ∧ left1 c = none :=
      fun c low longer dead => exchanged1.unlinked c dead (unlinked c low) longer
    obtain ⟨right2, left2, res2, exchanged2⟩ := @swapLinks_exchanges
      { st0 with right := right1, left := some left1 } (fun c => st.Live (swap a1 a2 c))
      (fun c => st.startNode (swap a1 a2 c)) left1 (rev a1) (rev a2) exchanged1.rings
      exchanged1.back rfl (fun eq => distinct (rev_injective eq))
      (fun dead => exchanged1.kept (rev_ne a1) apart1 (fixed1 ▸ dead)
        (unlinked _ low1' (fixed1 ▸ dead)))
      (fun dead => exchanged1.kept flip (rev_ne a2) (fixed2 ▸ dead)
        (unlinked _ low2' (fixed2 ▸ dead)))
      (by
        rw [fixed1, fixed2]
        exact fun live1 live2 => alone1.trans ((matched' live1 live2).trans alone2.symm))
    have names : ∀ c, exchange a1 a2 c = swap a1 a2 (swap (rev a1) (rev a2) c) :=
      exchange_eq_swaps flip
    refine ⟨first, right2, left2, ?_, empty, firsts, ?_, ?_, fun c low dead longer => ?_⟩
    · rw [res, res1]
      simp only [bind, Except.bind, flip, ne_eq, not_false_eq_true, if_true]
      exact res2
    · simp only [names]
      exact exchanged2.rings
    · simp only [names]
      exact exchanged2.back
    · rw [names] at dead
      refine exchanged2.unlinked c dead (unlinked1 c low longer) fun alone₁ => ?_
      by_cases ends : c = a1 ∨ c = a2
      · have fixed : swap (rev a1) (rev a2) c = c := by
          rcases ends with isEnd | isEnd
          · rw [isEnd, swap_apply_of_ne_of_ne (rev_ne a1).symm (Ne.symm flip)]
          · rw [isEnd, swap_apply_of_ne_of_ne (Ne.symm apart1) (rev_ne a2).symm]
        rw [fixed] at dead
        cases alone₁.symm.trans (unlinked1 c low longer dead).1
      · obtain ⟨not1, not2⟩ := not_or.1 ends
        exact longer ((alone c low not1 not2).1 alone₁)

theorem swapArcs_exchanges :
    ∃ st', st.swapArcs a1 a2 = .ok st' ∧ st'.nAct = st.nAct ∧ st'.mAct = st.mAct ∧
      ArcsRenamed st st' (exchange a1 a2) ∧
      ∀ c, c < 2 * st.mAct → ¬ st.Live (exchange a1 a2 c) → st.right c ≠ some c →
        st'.right c = none ∧ ∀ left, st'.left = some left → left c = none := by
  obtain ⟨first, right', left', res, empty, firsts, rings, back, clear⟩ :=
    swapArcs_exchanged lists low1 low2 distinct matched matched'
  refine ⟨_, res, rfl, rfl, renamed_of_rings lists low1 low2 distinct empty firsts rings back,
    fun c low dead longer => ⟨(clear c low dead longer).1, fun left present => ?_⟩⟩
  cases present
  exact (clear c low dead longer).2

end

end

/-! ## The last arc -/

/-- The arc that has the index `b` after the last edge `y` has moved to the place of `x`. -/
def movedArc (x y b : ℕ) : ℕ := if b = x then y else if b = rev x then rev y else b

theorem swapArcs_released (sound : st.Sound) (lowX : x < 2 * st.mAct) (even : x % 2 = 0)
    (dead : st.startNode x = none) :
    ∃ st', st.swapArcs x (2 * st.mAct - 2) = .ok st' ∧ SameSize st st' ∧ (∀ b, b < 2 * st.mAct - 2 →
        st'.startNode b = st.startNode (movedArc x (2 * st.mAct - 2) b)) ∧
      ({ st' with mAct := st'.mAct - 1 } : SparseState).Sound := by
  have revX : rev x = x + 1 := by rw [rev_eq, if_pos even]
  have revY : rev (2 * st.mAct - 2) = 2 * st.mAct - 2 + 1 := by rw [rev_eq, if_pos (by omega)]
  by_cases isLast : x = 2 * st.mAct - 2
  · refine ⟨st, ?_, .refl st, fun b low => ?_, sound.dropLast (isLast ▸ dead) (by omega)⟩
    · rw [swapArcs, if_neg (by omega), if_neg (by omega), if_pos isLast]
    · rw [movedArc, if_neg (by omega), if_neg (by omega)]
  generalize isY : 2 * st.mAct - 2 = y at *
  have lowY : y < 2 * st.mAct := by omega
  have dead' := (sound.paired x lowX).1 dead
  have absent : ¬ st.Live x := fun live => live.2 dead
  have absent' : ¬ st.Live (rev x) := fun live => live.2 dead'
  obtain ⟨first, right', left', res, empty, firsts, rings, back, clear⟩ :=
    swapArcs_exchanged sound.incidenceLists lowX lowY isLast (fun live => absurd live absent)
      fun live => absurd live absent'
  have start := exchangedStart_apply st.startNode isLast
  have nameY : exchange x y y = x := by rw [exchange, if_neg (Ne.symm isLast), if_pos rfl]
  have nameY' : exchange x y (rev y) = rev x := by rw [exchange_rev, nameY]
  -- the last edge has the name of the cancelled one now
  have live : ∀ c, ({ st with
        mAct := st.mAct - 1
        startNode := exchangedStart st.startNode x y
        first := first
        right := right'
        left := some left' } : SparseState).Live c ↔ st.Live (exchange x y c) := by
    intro c
    rw [live_exchange lowX lowY, Live]
    dsimp only
    rw [start]
    refine and_congr_left fun present => ⟨fun low => by omega, fun low => ?_⟩
    have notY : c ≠ y := by
      rintro rfl
      rw [nameY] at present
      exact present dead
    have notY' : c ≠ rev y := by
      rintro rfl
      rw [nameY'] at present
      exact present dead'
    omega
  refine ⟨_, res, ⟨rfl, rfl, rfl, rfl, rfl, rfl⟩, fun b low => ?_,
    Linked.congr ⟨?_, ?_, ?_, ?_, ?_, sound.linked.capacity, ?_⟩ live, Clean.congr ?_ live, ?_⟩
  · dsimp only
    rw [start, exchange, movedArc, if_neg (by omega : b ≠ y), if_neg (by omega : b ≠ rev y)]
  · intro c inC
    dsimp only
    rw [start]
    exact sound.linked.node _ inC
  · dsimp only
    rw [funext start]
    exact rings
  · intro left eq
    cases eq
    exact back
  · intro v low none c inC
    dsimp only
    rw [start]
    exact sound.linked.firstNone v low ((empty v).1 none) _ inC
  · intro v low f val
    obtain ⟨lowF, startF⟩ := firsts v f low val
    refine ⟨(live_exchange lowX lowY).2 ⟨lowF, ?_⟩, startF⟩
    rw [← start, startF]
    exact some_ne_none v
  · intro v high low
    exact (empty v).2 (sound.linked.spare v high low)
  · intro c low out
    dsimp only at low
    have unlinked : st.right c ≠ some c := by
      intro alone
      have inC : st.Live c := by
        by_contra notLive
        rw [(sound.clean c (by omega) notLive).1] at alone
        cases alone
      have eq : exchange x y c = c := by
        rw [exchange, if_neg (by rintro rfl; exact absent inC), if_neg (by omega),
          if_neg (by rintro rfl; exact absent' inC), if_neg (by omega)]
      apply out
      rwa [eq]
    obtain ⟨right, left⟩ := clear c (by omega) out unlinked
    refine ⟨right, fun left'' eq => ?_⟩
    cases eq
    exact left
  · intro c low
    dsimp only at low ⊢
    rw [start, start, exchange_rev]
    exact sound.paired _ (exchange_lt lowX lowY (by omega))

end Whole

end SparseState

end Goblin
