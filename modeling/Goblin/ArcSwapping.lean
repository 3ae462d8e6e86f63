import Goblin.SparseRuns

/-!
# Renaming arcs

`SwapArcs` is a renaming of the arcs unless, at one end, exactly one of the two arcs is alone in its
list.

In that case the neighbours of the arc in the longer list are not redirected: the block that sets
them is skipped because the other arc is alone. The arc that has been alone is then linked to the
other one, which has another start node or none at all (`swapLinks_alone`), and this link stays
(`swapLinks_keeps`).
-/

set_option autoImplicit false

namespace Goblin

open Library Function

variable {links links' : (ℕ → Option ℕ) × (ℕ → Option ℕ)} {a1 a2 c : ℕ} {a1l a1r a2l a2r : Option ℕ}

namespace SparseState

variable {st st' : SparseState} {D : ℕ → Prop} {group left right' left' : ℕ → Option ℕ} {x y : ℕ}

/-! ## One end -/

/-- **One end**, if exactly one of the two arcs is alone: it is linked to the other one, and no
arc precedes it. -/
theorem swapLinks_alone {bound : ℕ} (rings : Rings st.right group D)
    (back : Back st.right left D) (present : st.left = some left) (ne : x ≠ y) (inX : D x)
    (lowY : y < bound) (unlinked : ∀ c, c < bound → ¬ D c → left c ≠ some x)
    (alone : st.right x = some x) (longer : st.right y ≠ some y) :
    (∃ right' left', st.swapLinks x y = .ok { st with right := right', left := some left' } ∧
      right' x = some y ∧ ∀ c, c < bound → left' c ≠ some x) ∧
    ∃ right' left', st.swapLinks y x = .ok { st with right := right', left := some left' } ∧
      right' x = some y ∧ ∀ c, c < bound → left' c ≠ some x := by
  have leftX := back x x inX alone
  have only : ∀ c, c < bound → left c = some x → c = x := by
    intro c low before
    have inC : D c := by
      by_contra outside
      exact unlinked c low outside before
    have next := (back.unique rings inC before).2
    rw [alone] at next
    exact (Option.some.inj next).symm
  have notX : left x ≠ some y := by
    rw [leftX]
    exact fun eq => ne (Option.some.inj eq)
  have notY : left y ≠ some x := fun before => ne (only y lowY before).symm
  constructor
  · refine ⟨_, _, swapLinks_congr present ⟨notX, notY⟩ (by
      simp only [takeLinks, alone, leftX, longer, if_false, if_true, defined, bind, Except.bind,
        pure, Except.pure]
      rfl), ?_, fun c low => ?_⟩
    · exact (update_of_ne ne _ _).trans (update_self _ _ _)
    · by_cases isY : c = y
      · rw [isY, update_self]
        exact fun eq => ne (Option.some.inj eq).symm
      rw [update_of_ne isY]
      by_cases isX : c = x
      · rw [isX, update_self]
        exact fun eq => ne (Option.some.inj eq).symm
      · rw [update_of_ne isX, update_of_ne isX]
        exact fun before => isX (only c low before)
  · refine ⟨_, _, swapLinks_congr present ⟨notY, notX⟩ (by
      simp only [takeLinks, alone, leftX, longer, if_false, if_true, defined, bind, Except.bind,
        pure, Except.pure]
      rfl), ?_, fun c low => ?_⟩
    · exact update_self _ _ _
    · by_cases isX : c = x
      · rw [isX, update_self]
        exact fun eq => ne (Option.some.inj eq).symm
      rw [update_of_ne isX, update_of_ne isX]
      by_cases isY : c = y
      · rw [isY, update_self]
        exact fun eq => ne (Option.some.inj eq).symm
      · rw [update_of_ne isY]
        exact fun before => isX (only c low before)

theorem takeLinks_keeps (result : takeLinks links a1 a2 a1l a1r a2l a2r = .ok links')
    (other : c ≠ a1) (notLeft : a1l ≠ some c) : links'.2 c = links.2 c := by
  rw [takeLinks] at result
  split_ifs at result with alone
  · cases result
    exact update_of_ne other _ _
  cases next : a1r with
  | none =>
    rw [next] at result
    cases result
    exact update_of_ne other _ _
  | some r =>
    rw [next] at result
    cases before : a1l with
    | none =>
      rw [before] at result
      cases result
    | some l =>
      rw [before] at result
      cases result
      have notL : c ≠ l := fun eq => notLeft (eq ▸ before)
      exact (update_of_ne notL _ _).trans (update_of_ne other _ _)

theorem swapLinks_keeps (present : st.left = some left) (result : st.swapLinks x y = .ok st')
    (notX : c ≠ x) (notY : c ≠ y) (freeX : left x ≠ some c)
    (freeY : left y ≠ some c) : st'.right c = st.right c := by
  have alloc : st.allocLeft = .ok (st, left) := by rw [allocLeft, present]
  simp only [swapLinks, alloc, bind, Except.bind] at result
  split_ifs at result with apart
  · split at result
    · cases result
    rename_i first result1
    split at result
    · cases result
    · rename_i second result2
      cases result
      exact (takeLinks_keeps result2 notY freeY).trans (takeLinks_keeps result1 notX freeX)
  · cases result
    rfl

theorem takeLinks_returns (links : (ℕ → Option ℕ) × (ℕ → Option ℕ)) (a1 a2 : ℕ) (a2l a2r : Option ℕ)
    (both : a1r ≠ none → a1l ≠ none) :
    ∃ links', takeLinks links a1 a2 a1l a1r a2l a2r = .ok links' := by
  rw [takeLinks]
  split_ifs
  · exact ⟨_, rfl⟩
  cases next : a1r with
  | none => exact ⟨_, rfl⟩
  | some r =>
    obtain ⟨l, before⟩ := Option.ne_none_iff_exists'.1 (both (by simp [next]))
    rw [before]
    exact ⟨_, rfl⟩

theorem swapLinks_returns (present : st.left = some left) (bothX : st.right x ≠ none → left x ≠ none)
    (bothY : st.right y ≠ none → left y ≠ none) : ∃ st', st.swapLinks x y = .ok st' := by
  by_cases apart : left x ≠ some y ∧ left y ≠ some x
  · obtain ⟨links1, res1⟩ :=
      takeLinks_returns (left, st.right) x y (left y) (st.right y) bothX
    obtain ⟨⟨left', right'⟩, res2⟩ := takeLinks_returns links1 y x (left x) (st.right x) bothY
    have taken : (do
        let links ← takeLinks (left, st.right) x y (left x) (st.right x) (left y) (st.right y)
        takeLinks links y x (left y) (st.right y) (left x) (st.right x)) = .ok (left', right') := by
      rw [res1]
      exact res2
    exact ⟨_, swapLinks_congr present apart taken⟩
  · refine ⟨st, swapLinks_adjacent present ?_⟩
    by_contra neither
    exact apart (not_or.1 neither)

section

variable (result : takeLinks links a1 a2 a1l a1r a2l a2r = .ok links') (other : c ≠ a1)
include result other

theorem takeLinks_left (linked : links.1 c ≠ none) : links'.1 c ≠ none := by
  rw [takeLinks] at result
  split_ifs at result with alone
  · cases result
    dsimp only
    rwa [update_of_ne other]
  cases next : a1r with
  | none =>
    rw [next] at result
    cases result
    dsimp only
    rwa [update_of_ne other]
  | some r =>
    rw [next] at result
    cases before : a1l with
    | none =>
      rw [before] at result
      cases result
    | some l =>
      rw [before] at result
      cases result
      dsimp only
      by_cases here : c = r
      · rw [here, update_self]
        simp
      · rwa [update_of_ne here, update_of_ne other]

theorem takeLinks_right (linked : links'.2 c ≠ none) : links.2 c ≠ none ∨ a1l = some c := by
  by_cases before : a1l = some c
  · exact .inr before
  · rw [takeLinks_keeps result other before] at linked
    exact .inl linked

end

/-! ## The whole procedure -/

section Whole

variable {a1 a2 : ℕ}

theorem swapLinks_mAct (present : st.left = some left) (result : st.swapLinks x y = .ok st') :
    st'.mAct = st.mAct := by
  have alloc : st.allocLeft = .ok (st, left) := by rw [allocLeft, present]
  simp only [swapLinks, alloc, bind, Except.bind] at result
  split_ifs at result
  · split at result
    · cases result
    · split at result
      · cases result
      · cases result
        rfl
  · cases result
    rfl

section

variable (lists : st.IncidenceLists) (low1 : a1 < 2 * st.mAct) (low2 : a2 < 2 * st.mAct)
include lists low1 low2

/-- **`SwapArcs` returns**, even where it spoils the lists. -/
theorem swapArcs_returns : ∃ st', st.swapArcs a1 a2 = .ok st' := by
  by_cases ne : a1 = a2
  · refine ⟨st, ?_⟩
    rw [swapArcs, if_neg (not_le.2 low1), if_neg (not_le.2 low2), if_pos ne]
  obtain ⟨first, left, equation, -, -, back, unlinked⟩ := swapArcs_eq lists low1 low2 ne
  rw [equation]
  set st0 : SparseState := { st with
    startNode := exchangedStart st.startNode a1 a2
    first := first
    left := some left } with st0Eq
  have both : ∀ c, c < 2 * st.mAct → st.right c ≠ none → left c ≠ none := by
    intro c low linked
    have live : st.Live c := by
      by_contra dead
      exact linked (unlinked c low dead).1
    obtain ⟨y, before, inY, -⟩ := lists.rings.previous live
    rw [back y c inY before]
    simp
  -- the arc before an arc is linked
  have onward : ∀ c d, c < 2 * st.mAct → left c = some d → d < 2 * st.mAct ∧ left d ≠ none := by
    intro c d low before
    have live : st.Live c := by
      by_contra dead
      rw [(unlinked c low dead).2] at before
      cases before
    obtain ⟨inD, next⟩ := back.unique lists.rings live before
    exact ⟨inD.1, both d inD.1 (by simp [next])⟩
  obtain ⟨st1, result1⟩ := @swapLinks_returns st0 left a1 a2 rfl (both a1 low1) (both a2 low2)
  have later : ∃ left1, st1.left = some left1 ∧ ∀ c, c < 2 * st.mAct → c ≠ a1 → c ≠ a2 →
      st1.right c ≠ none → left1 c ≠ none := by
    have alloc : st0.allocLeft = .ok (st0, left) := rfl
    have result := result1
    simp only [swapLinks, alloc, bind, Except.bind] at result
    split_ifs at result with apart
    · split at result
      · cases result
      rename_i links1 taken1
      split at result
      · cases result
      rename_i links2 taken2
      cases result
      refine ⟨links2.1, rfl, fun c low not1 not2 linked => ?_⟩
      have old : left c ≠ none := by
        rcases takeLinks_right taken2 not2 linked with linked1 | before
        · rcases takeLinks_right taken1 not1 linked1 with linked0 | before
          · exact both c low linked0
          · exact (onward a1 c low1 before).2
        · exact (onward a2 c low2 before).2
      exact takeLinks_left taken2 not2 (takeLinks_left taken1 not1 old)
    · cases result
      exact ⟨left, rfl, fun c low _ _ => both c low⟩
  obtain ⟨left1, present1, both1⟩ := later
  rw [result1]
  simp only [bind, Except.bind]
  by_cases flip : rev a2 = a1
  · simp only [flip, ne_eq, not_true_eq_false, if_false]
    exact ⟨st1, rfl⟩
  · simp only [flip, ne_eq, not_false_eq_true, if_true]
    have apart1 : rev a1 ≠ a2 := fun eq => flip (by rw [← eq, rev_rev])
    exact swapLinks_returns present1 (both1 _ (rev_lt.2 low1) (rev_ne a1) apart1)
      (both1 _ (rev_lt.2 low2) flip (rev_ne a2))

/-- The arc `z` is alone, the arc whose name it takes is not, and then its link is wrong. -/
def Misplaced (st st' : SparseState) (a1 a2 z : ℕ) : Prop :=
  z < 2 * st.mAct ∧ st.right z = some z ∧ st.right (exchange a1 a2 z) ≠ some (exchange a1 a2 z) ∧
    st'.right z = some (exchange a1 a2 z)

/-- Otherwise an arc is linked to the one that has taken its name. -/
theorem swapArcs_misplaced (ne : a1 ≠ a2) (result : st.swapArcs a1 a2 = .ok st')
    (mismatch : ¬ ((st.right a1 = some a1 ↔ st.right a2 = some a2) ∧
      (st.right (rev a1) = some (rev a1) ↔ st.right (rev a2) = some (rev a2)))) :
    st'.mAct = st.mAct ∧ ∃ z, st.Misplaced st' a1 a2 z := by
  obtain ⟨first, left, equation, -, -, back, unlinked⟩ := swapArcs_eq lists low1 low2 ne
  rw [equation] at result
  set st0 : SparseState := { st with
    startNode := exchangedStart st.startNode a1 a2
    first := first
    left := some left } with st0Eq
  have liveOf : ∀ {c}, c < 2 * st.mAct → st.right c = some c → st.Live c := by
    intro c low alone
    by_contra dead
    rw [(unlinked c low dead).1] at alone
    cases alone
  have free : ∀ {c x}, c < 2 * st.mAct → ¬ st.Live c → left c ≠ some x := by
    intro c x low dead before
    rw [(unlinked c low dead).2] at before
    cases before
  have name1 : exchange a1 a2 a1 = a2 := if_pos rfl
  have name2 : exchange a1 a2 a2 = a1 := by
    rw [exchange, if_neg ne.symm, if_pos rfl]
  by_cases both : st.right a1 = some a1 ↔ st.right a2 = some a2
  · have apart : rev a2 ≠ a1 := by
      intro flip
      have flip' : rev a1 = a2 := by rw [← flip, rev_rev]
      refine mismatch ⟨both, ?_⟩
      rw [flip, flip']
      exact both.symm
    have apart1 : rev a1 ≠ a2 := fun eq => apart (by rw [← eq, rev_rev])
    have low1' : rev a1 < 2 * st.mAct := rev_lt.2 low1
    have low2' : rev a2 < 2 * st.mAct := rev_lt.2 low2
    have fixed1 : Equiv.swap a1 a2 (rev a1) = rev a1 :=
      Equiv.swap_apply_of_ne_of_ne (rev_ne a1) apart1
    have fixed2 : Equiv.swap a1 a2 (rev a2) = rev a2 :=
      Equiv.swap_apply_of_ne_of_ne apart (rev_ne a2)
    have name1 : exchange a1 a2 (rev a1) = rev a2 := by
      rw [exchange_eq_swaps apart, Equiv.swap_apply_left, fixed2]
    have name2 : exchange a1 a2 (rev a2) = rev a1 := by
      rw [exchange_eq_swaps apart, Equiv.swap_apply_right, fixed1]
    obtain ⟨right1, left1, result1, exchanged1⟩ := @swapLinks_exchanges st0 st.Live st.startNode
      left a1 a2 lists.rings back rfl ne (unlinked a1 low1) (unlinked a2 low2)
      fun _ _ => both
    have unlinked1 := exchanged1.clear unlinked low1 low2 both
    have alone : ∀ {c}, c < 2 * st.mAct → c ≠ a1 → c ≠ a2 →
        (right1 c = some c ↔ st.right c = some c) := by
      intro c low not1 not2
      by_cases live : st.Live c
      · exact exchanged1.alone_iff lists.rings not1 not2 live
      · rw [(unlinked c low live).1, (exchanged1.kept not1 not2 live (unlinked c low live)).1]
    have alone1 := alone low1' (rev_ne a1) apart1
    have alone2 := alone low2' apart (rev_ne a2)
    rw [result1] at result
    simp only [bind, Except.bind, apart, ne_eq, not_false_eq_true, if_true] at result
    have free1 : ∀ x c, c < 2 * st.mAct → ¬ st.Live (Equiv.swap a1 a2 c) → left1 c ≠ some x := by
      intro x c low dead before
      rw [(unlinked1 c low dead).2] at before
      cases before
    have revs : rev a1 ≠ rev a2 := fun eq => ne (rev_injective eq)
    by_cases is1 : st.right (rev a1) = some (rev a1)
    · have not2 : st.right (rev a2) ≠ some (rev a2) := fun is2 =>
        mismatch ⟨both, iff_of_true is1 is2⟩
      obtain ⟨⟨right2, left2, result2, link, -⟩, -⟩ := @swapLinks_alone
        { st0 with right := right1, left := some left1 } _ _ left1 _ _ (2 * st.mAct)
        exchanged1.rings exchanged1.back rfl revs (by rw [fixed1]; exact liveOf low1' is1) low2'
        (free1 _) (alone1.2 is1) fun is2 => not2 (alone2.1 is2)
      rw [result2] at result
      cases result
      refine ⟨rfl, rev a1, low1', is1, ?_, ?_⟩
      · rw [name1]
        exact not2
      · rw [name1]
        exact link
    · have is2 : st.right (rev a2) = some (rev a2) := by
        by_contra not2
        exact mismatch ⟨both, iff_of_false is1 not2⟩
      obtain ⟨-, right2, left2, result2, link, -⟩ := @swapLinks_alone
        { st0 with right := right1, left := some left1 } _ _ left1 _ _ (2 * st.mAct)
        exchanged1.rings exchanged1.back rfl revs.symm (by rw [fixed2]; exact liveOf low2' is2)
        low1' (free1 _) (alone2.2 is2) fun is1' => is1 (alone1.1 is1')
      rw [result2] at result
      cases result
      refine ⟨rfl, rev a2, low2', is2, ?_, ?_⟩
      · rw [name2]
        exact is1
      · rw [name2]
        exact link
  · -- the link that the first step sets wrongly stays
    have later : ∀ {right1 left1 : ℕ → Option ℕ} {z w : ℕ}, z = a1 ∨ z = a2 →
        st0.swapLinks a1 a2 = .ok { st0 with right := right1, left := some left1 } →
        right1 z = some w → (∀ c, c < 2 * st.mAct → left1 c ≠ some z) →
        st'.mAct = st.mAct ∧ st'.right z = some w := by
      intro right1 left1 z w isEnd result1 link free1
      rw [result1] at result
      simp only [bind, Except.bind] at result
      by_cases apart : rev a2 = a1
      · simp only [apart, ne_eq, not_true_eq_false, if_false] at result
        cases result
        exact ⟨rfl, link⟩
      simp only [apart, ne_eq, not_false_eq_true, if_true] at result
      have apart1 : rev a1 ≠ a2 := fun eq => apart (by rw [← eq, rev_rev])
      have others : z ≠ rev a1 ∧ z ≠ rev a2 := by
        rcases isEnd with rfl | rfl
        · exact ⟨(rev_ne z).symm, fun eq => apart eq.symm⟩
        · exact ⟨fun eq => apart1 eq.symm, (rev_ne z).symm⟩
      have size := @swapLinks_mAct { st0 with right := right1, left := some left1 } st' left1 _ _
        rfl result
      refine ⟨size, ?_⟩
      exact (swapLinks_keeps rfl result others.1 others.2 (free1 _ (rev_lt.2 low1))
        (free1 _ (rev_lt.2 low2))).trans link
    by_cases is1 : st.right a1 = some a1
    · have not2 : st.right a2 ≠ some a2 := fun is2 => both (iff_of_true is1 is2)
      obtain ⟨⟨right1, left1, result1, link, free1⟩, -⟩ := @swapLinks_alone st0 _ _ left _ _
        (2 * st.mAct) lists.rings back rfl ne (liveOf low1 is1) low2 (fun c => free) is1 not2
      obtain ⟨size, link'⟩ := later (.inl rfl) result1 link free1
      refine ⟨size, a1, low1, is1, ?_, ?_⟩
      · rw [name1]
        exact not2
      · rw [name1]
        exact link'
    · have is2 : st.right a2 = some a2 := by
        by_contra not2
        exact both (iff_of_false is1 not2)
      obtain ⟨-, right1, left1, result1, link, free1⟩ := @swapLinks_alone st0 _ _ left _ _
        (2 * st.mAct) lists.rings back rfl ne.symm (liveOf low2 is2) low1 (fun c => free) is2
        is1
      obtain ⟨size, link'⟩ := later (.inr rfl) result1 link free1
      refine ⟨size, a2, low2, is2, ?_, ?_⟩
      · rw [name2]
        exact is1
      · rw [name2]
        exact link'

end

/-! ## Correctness -/

/-- The two arcs are alone in their lists, or neither of them is. -/
def SameAlone (st : SparseState) (x y : ℕ) : Prop := st.right x = some x ↔ st.right y = some y

section

variable (lists : st.IncidenceLists) (low1 : a1 < 2 * st.mAct) (low2 : a2 < 2 * st.mAct)
include lists low1 low2

theorem Misplaced.not_renamed {z : ℕ} (misplaced : st.Misplaced st' a1 a2 z)
    (live : st.startNode (exchange a1 a2 z) ≠ none) : ¬ ArcsRenamed st st' (exchange a1 a2) := by
  obtain ⟨low, alone, longer, link⟩ := misplaced
  intro renamed
  have low' := exchange_lt low1 low2 low
  obtain ⟨v, start⟩ := Option.ne_none_iff_exists'.1 live
  have lowV := lists.nodes _ low' v start
  obtain ⟨f, first⟩ := Option.ne_none_iff_exists'.1 fun none =>
    (renamed.first v lowV).1 none _ low' start
  obtain ⟨l, ring, mem⟩ := renamed.lists v lowV f first
  obtain ⟨y, member, next⟩ := ring.next_mem ((mem z).2 ⟨_, low', start, exchange_exchange a1 a2 z⟩)
  rw [link] at next
  obtain ⟨a, -, startA, isY⟩ := (mem y).1 member
  have here : a = z := by
    rw [← exchange_exchange a1 a2 a, isY, ← Option.some.inj next, exchange_exchange]
  rw [here] at startA
  -- so both arcs have had the same start node
  have liveZ : st.Live z := ⟨low, by simp [startA]⟩
  have eq := (lists.rings.alone_iff liveZ).1 alone _ ⟨low', live⟩ (start.trans startA.symm)
  rw [eq] at longer
  exact longer alone

/-- Renamed arcs form consistent lists if those that are cancelled have no links. -/
theorem ArcsRenamed.incidenceLists (renamed : ArcsRenamed st st' (exchange a1 a2))
    (nodes : st'.nAct = st.nAct) (arcs : st'.mAct = st.mAct)
    (clear : ∀ c, c < 2 * st.mAct → ¬ st.Live (exchange a1 a2 c) →
      st'.right c = none ∧ ∀ left, st'.left = some left → left c = none) : st'.IncidenceLists := by
  have start : ∀ a, a < 2 * st.mAct → st'.startNode a = st.startNode (exchange a1 a2 a) := by
    intro a low
    have eq := renamed.start _ (exchange_lt low1 low2 low)
    rwa [exchange_exchange] at eq
  refine ⟨fun v low => ?_, fun v low f first => ?_, fun a low v val => ?_, fun a low => ?_,
    fun a low none => ?_, fun left present a live => ?_⟩
  · rw [nodes] at low
    rw [arcs, renamed.first v low]
    constructor
    · intro empty a lowA val
      exact empty _ (exchange_lt low1 low2 lowA) ((start a lowA).symm.trans val)
    · intro empty a lowA val
      exact empty _ (exchange_lt low1 low2 lowA) ((renamed.start a lowA).trans val)
  · rw [nodes] at low
    obtain ⟨l, ring, mem⟩ := renamed.lists v low f first
    refine ⟨l, ring, fun c => ?_⟩
    rw [mem c, arcs]
    constructor
    · rintro ⟨a, lowA, val, rfl⟩
      exact ⟨exchange_lt low1 low2 lowA, (renamed.start a lowA).trans val⟩
    · rintro ⟨lowC, val⟩
      exact ⟨_, exchange_lt low1 low2 lowC, (start c lowC).symm.trans val, exchange_exchange a1 a2 c⟩
  · rw [arcs] at low
    rw [nodes]
    exact lists.nodes _ (exchange_lt low1 low2 low) v ((start a low).symm.trans val)
  · rw [arcs] at low
    rw [start a low, start _ (rev_lt.2 low), exchange_rev]
    exact lists.paired _ (exchange_lt low1 low2 low)
  · rw [arcs] at low
    exact clear a low fun live => live.2 ((start a low).symm.trans none)
  · exact renamed.inverse left present a (arcs ▸ live.1) live.2

end

theorem IncidenceLists.renamed (lists : st.IncidenceLists) (a : ℕ) :
    ArcsRenamed st st (exchange a a) := by
  refine ⟨fun c _ => by rw [exchange_self], lists.first, fun v low f val => ?_,
    fun left present c low start => lists.inverse left present c ⟨low, start⟩⟩
  obtain ⟨l, ring, mem⟩ := lists.lists v low f val
  refine ⟨l, ring, fun c => ?_⟩
  rw [mem c]
  constructor
  · rintro ⟨lowC, startC⟩
    exact ⟨c, lowC, startC, exchange_self a c⟩
  · rintro ⟨b, lowB, startB, rfl⟩
    rw [exchange_self]
    exact ⟨lowB, startB⟩

/-- **When `SwapArcs` is a renaming.** The start nodes, the lists and the reverse links are those of
the exchanged names if and only if, for two arcs that have not been cancelled, at either end both
are alone in their lists or neither is. Cancelled arcs are free of links as well, so that the
invariant is restored, if and only if this is so for cancelled arcs too, which are in no list. -/
theorem swapArcs_renames_iff (lists : st.IncidenceLists) (low1 : a1 < 2 * st.mAct)
    (low2 : a2 < 2 * st.mAct) :
    ((∃ st', st.swapArcs a1 a2 = .ok st' ∧ ArcsRenamed st st' (exchange a1 a2)) ↔
      (st.Live a1 → st.Live a2 → st.SameAlone a1 a2 ∧ st.SameAlone (rev a1) (rev a2))) ∧
    ((∃ st', st.swapArcs a1 a2 = .ok st' ∧ ArcsRenamed st st' (exchange a1 a2) ∧
        st'.IncidenceLists) ↔ st.SameAlone a1 a2 ∧ st.SameAlone (rev a1) (rev a2)) := by
  by_cases distinct : a1 = a2
  · subst distinct
    have idle : st.swapArcs a1 a1 = .ok st := by
      rw [swapArcs, if_neg (not_le.2 low1), if_neg (not_le.2 low1), if_pos rfl]
    exact ⟨iff_of_true ⟨st, idle, lists.renamed a1⟩ fun _ _ => ⟨Iff.rfl, Iff.rfl⟩,
      iff_of_true ⟨st, idle, lists.renamed a1, lists⟩ ⟨Iff.rfl, Iff.rfl⟩⟩
  have live_rev : ∀ {a}, a < 2 * st.mAct → (st.Live (rev a) ↔ st.Live a) := fun {a} low =>
    and_congr rev_lt (not_congr (lists.paired a low).symm)
  -- the first list of conditions, from the second one where it applies
  have needed : ∀ {st'}, st.swapArcs a1 a2 = .ok st' → ArcsRenamed st st' (exchange a1 a2) →
      st.Live a1 → st.Live a2 → st.SameAlone a1 a2 ∧ st.SameAlone (rev a1) (rev a2) := by
    intro st' result renamed live1 live2
    by_contra mismatch
    obtain ⟨-, z, misplaced⟩ := swapArcs_misplaced lists low1 low2 distinct result mismatch
    refine misplaced.not_renamed lists low1 low2 ?_ renamed
    obtain ⟨-, alone, longer, -⟩ := misplaced
    rw [exchange] at longer ⊢
    split_ifs at longer ⊢
    · exact live2.2
    · exact live1.2
    · exact ((live_rev low2).2 live2).2
    · exact ((live_rev low1).2 live1).2
    · exact absurd alone longer
  constructor
  · constructor
    · rintro ⟨st', result, renamed⟩
      exact needed result renamed
    · intro matched
      obtain ⟨st', result, -, -, renamed, -⟩ := swapArcs_exchanges lists low1 low2
        distinct (fun live1 live2 => (matched live1 live2).1) fun live1 live2 =>
          (matched ((live_rev low1).1 live1) ((live_rev low2).1 live2)).2
      exact ⟨st', result, renamed⟩
  · constructor
    · rintro ⟨st', result, renamed, lists'⟩
      by_contra mismatch
      obtain ⟨arcs, z, misplaced⟩ := swapArcs_misplaced lists low1 low2 distinct result mismatch
      by_cases live : st.startNode (exchange a1 a2 z) = none
      · have low' := exchange_lt low1 low2 misplaced.1
        have start := renamed.start _ low'
        rw [exchange_exchange, live] at start
        have unlinked := (lists'.cancelled z (arcs ▸ misplaced.1) start).1
        rw [misplaced.2.2.2] at unlinked
        cases unlinked
      · exact misplaced.not_renamed lists low1 low2 live renamed
    · rintro ⟨same, same'⟩
      obtain ⟨st', result, nodes, arcs, renamed, clear⟩ := swapArcs_exchanges lists low1 low2
        distinct (fun _ _ => same) fun _ _ => same'
      refine ⟨st', result, renamed, renamed.incidenceLists lists low1 low2 nodes arcs ?_⟩
      refine fun c low dead => clear c low dead fun alone => dead ?_
      -- the arc that takes the name is alone as well, so it is linked
      have alone' : st.right (exchange a1 a2 c) = some (exchange a1 a2 c) := by
        rw [exchange]
        split_ifs with is1 is2 is1' is2'
        · exact same.1 (is1 ▸ alone)
        · exact same.2 (is2 ▸ alone)
        · exact same'.1 (is1' ▸ alone)
        · exact same'.2 (is2' ▸ alone)
        · exact alone
      refine ⟨exchange_lt low1 low2 low, fun none => ?_⟩
      rw [(lists.cancelled _ (exchange_lt low1 low2 low) none).1] at alone'
      cases alone'

end Whole

/-- Two parallel arcs and another one: the first arc is alone, the second one is not. -/
theorem swapArcs_misplaces : ∃ st st' : SparseState, st.IncidenceLists ∧ 0 < 2 * st.mAct ∧
    2 < 2 * st.mAct ∧ st.swapArcs 0 2 = .ok st' ∧ st'.startNode 0 = some 2 ∧
    st'.startNode 2 = some 0 ∧ st'.right 0 = some 2 ∧
    ¬ ∃ st', st.swapArcs 0 2 = .ok st' ∧ ArcsRenamed st st' (exchange 0 2) := by
  have reach1 : SparseReach 4 100 100 _ := .step (.insertArc 0 1) .start (by decide) rfl
  have reach2 : SparseReach 4 100 100 _ := .step (.insertArc 2 3) reach1 (by decide) rfl
  have reach3 : SparseReach 4 100 100 _ := .step (.insertArc 2 3) reach2 (by decide) rfl
  have run : ∃ st st' : SparseState, SparseReach 4 100 100 st ∧ 2 < 2 * st.mAct ∧
      st.swapArcs 0 2 = .ok st' ∧ st.right 0 = some 0 ∧ st.right 2 ≠ some 2 ∧
      st.startNode 2 ≠ none ∧ st'.startNode 0 = some 2 ∧ st'.startNode 2 = some 0 ∧
      st'.right 0 = some 2 :=
    ⟨_, _, reach3, by decide, rfl, by decide, by decide, by decide, by decide, by decide, by decide⟩
  obtain ⟨st, st', reach, low, result, alone, longer, live, start0, start2, link⟩ := run
  have lists := (reach_sound reach).incidenceLists
  have low0 : 0 < 2 * st.mAct := by omega
  refine ⟨st, st', lists, low0, low, result, start0, start2, link, ?_⟩
  rintro ⟨st'', result', renamed⟩
  rw [result] at result'
  cases result'
  have misplaced : Misplaced st st' 0 2 0 := ⟨low0, alone, longer, link⟩
  exact misplaced.not_renamed lists low0 low live renamed

/-- Two arcs that are alone at both ends. -/
theorem swapArcs_renames_iff_apart : ∃ st st' : SparseState, st.swapArcs 0 2 = .ok st' ∧
    ArcsRenamed st st' (exchange 0 2) ∧ st'.IncidenceLists := by
  have reach1 : SparseReach 4 100 100 _ := .step (.insertArc 0 1) .start (by decide) rfl
  have reach2 : SparseReach 4 100 100 _ := .step (.insertArc 2 3) reach1 (by decide) rfl
  have run : ∃ st : SparseState, SparseReach 4 100 100 st ∧ 2 < 2 * st.mAct ∧
      st.SameAlone 0 2 ∧ st.SameAlone (rev 0) (rev 2) :=
    ⟨_, reach2, by decide, iff_of_true (by decide) (by decide),
      iff_of_true (by decide) (by decide)⟩
  obtain ⟨st, reach, low, same, same'⟩ := run
  have low0 : 0 < 2 * st.mAct := by omega
  exact ⟨st, (swapArcs_renames_iff (reach_sound reach).incidenceLists low0 low).2.2 ⟨same, same'⟩⟩

end SparseState

end Goblin
