import Goblin.ArcExchange

/-!
# Runs on the sparse representation

Every operation that returns keeps the lists sound, and `incidence_invariant` follows by induction
over the run.
-/

set_option autoImplicit false

namespace Goblin

open Library Function

variable {a count v : ℕ}

namespace SparseState

variable {st : SparseState}

/-! ## Deleting arcs -/

theorem deleteArc_spec (sound : st.Sound) (low : a < 2 * st.mAct) :
    ∃ st', st.deleteArc a = .ok st' ∧ st'.Sound ∧ st'.mAct + 1 = st.mAct ∧ st'.nAct = st.nAct ∧
      st'.nMax = st.nMax := by
  obtain ⟨x, even, evenX, lowX⟩ : ∃ x, a &&& rev a = x ∧ x % 2 = 0 ∧ x < 2 * st.mAct :=
    ⟨_, rfl, by rw [and_rev]; omega, by rw [and_rev]; omega⟩
  -- the arc is cancelled unless that has been done before
  obtain ⟨st1, res1, sound1, size1, dead⟩ : ∃ st1,
      (if st.startNode x ≠ none then st.cancelArc x else .ok st) = .ok st1 ∧ st1.Sound ∧
      SameSize st st1 ∧ st1.startNode x = none := by
    by_cases present : st.startNode x = none
    · exact ⟨st, if_neg (not_not.2 present), sound, .refl st, present⟩
    · obtain ⟨st1, res, sound1, size, start⟩ := cancelArc_spec sound ⟨lowX, present⟩
      refine ⟨st1, (if_pos present).trans res, sound1, size, ?_⟩
      rw [start, update_of_ne (rev_ne x).symm, update_self]
  have sameArcs := size1.mAct
  obtain ⟨st2, res2, size2, -, sound2⟩ :=
    swapArcs_released sound1 (sameArcs.symm ▸ lowX) evenX dead
  rw [sameArcs] at res2
  refine ⟨{ st2 with mAct := st2.mAct - 1 }, ?_, sound2, ?_, ?_, ?_⟩
  · rw [deleteArc, if_neg (not_le.2 low), even]
    simp only [bind, Except.bind, pure, Except.pure, res1, res2]
  · dsimp only
    rw [size2.mAct, sameArcs]
    omega
  · exact size2.nAct.trans size1.nAct
  · exact size2.nMax.trans size1.nMax

theorem deleteArcsFrom_spec (sound : st.Sound) (enough : st.mAct - a / 2 < count)
    (even : a % 2 = 0) :
    ∃ st', deleteArcsFrom count a st = .ok st' ∧ st'.Sound ∧ st'.nAct = st.nAct ∧
      st'.nMax = st.nMax := by
  induction count generalizing a st with
  | zero => exact absurd enough (Nat.not_lt_zero _)
  | succ count ih =>
    rw [deleteArcsFrom]
    by_cases inside : a < 2 * st.mAct
    · rw [if_pos inside]
      split_ifs with dead
      · obtain ⟨st1, res, sound1, arcs, nodes, spare⟩ := deleteArc_spec sound inside
        obtain ⟨st2, rest, sound2, nodes2, spare2⟩ := ih sound1 (by omega) even
        refine ⟨st2, ?_, sound2, nodes2.trans nodes, spare2.trans spare⟩
        rw [res]
        exact rest
      · exact ih sound (by omega) (by omega)
    · rw [if_neg inside]
      exact ⟨st, rfl, sound, rfl, rfl⟩

theorem deleteArcs_spec (sound : st.Sound) :
    ∃ st', st.deleteArcs = .ok st' ∧ st'.Sound ∧ st'.nAct = st.nAct ∧ st'.nMax = st.nMax :=
  deleteArcsFrom_spec sound (by omega) rfl

/-! ## Nodes -/

section

variable (sound : st.Sound)
include sound

theorem insertNode_spec (room : st.nMax ≤ st.maxNode - 1) :
    ∃ st', st.insertNode = .ok st' ∧ st'.Sound := by
  have capacity := sound.linked.capacity
  -- the new node has no arcs in either case
  have extend : ∀ first : ℕ → Option ℕ, ∀ nMax, st.nAct + 1 ≤ nMax →
      (∀ v, v < st.nAct → first v = st.first v) →
      (∀ v, st.nAct ≤ v → v < nMax → first v = none) →
      ({ st with nAct := st.nAct + 1, nMax := nMax, first := first } : SparseState).Sound := by
    intro first nMax large old new
    have absent : ∀ a, st.Live a → st.startNode a ≠ some st.nAct := by
      intro a live start
      obtain ⟨v, low, start'⟩ := sound.linked.node a live
      rw [start] at start'
      cases start'
      omega
    refine ⟨⟨?_, sound.linked.rings, sound.linked.back, ?_, ?_, large, ?_⟩, sound.clean,
      sound.paired⟩
    · intro a live
      obtain ⟨v, low, start⟩ := sound.linked.node a live
      exact ⟨v, Nat.lt_succ_of_lt low, start⟩
    · intro v low none a live
      dsimp only at low none ⊢
      rcases Nat.lt_succ_iff_lt_or_eq.1 low with low | rfl
      · rw [old v low] at none
        exact sound.linked.firstNone v low none a live
      · exact absent a live
    · intro v low f val
      dsimp only at low val
      rcases Nat.lt_succ_iff_lt_or_eq.1 low with low | rfl
      · rw [old v low] at val
        exact sound.linked.firstSome v low f val
      · rw [new _ le_rfl (by omega)] at val
        cases val
    · intro v high low
      dsimp only at high low ⊢
      exact new v (by omega) low
  by_cases full : st.nMax + 1 = st.nAct + 1
  · refine ⟨{ st with
        nAct := st.nAct + 1
        nMax := st.nMax + 1
        first := update st.first st.nMax none }, ?_, extend _ _ (by omega) ?_ ?_⟩
    · rw [insertNode, if_neg (by omega)]
      exact if_pos full
    · intro v low
      exact update_of_ne (by omega) _ _
    · intro v high low
      rw [show v = st.nMax by omega, update_self]
  · refine ⟨{ st with nAct := st.nAct + 1 }, ?_, extend st.first st.nMax (by omega)
      (fun _ _ => rfl) sound.linked.spare⟩
    rw [insertNode, if_neg (by omega)]
    exact if_neg full

theorem Sound.dropNode (pos : 0 < st.nAct) (empty : st.first (st.nAct - 1) = none) :
    ({ st with nAct := st.nAct - 1 } : SparseState).Sound := by
  refine ⟨⟨?_, sound.linked.rings, sound.linked.back, ?_, ?_, ?_, ?_⟩, sound.clean, sound.paired⟩
  · intro a live
    obtain ⟨v, low, start⟩ := sound.linked.node a live
    have other : v ≠ st.nAct - 1 := by
      rintro rfl
      exact sound.linked.firstNone _ low empty a live start
    exact ⟨v, by dsimp only; omega, start⟩
  · intro v low
    exact sound.linked.firstNone v (by dsimp only at low; omega)
  · intro v low
    exact sound.linked.firstSome v (by dsimp only at low; omega)
  · have := sound.linked.capacity
    dsimp only
    omega
  · intro v high low
    dsimp only at high low ⊢
    rcases Nat.lt_or_ge v st.nAct with inside | out
    · rw [show v = st.nAct - 1 by omega]
      exact empty
    · exact sound.linked.spare v out low

theorem deleteNode_spec (low : v < st.nAct) :
    ∃ st', st.deleteNode v = .ok st' ∧ st'.Sound ∧ st'.nAct + 1 = st.nAct := by
  obtain ⟨st1, res1, sound1, size1, empty1⟩ := cancelNode_spec sound low
  have nodes1 := size1.nAct
  obtain ⟨st2, res2, sound2, size2, -, first2⟩ := swapNodes_spec sound1
    (show v < st1.nAct by omega) (show st1.nAct - 1 < st1.nAct by omega)
  have nodes2 := size2.nAct
  have empty2 : st2.first (st2.nAct - 1) = none := by
    rw [first2, nodes2, Equiv.swap_apply_right]
    exact empty1
  obtain ⟨st3, res3, sound3, nodes3, -⟩ :=
    deleteArcs_spec (sound2.dropNode (by omega) empty2)
  refine ⟨st3, ?_, sound3, by dsimp only at nodes3; omega⟩
  rw [deleteNode, if_neg (not_le.2 low)]
  simp only [bind, Except.bind, res1, res2]
  exact res3

theorem deleteNodesFrom_spec (enough : st.nAct - v < count) :
    ∃ st', deleteNodesFrom count v st = .ok st' ∧ st'.Sound := by
  induction count generalizing v st with
  | zero => exact absurd enough (Nat.not_lt_zero _)
  | succ count ih =>
    rw [deleteNodesFrom]
    by_cases inside : v < st.nAct
    · rw [if_pos inside]
      split_ifs with empty
      · obtain ⟨st1, res, sound1, nodes⟩ := deleteNode_spec sound inside
        obtain ⟨st2, rest, sound2⟩ := ih (v := v) sound1 (by omega)
        refine ⟨st2, ?_, sound2⟩
        rw [res]
        exact rest
      · exact ih sound (by omega)
    · rw [if_neg inside]
      exact ⟨st, rfl, sound⟩

theorem deleteNodes_spec : ∃ st', st.deleteNodes = .ok st' ∧ st'.Sound :=
  deleteNodesFrom_spec sound (by omega)

end

/-! ## Contraction -/

/-- **Two lists are joined.** The list of `b` is put behind the arc `a` of another list, and its
arcs get the start node of `a`. -/
theorem join_spec (sound : st.Sound) {b : ℕ} (live : st.Live a) (liveB : st.Live b)
    (proper : st.startNode a ≠ st.startNode b) :
    ∃ u v start y next, st.startNode a = some u ∧ st.startNode b = some v ∧
      relabel st.right b u (2 * st.mAct) b st.startNode = .ok (start, y) ∧
      st.right a = some next ∧ st.startNode y = some v ∧
      (∀ c, st.Live c → st.startNode c = some v → start c = some u) ∧
      (∀ c, (st.Live c → st.startNode c ≠ some v) → start c = st.startNode c) ∧
      ({ st with
        startNode := start
        right := update (update st.right y (some next)) a (some b)
        left := st.left.map fun left =>
          update (update left next (some y)) b (some a)
        first := update st.first v none } : SparseState).Sound := by
  obtain ⟨u, lowU, startU⟩ := sound.linked.node a live
  obtain ⟨v, lowV, startV⟩ := sound.linked.node b liveB
  have ne : u ≠ v := by
    rintro rfl
    exact proper (startU.trans startV.symm)
  obtain ⟨start, y, relabelled, liveY, startY, rightY, set, kept⟩ := relabel_ring sound.linked
    (fun a live => live.1) liveB startV u st.startNode
  obtain ⟨next, rightA, liveNext, startNext⟩ := sound.linked.rings.next live
  rw [startU] at startNext
  have notY : y ≠ a := by
    rintro rfl
    rw [startU] at startY
    exact ne (Option.some.inj startY)
  have notNext : next ≠ b := by
    rintro rfl
    rw [startV] at startNext
    exact ne (Option.some.inj startNext).symm
  have start_eq : ∀ c, st.Live c → start c =
      if st.startNode c = st.startNode b then st.startNode a else st.startNode c := by
    intro c liveC
    rw [startU, startV]
    split_ifs with moved
    · rw [set c liveC moved]
    · rw [kept c fun _ => moved]
  have absent : ∀ c, c < 2 * st.mAct → (start c = none ↔ st.startNode c = none) := by
    intro c low
    by_cases liveC : st.Live c
    · refine iff_of_false ?_ liveC.2
      rw [start_eq c liveC]
      split_ifs
      · exact live.2
      · exact liveC.2
    · rw [kept c fun liveC' => absurd liveC' liveC]
  set right := update (update st.right y (some next)) a (some b) with rightEq
  have atA : right a = some b := update_self _ _ _
  have atY : right y = st.right a := by
    rw [rightEq, update_of_ne notY, update_self, rightA]
  have links : ∀ c, c ≠ a → c ≠ y → right c = st.right c := by
    intro c notA notY'
    rw [rightEq, update_of_ne notA, update_of_ne notY']
  set joined : SparseState := { st with
    startNode := start
    right := right
    left := st.left.map fun left =>
      update (update left next (some y)) b (some a)
    first := update st.first v none } with joinedEq
  have live_iff : ∀ c, joined.Live c ↔ st.Live c := by
    intro c
    rw [Live, Live]
    exact and_congr_right fun low => not_congr (absent c low)
  have linked : joined.Linked st.Live := by
    refine ⟨?_, ?_, ?_, ?_, ?_, sound.linked.capacity, ?_⟩
    · intro c liveC
      rw [show joined.startNode c = start c from rfl, start_eq c liveC]
      split_ifs
      · exact ⟨u, lowU, startU⟩
      · exact sound.linked.node c liveC
    · exact sound.linked.rings.splice live liveB liveY proper rightY atA atY
        (fun c _ => links c) start_eq
    · intro left' present
      obtain ⟨left, isLeft, rfl⟩ := Option.map_eq_some_iff.1 present
      refine (sound.linked.back left isLeft).splice sound.linked.rings live liveB liveY rightY
        rightA atA atY (fun c _ => links c) ?_ (update_self _ _ _) ?_ notY.symm
      · rw [update_of_ne notNext, update_self]
      · intro c _ other other'
        rw [update_of_ne other', update_of_ne other]
    · intro w low none c liveC
      rw [show joined.startNode c = start c from rfl, start_eq c liveC, startU, startV]
      by_cases isV : w = v
      · split_ifs with moved
        · exact fun eq => ne (by rw [Option.some.inj eq, isV])
        · exact fun eq => moved (by rw [eq, isV])
      have none' : st.first w = Option.none := by
        rwa [show joined.first w = st.first w from update_of_ne isV _ _] at none
      split_ifs
      · rw [← startU]
        exact sound.linked.firstNone w low none' a live
      · exact sound.linked.firstNone w low none' c liveC
    · intro w low f val
      by_cases isV : w = v
      · rw [isV, show joined.first v = none from update_self _ _ _] at val
        cases val
      · rw [show joined.first w = st.first w from update_of_ne isV _ _] at val
        obtain ⟨liveF, startF⟩ := sound.linked.firstSome w low f val
        refine ⟨liveF, ?_⟩
        rw [show joined.startNode f = start f from rfl, start_eq f liveF, startV, startF,
          if_neg fun eq => isV (Option.some.inj eq)]
    · intro w high low
      have other : w ≠ v := by
        rintro rfl
        exact absurd lowV (not_lt.2 high)
      rw [show joined.first w = st.first w from update_of_ne other _ _]
      exact sound.linked.spare w high low
  have clean : joined.Clean st.Live := by
    intro c low dead
    have other : ∀ d, st.Live d → c ≠ d := by
      rintro d liveD rfl
      exact dead liveD
    obtain ⟨noRight, noLeft⟩ := sound.clean c low dead
    refine ⟨(links c (other a live) (other y liveY)).trans noRight, fun left' present => ?_⟩
    obtain ⟨left, isLeft, rfl⟩ := Option.map_eq_some_iff.1 present
    rw [update_of_ne (other _ liveB), update_of_ne (other next liveNext)]
    exact noLeft left isLeft
  have paired : ∀ c, c < 2 * joined.mAct →
      (joined.startNode c = none ↔ joined.startNode (rev c) = none) := by
    intro c low
    exact (absent c low).trans ((sound.paired c low).trans (absent (rev c) (rev_lt.2 low)).symm)
  exact ⟨u, v, start, y, next, startU, startV, relabelled, rightA, startY, set, kept,
    linked.congr live_iff, clean.congr live_iff, paired⟩

/-- **`ContractArc`** joins the lists of the two end nodes and cancels the arc. -/
theorem contractArc_spec (sound : st.Sound) {ac : ℕ} (live : st.Live ac)
    (proper : st.startNode ac ≠ st.startNode (rev ac)) :
    ∃ st', st.contractArc ac = .ok st' ∧ st'.Sound := by
  obtain ⟨u, v, start, y, next, startU, startV, relabelled, rightAc, -, -, kept, joined⟩ :=
    join_spec sound live (sound.live_rev live) proper
  have startAc : start ac = some u := by
    rw [kept ac fun _ eq => proper (eq.trans startV.symm), startU]
  have present : start ac ≠ none := startAc ▸ Option.some_ne_none u
  obtain ⟨st', res, sound', -, -⟩ := cancelArc_spec joined ⟨live.1, present⟩
  refine ⟨st', ?_, sound'⟩
  rw [contractArc, if_neg (not_le.2 live.1), if_neg proper]
  simp only [startU, startV, defined, bind, Except.bind, relabelled, rightAc]
  exact res

/-! ## Runs -/

theorem new_sound (n maxNode maxArc : ℕ) : (new n maxNode maxArc).Sound := by
  have dead : ∀ a, ¬ (new n maxNode maxArc).Live a := fun a live => live.2 rfl
  refine ⟨⟨?_, ?_, ?_, ?_, ?_, le_rfl, fun _ _ _ => rfl⟩, ?_, fun _ _ => Iff.rfl⟩
  · exact fun a live => absurd live (dead a)
  · exact fun a live => absurd live (dead a)
  · exact fun left present => by cases present
  · exact fun _ _ _ a live => absurd live (dead a)
  · exact fun _ _ _ val => by cases val
  · exact fun _ _ _ => ⟨rfl, fun left present => by cases present⟩

theorem leftArc_spec (sound : st.Sound) (low : a < 2 * st.mAct) :
    ∃ st' b, st.leftArc a = .ok (st', b) ∧ st'.Sound := by
  obtain ⟨left, alloc, linked, clean, -⟩ :=
    allocLeft_spec sound.linked sound.clean fun a live => live.1
  refine ⟨{ st with left := some left }, left a, ?_, linked, clean, sound.paired⟩
  rw [leftArc, if_neg (not_le.2 low)]
  simp only [alloc, bind, Except.bind, pure, Except.pure]

theorem run_spec (sound : st.Sound) (op : SparseOp) (legal : op.Legal st) :
    ∃ st', op.run st = .ok st' ∧ st'.Sound := by
  cases op with
  | insertNode => exact insertNode_spec sound legal
  | insertArc u v =>
    obtain ⟨st', res, sound', -⟩ := insertArc_spec sound legal.1 legal.2.1 legal.2.2
    exact ⟨st', res, sound'⟩
  | cancelArc a =>
    obtain ⟨st', res, sound', -, -⟩ := cancelArc_spec sound legal
    exact ⟨st', res, sound'⟩
  | cancelNode v =>
    obtain ⟨st', res, sound', -, -⟩ := cancelNode_spec sound legal
    exact ⟨st', res, sound'⟩
  | deleteArc a =>
    obtain ⟨st', res, sound', -⟩ := deleteArc_spec sound legal
    exact ⟨st', res, sound'⟩
  | deleteArcs =>
    obtain ⟨st', res, sound', -⟩ := deleteArcs_spec sound
    exact ⟨st', res, sound'⟩
  | deleteNode v =>
    obtain ⟨st', res, sound', -⟩ := deleteNode_spec sound legal
    exact ⟨st', res, sound'⟩
  | deleteNodes => exact deleteNodes_spec sound
  | routeArc a u v =>
    obtain ⟨st', res, sound', -⟩ := routeArc_spec sound legal.1 legal.2.1 legal.2.2
    exact ⟨st', res, sound'⟩
  | contractArc a => exact contractArc_spec sound ⟨legal.1, legal.2.1⟩ legal.2.2
  | left a =>
    obtain ⟨st', b, res, sound'⟩ := leftArc_spec sound legal
    refine ⟨st', ?_, sound'⟩
    rw [SparseOp.run, res]
    rfl

theorem reach_sound {n maxNode maxArc : ℕ} (reach : SparseReach n maxNode maxArc st) : st.Sound := by
  induction reach with
  | start => exact new_sound n maxNode maxArc
  | step op before legal res ih =>
    obtain ⟨st', res', sound⟩ := run_spec ih op legal
    rw [res] at res'
    cases res'
    exact sound

/-- **The incidence lists are consistent in every reachable state**, and no operation with
legal arguments raises. -/
theorem incidence_invariant {n maxNode maxArc : ℕ} (reach : SparseReach n maxNode maxArc st) :
    st.IncidenceLists ∧ ∀ op : SparseOp, op.Legal st → ∃ st', op.run st = .ok st' := by
  have sound := reach_sound reach
  refine ⟨sound.incidenceLists, fun op legal => ?_⟩
  obtain ⟨st', result, -⟩ := run_spec sound op legal
  exact ⟨st', result⟩

/-- An arc and a loop at its start node, with the reverse links. -/
theorem incidence_invariant_loop : ∃ st, SparseReach 2 100 100 st ∧ st.right 0 = some 2 ∧
    st.first 0 = some 3 ∧ st.left ≠ none ∧ st.IncidenceLists ∧
    ∀ op : SparseOp, op.Legal st → ∃ st', op.run st = .ok st' := by
  have reach1 : SparseReach 2 100 100 _ := .step (.insertArc 0 1) .start (by decide) rfl
  have reach2 : SparseReach 2 100 100 _ := .step (.insertArc 0 0) reach1 (by decide) rfl
  have reach3 : SparseReach 2 100 100 _ := .step (.left 0) reach2 (by decide) rfl
  exact ⟨_, reach3, by decide, by decide, by decide, incidence_invariant reach3⟩

end SparseState

end Goblin
