import Goblin.BendThreads

/-!
# Exchanging layout nodes

`SwapNodes` exchanges two layout nodes. Their data change places, and the references to them, by
`align` and `thread`, have to be exchanged as well, so that the layout is the same up to a renaming.

The references in `align` are exchanged without exception. Those in `thread` are left as they are if
there is no array `align`, as the second loop is nested in the test for the first one. Moreover the
loop passes over the two nodes themselves. So the layout is renamed if and only if none of the
references that are left out leads to one of the two nodes (`swapNodes_renames_iff`).
-/

set_option autoImplicit false

namespace Goblin

open Library List Option Equiv Equiv

namespace SparseGraph

section

variable (st : SparseGraph)

/-- The arrays of the layout have an entry for every edge and for every layout node. -/
structure LayoutState : Prop where
  sound : st.rep.Sound
  anchors : ∀ align, getArray st.align = some align → align.data.length = st.rep.mAct
  nodes : ∀ thread, getArray st.thread = some thread → thread.data.length = st.lAct

/-- The threads have no cycles. -/
def ThreadsEnd : Prop :=
  ∀ x, ¬ Relation.TransGen (fun y z => y < st.lAct ∧ st.threadSuccessor y = some z) x x

/-- The layout is the same up to the exchange of two nodes. -/
structure Renames (st' : SparseGraph) (u v : ℕ) : Prop where
  nodes : st'.lAct = st.lAct
  anchors : ∀ e < st.rep.mAct, st'.anchor e = (st.anchor e).map (swap u v)
  threads : ∀ x < st.lAct, st'.threadSuccessor (swap u v x) =
    (st.threadSuccessor x).map (swap u v)
  ends : st.ThreadsEnd → st'.ThreadsEnd

/-- `SwapNodes` does not look at the reference in `thread` that belongs to `x`. -/
def Overlooks (u v x : ℕ) : Prop :=
  x = u ∨ x = v ∨ getArray st.align = none

end

section Exchange

variable {st st' : SparseGraph} {u v x e : ℕ}

theorem swap_lt {k : ℕ} (lowU : u < k) (lowV : v < k) (low : x < k) : swap u v x < k := by
  rw [swap_apply_def]
  split_ifs
  · exact lowV
  · exact lowU
  · exact low

theorem map_swap_eq_self_iff (apart : u ≠ v) (y : Option ℕ) :
    y.map (swap u v) = y ↔ ∀ z ∈ y, z ≠ u ∧ z ≠ v := by
  cases y with
  | none => simp
  | some y =>
    rw [map_some, some_inj, swap_apply_eq_iff]
    constructor
    · rintro eq z ⟨⟩
      constructor
      · rintro rfl
        rw [swap_apply_left] at eq
        exact apart eq
      · rintro rfl
        rw [swap_apply_right] at eq
        exact apart eq.symm
    · intro other
      obtain ⟨notU, notV⟩ := other y rfl
      rw [swap_apply_of_ne_of_ne notU notV]

theorem swapNodes_arrays (layout : st.LayoutState) (lowU : u < st.lAct) (lowV : v < st.lAct)
    (apart : u ≠ v) : ∃ st', swapNodes u v st = .ok () st' ∧ st'.lAct = st.lAct ∧
      st'.align = (st.exchangeReferences u v).align ∧
      st'.thread = (st.exchangeReferences u v).thread.map fun thread => thread.swapItems u v := by
  have sizes : (st.exchangeReferences u v).rep = st.rep ∧
      (st.exchangeReferences u v).lAct = st.lAct := by
    rw [exchangeReferences]
    split
    · exact ⟨rfl, rfl⟩
    · exact ⟨rfl, rfl⟩
  rw [swapNodes, run_bind_get, if_neg (not_le.2 lowU), if_neg (not_le.2 lowV), if_neg apart,
    run_bind_modify, run_bind_modify]
  by_cases mixed : st.rep.nAct ≤ u ∨ st.rep.nAct ≤ v
  · rw [if_pos mixed]
    exact ⟨_, rfl, sizes.2, rfl, rfl⟩
  obtain ⟨graphU, graphV⟩ := not_or.1 mixed
  obtain ⟨rep, res, -⟩ :=
    SparseState.swapNodes_spec layout.sound (not_le.1 graphU) (not_le.1 graphV)
  rw [if_neg mixed]
  refine ⟨{ st.exchangeReferences u v with
    rep := rep
    thread := (st.exchangeReferences u v).thread.map fun thread => thread.swapItems u v }, ?_,
    sizes.2, rfl, rfl⟩
  rw [onIncidences]
  dsimp only
  rw [sizes.1, res]

theorem anchor_exchanged (layout : st.LayoutState) (low : e < st.rep.mAct)
    (align : st'.align = (st.exchangeReferences u v).align) :
    st'.anchor e = (st.anchor e).map (swap u v) := by
  rw [anchor, anchor, align, exchangeReferences]
  cases array : getArray st.align with
  | none => simp [array]
  | some A =>
    have size := layout.anchors A array
    have present : A.data.isEmpty = false := by
      rw [isEmpty_eq_false_iff, ← length_pos_iff, size]
      exact Nat.zero_lt_of_lt low
    have array' : getArray (some { A with data := A.data.map fun x => x.map (swap u v) }) =
        some { A with data := A.data.map fun x => x.map (swap u v) } := by
      rw [getArray, filter_some]
      simp [present]
    dsimp only
    rw [array']
    simp only [bind_some, Attribute.getValue, getD_eq_getElem?_getD]
    rw [getElem?_map, getElem?_eq_getElem (size.symm ▸ low)]
    rfl

/-- The references that `SwapNodes` finds in `thread`. -/
theorem getValue_exchanged (thread : Attribute (Option ℕ)) (low : x < thread.data.length) :
    ({ thread with data := thread.data.mapIdx fun w y =>
        if w = u ∨ w = v then y else y.map (swap u v) } : Attribute (Option ℕ)).getValue x =
      if x = u ∨ x = v then thread.getValue x else (thread.getValue x).map (swap u v) := by
  simp only [Attribute.getValue, getD_eq_getElem?_getD, getElem?_mapIdx,
    getElem?_eq_getElem low, map_some, getD_some]

theorem swapped_place (u v x : ℕ) : (if swap u v x = v then u
    else if swap u v x = u then v else swap u v x) = x := by
  by_cases isU : x = u
  · rw [isU, swap_apply_left, if_pos rfl]
  · by_cases isV : x = v
    · rw [isV, swap_apply_right, if_pos rfl]
      exact ite_eq_right_iff.2 id
    · rw [swap_apply_of_ne_of_ne isU isV, if_neg isV, if_neg isU]

open Classical in
theorem threadSuccessor_exchanged (layout : st.LayoutState) (lowU : u < st.lAct)
    (lowV : v < st.lAct) (low : x < st.lAct) (threads : st'.thread =
      (st.exchangeReferences u v).thread.map fun thread => thread.swapItems u v) :
    st'.threadSuccessor (swap u v x) = if st.Overlooks u v x then st.threadSuccessor x
      else (st.threadSuccessor x).map (swap u v) := by
  have kept : getArray st'.thread =
      (getArray (st.exchangeReferences u v).thread).map fun thread => thread.swapItems u v := by
    rw [threads, getArray_swapItems]
  rw [threadSuccessor, threadSuccessor, kept]
  cases array : getArray st.thread with
  | none =>
    have absent : getArray (st.exchangeReferences u v).thread = none := by
      rw [exchangeReferences]
      split
      · exact array
      · simp [array]
    rw [absent]
    simp
  | some thread =>
    have size := layout.nodes thread array
    cases aligned : getArray st.align with
    | none =>
      have eq : (st.exchangeReferences u v).thread = st.thread := by
        rw [exchangeReferences, aligned]
      rw [eq, array, if_pos (.inr (.inr aligned))]
      change (thread.swapItems u v).getValue _ = thread.getValue x
      rw [getValue_swapItems thread (lowU.trans_eq size.symm) (lowV.trans_eq size.symm),
        swapped_place]
    | some align =>
      have present : thread.data.isEmpty = false := by
        rw [isEmpty_eq_false_iff, ← length_pos_iff, size]
        exact Nat.zero_lt_of_lt low
      obtain ⟨B, found, size', val⟩ : ∃ B,
          getArray (st.exchangeReferences u v).thread = some B ∧ B.size = st.lAct ∧
          B.getValue x = if x = u ∨ x = v then thread.getValue x
            else (thread.getValue x).map (swap u v) := by
        refine ⟨_, ?_, ?_, getValue_exchanged thread (low.trans_eq size.symm)⟩
        · rw [exchangeReferences, aligned]
          dsimp only
          rw [array, elim_some, getArray, filter_some]
          simpa using present
        · rw [Attribute.size, length_mapIdx, size]
      have overlooks : st.Overlooks u v x ↔ x = u ∨ x = v := by
        simp [Overlooks, aligned]
      rw [found, if_congr overlooks rfl rfl]
      change (B.swapItems u v).getValue _ = _
      rw [getValue_swapItems B (lowU.trans_eq size'.symm) (lowV.trans_eq size'.symm),
        swapped_place, val]
      rfl

theorem threadsEnd_of_threads (lowU : u < st.lAct) (lowV : v < st.lAct) (nodes : st'.lAct = st.lAct)
    (threads : ∀ x < st.lAct, st'.threadSuccessor (swap u v x) =
      (st.threadSuccessor x).map (swap u v)) (ends : st.ThreadsEnd) : st'.ThreadsEnd := by
  intro x cycle
  refine ends (swap u v x) (cycle.lift (swap u v) fun y z step => ?_)
  obtain ⟨low, successor⟩ := step
  rw [nodes] at low
  have low' := swap_lt lowU lowV low
  have renamed := threads (swap u v y) low'
  rw [swap_apply_self, successor] at renamed
  obtain ⟨z', before, rfl⟩ := map_eq_some_iff.1 renamed.symm
  exact ⟨low', by rw [before, swap_apply_self]⟩

/-- **`SwapNodes` renames the layout** if and only if no reference in `thread` that it overlooks
leads to one of the two nodes. -/
theorem swapNodes_renames_iff (layout : st.LayoutState) (lowU : u < st.lAct) (lowV : v < st.lAct) :
    (∃ st', swapNodes u v st = .ok () st' ∧ st.Renames st' u v) ↔
      u = v ∨ ∀ x < st.lAct, st.Overlooks u v x → ∀ y ∈ st.threadSuccessor x, y ≠ u ∧ y ≠ v := by
  by_cases same : u = v
  · subst same
    refine iff_of_true ⟨st, ?_, rfl, ?_, ?_, id⟩ (.inl rfl)
    · rw [swapNodes, run_bind_get, if_neg (not_le.2 lowU), if_neg (not_le.2 lowU), if_pos rfl]
      rfl
    · intro e low
      simp
    · intro x low
      simp
  obtain ⟨st', result, nodes, align, threads⟩ := swapNodes_arrays layout lowU lowV same
  have successors := fun x (low : x < st.lAct) =>
    threadSuccessor_exchanged layout lowU lowV low threads
  constructor
  · rintro ⟨st'', result', renames⟩
    rw [result] at result'
    cases result'
    refine .inr fun x low overlooked => (map_swap_eq_self_iff same _).1 ?_
    rw [← renames.threads x low, successors x low, if_pos overlooked]
  · intro harmless
    have renamed : ∀ x < st.lAct, st'.threadSuccessor (swap u v x) =
        (st.threadSuccessor x).map (swap u v) := by
      intro x low
      rw [successors x low]
      split_ifs with overlooked
      · exact ((map_swap_eq_self_iff same _).2 (harmless.resolve_left same x low overlooked)).symm
      · rfl
    exact ⟨st', result, nodes, fun e low => anchor_exchanged layout low align, renamed,
      threadsEnd_of_threads lowU lowV nodes renamed⟩

end Exchange

/-- Four layout points without a graph. The thread leads from the first one to the second. -/
def threadedPoints : SparseGraph :=
  { new 0 10 10 none with
    lAct := 4
    lMax := 4
    ni := 4
    thread := some ⟨[some 1, none, none, none], none⟩ }

theorem threadedPoints_layout : threadedPoints.LayoutState where
  sound := SparseState.new_sound 0 10 10
  anchors := fun align array => by cases array
  nodes := fun thread array => by
    cases array
    rfl

/-- The last two points are exchanged, and the thread leads to neither of them. -/
theorem swapNodes_renames_points :
    ∃ st', swapNodes 2 3 threadedPoints = .ok () st' ∧ threadedPoints.Renames st' 2 3 := by
  refine (swapNodes_renames_iff threadedPoints_layout (by decide) (by decide)).2 (.inr ?_)
  intro x low _
  have cases : x = 0 ∨ x = 1 ∨ x = 2 ∨ x = 3 := by
    change x < 4 at low
    omega
  rcases cases with rfl | rfl | rfl | rfl
  · rintro y ⟨⟩
    decide
  · rintro y ⟨⟩
  · rintro y ⟨⟩
  · rintro y ⟨⟩

/-- The first two points are exchanged. The second one is its own successor then. -/
theorem swapNodes_chained :
    ¬ ∃ st', swapNodes 0 1 threadedPoints = .ok () st' ∧ threadedPoints.Renames st' 0 1 := by
  rintro ⟨st', result, renames⟩
  have successor := renames.threads 0 (by decide)
  cases result
  revert successor
  decide

end SparseGraph

end Goblin
