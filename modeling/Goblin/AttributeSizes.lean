import Goblin.AttributePools

/-!
# Attributes of full rank

`Sized` says that the attributes have the sizes of the graph, and each method of the graph preserves
it: the insertions under a condition, the deletions and assignments without one. `attribute_sizes`
collects this for runs of the graph with its pools.
-/

set_option autoImplicit false

namespace Goblin.PooledGraph

open Library List Option Preserves Keeps EndsIn
open Prod (ext fst snd)
open SparseGraph (Ranked appendItems dims_eraseItems eraseItems insertArc sizeInfo)

variable {count : ℕ}

/-! ## Sizes -/

section Sized

open SparseGraph

variable {α : Type} {st st' : SparseGraph}

/-- With these numbers of items, the attributes of the full-rank pools have full rank, and those of
the pool `representation` have full rank or no entries. -/
structure Ranks (info : ArrayDim → ℕ) (others : List (ArrayDim × ℕ))
    (align thread : Option (Attribute (Option ℕ))) (ucap lcap length : Option (Attribute ℚ))
    (orientation : Option (Attribute ℕ)) : Prop where
  others : ∀ A ∈ others, A.2 = info A.1
  align : ∀ A, align = some A → A.size = info .graphArcs
  thread : ∀ A, thread = some A → A.size = info .layoutNodes
  ucap : Ranked ucap (info .graphArcs)
  lcap : Ranked lcap (info .graphArcs)
  length : Ranked length (info .graphArcs)
  orientation : Ranked orientation (info .graphArcs)

/-- The attributes of the graph have these sizes. -/
def SizedBy (info : ArrayDim → ℕ) (st : SparseGraph) : Prop :=
  Ranks info st.others st.align st.thread st.ucap st.lcap st.length st.orientation

/-- The sizes are those of the graph. -/
def Sized (st : SparseGraph) : Prop := SizedBy st.sizeInfo st

variable {info : ArrayDim → ℕ} {dim : ArrayDim} {k : ℕ}

theorem Sized.congr (sized : Sized st) (eq : shape st' = shape st) : Sized st' := by
  simp only [shape, attributeSizes, Prod.mk.injEq, List.cons.injEq, and_true] at eq
  obtain ⟨⟨nAct, mAct, lAct⟩, ⟨ucap, lcap, length, orientation, align, thread⟩, others⟩ := eq
  have counters : st'.sizeInfo = st.sizeInfo := by
    funext dim
    cases dim <;> simp [sizeInfo, nAct, mAct, lAct]
  have ranked : ∀ {β : Type} {A A' : Option (Attribute β)} {count : ℕ}, A'.map Attribute.size =
      A.map Attribute.size → Ranked A count → Ranked A' count := by
    intro β A A' count sizes ranked B val
    rw [val, map_some] at sizes
    obtain ⟨B0, val0, size0⟩ := map_eq_some_iff.1 sizes.symm
    rw [← size0]
    exact ranked B0 val0
  have exactly : ∀ {A A' : Option (Attribute (Option ℕ))} {count : ℕ}, A'.map Attribute.size =
      A.map Attribute.size → (∀ B, A = some B → B.size = count) → ∀ B, A' = some B →
      B.size = count := by
    intro A A' count sizes full B val
    rw [val, map_some] at sizes
    obtain ⟨B0, val0, size0⟩ := map_eq_some_iff.1 sizes.symm
    rw [← size0]
    exact full B0 val0
  rw [Sized, counters]
  exact ⟨others ▸ sized.others, exactly align sized.align, exactly thread sized.thread,
    ranked ucap sized.ucap, ranked lcap sized.lcap, ranked length sized.length,
    ranked orientation sized.orientation⟩

theorem preserves_of_keeps {x : GraphM α} (keeps : Keeps shape x) : Preserves Sized x :=
  fun st sized => Sized.congr sized (keeps st)

/-- The numbers of items after one of them has been changed. -/
def grown (info : ArrayDim → ℕ) (dim : ArrayDim) (count : ℕ) : ArrayDim → ℕ :=
  Function.update info dim count

/-- An attribute of full rank grows if it has entries. -/
theorem size_appendItems {A : Attribute α} (full : A.size = count) (used : count ≠ 0)
    (k : ℕ) : (A.appendItems k).size = count + k := by
  have some : ¬ A.data.isEmpty = true := by
    rintro empty
    rw [List.isEmpty_iff] at empty
    exact used (by rw [← full, Attribute.size, empty, length_nil])
  rw [Attribute.appendItems, if_neg some]
  simp only [Attribute.size, length_append, length_replicate] at full ⊢
  rw [full]

theorem SizedBy.append (sized : SizedBy info st) (dim : ArrayDim)
    (used : info dim = 0 → Unused st dim) (k : ℕ) :
    SizedBy (grown info dim (info dim + k)) (st.appendItems dim k) := by
  have others : ∀ A ∈ st.others.map (fun A => if A.1 = dim ∧ A.2 ≠ 0 then (A.1, A.2 + k) else A),
      A.2 = grown info dim (info dim + k) A.1 := by
    intro A mem
    obtain ⟨A0, mem0, rfl⟩ := mem_map.1 mem
    have size := sized.others A0 mem0
    by_cases here : A0.1 = dim
    · have some : A0.2 ≠ 0 := by
        intro zero
        rw [here, zero] at size
        exact (used size.symm).1 A0 mem0 here
      rw [if_pos ⟨here, some⟩]
      dsimp only
      rw [grown, here, Function.update_self, size, here]
    · rw [if_neg fun both => here both.1, grown, Function.update_of_ne here, size]
  cases dim with
  | graphArcs =>
    refine ⟨others, fun A val => ?_, fun A val => ?_, ?_, ?_, ?_, ?_⟩
    · obtain ⟨A0, val0, rfl⟩ := map_eq_some_iff.1 val
      have some : info .graphArcs ≠ 0 := fun zero => by
        have none := (used zero).2.1 rfl
        rw [none] at val0
        cases val0
      exact size_appendItems (sized.align A0 val0) some k
    · exact sized.thread A val
    · exact sized.ucap.append k
    · exact sized.lcap.append k
    · exact sized.length.append k
    · exact sized.orientation.append k
  | layoutNodes =>
    refine ⟨others, sized.align, fun A val => ?_, sized.ucap, sized.lcap, sized.length,
      sized.orientation⟩
    obtain ⟨A0, val0, rfl⟩ := map_eq_some_iff.1 val
    have some : info .layoutNodes ≠ 0 := fun zero => by
      have none := (used zero).2.2 rfl
      rw [none] at val0
      cases val0
    exact size_appendItems (sized.thread A0 val0) some k
  | graphNodes | arcsTwice | singleton =>
    exact ⟨others, sized.align, sized.thread, sized.ucap, sized.lcap, sized.length,
      sized.orientation⟩

theorem Unused.append {dim' : ArrayDim} (unused : Unused st dim) (k : ℕ) :
    Unused (st.appendItems dim' k) dim := by
  have others : ∀ A ∈ st.others.map (fun A => if A.1 = dim' ∧ A.2 ≠ 0 then (A.1, A.2 + k) else A),
      A.1 ≠ dim := by
    intro A mem
    obtain ⟨A0, mem0, rfl⟩ := mem_map.1 mem
    have ne := unused.1 A0 mem0
    split_ifs
    · exact ne
    · exact ne
  refine ⟨?_, fun arcs => ?_, fun layout => ?_⟩
  · cases dim' <;> exact others
  · have none := unused.2.1 arcs
    cases dim' <;> simp [appendItems, none]
  · have none := unused.2.2 layout
    cases dim' <;> simp [appendItems, none]

theorem SizedBy.erase (sized : SizedBy info st) (dim : ArrayDim) (k : ℕ) :
    SizedBy (grown info dim (info dim - k)) (st.eraseItems dim k) := by
  have others : ∀ A ∈ st.others.map (fun A => if A.1 = dim then (A.1, A.2 - k) else A),
      A.2 = grown info dim (info dim - k) A.1 := by
    intro A mem
    obtain ⟨A0, mem0, rfl⟩ := mem_map.1 mem
    have size := sized.others A0 mem0
    split_ifs with here
    · dsimp only
      rw [grown, here, Function.update_self, size, here]
    · rw [grown, Function.update_of_ne here, size]
  cases dim with
  | graphArcs =>
    refine ⟨others, fun A val => ?_, sized.thread, ranked_eraseItems sized.ucap k,
      ranked_eraseItems sized.lcap k, ranked_eraseItems sized.length k,
      ranked_eraseItems sized.orientation k⟩
    obtain ⟨A0, val0, rfl⟩ := map_eq_some_iff.1 val
    exact size_eraseItems (sized.align A0 val0) k
  | layoutNodes =>
    refine ⟨others, sized.align, fun A val => ?_, sized.ucap, sized.lcap, sized.length,
      sized.orientation⟩
    obtain ⟨A0, val0, rfl⟩ := map_eq_some_iff.1 val
    exact size_eraseItems (sized.thread A0 val0) k
  | graphNodes | arcsTwice | singleton =>
    exact ⟨others, sized.align, sized.thread, sized.ucap, sized.lcap, sized.length,
      sized.orientation⟩

end Sized

/-! ## Methods of the graph -/

section Methods

open SparseGraph

variable {st st' : SparseGraph}

section

variable (a : ℕ) (x : ℚ)

theorem preserves_setLength : Preserves Sized (setLength a x) := by
  refine .get_bind fun st sized => ?_
  split_ifs
  · exact sized
  · exact ⟨sized.others, sized.align, sized.thread, sized.ucap, sized.lcap, sized.length.assign,
      sized.orientation⟩

theorem preserves_setUCap : Preserves Sized (setUCap a x) := by
  refine .get_bind fun st sized => ?_
  split_ifs with high neg
  · exact sized
  · exact sized
  · refine bind (preserves_of_keeps ?_ st sized) fun _ s _ sized' => ?_
    · exact keeps_setSub (fun _ _ _ _ => rfl) a x
    · exact ⟨sized'.others, sized'.align, sized'.thread, sized'.ucap.assign, sized'.lcap,
        sized'.length, sized'.orientation⟩
  · exact ⟨sized.others, sized.align, sized.thread, sized.ucap.assign, sized.lcap, sized.length,
      sized.orientation⟩

theorem preserves_setLCap : Preserves Sized (setLCap a x) := by
  refine .get_bind fun st sized => ?_
  by_cases high : 2 * st.rep.mAct ≤ a
  · rw [if_pos high]
    exact sized
  by_cases neg : x < 0
  · rw [if_neg high, if_pos neg]
    exact sized
  rw [if_neg high, if_neg neg]
  refine bind (preserves_of_keeps ?_ st sized) fun _ s _ sized' => ?_
  · exact .ite (keeps_setSub (fun _ _ _ _ => rfl) a _) (.pure _)
  · exact ⟨sized'.others, sized'.align, sized'.thread, sized'.ucap, sized'.lcap.assign,
      sized'.length, sized'.orientation⟩

end

theorem ranked_constant {dflt : ℚ} (x : ℚ) :
    Ranked (if x ≠ dflt then some ⟨[], x⟩ else none) count := by
  intro B val
  left
  split_ifs at val
  cases val
  rfl

theorem preserves_setCUCap (x : ℚ) : Preserves Sized (setCUCap x) := by
  refine .ite (.throw _) (.bind (.modify fun st sized => sized) fun _ => .modify fun st sized => ?_)
  · exact ⟨sized.others, sized.align, sized.thread, ranked_constant x, sized.lcap, sized.length,
      sized.orientation⟩

theorem preserves_setCLCap (x : ℚ) : Preserves Sized (setCLCap x) := by
  refine .ite (.throw _) (.bind (.modify fun st sized => sized) fun _ => .modify fun st sized => ?_)
  · exact ⟨sized.others, sized.align, sized.thread, sized.ucap, ranked_constant x, sized.length,
      sized.orientation⟩

theorem preserves_eraseLayoutNode (v : ℕ) : Preserves Sized (eraseLayoutNode v) := by
  refine .get_bind fun st sized => ?_
  split_ifs with out
  · exact sized
  refine bind (preserves_of_keeps (keeps_shape_swapNodes _ _) st sized) fun _ s _ sized' => ?_
  have erased := SizedBy.erase sized' .layoutNodes 1
  have counters : sizeInfo (eraseItems { s with lAct := s.lAct - 1 }
      .layoutNodes 1) = grown s.sizeInfo .layoutNodes (s.sizeInfo .layoutNodes - 1) := by
    funext dim
    cases dim <;> rfl
  change SizedBy (sizeInfo (eraseItems { s with lAct := s.lAct - 1 } .layoutNodes 1)) _
  rw [counters]
  exact erased

theorem preserves_eraseAll : ∀ (fuel : ℕ) (Q : BinaryHeap ℕ), Preserves Sized (eraseAll fuel Q)
  | 0, _ => .throw _
  | fuel + 1, Q => by
    refine .ite (.pure _) (.bind (preserves_of_keeps (keeps_shape_onQueue _)) fun next => ?_)
    exact (preserves_eraseLayoutNode next.2).bind fun _ => preserves_eraseAll fuel next.1

theorem preserves_releaseThread (w : ℕ) : Preserves Sized (releaseThread w) := by
  refine .get_bind fun st sized => ?_
  refine bind (preserves_of_keeps (keeps_shape_collect _ _ _)) (fun Q => ?_) st sized
  refine (preserves_eraseAll _ _).bind fun _ => .modify fun st sized => ?_
  exact sized

theorem Sized.set_align (sized : Sized st) {align : Attribute (Option ℕ)}
    (array : getArray st.align = some align) (i : ℕ) (x : Option ℕ) :
    Sized { st with align := some (align.setValue i x) } := by
  refine ⟨sized.others, fun A val => ?_, sized.thread, sized.ucap, sized.lcap, sized.length,
    sized.orientation⟩
  cases val
  rw [size_setValue]
  exact sized.align align (getArray_eq_some array)

theorem Sized.set_thread (sized : Sized st) {thread : Attribute (Option ℕ)}
    (array : getArray st.thread = some thread) (i : ℕ) (x : Option ℕ) :
    Sized { st with thread := some (thread.setValue i x) } := by
  refine ⟨sized.others, sized.align, fun A val => ?_, sized.ucap, sized.lcap, sized.length,
    sized.orientation⟩
  cases val
  rw [size_setValue]
  exact sized.thread thread (getArray_eq_some array)

theorem preserves_releaseBendNodes (a : ℕ) : Preserves Sized (releaseBendNodes a) := by
  refine .get_bind fun st sized => ?_
  split_ifs
  · exact sized
  cases array : getArray st.align with
  | none => exact sized
  | some align =>
    dsimp only
    cases align.getValue (a / 2) with
    | none => exact sized
    | some w =>
      refine bind (sized.set_align array _ _) fun _ s _ sized' => ?_
      exact (preserves_releaseThread w).bind (fun _ => .pure _) s sized'

theorem preserves_releaseShapeNodes (v : ℕ) : Preserves Sized (releaseShapeNodes v) := by
  refine .get_bind fun st sized => ?_
  split_ifs
  · exact sized
  cases array : getArray st.thread with
  | none => exact sized
  | some thread =>
    dsimp only
    cases thread.getValue v with
    | none => exact sized
    | some w =>
      refine bind (sized.set_thread array _ _) fun _ s _ sized' => ?_
      exact (preserves_releaseThread w).bind (fun _ => .pure _) s sized'

theorem preserves_bypass (v : ℕ) : Preserves Sized (bypass v) := by
  refine .get_bind fun st sized => ?_
  cases array : getArray st.align with
  | none => exact sized
  | some align =>
    dsimp only
    split_ifs
    · exact sized.set_align array _ _
    cases arrayT : getArray st.thread with
    | none => exact sized
    | some thread =>
      dsimp only
      split_ifs
      · exact sized
      · exact sized.set_thread arrayT _ _

theorem sizeInfo_appendItems (st : SparseGraph) (dim dim' : ArrayDim) (k : ℕ) :
    (st.appendItems dim k).sizeInfo dim' = st.sizeInfo dim' := by
  cases dim <;> rfl

section

variable (sized : Sized st) (used : st.lAct = 0 → Unused st .layoutNodes)
include sized used

theorem Sized.layoutPoint
    (lMax : ℕ) : Sized (appendItems { st with lAct := st.lAct + 1, lMax := lMax }
      .layoutNodes 1) := by
  have counters : sizeInfo (appendItems
      { st with lAct := st.lAct + 1, lMax := lMax } .layoutNodes 1) =
        grown st.sizeInfo .layoutNodes (st.sizeInfo .layoutNodes + 1) := by
    funext dim
    cases dim <;> rfl
  have appended := SizedBy.append sized .layoutNodes used 1
  rw [Sized, counters]
  exact appended

theorem endsIn_insertLayoutPoint
    : EndsIn Sized insertLayoutPoint st := by
  change EndsIn Sized (if st.rep.maxNode - 1 < st.lMax then _ else _) st
  split_ifs with full
  · exact sized
  · have inserted := sized.layoutPoint used
      (if st.lMax + 1 = st.lAct + 1 then st.lMax + 1 else st.lMax)
    exact inserted

end

theorem of_initArray {A : Option (Attribute (Option ℕ))} {size : ℕ} {B : Attribute (Option ℕ)}
    (res : SparseGraph.initArray A size st = .ok B st') : st' = st ∧ B.size = size := by
  cases A with
  | none =>
    cases res
    exact ⟨rfl, by simp [Attribute.size, Attribute.increaseSize]⟩
  | some A => cases res

theorem endsIn_initArray (sized : Sized st) (A : Option (Attribute (Option ℕ))) (size : ℕ) :
    EndsIn Sized (SparseGraph.initArray A size) st := by
  cases A with
  | none | some A => exact sized

theorem endsIn_insertArcLabelAnchor (a : ℕ) (sized : Sized st)
    (used : st.lAct = 0 → Unused st .layoutNodes) : EndsIn Sized (insertArcLabelAnchor a) st := by
  change EndsIn Sized (if 2 * st.rep.mAct ≤ a then _ else _) st
  by_cases high : 2 * st.rep.mAct ≤ a
  · rw [if_pos high]
    exact sized
  rw [if_neg high]
  refine (endsIn_insertLayoutPoint sized used).bind fun u s _ sized1 => ?_
  refine bind sized1 fun s' _ read _ => ?_
  cases read
  refine bind (I := Sized) ?_ fun _ s2 _ sized2 => ?_
  · cases array : getArray s.align with
    | some align =>
      dsimp only
      split_ifs
      · exact sized1
      · exact sized1.set_align array _ _
    | none =>
      refine bind (endsIn_initArray sized1 _ _) fun align s3 made _ => ?_
      obtain ⟨rfl, size⟩ := of_initArray made
      refine ⟨sized1.others, fun A val => ?_, sized1.thread, sized1.ucap, sized1.lcap,
        sized1.length, sized1.orientation⟩
      cases val
      rw [size_setValue, size]
      rfl
  · refine ⟨sized2.others, sized2.align, fun A val => ?_, sized2.ucap, sized2.lcap,
      sized2.length, sized2.orientation⟩
    obtain ⟨A0, val0, rfl⟩ := map_eq_some_iff.1 val
    rw [size_setValue]
    exact sized2.thread A0 val0

theorem endsIn_insertThreadSuccessor (v : ℕ) (sized : Sized st)
    (used : st.lAct = 0 → Unused st .layoutNodes) : EndsIn Sized (insertThreadSuccessor v) st := by
  change EndsIn Sized (if st.lAct ≤ v then _ else _) st
  by_cases high : st.lAct ≤ v
  · rw [if_pos high]
    exact sized
  rw [if_neg high]
  refine (endsIn_insertLayoutPoint sized used).bind fun u s _ sized1 => ?_
  refine bind sized1 fun s' _ read _ => ?_
  cases read
  have write : ∀ thread : Attribute (Option ℕ), thread.size = s.lAct → Sized { s with
        thread := some ((thread.setValue u (thread.getValue v)).setValue v (some u)) } := by
    intro thread size
    refine ⟨sized1.others, sized1.align, fun A val => ?_, sized1.ucap, sized1.lcap,
      sized1.length, sized1.orientation⟩
    cases val
    rw [size_setValue, size_setValue, size]
    rfl
  cases array : getArray s.thread with
  | some thread => exact write thread (sized1.thread thread (getArray_eq_some array))
  | none =>
    refine bind (endsIn_initArray sized1 _ _) fun thread s3 made _ => ?_
    obtain ⟨rfl, size⟩ := of_initArray made
    exact write thread size

theorem Sized.arc (sized : Sized st) (used : st.rep.mAct = 0 →
      Unused st .graphArcs ∧ Unused st .arcsTwice) {rep : SparseState}
    (nAct : rep.nAct = st.rep.nAct) (mAct : rep.mAct = st.rep.mAct + 1) {s : SparseGraph}
    (eq : attributeSizes s = attributeSizes st) (counts : s.rep = rep) (lAct : s.lAct = st.lAct) :
    Sized ((s.appendItems .graphArcs 1).appendItems .arcsTwice 2) := by
  have before : SizedBy st.sizeInfo s := by
    have back : Sized { s with rep := st.rep, lAct := st.lAct } :=
      sized.congr (congrArg (Prod.mk (st.rep.nAct, st.rep.mAct, st.lAct)) eq)
    exact back
  have unused : ∀ dim, Unused st dim → Unused s dim := by
    intro dim ⟨others, align, thread⟩
    simp only [attributeSizes, Prod.mk.injEq, List.cons.injEq, and_true] at eq
    obtain ⟨⟨-, -, -, -, alignSize, threadSize⟩, othersEq⟩ := eq
    refine ⟨othersEq ▸ others, fun arcs => ?_, fun layout => ?_⟩
    · rw [align arcs, map_none, map_eq_none_iff] at alignSize
      exact alignSize
    · rw [thread layout, map_none, map_eq_none_iff] at threadSize
      exact threadSize
  have first := before.append .graphArcs (fun zero => unused _ (used zero).1) 1
  have twice : grown st.sizeInfo .graphArcs (st.sizeInfo .graphArcs + 1) .arcsTwice =
      2 * st.rep.mAct := rfl
  have second := first.append .arcsTwice (fun zero => by
    rw [twice] at zero
    exact (unused _ (used (by omega)).2).append 1) 2
  have counters : sizeInfo ((s.appendItems .graphArcs 1).appendItems .arcsTwice 2) =
      grown (grown st.sizeInfo .graphArcs (st.sizeInfo .graphArcs + 1)) .arcsTwice
        (grown st.sizeInfo .graphArcs (st.sizeInfo .graphArcs + 1) .arcsTwice + 2) := by
    funext dim
    rw [sizeInfo_appendItems, sizeInfo_appendItems]
    cases dim with
    | graphNodes => exact (congrArg SparseState.nAct counts).trans nAct
    | graphArcs => exact (congrArg SparseState.mAct counts).trans mAct
    | arcsTwice =>
      change 2 * s.rep.mAct = 2 * st.rep.mAct + 2
      rw [counts, mAct]
      omega
    | layoutNodes => exact lAct
    | singleton => rfl
  rw [Sized, counters]
  exact second

theorem endsIn_sparseInsertArc (u v : ℕ) (cap length lower : ℚ) (sized : Sized st)
    (used : st.rep.mAct = 0 → Unused st .graphArcs ∧ Unused st .arcsTwice) :
    EndsIn Sized (sparseInsertArc u v cap length lower) st := by
  by_cases referenced : st.referenced = true
  · change EndsIn Sized (if st.referenced = true then _ else _) st
    rw [if_pos referenced]
    exact sized
  cases routed : st.rep.insertArc u v with
  | error e =>
    have stopped : onIncidences (fun rep => rep.insertArc u v) st = .error e st := by
      simp only [onIncidences, routed]
    change EndsIn Sized (if st.referenced = true then _ else _) st
    rw [if_neg referenced]
    exact bind_error stopped sized
  | ok rep =>
    obtain ⟨nAct, mAct⟩ := returns_insertArc st.rep u v rep routed
    have appended : Sized (appendItems (appendItems
        (entered { st with rep := rep } st.rep.mAct lower) .graphArcs 1) .arcsTwice 2) :=
      sized.arc used nAct mAct rfl rfl rfl
    have start : Sized (st.prepared rep length lower) :=
      ⟨appended.others, appended.align, appended.thread, appended.ucap, appended.lcap,
        appended.length.assign, appended.orientation⟩
    rw [EndsIn, finalState, sparseInsertArc_prepared (by simpa using referenced) routed mAct]
    refine bind (preserves_setUCap _ _) (fun _ => ?_) _ start
    refine (preserves_setLCap _ _).bind fun _ => bind ?_ fun _ => .pure _
    exact preserves_of_keeps (keeps_markAdjacency (fun _ _ => rfl) _ _ _)

theorem mAct_of_sparseInsertArc {u v a : ℕ} {cap length lower : ℚ}
    (res : sparseInsertArc u v cap length lower st = .ok a st') :
    st'.rep.mAct = st.rep.mAct + 1 := by
  rw [sparseInsertArc, run_bind_get] at res
  obtain ⟨referenced, res⟩ := of_run_check res
  obtain ⟨_, s, entered, res⟩ := of_run_bind res
  obtain ⟨rep, routed, rfl⟩ := of_onIncidences entered
  have free : FreeOfBounds fun s : SparseGraph => s.rep.mAct := fun _ _ _ _ _ _ => rfl
  refine (of_ok (f := fun s : SparseGraph => s.rep.mAct) ?_ res).trans
    (returns_insertArc st.rep u v rep routed).2
  refine bind (.ite (.bind (.modify fun _ => rfl) fun _ => .ite (.modify fun _ => rfl)
    (.pure _)) (.pure _)) fun _ => .bind (.modify fun _ => rfl) fun _ => ?_
  refine (keeps_setLength (fun _ _ => rfl) _ _).bind fun _ => (free.setUCap _ _).bind fun _ => ?_
  exact (free.setLCap _ _).bind fun _ => (keeps_markAdjacency (fun _ _ => rfl) _ _ _).bind fun _ =>
    .pure _

theorem endsIn_insertArc (u v : ℕ) (cap length lower : ℚ) (sized : Sized st)
    (used : st.rep.mAct = 0 → Unused st .graphArcs ∧ Unused st .arcsTwice) :
    EndsIn Sized (insertArc u v cap length lower) st := by
  have counted : ∀ {s : SparseGraph}, Sized s → Sized { s with m := s.m + 1 } := fun sized =>
    sized
  change EndsIn Sized (if st.n ≤ u then _ else _) st
  by_cases highU : st.n ≤ u
  · rw [if_pos highU]
    exact sized
  by_cases highV : st.n ≤ v
  · rw [if_neg highU, if_pos highV]
    exact sized
  rw [if_neg highU, if_neg highV]
  have later : ∀ s : SparseGraph, Sized s → (s.rep.mAct = 0 → Unused s .graphArcs ∧
      Unused s .arcsTwice) → EndsIn Sized (do
        modify fun st => { st with m := st.m + 1 }
        sparseInsertArc u v cap length lower : GraphM ℕ) s := fun s sized used =>
    endsIn_sparseInsertArc u v cap length lower (counted sized) used
  split_ifs with balanced
  · have first := endsIn_sparseInsertArc (SparseState.rev v) (SparseState.rev u) cap length lower
      (counted sized) used
    cases res : sparseInsertArc (SparseState.rev v) (SparseState.rev u) cap length lower
      { st with m := st.m + 1 } with
    | error e s =>
      refine bind_error (?_ : _ = EStateM.Result.error e s) ?_
      · rw [run_bind_modify]
        exact run_discard_error res
      · simpa only [EndsIn, finalState, res] using first
    | ok a s =>
      refine bind_ok (?_ : _ = EStateM.Result.ok () s) ?_
      · rw [run_bind_modify]
        exact run_discard_ok res
      · refine later s (first.of_ok res) fun zero => ?_
        have more := mAct_of_sparseInsertArc res
        rw [zero] at more
        cases more
  · exact later st sized used

theorem of_insertNode (sized : Sized st) (usedNodes : st.rep.nAct = 0 → Unused st .graphNodes)
    (usedLayout : st.lAct = 0 → Unused st .layoutNodes) {w : ℕ}
    (res : SparseGraph.insertNode st = .ok w st') :
    Sized st' ∧ st'.rep.nAct = st.rep.nAct + 1 := by
  rw [SparseGraph.insertNode, run_bind_modify] at res
  obtain ⟨v, s, inserted, res⟩ := of_run_bind res
  rw [run_bind_modify] at res
  cases res
  rw [sparseInsertNode, run_bind_get] at inserted
  obtain ⟨referenced, inserted⟩ := of_run_check inserted
  obtain ⟨_, s1, entered, inserted⟩ := of_run_bind inserted
  obtain ⟨rep, routed, rfl⟩ := of_onIncidences entered
  rw [run_bind_modify, run_bind_modify, run_bind_get] at inserted
  obtain ⟨_, s2, swapped, inserted⟩ := of_run_bind inserted
  cases inserted
  obtain ⟨nAct, mAct⟩ := returns_insertNode st.rep rep routed
  have eq := (ite (f := shape) (keeps_shape_swapNodes _ _) (.pure ())).of_ok swapped
  have first := SizedBy.append sized .graphNodes usedNodes 1
  have second := first.append .layoutNodes (fun zero => (usedLayout zero).append 1) 1
  have counters : sizeInfo (appendItems (appendItems
      { st with n := st.n + 1, rep := rep, lAct := st.lAct + 1,
                lMax := if st.lMax + 1 = st.lAct + 1 then st.lMax + 1 else st.lMax }
        .graphNodes 1) .layoutNodes 1) =
      grown (grown st.sizeInfo .graphNodes (st.sizeInfo .graphNodes + 1)) .layoutNodes
        (grown st.sizeInfo .graphNodes (st.sizeInfo .graphNodes + 1) .layoutNodes + 1) := by
    funext dim
    cases dim with
    | graphNodes => exact nAct
    | graphArcs => exact mAct
    | arcsTwice => exact congrArg (2 * ·) mAct
    | layoutNodes | singleton => rfl
  have appended : Sized (appendItems (appendItems
      { st with n := st.n + 1, rep := rep, lAct := st.lAct + 1,
                lMax := if st.lMax + 1 = st.lAct + 1 then st.lMax + 1 else st.lMax }
        .graphNodes 1) .layoutNodes 1) := by
    rw [Sized, counters]
    exact second
  have after := appended.congr eq
  refine ⟨after, ?_⟩
  have count := congrArg (fun s => s.1.1) eq
  exact count.trans nAct

end Methods

/-! ## Tokens and nodes -/

section Frame

open SparseGraph

variable {α : Type} {st : SparseGraph}

/-- The number of graph nodes and the dimensions of the attributes. -/
def frame (st : SparseGraph) : ℕ × List ArrayDim := (st.rep.nAct, st.others.map fst)

theorem keeps_frame_of_shape {x : GraphM α} (keeps : Keeps shape x) : Keeps frame x := by
  intro st
  have eq := keeps st
  have counts := congrArg (fun s => s.1.1) eq
  have others := congrArg (fun s => s.2.2.map fst) eq
  exact ext counts others

section

variable (st : SparseGraph) (dim : ArrayDim) (k : ℕ)

theorem dims_appendItems : (st.appendItems dim k).others.map fst = st.others.map fst := by
  have others : (st.others.map fun A => if A.1 = dim ∧ A.2 ≠ 0 then (A.1, A.2 + k) else A).map
      fst = st.others.map fst := by
    rw [List.map_map]
    refine List.map_congr_left fun A _ => ?_
    simp only [Function.comp_apply]
    split_ifs <;> rfl
  cases dim <;> exact others

theorem rep_appendItems : (st.appendItems dim k).rep = st.rep := by
  cases dim <;> rfl

theorem frame_appendItems : frame (st.appendItems dim k) = frame st := by
  rw [frame, frame, rep_appendItems, dims_appendItems]

end

theorem keeps_dims_insertNode :
    Keeps (fun st : SparseGraph => st.others.map fst) SparseGraph.insertNode := by
  refine .bind (.modify fun _ => rfl) fun _ => .bind ?_ fun v =>
    .bind (.modify fun _ => rfl) fun _ => .pure _
  refine .bind .get fun st => .ite (.throw _) ((keeps_onIncidences fun _ _ => rfl).bind fun _ => ?_)
  refine .bind (.modify fun _ => rfl) fun _ => .bind (.modify fun st => ?_) fun _ => ?_
  · rw [dims_appendItems, dims_appendItems]
  refine .bind .get fun st => .bind (.ite ?_ (.pure _)) fun _ => .pure _
  intro s
  exact congrArg (fun s => s.2.2.map fst) (keeps_shape_swapNodes _ _ s)

theorem frame_freeOfLayout : FreeOfLayout frame := fun st _ _ _ _ _ dims =>
  ext (Eq.refl st.rep.nAct) dims

theorem keeps_frame_insertLayoutPoint : Keeps frame insertLayoutPoint := by
  refine .bind .get fun st => .ite (.throw _) (.bind (.modify fun _ => rfl) fun _ => ?_)
  exact .bind (.modify fun st => frame_appendItems st _ _) fun _ =>
    .bind (.modify fun _ => rfl) fun _ => .pure _

theorem keeps_frame_initArray (A : Option (Attribute (Option ℕ))) (size : ℕ) :
    Keeps frame (SparseGraph.initArray A size) := by
  cases A with
  | none => exact .pure _
  | some A => exact .throw _

theorem keeps_frame_insertArcLabelAnchor (a : ℕ) : Keeps frame (insertArcLabelAnchor a) := by
  refine .bind .get fun st => .ite (.throw _) (keeps_frame_insertLayoutPoint.bind fun u => ?_)
  refine .bind .get fun st => .bind ?_ fun _ => .bind (.modify fun _ => rfl) fun _ => .pure _
  cases getArray st.align with
  | some align => exact .ite (.throw _) (.modify fun _ => rfl)
  | none => exact (keeps_frame_initArray _ _).bind fun align => .modify fun _ => rfl

theorem keeps_frame_insertThreadSuccessor (v : ℕ) : Keeps frame (insertThreadSuccessor v) := by
  refine .bind .get fun st => .ite (.throw _) (keeps_frame_insertLayoutPoint.bind fun u => ?_)
  refine .bind .get fun st => .bind ?_ fun thread =>
    .bind (.modify fun _ => rfl) fun _ => .pure _
  cases getArray st.thread with
  | some thread => exact .pure _
  | none => exact keeps_frame_initArray _ _

theorem frame_freeOfBounds : FreeOfBounds frame := fun _ _ _ _ _ _ => rfl

section

variable (u v : ℕ) (cap length lower : ℚ)

theorem keeps_frame_sparseInsertArc :
    Keeps frame (sparseInsertArc u v cap length lower) := by
  refine .bind .get fun st => .ite (.throw _) (.bind ?_ fun _ => ?_)
  · intro st
    simp only [KeepsAt, finalState, onIncidences]
    cases routed : st.rep.insertArc u v with
    | ok rep => exact ext (returns_insertArc st.rep u v rep routed).1 rfl
    | error e => rfl
  refine .bind (.ite (.bind (.modify fun _ => rfl) fun _ => .ite (.modify fun _ => rfl)
    (.pure _)) (.pure _)) fun _ => .bind (.modify fun st => ?_) fun _ => ?_
  · rw [frame_appendItems, frame_appendItems]
  refine (keeps_setLength (fun _ _ => rfl) _ _).bind fun _ =>
    (frame_freeOfBounds.setUCap _ _).bind fun _ => (frame_freeOfBounds.setLCap _ _).bind fun _ => ?_
  exact (keeps_markAdjacency (fun _ _ => rfl) _ _ _).bind fun _ => .pure _

theorem keeps_frame_insertArc :
    Keeps frame (insertArc u v cap length lower) := by
  refine .bind .get fun st => .ite (.throw _) (.ite (.throw _) (.bind (.ite ?_ (.pure _))
    fun _ => .bind (.modify fun _ => rfl) fun _ => keeps_frame_sparseInsertArc _ _ _ _ _))
  exact .bind (.modify fun _ => rfl) fun _ => (keeps_frame_sparseInsertArc _ _ _ _ _).discard

end

end Frame

/-! ## Pools -/

variable {pg : PooledGraph} {α : Type} {x : GraphM α}

/-- All attributes have the sizes of the graph. -/
structure Follows (pg : PooledGraph) : Prop where
  sized : Sized pg.graph
  demand : Ranked pg.demand pg.graph.rep.nAct
  tokens : pg.graph.others.map fst = pg.tokens.map PoolToken.arrayDim

theorem finalState_lift (x : GraphM α) (pg : PooledGraph) :
    finalState (lift x) pg = { pg with graph := finalState x pg.graph } := by
  simp only [finalState, lift]
  cases x pg.graph with
  | ok val graph | error e graph => rfl

theorem Follows.endsIn_lift (follows : Follows pg) (ends : EndsIn Sized x pg.graph)
    (keeps : Keeps frame x) : EndsIn Follows (lift x) pg := by
  rw [EndsIn, finalState_lift]
  have eq := keeps pg.graph
  have nodes : (finalState x pg.graph).rep.nAct = pg.graph.rep.nAct := congrArg fst eq
  have dims : (finalState x pg.graph).others.map fst = pg.graph.others.map fst :=
    congrArg snd eq
  refine ⟨ends, ?_, dims.trans follows.tokens⟩
  dsimp only
  rw [nodes]
  exact follows.demand

theorem preserves_lift (sized : Preserves Sized x) (keeps : Keeps frame x) :
    Preserves Follows (lift x) := fun pg follows =>
  follows.endsIn_lift (sized pg.graph follows.sized) keeps

theorem preserves_lift_of_shape (keeps : Keeps shape x) : Preserves Follows (lift x) :=
  preserves_lift (preserves_of_keeps keeps) (keeps_frame_of_shape keeps)

/-! ### Attributes that come and go -/

section

variable (token : PoolToken)
include token

theorem preserves_makeAttribute : Preserves Follows (makeAttribute token) := by
  refine .get_bind fun pg follows => ?_
  split_ifs
  · exact follows
  refine ⟨⟨fun A mem => ?_, follows.sized.align, follows.sized.thread, follows.sized.ucap,
    follows.sized.lcap, follows.sized.length, follows.sized.orientation⟩, follows.demand, ?_⟩
  · rcases mem_cons.1 mem with rfl | old
    · cases token <;> rfl
    · exact follows.sized.others A old
  · exact congrArg (List.cons token.arrayDim) follows.tokens

theorem preserves_initAttribute : Preserves Follows (initAttribute token) := by
  refine .get_bind fun pg follows => ?_
  split_ifs
  · exact follows
  · exact preserves_makeAttribute token pg follows

theorem preserves_initArray : Preserves Follows (initArray token) :=
  (preserves_initAttribute token).bind fun _ => .ite (.pure _) (.throw _)

theorem preserves_releaseAttribute : Preserves Follows (releaseAttribute token) := by
  refine .get_bind fun pg follows => ?_
  refine ⟨⟨fun A mem => ?_, follows.sized.align, follows.sized.thread, follows.sized.ucap,
    follows.sized.lcap, follows.sized.length, follows.sized.orientation⟩, follows.demand, ?_⟩
  · exact follows.sized.others A (mem_of_mem_eraseIdx mem)
  · change (pg.graph.others.eraseIdx _).map fst = (pg.tokens.eraseIdx _).map PoolToken.arrayDim
    rw [← eraseIdx_map, ← eraseIdx_map, follows.tokens]

theorem preserves_writeEntry (i : ℕ) : Preserves Follows (writeEntry token i) := by
  refine .get_bind fun pg follows => ?_
  cases pg.attributeSize token with
  | none => exact follows
  | some size =>
    dsimp only
    split_ifs
    · exact follows
    · exact follows

theorem preserves_setRegister (i : ℕ) (isDefault : Prop) [Decidable isDefault] :
    Preserves Follows (setRegister token i isDefault) := by
  refine .get_bind fun pg follows => ?_
  have absent : Preserves Follows (if isDefault then pure () else do
      initArray token
      writeEntry token i : PoolM Unit) :=
    .ite (.pure _) ((preserves_initArray token).bind fun _ => preserves_writeEntry token i)
  split
  · exact preserves_writeEntry token i pg follows
  · exact absent pg follows

end

theorem preserves_setC (v i : ℕ) (pos : ℚ) : Preserves Follows (setC v i pos) := by
  refine .get_bind fun pg follows => ?_
  have write := preserves_writeEntry (axis i) v
  refine ite (.throw _) (.ite (.pure _) (.ite write (.ite (.pure _) ?_))) pg follows
  exact (preserves_initAttribute _).bind fun _ => .ite write (.pure _)

/-! ### Deletions -/

theorem preserves_cancelArc (a : ℕ) : Preserves Follows (cancelArc a) := by
  refine .get_bind fun pg follows => ?_
  refine bind (preserves_lift_of_shape (keeps_shape_cancelArc a)) (fun _ => ?_) pg follows
  exact .ite (preserves_initAttribute _).discard (preserves_releaseAttribute _)

theorem preserves_cancelLoop (v : ℕ) : ∀ fuel : ℕ, Preserves Follows (cancelLoop v fuel)
  | 0 => .throw _
  | fuel + 1 => by
    refine .get_bind fun pg follows => ?_
    cases pg.graph.rep.first v with
    | none => exact follows
    | some a =>
      exact (preserves_cancelArc a).bind (fun _ => preserves_cancelLoop v fuel) pg follows

theorem preserves_cancelNode (v : ℕ) : Preserves Follows (cancelNode v) := by
  refine .get_bind fun pg follows => ?_
  refine ite (.throw _) ?_ pg follows
  exact (preserves_cancelLoop v _).bind fun _ => preserves_setC v 0 _

theorem Follows.eraseArc (follows : Follows pg) (m ni : ℕ) : Follows { pg with
    graph := { (pg.graph.eraseItems .graphArcs 1).eraseItems .arcsTwice 2 with
      rep := { pg.graph.rep with mAct := pg.graph.rep.mAct - 1 }, m := m, ni := ni } } := by
  have erased := (SizedBy.erase follows.sized .graphArcs 1).erase .arcsTwice 2
  refine ⟨?_, follows.demand, ?_⟩
  · have counters : sizeInfo { (pg.graph.eraseItems .graphArcs 1).eraseItems .arcsTwice 2 with
          rep := { pg.graph.rep with mAct := pg.graph.rep.mAct - 1 }, m := m, ni := ni } =
        grown (grown pg.graph.sizeInfo .graphArcs (pg.graph.sizeInfo .graphArcs - 1)) .arcsTwice
          (grown pg.graph.sizeInfo .graphArcs (pg.graph.sizeInfo .graphArcs - 1) .arcsTwice - 2) := by
      funext dim
      cases dim with
      | arcsTwice =>
        change 2 * (pg.graph.rep.mAct - 1) = 2 * pg.graph.rep.mAct - 2
        omega
      | graphNodes | graphArcs | layoutNodes | singleton => rfl
    dsimp only
    rw [Sized, counters]
    exact erased
  · dsimp only
    rw [dims_eraseItems, dims_eraseItems]
    exact follows.tokens

theorem preserves_deleteArc (a : ℕ) : Preserves Follows (deleteArc a) := by
  refine .get_bind fun pg follows => ?_
  refine ite (.throw _) ?_ pg follows
  refine bind (.ite (preserves_cancelArc _) (.pure _)) fun _ => ?_
  refine bind (preserves_lift (preserves_releaseBendNodes _).discard
    (frame_freeOfLayout.releaseBendNodes _).discard) fun _ => ?_
  refine bind (preserves_lift_of_shape (keeps_shape_swapArcs _ _)) fun _ => ?_
  exact fun pg follows => follows.eraseArc _ _

theorem preserves_deleteArcs : ∀ fuel a : ℕ, Preserves Follows (deleteArcs fuel a)
  | 0, _ => .throw _
  | fuel + 1, a => by
    refine .get_bind fun pg follows => ?_
    refine ite (.ite ?_ (preserves_deleteArcs fuel (a + 2))) (.pure _) pg follows
    exact (preserves_deleteArc a).bind fun _ => preserves_deleteArcs fuel a

theorem Follows.eraseNode (follows : Follows pg) : Follows { pg with
    demand := pg.demand.map fun A => A.eraseItems 1
    graph := { (pg.graph.eraseItems .graphNodes 1).eraseItems .layoutNodes 1 with
      rep := { pg.graph.rep with nAct := pg.graph.rep.nAct - 1 }
      lAct := pg.graph.lAct - 1 } } := by
  have erased := (SizedBy.erase follows.sized .graphNodes 1).erase .layoutNodes 1
  refine ⟨?_, SparseGraph.ranked_eraseItems follows.demand 1, ?_⟩
  · have counters : sizeInfo { (pg.graph.eraseItems .graphNodes 1).eraseItems .layoutNodes 1 with
          rep := { pg.graph.rep with nAct := pg.graph.rep.nAct - 1 }
          lAct := pg.graph.lAct - 1 } =
        grown (grown pg.graph.sizeInfo .graphNodes (pg.graph.sizeInfo .graphNodes - 1)) .layoutNodes
          (grown pg.graph.sizeInfo .graphNodes (pg.graph.sizeInfo .graphNodes - 1) .layoutNodes
            - 1) := by
      funext dim
      cases dim <;> rfl
    dsimp only
    rw [Sized, counters]
    exact erased
  · dsimp only
    rw [dims_eraseItems, dims_eraseItems]
    exact follows.tokens

theorem preserves_deleteGraphNode (v : ℕ) : Preserves Follows (deleteGraphNode v) := by
  refine bind (preserves_lift_of_shape (.modify fun _ => rfl)) fun _ => ?_
  refine (preserves_releaseAttribute _).bind fun _ => ?_
  refine bind (preserves_lift_of_shape (.modify fun _ => rfl)) fun _ => ?_
  refine (preserves_cancelNode v).bind fun _ => ?_
  refine bind (preserves_lift (preserves_releaseShapeNodes v).discard
    (frame_freeOfLayout.releaseShapeNodes v).discard) fun _ => ?_
  refine .get_bind fun pg follows => ?_
  refine bind (preserves_lift_of_shape (keeps_shape_swapNodes _ _)) (fun _ => ?_) pg follows
  refine .get_bind fun pg follows => ?_
  refine bind (preserves_lift_of_shape (.ite (keeps_shape_swapNodes _ _) (.pure _)))
    (fun _ pg follows => ?_) pg follows
  -- The demands are erased before the other entries, so the two steps are taken together.
  refine bind_ok rfl (bind_ok rfl ?_)
  refine get_bind (fun pg follows => ?_) _ follows.eraseNode
  exact preserves_deleteArcs _ 0 pg follows

theorem preserves_deleteNode (v : ℕ) : Preserves Follows (deleteNode v) := by
  refine .get_bind fun pg follows => ?_
  refine ite (.throw _) (bind (.ite (preserves_deleteGraphNode v) ?_) fun _ => ?_) pg follows
  · exact preserves_lift ((preserves_bypass v).bind fun _ => preserves_eraseLayoutNode v)
      ((frame_freeOfLayout.bypass v).bind fun _ => frame_freeOfLayout.eraseLayoutNode v)
  · exact preserves_lift_of_shape (.modify fun _ => rfl)

/-! ## Runs -/

theorem Follows.insertNode (follows : Follows pg)
    (harmless : pg.Harmless .insertNode) : EndsIn Follows PooledGraph.insertNode pg := by
  by_cases accepts : pg.graph.referenced = false ∧ pg.graph.rep.nMax ≤ pg.graph.rep.maxNode - 1
  · obtain ⟨w, st', res⟩ := SparseGraph.insertNode_ok accepts.1 accepts.2
    obtain ⟨sized, nodes⟩ := of_insertNode follows.sized harmless.1 harmless.2 res
    have dims := keeps_dims_insertNode.of_ok res
    have lifted : PooledGraph.lift SparseGraph.insertNode pg = .ok w { pg with graph := st' } := by
      simp only [PooledGraph.lift, res]
    refine bind_ok lifted ⟨sized, ?_, dims.trans follows.tokens⟩
    change Ranked (pg.demand.map fun A => A.appendItems 1) st'.rep.nAct
    rw [nodes]
    exact follows.demand.append 1
  · obtain ⟨e, failed⟩ := SparseGraph.insertNode_error accepts
    have lifted : PooledGraph.lift SparseGraph.insertNode pg =
        .error e { pg with graph := { pg.graph with n := pg.graph.n + 1 } } := by
      simp only [PooledGraph.lift, failed]
    exact bind_error lifted ⟨follows.sized, follows.demand, follows.tokens⟩

theorem Follows.step (follows : Follows pg) (req : Request) (harmless : pg.Harmless req) :
    EndsIn Follows req.run pg := by
  have register : ∀ (token : PoolToken) (i : ℕ) (isDefault refused : Prop) [Decidable isDefault]
      [Decidable refused] (e : Raise), EndsIn Follows
        (if refused then throw e else setRegister token i isDefault : PoolM Unit) pg :=
    fun token i isDefault refused _ _ e =>
      ite (.throw e) (preserves_setRegister token i isDefault) pg follows
  cases req with
  | insertNode =>
    exact (follows.insertNode harmless).discard
  | insertArc u v cap length lower =>
    exact follows.endsIn_lift (endsIn_insertArc u v cap length lower follows.sized harmless).discard
      (keeps_frame_insertArc u v cap length lower).discard
  | insertLayoutPoint =>
    exact follows.endsIn_lift (endsIn_insertLayoutPoint follows.sized harmless).discard
      keeps_frame_insertLayoutPoint.discard
  | insertArcLabelAnchor a =>
    exact follows.endsIn_lift (endsIn_insertArcLabelAnchor a follows.sized harmless).discard
      (keeps_frame_insertArcLabelAnchor a).discard
  | insertThreadSuccessor v =>
    exact follows.endsIn_lift (endsIn_insertThreadSuccessor v follows.sized harmless).discard
      (keeps_frame_insertThreadSuccessor v).discard
  | cancelArc a => exact preserves_cancelArc a pg follows
  | cancelNode v => exact preserves_cancelNode v pg follows
  | deleteArc a => exact preserves_deleteArc a pg follows
  | deleteNode v => exact preserves_deleteNode v pg follows
  | swapNodes u v => exact preserves_lift_of_shape (keeps_shape_swapNodes u v) pg follows
  | setLength a x =>
    exact preserves_lift (preserves_setLength a x) (SparseGraph.keeps_setLength (fun _ _ => rfl) a x) pg
      follows
  | setUCap a x =>
    exact preserves_lift (preserves_setUCap a x) (frame_freeOfBounds.setUCap a x) pg follows
  | setLCap a x =>
    exact preserves_lift (preserves_setLCap a x) (frame_freeOfBounds.setLCap a x) pg follows
  | setDemand v x =>
    refine ite (.throw _) (.modify fun pg follows => ?_) pg follows
    exact ⟨follows.sized, follows.demand.assign, follows.tokens⟩
  | setCLength x =>
    refine ⟨⟨follows.sized.others, follows.sized.align, follows.sized.thread, follows.sized.ucap,
      follows.sized.lcap, ranked_constant x, follows.sized.orientation⟩, follows.demand,
      follows.tokens⟩
  | setCUCap x =>
    refine preserves_lift (preserves_setCUCap x) (.ite (.throw _) ?_) pg follows
    exact bind (.modify fun _ => rfl) fun _ => .modify fun _ => rfl
  | setCLCap x =>
    refine preserves_lift (preserves_setCLCap x) (.ite (.throw _) ?_) pg follows
    exact bind (.modify fun _ => rfl) fun _ => .modify fun _ => rfl
  | setCDemand x => exact ⟨follows.sized, ranked_constant x, follows.tokens⟩
  | setC v i x => exact preserves_setC v i x pg follows
  | setDist v x | setPotential v x | setNodeColour v x => exact register _ _ _ _ _
  | setEdgeColour a x => exact register _ _ _ _ _
  | setPred v x =>
    refine ite (.throw _) (.ite (.throw _) (.ite (.throw _) ?_)) pg follows
    exact preserves_setRegister _ _ _
  | initArray token => exact preserves_initArray token pg follows
  | releaseAttribute token => exact preserves_releaseAttribute token pg follows

/-- The graphs that are reached by harmless requests. Requests may raise. -/
inductive Reaches (start : PooledGraph) : PooledGraph → Prop
  | start : Reaches start start
  | step {pg : PooledGraph} (request : Request) (reach : Reaches start pg)
      (harmless : pg.Harmless request) : Reaches start (finalState request.run pg)

theorem Reaches.follows {start : PooledGraph} (initial : start.Follows) (reaches : Reaches start pg) :
    pg.Follows := by
  induction reaches with
  | start => exact initial
  | step req _ harmless ih => exact ih.step req harmless

theorem new_follows (n maxNode maxArc : ℕ) {orientation : Option (Attribute ℕ)}
    (constant : ∀ A, orientation = some A → A.size = 0) :
    (new n maxNode maxArc orientation).Follows := by
  have absent : ∀ {β : Type} (count : ℕ), Ranked (none : Option (Attribute β)) count := by
    intro β count B val
    cases val
  refine ⟨⟨fun A mem => ?_, fun A val => ?_, fun A val => ?_, absent _, absent _, absent _,
    fun A val => .inl (constant A val)⟩, absent _, rfl⟩
  · cases mem
  · cases val
  · cases val

theorem find_token : ∀ (tokens : List PoolToken) (others : List (ArrayDim × ℕ)),
    others.map fst = tokens.map PoolToken.arrayDim → ∀ token ∈ tokens,
    ∃ A ∈ others, A.1 = token.arrayDim ∧
      ((tokens.zip others).find? fun A => A.1 = token) = some (token, A)
  | [], _, _, _, mem => by cases mem
  | t :: tokens, [], eq, _, _ => by cases eq
  | t :: tokens, A :: others, eq, token, mem => by
    obtain ⟨head, tail⟩ := List.cons.inj eq
    by_cases here : t = token
    · subst here
      exact ⟨A, mem_cons_self, head, by simp⟩
    · have later := (mem_cons.1 mem).resolve_left (Ne.symm here)
      obtain ⟨B, inside, dim, found⟩ := find_token tokens others tail token later
      exact ⟨B, mem_cons_of_mem A inside, dim, by simpa [here] using found⟩

/-- **The attribute sizes follow the graph.** In every run of harmless requests, also if some of
them raise, every attribute of the full-rank pools has as many entries as the graph has
items of its dimension, and every attribute of the pool `representation` has as many or none. -/
theorem attribute_sizes {n maxNode maxArc : ℕ} {orientation : Option (Attribute ℕ)}
    (constant : ∀ A, orientation = some A → A.size = 0)
    (reaches : Reaches (new n maxNode maxArc orientation) pg) :
    (∀ token ∈ pg.tokens, pg.attributeSize token = some (pg.graph.sizeInfo token.arrayDim)) ∧
    (∀ A, pg.graph.align = some A → A.size = pg.graph.sizeInfo .graphArcs) ∧
    (∀ A, pg.graph.thread = some A → A.size = pg.graph.sizeInfo .layoutNodes) ∧
    Ranked pg.graph.ucap (pg.graph.sizeInfo .graphArcs) ∧
    Ranked pg.graph.lcap (pg.graph.sizeInfo .graphArcs) ∧
    Ranked pg.graph.length (pg.graph.sizeInfo .graphArcs) ∧
    Ranked pg.graph.orientation (pg.graph.sizeInfo .graphArcs) ∧
    Ranked pg.demand (pg.graph.sizeInfo .graphNodes) := by
  have follows := reaches.follows (new_follows n maxNode maxArc constant)
  refine ⟨fun token member => ?_, follows.sized.align, follows.sized.thread, follows.sized.ucap,
    follows.sized.lcap, follows.sized.length, follows.sized.orientation, follows.demand⟩
  obtain ⟨A, inside, dim, found⟩ := find_token pg.tokens pg.graph.others follows.tokens token member
  rw [attributeSize, found, map_some, follows.sized.others A inside, dim]

/-- A graph with labels shrinks and grows. -/
theorem attribute_sizes_run : ∃ pg, Reaches (new 2 100 100 none) pg ∧ pg.graph.rep.nAct = 2 ∧
    pg.attributeSize .regPredecessor = some 2 := by
  have run1 : Reaches (new 2 100 100 none) _ := .step (.initArray .regPredecessor) .start trivial
  have run2 : Reaches (new 2 100 100 none) _ := .step (.deleteNode 0) run1 trivial
  have run3 : Reaches (new 2 100 100 none) _ :=
    .step .insertNode run2 ⟨fun zero => absurd zero (by decide +kernel),
      fun zero => absurd zero (by decide +kernel)⟩
  obtain ⟨sizes, -⟩ := attribute_sizes (fun A value => by cases value) run3
  generalize eq : finalState Request.insertNode.run _ = pg at run3 sizes
  have nodes : pg.graph.rep.nAct = 2 := by
    rw [← eq]
    decide +kernel
  refine ⟨pg, run3, nodes, (sizes .regPredecessor ?_).trans (congrArg some nodes)⟩
  rw [← eq]
  decide +kernel

/-- The only node is deleted and a new one is inserted. The coordinates have no entry for it. -/
theorem attribute_sizes_lost :
    (finalState Request.insertNode.run (finalState (Request.deleteNode 0).run
      (new 1 100 100 none))).attributeSize .geoAxis0 = some 0 ∧
    (finalState Request.insertNode.run (finalState (Request.deleteNode 0).run
      (new 1 100 100 none))).graph.sizeInfo PoolToken.geoAxis0.arrayDim = 1 := by
  decide

end Goblin.PooledGraph
