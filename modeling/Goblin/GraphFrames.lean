import Goblin.Multiplicities

/-!
# Frames

What the methods of a sparse graph leave alone, whether they return or raise. The assignments
of multiplicities and capacities do not touch the incidence lists, and neither do the methods that
release layout nodes. `core` is the part of the state on which the incidences and the
table of adjacencies depend.
-/

set_option autoImplicit false

namespace Goblin.SparseGraph

open Library List Option Function
open Attribute (getValue setValue size swapItems)
open SparseState (rev)

variable {st st' s : SparseGraph} {k u v a : ℕ} {cap length lower : ℚ} {rep : SparseState}
  {b i j : ℕ} {x : ℚ}

theorem half_double (k : ℕ) : 2 * k / 2 = k := by omega

/-- The incidence lists of the new arc. -/
structure Routed (st : SparseGraph) (u v : ℕ) (rep : SparseState) : Prop where
  result : st.rep.insertArc u v = .ok rep
  sound : rep.Sound
  size : SparseState.SameSize { st.rep with
    mAct := st.rep.mAct + 1
    mMax := if st.rep.mMax + 1 = st.rep.mAct + 1 then st.rep.mMax + 1 else st.rep.mMax } rep
  startNode : rep.startNode =
    update (update st.rep.startNode (2 * st.rep.mAct) (some u)) (2 * st.rep.mAct + 1) (some v)

theorem rev_double (k : ℕ) : rev (2 * k) = 2 * k + 1 := by
  rw [SparseState.rev_eq, if_pos (by omega)]

section Routed

variable {rep : SparseState} (routed : st.Routed u v rep)

include routed

theorem Routed.count : rep.mAct = st.rep.mAct + 1 := routed.size.mAct

theorem Routed.start_new : rep.startNode (2 * st.rep.mAct) = some u := by
  rw [routed.startNode, update_of_ne (by omega), update_self]

theorem Routed.start_rev : rep.startNode (rev (2 * st.rep.mAct)) = some v := by
  rw [routed.startNode, rev_double, update_self]

theorem Routed.start_old (low : b < 2 * st.rep.mAct) : rep.startNode b = st.rep.startNode b := by
  rw [routed.startNode, update_of_ne (by omega), update_of_ne (by omega)]

end Routed

/-! ## Values of the attributes -/

theorem valueOf_appendItems {α : Type} (A : Option (Attribute α)) (default : α) (k i : ℕ) :
    valueOf (A.map fun B => B.appendItems k) default i = valueOf A default i := by
  cases A with
  | none => rfl
  | some B => exact getValue_appendItems B k i

theorem valueOf_beyond {α : Type} {A : Option (Attribute α)} {default : α} {count i j : ℕ}
    (ranked : Ranked A count) (beyondI : count ≤ i) (beyondJ : count ≤ j) :
    valueOf A default i = valueOf A default j := by
  cases A with
  | none => rfl
  | some B =>
    have size : B.data.length ≤ count := by
      rcases ranked B rfl with zero | full
      · exact zero.le.trans (Nat.zero_le count)
      · exact full.le
    change B.data.getD i _ = B.data.getD j _
    rw [getD_eq_default _ _ (size.trans beyondI), getD_eq_default _ _ (size.trans beyondJ)]

theorem getValue_eraseItems {α : Type} (B : Attribute α) {count j : ℕ} (full : B.size = count + 1)
    (low : j < count) : (B.eraseItems 1).getValue j = B.getValue j := by
  have size : B.data.length = count + 1 := full
  have some : ¬ B.data.isEmpty = true := by
    rw [isEmpty_iff_length_eq_zero, size]
    omega
  rw [Attribute.eraseItems, if_neg some, getValue, getValue]
  dsimp only
  rw [getD_eq_getElem _ _ (by rw [length_take]; omega),
    getD_eq_getElem _ _ (by omega), getElem_take]

theorem getValue_swapItems {α : Type} (B : Attribute α) (lowI : i < B.size) (lowJ : j < B.size) :
    (B.swapItems i j).getValue k = B.getValue (if k = j then i else if k = i then j else k) := by
  have both : i < B.data.length ∧ j < B.data.length := ⟨lowI, lowJ⟩
  rw [swapItems, if_pos both]
  change ((B.setValue i (B.getValue j)).setValue j (B.getValue i)).getValue k = _
  rw [getValue_setValue _ (by simpa [size, setValue] using lowJ), getValue_setValue _ lowI]
  split_ifs <;> rfl

@[simp]
theorem size_setValue {α : Type} (B : Attribute α) (i : ℕ) (x : α) :
    (B.setValue i x).size = B.size := by
  simp [setValue, size]

theorem size_swapItems {α : Type} (B : Attribute α) (i j : ℕ) : (B.swapItems i j).size = B.size := by
  rw [swapItems]
  split_ifs
  · simp [size]
  · rfl

/-- The values of an attribute after the last edge has moved to the place of the edge `i`. -/
theorem valueOf_removed {α : Type} {A : Option (Attribute α)} {default : α} {count i j : ℕ}
    (ranked : Ranked A (count + 1)) (lowI : i ≤ count) (lowJ : j < count) :
    valueOf ((if i = count then A else A.map fun B => B.swapItems i count).map
      fun B => B.eraseItems 1) default j = valueOf A default (if j = i then count else j) := by
  cases A with
  | none => simp [valueOf]
  | some B =>
    rcases ranked B rfl with empty | full
    · have data : B.data = [] := eq_nil_of_length_eq_zero empty
      have swap : B.swapItems i count = B := by simp [swapItems, data]
      have erase : B.eraseItems 1 = B := by simp [Attribute.eraseItems, data]
      have val : ∀ k, B.getValue k = B.defaultValue := fun k => by simp [getValue, data]
      simp only [map_some, swap, ite_self, erase]
      simp [valueOf, val]
    · by_cases isLast : i = count
      · rw [if_pos isLast, if_neg (by omega)]
        exact getValue_eraseItems B full lowJ
      · have size : (B.swapItems i count).size = count + 1 := by rw [size_swapItems, full]
        rw [if_neg isLast]
        change ((B.swapItems i count).eraseItems 1).getValue j = B.getValue _
        rw [getValue_eraseItems _ size lowJ, getValue_swapItems B (by omega) (by omega),
          if_neg (by omega)]

theorem Ranked.swapItems {α : Type} {A : Option (Attribute α)} {count : ℕ} (ranked : Ranked A count)
    (i j : ℕ) : Ranked (A.map fun B => B.swapItems i j) count := by
  intro B val
  obtain ⟨B0, rfl, rfl⟩ := map_eq_some_iff.1 val
  rw [size_swapItems]
  exact ranked B0 rfl

theorem size_eraseItems {α : Type} {A : Attribute α} {count : ℕ} (full : A.size = count) (k : ℕ) :
    (A.eraseItems k).size = count - k := by
  rw [Attribute.eraseItems]
  by_cases empty : A.data.isEmpty = true
  · rw [if_pos empty, full]
    rw [List.isEmpty_iff] at empty
    rw [← full, size, empty, length_nil, Nat.zero_sub]
  · rw [if_neg empty]
    simp only [size, length_take] at full ⊢
    omega

theorem ranked_eraseItems {α : Type} {A : Option (Attribute α)} {count : ℕ} (ranked : Ranked A count) (k : ℕ) :
    Ranked (A.map fun B => B.eraseItems k) (count - k) := by
  intro B val
  obtain ⟨B0, val0, rfl⟩ := map_eq_some_iff.1 val
  rcases ranked B0 val0 with empty | full
  · left
    rw [size_eraseItems empty, Nat.zero_sub]
  · right
    exact size_eraseItems full k

theorem Ranked.eraseItems {α : Type} {A : Option (Attribute α)} {count : ℕ}
    (ranked : Ranked A (count + 1)) : Ranked (A.map fun B => B.eraseItems 1) count :=
  ranked_eraseItems ranked 1

theorem blocking_congr (parity : a % 2 = b % 2)
    (eq : valueOf st'.orientation 0 (a / 2) = valueOf st.orientation 0 (b / 2)) :
    st'.blocking a = st.blocking b := by
  have orientation : st'.orientationOf a = st.orientationOf b := eq
  rw [blocking, blocking, orientation, parity]

theorem blocking_even (st : SparseGraph) (k : ℕ) : st.blocking (2 * k) = false := by
  simp [blocking]

theorem blocking_beyond (ranked : Ranked st.orientation st.rep.mAct) (highI : st.rep.mAct ≤ i)
    (highJ : st.rep.mAct ≤ j) : st.blocking (2 * i + 1) = st.blocking (2 * j + 1) := by
  have halfI : (2 * i + 1) / 2 = i := by omega
  have halfJ : (2 * j + 1) / 2 = j := by omega
  refine blocking_congr (by omega) ?_
  rw [halfI, halfJ]
  exact valueOf_beyond ranked highI highJ

/-! ## Assignments -/

theorem keeps_markAdjacency {γ : Type} {f : SparseGraph → γ}
    (eq : ∀ (st : SparseGraph) (adj : Option (ℕ → Option ℕ)), f { st with adj := adj } = f st)
    (u v : ℕ) (a : Option ℕ) : Keeps f (markAdjacency u v a) := by
  refine Keeps.get.bind fun st => ?_
  cases st.adj with
  | none => exact .pure _
  | some adj =>
    exact .ite (.throw _) (.ite (.throw _) (.ite (.throw _) (.ite (.throw _)
      (.modify fun st => eq st _))))

section Assignments

variable {γ : Type} {f : SparseGraph → γ}

theorem keeps_setLength (eq : ∀ (st : SparseGraph) (length : Option (Attribute ℚ)),
    f { st with length := length } = f st) (a : ℕ) (length : ℚ) : Keeps f (setLength a length) :=
  Keeps.get.bind fun _ => .ite (.throw _) (.modify fun st => eq st _)

/-- What only depends on other parts of the state than the bounds, the multiplicities and the
degree labels. -/
def FreeOfBounds (f : SparseGraph → γ) : Prop :=
  ∀ (st : SparseGraph) (ucap lcap : Option (Attribute ℚ)) (sub sDeg : Option (ℕ → ℚ))
    (sDegInOut : Option ((ℕ → ℚ) × (ℕ → ℚ))),
    f { st with ucap := ucap, lcap := lcap, sub := sub, sDeg := sDeg, sDegInOut := sDegInOut } = f st

theorem FreeOfBounds.setSub (free : FreeOfBounds f) (a : ℕ) (x : ℚ) : Keeps f (setSub a x) :=
  keeps_setSub (fun st sub d e => free st st.ucap st.lcap sub d e) a x

theorem FreeOfBounds.setUCap (free : FreeOfBounds f) (a : ℕ) (x : ℚ) : Keeps f (setUCap a x) := by
  refine Keeps.get.bind fun _ => .ite (.throw _) (.ite (.throw _) ?_)
  refine Keeps.bind (.ite (free.setSub _ _) (.pure _)) fun _ => ?_
  exact .modify fun st => free st _ st.lcap st.sub st.sDeg st.sDegInOut

theorem FreeOfBounds.setLCap (free : FreeOfBounds f) (a : ℕ) (x : ℚ) : Keeps f (setLCap a x) := by
  refine Keeps.get.bind fun _ => .ite (.throw _) (.ite (.throw _) ?_)
  refine Keeps.bind (.ite (free.setSub _ _) (.pure _)) fun _ => ?_
  exact .modify fun st => free st st.ucap _ st.sub st.sDeg st.sDegInOut

end Assignments

theorem of_setUCap (result : setUCap a x st = .ok () st') : a < 2 * st.rep.mAct ∧ 0 ≤ x ∧ ∃ s,
      (if x < st.subOf a then setSub a x else pure () : GraphM Unit) st = .ok () s ∧
      st' = { s with ucap := assign s.ucap 1 s.rep.mAct (a / 2) x } := by
  rw [setUCap, run_bind_get] at result
  obtain ⟨high, result⟩ := of_run_check result
  obtain ⟨neg, result⟩ := of_run_check result
  obtain ⟨_, s, adapt, result⟩ := of_run_bind result
  rw [run_modify] at result
  cases result
  exact ⟨not_le.1 high, not_lt.1 neg, s, adapt, rfl⟩

theorem of_setLCap (result : setLCap a x st = .ok () st') : a < 2 * st.rep.mAct ∧ 0 ≤ x ∧ ∃ s,
      (if |st.subOf a| < x then setSub a (st.raisedTo a x) else pure () : GraphM Unit) st =
        .ok () s ∧
      st' = { s with lcap := assign s.lcap 0 s.rep.mAct (a / 2) x } := by
  rw [setLCap, run_bind_get] at result
  obtain ⟨high, result⟩ := of_run_check result
  obtain ⟨neg, result⟩ := of_run_check result
  obtain ⟨_, s, adapt, result⟩ := of_run_bind result
  rw [run_modify] at result
  cases result
  exact ⟨not_le.1 high, not_lt.1 neg, s, adapt, rfl⟩

/-! ## The core of the state -/

/-- The part of the state on which the incidences and the table of adjacencies depend. -/
structure Core where
  n : ℕ
  m : ℕ
  balanced : Bool
  rep : SparseState
  orientation : Option (Attribute ℕ)
  adj : Option (ℕ → Option ℕ)

def core (st : SparseGraph) : Core :=
  ⟨st.n, st.m, st.balanced, st.rep, st.orientation, st.adj⟩

theorem core_freeOfBounds : FreeOfBounds core := fun _ _ _ _ _ _ => rfl

/-! ## Layout nodes -/

section Layout

variable {γ : Type} {f : SparseGraph → γ}

/-- What does not depend on the layout, and not on the sizes of the other attributes. -/
def FreeOfLayout (f : SparseGraph → γ) : Prop :=
  ∀ (st : SparseGraph) (align thread : Option (Attribute (Option ℕ))) (others : List (ArrayDim × ℕ))
    (lAct ni : ℕ), others.map Prod.fst = st.others.map Prod.fst →
    f { st with align := align, thread := thread, others := others, lAct := lAct, ni := ni } = f st

theorem core_freeOfLayout : FreeOfLayout core := fun _ _ _ _ _ _ _ => rfl

theorem dims_eraseItems (st : SparseGraph) (dim : ArrayDim) (k : ℕ) :
    (st.eraseItems dim k).others.map Prod.fst = st.others.map Prod.fst := by
  have others : (st.others.map fun A => if A.1 = dim then (A.1, A.2 - k) else A).map
      Prod.fst = st.others.map Prod.fst := by
    rw [List.map_map]
    refine List.map_congr_left fun A _ => ?_
    simp only [Function.comp_apply]
    split_ifs <;> rfl
  cases dim <;> exact others

variable (free : FreeOfLayout f)

include free

theorem FreeOfLayout.withThread (st : SparseGraph) (thread : Option (Attribute (Option ℕ))) :
    f { st with thread := thread } = f st :=
  free st st.align thread st.others st.lAct st.ni rfl

theorem FreeOfLayout.withAlign (st : SparseGraph) (align : Option (Attribute (Option ℕ))) :
    f { st with align := align } = f st :=
  free st align st.thread st.others st.lAct st.ni rfl

theorem FreeOfLayout.exchangeReferences (st : SparseGraph) (u v : ℕ) :
    f (st.exchangeReferences u v) = f st := by
  rw [SparseGraph.exchangeReferences]
  cases getArray st.align with
  | none => rfl
  | some align => exact free st _ _ st.others st.lAct st.ni rfl

theorem FreeOfLayout.swapNodes (layout : st.rep.nAct ≤ u ∨ st.rep.nAct ≤ v) :
    KeepsAt f (swapNodes u v) st := by
  rw [KeepsAt, finalState, SparseGraph.swapNodes, run_bind_get]
  by_cases highU : st.lAct ≤ u
  · rw [if_pos highU]
    rfl
  by_cases highV : st.lAct ≤ v
  · rw [if_neg highU, if_pos highV]
    rfl
  by_cases eq : u = v
  · rw [if_neg highU, if_neg highV, if_pos eq]
    rfl
  · rw [if_neg highU, if_neg highV, if_neg eq, run_bind_modify, run_bind_modify, if_pos layout]
    exact (free.withThread _ _).trans (free.exchangeReferences st u v)

theorem FreeOfLayout.eraseLayoutNode (v : ℕ) : Keeps f (eraseLayoutNode v) := by
  intro st
  refine KeepsAt.bind (Keeps.get st) fun st1 s result => ?_
  cases result
  split_ifs with out
  · exact Keeps.throw _ st
  · have layout : st.rep.nAct ≤ v := not_lt.1 fun low => out (.inr low)
    refine (free.swapNodes (.inl layout)).bind fun _ s _ => ?_
    exact free s s.align _ _ _ s.ni (dims_eraseItems s .layoutNodes 1)

omit free in
theorem keeps_onQueue {α : Type} (result : Except Raise α) : Keeps f (onQueue result) := by
  cases result with
  | ok val => exact .pure _
  | error e => exact .throw _

theorem FreeOfLayout.collect : ∀ (fuel : ℕ) (Q : BinaryHeap ℕ) (w : Option ℕ),
    Keeps f (collect fuel Q w)
  | 0, _, _ => .throw _
  | _ + 1, _, none => .pure _
  | fuel + 1, Q, some w => by
    refine Keeps.get.bind fun st => ?_
    cases getArray st.thread with
    | none => exact .pure _
    | some thread =>
      refine Keeps.bind (.modify fun _ => free.withThread _ _) fun _ => ?_
      exact (keeps_onQueue _).bind fun Q => FreeOfLayout.collect fuel Q _

theorem FreeOfLayout.eraseAll : ∀ (fuel : ℕ) (Q : BinaryHeap ℕ), Keeps f (eraseAll fuel Q)
  | 0, _ => .throw _
  | fuel + 1, Q => by
    refine .ite (.pure _) ((keeps_onQueue _).bind fun next => ?_)
    exact (free.eraseLayoutNode next.2).bind fun _ => FreeOfLayout.eraseAll fuel next.1

theorem FreeOfLayout.releaseThread (w : ℕ) : Keeps f (releaseThread w) := by
  refine Keeps.get.bind fun st => (free.collect _ _ _).bind fun Q => ?_
  exact (free.eraseAll _ _).bind fun _ => .modify fun st =>
    free st st.align st.thread st.others st.lAct _ rfl

theorem FreeOfLayout.releaseBendNodes (a : ℕ) : Keeps f (releaseBendNodes a) := by
  refine Keeps.get.bind fun st => .ite (.throw _) ?_
  cases getArray st.align with
  | none => exact .pure _
  | some align =>
    dsimp only
    cases align.getValue (a / 2) with
    | none => exact .pure _
    | some w =>
      refine Keeps.bind (.modify fun _ => free.withAlign _ _) fun _ => ?_
      exact (free.releaseThread w).bind fun _ => .pure _

theorem FreeOfLayout.releaseShapeNodes (v : ℕ) : Keeps f (releaseShapeNodes v) := by
  refine Keeps.get.bind fun st => .ite (.throw _) ?_
  cases getArray st.thread with
  | none => exact .pure _
  | some thread =>
    dsimp only
    cases thread.getValue v with
    | none => exact .pure _
    | some w =>
      refine Keeps.bind (.modify fun _ => free.withThread _ _) fun _ => ?_
      exact (free.releaseThread w).bind fun _ => .pure _

theorem FreeOfLayout.bypass (v : ℕ) : Keeps f (bypass v) := by
  refine Keeps.get.bind fun st => ?_
  cases getArray st.align with
  | none => exact .pure _
  | some align =>
    refine .ite (.modify fun _ => free.withAlign _ _) ?_
    cases getArray st.thread with
    | none => exact .throw _
    | some thread => exact .ite (.throw _) (.modify fun _ => free.withThread _ _)

theorem FreeOfLayout.reverseBends (x : Option ℕ) : Keeps f (reverseBends x) := by
  refine Keeps.get.bind fun st => ?_
  split
  · split
    · exact .pure _
    · split
      · exact .throw _
      · split
        · exact .throw _
        · exact .modify fun _ => free.withThread _ _
  · exact .pure _

end Layout

/-! ## Insertion and cancellation of arcs -/

/-- The multiplicity of the new arc `k`. A positive one invalidates the degree labels. -/
def entered (s : SparseGraph) (k : ℕ) (lower : ℚ) : SparseGraph :=
  { s with
    sub := s.sub.map fun sub => update sub k lower
    sDeg := if s.sub ≠ none ∧ 0 < lower then none else s.sDeg
    sDegInOut := if s.sub ≠ none ∧ 0 < lower then none else s.sDegInOut }

theorem enter_ok (s : SparseGraph) (sub : Option (ℕ → ℚ)) (eq : sub = s.sub) (k : ℕ) (lower : ℚ) :
    (if sub ≠ none then do
        modify fun st => { st with sub := st.sub.map fun sub => update sub k lower }
        if 0 < lower then releaseDegrees else pure ()
      else pure () : GraphM Unit) s = .ok () (s.entered k lower) := by
  subst eq
  rw [entered]
  by_cases present : s.sub ≠ none
  · by_cases pos : 0 < lower
    · rw [if_pos present, run_bind_modify, if_pos pos, if_pos ⟨present, pos⟩,
        if_pos ⟨present, pos⟩]
      rfl
    · have idle : ¬ (s.sub ≠ none ∧ 0 < lower) := fun both => pos both.2
      rw [if_pos present, run_bind_modify, if_neg pos, if_neg idle, if_neg idle]
      rfl
  · have idle : ¬ (s.sub ≠ none ∧ 0 < lower) := fun both => present both.1
    have absent : s.sub = none := not_not.1 present
    rw [if_neg present, if_neg idle, if_neg idle, absent, map_none, ← absent]
    rfl

/-- The state in which the bounds of the new arc are assigned. -/
def prepared (st : SparseGraph) (rep : SparseState) (length lower : ℚ) : SparseGraph :=
  let st₁ := entered { st with rep := rep } st.rep.mAct lower
  let st2 := (st₁.appendItems .graphArcs 1).appendItems .arcsTwice 2
  { st2 with length := assign st2.length 1 rep.mAct st.rep.mAct length }

theorem sparseInsertArc_prepared (free : st.referenced = false)
    (routed : st.rep.insertArc u v = .ok rep) (count : rep.mAct = st.rep.mAct + 1) :
    sparseInsertArc u v cap length lower st = (do
      setUCap (2 * st.rep.mAct) cap
      setLCap (2 * st.rep.mAct) lower
      markAdjacency u v (some (2 * st.rep.mAct))
      return st.rep.mAct : GraphM ℕ) (st.prepared rep length lower) := by
  have route : onIncidences (fun rep => rep.insertArc u v) st = .ok () { st with rep := rep } := by
    simp only [onIncidences, routed]
  have notReferenced : ¬ st.referenced = true := by simp [free]
  have low : ¬ 2 * rep.mAct ≤ 2 * st.rep.mAct := by omega
  have setLength_eq : ∀ s : SparseGraph, s.rep = rep → setLength (2 * st.rep.mAct) length s =
        .ok () { s with length := assign s.length 1 rep.mAct st.rep.mAct length } := by
    intro s eq
    rw [setLength, run_bind_get, eq, if_neg low, half_double, run_modify, eq]
  have enter := enter_ok { st with rep := rep } st.sub rfl st.rep.mAct lower
  rw [sparseInsertArc, run_bind_get, if_neg notReferenced, run_bind_ok route, run_bind_ok enter,
    run_bind_modify, run_bind_ok (setLength_eq _ rfl)]
  rfl

theorem of_onIncidences {op : SparseState → Except Raise SparseState}
    (result : onIncidences op st = .ok () st') :
    ∃ rep, op st.rep = .ok rep ∧ st' = { st with rep := rep } := by
  rw [onIncidences] at result
  cases outcome : op st.rep with
  | ok rep =>
    rw [outcome] at result
    cases result
    exact ⟨rep, rfl, rfl⟩
  | error e =>
    rw [outcome] at result
    cases result

/-- `MarkAdjacency`, on the core -/
def Core.mark (c : Core) (u v : ℕ) (a : Option ℕ) : Core :=
  { c with adj := c.adj.map fun adj => update adj (u * c.n + v) a }

theorem of_markAdjacency {x : Option ℕ} (result : markAdjacency u v x st = .ok () st') :
    st' = { st with adj := st.adj.map fun adj => update adj (u * st.n + v) x } := by
  rw [markAdjacency, run_bind_get] at result
  cases cached : st.adj with
  | none =>
    rw [cached] at result
    cases result
    rw [map_none, ← cached]
  | some adj =>
    rw [cached] at result
    dsimp only at result
    split_ifs at result
    · cases result
    · cases result
    · cases result
    · cases result
    · cases result
      rfl

/-- The core after `sparseRepresentation::InsertArc` -/
def Core.insert (c : Core) (u v : ℕ) (rep : SparseState) : Core :=
  Core.mark { c with rep := rep, orientation := c.orientation.map fun A => A.appendItems 1 } u v
    (some (2 * c.rep.mAct))

section

variable (sound : st.rep.Sound) (result : sparseInsertArc u v cap length lower st = .ok a st')
include sound result

theorem of_sparseInsertArc : ∃ rep s1 s2, st.Routed u v rep ∧
      setUCap (2 * st.rep.mAct) cap (st.prepared rep length lower) = .ok () s1 ∧
      setLCap (2 * st.rep.mAct) lower s1 = .ok () s2 ∧
      markAdjacency u v (some (2 * st.rep.mAct)) s2 = .ok () st' := by
  by_cases referenced : st.referenced = true
  · rw [sparseInsertArc, run_bind_get, if_pos referenced] at result
    cases result
  have free : st.referenced = false := by simpa using referenced
  cases routed : st.rep.insertArc u v with
  | error e =>
    have stopped : onIncidences (fun rep => rep.insertArc u v) st = .error e st := by
      simp only [onIncidences, routed]
    rw [sparseInsertArc, run_bind_get, if_neg referenced, run_bind_error stopped] at result
    cases result
  | ok rep =>
    have legal : u < st.rep.nAct ∧ v < st.rep.nAct ∧ 2 * st.rep.mMax ≤ st.rep.maxArc - 2 := by
      rw [SparseState.insertArc] at routed
      split_ifs at routed with highU highV full
      exact ⟨not_le.1 highU, not_le.1 highV, not_lt.1 full⟩
    obtain ⟨rep', result', sound', size, startNode⟩ :=
      SparseState.insertArc_spec sound legal.1 legal.2.1 legal.2.2
    rw [routed] at result'
    cases result'
    rw [sparseInsertArc_prepared free routed size.mAct] at result
    obtain ⟨_, s1, upper, result⟩ := of_run_bind result
    obtain ⟨_, s2, least, result⟩ := of_run_bind result
    obtain ⟨_, s3, mark, result⟩ := of_run_bind result
    cases result
    exact ⟨rep, s1, s2, ⟨routed, sound', size, startNode⟩, upper, least, mark⟩

theorem core_sparseInsertArc : ∃ rep, st.Routed u v rep ∧ core st' = (core st).insert u v rep := by
  obtain ⟨rep, s1, s2, routed, upper, least, mark⟩ := of_sparseInsertArc sound result
  refine ⟨rep, routed, ?_⟩
  have marked : core st' = (core s2).mark u v (some (2 * st.rep.mAct)) := by
    rw [of_markAdjacency mark]
    rfl
  rw [marked, (core_freeOfBounds.setLCap _ _).of_ok least,
    (core_freeOfBounds.setUCap _ _).of_ok upper]
  rfl

end

/-- The incidence lists after an arc has been cancelled. -/
structure Cancelled (rep : SparseState) (a : ℕ) (rep' : SparseState) : Prop where
  sound : rep'.Sound
  size : SparseState.SameSize rep rep'
  startNode : rep'.startNode =
    update (update rep.startNode a none) (rev a) none

section

variable (sound : st.rep.Sound) (result : cancelArc a st = .ok () st')
include sound result

theorem of_cancelArc_steps :
    ∃ u v rep s1 s2, a < 2 * st.rep.mAct ∧ st.rep.startNode a = some u ∧
      st.rep.startNode (rev a) = some v ∧ Cancelled st.rep a rep ∧
      s1 = { st with adj := st.adj.map fun adj => update adj (u * st.n + v) none } ∧
      ((st.sub = none ∧ s2 = s1) ∨ ∃ sub, st.sub = some sub ∧
        adjustDegrees (2 * (a / 2) + 1) (sub a) s1 = .ok () s2) ∧ st' = { s2 with rep := rep } := by
  rw [cancelArc, run_bind_get] at result
  obtain ⟨high, result⟩ := of_run_check result
  cases startA : st.rep.startNode a with
  | none =>
    rw [startA] at result
    cases result
  | some u =>
    rw [startA] at result
    dsimp only at result
    obtain ⟨v, s0, label, result⟩ := of_run_bind result
    cases startRev : st.rep.startNode (rev a) with
    | none =>
      rw [startRev] at label
      cases label
    | some w =>
      rw [startRev] at label
      cases label
      obtain ⟨_, s1, mark, result⟩ := of_run_bind result
      obtain ⟨_, s2, adjust, result⟩ := of_run_bind result
      obtain ⟨rep, cancelled, rfl⟩ := of_onIncidences result
      have marked := of_markAdjacency mark
      have reported : (st.sub = none ∧ s2 = s1) ∨ ∃ sub, st.sub = some sub ∧
          adjustDegrees (2 * (a / 2) + 1) (sub a) s1 = .ok () s2 := by
        cases present : st.sub with
        | none =>
          rw [present] at adjust
          cases adjust
          exact .inl ⟨rfl, rfl⟩
        | some sub =>
          rw [present] at adjust
          dsimp only at adjust
          by_cases beyond : st.rep.mAct ≤ a
          · rw [if_pos beyond] at adjust
            cases adjust
          · rw [if_neg beyond] at adjust
            exact .inr ⟨sub, rfl, adjust⟩
      have rep2 : s2.rep = st.rep := by
        have rep1 : s1.rep = st.rep := by rw [marked]
        rcases reported with ⟨-, rfl⟩ | ⟨sub, -, adjusts⟩
        · exact rep1
        · rw [(adjustDegrees_relabelled adjusts).same]
          exact rep1
      obtain ⟨rep', result', sound', size, startNode⟩ :=
        SparseState.cancelArc_spec sound ⟨not_le.1 high, by simp [startA]⟩
      rw [rep2, result'] at cancelled
      cases cancelled
      exact ⟨u, v, rep, s1, s2, not_le.1 high, rfl, rfl, ⟨sound', size, startNode⟩, marked,
        reported, rfl⟩

theorem of_cancelArc :
    ∃ u v rep, a < 2 * st.rep.mAct ∧ st.rep.startNode a = some u ∧
      st.rep.startNode (rev a) = some v ∧ Cancelled st.rep a rep ∧
      core st' = { (core st).mark u v none with rep := rep } := by
  obtain ⟨u, v, rep, s1, s2, low, startA, startRev, cancelled, rfl, reported, rfl⟩ :=
    of_cancelArc_steps sound result
  refine ⟨u, v, rep, low, startA, startRev, cancelled, ?_⟩
  rcases reported with ⟨-, rfl⟩ | ⟨sub, -, adjusts⟩
  · rfl
  · rw [(adjustDegrees_relabelled adjusts).same]
    rfl

end

/-! ## Deletion and contraction of arcs -/

theorem of_swapArcs {x y : ℕ} (result : swapArcs x y st = .ok () st') :
    ∃ rep, st.rep.swapArcs x y = .ok rep ∧ core st' = { core st with
      rep := rep
      orientation := if x = y then st.orientation
        else st.orientation.map fun A => A.swapItems (x / 2) (y / 2) } := by
  rw [swapArcs] at result
  obtain ⟨_, s1, swap, result⟩ := of_run_bind result
  obtain ⟨rep, swapped, rfl⟩ := of_onIncidences swap
  refine ⟨rep, swapped, ?_⟩
  by_cases eq : x = y
  · rw [if_pos eq] at result ⊢
    cases result
    rfl
  rw [if_neg eq, run_bind_modify] at result
  rw [if_neg eq]
  -- the bends are reverted in the layout only
  have kept : core st' = core (swapEdges { st with rep := rep } (x / 2) (y / 2)) := by
    refine Keeps.of_ok (.ite (.pure _) (Keeps.get.bind fun s => ?_)) result
    cases getArray s.align with
    | none => exact .pure _
    | some align =>
      exact (core_freeOfLayout.reverseBends _).bind fun _ =>
        .ite (core_freeOfLayout.reverseBends _) (.pure _)
  rw [kept]
  rfl

/-- The state `st'` after the cancelled edge of `x` has been removed from `s`. -/
structure Removed (s st' : SparseGraph) (x : ℕ) : Prop where
  n : st'.n = s.n
  m : st'.m = st'.rep.mAct
  count : st'.rep.mAct + 1 = s.rep.mAct
  nAct : st'.rep.nAct = s.rep.nAct
  adj : st'.adj = s.adj
  sound : st'.rep.Sound
  startNode : ∀ b, b < 2 * st'.rep.mAct →
    st'.rep.startNode b = s.rep.startNode (SparseState.movedArc x (2 * s.rep.mAct - 2) b)
  orientation : st'.orientation = (if x = 2 * s.rep.mAct - 2 then s.orientation
    else s.orientation.map fun A => A.swapItems (x / 2) ((2 * s.rep.mAct - 2) / 2)).map
      fun A => A.eraseItems 1

theorem of_deleteArc (sound : st.rep.Sound) (result : deleteArc a st = .ok () st') :
    a < 2 * st.rep.mAct ∧ ∃ s1, ((st.rep.startNode (2 * (a / 2)) = none ∧ s1 = st) ∨
        cancelArc (2 * (a / 2)) st = .ok () s1) ∧ Removed s1 st' (2 * (a / 2)) := by
  rw [deleteArc, run_bind_get] at result
  obtain ⟨high, result⟩ := of_run_check result
  have low : a < 2 * st.rep.mAct := not_le.1 high
  refine ⟨low, ?_⟩
  simp only [SparseState.and_rev] at result
  obtain ⟨_, s1, cancel, result⟩ := of_run_bind result
  obtain ⟨_, s2, release, result⟩ := of_run_bind result
  obtain ⟨_, s3, swap, result⟩ := of_run_bind result
  rw [run_bind_modify, run_bind_modify, run_modify] at result
  obtain ⟨rep, swapped, core3⟩ := of_swapArcs swap
  have core2 : core s2 = core s1 := (core_freeOfLayout.releaseBendNodes _).discard.of_ok release
  have rep2 : s2.rep = s1.rep := congrArg Core.rep core2
  obtain ⟨cancelled, sound1, dead, count⟩ : ((st.rep.startNode (2 * (a / 2)) = none ∧ s1 = st) ∨
        cancelArc (2 * (a / 2)) st = .ok () s1) ∧ s1.rep.Sound ∧
      s1.rep.startNode (2 * (a / 2)) = none ∧ s1.rep.mAct = st.rep.mAct := by
    by_cases present : st.rep.startNode (2 * (a / 2)) = none
    · rw [if_neg (not_not.2 present)] at cancel
      cases cancel
      exact ⟨.inl ⟨present, rfl⟩, sound, present, rfl⟩
    rw [if_pos present] at cancel
    obtain ⟨u, v, rep1, -, -, -, cancelled, core1⟩ := of_cancelArc sound cancel
    have rep1' : s1.rep = rep1 := congrArg Core.rep core1
    refine ⟨.inr cancel, ?_, ?_, ?_⟩
    · rw [rep1']
      exact cancelled.sound
    · rw [rep1', cancelled.startNode, update_of_ne (SparseState.rev_ne _).symm, update_self]
    · rw [rep1', cancelled.size.mAct]
  refine ⟨s1, cancelled, ?_⟩
  obtain ⟨rep', result', size, start, sound'⟩ :=
    SparseState.swapArcs_released sound1 (x := 2 * (a / 2)) (by omega) (by omega) dead
  rw [rep2, ← count, result'] at swapped
  cases swapped
  have rep3 : s3.rep = rep := congrArg Core.rep core3
  have n3 : s3.n = s1.n := (congrArg Core.n core3).trans (congrArg Core.n core2)
  have adj3 : s3.adj = s1.adj := (congrArg Core.adj core3).trans (congrArg Core.adj core2)
  cases result
  refine ⟨n3, rfl, ?_, ?_, adj3, ?_, fun b lowB => ?_, ?_⟩
  · change s3.rep.mAct - 1 + 1 = s1.rep.mAct
    rw [rep3, size.mAct]
    omega
  · change s3.rep.nAct = _
    rw [rep3, size.nAct]
  · change ({ s3.rep with mAct := s3.rep.mAct - 1 } : SparseState).Sound
    rw [rep3]
    exact sound'
  · change b < 2 * (s3.rep.mAct - 1) at lowB
    change s3.rep.startNode b = _
    rw [rep3] at lowB ⊢
    rw [size.mAct] at lowB
    exact start b (by omega)
  · change s3.orientation.map (fun A => A.eraseItems 1) = _
    have swappedEdges : s3.orientation = _ := congrArg Core.orientation core3
    have orientation2 : s2.orientation = s1.orientation := congrArg Core.orientation core2
    rw [swappedEdges, orientation2, count]

theorem of_joinIncidences {joined : SparseState} (sound : rep.Sound) (low : a < 2 * rep.mAct)
    (proper : rep.startNode a ≠ rep.startNode (rev a))
    (result : joinIncidences a rep = .ok joined) :
    joined.Sound ∧ SparseState.SameSize rep joined := by
  have live : rep.Live a := by
    refine ⟨low, fun dead => proper ?_⟩
    rw [dead, (sound.paired a low).1 dead]
  obtain ⟨u, v, start, y, next, startU, startV, relabelled, rightA, -, -, -, joined'⟩ :=
    SparseState.join_spec sound live (sound.live_rev live) proper
  rw [joinIncidences] at result
  simp only [startU, startV, defined, bind, Except.bind, relabelled, rightA, pure, Except.pure]
    at result
  cases result
  exact ⟨joined', ⟨rfl, rfl, rfl, rfl, rfl, rfl⟩⟩

/-- A contraction that returns leaves consistent incidence lists of the same size. -/
theorem of_contractArc (sound : st.rep.Sound) (result : contractArc a st = .ok () st') :
    a < 2 * st.rep.mAct ∧ ∃ u v rep, rep.Sound ∧ SparseState.SameSize st.rep rep ∧
      core st' = { (core st).mark u v none with n := rep.nAct, m := rep.mAct, rep := rep } := by
  rw [contractArc, run_bind_get] at result
  by_cases high : 2 * st.rep.mAct ≤ a
  · rw [if_pos high] at result
    cases result
  have low : a < 2 * st.rep.mAct := not_le.1 high
  rw [if_neg high] at result
  obtain ⟨loop, result⟩ := of_run_check result
  obtain ⟨_, s1, release, result⟩ := of_run_bind result
  obtain ⟨_, s2, join, result⟩ := of_run_bind result
  obtain ⟨_, s3, cancel, final⟩ := of_run_bind result
  have core1 : core s1 = core st := (core_freeOfLayout.releaseBendNodes _).discard.of_ok release
  have rep1 : s1.rep = st.rep := congrArg Core.rep core1
  obtain ⟨joined, joinResult, rfl⟩ := of_onIncidences join
  rw [rep1] at joinResult
  obtain ⟨soundJoined, sizeJoined⟩ := of_joinIncidences sound low loop joinResult
  have sound2 : SparseState.Sound { s1 with rep := joined }.rep := soundJoined
  obtain ⟨u, v, rep, -, -, -, cancelled, core3⟩ := of_cancelArc sound2 cancel
  refine ⟨low, u, v, rep, cancelled.sound, sizeJoined.trans cancelled.size, ?_⟩
  have rep3 : s3.rep = rep := congrArg Core.rep core3
  rw [run_modify] at final
  cases final
  change ({ core s3 with n := s3.rep.nAct, m := s3.rep.mAct } : Core) = _
  rw [core3, rep3, ← core1]
  rfl

/-! ## Incidences -/

/-- The counters agree, and the incidence lists are consistent. -/
structure Wired (st : SparseGraph) : Prop where
  n : st.n = st.rep.nAct
  m : st.m = st.rep.mAct
  sound : st.rep.Sound
  orientation : Ranked st.orientation st.rep.mAct

/-- The loop of the investigator reads the ring to its end. -/
theorem ringFrom_eq {right : ℕ → Option ℕ} {stop : ℕ} :
    ∀ (l : List ℕ) (fuel a : ℕ), l.length < fuel → stop ∉ l → Links right (a :: l) (some stop) →
      ringFrom right stop fuel a = a :: l := by
  intro l
  induction l with
  | nil =>
    intro fuel a enough _ links
    obtain ⟨fuel, rfl⟩ := Nat.exists_eq_add_of_lt enough
    have last : right a = some stop := links.1
    rw [show List.length ([] : List ℕ) + fuel + 1 = fuel + 1 by simp, ringFrom, last]
    exact if_pos rfl
  | cons b l ih =>
    intro fuel a enough absent links
    obtain ⟨fuel, rfl⟩ : ∃ k, fuel = k + 1 := ⟨fuel - 1, by omega⟩
    have next : right a = some b := links.1
    have other : b ≠ stop := fun eq => absent (eq ▸ mem_cons_self)
    rw [ringFrom, next]
    dsimp only
    rw [if_neg other, ih fuel b (by simpa using enough)
      (fun inside => absent (mem_cons_of_mem b inside)) links.2]

/-- **The investigator reads every arc that leaves the node once.** -/
theorem incidences_spec (sound : st.rep.Sound) (low : v < st.rep.nAct) : (st.incidences v).Nodup ∧
      ∀ a, a ∈ st.incidences v ↔ a < 2 * st.rep.mAct ∧ st.rep.startNode a = some v := by
  have lists := sound.incidenceLists
  cases first : st.rep.first v with
  | none =>
    have empty : st.incidences v = [] := by rw [incidences, first]
    rw [empty]
    refine ⟨nodup_nil, fun a => iff_of_false not_mem_nil fun ⟨lowA, start⟩ => ?_⟩
    exact (lists.first v low).1 first a lowA start
  | some f =>
    obtain ⟨l, ring, mem⟩ := lists.lists v low f first
    have short : (f :: l).length ≤ 2 * st.rep.mAct := by
      have sub : (f :: l) ⊆ List.range (2 * st.rep.mAct) := fun a inside =>
        mem_range.2 ((mem a).1 inside).1
      simpa using (subperm_of_subset ring.nodup sub).length_le
    have read : st.incidences v = f :: l := by
      rw [incidences, first]
      exact ringFrom_eq l _ f (by simpa using short) (nodup_cons.1 ring.nodup).1 ring.links
    rw [read]
    exact ⟨ring.nodup, mem⟩

end Goblin.SparseGraph
