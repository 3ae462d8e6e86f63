import Goblin.SparseRuns

/-!
# Identifying two nodes

`IdentifyNodes` gives the arcs of a node `v` to a node `u`. The start nodes of the arcs in the list
of `v` are changed, and the list is put behind the first arc of `u`, by two writes to `right` and, if
it is there, two writes to `left`.

The method reads the links of the first arcs of both nodes without a test. So it does not return if
one of the nodes is isolated, as there is no such arc. If the nodes are the same, the list of `u` is
cut behind the first arc, and `first` is deleted.
-/

set_option autoImplicit false

namespace Goblin

open Library Option Function

namespace SparseState

variable (st : SparseState)

def identifyNodes (u v : ℕ) : Except Raise SparseState :=
  if st.nAct ≤ u then .error (.range "IdentifyNodes" "No such node")
  else if st.nAct ≤ v then .error (.range "IdentifyNodes" "No such node")
  else do
    let a2 ← defined (st.first v)
    let (startNode, a) ← relabel st.right a2 u (2 * st.mAct) a2 st.startNode
    let a1 ← defined (st.first u)
    let next ← defined (st.right a1)
    return { st with
      startNode := startNode
      right := update (update st.right a (some next)) a1 (some a2)
      left := st.left.map fun left =>
        update (update left next (some a)) a2 (some a1)
      first := update st.first v none }

/-- The arc `a` is incident with one of the two nodes. -/
def AtEither (u v a : ℕ) : Prop :=
  a < 2 * st.mAct ∧ (st.startNode a = some u ∨ st.startNode a = some v)

/-- What the identification of two different nodes leads to. -/
structure Identifies (st st' : SparseState) (u v : ℕ) : Prop where
  sizes : SameSize st st'
  consistent : st'.IncidenceLists
  list : ∀ f, st'.first u = some f →
    ∃ l, CircularList st'.right f l ∧ ∀ a, a ∈ f :: l ↔ st.AtEither u v a
  empty : st'.first u = none ↔ ∀ a, ¬ st.AtEither u v a
  startNode : ∀ a, st.AtEither u v a → st'.startNode a = some u
  removed : st'.first v = none
  others : ∀ w, w ≠ u → w ≠ v → st'.first w = st.first w ∧
    ∀ a < 2 * st.mAct, st.startNode a = some w → st'.startNode a = some w ∧ st'.right a = st.right a

/-! ## The invariant without spare nodes -/

variable {st}

theorem IncidenceLists.sound (lists : st.IncidenceLists) :
    ({ st with nMax := st.nAct } : SparseState).Sound := by
  have start : ∀ {a v}, st.startNode a = some v → st.startNode a ≠ none :=
    fun val => by simp [val]
  refine ⟨⟨fun a live => ?_, fun a live => ?_, fun left present a b live next => ?_,
    fun v low none a live => ?_, fun v low f val => ?_, le_rfl, fun v high low => ?_⟩,
    fun a low dead => ?_, lists.paired⟩
  · obtain ⟨v, val⟩ := ne_none_iff_exists'.1 live.2
    exact ⟨v, lists.nodes a live.1 v val, val⟩
  · obtain ⟨v, val⟩ := ne_none_iff_exists'.1 live.2
    have low := lists.nodes a live.1 v val
    obtain ⟨f, first⟩ : ∃ f, st.first v = some f := by
      refine ne_none_iff_exists'.1 fun none => ?_
      exact (lists.first v low).1 none a live.1 val
    obtain ⟨l, ring, members⟩ := lists.lists v low f first
    obtain ⟨k, ring', members'⟩ := ring.startAt ((members a).2 ⟨live.1, val⟩)
    refine ⟨k, ring', fun b => ?_⟩
    rw [members' b, members b]
    constructor
    · rintro ⟨lowB, valueB⟩
      exact ⟨⟨lowB, start valueB⟩, valueB.trans val.symm⟩
    · rintro ⟨liveB, eq⟩
      exact ⟨liveB.1, eq.trans val⟩
  · obtain ⟨b', next', back⟩ := lists.inverse left present a live
    rw [show st.right a = some b from next] at next'
    cases next'
    exact back
  · exact (lists.first v low).1 none a live.1
  · obtain ⟨l, ring, members⟩ := lists.lists v low f val
    obtain ⟨lowF, startF⟩ := (members f).1 List.mem_cons_self
    exact ⟨⟨lowF, start startF⟩, startF⟩
  · exact absurd low (not_lt.2 high)
  · refine lists.cancelled a low ?_
    by_contra present
    exact dead ⟨low, present⟩

/-! ## The method -/

variable {u v : ℕ}

theorem IncidenceLists.of_spare {nMax : ℕ}
    (lists : ({ st with nMax := nMax } : SparseState).IncidenceLists) : st.IncidenceLists :=
  ⟨lists.first, lists.lists, lists.nodes, lists.paired, lists.cancelled, lists.inverse⟩

theorem identifyNodes_isolated (lowU : u < st.nAct) (lowV : v < st.nAct)
    (isolated : st.first v = none) : st.identifyNodes u v = .error .fault := by
  rw [identifyNodes, if_neg (not_le.2 lowU), if_neg (not_le.2 lowV), isolated]
  rfl

theorem identifyNodes_isolated_target (lowU : u < st.nAct) (lowV : v < st.nAct)
    (isolated : st.first u = none) (st' : SparseState) : st.identifyNodes u v ≠ .ok st' := by
  intro res
  rw [identifyNodes, if_neg (not_le.2 lowU), if_neg (not_le.2 lowV), isolated] at res
  cases second : st.first v with
  | none =>
    rw [second] at res
    cases res
  | some a2 =>
    cases turned : relabel st.right a2 u (2 * st.mAct) a2 st.startNode with
    | error e | ok relabelled =>
      simp [second, defined, bind, Except.bind, turned] at res

/-- If the nodes are the same, its list loses the first arc. -/
theorem identifyNodes_same (low : u < st.nAct) : st.identifyNodes u u ≠ .ok st := by
  intro res
  cases first : st.first u with
  | none =>
    rw [identifyNodes_isolated low low first] at res
    cases res
  | some f =>
    rw [identifyNodes, if_neg (not_le.2 low), if_neg (not_le.2 low), first] at res
    cases turned : relabel st.right f u (2 * st.mAct) f st.startNode with
    | error e =>
      simp [defined, bind, Except.bind, turned] at res
    | ok relabelled =>
      cases next : st.right f with
      | none =>
        simp [defined, bind, Except.bind, turned, next] at res
      | some r =>
        simp only [defined, bind, Except.bind, turned, next, pure, Except.pure] at res
        have lost := congrArg (fun s => s.first u) (Except.ok.inj res)
        simp [first] at lost

/-- **The lists of two nodes that are not isolated are joined.** -/
theorem identifyNodes_spec (lists : st.IncidenceLists) (lowU : u < st.nAct) (lowV : v < st.nAct)
    (apart : u ≠ v) {a1 a2 : ℕ} (firstU : st.first u = some a1) (firstV : st.first v = some a2) :
    ∃ st', st.identifyNodes u v = .ok st' ∧ st.Identifies st' u v := by
  have sound := lists.sound
  obtain ⟨live1, start1⟩ := sound.linked.firstSome u lowU a1 firstU
  obtain ⟨live2, start2⟩ := sound.linked.firstSome v lowV a2 firstV
  have startNode1 : st.startNode a1 = some u := start1
  have startNode2 : st.startNode a2 = some v := start2
  obtain ⟨u', v', start, y, next, startU, startV, relabelled, right1, startY, set, kept, joined⟩ :=
    join_spec sound live1 live2 (by
      rw [start1, start2]
      exact fun eq => apart (Option.some.inj eq))
  obtain rfl : u = u' := Option.some.inj (start1.symm.trans startU)
  obtain rfl : v = v' := Option.some.inj (start2.symm.trans startV)
  have either : ∀ a < 2 * st.mAct, start a = some u ↔
      (st.startNode a = some u ∨ st.startNode a = some v) := by
    intro a low
    by_cases atV : st.startNode a = some v
    · exact iff_of_true (set a ⟨low, by simp [atV]⟩ atV) (.inr atV)
    · rw [kept a fun _ => atV]
      exact (or_iff_left atV).symm
  let st' : SparseState := { st with
    startNode := start
    right := update (update st.right y (some next)) a1 (some a2)
    left := st.left.map fun left =>
      update (update left next (some y)) a2 (some a1)
    first := update st.first v none }
  have consistent : st'.IncidenceLists := IncidenceLists.of_spare joined.incidenceLists
  refine ⟨st', ?_, ⟨rfl, rfl, rfl, rfl, rfl, rfl⟩, consistent, fun f val => ?_, ?_, ?_,
    update_self .., fun w notU notV => ?_⟩
  · have turned : relabel st.right a2 u (2 * st.mAct) a2 st.startNode = .ok (start, y) := relabelled
    have following : st.right a1 = some next := right1
    rw [identifyNodes, if_neg (not_le.2 lowU), if_neg (not_le.2 lowV), firstU, firstV]
    simp only [defined, bind, Except.bind, turned, following]
    rfl
  · obtain ⟨l, ring, members⟩ := consistent.lists u lowU f val
    refine ⟨l, ring, fun a => (members a).trans ?_⟩
    exact and_congr_right fun low => either a low
  · rw [consistent.first u lowU]
    constructor
    · rintro none a ⟨low, incident⟩
      exact none a low ((either a low).2 incident)
    · intro none a low val
      exact none a ⟨low, (either a low).1 val⟩
  · rintro a ⟨low, incident⟩
    exact (either a low).2 incident
  · refine ⟨update_of_ne notV .., fun a low val => ⟨?_, ?_⟩⟩
    · refine (kept a fun _ eq => notV ?_).trans val
      exact Option.some.inj (val.symm.trans eq)
    · have not1 : a ≠ a1 := by
        rintro rfl
        exact notU (Option.some.inj (val.symm.trans startNode1))
      have notY : a ≠ y := by
        rintro rfl
        exact notV (Option.some.inj (val.symm.trans startY))
      exact (update_of_ne not1 ..).trans (update_of_ne notY ..)

/-- **`IdentifyNodes` joins the lists of two nodes** if and only if the nodes are different and none
of them is isolated. -/
theorem identifyNodes_iff (lists : st.IncidenceLists) (lowU : u < st.nAct) (lowV : v < st.nAct) :
    ((u ≠ v → ∃ st', st.identifyNodes u v = .ok st' ∧ st.Identifies st' u v) ∧
      (u = v → st.identifyNodes u v = .ok st)) ↔ u ≠ v ∧ st.first u ≠ none ∧ st.first v ≠ none := by
  constructor
  · rintro ⟨joins, unchanged⟩
    have apart : u ≠ v := by
      rintro rfl
      exact identifyNodes_same lowU (unchanged rfl)
    obtain ⟨st', result, -⟩ := joins apart
    refine ⟨apart, fun isolated => ?_, fun isolated => ?_⟩
    · exact identifyNodes_isolated_target lowU lowV isolated st' result
    · rw [identifyNodes_isolated lowU lowV isolated] at result
      cases result
  · rintro ⟨apart, someU, someV⟩
    obtain ⟨a1, firstU⟩ := ne_none_iff_exists'.1 someU
    obtain ⟨a2, firstV⟩ := ne_none_iff_exists'.1 someV
    exact ⟨fun _ => identifyNodes_spec lists lowU lowV apart firstU firstV,
      fun same => absurd same apart⟩

/-- Two nodes that are joined by an arc can be identified. -/
theorem identifyNodes_arc : ∃ st st', SparseReach 3 100 100 st ∧ st.identifyNodes 0 1 = .ok st' ∧
    st.Identifies st' 0 1 ∧ st'.right 0 = some 1 ∧ st'.right 1 = some 0 := by
  have reach : SparseReach 3 100 100 _ := .step (.insertArc 0 1) .start (by decide) rfl
  obtain ⟨joins, -⟩ := (identifyNodes_iff (reach_sound reach).incidenceLists (u := 0) (v := 1)
    (by decide) (by decide)).2 ⟨by decide, by decide, by decide⟩
  obtain ⟨st', result, identifies⟩ := joins (by decide)
  refine ⟨_, st', reach, result, identifies, ?_⟩
  cases result
  decide

/-- In the same graph, the link of an arc is read that an isolated node does not have. If a node is
identified with itself, its arc is not listed any more. -/
theorem identifyNodes_fails : ∃ st, SparseReach 3 100 100 st ∧ st.first 2 = none ∧
    st.identifyNodes 0 2 = .error .fault ∧ st.first 0 = some 0 ∧
    ∃ st', st.identifyNodes 0 0 = .ok st' ∧ st'.first 0 = none := by
  have reach : SparseReach 3 100 100 _ := .step (.insertArc 0 1) .start (by decide) rfl
  exact ⟨_, reach, by decide, rfl, by decide, _, rfl, by decide⟩

end SparseState

end Goblin
