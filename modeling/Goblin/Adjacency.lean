import Goblin.GraphFrames

/-!
# Adjacencies

`Adjacency` finds an arc between two nodes, either by a search in the incidence list or by a table
that has one entry for every pair of nodes. The table is filled by the first query which asks for
it, and later on it is maintained by `MarkAdjacency`.

The table is incomplete if a cancelled arc stops the loop which fills it. `InsertArc` marks the new
arc but not its reverse arc, `CancelArc` clears one entry although there may be parallel arcs and
although the reverse arc has an entry too, `DeleteArc` renumbers the last arc, and `ContractArc`
moves the arcs of one end node to the other.
-/

set_option autoImplicit false

namespace Goblin.SparseGraph

open Library List Option Function SparseState
open SparseState (rev)

variable {st st' s : SparseGraph} {u v a b : ℕ} {x : Option ℕ} {P : ℕ → Prop} {cap length lower : ℚ}

/-! ## Correct answers -/

/-- The arc `a` leads from `u` to `v`. -/
def Joins (st : SparseGraph) (a u v : ℕ) : Prop :=
  a < 2 * st.m ∧ st.rep.startNode a = some u ∧ st.rep.startNode (rev a) = some v

/-- A correct answer to the query for an arc from `u` to `v`. -/
structure Answers (st : SparseGraph) (u v : ℕ) (x : Option ℕ) : Prop where
  none_iff : x = none ↔ ∀ a, ¬ st.Joins a u v
  joins : ∀ a, x = some a → st.Joins a u v
  free : ∀ a, x = some a → (∃ b, st.Joins b u v ∧ st.blocking b = false) → st.blocking a = false

theorem Answers.congr (answer : st.Answers u v x) (eq : ∀ b, st'.Joins b u v ↔ st.Joins b u v)
    (blocking : ∀ b, st'.blocking b = st.blocking b) : st'.Answers u v x := by
  refine ⟨?_, fun a val => (eq a).2 (answer.joins a val), ?_⟩
  · rw [answer.none_iff]
    exact forall_congr' fun b => not_congr (eq b).symm
  · rintro a val ⟨c, joinsC, freeC⟩
    rw [blocking] at freeC ⊢
    exact answer.free a val ⟨c, (eq c).1 joinsC, freeC⟩

section

variable (blocking : ℕ → Bool) (P : ℕ → Prop)

/-- The best one among the arcs of a list that have a property. -/
structure Best (l : List ℕ) (x : Option ℕ) : Prop where
  none_iff : x = none ↔ ∀ a ∈ l, ¬ P a
  mem : ∀ a, x = some a → a ∈ l ∧ P a
  free : ∀ a, x = some a → (∃ b ∈ l, P b ∧ blocking b = false) → blocking a = false

theorem Best.nil : Best blocking P [] none :=
  ⟨by simp, fun _ val => absurd val (by simp), fun _ val => absurd val (by simp)⟩

end

theorem prefer_cases (st : SparseGraph) (x : Option ℕ) (a : ℕ) :
    ∃ c, st.prefer x a = some c ∧ (c = a ∨ x = some c) ∧
      (st.blocking a = false → st.blocking c = false) ∧
      ∀ b, x = some b → st.blocking b = false → st.blocking c = false := by
  cases x with
  | none => exact ⟨a, rfl, .inl rfl, id, fun b val => nomatch val⟩
  | some b =>
    have eq : ∀ c, some b = some c → st.blocking c = false → st.blocking b = false := by
      intro c val free
      cases val
      exact free
    rw [prefer]
    split_ifs with replace keep smaller
    · refine ⟨a, rfl, .inl rfl, id, fun c val free => ?_⟩
      rw [eq c val free] at replace
      cases replace.1
    · refine ⟨b, rfl, .inr rfl, fun free => ?_, eq⟩
      rw [free] at keep
      cases keep.1
    · refine ⟨a, rfl, .inl rfl, id, fun c val free => ?_⟩
      by_contra blocked
      exact keep ⟨by simpa using blocked, by simp [eq c val free]⟩
    · refine ⟨b, rfl, .inr rfl, fun free => ?_, eq⟩
      by_contra blocked
      exact replace ⟨by simpa using blocked, by simp [free]⟩

theorem Best.append [DecidablePred P] {l : List ℕ} (best : Best st.blocking P l x) (a : ℕ) :
    Best st.blocking P (l ++ [a]) (if P a then st.prefer x a else x) := by
  by_cases holds : P a
  · obtain ⟨c, val, source, freeA, freeX⟩ := prefer_cases st x a
    rw [if_pos holds, val]
    refine ⟨?_, ?_, ?_⟩
    · refine iff_of_false (by simp) fun none => none a (by simp) holds
    · intro d eq
      cases eq
      rcases source with rfl | old
      · exact ⟨by simp, holds⟩
      · obtain ⟨inside, holds'⟩ := best.mem c old
        exact ⟨mem_append_left _ inside, holds'⟩
    · rintro d eq ⟨b, inside, holdsB, freeB⟩
      cases eq
      rcases mem_append.1 inside with old | new
      · cases prev : x with
        | none => exact absurd holdsB (best.none_iff.1 prev b old)
        | some e => exact freeX e prev (best.free e prev ⟨b, old, holdsB, freeB⟩)
      · rw [mem_singleton.1 new] at freeB
        exact freeA freeB
  · rw [if_neg holds]
    have eq : ∀ b, b ∈ l ++ [a] ∧ P b ↔ b ∈ l ∧ P b := by
      intro b
      constructor
      · rintro ⟨inside, holdsB⟩
        rcases mem_append.1 inside with old | new
        · exact ⟨old, holdsB⟩
        · rw [mem_singleton.1 new] at holdsB
          exact absurd holdsB holds
      · rintro ⟨inside, holdsB⟩
        exact ⟨mem_append_left _ inside, holdsB⟩
    refine ⟨?_, fun b val => (eq b).2 (best.mem b val), ?_⟩
    · rw [best.none_iff]
      constructor
      · exact fun none b inside holdsB => none b ((eq b).1 ⟨inside, holdsB⟩).1 holdsB
      · exact fun none b inside holdsB => none b ((eq b).2 ⟨inside, holdsB⟩).1 holdsB
    · rintro b val ⟨c, inside, holdsC, freeC⟩
      exact best.free b val ⟨c, ((eq c).1 ⟨inside, holdsC⟩).1, holdsC, freeC⟩

theorem best_foldl [DecidablePred P] (k : List ℕ) : ∀ (l : List ℕ) (x : Option ℕ),
    Best st.blocking P l x →
    Best st.blocking P (l ++ k) (k.foldl (fun best a => if P a then st.prefer best a else best) x) := by
  induction k with
  | nil =>
    intro l x best
    rwa [append_nil]
  | cons a k ih =>
    intro l x best
    have next := ih (l ++ [a]) _ (best.append a)
    rwa [append_assoc] at next

/-! ## The search -/

theorem searchAdjacency_answers (wired : st.Wired) (low : u < st.n) :
    st.Answers u v (st.searchAdjacency u v) := by
  obtain ⟨-, mem⟩ := incidences_spec wired.sound (wired.n ▸ low)
  have best := best_foldl (P := fun a => st.rep.startNode (rev a) = some v)
    (st.incidences u) [] none (.nil st.blocking _)
  rw [nil_append] at best
  have joins : ∀ a, st.Joins a u v ↔ a ∈ st.incidences u ∧ st.rep.startNode (rev a) = some v := by
    intro a
    rw [mem, Joins, wired.m, and_assoc]
  refine ⟨?_, fun a val => (joins a).2 (best.mem a val), ?_⟩
  · refine best.none_iff.trans ⟨fun none a joined => ?_, fun none a inside start => ?_⟩
    · obtain ⟨inside, start⟩ := (joins a).1 joined
      exact none a inside start
    · exact none a ((joins a).2 ⟨inside, start⟩)
  · rintro a val ⟨b, joined, free⟩
    obtain ⟨inside, start⟩ := (joins b).1 joined
    exact best.free a val ⟨b, inside, start, free⟩

/-! ## The table -/

theorem index_injective {n u' v' : ℕ} (lowV : v < n) (lowV' : v' < n)
    (eq : u * n + v = u' * n + v') : u = u' ∧ v = v' := by
  have quotient : ∀ w x, x < n → (w * n + x) / n = w := by
    intro w x low
    rw [Nat.mul_comm, Nat.mul_add_div (by omega), Nat.div_eq_of_lt low, Nat.add_zero]
  have first : u = u' := by
    rw [← quotient u v lowV, eq, quotient u' v' lowV']
  subst first
  exact ⟨rfl, by omega⟩

/-- What the arcs from `u` to `v` have in common. -/
def Leads (st : SparseGraph) (u v a : ℕ) : Prop :=
  st.rep.startNode a = some u ∧ st.rep.startNode (rev a) = some v

instance (st : SparseGraph) (u v : ℕ) : DecidablePred (st.Leads u v) :=
  fun _ => inferInstanceAs (Decidable (_ ∧ _))

theorem enterAdjacency_ok {adj : ℕ → Option ℕ} (cached : st.adj = some adj)
    (leads : st.Leads u v a) :
    enterAdjacency a st = .ok () { st with
      adj := some (update adj (u * st.n + v) (st.prefer (adj (u * st.n + v)) a)) } := by
  rw [enterAdjacency, run_bind_get, cached, leads.1, leads.2]
  rfl

/-- The loop that fills the table keeps the best arc for each pair of nodes. -/
theorem enterAll_ok (l : List ℕ) : ∀ (s : SparseGraph) (adj : ℕ → Option ℕ), s.adj = some adj →
    (∀ a ∈ l, ∃ u v, s.Leads u v a ∧ v < s.n) →
    ∃ adj', l.forM enterAdjacency s = .ok () { s with adj := some adj' } ∧
      ∀ u v k, v < s.n → Best s.blocking (s.Leads u v) k (adj (u * s.n + v)) →
        Best s.blocking (s.Leads u v) (k ++ l) (adj' (u * s.n + v)) := by
  induction l with
  | nil =>
    intro s adj cached _
    refine ⟨adj, ?_, fun u v k _ best => ?_⟩
    · rw [← cached]
      rfl
    · rwa [append_nil]
  | cons a l ih =>
    intro s adj cached live
    obtain ⟨u0, v0, leads, low0⟩ := live a mem_cons_self
    have step := enterAdjacency_ok cached leads
    obtain ⟨adj', rest, kept⟩ := ih { s with
        adj := some (update adj (u0 * s.n + v0) (s.prefer (adj (u0 * s.n + v0)) a)) } _ rfl
      fun b inside => live b (mem_cons_of_mem a inside)
    refine ⟨adj', ?_, fun u v k low best => ?_⟩
    · change (_ >>= _ : GraphM Unit) s = _
      rw [run_bind_ok step]
      exact rest
    · have entry : update adj (u0 * s.n + v0) (s.prefer (adj (u0 * s.n + v0)) a) (u * s.n + v) =
          if s.Leads u v a then s.prefer (adj (u * s.n + v)) a else adj (u * s.n + v) := by
        by_cases here : u * s.n + v = u0 * s.n + v0
        · obtain ⟨rfl, rfl⟩ := index_injective low low0 here
          rw [update_self, if_pos leads]
        · rw [update_of_ne here, if_neg]
          intro leads'
          obtain rfl := Option.some.inj (leads.1.symm.trans leads'.1)
          obtain rfl := Option.some.inj (leads.2.symm.trans leads'.2)
          exact here rfl
      have next := kept u v (k ++ [a]) low
      rw [append_assoc] at next
      refine next ?_
      change Best s.blocking (s.Leads u v) (k ++ [a]) (update adj _ _ (u * s.n + v))
      rw [entry]
      exact best.append a

/-- An arc that has been cancelled but not deleted. -/
def HasCancelled (st : SparseGraph) : Prop := ∃ a, a < 2 * st.m ∧ st.rep.startNode a = none

/-- The entries of the table are correct. -/
def Coherent (st : SparseGraph) : Prop :=
  ∀ adj, st.adj = some adj → ∀ u v, u < st.n → v < st.n → st.Answers u v (adj (u * st.n + v))

theorem Best.answers
    (best : Best st.blocking (st.Leads u v) (List.range (2 * st.m)) x) : st.Answers u v x := by
  refine ⟨?_, ?_, ?_⟩
  · refine best.none_iff.trans ⟨fun none a joined => ?_, fun none a inside leads => ?_⟩
    · exact none a (mem_range.2 joined.1) joined.2
    · exact none a ⟨mem_range.1 inside, leads⟩
  · intro a val
    obtain ⟨inside, leads⟩ := best.mem a val
    exact ⟨mem_range.1 inside, leads⟩
  · rintro a val ⟨b, joined, free⟩
    exact best.free a val ⟨b, mem_range.2 joined.1, joined.2, free⟩

/-- The first query for the table, if there are no cancelled arcs. -/
theorem adjacency_fills (wired : st.Wired) (absent : st.adj = none) (live : ¬ st.HasCancelled)
    (lowU : u < st.n) (lowV : v < st.n) (pos : 0 < st.m) :
    ∃ adj, adjacency u v .matrix st = .ok (adj (u * st.n + v)) { st with adj := some adj } ∧
      Coherent { st with adj := some adj } := by
  have leads : ∀ a ∈ List.range (2 * st.m), ∃ u v, st.Leads u v a ∧ v < st.n := by
    intro a inside
    have low := mem_range.1 inside
    have present : st.rep.startNode a ≠ none := fun dead => live ⟨a, low, dead⟩
    have lowRev : rev a < 2 * st.m := rev_lt.2 low
    have presentRev : st.rep.startNode (rev a) ≠ none := fun dead => live ⟨rev a, lowRev, dead⟩
    obtain ⟨u, startA⟩ := ne_none_iff_exists'.1 present
    obtain ⟨v, startRev⟩ := ne_none_iff_exists'.1 presentRev
    refine ⟨u, v, ⟨startA, startRev⟩, ?_⟩
    rw [wired.n]
    exact wired.sound.incidenceLists.nodes (rev a) (wired.m ▸ lowRev) v startRev
  obtain ⟨adj, filled, best⟩ := enterAll_ok (List.range (2 * st.m))
    { st with adj := some fun _ => none } _ rfl leads
  refine ⟨adj, ?_, ?_⟩
  · rw [adjacency, run_bind_get, if_neg (not_le.2 lowU), if_neg (not_le.2 lowV), absent]
    dsimp only
    rw [if_pos pos, run_bind_modify, run_bind_ok filled]
    rfl
  · intro adj' eq u v _ low
    cases eq
    have answer := best u v [] low (.nil _ _)
    rw [nil_append] at answer
    exact answer.answers.congr (fun _ => Iff.rfl) fun _ => rfl

/-! ## Insertion of an arc -/

/-- The state after an arc from `u` to `v` has been inserted. -/
structure ArcAdded (st st' : SparseGraph) (u v : ℕ) : Prop where
  wired : st'.Wired
  n : st'.n = st.n
  joins : ∀ b p q, st'.Joins b p q ↔
    st.Joins b p q ∨ (b = 2 * st.m ∧ p = u ∧ q = v) ∨ b = 2 * st.m + 1 ∧ p = v ∧ q = u
  blocking : ∀ b, st'.blocking b = st.blocking b
  next : st'.blocking (2 * st'.m + 1) = st.blocking (2 * st.m + 1)
  adj : st'.adj = st.adj.map fun adj => update adj (u * st.n + v) (some (2 * st.m))
  lowU : u < st.n
  lowV : v < st.n

theorem ArcAdded.of_result (wired : st.Wired)
    (res : sparseInsertArc u v cap length lower { st with m := st.m + 1 } = .ok a st') :
    ArcAdded st st' u v := by
  have sound : Sound { st with m := st.m + 1 }.rep := wired.sound
  obtain ⟨rep, routed, core'⟩ := core_sparseInsertArc sound res
  have n' : st'.n = st.n := congrArg Core.n core'
  have m' : st'.m = st.m + 1 := congrArg Core.m core'
  have rep' : st'.rep = rep := congrArg Core.rep core'
  have orientation : st'.orientation = st.orientation.map fun A => A.appendItems 1 :=
    congrArg Core.orientation core'
  have count : rep.mAct = st.rep.mAct + 1 := routed.count
  have nAct : rep.nAct = st.rep.nAct := routed.size.nAct
  have m_eq := wired.m
  have blocking' : ∀ b, st'.blocking b = st.blocking b := fun b => by
    refine blocking_congr rfl ?_
    rw [orientation, valueOf_appendItems]
  have startNew : rep.startNode (2 * st.m) = some u := m_eq ▸ routed.start_new
  have startRev : rep.startNode (2 * st.m + 1) = some v := by
    rw [← rev_double, m_eq]
    exact routed.start_rev
  have startOld : ∀ b, b < 2 * st.m → rep.startNode b = st.rep.startNode b := fun b low =>
    routed.start_old (by change b < 2 * st.rep.mAct; omega)
  have revNew : rev (2 * st.m) = 2 * st.m + 1 := rev_double st.m
  have revRev : rev (2 * st.m + 1) = 2 * st.m := by rw [← revNew, rev_rev]
  have lows : u < st.n ∧ v < st.n := by
    have nodes := routed.sound.incidenceLists.nodes
    rw [wired.n, ← nAct]
    exact ⟨nodes _ (by omega) u startNew, nodes _ (by omega) v startRev⟩
  refine ⟨⟨?_, ?_, ?_, ?_⟩, n', fun b p q => ?_, blocking', ?_, ?_, lows.1, lows.2⟩
  · rw [n', rep', nAct, wired.n]
  · rw [m', rep', count, m_eq]
  · rw [rep']
    exact routed.sound
  · rw [orientation, rep', count]
    exact wired.orientation.append 1
  · rw [Joins, Joins, m', rep']
    by_cases old : b < 2 * st.m
    · rw [startOld b old, startOld (rev b) (rev_lt.2 old)]
      constructor
      · rintro ⟨-, leads⟩
        exact .inl ⟨old, leads⟩
      · rintro (⟨-, leads⟩ | ⟨eq, -⟩ | ⟨eq, -⟩)
        · exact ⟨by omega, leads⟩
        · omega
        · omega
    constructor
    · rintro ⟨low, startB, startB'⟩
      rcases (by omega : b = 2 * st.m ∨ b = 2 * st.m + 1) with rfl | rfl
      · rw [startNew] at startB
        rw [revNew, startRev] at startB'
        cases startB
        cases startB'
        exact .inr (.inl ⟨rfl, rfl, rfl⟩)
      · rw [startRev] at startB
        rw [revRev, startNew] at startB'
        cases startB
        cases startB'
        exact .inr (.inr ⟨rfl, rfl, rfl⟩)
    · rintro (⟨low, -⟩ | ⟨rfl, rfl, rfl⟩ | ⟨rfl, rfl, rfl⟩)
      · exact absurd low old
      · exact ⟨by omega, startNew, by rw [revNew, startRev]⟩
      · exact ⟨by omega, startRev, by rw [revRev, startNew]⟩
  · rw [blocking', m']
    exact blocking_beyond wired.orientation (by omega) (by omega)
  · have marked : st'.adj = _ := congrArg Core.adj core'
    rw [marked, m_eq]
    rfl

/-- The entry for the reverse arc, which `InsertArc` does not mark, is correct nevertheless. -/
def KeepsPair (st : SparseGraph) (u v : ℕ) : Prop :=
  u = v ∨ ∃ b, st.Joins b v u ∧ (st.blocking (2 * st.m + 1) = true ∨ st.blocking b = false)

theorem ArcAdded.coherent (added : ArcAdded st st' u v) (coherent : st.Coherent)
    (keeps : st.adj = none ∨ st.KeepsPair u v) : st'.Coherent := by
  intro adj' cached' p q lowP lowQ
  rw [added.adj] at cached'
  obtain ⟨adj, cached, rfl⟩ := map_eq_some_iff.1 cached'
  have keeps := keeps.resolve_left (by simp [cached])
  rw [added.n] at lowP lowQ ⊢
  have joined : st'.Joins (2 * st.m) u v := (added.joins _ _ _).2 (.inr (.inl ⟨rfl, rfl, rfl⟩))
  by_cases here : p = u ∧ q = v
  · obtain ⟨rfl, rfl⟩ := here
    rw [update_self]
    refine ⟨iff_of_false (by simp) fun none => none _ joined, fun a val => ?_, fun a val _ => ?_⟩
    · cases val
      exact joined
    · cases val
      rw [added.blocking]
      exact blocking_even st st.m
  have other : p * st.n + q ≠ u * st.n + v := fun eq =>
    here (index_injective lowQ added.lowV eq)
  rw [update_of_ne other]
  have answer := coherent adj cached p q lowP lowQ
  by_cases reverse : p = v ∧ q = u
  · obtain ⟨rfl, rfl⟩ := reverse
    obtain ⟨b, joinsB, free⟩ := keeps.resolve_left fun eq => here ⟨eq.symm, eq⟩
    refine ⟨iff_of_false (fun none => ?_) fun none => none b ((added.joins _ _ _).2 (.inl joinsB)),
      fun a val => (added.joins _ _ _).2 (.inl (answer.joins a val)), ?_⟩
    · exact answer.none_iff.1 none b joinsB
    · rintro a val ⟨c, joinsC, freeC⟩
      rw [added.blocking] at freeC ⊢
      rcases (added.joins _ _ _).1 joinsC with old | ⟨-, eq⟩ | ⟨rfl, -, -⟩
      · exact answer.free a val ⟨c, old, freeC⟩
      · exact absurd eq here
      · rw [freeC] at free
        exact answer.free a val ⟨b, joinsB, free.resolve_left (by simp)⟩
  · have eq : ∀ b, st'.Joins b p q ↔ st.Joins b p q := by
      intro b
      rw [added.joins]
      constructor
      · rintro (old | ⟨-, forward⟩ | ⟨-, backward⟩)
        · exact old
        · exact absurd forward here
        · exact absurd backward reverse
      · exact .inl
    exact answer.congr eq added.blocking

/-! ## Cancellation of an arc -/

/-- The state after the arc `a` from `u` to `v` has been cancelled. -/
structure ArcGone (st st' : SparseGraph) (a u v : ℕ) : Prop where
  wired : st'.Wired
  n : st'.n = st.n
  m : st'.m = st.m
  joined : st.Joins a u v
  lowV : v < st.n
  joins : ∀ b p q, st'.Joins b p q ↔ st.Joins b p q ∧ b ≠ a ∧ b ≠ rev a
  blocking : ∀ b, st'.blocking b = st.blocking b
  adj : st'.adj = st.adj.map fun adj => update adj (u * st.n + v) none

theorem ArcGone.of_result (wired : st.Wired) (res : cancelArc a st = .ok () st') :
    ∃ u v, ArcGone st st' a u v := by
  obtain ⟨u, v, rep, low, startA, startRev, cancelled, core'⟩ := of_cancelArc wired.sound res
  have n' : st'.n = st.n := congrArg Core.n core'
  have m' : st'.m = st.m := congrArg Core.m core'
  have rep' : st'.rep = rep := congrArg Core.rep core'
  have orientation : st'.orientation = st.orientation := congrArg Core.orientation core'
  have start : ∀ c, rep.startNode c = if c = a ∨ c = rev a then none else st.rep.startNode c := by
    intro c
    rw [cancelled.startNode]
    by_cases isRev : c = rev a
    · rw [isRev, update_self, if_pos (.inr rfl)]
    · rw [update_of_ne isRev]
      by_cases isA : c = a
      · rw [isA, update_self, if_pos (.inl rfl)]
      · rw [update_of_ne isA, if_neg (by simp [isA, isRev])]
  have lowV : v < st.n := by
    rw [wired.n]
    exact wired.sound.incidenceLists.nodes (rev a) (rev_lt.2 low) v startRev
  refine ⟨u, v, ⟨?_, ?_, ?_, ?_⟩, n', m', ⟨by rw [wired.m]; exact low, startA, startRev⟩, lowV,
    fun b p q => ?_, fun b => ?_, ?_⟩
  · rw [n', rep', cancelled.size.nAct, wired.n]
  · rw [m', rep', cancelled.size.mAct, wired.m]
  · rw [rep']
    exact cancelled.sound
  · rw [orientation, rep', cancelled.size.mAct]
    exact wired.orientation
  · rw [Joins, Joins, m', rep', start, start]
    by_cases gone : b = a ∨ b = rev a
    · have both : ¬ (b ≠ a ∧ b ≠ rev a) := by
        rcases gone with eq | eq
        · exact fun both => both.1 eq
        · exact fun both => both.2 eq
      rw [if_pos gone]
      exact iff_of_false (by simp) fun joined => both joined.2
    · have others : ¬ (rev b = a ∨ rev b = rev a) := by
        rintro (eq | eq)
        · exact gone (.inr (by rw [← eq, rev_rev]))
        · exact gone (.inl (rev_injective eq))
      rw [if_neg gone, if_neg others]
      exact (and_iff_left (not_or.1 gone)).symm
  · exact blocking_congr rfl (by rw [orientation])
  · exact congrArg Core.adj core'

/-- The arc is a loop, and there is no other loop at its node. -/
def LoneLoop (st : SparseGraph) (a : ℕ) : Prop :=
  ∃ u, st.Joins a u u ∧ ∀ b, st.Joins b u u → b = a ∨ b = rev a

theorem ArcGone.coherent (gone : ArcGone st st' a u v) (coherent : st.Coherent)
    (keeps : st.adj = none ∨ st.LoneLoop a) : st'.Coherent := by
  intro adj' cached' p q lowP lowQ
  rw [gone.adj] at cached'
  obtain ⟨adj, cached, rfl⟩ := map_eq_some_iff.1 cached'
  obtain ⟨w, loop, lone⟩ := keeps.resolve_left (by simp [cached])
  obtain rfl : u = w := Option.some.inj (gone.joined.2.1.symm.trans loop.2.1)
  obtain rfl : v = u := Option.some.inj (gone.joined.2.2.symm.trans loop.2.2)
  rw [gone.n] at lowP lowQ ⊢
  by_cases here : p * st.n + q = v * st.n + v
  · rw [here, update_self]
    obtain ⟨rfl, rfl⟩ := index_injective lowQ gone.lowV here
    have empty : ∀ b, ¬ st'.Joins b q q := by
      intro b joins
      obtain ⟨old, notA, notRev⟩ := (gone.joins _ _ _).1 joins
      rcases lone b old with eq | eq
      · exact notA eq
      · exact notRev eq
    exact ⟨iff_of_true rfl empty, fun _ val => absurd val (by simp),
      fun _ val => absurd val (by simp)⟩
  · rw [update_of_ne here]
    have answer := coherent adj cached p q lowP lowQ
    have away : ∀ b, st.Joins b p q → b ≠ a ∧ b ≠ rev a := by
      intro b joins
      constructor
      · rintro rfl
        obtain rfl : p = v := Option.some.inj (joins.2.1.symm.trans loop.2.1)
        obtain rfl : q = p := Option.some.inj (joins.2.2.symm.trans loop.2.2)
        exact here rfl
      · rintro rfl
        have second := joins.2.2
        rw [rev_rev] at second
        obtain rfl : p = v := Option.some.inj (joins.2.1.symm.trans loop.2.2)
        obtain rfl : q = p := Option.some.inj (second.symm.trans loop.2.1)
        exact here rfl
    have eq : ∀ b, st'.Joins b p q ↔ st.Joins b p q := fun b =>
      (gone.joins b p q).trans ⟨And.left, fun joins => ⟨joins, away b joins⟩⟩
    exact answer.congr eq gone.blocking

/-! ## Deletion of an arc -/

theorem movedArc_rev {x y : ℕ} (b : ℕ) : movedArc x y (rev b) = rev (movedArc x y b) := by
  rw [movedArc, movedArc]
  by_cases isX : b = x
  · subst isX
    rw [if_neg (rev_ne b), if_pos rfl, if_pos rfl]
  by_cases isRev : b = rev x
  · rw [isRev, rev_rev, if_pos rfl, if_neg (rev_ne x), if_pos rfl, rev_rev]
  · have notX : rev b ≠ x := fun eq => isRev (by rw [← eq, rev_rev])
    have notRev : rev b ≠ rev x := fun eq => isX (rev_injective eq)
    rw [if_neg notX, if_neg notRev, if_neg isX, if_neg isRev]

/-- The state after the last edge of `s` has moved to the place of the edge of `x`. -/
structure ArcMoved (s st' : SparseGraph) (x : ℕ) : Prop where
  wired : st'.Wired
  n : st'.n = s.n
  m : st'.m + 1 = s.m
  joins : ∀ b p q, b < 2 * st'.m →
    (st'.Joins b p q ↔ s.Joins (movedArc x (2 * st'.m) b) p q)
  blocking : ∀ b, b < 2 * st'.m → st'.blocking b = s.blocking (movedArc x (2 * st'.m) b)
  adj : st'.adj = s.adj

theorem ArcMoved.of_removed {x : ℕ} (even : x % 2 = 0) (low : x < 2 * s.m) (wired : s.Wired)
    (removed : Removed s st' x) : ArcMoved s st' x := by
  have m' := removed.m
  have count := removed.count
  have m_eq := wired.m
  have last : 2 * s.rep.mAct - 2 = 2 * st'.m := by omega
  have half : (2 * s.rep.mAct - 2) / 2 = st'.m := by omega
  have orientation := removed.orientation
  have condition : x = 2 * s.rep.mAct - 2 ↔ x / 2 = st'.m := by omega
  rw [half] at orientation
  simp only [condition] at orientation
  have ranked : Ranked s.orientation (st'.m + 1) := by
    rw [m', count]
    exact wired.orientation
  refine ⟨⟨?_, m', removed.sound, ?_⟩, removed.n, by omega, fun b p q lowB => ?_, fun b lowB => ?_,
    removed.adj⟩
  · rw [removed.n, removed.nAct, wired.n]
  · rw [orientation, ← m']
    split_ifs
    · exact ranked.eraseItems
    · exact (ranked.swapItems _ _).eraseItems
  · have lowRev : rev b < 2 * st'.m := rev_lt.2 lowB
    have moved : movedArc x (2 * st'.m) b < 2 * s.m := by
      have revY : rev (2 * st'.m) = 2 * st'.m + 1 := rev_double st'.m
      rw [movedArc]
      split_ifs
      · omega
      · omega
      · omega
    rw [Joins, Joins, removed.startNode b (by omega), removed.startNode (rev b) (by omega), last,
      movedArc_rev]
    exact and_congr_left fun _ => iff_of_true lowB moved
  · have revX : rev x = x + 1 := by rw [rev_eq, if_pos even]
    have revY : rev (2 * st'.m) = 2 * st'.m + 1 := rev_double st'.m
    have place : movedArc x (2 * st'.m) b / 2 = if b / 2 = x / 2 then st'.m else b / 2 := by
      rw [movedArc]
      split_ifs <;> omega
    refine blocking_congr ?_ ?_
    · rw [movedArc]
      split_ifs <;> omega
    · rw [orientation, place]
      exact valueOf_removed ranked (by omega) (by omega)

/-- No entry refers to an arc of the last edge, which is going to be renumbered. -/
def KeepsLast (st : SparseGraph) (a : ℕ) : Prop :=
  a / 2 + 1 = st.m ∨ ∀ adj, st.adj = some adj → ∀ c p q, c / 2 + 1 = st.m → st.Joins c p q →
    adj (p * st.n + q) ≠ some c

theorem ArcMoved.coherent {x : ℕ} (even : x % 2 = 0) (dead : ∀ p q, ¬ s.Joins x p q)
    (moved : ArcMoved s st' x) (low : x < 2 * s.m) (coherent : s.Coherent)
    (keeps : s.KeepsLast x) : st'.Coherent := by
  intro adj cached p q lowP lowQ
  rw [moved.adj] at cached
  rw [moved.n] at lowP lowQ ⊢
  have answer := coherent adj cached p q lowP lowQ
  have m' := moved.m
  have revX : rev x = x + 1 := by rw [rev_eq, if_pos even]
  have revY : rev (2 * st'.m) = 2 * st'.m + 1 := rev_double st'.m
  have deadRev : ∀ p q, ¬ s.Joins (rev x) p q := by
    intro p q joins
    refine dead q p ⟨low, ?_, joins.2.1⟩
    have second := joins.2.2
    rwa [rev_rev] at second
  -- every arc that is still there has an index
  have index : ∀ c, s.Joins c p q → ∃ b, b < 2 * st'.m ∧ movedArc x (2 * st'.m) b = c := by
    intro c joins
    have notX : c ≠ x := fun eq => dead p q (eq ▸ joins)
    have notRev : c ≠ rev x := fun eq => deadRev p q (eq ▸ joins)
    have lowC := joins.1
    by_cases isY : c = 2 * st'.m
    · exact ⟨x, by omega, by rw [movedArc, if_pos rfl, isY]⟩
    by_cases isRevY : c = 2 * st'.m + 1
    · refine ⟨rev x, by omega, ?_⟩
      rw [movedArc, if_neg (rev_ne x), if_pos rfl, revY, isRevY]
    · exact ⟨c, by omega, by rw [movedArc, if_neg notX, if_neg notRev]⟩
  -- the entry is not renumbered
  have stays : ∀ c, adj (p * s.n + q) = some c → c < 2 * st'.m ∧ movedArc x (2 * st'.m) c = c := by
    intro c val
    have joins := answer.joins c val
    have notX : c ≠ x := fun eq => dead p q (eq ▸ joins)
    have notRev : c ≠ rev x := fun eq => deadRev p q (eq ▸ joins)
    have lowC := joins.1
    refine ⟨?_, by rw [movedArc, if_neg notX, if_neg notRev]⟩
    by_contra high
    rcases keeps with isLast | entries
    · omega
    · exact entries adj cached c p q (by omega) joins val
  refine ⟨?_, fun c val => ?_, ?_⟩
  · rw [answer.none_iff]
    constructor
    · intro none b joins
      exact none _ ((moved.joins b p q joins.1).1 joins)
    · intro none c joins
      obtain ⟨b, lowB, rfl⟩ := index c joins
      exact none b ((moved.joins b p q lowB).2 joins)
  · obtain ⟨lowC, eq⟩ := stays c val
    rw [moved.joins c p q lowC, eq]
    exact answer.joins c val
  · rintro c val ⟨b, joinsB, freeB⟩
    obtain ⟨lowC, eq⟩ := stays c val
    rw [moved.blocking c lowC, eq]
    rw [moved.blocking b joinsB.1] at freeB
    exact answer.free c val ⟨_, (moved.joins b p q joinsB.1).1 joinsB, freeB⟩

/-! ## Runs -/

/-- The calls in a run. -/
inductive AdjacencyOp where
  | insertArc (u v : ℕ) (cap length lower : ℚ)
  | cancelArc (a : ℕ)
  | deleteArc (a : ℕ)
  | contractArc (a : ℕ)
  | adjacency (u v : ℕ) (method : MethAdjacency)

def AdjacencyOp.run : AdjacencyOp → GraphM Unit
  | .insertArc u v cap length lower => discard (SparseGraph.insertArc u v cap length lower)
  | .cancelArc a => SparseGraph.cancelArc a
  | .deleteArc a => SparseGraph.deleteArc a
  | .contractArc a => SparseGraph.contractArc a
  | .adjacency u v method => discard (SparseGraph.adjacency u v method)

/-- The call does not invalidate an entry of the table. -/
def AdjacencyOp.Harmless (st : SparseGraph) : AdjacencyOp → Prop
  | .insertArc u v _ _ _ =>
    st.adj = none ∨ (st.KeepsPair u v ∧ (st.balanced → st.KeepsPair (rev v) (rev u)))
  | .cancelArc a => st.adj = none ∨ st.LoneLoop a
  | .deleteArc a =>
    st.adj = none ∨
      ((st.rep.startNode (2 * (a / 2)) = none ∨ st.LoneLoop (2 * (a / 2))) ∧ st.KeepsLast a)
  | .contractArc _ => st.adj = none
  | .adjacency _ _ method => st.adj ≠ none ∨ method = .search ∨ ¬ st.HasCancelled

theorem of_insertArc (wired : st.Wired) (res : insertArc u v cap length lower st = .ok a st') :
    ∃ s, (if st.balanced then ArcAdded st s (rev v) (rev u) else s = st) ∧ ArcAdded s st' u v := by
  rw [insertArc, run_bind_get] at res
  obtain ⟨highU, res⟩ := of_run_check res
  obtain ⟨highV, res⟩ := of_run_check res
  obtain ⟨_, s, first, second⟩ := of_run_bind res
  refine ⟨s, ?_⟩
  by_cases balanced : st.balanced = true
  · rw [if_pos balanced] at first ⊢
    rw [run_bind_modify] at first
    obtain ⟨b, inserted⟩ := of_run_discard first
    have added := ArcAdded.of_result wired inserted
    exact ⟨added, .of_result added.wired second⟩
  · rw [if_neg balanced] at first ⊢
    cases first
    exact ⟨rfl, .of_result wired second⟩

theorem ArcAdded.keepsPair {p q : ℕ} (added : ArcAdded st st' p q) (keeps : st.KeepsPair u v) :
    st'.KeepsPair u v := by
  rcases keeps with eq | ⟨b, joins, free⟩
  · exact .inl eq
  · refine .inr ⟨b, (added.joins _ _ _).2 (.inl joins), ?_⟩
    rwa [added.next, added.blocking]

/-- What holds in a run. -/
structure Maintained (st : SparseGraph) : Prop where
  wired : st.Wired
  coherent : st.Coherent

section

variable (maintained : st.Maintained)
include maintained

theorem Maintained.insertArc (keeps : (AdjacencyOp.insertArc u v cap length lower).Harmless st)
    (res : SparseGraph.insertArc u v cap length lower st = .ok a st') : st'.Maintained := by
  obtain ⟨s, first, second⟩ := of_insertArc maintained.wired res
  refine ⟨second.wired, ?_⟩
  by_cases balanced : st.balanced = true
  · rw [if_pos balanced] at first
    refine second.coherent (first.coherent maintained.coherent ?_) ?_
    · exact keeps.imp_right fun both => both.2 balanced
    · refine keeps.imp (fun absent => ?_) fun both => first.keepsPair both.1
      rw [first.adj, absent]
      rfl
  · rw [if_neg balanced] at first
    subst first
    exact second.coherent maintained.coherent (keeps.imp_right And.left)

theorem Maintained.deleteArc (keeps : (AdjacencyOp.deleteArc a).Harmless st)
    (res : SparseGraph.deleteArc a st = .ok () st') : st'.Maintained := by
  have m_eq := maintained.wired.m
  obtain ⟨low, s, cancelled, removed⟩ := of_deleteArc maintained.wired.sound res
  have lastOf : 2 * (a / 2) / 2 = a / 2 := by omega
  -- the state after the arc has been cancelled, in which the last arc is renumbered
  obtain ⟨wired, coherent, m', dead, last⟩ : s.Wired ∧ s.Coherent ∧ s.m = st.m ∧
      (∀ p q, ¬ s.Joins (2 * (a / 2)) p q) ∧ (s.adj = none ∨ s.KeepsLast (2 * (a / 2))) := by
    rcases cancelled with ⟨dead, rfl⟩ | res1
    · refine ⟨maintained.wired, maintained.coherent, rfl, fun p q joins => ?_,
        keeps.imp_right fun both => ?_⟩
      · rw [joins.2.1] at dead
        cases dead
      · have kept := both.2
        rwa [KeepsLast, ← lastOf] at kept
    obtain ⟨u, v, gone⟩ := ArcGone.of_result maintained.wired res1
    refine ⟨gone.wired, gone.coherent maintained.coherent (keeps.imp_right fun both => ?_), gone.m,
      fun p q joins => ((gone.joins _ _ _).1 joins).2.1 rfl, keeps.imp (fun absent => ?_) ?_⟩
    · refine both.1.resolve_left fun dead => ?_
      rw [gone.joined.2.1] at dead
      cases dead
    · rw [gone.adj, absent]
      rfl
    · rintro ⟨-, isLast | entries⟩
      · left
        rw [lastOf, gone.m]
        exact isLast
      · refine .inr fun adj cached c p q isLast joins => ?_
        rw [gone.adj] at cached
        obtain ⟨old, val, rfl⟩ := map_eq_some_iff.1 cached
        rw [gone.m] at isLast
        have entry := entries old val c p q isLast ((gone.joins _ _ _).1 joins).1
        rw [gone.n]
        by_cases here : p * st.n + q = u * st.n + v
        · rw [here, update_self]
          simp
        · rwa [update_of_ne here]
  have lowX : 2 * (a / 2) < 2 * s.m := by omega
  have moved := ArcMoved.of_removed (by omega) lowX wired removed
  refine ⟨moved.wired, ?_⟩
  rcases last with absent | kept
  · intro adj cached
    rw [moved.adj, absent] at cached
    cases cached
  · exact moved.coherent (by omega) dead lowX coherent kept

theorem Maintained.contractArc (absent : st.adj = none)
    (res : SparseGraph.contractArc a st = .ok () st') : st'.Maintained := by
  obtain ⟨-, u, v, rep, sound, size, core'⟩ := of_contractArc maintained.wired.sound res
  have rep' : st'.rep = rep := congrArg Core.rep core'
  have orientation : st'.orientation = st.orientation := congrArg Core.orientation core'
  refine ⟨⟨?_, ?_, ?_, ?_⟩, ?_⟩
  · rw [rep']
    exact congrArg Core.n core'
  · rw [rep']
    exact congrArg Core.m core'
  · rw [rep']
    exact sound
  · rw [orientation, rep', size.mAct]
    exact maintained.wired.orientation
  · intro adj cached
    have marked : st'.adj = st.adj.map _ := congrArg Core.adj core'
    rw [marked, absent] at cached
    cases cached

theorem Maintained.adjacency {method : MethAdjacency} (lowU : u < st.n)
    (lowV : v < st.n) (harmless : (AdjacencyOp.adjacency u v method).Harmless st) :
    ∃ x st', SparseGraph.adjacency u v method st = .ok x st' ∧ st.Answers u v x ∧
      st'.Maintained := by
  have wired := maintained.wired
  cases cached : st.adj with
  | some adj =>
    refine ⟨adj (u * st.n + v), st, ?_, maintained.coherent adj cached u v lowU lowV, maintained⟩
    rw [SparseGraph.adjacency, run_bind_get, if_neg (not_le.2 lowU), if_neg (not_le.2 lowV), cached]
    rfl
  | none =>
    cases method with
    | search =>
      refine ⟨st.searchAdjacency u v, st, ?_, searchAdjacency_answers wired lowU, maintained⟩
      rw [SparseGraph.adjacency, run_bind_get, if_neg (not_le.2 lowU), if_neg (not_le.2 lowV),
        cached]
      rfl
    | matrix =>
      have live : ¬ st.HasCancelled :=
        (harmless.resolve_left (not_not.2 cached)).resolve_left (by simp)
      by_cases pos : 0 < st.m
      · obtain ⟨adj, res, coherent⟩ :=
          adjacency_fills wired cached live lowU lowV pos
        refine ⟨_, _, res, ?_, ⟨⟨wired.n, wired.m, wired.sound, wired.orientation⟩, coherent⟩⟩
        exact (coherent adj rfl u v lowU lowV).congr (fun _ => Iff.rfl) fun _ => rfl
      have empty : ∀ a, ¬ st.Joins a u v := fun a joins => by
        have := joins.1
        omega
      refine ⟨none, st, ?_, ⟨iff_of_true rfl empty, fun _ val => absurd val (by simp),
        fun _ val => absurd val (by simp)⟩, maintained⟩
      rw [SparseGraph.adjacency, run_bind_get, if_neg (not_le.2 lowU), if_neg (not_le.2 lowV),
        cached]
      dsimp only
      rw [if_neg pos]
      rfl

end

theorem Maintained.step (maintained : st.Maintained) (op : AdjacencyOp) (harmless : op.Harmless st)
    (res : op.run st = .ok () st') : st'.Maintained := by
  cases op with
  | insertArc u v cap length lower =>
    obtain ⟨a, inserted⟩ := of_run_discard res
    exact maintained.insertArc harmless inserted
  | cancelArc a =>
    obtain ⟨u, v, gone⟩ := ArcGone.of_result maintained.wired res
    exact ⟨gone.wired, gone.coherent maintained.coherent harmless⟩
  | deleteArc a => exact maintained.deleteArc harmless res
  | contractArc a => exact maintained.contractArc harmless res
  | adjacency u v method =>
    obtain ⟨x, answered⟩ := of_run_discard res
    have lows : u < st.n ∧ v < st.n := by
      rw [SparseGraph.adjacency, run_bind_get] at answered
      by_cases highU : st.n ≤ u
      · rw [if_pos highU] at answered
        cases answered
      by_cases highV : st.n ≤ v
      · rw [if_neg highU, if_pos highV] at answered
        cases answered
      exact ⟨not_le.1 highU, not_le.1 highV⟩
    obtain ⟨y, s, answered', -, after⟩ := maintained.adjacency lows.1 lows.2 harmless
    rw [answered] at answered'
    cases answered'
    exact after

/-- The states of a run of harmless calls. -/
inductive Queried (start : SparseGraph) : SparseGraph → Prop
  | start : Queried start start
  | step {st st' : SparseGraph} (op : AdjacencyOp) (before : Queried start st)
      (harmless : op.Harmless st) (result : op.run st = .ok () st') : Queried start st'

theorem Queried.maintained {start : SparseGraph} (wired : start.Wired) (absent : start.adj = none)
    (run : Queried start st) : st.Maintained := by
  induction run with
  | start =>
    refine ⟨wired, fun adj cached => ?_⟩
    rw [absent] at cached
    cases cached
  | step op _ harmless res ih => exact ih.step op harmless res

/-- **In every run of harmless calls, the table agrees with the arcs and with the search.** A query
for the table returns unless the table is missing and there is a cancelled arc. -/
theorem adjacency_coherent {start : SparseGraph} (wired : start.Wired) (absent : start.adj = none)
    (run : Queried start st) (lowU : u < st.n) (lowV : v < st.n) :
    (∀ adj, st.adj = some adj → st.Answers u v (adj (u * st.n + v))) ∧
    ((AdjacencyOp.adjacency u v .matrix).Harmless st → ∃ x y st',
      adjacency u v .matrix st = .ok x st' ∧
      adjacency u v .search { st with adj := none } = .ok y { st with adj := none } ∧
      st.Answers u v x ∧ st.Answers u v y ∧ (x = none ↔ y = none)) := by
  have maintained := run.maintained wired absent
  refine ⟨fun adj cached => maintained.coherent adj cached u v lowU lowV, fun harmless => ?_⟩
  obtain ⟨x, st', result, answer, -⟩ := maintained.adjacency lowU lowV harmless
  have search := searchAdjacency_answers (v := v) maintained.wired lowU
  refine ⟨x, st.searchAdjacency u v, st', result, ?_, answer, search, ?_⟩
  · rw [adjacency, run_bind_get, if_neg (not_le.2 lowU), if_neg (not_le.2 lowV)]
    rfl
  · rw [answer.none_iff, search.none_iff]

theorem new_wired (n maxNode maxArc : ℕ) (orientation : ℕ) :
    (new n maxNode maxArc (some ⟨[], orientation⟩)).Wired := by
  refine ⟨rfl, rfl, new_sound n maxNode maxArc, fun A val => ?_⟩
  cases val
  exact .inl rfl

/-- A digraph with one arc, and the table. -/
theorem adjacency_coherent_arc : ∃ st adj, Queried (new 2 100 100 (some ⟨[], 1⟩)) st ∧
    st.m = 1 ∧ st.adj = some adj ∧ st.Answers 1 0 (adj (1 * st.n + 0)) := by
  obtain ⟨s, run, n, m, absent, live⟩ : ∃ s, Queried (new 2 100 100 (some ⟨[], 1⟩)) s ∧
      s.n = 2 ∧ s.m = 1 ∧ s.adj = none ∧ ¬ s.HasCancelled := by
    refine ⟨_, .step (.insertArc 0 1 1 1 0) .start (.inl rfl) rfl, rfl, rfl, rfl, ?_⟩
    rintro ⟨a, low, dead⟩
    change a < 2 at low
    interval_cases a
    · cases dead
    · cases dead
  have wired := (run.maintained (new_wired 2 100 100 1) rfl).wired
  obtain ⟨adj, res, -⟩ := adjacency_fills (u := 0) (v := 1) wired absent live (by omega)
    (by omega) (by omega)
  have run' := run.step (.adjacency 0 1 .matrix) (.inr (.inr live)) (run_discard_ok res)
  obtain ⟨table, -⟩ := adjacency_coherent (u := 1) (v := 0) (new_wired 2 100 100 1) rfl run'
    (n ▸ one_lt_two) (n ▸ two_pos)
  exact ⟨_, adj, run', m, rfl, table adj rfl⟩

/-- The new arc has no entry in the reverse direction. -/
theorem adjacency_not_coherent : ∃ st, (do
      discard (insertArc 0 1 1 1 0)
      discard (adjacency 0 1 .matrix)
      discard (insertArc 1 2 1 1 0)
      adjacency 2 1 .matrix : GraphM (Option ℕ)) (new 3 100 100 none) = .ok none st ∧
    st.Joins 3 2 1 ∧ st.searchAdjacency 2 1 = some 3 :=
  ⟨_, rfl, ⟨by decide, rfl, rfl⟩, rfl⟩

end Goblin.SparseGraph
