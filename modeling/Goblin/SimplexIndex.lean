import Goblin.SimplexPivot

/-!
# Network simplex runs

`InitThreadIndex` searches every tree from its root and threads the nodes in the order in
which they are met. While the search is at a node, what has been threaded is an unfinished
preorder (`Remainder`), nodes off the current path have been read completely, and the
tree arcs that leave a threaded node have been followed or are still unread (`ScanInv`).
`ComputePotentials` follows the thread, so that parents come first.
-/

set_option autoImplicit false

namespace Goblin

open Library List Finset Option Function

namespace DiGraph

variable {n m : ℕ} {G : DiGraph n m} {pred : Fin n → Option (Arc m)} {v : Fin n}
  {st : SimplexState n m}

/-- Predecessor labels that lead every node to a root. -/
structure IsForest (G : DiGraph n m) (pred : Fin n → Option (Arc m)) : Prop where
  ends : ∀ v a, pred v = some a → G.endNode a = v
  rooted : ∀ v, ∃ p r, ReadsTo pred G.startNode v p r ∧ pred r = none

theorem ancestor_of_readsTo {r : Fin n} {p : List (Arc m)}
    (reads : ReadsTo pred G.startNode v p r) : Ancestor (G.parent pred) r v := by
  induction p generalizing v with
  | nil =>
    cases reads
    exact .refl
  | cons a p ih =>
    obtain ⟨label, rest⟩ := reads
    exact (ih rest).trans (.single (parent_of_pred label))

/-! ## The search of one tree -/

/-- The number of incidences that have not been read. -/
def unreadCount (unread : Fin n → List (Arc m)) : ℕ := ∑ v, (unread v).length

theorem unreadCount_update (unread : Fin n → List (Arc m)) {a : Arc m} {rest : List (Arc m)}
    (here : unread v = a :: rest) :
    unreadCount (update unread v rest) + 1 = unreadCount unread := by
  rw [unreadCount, unreadCount, ← add_sum_erase _ _ (mem_univ v),
    ← add_sum_erase Finset.univ (fun w => (unread w).length) (mem_univ v),
    update_self, here, length_cons]
  have others : ∑ w ∈ Finset.univ.erase v, (update unread v rest w).length =
      ∑ w ∈ Finset.univ.erase v, (unread w).length := by
    refine sum_congr rfl fun w mem => ?_
    rw [update_of_ne (ne_of_mem_erase mem)]
  omega

theorem unreadCount_incidences (G : DiGraph n m) : unreadCount G.incidences = 2 * m := by
  have fibre : ∀ v, (G.incidences v).length =
      (Finset.univ.filter fun a : Arc m => G.src a = v).card := by
    intro v
    rw [← toFinset_card_of_nodup (G.nodup_incidences v)]
    congr 1
    ext a
    simp [G.mem_incidences]
  rw [unreadCount, sum_congr rfl fun v _ => fibre v,
    ← card_eq_sum_card_fiberwise fun a _ => mem_univ _, card_univ]
  have pairs : Fintype.card (Arc m) = Fintype.card (Fin m × Bool) :=
    Fintype.card_congr ⟨fun a => (a.edge, a.back), fun x => ⟨x.1, x.2⟩, fun _ => rfl, fun _ => rfl⟩
  rw [pairs, Fintype.card_prod, Fintype.card_fin, Fintype.card_bool, mul_comm]

/-- The state of the search from `r` when the nodes of `r :: l` have been threaded; it has
started in the state `s0`. -/
structure ScanInv (G : DiGraph n m) (pred : Fin n → Option (Arc m)) (r : Fin n)
    (s0 s : ThreadScan n m) (l : List (Fin n)) : Prop where
  last : ∃ front, r :: l = front ++ [s.previous]
  links : Links s.thread (r :: l) none
  nodup : (r :: l).Nodup
  current : s.v ∈ r :: l
  unfinished : ∀ R, Remainder (G.parent pred) r s.v R → Preorder (G.parent pred) (some r) (l ++ R)
  depth : s.depth s.v = s.thisDepth
  depths : ∀ y ∈ r :: l, s.depth y = level s.depth (G.parent pred y)
  parents : ∀ y ∈ l, ∃ a, pred y = some a ∧ G.startNode a ∈ r :: l ∧ a ∉ s.unread (G.startNode a)
  finished : ∀ y ∈ r :: l, ¬ Ancestor (G.parent pred) y s.v → s.unread y = []
  pending : ∀ y ∈ r :: l, ∀ c a, pred c = some a → G.startNode a = y → c ∈ l ∨ a ∈ s.unread y
  unread : ∀ y, (s.unread y).Nodup ∧ ∀ a ∈ s.unread y, G.startNode a = y
  fresh : ∀ y, y ∉ r :: l → s.unread y = s0.unread y
  kept : ∀ y, y ∉ r :: l → s.thread y = s0.thread y ∧ s.depth y = s0.depth y

section Scan

variable {pred : Fin n → Option (Arc m)} {r : Fin n} {s0 s : ThreadScan n m} {l : List (Fin n)}
  {a : Arc m} {rest : List (Arc m)}

section

variable (inv : ScanInv G pred r s0 s l)
include inv

/-- Reading an arc that does not belong to the forest. -/
theorem ScanInv.skip (forest : IsForest G pred)
    (here : s.unread s.v = a :: rest) (other : pred (G.endNode a) ≠ some a) :
    ScanInv G pred r s0 { s with unread := update s.unread s.v rest } l := by
  have shrink : ∀ y b, b ∈ update s.unread s.v rest y → b ∈ s.unread y := by
    intro y b mem
    by_cases eq : y = s.v
    · subst eq
      rw [update_self] at mem
      rw [here]
      exact mem_cons_of_mem _ mem
    · rwa [update_of_ne eq] at mem
  refine ⟨inv.last, inv.links, inv.nodup, inv.current, inv.unfinished, inv.depth, inv.depths, ?_, ?_,
    ?_, ?_, ?_, inv.kept⟩
  · intro y mem
    obtain ⟨b, label, threaded, isRead⟩ := inv.parents y mem
    exact ⟨b, label, threaded, fun unread => isRead (shrink _ _ unread)⟩
  · intro y mem notAbove
    have other' : y ≠ s.v := by
      rintro rfl
      exact notAbove .refl
    dsimp only
    rw [update_of_ne other']
    exact inv.finished y mem notAbove
  · intro y mem c b label start
    rcases inv.pending y mem c b label start with threaded | unread
    · exact .inl threaded
    by_cases eq : y = s.v
    · subst eq
      rw [here, List.mem_cons] at unread
      dsimp only
      rw [update_self]
      rcases unread with rfl | later
      · exact absurd ((forest.ends c b label).symm ▸ label) other
      · exact .inr later
    · dsimp only
      rw [update_of_ne eq]
      exact .inr unread
  · intro y
    refine ⟨?_, fun b mem => (inv.unread y).2 b (shrink y b mem)⟩
    by_cases eq : y = s.v
    · subst eq
      have nodup := (inv.unread s.v).1
      rw [here] at nodup
      dsimp only
      rw [update_self]
      exact (nodup_cons.1 nodup).2
    · dsimp only
      rw [update_of_ne eq]
      exact (inv.unread y).1
  · intro y out
    have other' : y ≠ s.v := by
      rintro rfl
      exact out inv.current
    dsimp only
    rw [update_of_ne other']
    exact inv.fresh y out

theorem ScanInv.descend (forest : IsForest G pred) (root : pred r = none)
    (start : ∀ y, Ancestor (G.parent pred) r y → s0.unread y = G.incidences y)
    (above : ∀ y ∈ r :: l, Ancestor (G.parent pred) r y)
    (here : s.unread s.v = a :: rest) (tree : pred (G.endNode a) = some a) :
    ScanInv G pred r s0 {
      unread := update s.unread s.v rest
      v := G.endNode a
      previous := G.endNode a
      thisDepth := s.thisDepth + 1
      thread := update (update s.thread s.previous (some (G.endNode a)))
        (G.endNode a) none
      depth := update s.depth (G.endNode a) (s.thisDepth + 1) } (l ++ [G.endNode a]) := by
  obtain ⟨u, uEq⟩ : ∃ u, G.endNode a = u := ⟨_, rfl⟩
  rw [uEq] at tree ⊢
  have startA : G.startNode a = s.v := (inv.unread s.v).2 a (by rw [here]; exact mem_cons_self)
  have parentU : G.parent pred u = some s.v := by rw [parent_of_pred tree, startA]
  have notRoot : u ≠ r := by
    rintro rfl
    rw [root] at tree
    cases tree
  -- the arc has not been read before, so its end node is new
  have new : u ∉ r :: l := by
    intro mem
    rcases List.mem_cons.1 mem with eq | later
    · exact notRoot eq
    · obtain ⟨b, label, -, isRead⟩ := inv.parents u later
      rw [tree] at label
      cases label
      rw [startA, here] at isRead
      exact isRead mem_cons_self
  have notU : ∀ y ∈ r :: l, y ≠ u := by
    rintro y mem rfl
    exact new mem
  have shrink : ∀ y b, b ∈ update s.unread s.v rest y → b ∈ s.unread y := by
    intro y b mem
    by_cases eq : y = s.v
    · subst eq
      rw [update_self] at mem
      rw [here]
      exact mem_cons_of_mem _ mem
    · rwa [update_of_ne eq] at mem
  have cons : r :: (l ++ [u]) = (r :: l) ++ [u] := rfl
  have members : ∀ y, y ∈ r :: (l ++ [u]) ↔ y ∈ r :: l ∨ y = u := by
    intro y
    rw [cons, List.mem_append, List.mem_singleton]
  have atU : update s.unread s.v rest u = G.incidences u := by
    rw [update_of_ne (notU _ inv.current).symm, inv.fresh u new]
    exact start u ((above s.v inv.current).trans (.single parentU))
  obtain ⟨front, lastL⟩ := inv.last
  have inLast : s.previous ∈ r :: l := by
    rw [lastL]
    simp
  refine ⟨⟨r :: l, cons⟩, ?_, ?_, (members u).2 (.inr rfl), ?_, ?_, ?_, ?_, ?_, ?_, ?_, ?_, ?_⟩
  · rw [cons, links_concat]
    refine ⟨?_, update_self _ _ _⟩
    exact (inv.links.retarget lastL inv.nodup _).congr fun y mem =>
      update_of_ne (notU y mem) _ _
  · rw [cons, nodup_append]
    refine ⟨inv.nodup, nodup_singleton u, ?_⟩
    rintro y mem y' isU rfl
    exact notU y mem (List.mem_singleton.1 isU)
  · intro R remainder
    have all := inv.unfinished (u :: R) (remainder.descend (parent_eq_none.2 root) parentU)
    rwa [List.append_assoc, List.singleton_append]
  · exact update_self _ _ _
  · intro y mem
    dsimp only
    rcases (members y).1 mem with old | rfl
    · rw [update_of_ne (notU y old), inv.depths y old]
      cases parentY : G.parent pred y with
      | none => rfl
      | some q =>
        -- the parent has been threaded before
        have inL : q ∈ r :: l := by
          rcases List.mem_cons.1 old with rfl | later
          · rw [parent_eq_none.2 root] at parentY
            cases parentY
          · obtain ⟨b, label, threaded, -⟩ := inv.parents y later
            rw [parent_of_pred label] at parentY
            cases parentY
            exact threaded
        rw [level, level, update_of_ne (notU q inL)]
    · rw [update_self, parentU, level, update_of_ne (notU _ inv.current), inv.depth]
  · intro y mem
    rcases List.mem_append.1 mem with old | isU
    · obtain ⟨b, label, threaded, isRead⟩ := inv.parents y old
      exact ⟨b, label, (members _).2 (.inl threaded), fun unread => isRead (shrink _ _ unread)⟩
    rw [List.mem_singleton.1 isU]
    refine ⟨a, tree, (members _).2 (.inl (startA ▸ inv.current)), ?_⟩
    have nodup := (inv.unread s.v).1
    rw [here] at nodup
    dsimp only
    rw [startA, update_self]
    exact (nodup_cons.1 nodup).1
  · intro y mem notAbove
    dsimp only at notAbove ⊢
    have notAbove' : ¬ Ancestor (G.parent pred) y s.v := fun ancestor =>
      notAbove (ancestor.trans (.single parentU))
    have other : y ≠ s.v := by
      rintro rfl
      exact notAbove' .refl
    rcases (members y).1 mem with old | rfl
    · rw [update_of_ne other]
      exact inv.finished y old notAbove'
    · exact absurd .refl notAbove
  · intro y mem c b label startB
    dsimp only
    rcases (members y).1 mem with old | rfl
    · rcases inv.pending y old c b label startB with threaded | unread
      · exact .inl (mem_append_left _ threaded)
      by_cases eq : y = s.v
      · subst eq
        rw [here, List.mem_cons] at unread
        rw [update_self]
        rcases unread with rfl | later
        · left
          rw [← forest.ends c b label, uEq]
          simp
        · exact .inr later
      · rw [update_of_ne eq]
        exact .inr unread
    · right
      rw [atU, G.mem_incidences]
      exact startB
  · intro y
    refine ⟨?_, fun b mem => (inv.unread y).2 b (shrink y b mem)⟩
    dsimp only
    by_cases eq : y = s.v
    · subst eq
      have nodup := (inv.unread s.v).1
      rw [here] at nodup
      rw [update_self]
      exact (nodup_cons.1 nodup).2
    · rw [update_of_ne eq]
      exact (inv.unread y).1
  · intro y out
    rw [members, not_or] at out
    have other : y ≠ s.v := by
      rintro rfl
      exact out.1 inv.current
    dsimp only
    rw [update_of_ne other]
    exact inv.fresh y out.1
  · intro y out
    rw [members, not_or] at out
    have other : y ≠ s.previous := by
      rintro rfl
      exact out.1 inLast
    dsimp only
    rw [update_of_ne out.2, update_of_ne other, update_of_ne out.2]
    exact inv.kept y out.1

theorem ScanInv.ascend (here : s.unread s.v = [])
    (proper : s.v ≠ r) : ∃ a, pred s.v = some a ∧ 0 < s.thisDepth ∧
      ScanInv G pred r s0 { s with v := G.startNode a, thisDepth := s.thisDepth - 1 } l := by
  have later : s.v ∈ l := by
    rcases List.mem_cons.1 inv.current with eq | later
    · exact absurd eq proper
    · exact later
  obtain ⟨a, label, threaded, -⟩ := inv.parents s.v later
  have parentV := parent_of_pred (G := G) label
  have step : s.thisDepth = s.depth (G.startNode a) + 1 := by
    rw [← inv.depth, inv.depths s.v inv.current, parentV]
    rfl
  refine ⟨a, label, by omega, inv.last, inv.links, inv.nodup, threaded, ?_, ?_, inv.depths,
    inv.parents, ?_, inv.pending, inv.unread, inv.fresh, inv.kept⟩
  · intro R remainder
    exact inv.unfinished R (remainder.ascend parentV)
  · dsimp only
    omega
  · intro y mem notAbove
    dsimp only at notAbove ⊢
    by_cases above : Ancestor (G.parent pred) y s.v
    · by_cases eq : y = s.v
      · rw [eq, here]
      · obtain ⟨q, parentV', above'⟩ := above.of_ne eq
        rw [parentV] at parentV'
        cases parentV'
        exact absurd above' notAbove
    · exact inv.finished y mem above

end

end Scan

section Tree

variable {pred : Fin n → Option (Arc m)} {r : Fin n} {s0 : ThreadScan n m}

/-- What the search of a tree has done. -/
structure TreeScanned (G : DiGraph n m) (pred : Fin n → Option (Arc m)) (r : Fin n)
    (s0 s : ThreadScan n m) : Prop where
  tour : ∃ l, Tour (G.parent pred) s.thread r l
  depths : ∀ y, Ancestor (G.parent pred) r y → s.depth y = level s.depth (G.parent pred y)
  thisDepth : s.thisDepth = 0
  unread : ∀ y, (s.unread y).Nodup ∧ ∀ a ∈ s.unread y, G.startNode a = y
  kept : ∀ y, ¬ Ancestor (G.parent pred) r y →
    s.unread y = s0.unread y ∧ s.thread y = s0.thread y ∧ s.depth y = s0.depth y
  count : unreadCount s.unread ≤ unreadCount s0.unread

theorem scanInv_start (root : pred r = none)
    (start : ∀ y, Ancestor (G.parent pred) r y → s0.unread y = G.incidences y)
    (unread : ∀ y, (s0.unread y).Nodup ∧ ∀ a ∈ s0.unread y, G.startNode a = y)
    (thisDepth : s0.thisDepth = 0) :
    ScanInv G pred r s0 { s0 with
      v := r
      previous := r
      thread := update s0.thread r none
      depth := update s0.depth r s0.thisDepth } [] := by
  have isRoot := parent_eq_none (G := G).2 root
  refine ⟨⟨[], rfl⟩, ⟨update_self _ _ _, trivial⟩, by simp, by simp, ?_,
    update_self _ _ _, ?_, by simp, ?_, ?_, unread, fun _ _ => rfl, ?_⟩
  · intro R remainder
    cases remainder with
    | root rest => exact rest
    | up parentR =>
      rw [isRoot] at parentR
      cases parentR
  · intro y mem
    rw [List.mem_singleton.1 mem, isRoot]
    dsimp only
    rw [update_self, thisDepth]
    rfl
  · intro y mem notAbove
    rw [List.mem_singleton.1 mem] at notAbove
    exact absurd .refl notAbove
  · intro y mem c a _ startA
    rw [List.mem_singleton.1 mem] at startA ⊢
    right
    dsimp only
    rw [start r .refl, G.mem_incidences]
    exact startA
  · intro y out
    rw [List.mem_singleton] at out
    exact ⟨update_of_ne out _ _, update_of_ne out _ _⟩

/-- When the search is back at the root and has nothing left to read, the whole tree is
threaded. -/
theorem ScanInv.finish {s : ThreadScan n m} {l : List (Fin n)} (inv : ScanInv G pred r s0 s l)
    (root : pred r = none) (above : ∀ y ∈ r :: l, Ancestor (G.parent pred) r y)
    (here : s.v = r) (nothing : s.unread r = [])
    (count : unreadCount s.unread ≤ unreadCount s0.unread) : TreeScanned G pred r s0 s := by
  have isRoot := parent_eq_none (G := G).2 root
  have allRead : ∀ y ∈ r :: l, s.unread y = [] := by
    intro y mem
    by_cases eq : y = r
    · rw [eq, nothing]
    refine inv.finished y mem fun ancestor => eq ?_
    rw [here] at ancestor
    by_contra other
    obtain ⟨q, parentR, -⟩ := ancestor.of_ne other
    rw [isRoot] at parentR
    cases parentR
  have complete : ∀ y, Ancestor (G.parent pred) r y → y ∈ r :: l := by
    intro y ancestor
    induction ancestor using Relation.ReflTransGen.head_induction_on with
    | refl => exact mem_cons_self
    | head step _ ih =>
      obtain ⟨a, label, startA⟩ := map_eq_some_iff.1 step
      rcases inv.pending _ ih _ a label startA with threaded | unread
      · exact mem_cons_of_mem _ threaded
      · rw [allRead _ ih] at unread
        cases unread
  have preorder : Preorder (G.parent pred) (some r) l := by
    have all := inv.unfinished [] (here ▸ .root .nil)
    rwa [append_nil] at all
  refine ⟨⟨l, inv.links, inv.nodup, preorder, fun y => ⟨above y, complete y⟩⟩,
    fun y ancestor => inv.depths y (complete y ancestor), ?_, inv.unread, ?_, count⟩
  · rw [← inv.depth, inv.depths s.v inv.current, here, isRoot]
    rfl
  · intro y notAbove
    have out : y ∉ r :: l := fun mem => notAbove (above y mem)
    exact ⟨inv.fresh y out, inv.kept y out⟩

theorem threadFrom_spec (forest : IsForest G pred) (root : pred r = none)
    (start : ∀ y, Ancestor (G.parent pred) r y → s0.unread y = G.incidences y)
    (unread : ∀ y, (s0.unread y).Nodup ∧ ∀ a ∈ s0.unread y, G.startNode a = y)
    (thisDepth : s0.thisDepth = 0) (count : unreadCount s0.unread ≤ 2 * m) :
    ∃ s, G.threadFrom pred s0 r = .ok s ∧ TreeScanned G pred r s0 s := by
  rw [threadFrom, if_neg (not_not.2 root)]
  refine loop_of_measure .fuel (G.threadStep pred r)
    (fun s => ∃ l, ScanInv G pred r s0 s l ∧ (∀ y ∈ r :: l, Ancestor (G.parent pred) r y) ∧
      unreadCount s.unread ≤ unreadCount s0.unread)
    (fun s => 2 * unreadCount s.unread + s.thisDepth) (TreeScanned G pred r s0) ?_
    ⟨[], scanInv_start root start unread thisDepth, ?_, le_rfl⟩ _ ?_
  · rintro s ⟨l, inv, above, less⟩
    cases here : s.unread s.v with
    | cons a rest =>
      have smaller := unreadCount_update s.unread here
      by_cases tree : pred (G.endNode a) = some a
      · left
        have startA : G.startNode a = s.v :=
          (inv.unread s.v).2 a (by rw [here]; exact mem_cons_self)
        refine ⟨_, by rw [threadStep, here]; exact if_pos tree, ⟨_,
          inv.descend forest root start above here tree, ?_, by dsimp only; omega⟩, ?_⟩
        · intro y mem
          rw [← List.cons_append, List.mem_append, List.mem_singleton] at mem
          rcases mem with old | rfl
          · exact above y old
          · refine (above s.v inv.current).trans (.single ?_)
            rw [parent_of_pred tree, startA]
        · dsimp only
          omega
      · left
        refine ⟨_, by rw [threadStep, here]; exact if_neg tree, ⟨l, inv.skip forest here tree, above,
          by dsimp only; omega⟩, ?_⟩
        dsimp only
        omega
    | nil =>
      by_cases atRoot : s.v = r
      · right
        refine ⟨s, by rw [threadStep, here]; exact if_pos atRoot, ?_⟩
        exact inv.finish root above atRoot (atRoot ▸ here) less
      left
      obtain ⟨a, label, deep, inv'⟩ := inv.ascend here atRoot
      refine ⟨{ s with v := G.startNode a, thisDepth := s.thisDepth - 1 }, ?_, ⟨l, inv', above, less⟩,
        ?_⟩
      · rw [threadStep, here]
        simp only [atRoot, if_false, label, defined, bind, Except.bind, pure, Except.pure]
      · dsimp only
        omega
  · intro y mem
    rw [List.mem_singleton.1 mem]
    exact .refl
  · dsimp only
    omega

end Tree

/-! ## All trees -/

/-- The state of `InitThreadIndex` when the nodes of `P` have been considered. -/
structure IndexScan (G : DiGraph n m) (pred : Fin n → Option (Arc m)) (P : Fin n → Prop)
    (s : ThreadScan n m) : Prop where
  tours : ∀ r, pred r = none → P r → ∃ l, Tour (G.parent pred) s.thread r l
  depths : ∀ r, pred r = none → P r → ∀ y, Ancestor (G.parent pred) r y →
    s.depth y = level s.depth (G.parent pred y)
  waiting : ∀ r, pred r = none → ¬ P r → ∀ y, Ancestor (G.parent pred) r y →
    s.unread y = G.incidences y
  thisDepth : s.thisDepth = 0
  unread : ∀ y, (s.unread y).Nodup ∧ ∀ a ∈ s.unread y, G.startNode a = y
  count : unreadCount s.unread ≤ 2 * m

theorem IndexScan.step {pred : Fin n → Option (Arc m)} {P : Fin n → Prop} {s : ThreadScan n m}
    (scan : IndexScan G pred P s) (forest : IsForest G pred) {r : Fin n} (new : ¬ P r) :
    ∃ s', G.threadFrom pred s r = .ok s' ∧ IndexScan G pred (fun v => v = r ∨ P v) s' := by
  by_cases root : pred r = none
  · obtain ⟨s', res, done⟩ := threadFrom_spec forest root (scan.waiting r root new) scan.unread
      scan.thisDepth scan.count
    -- different trees have no nodes in common
    have apart : ∀ r', pred r' = none → r' ≠ r → ∀ y, Ancestor (G.parent pred) r' y →
        ¬ Ancestor (G.parent pred) r y := by
      intro r' root' other y above above'
      exact other (above.root_unique above' (parent_eq_none.2 root') (parent_eq_none.2 root))
    refine ⟨s', res, ?_, ?_, ?_, done.thisDepth, done.unread, done.count.trans scan.count⟩
    · intro r' root' considered
      by_cases eq : r' = r
      · rw [eq]
        exact done.tour
      · obtain ⟨l, tour⟩ := scan.tours r' root' (considered.resolve_left eq)
        exact ⟨l, tour.congr fun y above => (done.kept y (apart r' root' eq y above)).2.1⟩
    · intro r' root' considered y above
      by_cases eq : r' = r
      · exact done.depths y (eq ▸ above)
      rw [(done.kept y (apart r' root' eq y above)).2.2,
        scan.depths r' root' (considered.resolve_left eq) y above]
      cases parentY : G.parent pred y with
      | none => rfl
      | some q =>
        have above' : Ancestor (G.parent pred) r' q := by
          obtain ⟨q', parentY', above'⟩ := above.of_ne (by
            rintro rfl
            rw [parent_eq_none.2 root'] at parentY
            cases parentY)
          rw [parentY] at parentY'
          cases parentY'
          exact above'
        rw [level, level, (done.kept q (apart r' root' eq q above')).2.2]
    · intro r' root' waiting y above
      rw [not_or] at waiting
      rw [(done.kept y (apart r' root' waiting.1 y above)).1]
      exact scan.waiting r' root' waiting.2 y above
  · refine ⟨s, by rw [threadFrom, if_pos root], ?_, ?_, ?_, scan.thisDepth, scan.unread, scan.count⟩
    · intro r' root' considered
      refine scan.tours r' root' (considered.resolve_left ?_)
      rintro rfl
      exact root root'
    · intro r' root' considered
      refine scan.depths r' root' (considered.resolve_left ?_)
      rintro rfl
      exact root root'
    · intro r' root' waiting
      exact scan.waiting r' root' fun old => waiting (.inr old)

theorem indexScan_foldlM (forest : IsForest G pred) (l : List (Fin n)) {P : Fin n → Prop}
    {s : ThreadScan n m} (scan : IndexScan G pred P s) (nodup : l.Nodup) (new : ∀ v ∈ l, ¬ P v) :
    ∃ s', l.foldlM (G.threadFrom pred) s = .ok s' ∧ IndexScan G pred (fun v => v ∈ l ∨ P v) s' := by
  induction l generalizing P s with
  | nil =>
    refine ⟨s, rfl, ?_⟩
    simpa using scan
  | cons r l ih =>
    obtain ⟨fresh, nodup'⟩ := nodup_cons.1 nodup
    obtain ⟨s1, res, scan1⟩ := scan.step forest (new r mem_cons_self)
    obtain ⟨s2, rest, scan2⟩ := ih scan1 nodup' fun v mem considered => by
      rcases considered with rfl | old
      · exact fresh mem
      · exact new v (mem_cons_of_mem _ mem) old
    refine ⟨s2, ?_, ?_⟩
    · rw [foldlM_cons, res]
      exact rest
    · have eq : (fun v => v ∈ r :: l ∨ P v) = fun v => v ∈ l ∨ v = r ∨ P v := by
        funext v
        apply propext
        rw [List.mem_cons]
        tauto
      rw [eq]
      exact scan2

theorem initThreadIndex_spec (st : SimplexState n m) (forest : IsForest G st.pred) :
    ∃ thread depth, G.initThreadIndex st = .ok { st with thread := thread, depth := depth } ∧
      IsDepth (G.parent st.pred) depth ∧
      ∀ r, st.pred r = none → ∃ l, Tour (G.parent st.pred) thread r l := by
  rw [initThreadIndex]
  cases nodes : finRange n with
  | nil =>
    have empty : ∀ v : Fin n, False := fun v => by
      have mem := mem_finRange v
      rw [nodes] at mem
      cases mem
    exact ⟨st.thread, st.depth, rfl, fun v => (empty v).elim, fun r => (empty r).elim⟩
  | cons v rest =>
    have start : IndexScan G st.pred (fun _ => False)
        ⟨G.incidences, v, v, 0, st.thread, st.depth⟩ := by
      refine ⟨fun _ _ => False.elim, fun _ _ => False.elim, fun _ _ _ _ _ => rfl, rfl, fun y => ?_,
        (unreadCount_incidences G).le⟩
      exact ⟨G.nodup_incidences y, fun a mem => (G.mem_incidences y a).1 mem⟩
    obtain ⟨s, res, scan⟩ := indexScan_foldlM forest (finRange n) start
      (nodup_finRange n) fun _ _ => id
    refine ⟨s.thread, s.depth, ?_, ?_, ?_⟩
    · rw [nodes] at res
      simp only [res, bind, Except.bind, pure, Except.pure]
    · intro y
      obtain ⟨p, r, reads, root⟩ := forest.rooted y
      exact scan.depths r root (.inl (mem_finRange r)) y (ancestor_of_readsTo reads)
    · intro r root
      exact scan.tours r root (.inl (mem_finRange r))

/-! ## Potentials -/

section Potentials

variable {st : SimplexState n m}

theorem potentialLoop_spec {K : List (Fin n)} {count : ℕ} (potential : Fin n → ℚ)
    (links : Links st.thread K none) (nodup : K.Nodup) (present : ∀ y ∈ K, st.pred y ≠ none)
    (order : K.Pairwise fun y z => G.parent st.pred y ≠ some z)
    (proper : ∀ y ∈ K, G.parent st.pred y ≠ some y) (enough : K.length ≤ count) :
    ∃ potential', G.potentialLoop st count K.head? potential = .ok potential' ∧
      (∀ y, y ∉ K → potential' y = potential y) ∧ ∀ y ∈ K, ∀ a, st.pred y = some a →
        potential' y = potential' (G.startNode a) + G.redLength (fun _ => 0) a := by
  induction K generalizing potential count with
  | nil =>
    refine ⟨potential, ?_, fun _ _ => rfl, by simp⟩
    cases count with
    | zero | succ count => rfl
  | cons y K ih =>
    obtain ⟨count, rfl⟩ : ∃ k, count = k + 1 := ⟨count - 1, by simp at enough; omega⟩
    obtain ⟨a, label⟩ := ne_none_iff_exists'.1 (present y mem_cons_self)
    have parentY := parent_of_pred (G := G) label
    obtain ⟨fresh, nodupK⟩ := nodup_cons.1 nodup
    obtain ⟨before, order'⟩ := pairwise_cons.1 order
    obtain ⟨potential', res, kept, tight⟩ := ih (update potential y
        (potential (G.startNode a) + G.redLength (fun _ => 0) a)) links.2 nodupK
      (fun z mem => present z (mem_cons_of_mem _ mem)) order'
      (fun z mem => proper z (mem_cons_of_mem _ mem))
      (Nat.le_of_succ_le_succ (by simpa using enough))
    have next : st.thread y = K.head? := by
      rw [links.1, or_none]
    refine ⟨potential', ?_, ?_, ?_⟩
    · rw [head?_cons, potentialLoop]
      simp only [label, defined, bind, Except.bind, next]
      exact res
    · intro z out
      rw [List.mem_cons, not_or] at out
      rw [kept z out.2, update_of_ne out.1]
    · intro z mem b labelB
      rcases List.mem_cons.1 mem with rfl | later
      · rw [label] at labelB
        cases labelB
        have notLater : G.startNode a ∉ K := fun inside => before _ inside parentY
        have notSelf : G.startNode a ≠ z := by
          intro eq
          exact proper z mem_cons_self (by rw [parentY, eq])
        rw [kept z fresh, update_self, kept _ notLater, update_of_ne notSelf]
      · exact tight z later b labelB

/-- **`ComputePotentials`** makes the tree arcs tight. -/
theorem computePotentials_spec (ends : ∀ v a, st.pred v = some a → G.endNode a = v)
    (isDepth : IsDepth (G.parent st.pred) st.depth)
    (tours : ∀ r, st.pred r = none → ∃ l, Tour (G.parent st.pred) st.thread r l) :
    ∃ potential, G.computePotentials st = .ok { st with potential := potential } ∧
      IsBasis G { st with potential := potential } := by
  -- the trees of the roots that have been considered are tight
  have general : ∀ (l : List (Fin n)) (P : Fin n → Prop) (potential : Fin n → ℚ),
      (∀ r, st.pred r = none → P r → ∀ y, Ancestor (G.parent st.pred) r y → ∀ a, st.pred y = some a →
        potential y = potential (G.startNode a) + G.redLength (fun _ => 0) a) →
      ∃ potential', l.foldlM (fun potential r => if st.pred r ≠ none then .ok potential
          else G.potentialLoop st n (st.thread r) (update potential r 0)) potential =
          .ok potential' ∧
        ∀ r, st.pred r = none → P r ∨ r ∈ l → ∀ y, Ancestor (G.parent st.pred) r y →
          ∀ a, st.pred y = some a →
            potential' y = potential' (G.startNode a) + G.redLength (fun _ => 0) a := by
    intro l
    induction l with
    | nil =>
      intro P potential done
      refine ⟨potential, rfl, fun r root considered => done r root ?_⟩
      simpa using considered
    | cons r l ih =>
      intro P potential done
      by_cases root : st.pred r = none
      · obtain ⟨k, tour⟩ := tours r root
        obtain ⟨fresh, nodup⟩ := nodup_cons.1 tour.nodup
        have isRoot := parent_eq_none (G := G).2 root
        have parents : ∀ y ∈ k, G.parent st.pred y ≠ none := by
          intro y mem none
          have eq := ((tour.mem_iff y).1 (mem_cons_of_mem _ mem)).root_unique .refl isRoot none
          exact fresh (eq ▸ mem)
        obtain ⟨potential1, res, kept, tight⟩ := potentialLoop_spec (G := G)
          (update potential r 0) tour.links.2 nodup
          (fun y mem => fun none => parents y mem (parent_eq_none.2 none))
          (tour.preorder.pairwise_parent nodup fun q mem eq => fresh (by
            rw [Option.some.inj eq]
            exact mem))
          (fun y _ parentY => by
            have step := isDepth.of_parent parentY
            omega)
          (length_lt_of_nodup tour.nodup).le
        have next : st.thread r = k.head? := by
          rw [tour.links.1, or_none]
        obtain ⟨potential2, rest, done2⟩ := ih (fun v => v = r ∨ P v) potential1 (by
          intro r' root' considered y above a label
          by_cases eq : r' = r
          · rw [eq] at above
            rcases List.mem_cons.1 ((tour.mem_iff y).2 above) with rfl | later
            · rw [root] at label
              cases label
            · exact tight y later a label
          -- both ends of the arc lie in another tree
          have out : ∀ z, Ancestor (G.parent st.pred) r' z → potential1 z = potential z := by
            intro z above'
            have notIn : z ∉ r :: k := fun mem =>
              eq (above'.root_unique ((tour.mem_iff z).1 mem) (parent_eq_none.2 root') isRoot)
            rw [List.mem_cons, not_or] at notIn
            rw [kept z notIn.2, update_of_ne notIn.1]
          have proper : r' ≠ y := by
            rintro rfl
            rw [root'] at label
            cases label
          obtain ⟨q, parentY, above'⟩ := above.of_ne proper
          rw [parent_of_pred label] at parentY
          cases parentY
          rw [out y above, out _ above']
          exact done r' root' (considered.resolve_left eq) y above a label)
        refine ⟨potential2, ?_, ?_⟩
        · rw [foldlM_cons, if_neg (not_not.2 root), next, res]
          exact rest
        · intro r' root' considered
          refine done2 r' root' ?_
          rw [List.mem_cons] at considered
          tauto
      · obtain ⟨potential2, rest, done2⟩ := ih P potential done
        refine ⟨potential2, ?_, fun r' root' considered => done2 r' root' ?_⟩
        · rw [foldlM_cons, if_pos root]
          exact rest
        · rw [List.mem_cons] at considered
          rcases considered with old | rfl | later
          · exact .inl old
          · exact absurd root' root
          · exact .inr later
  obtain ⟨potential, res, tight⟩ := general (finRange n) (fun _ => False) (fun _ => 0)
    fun _ _ => False.elim
  refine ⟨potential, ?_, ends, isDepth, tours, ?_⟩
  · rw [computePotentials, res]
    rfl
  · intro y a label
    obtain ⟨r, root, above⟩ := isDepth.exists_root y
    have zero := tight r (parent_eq_none.1 root) (.inr (mem_finRange r)) y above a label
    rw [redLength_eq] at zero ⊢
    rw [ends y a label]
    linarith

end Potentials

/-! ## Sequences of pivots -/

/-- The calls of `InitThreadIndex` and `ComputePotentials`. -/
def setUp (G : DiGraph n m) (st : SimplexState n m) : Except Raise (SimplexState n m) := do
  let st ← G.initThreadIndex st
  G.computePotentials st

/-- What sequences of pivots with eligible arcs reach. -/
inductive PivotRun (G : DiGraph n m) : SimplexState n m → SimplexState n m → Prop where
  | start (st : SimplexState n m) : PivotRun G st st
  | step {st0 st st' : SimplexState n m} (pivot : Arc m) (before : PivotRun G st0 st)
      (residual : 0 < G.resCap st.sub pivot) (improving : G.redLength st.potential pivot < 0)
      (result : G.pivotOperation st pivot = .ok (false, st')) : PivotRun G st0 st'

/-- A basis and its index: the forest, the lengths of the paths to the roots, a preorder of
every tree, reduced lengths zero on the tree arcs, and no free arcs outside of the forest. -/
structure SimplexBasis (G : DiGraph n m) (st : SimplexState n m) : Prop where
  forest : IsForest G st.pred
  depth : ∀ v p r, ReadsTo st.pred G.startNode v p r → st.pred r = none → st.depth v = p.length
  thread : ∀ r, st.pred r = none → ∃ l, Tour (G.parent st.pred) st.thread r l
  tight : ∀ v a, st.pred v = some a → G.redLength st.potential a = 0
  free : FreeInTree G st

theorem IsBasis.simplexBasis (basis : IsBasis G st)
    (free : FreeInTree G st) : SimplexBasis G st := by
  refine ⟨⟨basis.ends, fun v => ?_⟩, ?_, basis.tours, basis.tight, free⟩
  · obtain ⟨r, root, above⟩ := basis.depth.exists_root v
    induction above using Relation.ReflTransGen.head_induction_on with
    | refl => exact ⟨[], r, rfl, parent_eq_none.1 root⟩
    | head step _ ih =>
      obtain ⟨a, label, rfl⟩ := map_eq_some_iff.1 step
      obtain ⟨p, r', reads, root'⟩ := ih
      exact ⟨a :: p, r', ⟨label, reads⟩, root'⟩
  · intro v p r reads root
    induction p generalizing v with
    | nil =>
      cases reads
      exact basis.depth.root_iff.2 (parent_eq_none.2 root)
    | cons a p ih =>
      obtain ⟨label, rest⟩ := reads
      rw [basis.depth.of_parent (parent_of_pred label), ih _ rest, length_cons]

theorem pivotRun_spec {st0 : SimplexState n m} (run : PivotRun G st0 st) (basis : IsBasis G st0)
    (within : G.WithinBounds st0.sub) (free : FreeInTree G st0) :
    IsBasis G st ∧ G.WithinBounds st.sub ∧ FreeInTree G st ∧
      ∀ v, st.pred v = none ↔ st0.pred v = none := by
  induction run with
  | start => exact ⟨basis, within, free, fun _ => Iff.rfl⟩
  | step pivot before residual improving res ih =>
    obtain ⟨basis', within', free', roots⟩ := ih
    rcases pivotOperation_spec basis' within' free' improving with unbounded | ⟨st', found, spec⟩
    · rw [unbounded] at res
      cases res
    · rw [found] at res
      cases res
      exact ⟨spec.basis, spec.within, spec.free, fun v => (spec.roots v).trans (roots v)⟩

/-- **Pivots preserve the basis.** From a spanning forest that contains all free arcs,
`InitThreadIndex` and `ComputePotentials` set up a basis, and after every sequence of pivots
there is a basis again, with the same roots. No pivot raises. -/
theorem pivots_preserve_basis (G : DiGraph n m) (st₀ : SimplexState n m)
    (within : G.WithinBounds st₀.sub) (forest : IsForest G st₀.pred) (free : FreeInTree G st₀) :
    ∃ st1, G.setUp st₀ = .ok st1 ∧ ∀ st, PivotRun G st1 st →
      SimplexBasis G st ∧ (∀ v, st.pred v = none ↔ st₀.pred v = none) ∧
      ∀ pivot, 0 < G.resCap st.sub pivot → G.redLength st.potential pivot < 0 →
        ∃ unbounded st', G.pivotOperation st pivot = .ok (unbounded, st') := by
  obtain ⟨thread, depth, indexed, isDepth, tours⟩ := initThreadIndex_spec st₀ forest
  obtain ⟨potential, result, basis⟩ := @computePotentials_spec n m G
    { st₀ with thread := thread, depth := depth } forest.ends isDepth tours
  refine ⟨{ st₀ with thread := thread, depth := depth, potential := potential }, ?_, ?_⟩
  · rw [setUp, indexed]
    exact result
  · intro st run
    obtain ⟨basis', within', free', roots⟩ := pivotRun_spec run basis within free
    refine ⟨basis'.simplexBasis free', roots, fun pivot _ improving => ?_⟩
    rcases pivotOperation_spec basis' within' free' improving with unbounded | ⟨st', found, -⟩
    · exact ⟨true, st, unbounded⟩
    · exact ⟨false, st', found⟩

/-- Two parallel arcs, the longer one of which is in the tree. -/
def parallelArcs : DiGraph 2 2 :=
  .ofArcs (fun _ => 0) (fun _ => 1) (fun _ => 3) (fun _ => 0) (fun e => if e = 0 then 5 else 1)
    fun _ => 0

/-- One unit of flow on the longer arc. -/
def parallelState : SimplexState 2 2 where
  sub := fun e => if e = 0 then 1 else 0
  potential := fun _ => 0
  pred := fun v => if v = 1 then some ⟨0, false⟩ else none
  thread := fun _ => none
  depth := fun _ => 0

theorem pivots_preserve_basis_parallel : ∃ st1, parallelArcs.setUp parallelState = .ok st1 ∧
    ∀ st, PivotRun parallelArcs st1 st →
      SimplexBasis parallelArcs st ∧ (∀ v, st.pred v = none ↔ parallelState.pred v = none) ∧
      ∀ pivot, 0 < parallelArcs.resCap st.sub pivot → parallelArcs.redLength st.potential pivot < 0 →
        ∃ unbounded st', parallelArcs.pivotOperation st pivot = .ok (unbounded, st') := by
  refine pivots_preserve_basis parallelArcs parallelState (by decide +kernel)
    ⟨by decide +kernel, fun v => ?_⟩ ?_
  · fin_cases v
    · exact ⟨[], 0, rfl, rfl⟩
    · exact ⟨[⟨0, false⟩], 0, ⟨rfl, rfl⟩, rfl⟩
  · unfold FreeInTree TreeArc
    decide +kernel

end DiGraph

end Goblin
