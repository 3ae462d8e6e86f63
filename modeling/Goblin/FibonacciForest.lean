import Goblin.FibonacciHeap

/-!
# Cuts in a Fibonacci heap

`Forest` is the invariant of the pointers: every list of children is doubly linked and complete,
and the parents climb a `height`. The ranks may exceed the numbers of children by `excess`,
because `Cut` decrements the rank of the parent not before the cascade has ended.

A sequence of cuts turns some children into roots and leaves everything else alone; `Loosens` is
what it does to the heap as a whole. The cascade of `Cut` reaches only proper ancestors of the
item that is cut (`cut_spec`), so that the loops over the children of an item find the same
children that were there before (`cutChildren_spec`).
-/

set_option autoImplicit false

namespace Goblin.FibonacciHeap

open Library List Finset Function

variable {K : Type} {h h1 h2 : FibonacciHeap K} {height excess : ℕ → ℕ} {v w x y z : ℕ} {l : List ℕ}

/-! ## Children and roots -/

theorem isChild_iff : h.isChild x = true ↔
    h.status x = .unmarkedChild ∨ h.status x = .markedChild := by
  simp [isChild]

theorem isChild_eq_false : h.isChild x = false ↔
    h.status x = .rootNode ∨ h.status x = .notQueued := by
  cases val : h.status x with
  | unmarkedChild | markedChild | rootNode | notQueued => simp [isChild, val]

theorem queued_of_isChild (child : h.isChild x = true) : h.status x ≠ .notQueued := by
  intro absent
  simp [isChild, absent] at child

theorem isChild_of_status_eq (eq : h1.status x = h.status x) : h1.isChild x = h.isChild x := by
  rw [isChild, isChild, eq]

/-- The pointers form a forest, in which the ranks exceed the numbers of children by
`excess`. -/
structure Forest (h : FibonacciHeap K) (height excess : ℕ → ℕ) : Prop where
  undefined_eq : h.undefined = h.n
  k_eq : h.k = h.n
  bounded : ∀ x, h.status x ≠ .notQueued → x < h.n
  climbs : ∀ y, h.isChild y = true → height y < height (h.pred y)
  parent : ∀ y, h.isChild y = true → h.status (h.pred y) ≠ .notQueued
  children : ∀ x, h.status x ≠ .notQueued → ∃ l,
    Chain h.next h.undefined (h.first x) l ∧ BackChain h.previous h.undefined l ∧
    (∀ y, y ∈ l ↔ h.isChild y = true ∧ h.pred y = x) ∧ h.rank x = l.length + excess x

/-- No key is smaller than the key of the parent. -/
def Ordered [LinearOrder K] (h : FibonacciHeap K) : Prop :=
  ∀ y, h.isChild y = true → h.key (h.pred y) ≤ h.key y

theorem Forest.isChild_lt (forest : h.Forest height excess) (child : h.isChild x = true) :
    x < h.n := forest.bounded x (queued_of_isChild child)

/-- The rank of an item is a valid index of `bucket`. -/
theorem Forest.rank_lt (forest : h.Forest height fun _ => 0) (queued : h.status x ≠ .notQueued) :
    h.rank x < h.k := by
  obtain ⟨l, chain, -, mem, rank⟩ := forest.children x queued
  have subset : l.toFinset ⊆ (Finset.range h.n).erase x := by
    intro y member
    obtain ⟨child, parent⟩ := (mem y).1 (mem_toFinset.1 member)
    refine Finset.mem_erase.2 ⟨?_, Finset.mem_range.2 (forest.isChild_lt child)⟩
    rintro rfl
    have climbs := forest.climbs y child
    rw [parent] at climbs
    exact lt_irrefl _ climbs
  have low := forest.bounded x queued
  have count := card_le_card subset
  rw [toFinset_card_of_nodup chain.nodup, card_erase_of_mem (Finset.mem_range.2 low),
    card_range] at count
  rw [rank, forest.k_eq]
  omega

theorem Forest.members (forest : h.Forest height excess) (queued : h.status z ≠ .notQueued)
    (chain : Chain h.next h.undefined (h.first z) l) :
    ∀ y, y ∈ l ↔ h.isChild y = true ∧ h.pred y = z := by
  obtain ⟨k, chainK, -, mem, -⟩ := forest.children z queued
  rw [chain.unique chainK]
  exact mem

/-! ## Detaching an item -/

theorem Forest.split (forest : h.Forest height excess) (child : h.isChild v = true) :
    ∃ l k, Chain h.next h.undefined (h.first (h.pred v)) (l ++ v :: k) ∧
      BackChain h.previous h.undefined (l ++ v :: k) ∧
      (∀ y, y ∈ l ++ v :: k ↔ h.isChild y = true ∧ h.pred y = h.pred v) ∧
      h.rank (h.pred v) = (l ++ v :: k).length + excess (h.pred v) := by
  obtain ⟨l, chain, back, mem, rank⟩ := forest.children _ (forest.parent v child)
  obtain ⟨front, rest, split⟩ := append_of_mem ((mem v).2 ⟨child, rfl⟩)
  exact ⟨front, rest, split ▸ chain, split ▸ back, split ▸ mem, split ▸ rank⟩

@[simp] theorem detach_n : (h.detach v).n = h.n := rfl
@[simp] theorem detach_k : (h.detach v).k = h.k := rfl
@[simp] theorem detach_undefined : (h.detach v).undefined = h.undefined := rfl
@[simp] theorem detach_card : (h.detach v).card = h.card := rfl
@[simp] theorem detach_minimal : (h.detach v).minimal = h.minimal := rfl
@[simp] theorem detach_pred : (h.detach v).pred = h.pred := rfl
@[simp] theorem detach_key : (h.detach v).key = h.key := rfl
@[simp] theorem detach_rank : (h.detach v).rank = h.rank := rfl

theorem detach_status : (h.detach v).status = update h.status v .rootNode := rfl

theorem detach_isChild_self : (h.detach v).isChild v = false := by
  simp [isChild, detach_status]

theorem detach_isChild_of_ne (ne : y ≠ v) : (h.detach v).isChild y = h.isChild y :=
  isChild_of_status_eq (by rw [detach_status, update_of_ne ne])

theorem Forest.detach_lists (forest : h.Forest height excess) (child : h.isChild v = true)
    (queued : h.status z ≠ .notQueued) (chain : Chain h.next h.undefined (h.first z) l)
    (back : BackChain h.previous h.undefined l) :
    Chain (h.detach v).next h.undefined ((h.detach v).first z) (l.filter (h.detach v).isChild) ∧
      BackChain (h.detach v).previous h.undefined (l.filter (h.detach v).isChild) := by
  obtain ⟨front, rest, chainV, backV, memV, -⟩ := forest.split child
  have memL := forest.members queued chain
  by_cases here : z = h.pred v
  · subst here
    have split : l = front ++ v :: rest := chain.unique chainV
    have nodup := chainV.nodup
    have kept : l.filter (h.detach v).isChild = front ++ rest := by
      have others : ∀ y, y ∈ front ∨ y ∈ rest → (h.detach v).isChild y = true := by
        intro y mem
        have ne : y ≠ v := by
          rintro rfl
          rcases mem with early | late
          · exact (nodup_append.1 nodup).2.2 y early y (by simp) rfl
          · exact (nodup_cons.1 (nodup_append.1 nodup).2.1).1 late
        rw [detach_isChild_of_ne ne]
        refine ((memV y).1 ?_).1
        rcases mem with early | late
        · simp [early]
        · simp [late]
      rw [split, filter_append, filter_cons_of_neg (by simp [detach_isChild_self]),
        filter_eq_self.2 fun y mem => others y (.inl mem),
        filter_eq_self.2 fun y mem => others y (.inr mem)]
    rw [kept]
    have removed := chainV.remove_double backV
    have first_eq : (h.detach v).first (h.pred v) =
        if h.previous v = h.undefined then h.next v else h.first (h.pred v) := by
      simp only [detach]
      split_ifs
      · exact update_self _ _ _
      · rfl
    rw [first_eq]
    exact removed
  · -- the neighbours of `v` are in another list
    have apart : ∀ y ∈ l, y ∉ front ++ v :: rest := by
      intro y mem other
      exact here (((memL y).1 mem).2.symm.trans ((memV y).1 other).2)
    have kept : l.filter (h.detach v).isChild = l := by
      refine filter_eq_self.2 fun y mem => ?_
      rw [detach_isChild_of_ne fun eq => apart y mem (by simp [eq])]
      exact ((memL y).1 mem).1
    have first_eq : (h.detach v).first z = h.first z := by
      simp only [detach]
      split_ifs
      · exact update_of_ne here _ _
      · rfl
    rw [kept, first_eq]
    constructor
    · refine chain.congr fun y mem => ?_
      simp only [detach]
      split_ifs with start
      · rfl
      refine update_of_ne ?_ _ _
      rintro rfl
      rcases eq_nil_or_concat front with rfl | ⟨before, a, rfl⟩
      · exact start backV.before.1
      · refine apart _ mem ?_
        have last : h.previous v = a := by simpa using backV.before.1
        rw [last]
        simp
    · refine back.congr fun y mem => ?_
      simp only [detach]
      split_ifs with final
      · rfl
      refine update_of_ne ?_ _ _
      rintro rfl
      refine apart _ mem ?_
      have after := chainV.link
      cases rest with
      | nil => exact absurd after final
      | cons a rest =>
        rw [after.1]
        simp

theorem Forest.detach (forest : h.Forest height excess) (child : h.isChild v = true) :
    (h.detach v).Forest height (update excess (h.pred v) (excess (h.pred v) + 1)) := by
  have queued : ∀ x, (h.detach v).status x ≠ .notQueued ↔ h.status x ≠ .notQueued := by
    intro x
    by_cases here : x = v
    · rw [here, detach_status, update_self]
      simp [queued_of_isChild child]
    · rw [detach_status, update_of_ne here]
  have children : ∀ y, (h.detach v).isChild y = true ↔ h.isChild y = true ∧ y ≠ v := by
    intro y
    by_cases here : y = v
    · rw [here, detach_isChild_self]
      simp
    · rw [detach_isChild_of_ne here]
      simp [here]
  constructor
  case undefined_eq => exact forest.undefined_eq
  case k_eq => exact forest.k_eq
  case bounded => exact fun x present => forest.bounded x ((queued x).1 present)
  case climbs => exact fun y childY => forest.climbs y ((children y).1 childY).1
  case parent =>
    exact fun y childY => (queued _).2 (forest.parent y ((children y).1 childY).1)
  case children =>
    intro x present
    obtain ⟨l, chain, back, mem, rank⟩ := forest.children x ((queued x).1 present)
    obtain ⟨chain', back'⟩ := forest.detach_lists child ((queued x).1 present) chain back
    refine ⟨_, chain', back', fun y => ?_, ?_⟩
    · rw [mem_filter, mem y, children y, detach_pred]
      constructor
      · rintro ⟨⟨childY, parent⟩, -, ne⟩
        exact ⟨⟨childY, ne⟩, parent⟩
      · rintro ⟨⟨childY, ne⟩, parent⟩
        exact ⟨⟨childY, parent⟩, childY, ne⟩
    · rw [detach_rank, rank]
      by_cases here : x = h.pred v
      · subst here
        have member : v ∈ l := (mem v).2 ⟨child, rfl⟩
        have erased : l.filter (h.detach v).isChild = l.erase v := by
          rw [chain.nodup.erase_eq_filter]
          refine List.filter_congr fun y memberY => ?_
          by_cases eq : y = v
          · simp [eq, detach_isChild_self]
          · rw [detach_isChild_of_ne eq, ((mem y).1 memberY).1]
            simp [eq]
        have count := length_erase_of_mem member
        have pos := length_pos_of_mem member
        rw [erased, count, update_self]
        omega
      · rw [update_of_ne here, filter_eq_self.2]
        intro y memberY
        refine (children y).2 ⟨((mem y).1 memberY).1, ?_⟩
        rintro rfl
        exact here ((mem y).1 memberY).2.symm

/-! ## Loosening -/

/-- The second heap is the first one after some children have become roots. -/
structure Loosens [LinearOrder K] (h h' : FibonacciHeap K) : Prop where
  n_eq : h'.n = h.n
  k_eq : h'.k = h.k
  undefined_eq : h'.undefined = h.undefined
  card_eq : h'.card = h.card
  pred_eq : h'.pred = h.pred
  key_eq : h'.key = h.key
  status_eq : ∀ z, h.isChild z = false → h'.status z = h.status z
  status_child : ∀ z, h.isChild z = true → h'.isChild z = false → h'.status z = .rootNode
  lists : ∀ z l, h.status z ≠ .notQueued → Chain h.next h.undefined (h.first z) l →
    Chain h'.next h'.undefined (h'.first z) (l.filter h'.isChild)
  roots : ∀ l, Chain h.nextLink h.undefined h.firstLink l → (∀ y ∈ l, h.isChild y = false) →
    ∃ cuts, Chain h'.nextLink h'.undefined h'.firstLink (cuts ++ l) ∧
      ∀ y, y ∈ cuts ↔ h.isChild y = true ∧ h'.isChild y = false
  minimal_cases : h'.minimal = h.minimal ∨
    h.isChild h'.minimal = true ∧ h'.isChild h'.minimal = false
  minimal_old : h.minimal ≠ h.undefined →
    h'.minimal ≠ h'.undefined ∧ h.key h'.minimal ≤ h.key h.minimal
  minimal_cut : ∀ z, h.isChild z = true → h'.isChild z = false →
    h'.minimal ≠ h'.undefined ∧ h.key h'.minimal ≤ h.key z

variable [LinearOrder K]

namespace Loosens

theorem isChild_of (loosens : Loosens h h1) (child : h1.isChild z = true) : h.isChild z = true := by
  by_contra root
  have root : h.isChild z = false := by simpa using root
  rw [isChild_of_status_eq (loosens.status_eq z root), root] at child
  cases child

theorem status_notQueued (loosens : Loosens h h1) : h1.status z = .notQueued ↔
    h.status z = .notQueued := by
  by_cases child : h.isChild z = true
  · have queued := queued_of_isChild child
    by_cases child1 : h1.isChild z = true
    · exact ⟨fun absent => absurd absent (queued_of_isChild child1),
        fun absent => absurd absent queued⟩
    · have root := loosens.status_child z child (by simpa using child1)
      simp [root, queued]
  · rw [loosens.status_eq z (by simpa using child)]

theorem status_root (loosens : Loosens h h1) (root : h.status z = .rootNode) :
    h1.status z = .rootNode := by
  rw [loosens.status_eq z (isChild_eq_false.2 (.inl root)), root]

theorem trans (first : Loosens h h1) (second : Loosens h1 h2) : Loosens h h2 := by
  constructor
  case n_eq => exact second.n_eq.trans first.n_eq
  case k_eq => exact second.k_eq.trans first.k_eq
  case undefined_eq => exact second.undefined_eq.trans first.undefined_eq
  case card_eq => exact second.card_eq.trans first.card_eq
  case pred_eq => exact second.pred_eq.trans first.pred_eq
  case key_eq => exact second.key_eq.trans first.key_eq
  case status_eq =>
    intro z root
    have eq := first.status_eq z root
    rw [second.status_eq z (by rw [isChild_of_status_eq eq, root]), eq]
  case status_child =>
    intro z child root
    by_cases child1 : h1.isChild z = true
    · exact second.status_child z child1 root
    · exact second.status_root (first.status_child z child (by simpa using child1))
  case lists =>
    intro z l queued chain
    have queued1 : h1.status z ≠ .notQueued := fun absent =>
      queued (first.status_notQueued.1 absent)
    have res := second.lists z _ queued1 (first.lists z l queued chain)
    rw [List.filter_filter] at res
    have eq : l.filter (fun y => h2.isChild y && h1.isChild y) = l.filter h2.isChild := by
      refine List.filter_congr fun y _ => ?_
      cases val : h2.isChild y with
      | true => simp [second.isChild_of val]
      | false => rfl
    rwa [eq] at res
  case roots =>
    intro l chain out
    obtain ⟨cuts1, chain1, mem1⟩ := first.roots l chain out
    obtain ⟨cuts2, chain2, mem2⟩ := second.roots (cuts1 ++ l) chain1 fun y mem => by
      rcases mem_append.1 mem with cut | old
      · exact ((mem1 y).1 cut).2
      · rw [isChild_of_status_eq (first.status_eq y (out y old)), out y old]
    refine ⟨cuts2 ++ cuts1, by rw [append_assoc]; exact chain2, fun y => ?_⟩
    rw [mem_append, mem1 y, mem2 y]
    constructor
    · rintro (⟨child, root⟩ | ⟨child, root⟩)
      · exact ⟨first.isChild_of child, root⟩
      · have status := first.status_child y child root
        exact ⟨child, isChild_eq_false.2 (.inl (second.status_root status))⟩
    · rintro ⟨child, root⟩
      by_cases child1 : h1.isChild y = true
      · exact .inl ⟨child1, root⟩
      · exact .inr ⟨child, by simpa using child1⟩
  case minimal_cases =>
    rcases second.minimal_cases with eq | ⟨child, root⟩
    · rw [eq]
      rcases first.minimal_cases with eq' | ⟨child, root⟩
      · exact .inl eq'
      · have status := second.status_root (first.status_child _ child root)
        exact .inr ⟨child, isChild_eq_false.2 (.inl status)⟩
    · exact .inr ⟨first.isChild_of child, root⟩
  case minimal_old =>
    intro defined
    obtain ⟨defined1, le1⟩ := first.minimal_old defined
    obtain ⟨defined2, le2⟩ := second.minimal_old defined1
    rw [first.key_eq] at le2
    exact ⟨defined2, le2.trans le1⟩
  case minimal_cut =>
    intro z child root
    by_cases child1 : h1.isChild z = true
    · have below := second.minimal_cut z child1 root
      rwa [first.key_eq] at below
    · obtain ⟨defined1, le1⟩ := first.minimal_cut z child (by simpa using child1)
      obtain ⟨defined2, le2⟩ := second.minimal_old defined1
      rw [first.key_eq] at le2
      exact ⟨defined2, le2.trans le1⟩

/-- A change of the status from unmarked to marked, or of data that the forest does not
depend on. -/
theorem of_isChild_eq (n_eq : h1.n = h.n) (k_eq : h1.k = h.k)
    (undefined_eq : h1.undefined = h.undefined) (card_eq : h1.card = h.card)
    (pred_eq : h1.pred = h.pred) (key_eq : h1.key = h.key) (first_eq : h1.first = h.first)
    (next_eq : h1.next = h.next) (nextLink_eq : h1.nextLink = h.nextLink)
    (firstLink_eq : h1.firstLink = h.firstLink) (minimal_eq : h1.minimal = h.minimal)
    (status_eq : ∀ z, h.isChild z = false → h1.status z = h.status z)
    (isChild_eq : ∀ z, h.isChild z = true → h1.isChild z = true)
    (members : ∀ z l, h.status z ≠ .notQueued → Chain h.next h.undefined (h.first z) l →
      ∀ y ∈ l, h.isChild y = true) : Loosens h h1 := by
  refine ⟨n_eq, k_eq, undefined_eq, card_eq, pred_eq, key_eq, status_eq, ?_, ?_, ?_,
    .inl minimal_eq, ?_, ?_⟩
  · intro z child root
    rw [isChild_eq z child] at root
    cases root
  · intro z l queued chain
    rw [next_eq, undefined_eq, first_eq, filter_eq_self.2]
    · exact chain
    · exact fun y mem => isChild_eq y (members z l queued chain y mem)
  · intro l chain _
    refine ⟨[], by rw [nextLink_eq, undefined_eq, firstLink_eq]; exact chain, fun y => ?_⟩
    simp only [not_mem_nil, false_iff, not_and]
    intro child root
    rw [isChild_eq y child] at root
    cases root
  · intro defined
    rw [minimal_eq, undefined_eq]
    exact ⟨defined, le_refl _⟩
  · intro z child root
    rw [isChild_eq z child] at root
    cases root

end Loosens

theorem Forest.loosens_refl (forest : h.Forest height excess) : Loosens h h :=
  .of_isChild_eq rfl rfl rfl rfl rfl rfl rfl rfl rfl rfl rfl (fun _ _ => rfl) (fun _ child => child)
    fun _ _ queued chain y mem => ((forest.members queued chain y).1 mem).1

/-! ## Cutting an item -/

theorem Forest.cut_start (forest : h.Forest height excess) (child : h.isChild v = true) :
    ∃ p, (h.detach v).push v = .ok p ∧ (p.updateMinimal v).Forest height
        (update excess (h.pred v) (excess (h.pred v) + 1)) ∧ Loosens h (p.updateMinimal v) ∧
      (p.updateMinimal v).status = update h.status v .rootNode := by
  have low : v < h.n := forest.isChild_lt child
  have legal : ¬ ((h.detach v).n ≤ v ∨ (h.detach v).status v ≠ .rootNode) := by
    rw [detach_status, update_self]
    simp only [detach_n, ne_eq, not_true_eq_false, or_false]
    omega
  let p : FibonacciHeap K :=
    { h.detach v with
      nextLink := update h.nextLink v h.firstLink
      firstLink := v }
  refine ⟨p, if_neg legal, ?_⟩
  -- the minimum does not matter for the forest
  generalize res : p.updateMinimal v = h1
  have fields : h1.n = h.n ∧ h1.k = h.k ∧ h1.undefined = h.undefined ∧ h1.card = h.card ∧
      h1.pred = h.pred ∧ h1.key = h.key ∧ h1.rank = h.rank ∧ h1.first = (h.detach v).first ∧
      h1.next = (h.detach v).next ∧ h1.previous = (h.detach v).previous ∧
      h1.status = (h.detach v).status ∧
      h1.nextLink = update h.nextLink v h.firstLink ∧ h1.firstLink = v := by
    rw [← res, updateMinimal]
    split_ifs
    · exact ⟨rfl, rfl, rfl, rfl, rfl, rfl, rfl, rfl, rfl, rfl, rfl, rfl, rfl⟩
    · exact ⟨rfl, rfl, rfl, rfl, rfl, rfl, rfl, rfl, rfl, rfl, rfl, rfl, rfl⟩
  have minimal : h1.minimal = v ∧ (h.minimal = h.undefined ∨ h.key v < h.key h.minimal) ∨
      h1.minimal = h.minimal ∧ h.minimal ≠ h.undefined ∧ h.key h.minimal ≤ h.key v := by
    rw [← res, updateMinimal]
    split_ifs with smaller
    · exact .inl ⟨rfl, smaller⟩
    · exact .inr ⟨rfl, fun eq => smaller (.inl eq), not_lt.1 fun less => smaller (.inr less)⟩
  obtain ⟨n_eq, k_eq, undefined_eq, card_eq, pred_eq, key_eq, rank_eq, first_eq, next_eq,
    previous_eq, status_eq, nextLink_eq, firstLink_eq⟩ := fields
  have isChild_eq : h1.isChild = (h.detach v).isChild := by
    funext y
    exact isChild_of_status_eq (by rw [status_eq])
  have cutOnly : ∀ z, h.isChild z = true → h1.isChild z = false → z = v := by
    intro z childZ root
    by_contra ne
    rw [isChild_eq, detach_isChild_of_ne ne, childZ] at root
    cases root
  refine ⟨?_, ?_, status_eq⟩
  · obtain ⟨undefined_eq', k_eq', bounded, climbs, parent, children⟩ := forest.detach child
    constructor
    case undefined_eq => rw [undefined_eq, n_eq, forest.undefined_eq]
    case k_eq => rw [k_eq, n_eq, forest.k_eq]
    case bounded =>
      rw [status_eq, n_eq]
      exact bounded
    case climbs =>
      rw [isChild_eq, pred_eq]
      exact climbs
    case parent =>
      rw [isChild_eq, pred_eq, status_eq]
      exact parent
    case children =>
      rw [isChild_eq, pred_eq, status_eq, next_eq, undefined_eq, first_eq, previous_eq, rank_eq]
      exact children
  · refine ⟨n_eq, k_eq, undefined_eq, card_eq, pred_eq, key_eq, ?_, ?_, ?_, ?_, ?_, ?_, ?_⟩
    · intro z root
      rw [status_eq, detach_status, update_of_ne]
      rintro rfl
      rw [child] at root
      cases root
    · intro z childZ root
      rw [cutOnly z childZ root, status_eq, detach_status, update_self]
    · intro z l queued chain
      rw [isChild_eq, next_eq, undefined_eq, first_eq]
      obtain ⟨k, chainK, backK, -⟩ := forest.children z queued
      rw [chain.unique chainK]
      exact (forest.detach_lists child queued chainK backK).1
    · intro l chain out
      have fresh : v ∉ l := fun mem => by
        rw [out v mem] at child
        cases child
      refine ⟨[v], ⟨firstLink_eq, ?_, ?_⟩, fun y => ?_⟩
      · rw [undefined_eq, forest.undefined_eq]
        omega
      · rw [nextLink_eq, undefined_eq, update_self]
        exact chain.update_of_notMem fresh _
      · rw [List.mem_singleton]
        constructor
        · rintro rfl
          exact ⟨child, by rw [isChild_eq, detach_isChild_self]⟩
        · exact fun both => cutOnly y both.1 both.2
    · rcases minimal with ⟨new, -⟩ | ⟨old, -⟩
      · exact .inr (by rw [new]; exact ⟨child, by rw [isChild_eq, detach_isChild_self]⟩)
      · exact .inl old
    · intro defined
      rw [undefined_eq]
      rcases minimal with ⟨new, smaller⟩ | ⟨old, -, -⟩
      · rw [new]
        refine ⟨?_, (smaller.resolve_left defined).le⟩
        rw [forest.undefined_eq]
        omega
      · rw [old]
        exact ⟨defined, le_refl _⟩
    · intro z childZ root
      rw [cutOnly z childZ root, undefined_eq]
      rcases minimal with ⟨new, -⟩ | ⟨old, defined, le⟩
      · rw [new]
        refine ⟨?_, le_refl _⟩
        rw [forest.undefined_eq]
        omega
      · rw [old]
        exact ⟨defined, le⟩

/-- The result of `Cut`: the item and some of its proper ancestors have become roots. -/
structure CutSpec (h h' : FibonacciHeap K) (height excess : ℕ → ℕ) (v : ℕ) : Prop where
  forest : h'.Forest height excess
  loosens : Loosens h h'
  root : h'.status v = .rootNode
  ancestors : ∀ z, h.isChild z = true → h'.isChild z = false →
    z = v ∨ height (h.pred v) ≤ height z
  alone : h.isChild (h.pred v) = false → ∀ z, h.isChild z = true → h'.isChild z = false → z = v

/-- The number of items above `x`, which bounds the depth of the recursion. -/
def above (h : FibonacciHeap K) (height : ℕ → ℕ) (x : ℕ) : ℕ :=
  ((Finset.range h.n).filter fun y => height x < height y).card

omit [LinearOrder K] in
theorem above_lt (low : y < h.n) (climbs : height x < height y) :
    h.above height y < h.above height x := by
  refine card_lt_card (ssubset_iff_of_subset ?_ |>.2 ⟨y, ?_, ?_⟩)
  · intro z mem
    obtain ⟨range, higher⟩ := Finset.mem_filter.1 mem
    exact Finset.mem_filter.2 ⟨range, climbs.trans higher⟩
  · exact Finset.mem_filter.2 ⟨Finset.mem_range.2 low, climbs⟩
  · intro mem
    exact lt_irrefl _ (Finset.mem_filter.1 mem).2

omit [LinearOrder K] in
theorem above_le : h.above height x ≤ h.n :=
  (card_filter_le _ _).trans_eq (card_range h.n)

omit [LinearOrder K] in
theorem Forest.decrement (forest : h.Forest height
      (update excess x (excess x + 1))) (queued : h.status x ≠ .notQueued) :
    Forest { h with rank := update h.rank x (h.rank x - 1) } height excess := by
  refine { forest with children := fun z present => ?_ }
  obtain ⟨l, chain, back, mem, rank⟩ := forest.children z present
  refine ⟨l, chain, back, mem, ?_⟩
  by_cases here : z = x
  · subst here
    rw [update_self] at rank
    simp only [update_self]
    omega
  · rw [update_of_ne here] at rank
    simp only [update_of_ne here]
    exact rank

theorem cut_spec (height : ℕ → ℕ) (fuel : ℕ) : ∀ (h : FibonacciHeap K) (excess : ℕ → ℕ) (v : ℕ),
    h.Forest height excess → h.isChild v = true → h.above height v < fuel →
    ∃ h', cut fuel h v = .ok h' ∧ CutSpec h h' height excess v := by
  induction fuel with
  | zero =>
    intro h excess v _ _ enough
    omega
  | succ fuel ih =>
    intro h excess v forest child enough
    have low : ¬ h.n ≤ v := not_le.2 (forest.isChild_lt child)
    have notRoot : ¬ h.isChild v = false := by simp [child]
    obtain ⟨p, pushed, forest1, loosens1, status1⟩ := forest.cut_start child
    generalize res1 : p.updateMinimal v = h1 at forest1 loosens1 status1
    have climbs := forest.climbs v child
    have neV : h.pred v ≠ v := fun eq => lt_irrefl _ (eq ▸ climbs)
    have statusX : h1.status (h.pred v) = h.status (h.pred v) := by
      rw [status1, update_of_ne neV]
    have queuedX : h1.status (h.pred v) ≠ .notQueued := statusX ▸ forest.parent v child
    have rootV : h1.status v = .rootNode := by rw [status1, update_self]
    have first1 : ∀ z, h.isChild z = true → h1.isChild z = false → z = v := by
      intro z childZ root
      by_contra ne
      have eq : h1.status z = h.status z := by rw [status1, update_of_ne ne]
      rw [isChild_of_status_eq eq, childZ] at root
      cases root
    -- the parent is cut, marked, or left alone
    have cascade : ∃ h2, (if h1.status (h.pred v) = .markedChild then cut fuel h1 (h.pred v)
          else if h1.status (h.pred v) = .unmarkedChild then
            .ok { h1 with status := update h1.status (h.pred v) .markedChild }
          else .ok h1) = .ok h2 ∧
        h2.Forest height (update excess (h.pred v) (excess (h.pred v) + 1)) ∧
        Loosens h1 h2 ∧
        ∀ z, h1.isChild z = true → h2.isChild z = false →
          h.isChild (h.pred v) = true ∧ height (h.pred v) ≤ height z := by
      by_cases marked : h1.status (h.pred v) = .markedChild
      · have childX : h1.isChild (h.pred v) = true := isChild_iff.2 (.inr marked)
        have lowX : h.pred v < h.n := forest.bounded _ (forest.parent v child)
        have sameAbove : ∀ z, h1.above height z = h.above height z := by
          intro z
          rw [above, above, loosens1.n_eq]
        obtain ⟨h2, res, spec⟩ := ih h1 _ (h.pred v) forest1 childX (by
          have less := above_lt (h := h) lowX climbs
          rw [sameAbove]
          omega)
        rw [if_pos marked]
        refine ⟨h2, res, spec.forest, spec.loosens, fun z childZ root =>
          ⟨loosens1.isChild_of childX, ?_⟩⟩
        rcases spec.ancestors z childZ root with rfl | higher
        · exact le_refl _
        · exact (forest1.climbs _ childX).le.trans higher
      · rw [if_neg marked]
        split_ifs with unmarked
        · let h2 : FibonacciHeap K :=
            { h1 with status := update h1.status (h.pred v) .markedChild }
          have children2 : ∀ z, h2.isChild z = h1.isChild z := by
            intro z
            by_cases here : z = h.pred v
            · have childX : h1.isChild (h.pred v) = true := isChild_iff.2 (.inl unmarked)
              rw [here, childX]
              exact isChild_iff.2 (.inr (update_self _ _ _))
            · exact isChild_of_status_eq (update_of_ne here _ _)
          have queued2 : ∀ z, h2.status z ≠ .notQueued ↔ h1.status z ≠ .notQueued := by
            intro z
            by_cases here : z = h.pred v
            · rw [here]
              simp [h2, unmarked]
            · simp [h2, here]
          refine ⟨h2, rfl, ⟨forest1.undefined_eq, forest1.k_eq, ?_, ?_, ?_, ?_⟩, ?_, ?_⟩
          · exact fun z present => forest1.bounded z ((queued2 z).1 present)
          · exact fun z childZ => forest1.climbs z (children2 z ▸ childZ)
          · exact fun z childZ => (queued2 _).2 (forest1.parent z (children2 z ▸ childZ))
          · intro z present
            obtain ⟨l, chain, back, mem, rank⟩ := forest1.children z ((queued2 z).1 present)
            exact ⟨l, chain, back, fun y => by rw [children2 y]; exact mem y, rank⟩
          · refine .of_isChild_eq rfl rfl rfl rfl rfl rfl rfl rfl rfl rfl rfl (fun z root => ?_)
              (fun z childZ => by rw [children2 z, childZ])
              fun z l queued chain y member => ((forest1.members queued chain y).1 member).1
            refine update_of_ne ?_ _ _
            rintro rfl
            rw [isChild_iff.2 (.inl unmarked)] at root
            cases root
          · intro z childZ root
            rw [children2 z, childZ] at root
            cases root
        · refine ⟨h1, rfl, forest1, forest1.loosens_refl, fun z childZ root => ?_⟩
          rw [childZ] at root
          cases root
    obtain ⟨h2, res2, forest2, loosens2, higher⟩ := cascade
    have queued2 : h2.status (h.pred v) ≠ .notQueued := fun absent =>
      queuedX (loosens2.status_notQueued.1 absent)
    have last : Loosens h2 { h2 with rank := update h2.rank (h.pred v) (h2.rank (h.pred v) - 1) } :=
      .of_isChild_eq rfl rfl rfl rfl rfl rfl rfl rfl rfl rfl rfl (fun _ _ => rfl)
        (fun _ childZ => childZ)
        fun z l queued chain y member => ((forest2.members queued chain y).1 member).1
    refine ⟨{ h2 with rank := update h2.rank (h.pred v) (h2.rank (h.pred v) - 1) }, ?_,
      forest2.decrement queued2, (loosens1.trans loosens2).trans last, ?_, ?_, ?_⟩
    · simp only [cut, if_neg low, if_neg notRoot, pushed]
      change (do
        let h' ← (if (p.updateMinimal v).status (h.pred v) = FibonacciStatus.markedChild then
            cut fuel (p.updateMinimal v) (h.pred v)
          else if (p.updateMinimal v).status (h.pred v) = FibonacciStatus.unmarkedChild then
            .ok { p.updateMinimal v with
              status := update (p.updateMinimal v).status (h.pred v) .markedChild }
          else .ok (p.updateMinimal v))
        return { h' with rank := update h'.rank (h.pred v) (h'.rank (h.pred v) - 1) }) = _
      rw [res1, res2]
      rfl
    · exact loosens2.status_root rootV
    · intro z childZ root
      by_cases child1 : h1.isChild z = true
      · exact .inr (higher z child1 root).2
      · exact .inl (first1 z childZ (by simpa using child1))
    · intro rootX z childZ root
      by_cases child1 : h1.isChild z = true
      · rw [(higher z child1 root).1] at rootX
        cases rootX
      · exact first1 z childZ (by simpa using child1)

/-! ## Cutting the children of an item -/

/-- The result of the loops over the children `rest` of `w`: the selected ones have become roots,
and with them at most some items that are not below `w`. -/
structure CutChildrenSpec (h h' : FibonacciHeap K) (height excess : ℕ → ℕ) (w : ℕ)
    (selected : ℕ → Bool) (rest : List ℕ) : Prop where
  forest : h'.Forest height excess
  loosens : Loosens h h'
  cut : ∀ y ∈ rest, selected y = true → h'.isChild y = false
  kept : ∀ y, h.isChild y = true → h.pred y = w → (y ∈ rest → selected y = false) →
    h'.isChild y = true
  alone : h.isChild w = false → ∀ z, h.isChild z = true → h'.isChild z = false →
    z ∈ rest ∧ selected z = true

theorem cutChildren_spec (selected : ℕ → Bool) (rest : List ℕ) :
    ∀ (fuel : ℕ) (h : FibonacciHeap K) (x : ℕ) (kept : List ℕ), h.Forest height excess →
      h.status w ≠ .notQueued → Chain h.next h.undefined (h.first w) (kept ++ rest) →
      Chain h.next h.undefined x rest → rest.length < fuel →
      ∃ h', cutChildren selected fuel h x = .ok h' ∧
        CutChildrenSpec h h' height excess w selected rest := by
  induction rest with
  | nil =>
    intro fuel h x kept forest _ _ here enough
    obtain ⟨fuel, rfl⟩ : ∃ f, fuel = f + 1 := ⟨fuel - 1, by simp at enough; omega⟩
    have stop : ¬ x ≠ h.undefined := not_not.2 here
    refine ⟨h, by rw [cutChildren, if_neg stop], forest, forest.loosens_refl, ?_, ?_, ?_⟩
    · intro y mem
      cases mem
    · exact fun y child _ _ => child
    · intro _ z child root
      rw [child] at root
      cases root
  | cons a rest ih =>
    intro fuel h x kept forest queued whole here enough
    obtain ⟨fuel, rfl⟩ : ∃ f, fuel = f + 1 := ⟨fuel - 1, by simp at enough; omega⟩
    obtain ⟨rfl, inside, after⟩ := here
    have members := forest.members queued whole
    have nodup := whole.nodup
    obtain ⟨child, parent⟩ := (members x).1 (by simp)
    cases choice : selected x with
    | false =>
      obtain ⟨h', res, spec⟩ := ih fuel h (h.next x) (kept ++ [x]) forest queued
        (by rw [append_assoc]; exact whole) after (by simpa using enough)
      refine ⟨h', ?_, spec.forest, spec.loosens, ?_, ?_, ?_⟩
      · rw [cutChildren, if_pos inside]
        simp only [choice, Bool.false_eq_true, if_false]
        exact res
      · intro y mem chosen
        rcases mem_cons.1 mem with rfl | later
        · rw [choice] at chosen
          cases chosen
        · exact spec.cut y later chosen
      · exact fun y childY parentY spared =>
          spec.kept y childY parentY fun later => spared (mem_cons_of_mem x later)
      · intro root z childZ rootZ
        obtain ⟨later, chosen⟩ := spec.alone root z childZ rootZ
        exact ⟨mem_cons_of_mem x later, chosen⟩
    | true =>
      obtain ⟨h1, res1, spec1⟩ := cut_spec height (h.n + 1) h excess x forest child
        (Nat.lt_succ_of_le above_le)
      have queued1 : h1.status w ≠ .notQueued := fun absent =>
        queued (spec1.loosens.status_notQueued.1 absent)
      have cutX : h1.isChild x = false := isChild_eq_false.2 (.inl spec1.root)
      -- the cascade does not reach the other children of `w`
      have others : ∀ y, h.isChild y = true → h.pred y = w → y ≠ x → h1.isChild y = true := by
        intro y childY parentY ne
        by_contra root
        rcases spec1.ancestors y childY (by simpa using root) with eq | higher
        · exact ne eq
        · have climbs := forest.climbs y childY
          rw [parentY] at climbs
          rw [parent] at higher
          omega
      have notX : ∀ y, y ∈ kept ∨ y ∈ rest → y ≠ x := by
        rintro y mem rfl
        rcases mem with early | late
        · exact (nodup_append.1 nodup).2.2 y early y (by simp) rfl
        · exact (nodup_cons.1 (nodup_append.1 nodup).2.1).1 late
      have remaining : (kept ++ x :: rest).filter h1.isChild = kept ++ rest := by
        have still : ∀ y, y ∈ kept ∨ y ∈ rest → h1.isChild y = true := by
          intro y mem
          have inList : y ∈ kept ++ x :: rest := by
            rcases mem with early | late
            · simp [early]
            · simp [late]
          obtain ⟨childY, parentY⟩ := (members y).1 inList
          exact others y childY parentY (notX y mem)
        rw [filter_append, filter_cons_of_neg (by simp [cutX]),
          filter_eq_self.2 fun y mem => still y (.inl mem),
          filter_eq_self.2 fun y mem => still y (.inr mem)]
      have whole1 := spec1.loosens.lists w _ queued whole
      rw [remaining] at whole1
      have after1 : Chain h1.next h1.undefined (h.next x) rest := by
        obtain ⟨z, suffix⟩ := whole1.suffix
        have eq : h.next x = z := by
          rw [after.start_eq, suffix.start_eq, spec1.loosens.undefined_eq]
        exact eq ▸ suffix
      obtain ⟨h', res, spec⟩ := ih fuel h1 (h.next x) kept spec1.forest queued1 whole1 after1
        (by simpa using enough)
      have predEq := spec1.loosens.pred_eq
      refine ⟨h', ?_, spec.forest, spec1.loosens.trans spec.loosens, ?_, ?_, ?_⟩
      · rw [cutChildren, if_pos inside]
        simp only [choice, if_true, res1]
        exact res
      · intro y mem chosen
        rcases mem_cons.1 mem with rfl | later
        · exact isChild_eq_false.2 (.inl (spec.loosens.status_root spec1.root))
        · exact spec.cut y later chosen
      · intro y childY parentY spared
        have ne : y ≠ x := by
          rintro rfl
          rw [spared mem_cons_self] at choice
          cases choice
        exact spec.kept y (others y childY parentY ne) (by rw [predEq, parentY])
          fun later => spared (mem_cons_of_mem x later)
      · intro root z childZ rootZ
        have root1 : h1.isChild w = false := by
          rw [isChild_of_status_eq (spec1.loosens.status_eq w root), root]
        by_cases child1 : h1.isChild z = true
        · obtain ⟨later, chosen⟩ := spec.alone root1 z child1 rootZ
          exact ⟨mem_cons_of_mem x later, chosen⟩
        · have eq := spec1.alone (by rw [parent, root]) z childZ (by simpa using child1)
          rw [eq]
          exact ⟨mem_cons_self, choice⟩

end Goblin.FibonacciHeap
