import Goblin.FibonacciRestore

/-!
# Fibonacci heaps in use

`Valid` is the invariant of a Fibonacci heap between the requests: the pointers form a
heap-ordered forest, the list of roots is complete, and the item `minimal` is a root. Every legal
request is served and keeps it (`serve_spec`), so that the pointers are consistent in every
reachable state (`fibonacciHeap_structure`).

That `minimal` has the smallest key of all is not part of the invariant. `Delete` recomputes the
minimum, `Insert` compares the new key with it, and so does `Cut`. But `ChangeKey` does not look at
`minimal` when the key of another root falls below it, nor does it look at the other roots when the
key of `minimal` grows.
-/

set_option autoImplicit false

namespace Goblin.FibonacciHeap

open Library Finset QueueReach
open Function (update update_self update_of_ne)

variable {K : Type} {h h1 h2 : FibonacciHeap K} {height : ℕ → ℕ} {w x y z : ℕ}
  {keys : ℕ → Option K} {n : ℕ}

/-! ## The invariant -/

section

variable (h : FibonacciHeap K)

/-- The queued items. -/
def queued : Finset ℕ :=
  (Finset.range h.n).filter fun x => h.status x ≠ .notQueued

/-- The pointers between the requests, whatever the keys are. -/
structure Shaped (n : ℕ) : Prop where
  size : h.n = n
  forest : ∃ height, h.Forest height fun _ => 0
  roots : ∃ l, Chain h.nextLink h.undefined h.firstLink l ∧ ∀ y, y ∈ l ↔ h.status y = .rootNode
  card_eq : h.card = h.queued.card
  minimal : (∀ x, h.status x = .notQueued) ∧ h.minimal = h.undefined ∨
    h.status h.minimal = .rootNode

/-- The status and the key of every item agree with the keys that the user knows about. -/
def Keyed (keys : ℕ → Option K) : Prop :=
  ∀ x, keys x = if h.status x = .notQueued then none else some (h.key x)

end

/-- The invariant of a heap between the requests. -/
structure Valid [LinearOrder K] (h : FibonacciHeap K) (n : ℕ) (keys : ℕ → Option K) : Prop where
  shaped : h.Shaped n
  ordered : h.Ordered
  keyed : h.Keyed keys

theorem Forest.mem_queued {excess : ℕ → ℕ} (forest : h.Forest height excess) :
    x ∈ h.queued ↔ h.status x ≠ .notQueued := by
  rw [queued, mem_filter, mem_range]
  exact ⟨fun mem => mem.2, fun present => ⟨forest.bounded x present, present⟩⟩

theorem queued_congr (n_eq : h1.n = h.n)
    (status : ∀ z, h1.status z = .notQueued ↔ h.status z = .notQueued) : h1.queued = h.queued := by
  rw [queued, queued, n_eq]
  refine filter_congr fun z _ => ?_
  rw [ne_eq, ne_eq, status z]

section

variable (shaped : h.Shaped n)
include shaped

theorem Shaped.mem_queued : x ∈ h.queued ↔ h.status x ≠ .notQueued := by
  obtain ⟨height, forest⟩ := shaped.forest
  exact forest.mem_queued

theorem Shaped.minimal_of_queued (present : h.status x ≠ .notQueued) :
    h.status h.minimal = .rootNode := by
  rcases shaped.minimal with ⟨empty, -⟩ | root
  · exact absurd (empty x) present
  · exact root

theorem Shaped.minimal_defined (present : h.status x ≠ .notQueued) : h.minimal ≠ h.undefined := by
  obtain ⟨height, forest⟩ := shaped.forest
  have root := shaped.minimal_of_queued present
  have low := forest.bounded h.minimal (by rw [root]; simp)
  rw [forest.undefined_eq]
  omega

theorem Shaped.card_ne_zero : h.card ≠ 0 ↔ ∃ x, h.status x ≠ .notQueued := by
  rw [shaped.card_eq, Finset.card_ne_zero]
  constructor
  · rintro ⟨x, mem⟩
    exact ⟨x, shaped.mem_queued.1 mem⟩
  · rintro ⟨x, present⟩
    exact ⟨x, shaped.mem_queued.2 present⟩

end

theorem Keyed.ne_none (keyed : h.Keyed keys) : keys x ≠ none ↔ h.status x ≠ .notQueued := by
  rw [keyed x]
  split_ifs with absent
  · simp [absent]
  · simp [absent]

/-- The key of an item changes, or it is queued or not, and everything else stays. -/
theorem Keyed.update {val : Option K} (keyed : h.Keyed keys)
    (others : ∀ x, x ≠ w → (h1.status x = .notQueued ↔ h.status x = .notQueued) ∧
      h1.key x = h.key x)
    (here : val = if h1.status w = .notQueued then none else some (h1.key w)) :
    h1.Keyed (update keys w val) := by
  intro x
  by_cases eq : x = w
  · rw [eq, update_self, here]
  · obtain ⟨status, key⟩ := others x eq
    rw [update_of_ne eq, keyed x, key]
    simp only [status]

theorem Keyed.empty (absent : ∀ x, h.status x = .notQueued) : h.Keyed fun _ => none :=
  fun x => (if_pos (absent x)).symm

variable [LinearOrder K]

theorem Forest.root_below (forest : h.Forest height fun _ => 0) (ordered : h.Ordered) (m : ℕ) :
    ∀ x, h.above height x = m → h.status x ≠ .notQueued →
      ∃ r, h.status r = .rootNode ∧ h.key r ≤ h.key x := by
  induction m using Nat.strong_induction_on with
  | _ m ih =>
    intro x measure present
    by_cases child : h.isChild x = true
    · have queuedP := forest.parent x child
      have less := above_lt (h := h) (forest.bounded _ queuedP) (forest.climbs x child)
      obtain ⟨r, root, le⟩ := ih _ (measure ▸ less) (h.pred x) rfl queuedP
      exact ⟨r, root, le.trans (ordered x child)⟩
    · have cases := isChild_eq_false.1 (Bool.eq_false_iff.2 child)
      exact ⟨x, cases.resolve_right present, le_refl _⟩

/-- `minimal` has the smallest key. -/
def Least (h : FibonacciHeap K) : Prop := ∀ x, h.status x ≠ .notQueued → h.key h.minimal ≤ h.key x

theorem Shaped.least_iff (shaped : h.Shaped n) (ordered : h.Ordered) :
    h.Least ↔ ∀ r, h.status r = .rootNode → h.key h.minimal ≤ h.key r := by
  constructor
  · exact fun least r root => least r (by simp [root])
  · intro roots x present
    obtain ⟨height, forest⟩ := shaped.forest
    obtain ⟨r, root, le⟩ := forest.root_below ordered _ x rfl present
    exact (roots r root).trans le

/-! ## The constructor -/

theorem clear_valid (size : h.n = n) (k_eq : h.k = h.n) (undefined_eq : h.undefined = h.n) :
    h.clear.Valid n fun _ => none := by
  have absent : ∀ x, h.clear.status x = .notQueued := fun _ => rfl
  have notChild : ∀ x, h.clear.isChild x = false := fun x => isChild_eq_false.2 (.inr rfl)
  refine ⟨⟨size, ⟨fun _ => 0, ?_⟩, ⟨[], rfl, fun y => ?_⟩, ?_, .inl ⟨absent, rfl⟩⟩,
    fun y child => ?_, .empty absent⟩
  · refine ⟨undefined_eq, k_eq, fun x present => absurd (absent x) present, fun y child => ?_,
      fun y child => ?_, fun x present => absurd (absent x) present⟩
    · simp [notChild y] at child
    · simp [notChild y] at child
  · simp [absent y]
  · have none : h.clear.queued = ∅ := filter_eq_empty_iff.2 fun x _ => not_not.2 (absent x)
    rw [none]
    rfl
  · simp [notChild y] at child

theorem new_valid (n : ℕ) (memory : FibonacciHeap K) : (new n memory).Valid n fun _ => none :=
  clear_valid rfl rfl rfl

/-! ## Cuts -/

theorem Loosens.shaped (loosens : Loosens h h1) (shaped : h.Shaped n)
    (forest : h1.Forest height fun _ => 0) : h1.Shaped n := by
  have status : ∀ z, h1.status z = .notQueued ↔ h.status z = .notQueued :=
    fun z => loosens.status_notQueued
  refine ⟨loosens.n_eq.trans shaped.size, ⟨height, forest⟩, ?_, ?_, ?_⟩
  · obtain ⟨l, chain, mem⟩ := shaped.roots
    obtain ⟨cuts, chain1, memCuts⟩ := loosens.roots l chain fun y member =>
      isChild_eq_false.2 (.inl ((mem y).1 member))
    refine ⟨cuts ++ l, chain1, fun y => ?_⟩
    rw [List.mem_append, memCuts y, mem y]
    constructor
    · rintro (⟨child, root⟩ | root)
      · exact loosens.status_child y child root
      · exact loosens.status_root root
    · intro root
      by_cases child : h.isChild y = true
      · exact .inl ⟨child, isChild_eq_false.2 (.inl root)⟩
      · rw [loosens.status_eq y (Bool.eq_false_iff.2 child)] at root
        exact .inr root
  · rw [loosens.card_eq, shaped.card_eq, queued_congr loosens.n_eq status]
  · rcases shaped.minimal with ⟨empty, none⟩ | root
    · have absent : ∀ x, h1.status x = .notQueued := fun x => (status x).2 (empty x)
      refine .inl ⟨absent, ?_⟩
      rcases loosens.minimal_cases with eq | ⟨child, -⟩
      · rw [eq, none, loosens.undefined_eq]
      · exact absurd (empty _) (queued_of_isChild child)
    · refine .inr ?_
      rcases loosens.minimal_cases with eq | ⟨child, cut⟩
      · rw [eq]
        exact loosens.status_root root
      · exact loosens.status_child _ child cut

theorem Loosens.keyed (loosens : Loosens h h1) (keyed : h.Keyed keys) : h1.Keyed keys := by
  intro x
  rw [keyed x, loosens.key_eq]
  simp only [loosens.status_notQueued]

/-! ## Insertion -/

theorem insert_spec (valid : h.Valid n keys) (alpha : K) (low : w < n) (absent : keys w = none) :
    ∃ h', h.insert w alpha = .ok h' ∧ h'.Valid n (update keys w (some alpha)) ∧
      (h.Least → h'.Least) := by
  obtain ⟨shaped, ordered, keyed⟩ := valid
  obtain ⟨height, forest⟩ := shaped.forest
  obtain ⟨l, chain, mem⟩ := shaped.roots
  have size := shaped.size
  have absentW : h.status w = .notQueued := by
    by_contra present
    exact keyed.ne_none.2 present absent
  have notL : w ∉ l := fun member => by
    rw [(mem w).1 member] at absentW
    cases absentW
  have notChild : h.isChild w = false := isChild_eq_false.2 (.inr absentW)
  have definedW : w ≠ h.undefined := by
    rw [forest.undefined_eq]
    omega
  let h1 : FibonacciHeap K :=
    { h with
      first := update h.first w h.undefined
      rank := update h.rank w 0
      status := update h.status w .rootNode
      key := update h.key w alpha
      nextLink := update (update h.nextLink w h.undefined) w h.firstLink
      firstLink := w
      card := h.card + 1 }
  have rootW : h1.status w = .rootNode := update_self _ _ _
  have statusOf : ∀ z, z ≠ w → h1.status z = h.status z := fun z ne => update_of_ne ne _ _
  have keyOf : ∀ z, z ≠ w → h1.key z = h.key z := fun z ne => update_of_ne ne _ _
  have keyW : h1.key w = alpha := update_self _ _ _
  have isChild1 : ∀ z, h1.isChild z = h.isChild z := by
    intro z
    by_cases here : z = w
    · rw [here, notChild]
      exact isChild_eq_false.2 (.inl rootW)
    · exact isChild_of_status_eq (statusOf z here)
  have parentNe : ∀ y, h.isChild y = true → h.pred y ≠ w := by
    intro y child eq
    exact forest.parent y child (eq ▸ absentW)
  have forest1 : h1.Forest height fun _ => 0 := by
    refine ⟨forest.undefined_eq, forest.k_eq, fun z present => ?_, fun y child => ?_,
      fun y child => ?_, fun z present => ?_⟩
    · by_cases here : z = w
      · rw [here]
        exact size ▸ low
      · rw [statusOf z here] at present
        exact forest.bounded z present
    · rw [isChild1] at child
      exact forest.climbs y child
    · rw [isChild1] at child
      change h1.status (h.pred y) ≠ _
      rw [statusOf _ (parentNe y child)]
      exact forest.parent y child
    · by_cases here : z = w
      · have first : h1.first w = h.undefined := update_self _ _ _
        have rank : h1.rank w = 0 := update_self _ _ _
        subst here
        refine ⟨[], first, trivial, fun y => ?_, rank⟩
        rw [isChild1]
        simp only [List.not_mem_nil, false_iff, not_and]
        exact parentNe y
      · rw [statusOf z here] at present
        obtain ⟨k, chainK, back, memK, rank⟩ := forest.children z present
        have first : h1.first z = h.first z := update_of_ne here _ _
        have rank1 : h1.rank z = h.rank z := update_of_ne here _ _
        refine ⟨k, first ▸ chainK, back, fun y => ?_, rank1 ▸ rank⟩
        rw [isChild1]
        exact memK y
  have nextLink1 : h1.nextLink w = h.firstLink := update_self _ _ _
  have chain1 : Chain h1.nextLink h1.undefined h1.firstLink (w :: l) := by
    refine ⟨rfl, definedW, ?_⟩
    rw [nextLink1]
    exact (chain.update_of_notMem notL _).update_of_notMem notL _
  have memRoots : ∀ y, y ∈ w :: l ↔ h1.status y = .rootNode := by
    intro y
    by_cases here : y = w
    · simp [here, rootW]
    · rw [statusOf y here, ← mem y]
      simp [here]
  have queued1 : h1.queued = Insert.insert w h.queued := by
    ext z
    rw [forest1.mem_queued, mem_insert, forest.mem_queued]
    by_cases here : z = w
    · simp [here, rootW]
    · simp [here, statusOf z here]
  have card1 : h1.card = h1.queued.card := by
    have new : w ∉ h.queued := fun member => forest.mem_queued.1 member absentW
    rw [queued1, card_insert_of_notMem new, ← shaped.card_eq]
  have ordered1 : h1.Ordered := by
    intro y child
    rw [isChild1] at child
    have neY : y ≠ w := by
      rintro rfl
      rw [notChild] at child
      cases child
    change h1.key (h.pred y) ≤ _
    rw [keyOf y neY, keyOf _ (parentNe y child)]
    exact ordered y child
  have keyed1 : h1.Keyed (update keys w (some alpha)) := by
    refine keyed.update (fun x ne => ?_) ?_
    · rw [statusOf x ne]
      exact ⟨Iff.rfl, keyOf x ne⟩
    · simp [rootW, keyW]
  -- the old minimum is not the new item
  have old : h.status h.minimal = .rootNode → h.minimal ≠ w := fun root eq => by
    rw [eq, absentW] at root
    cases root
  have legal : ¬ (h1.n ≤ w ∨ h1.status w ≠ .rootNode) := by
    rw [rootW]
    change ¬ (h.n ≤ w ∨ _)
    simp only [ne_eq, not_true_eq_false, or_false]
    omega
  have res : h.insert w alpha = .ok (h1.updateMinimal w) := by
    have inRange : ¬ h.n ≤ w := by omega
    have new : ¬ h.status w ≠ .notQueued := not_not.2 absentW
    rw [insert, if_neg inRange, if_neg new, push]
    rw [if_neg legal]
    rfl
  refine ⟨h1.updateMinimal w, res, ?_⟩
  by_cases replaced : h1.minimal = h1.undefined ∨ h1.key w < h1.key h1.minimal
  · have val : h1.updateMinimal w = { h1 with minimal := w } := if_pos replaced
    rw [val]
    refine ⟨⟨⟨size, ⟨height, ?_⟩, ⟨w :: l, chain1, memRoots⟩, card1, .inr rootW⟩, ordered1, keyed1⟩,
      fun least z present => ?_⟩
    · exact ⟨forest1.undefined_eq, forest1.k_eq, forest1.bounded, forest1.climbs, forest1.parent,
        forest1.children⟩
    · change h1.key w ≤ h1.key z
      by_cases here : z = w
      · rw [here]
      change h1.status z ≠ _ at present
      rw [statusOf z here] at present
      have root := shaped.minimal_of_queued present
      have smaller := replaced.resolve_left fun none => by
        have := forest.bounded _ (by rw [root]; simp : h.status h.minimal ≠ .notQueued)
        change h.minimal = h.undefined at none
        rw [none, forest.undefined_eq] at this
        omega
      change h1.key w < h1.key h.minimal at smaller
      rw [keyOf _ (old root)] at smaller
      rw [keyOf z here]
      exact smaller.le.trans (least z present)
  · have val : h1.updateMinimal w = h1 := if_neg replaced
    rw [val]
    obtain ⟨defined, le⟩ := not_or.1 replaced
    have root : h.status h.minimal = .rootNode := by
      rcases shaped.minimal with ⟨-, none⟩ | root
      · exact absurd none defined
      · exact root
    refine ⟨⟨⟨size, ⟨height, forest1⟩, ⟨w :: l, chain1, memRoots⟩, card1, .inr ?_⟩, ordered1,
      keyed1⟩, fun least z present => ?_⟩
    · exact (statusOf _ (old root)).trans root
    · by_cases here : z = w
      · rw [here]
        exact not_lt.1 le
      · rw [statusOf z here] at present
        change h1.key h.minimal ≤ _
        rw [keyOf _ (old root), keyOf z here]
        exact least z present

/-! ## Deletion -/

omit [LinearOrder K] in
theorem isChild_remove (root : h.isChild w = false) (card : ℕ) :
    isChild { h with status := update h.status w .notQueued, card := card } = h.isChild := by
  funext z
  by_cases here : z = w
  · rw [here, root]
    exact isChild_eq_false.2 (.inr (update_self _ _ _))
  · exact isChild_of_status_eq (update_of_ne here _ _)

omit [LinearOrder K] in
theorem Forest.remove (forest : h.Forest height fun _ => 0) (root : h.isChild w = false)
    (childless : ∀ y, h.isChild y = true → h.pred y ≠ w) (card : ℕ) :
    Forest { h with status := update h.status w .notQueued, card := card } height fun _ => 0 := by
  have isChild' := isChild_remove root card
  have status' : ∀ z, z ≠ w → update h.status w .notQueued z = h.status z :=
    fun z ne => update_of_ne ne _ _
  have present' : ∀ z, update h.status w .notQueued z ≠ .notQueued →
      z ≠ w ∧ h.status z ≠ .notQueued := by
    intro z present
    have ne : z ≠ w := by
      rintro rfl
      exact present (update_self _ _ _)
    exact ⟨ne, status' z ne ▸ present⟩
  constructor
  case undefined_eq => exact forest.undefined_eq
  case k_eq => exact forest.k_eq
  case bounded => exact fun z present => forest.bounded z (present' z present).2
  case climbs =>
    intro y child
    rw [isChild'] at child
    exact forest.climbs y child
  case parent =>
    intro y child
    rw [isChild'] at child
    change update h.status w .notQueued (h.pred y) ≠ _
    rw [status' _ (childless y child)]
    exact forest.parent y child
  case children =>
    intro z present
    rw [isChild']
    exact forest.children z (present' z present).2

/-- The loop of `Delete(w)` and the cut of `w` turn `w` into a root without children. -/
theorem isolate_spec (forest : h.Forest height fun _ => 0) (present : h.status w ≠ .notQueued) :
    ∃ h', (do
        let p ← cutChildren (fun _ => true) (h.n + 1) h (h.first w)
        if p.isChild w then cut (p.n + 1) p w else .ok p) = .ok h' ∧
      h'.Forest height (fun _ => 0) ∧ Loosens h h' ∧ h'.isChild w = false ∧
      ∀ y, h'.isChild y = true → h'.pred y ≠ w := by
  obtain ⟨l, chain, -, mem, rank⟩ := forest.children w present
  have length : l.length < h.n + 1 := by
    have low := forest.rank_lt present
    rw [forest.k_eq, rank] at low
    omega
  obtain ⟨h1, res1, spec1⟩ := cutChildren_spec (fun _ => true) l (h.n + 1) h (h.first w) []
    forest present chain chain length
  have childless : ∀ y, h1.isChild y = true → h1.pred y ≠ w := by
    intro y child parent
    rw [spec1.loosens.pred_eq] at parent
    have cut := spec1.cut y ((mem y).2 ⟨spec1.loosens.isChild_of child, parent⟩) rfl
    rw [cut] at child
    cases child
  rw [res1]
  change ∃ h', (if h1.isChild w = true then cut (h1.n + 1) h1 w else .ok h1) = .ok h' ∧ _
  by_cases child : h1.isChild w = true
  · obtain ⟨h', res, spec⟩ := cut_spec height (h1.n + 1) h1 _ w spec1.forest child
      (Nat.lt_succ_of_le above_le)
    refine ⟨h', by rw [if_pos child, res], spec.forest, spec1.loosens.trans spec.loosens,
      isChild_eq_false.2 (.inl spec.root), fun y childY parent => ?_⟩
    rw [spec.loosens.pred_eq] at parent
    exact childless y (spec.loosens.isChild_of childY) parent
  · exact ⟨h1, by rw [if_neg child], spec1.forest, spec1.loosens, Bool.eq_false_iff.2 child,
      childless⟩

theorem Loosens.ordered (loosens : Loosens h h1) (ordered : h.Ordered) : h1.Ordered := by
  intro y child
  rw [loosens.pred_eq, loosens.key_eq]
  exact ordered y (loosens.isChild_of child)

theorem deleteItem_spec (valid : h.Valid n keys) (known : keys w ≠ none) :
    ∃ h', h.deleteItem w = .ok h' ∧ h'.Valid n (update keys w none) ∧ h'.Least ∧
      h'.card < h.card := by
  obtain ⟨shaped, ordered, keyed⟩ := valid
  obtain ⟨height, forest⟩ := shaped.forest
  have present : h.status w ≠ .notQueued := keyed.ne_none.1 known
  obtain ⟨h1, res1, forest1, loosens, rootW, childless⟩ := isolate_spec forest present
  have shaped1 := loosens.shaped shaped forest1
  have keyed1 := loosens.keyed keyed
  have ordered1 := loosens.ordered ordered
  have present1 : h1.status w ≠ .notQueued := fun absent =>
    present (loosens.status_notQueued.1 absent)
  let h2 : FibonacciHeap K :=
    { h1 with
      status := update h1.status w .notQueued
      card := h1.card - 1 }
  have forest2 : h2.Forest height fun _ => 0 := forest1.remove rootW childless _
  have isChild2 : h2.isChild = h1.isChild := isChild_remove rootW _
  have ordered2 : h2.Ordered := by
    intro y child
    rw [isChild2] at child
    exact ordered1 y child
  obtain ⟨l, chain, mem⟩ := shaped1.roots
  have complete : ∀ z, h2.status z = .rootNode → z ∈ l := by
    intro z root
    change update h1.status w .notQueued z = _ at root
    have ne : z ≠ w := by
      rintro rfl
      rw [update_self] at root
      cases root
    rw [update_of_ne ne] at root
    exact (mem z).2 root
  have lowL : ∀ z ∈ l, z < h2.n := fun z member =>
    forest1.bounded z (by rw [(mem z).1 member]; simp)
  obtain ⟨h', height', roots, res, spec⟩ := restore_spec forest2 ordered2 chain lowL complete
  have status' : ∀ z, h'.status z = .notQueued ↔ z = w ∨ h1.status z = .notQueued := by
    intro z
    rw [spec.status_notQueued z]
    by_cases here : z = w
    · simp [h2, here]
    · simp [h2, here]
  have queued' : h'.queued = h1.queued.erase w := by
    ext z
    rw [spec.forest.mem_queued, mem_erase, forest1.mem_queued, ne_eq, status' z, not_or]
  have member : w ∈ h1.queued := forest1.mem_queued.2 present1
  have card' : h'.card = h1.card - 1 := spec.card_eq
  have minimal' : (∀ x, h'.status x = .notQueued) ∧ h'.minimal = h'.undefined ∨
      h'.status h'.minimal = .rootNode := by
    rcases spec.minimal with ⟨none, undefined⟩ | ⟨root, -⟩
    · refine .inl ⟨fun x => ?_, undefined⟩
      by_contra queued
      obtain ⟨r, root, -⟩ := spec.forest.root_below spec.ordered _ x rfl queued
      have := (spec.mem_roots r).2 root
      rw [none] at this
      cases this
    · exact .inr ((spec.mem_roots _).1 root)
  have shaped' : h'.Shaped n := by
    refine ⟨spec.n_eq.trans shaped1.size, ⟨height', spec.forest⟩, ⟨roots, spec.chain, spec.mem_roots⟩,
      ?_, minimal'⟩
    rw [card', queued', card_erase_of_mem member, shaped1.card_eq]
  refine ⟨h', ?_, ⟨shaped', spec.ordered, keyed1.update (fun x ne => ?_) ?_⟩, ?_, ?_⟩
  · have legal : ¬ (h.n ≤ w ∨ h.status w = .notQueued) := by
      rintro (high | absent)
      · exact absurd (forest.bounded w present) (not_lt.2 high)
      · exact present absent
    have start : h.deleteItem w = (do
        let p ← (do
          let p ← cutChildren (fun _ => true) (h.n + 1) h (h.first w)
          if p.isChild w then cut (p.n + 1) p w else .ok p)
        restore { p with
            status := update p.status w .notQueued
            card := p.card - 1 }) := by
      rw [deleteItem, if_neg legal, bind_assoc]
    rw [start, res1]
    exact res
  · rw [status' x, spec.key_eq]
    simp [ne, h2]
  · rw [if_pos ((status' w).2 (.inl rfl))]
  · refine (shaped'.least_iff spec.ordered).2 fun r root => ?_
    rcases spec.minimal with ⟨none, -⟩ | ⟨-, least⟩
    · have := (spec.mem_roots r).2 root
      rw [none] at this
      cases this
    · exact least r ((spec.mem_roots r).2 root)
  · have pos := card_pos.2 ⟨w, member⟩
    rw [← shaped1.card_eq] at pos
    rw [card', ← loosens.card_eq]
    omega

theorem delete_spec (valid : h.Valid n keys) (ne : ∃ x, keys x ≠ none) :
    ∃ h', h.delete = .ok (h', h.minimal) ∧ h'.Valid n (update keys h.minimal none) ∧
      h'.Least ∧ h'.card < h.card := by
  obtain ⟨x, known⟩ := ne
  have present := valid.keyed.ne_none.1 known
  have root := valid.shaped.minimal_of_queued present
  have card : ¬ h.card = 0 := valid.shaped.card_ne_zero.2 ⟨x, present⟩
  have queued : keys h.minimal ≠ none := valid.keyed.ne_none.2 (by rw [root]; simp)
  obtain ⟨h', res, spec⟩ := deleteItem_spec valid queued
  refine ⟨h', ?_, spec⟩
  rw [delete, if_neg card]
  simp only [res]
  rfl

theorem drain_spec (fuel : ℕ) : ∀ (h : FibonacciHeap K) (keys : ℕ → Option K),
    h.Valid n keys → h.card < fuel → ∃ h', drain fuel h = .ok h' ∧ h'.Valid n fun _ => none := by
  induction fuel with
  | zero =>
    intro h keys _ enough
    omega
  | succ fuel ih =>
    intro h keys valid enough
    by_cases empty : h.card = 0
    · have absent : keys = fun _ => none := by
        funext x
        by_contra known
        exact valid.shaped.card_ne_zero.2 ⟨x, valid.keyed.ne_none.1 known⟩ empty
      exact ⟨h, by rw [drain, if_pos empty], absent ▸ valid⟩
    · obtain ⟨x, present⟩ := valid.shaped.card_ne_zero.1 empty
      obtain ⟨h1, res1, valid1, -, less⟩ := delete_spec valid ⟨x, valid.keyed.ne_none.2 present⟩
      obtain ⟨h', res, valid'⟩ := ih h1 _ valid1 (by omega)
      refine ⟨h', ?_, valid'⟩
      rw [drain, if_neg empty, res1]
      exact res

theorem init_spec (valid : h.Valid n keys) : ∃ h', h.init = .ok h' ∧ h'.Valid n fun _ => none := by
  by_cases few : h.card * 100 < h.n
  · obtain ⟨h', res, valid'⟩ := drain_spec (h.card + 1) h keys valid (Nat.lt_succ_self _)
    exact ⟨h', by rw [init, if_pos few, res], valid'⟩
  · obtain ⟨height, forest⟩ := valid.shaped.forest
    exact ⟨h.clear, by rw [init, if_neg few],
      clear_valid valid.shaped.size forest.k_eq forest.undefined_eq⟩

theorem Valid.least_of_empty (valid : h.Valid n fun _ => none) : h.Least := fun _ present =>
  absurd rfl (valid.keyed.ne_none.2 present)

/-! ## Key changes -/

/-- The requests after which `minimal` still has the smallest key. A root whose key falls must be
`minimal` itself or must not fall below it. When the key of `minimal` grows, then no other root
may have a smaller key unless a child of `minimal` has a key that is not greater. -/
def Harmless (h : FibonacciHeap K) : QueueRequest K → Prop
  | .changeKey w alpha =>
    if h.key w < alpha then w = h.minimal → ∀ r, h.status r = .rootNode → r ≠ w →
      alpha ≤ h.key r ∨ ∃ c, h.isChild c = true ∧ h.pred c = w ∧ h.key c ≤ h.key r
    else h.status w = .rootNode → w ≠ h.minimal → h.key h.minimal ≤ alpha
  | _ => True

/-- The heap after `key[w] = alpha`. -/
def rekey (h : FibonacciHeap K) (w : ℕ) (alpha : K) : FibonacciHeap K :=
  { h with key := update h.key w alpha }

section Rekey

variable {alpha : K} {n : ℕ} {keys : ℕ → Option K}

omit [LinearOrder K] in
theorem rekey_key_self : (h.rekey w alpha).key w = alpha := update_self _ _ _

omit [LinearOrder K] in
theorem rekey_key_of_ne (ne : x ≠ w) : (h.rekey w alpha).key x = h.key x :=
  update_of_ne ne _ _

omit [LinearOrder K] in
theorem Forest.rekey (forest : h.Forest height fun _ => 0) :
    (h.rekey w alpha).Forest height fun _ => 0 :=
  ⟨forest.undefined_eq, forest.k_eq, forest.bounded, forest.climbs, forest.parent, forest.children⟩

omit [LinearOrder K] in
theorem Shaped.rekey (shaped : h.Shaped n) : (h.rekey w alpha).Shaped n := by
  obtain ⟨height, forest⟩ := shaped.forest
  exact ⟨shaped.size, ⟨height, forest.rekey⟩, shaped.roots, shaped.card_eq, shaped.minimal⟩

omit [LinearOrder K] in
theorem Keyed.rekey (keyed : h.Keyed keys) (present : h.status w ≠ .notQueued) :
    (h.rekey w alpha).Keyed (Function.update keys w (some alpha)) := by
  refine keyed.update (fun x ne => ⟨Iff.rfl, rekey_key_of_ne ne⟩) ?_
  rw [rekey_key_self]
  exact (if_neg present).symm

theorem rekey_le (greater : h.key w < alpha) (x : ℕ) : h.key x ≤ (h.rekey w alpha).key x := by
  by_cases here : x = w
  · rw [here, rekey_key_self]
    exact greater.le
  · rw [rekey_key_of_ne here]

theorem le_rekey (less : alpha ≤ h.key w) (x : ℕ) : (h.rekey w alpha).key x ≤ h.key x := by
  by_cases here : x = w
  · rw [here, rekey_key_self]
    exact less
  · rw [rekey_key_of_ne here]

/-- The children whose keys are smaller than the new key of `w` are cut. -/
theorem changeKey_increase (valid : h.Valid n keys) (known : keys w ≠ none)
    (greater : h.key w < alpha) :
    ∃ h', h.changeKey w alpha = .ok h' ∧ h'.Valid n (update keys w (some alpha)) ∧
      (h.Least → (h'.Least ↔ h.Harmless (.changeKey w alpha))) := by
  obtain ⟨shaped, ordered, keyed⟩ := valid
  obtain ⟨height, forest⟩ := shaped.forest
  have present : h.status w ≠ .notQueued := keyed.ne_none.1 known
  obtain ⟨l, chain, -, mem, rank⟩ := forest.children w present
  have length : l.length < h.n + 1 := by
    have low := forest.rank_lt present
    rw [forest.k_eq, rank] at low
    omega
  obtain ⟨h', res, spec⟩ := cutChildren_spec
    (fun x => (h.rekey w alpha).key x < (h.rekey w alpha).key w) l (h.n + 1) (h.rekey w alpha)
    (h.first w) [] forest.rekey present chain chain length
  have loosens := spec.loosens
  have keyEq : ∀ x, h'.key x = (h.rekey w alpha).key x := fun x => by rw [loosens.key_eq]
  have predEq : h'.pred = h.pred := loosens.pred_eq
  have isChildOf : ∀ y, h'.isChild y = true → h.isChild y = true := fun y child =>
    loosens.isChild_of child
  have shaped' := loosens.shaped shaped.rekey spec.forest
  have ordered' : h'.Ordered := by
    intro y child
    have childY := isChildOf y child
    rw [keyEq, keyEq, predEq]
    by_cases parent : h.pred y = w
    · rw [parent]
      by_contra smaller
      have cut := spec.cut y ((mem y).2 ⟨childY, parent⟩) (decide_eq_true (not_le.1 smaller))
      rw [cut] at child
      cases child
    · rw [rekey_key_of_ne parent]
      exact (ordered y childY).trans (rekey_le greater y)
  refine ⟨h', ?_, ⟨shaped', ordered', loosens.keyed (keyed.rekey present)⟩, fun least => ?_⟩
  · have legal : ¬ (h.n ≤ w ∨ h.status w = .notQueued) := by
      rintro (high | absent)
      · exact absurd (forest.bounded w present) (not_lt.2 high)
      · exact present absent
    rw [changeKey, if_neg legal, if_pos greater]
    exact res
  have defined : h.minimal ≠ h.undefined := shaped.minimal_defined present
  have oldMinimal : h'.key h'.minimal ≤ (h.rekey w alpha).key h.minimal := by
    rw [keyEq]
    exact (loosens.minimal_old defined).2
  have harmless : h.Harmless (.changeKey w alpha) ↔ (w = h.minimal → ∀ r, h.status r = .rootNode →
      r ≠ w → alpha ≤ h.key r ∨ ∃ c, h.isChild c = true ∧ h.pred c = w ∧ h.key c ≤ h.key r) := by
    rw [Harmless, if_pos greater]
  rw [harmless]
  by_cases other : w = h.minimal
  · have rootW : h.status w = .rootNode := other ▸ shaped.minimal_of_queued present
    have notChild : h.isChild w = false := isChild_eq_false.2 (.inl rootW)
    have oldMinimal' : h'.key h'.minimal ≤ alpha := by
      rwa [← other, rekey_key_self] at oldMinimal
    -- a child of `w` is not `w`
    have childNe : ∀ c, h.isChild c = true → c ≠ w := by
      rintro c child rfl
      rw [notChild] at child
      cases child
    constructor
    · intro least' _ r rootR ne
      have le := least' r (by rw [loosens.status_root (z := r) rootR]; simp)
      rw [keyEq r, rekey_key_of_ne ne] at le
      rcases loosens.minimal_cases with eq | ⟨child, cut⟩
      · left
        have eq : h'.minimal = w := eq.trans other.symm
        rw [eq, keyEq, rekey_key_self] at le
        exact le
      · right
        obtain ⟨member, -⟩ := spec.alone notChild _ child cut
        have parent := ((mem _).1 member).2
        rw [keyEq, rekey_key_of_ne (childNe _ child)] at le
        exact ⟨_, child, parent, le⟩
    · intro bounded
      refine (shaped'.least_iff ordered').2 fun r rootR => ?_
      by_cases child : h.isChild r = true
      · rw [keyEq, keyEq]
        exact (loosens.minimal_cut r child (isChild_eq_false.2 (.inl rootR))).2
      have status := loosens.status_eq r (Bool.eq_false_iff.2 child)
      rw [rootR] at status
      by_cases here : r = w
      · rw [here, keyEq w, rekey_key_self]
        exact oldMinimal'
      rw [keyEq r, rekey_key_of_ne here]
      rcases bounded other r status.symm here with le | ⟨c, childC, parent, le⟩
      · exact oldMinimal'.trans le
      refine le_trans ?_ le
      have keyC : (h.rekey w alpha).key c = h.key c := rekey_key_of_ne (childNe c childC)
      by_cases smaller : h.key c < alpha
      · have cut := spec.cut c ((mem c).2 ⟨childC, parent⟩) (by
          rw [keyC, rekey_key_self]
          exact decide_eq_true smaller)
        have small := (loosens.minimal_cut c childC cut).2
        rwa [← keyEq, keyC] at small
      · exact oldMinimal'.trans (not_lt.1 smaller)
  · refine ⟨fun _ eq => absurd eq other, fun _ x presentX => ?_⟩
    have before : h.status x ≠ .notQueued := fun absent =>
      presentX (loosens.status_notQueued.2 absent)
    rw [rekey_key_of_ne (Ne.symm other)] at oldMinimal
    rw [keyEq x]
    exact oldMinimal.trans ((least x before).trans (rekey_le greater x))

theorem changeKey_decrease (valid : h.Valid n keys) (known : keys w ≠ none)
    (less : alpha ≤ h.key w) :
    ∃ h', h.changeKey w alpha = .ok h' ∧ h'.Valid n (update keys w (some alpha)) ∧
      (h.Least → (h'.Least ↔ h.Harmless (.changeKey w alpha))) := by
  obtain ⟨shaped, ordered, keyed⟩ := valid
  obtain ⟨height, forest⟩ := shaped.forest
  have present : h.status w ≠ .notQueued := keyed.ne_none.1 known
  have legal : ¬ (h.n ≤ w ∨ h.status w = .notQueued) := by
    rintro (high | absent)
    · exact absurd (forest.bounded w present) (not_lt.2 high)
    · exact present absent
  have rootMinimal := shaped.minimal_of_queued present
  have harmless : h.Harmless (.changeKey w alpha) ↔
      (h.status w = .rootNode → w ≠ h.minimal → h.key h.minimal ≤ alpha) := by
    rw [Harmless, if_neg (not_lt.2 less)]
  -- the order, as far as `w` is not a child
  have order : ∀ y, h.isChild y = true → y ≠ w →
      (h.rekey w alpha).key (h.pred y) ≤ (h.rekey w alpha).key y := by
    intro y child ne
    rw [rekey_key_of_ne ne]
    exact (le_rekey less _).trans (ordered y child)
  have start : h.changeKey w alpha =
      if h.status w ≠ .rootNode ∧ h.status w ≠ .notQueued ∧ h.pred w ≠ h.undefined ∧
        alpha < (h.rekey w alpha).key (h.pred w) then cut (h.n + 1) (h.rekey w alpha) w
      else .ok (h.rekey w alpha) := by
    rw [changeKey, if_neg legal, if_neg (not_lt.2 less)]
    rfl
  rw [harmless, start]
  by_cases smaller : h.status w ≠ .rootNode ∧ h.status w ≠ .notQueued ∧ h.pred w ≠ h.undefined ∧
      alpha < (h.rekey w alpha).key (h.pred w)
  · have child : h.isChild w = true := by
      by_contra root
      rcases isChild_eq_false.1 (Bool.eq_false_iff.2 root) with root | absent
      · exact smaller.1 root
      · exact present absent
    obtain ⟨h', res, spec⟩ := cut_spec height (h.n + 1) (h.rekey w alpha) _ w forest.rekey child
      (Nat.lt_succ_of_le above_le)
    have loosens := spec.loosens
    have keyEq : ∀ x, h'.key x = (h.rekey w alpha).key x := fun x => by rw [loosens.key_eq]
    have cutW : h'.isChild w = false := isChild_eq_false.2 (.inl spec.root)
    rw [if_pos smaller]
    refine ⟨h', res, ⟨loosens.shaped shaped.rekey spec.forest, ?_,
      loosens.keyed (keyed.rekey present)⟩, fun least => ?_⟩
    · intro y childY
      have ne : y ≠ w := by
        rintro rfl
        rw [cutW] at childY
        cases childY
      have predEq : h'.pred y = h.pred y := by rw [loosens.pred_eq]; rfl
      rw [keyEq, keyEq, predEq]
      exact order y (loosens.isChild_of childY) ne
    · refine ⟨fun _ root => absurd root smaller.1, fun _ x presentX => ?_⟩
      have before : h.status x ≠ .notQueued := fun absent =>
        presentX (loosens.status_notQueued.2 absent)
      rw [keyEq, keyEq]
      by_cases here : x = w
      · rw [here]
        exact (loosens.minimal_cut w child cutW).2
      · have old := (loosens.minimal_old (shaped.minimal_defined present)).2
        rw [rekey_key_of_ne here]
        exact old.trans ((le_rekey less _).trans (least x before))
  · rw [if_neg smaller]
    have orderW : h.isChild w = true → (h.rekey w alpha).key (h.pred w) ≤ alpha := by
      intro child
      by_contra greater
      refine smaller ⟨fun root => ?_, present, ?_, not_le.1 greater⟩
      · rw [isChild_eq_false.2 (.inl root)] at child
        cases child
      · have low := forest.bounded _ (forest.parent w child)
        rw [forest.undefined_eq]
        omega
    have ordered' : (h.rekey w alpha).Ordered := by
      intro y child
      by_cases here : y = w
      · subst here
        rw [rekey_key_self]
        exact orderW child
      · exact order y child here
    refine ⟨_, rfl, ⟨shaped.rekey, ordered', keyed.rekey present⟩, fun least => ?_⟩
    constructor
    · intro least' root ne
      have le := least' w present
      rw [rekey_key_self] at le
      change (h.rekey w alpha).key h.minimal ≤ alpha at le
      rwa [rekey_key_of_ne ne.symm] at le
    · intro bounded
      refine (shaped.rekey.least_iff ordered').2 fun r rootR => ?_
      change (h.rekey w alpha).key h.minimal ≤ _
      by_cases here : r = w
      · subst here
        by_cases eq : r = h.minimal
        · rw [← eq]
        · rw [rekey_key_self, rekey_key_of_ne (Ne.symm eq)]
          exact bounded rootR eq
      · rw [rekey_key_of_ne here]
        have queuedR : h.status r ≠ .notQueued := by
          change h.status r = _ at rootR
          simp [rootR]
        exact (le_rekey less _).trans (least r queuedR)

end Rekey

/-! ## Runs -/

/-- Every legal request is served and keeps the invariant. A heap that selects minima still does
so if and only if the request is harmless. -/
theorem serve_spec (valid : h.Valid n keys) (req : QueueRequest K)
    (legal : req.Legal n keys) : ∃ h' answer, serve req h = .ok (h', answer) ∧
      h'.Valid n (req.keysAfter keys answer) ∧ (h.Least → (h'.Least ↔ h.Harmless req)) := by
  cases req with
  | insert w alpha =>
    obtain ⟨h', res, valid', least'⟩ := insert_spec valid alpha legal.1 legal.2
    exact ⟨h', none, by simp [serve, res], valid',
      fun least => ⟨fun _ => trivial, fun _ => least' least⟩⟩
  | deleteItem w =>
    obtain ⟨h', res, valid', least', -⟩ := deleteItem_spec valid legal
    exact ⟨h', none, by simp [serve, res], valid', fun _ => ⟨fun _ => trivial, fun _ => least'⟩⟩
  | delete =>
    obtain ⟨h', res, valid', least', -⟩ := delete_spec valid legal
    refine ⟨h', some h.minimal, by simp [serve, res], ?_, fun _ => ⟨fun _ => trivial,
      fun _ => least'⟩⟩
    exact QueueRequest.keysAfter_delete keys h.minimal ▸ valid'
  | changeKey w alpha =>
    rcases lt_or_ge (h.key w) alpha with greater | less
    · obtain ⟨h', res, spec⟩ := changeKey_increase valid legal greater
      exact ⟨h', none, by simp [serve, res], spec⟩
    · obtain ⟨h', res, spec⟩ := changeKey_decrease valid legal less
      exact ⟨h', none, by simp [serve, res], spec⟩
  | init =>
    obtain ⟨h', res, valid'⟩ := init_spec valid
    exact ⟨h', none, by simp [serve, res], valid',
      fun _ => ⟨fun _ => trivial, fun _ => valid'.least_of_empty⟩⟩

/-- The consistency of the pointers and of what depends on them. -/
structure Consistent (h : FibonacciHeap K) (n : ℕ) : Prop where
  bounded : ∀ x, h.status x ≠ .notQueued → x < n
  card_eq : h.card = ((Finset.range n).filter fun x => h.status x ≠ .notQueued).card
  roots : ∃ l, l.Nodup ∧ Chain h.nextLink h.undefined h.firstLink l ∧
    ∀ y, y ∈ l ↔ h.status y = .rootNode
  children : ∃ children : ℕ → List ℕ,
    (∀ x, h.status x ≠ .notQueued → (children x).Nodup ∧ h.rank x = (children x).length ∧
      Chain h.next h.undefined (h.first x) (children x) ∧
      ∀ y ∈ children x, h.isChild y = true ∧ h.pred y = x) ∧
    ∀ y, h.isChild y = true → ∃! x, h.status x ≠ .notQueued ∧ y ∈ children x
  inverse : ∀ y, h.isChild y = true →
    (h.next y ≠ h.undefined → h.isChild (h.next y) = true ∧ h.previous (h.next y) = y) ∧
    (h.previous y ≠ h.undefined → h.isChild (h.previous y) = true ∧ h.next (h.previous y) = y)
  acyclic : ∀ x, h.status x ≠ .notQueued → ∃ i, h.status (h.pred^[i] x) = .rootNode
  order : ∀ x, h.isChild x = true → h.key (h.pred x) ≤ h.key x

omit [LinearOrder K] in
theorem Forest.reaches_root (forest : h.Forest height fun _ => 0) (m : ℕ) :
    ∀ x, h.above height x = m → h.status x ≠ .notQueued →
      ∃ i, h.status (h.pred^[i] x) = .rootNode := by
  induction m using Nat.strong_induction_on with
  | _ m ih =>
    intro x measure present
    by_cases child : h.isChild x = true
    · have queuedP := forest.parent x child
      have less := above_lt (h := h) (forest.bounded _ queuedP) (forest.climbs x child)
      obtain ⟨i, root⟩ := ih _ (measure ▸ less) (h.pred x) rfl queuedP
      exact ⟨i + 1, root⟩
    · have cases := isChild_eq_false.1 (Bool.eq_false_iff.2 child)
      exact ⟨0, cases.resolve_right present⟩

theorem Valid.consistent (valid : h.Valid n keys) : h.Consistent n := by
  obtain ⟨shaped, ordered, -⟩ := valid
  obtain ⟨height, forest⟩ := shaped.forest
  obtain ⟨l, chain, mem⟩ := shaped.roots
  have lists : ∀ x, ∃ l, h.status x ≠ .notQueued → Chain h.next h.undefined (h.first x) l ∧
      BackChain h.previous h.undefined l ∧ (∀ y, y ∈ l ↔ h.isChild y = true ∧ h.pred y = x) ∧
      h.rank x = l.length := by
    intro x
    by_cases present : h.status x ≠ .notQueued
    · obtain ⟨l, list⟩ := forest.children x present
      exact ⟨l, fun _ => list⟩
    · exact ⟨[], fun queued => absurd queued present⟩
  choose children spec using lists
  constructor
  case bounded =>
    intro x present
    rw [← shaped.size]
    exact forest.bounded x present
  case card_eq =>
    rw [← shaped.size]
    exact shaped.card_eq
  case roots => exact ⟨l, chain.nodup, chain, mem⟩
  case children =>
    refine ⟨children, fun x present => ?_, fun y child => ?_⟩
    · obtain ⟨list, -, members, rank⟩ := spec x present
      exact ⟨list.nodup, rank, list, fun y member => (members y).1 member⟩
    · have parent := forest.parent y child
      obtain ⟨-, -, members, -⟩ := spec _ parent
      refine ⟨h.pred y, ⟨parent, (members y).2 ⟨child, rfl⟩⟩, ?_⟩
      rintro x ⟨present, member⟩
      obtain ⟨-, -, membersX, -⟩ := spec x present
      exact ((membersX y).1 member).2.symm
  case inverse =>
    intro y child
    obtain ⟨list, back, members, -⟩ := spec _ (forest.parent y child)
    obtain ⟨after, before⟩ := list.inverse back ((members y).2 ⟨child, rfl⟩)
    constructor
    · intro inner
      obtain ⟨member, inverse⟩ := after inner
      exact ⟨((members _).1 member).1, inverse⟩
    · intro inner
      obtain ⟨member, inverse⟩ := before inner
      exact ⟨((members _).1 member).1, inverse⟩
  case acyclic => exact fun x present => forest.reaches_root _ x rfl present
  case order => exact ordered

/-- **The pointers of a Fibonacci heap are consistent in every state of every run.** Every legal
request is served; in particular no access to `bucket` is beyond its `n` entries. -/
theorem fibonacciHeap_structure {n : ℕ} {memory : FibonacciHeap K} {keys : ℕ → Option K}
    (reach : QueueReach n (new n memory) serve (fun _ _ => True) h keys) :
    h.Consistent n ∧ h.k = n ∧ ∀ request : QueueRequest K, request.Legal n keys →
      ∃ h' answer, serve request h = .ok (h', answer) := by
  have valid : h.Valid n keys := by
    refine reach.invariant (fun h keys => h.Valid n keys) (new_valid n memory) ?_
    intro h keys valid request legal _ h' answer result
    obtain ⟨h1, answer1, result1, valid1, -⟩ := serve_spec valid request legal
    rw [result1] at result
    cases result
    exact valid1
  obtain ⟨height, forest⟩ := valid.shaped.forest
  refine ⟨valid.consistent, forest.k_eq.trans valid.shaped.size, fun request legal => ?_⟩
  obtain ⟨h', answer, result, -⟩ := serve_spec valid request legal
  exact ⟨h', answer, result⟩

/-- Any memory for a heap of numbers. -/
def blank : FibonacciHeap ℕ :=
  ⟨0, 0, 0, 0, 0, 0, fun _ => 0, fun _ => 0, fun _ => 0, fun _ => 0, fun _ => 0, fun _ => 0,
    fun _ => 0, fun _ => .notQueued, fun _ => 0⟩

/-- Three items, one of which is deleted: the other two are linked. -/
theorem fibonacciHeap_structure_linked : ∃ (h : FibonacciHeap ℕ) (keys : ℕ → Option ℕ),
    QueueReach 3 (new 3 blank) serve (fun _ _ => True) h keys ∧ keys 0 = none ∧
      h.status 2 = .unmarkedChild ∧ h.pred 2 = 1 ∧ h.rank 1 = 1 ∧ h.Consistent 3 := by
  have reach1 : QueueReach 3 (new 3 blank) serve (fun _ _ => True) _ _ :=
    .step (.insert 0 1) .start ⟨by decide, rfl⟩ trivial rfl
  have reach2 := step (.insert 1 2) reach1 ⟨by decide, rfl⟩ trivial rfl
  have reach3 := step (.insert 2 3) reach2 ⟨by decide, rfl⟩ trivial rfl
  have reach4 := step .delete reach3 ⟨0, Option.some_ne_none _⟩ trivial rfl
  exact ⟨_, _, reach4, rfl, rfl, rfl, rfl, (fibonacciHeap_structure reach4).1⟩

/-! ## Selection of minima -/

/-- `Peek` and `Delete` select a queued item of minimum key. -/
def SelectsMinimum (h : FibonacciHeap K) (keys : ℕ → Option K) : Prop :=
  (∃ x, keys x ≠ none) → ∃ w, h.peek = .ok w ∧ (∃ h', h.delete = .ok (h', w)) ∧ IsMinimum keys w

theorem Valid.selectsMinimum_iff (valid : h.Valid n keys) : h.SelectsMinimum keys ↔ h.Least := by
  have peek : ∀ x, keys x ≠ none → h.peek = .ok h.minimal := by
    intro x known
    exact if_neg (valid.shaped.card_ne_zero.2 ⟨x, valid.keyed.ne_none.1 known⟩)
  constructor
  · intro selects x present
    have known := valid.keyed.ne_none.2 present
    obtain ⟨w, res, -, k, val, least⟩ := selects ⟨x, known⟩
    rw [peek x known] at res
    cases res
    have root := valid.shaped.minimal_of_queued present
    rw [valid.keyed, if_neg (by simp [root])] at val
    cases val
    exact least x (h.key x) (by rw [valid.keyed, if_neg present])
  · rintro least ⟨x, known⟩
    have root := valid.shaped.minimal_of_queued (valid.keyed.ne_none.1 known)
    obtain ⟨h', res, -⟩ := delete_spec valid ⟨x, known⟩
    refine ⟨h.minimal, peek x known, ⟨h', res⟩, h.key h.minimal, ?_, fun y l val => ?_⟩
    · rw [valid.keyed, if_neg (by simp [root])]
    · have present := valid.keyed.ne_none.1 (by simp [val] : keys y ≠ none)
      rw [valid.keyed, if_neg present] at val
      cases val
      exact least y present

/-- **A Fibonacci heap selects minima as long as all changes of keys are harmless.** In every run of
harmless requests `Peek` and `Delete` select a minimum in every state, every legal request is
served, and the next state selects minima if and only if the request is harmless. -/
theorem fibonacciHeap_selects {n : ℕ} {memory : FibonacciHeap K} {keys : ℕ → Option K}
    (reach : QueueReach n (new n memory) serve Harmless h keys) :
    h.SelectsMinimum keys ∧ ∀ request : QueueRequest K, request.Legal n keys →
      ∃ h' answer, serve request h = .ok (h', answer) ∧
        (h'.SelectsMinimum (request.keysAfter keys answer) ↔ h.Harmless request) := by
  have invariant : h.Valid n keys ∧ h.Least := by
    refine reach.invariant (fun h keys => h.Valid n keys ∧ h.Least)
      ⟨new_valid n memory, (new_valid n memory).least_of_empty⟩ ?_
    rintro h keys ⟨valid, least⟩ request legal harmless h' answer result
    obtain ⟨h1, answer1, result1, valid1, least1⟩ := serve_spec valid request legal
    rw [result1] at result
    cases result
    exact ⟨valid1, (least1 least).2 harmless⟩
  obtain ⟨valid, least⟩ := invariant
  refine ⟨valid.selectsMinimum_iff.2 least, fun request legal => ?_⟩
  obtain ⟨h', answer, result, valid', least'⟩ := serve_spec valid request legal
  exact ⟨h', answer, result, valid'.selectsMinimum_iff.trans (least' least)⟩

/-- Two items, the second of which gets a smaller key that is still greater than that of the
first. -/
theorem fibonacciHeap_selects_first : ∃ (h : FibonacciHeap ℕ) (keys : ℕ → Option ℕ),
    QueueReach 3 (new 3 blank) serve Harmless h keys ∧ keys 1 = some 2 ∧ h.peek = .ok 0 ∧
      h.SelectsMinimum keys := by
  have reach1 : QueueReach 3 (new 3 blank) serve Harmless _ _ :=
    .step (.insert 0 1) .start ⟨by decide, rfl⟩ trivial rfl
  have reach2 := step (.insert 1 3) reach1 ⟨by decide, rfl⟩ trivial rfl
  have reach3 := step (.changeKey 1 2) reach2 (Option.some_ne_none _) (fun _ _ => by decide) rfl
  exact ⟨_, _, reach3, rfl, rfl, (fibonacciHeap_selects reach3).1⟩

/-- The key of the second item falls below that of the first, which is still selected. -/
theorem fibonacciHeap_stale_minimum : ∃ (h : FibonacciHeap ℕ) (keys : ℕ → Option ℕ),
    QueueReach 3 (new 3 blank) serve (fun _ _ => True) h keys ∧ keys 0 = some 1 ∧
      keys 1 = some 0 ∧ h.peek = .ok 0 ∧ ¬ h.SelectsMinimum keys := by
  have reach1 : QueueReach 3 (new 3 blank) serve (fun _ _ => True) _ _ :=
    .step (.insert 0 1) .start ⟨by decide, rfl⟩ trivial rfl
  have reach2 := step (.insert 1 2) reach1 ⟨by decide, rfl⟩ trivial rfl
  have reach3 := step (.changeKey 1 0) reach2 (Option.some_ne_none _) trivial rfl
  refine ⟨_, _, reach3, rfl, rfl, rfl, fun selects => ?_⟩
  obtain ⟨w, result, -, k, value, least⟩ := selects ⟨0, Option.some_ne_none _⟩
  cases result
  cases value
  exact absurd (least 1 0 rfl) (by decide)

end Goblin.FibonacciHeap
