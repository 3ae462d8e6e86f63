import Goblin.FibonacciForest

/-!
# Consolidation of a Fibonacci heap

The first loop of `Restore` visits the roots in the order of their list. A root is put into the
bucket of its rank, or linked with the root that it finds there. `Link` moves on to the next rank
every time, and a rank is less than the number of buckets since the children of an item are distinct
(`Forest.rank_lt`); so no access is out of range, and the recursion ends (`link_spec`).
-/

set_option autoImplicit false

namespace Goblin.FibonacciHeap

open Library List Function

variable {K : Type} {h h1 h2 : FibonacciHeap K} {height : ℕ → ℕ} {v w x y z : ℕ}

/-! ## Attaching a root -/

theorem attach_status : (h.attach v w).status = update h.status v .unmarkedChild := rfl

theorem attach_pred : (h.attach v w).pred = update h.pred v w := rfl

theorem attach_previous : (h.attach v w).previous =
    if h.first w = h.undefined then update h.previous v h.undefined
    else update (update h.previous v h.undefined) (h.first w) v := rfl

theorem attach_isChild_self : (h.attach v w).isChild v = true :=
  isChild_iff.2 (.inl (update_self _ _ _))

theorem attach_isChild_of_ne (ne : y ≠ v) : (h.attach v w).isChild y = h.isChild y :=
  isChild_of_status_eq (update_of_ne ne _ _)

theorem Forest.attach (forest : h.Forest height fun _ => 0) (rootV : h.status v = .rootNode)
    (rootW : h.status w = .rootNode) (ne : v ≠ w) :
    (h.attach v w).Forest (update height w (max (height w) (height v + 1))) fun _ => 0 := by
  have notChildV : h.isChild v = false := isChild_eq_false.2 (.inl rootV)
  have notChildW : h.isChild w = false := isChild_eq_false.2 (.inl rootW)
  have lowV : v < h.n := forest.bounded v (by simp [rootV])
  have queued : ∀ x, (h.attach v w).status x ≠ .notQueued ↔ h.status x ≠ .notQueued := by
    intro x
    by_cases here : x = v
    · rw [here, attach_status, update_self, rootV]
      simp
    · rw [attach_status, update_of_ne here]
  have raised : ∀ x, height x ≤ update height w (max (height w) (height v + 1)) x := by
    intro x
    by_cases here : x = w
    · rw [here, update_self]
      exact le_max_left _ _
    · rw [update_of_ne here]
  constructor
  case undefined_eq => exact forest.undefined_eq
  case k_eq => exact forest.k_eq
  case bounded => exact fun x present => forest.bounded x ((queued x).1 present)
  case climbs =>
    intro y child
    by_cases here : y = v
    · rw [here, attach_pred, update_self, update_self, update_of_ne ne]
      exact lt_of_lt_of_le (Nat.lt_succ_self _) (le_max_right _ _)
    rw [attach_isChild_of_ne here] at child
    have neW : y ≠ w := by
      rintro rfl
      rw [notChildW] at child
      cases child
    rw [attach_pred, update_of_ne here, update_of_ne neW]
    exact (forest.climbs y child).trans_le (raised _)
  case parent =>
    intro y child
    rw [queued]
    by_cases here : y = v
    · rw [here, attach_pred, update_self, rootW]
      simp
    · rw [attach_isChild_of_ne here] at child
      rw [attach_pred, update_of_ne here]
      exact forest.parent y child
  case children =>
    intro x present
    obtain ⟨l, chain, back, mem, rank⟩ := forest.children x ((queued x).1 present)
    have notV : v ∉ l := fun member => by
      rw [((mem v).1 member).1] at notChildV
      cases notChildV
    have chain' : Chain (h.attach v w).next h.undefined (h.first x) l :=
      chain.update_of_notMem notV _
    by_cases here : x = w
    · subst here
      refine ⟨v :: l, ⟨update_self _ _ _, ?_, ?_⟩, ?_, fun y => ?_, ?_⟩
      · change v ≠ h.undefined
        rw [forest.undefined_eq]
        omega
      · have link : (h.attach v x).next v = h.first x := update_self _ _ _
        rw [link]
        exact chain'
      · cases l with
        | nil =>
          have empty : h.first x = h.undefined := chain
          refine ⟨?_, trivial⟩
          rw [attach_previous, if_pos empty, update_self]
          rfl
        | cons a l =>
          have head : h.first x = a := chain.1
          have inside : h.first x ≠ h.undefined := by
            rw [head]
            exact chain.2.1
          have previous_eq : (h.attach v x).previous =
              update (update h.previous v h.undefined) a v := by
            rw [attach_previous, if_neg inside, head]
          have neA : v ≠ a := fun eq => notV (by simp [eq])
          refine ⟨?_, ?_, ?_⟩
          · rw [previous_eq, update_of_ne neA, update_self]
            rfl
          · rw [previous_eq, update_self]
          · refine back.2.congr fun z member => ?_
            have neZ : z ≠ a := by
              rintro rfl
              exact (nodup_cons.1 chain.nodup).1 member
            have neV : z ≠ v := by
              rintro rfl
              exact notV (mem_cons_of_mem a member)
            rw [previous_eq, update_of_ne neZ, update_of_ne neV]
      · by_cases new : y = v
        · rw [new, attach_isChild_self, attach_pred, update_self]
          simp
        · rw [attach_isChild_of_ne new, attach_pred, update_of_ne new, ← mem y]
          simp [new]
      · have rank_eq : (h.attach v x).rank x = h.rank x + 1 := update_self _ _ _
        rw [rank_eq, rank]
        simp
    · have first_eq : (h.attach v w).first x = h.first x := update_of_ne here _ _
      refine ⟨l, by rw [first_eq]; exact chain', ?_, fun y => ?_, ?_⟩
      · refine back.congr fun z member => ?_
        have neV : z ≠ v := by
          rintro rfl
          exact notV member
        rw [attach_previous]
        split_ifs with empty
        · exact update_of_ne neV _ _
        -- the first child of `w` has another parent
        have neFirst : z ≠ h.first w := by
          rintro rfl
          obtain ⟨k, chainW, -, memW, -⟩ := forest.children w (by simp [rootW])
          cases k with
          | nil => exact empty chainW
          | cons a k =>
            have inW := (memW a).1 mem_cons_self
            have inX := (mem _).1 member
            rw [chainW.1] at inX
            exact here (inX.2.symm.trans inW.2)
        rw [update_of_ne neFirst, update_of_ne neV]
      · by_cases new : y = v
        · rw [new, attach_pred, update_self]
          simp only [notV, false_iff, not_and]
          exact fun _ eq => here eq.symm
        · rw [attach_isChild_of_ne new, attach_pred, update_of_ne new]
          exact mem y
      · have rank_eq : (h.attach v w).rank x = h.rank x := update_of_ne here _ _
        rw [rank_eq]
        exact rank

/-! ## Linking -/

/-- The second heap is the first one after some roots have become children. -/
structure Tightens (h h' : FibonacciHeap K) : Prop where
  n_eq : h'.n = h.n
  k_eq : h'.k = h.k
  undefined_eq : h'.undefined = h.undefined
  card_eq : h'.card = h.card
  key_eq : h'.key = h.key
  nextLink_eq : h'.nextLink = h.nextLink
  firstLink_eq : h'.firstLink = h.firstLink
  minimal_eq : h'.minimal = h.minimal
  status_eq : ∀ z, h.status z ≠ .rootNode → h'.status z = h.status z
  status_root : ∀ z, h.status z = .rootNode →
    h'.status z = .rootNode ∨ h'.status z = .unmarkedChild

theorem Tightens.refl (h : FibonacciHeap K) : Tightens h h :=
  ⟨rfl, rfl, rfl, rfl, rfl, rfl, rfl, rfl, fun _ _ => rfl, fun _ root => .inl root⟩

theorem Tightens.trans (first : Tightens h h1) (second : Tightens h1 h2) : Tightens h h2 := by
  refine ⟨second.n_eq.trans first.n_eq, second.k_eq.trans first.k_eq,
    second.undefined_eq.trans first.undefined_eq, second.card_eq.trans first.card_eq,
    second.key_eq.trans first.key_eq, second.nextLink_eq.trans first.nextLink_eq,
    second.firstLink_eq.trans first.firstLink_eq, second.minimal_eq.trans first.minimal_eq,
    fun z notRoot => ?_, fun z root => ?_⟩
  · have eq := first.status_eq z notRoot
    rw [second.status_eq z (eq ▸ notRoot), eq]
  · rcases first.status_root z root with still | child
    · exact second.status_root z still
    · refine .inr ?_
      rw [second.status_eq z (by simp [child]), child]

theorem Tightens.status_notQueued (tightens : Tightens h h1) :
    h1.status z = .notQueued ↔ h.status z = .notQueued := by
  by_cases root : h.status z = .rootNode
  · rcases tightens.status_root z root with still | child
    · simp [still, root]
    · simp [child, root]
  · rw [tightens.status_eq z root]

/-- The buckets hold roots of the right ranks. -/
def Buckets (h : FibonacciHeap K) : Prop :=
  ∀ r, r < h.k → h.bucket r ≠ h.undefined →
    h.status (h.bucket r) = .rootNode ∧ h.rank (h.bucket r) = r

/-- One of two roots of the same rank is in their bucket; after `Link` has looked for both of
them the bucket is empty. -/
theorem vacate_vacate {r : ℕ} (low : r < h.k) (rankV : h.rank v = r) (rankW : h.rank w = r)
    (one : h.bucket r = v ∨ h.bucket r = w) (notW : w ≠ h.undefined) :
    (do
      let h1 ← h.vacate v
      h1.vacate w) = .ok { h with bucket := update h.bucket r h.undefined } := by
  by_cases first : v = h.bucket r
  · have step : h.vacate v = .ok { h with bucket := update h.bucket r h.undefined } := by
      simp only [vacate, bucketAt, rankV, if_pos low]
      change Except.ok (if v = h.bucket r then _ else h) = _
      rw [if_pos first]
    rw [step]
    change (vacate _ w) = _
    simp only [vacate, bucketAt, rankW, if_pos low, update_self]
    change Except.ok (if w = h.undefined then _ else _) = _
    rw [if_neg notW]
  · have second : w = h.bucket r := (one.resolve_left fun eq => first eq.symm).symm
    have step : h.vacate v = .ok h := by
      simp only [vacate, bucketAt, rankV, if_pos low]
      change Except.ok (if v = h.bucket r then _ else h) = _
      rw [if_neg first]
    rw [step]
    change (vacate h w) = _
    simp only [vacate, bucketAt, rankW, if_pos low]
    change Except.ok (if w = h.bucket r then _ else h) = _
    rw [if_pos second]

variable [LinearOrder K]

/-- The result of `Link`, and of the first loop of `Restore`. -/
structure LinkSpec (h h' : FibonacciHeap K) (height : ℕ → ℕ) : Prop where
  forest : h'.Forest height fun _ => 0
  ordered : h'.Ordered
  buckets : h'.Buckets
  tightens : Tightens h h'

/-- `Link` of the root `v` with the root of the same rank in the buckets. Afterwards there are
no other items in the buckets than before, and `v`. -/
theorem link_spec (fuel : ℕ) : ∀ (h : FibonacciHeap K) (height : ℕ → ℕ) (v w : ℕ),
    h.Forest height (fun _ => 0) → h.Ordered → h.Buckets → h.status v = .rootNode →
    h.bucket (h.rank v) = w → w ≠ h.undefined → v ≠ w → h.k < fuel + h.rank v →
    ∃ h' height', link fuel h v w = .ok h' ∧ LinkSpec h h' height' ∧
      ∀ r, r < h.k → h'.bucket r = h.undefined ∨ h'.bucket r = v ∨
        ∃ r', r' < h.k ∧ h.bucket r' = h'.bucket r := by
  induction fuel with
  | zero =>
    intro h height v w forest _ _ rootV _ _ _ enough
    have := forest.rank_lt (x := v) (by simp [rootV])
    omega
  | succ fuel ih =>
    intro h height v w forest ordered buckets rootV found defined ne enough
    have lowR : h.rank v < h.k := forest.rank_lt (by simp [rootV])
    obtain ⟨rootW, rankW⟩ := buckets (h.rank v) lowR (found ▸ defined)
    rw [found] at rootW rankW
    have lowV : v < h.n := forest.bounded v (by simp [rootV])
    have lowW : w < h.n := forest.bounded w (by simp [rootW])
    -- the root with the smaller key becomes the parent
    obtain ⟨a, b, pair, rootA, rootB, rankA, rankB, le, neAB, oneOf, parentOf⟩ :
        ∃ a b, (if h.key v < h.key w then (w, v) else (v, w)) = (a, b) ∧
          h.status a = .rootNode ∧ h.status b = .rootNode ∧ h.rank a = h.rank v ∧
          h.rank b = h.rank v ∧ h.key b ≤ h.key a ∧ a ≠ b ∧
          (h.bucket (h.rank v) = a ∨ h.bucket (h.rank v) = b) ∧ (b = v ∨ b = w) := by
      by_cases less : h.key v < h.key w
      · exact ⟨w, v, if_pos less, rootW, rootV, rankW, rfl, less.le, ne.symm, .inl found, .inl rfl⟩
      · exact ⟨v, w, if_neg less, rootV, rootW, rfl, rankW, not_lt.1 less, ne, .inr found, .inr rfl⟩
    have notB : b ≠ h.undefined := by
      have := forest.bounded b (by simp [rootB])
      rw [forest.undefined_eq]
      omega
    let h1 : FibonacciHeap K :=
      { h with bucket := update h.bucket (h.rank v) h.undefined }
    let h2 : FibonacciHeap K := h1.attach a b
    have forest1 : h1.Forest height fun _ => 0 := ⟨forest.undefined_eq, forest.k_eq,
      forest.bounded, forest.climbs, forest.parent, forest.children⟩
    have forest2 := forest1.attach rootA rootB neAB
    have rank2 : h2.rank = update h.rank b (h.rank b + 1) := rfl
    have rankB2 : h2.rank b = h.rank v + 1 := by rw [rank2, update_self, rankB]
    have rootB2 : h2.status b = .rootNode := by
      rw [attach_status, update_of_ne neAB.symm]
      exact rootB
    have lowR2 : h.rank v + 1 < h.k := by
      have low := forest2.rank_lt (x := b) (by rw [rootB2]; simp)
      rwa [rankB2] at low
    have ordered2 : h2.Ordered := by
      intro y child
      by_cases here : y = a
      · rw [here, attach_pred, update_self]
        exact le
      · rw [attach_isChild_of_ne here] at child
        rw [attach_pred, update_of_ne here]
        exact ordered y child
    have tightens2 : Tightens h h2 := by
      refine ⟨rfl, rfl, rfl, rfl, rfl, rfl, rfl, rfl, fun z notRoot => ?_, fun z root => ?_⟩
      · refine update_of_ne ?_ _ _
        rintro rfl
        exact notRoot rootA
      · by_cases here : z = a
        · exact .inr (by rw [here]; exact update_self _ _ _)
        · exact .inl (by rw [← root]; exact update_of_ne here _ _)
    have bucket2 : h2.bucket = update h.bucket (h.rank v) h.undefined := rfl
    -- the other buckets hold roots that are neither `a` nor `b`
    have others : ∀ r, r < h.k → h2.bucket r ≠ h.undefined →
        r ≠ h.rank v ∧ h.bucket r ≠ h.undefined ∧ h2.bucket r = h.bucket r := by
      intro r low present
      have neR : r ≠ h.rank v := by
        rintro rfl
        rw [bucket2, update_self] at present
        exact present rfl
      rw [bucket2, update_of_ne neR] at present ⊢
      exact ⟨neR, present, rfl⟩
    have buckets2 : h2.Buckets := by
      intro r low present
      obtain ⟨neR, present', eq⟩ := others r low present
      obtain ⟨root, rank⟩ := buckets r low present'
      have neA : h.bucket r ≠ a := fun equal => neR (by rw [← rank, equal, rankA])
      have neB : h.bucket r ≠ b := fun equal => neR (by rw [← rank, equal, rankB])
      rw [eq]
      refine ⟨?_, ?_⟩
      · rw [attach_status, update_of_ne neA]
        exact root
      · rw [rank2, update_of_ne neB]
        exact rank
    have entries2 : ∀ r, r < h.k → h2.bucket r = h.undefined ∨
        ∃ r', r' < h.k ∧ h.bucket r' = h2.bucket r := by
      intro r low
      by_cases empty : h2.bucket r = h.undefined
      · exact .inl empty
      · obtain ⟨-, -, eq⟩ := others r low empty
        exact .inr ⟨r, low, eq.symm⟩
    have entryB : b = v ∨ ∃ r', r' < h.k ∧ h.bucket r' = b :=
      parentOf.imp_right fun eq => ⟨h.rank v, lowR, found.trans eq.symm⟩
    have start : link (fuel + 1) h v w =
        if h2.bucket (h2.rank b) = h.undefined then .ok (h2.occupy b)
        else link fuel h2 b (h2.bucket (h2.rank b)) := by
      have legalV : ¬ h.n ≤ v := not_le.2 lowV
      have legalW : ¬ h.n ≤ w := not_le.2 lowW
      have isRootV : ¬ h.status v ≠ .rootNode := not_not.2 rootV
      have isRootW : ¬ h.status w ≠ .rootNode := not_not.2 rootW
      have vacated := vacate_vacate lowR rankA rankB oneOf notB
      have access : h2.bucketAt (h2.rank b) = .ok (h2.bucket (h2.rank b)) := by
        rw [bucketAt, rankB2]
        exact if_pos lowR2
      simp only [link, if_neg legalV, if_neg legalW, if_neg isRootV, if_neg isRootW, pair]
      cases first : h.vacate a with
      | error e =>
        rw [first] at vacated
        cases vacated
      | ok p =>
        rw [first] at vacated
        change (do
          let p' ← p.vacate b
          let c ← (p'.attach a b).bucketAt ((p'.attach a b).rank b)
          if c = (p'.attach a b).undefined then return (p'.attach a b).occupy b
            else link fuel (p'.attach a b) b c) = _
        change p.vacate b = _ at vacated
        rw [vacated]
        change (do
          let c ← h2.bucketAt (h2.rank b)
          if c = h2.undefined then return h2.occupy b else link fuel h2 b c) = _
        rw [access]
        rfl
    rw [start]
    split_ifs with empty
    · refine ⟨h2.occupy b, _, rfl, ⟨⟨forest2.undefined_eq, forest2.k_eq, forest2.bounded,
        forest2.climbs, forest2.parent, forest2.children⟩, ordered2, ?_, ?_⟩, ?_⟩
      · intro r low present
        by_cases here : r = h2.rank b
        · have val : (h2.occupy b).bucket r = b := by
            rw [here]
            exact update_self _ _ _
          rw [val]
          exact ⟨rootB2, here.symm⟩
        · have val : (h2.occupy b).bucket r = h2.bucket r := update_of_ne here _ _
          rw [val] at present ⊢
          exact buckets2 r low present
      · exact tightens2.trans ⟨rfl, rfl, rfl, rfl, rfl, rfl, rfl, rfl, fun _ _ => rfl,
          fun _ root => .inl root⟩
      · intro r low
        by_cases here : r = h2.rank b
        · have val : (h2.occupy b).bucket r = b := by
            rw [here]
            exact update_self _ _ _
          rw [val]
          exact .inr entryB
        · have val : (h2.occupy b).bucket r = h2.bucket r := update_of_ne here _ _
          rw [val]
          exact (entries2 r low).imp_right .inr
    · have lowB : h2.rank b < h.k := by
        rw [rankB2]
        exact lowR2
      have neNext : b ≠ h2.bucket (h2.rank b) := by
        intro eq
        obtain ⟨neR, present, old⟩ := others _ lowB empty
        obtain ⟨-, rank⟩ := buckets _ lowB present
        rw [← old, ← eq, rankB] at rank
        exact neR rank.symm
      obtain ⟨h', height', res, spec, entries⟩ := ih h2 _ b _ forest2 ordered2 buckets2 rootB2
        rfl empty neNext (by
          change h.k < fuel + h2.rank b
          rw [rankB2]
          omega)
      refine ⟨h', height', res, ⟨spec.forest, spec.ordered, spec.buckets,
        tightens2.trans spec.tightens⟩, fun r low => ?_⟩
      rcases entries r low with none | eq | ⟨r', low', old⟩
      · exact .inl none
      · rw [eq]
        exact .inr entryB
      · rcases entries2 r' low' with none | ⟨r'', low'', older⟩
        · rw [old] at none
          exact .inl none
        · exact .inr (.inr ⟨r'', low'', older.trans old⟩)

/-! ## The first loop -/

/-- The items that have not been visited are not in the buckets. -/
def Unvisited (h : FibonacciHeap K) (rest : List ℕ) : Prop :=
  ∀ r, r < h.k → h.bucket r ≠ h.undefined → h.bucket r ∉ rest

theorem consolidate_spec (rest : List ℕ) : ∀ (fuel : ℕ) (h : FibonacciHeap K) (height : ℕ → ℕ)
    (x : ℕ), h.Forest height (fun _ => 0) → h.Ordered → h.Buckets → h.Unvisited rest →
    Chain h.nextLink h.undefined x rest → rest.length < fuel →
    ∃ h' height', consolidate fuel h x = .ok h' ∧ LinkSpec h h' height' := by
  induction rest with
  | nil =>
    intro fuel h height x forest ordered buckets _ chain enough
    obtain ⟨fuel, rfl⟩ : ∃ f, fuel = f + 1 := ⟨fuel - 1, by simp at enough; omega⟩
    have stop : ¬ x ≠ h.undefined := not_not.2 chain
    exact ⟨h, height, by rw [consolidate, if_neg stop], forest, ordered, buckets, .refl h⟩
  | cons a rest ih =>
    intro fuel h height x forest ordered buckets unvisited chain enough
    obtain ⟨fuel, rfl⟩ : ∃ f, fuel = f + 1 := ⟨fuel - 1, by simp at enough; omega⟩
    have nodup := chain.nodup
    obtain ⟨rfl, inside, after⟩ := chain
    have notRest : x ∉ rest := (nodup_cons.1 nodup).1
    have later : h.Unvisited rest := fun r low present mem =>
      unvisited r low present (mem_cons_of_mem x mem)
    -- the visit of `x`
    have visit : ∃ h1 height1, (if h.status x = .rootNode then do
          let b ← h.bucketAt (h.rank x)
          if b = h.undefined then return h.occupy x else link (h.n + 1) h x b
        else .ok h) = .ok h1 ∧ LinkSpec h h1 height1 ∧ h1.Unvisited rest := by
      by_cases root : h.status x = .rootNode
      · have lowR : h.rank x < h.k := forest.rank_lt (by simp [root])
        have access : h.bucketAt (h.rank x) = .ok (h.bucket (h.rank x)) := if_pos lowR
        rw [if_pos root, access]
        change ∃ h1 height1, (if h.bucket (h.rank x) = h.undefined then .ok (h.occupy x)
          else link (h.n + 1) h x (h.bucket (h.rank x))) = .ok h1 ∧ _
        split_ifs with empty
        · refine ⟨h.occupy x, height, rfl, ⟨⟨forest.undefined_eq, forest.k_eq, forest.bounded,
            forest.climbs, forest.parent, forest.children⟩, ordered, ?_,
            ⟨rfl, rfl, rfl, rfl, rfl, rfl, rfl, rfl, fun _ _ => rfl, fun _ eq => .inl eq⟩⟩, ?_⟩
          · intro r low present
            by_cases here : r = h.rank x
            · have val : (h.occupy x).bucket r = x := by
                rw [here]
                exact update_self _ _ _
              rw [val]
              exact ⟨root, here.symm⟩
            · have val : (h.occupy x).bucket r = h.bucket r := update_of_ne here _ _
              rw [val] at present ⊢
              exact buckets r low present
          · intro r low present
            by_cases here : r = h.rank x
            · have val : (h.occupy x).bucket r = x := by
                rw [here]
                exact update_self _ _ _
              rw [val]
              exact notRest
            · have val : (h.occupy x).bucket r = h.bucket r := update_of_ne here _ _
              rw [val] at present ⊢
              exact later r low present
        · have ne : x ≠ h.bucket (h.rank x) := fun eq =>
            unvisited _ lowR empty (by rw [← eq]; simp)
          obtain ⟨h1, height1, res, spec, entries⟩ := link_spec (h.n + 1) h height x _ forest
            ordered buckets root rfl empty ne (by rw [forest.k_eq]; omega)
          refine ⟨h1, height1, res, spec, fun r low present mem => ?_⟩
          rw [spec.tightens.k_eq] at low
          rw [spec.tightens.undefined_eq] at present
          rcases entries r low with none | eq | ⟨r', low', old⟩
          · exact present none
          · rw [eq] at mem
            exact notRest mem
          · rw [← old] at present mem
            exact later r' low' present mem
      · rw [if_neg root]
        exact ⟨h, height, rfl, ⟨forest, ordered, buckets, .refl h⟩, later⟩
    obtain ⟨h1, height1, res1, spec1, later1⟩ := visit
    have after1 : Chain h1.nextLink h1.undefined (h1.nextLink x) rest := by
      rw [spec1.tightens.nextLink_eq, spec1.tightens.undefined_eq]
      exact after
    obtain ⟨h', height', res, spec⟩ := ih fuel h1 height1 (h1.nextLink x) spec1.forest
      spec1.ordered spec1.buckets later1 after1 (by simpa using enough)
    refine ⟨h', height', ?_, spec.forest, spec.ordered, spec.buckets,
      spec1.tightens.trans spec.tightens⟩
    rw [consolidate, if_pos inside, res1]
    exact res

/-! ## The second loop -/

/-- `minimal` is the first minimum of these roots. -/
def MinimalOf (h : FibonacciHeap K) (roots : List ℕ) : Prop :=
  (roots = [] ∧ h.minimal = h.undefined) ∨
    (h.minimal ∈ roots ∧ ∀ z ∈ roots, h.key h.minimal ≤ h.key z)

theorem MinimalOf.snoc {roots : List ℕ} (minimal : h.MinimalOf roots)
    (defined : ∀ z ∈ roots, z ≠ h.undefined) : (h.updateMinimal x).MinimalOf (roots ++ [x]) := by
  rcases minimal with ⟨rfl, none⟩ | ⟨mem, least⟩
  · have val : h.updateMinimal x = { h with minimal := x } := if_pos (.inl none)
    rw [val]
    exact .inr ⟨by simp, fun z mem => by simp_all⟩
  by_cases less : h.minimal = h.undefined ∨ h.key x < h.key h.minimal
  · have val : h.updateMinimal x = { h with minimal := x } := if_pos less
    have smaller := less.resolve_left (defined _ mem)
    rw [val]
    refine .inr ⟨by simp, fun z memberZ => ?_⟩
    rcases mem_append.1 memberZ with old | new
    · exact smaller.le.trans (least z old)
    · rw [mem_singleton.1 new]
  · have val : h.updateMinimal x = h := if_neg less
    rw [val]
    refine .inr ⟨by simp [mem], fun z memberZ => ?_⟩
    rcases mem_append.1 memberZ with old | new
    · exact least z old
    · rw [mem_singleton.1 new]
      exact not_lt.1 fun smaller => less (.inr smaller)

/-- The second loop of `Restore` changes nothing but the list of roots and the minimum. -/
structure SweepSpec (h h' : FibonacciHeap K) (roots : List ℕ) : Prop where
  same : h' = { h with
    minimal := h'.minimal
    firstLink := h'.firstLink
    nextLink := h'.nextLink }
  chain : Chain h'.nextLink h.undefined h'.firstLink roots
  minimal : h'.MinimalOf roots

theorem sweep_spec (rest : List ℕ) : ∀ (fuel : ℕ) (h : FibonacciHeap K) (kept : List ℕ) (x : ℕ),
    Chain h.nextLink h.undefined h.firstLink (kept ++ rest) →
    Chain h.nextLink h.undefined x rest → h.MinimalOf kept → rest.length < fuel →
    ∃ h', sweep fuel h (kept.getLastD h.undefined) x = .ok h' ∧
      SweepSpec h h' (kept ++ rest.filter fun z => h.status z = .rootNode) := by
  induction rest with
  | nil =>
    intro fuel h kept x whole here minimal enough
    obtain ⟨fuel, rfl⟩ : ∃ f, fuel = f + 1 := ⟨fuel - 1, by simp at enough; omega⟩
    have stop : ¬ x ≠ h.undefined := not_not.2 here
    exact ⟨h, by rw [sweep, if_neg stop], rfl, whole, by simpa using minimal⟩
  | cons a rest ih =>
    intro fuel h kept x whole here minimal enough
    obtain ⟨fuel, rfl⟩ : ∃ f, fuel = f + 1 := ⟨fuel - 1, by simp at enough; omega⟩
    obtain ⟨rfl, inside, after⟩ := here
    by_cases root : h.status x = .rootNode
    · have isRoot : ¬ h.status x ≠ .rootNode := not_not.2 root
      have defined : ∀ z ∈ kept, z ≠ h.undefined := fun z mem =>
        whole.ne_nil z (by simp [mem])
      have minimal1 := minimal.snoc (x := x) defined
      generalize val : h.updateMinimal x = h1 at minimal1
      have eq1 : h1 = { h with minimal := h1.minimal } := by
        rw [← val, updateMinimal]
        split_ifs <;> rfl
      have nextLink1 : h1.nextLink = h.nextLink := by rw [eq1]
      have undefined1 : h1.undefined = h.undefined := by rw [eq1]
      have firstLink1 : h1.firstLink = h.firstLink := by rw [eq1]
      have status1 : h1.status = h.status := by rw [eq1]
      obtain ⟨h', res, spec⟩ := ih fuel h1 (kept ++ [x]) (h.nextLink x)
        (by rw [nextLink1, undefined1, firstLink1, append_assoc]; exact whole)
        (by rw [nextLink1, undefined1]; exact after) minimal1 (by simpa using enough)
      refine ⟨h', ?_, ?_, ?_, ?_⟩
      · rw [sweep, if_pos inside, if_neg isRoot, val, ← res]
        simp
      · rw [spec.same, eq1]
      · rw [← undefined1]
        have chain := spec.chain
        rw [append_assoc, status1] at chain
        simpa [root] using chain
      · have least := spec.minimal
        rw [append_assoc, status1] at least
        simpa [root] using least
    · let h1 : FibonacciHeap K :=
        { h with
          firstLink := if kept.getLastD h.undefined = h.undefined then h.nextLink x
            else h.firstLink
          nextLink := if kept.getLastD h.undefined = h.undefined then h.nextLink
            else update h.nextLink (kept.getLastD h.undefined) (h.nextLink x) }
      -- `x` is skipped
      have skipped : Chain h1.nextLink h.undefined h1.firstLink (kept ++ rest) ∧
          Chain h1.nextLink h.undefined (h.nextLink x) rest := by
        rcases eq_nil_or_concat kept with rfl | ⟨front, a, rfl⟩
        · have first : ([] : List ℕ).getLastD h.undefined = h.undefined := rfl
          have nextLink1 : h1.nextLink = h.nextLink := if_pos first
          have firstLink1 : h1.firstLink = h.nextLink x := if_pos first
          rw [nextLink1, firstLink1]
          exact ⟨after, after⟩
        rw [concat_eq_append] at whole
        have last : (front.concat a).getLastD h.undefined = a := by simp
        have definedA : a ≠ h.undefined := whole.ne_nil a (by simp)
        have notFirst : ¬ (front.concat a).getLastD h.undefined = h.undefined := by
          rw [last]
          exact definedA
        have nextLink1 : h1.nextLink = update h.nextLink a (h.nextLink x) := by
          have val : h1.nextLink = update h.nextLink
              ((front.concat a).getLastD h.undefined) (h.nextLink x) := if_neg notFirst
          rw [val, last]
        have firstLink1 : h1.firstLink = h.firstLink := if_neg notFirst
        have nodup := whole.nodup
        rw [append_assoc, singleton_append] at whole nodup
        rw [nextLink1, firstLink1, concat_eq_append, append_assoc, singleton_append]
        refine ⟨whole.skip, after.update_of_notMem (fun mem => ?_) _⟩
        have tail := (nodup_append.1 nodup).2.1
        exact (nodup_cons.1 tail).1 (by simp [mem])
      obtain ⟨h', res, spec⟩ := ih fuel h1 kept (h.nextLink x) skipped.1 skipped.2 minimal
        (by simpa using enough)
      refine ⟨h', ?_, ?_, ?_, ?_⟩
      · rw [sweep, if_pos inside, if_pos root]
        exact res
      · rw [spec.same]
      · simpa [root] using spec.chain
      · simpa [root] using spec.minimal

/-! ## Restoring -/

/-- The result of `Restore`, for a list of links that comprises all roots. -/
structure RestoreSpec (h h' : FibonacciHeap K) (height : ℕ → ℕ) (roots : List ℕ) : Prop where
  forest : h'.Forest height fun _ => 0
  ordered : h'.Ordered
  n_eq : h'.n = h.n
  card_eq : h'.card = h.card
  key_eq : h'.key = h.key
  status_notQueued : ∀ z, h'.status z = .notQueued ↔ h.status z = .notQueued
  chain : Chain h'.nextLink h'.undefined h'.firstLink roots
  mem_roots : ∀ z, z ∈ roots ↔ h'.status z = .rootNode
  minimal : h'.MinimalOf roots

theorem restore_spec {l : List ℕ} (forest : h.Forest height fun _ => 0) (ordered : h.Ordered)
    (chain : Chain h.nextLink h.undefined h.firstLink l) (low : ∀ z ∈ l, z < h.n)
    (complete : ∀ z, h.status z = .rootNode → z ∈ l) :
    ∃ h' height' roots, h.restore = .ok h' ∧ RestoreSpec h h' height' roots := by
  let h0 : FibonacciHeap K :=
    { h with
      bucket := fun _ => h.undefined
      minimal := h.undefined }
  have length : l.length < h.n + 1 := by
    have subset : l.toFinset ⊆ Finset.range h.n := fun z mem =>
      Finset.mem_range.2 (low z (mem_toFinset.1 mem))
    have count := Finset.card_le_card subset
    rw [toFinset_card_of_nodup chain.nodup, Finset.card_range] at count
    omega
  obtain ⟨h1, height1, res1, spec1⟩ := consolidate_spec l (h.n + 1) h0 height h.firstLink
    ⟨forest.undefined_eq, forest.k_eq, forest.bounded, forest.climbs, forest.parent,
      forest.children⟩ ordered (fun r _ present => absurd rfl present)
    (fun r _ present => absurd rfl present) chain length
  have tightens := spec1.tightens
  have chain1 : Chain h1.nextLink h1.undefined h1.firstLink l := by
    rw [tightens.nextLink_eq, tightens.undefined_eq, tightens.firstLink_eq]
    exact chain
  have minimal1 : h1.MinimalOf [] := .inl ⟨rfl, by
    rw [tightens.minimal_eq, tightens.undefined_eq]⟩
  have n1 : h1.n = h.n := tightens.n_eq
  obtain ⟨h', res, spec⟩ := sweep_spec l (h1.n + 1) h1 [] h1.firstLink chain1 chain1 minimal1
    (by rw [n1]; exact length)
  have eq := spec.same
  have status' : h'.status = h1.status := by rw [eq]
  have undefined' : h'.undefined = h1.undefined := by rw [eq]
  have n' : h'.n = h1.n := by rw [eq]
  have key' : h'.key = h1.key := by rw [eq]
  refine ⟨h', height1, l.filter (fun z => h1.status z = .rootNode), ?_, ?_, ?_, n'.trans n1, ?_,
    key'.trans tightens.key_eq, fun z => ?_, ?_, fun z => ?_, spec.minimal⟩
  · have start : h.restore = (do
        let p ← consolidate (h.n + 1) h0 h.firstLink
        sweep (p.n + 1) p p.undefined p.firstLink) := rfl
    rw [start, res1]
    exact res
  · rw [eq]
    exact ⟨spec1.forest.undefined_eq, spec1.forest.k_eq, spec1.forest.bounded,
      spec1.forest.climbs, spec1.forest.parent, spec1.forest.children⟩
  · rw [eq]
    exact spec1.ordered
  · rw [eq]
    exact tightens.card_eq
  · rw [status']
    exact tightens.status_notQueued
  · rw [undefined']
    exact spec.chain
  · rw [mem_filter, status']
    constructor
    · rintro ⟨-, root⟩
      simpa using root
    · intro root
      refine ⟨complete z ?_, by simpa using root⟩
      by_contra notRoot
      rw [tightens.status_eq z notRoot] at root
      exact notRoot root

end Goblin.FibonacciHeap
