import Goblin.IncidenceLists

/-!
# Incidence lists from a file

`ReadIncidences` reads one tuple of arcs for every node and links the arcs in the order of
the tuple. Nothing is compared with the sizes of the graph or with the other tuples. So the result
is consistent if and only if the tuples list every arc exactly once and nothing
else (`readIncidences_consistent_iff`).
-/

set_option autoImplicit false

namespace Goblin

open Library List Function

variable {n : ℕ}

namespace SparseState

/-! ## The reader -/

/-- The loop over the tuple of a node. -/
def readTuple (v : ℕ) : List ℕ → SparseState → SparseState
  | [], st => st
  | a :: AL, st =>
    let st := { st with startNode := update st.startNode a (some v) }
    readTuple v AL (match AL.head? with
      | none => st
      | some next => { st with right := update st.right a (some next) })

section

variable (tuples : ℕ → List ℕ) (st : SparseState)

/-- One step of the loop over the nodes. -/
def readNode (v : ℕ) : SparseState :=
  let st := readTuple v (tuples v) st
  match (tuples v).getLast? with
  | none => { st with first := update st.first v none }
  | some last =>
    { st with
      right := update st.right last (tuples v).head?
      first := update st.first v (tuples v).head? }

/-- The first `k` steps. The arrays are new, and only `SN` is initialised. -/
def readNodes (k : ℕ) : SparseState :=
  (List.range k).foldl (readNode tuples) { st with startNode := fun _ => none }

/-- `ReadIncidences` with the tuples that `GetTArcTuple` returns for the nodes. -/
def readIncidences : SparseState :=
  st.readNodes tuples st.nAct

/-- The tuples fit the graph, and the incidence lists are those of the tuples. -/
structure ReadsConsistently : Prop where
  inRange : ∀ v < st.nAct, ∀ a ∈ tuples v, a < 2 * st.mMax
  /-- Every arc occurs once, in the list of its start node. -/
  listed : ∀ a < 2 * st.mAct, ∃ v < st.nAct, (st.readIncidences tuples).startNode a = some v ∧
    (tuples v).count a = 1 ∧ ∀ w < st.nAct, w ≠ v → a ∉ tuples w
  lists : (st.readIncidences tuples).IncidenceLists

end

/-! ## One tuple -/

variable {tuples : ℕ → List ℕ} {st : SparseState} {v c k : ℕ}

theorem readTuple_frame (l : List ℕ) (st : SparseState) : readTuple v l st = { st with
      startNode := (readTuple v l st).startNode, right := (readTuple v l st).right } := by
  induction l generalizing st with
  | nil => rfl
  | cons a l ih =>
    rw [readTuple, ih]
    cases l.head? <;> rfl

theorem readTuple_startNode (l : List ℕ) (st : SparseState) :
    (readTuple v l st).startNode c = if c ∈ l then some v else st.startNode c := by
  induction l generalizing st with
  | nil => rfl
  | cons a l ih =>
    have step : ∀ next : Option ℕ, (match next with
        | none => { st with startNode := update st.startNode a (some v) }
        | some next => { st with
            startNode := update st.startNode a (some v)
            right := update st.right a (some next) } : SparseState).startNode =
        update st.startNode a (some v) := by
      intro next
      cases next <;> rfl
    rw [readTuple, ih, step]
    by_cases later : c ∈ l
    · simp [later]
    · by_cases here : c = a
      · simp [here]
      · simp [later, here]

theorem readTuple_right {l : List ℕ} (absent : c ∉ l) (st : SparseState) :
    (readTuple v l st).right c = st.right c := by
  induction l generalizing st with
  | nil => rfl
  | cons a l ih =>
    obtain ⟨other, later⟩ := not_or.1 (mt mem_cons.2 absent)
    rw [readTuple, ih later]
    cases l.head? with
    | none => rfl
    | some next => exact update_of_ne other _ _

/-- The last occurrence of an arc determines its link, unless it is the last one of the tuple. -/
theorem readTuple_next {d : ℕ} (p q : List ℕ) (absent : c ∉ d :: q) (st : SparseState) :
    (readTuple v (p ++ c :: d :: q) st).right c = some d := by
  induction p generalizing st with
  | nil =>
    rw [nil_append, readTuple, readTuple_right absent]
    exact update_self ..
  | cons a p ih =>
    rw [cons_append, readTuple]
    exact ih _

/-! ## One node -/

theorem readNode_startNode :
    (readNode tuples st v).startNode c = if c ∈ tuples v then some v else st.startNode c := by
  rw [← readTuple_startNode, readNode]
  cases (tuples v).getLast? <;> rfl

theorem readNode_first : (readNode tuples st v).first = update st.first v (tuples v).head? := by
  rw [readNode, readTuple_frame]
  cases last : (tuples v).getLast? with
  | none => rw [getLast?_eq_none_iff.1 last]; rfl
  | some last => rfl

theorem readNode_sizes : (readNode tuples st v).nAct = st.nAct ∧
    (readNode tuples st v).mAct = st.mAct ∧ (readNode tuples st v).left = st.left := by
  rw [readNode, readTuple_frame]
  cases (tuples v).getLast? <;> exact ⟨rfl, rfl, rfl⟩

theorem readNode_right (absent : c ∉ tuples v) : (readNode tuples st v).right c = st.right c := by
  rw [← readTuple_right (v := v) absent st, readNode]
  cases last : (tuples v).getLast? with
  | none => rfl
  | some last' =>
    refine update_of_ne (fun eq => absent ?_) _ _
    exact eq ▸ mem_of_getLast? last

theorem readNode_next {p q : List ℕ} (tuple : tuples v = p ++ c :: q) (absent : c ∉ q) :
    (readNode tuples st v).right c = q.head?.or (tuples v).head? := by
  cases q with
  | nil =>
    have last : (tuples v).getLast? = some c := by rw [tuple, getLast?_concat]
    rw [readNode, last]
    exact update_self ..
  | cons d q =>
    obtain ⟨last, isLast⟩ := getLast?_isSome.2 (cons_ne_nil d q) |> Option.isSome_iff_exists.1
    have whole : (tuples v).getLast? = some last := by
      rw [tuple, getLast?_append, getLast?_cons_cons, isLast]
      rfl
    have other : c ≠ last := fun eq => absent (eq ▸ mem_of_getLast? isLast)
    rw [readNode, whole]
    refine (update_of_ne other _ _).trans ?_
    rw [tuple]
    exact readTuple_next p q absent st

/-! ## All nodes -/

/-- What has been read for the nodes below `k`. -/
structure ReadInv (tuples : ℕ → List ℕ) (st : SparseState) (k : ℕ) (st' : SparseState) :
    Prop where
  nAct : st'.nAct = st.nAct
  mAct : st'.mAct = st.mAct
  left : st'.left = st.left
  start : ∀ v < k, ∀ c ∈ tuples v, (∀ w < k, v < w → c ∉ tuples w) → st'.startNode c = some v
  first : ∀ v < k, st'.first v = (tuples v).head?
  next : ∀ v < k, ∀ p c q, tuples v = p ++ c :: q → c ∉ q →
    (∀ w < k, v < w → c ∉ tuples w) → st'.right c = q.head?.or (tuples v).head?

theorem readNodes_spec (k : ℕ) : ReadInv tuples st k (st.readNodes tuples k) := by
  induction k with
  | zero => exact ⟨rfl, rfl, rfl, by simp, by simp, by simp⟩
  | succ k ih =>
    have step : st.readNodes tuples (k + 1) = readNode tuples (st.readNodes tuples k) k := by
      rw [readNodes, range_succ, foldl_concat]
      rfl
    obtain ⟨nAct, mAct, left⟩ := @readNode_sizes tuples (st.readNodes tuples k) k
    rw [step]
    refine ⟨nAct.trans ih.nAct, mAct.trans ih.mAct, left.trans ih.left, ?_, ?_, ?_⟩
    · intro v low c mem later
      rw [readNode_startNode]
      rcases Nat.lt_succ_iff_lt_or_eq.1 low with earlier | rfl
      · rw [if_neg (later k (Nat.lt_succ_self k) earlier)]
        exact ih.start v earlier c mem fun w lowW => later w (Nat.lt_succ_of_lt lowW)
      · rw [if_pos mem]
    · intro v low
      rw [readNode_first]
      rcases Nat.lt_succ_iff_lt_or_eq.1 low with earlier | rfl
      · rw [update_of_ne earlier.ne, ih.first v earlier]
      · rw [update_self]
    · intro v low p c q tuple absent later
      rcases Nat.lt_succ_iff_lt_or_eq.1 low with earlier | rfl
      · rw [readNode_right (later k (Nat.lt_succ_self k) earlier)]
        exact ih.next v earlier p c q tuple absent fun w lowW => later w (Nat.lt_succ_of_lt lowW)
      · exact readNode_next tuple absent

/-! ## Consistent tuples -/

/-- The tuples of different nodes have no arc in common. -/
def Apart (tuples : ℕ → List ℕ) (n : ℕ) : Prop :=
  ∀ v < n, ∀ w < n, v ≠ w → ∀ c ∈ tuples v, c ∉ tuples w

theorem links_of_readInv {st' : SparseState} (inv : ReadInv tuples st n st')
    (apart : Apart tuples n) (low : v < n) (nodup : (tuples v).Nodup) :
    Links st'.right (tuples v) (tuples v).head? := by
  suffices ∀ p q, tuples v = p ++ q → Links st'.right q (tuples v).head? from this [] _ rfl
  intro p q
  induction q generalizing p with
  | nil => exact fun _ => trivial
  | cons c q ih =>
    intro tuple
    have mem : c ∈ tuples v := by simp [tuple]
    have absent : c ∉ q := by
      rw [tuple, nodup_append] at nodup
      exact (nodup_cons.1 nodup.2.1).1
    refine ⟨inv.next v low p c q tuple absent ?_, ih (p ++ [c]) (by simp [tuple])⟩
    exact fun w lowW less => apart v low w lowW less.ne c mem

theorem perm_iff {m : ℕ} : ((List.range n).flatMap tuples).Perm (List.range m) ↔
    (∀ v < n, (tuples v).Nodup) ∧ Apart tuples n ∧ ∀ a, (∃ v < n, a ∈ tuples v) ↔ a < m := by
  have members : ∀ a, a ∈ (List.range n).flatMap tuples ↔ ∃ v < n, a ∈ tuples v := by simp
  have nodup : ((List.range n).flatMap tuples).Nodup ↔
      (∀ v < n, (tuples v).Nodup) ∧ Apart tuples n := by
    rw [nodup_flatMap]
    constructor
    · rintro ⟨each, apart⟩
      refine ⟨fun v low => each v (mem_range.2 low), fun v lowV w lowW other c inV => ?_⟩
      have ordered : ∀ {v w}, v < w → w < n → (tuples v).Disjoint (tuples w) := by
        intro v w less low
        have disjoint := pairwise_iff_getElem.1 apart v w (by simp; omega) (by simpa) less
        rwa [Function.onFun, getElem_range, getElem_range] at disjoint
      rcases Nat.lt_or_gt_of_ne other with less | less
      · exact ordered less lowW inV
      · exact fun inW => ordered less lowV inW inV
    · rintro ⟨each, apart⟩
      refine ⟨fun v low => each v (mem_range.1 low), ?_⟩
      apply nodup_range.pairwise_of_forall_ne
      intro v lowV w lowW other c
      exact apart v (mem_range.1 lowV) w (mem_range.1 lowW) other c
  constructor
  · intro perm
    obtain ⟨each, apart⟩ := nodup.1 (perm.nodup_iff.2 nodup_range)
    refine ⟨each, apart, fun a => ?_⟩
    rw [← members, perm.mem_iff, mem_range]
  · rintro ⟨each, apart, covered⟩
    refine (perm_ext_iff_of_nodup (nodup.2 ⟨each, apart⟩) nodup_range).2 fun a => ?_
    rw [members, covered, mem_range]

theorem readsConsistently_of_perm (fresh : st.left = none) (room : st.mAct ≤ st.mMax)
    (perm : ((List.range st.nAct).flatMap tuples).Perm (List.range (2 * st.mAct))) :
    st.ReadsConsistently tuples := by
  obtain ⟨nodup, apart, covered⟩ := perm_iff.1 perm
  have inv : ReadInv tuples st st.nAct (st.readIncidences tuples) := readNodes_spec st.nAct
  have start : ∀ v < st.nAct, ∀ c ∈ tuples v, (st.readIncidences tuples).startNode c = some v :=
    fun v low c member => inv.start v low c member fun w lowW less =>
      apart v low w lowW less.ne c member
  have mem : ∀ v < st.nAct, ∀ a, a ∈ tuples v ↔
      a < 2 * st.mAct ∧ (st.readIncidences tuples).startNode a = some v := by
    intro v low a
    constructor
    · exact fun member => ⟨(covered a).1 ⟨v, low, member⟩, start v low a member⟩
    · rintro ⟨lowA, val⟩
      obtain ⟨w, lowW, member⟩ := (covered a).2 lowA
      rw [start w lowW a member] at val
      exact Option.some.inj val ▸ member
  have present : ∀ a < 2 * st.mAct, (st.readIncidences tuples).startNode a ≠ none := by
    intro a low
    obtain ⟨v, lowV, member⟩ := (covered a).2 low
    rw [start v lowV a member]
    exact Option.some_ne_none v
  constructor
  · intro v low a member
    have := (covered a).1 ⟨v, low, member⟩
    omega
  · intro a low
    obtain ⟨v, lowV, member⟩ := (covered a).2 low
    exact ⟨v, lowV, start v lowV a member, count_eq_one_of_mem (nodup v lowV) member,
      fun w lowW other => apart v lowV w lowW other.symm a member⟩
  constructor
  · intro v low
    rw [inv.nAct] at low
    rw [inv.mAct, inv.first v low, head?_eq_none_iff, eq_nil_iff_forall_not_mem]
    simp only [mem v low, not_and]
  · intro v low f val
    rw [inv.nAct] at low
    rw [inv.first v low] at val
    obtain ⟨l, tuple⟩ := head?_eq_some_iff.1 val
    have links := links_of_readInv inv apart low (nodup v low)
    rw [val, tuple] at links
    refine ⟨l, ⟨tuple ▸ nodup v low, links⟩, fun a => ?_⟩
    rw [inv.mAct, ← mem v low a, tuple]
  · intro a low v val
    rw [inv.mAct] at low
    obtain ⟨w, lowW, member⟩ := (covered a).2 low
    rw [start w lowW a member] at val
    rw [inv.nAct]
    exact Option.some.inj val ▸ lowW
  · intro a low
    rw [inv.mAct] at low
    exact iff_of_false (present a low) (present _ (rev_lt.2 low))
  · intro a low none
    rw [inv.mAct] at low
    exact absurd none (present a low)
  · intro left some
    cases (inv.left.trans fresh).symm.trans some

/-- **When the incidences that have been read are consistent.** -/
theorem readIncidences_consistent_iff (fresh : st.left = none) (room : st.mAct ≤ st.mMax) :
    st.ReadsConsistently tuples ↔
      ((List.range st.nAct).flatMap tuples).Perm (List.range (2 * st.mAct)) := by
  refine ⟨fun reads => perm_iff.2 ?_, readsConsistently_of_perm fresh room⟩
  have inv : ReadInv tuples st st.nAct (st.readIncidences tuples) := readNodes_spec st.nAct
  -- an arc of the graph in the tuple of a node is in no other tuple
  have once : ∀ v < st.nAct, ∀ c ∈ tuples v, c < 2 * st.mAct →
      (tuples v).count c = 1 ∧ ∀ w < st.nAct, w ≠ v → c ∉ tuples w := by
    intro v low c member lowC
    obtain ⟨w, lowW, -, single, others⟩ := reads.listed c lowC
    have same : v = w := by
      by_contra other
      exact others v low other member
    exact same ▸ ⟨single, others⟩
  -- so it is linked to the next one of the tuple
  have next : ∀ v < st.nAct, ∀ p c d q, tuples v = p ++ c :: d :: q → c < 2 * st.mAct →
      d < 2 * st.mAct := by
    intro v low p c d q tuple lowC
    have member : c ∈ tuples v := by simp [tuple]
    obtain ⟨single, others⟩ := once v low c member lowC
    have absent : c ∉ d :: q := by
      intro again
      have more := count_pos_iff.2 again
      rw [tuple, count_append, count_cons_self] at single
      omega
    have later : ∀ w < st.nAct, v < w → c ∉ tuples w := fun w lowW less =>
      others w lowW less.ne'
    obtain ⟨f, first⟩ : ∃ f, (tuples v).head? = some f := by
      rw [tuple]
      cases p <;> exact ⟨_, rfl⟩
    obtain ⟨l, ring, mem⟩ := reads.lists.lists v (inv.nAct ▸ low) f ((inv.first v low).trans first)
    obtain ⟨y, inside, link⟩ := ring.next_mem
      ((mem c).2 ⟨inv.mAct.symm ▸ lowC, inv.start v low c member later⟩)
    have isD := (inv.next v low p c (d :: q) tuple absent later).symm.trans link
    rw [Option.some.inj isD]
    exact inv.mAct ▸ ((mem y).1 inside).1
  have below : ∀ v < st.nAct, ∀ c ∈ tuples v, c < 2 * st.mAct := by
    intro v low
    suffices all : ∀ q p c, tuples v = p ++ c :: q → c < 2 * st.mAct →
        ∀ d ∈ c :: q, d < 2 * st.mAct by
      cases tuple : tuples v with
      | nil => simp
      | cons f l =>
        obtain ⟨k, -, mem⟩ := reads.lists.lists v (inv.nAct ▸ low) f
          ((inv.first v low).trans (by rw [tuple]; rfl))
        exact all l [] f tuple (inv.mAct ▸ ((mem f).1 mem_cons_self).1)
    intro q
    induction q with
    | nil => exact fun p c _ lowC d member => mem_singleton.1 member ▸ lowC
    | cons e q ih =>
      intro p c tuple lowC d member
      rcases mem_cons.1 member with rfl | later
      · exact lowC
      · exact ih (p ++ [c]) e (by simp [tuple]) (next v low p c e q tuple lowC) d later
  refine ⟨fun v low => ?_, fun v low w lowW other c member => ?_, fun a => ⟨?_, fun low => ?_⟩⟩
  · rw [nodup_iff_count_le_one]
    intro c
    by_cases member : c ∈ tuples v
    · exact (once v low c member (below v low c member)).1.le
    · rw [count_eq_zero_of_not_mem member]
      exact Nat.zero_le 1
  · exact (once v low c member (below v low c member)).2 w lowW other.symm
  · rintro ⟨v, low, member⟩
    exact below v low a member
  · obtain ⟨v, lowV, -, single, -⟩ := reads.listed a low
    exact ⟨v, lowV, count_pos_iff.1 (by omega)⟩

/-- A graph with two nodes and one edge, for which nothing has been read. -/
def unread : SparseState := { new 2 100 100 with mAct := 1, mMax := 1 }

/-- The tuples of an edge from the first node to the second one. -/
theorem readIncidences_consistent_iff_edge :
    (unread.ReadsConsistently fun v => if v = 0 then [0] else [1]) ↔
      ((List.range 2).flatMap fun v => if v = 0 then [0] else [1]).Perm (List.range 2) :=
  readIncidences_consistent_iff rfl (by decide)

/-- The second arc is listed at both nodes, and the list of the first node never returns to its
first arc. -/
theorem readIncidences_repeated :
    ¬ (unread.ReadsConsistently fun v => if v = 0 then [0, 1] else [1]) ∧
      (unread.readIncidences fun v => if v = 0 then [0, 1] else [1]).first 0 = some 0 ∧
      (unread.readIncidences fun v => if v = 0 then [0, 1] else [1]).right 0 = some 1 ∧
      (unread.readIncidences fun v => if v = 0 then [0, 1] else [1]).right 1 = some 1 := by
  refine ⟨fun reads => ?_, by decide, by decide, by decide⟩
  obtain ⟨v, low, -, -, others⟩ := reads.listed 1 (by decide)
  have cases : v = 0 ∨ v = 1 := by
    change v < 2 at low
    omega
  rcases cases with rfl | rfl
  · exact others 1 (by decide) (by decide) (by decide)
  · exact others 0 (by decide) (by decide) (by decide)

end SparseState

end Goblin
