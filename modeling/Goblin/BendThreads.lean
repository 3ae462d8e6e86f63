import Goblin.ArcSwapping
import Goblin.AttributePools

/-!
# Bend threads

The bends of an edge form a thread of layout nodes behind its label anchor. An arc with an even index
is drawn along its thread, the reverse arc against it. If `SwapArcs` gives an arc an index of the
other parity, the thread has to be reverted.

The two loops that revert a thread are those of a linked list that is reversed in place, with a
second array for the links (`reverseLinks_spec`, `relink_spec`). But the test that decides whether
they run compares a bit with a whole index, and both have been taken from the reverse arcs. So the
threads are reverted unless the second index is `0` or `1` and its parity differs from that of the
first one (`test_iff`), whereas they should be reverted if and only if the parities differ.
-/

set_option autoImplicit false

namespace Goblin

open Library List Option SparseState

namespace SparseGraph

open SparseState (rev)

/-! ## Reading the layout -/

/-- Follow the links. -/
def threadFrom (next : ℕ → Option ℕ) : ℕ → Option ℕ → List ℕ
  | 0, _ => []
  | _ + 1, none => []
  | fuel + 1, some x => x :: threadFrom next fuel (next x)

section Reading

variable (st : SparseGraph)

/-- The label anchor of an edge. -/
def anchor (e : ℕ) : Option ℕ := (getArray st.align).bind fun align => align.getValue e

def threadSuccessor (x : ℕ) : Option ℕ := (getArray st.thread).bind fun thread => thread.getValue x

/-- The bends of an edge, in the order of the thread. -/
def bends (e : ℕ) : List ℕ := (threadFrom st.threadSuccessor (st.lAct + 1) (st.anchor e)).tail

/-- The bends of an arc, from its start node to its end node. -/
def bendSequence (a : ℕ) : List ℕ :=
  if a % 2 = 0 then st.bends (a / 2) else (st.bends (a / 2)).reverse

/-- Every thread ends, and the threads of two edges have no node in common. -/
structure BendLayout (st : SparseGraph) : Prop where
  anchors : ∀ align, getArray st.align = some align → align.data.length = st.rep.mAct
  nodes : ∀ thread, getArray st.thread = some thread → thread.data.length = st.lAct
  threads : ∀ e, e < st.rep.mAct → ∀ x, st.anchor e = some x →
    Links st.threadSuccessor (x :: st.bends e) none ∧ ∀ y ∈ x :: st.bends e, y < st.lAct
  disjoint : ∀ e f, e < st.rep.mAct → f < st.rep.mAct → e ≠ f → ∀ x y, st.anchor e = some x →
    st.anchor f = some y → List.Disjoint (x :: st.bends e) (y :: st.bends f)

end Reading

section Threads

variable {next : ℕ → Option ℕ} {x y : ℕ} {l : List ℕ}

theorem threadFrom_eq {fuel : ℕ} (links : Links next (x :: l) none) (enough : l.length < fuel) :
    threadFrom next fuel (some x) = x :: l := by
  induction fuel generalizing x l with
  | zero => exact absurd enough (Nat.not_lt_zero _)
  | succ fuel ih =>
    obtain ⟨first, rest⟩ := links
    rw [threadFrom, first]
    cases l with
    | nil =>
      cases fuel with
      | zero | succ fuel => rfl
    | cons y l =>
      rw [length_cons] at enough
      exact congrArg _ (ih rest (by omega))

/-- A list without repetitions is its own reversal if it has at most one element. -/
theorem reverse_eq_self_iff (nodup : l.Nodup) : l.reverse = l ↔ l.length ≤ 1 := by
  constructor
  · intro eq
    match l, nodup, eq with
    | [], _, _ => exact Nat.zero_le 1
    | [x], _, _ => exact le_refl 1
    | x :: y :: l, nodup, eq =>
      have last : (x :: y :: l).getLast? = some x := by
        rw [← head?_reverse, eq]
        rfl
      rw [getLast?_cons_cons] at last
      exact absurd (mem_of_getLast? last) (nodup_cons.1 nodup).1
  · intro short
    match l, short with
    | [], _ => rfl
    | [x], _ => rfl
    | x :: y :: l, short => simp at short

end Threads

/-! ## Reverting a thread -/

section Reverting

variable {thread : Attribute (Option ℕ)} {revThread : ℕ → Option ℕ} {y : ℕ}

/-- **The first loop** enters the links in the other direction; `done` are the nodes behind. -/
theorem reverseLinks_spec {fuel : ℕ} (l done : List ℕ)
    (links : Links thread.getValue (y :: l) none) (back : Links revThread (y :: done) none)
    (nodup : (y :: l ++ done).Nodup) (enough : l.length < fuel) :
    ∃ revThread' last tail, reverseLinks thread fuel revThread y = some (revThread', last) ∧
      (y :: l).reverse ++ done = last :: tail ∧ Links revThread' (last :: tail) none := by
  induction l generalizing fuel revThread y done with
  | nil =>
    cases fuel with
    | zero => exact absurd enough (Nat.not_lt_zero _)
    | succ fuel =>
      refine ⟨revThread, y, done, ?_, rfl, back⟩
      rw [reverseLinks, links.1]
      rfl
  | cons z l ih =>
    cases fuel with
    | zero => exact absurd enough (Nat.not_lt_zero _)
    | succ fuel =>
      obtain ⟨first, rest⟩ := links
      rw [length_cons] at enough
      have nodup' : (z :: l ++ y :: done).Nodup := by
        have perm : (y :: (z :: l) ++ done).Perm (z :: l ++ y :: done) := by
          rw [cons_append]
          exact perm_middle.symm
        exact perm.nodup_iff.1 nodup
      have fresh : ∀ c ∈ y :: done, c ≠ z := by
        rintro c mem rfl
        exact (nodup_cons.1 nodup').1 (mem_append_right _ mem)
      have back' : Links (Function.update revThread z (some y)) (z :: y :: done) none :=
        ⟨Function.update_self _ _ _, back.congr fun c mem =>
          Function.update_of_ne (fresh c mem) _ _⟩
      obtain ⟨revThread', last, tail, res, whole, links'⟩ :=
        @ih _ z fuel (y :: done) rest back' nodup' (by omega)
      refine ⟨revThread', last, tail, ?_, ?_, links'⟩
      · rw [reverseLinks, first]
        exact res
      · rw [← whole]
        simp

/-- **The second loop** copies the links of the nodes that it meets. -/
theorem relink_spec {fuel : ℕ} {l : List ℕ} (links : Links revThread (y :: l) none)
    (nodup : (y :: l).Nodup) (inRange : ∀ c ∈ y :: l, c < thread.data.length)
    (enough : l.length + 1 < fuel) :
    ∃ thread', relink revThread fuel thread (some y) = some thread' ∧
      thread'.data.length = thread.data.length ∧
      ∀ c, thread'.getValue c = if c ∈ y :: l then revThread c else thread.getValue c := by
  induction l generalizing fuel thread y with
  | nil =>
    match fuel, enough with
    | fuel + 2, _ =>
      refine ⟨thread.setValue y (revThread y), ?_, length_set, fun c => ?_⟩
      · rw [relink, links.1]
        rfl
      · rw [getValue_setValue thread (inRange y mem_cons_self)]
        by_cases here : c = y
        · rw [if_pos here, if_pos (mem_singleton.2 here), here]
        · rw [if_neg here, if_neg fun mem => here (mem_singleton.1 mem)]
  | cons z l ih =>
    match fuel, enough with
    | fuel + 1, enough =>
      obtain ⟨first, rest⟩ := links
      obtain ⟨fresh, nodup⟩ := nodup_cons.1 nodup
      have size : (thread.setValue y (revThread y)).data.length = thread.data.length :=
        length_set
      rw [length_cons] at enough
      obtain ⟨thread', res, size', values⟩ := @ih (thread.setValue y (revThread y)) z fuel
        rest nodup (fun c mem => size.symm ▸ inRange c (mem_cons_of_mem _ mem))
        (by omega)
      refine ⟨thread', ?_, size'.trans size, fun c => ?_⟩
      · rw [relink, first]
        rw [first] at res
        exact res
      · rw [values c, getValue_setValue thread (inRange y mem_cons_self)]
        by_cases here : c = y
        · rw [if_neg (here ▸ fresh), if_pos here, if_pos (here ▸ mem_cons_self), here]
        · have eq : c ∈ y :: z :: l ↔ c ∈ z :: l := by
            rw [mem_cons (b := y)]
            exact or_iff_right here
          rw [if_neg here]
          simp only [eq]

end Reverting

theorem length_le_of_nodup {l : List ℕ} {bound : ℕ} (nodup : l.Nodup)
    (inRange : ∀ y ∈ l, y < bound) : l.length ≤ bound := by
  rw [← toFinset_card_of_nodup nodup, ← Finset.card_range bound]
  refine Finset.card_le_card fun y mem => ?_
  exact Finset.mem_range.2 (inRange y (mem_toFinset.1 mem))

section States

variable {st : SparseGraph} {thread : Attribute (Option ℕ)} {x e : ℕ} {l : List ℕ}

theorem eq_some_of_getArray {A : Option (Attribute (Option ℕ))} {B : Attribute (Option ℕ)}
    (array : getArray A = some B) : A = some B := (filter_eq_some_iff.1 array).1

theorem threadSuccessor_eq (array : getArray st.thread = some thread) :
    st.threadSuccessor = thread.getValue := by
  funext y
  rw [threadSuccessor, array]
  rfl

theorem bends_eq (anchored : st.anchor e = some x) (links : Links st.threadSuccessor (x :: l) none)
    (inRange : ∀ y ∈ x :: l, y < st.lAct) : st.bends e = l := by
  have short := length_le_of_nodup links.nodup inRange
  rw [length_cons] at short
  rw [bends, anchored, threadFrom_eq links (by omega)]
  rfl

theorem bends_of_no_anchor (free : st.anchor e = none) : st.bends e = [] := by
  rw [bends, free]
  rfl

theorem bends_of_no_thread (absent : getArray st.thread = none) : st.bends e = [] := by
  cases anchored : st.anchor e with
  | none => exact bends_of_no_anchor anchored
  | some x =>
    have last : st.threadSuccessor x = none := by
      rw [threadSuccessor, absent]
      rfl
    rw [bends, anchored, threadFrom, last]
    cases st.lAct with
    | zero | succ k => rfl

/-- **Both loops**: behind the anchor the thread is reverted, and other nodes keep their links. -/
theorem reverseBends_links (array : getArray st.thread = some thread)
    (links : Links thread.getValue (x :: l) none) (size : thread.data.length = st.lAct)
    (inRange : ∀ y ∈ x :: l, y < st.lAct) :
    ∃ thread', reverseBends (some x) st = .ok () { st with thread := some thread' } ∧
      thread'.data.length = thread.data.length ∧ Links thread'.getValue (x :: l.reverse) none ∧
      ∀ c, c ∉ x :: l → thread'.getValue c = thread.getValue c := by
  have nodup := links.nodup
  have short := length_le_of_nodup nodup inRange
  rw [length_cons] at short
  cases l with
  | nil =>
    have whole : { st with thread := some thread } = st := by
      rw [← eq_some_of_getArray array]
    refine ⟨thread, ?_, rfl, links, fun _ _ => rfl⟩
    rw [whole, reverseBends, run_bind_get, array]
    simp only [links.1]
    rfl
  | cons y l =>
    obtain ⟨first, rest⟩ := links
    obtain ⟨fresh, nodup⟩ := nodup_cons.1 nodup
    rw [length_cons] at short
    have lowX : x < thread.data.length := size.symm ▸ inRange x mem_cons_self
    obtain ⟨revThread, last, tail, reversed, whole, back⟩ := @reverseLinks_spec thread
      (fun _ => none) y (st.lAct + 1) l [] rest ⟨rfl, trivial⟩ (by rwa [append_nil]) (by omega)
    rw [append_nil] at whole
    have members : ∀ c, c ∈ last :: tail ↔ c ∈ y :: l := by
      intro c
      rw [← whole, mem_reverse]
    have lengths : tail.length = l.length := by
      have eq := congrArg List.length whole
      rw [length_reverse, length_cons, length_cons] at eq
      omega
    have size1 : (thread.setValue x (some last)).data.length = thread.data.length :=
      length_set
    obtain ⟨thread', relinked, size', values⟩ := @relink_spec (thread.setValue x (some last))
      revThread last (st.lAct + 1) tail back back.nodup (fun c mem => by
        rw [size1, size]
        exact inRange c (mem_cons_of_mem _ ((members c).1 mem))) (by omega)
    have values' : ∀ c, thread'.getValue c =
        if c ∈ y :: l then revThread c else if c = x then some last else thread.getValue c := by
      intro c
      rw [values c, getValue_setValue thread lowX]
      simp only [members]
    have first' : thread.getValue x = some y := first
    refine ⟨thread', ?_, size'.trans size1, ?_, fun c out => ?_⟩
    · rw [reverseBends, run_bind_get, array]
      simp only [first', reversed, relinked]
      rfl
    · rw [whole]
      refine ⟨?_, back.congr fun c mem => ?_⟩
      · rw [values', if_neg fresh, if_pos rfl]
        rfl
      · rw [values', if_pos ((members c).1 mem)]
    · have notX : c ≠ x := by
        rintro rfl
        exact out mem_cons_self
      rw [values', if_neg fun mem => out (mem_cons_of_mem _ mem), if_neg notX]

/-- **One edge is reverted**, and the other ones keep their bends. -/
theorem reverseBends_spec (layout : st.BendLayout) (low : e < st.rep.mAct) :
    ∃ thread', reverseBends (st.anchor e) st = .ok () { st with thread := thread' } ∧
      ({ st with thread := thread' } : SparseGraph).BendLayout ∧
      ({ st with thread := thread' } : SparseGraph).bends e = (st.bends e).reverse ∧
      ∀ f, f < st.rep.mAct → f ≠ e →
        ({ st with thread := thread' } : SparseGraph).bends f = st.bends f := by
  have idle : st.bends e = [] → reverseBends (st.anchor e) st = .ok () st →
      ∃ thread', reverseBends (st.anchor e) st = .ok () { st with thread := thread' } ∧
        ({ st with thread := thread' } : SparseGraph).BendLayout ∧
        ({ st with thread := thread' } : SparseGraph).bends e = (st.bends e).reverse ∧
        ∀ f, f < st.rep.mAct → f ≠ e →
          ({ st with thread := thread' } : SparseGraph).bends f = st.bends f := by
    intro empty res
    refine ⟨st.thread, res, layout, ?_, fun _ _ _ => rfl⟩
    change st.bends e = _
    rw [empty]
    rfl
  cases anchored : st.anchor e with
  | none =>
    rw [anchored] at idle
    exact idle (bends_of_no_anchor anchored) rfl
  | some x =>
    cases array : getArray st.thread with
    | none =>
      rw [anchored] at idle
      refine idle (bends_of_no_thread array) ?_
      rw [reverseBends, run_bind_get, array]
      rfl
    | some thread =>
      have successor := threadSuccessor_eq array
      have size := layout.nodes thread array
      obtain ⟨links, inRange⟩ := layout.threads e low x anchored
      rw [successor] at links
      obtain ⟨thread', res, size', links', kept⟩ :=
        reverseBends_links array links size inRange
      set st' : SparseGraph := { st with thread := some thread' } with st'Eq
      have array' : getArray st'.thread = some thread' := by
        have ne : thread'.data ≠ [] := by
          rw [← length_pos_iff_ne_nil, size', size]
          exact (Nat.zero_le x).trans_lt (inRange x mem_cons_self)
        exact filter_eq_some_iff.2 ⟨rfl, by simpa using ne⟩
      have successor' : st'.threadSuccessor = thread'.getValue := threadSuccessor_eq array'
      have eq : ∀ y, y ∈ x :: (st.bends e).reverse ↔ y ∈ x :: st.bends e := by
        intro y
        rw [mem_cons, mem_cons, mem_reverse]
      have bendsE : st'.bends e = (st.bends e).reverse := by
        refine bends_eq (show st'.anchor e = some x from anchored) (successor'.symm ▸ links')
          fun y mem => inRange y ((eq y).1 mem)
      -- the threads of other edges do not meet this one
      have others : ∀ f, f < st.rep.mAct → f ≠ e → ∀ y, st.anchor f = some y →
          Links st'.threadSuccessor (y :: st.bends f) none := by
        intro f lowF other y anchoredF
        obtain ⟨linksF, -⟩ := layout.threads f lowF y anchoredF
        rw [successor] at linksF
        rw [successor']
        refine linksF.congr fun c mem => kept c fun mem' => ?_
        exact layout.disjoint f e lowF low other y x anchoredF anchored mem mem'
      have bendsF : ∀ f, f < st.rep.mAct → f ≠ e → st'.bends f = st.bends f := by
        intro f lowF other
        cases anchoredF : st.anchor f with
        | none =>
          rw [bends_of_no_anchor anchoredF]
          exact bends_of_no_anchor (show st'.anchor f = none from anchoredF)
        | some y =>
          exact bends_eq (show st'.anchor f = some y from anchoredF)
            (others f lowF other y anchoredF) (layout.threads f lowF y anchoredF).2
      have nodesOf : ∀ f, f < st.rep.mAct → ∀ y, st.anchor f = some y →
          ∀ c, c ∈ y :: st'.bends f ↔ c ∈ y :: st.bends f := by
        intro f lowF y anchoredF c
        by_cases here : f = e
        · rw [here, bendsE, mem_cons, mem_cons, mem_reverse]
        · rw [bendsF f lowF here]
      refine ⟨some thread', res, ⟨layout.anchors, ?_, ?_, ?_⟩, bendsE, bendsF⟩
      · intro thread'' array''
        rw [array'] at array''
        cases array''
        exact size'.trans size
      · intro f lowF y anchoredF
        have inRangeF := (layout.threads f lowF y anchoredF).2
        refine ⟨?_, fun c mem => inRangeF c ((nodesOf f lowF y anchoredF c).1 mem)⟩
        by_cases here : f = e
        · subst here
          have anchor : y = x := Option.some.inj (anchoredF.symm.trans anchored)
          rw [bendsE, successor', anchor]
          exact links'
        · rw [bendsF f lowF here]
          exact others f lowF here y anchoredF
      · intro f g lowF lowG other y z anchoredF anchoredG c memberF memberG
        exact layout.disjoint f g lowF lowG other y z anchoredF anchoredG
          ((nodesOf f lowF y anchoredF c).1 memberF) ((nodesOf g lowG z anchoredG c).1 memberG)

end States

/-! ## Exchanging edges -/

section Exchange

variable {st : SparseGraph} {i j : ℕ}

theorem getArray_swapItems (A : Option (Attribute (Option ℕ))) (i j : ℕ) :
    getArray (A.map fun B => B.swapItems i j) = (getArray A).map fun B => B.swapItems i j := by
  cases A with
  | none => rfl
  | some B =>
    have empty : (B.swapItems i j).data.isEmpty = B.data.isEmpty := by
      rw [Bool.eq_iff_iff, isEmpty_iff_length_eq_zero, isEmpty_iff_length_eq_zero]
      exact (size_swapItems B i j).congr_left
    rw [getArray, getArray, map_some, filter_some, filter_some, empty]
    split_ifs <;> rfl

theorem swapEdges_bends (layout : st.BendLayout) (lowI : i < st.rep.mAct) (lowJ : j < st.rep.mAct)
    {rep : SparseState} (arcs : rep.mAct = st.rep.mAct) :
    (swapEdges { st with rep := rep } i j).BendLayout ∧
      ∀ e, (swapEdges { st with rep := rep } i j).bends e = st.bends (Equiv.swap i j e) := by
  set st' := swapEdges { st with rep := rep } i j with st'Eq
  have anchor : ∀ e, st'.anchor e = st.anchor (Equiv.swap i j e) := by
    intro e
    have array : getArray st'.align = (getArray st.align).map fun B => B.swapItems i j :=
      getArray_swapItems st.align i j
    rw [SparseGraph.anchor, SparseGraph.anchor, array]
    cases present : getArray st.align with
    | none => rfl
    | some align =>
      have size : align.size = st.rep.mAct := layout.anchors align present
      rw [map_some, bind_some, bind_some,
        getValue_swapItems align (size.symm ▸ lowI) (size.symm ▸ lowJ), Equiv.swap_apply_def]
      congr 1
      grind
  have bends : ∀ e, st'.bends e = st.bends (Equiv.swap i j e) := by
    intro e
    rw [SparseGraph.bends, SparseGraph.bends, anchor]
    rfl
  have low : ∀ e, e < st'.rep.mAct → Equiv.swap i j e < st.rep.mAct := by
    intro e lowE
    have lowE' : e < st.rep.mAct := arcs ▸ lowE
    rw [Equiv.swap_apply_def]
    split_ifs
    · exact lowJ
    · exact lowI
    · exact lowE'
  refine ⟨⟨fun align array => ?_, layout.nodes, fun e lowE x anchored => ?_,
    fun e f lowE lowF other x y anchored anchored' => ?_⟩, bends⟩
  · have array' : getArray st'.align = (getArray st.align).map fun B => B.swapItems i j :=
      getArray_swapItems st.align i j
    rw [array'] at array
    obtain ⟨align0, present, rfl⟩ := map_eq_some_iff.1 array
    exact (size_swapItems align0 i j).trans ((layout.anchors align0 present).trans arcs.symm)
  · rw [anchor] at anchored
    rw [bends]
    exact layout.threads _ (low e lowE) x anchored
  · rw [anchor] at anchored anchored'
    rw [bends, bends]
    exact layout.disjoint _ _ (low e lowE) (low f lowF)
      (fun eq => other ((Equiv.swap i j).injective eq)) x y anchored anchored'

end Exchange

/-! ## The test -/

theorem test_iff (a1 a2 : ℕ) : (rev a1 &&& 1) ^^^ (rev a2 ^^^ 1) = 0 ↔ a2 = 1 - a1 % 2 := by
  have bit : rev a1 &&& 1 = 1 - a1 % 2 := by
    rw [Nat.and_one_is_mod, rev_eq]
    split_ifs <;> omega
  have back : rev a2 ^^^ 1 = a2 := rev_rev a2
  rw [bit, back]
  constructor
  · intro zero
    have cancelled := congrArg (fun x => x ^^^ (1 - a1 % 2)) zero
    rwa [Nat.xor_comm, ← Nat.xor_assoc, Nat.xor_self, Nat.zero_xor, Nat.zero_xor] at cancelled
  · intro eq
    rw [eq, Nat.xor_self]

variable {st : SparseGraph}

/-- **What `SwapArcs` does to the bends.** The edges exchange their threads, and both are reverted
unless the test fails. -/
theorem swapArcs_bends (lists : st.rep.IncidenceLists) (layout : st.BendLayout) {a1 a2 : ℕ}
    (low1 : a1 < 2 * st.rep.mAct) (low2 : a2 < 2 * st.rep.mAct) (ne : a1 ≠ a2) :
    ∃ st', swapArcs a1 a2 st = .ok () st' ∧ st'.rep.mAct = st.rep.mAct ∧ st'.BendLayout ∧
      st'.bends (a1 / 2) = (if a2 = 1 - a1 % 2 then st.bends (a2 / 2)
        else (st.bends (a2 / 2)).reverse) ∧
      st'.bends (a2 / 2) = (if a2 = 1 - a1 % 2 then st.bends (a1 / 2)
        else (st.bends (a1 / 2)).reverse) := by
  obtain ⟨rep, swapped⟩ := swapArcs_returns lists low1 low2
  have arcs : rep.mAct = st.rep.mAct :=
    (PooledGraph.returns_swapArcs st.rep a1 a2 rep swapped).mAct
  have onRep : onIncidences (fun rep => rep.swapArcs a1 a2) st = .ok () { st with rep := rep } := by
    rw [onIncidences, swapped]
  have lowI : a1 / 2 < st.rep.mAct := by omega
  have lowJ : a2 / 2 < st.rep.mAct := by omega
  obtain ⟨layout1, bends₁⟩ := swapEdges_bends layout lowI lowJ arcs
  set st1 := swapEdges { st with rep := rep } (a1 / 2) (a2 / 2) with st1Eq
  have arcs1 : st1.rep.mAct = st.rep.mAct := arcs
  have atI : st1.bends (a1 / 2) = st.bends (a2 / 2) := by rw [bends₁, Equiv.swap_apply_left]
  have atJ : st1.bends (a2 / 2) = st.bends (a1 / 2) := by rw [bends₁, Equiv.swap_apply_right]
  rw [swapArcs, run_bind_ok onRep, if_neg ne, run_bind_modify, ← st1Eq]
  simp only [test_iff]
  by_cases test : a2 = 1 - a1 % 2
  · simp only [if_pos test]
    exact ⟨st1, rfl, arcs1, layout1, atI, atJ⟩
  simp only [if_neg test]
  rw [run_bind_get]
  cases array : getArray st1.align with
  | none =>
    have empty : ∀ e, st1.bends e = [] := fun e => bends_of_no_anchor (by
      rw [anchor, array]
      rfl)
    refine ⟨st1, rfl, arcs1, layout1, ?_, ?_⟩
    · rw [empty, ← atI, empty]
      rfl
    · rw [empty, ← atJ, empty]
      rfl
  | some align =>
    have anchors : ∀ e, align.getValue e = st1.anchor e := by
      intro e
      rw [anchor, array]
      rfl
    obtain ⟨thread2, res2, layout2, reverted2, kept2⟩ :=
      reverseBends_spec layout1 (arcs1.symm ▸ lowI)
    set st2 : SparseGraph := { st1 with thread := thread2 } with st2Eq
    have first : reverseBends (align.getValue (a1 / 2)) st1 = .ok () st2 := by
      rw [anchors]
      exact res2
    dsimp only
    rw [run_bind_ok first]
    by_cases flip : a1 = rev a2
    · have eq : a1 / 2 = a2 / 2 := by
        rw [flip, rev_eq]
        split_ifs <;> omega
      rw [if_neg (not_not.2 flip)]
      refine ⟨st2, rfl, arcs1, layout2, reverted2.trans (congrArg _ atI), ?_⟩
      rw [← eq, reverted2, atI, eq]
    have other : a2 / 2 ≠ a1 / 2 := by
      intro eq
      rw [rev_eq] at flip
      split_ifs at flip <;> omega
    obtain ⟨thread3, res3, layout3, reverted3, kept3⟩ :=
      reverseBends_spec layout2 (show a2 / 2 < st2.rep.mAct from arcs1.symm ▸ lowJ)
    have second : reverseBends (align.getValue (a2 / 2)) st2 =
        .ok () { st2 with thread := thread3 } := by
      rw [anchors]
      exact res3
    rw [if_pos flip, second]
    refine ⟨_, rfl, arcs1, layout3, ?_, ?_⟩
    · rw [kept3 _ (show a1 / 2 < st2.rep.mAct from arcs1.symm ▸ lowI) (Ne.symm other), reverted2,
        atI]
    · rw [reverted3, kept2 _ (show a2 / 2 < st1.rep.mAct from arcs1.symm ▸ lowJ) other, atJ]

/-! ## Deleting arcs -/

/-- What `DeleteArc` does before it calls `SwapArcs`. -/
def releaseArc (a : ℕ) : GraphM Unit := do
  let st ← get
  (if st.rep.startNode (2 * (a / 2)) ≠ none then cancelArc (2 * (a / 2)) else pure ())
  discard (releaseBendNodes (2 * (a / 2)))

/-- What it does afterwards. -/
def dropLastArc : GraphM Unit := do
  modify fun st => (st.eraseItems .graphArcs 1).eraseItems .arcsTwice 2
  modify fun st => { st with rep := { st.rep with mAct := st.rep.mAct - 1 } }
  modify fun st => { st with ni := st.lAct - st.rep.nAct, m := st.rep.mAct }

section Deleting

variable {st st0 : SparseGraph} {a e : ℕ}

theorem dropLastArc_bends (layout : st.BendLayout) (low : e + 1 < st.rep.mAct) :
    ∃ st', dropLastArc st = .ok () st' ∧ st'.bends e = st.bends e := by
  refine ⟨_, rfl, ?_⟩
  have anchor : ∀ A : Option (Attribute (Option ℕ)),
      (∀ B, getArray A = some B → B.data.length = st.rep.mAct) →
      (getArray (A.map fun B => B.eraseItems 1)).bind (fun B => B.getValue e) =
        (getArray A).bind fun B => B.getValue e := by
    intro A full
    cases A with
    | none => rfl
    | some B =>
      by_cases empty : B.data.isEmpty = true
      · have eq : B.eraseItems 1 = B := by rw [Attribute.eraseItems, if_pos empty]
        rw [map_some, eq]
      have present : getArray (some B) = some B :=
        filter_eq_some_iff.2 ⟨rfl, by simpa using empty⟩
      have size := full B present
      have erased : (B.eraseItems 1).data = B.data.take (B.data.length - 1) := by
        rw [Attribute.eraseItems, if_neg empty]
      have present' : getArray (some (B.eraseItems 1)) = some (B.eraseItems 1) := by
        refine filter_eq_some_iff.2 ⟨rfl, ?_⟩
        have long : 0 < (B.eraseItems 1).data.length := by
          rw [erased, length_take]
          omega
        simpa using ne_nil_of_length_pos long
      rw [map_some, present, present', bind_some, bind_some]
      have full' : B.size = st.rep.mAct - 1 + 1 := by
        change B.data.length = _
        omega
      exact getValue_eraseItems B full' (by omega)
  have eq := anchor st.align layout.anchors
  rw [bends, bends]
  exact congrArg (fun x => (threadFrom st.threadSuccessor (st.lAct + 1) x).tail) eq

/-- **`DeleteArc` reverts the bends** of the arc that takes the place of the deleted one. -/
theorem deleteArc_bends (sound : st0.rep.Sound) (low : a < 2 * st0.rep.mAct)
    (other : a / 2 + 1 ≠ st0.rep.mAct) (released : releaseArc a st0 = .ok () st)
    (layout : st.BendLayout) :
    st.rep.IncidenceLists ∧ st.rep.mAct = st0.rep.mAct ∧ ∃ st', deleteArc a st0 = .ok () st' ∧
      st'.bends (a / 2) = (st.bends (st0.rep.mAct - 1)).reverse := by
  rw [releaseArc, run_bind_get] at released
  obtain ⟨_, s1, cancel, release⟩ := of_run_bind released
  have rep2 : st.rep = s1.rep :=
    congrArg Core.rep ((core_freeOfLayout.releaseBendNodes (2 * (a / 2))).discard.of_ok release)
  obtain ⟨sound1, arcs1⟩ : s1.rep.Sound ∧ s1.rep.mAct = st0.rep.mAct := by
    by_cases present : st0.rep.startNode (2 * (a / 2)) = none
    · rw [if_neg (not_not.2 present)] at cancel
      cases cancel
      exact ⟨sound, rfl⟩
    · rw [if_pos present] at cancel
      obtain ⟨u, v, rep1, -, -, -, cancelled, core1⟩ := of_cancelArc sound cancel
      have rep1' : s1.rep = rep1 := congrArg Core.rep core1
      rw [rep1']
      exact ⟨cancelled.sound, cancelled.size.mAct⟩
  have arcs : st.rep.mAct = st0.rep.mAct := by rw [rep2, arcs1]
  have lists : st.rep.IncidenceLists := rep2 ▸ sound1.incidenceLists
  obtain ⟨s3, swapped, arcs3, layout3, bendsA, -⟩ := swapArcs_bends lists layout
    (show 2 * (a / 2) < 2 * st.rep.mAct by omega)
    (show 2 * st0.rep.mAct - 2 < 2 * st.rep.mAct by omega) (by omega)
  obtain ⟨st', dropped, kept⟩ := dropLastArc_bends (e := a / 2) layout3 (by omega)
  refine ⟨lists, arcs, st', ?_, ?_⟩
  · rw [deleteArc, run_bind_get, if_neg (not_le.2 low)]
    simp only [and_rev]
    rw [run_bind_ok cancel, run_bind_ok release, run_bind_ok swapped]
    exact dropped
  · have half : 2 * (a / 2) / 2 = a / 2 := by omega
    have half' : (2 * st0.rep.mAct - 2) / 2 = st0.rep.mAct - 1 := by omega
    rw [half, half', if_neg (by omega)] at bendsA
    rw [kept, bendsA]

end Deleting

/-! ## Correctness -/

section Correct

variable {st : SparseGraph}

theorem bends_nodup (layout : st.BendLayout) {e : ℕ} (low : e < st.rep.mAct) :
    (st.bends e).Nodup := by
  cases anchored : st.anchor e with
  | none =>
    rw [bends_of_no_anchor anchored]
    exact nodup_nil
  | some x => exact (nodup_cons.1 (layout.threads e low x anchored).1.nodup).2

/-- An arc has taken the index `a'`, and its thread has been reverted unless the test has failed. -/
theorem sequence_iff {st' : SparseGraph} {a a' : ℕ} {test : Prop} [Decidable test]
    (nodup : (st.bends (a / 2)).Nodup)
    (res : st'.bends (a' / 2) = if test then st.bends (a / 2) else (st.bends (a / 2)).reverse) :
    st'.bendSequence a' = st.bendSequence a ↔
      (a % 2 = a' % 2 ↔ test) ∨ (st.bends (a / 2)).length ≤ 1 := by
  have own := reverse_eq_self_iff nodup
  have own' : st.bends (a / 2) = (st.bends (a / 2)).reverse ↔ (st.bends (a / 2)).length ≤ 1 :=
    eq_comm.trans own
  rw [bendSequence, bendSequence, res]
  by_cases evenA : a % 2 = 0
  · by_cases evenA' : a' % 2 = 0
    · by_cases holds : test <;> simp [evenA, evenA', holds, own]
    · have oddA' : a' % 2 = 1 := by omega
      by_cases holds : test <;> simp [evenA, oddA', holds, own]
  · have oddA : a % 2 = 1 := by omega
    by_cases evenA' : a' % 2 = 0
    · by_cases holds : test <;> simp [oddA, evenA', holds, own']
    · have oddA' : a' % 2 = 1 := by omega
      by_cases holds : test <;> simp [oddA, oddA', holds, own']

/-- **When the bends of an arc stay in order.** `SwapArcs` returns, and an arc that has exchanged its
index is drawn as before if and only if it is the same index, or the parities differ and the second
index is at least two, or the arc has at most one bend. `DeleteArc` reverts the bends of the arc that
takes the place of the deleted one, unless there is at most one of them. -/
theorem bendSequence_iff (lists : st.rep.IncidenceLists) (layout : st.BendLayout) :
    (∀ a1 a2, a1 < 2 * st.rep.mAct → a2 < 2 * st.rep.mAct → ∃ st', swapArcs a1 a2 st = .ok () st' ∧
        (st'.bendSequence a2 = st.bendSequence a1 ↔
          a1 = a2 ∨ (a1 % 2 ≠ a2 % 2 ∧ 2 ≤ a2) ∨ (st.bends (a1 / 2)).length ≤ 1) ∧
        (st'.bendSequence a1 = st.bendSequence a2 ↔
          a1 = a2 ∨ (a1 % 2 ≠ a2 % 2 ∧ 2 ≤ a2) ∨ (st.bends (a2 / 2)).length ≤ 1)) ∧
    ∀ st₀ a, st₀.rep.Sound → a < 2 * st₀.rep.mAct → a / 2 + 1 ≠ st₀.rep.mAct →
      releaseArc a st₀ = .ok () st → ∃ st', deleteArc a st₀ = .ok () st' ∧
        (st'.bendSequence (2 * (a / 2)) = st.bendSequence (2 * st.rep.mAct - 2) ↔
          (st.bends (st.rep.mAct - 1)).length ≤ 1) := by
  refine ⟨fun a1 a2 low1 low2 => ?_, fun st₀ a sound low other released => ?_⟩
  · by_cases same : a1 = a2
    · subst same
      obtain ⟨rep, swapped⟩ := swapArcs_returns lists low1 low1
      have onRep : onIncidences (fun rep => rep.swapArcs a1 a1) st =
          .ok () { st with rep := rep } := by
        rw [onIncidences, swapped]
      refine ⟨{ st with rep := rep }, ?_, iff_of_true rfl (.inl rfl), iff_of_true rfl (.inl rfl)⟩
      rw [swapArcs, run_bind_ok onRep, if_pos rfl]
      rfl
    · obtain ⟨st', result, -, -, bends1, bends2⟩ := swapArcs_bends lists layout low1 low2 same
      refine ⟨st', result, ?_, ?_⟩
      · rw [sequence_iff (bends_nodup layout (by omega)) bends2]
        have test : (a1 % 2 = a2 % 2 ↔ a2 = 1 - a1 % 2) ↔ a1 % 2 ≠ a2 % 2 ∧ 2 ≤ a2 := by omega
        rw [test, or_iff_right same]
      · rw [sequence_iff (bends_nodup layout (by omega)) bends1]
        have test : (a2 % 2 = a1 % 2 ↔ a2 = 1 - a1 % 2) ↔ a1 % 2 ≠ a2 % 2 ∧ 2 ≤ a2 := by omega
        rw [test, or_iff_right same]
  · obtain ⟨-, arcs, st', result, bendsA⟩ := deleteArc_bends sound low other released layout
    refine ⟨st', result, ?_⟩
    have half : (2 * st.rep.mAct - 2) / 2 = st.rep.mAct - 1 := by omega
    have half' : 2 * (a / 2) / 2 = a / 2 := by omega
    rw [bendSequence, bendSequence, if_pos (by omega), if_pos (by omega), half, half', bendsA, arcs]
    exact reverse_eq_self_iff (bends_nodup layout (by omega))

end Correct

/-- Two parallel arcs; the second one has two bends. -/
def twoBends : GraphM Unit := do
  discard (insertArc 0 1 1 1 0)
  discard (insertArc 0 1 1 1 0)
  let x ← insertArcLabelAnchor 2
  let y ← insertThreadSuccessor x
  discard (insertThreadSuccessor y)

theorem twoBends_layout (res : twoBends (new 2 100 100 none) = .ok () st) :
    st.rep.IncidenceLists ∧ st.BendLayout ∧ st.rep.mAct = 2 := by
  have reach1 : SparseReach 2 100 100 _ := .step (.insertArc 0 1) .start (by decide) rfl
  have reach2 : SparseReach 2 100 100 _ := .step (.insertArc 0 1) reach1 (by decide) rfl
  have facts : SparseReach 2 100 100 st.rep ∧ st.rep.mAct = 2 ∧ st.lAct = 5 ∧
      (getArray st.align).map (fun A => A.data.length) = some 2 ∧
      (getArray st.thread).map (fun A => A.data.length) = some 5 ∧
      st.anchor 0 = none ∧ st.anchor 1 = some 2 ∧ st.bends 1 = [3, 4] ∧
      st.threadSuccessor 2 = some 3 ∧ st.threadSuccessor 3 = some 4 ∧
      st.threadSuccessor 4 = none := by
    cases res
    exact ⟨reach2, rfl, rfl, by decide, by decide, by decide, by decide, by decide, by decide,
      by decide, by decide⟩
  obtain ⟨reach, arcs, nodes, sizeA, sizeT, free, anchored, bends, at2, at3, at4⟩ := facts
  have only : ∀ e, e < st.rep.mAct → ∀ x, st.anchor e = some x → e = 1 ∧ x = 2 := by
    intro e low x val
    rw [arcs] at low
    interval_cases e
    · rw [free] at val
      cases val
    · rw [anchored] at val
      exact ⟨rfl, (Option.some.inj val).symm⟩
  refine ⟨(reach_sound reach).incidenceLists, ⟨?_, ?_, ?_, ?_⟩, arcs⟩
  · intro align array
    rw [array] at sizeA
    rw [arcs]
    exact Option.some.inj sizeA
  · intro thread array
    rw [array] at sizeT
    rw [nodes]
    exact Option.some.inj sizeT
  · intro e low x val
    obtain ⟨rfl, rfl⟩ := only e low x val
    rw [bends, nodes]
    exact ⟨⟨at2, at3, at4, trivial⟩, by decide⟩
  · intro e f lowE lowF other x y val val'
    exact absurd ((only e lowE x val).1.trans (only f lowF y val').1.symm) other

/-- The bends are read in the other direction after the arc has been exchanged with the first one,
and also after the first one has been deleted. -/
theorem twoBends_reverted : ∃ st st1 st2 : SparseGraph,
    twoBends (new 2 100 100 none) = .ok () st ∧ st.rep.IncidenceLists ∧ st.BendLayout ∧
    swapArcs 0 2 st = .ok () st1 ∧ deleteArc 0 st = .ok () st2 ∧
    st.bendSequence 2 = [3, 4] ∧ st1.bendSequence 0 = [4, 3] ∧ st2.bendSequence 0 = [4, 3] := by
  have run : ∃ st st1 st2 : SparseGraph, twoBends (new 2 100 100 none) = .ok () st ∧
      swapArcs 0 2 st = .ok () st1 ∧ deleteArc 0 st = .ok () st2 ∧
      st.bendSequence 2 = [3, 4] ∧ st1.bendSequence 0 = [4, 3] ∧ st2.bendSequence 0 = [4, 3] :=
    ⟨_, _, _, rfl, rfl, rfl, by decide, by decide, by decide⟩
  obtain ⟨st, st1, st2, result, facts⟩ := run
  obtain ⟨lists, layout, -⟩ := twoBends_layout result
  exact ⟨st, st1, st2, result, lists, layout, facts⟩

/-- An index of the other parity: the arc is drawn as before. -/
theorem bendSequence_iff_twoBends : ∃ st st' : SparseGraph,
    twoBends (new 2 100 100 none) = .ok () st ∧ swapArcs 1 2 st = .ok () st' ∧
    st'.bendSequence 1 = st.bendSequence 2 := by
  have run : ∃ st : SparseGraph, twoBends (new 2 100 100 none) = .ok () st := ⟨_, rfl⟩
  obtain ⟨st, result⟩ := run
  obtain ⟨lists, layout, arcs⟩ := twoBends_layout result
  obtain ⟨st', swapped, -, same⟩ := (bendSequence_iff lists layout).1 1 2 (by omega) (by omega)
  exact ⟨st, st', result, swapped, same.2 (.inr (.inl ⟨by decide, by decide⟩))⟩

end SparseGraph

end Goblin
