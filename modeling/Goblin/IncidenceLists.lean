import Goblin.SparseRepresentation

/-!
# The invariant of the incidence lists

Between two operations the arcs that have a start node form one circular list for
every node, the cancelled arcs are linked nowhere, and an arc is cancelled together
with its reverse arc (`Sound`). Inside an operation one half of an arc may be linked
and the other half not, so the lists are described over an arbitrary set of arcs
first (`Linked`). Every operation is a sequence of steps that put an arc into a list,
take it out, rename it or join two lists.
-/

set_option autoImplicit false

namespace Goblin

open Library List Option Equiv Function

variable {a u x af v count : ℕ} {D' : ℕ → Prop}

namespace SparseState

/-! ## Reverse arcs -/

theorem rev_eq (a : ℕ) : rev a = if a % 2 = 0 then a + 1 else a - 1 := by
  have half : (a ^^^ 1) / 2 = a / 2 := by
    rw [Nat.xor_div_two]
    simp
  have parity : (a ^^^ 1) % 2 = 1 ↔ ¬ (a % 2 = 1 ↔ 1 % 2 = 1) := Nat.xor_mod_two_eq_one
  rw [rev]
  split_ifs <;> omega

@[simp] theorem rev_rev (a : ℕ) : rev (rev a) = a := by
  rw [rev_eq, rev_eq]
  split_ifs <;> omega

theorem rev_ne (a : ℕ) : rev a ≠ a := by
  rw [rev_eq]
  split_ifs <;> omega

theorem rev_lt {m : ℕ} : rev a < 2 * m ↔ a < 2 * m := by
  rw [rev_eq]
  split_ifs <;> omega

theorem rev_injective {b : ℕ} (eq : rev a = rev b) : a = b := by
  rw [← rev_rev a, eq, rev_rev]

theorem and_rev (a : ℕ) : a &&& rev a = 2 * (a / 2) := by
  have half : (a &&& (a ^^^ 1)) / 2 = a / 2 := by
    rw [Nat.and_div_two, Nat.xor_div_two]
    simp
  have parity : (a &&& (a ^^^ 1)) % 2 = 1 ↔ a % 2 = 1 ∧ (a ^^^ 1) % 2 = 1 :=
    Nat.and_mod_two_eq_one
  have parity' : (a ^^^ 1) % 2 = 1 ↔ ¬ (a % 2 = 1 ↔ 1 % 2 = 1) := Nat.xor_mod_two_eq_one
  rw [rev]
  omega

/-! ## Linked arcs -/

section

variable (st : SparseState)

/-- The arcs of `D` are linked in one list for every node. -/
structure Linked (D : ℕ → Prop) : Prop where
  node : ∀ a, D a → ∃ v, v < st.nAct ∧ st.startNode a = some v
  rings : Rings st.right st.startNode D
  back : ∀ left, st.left = some left → Back st.right left D
  firstNone : ∀ v, v < st.nAct → st.first v = none → ∀ a, D a → st.startNode a ≠ some v
  firstSome : ∀ v, v < st.nAct → ∀ f, st.first v = some f → D f ∧ st.startNode f = some v
  capacity : st.nAct ≤ st.nMax
  spare : ∀ v, st.nAct ≤ v → v < st.nMax → st.first v = none

/-- No other arc has links. -/
def Clean (D : ℕ → Prop) : Prop :=
  ∀ a, a < 2 * st.mAct → ¬ D a → st.right a = none ∧ ∀ left, st.left = some left → left a = none

/-- The arcs that have not been cancelled. -/
def Live (a : ℕ) : Prop := a < 2 * st.mAct ∧ st.startNode a ≠ none

/-- What holds between two operations. -/
structure Sound : Prop where
  linked : st.Linked st.Live
  clean : st.Clean st.Live
  paired : ∀ a, a < 2 * st.mAct → (st.startNode a = none ↔ st.startNode (rev a) = none)

/-- The sizes that most operations leave alone. -/
structure SameSize (st' : SparseState) : Prop where
  nAct : st'.nAct = st.nAct
  nMax : st'.nMax = st.nMax
  mAct : st'.mAct = st.mAct
  mMax : st'.mMax = st.mMax
  maxNode : st'.maxNode = st.maxNode
  maxArc : st'.maxArc = st.maxArc

theorem SameSize.refl : SameSize st st := ⟨rfl, rfl, rfl, rfl, rfl, rfl⟩

end

theorem SameSize.trans {st1 st2 st3 : SparseState} (first : SameSize st1 st2)
    (second : SameSize st2 st3) : SameSize st1 st3 :=
  ⟨second.nAct.trans first.nAct, second.nMax.trans first.nMax, second.mAct.trans first.mAct,
    second.mMax.trans first.mMax, second.maxNode.trans first.maxNode,
    second.maxArc.trans first.maxArc⟩

variable {st : SparseState} {D : ℕ → Prop} {st' : SparseState}

theorem Linked.congr (linked : st.Linked D) (eq : ∀ a, D' a ↔ D a) : st.Linked D' := by
  have equal : D' = D := funext fun a => propext (eq a)
  rw [equal]
  exact linked

theorem Clean.congr (clean : st.Clean D) (eq : ∀ a, D' a ↔ D a) : st.Clean D' := by
  have equal : D' = D := funext fun a => propext (eq a)
  rw [equal]
  exact clean

/-! ## Reverse links -/

theorem reverseLink_foldlM {group : ℕ → Option ℕ} (rings : Rings st.right group D)
    (clean : ∀ a, a < 2 * st.mAct → ¬ D a → st.right a = none) (l read : List ℕ)
    (nodup : (read ++ l).Nodup) (inRange : ∀ a ∈ read ++ l, a < 2 * st.mAct)
    (left : ℕ → Option ℕ) (built : ∀ a r, left r = some a ↔ a ∈ read ∧ st.right a = some r) :
    ∃ left', l.foldlM st.reverseLink left = .ok left' ∧
      ∀ a r, left' r = some a ↔ a ∈ read ++ l ∧ st.right a = some r := by
  induction l generalizing left read with
  | nil =>
    refine ⟨left, rfl, fun a r => ?_⟩
    rw [append_nil]
    exact built a r
  | cons a l ih =>
    have regroup : read ++ a :: l = (read ++ [a]) ++ l := by simp
    have fresh : a ∉ read := fun mem =>
      (nodup_append.1 nodup).2.2 a mem a mem_cons_self rfl
    have linkedOf : ∀ c, c ∈ read ++ a :: l → st.right c ≠ none → D c := by
      intro c mem links
      by_contra outside
      exact links (clean c (inRange c mem) outside)
    cases next : st.right a with
    | none =>
      have step : st.reverseLink left a = .ok left := by simp [reverseLink, next]
      rw [foldlM_cons, step, regroup]
      refine ih (read ++ [a]) (regroup ▸ nodup) (regroup ▸ inRange) left fun c r => ?_
      rw [built c r, mem_append, mem_singleton]
      constructor
      · rintro ⟨mem, val⟩
        exact ⟨.inl mem, val⟩
      · rintro ⟨mem | rfl, val⟩
        · exact ⟨mem, val⟩
        · rw [next] at val
          cases val
    | some r =>
      have free : left r = none := by
        by_contra taken
        obtain ⟨c, val⟩ := ne_none_iff_exists'.1 taken
        obtain ⟨mem, next'⟩ := (built c r).1 val
        have inC := linkedOf c (mem_append_left _ mem) (by simp [next'])
        have inA := linkedOf a (by simp) (by simp [next])
        have eq := rings.injective inC inA (next'.trans next.symm)
        exact fresh (eq ▸ mem)
      have step : st.reverseLink left a = .ok (update left r (some a)) := by
        simp [reverseLink, next, free]
      rw [foldlM_cons, step, regroup]
      refine ih (read ++ [a]) (regroup ▸ nodup) (regroup ▸ inRange) _ fun c r' => ?_
      rw [mem_append, mem_singleton]
      by_cases eq : r' = r
      · subst eq
        rw [update_self]
        constructor
        · intro val
          cases val
          exact ⟨.inr rfl, next⟩
        · rintro ⟨mem | rfl, val⟩
          · rw [(built c r').2 ⟨mem, val⟩] at free
            cases free
          · rfl
      · rw [update_of_ne eq, built c r']
        constructor
        · rintro ⟨mem, val⟩
          exact ⟨.inl mem, val⟩
        · rintro ⟨mem | rfl, val⟩
          · exact ⟨mem, val⟩
          · rw [next] at val
            exact absurd (Option.some.inj val).symm eq

/-- **`Left`** builds the reverse links of consistent lists without raising. -/
theorem allocLeft_back {group : ℕ → Option ℕ} (rings : Rings st.right group D)
    (back : ∀ left, st.left = some left → Back st.right left D)
    (clean : st.left = none → ∀ a, a < 2 * st.mAct → ¬ D a → st.right a = none)
    (inRange : ∀ a, D a → a < 2 * st.mAct) :
    ∃ left, st.allocLeft = .ok ({ st with left := some left }, left) ∧ Back st.right left D ∧
      ∀ a, ¬ D a → (∀ left, st.left = some left → left a = none) → left a = none := by
  cases present : st.left with
  | some left =>
    have eq : { st with left := some left } = st := by
      rw [← present]
    refine ⟨left, ?_, back left present, fun a _ old => old left rfl⟩
    rw [allocLeft, present, eq]
  | none =>
    obtain ⟨left, built, spec⟩ := reverseLink_foldlM rings (clean present)
      (List.range (2 * st.mAct)) [] (by simpa using nodup_range) (by simp) (fun _ => none)
      (by simp)
    simp only [nil_append, mem_range] at spec
    refine ⟨left, ?_, ?_, ?_⟩
    · rw [allocLeft, present]
      simp only [built, bind, Except.bind, pure, Except.pure]
    · intro a b inD next
      exact (spec a b).2 ⟨inRange a inD, next⟩
    · intro a out _
      by_contra taken
      obtain ⟨c, val⟩ := ne_none_iff_exists'.1 taken
      obtain ⟨lowC, next⟩ := (spec c a).1 val
      have inC : D c := by
        by_contra outside'
        rw [clean present c lowC outside'] at next
        cases next
      obtain ⟨a', next', inA, -⟩ := rings.next inC
      rw [next] at next'
      cases next'
      exact out inA

theorem allocLeft_spec (linked : st.Linked D) (clean : st.Clean D)
    (inRange : ∀ a, D a → a < 2 * st.mAct) :
    ∃ left, st.allocLeft = .ok ({ st with left := some left }, left) ∧
      { st with left := some left }.Linked D ∧ { st with left := some left }.Clean D ∧
      Back st.right left D := by
  obtain ⟨left, alloc, back, dead⟩ := allocLeft_back linked.rings linked.back
    (fun _ a low out => (clean a low out).1) inRange
  refine ⟨left, alloc, ⟨linked.node, linked.rings, ?_, linked.firstNone, linked.firstSome,
    linked.capacity, linked.spare⟩, ?_, back⟩
  · intro left' eq
    cases eq
    exact back
  · intro a low out
    refine ⟨(clean a low out).1, fun left' eq => ?_⟩
    cases eq
    exact dead a out (clean a low out).2

/-! ## Putting arcs into lists and taking them out -/

/-- **Half of `SetRouting`** puts an arc into the list of its start node. -/
theorem linkArc_spec (linked : st.Linked D) (fresh : ¬ D a) (start : st.startNode a = some u)
    (inRange : u < st.nAct) :
    ∃ st', st.linkArc a u = .ok st' ∧ st'.Linked (fun c => c = a ∨ D c) ∧ SameSize st st' ∧
      st'.startNode = st.startNode ∧ (∀ c, c ≠ a → ¬ D c → st'.right c = st.right c) ∧
      ∀ left', st'.left = some left' →
        ∃ left, st.left = some left ∧ ∀ c, c ≠ a → ¬ D c → left' c = left c := by
  have other : ∀ c, D c → c ≠ a := by
    rintro c inD rfl
    exact fresh inD
  have node : ∀ c, c = a ∨ D c → ∃ v, v < st.nAct ∧ st.startNode c = some v := by
    rintro c (rfl | inD)
    · exact ⟨u, inRange, start⟩
    · exact linked.node c inD
  have first : ∀ v, v < st.nAct → (∀ c, update st.first u (some a) v = none →
        c = a ∨ D c → st.startNode c ≠ some v) ∧
      ∀ f, update st.first u (some a) v = some f → (f = a ∨ D f) ∧ st.startNode f = some v := by
    intro v low
    by_cases eq : v = u
    · subst eq
      rw [update_self]
      refine ⟨fun c none => (by cases none), fun f val => ?_⟩
      cases val
      exact ⟨.inl rfl, start⟩
    · rw [update_of_ne eq]
      refine ⟨?_, fun f val => ?_⟩
      · rintro c none (rfl | inD)
        · rw [start]
          exact fun equal => eq (Option.some.inj equal).symm
        · exact linked.firstNone v low none c inD
      · obtain ⟨inD, startF⟩ := linked.firstSome v low f val
        exact ⟨.inr inD, startF⟩
  have spare : ∀ v, st.nAct ≤ v → v < st.nMax → update st.first u (some a) v = none := by
    intro v high low
    rw [update_of_ne (by omega)]
    exact linked.spare v high low
  cases val : st.first u with
  | none =>
    have alone : ∀ c, D c → st.startNode c ≠ st.startNode a := by
      intro c inD
      rw [start]
      exact linked.firstNone u inRange val c inD
    have atA : update st.right a (some a) a = some a := update_self _ _ _
    have links : ∀ c, D c → update st.right a (some a) c = st.right c := fun c inD =>
      update_of_ne (other c inD) _ _
    have res : st.linkArc a u = .ok { st with
        first := update st.first u (some a)
        right := update st.right a (some a)
        left := st.left.map fun left => update left a (some a) } := by
      simp only [linkArc, val]
    refine ⟨_, res, ⟨node,
      linked.rings.single fresh atA links alone, ?_, fun v low none c => (first v low).1 c none,
      fun v low => (first v low).2, linked.capacity, spare⟩, ⟨rfl, rfl, rfl, rfl, rfl, rfl⟩, rfl,
      fun c notA _ => update_of_ne notA _ _, ?_⟩
    · intro left' present
      obtain ⟨left, isLeft, rfl⟩ := map_eq_some_iff.1 present
      exact (linked.back left isLeft).single linked.rings fresh atA links
        (update_self _ _ _) fun c inD => update_of_ne (other c inD) _ _
    · intro left' present
      obtain ⟨left, isLeft, rfl⟩ := map_eq_some_iff.1 present
      exact ⟨left, isLeft, fun c notA _ => update_of_ne notA _ _⟩
  | some f =>
    obtain ⟨inF, startF⟩ := linked.firstSome u inRange f val
    obtain ⟨next, nextF, inNext, -⟩ := linked.rings.next inF
    set right' := update (update st.right a (some next)) f (some a) with rightEq
    have atF : right' f = some a := update_self _ _ _
    have atA : right' a = st.right f := by
      rw [rightEq, update_of_ne (other f inF).symm, update_self, nextF]
    have links : ∀ c, c ≠ a → c ≠ f → right' c = st.right c := by
      intro c notA notF
      rw [rightEq, update_of_ne notF, update_of_ne notA]
    have res : st.linkArc a u = .ok { st with
        first := update st.first u (some a)
        right := right'
        left := st.left.map fun left =>
          update (update left next (some a)) a (some f) } := by
      simp only [linkArc, val, nextF, defined, bind, Except.bind, pure, Except.pure, rightEq]
    refine ⟨_, res, ⟨node, linked.rings.insert fresh inF (by rw [start, startF]) atF atA
        (fun c inD => links c (other c inD)), ?_, fun v low none c => (first v low).1 c none,
      fun v low => (first v low).2, linked.capacity, spare⟩, ⟨rfl, rfl, rfl, rfl, rfl, rfl⟩, rfl,
      ?_, ?_⟩
    · intro left' present
      obtain ⟨left, isLeft, rfl⟩ := map_eq_some_iff.1 present
      refine (linked.back left isLeft).insert linked.rings fresh inF nextF atF atA
        (fun c inD => links c (other c inD)) (update_self _ _ _) ?_ ?_
      · rw [update_of_ne (other next inNext), update_self]
      · intro c inD notNext
        rw [update_of_ne (other c inD), update_of_ne notNext]
    · intro c notA out
      refine links c notA ?_
      rintro rfl
      exact out inF
    · intro left' present
      obtain ⟨left, isLeft, rfl⟩ := map_eq_some_iff.1 present
      refine ⟨left, isLeft, fun c notA out => ?_⟩
      rw [update_of_ne notA, update_of_ne]
      rintro rfl
      exact out inNext

/-- **Half of `CancelArc`** takes an arc out of its list. -/
theorem unlinkArc_spec (linked : st.Linked D) (clean : st.Clean D)
    (inRange : ∀ a, D a → a < 2 * st.mAct) (inX : D x) :
    ∃ st', st.unlinkArc x = .ok st' ∧ st'.Linked (fun c => D c ∧ c ≠ x) ∧
      st'.Clean (fun c => D c ∧ c ≠ x) ∧ SameSize st st' ∧
      st'.startNode = update st.startNode x none := by
  obtain ⟨left, alloc, -, clean', back⟩ := allocLeft_spec linked clean inRange
  obtain ⟨v, low, start⟩ := linked.node x inX
  obtain ⟨b, next, inB, -⟩ := linked.rings.next inX
  have groups : ∀ c, c ≠ x → update st.startNode x none c = st.startNode c :=
    fun c other => update_of_ne other _ _
  have node : ∀ c, D c ∧ c ≠ x → ∃ w, w < st.nAct ∧ update st.startNode x none c = some w := by
    rintro c ⟨inD, other⟩
    rw [groups c other]
    exact linked.node c inD
  have regroup : ∀ {right' : ℕ → Option ℕ}, Rings right' st.startNode (fun c => D c ∧ c ≠ x) →
      Rings right' (update st.startNode x none) fun c => D c ∧ c ≠ x := by
    intro right' rings
    refine rings.congr (fun _ _ => rfl) ?_
    rintro c d ⟨-, otherC⟩ ⟨-, otherD⟩
    rw [groups c otherC, groups d otherD]
  by_cases single : st.right x = some x
  · have alone : ∀ c, D c → st.startNode c = some v → c = x := by
      intro c inD startC
      obtain ⟨l, ring, mem⟩ := linked.rings x inX
      have member := (mem c).2 ⟨inD, startC.trans start.symm⟩
      have head := ring.next
      rw [single] at head
      cases l with
      | nil => exact mem_singleton.1 member
      | cons d l =>
        have equal : x = d := Option.some.inj head
        exact absurd (by rw [equal]; exact mem_cons_self : x ∈ d :: l) (nodup_cons.1 ring.nodup).1
    have links : ∀ c, c ≠ x → update st.right x none c = st.right c :=
      fun c other => update_of_ne other _ _
    have res : st.unlinkArc x = .ok { st with
        first := update st.first v none
        startNode := update st.startNode x none
        right := update st.right x none
        left := some (update left x none) } := by
      simp only [unlinkArc, alloc, start, defined, single, if_true, bind, Except.bind, pure,
        Except.pure]
    refine ⟨_, res, ⟨node, regroup (linked.rings.removeSingle inX single fun c _ => links c), ?_, ?_, ?_,
        linked.capacity, ?_⟩, ?_, ⟨rfl, rfl, rfl, rfl, rfl, rfl⟩, rfl⟩
    · intro left' present
      cases present
      exact back.removeSingle linked.rings inX single (fun c _ => links c)
        fun c _ other => update_of_ne other _ _
    · rintro w lowW none c ⟨inD, other⟩
      dsimp only at none ⊢
      rw [groups c other]
      by_cases eq : w = v
      · rw [eq]
        exact fun startC => other (alone c inD startC)
      · rw [update_of_ne eq] at none
        exact linked.firstNone w lowW none c inD
    · intro w lowW f val
      dsimp only at val ⊢
      by_cases eq : w = v
      · rw [eq, update_self] at val
        cases val
      rw [update_of_ne eq] at val
      obtain ⟨inD, startF⟩ := linked.firstSome w lowW f val
      have other : f ≠ x := by
        rintro rfl
        rw [start] at startF
        exact eq (Option.some.inj startF).symm
      exact ⟨⟨inD, other⟩, by rw [groups f other, startF]⟩
    · intro w high lowW
      dsimp only at high lowW ⊢
      rw [update_of_ne (by omega)]
      exact linked.spare w high lowW
    · intro c lowC out
      dsimp only
      by_cases eq : c = x
      · subst eq
        refine ⟨update_self _ _ _, fun left' present => ?_⟩
        cases present
        exact update_self _ _ _
      · have notD : ¬ D c := fun inD => out ⟨inD, eq⟩
        refine ⟨(links c eq).trans (clean c lowC notD).1, fun left' present => ?_⟩
        cases present
        rw [update_of_ne eq]
        exact (clean' c lowC notD).2 left rfl
  · obtain ⟨y, prev, inY, groupY⟩ := linked.rings.previous inX
    have leftX : left x = some y := back y x inY prev
    have proper : b ≠ x := by
      rintro rfl
      exact single next
    have notX : y ≠ x := by
      rintro rfl
      exact single prev
    set right' := update (update st.right y (some b)) x none with rightEq
    set left1 := update (update left b (some y)) x none with leftEq
    have atY : right' y = some b := by
      rw [rightEq, update_of_ne notX, update_self]
    have links : ∀ c, c ≠ x → c ≠ y → right' c = st.right c := by
      intro c other otherY
      rw [rightEq, update_of_ne other, update_of_ne otherY]
    have links' : ∀ c, c ≠ x → c ≠ b → left1 c = left c := by
      intro c other otherB
      rw [leftEq, update_of_ne other, update_of_ne otherB]
    have atB : left1 b = some y := by
      rw [leftEq, update_of_ne proper, update_self]
    have res : st.unlinkArc x = .ok { st with
        first := if st.first v = some x then update st.first v (some y) else st.first
        startNode := update st.startNode x none
        right := right'
        left := some left1 } := by
      simp only [unlinkArc, alloc, start, defined, next, Option.some.injEq, proper, if_false, leftX,
        bind, Except.bind, pure, Except.pure, rightEq, leftEq]
    refine ⟨_, res, ⟨node, regroup (linked.rings.remove inX inY prev next proper atY fun c _ => links c),
        ?_, ?_, ?_, linked.capacity, ?_⟩, ?_, ⟨rfl, rfl, rfl, rfl, rfl, rfl⟩, rfl⟩
    · intro left' present
      cases present
      exact back.remove linked.rings inX inY prev next atY (fun c _ => links c) atB
        fun c _ => links' c
    · rintro w lowW none c ⟨inD, other⟩
      dsimp only at none ⊢
      rw [groups c other]
      refine linked.firstNone w lowW ?_ c inD
      split_ifs at none with moved
      · by_cases eq : w = v
        · rw [eq, update_self] at none
          cases none
        · rwa [update_of_ne eq] at none
      · exact none
    · intro w lowW f val
      dsimp only at val ⊢
      have old : ∀ f, st.first w = some f → f ≠ x → (D f ∧ f ≠ x) ∧
          update st.startNode x none f = some w := by
        intro f val other
        obtain ⟨inD, startF⟩ := linked.firstSome w lowW f val
        exact ⟨⟨inD, other⟩, by rw [groups f other, startF]⟩
      by_cases eq : w = v
      · subst eq
        split_ifs at val with moved
        · rw [update_self] at val
          cases val
          exact ⟨⟨inY, notX⟩, by rw [groups y notX, groupY, start]⟩
        · refine old f val ?_
          rintro rfl
          exact moved val
      · have val' : st.first w = some f := by
          split_ifs at val
          · rwa [update_of_ne eq] at val
          · exact val
        refine old f val' ?_
        rintro rfl
        rw [(linked.firstSome w lowW f val').2] at start
        exact eq (Option.some.inj start)
    · intro w high lowW
      dsimp only at high lowW ⊢
      split_ifs
      · rw [update_of_ne (by omega)]
        exact linked.spare w high lowW
      · exact linked.spare w high lowW
    · intro c lowC out
      dsimp only
      by_cases eq : c = x
      · subst eq
        refine ⟨update_self _ _ _, fun left' present => ?_⟩
        cases present
        exact update_self _ _ _
      have notD : ¬ D c := fun inD => out ⟨inD, eq⟩
      refine ⟨(links c eq ?_).trans (clean c lowC notD).1, fun left' present => ?_⟩
      · rintro rfl
        exact notD inY
      · cases present
        rw [links' c eq]
        · exact (clean' c lowC notD).2 left rfl
        · rintro rfl
          exact notD inB

/-! ## Routing and cancelling arcs -/

theorem setRouting_spec (linked : st.Linked D) (fresh : ¬ D af) (freshRev : ¬ D (rev af))
    (lowU : u < st.nAct) (lowV : v < st.nAct) : ∃ st', st.setRouting af u v = .ok st' ∧
      st'.Linked (fun c => c = rev af ∨ c = af ∨ D c) ∧ SameSize st st' ∧
      st'.startNode = update (update st.startNode af (some u)) (rev af) (some v) ∧
      (∀ c, c ≠ af → c ≠ rev af → ¬ D c → st'.right c = st.right c) ∧
      ∀ left', st'.left = some left' → ∃ left, st.left = some left ∧
        ∀ c, c ≠ af → c ≠ rev af → ¬ D c → left' c = left c := by
  set startNode' := update (update st.startNode af (some u)) (rev af) (some v) with startEq
  have old : ∀ c, D c → startNode' c = st.startNode c := by
    intro c inD
    rw [startEq, update_of_ne (by rintro rfl; exact freshRev inD),
      update_of_ne (by rintro rfl; exact fresh inD)]
  have linked0 : { st with startNode := startNode' }.Linked D := by
    refine ⟨fun c inD => ?_, linked.rings.congr (fun _ _ => rfl) ?_, linked.back, ?_, ?_,
      linked.capacity, linked.spare⟩
    · dsimp only
      rw [old c inD]
      exact linked.node c inD
    · intro c d inC inD
      dsimp only
      rw [old c inC, old d inD]
    · intro w low none c inD
      dsimp only
      rw [old c inD]
      exact linked.firstNone w low none c inD
    · intro w low f val
      obtain ⟨inD, start⟩ := linked.firstSome w low f val
      exact ⟨inD, (old f inD).trans start⟩
  have startAf : startNode' af = some u := by
    rw [startEq, update_of_ne (rev_ne af).symm, update_self]
  have startRev : startNode' (rev af) = some v := update_self _ _ _
  obtain ⟨st1, res1, linked1, size1, start1, right1, left1⟩ :=
    linkArc_spec linked0 fresh startAf lowU
  obtain ⟨st2, res2, linked2, size2, start2, right2, left2⟩ :=
    linkArc_spec linked1 (a := rev af) (u := v)
      (fun mem => mem.elim (rev_ne af) freshRev) (by rw [start1]; exact startRev)
      (by rw [size1.nAct]; exact lowV)
  have size0 : SameSize st { st with startNode := startNode' } := ⟨rfl, rfl, rfl, rfl, rfl, rfl⟩
  refine ⟨st2, ?_, linked2, (size0.trans size1).trans size2, start2.trans start1, ?_, ?_⟩
  · simp only [setRouting, ← startEq, res1, bind, Except.bind]
    exact res2
  · intro c notAf notRev out
    rw [right2 c notRev (by simp [notAf, out]), right1 c notAf out]
  · intro left' present
    obtain ⟨left, present1, eq2⟩ := left2 left' present
    obtain ⟨left0, present0, eq1⟩ := left1 left present1
    refine ⟨left0, present0, fun c notAf notRev out => ?_⟩
    rw [eq2 c notRev (by simp [notAf, out]), eq1 c notAf out]

theorem setRouting_sound (low : af < 2 * st.mAct) (lowU : u < st.nAct) (lowV : v < st.nAct)
    (others : ∀ c, D c ↔ c < 2 * st.mAct ∧ c ≠ af ∧ c ≠ rev af ∧ st.startNode c ≠ none)
    (linked : st.Linked D) (clean : ∀ c, c < 2 * st.mAct → c ≠ af → c ≠ rev af → ¬ D c →
      st.right c = none ∧ ∀ left, st.left = some left → left c = none)
    (paired : ∀ c, c < 2 * st.mAct → c ≠ af → c ≠ rev af →
      (st.startNode c = none ↔ st.startNode (rev c) = none)) :
    ∃ st', st.setRouting af u v = .ok st' ∧ st'.Sound ∧ SameSize st st' ∧ st'.startNode =
        update (update st.startNode af (some u)) (rev af) (some v) := by
  obtain ⟨st', res, linked', size, start, right, left⟩ := setRouting_spec linked
    (fun mem => ((others af).1 mem).2.1 rfl)
    (fun mem => ((others (rev af)).1 mem).2.2.1 rfl) lowU lowV
  have startAf : st'.startNode af ≠ none := by
    rw [start, update_of_ne (rev_ne af).symm, update_self]
    simp
  have startRev : st'.startNode (rev af) ≠ none := by
    rw [start, update_self]
    simp
  have startOther : ∀ c, c ≠ af → c ≠ rev af → st'.startNode c = st.startNode c := by
    intro c notAf notRev
    rw [start, update_of_ne notRev, update_of_ne notAf]
  have live : ∀ c, st'.Live c ↔ c = rev af ∨ c = af ∨ D c := by
    intro c
    rw [Live, size.mAct, others c]
    by_cases isAf : c = af
    · subst isAf
      simp [low, startAf]
    · by_cases isRev : c = rev af
      · subst isRev
        simp [rev_lt, low, startRev]
      · rw [startOther c isAf isRev]
        simp [isAf, isRev]
  refine ⟨st', res, ⟨linked'.congr live, ?_, ?_⟩, size, start⟩
  · intro c lowC dead
    rw [live, not_or, not_or] at dead
    rw [size.mAct] at lowC
    obtain ⟨noRight, noLeft⟩ := clean c lowC dead.2.1 dead.1 dead.2.2
    refine ⟨(right c dead.2.1 dead.1 dead.2.2).trans noRight, fun left' present => ?_⟩
    obtain ⟨left0, present0, eq⟩ := left left' present
    rw [eq c dead.2.1 dead.1 dead.2.2]
    exact noLeft left0 present0
  · intro c lowC
    rw [size.mAct] at lowC
    by_cases isAf : c = af
    · subst isAf
      simp [startAf, startRev]
    by_cases isRev : c = rev af
    · subst isRev
      simp [startAf, startRev]
    have notAf : rev c ≠ af := by
      rintro rfl
      exact isRev (rev_rev c).symm
    have notRev : rev c ≠ rev af := fun eq => isAf (rev_injective eq)
    rw [startOther c isAf isRev, startOther (rev c) notAf notRev]
    exact paired c lowC isAf isRev

theorem markExteriorFace_spec (linked : st.Linked D) (low : a < 2 * st.mAct) (inRev : D (rev a)) :
    ∃ st', (if st.right (rev a) = some a then st.markExteriorFace a else .ok st) = .ok st' ∧
      st'.Linked D ∧ SameSize st st' ∧ st'.startNode = st.startNode ∧ st'.right = st.right ∧
      st'.left = st.left := by
  by_cases follows : st.right (rev a) = some a
  · obtain ⟨v, lowV, start⟩ := linked.node _ inRev
    obtain ⟨k, fuel⟩ : ∃ k, 2 * st.mAct = k + 1 := ⟨2 * st.mAct - 1, by omega⟩
    refine ⟨{ st with first := update st.first v (some (rev a)) }, ?_, ⟨linked.node,
      linked.rings, linked.back, ?_, ?_, linked.capacity, ?_⟩, ⟨rfl, rfl, rfl, rfl, rfl, rfl⟩, rfl,
      rfl, rfl⟩
    · rw [if_pos follows]
      simp only [markExteriorFace, fuel, faceLoop, start, defined, setFirst, not_le.2 lowV, if_false,
        ne_eq, not_true_eq_false, follows, bind, Except.bind, pure, Except.pure, if_true]
    · intro w lowW none
      dsimp only at none
      by_cases eq : w = v
      · rw [eq, update_self] at none
        cases none
      · rw [update_of_ne eq] at none
        exact linked.firstNone w lowW none
    · intro w lowW f val
      dsimp only at val
      rcases of_update val with ⟨eq, ⟨⟩⟩ | ⟨-, val⟩
      · exact ⟨inRev, by rw [eq]; exact start⟩
      · exact linked.firstSome w lowW f val
    · intro w high lowW
      dsimp only at high lowW ⊢
      rw [update_of_ne (by omega)]
      exact linked.spare w high lowW
  · exact ⟨st, if_neg follows, linked, .refl st, rfl, rfl, rfl⟩

theorem Clean.of_links (clean : st.Clean D) (size : SameSize st st') (right : st'.right = st.right)
    (left : st'.left = st.left) : st'.Clean D := by
  intro a low out
  rw [size.mAct] at low
  rw [right, left]
  exact clean a low out

section

variable (sound : st.Sound)
include sound

theorem Sound.live_rev (live : st.Live a) : st.Live (rev a) :=
  ⟨rev_lt.2 live.1, fun none => live.2 ((sound.paired a live.1).2 none)⟩

theorem cancelArc_spec (live : st.Live a) :
    ∃ st', st.cancelArc a = .ok st' ∧ st'.Sound ∧ SameSize st st' ∧
      st'.startNode = update (update st.startNode a none) (rev a) none := by
  have liveRev := sound.live_rev live
  obtain ⟨st1, res1, linked1, size1, start1, right1, left1⟩ :=
    markExteriorFace_spec sound.linked live.1 liveRev
  obtain ⟨st2, res2, linked2, clean2, size2, start2⟩ := unlinkArc_spec linked1
    (sound.clean.of_links size1 right1 left1) (fun c inD => by rw [size1.mAct]; exact inD.1) live
  obtain ⟨st3, res3, linked3, clean3, size3, start3⟩ := unlinkArc_spec linked2 clean2
    (fun c inD => by rw [size2.mAct, size1.mAct]; exact inD.1.1) ⟨liveRev, rev_ne a⟩
  have size := (size1.trans size2).trans size3
  have start : st3.startNode = update (update st.startNode a none) (rev a) none := by
    rw [start3, start2, start1]
  have startOther : ∀ c, c ≠ a → c ≠ rev a → st3.startNode c = st.startNode c := by
    intro c notA notRev
    rw [start, update_of_ne notRev, update_of_ne notA]
  have startA : st3.startNode a = none := by
    rw [start, update_of_ne (rev_ne a).symm, update_self]
  have startRev : st3.startNode (rev a) = none := by
    rw [start, update_self]
  have live' : ∀ c, st3.Live c ↔ (st.Live c ∧ c ≠ a) ∧ c ≠ rev a := by
    intro c
    rw [Live, Live, size.mAct]
    by_cases isA : c = a
    · subst isA
      simp [startA]
    · by_cases isRev : c = rev a
      · subst isRev
        simp [startRev]
      · rw [startOther c isA isRev]
        simp [isA, isRev]
  refine ⟨st3, ?_, ⟨linked3.congr live', clean3.congr live', ?_⟩, size, start⟩
  · rw [cancelArc, if_neg (not_le.2 live.1), if_neg live.2]
    simp only [res1, res2, bind, Except.bind]
    exact res3
  · intro c low
    rw [size.mAct] at low
    by_cases isA : c = a
    · subst isA
      rw [startA, startRev]
    by_cases isRev : c = rev a
    · subst isRev
      rw [rev_rev, startA, startRev]
    have notA : rev c ≠ a := by
      rintro rfl
      exact isRev (rev_rev c).symm
    have notRev : rev c ≠ rev a := fun eq => isA (rev_injective eq)
    rw [startOther c isA isRev, startOther (rev c) notA notRev]
    exact sound.paired c low

theorem routeArc_spec (low : a < 2 * st.mAct) (lowU : u < st.nAct)
    (lowV : v < st.nAct) : ∃ st', st.routeArc a u v = .ok st' ∧ st'.Sound ∧ SameSize st st' := by
  rw [routeArc, if_neg (not_le.2 low), if_neg (not_le.2 lowU), if_neg (not_le.2 lowV)]
  by_cases eq : st.startNode a = some u ∧ st.startNode (rev a) = some v
  · exact ⟨st, if_pos eq, sound, .refl st⟩
  -- the arc is cancelled now, or it has been before
  have cancelled : ∃ st1, (if st.startNode a ≠ none ∨ st.startNode (rev a) ≠ none then
      st.cancelArc a else .ok st) = .ok st1 ∧ st1.Sound ∧ SameSize st st1 ∧
      st1.startNode a = none := by
    by_cases present : st.startNode a = none
    · have presentRev := (sound.paired a low).1 present
      exact ⟨st, if_neg (by simp [present, presentRev]), sound, .refl st, present⟩
    · obtain ⟨st1, res, sound1, size, start⟩ := cancelArc_spec sound ⟨low, present⟩
      refine ⟨st1, (if_pos (.inl present)).trans res, sound1, size, ?_⟩
      rw [start, update_of_ne (rev_ne a).symm, update_self]
  obtain ⟨st1, res1, sound1, size1, start⟩ := cancelled
  rw [← size1.mAct] at low
  rw [← size1.nAct] at lowU lowV
  have startRev := (sound1.paired a low).1 start
  obtain ⟨st2, res2, sound2, size2, -⟩ := setRouting_sound low lowU lowV (fun c => by
      rw [Live]
      constructor
      · rintro ⟨lowC, present⟩
        refine ⟨lowC, ?_, ?_, present⟩
        · rintro rfl
          exact present start
        · rintro rfl
          exact present startRev
      · rintro ⟨lowC, -, -, present⟩
        exact ⟨lowC, present⟩) sound1.linked
    (fun c lowC _ _ dead => sound1.clean c lowC dead) (fun c lowC _ _ => sound1.paired c lowC)
  refine ⟨st2, ?_, sound2, size1.trans size2⟩
  simp only [if_neg eq, res1, bind, Except.bind]
  exact res2

theorem insertArc_spec (lowU : u < st.nAct) (lowV : v < st.nAct)
    (room : 2 * st.mMax ≤ st.maxArc - 2) :
    ∃ st', st.insertArc u v = .ok st' ∧ st'.Sound ∧ SameSize { st with
        mAct := st.mAct + 1
        mMax := if st.mMax + 1 = st.mAct + 1 then st.mMax + 1 else st.mMax } st' ∧
      st'.startNode = update (update st.startNode (2 * st.mAct) (some u))
        (2 * st.mAct + 1) (some v) := by
  set st0 : SparseState := { st with
    mAct := st.mAct + 1
    mMax := if st.mMax + 1 = st.mAct + 1 then st.mMax + 1 else st.mMax } with stEq
  have reverse : rev (2 * st.mAct) = 2 * st.mAct + 1 := by
    rw [rev_eq, if_pos (by omega)]
  have linked : st0.Linked st.Live := ⟨sound.linked.node, sound.linked.rings, sound.linked.back,
    sound.linked.firstNone, sound.linked.firstSome, sound.linked.capacity, sound.linked.spare⟩
  have lowOf : ∀ c, c < 2 * st0.mAct → c ≠ 2 * st.mAct → c ≠ rev (2 * st.mAct) →
      c < 2 * st.mAct := by
    intro c low notAf notRev
    rw [reverse] at notRev
    simp only [stEq] at low
    omega
  have low0 : 2 * st.mAct < 2 * st0.mAct := by
    simp only [stEq]
    omega
  obtain ⟨st', res, sound', size, start⟩ := setRouting_sound low0 lowU lowV (fun c => by
      rw [Live]
      constructor
      · rintro ⟨low, present⟩
        refine ⟨by simp only [stEq]; omega, by omega, by omega, present⟩
      · rintro ⟨low, notAf, notRev, present⟩
        exact ⟨lowOf c low notAf notRev, present⟩) linked
    (fun c low notAf notRev dead => sound.clean c (lowOf c low notAf notRev) dead)
    (fun c low notAf notRev => sound.paired c (lowOf c low notAf notRev))
  refine ⟨st', ?_, sound', size, reverse ▸ start⟩
  rw [insertArc, if_neg (not_le.2 lowU), if_neg (not_le.2 lowV), if_neg (not_lt.2 room)]
  exact res

end

/-! ## Cancelling nodes -/

/-- The number of arcs that have not been cancelled. -/
def liveCount (st : SparseState) : ℕ :=
  ((List.range st.mAct).filter fun e => st.startNode (2 * e) ≠ none).length

theorem liveCount_le (st : SparseState) : st.liveCount ≤ st.mAct := by
  have bound := length_filter_le (fun e => decide (st.startNode (2 * e) ≠ none))
    (List.range st.mAct)
  rwa [length_range] at bound

theorem liveCount_lt (sound : st.Sound) (live : st.Live a) (size : SameSize st st')
    (start : st'.startNode = update (update st.startNode a none) (rev a) none) :
    st'.liveCount < st.liveCount := by
  have low := live.1
  have half : 2 * (a / 2) = a ∨ 2 * (a / 2) = rev a := by
    rw [rev_eq]
    split_ifs <;> omega
  have was : st.startNode (2 * (a / 2)) ≠ none := by
    rcases half with eq | eq
    · rw [eq]
      exact live.2
    · rw [eq]
      exact (sound.live_rev live).2
  have isNow : st'.startNode (2 * (a / 2)) = none := by
    rw [start]
    rcases half with eq | eq
    · rw [eq, update_of_ne (rev_ne a).symm, update_self]
    · rw [eq, update_self]
  have fewer : ∀ c, st'.startNode c ≠ none → st.startNode c ≠ none := by
    intro c present none
    rw [start] at present
    by_cases isRev : c = rev a
    · rw [isRev, update_self] at present
      exact present rfl
    rw [update_of_ne isRev] at present
    by_cases isA : c = a
    · rw [isA, update_self] at present
      exact present rfl
    · rw [update_of_ne isA] at present
      exact present none
  rw [liveCount, liveCount, size.mAct]
  have sub : (List.range st.mAct).filter (fun e => st'.startNode (2 * e) ≠ none) =
      ((List.range st.mAct).filter fun e => st.startNode (2 * e) ≠ none).filter
        fun e => st'.startNode (2 * e) ≠ none := by
    rw [List.filter_filter]
    refine List.filter_congr fun e _ => ?_
    by_cases present : st'.startNode (2 * e) = none
    · simp [present]
    · simp [present, fewer _ present]
  rw [sub]
  refine length_filter_lt_length_iff_exists.2 ⟨a / 2, ?_, by simp [isNow]⟩
  simp only [mem_filter, mem_range, decide_eq_true_iff]
  exact ⟨by omega, was⟩

theorem cancelNodeLoop_spec (sound : st.Sound) (low : v < st.nAct) (enough : st.liveCount < count) :
    ∃ st', cancelNodeLoop v count st = .ok st' ∧ st'.Sound ∧ SameSize st st' ∧
      st'.first v = none := by
  induction count generalizing st with
  | zero => omega
  | succ count ih =>
    cases val : st.first v with
    | none => exact ⟨st, by simp [cancelNodeLoop, val], sound, .refl st, val⟩
    | some a =>
      have live := (sound.linked.firstSome v low a val).1
      obtain ⟨st1, res1, sound1, size1, start1⟩ := cancelArc_spec sound live
      have fewer := liveCount_lt sound live size1 start1
      obtain ⟨st2, res2, sound2, size2, none⟩ :=
        ih sound1 (by rw [size1.nAct]; exact low) (by omega)
      refine ⟨st2, ?_, sound2, size1.trans size2, none⟩
      simp only [cancelNodeLoop, val, res1, bind, Except.bind]
      exact res2

theorem cancelNode_spec (sound : st.Sound) (low : v < st.nAct) :
    ∃ st', st.cancelNode v = .ok st' ∧ st'.Sound ∧ SameSize st st' ∧ st'.first v = none := by
  rw [cancelNode, if_neg (not_le.2 low)]
  have bound := st.liveCount_le
  exact cancelNodeLoop_spec sound low (by omega)

/-! ## Relabelling -/

theorem relabel_spec {right : ℕ → Option ℕ} {stop : ℕ} (startNode : ℕ → Option ℕ) {c : ℕ}
    {l : List ℕ} (links : Links right (c :: l) (some stop)) (apart : stop ∉ l)
    (nodup : (c :: l).Nodup) (enough : l.length < count) :
    ∃ startNode' y, relabel right stop x count c startNode = .ok (startNode', y) ∧
      y ∈ c :: l ∧ right y = some stop ∧ (∀ d ∈ c :: l, startNode' d = some x) ∧
      ∀ d, d ∉ c :: l → startNode' d = startNode d := by
  induction l generalizing c count startNode with
  | nil =>
    obtain ⟨count, rfl⟩ : ∃ k, count = k + 1 := ⟨count - 1, by simp at enough; omega⟩
    have next : right c = some stop := links.1
    refine ⟨update startNode c (some x), c, ?_, by simp, next, ?_, ?_⟩
    · simp only [relabel, next, defined, bind, Except.bind, if_true, pure, Except.pure]
    · intro d mem
      rw [mem_singleton.1 mem, update_self]
    · intro d out
      rw [mem_singleton] at out
      exact update_of_ne out _ _
  | cons b l ih =>
    rw [length_cons] at enough
    obtain ⟨count, rfl⟩ : ∃ k, count = k + 1 := ⟨count - 1, by omega⟩
    have next : right c = some b := links.1
    have notStop : b ≠ stop := by
      rintro rfl
      exact apart mem_cons_self
    obtain ⟨startNode', y, res, mem, last, set, kept⟩ :=
      ih (update startNode c (some x)) links.2
        (fun inside => apart (mem_cons_of_mem _ inside)) (nodup_cons.1 nodup).2
        (by omega : l.length < count)
    refine ⟨startNode', y, ?_, mem_cons_of_mem _ mem, last, ?_, ?_⟩
    · simp only [relabel, next, defined, bind, Except.bind, notStop, if_false]
      exact res
    · intro d inside
      rcases mem_cons.1 inside with rfl | later
      · rw [kept d (nodup_cons.1 nodup).1, update_self]
      · exact set d later
    · intro d out
      rw [mem_cons, not_or] at out
      rw [kept d out.2, update_of_ne out.1]

section

variable (linked : st.Linked D) (inRange : ∀ a, D a → a < 2 * st.mAct)
include linked inRange

/-- Going once around the list of an arc sets the start nodes of the whole list. -/
theorem relabel_ring (inA : D a)
    (start : st.startNode a = some v) (x : ℕ) (startNode : ℕ → Option ℕ) :
    ∃ startNode' y, relabel st.right a x (2 * st.mAct) a startNode = .ok (startNode', y) ∧
      D y ∧ st.startNode y = some v ∧ st.right y = some a ∧
      (∀ d, D d → st.startNode d = some v → startNode' d = some x) ∧
      ∀ d, (D d → st.startNode d ≠ some v) → startNode' d = startNode d := by
  obtain ⟨l, ring, mem⟩ := linked.rings a inA
  rw [start] at mem
  have short : l.length < 2 * st.mAct := by
    have sub : (a :: l) ⊆ List.range (2 * st.mAct) := fun d member =>
      mem_range.2 (inRange d ((mem d).1 member).1)
    have bound := (ring.nodup.subperm sub).length_le
    rw [length_range, length_cons] at bound
    omega
  obtain ⟨startNode', y, res, member, last, set, kept⟩ :=
    relabel_spec (x := x) startNode ring.links (nodup_cons.1 ring.nodup).1 ring.nodup short
  refine ⟨startNode', y, res, ((mem y).1 member).1, ((mem y).1 member).2, last,
    fun d inD eq => set d ((mem d).2 ⟨inD, eq⟩), fun d other => kept d fun inList => ?_⟩
  obtain ⟨inD, eq⟩ := (mem d).1 inList
  exact other inD eq

theorem relabelNode_spec
    (low : v < st.nAct) (x : ℕ) (startNode : ℕ → Option ℕ) :
    ∃ startNode', { st with startNode := startNode }.relabelNode v x =
        .ok { st with startNode := startNode' } ∧
      (∀ d, D d → st.startNode d = some v → startNode' d = some x) ∧
      ∀ d, (D d → st.startNode d ≠ some v) → startNode' d = startNode d := by
  cases val : st.first v with
  | none =>
    refine ⟨startNode, by simp only [relabelNode, val], fun d inD start => ?_, fun _ _ => rfl⟩
    exact absurd start (linked.firstNone v low val d inD)
  | some a =>
    obtain ⟨inA, start⟩ := linked.firstSome v low a val
    obtain ⟨startNode', y, res, -, -, -, set, kept⟩ :=
      relabel_ring linked inRange inA start x startNode
    refine ⟨startNode', ?_, set, kept⟩
    simp only [relabelNode, val, res, bind, Except.bind, pure, Except.pure]

end

theorem swapNodes_spec (sound : st.Sound) (lowU : u < st.nAct) (lowV : v < st.nAct) :
    ∃ st', st.swapNodes u v = .ok st' ∧ st'.Sound ∧ SameSize st st' ∧
      (∀ a, a < 2 * st.mAct → st'.startNode a = (st.startNode a).map (Equiv.swap u v)) ∧
      ∀ w, st'.first w = st.first (Equiv.swap u v w) := by
  rw [swapNodes, if_neg (not_le.2 lowU), if_neg (not_le.2 lowV)]
  by_cases eq : u = v
  · subst eq
    exact ⟨st, if_pos rfl, sound, .refl st, by simp, by simp⟩
  rw [if_neg eq]
  obtain ⟨start1, res1, set1, kept1⟩ :=
    relabelNode_spec sound.linked (fun a live => live.1) lowU v st.startNode
  obtain ⟨start2, res2, set2, kept2⟩ :=
    relabelNode_spec sound.linked (fun a live => live.1) lowV u start1
  -- on the live arcs the start nodes are exchanged
  have start : ∀ d, st.Live d → start2 d = (st.startNode d).map (Equiv.swap u v) := by
    intro d live
    obtain ⟨w, -, startD⟩ := sound.linked.node d live
    rw [startD]
    by_cases atV : w = v
    · subst atV
      rw [set2 d live startD, map_some, swap_apply_right]
    have notV : st.startNode d ≠ some v := by
      rw [startD]
      exact fun equal => atV (Option.some.inj equal)
    rw [kept2 d fun _ => notV]
    by_cases atU : w = u
    · subst atU
      rw [set1 d live startD, map_some, Equiv.swap_apply_left]
    · have notU : st.startNode d ≠ some u := by
        rw [startD]
        exact fun equal => atU (Option.some.inj equal)
      rw [kept1 d fun _ => notU, startD, map_some, swap_apply_of_ne_of_ne atU atV]
  have dead : ∀ d, ¬ st.Live d → start2 d = st.startNode d := by
    intro d notLive
    rw [kept2 d fun live => absurd live notLive, kept1 d fun live => absurd live notLive]
  have absent : ∀ d, d < 2 * st.mAct → (start2 d = none ↔ st.startNode d = none) := by
    intro d low
    by_cases live : st.Live d
    · rw [start d live, map_eq_none_iff]
    · rw [dead d live]
  set first' := update (update st.first u (st.first v)) v (st.first u) with firstEq
  have first : ∀ w, first' w = st.first (Equiv.swap u v w) := by
    intro w
    rw [firstEq]
    by_cases atV : w = v
    · rw [atV, update_self, swap_apply_right]
    · rw [update_of_ne atV]
      by_cases atU : w = u
      · rw [atU, update_self, Equiv.swap_apply_left]
      · rw [update_of_ne atU, swap_apply_of_ne_of_ne atU atV]
  have lowSwap : ∀ w, w < st.nAct → Equiv.swap u v w < st.nAct := by
    intro w low
    rw [swap_apply_def]
    split_ifs
    · exact lowV
    · exact lowU
    · exact low
  have startAt : ∀ d w, st.Live d → (start2 d = some w ↔
      st.startNode d = some (Equiv.swap u v w)) := by
    intro d w live
    rw [start d live]
    constructor
    · intro mapped
      obtain ⟨w', startD, rfl⟩ := map_eq_some_iff.1 mapped
      rw [swap_apply_self, startD]
    · intro startD
      rw [startD, map_some, swap_apply_self]
  have live' : ∀ d, ({ st with startNode := start2, first := first' } : SparseState).Live d ↔
      st.Live d := by
    intro d
    rw [Live, Live]
    exact and_congr_right fun low => not_congr (absent d low)
  refine ⟨{ st with startNode := start2, first := first' }, ?_, ⟨Linked.congr ⟨?_, ?_,
    sound.linked.back, ?_, ?_, sound.linked.capacity, ?_⟩ live', Clean.congr sound.clean live',
    ?_⟩, ⟨rfl, rfl, rfl, rfl, rfl, rfl⟩, fun d low => ?_, first⟩
  · have whole : ({ st with startNode := st.startNode } : SparseState) = st := rfl
    rw [whole] at res1
    simp only [res1, res2, bind, Except.bind, pure, Except.pure, firstEq]
  · intro d live
    obtain ⟨w, low, startD⟩ := sound.linked.node d live
    refine ⟨Equiv.swap u v w, lowSwap w low, ?_⟩
    dsimp only
    rw [start d live, startD, map_some]
  · refine sound.linked.rings.congr (fun _ _ => rfl) fun c d liveC liveD => ?_
    dsimp only
    rw [start c liveC, start d liveD]
    exact (map_injective (Equiv.swap u v).injective).eq_iff
  · intro w low none d live
    dsimp only at none ⊢
    rw [first] at none
    rw [ne_eq, startAt d w live]
    exact sound.linked.firstNone _ (lowSwap w low) none d live
  · intro w low f val
    dsimp only at val ⊢
    rw [first] at val
    obtain ⟨live, startF⟩ := sound.linked.firstSome _ (lowSwap w low) f val
    exact ⟨live, (startAt f w live).2 startF⟩
  · intro w high low
    dsimp only at high low ⊢
    rw [first, swap_apply_of_ne_of_ne (by omega) (by omega)]
    exact sound.linked.spare w high low
  · intro d low
    dsimp only at low ⊢
    rw [absent d low, absent (rev d) (rev_lt.2 low)]
    exact sound.paired d low
  · by_cases live : st.Live d
    · exact start d live
    · have cancelled : st.startNode d = none := by
        by_contra present
        exact live ⟨low, present⟩
      exact (dead d live).trans (by rw [cancelled, map_none])

theorem Sound.dropLast (sound : st.Sound) (dead : st.startNode (2 * st.mAct - 2) = none)
    (pos : 0 < st.mAct) : ({ st with mAct := st.mAct - 1 } : SparseState).Sound := by
  have reverse : rev (2 * st.mAct - 2) = 2 * st.mAct - 1 := by
    rw [rev_eq, if_pos (by omega)]
    omega
  have deadRev : st.startNode (2 * st.mAct - 1) = none := by
    rw [← reverse]
    exact (sound.paired _ (by omega)).1 dead
  have live : ∀ c, ({ st with mAct := st.mAct - 1 } : SparseState).Live c ↔ st.Live c := by
    intro c
    rw [Live, Live]
    constructor
    · rintro ⟨low, present⟩
      exact ⟨by dsimp only at low; omega, present⟩
    · rintro ⟨low, present⟩
      refine ⟨?_, present⟩
      have notLast : c ≠ 2 * st.mAct - 2 := by
        rintro rfl
        exact present dead
      have notLastRev : c ≠ 2 * st.mAct - 1 := by
        rintro rfl
        exact present deadRev
      dsimp only
      omega
  have linked : ({ st with mAct := st.mAct - 1 } : SparseState).Linked st.Live :=
    ⟨sound.linked.node, sound.linked.rings, sound.linked.back, sound.linked.firstNone,
      sound.linked.firstSome, sound.linked.capacity, sound.linked.spare⟩
  refine ⟨linked.congr live, Clean.congr ?_ live, fun c low => sound.paired c ?_⟩
  · intro c low out
    exact sound.clean c (by dsimp only at low; omega) out
  · dsimp only at low
    omega

theorem update_none {f : ℕ → Option ℕ} (val : f a = none) : update f a none = f := by
  rw [← val, update_eq_self]

/-! ## Consistent lists -/

/-- What the incidence lists are for: `first` and `right` list the arcs that leave a node,
and `left` is the inverse of `right`. -/
structure IncidenceLists (st : SparseState) : Prop where
  /-- `first` is missing exactly at the nodes that no arc leaves. -/
  first : ∀ v, v < st.nAct →
    (st.first v = none ↔ ∀ a, a < 2 * st.mAct → st.startNode a ≠ some v)
  /-- The arcs that leave `v` form one circular list, and `first` is one of them. -/
  lists : ∀ v, v < st.nAct → ∀ f, st.first v = some f → ∃ l, CircularList st.right f l ∧
    ∀ a, a ∈ f :: l ↔ a < 2 * st.mAct ∧ st.startNode a = some v
  /-- Start nodes are nodes of the graph. -/
  nodes : ∀ a, a < 2 * st.mAct → ∀ v, st.startNode a = some v → v < st.nAct
  /-- An arc is cancelled together with its reverse arc. -/
  paired : ∀ a, a < 2 * st.mAct → (st.startNode a = none ↔ st.startNode (rev a) = none)
  /-- Cancelled arcs have no links. -/
  cancelled : ∀ a, a < 2 * st.mAct → st.startNode a = none →
    st.right a = none ∧ ∀ left, st.left = some left → left a = none
  /-- The reverse links, once they are there, invert the links. -/
  inverse : ∀ left, st.left = some left → ∀ a, st.Live a →
    ∃ b, st.right a = some b ∧ left b = some a

theorem Sound.incidenceLists (sound : st.Sound) : st.IncidenceLists := by
  constructor
  · intro v low
    constructor
    · intro none a lowA start
      exact sound.linked.firstNone v low none a ⟨lowA, by simp [start]⟩ start
    · intro empty
      by_contra present
      obtain ⟨f, val⟩ := ne_none_iff_exists'.1 present
      obtain ⟨live, start⟩ := sound.linked.firstSome v low f val
      exact empty f live.1 start
  · intro v low f val
    obtain ⟨live, start⟩ := sound.linked.firstSome v low f val
    obtain ⟨l, ring, mem⟩ := sound.linked.rings f live
    refine ⟨l, ring, fun a => ?_⟩
    rw [mem a, start]
    constructor
    · rintro ⟨liveA, startA⟩
      exact ⟨liveA.1, startA⟩
    · rintro ⟨lowA, startA⟩
      exact ⟨⟨lowA, by simp [startA]⟩, startA⟩
  · intro a low v start
    obtain ⟨v', lowV, start'⟩ := sound.linked.node a ⟨low, by simp [start]⟩
    rw [start] at start'
    cases start'
    exact lowV
  · exact sound.paired
  · intro a low none
    exact sound.clean a low fun live => live.2 none
  · intro left present a live
    obtain ⟨b, next, -, -⟩ := sound.linked.rings.next live
    exact ⟨b, next, sound.linked.back left present a b live next⟩

end SparseState

end Goblin
