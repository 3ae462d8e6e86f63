import Mathlib.Tactic

/-!
# Chains of slots

Singly linked lists in an array `next` that end at a sentinel `nil`. The list that starts at a
given slot is determined by the links (`Chain.unique`) and has no repetition (`Chain.nodup`).
`chainSearch` walks along a chain to the first slot that satisfies a predicate, and remembers
the slot before it. A chain may have reverse links as well (`BackChain`); a slot is then taken
out without walking along the chain (`Chain.remove_double`).
-/

set_option autoImplicit false

namespace Goblin.Library

open List Function

universe u

/-! ## Chains -/

/-- The links lead from `x` along the slots of the list to the sentinel. -/
def Chain (next : ℕ → ℕ) (nil : ℕ) : ℕ → List ℕ → Prop
  | x, [] => x = nil
  | x, y :: l => x = y ∧ y ≠ nil ∧ Chain next nil (next y) l

variable {next : ℕ → ℕ} {nil x y a : ℕ} {l k : List ℕ}

theorem Chain.unique : ∀ {l k : List ℕ} {x : ℕ}, Chain next nil x l → Chain next nil x k → l = k
  | [], [], _, _, _ => rfl
  | [], _ :: _, _, left, right => absurd (right.1.symm.trans left) right.2.1
  | _ :: _, [], _, left, right => absurd (left.1.symm.trans right) left.2.1
  | y :: l, z :: k, _, left, right => by
    obtain ⟨rfl, -, restLeft⟩ := left
    obtain ⟨rfl, -, restRight⟩ := right
    rw [Chain.unique restLeft restRight]

theorem Chain.congr {next' : ℕ → ℕ} (chain : Chain next nil x l) (eq : ∀ z ∈ l, next' z = next z) :
    Chain next' nil x l := by
  induction l generalizing x with
  | nil => exact chain
  | cons y l ih =>
    obtain ⟨first, inside, rest⟩ := chain
    refine ⟨first, inside, ?_⟩
    rw [eq y mem_cons_self]
    exact ih rest fun z mem => eq z (mem_cons_of_mem y mem)

theorem Chain.update_of_notMem (chain : Chain next nil x l) (out : a ∉ l) (target : ℕ) :
    Chain (update next a target) nil x l := by
  refine chain.congr fun z mem => update_of_ne ?_ _ _
  rintro rfl
  exact out mem

/-- From any slot of a chain the rest of it can be reached. -/
theorem Chain.suffix (chain : Chain next nil x (l ++ k)) : ∃ z, Chain next nil z k := by
  induction l generalizing x with
  | nil => exact ⟨x, chain⟩
  | cons y l ih => exact ih chain.2.2

theorem Chain.ne_nil (chain : Chain next nil x l) : ∀ z ∈ l, z ≠ nil := by
  induction l generalizing x with
  | nil =>
    intro z mem
    cases mem
  | cons y l ih =>
    intro z mem
    rcases mem_cons.1 mem with rfl | later
    · exact chain.2.1
    · exact ih chain.2.2 z later

theorem Chain.nodup (chain : Chain next nil x l) : l.Nodup := by
  induction l generalizing x with
  | nil => exact nodup_nil
  | cons y l ih =>
    refine nodup_cons.2 ⟨fun mem => ?_, ih chain.2.2⟩
    -- a second occurrence would start the same chain with fewer slots
    obtain ⟨front, rest, split⟩ := append_of_mem mem
    have again : Chain next nil (next y) (front ++ y :: rest) := split ▸ chain.2.2
    obtain ⟨z, suffix⟩ := again.suffix
    have start : z = y := suffix.1
    rw [start] at suffix
    have whole : Chain next nil y (y :: l) := ⟨rfl, chain.2.1, chain.2.2⟩
    have shorter := congrArg List.length (suffix.unique whole)
    rw [split] at shorter
    simp only [length_cons, length_append] at shorter
    omega

theorem Chain.link (chain : Chain next nil x (l ++ y :: k)) : Chain next nil (next y) k := by
  obtain ⟨z, suffix⟩ := chain.suffix
  exact suffix.2.2

theorem Chain.skip (chain : Chain next nil x (l ++ a :: y :: k)) :
    Chain (update next a (next y)) nil x (l ++ a :: k) := by
  have nodup := chain.nodup
  induction l generalizing x with
  | nil =>
    obtain ⟨first, inside, -, -, rest⟩ := chain
    refine ⟨first, inside, ?_⟩
    rw [update_self]
    refine rest.update_of_notMem (fun mem => ?_) _
    simp [mem] at nodup
  | cons z l ih =>
    obtain ⟨first, inside, rest⟩ := chain
    have other : z ≠ a := by
      rintro rfl
      simp at nodup
    refine ⟨first, inside, ?_⟩
    rw [update_of_ne other]
    exact ih rest (nodup_cons.1 nodup).2

/-! ## Doubly linked chains -/

/-- The reverse links lead from every slot to the one before it, and from the first slot to
`u`. -/
def BackChain (previous : ℕ → ℕ) : ℕ → List ℕ → Prop
  | _, [] => True
  | u, y :: l => previous y = u ∧ BackChain previous y l

variable {previous previous' : ℕ → ℕ} {u : ℕ}

theorem BackChain.congr (back : BackChain previous u l) (eq : ∀ z ∈ l, previous' z = previous z) :
    BackChain previous' u l := by
  induction l generalizing u with
  | nil => trivial
  | cons y l ih =>
    refine ⟨(eq y mem_cons_self).trans back.1, ?_⟩
    exact ih back.2 fun z mem => eq z (mem_cons_of_mem y mem)

/-- The slot before a given one is the last of the slots in front, if there is one. -/
theorem BackChain.before (back : BackChain previous u (l ++ y :: k)) :
    previous y = l.getLastD u ∧ BackChain previous y k := by
  induction l generalizing u with
  | nil => exact back
  | cons z l ih =>
    obtain ⟨eq, rest⟩ := ih back.2
    refine ⟨?_, rest⟩
    rw [eq]
    cases l with
    | nil | cons v l => rfl

theorem BackChain.remove (back : BackChain previous u (l ++ y :: k))
    (eq : ∀ z ∈ l, previous' z = previous z)
    (next : ∀ z t, k = z :: t → previous' z = previous y ∧ ∀ v ∈ t, previous' v = previous v) :
    BackChain previous' u (l ++ k) := by
  induction l generalizing u with
  | nil =>
    cases k with
    | nil => trivial
    | cons z t =>
      obtain ⟨first, rest⟩ := next z t rfl
      exact ⟨first.trans back.1, BackChain.congr back.2.2 rest⟩
  | cons v l ih =>
    refine ⟨(eq v mem_cons_self).trans back.1, ?_⟩
    exact ih back.2 fun z mem =>
      eq z (mem_cons_of_mem v mem)

theorem Chain.start_eq (chain : Chain next nil x l) : x = l.headD nil := by
  cases l with
  | nil => exact chain
  | cons y l => exact chain.1

theorem Chain.inverse (chain : Chain next nil x l) (back : BackChain previous nil l) (mem : y ∈ l) :
    (next y ≠ nil → next y ∈ l ∧ previous (next y) = y) ∧
      (previous y ≠ nil → previous y ∈ l ∧ next (previous y) = y) := by
  obtain ⟨front, rest, rfl⟩ := append_of_mem mem
  obtain ⟨before, behind⟩ := back.before
  have after := chain.link
  constructor
  · intro inner
    cases rest with
    | nil => exact absurd after inner
    | cons z rest =>
      have link : next y = z := after.1
      rw [link]
      exact ⟨by simp, behind.1⟩
  · intro inner
    rcases eq_nil_or_concat front with rfl | ⟨front, a, rfl⟩
    · exact absurd before inner
    · have link : previous y = a := by simpa using before
      rw [concat_eq_append, append_assoc, singleton_append] at chain
      rw [link]
      exact ⟨by simp, chain.link.1⟩

theorem Chain.remove_double (chain : Chain next nil x (l ++ y :: k))
    (back : BackChain previous nil (l ++ y :: k)) :
    Chain (if previous y = nil then next else update next (previous y) (next y)) nil
        (if previous y = nil then next y else x) (l ++ k) ∧
      BackChain (if next y = nil then previous else update previous (next y) (previous y))
        nil (l ++ k) := by
  have nodup := chain.nodup
  have after := chain.link
  have before := back.before.1
  constructor
  · rcases eq_nil_or_concat l with rfl | ⟨front, a, rfl⟩
    · have first : previous y = nil := before
      rw [if_pos first, if_pos first]
      exact after
    · have last : previous y = a := by simpa using before
      have inside : a ≠ nil := chain.ne_nil a (by simp)
      rw [last, if_neg inside, if_neg inside]
      rw [concat_eq_append, append_assoc, singleton_append] at chain ⊢
      exact chain.skip
  · refine back.remove (fun z mem => ?_) fun z t split => ?_
    · split_ifs with final
      · rfl
      refine update_of_ne ?_ _ _
      rintro rfl
      rw [after.start_eq] at mem
      cases k with
      | nil => exact final after
      | cons v t => exact (nodup_append.1 nodup).2.2 v mem v (by simp) rfl
    · subst split
      have inside : next y ≠ nil := by
        rw [after.1]
        exact after.2.1
      rw [if_neg inside]
      have here : next y = z := after.1
      refine ⟨by rw [here, update_self], fun v mem => update_of_ne ?_ _ _⟩
      rintro rfl
      rw [here] at mem
      have nodupRest := (nodup_cons.1 (nodup_append.1 nodup).2.1).2
      exact (nodup_cons.1 nodupRest).1 mem

/-! ## Searching a chain -/

section Search

variable {ε : Type u}

/-- Walk from `x` to the first slot with the property, or to the end. The result is this slot
and the one before it, initially `y`. -/
def chainSearch (exhausted : ε) (next : ℕ → ℕ) (nil : ℕ) (found : ℕ → Bool) :
    ℕ → ℕ → ℕ → Except ε (ℕ × ℕ)
  | 0, _, _ => .error exhausted
  | fuel + 1, y, x =>
    if x ≠ nil ∧ found x = false then chainSearch exhausted next nil found fuel x (next x)
    else .ok (y, x)

/-- The slots before the found one, which is the first of `rest`. -/
structure SearchSpec (nil : ℕ) (found : ℕ → Bool) (y0 : ℕ) (l : List ℕ) (y x : ℕ) : Prop where
  split : (x = nil ∧ ∀ z ∈ l, found z = false) ∨
    ∃ front rest, l = front ++ x :: rest ∧ x ≠ nil ∧ found x = true ∧
      (∀ z ∈ front, found z = false) ∧
      ((front = [] ∧ y = y0) ∨ ∃ before, front = before ++ [y])

theorem chainSearch_spec (exhausted : ε) (found : ℕ → Bool) (y0 : ℕ) {fuel : ℕ}
    (chain : Chain next nil x l) (enough : l.length < fuel) :
    ∃ y z, chainSearch exhausted next nil found fuel y0 x = .ok (y, z) ∧
      SearchSpec nil found y0 l y z := by
  induction fuel generalizing x y0 l with
  | zero => omega
  | succ fuel ih =>
    cases l with
    | nil =>
      have stop : ¬ (x ≠ nil ∧ found x = false) := fun go => go.1 chain
      refine ⟨y0, x, by rw [chainSearch, if_neg stop], ⟨.inl ⟨chain, fun z mem => ?_⟩⟩⟩
      cases mem
    | cons w l =>
      obtain ⟨rfl, inside, rest⟩ := chain
      by_cases hit : found x = true
      · have stop : ¬ (x ≠ nil ∧ found x = false) := fun go => by simp [hit] at go
        refine ⟨y0, x, by rw [chainSearch, if_neg stop], ⟨.inr ⟨[], l, rfl, inside, hit, ?_⟩⟩⟩
        exact ⟨fun z mem => absurd mem not_mem_nil, .inl ⟨rfl, rfl⟩⟩
      have miss : found x = false := by simpa using hit
      obtain ⟨y, z, res, spec⟩ := ih x rest (by simpa using enough)
      refine ⟨y, z, by rw [chainSearch, if_pos ⟨inside, miss⟩]; exact res, ⟨?_⟩⟩
      rcases spec.split with ⟨last, none⟩ | ⟨front, tail, split, ne, hit, none, before⟩
      · refine .inl ⟨last, fun v mem => ?_⟩
        rcases mem_cons.1 mem with rfl | later
        · exact miss
        · exact none v later
      · refine .inr ⟨x :: front, tail, by rw [split]; rfl, ne, hit, fun v mem => ?_, .inr ?_⟩
        · rcases mem_cons.1 mem with rfl | later
          · exact miss
          · exact none v later
        · rcases before with ⟨empty, first⟩ | ⟨before, last⟩
          · exact ⟨[], by rw [empty, first]; rfl⟩
          · exact ⟨x :: before, by rw [last]; rfl⟩

end Search

/-! ## Buckets and the free list -/

/-- The free list and the chains of the buckets are a partition of the slots below `nMax`. -/
structure Slots (first next : ℕ → ℕ) (nil free nHash nMax : ℕ) (place : ℕ → Option ℕ) : Prop where
  nil_le : nMax ≤ nil
  free_chain : ∃ l, Chain next nil free l ∧ ∀ x, x ∈ l ↔ x < nMax ∧ place x = none
  bucket_chain : ∀ b, b < nHash →
    ∃ l, Chain next nil (first b) l ∧ ∀ x, x ∈ l ↔ x < nMax ∧ place x = some b
  place_lt : ∀ x b, x < nMax → place x = some b → b < nHash

namespace Slots

variable {first : ℕ → ℕ} {free nHash nMax b : ℕ} {place : ℕ → Option ℕ}

/-- A chain of slots is not longer than the array. -/
theorem length_le {target : Option ℕ} (chain : Chain next nil x l)
    (mem : ∀ x, x ∈ l ↔ x < nMax ∧ place x = target) : l.length ≤ nMax := by
  have subset : l.toFinset ⊆ Finset.range nMax := by
    intro z member
    exact Finset.mem_range.2 ((mem z).1 (mem_toFinset.1 member)).1
  have count := Finset.card_le_card subset
  rwa [toFinset_card_of_nodup chain.nodup, Finset.card_range] at count

section

variable (slots : Slots first next nil free nHash nMax place)
include slots

theorem take (some_free : free ≠ nil)
    (low : b < nHash) : free < nMax ∧ place free = none ∧
      Slots (update first b free) (update next free (first b)) nil (next free)
        nHash nMax (update place free (some b)) := by
  obtain ⟨l, chain, mem⟩ := slots.free_chain
  cases l with
  | nil => exact absurd chain some_free
  | cons y l =>
    obtain ⟨rfl, inside, rest⟩ := chain
    obtain ⟨lowY, freeY⟩ := (mem free).1 mem_cons_self
    have notRest : free ∉ l := by
      have whole : Chain next nil free (free :: l) := ⟨rfl, inside, rest⟩
      exact (nodup_cons.1 whole.nodup).1
    refine ⟨lowY, freeY, slots.nil_le, ?_, fun c lowC => ?_, fun z c lowZ placed => ?_⟩
    · refine ⟨l, rest.update_of_notMem notRest _, fun z => ?_⟩
      by_cases here : z = free
      · rw [here]
        simp [notRest]
      · rw [update_of_ne here, ← mem z]
        simp [here]
    · obtain ⟨k, chainK, memK⟩ := slots.bucket_chain c lowC
      have notK : free ∉ k := fun member => by
        rw [((memK free).1 member).2] at freeY
        cases freeY
      by_cases this : c = b
      · subst this
        refine ⟨free :: k, ⟨update_self _ _ _, inside, ?_⟩, fun z => ?_⟩
        · rw [update_self]
          exact chainK.update_of_notMem notK _
        · by_cases here : z = free
          · simp [here, lowY]
          · rw [update_of_ne here, ← memK z]
            simp [here]
      · refine ⟨k, ?_, fun z => ?_⟩
        · rw [update_of_ne this]
          exact chainK.update_of_notMem notK _
        · by_cases here : z = free
          · rw [here]
            simp only [notK, update_self, Option.some.injEq, false_iff, not_and]
            exact fun _ eq => this eq.symm
          · rw [update_of_ne here, memK z]
    · by_cases here : z = free
      · rw [here, update_self, Option.some.injEq] at placed
        exact placed ▸ low
      · rw [update_of_ne here] at placed
        exact slots.place_lt z c lowZ placed

/-- Release the slot `x` that a search has found in the bucket `b`, behind the slot `y` or in
front of the chain. -/
theorem release (low : b < nHash)
    {found : ℕ → Bool} (chain : Chain next nil (first b) l)
    (mem : ∀ x, x ∈ l ↔ x < nMax ∧ place x = some b)
    (spec : SearchSpec nil found nil l y x) (hit : x ≠ nil) :
    Slots (if y = nil then update first b (next x) else first)
      (update (if y = nil then next else update next y (next x)) x free) nil x
      nHash nMax (update place x none) := by
  obtain ⟨front, rest, split, -, -, -, before⟩ :=
    spec.split.resolve_left fun last => hit last.1
  have memX : x ∈ l := by
    rw [split]
    simp
  obtain ⟨lowX, placeX⟩ := (mem x).1 memX
  have nodup := chain.nodup
  rw [split] at nodup chain
  have notFront : x ∉ front := fun member => by
    have := (nodup_append.1 nodup).2.2 x member x (by simp)
    exact this rfl
  have notRest : x ∉ rest := (nodup_cons.1 (nodup_append.1 nodup).2.1).1
  -- the links of all other chains are kept
  have frame : ∀ {z : ℕ} {k : List ℕ}, Chain next nil z k → (∀ v ∈ k, v ∉ l) →
      Chain (update (if y = nil then next else update next y (next x)) x free)
        nil z k := by
    intro z k chainK apart
    refine chainK.congr fun v member => ?_
    have notX : v ≠ x := fun eq => apart v member (eq ▸ memX)
    rw [update_of_ne notX]
    split_ifs with start
    · rfl
    rw [update_of_ne]
    rintro rfl
    rcases before with ⟨-, isNil⟩ | ⟨before, last⟩
    · exact start isNil
    · refine apart v member ?_
      rw [split, last]
      simp
  refine ⟨slots.nil_le, ?_, fun c lowC => ?_, fun z c lowZ placed => ?_⟩
  · obtain ⟨k, chainK, memK⟩ := slots.free_chain
    refine ⟨x :: k, ⟨rfl, hit, ?_⟩, fun z => ?_⟩
    · rw [update_self]
      refine frame chainK fun v member inL => ?_
      have inB := ((mem v).1 inL).2
      rw [((memK v).1 member).2] at inB
      cases inB
    · by_cases here : z = x
      · simp [here, lowX]
      · rw [update_of_ne here, ← memK z]
        simp [here]
  · by_cases this : c = b
    · subst this
      refine ⟨front ++ rest, ?_, fun z => ?_⟩
      · rcases before with ⟨empty, isNil⟩ | ⟨before, last⟩
        · rw [empty] at chain ⊢
          rw [if_pos isNil, if_pos isNil, update_self]
          exact chain.2.2.update_of_notMem notRest _
        have notNil : y ≠ nil := chain.ne_nil y (by rw [last]; simp)
        rw [if_neg notNil, if_neg notNil]
        rw [last] at chain notFront ⊢
        rw [append_assoc, singleton_append] at chain ⊢
        refine chain.skip.update_of_notMem (fun member => ?_) _
        simp only [mem_append, mem_cons] at member notFront
        rcases member with early | eq | late
        · exact notFront (.inl early)
        · exact notFront (.inr (.inl eq))
        · exact notRest late
      · by_cases here : z = x
        · rw [here]
          simp [notFront, notRest]
        · rw [update_of_ne here, ← mem z, split]
          simp [here]
    · obtain ⟨k, chainK, memK⟩ := slots.bucket_chain c lowC
      have apart : ∀ v ∈ k, v ∉ l := fun v member inL => by
        have atC := ((memK v).1 member).2
        rw [((mem v).1 inL).2] at atC
        exact this (Option.some.inj atC).symm
      refine ⟨k, ?_, fun z => ?_⟩
      · have sameFirst : (if y = nil then update first b (next x) else first) c =
            first c := by
          split_ifs
          · exact update_of_ne this _ _
          · rfl
        rw [sameFirst]
        exact frame chainK apart
      · by_cases here : z = x
        · rw [here]
          simp only [update_self, reduceCtorEq, and_false, iff_false]
          exact fun member => apart x member memX
        · rw [update_of_ne here, memK z]
  · have ne : z ≠ x := fun eq => by simp [eq] at placed
    rw [update_of_ne ne] at placed
    exact slots.place_lt z c lowZ placed

end

theorem init (nil nHash : ℕ) (low : nMax ≤ nil) (pos : 0 < nMax) :
    Slots (fun _ => nil) (fun v => if v + 1 = nMax then nil else v + 1) nil 0 nHash nMax
      fun _ => none := by
  have chain : ∀ left v, v + left = nMax → 0 < left →
      Chain (fun v => if v + 1 = nMax then nil else v + 1) nil v (range' v left) := by
    intro left
    induction left with
    | zero =>
      intro v _ pos
      omega
    | succ left ih =>
      intro v total _
      refine ⟨rfl, by omega, ?_⟩
      by_cases last : left = 0
      · have final : v + 1 = nMax := by omega
        simp [last, final, Chain]
      · have inner : v + 1 ≠ nMax := by omega
        simp only [if_neg inner]
        exact ih (v + 1) (by omega) (by omega)
  refine ⟨low, ⟨range' 0 nMax, chain nMax 0 (by omega) pos, fun x => ?_⟩, fun b _ => ?_, ?_⟩
  · simp [mem_range'_1]
  · exact ⟨[], rfl, fun x => by simp⟩
  · intro x b _ placed
    cases placed

theorem perm (slots : Slots first next nil free nHash nMax place) :
    ∃ (freeList : List ℕ) (bucket : ℕ → List ℕ), Chain next nil free freeList ∧
      (∀ b, b < nHash → Chain next nil (first b) (bucket b)) ∧
      (freeList ++ (List.range nHash).flatMap bucket).Perm (List.range nMax) := by
  obtain ⟨freeList, chain, mem⟩ := slots.free_chain
  have choice : ∀ b, ∃ l, b < nHash →
      Chain next nil (first b) l ∧ ∀ x, x ∈ l ↔ x < nMax ∧ place x = some b := by
    intro b
    by_cases low : b < nHash
    · obtain ⟨l, chainB, memB⟩ := slots.bucket_chain b low
      exact ⟨l, fun _ => ⟨chainB, memB⟩⟩
    · exact ⟨[], fun low' => absurd low' low⟩
  choose bucket spec using choice
  refine ⟨freeList, bucket, chain, fun b low => (spec b low).1, ?_⟩
  have nodupBuckets : ((List.range nHash).flatMap bucket).Nodup := by
    refine nodup_flatMap.2 ⟨fun b low => (spec b (mem_range.1 low)).1.nodup, ?_⟩
    refine nodup_range.pairwise_of_forall_ne fun b lowB c lowC ne => ?_
    intro x inB inC
    have placeB := ((spec b (mem_range.1 lowB)).2 x).1 inB
    have placeC := ((spec c (mem_range.1 lowC)).2 x).1 inC
    rw [placeB.2] at placeC
    exact ne (Option.some.inj placeC.2)
  have memBuckets : ∀ x, x ∈ (List.range nHash).flatMap bucket ↔ x < nMax ∧ place x ≠ none := by
    intro x
    constructor
    · intro member
      obtain ⟨b, low, inB⟩ := mem_flatMap.1 member
      obtain ⟨lowX, placed⟩ := ((spec b (mem_range.1 low)).2 x).1 inB
      exact ⟨lowX, by simp [placed]⟩
    · rintro ⟨lowX, used⟩
      obtain ⟨b, placed⟩ := Option.ne_none_iff_exists'.1 used
      have low := slots.place_lt x b lowX placed
      exact mem_flatMap.2 ⟨b, mem_range.2 low, ((spec b low).2 x).2 ⟨lowX, placed⟩⟩
  have nodup : (freeList ++ (List.range nHash).flatMap bucket).Nodup := by
    refine Nodup.append chain.nodup nodupBuckets fun x inFree inBuckets => ?_
    exact ((memBuckets x).1 inBuckets).2 ((mem x).1 inFree).2
  refine (perm_ext_iff_of_nodup nodup nodup_range).2 fun x => ?_
  rw [mem_append, mem x, memBuckets x, mem_range]
  constructor
  · rintro (⟨low, -⟩ | ⟨low, -⟩)
    · exact low
    · exact low
  · intro low
    by_cases unused : place x = none
    · exact .inl ⟨low, unused⟩
    · exact .inr ⟨low, unused⟩

end Slots

end Goblin.Library
