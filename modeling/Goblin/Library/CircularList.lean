import Goblin.Library.Links

/-!
# Circular lists

A circular list is a linked list whose last element points back to the first one.

The operations on rings change one or two links: an element is put behind another
one (`CircularList.insert`), taken out (`CircularList.remove`), renamed
(`CircularList.rename`), or a second ring is put in (`CircularList.splice`). A ring
may be read from any of its elements (`CircularList.startAt`).
-/

set_option autoImplicit false

namespace Goblin.Library

open List Function

universe u v

variable {A : Type u} {V : Type v} {r r' : A → Option A} {a b x : A} {l k : List A} {y : A}
  {f : ℕ → A} {n : ℕ}

/-- A circular list that is read from `a` on. -/
structure CircularList (r : A → Option A) (a : A) (l : List A) : Prop where
  nodup : (a :: l).Nodup
  links : Links r (a :: l) (some a)

namespace CircularList

theorem next (ring : CircularList r a l) : r a = some (l.headD a) := by
  rw [ring.links.1]
  cases l with
  | nil | cons b l => rfl

theorem congr (ring : CircularList r a l) (eq : ∀ c ∈ a :: l, r' c = r c) : CircularList r' a l :=
  ⟨ring.nodup, ring.links.congr eq⟩

theorem singleton_iff : CircularList r a [] ↔ r a = some a := by
  constructor
  · exact fun ring => ring.next
  · exact fun next => ⟨by simp, next, trivial⟩

theorem next_mem (ring : CircularList r a l) (mem : x ∈ a :: l) : ∃ y ∈ a :: l, r x = some y := by
  rcases ring.links.target_mem mem with inside | last
  · exact inside
  · exact ⟨a, mem_cons_self, last⟩

/-- The same ring, read from a later element on. -/
theorem rotate (ring : CircularList r a (l ++ b :: k)) : CircularList r b (k ++ a :: l) := by
  constructor
  · refine ring.nodup.perm ?_
    rw [← cons_append, ← cons_append]
    exact perm_append_comm
  · have links := ring.links
    rw [← cons_append, links_append] at links
    rw [← cons_append, links_append]
    exact ⟨links.2, links.1⟩

theorem startAt (ring : CircularList r a l) (mem : b ∈ a :: l) :
    ∃ k, CircularList r b k ∧ ∀ c, c ∈ b :: k ↔ c ∈ a :: l := by
  rcases mem_cons.1 mem with rfl | later
  · exact ⟨l, ring, fun _ => Iff.rfl⟩
  · obtain ⟨front, back, rfl⟩ := append_of_mem later
    refine ⟨back ++ a :: front, ring.rotate, fun c => ?_⟩
    simp only [mem_cons, mem_append]
    tauto

theorem exists_last (ring : CircularList r b k) : ∃ front y, b :: k = front ++ [y] ∧ r y = some b ∧
      ∀ c ∈ b :: k, r c = some b → c = y := by
  obtain ⟨front, y, split⟩ : ∃ front y, b :: k = front ++ [y] :=
    ⟨(b :: k).dropLast, (b :: k).getLast (by simp), (dropLast_append_getLast (by simp)).symm⟩
  have links := ring.links
  have nodup := ring.nodup
  rw [split, links_append] at links
  refine ⟨front, y, split, links.2.1, ?_⟩
  intro c mem val
  rw [split] at mem
  rcases mem_append.1 mem with early | last
  · -- an earlier element points to a later one, which is not `b`
    exfalso
    obtain ⟨before, after, rfl⟩ := append_of_mem early
    have inner := links.1
    rw [links_append] at inner
    have target := inner.2.1
    rw [val] at target
    have inTail : b ∈ after ++ [y] := by
      cases after with
      | nil => simpa using target
      | cons d after => simpa using .inl (Option.some.inj target)
    cases before with
    | nil =>
      simp only [nil_append, cons_append, List.cons.injEq] at split
      rw [split.2, nodup_cons] at nodup
      exact nodup.1 inTail
    | cons d before =>
      simp only [cons_append, List.cons.injEq] at split
      rw [split.2, nodup_cons] at nodup
      refine nodup.1 ?_
      rw [append_assoc]
      exact mem_append_right _ (mem_cons_of_mem _ inTail)
  · exact mem_singleton.1 last

theorem next_injective (ring : CircularList r a l) {c d : A} (inC : c ∈ a :: l) (inD : d ∈ a :: l)
    (eq : r c = r d) : c = d := by
  obtain ⟨y, member, val⟩ := ring.next_mem inC
  obtain ⟨k, ring', mem⟩ := ring.startAt member
  obtain ⟨front, z, -, -, unique⟩ := ring'.exists_last
  have first := unique c ((mem c).2 inC) val
  have second := unique d ((mem d).2 inD) (eq ▸ val)
  rw [first, second]

theorem insert (ring : CircularList r a l) (fresh : x ∉ a :: l) (atA : r' a = some x)
    (atX : r' x = r a) (eq : ∀ c ∈ l, r' c = r c) : CircularList r' a (x :: l) := by
  have nodup := ring.nodup
  have links := ring.links
  refine ⟨?_, atA, ?_, links.2.congr eq⟩
  · simp only [nodup_cons, mem_cons, not_or] at nodup fresh ⊢
    exact ⟨⟨fun equal => fresh.1 equal.symm, nodup.1⟩, fresh.2, nodup.2⟩
  · rw [atX, links.1]

theorem remove (ring : CircularList r x (b :: k)) (isLast : r y = some x) (inside : y ∈ x :: b :: k)
    (atY : r' y = some b) (eq : ∀ c ∈ b :: k, c ≠ y → r' c = r c) : CircularList r' b k := by
  have nodup := ring.nodup
  have links := ring.links.2
  obtain ⟨front, z, split, -, unique⟩ := ring.exists_last
  obtain rfl : y = z := unique y inside isLast
  -- the last element is not the first one
  have split' : ∃ front', b :: k = front' ++ [y] := by
    cases front with
    | nil =>
      simp only [nil_append, List.cons.injEq] at split
      exact absurd split.2 (by simp)
    | cons c front =>
      simp only [cons_append, List.cons.injEq] at split
      exact ⟨front, split.2⟩
  obtain ⟨front', split'⟩ := split'
  have nodup' := (nodup_cons.1 nodup).2
  refine ⟨nodup', ?_⟩
  rw [split', links_append] at links ⊢
  rw [split'] at nodup'
  refine ⟨links.1.congr fun c mem => eq c ?_ ?_, atY, trivial⟩
  · rw [split']
    exact mem_append_left _ mem
  · rintro rfl
    exact (nodup_append.1 nodup').2.2 c mem c (by simp) rfl

theorem splice (ring : CircularList r a l) (other : CircularList r b k)
    (disjoint : ∀ c ∈ b :: k, c ∉ a :: l) (isLast : r y = some b) (inside : y ∈ b :: k)
    (atA : r' a = some b) (atY : r' y = r a)
    (eq : ∀ c, (c ∈ l ∨ c ∈ b :: k) → c ≠ y → r' c = r c) :
    CircularList r' a ((b :: k) ++ l) := by
  obtain ⟨front, z, split, -, unique⟩ := other.exists_last
  obtain rfl : y = z := unique y inside isLast
  have nodup := other.nodup
  have links := other.links
  constructor
  · have nodupL := nodup_cons.1 ring.nodup
    rw [nodup_cons, mem_append, not_or, nodup_append]
    refine ⟨⟨fun mem => disjoint a mem mem_cons_self, nodupL.1⟩, nodup, nodupL.2, ?_⟩
    rintro c inK d inL rfl
    exact disjoint c inK (mem_cons_of_mem _ inL)
  · refine ⟨atA, ?_⟩
    rw [links_append]
    rw [split] at nodup links ⊢
    rw [links_append] at links ⊢
    refine ⟨⟨links.1.congr fun c mem => eq c (.inr ?_) ?_, ?_, trivial⟩,
      ring.links.2.congr fun c mem => eq c (.inl mem) ?_⟩
    · rw [split]
      exact mem_append_left _ mem
    · rintro rfl
      exact (nodup_append.1 nodup).2.2 c mem c (by simp) rfl
    · rw [atY, ring.links.1]
      rfl
    · rintro rfl
      exact disjoint c inside (mem_cons_of_mem _ mem)

theorem rename (f : A → A) (ring : CircularList r a l)
    (inj : ∀ c ∈ a :: l, ∀ d ∈ a :: l, f c = f d → c = d)
    (renamed : ∀ c ∈ a :: l, r' (f c) = (r c).map f) : CircularList r' (f a) (l.map f) := by
  have links : ∀ (k : List A) (b : A), Links r k (some b) →
      (∀ c ∈ k, r' (f c) = (r c).map f) → Links r' (k.map f) (some (f b)) := by
    intro k
    induction k with
    | nil => exact fun _ _ _ => trivial
    | cons c k ih =>
      rintro b ⟨first, rest⟩ renamed
      refine ⟨?_, ih b rest fun d mem => renamed d (mem_cons_of_mem _ mem)⟩
      rw [renamed c mem_cons_self, first]
      cases k with
      | nil | cons d k => rfl
  refine ⟨?_, links (a :: l) a ring.links renamed⟩
  rw [← map_cons]
  exact Nodup.map_on inj ring.nodup

/-- Elements that are enumerated without repetition, every one of them linked to the next one and
the last one to the first. -/
theorem ofEnum (inj : ∀ i, i ≤ n → ∀ j, j ≤ n → f i = f j → i = j)
    (step : ∀ i, i < n → r (f i) = some (f (i + 1))) (back : r (f n) = some (f 0)) :
    CircularList r (f 0) ((List.range n).map fun i => f (i + 1)) := by
  have list : f 0 :: (List.range n).map (fun i => f (i + 1)) = (List.range (n + 1)).map f := by
    rw [range_succ_eq_map, map_cons, map_map]
    rfl
  have chain : ∀ i, i ≤ n → Links r ((List.range i).map f) (some (f i)) := by
    intro i
    induction i with
    | zero => exact fun _ => trivial
    | succ i ih =>
      intro low
      rw [range_succ, map_append, map_singleton, links_concat]
      exact ⟨ih (by omega), step i (by omega)⟩
  constructor
  · rw [list]
    refine Nodup.map_on (fun i inI j inJ => inj i ?_ j ?_) nodup_range
    · have := mem_range.1 inI
      omega
    · have := mem_range.1 inJ
      omega
  · rw [list, range_succ, map_append, map_singleton, links_concat]
    exact ⟨chain n (le_refl n), back⟩

theorem mem_ofEnum : x ∈ f 0 :: (List.range n).map (fun i => f (i + 1)) ↔ ∃ i, i ≤ n ∧ f i = x := by
  have list : f 0 :: (List.range n).map (fun i => f (i + 1)) = (List.range (n + 1)).map f := by
    rw [range_succ_eq_map, map_cons, map_map]
    rfl
  rw [list, mem_map]
  simp only [mem_range, Nat.lt_succ_iff]

end CircularList

/-! ## Families of circular lists -/

/-- The elements of `D` form one circular list for every group. -/
def Rings (r : A → Option A) (group : A → V) (D : A → Prop) : Prop :=
  ∀ a, D a → ∃ l, CircularList r a l ∧ ∀ c, c ∈ a :: l ↔ D c ∧ group c = group a

/-- The links of `left` point backwards. -/
def Back (r left : A → Option A) (D : A → Prop) : Prop :=
  ∀ a b, D a → r a = some b → left b = some a

section Rings

variable {group group' : A → V} {D : A → Prop} {left left' : A → Option A} {y : A}

section

variable (rings : Rings r group D)
include rings

theorem Rings.next (inD : D a) :
    ∃ b, r a = some b ∧ D b ∧ group b = group a := by
  obtain ⟨l, ring, mem⟩ := rings a inD
  obtain ⟨b, member, val⟩ := ring.next_mem mem_cons_self
  exact ⟨b, val, (mem b).1 member⟩

theorem Rings.injective (inA : D a) (inB : D b) (eq : r a = r b) :
    a = b := by
  obtain ⟨c, val, -, groupA⟩ := rings.next inA
  obtain ⟨d, val', -, groupB⟩ := rings.next inB
  have equal : c = d := by
    rw [val, val'] at eq
    exact Option.some.inj eq
  obtain ⟨l, ring, mem⟩ := rings a inA
  refine ring.next_injective mem_cons_self ((mem b).2 ⟨inB, ?_⟩) eq
  rw [← groupA, ← groupB, equal]

theorem Rings.previous (inD : D a) :
    ∃ y, r y = some a ∧ D y ∧ group y = group a := by
  obtain ⟨l, ring, mem⟩ := rings a inD
  obtain ⟨front, y, split, val, -⟩ := ring.exists_last
  exact ⟨y, val, (mem y).1 (by rw [split]; simp)⟩

end

theorem Back.unique (back : Back r left D) (rings : Rings r group D) (inD : D x)
    (val : left x = some y) : D y ∧ r y = some x := by
  obtain ⟨z, next, inside, -⟩ := rings.previous inD
  have eq := back z x inside next
  rw [val] at eq
  obtain rfl := Option.some.inj eq
  exact ⟨inside, next⟩

theorem Rings.congr (rings : Rings r group D) (links : ∀ c, D c → r' c = r c)
    (groups : ∀ c d, D c → D d → (group' c = group' d ↔ group c = group d)) :
    Rings r' group' D := by
  intro a inD
  obtain ⟨l, ring, mem⟩ := rings a inD
  refine ⟨l, ring.congr fun c member => links c ((mem c).1 member).1, fun c => ?_⟩
  rw [mem c]
  constructor
  · rintro ⟨inside, eq⟩
    exact ⟨inside, (groups c a inside inD).2 eq⟩
  · rintro ⟨inside, eq⟩
    exact ⟨inside, (groups c a inside inD).1 eq⟩

theorem Rings.single (rings : Rings r group D) (fresh : ¬ D x) (atX : r' x = some x)
    (links : ∀ c, D c → r' c = r c) (alone : ∀ c, D c → group c ≠ group x) :
    Rings r' group fun c => c = x ∨ D c := by
  rintro a (rfl | inD)
  · refine ⟨[], CircularList.singleton_iff.2 atX, fun c => ?_⟩
    rw [mem_singleton]
    constructor
    · rintro rfl
      exact ⟨.inl rfl, rfl⟩
    · rintro ⟨rfl | inside, eq⟩
      · rfl
      · exact absurd eq (alone c inside)
  · obtain ⟨l, ring, mem⟩ := rings a inD
    refine ⟨l, ring.congr fun c member => links c ((mem c).1 member).1, fun c => ?_⟩
    rw [mem c]
    constructor
    · rintro ⟨inside, eq⟩
      exact ⟨.inr inside, eq⟩
    · rintro ⟨rfl | inside, eq⟩
      · exact absurd eq.symm (alone a inD)
      · exact ⟨inside, eq⟩

theorem Back.single (back : Back r left D) (rings : Rings r group D) (fresh : ¬ D x)
    (atX : r' x = some x) (links : ∀ c, D c → r' c = r c) (atX' : left' x = some x)
    (links' : ∀ c, D c → left' c = left c) : Back r' left' fun c => c = x ∨ D c := by
  rintro a b (rfl | inD) val
  · rw [atX] at val
    cases val
    exact atX'
  · rw [links a inD] at val
    obtain ⟨b', val', inside, -⟩ := rings.next inD
    rw [val] at val'
    cases val'
    rw [links' b inside]
    exact back a b inD val

theorem Rings.insert {f : A} (rings : Rings r group D) (fresh : ¬ D x) (inF : D f)
    (sameGroup : group x = group f) (atF : r' f = some x) (atX : r' x = r f)
    (links : ∀ c, D c → c ≠ f → r' c = r c) : Rings r' group fun c => c = x ∨ D c := by
  have whole : ∃ l, CircularList r' f l ∧ ∀ c, c ∈ f :: l ↔ (c = x ∨ D c) ∧ group c = group f := by
    obtain ⟨l, ring, mem⟩ := rings f inF
    refine ⟨x :: l, ring.insert (fun member => fresh ((mem x).1 member).1) atF atX ?_, ?_⟩
    · intro c member
      refine links c ((mem c).1 (mem_cons_of_mem _ member)).1 ?_
      rintro rfl
      exact (nodup_cons.1 ring.nodup).1 member
    · intro c
      have old := mem c
      rw [mem_cons] at old
      rw [mem_cons, mem_cons]
      constructor
      · rintro (here | rfl | later)
        · exact ⟨.inr (old.1 (.inl here)).1, (old.1 (.inl here)).2⟩
        · exact ⟨.inl rfl, sameGroup⟩
        · exact ⟨.inr (old.1 (.inr later)).1, (old.1 (.inr later)).2⟩
      · rintro ⟨rfl | inside, eq⟩
        · exact .inr (.inl rfl)
        · exact (old.2 ⟨inside, eq⟩).imp_right .inr
  obtain ⟨l, ring, mem⟩ := whole
  intro a inD
  by_cases eq : group a = group f
  · obtain ⟨k, ring', mem'⟩ := ring.startAt ((mem a).2 ⟨inD, eq⟩)
    refine ⟨k, ring', fun c => ?_⟩
    rw [mem' c, mem c, eq]
  have old : D a := inD.resolve_left fun equal => eq (equal ▸ sameGroup)
  obtain ⟨k, ring', mem'⟩ := rings a old
  refine ⟨k, ring'.congr fun c member => ?_, fun c => ?_⟩
  · obtain ⟨inside, groupC⟩ := (mem' c).1 member
    refine links c inside ?_
    rintro rfl
    exact eq groupC.symm
  · rw [mem' c]
    constructor
    · rintro ⟨inside, groupC⟩
      exact ⟨.inr inside, groupC⟩
    · rintro ⟨rfl | inside, groupC⟩
      · exact absurd (groupC.symm.trans sameGroup) eq
      · exact ⟨inside, groupC⟩

theorem Back.insert {f next : A} (back : Back r left D) (rings : Rings r group D)
    (fresh : ¬ D x) (inF : D f) (nextF : r f = some next) (atF : r' f = some x)
    (atX : r' x = r f) (links : ∀ c, D c → c ≠ f → r' c = r c) (atX' : left' x = some f)
    (atNext : left' next = some x) (links' : ∀ c, D c → c ≠ next → left' c = left c) :
    Back r' left' fun c => c = x ∨ D c := by
  rintro a b (rfl | inD) val
  · rw [atX, nextF] at val
    cases val
    exact atNext
  · by_cases eq : a = f
    · subst eq
      rw [atF] at val
      cases val
      exact atX'
    rw [links a inD eq] at val
    obtain ⟨b', val', inside, -⟩ := rings.next inD
    rw [val] at val'
    cases val'
    have other : b ≠ next := by
      rintro rfl
      exact eq (rings.injective inD inF (val.trans nextF.symm))
    rw [links' b inside other]
    exact back a b inD val

/-- Take out an element that is alone in its group. -/
theorem Rings.removeSingle (rings : Rings r group D) (inX : D x) (atX : r x = some x)
    (links : ∀ c, D c → c ≠ x → r' c = r c) : Rings r' group fun c => D c ∧ c ≠ x := by
  rintro a ⟨inD, other⟩
  obtain ⟨l, ring, mem⟩ := rings a inD
  have out : x ∉ a :: l := by
    intro member
    obtain ⟨k, ring', mem'⟩ := ring.startAt member
    have next := ring'.next
    rw [atX] at next
    cases k with
    | nil => exact other (mem_singleton.1 ((mem' a).2 mem_cons_self))
    | cons b k =>
      have equal : x = b := Option.some.inj next
      exact (nodup_cons.1 ring'.nodup).1 (by rw [equal]; exact mem_cons_self)
  refine ⟨l, ring.congr fun c member => links c ((mem c).1 member).1 ?_, fun c => ?_⟩
  · rintro rfl
    exact out member
  · rw [mem c]
    constructor
    · rintro ⟨inside, eq⟩
      refine ⟨⟨inside, ?_⟩, eq⟩
      rintro rfl
      exact out ((mem c).2 ⟨inside, eq⟩)
    · rintro ⟨⟨inside, -⟩, eq⟩
      exact ⟨inside, eq⟩

theorem Rings.remove (rings : Rings r group D) (inX : D x) (inY : D y) (prev : r y = some x)
    (next : r x = some b) (proper : b ≠ x) (atY : r' y = some b)
    (links : ∀ c, D c → c ≠ x → c ≠ y → r' c = r c) : Rings r' group fun c => D c ∧ c ≠ x := by
  obtain ⟨l, ring, mem⟩ := rings x inX
  obtain ⟨y', val, inY', groupY⟩ := rings.previous inX
  obtain rfl : y = y' := rings.injective inY inY' (prev.trans val.symm)
  obtain ⟨k, rfl⟩ : ∃ k, l = b :: k := by
    have head := ring.next
    rw [next] at head
    cases l with
    | nil => exact absurd (Option.some.inj head) proper
    | cons c k => exact ⟨k, by rw [Option.some.inj head]; rfl⟩
  have ring' : CircularList r' b k := by
    refine ring.remove prev ((mem y).2 ⟨inY, groupY⟩) atY fun c member other => ?_
    refine links c ((mem c).1 (mem_cons_of_mem _ member)).1 ?_ other
    rintro rfl
    exact (nodup_cons.1 ring.nodup).1 member
  have mem' : ∀ c, c ∈ b :: k ↔ (D c ∧ c ≠ x) ∧ group c = group x := by
    intro c
    have old := mem c
    rw [mem_cons] at old
    constructor
    · intro member
      obtain ⟨inside, eq⟩ := old.1 (.inr member)
      refine ⟨⟨inside, ?_⟩, eq⟩
      rintro rfl
      exact (nodup_cons.1 ring.nodup).1 member
    · rintro ⟨⟨inside, other⟩, eq⟩
      exact (old.2 ⟨inside, eq⟩).resolve_left other
  rintro a ⟨inD, other⟩
  by_cases eq : group a = group x
  · obtain ⟨k', ring'', mem''⟩ := ring'.startAt ((mem' a).2 ⟨⟨inD, other⟩, eq⟩)
    refine ⟨k', ring'', fun c => ?_⟩
    rw [mem'' c, mem' c, eq]
  obtain ⟨k', ring'', mem''⟩ := rings a inD
  have notX : ∀ c ∈ a :: k', c ≠ x := by
    rintro c member rfl
    exact eq ((mem'' c).1 member).2.symm
  refine ⟨k', ring''.congr fun c member => ?_, fun c => ?_⟩
  · refine links c ((mem'' c).1 member).1 (notX c member) ?_
    rintro rfl
    exact eq (((mem'' c).1 member).2.symm.trans groupY)
  · rw [mem'' c]
    constructor
    · rintro ⟨inside, groupC⟩
      exact ⟨⟨inside, notX c ((mem'' c).2 ⟨inside, groupC⟩)⟩, groupC⟩
    · rintro ⟨⟨inside, -⟩, groupC⟩
      exact ⟨inside, groupC⟩

section

variable (back : Back r left D) (rings : Rings r group D) (inX : D x)
include back rings inX

theorem Back.removeSingle
    (atX : r x = some x) (links : ∀ c, D c → c ≠ x → r' c = r c)
    (links' : ∀ c, D c → c ≠ x → left' c = left c) : Back r' left' fun c => D c ∧ c ≠ x := by
  rintro a b ⟨inD, other⟩ val
  rw [links a inD other] at val
  obtain ⟨b', val', inside, -⟩ := rings.next inD
  rw [val] at val'
  cases val'
  have notX : b ≠ x := by
    rintro rfl
    exact other (rings.injective inD inX (val.trans atX.symm))
  rw [links' b inside notX]
  exact back a b inD val

theorem Back.remove (inY : D y)
    (prev : r y = some x) (next : r x = some b) (atY : r' y = some b)
    (links : ∀ c, D c → c ≠ x → c ≠ y → r' c = r c) (atB : left' b = some y)
    (links' : ∀ c, D c → c ≠ x → c ≠ b → left' c = left c) :
    Back r' left' fun c => D c ∧ c ≠ x := by
  rintro a d ⟨inD, other⟩ val
  by_cases eq : a = y
  · subst eq
    rw [atY] at val
    cases val
    exact atB
  rw [links a inD other eq] at val
  obtain ⟨d', val', inside, -⟩ := rings.next inD
  rw [val] at val'
  cases val'
  have notX : d ≠ x := by
    rintro rfl
    exact eq (rings.injective inD inY (val.trans prev.symm))
  have notB : d ≠ b := by
    rintro rfl
    exact other (rings.injective inD inX (val.trans next.symm))
  rw [links' d inside notX notB]
  exact back a d inD val

end

theorem Rings.rename (f : A → A) (rings : Rings r group D)
    (inj : ∀ c d, D c → D d → f c = f d → c = d) (links : ∀ c, D c → r' (f c) = (r c).map f)
    (groups : ∀ c, D c → group' (f c) = group c) : Rings r' group' fun d => ∃ c, D c ∧ f c = d := by
  rintro a ⟨c, inD, rfl⟩
  obtain ⟨l, ring, mem⟩ := rings c inD
  refine ⟨l.map f, ring.rename f ?_ fun d member => links d ((mem d).1 member).1, fun d => ?_⟩
  · intro d member e member' eq
    exact inj d e ((mem d).1 member).1 ((mem e).1 member').1 eq
  · rw [← map_cons, mem_map]
    constructor
    · rintro ⟨e, member, rfl⟩
      obtain ⟨inside, eq⟩ := (mem e).1 member
      refine ⟨⟨e, inside, rfl⟩, ?_⟩
      rw [groups e inside, groups c inD, eq]
    · rintro ⟨⟨e, inside, rfl⟩, eq⟩
      rw [groups e inside, groups c inD] at eq
      exact ⟨e, (mem e).2 ⟨inside, eq⟩, rfl⟩

theorem Back.rename (f : A → A) (back : Back r left D)
    (rings : Rings r group D) (links : ∀ c, D c → r' (f c) = (r c).map f)
    (links' : ∀ c, D c → left' (f c) = (left c).map f) :
    Back r' left' fun d => ∃ c, D c ∧ f c = d := by
  rintro a b ⟨c, inD, rfl⟩ val
  obtain ⟨d, next, inside, -⟩ := rings.next inD
  rw [links c inD, next] at val
  cases val
  rw [links' d inside, back c d inD next]
  rfl

theorem Rings.splice [DecidableEq V] (rings : Rings r group D) (inA : D a) (inB : D b) (inY : D y)
    (apart : group a ≠ group b) (isLast : r y = some b) (atA : r' a = some b) (atY : r' y = r a)
    (links : ∀ c, D c → c ≠ a → c ≠ y → r' c = r c)
    (groups : ∀ c, D c → group' c = if group c = group b then group a else group c) :
    Rings r' group' D := by
  obtain ⟨l, ringA, memA⟩ := rings a inA
  obtain ⟨k, ringB, memB⟩ := rings b inB
  obtain ⟨y', val, inY', groupY⟩ := rings.previous inB
  obtain rfl : y = y' := rings.injective inY inY' (isLast.trans val.symm)
  have notA : ∀ c, group c = group b → c ≠ a := by
    rintro c eq rfl
    exact apart eq
  have ring : CircularList r' a ((b :: k) ++ l) := by
    refine ringA.splice ringB ?_ isLast ((memB y).2 ⟨inY, groupY⟩) atA atY ?_
    · intro c inK inL
      exact apart (((memA c).1 inL).2.symm.trans ((memB c).1 inK).2)
    · rintro c (inL | inK) other
      · refine links c ((memA c).1 (mem_cons_of_mem _ inL)).1 ?_ other
        rintro rfl
        exact (nodup_cons.1 ringA.nodup).1 inL
      · obtain ⟨inside, eq⟩ := (memB c).1 inK
        exact links c inside (notA c eq) other
  have groupA : group' a = group a := by
    rw [groups a inA, if_neg apart]
  have mem : ∀ c, c ∈ a :: ((b :: k) ++ l) ↔ D c ∧ group' c = group a := by
    intro c
    have oldA := memA c
    have oldB := memB c
    rw [mem_cons] at oldA
    rw [mem_cons, mem_append]
    constructor
    · rintro (here | inK | inL)
      · subst here
        exact ⟨inA, groupA⟩
      · obtain ⟨inside, eq⟩ := oldB.1 inK
        exact ⟨inside, by rw [groups c inside, if_pos eq]⟩
      · obtain ⟨inside, eq⟩ := oldA.1 (.inr inL)
        refine ⟨inside, ?_⟩
        rw [groups c inside, if_neg, eq]
        rw [eq]
        exact apart
    · rintro ⟨inside, eq⟩
      rw [groups c inside] at eq
      by_cases inB' : group c = group b
      · exact .inr (.inl (oldB.2 ⟨inside, inB'⟩))
      · rw [if_neg inB'] at eq
        exact (oldA.2 ⟨inside, eq⟩).imp_right .inr
  intro c inD
  by_cases merged : group' c = group a
  · obtain ⟨k', ring', mem'⟩ := ring.startAt ((mem c).2 ⟨inD, merged⟩)
    refine ⟨k', ring', fun d => ?_⟩
    rw [mem' d, mem d, merged]
  obtain ⟨k', ring', mem'⟩ := rings c inD
  have notMerged : group c ≠ group b ∧ group c ≠ group a := by
    rw [groups c inD] at merged
    constructor
    · intro eq
      rw [if_pos eq] at merged
      exact merged rfl
    · intro eq
      by_cases inB' : group c = group b
      · rw [if_pos inB'] at merged
        exact merged rfl
      · rw [if_neg inB'] at merged
        exact merged eq
  refine ⟨k', ring'.congr fun d member => ?_, fun d => ?_⟩
  · obtain ⟨inside, eq⟩ := (mem' d).1 member
    refine links d inside ?_ ?_
    · rintro rfl
      exact notMerged.2 eq.symm
    · rintro rfl
      exact notMerged.1 (eq.symm.trans groupY)
  · rw [mem' d]
    constructor
    · rintro ⟨inside, eq⟩
      refine ⟨inside, ?_⟩
      rw [groups d inside, groups c inD, eq]
    · rintro ⟨inside, eq⟩
      refine ⟨inside, ?_⟩
      rw [groups d inside, groups c inD, if_neg notMerged.1] at eq
      by_cases inB' : group d = group b
      · rw [if_pos inB'] at eq
        exact absurd eq.symm notMerged.2
      · rwa [if_neg inB'] at eq

theorem Back.splice {next : A} (back : Back r left D) (rings : Rings r group D) (inA : D a)
    (inB : D b) (inY : D y) (isLast : r y = some b) (nextA : r a = some next)
    (atA : r' a = some b) (atY : r' y = r a)
    (links : ∀ c, D c → c ≠ a → c ≠ y → r' c = r c) (atNext : left' next = some y)
    (atB : left' b = some a) (links' : ∀ c, D c → c ≠ next → c ≠ b → left' c = left c)
    (proper : a ≠ y) : Back r' left' D := by
  intro c d inD val
  by_cases here : c = a
  · subst here
    rw [atA] at val
    cases val
    exact atB
  by_cases last : c = y
  · subst last
    rw [atY, nextA] at val
    cases val
    exact atNext
  rw [links c inD here last] at val
  obtain ⟨d', val', inside, -⟩ := rings.next inD
  rw [val] at val'
  cases val'
  have notNext : d ≠ next := by
    rintro rfl
    exact here (rings.injective inD inA (val.trans nextA.symm))
  have notB : d ≠ b := by
    rintro rfl
    exact last (rings.injective inD inY (val.trans isLast.symm))
  rw [links' d inside notNext notB]
  exact back c d inD val

end Rings

end Goblin.Library
