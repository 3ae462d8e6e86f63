import Goblin.SparseRuns
import Mathlib.Data.Nat.Bitwise

/-!
# Graphs behind their accessors

The transformed networks are not stored. A call of `StartNode`, `First` or `Right` is answered
from the original graph and some index arithmetic, and so are the capacities and
lengths. All that an algorithm sees of a graph is what these methods return.

The incidence list of a node is what `Right` runs through from `First` on. It is consistent if these
are the arcs with this start node, each of them once (`Accessors.ListsAt`).
-/

set_option autoImplicit false

namespace Goblin

open Library List

variable {a q r k x count v f : ℕ} {g : ℕ → ℕ} {l : List ℕ}

def noArc : ℕ := 2000000000

/-- What is returned by the methods of a graph. A call that raises has no result; the labels are
asked for arcs of the graph only. -/
structure Accessors where
  n : ℕ
  m : ℕ
  startNode : ℕ → Option ℕ
  first : ℕ → Option ℕ
  right : ℕ → ℕ → Option ℕ
  ucap : ℕ → ℚ
  lcap : ℕ → ℚ
  length : ℕ → ℚ

namespace Accessors

section

variable (N : Accessors)

def endNode (a : ℕ) : Option ℕ :=
  if a < 2 * N.m then N.startNode (a ^^^ 1) else none

/-- Iterating `Right` from `First` on visits the arcs with this start node, each of them once, and
comes back to the first one. A node without arcs has no first arc. -/
def ListsAt (v : ℕ) : Prop :=
  (N.first v = some noArc ∧ ∀ a, a < 2 * N.m → N.startNode a ≠ some v) ∨
    ∃ a l, N.first v = some a ∧ CircularList (fun b => N.right b v) a l ∧
      ∀ b, b ∈ a :: l ↔ b < 2 * N.m ∧ N.startNode b = some v

/-- A graph with consistent incidence lists that is admitted by `CheckLimits`. -/
structure Consistent : Prop where
  start : ∀ a, a < 2 * N.m → ∃ v, v < N.n ∧ N.startNode a = some v
  lists : ∀ v, v < N.n → N.ListsAt v
  limit : 2 * N.m + 2 ≤ noArc

/-- Both directions of an arc have the same labels. -/
structure Symmetric : Prop where
  ucap : ∀ a, a < 2 * N.m → N.ucap (a ^^^ 1) = N.ucap a
  lcap : ∀ a, a < 2 * N.m → N.lcap (a ^^^ 1) = N.lcap a
  length : ∀ a, a < 2 * N.m → N.length (a ^^^ 1) = N.length a

/-- Arcs and nodes come in complementary pairs with the same labels. -/
structure Complementary : Prop where
  startNode : ∀ a, a < 2 * N.m → N.startNode (a ^^^ 2) = (N.endNode a).map (· ^^^ 1)
  ucap : ∀ a, a < 2 * N.m → N.ucap (a ^^^ 2) = N.ucap a
  length : ∀ a, a < 2 * N.m → N.length (a ^^^ 2) = N.length a

end

end Accessors

/-! ## Index arithmetic -/

theorem xor_one_even (even : a % 2 = 0) : a ^^^ 1 = a + 1 :=
  (SparseState.rev_eq a).trans (if_pos even)

theorem xor_one_odd (odd : a % 2 = 1) : a ^^^ 1 = a - 1 :=
  (SparseState.rev_eq a).trans (if_neg (by omega))

theorem xor_low (lowR : r < 4) (lowK : k < 4) : (4 * q + r) ^^^ k = 4 * q + (r ^^^ k) := by
  have small : r ^^^ k < 4 := Nat.xor_lt_two_pow (n := 2) lowR lowK
  have quotient : ((4 * q + r) ^^^ k) / 4 = q := by
    have shifted := Nat.shiftRight_xor_distrib (a := 4 * q + r) (b := k) (i := 2)
    simp only [Nat.shiftRight_eq_div_pow] at shifted
    rw [show (2 : ℕ) ^ 2 = 4 from rfl] at shifted
    rw [shifted, Nat.div_eq_of_lt lowK, Nat.xor_zero]
    omega
  have remainder : ((4 * q + r) ^^^ k) % 4 = r ^^^ k := by
    have cut := Nat.xor_mod_two_pow (a := 4 * q + r) (b := k) (n := 2)
    rw [show (2 : ℕ) ^ 2 = 4 from rfl] at cut
    rw [cut, Nat.mod_eq_of_lt lowK]
    congr 1
    omega
  omega

theorem iff_below {p q : Prop} {a k : ℕ} (low : p → a < k) (eq : a < k → (p ↔ q)) :
    p ↔ a < k ∧ q :=
  ⟨fun holds => ⟨low holds, (eq (low holds)).mp holds⟩, fun both => (eq both.1).mpr both.2⟩

theorem xor_zero_low (lowK : k < 4) : (4 * q) ^^^ k = 4 * q + k := by
  have shifted := xor_low (q := q) (r := 0) (by decide) lowK
  simpa using shifted

/-- An arc and its complement belong to one group of four. -/
theorem xor_two_div_four (a : ℕ) : (a ^^^ 2) / 4 = a / 4 := by
  have small : a % 4 ^^^ 2 < 4 :=
    Nat.xor_lt_two_pow (n := 2) (Nat.mod_lt a (by decide)) (by decide)
  have parts := xor_low (q := a / 4) (Nat.mod_lt a (by decide)) (by decide : 2 < 4)
  rw [show 4 * (a / 4) + a % 4 = a by omega] at parts
  omega

theorem xor_two_lt {m : ℕ} (even : m % 2 = 0) (low : a < 2 * m) : a ^^^ 2 < 2 * m := by
  have eq := xor_two_div_four a
  omega

/-! ## Sparse graphs -/

/-- The methods of a sparse graph. A label is stored once for both directions of an arc. -/
def SparseState.accessors (st : SparseState) (ucap lcap length : ℕ → ℚ) : Accessors where
  n := st.nAct
  m := st.mAct
  startNode a := if a < 2 * st.mAct then st.startNode a else none
  first v := if v < st.nAct then some ((st.first v).getD noArc) else none
  right a _ := if a < 2 * st.mAct then some ((st.right a).getD noArc) else none
  ucap a := ucap (a / 2)
  lcap a := lcap (a / 2)
  length a := length (a / 2)

namespace SparseState

variable {st : SparseState} {ucap lcap length : ℕ → ℚ}

theorem Sound.consistent (sound : st.Sound)
    (complete : ∀ a, a < 2 * st.mAct → st.startNode a ≠ none) (limit : 2 * st.mAct + 2 ≤ noArc) :
    (st.accessors ucap lcap length).Consistent := by
  have lists := sound.incidenceLists
  have inside : ∀ a, a < 2 * st.mAct →
      (st.accessors ucap lcap length).startNode a = st.startNode a := fun a low => if_pos low
  refine ⟨?_, ?_, limit⟩
  · intro a low
    obtain ⟨v, start⟩ := Option.ne_none_iff_exists'.mp (complete a low)
    exact ⟨v, lists.nodes a low v start, (inside a low).trans start⟩
  · intro v low
    have firstV : (st.accessors ucap lcap length).first v = some ((st.first v).getD noArc) :=
      if_pos low
    cases atV : st.first v with
    | none =>
      refine .inl ⟨by rw [firstV, atV]; rfl, fun a lowA start => ?_⟩
      exact (lists.first v low).mp atV a lowA ((inside a lowA).symm.trans start)
    | some f =>
      obtain ⟨l, ring, members⟩ := lists.lists v low f atV
      refine .inr ⟨f, l, by rw [firstV, atV]; rfl, ring.congr ?_, ?_⟩
      · intro b mem
        obtain ⟨next, -, isNext⟩ := ring.next_mem mem
        have lowB := ((members b).mp mem).1
        change (if b < 2 * st.mAct then some ((st.right b).getD noArc) else none) = _
        rw [if_pos lowB, isNext, Option.getD_some]
      · intro b
        rw [members b]
        exact and_congr_right fun lowB => by rw [inside b lowB]

theorem accessors_symmetric : (st.accessors ucap lcap length).Symmetric := by
  have half : ∀ a, (a ^^^ 1) / 2 = a / 2 := by
    intro a
    rcases Nat.mod_two_eq_zero_or_one a with even | odd
    · rw [xor_one_even even]
      omega
    · rw [xor_one_odd odd]
      omega
  constructor
  · exact fun a _ => congrArg ucap (half a)
  · exact fun a _ => congrArg lcap (half a)
  · exact fun a _ => congrArg length (half a)

end SparseState

/-! ## Lists that are put together -/

/-- The list of an original node, under other names and with another successor of its last
arc. -/
theorem links_rerouted {r r' : ℕ → Option ℕ} (links : Links r l (some a)) (later : a ∉ l.tail)
    (val : ∀ b ∈ l, ∀ c, r b = some c → r' (g b) = some (if c = a then x else g c)) :
    Links r' (l.map g) (some x) := by
  induction l with
  | nil => trivial
  | cons b l ih =>
    obtain ⟨next, rest⟩ := links
    constructor
    · cases l with
      | nil => exact (val b mem_cons_self a next).trans (by simp)
      | cons c l =>
        have other : c ≠ a := fun eq => later (by simp [eq])
        exact (val b mem_cons_self c next).trans (by simp [other])
    · refine ih rest (fun mem => later (mem_of_mem_tail mem)) ?_
      intro c mem
      exact val c (mem_cons_of_mem _ mem)

theorem links_range {r : ℕ → Option ℕ} {e : Option ℕ}
    (step : ∀ i, i + 1 < count → r (g i) = some (g (i + 1)))
    (last : ∀ i, i + 1 = count → r (g i) = e) : Links r ((List.range count).map g) e := by
  induction count generalizing e with
  | zero => trivial
  | succ count ih =>
    rw [range_succ, map_append, map_singleton, links_concat]
    refine ⟨ih ?_ ?_, last count rfl⟩
    · intro i low
      exact step i (by omega)
    · intro i eq
      rw [step i (by omega), eq]

variable {N : Accessors}

theorem Accessors.ListsAt.exists_list (lists : N.ListsAt v) :
    ∃ l : List ℕ, l.Nodup ∧ (∀ b, b ∈ l ↔ b < 2 * N.m ∧ N.startNode b = some v) ∧
      N.first v = some (l.headD noArc) ∧ Links (fun b => N.right b v) l l.head? := by
  rcases lists with ⟨first, none⟩ | ⟨a, l, first, ring, members⟩
  · refine ⟨[], nodup_nil, fun b => ?_, first, trivial⟩
    simp only [not_mem_nil, false_iff, not_and]
    exact none b
  · exact ⟨a :: l, ring.nodup, members, first, ring.links⟩

theorem Accessors.listsAt_spliced {y : ℕ} {r : ℕ → Option ℕ} (first : N.first v = some f)
    (inside : f ∈ x :: y :: l.map g) (atX : N.right x v = some y)
    (atY : N.right y v = some ((l.map g).headD x)) (links : Links r l l.head?)
    (nodup : (x :: y :: l.map g).Nodup) (val : ∀ b ∈ l, ∀ c, r b = some c →
      N.right (g b) v = some (if some c = l.head? then x else g c))
    (members : ∀ b, b ∈ x :: y :: l.map g ↔ b < 2 * N.m ∧ N.startNode b = some v) :
    N.ListsAt v := by
  have ring : CircularList (fun b => N.right b v) x (y :: l.map g) := by
    refine ⟨nodup, atX, ?_⟩
    cases l with
    | nil => exact ⟨atY, trivial⟩
    | cons a l =>
      refine ⟨atY, ?_⟩
      have ne : (a :: l).Nodup :=
        (nodup_cons.mp (nodup_cons.mp nodup).2).2.of_map g
      refine links_rerouted (a := a) links (nodup_cons.mp ne).1 ?_
      intro b mem c next
      simpa using val b mem c next
  obtain ⟨l', ring', eq⟩ := ring.startAt inside
  exact .inr ⟨f, l', first, ring', fun b => (eq b).trans (members b)⟩

theorem head_range_map (e : Option ℕ) :
    ((List.range count).map g).head?.or e = if count = 0 then e else some (g 0) := by
  cases count with
  | zero => rfl
  | succ count => simp [range_succ_eq_map]

theorem mem_group {front : List ℕ} {base : ℕ} (lowR : r < k) :
    a ∈ front ++ (List.range count).map (fun i => k * (base + i) + r) ↔
      a ∈ front ∨ (k * base ≤ a ∧ a < k * (base + count) ∧ a % k = r) := by
  simp only [mem_append, mem_map, mem_range]
  apply or_congr_right
  constructor
  · rintro ⟨i, low, rfl⟩
    have above : k * base ≤ k * (base + i) := Nat.mul_le_mul_left k (by omega)
    have below : k * (base + i) + k ≤ k * (base + count) := by
      rw [← Nat.mul_succ]
      exact Nat.mul_le_mul_left k (by omega)
    exact ⟨by omega, by omega, by rw [Nat.mul_add_mod, Nat.mod_eq_of_lt lowR]⟩
  · rintro ⟨above, below, rest⟩
    have quotient : base ≤ a / k := (Nat.le_div_iff_mul_le (by omega)).mpr (by linarith)
    have parts := Nat.div_add_mod a k
    refine ⟨a / k - base, ?_, ?_⟩
    · have bounded : a / k < base + count := Nat.div_lt_of_lt_mul below
      omega
    · rw [show base + (a / k - base) = a / k by omega, ← rest, parts]

/-- The arcs of a terminal: some single ones in front of a group of artificial arcs with
equidistant indices. The group may be empty. The first arc of the terminal is one of the single
ones. -/
theorem Accessors.listsAt_group {u : ℕ} (front : List ℕ) (base count : ℕ) (lowR : r < k)
    (links : Links (fun b => N.right b u) front
      (if count = 0 then front.head? else some (k * base + r)))
    (group : ∀ i, i < count → N.right (k * (base + i) + r) u =
      if i + 1 = count then front.head? else some (k * (base + i) + r + k)) (ne : front.Nodup)
    (beyond : ∀ a ∈ front, k * (base + count) ≤ a) (first : N.first u = some f) (inside : f ∈ front)
    (members : ∀ b, b ∈ front ++ (List.range count).map (fun i => k * (base + i) + r) ↔
      b < 2 * N.m ∧ N.startNode b = some u) : N.ListsAt u := by
  obtain ⟨y, front, rfl⟩ := exists_cons_of_ne_nil (ne_nil_of_mem inside)
  have nodup : (y :: front ++ (List.range count).map fun i => k * (base + i) + r).Nodup := by
    rw [nodup_append]
    refine ⟨ne, nodup_range.map ?_, ?_⟩
    · intro i j same
      have scaled := Nat.eq_of_mul_eq_mul_left (by omega) (Nat.add_right_cancel same)
      omega
    · intro a inFront b inGroup same
      rw [mem_map] at inGroup
      obtain ⟨i, low, eq⟩ := inGroup
      rw [mem_range] at low
      have bound : k * (base + i) + k ≤ k * (base + count) := by
        rw [← Nat.mul_succ]
        exact Nat.mul_le_mul_left k (by omega)
      have := beyond a inFront
      omega
  have ring : CircularList (fun b => N.right b u) y
      (front ++ (List.range count).map fun i => k * (base + i) + r) := by
    refine ⟨nodup, ?_⟩
    rw [← cons_append, links_append, head_range_map]
    refine ⟨links, links_range ?_ ?_⟩
    · intro i low
      rw [group i (by omega), if_neg (by omega), Nat.add_right_comm, ← Nat.mul_succ]
      rfl
    · intro i last
      rw [group i (by omega), if_pos last]
      rfl
  obtain ⟨l, ring', same⟩ := ring.startAt (mem_append_left _ inside)
  exact .inr ⟨f, l, first, ring', fun b => (same b).trans (members b)⟩

end Goblin
