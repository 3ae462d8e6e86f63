import Goblin.Accessors
import Goblin.BaseTypes

/-!
# The network of a flow problem with node demands

Two artificial arcs are incident with every original node. They carry the imbalance of the node
with respect to the original flow. A maximum flow drains the ones into the sink.
-/

set_option autoImplicit false

namespace Goblin

open Library List Option

variable {a i r v u : ℕ}

namespace DigraphToDigraph

variable (G : Accessors)

/-! ## The network -/

/-- The number of nodes. -/
def n : ℕ := G.n + 2

/-- The number of arcs. -/
def m : ℕ := G.m + 2 * G.n + 1

def s1 : ℕ := n G - 1
def t1 : ℕ := n G - 2
def ret1 : ℕ := 2 * (m G - 1)

def startNode (a : ℕ) : Option ℕ :=
  let d2 := a / 2
  let r2 := a % 2
  if d2 < G.m then G.startNode a
  else if d2 < G.m + G.n then
    if r2 = 1 then some (d2 - G.m) else some (t1 G)
  else if d2 < G.m + 2 * G.n then
    if r2 = 1 then some (s1 G) else some (d2 - G.m - G.n)
  else if d2 = G.m + 2 * G.n then
    if r2 = 1 then some (s1 G) else some (t1 G)
  else none

def first (v : ℕ) : Option ℕ :=
  if v < G.n then G.first v
  else if v = t1 G then some (ret1 G)
  else if v = s1 G then some (ret1 G ^^^ 1)
  else none

def right (a u : ℕ) : Option ℕ :=
  let d2 := a / 2
  let r2 := a % 2
  if startNode G a ≠ some u then none
  else if d2 < G.m then
    (G.right a u).bind fun ar =>
      (G.first u).bind fun af => if ar ≠ af then some ar else some (2 * (G.m + u) + 1)
  else if d2 < G.m + G.n then
    if r2 = 1 then some (2 * (d2 + G.n))
    else if d2 = G.m + G.n - 1 then some (ret1 G)
    else some (a + 2)
  else if d2 < G.m + 2 * G.n then
    if r2 = 0 then
      (G.first (d2 - G.m - G.n)).bind fun af =>
        if af = noArc then some (2 * (G.m + u) + 1) else some af
    else if d2 = G.m + 2 * G.n - 1 then some (ret1 G ^^^ 1)
    else some (a + 2)
  else if d2 = G.m + 2 * G.n then
    if r2 = 0 then some (2 * G.m) else some (2 * (G.m + G.n) + 1)
  else none

/-- The capacities of the artificial arcs, and the node potentials of the original graph. -/
structure Labels where
  cap : ℕ → ℚ
  piG : Option (ℕ → ℚ)

variable (L : Labels)

def ucap (a : ℕ) : ℚ :=
  if a < 2 * G.m then G.ucap a else L.cap (a / 2 - G.m)

def lcap (a : ℕ) : ℚ :=
  if a < 2 * G.m then G.lcap a else 0

/-- `RedLength` of the original graph, for an arc in forward direction. -/
def redLength (a : ℕ) : ℚ :=
  match L.piG with
  | none => G.length a
  | some pi => G.length a + ((G.startNode a).map pi).getD 0 - ((G.endNode a).map pi).getD 0

def length (a : ℕ) : ℚ :=
  if a < 2 * G.m then redLength G L (a - a % 2) else 0

/-- The network as its methods present it. -/
def network : Accessors where
  n := n G
  m := m G
  startNode := startNode G
  first := first G
  right := right G
  ucap := ucap G L
  lcap := lcap G
  length := length G L

/-! ## Arcs by their index -/

section Arcs

variable {G}

theorem sizes : t1 G = G.n ∧ s1 G = G.n + 1 ∧ ret1 G = 2 * (G.m + 2 * G.n) := by
  simp only [t1, s1, ret1, n, m]
  omega

theorem startNode_edge (low : a < 2 * G.m) : startNode G a = G.startNode a :=
  if_pos (by omega)

theorem startNode_first (low : i < G.n) (lowR : r < 2) :
    startNode G (2 * (G.m + i) + r) = some (if r = 1 then i else t1 G) := by
  rw [startNode, if_neg (by omega), if_pos (by omega), show (2 * (G.m + i) + r) % 2 = r by omega,
    show (2 * (G.m + i) + r) / 2 - G.m = i by omega]
  split_ifs <;> rfl

theorem startNode_second (low : i < G.n) (lowR : r < 2) :
    startNode G (2 * (G.m + G.n + i) + r) = some (if r = 1 then s1 G else i) := by
  rw [startNode, if_neg (by omega), if_neg (by omega), if_pos (by omega),
    show (2 * (G.m + G.n + i) + r) % 2 = r by omega,
    show (2 * (G.m + G.n + i) + r) / 2 - G.m - G.n = i by omega]
  split_ifs <;> rfl

theorem startNode_ret1 (lowR : r < 2) :
    startNode G (ret1 G + r) = some (if r = 1 then s1 G else t1 G) := by
  obtain ⟨-, -, eq1⟩ := sizes (G := G)
  rw [startNode, if_neg (by omega), if_neg (by omega), if_neg (by omega), if_pos (by omega),
    show (ret1 G + r) % 2 = r by omega]
  split_ifs <;> rfl

/-- The kinds of arcs. -/
inductive ArcKind (G : Accessors) : ℕ → Prop
  | edge (b : ℕ) (low : b < 2 * G.m) : ArcKind G b
  | first (i r : ℕ) (low : i < G.n) (lowR : r < 2) : ArcKind G (2 * (G.m + i) + r)
  | second (i r : ℕ) (low : i < G.n) (lowR : r < 2) : ArcKind G (2 * (G.m + G.n + i) + r)
  | ret1 (r : ℕ) (lowR : r < 2) : ArcKind G (ret1 G + r)

theorem arcKind (low : a < 2 * m G) : ArcKind G a := by
  obtain ⟨-, -, eq1⟩ := sizes (G := G)
  rw [m] at low
  by_cases edge : a < 2 * G.m
  · exact .edge a edge
  by_cases firsts : a < 2 * (G.m + G.n)
  · rw [show a = 2 * (G.m + (a / 2 - G.m)) + a % 2 by omega]
    exact .first _ _ (by omega) (by omega)
  by_cases seconds : a < 2 * (G.m + 2 * G.n)
  · rw [show a = 2 * (G.m + G.n + (a / 2 - G.m - G.n)) + a % 2 by omega]
    exact .second _ _ (by omega) (by omega)
  · rw [show a = DigraphToDigraph.ret1 G + (a - DigraphToDigraph.ret1 G) by omega]
    exact .ret1 _ (by omega)

theorem members_original (low : v < G.n) {l : List ℕ}
    (members : ∀ b, b ∈ l ↔ b < 2 * G.m ∧ G.startNode b = some v) (a : ℕ) :
    a ∈ (2 * (G.m + v) + 1) :: (2 * (G.m + G.n + v)) :: l.map id ↔
      a < 2 * m G ∧ startNode G a = some v := by
  obtain ⟨eqt1, eqs1, eq1⟩ := sizes (G := G)
  rw [List.map_id]
  simp only [List.mem_cons]
  constructor
  · rintro (rfl | rfl | mem)
    · exact ⟨by rw [m]; omega, startNode_first low (by decide)⟩
    · exact ⟨by rw [m]; omega, startNode_second low (r := 0) (by decide)⟩
    · obtain ⟨lowA, start⟩ := (members a).mp mem
      exact ⟨by rw [m]; omega, (startNode_edge lowA).trans start⟩
  · rintro ⟨lowA, start⟩
    cases arcKind lowA with
    | edge _ lowB => exact .inr (.inr ((members a).mpr ⟨lowB, startNode_edge lowB ▸ start⟩))
    | first i r lowI lowR =>
      rw [startNode_first lowI lowR, some_inj] at start
      split_ifs at start <;> omega
    | second i r lowI lowR =>
      rw [startNode_second lowI lowR, some_inj] at start
      split_ifs at start <;> omega
    | ret1 r lowR =>
      rw [startNode_ret1 lowR, some_inj] at start
      split_ifs at start <;> omega

theorem members_terminal (consistent : G.Consistent) (high : G.n ≤ u) {P : ℕ → Prop}
    (edges : ∀ a, P a → 2 * G.m ≤ a) (low : ∀ a, P a → a < 2 * m G)
    (first : ∀ i r, i < G.n → r < 2 →
      (P (2 * (G.m + i) + r) ↔ (if r = 1 then i else t1 G) = u)) (second : ∀ i r, i < G.n → r < 2 →
      (P (2 * (G.m + G.n + i) + r) ↔ (if r = 1 then s1 G else i) = u))
    (single : ∀ r, r < 2 → (P (ret1 G + r) ↔ (if r = 1 then s1 G else t1 G) = u))
    (a : ℕ) : P a ↔ a < 2 * m G ∧ startNode G a = some u := by
  refine iff_below (low a) fun lowA => ?_
  cases arcKind lowA with
  | edge _ lowB =>
    obtain ⟨w, lowW, start⟩ := consistent.start a lowB
    rw [startNode_edge lowB, start, some_inj]
    constructor
    · intro holds
      have := edges _ holds
      omega
    · omega
  | first i r lowI lowR =>
    rw [startNode_first lowI lowR, some_inj]
    exact first i r lowI lowR
  | second i r lowI lowR =>
    rw [startNode_second lowI lowR, some_inj]
    exact second i r lowI lowR
  | ret1 r lowR =>
    rw [startNode_ret1 lowR, some_inj]
    exact single r lowR

end Arcs

/-! ## The incidence lists -/

section Lists

variable {G} {L}

/-- The artificial arcs of an original node precede its original arcs. -/
theorem right_artificial (low : v < G.n) :
    right G (2 * (G.m + v) + 1) v = some (2 * (G.m + G.n + v)) ∧
      right G (2 * (G.m + G.n + v)) v = (G.first v).map fun af =>
        if af = noArc then 2 * (G.m + v) + 1 else af := by
  have atX : startNode G (2 * (G.m + v) + 1) = some v := startNode_first low (by decide)
  have atY : startNode G (2 * (G.m + G.n + v)) = some v :=
    startNode_second low (r := 0) (by decide)
  constructor
  · rw [right, if_neg (not_not.mpr atX), if_neg (by omega), if_pos (by omega), if_pos (by omega)]
    congr 1
    omega
  · rw [right, if_neg (not_not.mpr atY), if_neg (by omega), if_neg (by omega), if_pos (by omega),
      if_pos (by omega), show 2 * (G.m + G.n + v) / 2 - G.m - G.n = v by omega]
    cases G.first v with
    | none => rfl
    | some af => exact (apply_ite some _ _ _).symm

section

variable (consistent : G.Consistent)
include consistent

theorem lists_original (low : v < G.n)
    (incident : ∃ a, a < 2 * G.m ∧ G.startNode a = some v) : (network G L).ListsAt v := by
  obtain ⟨l, nodup, members, firstG, links⟩ := (consistent.lists v low).exists_list
  have limit := consistent.limit
  have lowL : ∀ b ∈ l, b < 2 * G.m := fun b mem => ((members b).mp mem).1
  obtain ⟨a, lowA, startA⟩ := incident
  obtain ⟨f, l, rfl⟩ :=
    exists_cons_of_ne_nil (ne_nil_of_mem ((members a).mpr ⟨lowA, startA⟩))
  have lowF := lowL f mem_cons_self
  refine Accessors.listsAt_spliced (x := 2 * (G.m + v) + 1) (y := 2 * (G.m + G.n + v)) (f := f)
    (g := id) ?_ (by simp) (right_artificial low).1 ?_ links ?_ ?_ (members_original low members)
  · exact (if_pos low).trans firstG
  · refine (right_artificial low).2.trans ?_
    rw [firstG, headD_cons, map_some, if_neg (by omega)]
    rfl
  · rw [List.map_id, List.nodup_cons, List.nodup_cons]
    refine ⟨?_, ?_, nodup⟩
    · rw [List.mem_cons]
      rintro (eq | mem)
      · omega
      · have := lowL _ mem
        omega
    · intro mem
      have := lowL _ mem
      omega
  · intro b mem c next
    obtain ⟨lowB, startB⟩ := (members b).mp mem
    change right G b v = _
    rw [right, if_neg (not_not.mpr ((startNode_edge lowB).trans startB)), if_pos (by omega), next,
      bind_some, firstG, headD_cons, bind_some, head?_cons]
    by_cases last : c = f
    · rw [if_neg (not_not.mpr last), if_pos (congrArg some last)]
    · rw [if_pos last, if_neg (fun eq => last (some_inj.mp eq)), id]

/-- A node that is isolated in the original graph has artificial arcs, but no first arc. -/
theorem not_lists_isolated (limit : 2 * m G + 2 ≤ noArc) (low : v < G.n)
    (isolated : ∀ a, a < 2 * G.m → G.startNode a ≠ some v) : ¬ (network G L).ListsAt v := by
  have firstG : first G v = some noArc := by
    rcases consistent.lists v low with ⟨none, -⟩ | ⟨a, l, -, -, members⟩
    · exact (if_pos low).trans none
    · obtain ⟨lowA, start⟩ := (members a).mp mem_cons_self
      exact absurd start (isolated a lowA)
  have inside : 2 * (G.m + v) + 1 < 2 * m G := by
    rw [m]
    omega
  have start : startNode G (2 * (G.m + v) + 1) = some v := startNode_first low (by decide)
  rintro (⟨-, none⟩ | ⟨a, l, isFirst, -, members⟩)
  · exact none _ inside start
  · obtain rfl : noArc = a := some_inj.mp (firstG.symm.trans isFirst)
    have small : noArc < 2 * m G := ((members noArc).mp mem_cons_self).1
    omega

theorem lists_terminals (pos : 0 < G.n)
    (isTerminal : u = t1 G ∨ u = s1 G) : (network G L).ListsAt u := by
  obtain ⟨eqt1, eqs1, eq1⟩ := sizes (G := G)
  have eqM : m G = G.m + 2 * G.n + 1 := rfl
  have ret1_xor : ret1 G ^^^ 1 = ret1 G + 1 := xor_one_even (by omega)
  have ret1_start : startNode G (ret1 G) = some (t1 G) := startNode_ret1 (r := 0) (by decide)
  have ret1_start' : startNode G (ret1 G + 1) = some (s1 G) := startNode_ret1 (by decide)
  rcases isTerminal with rfl | rfl
  · refine Accessors.listsAt_group (f := ret1 G) (r := 0) (k := 2) [ret1 G] G.m G.n (by decide)
      ?_ ?_ (by simp) ?_ ?_ (by simp) ?_
    · rw [if_neg pos.ne']
      refine ⟨?_, trivial⟩
      change right G _ _ = _
      rw [right, if_neg (not_not.mpr ret1_start), if_neg (by omega), if_neg (by omega),
        if_neg (by omega), if_pos (by omega), if_pos (by omega)]
      rfl
    · intro i low
      have start : startNode G (2 * (G.m + i)) = some (t1 G) :=
        startNode_first (r := 0) low (by decide)
      change right G (2 * (G.m + i)) _ = _
      rw [right, if_neg (not_not.mpr start), if_neg (by omega), if_pos (by omega),
        if_neg (by omega)]
      split_ifs <;> first | rfl | omega
    · intro a mem
      rw [mem_singleton] at mem
      omega
    · change first G _ = _
      rw [first, if_neg (by omega), if_pos rfl]
    · intro a
      rw [mem_group (by decide)]
      simp only [mem_singleton]
      refine members_terminal (P := fun a => a = ret1 G ∨ (2 * G.m ≤ a ∧ a < 2 * (G.m + G.n) ∧
        a % 2 = 0)) consistent (by omega) (by omega) (by omega) ?_ ?_ ?_ a
      all_goals
        intros
        split_ifs <;> omega
  · refine Accessors.listsAt_group (f := ret1 G + 1) (r := 1) (k := 2) [ret1 G + 1] (G.m + G.n)
      G.n (by decide) ?_ ?_ (by simp) ?_ ?_ (by simp) ?_
    · rw [if_neg pos.ne']
      refine ⟨?_, trivial⟩
      change right G _ _ = _
      rw [right, if_neg (not_not.mpr ret1_start'), if_neg (by omega), if_neg (by omega),
        if_neg (by omega), if_pos (by omega), if_neg (by omega)]
      rfl
    · intro i low
      have start : startNode G (2 * (G.m + G.n + i) + 1) = some (s1 G) :=
        startNode_second low (by decide)
      change right G _ _ = _
      rw [right, if_neg (not_not.mpr start), if_neg (by omega), if_neg (by omega),
        if_pos (by omega), if_neg (by omega), ret1_xor]
      split_ifs <;> first | rfl | omega
    · intro a mem
      rw [mem_singleton] at mem
      omega
    · change first G _ = _
      rw [first, if_neg (by omega), if_neg (by omega), if_pos rfl, ret1_xor]
    · intro a
      rw [mem_group (by decide)]
      simp only [mem_singleton]
      refine members_terminal (P := fun a => a = ret1 G + 1 ∨ (2 * (G.m + G.n) ≤ a ∧
        a < 2 * (G.m + G.n + G.n) ∧ a % 2 = 1)) consistent (by omega) (by omega) (by omega)
        ?_ ?_ ?_ a
      all_goals
        intros
        split_ifs <;> omega

/-- The incidence lists of all nodes are consistent unless the original graph has an isolated
node. -/
theorem lists_iff (limit : 2 * m G + 2 ≤ noArc) (pos : 0 < G.n) :
    (∀ v, v < n G → (network G L).ListsAt v) ↔
      ∀ v, v < G.n → ∃ a, a < 2 * G.m ∧ G.startNode a = some v := by
  obtain ⟨eqt1, eqs1, -⟩ := sizes (G := G)
  constructor
  · intro all v low
    by_contra isolated
    refine not_lists_isolated (L := L) consistent limit low ?_ (all v (by rw [n]; omega))
    intro a lowA start
    exact isolated ⟨a, lowA, start⟩
  · intro incident v low
    rw [n] at low
    by_cases original : v < G.n
    · exact lists_original consistent original (incident v original)
    · exact lists_terminals consistent pos (by omega)

end

end Lists

end DigraphToDigraph

end Goblin
