import Goblin.Accessors

/-!
# The balanced network of a matching problem

Every node of the original graph is split into an outer and an inner node, and every edge into
two complementary arcs. There are two sources and two sinks. The degree bounds
are the capacities of the arcs between the terminals and the split nodes. Four
arc indices belong to one edge, or to one artificial arc with its complement.
-/

set_option autoImplicit false

namespace Goblin

open Library List Option SparseState
open Option (some_inj)

variable {b i r a x v u : ℕ} {l : List ℕ}

namespace GraphToBalanced

variable (G : Accessors)

/-! ## The network -/

/-- The number of nodes. -/
def n : ℕ := 2 * (G.n + 2)

/-- The number of arcs. -/
def m : ℕ := 2 * (G.m + 2 * G.n + 3)

def t2 : ℕ := n G - 4
def s2 : ℕ := n G - 3
def t1 : ℕ := n G - 2
def s1 : ℕ := n G - 1
def ret1 : ℕ := 2 * m G - 4
def ret2 : ℕ := 2 * m G - 12
def art1 : ℕ := 2 * m G - 8
def art2 : ℕ := 2 * m G - 6

def startNode (a : ℕ) : Option ℕ :=
  let d4 := a / 4
  let r4 := a % 4
  if d4 < G.m then
    if r4 = 0 then (G.startNode (d4 * 2)).map fun v => 2 * v
    else if r4 = 1 then (G.startNode (d4 * 2 + 1)).map fun v => 2 * v + 1
    else if r4 = 2 then (G.startNode (d4 * 2 + 1)).map fun v => 2 * v
    else (G.startNode (d4 * 2)).map fun v => 2 * v + 1
  else if d4 < G.m + G.n then
    if r4 = 0 then some (s1 G)
    else if r4 = 1 then some (2 * (d4 - G.m))
    else if r4 = 2 then some (2 * (d4 - G.m) + 1)
    else some (t1 G)
  else if d4 < G.m + 2 * G.n then
    if r4 = 0 then some (s2 G)
    else if r4 = 1 then some (2 * (d4 - G.m - G.n))
    else if r4 = 2 then some (2 * (d4 - G.m - G.n) + 1)
    else some (t2 G)
  else if d4 = ret1 G / 4 then
    if r4 = 0 then some (t1 G)
    else if r4 = 1 then some (s1 G)
    else if r4 = 2 then some (t1 G)
    else some (s1 G)
  else if d4 = ret2 G / 4 then
    if r4 = 0 then some (t2 G)
    else if r4 = 1 then some (s2 G)
    else if r4 = 2 then some (t2 G)
    else some (s2 G)
  else if d4 = art1 G / 4 then
    if r4 = 0 then some (s1 G)
    else if r4 = 1 then some (t2 G)
    else if r4 = 2 then some (s2 G)
    else some (t1 G)
  else none

def first (v : ℕ) : Option ℕ :=
  let v0 := v / 2
  if v0 < G.n then
    if v % 2 = 1 then some (4 * (G.m + v0) + 2) else some (4 * (G.m + v0) + 1)
  else if v = t2 G then some (ret2 G)
  else if v = s2 G then some (art2 G)
  else if v = t1 G then some (ret1 G)
  else if v = s1 G then some (art1 G)
  else none

/-- `Right` for an outer node. -/
def rightOuter (a u0 : ℕ) : Option ℕ :=
  if a = 4 * (G.m + u0) + 1 then some (4 * (G.m + G.n + u0) + 1)
  else
    (G.first u0).bind fun f =>
      let af := 2 * f
      if a = 4 * (G.m + G.n + u0) + 1 then
        if af = 2 * noArc then some (4 * (G.m + u0) + 1) else some af
      else
        (G.right (a / 2) u0).bind fun next =>
          let ar := 2 * next
          if ar = af then some (4 * (G.m + u0) + 1) else some ar

/-- `Right` for an inner node. -/
def rightInner (a u0 : ℕ) : Option ℕ :=
  if a = 4 * (G.m + u0) + 2 then some (4 * (G.m + G.n + u0) + 2)
  else
    (G.first u0).bind fun f =>
      let af := (2 * f) ^^^ 3
      if a = 4 * (G.m + G.n + u0) + 2 then
        if 2 * noArc ≤ af then some (4 * (G.m + u0) + 2) else some af
      else
        (G.right ((a ^^^ 3) / 2) u0).bind fun next =>
          let ar := (2 * next) ^^^ 3
          if ar = af then some (4 * (G.m + u0) + 2) else some ar

def right (a u : ℕ) : Option ℕ :=
  if startNode G a ≠ some u then none
  else if u / 2 < G.n ∧ u % 2 = 0 then rightOuter G a (u / 2)
  else if u / 2 < G.n ∧ u % 2 = 1 then rightInner G a (u / 2)
  else if u = t2 G then
    if a = ret2 G then some (ret2 G ^^^ 2)
    else if a = ret2 G ^^^ 2 then some (art1 G ^^^ 1)
    else if a = art1 G ^^^ 1 then some (4 * (G.m + G.n) + 3)
    else if a = 4 * (G.m + 2 * G.n) - 1 then some (ret2 G)
    else some (a + 4)
  else if u = s2 G then
    if a = ret2 G ^^^ 1 then some (ret2 G ^^^ 3)
    else if a = ret2 G ^^^ 3 then some (art2 G)
    else if a = art2 G then some (4 * (G.m + G.n))
    else if a = 4 * (G.m + 2 * G.n) - 4 then some (ret2 G ^^^ 1)
    else some (a + 4)
  else if u = t1 G then
    if a = ret1 G then some (ret1 G ^^^ 2)
    else if a = ret1 G ^^^ 2 then some (art2 G ^^^ 1)
    else if a = art2 G ^^^ 1 then some (4 * G.m + 3)
    else if a = 4 * (G.m + G.n) - 1 then some (ret1 G)
    else some (a + 4)
  else if u = s1 G then
    if a = ret1 G ^^^ 1 then some (ret1 G ^^^ 3)
    else if a = ret1 G ^^^ 3 then some (art1 G)
    else if a = art1 G then some (4 * G.m)
    else if a = 4 * (G.m + G.n) - 4 then some (ret1 G ^^^ 1)
    else some (a + 4)
  else none

/-! ## Degree bounds and lengths -/

/-- What `Init` computes from the bounds. -/
structure Bounds where
  ccap : ℚ
  cap : Option (ℕ → ℚ)
  lower : Option (ℕ → ℚ)
  sumLower : ℚ
  sumUpper : ℚ
  minLength : ℚ

/-- The sum over the nodes. -/
def sumNodes (f : ℕ → ℚ) : ℚ :=
  (List.range G.n).foldl (fun sum v => sum + f v) 0

/-- The loop that determines `minLength`. It is guarded by the presence of `cap`. -/
def initLength (cap : Option (ℕ → ℚ)) : ℚ :=
  (List.range G.m).foldl (fun minLength a =>
    if cap.isSome then
      if G.length (2 * a) < minLength then G.length (2 * a) else minLength
    else minLength) 0

section

variable (pLower pCap : Option (ℕ → ℚ)) (ccap : ℚ)

/-- The sums of the bounds, and `cap` relative to `lower`. -/
def initSums : Bounds :=
  match pLower, pCap with
  | none, cap => ⟨ccap, cap, none, G.n * ccap, G.n * ccap, initLength G pCap⟩
  | some lower, none =>
    ⟨ccap, none, some lower, sumNodes G lower, sumNodes G lower, initLength G pCap⟩
  | some lower, some cap =>
    ⟨ccap, some fun v => cap v - lower v, some lower, sumNodes G lower, sumNodes G cap,
      initLength G pCap⟩

/-- One step of the elimination of lower arc capacities. -/
def eliminate (B : Bounds) (a : ℕ) : Bounds :=
  if 0 < G.lcap a then
    { B with
      lower := B.lower.map fun lower v =>
        if G.startNode a = some v then lower v - G.lcap a else lower v
      sumLower := B.sumLower - G.lcap a
      sumUpper := B.sumUpper - G.lcap a }
  else B

/-- `Init`, as far as the bounds are concerned. -/
def init : Bounds :=
  let B := initSums G pLower pCap ccap
  if (List.range (2 * G.m)).any fun a => decide (0 < G.lcap a) then
    let lower := B.lower.getD fun _ => ccap
    (List.range (2 * G.m)).foldl (eliminate G) { B with lower := some lower }
  else B

end

variable (B : Bounds)

def ucap (a : ℕ) : ℚ :=
  let d4 := a / 4
  if d4 < G.m then
    if G.length (a / 2) = infFloat then 0 else G.ucap (a / 2) - G.lcap (a / 2)
  else if d4 < G.m + G.n then
    match B.lower with
    | none => B.ccap
    | some lower => lower (d4 - G.m)
  else if d4 < G.m + 2 * G.n then
    match B.cap with
    | none => 0
    | some cap => cap (d4 - G.m - G.n)
  else if d4 = ret2 G / 4 then ⌈B.sumUpper / 2⌉
  else if d4 = art1 G / 4 then B.sumLower
  else 0

def length (a : ℕ) : ℚ :=
  if a < 4 * G.m then
    if G.length (a / 2) = infFloat then 0 else G.length (a / 2) - B.minLength
  else 0

/-- The network as its methods present it. -/
def network : Accessors where
  n := n G
  m := m G
  startNode := startNode G
  first := first G
  right := right G
  ucap := ucap G B
  lcap _ := 0
  length := length G B

/-! ## Arcs by their index -/

section Arcs

variable {G}

/-- The terminals and the artificial arcs in terms of the original sizes. -/
theorem sizes : t2 G = 2 * G.n ∧ s2 G = 2 * G.n + 1 ∧ t1 G = 2 * G.n + 2 ∧ s1 G = 2 * G.n + 3 ∧
    ret2 G = 4 * (G.m + 2 * G.n) ∧ art1 G = 4 * (G.m + 2 * G.n + 1) ∧
    art2 G = 4 * (G.m + 2 * G.n + 1) + 2 ∧ ret1 G = 4 * (G.m + 2 * G.n + 2) := by
  simp only [t2, s2, t1, s1, ret2, art1, art2, ret1, n, m]
  omega

theorem xor_three (b : ℕ) : (2 * b) ^^^ 3 = 4 * (b / 2) + (if b % 2 = 0 then 3 else 1) := by
  rcases Nat.mod_two_eq_zero_or_one b with even | odd
  · rw [show 2 * b = 4 * (b / 2) + 0 by omega, xor_low (by decide) (by decide), if_pos even]
    rfl
  · rw [show 2 * b = 4 * (b / 2) + 2 by omega, xor_low (by decide) (by decide), if_neg (by omega)]
    rfl

theorem startNode_outer (low : b < 2 * G.m) :
    startNode G (2 * b) = (G.startNode b).map fun v => 2 * v := by
  have edge : 2 * b / 4 < G.m := by omega
  rcases Nat.mod_two_eq_zero_or_one b with even | odd
  · rw [startNode, if_pos edge, if_pos (by omega), show 2 * b / 4 * 2 = b by omega]
  · rw [startNode, if_pos edge, if_neg (by omega), if_neg (by omega), if_pos (by omega),
      show 2 * b / 4 * 2 + 1 = b by omega]

theorem startNode_inner (low : b < 2 * G.m) :
    startNode G ((2 * b) ^^^ 3) = (G.startNode b).map fun v => 2 * v + 1 := by
  rw [xor_three]
  rcases Nat.mod_two_eq_zero_or_one b with even | odd
  · rw [if_pos even, startNode, if_pos (by omega), if_neg (by omega), if_neg (by omega),
      if_neg (by omega), show (4 * (b / 2) + 3) / 4 * 2 = b by omega]
  · rw [if_neg (by omega), startNode, if_pos (by omega), if_neg (by omega), if_pos (by omega),
      show (4 * (b / 2) + 1) / 4 * 2 + 1 = b by omega]

/-- The artificial arcs of the split nodes: `s` and `t` are the terminals, `x` is the node. -/
def sides (s t x r : ℕ) : ℕ :=
  if r = 0 then s else if r = 1 then 2 * x else if r = 2 then 2 * x + 1 else t

theorem startNode_first (low : i < G.n) (lowR : r < 4) :
    startNode G (4 * (G.m + i) + r) = some (sides (s1 G) (t1 G) i r) := by
  rw [startNode, if_neg (by omega), if_pos (by omega), show (4 * (G.m + i) + r) % 4 = r by omega,
    show (4 * (G.m + i) + r) / 4 - G.m = i by omega, sides]
  split_ifs <;> rfl

theorem startNode_second (low : i < G.n) (lowR : r < 4) :
    startNode G (4 * (G.m + G.n + i) + r) = some (sides (s2 G) (t2 G) i r) := by
  rw [startNode, if_neg (by omega), if_neg (by omega), if_pos (by omega),
    show (4 * (G.m + G.n + i) + r) % 4 = r by omega,
    show (4 * (G.m + G.n + i) + r) / 4 - G.m - G.n = i by omega, sides]
  split_ifs <;> rfl

theorem startNode_ret2 (lowR : r < 4) :
    startNode G (ret2 G + r) = some (if r % 2 = 0 then t2 G else s2 G) := by
  obtain ⟨-, -, -, -, eq2, -, -, eq1⟩ := sizes (G := G)
  rw [startNode, if_neg (by omega), if_neg (by omega), if_neg (by omega), if_neg (by omega),
    if_pos (by omega), show (ret2 G + r) % 4 = r by omega]
  interval_cases r <;> rfl

theorem startNode_art (lowR : r < 4) : startNode G (art1 G + r) =
      some (if r = 0 then s1 G else if r = 1 then t2 G else if r = 2 then s2 G else t1 G) := by
  obtain ⟨-, -, -, -, eq2, eqA, -, eq1⟩ := sizes (G := G)
  rw [startNode, if_neg (by omega), if_neg (by omega), if_neg (by omega), if_neg (by omega),
    if_neg (by omega), if_pos (by omega), show (art1 G + r) % 4 = r by omega]
  interval_cases r <;> rfl

theorem startNode_ret1 (lowR : r < 4) :
    startNode G (ret1 G + r) = some (if r % 2 = 0 then t1 G else s1 G) := by
  obtain ⟨-, -, -, -, -, -, -, eq1⟩ := sizes (G := G)
  rw [startNode, if_neg (by omega), if_neg (by omega), if_neg (by omega), if_pos (by omega),
    show (ret1 G + r) % 4 = r by omega]
  interval_cases r <;> rfl

/-- The kinds of arcs. -/
inductive ArcKind (G : Accessors) : ℕ → Prop
  | outer (b : ℕ) (low : b < 2 * G.m) : ArcKind G (2 * b)
  | inner (b : ℕ) (low : b < 2 * G.m) : ArcKind G ((2 * b) ^^^ 3)
  | first (i r : ℕ) (low : i < G.n) (lowR : r < 4) : ArcKind G (4 * (G.m + i) + r)
  | second (i r : ℕ) (low : i < G.n) (lowR : r < 4) : ArcKind G (4 * (G.m + G.n + i) + r)
  | ret2 (r : ℕ) (lowR : r < 4) : ArcKind G (ret2 G + r)
  | art (r : ℕ) (lowR : r < 4) : ArcKind G (art1 G + r)
  | ret1 (r : ℕ) (lowR : r < 4) : ArcKind G (ret1 G + r)

theorem arcKind (low : a < 2 * m G) : ArcKind G a := by
  obtain ⟨-, -, -, -, eq2, eqA, -, eq1⟩ := sizes (G := G)
  rw [m] at low
  by_cases edge : a < 4 * G.m
  · rcases Nat.mod_two_eq_zero_or_one a with even | odd
    · rw [show a = 2 * (a / 2) by omega]
      exact .outer _ (by omega)
    by_cases last : a % 4 = 3
    · have index : a = (2 * (2 * (a / 4))) ^^^ 3 := by
        rw [xor_three, if_pos (by omega)]
        omega
      rw [index]
      exact .inner _ (by omega)
    · have index : a = (2 * (2 * (a / 4) + 1)) ^^^ 3 := by
        rw [xor_three, if_neg (by omega)]
        omega
      rw [index]
      exact .inner _ (by omega)
  · by_cases firsts : a < 4 * (G.m + G.n)
    · rw [show a = 4 * (G.m + (a / 4 - G.m)) + a % 4 by omega]
      exact .first _ _ (by omega) (by omega)
    by_cases seconds : a < 4 * (G.m + 2 * G.n)
    · rw [show a = 4 * (G.m + G.n + (a / 4 - G.m - G.n)) + a % 4 by omega]
      exact .second _ _ (by omega) (by omega)
    by_cases two : a < art1 G
    · rw [show a = GraphToBalanced.ret2 G + (a - GraphToBalanced.ret2 G) by omega]
      exact .ret2 _ (by omega)
    · by_cases one : a < GraphToBalanced.ret1 G
      · rw [show a = art1 G + (a - art1 G) by omega]
        exact .art _ (by omega)
      · rw [show a = GraphToBalanced.ret1 G + (a - GraphToBalanced.ret1 G) by omega]
        exact .ret1 _ (by omega)

theorem ArcKind.low (kind : ArcKind G a) : a < 2 * m G := by
  obtain ⟨-, -, -, -, eq2, eqA, -, eq1⟩ := sizes (G := G)
  rw [m]
  cases kind with
  | inner b low =>
    rw [xor_three]
    split_ifs <;> omega
  | _ => omega

end Arcs

/-! ## The incidence lists -/

section Lists

variable {G} {B}

theorem sides_eq {s t : ℕ} (lowR : r < 4) (apart : s ≠ v) (apart' : t ≠ v) :
    sides s t x r = v ↔ (r = 1 ∧ v = 2 * x) ∨ (r = 2 ∧ v = 2 * x + 1) := by
  rw [sides]
  split_ifs <;> omega

/-- The arcs of a node in one of the copies, kind by kind. -/
theorem members_copy {g : ℕ → ℕ} {h : ℕ} (lowH : h < 2)
    (isG : ∀ b, g b = if h = 0 then 2 * b else (2 * b) ^^^ 3) (low : v < G.n)
    (members : ∀ b, b ∈ l ↔ b < 2 * G.m ∧ G.startNode b = some v) (a : ℕ) :
    a ∈ (4 * (G.m + v) + (1 + h)) :: (4 * (G.m + G.n + v) + (1 + h)) :: l.map g ↔
      a < 2 * m G ∧ startNode G a = some (2 * v + h) := by
  obtain ⟨eqt2, eqs2, eqt1, eqs1, eq2, eqA, -, eq1⟩ := sizes (G := G)
  have side : ∀ s t, sides s t v (1 + h) = 2 * v + h := by
    intro s t
    rw [sides]
    split_ifs <;> omega
  simp only [List.mem_cons, List.mem_map]
  constructor
  · rintro (rfl | rfl | ⟨b, mem, rfl⟩)
    · exact ⟨(ArcKind.first v _ low (by omega)).low, by rw [startNode_first low (by omega), side]⟩
    · exact ⟨(ArcKind.second v _ low (by omega)).low, by rw [startNode_second low (by omega), side]⟩
    · obtain ⟨lowB, start⟩ := (members b).mp mem
      rw [isG]
      split_ifs with zero
      · exact ⟨(ArcKind.outer b lowB).low, by rw [startNode_outer lowB, start, zero]; rfl⟩
      · obtain rfl : h = 1 := by omega
        exact ⟨(ArcKind.inner b lowB).low, by rw [startNode_inner lowB, start]; rfl⟩
  · rintro ⟨lowA, start⟩
    cases arcKind lowA with
    | outer b lowB =>
      rw [startNode_outer lowB, Option.map_eq_some_iff] at start
      obtain ⟨w, start, eq⟩ := start
      obtain rfl : w = v := by omega
      exact .inr (.inr ⟨b, (members b).mpr ⟨lowB, start⟩, (isG b).trans (if_pos (by omega))⟩)
    | inner b lowB =>
      rw [startNode_inner lowB, Option.map_eq_some_iff] at start
      obtain ⟨w, start, eq⟩ := start
      obtain rfl : w = v := by omega
      exact .inr (.inr ⟨b, (members b).mpr ⟨lowB, start⟩, (isG b).trans (if_neg (by omega))⟩)
    | first i r lowI lowR =>
      rw [startNode_first lowI lowR, some_inj, sides_eq lowR (by omega) (by omega)] at start
      omega
    | second i r lowI lowR =>
      rw [startNode_second lowI lowR, some_inj, sides_eq lowR (by omega) (by omega)] at start
      omega
    | ret2 r lowR =>
      rw [startNode_ret2 lowR, some_inj] at start
      split_ifs at start <;> omega
    | art r lowR =>
      rw [startNode_art lowR, some_inj] at start
      split_ifs at start <;> omega
    | ret1 r lowR =>
      rw [startNode_ret1 lowR, some_inj] at start
      split_ifs at start <;> omega

theorem lists_outer (consistent : G.Consistent) (low : v < G.n) :
    (network G B).ListsAt (2 * v) := by
  obtain ⟨l, nodup, members, firstG, links⟩ := (consistent.lists v low).exists_list
  have limit := consistent.limit
  have atX : startNode G (4 * (G.m + v) + 1) = some (2 * v) := startNode_first low (by decide)
  have atY : startNode G (4 * (G.m + G.n + v) + 1) = some (2 * v) :=
    startNode_second low (by decide)
  have node : 2 * v / 2 < G.n ∧ 2 * v % 2 = 0 := by omega
  have half : 2 * v / 2 = v := by omega
  refine Accessors.listsAt_spliced (x := 4 * (G.m + v) + 1) (y := 4 * (G.m + G.n + v) + 1)
    (g := fun b => 2 * b) ?_ mem_cons_self ?_ ?_ links ?_ ?_
    (members_copy zero_lt_two (fun _ => rfl) low members)
  · change first G (2 * v) = _
    rw [first, half, if_pos low, if_neg (by omega)]
  · change right G _ _ = _
    rw [right, if_neg (not_not.mpr atX), if_pos node, half, rightOuter, if_pos rfl]
  · change right G _ _ = _
    rw [right, if_neg (not_not.mpr atY), if_pos node, half, rightOuter, if_neg (by omega), firstG]
    cases l with
    | nil =>
      simp only [headD_nil, bind_some, if_true, map_nil]
    | cons f l =>
      have lowF := ((members f).mp mem_cons_self).1
      simp only [headD_cons, bind_some, if_true, map_cons]
      rw [if_neg (by omega)]
  · rw [nodup_cons, nodup_cons]
    have inj : Function.Injective fun b => 2 * b := by
      intro b c eq
      simp only at eq
      omega
    refine ⟨?_, ?_, nodup.map inj⟩
    · rw [List.mem_cons, List.mem_map]
      rintro (eq | ⟨b, -, eq⟩) <;> omega
    · rw [List.mem_map]
      rintro ⟨b, -, eq⟩
      omega
  · intro b mem c next
    obtain ⟨lowB, start⟩ := (members b).mp mem
    have here : startNode G (2 * b) = some (2 * v) := by
      rw [startNode_outer lowB, start]
      rfl
    change right G _ _ = _
    rw [right, if_neg (not_not.mpr here), if_pos node, half, rightOuter, if_neg (by omega), firstG]
    obtain ⟨f, l, rfl⟩ := exists_cons_of_ne_nil (ne_nil_of_mem mem)
    simp only [headD_cons, bind_some, head?_cons, some_inj]
    rw [if_neg (by omega), show 2 * b / 2 = b by omega, next, bind_some]
    by_cases last : c = f
    · rw [if_pos (by omega), if_pos last]
    · rw [if_neg (by omega), if_neg last]

theorem xor_three_injective : Function.Injective fun b : ℕ => (2 * b) ^^^ 3 := by
  intro b c eq
  have both := congrArg (· ^^^ 3) eq
  simp only [Nat.xor_xor_cancel_right] at both
  omega

theorem xor_three_lt {k : ℕ} (low : b < 2 * k) : (2 * b) ^^^ 3 < 4 * k := by
  rw [xor_three]
  split_ifs <;> omega

theorem lists_inner (consistent : G.Consistent) (low : v < G.n) :
    (network G B).ListsAt (2 * v + 1) := by
  obtain ⟨l, nodup, members, firstG, links⟩ := (consistent.lists v low).exists_list
  have limit := consistent.limit
  have atX : startNode G (4 * (G.m + v) + 2) = some (2 * v + 1) :=
    startNode_first low (by decide)
  have atY : startNode G (4 * (G.m + G.n + v) + 2) = some (2 * v + 1) :=
    startNode_second low (by decide)
  have node : (2 * v + 1) / 2 < G.n ∧ (2 * v + 1) % 2 = 1 := by omega
  have other : ¬ ((2 * v + 1) / 2 < G.n ∧ (2 * v + 1) % 2 = 0) := by omega
  have half : (2 * v + 1) / 2 = v := by omega
  have small : ∀ b ∈ l, (2 * b) ^^^ 3 < 4 * G.m := fun b mem =>
    xor_three_lt ((members b).mp mem).1
  refine Accessors.listsAt_spliced (x := 4 * (G.m + v) + 2) (y := 4 * (G.m + G.n + v) + 2)
    (g := fun b => (2 * b) ^^^ 3) ?_ mem_cons_self ?_ ?_ links ?_ ?_
    (members_copy one_lt_two (fun _ => rfl) low members)
  · change first G (2 * v + 1) = _
    rw [first, half, if_pos low, if_pos (by omega)]
  · change right G _ _ = _
    rw [right, if_neg (not_not.mpr atX), if_neg other, if_pos node, half, rightInner, if_pos rfl]
  · change right G _ _ = _
    rw [right, if_neg (not_not.mpr atY), if_neg other, if_pos node, half, rightInner,
      if_neg (by omega), firstG]
    cases l with
    | nil =>
      simp only [headD_nil, bind_some, if_true, map_nil]
      rw [if_pos (by decide)]
    | cons f l =>
      have lowF := small f mem_cons_self
      simp only [headD_cons, bind_some, if_true, map_cons]
      rw [if_neg (by omega)]
  · rw [nodup_cons, nodup_cons]
    refine ⟨?_, ?_, nodup.map xor_three_injective⟩
    · rw [List.mem_cons, List.mem_map]
      rintro (eq | ⟨b, mem, eq⟩)
      · omega
      · have := small b mem
        omega
    · rw [List.mem_map]
      rintro ⟨b, mem, eq⟩
      have := small b mem
      omega
  · intro b mem c next
    obtain ⟨lowB, start⟩ := (members b).mp mem
    have lowA := small b mem
    have here : startNode G ((2 * b) ^^^ 3) = some (2 * v + 1) := by
      rw [startNode_inner lowB, start]
      rfl
    change right G _ _ = _
    rw [right, if_neg (not_not.mpr here), if_neg other, if_pos node, half, rightInner,
      if_neg (by omega), firstG]
    obtain ⟨f, l, rfl⟩ := exists_cons_of_ne_nil (ne_nil_of_mem mem)
    simp only [headD_cons, bind_some, head?_cons, some_inj]
    rw [if_neg (by omega), Nat.xor_xor_cancel_right, show 2 * b / 2 = b by omega, next,
      bind_some]
    by_cases last : c = f
    · rw [if_pos (by rw [last]), if_pos last]
    · rw [if_neg (fun eq => last (xor_three_injective eq)), if_neg last]

theorem members_terminal (consistent : G.Consistent) (high : 2 * G.n ≤ u) {P : ℕ → Prop}
    (edges : ∀ a, P a → 4 * G.m ≤ a) (low : ∀ a, P a → a < 2 * m G)
    (first : ∀ i r, i < G.n → r < 4 →
      (P (4 * (G.m + i) + r) ↔ sides (s1 G) (t1 G) i r = u)) (second : ∀ i r, i < G.n → r < 4 →
      (P (4 * (G.m + G.n + i) + r) ↔ sides (s2 G) (t2 G) i r = u))
    (atRet2 : ∀ r, r < 4 → (P (ret2 G + r) ↔ (if r % 2 = 0 then t2 G else s2 G) = u))
    (atArt : ∀ r, r < 4 → (P (art1 G + r) ↔
      (if r = 0 then s1 G else if r = 1 then t2 G else if r = 2 then s2 G else t1 G) = u))
    (atRet1 : ∀ r, r < 4 → (P (ret1 G + r) ↔ (if r % 2 = 0 then t1 G else s1 G) = u))
    (a : ℕ) : P a ↔ a < 2 * m G ∧ startNode G a = some u := by
  refine iff_below (low a) fun lowA => ?_
  cases arcKind lowA with
  | outer b lowB =>
    obtain ⟨w, lowW, start⟩ := consistent.start b lowB
    rw [startNode_outer lowB, start, map_some, some_inj]
    constructor
    · intro holds
      have := edges _ holds
      omega
    · omega
  | inner b lowB =>
    obtain ⟨w, lowW, start⟩ := consistent.start b lowB
    rw [startNode_inner lowB, start, map_some, some_inj]
    constructor
    · intro holds
      have := edges _ holds
      have := xor_three_lt lowB
      omega
    · omega
  | first i r lowI lowR =>
    rw [startNode_first lowI lowR, some_inj]
    exact first i r lowI lowR
  | second i r lowI lowR =>
    rw [startNode_second lowI lowR, some_inj]
    exact second i r lowI lowR
  | ret2 r lowR =>
    rw [startNode_ret2 lowR, some_inj]
    exact atRet2 r lowR
  | art r lowR =>
    rw [startNode_art lowR, some_inj]
    exact atArt r lowR
  | ret1 r lowR =>
    rw [startNode_ret1 lowR, some_inj]
    exact atRet1 r lowR

theorem lists_terminal {y z f : ℕ} (base r : ℕ) (pos : 0 < G.n) (lowR : r < 4)
    (ne : y ≠ z ∧ y ≠ x ∧ z ≠ x)
    (beyond : 4 * (base + G.n) ≤ y ∧ 4 * (base + G.n) ≤ z ∧ 4 * (base + G.n) ≤ x)
    (members : ∀ a, (a = y ∨ a = z ∨ a = x) ∨ (4 * base ≤ a ∧ a < 4 * (base + G.n) ∧ a % 4 = r) ↔
      a < 2 * m G ∧ startNode G a = some u) (isFirst : first G u = some f)
    (inside : f = y ∨ f = z ∨ f = x) (val : ∀ a, startNode G a = some u → right G a u =
      if a = y then some z else if a = z then some x else if a = x then some (4 * base + r)
      else if a + 4 = 4 * (base + G.n) + r then some y else some (a + 4)) :
    (network G B).ListsAt u := by
  have members' : ∀ a, a ∈ [y, z, x] ++ (List.range G.n).map (fun i => 4 * (base + i) + r) ↔
      a < 2 * m G ∧ startNode G a = some u := by
    intro a
    rw [mem_group lowR, ← members a]
    simp only [List.mem_cons, not_mem_nil, or_false]
  have val' := fun a mem => val a ((members' a).mp mem).2
  obtain ⟨yz, yx, zx⟩ := ne
  refine Accessors.listsAt_group (f := f) _ _ _ lowR ?_ ?_ (by simp [yz, yx, zx]) (by simpa) isFirst
    (by simpa using inside) members'
  · rw [if_neg pos.ne']
    refine ⟨?_, ?_, ?_, trivial⟩
    · exact (val' y (by simp)).trans (if_pos rfl)
    · refine (val' z (by simp)).trans ?_
      rw [if_neg (Ne.symm yz), if_pos rfl]
      rfl
    · refine (val' x (by simp)).trans ?_
      rw [if_neg (Ne.symm yx), if_neg (Ne.symm zx), if_pos rfl]
      rfl
  · intro i low
    refine (val' _ ((mem_group lowR).mpr (.inr (by omega)))).trans ?_
    rw [if_neg (by omega), if_neg (by omega), if_neg (by omega)]
    by_cases last : i + 1 = G.n
    · rw [if_pos last, if_pos (by omega)]
      rfl
    · rw [if_neg last, if_neg (by omega)]

theorem lists_terminals (consistent : G.Consistent) (pos : 0 < G.n)
    (isTerminal : u = t2 G ∨ u = s2 G ∨ u = t1 G ∨ u = s1 G) : (network G B).ListsAt u := by
  obtain ⟨eqt2, eqs2, eqt1, eqs1, eq2, eqA, eqA2, eq1⟩ := sizes (G := G)
  have eqM : m G = 2 * (G.m + 2 * G.n + 3) := rfl
  have ret1_xor : ∀ k, k < 4 → ret1 G ^^^ k = ret1 G + k := by
    intro k low
    rw [eq1, xor_zero_low low]
  have ret2_xor : ∀ k, k < 4 → ret2 G ^^^ k = ret2 G + k := by
    intro k low
    rw [eq2, xor_zero_low low]
  have art1_xor : art1 G ^^^ 1 = art1 G + 1 := by rw [eqA, xor_zero_low (by decide)]
  have art2_xor : art2 G ^^^ 1 = art1 G + 3 := by
    rw [eqA2, xor_low (by decide) (by decide), eqA]
    rfl
  have out : 2 * G.n ≤ u → ¬ (u / 2 < G.n ∧ u % 2 = 0) ∧ ¬ (u / 2 < G.n ∧ u % 2 = 1) ∧
      ¬ u / 2 < G.n := by omega
  obtain ⟨away, away', away''⟩ := out (by omega)
  rcases isTerminal with rfl | rfl | rfl | rfl
  · apply lists_terminal (y := ret2 G) (z := ret2 G + 2) (x := art1 G + 1) (f := ret2 G)
      (G.m + G.n) 3 pos (by decide) (by omega) (by omega)
    · refine members_terminal consistent (by omega) (by omega) (by omega) ?_ ?_ ?_ ?_ ?_
      all_goals
        intros
        try unfold sides
        split_ifs <;> omega
    · rw [first, if_neg away'', if_pos rfl]
    · simp
    · intro a start
      rw [right, if_neg (not_not.mpr start), if_neg away, if_neg away', if_pos rfl,
        ret2_xor 2 (by decide), art1_xor]
      exact if_congr .rfl rfl (if_congr .rfl rfl (if_congr .rfl rfl (if_congr (by omega) rfl rfl)))
  · apply lists_terminal (y := ret2 G + 1) (z := ret2 G + 3) (x := art2 G) (f := art2 G)
      (G.m + G.n) 0 pos (by decide) (by omega) (by omega)
    · refine members_terminal consistent (by omega) (by omega) (by omega) ?_ ?_ ?_ ?_ ?_
      all_goals
        intros
        try unfold sides
        split_ifs <;> omega
    · rw [first, if_neg away'', if_neg (by omega), if_pos rfl]
    · simp
    · intro a start
      rw [right, if_neg (not_not.mpr start), if_neg away, if_neg away', if_neg (by omega),
        if_pos rfl, ret2_xor 1 (by decide), ret2_xor 3 (by decide)]
      exact if_congr .rfl rfl (if_congr .rfl rfl (if_congr .rfl rfl (if_congr (by omega) rfl rfl)))
  · apply lists_terminal (y := ret1 G) (z := ret1 G + 2) (x := art1 G + 3) (f := ret1 G)
      (G.m) 3 pos (by decide) (by omega) (by omega)
    · refine members_terminal consistent (by omega) (by omega) (by omega) ?_ ?_ ?_ ?_ ?_
      all_goals
        intros
        try unfold sides
        split_ifs <;> omega
    · rw [first, if_neg away'', if_neg (by omega), if_neg (by omega), if_pos rfl]
    · simp
    · intro a start
      rw [right, if_neg (not_not.mpr start), if_neg away, if_neg away', if_neg (by omega),
        if_neg (by omega), if_pos rfl, ret1_xor 2 (by decide), art2_xor]
      exact if_congr .rfl rfl (if_congr .rfl rfl (if_congr .rfl rfl (if_congr (by omega) rfl rfl)))
  · apply lists_terminal (y := ret1 G + 1) (z := ret1 G + 3) (x := art1 G) (f := art1 G)
      (G.m) 0 pos (by decide) (by omega) (by omega)
    · refine members_terminal consistent (by omega) (by omega) (by omega) ?_ ?_ ?_ ?_ ?_
      all_goals
        intros
        try unfold sides
        split_ifs <;> omega
    · rw [first, if_neg away'', if_neg (by omega), if_neg (by omega), if_neg (by omega), if_pos rfl]
    · simp
    · intro a start
      rw [right, if_neg (not_not.mpr start), if_neg away, if_neg away', if_neg (by omega),
        if_neg (by omega), if_neg (by omega), if_pos rfl, ret1_xor 1 (by decide),
        ret1_xor 3 (by decide)]
      exact if_congr .rfl rfl (if_congr .rfl rfl (if_congr .rfl rfl (if_congr (by omega) rfl rfl)))

theorem lists (consistent : G.Consistent) (pos : 0 < G.n) (low : v < n G) :
    (network G B).ListsAt v := by
  obtain ⟨eqt2, eqs2, eqt1, eqs1, -, -, -, -⟩ := sizes (G := G)
  rw [n] at low
  by_cases split : v < 2 * G.n
  · rcases Nat.mod_two_eq_zero_or_one v with even | odd
    · rw [show v = 2 * (v / 2) by omega]
      exact lists_outer consistent (by omega)
    · rw [show v = 2 * (v / 2) + 1 by omega]
      exact lists_inner consistent (by omega)
  · exact lists_terminals consistent pos (by omega)

/-! ## Complementary arcs -/

theorem double_xor_two (b : ℕ) : (2 * b) ^^^ 2 = 2 * (b ^^^ 1) := by
  have reverse := rev_eq b
  rw [rev] at reverse
  rw [reverse]
  rcases Nat.mod_two_eq_zero_or_one b with even | odd
  · rw [if_pos even, show 2 * b = 4 * (b / 2) by omega, xor_zero_low (by decide)]
    omega
  · rw [if_neg (by omega), show 2 * b = 4 * (b / 2) + 2 by omega, xor_low (by decide) (by decide)]
    simp only [Nat.xor_self]
    omega

theorem double_xor_one (b : ℕ) : (2 * b) ^^^ 1 = (2 * (b ^^^ 1)) ^^^ 3 := by
  rw [← double_xor_two, Nat.xor_assoc, show 2 ^^^ 3 = 1 from rfl]

theorem odd_xor_one (v : ℕ) : (2 * v + 1) ^^^ 1 = 2 * v ∧ (2 * v) ^^^ 1 = 2 * v + 1 := by
  have up := rev_eq (2 * v)
  have down := rev_eq (2 * v + 1)
  rw [rev] at up down
  split_ifs at up down <;> omega

theorem startNode_complement (low : a < 2 * m G) :
    startNode G (a ^^^ 2) = (startNode G (a ^^^ 1)).map (· ^^^ 1) := by
  obtain ⟨eqt2, eqs2, eqt1, eqs1, eq2, eqA, eqA2, eq1⟩ := sizes (G := G)
  have s1_xor : s1 G ^^^ 1 = t1 G := by
    rw [eqs1, eqt1, show 2 * G.n + 3 = 2 * (G.n + 1) + 1 by omega, (odd_xor_one _).1]
    omega
  have t1_xor : t1 G ^^^ 1 = s1 G := by rw [← s1_xor, Nat.xor_xor_cancel_right]
  have s2_xor : s2 G ^^^ 1 = t2 G := by rw [eqs2, eqt2, (odd_xor_one _).1]
  have t2_xor : t2 G ^^^ 1 = s2 G := by rw [← s2_xor, Nat.xor_xor_cancel_right]
  cases arcKind low with
  | outer b lowB =>
    have lowB' : b ^^^ 1 < 2 * G.m := rev_lt.mpr lowB
    rw [double_xor_two, double_xor_one, startNode_outer lowB', startNode_inner lowB',
      Option.map_map]
    congr 1
    funext v
    exact (odd_xor_one v).1.symm
  | inner b lowB =>
    have lowB' : b ^^^ 1 < 2 * G.m := rev_lt.mpr lowB
    have other : ((2 * b) ^^^ 3) ^^^ 2 = (2 * (b ^^^ 1)) ^^^ 3 := by
      rw [← double_xor_one, Nat.xor_assoc, show 3 ^^^ 2 = 1 from rfl]
    have reverse : ((2 * b) ^^^ 3) ^^^ 1 = 2 * (b ^^^ 1) := by
      rw [← double_xor_two, Nat.xor_assoc, show 3 ^^^ 1 = 2 from rfl]
    rw [other, reverse, startNode_inner lowB', startNode_outer lowB', Option.map_map]
    congr 1
    funext v
    exact (odd_xor_one v).2.symm
  | first i r lowI lowR =>
    rw [xor_low lowR (by decide), xor_low lowR (by decide),
      startNode_first lowI (Nat.xor_lt_two_pow (n := 2) lowR (by decide)),
      startNode_first lowI (Nat.xor_lt_two_pow (n := 2) lowR (by decide)), map_some]
    interval_cases r <;> simp [sides, odd_xor_one, s1_xor, t1_xor]
  | second i r lowI lowR =>
    rw [xor_low lowR (by decide), xor_low lowR (by decide),
      startNode_second lowI (Nat.xor_lt_two_pow (n := 2) lowR (by decide)),
      startNode_second lowI (Nat.xor_lt_two_pow (n := 2) lowR (by decide)), map_some]
    interval_cases r <;> simp [sides, odd_xor_one, s2_xor, t2_xor]
  | ret2 r lowR =>
    rw [eq2, xor_low lowR (by decide), xor_low lowR (by decide), ← eq2,
      startNode_ret2 (Nat.xor_lt_two_pow (n := 2) lowR (by decide)),
      startNode_ret2 (Nat.xor_lt_two_pow (n := 2) lowR (by decide)), map_some]
    interval_cases r <;> simp [s2_xor, t2_xor]
  | art r lowR =>
    rw [eqA, xor_low lowR (by decide), xor_low lowR (by decide), ← eqA,
      startNode_art (Nat.xor_lt_two_pow (n := 2) lowR (by decide)),
      startNode_art (Nat.xor_lt_two_pow (n := 2) lowR (by decide)), map_some]
    interval_cases r <;> simp [s1_xor, t1_xor, s2_xor, t2_xor]
  | ret1 r lowR =>
    rw [eq1, xor_low lowR (by decide), xor_low lowR (by decide), ← eq1,
      startNode_ret1 (Nat.xor_lt_two_pow (n := 2) lowR (by decide)),
      startNode_ret1 (Nat.xor_lt_two_pow (n := 2) lowR (by decide)), map_some]
    interval_cases r <;> simp [s1_xor, t1_xor]

/-- The complement exchanges the two arcs of a pair, and the outer and the inner nodes. -/
theorem complementary (symmetric : G.Symmetric) : (network G B).Complementary := by
  have quarter := xor_two_div_four
  have half : ∀ a, (a ^^^ 2) / 2 = (a / 2) ^^^ 1 := fun a => Nat.xor_div_two
  constructor
  · intro a low
    have reverse : (network G B).endNode a = startNode G (a ^^^ 1) := if_pos low
    rw [reverse]
    exact startNode_complement low
  · intro a _
    change ucap G B (a ^^^ 2) = ucap G B a
    by_cases edge : a / 4 < G.m
    · have lowA : a / 2 < 2 * G.m := by omega
      rw [ucap, ucap, quarter, if_pos edge, if_pos edge, half, symmetric.length _ lowA,
        symmetric.ucap _ lowA, symmetric.lcap _ lowA]
    · rw [ucap, ucap, quarter, if_neg edge, if_neg edge]
  · intro a _
    change length G B (a ^^^ 2) = length G B a
    have eq := quarter a
    by_cases edge : a < 4 * G.m
    · have lowA : a / 2 < 2 * G.m := by omega
      rw [length, length, if_pos (by omega), if_pos edge, half, symmetric.length _ lowA]
    · rw [length, length, if_neg (by omega), if_neg edge]

end Lists

end GraphToBalanced

end Goblin
