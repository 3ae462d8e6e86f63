import Goblin.Accessors

/-!
# The flow network of a bipartite matching problem

The edges of a bigraph are directed from the one partition to the other one. There are two
sources and two sinks. Two artificial arcs are incident with every original node. The first one
carries the lower degree bound, and the second one what is admitted beyond it.
-/

set_option autoImplicit false

namespace Goblin

open Library List Option

variable {a i r x v u : ℕ}

/-- A bigraph. The nodes of the one partition precede the nodes of the other one. -/
structure BigraphAccessors extends Accessors where
  n1 : ℕ
  n2 : ℕ
  parts : n = n1 + n2

namespace BigraphToDigraph

variable (G : BigraphAccessors)

/-! ## The network -/

/-- The number of nodes. -/
def n : ℕ := G.n + 4

/-- The number of arcs. -/
def m : ℕ := G.m + 2 * G.n + 4

def t2 : ℕ := n G - 4
def s2 : ℕ := n G - 3
def t1 : ℕ := n G - 2
def s1 : ℕ := n G - 1
def ret1 : ℕ := 2 * m G - 2
def art1 : ℕ := 2 * m G - 4
def ret2 : ℕ := 2 * m G - 6
def art2 : ℕ := 2 * m G - 8

def startNode (a : ℕ) : Option ℕ :=
  let d2 := a / 2
  let r2 := a % 2
  if d2 < G.m then G.startNode a
  else if d2 < G.m + G.n1 then
    if r2 = 1 then some (d2 - G.m) else some (s1 G)
  else if d2 < G.m + G.n then
    if r2 = 1 then some (t1 G) else some (d2 - G.m)
  else if d2 < G.m + G.n + G.n1 then
    if r2 = 1 then some (d2 - G.m - G.n) else some (s2 G)
  else if d2 < G.m + 2 * G.n then
    if r2 = 1 then some (t2 G) else some (d2 - G.m - G.n)
  else if d2 = ret1 G / 2 then
    if r2 = 1 then some (s1 G) else some (t1 G)
  else if d2 = art1 G / 2 then
    if r2 = 1 then some (t2 G) else some (s1 G)
  else if d2 = art2 G / 2 then
    if r2 = 1 then some (t1 G) else some (s2 G)
  else if d2 = ret2 G / 2 then
    if r2 = 1 then some (s2 G) else some (t2 G)
  else none

def first (v : ℕ) : Option ℕ :=
  if v < G.n1 then some (2 * (G.m + v) + 1)
  else if v < G.n then some (2 * (G.m + v))
  else if v = t2 G then some (ret2 G)
  else if v = s2 G then some (art2 G)
  else if v = t1 G then some (ret1 G)
  else if v = s1 G then some (art1 G)
  else none

def right (a u : ℕ) : Option ℕ :=
  if startNode G a ≠ some u then none
  else if u < G.n1 then
    if a = 2 * (G.m + u) + 1 then some (2 * (G.m + G.n + u) + 1)
    else
      (G.first u).bind fun af =>
        if a = 2 * (G.m + G.n + u) + 1 then
          if af = noArc then some (2 * (G.m + u) + 1) else some af
        else
          (G.right a u).bind fun ar => if ar = af then some (2 * (G.m + u) + 1) else some ar
  else if u < G.n then
    if a = 2 * (G.m + u) then some (2 * (G.m + G.n + u))
    else
      (G.first u).bind fun af =>
        if a = 2 * (G.m + G.n + u) then
          if af = noArc then some (2 * (G.m + u)) else some af
        else
          (G.right a u).bind fun ar => if ar = af then some (2 * (G.m + u)) else some ar
  else if u = s1 G then
    if a = ret1 G ^^^ 1 then some (art1 G)
    else if a = art1 G then some (2 * G.m)
    else if a = 2 * (G.m + G.n1) - 2 then some (ret1 G ^^^ 1)
    else some (a + 2)
  else if u = t1 G then
    if a = ret1 G then some (art2 G ^^^ 1)
    else if a = art2 G ^^^ 1 then some (2 * (G.m + G.n1) + 1)
    else if a = 2 * (G.m + G.n) - 1 then some (ret1 G)
    else some (a + 2)
  else if u = s2 G then
    if a = ret2 G ^^^ 1 then some (art2 G)
    else if a = art2 G then some (2 * (G.m + G.n))
    else if a = 2 * (G.m + G.n + G.n1) - 2 then some (ret2 G ^^^ 1)
    else some (a + 2)
  else if u = t2 G then
    if a = ret2 G then some (art1 G ^^^ 1)
    else if a = art1 G ^^^ 1 then some (2 * (G.m + G.n + G.n1) + 1)
    else if a = 2 * (G.m + 2 * G.n) - 1 then some (ret2 G)
    else some (a + 2)
  else none

/-! ## Degree bounds and lengths -/

/-- What `Init` computes from the bounds. -/
structure Bounds where
  ccap : ℚ
  cap : Option (ℕ → ℚ)
  lower : Option (ℕ → ℚ)
  sumLower1 : ℚ
  sumLower2 : ℚ
  sumUpper : ℚ
  minLength : ℚ

/-- The loop that determines `minLength`. It is guarded by the presence of `cap`. -/
def initLength (cap : Option (ℕ → ℚ)) : ℚ :=
  (List.range G.m).foldl (fun minLength a =>
    if cap.isSome then
      if G.length (2 * a) < minLength then G.length (2 * a) else minLength
    else minLength) 0

/-- `Init`, as far as the bounds are concerned. With an upper bound there is a lower one. -/
def init (pLower pCap : Option (ℕ → ℚ)) (ccap : ℚ) : Bounds :=
  let sum (f : ℕ → ℚ) (from_ count : ℕ) : ℚ :=
    (range' from_ count).foldl (fun sum v => sum + f v) 0
  let sumLower1 := match pLower with
    | none => G.n1 * ccap
    | some lower => sum lower 0 G.n1
  let sumLower2 := match pLower with
    | none => G.n2 * ccap
    | some lower => sum lower G.n1 G.n2
  match pLower, pCap with
  | some lower, some cap =>
    ⟨ccap, some fun v => cap v - lower v, pLower, sumLower1, sumLower2, sum cap 0 G.n,
      initLength G pCap⟩
  | _, _ => ⟨ccap, pCap, pLower, sumLower1, sumLower2, sumLower1 + sumLower2, initLength G pCap⟩

variable (B : Bounds)

def ucap (a : ℕ) : ℚ :=
  let d2 := a / 2
  if d2 < G.m then G.ucap a
  else if d2 < G.m + G.n then
    match B.lower with
    | none => B.ccap
    | some lower => lower (d2 - G.m)
  else if d2 < G.m + 2 * G.n then
    match B.cap with
    | none => 0
    | some cap => cap (d2 - G.m - G.n)
  else if d2 = ret2 G / 2 then B.sumUpper
  else if d2 = art1 G / 2 then B.sumLower2
  else if d2 = art2 G / 2 then B.sumLower1
  else 0

def length (a : ℕ) : ℚ :=
  if a < 2 * G.m then G.length a - B.minLength else 0

/-- The network as its methods present it. -/
def network : Accessors where
  n := n G
  m := m G
  startNode := startNode G
  first := first G
  right := right G
  ucap := ucap G B
  lcap _ := 0
  length := length G B

/-! ## Arcs by their index -/

section Arcs

variable {G}

/-- The terminals and the artificial arcs in terms of the original sizes. -/
theorem sizes : t2 G = G.n ∧ s2 G = G.n + 1 ∧ t1 G = G.n + 2 ∧ s1 G = G.n + 3 ∧
    art2 G = 2 * (G.m + 2 * G.n) ∧ ret2 G = 2 * (G.m + 2 * G.n + 1) ∧
    art1 G = 2 * (G.m + 2 * G.n + 2) ∧ ret1 G = 2 * (G.m + 2 * G.n + 3) := by
  simp only [t2, s2, t1, s1, ret2, art1, art2, ret1, n, m]
  omega

/-- The artificial arcs of the original nodes: `s` and `t` are the terminals, `x` is the node. -/
def sides (n1 s t x r : ℕ) : ℕ :=
  if x < n1 then (if r = 1 then x else s) else (if r = 1 then t else x)

theorem startNode_edge (low : a < 2 * G.m) : startNode G a = G.startNode a :=
  if_pos (by omega)

theorem startNode_first (low : i < G.n) (lowR : r < 2) :
    startNode G (2 * (G.m + i) + r) = some (sides G.n1 (s1 G) (t1 G) i r) := by
  rw [startNode, show (2 * (G.m + i) + r) / 2 = G.m + i by omega,
    show (2 * (G.m + i) + r) % 2 = r by omega, if_neg (by omega), Nat.add_sub_cancel_left, sides]
  by_cases left : i < G.n1
  · rw [if_pos (by omega), if_pos left]
    exact (apply_ite some _ _ _).symm
  · rw [if_neg (by omega), if_pos (by omega), if_neg left]
    exact (apply_ite some _ _ _).symm

theorem startNode_second (low : i < G.n) (lowR : r < 2) :
    startNode G (2 * (G.m + G.n + i) + r) = some (sides G.n1 (s2 G) (t2 G) i r) := by
  have parts := G.parts
  rw [startNode, show (2 * (G.m + G.n + i) + r) / 2 = G.m + G.n + i by omega,
    show (2 * (G.m + G.n + i) + r) % 2 = r by omega, if_neg (by omega), if_neg (by omega),
    if_neg (by omega), show G.m + G.n + i - G.m - G.n = i by omega, sides]
  by_cases left : i < G.n1
  · rw [if_pos (by omega), if_pos left]
    exact (apply_ite some _ _ _).symm
  · rw [if_neg (by omega), if_pos (by omega), if_neg left]
    exact (apply_ite some _ _ _).symm

/-- Behind the arcs of the original nodes there are the single arcs only. -/
theorem startNode_single {a : ℕ} (even : a % 2 = 0) (high : 2 * (G.m + 2 * G.n) ≤ a)
    (lowR : r < 2) :
    startNode G (a + r) =
      if a / 2 = ret1 G / 2 then if r = 1 then some (s1 G) else some (t1 G)
      else if a / 2 = art1 G / 2 then if r = 1 then some (t2 G) else some (s1 G)
      else if a / 2 = art2 G / 2 then if r = 1 then some (t1 G) else some (s2 G)
      else if a / 2 = ret2 G / 2 then if r = 1 then some (s2 G) else some (t2 G)
      else none := by
  have parts := G.parts
  rw [startNode, show (a + r) / 2 = a / 2 by omega, show (a + r) % 2 = r by omega,
    if_neg (by omega), if_neg (by omega), if_neg (by omega), if_neg (by omega), if_neg (by omega)]

theorem startNode_art2 (lowR : r < 2) :
    startNode G (art2 G + r) = some (if r = 1 then t1 G else s2 G) := by
  obtain ⟨-, -, -, -, eqA2, eq2, eqA1, eq1⟩ := sizes (G := G)
  rw [startNode_single (by omega) (by omega) lowR, if_neg (by omega), if_neg (by omega), if_pos rfl]
  exact (apply_ite some _ _ _).symm

theorem startNode_ret2 (lowR : r < 2) :
    startNode G (ret2 G + r) = some (if r = 1 then s2 G else t2 G) := by
  obtain ⟨-, -, -, -, eqA2, eq2, eqA1, eq1⟩ := sizes (G := G)
  rw [startNode_single (by omega) (by omega) lowR,
    if_neg (by omega), if_neg (by omega), if_neg (by omega), if_pos rfl]
  exact (apply_ite some _ _ _).symm

theorem startNode_art1 (lowR : r < 2) :
    startNode G (art1 G + r) = some (if r = 1 then t2 G else s1 G) := by
  obtain ⟨-, -, -, -, eqA2, eq2, eqA1, eq1⟩ := sizes (G := G)
  rw [startNode_single (by omega) (by omega) lowR, if_neg (by omega), if_pos rfl]
  exact (apply_ite some _ _ _).symm

theorem startNode_ret1 (lowR : r < 2) :
    startNode G (ret1 G + r) = some (if r = 1 then s1 G else t1 G) := by
  obtain ⟨-, -, -, -, eqA2, eq2, eqA1, eq1⟩ := sizes (G := G)
  rw [startNode_single (by omega) (by omega) lowR, if_pos rfl]
  exact (apply_ite some _ _ _).symm

/-- The kinds of arcs. -/
inductive ArcKind (G : BigraphAccessors) : ℕ → Prop
  | edge (b : ℕ) (low : b < 2 * G.m) : ArcKind G b
  | first (i r : ℕ) (low : i < G.n) (lowR : r < 2) : ArcKind G (2 * (G.m + i) + r)
  | second (i r : ℕ) (low : i < G.n) (lowR : r < 2) : ArcKind G (2 * (G.m + G.n + i) + r)
  | art2 (r : ℕ) (lowR : r < 2) : ArcKind G (art2 G + r)
  | ret2 (r : ℕ) (lowR : r < 2) : ArcKind G (ret2 G + r)
  | art1 (r : ℕ) (lowR : r < 2) : ArcKind G (art1 G + r)
  | ret1 (r : ℕ) (lowR : r < 2) : ArcKind G (ret1 G + r)

theorem arcKind (low : a < 2 * m G) : ArcKind G a := by
  obtain ⟨-, -, -, -, eqA2, eq2, eqA1, eq1⟩ := sizes (G := G)
  rw [m] at low
  by_cases edge : a < 2 * G.m
  · exact .edge a edge
  by_cases firsts : a < 2 * (G.m + G.n)
  · rw [show a = 2 * (G.m + (a / 2 - G.m)) + a % 2 by omega]
    exact .first _ _ (by omega) (by omega)
  by_cases seconds : a < 2 * (G.m + 2 * G.n)
  · rw [show a = 2 * (G.m + G.n + (a / 2 - G.m - G.n)) + a % 2 by omega]
    exact .second _ _ (by omega) (by omega)
  have high : a = BigraphToDigraph.art2 G + a % 2 ∨ a = BigraphToDigraph.ret2 G + a % 2 ∨
      a = BigraphToDigraph.art1 G + a % 2 ∨ a = BigraphToDigraph.ret1 G + a % 2 := by omega
  rcases high with eq | eq | eq | eq <;> rw [eq]
  · exact .art2 _ (by omega)
  · exact .ret2 _ (by omega)
  · exact .art1 _ (by omega)
  · exact .ret1 _ (by omega)

end Arcs

/-! ## The incidence lists -/

section Lists

variable {G} {B}

/-- The artificial arcs of an original node leave it with even or with odd index. -/
def side (v : ℕ) : ℕ := if v < G.n1 then 1 else 0

theorem side_lt (v : ℕ) : side (G := G) v < 2 := by
  rw [side]
  split_ifs <;> omega

theorem sides_eq {s t : ℕ} (lowR : r < 2) (apart : s ≠ v) (apart' : t ≠ v) :
    sides G.n1 s t x r = v ↔ x = v ∧ r = side (G := G) v := by
  rw [sides, side]
  split_ifs <;> omega

theorem members_original (low : v < G.n) {l : List ℕ}
    (members : ∀ b, b ∈ l ↔ b < 2 * G.m ∧ G.startNode b = some v) (a : ℕ) :
    a ∈ (2 * (G.m + v) + side (G := G) v) :: (2 * (G.m + G.n + v) + side (G := G) v) ::
        l.map id ↔ a < 2 * m G ∧ startNode G a = some v := by
  obtain ⟨eqt2, eqs2, eqt1, eqs1, eqA2, eq2, eqA1, eq1⟩ := sizes (G := G)
  have lowSide := side_lt (G := G) v
  rw [List.map_id]
  simp only [List.mem_cons]
  constructor
  · rintro (rfl | rfl | mem)
    · refine ⟨by rw [m]; omega, ?_⟩
      rw [startNode_first low lowSide, (sides_eq lowSide (by omega) (by omega)).mpr ⟨rfl, rfl⟩]
    · refine ⟨by rw [m]; omega, ?_⟩
      rw [startNode_second low lowSide, (sides_eq lowSide (by omega) (by omega)).mpr ⟨rfl, rfl⟩]
    · obtain ⟨lowA, start⟩ := (members a).mp mem
      exact ⟨by rw [m]; omega, (startNode_edge lowA).trans start⟩
  · rintro ⟨lowA, start⟩
    cases arcKind lowA with
    | edge _ lowB => exact .inr (.inr ((members a).mpr ⟨lowB, startNode_edge lowB ▸ start⟩))
    | first i r lowI lowR =>
      rw [startNode_first lowI lowR, some_inj, sides_eq lowR (by omega) (by omega)] at start
      omega
    | second i r lowI lowR =>
      rw [startNode_second lowI lowR, some_inj, sides_eq lowR (by omega) (by omega)] at start
      omega
    | art2 r lowR =>
      rw [startNode_art2 lowR, some_inj] at start
      split_ifs at start <;> omega
    | ret2 r lowR =>
      rw [startNode_ret2 lowR, some_inj] at start
      split_ifs at start <;> omega
    | art1 r lowR =>
      rw [startNode_art1 lowR, some_inj] at start
      split_ifs at start <;> omega
    | ret1 r lowR =>
      rw [startNode_ret1 lowR, some_inj] at start
      split_ifs at start <;> omega

theorem right_original (low : v < G.n) (start : startNode G a = some v) :
    right G a v =
      if a = 2 * (G.m + v) + side (G := G) v then
        some (2 * (G.m + G.n + v) + side (G := G) v)
      else
        (G.first v).bind fun af =>
          if a = 2 * (G.m + G.n + v) + side (G := G) v then
            if af = noArc then some (2 * (G.m + v) + side (G := G) v) else some af
          else
            (G.right a v).bind fun ar =>
              if ar = af then some (2 * (G.m + v) + side (G := G) v) else some ar := by
  rw [right, if_neg (not_not.mpr start)]
  by_cases left : v < G.n1
  · rw [if_pos left, side, if_pos left]
  · rw [if_neg left, if_pos low, side, if_neg left]
    rfl

theorem lists_original (consistent : G.Consistent) (low : v < G.n) : (network G B).ListsAt v := by
  obtain ⟨l, nodup, members, firstG, links⟩ := (consistent.lists v low).exists_list
  have limit := consistent.limit
  have arcs := members_original low members
  have lowSide := side_lt (G := G) v
  have lowL : ∀ b ∈ l, b < 2 * G.m := fun b mem => ((members b).mp mem).1
  have step : ∀ a, a ∈ (2 * (G.m + v) + side (G := G) v) ::
      (2 * (G.m + G.n + v) + side (G := G) v) :: l.map id →
      (network G B).right a v = _ := fun a mem => right_original low ((arcs a).mp mem).2
  refine Accessors.listsAt_spliced (x := 2 * (G.m + v) + side (G := G) v)
    (y := 2 * (G.m + G.n + v) + side (G := G) v) (g := id) ?_ mem_cons_self ?_ ?_
    links ?_ ?_ arcs
  · change first G v = _
    rw [first, side]
    by_cases left : v < G.n1
    · rw [if_pos left, if_pos left]
    · rw [if_neg left, if_pos low, if_neg left]
      rfl
  · rw [step _ (by simp), if_pos rfl]
  · rw [step _ (by simp), if_neg (by omega), firstG]
    cases l with
    | nil => simp
    | cons f l =>
      have lowF := lowL f mem_cons_self
      simp only [headD_cons, bind_some, if_true, map_cons, id]
      rw [if_neg (by omega)]
  · rw [List.map_id, List.nodup_cons, List.nodup_cons]
    refine ⟨?_, ?_, nodup⟩
    · rw [List.mem_cons]
      rintro (eq | mem)
      · omega
      · have := lowL _ mem
        omega
    · intro mem
      have := lowL _ mem
      omega
  · intro b mem c next
    have lowB := lowL b mem
    obtain ⟨f, l, rfl⟩ := exists_cons_of_ne_nil (ne_nil_of_mem mem)
    rw [id, step b (by simp at mem ⊢; tauto), if_neg (by omega), firstG, headD_cons,
      bind_some, if_neg (by omega), next, bind_some, head?_cons]
    by_cases last : c = f
    · rw [if_pos last, if_pos (congrArg some last)]
    · rw [if_neg last, if_neg (fun eq => last (some_inj.mp eq)), id]

theorem members_terminal (consistent : G.Consistent) (high : G.n ≤ u) {P : ℕ → Prop}
    (edges : ∀ a, P a → 2 * G.m ≤ a) (low : ∀ a, P a → a < 2 * m G)
    (first : ∀ i r, i < G.n → r < 2 →
      (P (2 * (G.m + i) + r) ↔ sides G.n1 (s1 G) (t1 G) i r = u)) (second : ∀ i r, i < G.n → r < 2 →
      (P (2 * (G.m + G.n + i) + r) ↔ sides G.n1 (s2 G) (t2 G) i r = u))
    (single : ∀ r, r < 2 → (P (art2 G + r) ↔ (if r = 1 then t1 G else s2 G) = u) ∧
      (P (ret2 G + r) ↔ (if r = 1 then s2 G else t2 G) = u) ∧
      (P (art1 G + r) ↔ (if r = 1 then t2 G else s1 G) = u) ∧
      (P (ret1 G + r) ↔ (if r = 1 then s1 G else t1 G) = u))
    (a : ℕ) : P a ↔ a < 2 * m G ∧ startNode G a = some u := by
  refine iff_below (low a) fun lowA => ?_
  cases arcKind lowA with
  | edge _ lowB =>
    obtain ⟨w, lowW, start⟩ := consistent.start a lowB
    rw [startNode_edge lowB, start, some_inj]
    constructor
    · intro holds
      have := edges _ holds
      omega
    · omega
  | first i r lowI lowR =>
    rw [startNode_first lowI lowR, some_inj]
    exact first i r lowI lowR
  | second i r lowI lowR =>
    rw [startNode_second lowI lowR, some_inj]
    exact second i r lowI lowR
  | art2 r lowR =>
    rw [startNode_art2 lowR, some_inj]
    exact (single r lowR).1
  | ret2 r lowR =>
    rw [startNode_ret2 lowR, some_inj]
    exact (single r lowR).2.1
  | art1 r lowR =>
    rw [startNode_art1 lowR, some_inj]
    exact (single r lowR).2.2.1
  | ret1 r lowR =>
    rw [startNode_ret1 lowR, some_inj]
    exact (single r lowR).2.2.2

/-- Two single arcs in front of a group of artificial arcs. -/
theorem lists_terminal {y f : ℕ} (base count r : ℕ) (pos : 0 < count) (lowR : r < 2)
    (ne : y ≠ x) (beyond : 2 * (base + count) ≤ y ∧ 2 * (base + count) ≤ x)
    (members : ∀ a, (a = y ∨ a = x) ∨ (2 * base ≤ a ∧ a < 2 * (base + count) ∧ a % 2 = r) ↔
      a < 2 * m G ∧ startNode G a = some u) (isFirst : first G u = some f) (inside : f = y ∨ f = x)
    (val : ∀ a, startNode G a = some u → right G a u =
      if a = y then some x else if a = x then some (2 * base + r)
      else if a + 2 = 2 * (base + count) + r then some y else some (a + 2)) :
    (network G B).ListsAt u := by
  have members' : ∀ a, a ∈ [y, x] ++ (List.range count).map (fun i => 2 * (base + i) + r) ↔
      a < 2 * m G ∧ startNode G a = some u := by
    intro a
    rw [mem_group lowR, ← members a]
    simp only [List.mem_cons, not_mem_nil, or_false]
  have val' := fun a mem => val a ((members' a).mp mem).2
  refine Accessors.listsAt_group (f := f) _ _ _ lowR ?_ ?_ (by simpa using ne) ?_ isFirst
    (by simpa using inside) members'
  · rw [if_neg pos.ne']
    refine ⟨?_, ?_, trivial⟩
    · exact (val' y (by simp)).trans (if_pos rfl)
    · refine (val' x (by simp)).trans ?_
      rw [if_neg ne.symm, if_pos rfl]
      rfl
  · intro i low
    have inGroup := (mem_group lowR).mpr
      (.inr ⟨by omega, by omega, by omega⟩ :
        2 * (base + i) + r ∈ [y, x] ∨ 2 * base ≤ 2 * (base + i) + r ∧
          2 * (base + i) + r < 2 * (base + count) ∧ (2 * (base + i) + r) % 2 = r)
    refine (val' _ inGroup).trans ?_
    rw [if_neg (by omega), if_neg (by omega)]
    by_cases last : i + 1 = count
    · rw [if_pos last, if_pos (by omega)]
      rfl
    · rw [if_neg last, if_neg (by omega)]
  · intro a mem
    rw [List.mem_cons, mem_singleton] at mem
    omega

theorem lists_terminals (consistent : G.Consistent) (pos1 : 0 < G.n1) (pos2 : 0 < G.n2)
    (isTerminal : u = t2 G ∨ u = s2 G ∨ u = t1 G ∨ u = s1 G) : (network G B).ListsAt u := by
  obtain ⟨eqt2, eqs2, eqt1, eqs1, eqA2, eq2, eqA1, eq1⟩ := sizes (G := G)
  have parts := G.parts
  have eqM : m G = G.m + 2 * G.n + 4 := rfl
  have ret1_xor : ret1 G ^^^ 1 = ret1 G + 1 := xor_one_even (by omega)
  have ret2_xor : ret2 G ^^^ 1 = ret2 G + 1 := xor_one_even (by omega)
  have art1_xor : art1 G ^^^ 1 = art1 G + 1 := xor_one_even (by omega)
  have art2_xor : art2 G ^^^ 1 = art2 G + 1 := xor_one_even (by omega)
  have away : ¬ u < G.n1 ∧ ¬ u < G.n := by omega
  rcases isTerminal with rfl | rfl | rfl | rfl
  · apply lists_terminal (y := ret2 G) (x := art1 G + 1) (f := ret2 G)
      (G.m + G.n + G.n1) G.n2 1 pos2 (by decide) (by omega) (by omega)
    · refine members_terminal consistent (by omega) (by omega) (by omega) ?_ ?_ ?_
      all_goals
        intros
        try unfold sides
        split_ifs <;> omega
    · rw [first, if_neg away.1, if_neg away.2, if_pos rfl]
    · simp
    · intro a start
      rw [right, if_neg (not_not.mpr start), if_neg away.1, if_neg away.2, if_neg (by omega),
        if_neg (by omega), if_neg (by omega), if_pos rfl, art1_xor]
      exact if_congr .rfl rfl (if_congr .rfl rfl (if_congr (by omega) rfl rfl))
  · apply lists_terminal (y := ret2 G + 1) (x := art2 G) (f := art2 G)
      (G.m + G.n) G.n1 0 pos1 (by decide) (by omega) (by omega)
    · refine members_terminal consistent (by omega) (by omega) (by omega) ?_ ?_ ?_
      all_goals
        intros
        try unfold sides
        split_ifs <;> omega
    · rw [first, if_neg away.1, if_neg away.2, if_neg (by omega), if_pos rfl]
    · simp
    · intro a start
      rw [right, if_neg (not_not.mpr start), if_neg away.1, if_neg away.2, if_neg (by omega),
        if_neg (by omega), if_pos rfl, ret2_xor]
      exact if_congr .rfl rfl (if_congr .rfl rfl (if_congr (by omega) rfl rfl))
  · apply lists_terminal (y := ret1 G) (x := art2 G + 1) (f := ret1 G)
      (G.m + G.n1) G.n2 1 pos2 (by decide) (by omega) (by omega)
    · refine members_terminal consistent (by omega) (by omega) (by omega) ?_ ?_ ?_
      all_goals
        intros
        try unfold sides
        split_ifs <;> omega
    · rw [first, if_neg away.1, if_neg away.2, if_neg (by omega), if_neg (by omega), if_pos rfl]
    · simp
    · intro a start
      rw [right, if_neg (not_not.mpr start), if_neg away.1, if_neg away.2, if_neg (by omega),
        if_pos rfl, art2_xor]
      exact if_congr .rfl rfl (if_congr .rfl rfl (if_congr (by omega) rfl rfl))
  · apply lists_terminal (y := ret1 G + 1) (x := art1 G) (f := art1 G)
      G.m G.n1 0 pos1 (by decide) (by omega) (by omega)
    · refine members_terminal consistent (by omega) (by omega) (by omega) ?_ ?_ ?_
      all_goals
        intros
        try unfold sides
        split_ifs <;> omega
    · rw [first, if_neg away.1, if_neg away.2, if_neg (by omega), if_neg (by omega),
        if_neg (by omega), if_pos rfl]
    · simp
    · intro a start
      rw [right, if_neg (not_not.mpr start), if_neg away.1, if_neg away.2, if_pos rfl, ret1_xor]
      exact if_congr .rfl rfl (if_congr .rfl rfl (if_congr (by omega) rfl rfl))

theorem lists (consistent : G.Consistent) (pos1 : 0 < G.n1) (pos2 : 0 < G.n2)
    (low : v < n G) : (network G B).ListsAt v := by
  obtain ⟨eqt2, eqs2, eqt1, eqs1, -, -, -, -⟩ := sizes (G := G)
  rw [n] at low
  by_cases original : v < G.n
  · exact lists_original consistent original
  · exact lists_terminals consistent pos1 pos2 (by omega)

end Lists

end BigraphToDigraph

end Goblin
