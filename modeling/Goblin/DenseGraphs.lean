import Goblin.Accessors
import Mathlib.Analysis.Real.Sqrt

/-!
# Dense graphs

The arcs of a `denseGraph`, a `denseDiGraph` and a `denseBiGraph` are not stored: the end nodes
are decoded from the arc index, and incidence lists are the sequence of the possible neighbours.
`First` and `Right` obtain the arcs from `Adjacency`.

The edge of the nodes `v ≤ u` of a `denseGraph` has the number `u(u+1)/2 + v`, and the larger end
node is recovered by a square root. In all three classes the arc set is complete, and an arc
is cancelled by the capacity zero. `Adjacency` of the first two classes returns cancelled arcs like
all others. `Adjacency` of a `denseBiGraph` returns `NoArc` for them, and so do `First` and `Right`
although the incidence lists run through all arcs (`dense_consistent`).
-/

set_option autoImplicit false

namespace Goblin

open Library

variable {a u v k e j w : ℕ}

/-- What is returned by the methods of a dense graph object. `NoArc` and `NoNode` are `none`. -/
structure DenseClass where
  n : ℕ
  m : ℕ
  startNode : ℕ → Except Raise ℕ
  endNode : ℕ → Except Raise ℕ
  adjacency : ℕ → ℕ → Except Raise (Option ℕ)
  first : ℕ → Except Raise (Option ℕ)
  right : ℕ → Option ℕ → Except Raise (Option ℕ)

/-- The node argument of `Right`, which is the start node by default. -/
def rightNode (startNode : ℕ → Except Raise ℕ) (a : ℕ) (u : Option ℕ) : Except Raise ℕ :=
  match u with
  | none => startNode a
  | some u => .ok u

/-! ## Undirected graphs -/

namespace DenseGraph

variable (n : ℕ)

/-- The number of arcs that is passed to the constructor. -/
def m : ℕ := n * (n + 1) / 2

/-- `floor(sqrt(a+0.25)-0.5)` -/
def evenRoot (a : ℕ) : ℕ := (Nat.sqrt (4 * a + 1) - 1) / 2

/-- `floor(sqrt(a-0.75)-0.5)` -/
def oddRoot (a : ℕ) : ℕ := (Nat.sqrt (4 * a - 3) - 1) / 2

def adjacency (u v : ℕ) : Except Raise (Option ℕ) :=
  if n ≤ u then .error (.range "Adjacency" "No such node")
  else if n ≤ v then .error (.range "Adjacency" "No such node")
  else .ok (some (if v > u then v * (v + 1) + 2 * u + 1 else u * (u + 1) + 2 * v))

def startNode (a : ℕ) : Except Raise ℕ :=
  if 2 * m n ≤ a then .error (.range "StartNode" "No such arc")
  else if a % 2 = 1 then
    let u := oddRoot a
    .ok ((a - u * u - u - 1) / 2)
  else .ok (evenRoot a)

def endNode (a : ℕ) : Except Raise ℕ :=
  if 2 * m n ≤ a then .error (.range "EndNode" "No such arc")
  else if a % 2 = 1 then .ok (oddRoot a)
  else
    let u := evenRoot a
    .ok ((a - u * u - u) / 2)

def first (v : ℕ) : Except Raise (Option ℕ) :=
  if 2 * n ≤ v then .error (.range "First" "No such node") else adjacency n v 0

/-- `Right`. The even arc of a loop is followed by the odd one. -/
def right (a : ℕ) (u : Option ℕ) : Except Raise (Option ℕ) := do
  let u ← rightNode (startNode n) a u
  if 2 * m n ≤ a then throw (.range "Right" "No such arc")
  if n ≤ u then throw (.range "Right" "No such node")
  let v ← endNode n a
  if u = v ∧ a % 2 = 0 then return some (a ^^^ 1)
  if v < n - 1 then adjacency n u (v + 1) else adjacency n u 0

end DenseGraph

/-- A `denseGraph` -/
def denseGraph (n : ℕ) : DenseClass where
  n := n
  m := DenseGraph.m n
  startNode := DenseGraph.startNode n
  endNode := DenseGraph.endNode n
  adjacency := DenseGraph.adjacency n
  first := DenseGraph.first n
  right := DenseGraph.right n

/-! ## Digraphs -/

namespace DenseDiGraph

variable (n : ℕ)

def adjacency (u v : ℕ) : Except Raise (Option ℕ) :=
  if n ≤ u then .error (.range "Adjacency" "No such node")
  else if n ≤ v then .error (.range "Adjacency" "No such node")
  else .ok (some (2 * (u * n + v)))

def startNode (a : ℕ) : Except Raise ℕ :=
  if 2 * (n * n) ≤ a then .error (.range "StartNode" "No such arc")
  else if a % 2 = 1 then .ok (a / 2 % n)
  else .ok (a / 2 / n)

def endNode (a : ℕ) : Except Raise ℕ :=
  if 2 * (n * n) ≤ a then .error (.range "EndNode" "No such arc")
  else if a % 2 = 1 then .ok (a / 2 / n)
  else .ok (a / 2 % n)

def first (v : ℕ) : Except Raise (Option ℕ) :=
  if 2 * n ≤ v then .error (.range "First" "No such node") else adjacency n v 0

/-- `Right`. The arc to a node is followed by the reverse of the arc from this node. -/
def right (a : ℕ) (u : Option ℕ) : Except Raise (Option ℕ) := do
  let u ← rightNode (startNode n) a u
  if 2 * (n * n) ≤ a then throw (.range "Right" "No such arc")
  if n ≤ u then throw (.range "Right" "No such node")
  let v ← endNode n a
  if a % 2 = 1 then
    if v < n - 1 then adjacency n u (v + 1) else adjacency n u 0
  else return (← adjacency n v u).map (· ^^^ 1)

end DenseDiGraph

/-- A `denseDiGraph` -/
def denseDiGraph (n : ℕ) : DenseClass where
  n := n
  m := n * n
  startNode := DenseDiGraph.startNode n
  endNode := DenseDiGraph.endNode n
  adjacency := DenseDiGraph.adjacency n
  first := DenseDiGraph.first n
  right := DenseDiGraph.right n

/-! ## Bigraphs -/

namespace DenseBiGraph

variable (n1 n2 : ℕ) (ucap : ℕ → ℚ)

/-- `Adjacency`. Arcs without capacity are not returned. -/
def adjacency (u v : ℕ) : Except Raise (Option ℕ) :=
  if n1 + n2 ≤ u then .error (.range "Adjacency" "No such node")
  else if n1 + n2 ≤ v then .error (.range "Adjacency" "No such node")
  else
    let a :=
      if u < v then
        if n1 ≤ v ∧ u < n1 then some (2 * (u * n2 + (v - n1))) else none
      else
        if n1 ≤ u ∧ v < n1 then some (2 * (v * n2 + (u - n1)) + 1) else none
    .ok (a.filter fun a => ucap (a / 2) ≠ 0)

def startNode (a : ℕ) : Except Raise ℕ :=
  if 2 * (n1 * n2) ≤ a then .error (.range "StartNode" "No such arc")
  else if a % 2 = 1 then .ok (n1 + a / 2 % n2)
  else .ok (a / 2 / n2)

def endNode (a : ℕ) : Except Raise ℕ :=
  if 2 * (n1 * n2) ≤ a then .error (.range "EndNode" "No such arc")
  else if a % 2 = 1 then .ok (a / 2 / n2)
  else .ok (n1 + a / 2 % n2)

def first (v : ℕ) : Except Raise (Option ℕ) :=
  if 2 * (n1 + n2) ≤ v then .error (.range "First" "No such node")
  else if v < n1 then adjacency n1 n2 ucap v n1
  else adjacency n1 n2 ucap v 0

def right (a : ℕ) (u : Option ℕ) : Except Raise (Option ℕ) := do
  let u ← rightNode (startNode n1 n2) a u
  if 2 * (n1 * n2) ≤ a then throw (.range "Right" "No such arc")
  if n1 + n2 ≤ u then throw (.range "Right" "No such node")
  let v ← endNode n1 n2 a
  if v = n1 - 1 then adjacency n1 n2 ucap u 0
  else if v = n1 + n2 - 1 then adjacency n1 n2 ucap u n1
  else adjacency n1 n2 ucap u (v + 1)

end DenseBiGraph

/-- A `denseBiGraph` -/
def denseBiGraph (n1 n2 : ℕ) (ucap : ℕ → ℚ) : DenseClass where
  n := n1 + n2
  m := n1 * n2
  startNode := DenseBiGraph.startNode n1 n2
  endNode := DenseBiGraph.endNode n1 n2
  adjacency := DenseBiGraph.adjacency n1 n2 ucap
  first := DenseBiGraph.first n1 n2 ucap
  right := DenseBiGraph.right n1 n2 ucap

/-! ## Consistency -/

namespace DenseClass

variable (D : DenseClass)

/-- The ends of an arc. -/
def Joins (a u v : ℕ) : Prop := a < 2 * D.m ∧ D.startNode a = .ok u ∧ D.endNode a = .ok v

/-- `Right` at a node; `none` if it raises or returns `NoArc`. -/
def rightAt (v a : ℕ) : Option ℕ := (D.right a (some v)).toOption.join

/-- The arc numbering and the incidence lists of a dense graph object agree. Edges are distinct as
pairs of end nodes, in undirected graphs also up to their direction. -/
structure Consistent (directed : Bool) : Prop where
  ends : ∀ a, a < 2 * D.m → ∃ u v, u < D.n ∧ v < D.n ∧ D.Joins a u v
  adjacency_joins : ∀ u v a, D.adjacency u v = .ok (some a) → D.Joins a u v
  adjacency_some : ∀ a u v, D.Joins a u v → ∃ b, D.adjacency u v = .ok (some b)
  reversal : ∀ a, a < 2 * D.m → D.endNode a = D.startNode (a ^^^ 1)
  distinct : ∀ e e' u v, D.Joins (2 * e) u v → D.Joins (2 * e') u v → e = e'
  undirected : directed = false → ∀ e e' u v, D.Joins (2 * e) u v → D.Joins (2 * e') v u → e = e'
  lists : ∀ v, v < D.n → ∃ a l, D.first v = .ok (some a) ∧ CircularList (D.rightAt v) a l ∧
    ∀ b, b ∈ a :: l ↔ b < 2 * D.m ∧ D.startNode b = .ok v

variable {D}

theorem Joins.unique {u' v' : ℕ} (joins : D.Joins a u v) (joins' : D.Joins a u' v') :
    u = u' ∧ v = v' :=
  ⟨Except.ok.inj (joins.2.1.symm.trans joins'.2.1), Except.ok.inj (joins.2.2.symm.trans joins'.2.2)⟩

theorem lists_of_enum {f : ℕ → ℕ} (first : D.first v = .ok (some (f 0)))
    (inj : ∀ i, i ≤ k → ∀ j, j ≤ k → f i = f j → i = j)
    (step : ∀ i, i < k → D.right (f i) (some v) = .ok (some (f (i + 1))))
    (back : D.right (f k) (some v) = .ok (some (f 0)))
    (starts : ∀ i, i ≤ k → f i < 2 * D.m ∧ D.startNode (f i) = .ok v)
    (members : ∀ b, b < 2 * D.m → D.startNode b = .ok v → ∃ i, i ≤ k ∧ f i = b) :
    ∃ a l, D.first v = .ok (some a) ∧ CircularList (D.rightAt v) a l ∧
      ∀ b, b ∈ a :: l ↔ b < 2 * D.m ∧ D.startNode b = .ok v := by
  refine ⟨f 0, _, first, CircularList.ofEnum inj (fun i low => ?_) ?_, fun b => ?_⟩
  · rw [rightAt, step i low]
    rfl
  · rw [rightAt, back]
    rfl
  · rw [CircularList.mem_ofEnum]
    constructor
    · rintro ⟨i, low, rfl⟩
      exact starts i low
    · exact fun both => members b both.1 both.2

end DenseClass

/-! ## Triangular numbers -/

namespace DenseGraph

variable {n : ℕ}

theorem two_mul_m (n : ℕ) : 2 * m n = n * (n + 1) := by
  have even : n * (n + 1) % 2 = 0 := by
    rw [Nat.mul_mod, Nat.add_mod]
    rcases Nat.mod_two_eq_zero_or_one n with zero | one
    · simp [zero]
    · simp [one]
  rw [m]
  omega

/-- The root that is taken of a number between two odd squares. -/
theorem root_eq (lower : (2 * u + 1) * (2 * u + 1) ≤ k)
    (upper : k < (2 * u + 3) * (2 * u + 3)) : (Nat.sqrt k - 1) / 2 = u := by
  have low : 2 * u + 1 ≤ Nat.sqrt k := Nat.le_sqrt.2 lower
  have high : Nat.sqrt k < 2 * u + 3 := Nat.sqrt_lt.2 upper
  omega

/-- The root in the source, for a quarter of the number. -/
theorem floor_root (lower : (2 * u + 1) * (2 * u + 1) ≤ k)
    (upper : k < (2 * u + 3) * (2 * u + 3)) : ⌊√((k : ℝ) / 4) - 0.5⌋ = (u : ℤ) := by
  have low : ((2 * u + 1) * (2 * u + 1) : ℝ) ≤ k := mod_cast lower
  have high : (k : ℝ) < (2 * u + 3) * (2 * u + 3) := mod_cast upper
  have least : (u : ℝ) + 0.5 ≤ √((k : ℝ) / 4) := by
    refine Real.le_sqrt_of_sq_le ?_
    linarith
  have most : √((k : ℝ) / 4) < (u : ℝ) + 1.5 := by
    refine (Real.sqrt_lt' (by positivity)).2 ?_
    linarith
  rw [Int.floor_eq_iff]
  push_cast
  constructor <;> linarith

/-- The integer root lies between two odd squares. -/
theorem root_between (pos : 0 < k) :
    (2 * ((Nat.sqrt k - 1) / 2) + 1) * (2 * ((Nat.sqrt k - 1) / 2) + 1) ≤ k ∧
      k < (2 * ((Nat.sqrt k - 1) / 2) + 3) * (2 * ((Nat.sqrt k - 1) / 2) + 3) := by
  have root : 0 < Nat.sqrt k := Nat.sqrt_pos.2 pos
  exact ⟨Nat.le_sqrt.1 (by omega), Nat.sqrt_lt.1 (by omega)⟩

theorem evenRoot_floor (a : ℕ) : ⌊√((a : ℝ) + 0.25) - 0.5⌋ = (evenRoot a : ℤ) := by
  obtain ⟨lower, upper⟩ := root_between (Nat.succ_pos (4 * a))
  have quarter : ((4 * a + 1 : ℕ) : ℝ) / 4 = a + 0.25 := by
    push_cast
    ring
  rw [← quarter]
  exact floor_root lower upper

theorem oddRoot_floor (pos : 0 < a) : ⌊√((a : ℝ) - 0.75) - 0.5⌋ = (oddRoot a : ℤ) := by
  obtain ⟨lower, upper⟩ := root_between (k := 4 * a - 3) (by omega)
  have quarter : ((4 * a - 3 : ℕ) : ℝ) / 4 = a - 0.75 := by
    rw [Nat.cast_sub (by omega)]
    push_cast
    ring
  rw [← quarter]
  exact floor_root lower upper

theorem evenRoot_eq (low : v ≤ u) : evenRoot (u * (u + 1) + 2 * v) = u := by
  refine root_eq ?_ ?_
  · nlinarith
  · nlinarith

theorem oddRoot_eq (low : u ≤ v) : oddRoot (v * (v + 1) + 2 * u + 1) = v := by
  have val : 4 * (v * (v + 1) + 2 * u + 1) - 3 = (2 * v + 1) * (2 * v + 1) + 8 * u := by
    have : 4 * (v * (v + 1) + 2 * u + 1) = (2 * v + 1) * (2 * v + 1) + 8 * u + 3 := by ring
    omega
  rw [oddRoot, val]
  refine root_eq (Nat.le_add_right _ _) ?_
  nlinarith

theorem exists_root (even : k % 2 = 0) : ∃ u v, v ≤ u ∧ k = u * (u + 1) + 2 * v := by
  obtain ⟨low, high⟩ := root_between (Nat.succ_pos (4 * k))
  set u := (Nat.sqrt (4 * k + 1) - 1) / 2 with rootEq
  have base : u * (u + 1) ≤ k := by nlinarith
  have parity := two_mul_m u
  refine ⟨u, (k - u * (u + 1)) / 2, ?_, by omega⟩
  have bound : k < u * (u + 1) + 2 * u + 2 := by nlinarith
  omega

theorem joins_even (lowU : u < n) (low : v ≤ u) :
    (denseGraph n).Joins (u * (u + 1) + 2 * v) u v := by
  have inRange : u * (u + 1) + 2 * v < 2 * m n := by
    rw [two_mul_m]
    nlinarith
  have even : (u * (u + 1) + 2 * v) % 2 ≠ 1 := by
    have := two_mul_m u
    omega
  refine ⟨inRange, ?_, ?_⟩
  · change startNode n _ = _
    rw [startNode, if_neg (by omega), if_neg even, evenRoot_eq low]
  · change endNode n _ = _
    rw [endNode, if_neg (by omega), if_neg even, evenRoot_eq low]
    refine congrArg Except.ok (?_ : (u * (u + 1) + 2 * v - u * u - u) / 2 = v)
    rw [show u * (u + 1) = u * u + u by ring]
    omega

theorem joins_odd (lowV : v < n) (low : u ≤ v) :
    (denseGraph n).Joins (v * (v + 1) + 2 * u + 1) u v := by
  have inRange : v * (v + 1) + 2 * u + 1 < 2 * m n := by
    rw [two_mul_m]
    nlinarith
  have odd : (v * (v + 1) + 2 * u + 1) % 2 = 1 := by
    have := two_mul_m v
    omega
  refine ⟨inRange, ?_, ?_⟩
  · change startNode n _ = _
    rw [startNode, if_neg (by omega), if_pos odd, oddRoot_eq low]
    refine congrArg Except.ok (?_ : (v * (v + 1) + 2 * u + 1 - v * v - v - 1) / 2 = u)
    rw [show v * (v + 1) = v * v + v by ring]
    omega
  · change endNode n _ = _
    rw [endNode, if_neg (by omega), if_pos odd, oddRoot_eq low]

theorem arc_cases (inRange : a < 2 * m n) : (∃ u v, u < n ∧ v ≤ u ∧ a = u * (u + 1) + 2 * v) ∨
      ∃ u v, v < n ∧ u ≤ v ∧ a = v * (v + 1) + 2 * u + 1 := by
  rw [two_mul_m] at inRange
  rcases Nat.mod_two_eq_zero_or_one a with even | odd
  · obtain ⟨u, v, low, rfl⟩ := exists_root even
    exact .inl ⟨u, v, by nlinarith, low, rfl⟩
  · obtain ⟨v, u, low, val⟩ := exists_root (by omega : (a - 1) % 2 = 0)
    have whole : a = v * (v + 1) + 2 * u + 1 := by omega
    exact .inr ⟨u, v, by nlinarith, low, whole⟩

theorem adjacency_eq (lowU : u < n) (lowV : v < n) : (denseGraph n).adjacency u v =
      .ok (some (if v > u then v * (v + 1) + 2 * u + 1 else u * (u + 1) + 2 * v)) := by
  change adjacency n u v = _
  rw [adjacency, if_neg (by omega), if_neg (by omega)]

/-- The arcs with the start node `u`: those to the nodes up to `u`, the reversal of the loop, and
those to the larger nodes. -/
def arcAt (u i : ℕ) : ℕ := if i ≤ u then u * (u + 1) + 2 * i else (i - 1) * i + 2 * u + 1

theorem arcAt_succ (low : u ≤ v) : arcAt u (v + 1) = v * (v + 1) + 2 * u + 1 := by
  rw [arcAt, if_neg (by omega), Nat.add_sub_cancel]

theorem right_eq (lowU : u < n) (joins : (denseGraph n).Joins a u v) :
    (denseGraph n).right a (some u) = if u = v ∧ a % 2 = 0 then .ok (some (a ^^^ 1))
      else if v < n - 1 then adjacency n u (v + 1) else adjacency n u 0 := by
  obtain ⟨inRange, -, atEnd⟩ := joins
  change right n a (some u) = _
  have inRange' : ¬ 2 * m n ≤ a := not_le.2 inRange
  have atEnd' : endNode n a = .ok v := atEnd
  simp only [right, rightNode, bind, Except.bind, pure, Except.pure, if_neg inRange',
    if_neg (not_le.2 lowU), atEnd']

theorem lists (lowU : u < n) : ∃ a l, (denseGraph n).first u = .ok (some a) ∧
    CircularList ((denseGraph n).rightAt u) a l ∧
    ∀ b, b ∈ a :: l ↔ b < 2 * (denseGraph n).m ∧ (denseGraph n).startNode b = .ok u := by
  have even := two_mul_m u
  have toSmall : ∀ i, i ≤ u → (denseGraph n).Joins (arcAt u i) u i := by
    intro i low
    rw [arcAt, if_pos low]
    exact joins_even lowU low
  have toLarge : ∀ v, u ≤ v → v < n → (denseGraph n).Joins (arcAt u (v + 1)) u v := by
    intro v low lowV
    rw [arcAt_succ low]
    exact joins_odd lowV low
  have atZero : adjacency n u 0 = .ok (some (arcAt u 0)) := by
    refine (adjacency_eq lowU (by omega)).trans ?_
    rw [if_neg (by omega), arcAt, if_pos (Nat.zero_le u)]
  refine DenseClass.lists_of_enum (k := n) (f := arcAt u) ?_ ?_ ?_ ?_ ?_ ?_
  · exact (if_neg (by omega)).trans atZero
  · -- arcs to different nodes differ, and those of the loop in their last bit
    intro i lowI j lowJ eq
    rcases Nat.lt_or_ge u i with largeI | smallI <;> rcases Nat.lt_or_ge u j with largeJ | smallJ
    · obtain ⟨v, rfl⟩ : ∃ v, i = v + 1 := ⟨i - 1, by omega⟩
      obtain ⟨w, rfl⟩ : ∃ w, j = w + 1 := ⟨j - 1, by omega⟩
      have joins := toLarge v (by omega) (by omega)
      rw [eq] at joins
      rw [(joins.unique (toLarge w (by omega) (by omega))).2]
    · obtain ⟨v, rfl⟩ : ∃ v, i = v + 1 := ⟨i - 1, by omega⟩
      have evenV := two_mul_m v
      rw [arcAt_succ (by omega), arcAt, if_pos smallJ] at eq
      omega
    · obtain ⟨w, rfl⟩ : ∃ w, j = w + 1 := ⟨j - 1, by omega⟩
      have evenW := two_mul_m w
      rw [arcAt_succ (by omega), arcAt, if_pos smallI] at eq
      omega
    · have joins := toSmall i smallI
      rw [eq] at joins
      exact (joins.unique (toSmall j smallJ)).2
  · intro i low
    rcases Nat.lt_or_ge u i with large | small
    · obtain ⟨v, rfl⟩ : ∃ v, i = v + 1 := ⟨i - 1, by omega⟩
      have evenV := two_mul_m v
      rw [right_eq lowU (toLarge v (by omega) (by omega)), arcAt_succ (by omega),
        if_neg (by omega), if_pos (by omega)]
      refine (adjacency_eq lowU (by omega)).trans ?_
      rw [if_pos (by omega), arcAt_succ (by omega)]
    · rw [right_eq lowU (toSmall i small)]
      rcases Nat.lt_or_eq_of_le small with less | rfl
      · rw [if_neg (by omega), if_pos (by omega)]
        refine (adjacency_eq lowU (by omega)).trans ?_
        rw [if_neg (by omega), arcAt, if_pos (by omega : i + 1 ≤ u)]
      · have code : arcAt i i = i * (i + 1) + 2 * i := if_pos (le_refl i)
        rw [if_pos ⟨rfl, by omega⟩, xor_one_even (by omega), arcAt_succ (le_refl i), code]
  · obtain ⟨v, rfl⟩ : ∃ v, n = v + 1 := ⟨n - 1, by omega⟩
    have evenV := two_mul_m v
    rw [right_eq lowU (toLarge v (by omega) (by omega)), arcAt_succ (by omega), if_neg (by omega),
      if_neg (by omega)]
    exact atZero
  · intro i low
    rcases Nat.lt_or_ge u i with large | small
    · obtain ⟨v, rfl⟩ : ∃ v, i = v + 1 := ⟨i - 1, by omega⟩
      have joins := toLarge v (by omega) (by omega)
      exact ⟨joins.1, joins.2.1⟩
    · exact ⟨(toSmall i small).1, (toSmall i small).2.1⟩
  · intro b inRange start
    rcases arc_cases inRange with ⟨w, v, lowW, low, rfl⟩ | ⟨w, v, lowV, low, rfl⟩
    · have eq := Except.ok.inj ((joins_even lowW low).2.1.symm.trans start)
      subst eq
      exact ⟨v, by omega, if_pos low⟩
    · have eq := Except.ok.inj ((joins_odd lowV low).2.1.symm.trans start)
      subst eq
      exact ⟨v + 1, by omega, arcAt_succ low⟩

theorem edge_eq (joins : (denseGraph n).Joins (2 * e) u v) :
    v ≤ u ∧ 2 * e = u * (u + 1) + 2 * v := by
  rcases arc_cases joins.1 with ⟨u', v', lowU, low, code⟩ | ⟨u', v', lowV, low, code⟩
  · obtain ⟨rfl, rfl⟩ := joins.unique (code ▸ joins_even lowU low)
    exact ⟨low, code⟩
  · have even := two_mul_m v'
    omega

theorem consistent (n : ℕ) : (denseGraph n).Consistent false := by
  refine ⟨?_, ?_, ?_, ?_, ?_, ?_, fun u lowU => lists lowU⟩
  · intro a inRange
    rcases arc_cases inRange with ⟨u, v, lowU, low, rfl⟩ | ⟨u, v, lowV, low, rfl⟩
    · exact ⟨u, v, lowU, lt_of_le_of_lt low lowU, joins_even lowU low⟩
    · exact ⟨u, v, lt_of_le_of_lt low lowV, lowV, joins_odd lowV low⟩
  · intro u v a found
    have lowU : u < n := by
      by_contra high
      rw [show (denseGraph n).adjacency u v = adjacency n u v from rfl, adjacency,
        if_pos (by omega)] at found
      cases found
    have lowV : v < n := by
      by_contra high
      rw [show (denseGraph n).adjacency u v = adjacency n u v from rfl, adjacency,
        if_neg (by omega), if_pos (by omega)] at found
      cases found
    rw [adjacency_eq lowU lowV] at found
    have code := Option.some.inj (Except.ok.inj found)
    rw [← code]
    split_ifs with larger
    · exact joins_odd lowV (by omega)
    · exact joins_even lowU (by omega)
  · intro a u v joins
    rcases arc_cases joins.1 with ⟨u', v', lowU, low, rfl⟩ | ⟨u', v', lowV, low, rfl⟩
    · obtain ⟨rfl, rfl⟩ := joins.unique (joins_even lowU low)
      exact ⟨_, adjacency_eq lowU (by omega)⟩
    · obtain ⟨rfl, rfl⟩ := joins.unique (joins_odd lowV low)
      exact ⟨_, adjacency_eq (by omega) lowV⟩
  · intro a inRange
    rcases arc_cases inRange with ⟨u, v, lowU, low, rfl⟩ | ⟨u, v, lowV, low, rfl⟩
    · have even := two_mul_m u
      rw [xor_one_even (by omega), (joins_even lowU low).2.2, (joins_odd lowU low).2.1]
    · have even := two_mul_m v
      rw [xor_one_odd (by omega), Nat.add_sub_cancel, (joins_odd lowV low).2.2,
        (joins_even lowV low).2.1]
  · intro e e' u v joins joins'
    have code := (edge_eq joins).2
    have code' := (edge_eq joins').2
    omega
  · intro _ e e' u v joins joins'
    obtain ⟨low, code⟩ := edge_eq joins
    obtain ⟨low', code'⟩ := edge_eq joins'
    obtain rfl : u = v := by omega
    omega

end DenseGraph

/-! ## Products -/

theorem product_div (low : v < k) : (u * k + v) / k = u := by
  rw [Nat.add_comm, Nat.add_mul_div_right _ _ (by omega), Nat.div_eq_of_lt low, Nat.zero_add]

theorem product_mod (low : v < k) : (u * k + v) % k = v := by
  rw [Nat.add_comm, Nat.add_mul_mod_self_right, Nat.mod_eq_of_lt low]

theorem product_lt (lowU : u < j) (lowV : v < k) : u * k + v < j * k := by
  nlinarith

theorem exists_product (inRange : e < j * k) : ∃ u v, u < j ∧ v < k ∧ e = u * k + v := by
  have pos : 0 < k := Nat.pos_of_ne_zero (by rintro rfl; simp at inRange)
  exact ⟨e / k, e % k, Nat.div_lt_of_lt_mul (by rwa [Nat.mul_comm] at inRange),
    Nat.mod_lt _ pos, (Nat.div_add_mod' e k).symm⟩

namespace DenseDiGraph

variable {n : ℕ}

theorem joins_even (lowU : u < n) (lowV : v < n) :
    (denseDiGraph n).Joins (2 * (u * n + v)) u v := by
  have inRange := product_lt lowU lowV
  refine ⟨show _ < 2 * (n * n) by omega, ?_, ?_⟩
  · change startNode n _ = _
    rw [startNode, if_neg (by omega), if_neg (by omega), Nat.mul_div_cancel_left _ (by omega),
      product_div lowV]
  · change endNode n _ = _
    rw [endNode, if_neg (by omega), if_neg (by omega), Nat.mul_div_cancel_left _ (by omega),
      product_mod lowV]

theorem joins_odd (lowU : u < n) (lowV : v < n) :
    (denseDiGraph n).Joins (2 * (v * n + u) + 1) u v := by
  have inRange := product_lt lowV lowU
  have half : (2 * (v * n + u) + 1) / 2 = v * n + u := by omega
  refine ⟨show _ < 2 * (n * n) by omega, ?_, ?_⟩
  · change startNode n _ = _
    rw [startNode, if_neg (by omega), if_pos (by omega), half, product_mod lowU]
  · change endNode n _ = _
    rw [endNode, if_neg (by omega), if_pos (by omega), half, product_div lowU]

theorem arc_cases (inRange : a < 2 * (n * n)) : (∃ u v, u < n ∧ v < n ∧ a = 2 * (u * n + v)) ∨
      ∃ u v, u < n ∧ v < n ∧ a = 2 * (v * n + u) + 1 := by
  obtain ⟨u, v, lowU, lowV, code⟩ := exists_product (by omega : a / 2 < n * n)
  rcases Nat.mod_two_eq_zero_or_one a with even | odd
  · exact .inl ⟨u, v, lowU, lowV, by omega⟩
  · exact .inr ⟨v, u, lowV, lowU, by omega⟩

theorem adjacency_eq (lowU : u < n) (lowV : v < n) :
    adjacency n u v = .ok (some (2 * (u * n + v))) := by
  rw [adjacency, if_neg (by omega), if_neg (by omega)]

/-- The arcs with the start node `u`: at every node the arc to it and the reverse of the arc from
it. -/
def arcAt (n u i : ℕ) : ℕ := if i % 2 = 0 then 2 * (u * n + i / 2) else 2 * (i / 2 * n + u) + 1

theorem arcAt_even (u w : ℕ) : arcAt n u (2 * w) = 2 * (u * n + w) := by
  rw [arcAt, if_pos (by omega), Nat.mul_div_cancel_left _ (by omega)]

theorem arcAt_odd (u w : ℕ) : arcAt n u (2 * w + 1) = 2 * (w * n + u) + 1 := by
  rw [arcAt, if_neg (by omega), show (2 * w + 1) / 2 = w by omega]

theorem arcAt_joins {i : ℕ} (lowU : u < n) (low : i / 2 < n) :
    (denseDiGraph n).Joins (arcAt n u i) u (i / 2) := by
  rw [arcAt]
  split_ifs
  · exact joins_even lowU low
  · exact joins_odd lowU low

theorem right_eq (lowU : u < n) (joins : (denseDiGraph n).Joins a u v) :
    (denseDiGraph n).right a (some u) = if a % 2 = 1 then
      if v < n - 1 then adjacency n u (v + 1) else adjacency n u 0
    else (adjacency n v u).map fun a => a.map (· ^^^ 1) := by
  obtain ⟨inRange, -, atEnd⟩ := joins
  change right n a (some u) = _
  have inRange' : ¬ 2 * (n * n) ≤ a := not_le.2 inRange
  have atEnd' : endNode n a = .ok v := atEnd
  simp only [right, rightNode, bind, Except.bind, pure, Except.pure, if_neg inRange',
    if_neg (not_le.2 lowU), atEnd']
  split_ifs
  · rfl
  · rfl
  · cases adjacency n v u <;> rfl

theorem lists (lowU : u < n) : ∃ a l, (denseDiGraph n).first u = .ok (some a) ∧
    CircularList ((denseDiGraph n).rightAt u) a l ∧
    ∀ b, b ∈ a :: l ↔ b < 2 * (denseDiGraph n).m ∧ (denseDiGraph n).startNode b = .ok u := by
  have atZero : adjacency n u 0 = .ok (some (arcAt n u 0)) :=
    (adjacency_eq lowU (by omega)).trans (by rw [show arcAt n u 0 = _ from arcAt_even u 0])
  refine DenseClass.lists_of_enum (k := 2 * n - 1) (f := arcAt n u) ?_ ?_ ?_ ?_ ?_ ?_
  · exact (if_neg (by omega)).trans atZero
  · intro i lowI j lowJ eq
    have joins := arcAt_joins lowU (by omega : i / 2 < n)
    rw [eq] at joins
    have ends := (joins.unique (arcAt_joins lowU (by omega : j / 2 < n))).2
    have parity : i % 2 = j % 2 := by
      rw [arcAt, arcAt] at eq
      split_ifs at eq <;> omega
    omega
  · intro i low
    rw [right_eq lowU (arcAt_joins lowU (by omega))]
    rcases Nat.even_or_odd' i with ⟨w, rfl | rfl⟩
    · -- the arc to `w` and then the reverse of the arc from `w`
      rw [arcAt_even, arcAt_odd, if_neg (by omega), show 2 * w / 2 = w by omega,
        adjacency_eq (by omega) lowU]
      simp only [Except.map, Option.map, xor_one_even (Nat.mul_mod_right 2 (w * n + u))]
    · rw [arcAt_odd, if_pos (by omega), show (2 * w + 1) / 2 = w by omega, if_pos (by omega),
        adjacency_eq lowU (by omega), show 2 * w + 1 + 1 = 2 * (w + 1) by omega, arcAt_even]
  · rw [right_eq lowU (arcAt_joins lowU (by omega)),
      show 2 * n - 1 = 2 * (n - 1) + 1 by omega, arcAt_odd, if_pos (by omega), if_neg (by omega)]
    exact atZero
  · intro i low
    have joins := arcAt_joins lowU (by omega : i / 2 < n)
    exact ⟨joins.1, joins.2.1⟩
  · intro b inRange start
    rcases arc_cases inRange with ⟨w, v, lowW, lowV, rfl⟩ | ⟨w, v, lowW, lowV, rfl⟩
    · have eq := Except.ok.inj ((joins_even lowW lowV).2.1.symm.trans start)
      subst eq
      exact ⟨2 * v, by omega, arcAt_even _ _⟩
    · have eq := Except.ok.inj ((joins_odd lowW lowV).2.1.symm.trans start)
      subst eq
      exact ⟨2 * v + 1, by omega, arcAt_odd _ _⟩

theorem consistent (n : ℕ) : (denseDiGraph n).Consistent true := by
  refine ⟨?_, ?_, ?_, ?_, ?_, ?_, fun u lowU => lists lowU⟩
  · intro a inRange
    rcases arc_cases inRange with ⟨u, v, lowU, lowV, rfl⟩ | ⟨u, v, lowU, lowV, rfl⟩
    · exact ⟨u, v, lowU, lowV, joins_even lowU lowV⟩
    · exact ⟨u, v, lowU, lowV, joins_odd lowU lowV⟩
  · intro u v a found
    change adjacency n u v = _ at found
    rw [adjacency] at found
    split_ifs at found with highU highV
    have code := Option.some.inj (Except.ok.inj found)
    rw [← code]
    exact joins_even (by omega) (by omega)
  · intro a u v joins
    rcases arc_cases joins.1 with ⟨u', v', lowU, lowV, rfl⟩ | ⟨u', v', lowU, lowV, rfl⟩
    · obtain ⟨rfl, rfl⟩ := joins.unique (joins_even lowU lowV)
      exact ⟨_, adjacency_eq lowU lowV⟩
    · obtain ⟨rfl, rfl⟩ := joins.unique (joins_odd lowU lowV)
      exact ⟨_, adjacency_eq lowU lowV⟩
  · intro a inRange
    rcases arc_cases inRange with ⟨u, v, lowU, lowV, rfl⟩ | ⟨u, v, lowU, lowV, rfl⟩
    · rw [xor_one_even (by omega), (joins_even lowU lowV).2.2, (joins_odd lowV lowU).2.1]
    · rw [xor_one_odd (by omega), Nat.add_sub_cancel, (joins_odd lowU lowV).2.2,
        (joins_even lowV lowU).2.1]
  · intro e e' u v joins joins'
    have code : ∀ e, (denseDiGraph n).Joins (2 * e) u v → e = u * n + v := by
      intro e joins
      rcases arc_cases joins.1 with ⟨u', v', lowU, lowV, code⟩ | ⟨u', v', lowU, lowV, code⟩
      · obtain ⟨rfl, rfl⟩ := joins.unique (code ▸ joins_even lowU lowV)
        omega
      · omega
    rw [code e joins, code e' joins']
  · intro undirected
    cases undirected

end DenseDiGraph

namespace DenseBiGraph

variable {n1 n2 : ℕ} {ucap : ℕ → ℚ}

theorem joins_even (lowU : u < n1) (lowW : w < n2) :
    (denseBiGraph n1 n2 ucap).Joins (2 * (u * n2 + w)) u (n1 + w) := by
  have inRange := product_lt lowU lowW
  refine ⟨show _ < 2 * (n1 * n2) by omega, ?_, ?_⟩
  · change startNode n1 n2 _ = _
    rw [startNode, if_neg (by omega), if_neg (by omega), Nat.mul_div_cancel_left _ (by omega),
      product_div lowW]
  · change endNode n1 n2 _ = _
    rw [endNode, if_neg (by omega), if_neg (by omega), Nat.mul_div_cancel_left _ (by omega),
      product_mod lowW]

theorem joins_odd (lowU : u < n1) (lowW : w < n2) :
    (denseBiGraph n1 n2 ucap).Joins (2 * (u * n2 + w) + 1) (n1 + w) u := by
  have inRange := product_lt lowU lowW
  have half : (2 * (u * n2 + w) + 1) / 2 = u * n2 + w := by omega
  refine ⟨show _ < 2 * (n1 * n2) by omega, ?_, ?_⟩
  · change startNode n1 n2 _ = _
    rw [startNode, if_neg (by omega), if_pos (by omega), half, product_mod lowW]
  · change endNode n1 n2 _ = _
    rw [endNode, if_neg (by omega), if_pos (by omega), half, product_div lowW]

theorem arc_cases (inRange : a < 2 * (n1 * n2)) :
    ∃ u w, u < n1 ∧ w < n2 ∧ (a = 2 * (u * n2 + w) ∨ a = 2 * (u * n2 + w) + 1) := by
  obtain ⟨u, w, lowU, lowW, code⟩ := exists_product (by omega : a / 2 < n1 * n2)
  exact ⟨u, w, lowU, lowW, by omega⟩

/-- The arc that `Adjacency` finds before it looks at the capacity. -/
theorem adjacency_forth (lowU : u < n1) (lowW : w < n2) : adjacency n1 n2 ucap u (n1 + w) =
      .ok (if ucap (u * n2 + w) ≠ 0 then some (2 * (u * n2 + w)) else none) := by
  have half : 2 * (u * n2 + w) / 2 = u * n2 + w := by omega
  rw [adjacency, if_neg (by omega), if_neg (by omega)]
  simp only [if_pos (by omega : u < n1 + w), if_pos (by omega : n1 ≤ n1 + w ∧ u < n1),
    Nat.add_sub_cancel_left, Option.filter, half, decide_eq_true_eq]

theorem adjacency_back (lowU : u < n1) (lowW : w < n2) : adjacency n1 n2 ucap (n1 + w) u =
      .ok (if ucap (u * n2 + w) ≠ 0 then some (2 * (u * n2 + w) + 1) else none) := by
  have half : (2 * (u * n2 + w) + 1) / 2 = u * n2 + w := by omega
  rw [adjacency, if_neg (by omega), if_neg (by omega)]
  simp only [if_neg (by omega : ¬ n1 + w < u), if_pos (by omega : n1 ≤ n1 + w ∧ u < n1),
    Nat.add_sub_cancel_left, Option.filter, half, decide_eq_true_eq]

theorem right_eq (lowU : u < n1 + n2) (joins : (denseBiGraph n1 n2 ucap).Joins a u v) :
    (denseBiGraph n1 n2 ucap).right a (some u) = if v = n1 - 1 then adjacency n1 n2 ucap u 0
      else if v = n1 + n2 - 1 then adjacency n1 n2 ucap u n1
      else adjacency n1 n2 ucap u (v + 1) := by
  obtain ⟨inRange, -, atEnd⟩ := joins
  change right n1 n2 ucap a (some u) = _
  have inRange' : ¬ 2 * (n1 * n2) ≤ a := not_le.2 inRange
  have atEnd' : endNode n1 n2 a = .ok v := atEnd
  simp only [right, rightNode, bind, Except.bind, if_neg inRange', if_neg (not_le.2 lowU), atEnd']

section Full

variable (full : ∀ e, e < n1 * n2 → ucap e ≠ 0)

include full

theorem lists_outer (lowU : u < n1) (pos : 0 < n2) :
    ∃ a l, (denseBiGraph n1 n2 ucap).first u = .ok (some a) ∧
      CircularList ((denseBiGraph n1 n2 ucap).rightAt u) a l ∧
      ∀ b, b ∈ a :: l ↔ b < 2 * (denseBiGraph n1 n2 ucap).m ∧
        (denseBiGraph n1 n2 ucap).startNode b = .ok u := by
  have found : ∀ w, w < n2 → adjacency n1 n2 ucap u (n1 + w) = .ok (some (2 * (u * n2 + w))) := by
    intro w lowW
    rw [adjacency_forth lowU lowW, if_pos (full _ (product_lt lowU lowW))]
  refine DenseClass.lists_of_enum (k := n2 - 1) (f := fun w => 2 * (u * n2 + w)) ?_ ?_ ?_ ?_ ?_ ?_
  · exact (if_neg (by omega)).trans ((if_pos lowU).trans (found 0 pos))
  · intro i _ j _ eq
    omega
  · intro w low
    rw [right_eq (by omega) (joins_even lowU (by omega)), if_neg (by omega), if_neg (by omega)]
    exact found (w + 1) (by omega)
  · rw [right_eq (by omega) (joins_even lowU (by omega)), if_neg (by omega), if_pos (by omega)]
    exact found 0 pos
  · intro w low
    have joins : (denseBiGraph n1 n2 ucap).Joins _ _ _ :=
      joins_even lowU (by omega : w < n2)
    exact ⟨joins.1, joins.2.1⟩
  · intro b inRange start
    obtain ⟨u', w, lowU', lowW, rfl | rfl⟩ := arc_cases inRange
    · have eq := Except.ok.inj ((joins_even lowU' lowW).2.1.symm.trans start)
      exact ⟨w, by omega, by rw [eq]⟩
    · have eq := Except.ok.inj ((joins_odd lowU' lowW).2.1.symm.trans start)
      omega

theorem lists_inner (lowW : w < n2) (pos : 0 < n1) :
    ∃ a l, (denseBiGraph n1 n2 ucap).first (n1 + w) = .ok (some a) ∧
      CircularList ((denseBiGraph n1 n2 ucap).rightAt (n1 + w)) a l ∧
      ∀ b, b ∈ a :: l ↔ b < 2 * (denseBiGraph n1 n2 ucap).m ∧
        (denseBiGraph n1 n2 ucap).startNode b = .ok (n1 + w) := by
  have found : ∀ u, u < n1 →
      adjacency n1 n2 ucap (n1 + w) u = .ok (some (2 * (u * n2 + w) + 1)) := by
    intro u lowU
    rw [adjacency_back lowU lowW, if_pos (full _ (product_lt lowU lowW))]
  refine DenseClass.lists_of_enum (k := n1 - 1) (f := fun u => 2 * (u * n2 + w) + 1)
    ?_ ?_ ?_ ?_ ?_ ?_
  · exact (if_neg (by omega)).trans ((if_neg (by omega)).trans (found 0 pos))
  · intro i lowI j lowJ eq
    have joins : (denseBiGraph n1 n2 ucap).Joins _ _ _ :=
      joins_odd (by omega : i < n1) lowW
    rw [eq] at joins
    exact (joins.unique (joins_odd (by omega) lowW)).2
  · intro u low
    rw [right_eq (by omega) (joins_odd (by omega) lowW), if_neg (by omega), if_neg (by omega)]
    exact found (u + 1) (by omega)
  · rw [right_eq (by omega) (joins_odd (by omega) lowW), if_pos rfl]
    exact found 0 pos
  · intro u low
    have joins : (denseBiGraph n1 n2 ucap).Joins _ _ _ :=
      joins_odd (by omega : u < n1) lowW
    exact ⟨joins.1, joins.2.1⟩
  · intro b inRange start
    obtain ⟨u, w', lowU, lowW', rfl | rfl⟩ := arc_cases inRange
    · have eq := Except.ok.inj ((joins_even lowU lowW').2.1.symm.trans start)
      omega
    · have eq := Except.ok.inj ((joins_odd lowU lowW').2.1.symm.trans start)
      exact ⟨u, by omega, by rw [show w' = w by omega]⟩

theorem consistent_of_full (pos1 : 0 < n1) (pos2 : 0 < n2) :
    (denseBiGraph n1 n2 ucap).Consistent false := by
  have edge : ∀ e u v, (denseBiGraph n1 n2 ucap).Joins (2 * e) u v →
      u < n1 ∧ v = n1 + (v - n1) ∧ e = u * n2 + (v - n1) := by
    intro e u v joins
    obtain ⟨u', w, lowU, lowW, code | code⟩ := arc_cases joins.1
    · obtain ⟨rfl, rfl⟩ := joins.unique (code ▸ joins_even lowU lowW)
      exact ⟨lowU, by omega, by rw [Nat.add_sub_cancel_left]; omega⟩
    · omega
  refine ⟨?_, ?_, ?_, ?_, ?_, ?_, ?_⟩
  · intro a inRange
    obtain ⟨u, w, lowU, lowW, rfl | rfl⟩ := arc_cases inRange
    · exact ⟨u, n1 + w, show u < n1 + n2 by omega, show n1 + w < n1 + n2 by omega,
        joins_even lowU lowW⟩
    · exact ⟨n1 + w, u, show n1 + w < n1 + n2 by omega, show u < n1 + n2 by omega,
        joins_odd lowU lowW⟩
  · intro u v a found
    change adjacency n1 n2 ucap u v = _ at found
    by_cases range : u < n1 + n2 ∧ v < n1 + n2
    · by_cases forth : u < n1 ∧ n1 ≤ v
      · obtain ⟨w, rfl⟩ := Nat.exists_eq_add_of_le forth.2
        rw [adjacency_forth forth.1 (by omega),
          if_pos (full _ (product_lt forth.1 (by omega)))] at found
        cases found
        exact joins_even forth.1 (by omega)
      by_cases back : v < n1 ∧ n1 ≤ u
      · obtain ⟨w, rfl⟩ := Nat.exists_eq_add_of_le back.2
        rw [adjacency_back back.1 (by omega),
          if_pos (full _ (product_lt back.1 (by omega)))] at found
        cases found
        exact joins_odd back.1 (by omega)
      · rw [adjacency, if_neg (by omega), if_neg (by omega),
          if_neg (by omega : ¬ (n1 ≤ v ∧ u < n1)),
          if_neg (by omega : ¬ (n1 ≤ u ∧ v < n1))] at found
        simp at found
    · rw [adjacency] at found
      split_ifs at found <;> omega
  · intro a u v joins
    obtain ⟨u', w, lowU, lowW, rfl | rfl⟩ := arc_cases joins.1
    · obtain ⟨rfl, rfl⟩ := joins.unique (joins_even lowU lowW)
      exact ⟨_, (adjacency_forth lowU lowW).trans (by rw [if_pos (full _ (product_lt lowU lowW))])⟩
    · obtain ⟨rfl, rfl⟩ := joins.unique (joins_odd lowU lowW)
      exact ⟨_, (adjacency_back lowU lowW).trans (by rw [if_pos (full _ (product_lt lowU lowW))])⟩
  · intro a inRange
    obtain ⟨u, w, lowU, lowW, rfl | rfl⟩ := arc_cases inRange
    · rw [xor_one_even (by omega), (joins_even lowU lowW).2.2, (joins_odd lowU lowW).2.1]
    · rw [xor_one_odd (by omega), Nat.add_sub_cancel, (joins_odd lowU lowW).2.2,
        (joins_even lowU lowW).2.1]
  · intro e e' u v joins joins'
    rw [(edge e u v joins).2.2, (edge e' u v joins').2.2]
  · intro _ e e' u v joins joins'
    have first := edge e u v joins
    have second := edge e' v u joins'
    omega
  · intro u lowU
    have range : u < n1 + n2 := lowU
    by_cases outer : u < n1
    · exact lists_outer full outer pos2
    · obtain ⟨w, rfl⟩ := Nat.exists_eq_add_of_le (not_lt.1 outer)
      exact lists_inner full (by omega) pos1

end Full

theorem full_of_consistent (consistent : (denseBiGraph n1 n2 ucap).Consistent false)
    (inRange : e < n1 * n2) : ucap e ≠ 0 := by
  intro zero
  obtain ⟨u, w, lowU, lowW, rfl⟩ := exists_product inRange
  obtain ⟨b, found⟩ := consistent.adjacency_some _ u (n1 + w) (joins_even lowU lowW)
  change adjacency n1 n2 ucap u (n1 + w) = _ at found
  rw [adjacency_forth lowU lowW, if_neg (not_not.2 zero)] at found
  cases found

end DenseBiGraph

/-- **Dense graphs are consistent exactly without cancelled arcs in bigraphs.** The arc numbering
and the incidence lists of the three dense classes agree, whatever the capacities of a `denseGraph`
and a `denseDiGraph` are, if and only if no arc of the `denseBiGraph` has the capacity zero. -/
theorem dense_consistent {n n1 n2 : ℕ} (ucap : ℕ → ℚ) (pos : 1 ≤ n1 ∧ 1 ≤ n2) :
    ((denseGraph n).Consistent false ∧ (denseDiGraph n).Consistent true ∧
      (denseBiGraph n1 n2 ucap).Consistent false) ↔ ∀ e, e < n1 * n2 → ucap e ≠ 0 := by
  constructor
  · exact fun ⟨_, _, consistent⟩ e inRange => DenseBiGraph.full_of_consistent consistent inRange
  · exact fun full => ⟨DenseGraph.consistent n, DenseDiGraph.consistent n,
      DenseBiGraph.consistent_of_full full pos.1 pos.2⟩

/-- The only arc of the bigraph is cancelled: `First` returns `NoArc` at its start node. -/
theorem dense_inconsistent : (denseBiGraph 1 1 fun _ => 0).first 0 = .ok none ∧
    (denseBiGraph 1 1 fun _ => 0).startNode 0 = .ok 0 ∧
    ¬ ((denseGraph 1).Consistent false ∧ (denseDiGraph 1).Consistent true ∧
      (denseBiGraph 1 1 fun _ => 0).Consistent false) :=
  ⟨rfl, rfl, fun consistent =>
    DenseBiGraph.full_of_consistent consistent.2.2 (by decide : 0 < 1 * 1) rfl⟩

theorem dense_consistent_units : (denseGraph 3).Consistent false ∧
    (denseDiGraph 3).Consistent true ∧ (denseBiGraph 2 3 fun _ => 1).Consistent false :=
  (dense_consistent (fun _ => 1) (by decide)).2 (by simp)

end Goblin
