import Goblin.DigraphToDigraph

/-!
# Elimination of node imbalances

A `digraphToDigraph` is set up with a flow whose artificial arcs carry the imbalances of the
original flow. In this network the net inflow of every original node is its demand. A maximum flow
drains the artificial arcs as far as possible, and if it drains all of them, the original flow
meets the demands.
-/

set_option autoImplicit false

namespace Goblin

open Library Finset Finset

variable {f x : ℕ → ℚ} {i v : ℕ}

/-! ## Flows on graphs -/

namespace Accessors

variable (N : Accessors)

/-- The flow that enters a node minus the flow that leaves it. -/
def netInflow (f : ℕ → ℚ) (v : ℕ) : ℚ :=
  ∑ e ∈ range N.m, ((if N.startNode (2 * e + 1) = some v then f e else 0) -
    if N.startNode (2 * e) = some v then f e else 0)

/-- The flow respects the capacities. -/
def WithinBounds (f : ℕ → ℚ) : Prop :=
  ∀ e, e < N.m → N.lcap (2 * e) ≤ f e ∧ f e ≤ N.ucap (2 * e)

/-- What `MaxFlow` computes: `g` is a maximum flow from `s` to `t` among all flows that have at
the other nodes the net inflow of the initial flow `f`. -/
structure MaximumFlow (s t : ℕ) (f g : ℕ → ℚ) : Prop where
  within : N.WithinBounds g
  kept : ∀ v, v < N.n → v ≠ s → v ≠ t → N.netInflow g v = N.netInflow f v
  maximal : ∀ h, N.WithinBounds h →
    (∀ v, v < N.n → v ≠ s → v ≠ t → N.netInflow h v = N.netInflow f v) →
      N.netInflow h t ≤ N.netInflow g t

variable {N}

/-- The net inflow only depends on the flow of the arcs. -/
theorem netInflow_congr {g : ℕ → ℚ} (eq : ∀ e, e < N.m → f e = g e) (v : ℕ) :
    N.netInflow f v = N.netInflow g v :=
  sum_congr rfl fun e mem => by rw [eq e (mem_range.mp mem)]

theorem sum_netInflow (start : ∀ a, a < 2 * N.m → ∃ v, v < N.n ∧ N.startNode a = some v)
    (f : ℕ → ℚ) : ∑ v ∈ range N.n, N.netInflow f v = 0 := by
  have once : ∀ a, a < 2 * N.m → ∀ x : ℚ,
      (∑ v ∈ range N.n, if N.startNode a = some v then x else 0) = x := by
    intro a low x
    obtain ⟨w, lowW, at_⟩ := start a low
    simp only [at_, Option.some_inj]
    rw [sum_ite_eq, if_pos (mem_range.mpr lowW)]
  unfold netInflow
  rw [sum_comm]
  refine sum_eq_zero fun e mem => ?_
  rw [mem_range] at mem
  rw [sum_sub_distrib, once _ (by omega), once _ (by omega), sub_self]

end Accessors

namespace DigraphToDigraph

variable (G : Accessors) (demand flow : ℕ → ℚ)

/-! ## The constructor -/

/-- The loop that adds up the flow which leaves a node. It skips loops. -/
def imbalance : ℕ → ℚ :=
  (List.range G.m).foldl (fun out i =>
    if G.startNode (2 * i) = G.endNode (2 * i) then out
    else fun w => out w + (if G.startNode (2 * i) = some w then flow i else 0) -
      if G.endNode (2 * i) = some w then flow i else 0) fun _ => 0

/-- The capacities of the artificial arcs, and the flow which they carry first. -/
def artificial (i : ℕ) : ℚ :=
  if i < G.n then
    if imbalance G flow i + demand i < 0 then 0 else imbalance G flow i + demand i
  else if i < 2 * G.n then
    if imbalance G flow (i - G.n) + demand (i - G.n) < 0 then
      -(imbalance G flow (i - G.n) + demand (i - G.n))
    else 0
  else 0

/-- The network of the constructor. -/
def imbalanced : Accessors := network G ⟨artificial G demand flow, none⟩

/-- `Flow`, as the constructor leaves it. -/
def initialFlow (e : ℕ) : ℚ :=
  if e < G.m then flow e else artificial G demand flow (e - G.m)

def perfect (f : ℕ → ℚ) : Bool :=
  (List.range G.n).all fun v => !decide (0 < f (G.m + v))

/-! ## The net inflow -/

variable {G} {demand flow} {L : Labels}

theorem imbalance_eq (v : ℕ) : imbalance G flow v = -G.netInflow flow v := by
  have loop : ∀ count, count ≤ G.m → ∀ w, (List.range count).foldl (fun out i =>
      if G.startNode (2 * i) = G.endNode (2 * i) then out
      else fun w => out w + (if G.startNode (2 * i) = some w then flow i else 0) -
        if G.endNode (2 * i) = some w then flow i else 0) (fun _ => 0) w =
      -∑ e ∈ range count, ((if G.startNode (2 * e + 1) = some w then flow e else 0) -
        if G.startNode (2 * e) = some w then flow e else 0) := by
    intro count bound w
    induction count with
    | zero => simp
    | succ count ih =>
      have reverse : G.endNode (2 * count) = G.startNode (2 * count + 1) := by
        rw [Accessors.endNode, if_pos (by omega), xor_one_even (by omega)]
      rw [List.range_succ, List.foldl_append, sum_range_succ, neg_add, ← ih (by omega),
        List.foldl_cons, List.foldl_nil, reverse]
      by_cases isLoop : G.startNode (2 * count) = G.startNode (2 * count + 1)
      · rw [if_pos isLoop, isLoop, sub_self, neg_zero, add_zero]
      · rw [if_neg isLoop]
        ring
  exact loop G.m le_rfl v

theorem artificial_starts (low : i < G.n) :
    (startNode G (2 * (G.m + i)) = some (t1 G) ∧ startNode G (2 * (G.m + i) + 1) = some i) ∧
      startNode G (2 * (G.m + G.n + i)) = some i ∧
      startNode G (2 * (G.m + G.n + i) + 1) = some (s1 G) :=
  ⟨⟨startNode_first (r := 0) low (by decide), startNode_first low (by decide)⟩,
    startNode_second (r := 0) low (by decide), startNode_second low (by decide)⟩

theorem netInflow_parts (f : ℕ → ℚ) (u : ℕ) : (network G L).netInflow f u = G.netInflow f u +
      ∑ i ∈ range G.n, ((if i = u then f (G.m + i) else 0) - if t1 G = u then f (G.m + i) else 0) +
      ∑ i ∈ range G.n, ((if s1 G = u then f (G.m + G.n + i) else 0) -
        if i = u then f (G.m + G.n + i) else 0) + ((if s1 G = u then f (G.m + G.n + G.n) else 0) -
        if t1 G = u then f (G.m + G.n + G.n) else 0) := by
  obtain ⟨-, -, eq1⟩ := sizes (G := G)
  have eqM : (network G L).m = G.m + G.n + G.n + 1 := by
    change G.m + 2 * G.n + 1 = _
    omega
  have atRet : startNode G (2 * (G.m + G.n + G.n)) = some (t1 G) ∧
      startNode G (2 * (G.m + G.n + G.n) + 1) = some (s1 G) := by
    rw [show 2 * (G.m + G.n + G.n) = ret1 G by omega]
    exact ⟨startNode_ret1 (r := 0) (by decide), startNode_ret1 (by decide)⟩
  rw [Accessors.netInflow, eqM, sum_range_add, sum_range_add, sum_range_add, sum_range_one]
  congr 1
  · congr 1
    · congr 1
      · refine sum_congr rfl fun e mem => ?_
        rw [mem_range] at mem
        change ((if startNode G (2 * e + 1) = some u then f e else 0) -
          if startNode G (2 * e) = some u then f e else 0) = _
        rw [startNode_edge (by omega), startNode_edge (by omega)]
      · refine sum_congr rfl fun i mem => ?_
        obtain ⟨⟨start, reverse⟩, -⟩ := artificial_starts (mem_range.mp mem)
        change ((if startNode G (2 * (G.m + i) + 1) = some u then f (G.m + i) else 0) -
          if startNode G (2 * (G.m + i)) = some u then f (G.m + i) else 0) = _
        simp only [start, reverse, Option.some_inj]
    · refine sum_congr rfl fun i mem => ?_
      obtain ⟨-, start, reverse⟩ := artificial_starts (mem_range.mp mem)
      change ((if startNode G (2 * (G.m + G.n + i) + 1) = some u then f (G.m + G.n + i) else 0) -
        if startNode G (2 * (G.m + G.n + i)) = some u then f (G.m + G.n + i) else 0) = _
      simp only [start, reverse, Option.some_inj]
  · change ((if startNode G (2 * (G.m + G.n + G.n) + 1) = some u then f (G.m + G.n + G.n) else 0) -
      if startNode G (2 * (G.m + G.n + G.n)) = some u then f (G.m + G.n + G.n) else 0) = _
    simp only [atRet.1, atRet.2, Option.some_inj]

theorem netInflow_original (f : ℕ → ℚ) (low : v < G.n) :
    (network G L).netInflow f v = G.netInflow f v + f (G.m + v) - f (G.m + G.n + v) := by
  obtain ⟨eqt1, eqs1, -⟩ := sizes (G := G)
  have notT : t1 G ≠ v := by omega
  have notS : s1 G ≠ v := by omega
  have inside : v ∈ range G.n := mem_range.mpr low
  rw [netInflow_parts]
  simp only [if_neg notT, if_neg notS, sub_zero, zero_sub, sum_neg_distrib,
    sum_ite_eq', if_pos inside, add_zero]
  ring

theorem netInflow_sink (start : ∀ a, a < 2 * G.m → ∃ v, v < G.n ∧
    G.startNode a = some v) (f : ℕ → ℚ) : (network G L).netInflow f (t1 G) =
      -∑ i ∈ range G.n, f (G.m + i) - f (G.m + G.n + G.n) := by
  obtain ⟨eqt1, eqs1, -⟩ := sizes (G := G)
  have notS : s1 G ≠ t1 G := by omega
  have out : t1 G ∉ range G.n := by
    rw [mem_range]
    omega
  have none : G.netInflow f (t1 G) = 0 := by
    refine sum_eq_zero fun e mem => ?_
    rw [mem_range] at mem
    obtain ⟨u, lowU, atU⟩ := start (2 * e) (by omega)
    obtain ⟨v, lowV, atV⟩ := start (2 * e + 1) (by omega)
    rw [atU, atV, if_neg (by simp; omega), if_neg (by simp; omega), sub_zero]
  rw [netInflow_parts, none]
  simp only [if_neg notS, if_true, sum_sub_distrib, sum_ite_eq', if_neg out, sum_const_zero]
  ring

/-! ## Maximum flows drain the artificial arcs -/

section

variable (G : Accessors) (demand : ℕ → ℚ)

/-- What a node is short of. -/
def deficit (x : ℕ → ℚ) (v : ℕ) : ℚ := demand v - G.netInflow x v

/-- No node is further from its demand than with the initial flow, and none is beyond. -/
def Between (flow x : ℕ → ℚ) : Prop :=
  ∀ v, v < G.n → 0 ≤ deficit G demand x v ∧ deficit G demand x v ≤ deficit G demand flow v ∨
    deficit G demand flow v ≤ deficit G demand x v ∧ deficit G demand x v ≤ 0

/-- What all nodes together are short of. -/
def shortfall (x : ℕ → ℚ) : ℚ :=
  ∑ v ∈ range G.n, max (deficit G demand x v) 0

end

/-- Among the flows within some bounds, one that comes as close to the demands as possible. -/
structure Closest (G : Accessors) (bounds : (ℕ → ℚ) → Prop) (demand flow x : ℕ → ℚ) : Prop where
  within : bounds x
  between : Between G demand flow x
  least : ∀ y, bounds y → Between G demand flow y → shortfall G demand x ≤ shortfall G demand y

/-- A flow of the original graph, with the deficits on the artificial arcs. -/
def completed (G : Accessors) (demand x : ℕ → ℚ) (e : ℕ) : ℚ :=
  if e < G.m then x e
  else if e - G.m < G.n then max (deficit G demand x (e - G.m)) 0
  else if e - G.m < 2 * G.n then max (-deficit G demand x (e - G.m - G.n)) 0
  else 0

theorem artificial_parts (demand flow : ℕ → ℚ) (low : v < G.n) :
    artificial G demand flow v = max (deficit G demand flow v) 0 ∧
      artificial G demand flow (G.n + v) = max (-deficit G demand flow v) 0 := by
  have div : imbalance G flow v + demand v = deficit G demand flow v := by
    rw [imbalance_eq, deficit]
    ring
  have first : artificial G demand flow v =
      if imbalance G flow v + demand v < 0 then 0 else imbalance G flow v + demand v := if_pos low
  have second : artificial G demand flow (G.n + v) =
      if imbalance G flow v + demand v < 0 then -(imbalance G flow v + demand v) else 0 := by
    rw [artificial, if_neg (by omega), if_pos (by omega), Nat.add_sub_cancel_left]
  rw [first, second, div]
  split_ifs with neg
  · rw [max_eq_right neg.le, max_eq_left (by linarith)]
    exact ⟨rfl, rfl⟩
  · rw [max_eq_left (not_lt.mp neg), max_eq_right (by linarith)]
    exact ⟨rfl, rfl⟩

theorem initialFlow_artificial (i : ℕ) :
    initialFlow G demand flow (G.m + i) = artificial G demand flow i := by
  rw [initialFlow, if_neg (by omega), Nat.add_sub_cancel_left]

theorem netInflow_initialFlow (low : v < G.n) :
    (imbalanced G demand flow).netInflow (initialFlow G demand flow) v = demand v := by
  have edges : G.netInflow (initialFlow G demand flow) v = G.netInflow flow v :=
    Accessors.netInflow_congr (fun e lowE => if_pos lowE) v
  obtain ⟨first, second⟩ := artificial_parts demand flow low
  have parts := max_zero_sub_max_neg_zero_eq_self (deficit G demand flow v)
  rw [imbalanced, netInflow_original _ low, edges, initialFlow_artificial, Nat.add_assoc,
    initialFlow_artificial, first, second]
  rw [deficit] at parts ⊢
  linarith

section

variable (within : (imbalanced G demand flow).WithinBounds f)
include within

theorem within_original :
    G.WithinBounds f := by
  intro e low
  have bounds := within e (by change e < G.m + 2 * G.n + 1; omega)
  change lcap G (2 * e) ≤ _ ∧ _ ≤ ucap G _ (2 * e) at bounds
  rwa [lcap, ucap, if_pos (by omega), if_pos (by omega)] at bounds

theorem within_artificial
    (low : i < 2 * G.n + 1) : 0 ≤ f (G.m + i) ∧ f (G.m + i) ≤ artificial G demand flow i := by
  have bounds := within (G.m + i) (by change G.m + i < G.m + 2 * G.n + 1; omega)
  change lcap G _ ≤ _ ∧ _ ≤ ucap G _ _ at bounds
  rw [lcap, ucap, if_neg (by omega), if_neg (by omega),
    show 2 * (G.m + i) / 2 - G.m = i by omega] at bounds
  exact bounds

end

theorem perfect_iff : perfect G f = true ↔ ∀ v, v < G.n → f (G.m + v) ≤ 0 := by
  simp [perfect]

/-! ### From a flow of the network to the original graph -/

/-- The flows among which a maximum flow is found. -/
structure Competes (G : Accessors) (demand flow f : ℕ → ℚ) : Prop where
  within : (imbalanced G demand flow).WithinBounds f
  kept : ∀ v, v < G.n → (imbalanced G demand flow).netInflow f v = demand v

theorem competes_of_kept (within : (imbalanced G demand flow).WithinBounds f)
    (kept : ∀ v, v < (imbalanced G demand flow).n → v ≠ s1 G → v ≠ t1 G →
      (imbalanced G demand flow).netInflow f v =
        (imbalanced G demand flow).netInflow (initialFlow G demand flow) v) :
    Competes G demand flow f := by
  obtain ⟨eqt1, eqs1, -⟩ := sizes (G := G)
  refine ⟨within, fun v low => ?_⟩
  rw [kept v (by change v < G.n + 2; omega) (by omega) (by omega), netInflow_initialFlow low]

section

variable (competes : Competes G demand flow f)
include competes

/-- Only one of the artificial arcs of a node carries flow. -/
theorem Competes.parts (low : v < G.n) : f (G.m + v) = max (deficit G demand f v) 0 ∧
      (0 ≤ deficit G demand f v ∧ deficit G demand f v ≤ deficit G demand flow v ∨
        deficit G demand flow v ≤ deficit G demand f v ∧ deficit G demand f v ≤ 0) := by
  have kept := competes.kept v low
  obtain ⟨first, second⟩ := artificial_parts demand flow low
  have bounds := within_artificial competes.within (i := v) (by omega)
  have bounds' := within_artificial competes.within (i := G.n + v) (by omega)
  rw [imbalanced, netInflow_original f low] at kept
  rw [first] at bounds
  rw [second, ← Nat.add_assoc] at bounds'
  have short : deficit G demand f v = f (G.m + v) - f (G.m + G.n + v) := by
    rw [deficit]
    linarith
  rcases le_total 0 (deficit G demand flow v) with pos | neg
  · rw [max_eq_left pos] at bounds
    rw [max_eq_right (by linarith)] at bounds'
    have empty : f (G.m + G.n + v) = 0 := le_antisymm bounds'.2 bounds'.1
    rw [empty, sub_zero] at short
    rw [short, max_eq_left bounds.1]
    exact ⟨rfl, .inl bounds⟩
  · rw [max_eq_right neg] at bounds
    rw [max_eq_left (by linarith)] at bounds'
    have empty : f (G.m + v) = 0 := le_antisymm bounds.2 bounds.1
    rw [empty, zero_sub] at short
    rw [short, empty, max_eq_right (by linarith)]
    exact ⟨rfl, .inr ⟨by linarith, by linarith⟩⟩

theorem Competes.return_arc : f (G.m + G.n + G.n) = 0 := by
  have bounds := within_artificial competes.within (i := G.n + G.n) (by omega)
  rw [artificial, if_neg (by omega), if_neg (by omega), ← Nat.add_assoc] at bounds
  exact le_antisymm bounds.2 bounds.1

theorem Competes.between : Between G demand flow f := fun _ low => (competes.parts low).2

end

/-! ### From a flow of the original graph to the network -/

theorem completed_edge {e : ℕ} (low : e < G.m) : completed G demand x e = x e :=
  if_pos low

theorem completed_artificial (demand x : ℕ → ℚ) (low : v < G.n) :
    completed G demand x (G.m + v) = max (deficit G demand x v) 0 ∧
      completed G demand x (G.m + (G.n + v)) = max (-deficit G demand x v) 0 := by
  rw [completed, completed, if_neg (by omega), if_pos (by omega), if_neg (by omega),
    if_neg (by omega), if_pos (by omega), show G.m + v - G.m = v by omega,
    show G.m + (G.n + v) - G.m - G.n = v by omega]
  exact ⟨rfl, rfl⟩

theorem completed_return (x : ℕ → ℚ) : completed G demand x (G.m + (G.n + G.n)) = 0 := by
  rw [completed, if_neg (by omega), if_neg (by omega), if_neg (by omega)]

theorem completed_within (within : G.WithinBounds x) (between : Between G demand flow x) :
    (imbalanced G demand flow).WithinBounds (completed G demand x) := by
  intro e low
  change e < G.m + 2 * G.n + 1 at low
  change lcap G (2 * e) ≤ _ ∧ _ ≤ ucap G _ (2 * e)
  by_cases edge : e < G.m
  · rw [lcap, ucap, if_pos (by omega), if_pos (by omega), completed_edge edge]
    exact within e edge
  obtain ⟨i, rfl⟩ := Nat.exists_eq_add_of_le (not_lt.mp edge)
  rw [lcap, ucap, if_neg (by omega), if_neg (by omega), show 2 * (G.m + i) / 2 - G.m = i by omega]
  change 0 ≤ _ ∧ _ ≤ artificial G demand flow i
  by_cases first : i < G.n
  · rw [(completed_artificial demand x first).1, (artificial_parts demand flow first).1]
    refine ⟨le_max_right _ _, ?_⟩
    rcases between i first with ⟨-, less⟩ | ⟨-, neg⟩
    · exact max_le_max_right 0 less
    · rw [max_eq_right neg]
      exact le_max_right _ _
  · obtain ⟨j, rfl⟩ := Nat.exists_eq_add_of_le (not_lt.mp first)
    by_cases second : j < G.n
    · rw [(completed_artificial demand x second).2, (artificial_parts demand flow second).2]
      refine ⟨le_max_right _ _, ?_⟩
      rcases between j second with ⟨pos, -⟩ | ⟨less, -⟩
      · rw [max_eq_right (by linarith)]
        exact le_max_right _ _
      · exact max_le_max_right 0 (by linarith)
    · obtain rfl : j = G.n := by omega
      rw [completed_return, artificial, if_neg (by omega), if_neg (by omega)]
      exact ⟨le_rfl, le_rfl⟩

theorem completed_kept (x : ℕ → ℚ) (low : v < G.n) :
    (imbalanced G demand flow).netInflow (completed G demand x) v = demand v := by
  have edges : G.netInflow (completed G demand x) v = G.netInflow x v :=
    Accessors.netInflow_congr (fun e lowE => completed_edge lowE) v
  obtain ⟨first, second⟩ := completed_artificial demand x low
  have parts := max_zero_sub_max_neg_zero_eq_self (deficit G demand x v)
  rw [imbalanced, netInflow_original _ low, edges, Nat.add_assoc, first, second]
  rw [deficit] at parts ⊢
  linarith

/-! ### Maximum flows come closest to the demands -/

section Drained

variable (start : ∀ a, a < 2 * G.m → ∃ v, v < G.n ∧ G.startNode a = some v)
include start

theorem Competes.sink (competes : Competes G demand flow f) :
    (imbalanced G demand flow).netInflow f (t1 G) = -shortfall G demand f := by
  rw [imbalanced, netInflow_sink start, competes.return_arc, sub_zero, shortfall]
  exact congrArg _ (sum_congr rfl fun v mem =>
    (competes.parts (mem_range.mp mem)).1)

theorem completed_sink (x : ℕ → ℚ) :
    (imbalanced G demand flow).netInflow (completed G demand x) (t1 G) = -shortfall G demand x := by
  rw [imbalanced, netInflow_sink start, Nat.add_assoc, completed_return, sub_zero, shortfall]
  exact congrArg _ (sum_congr rfl fun v mem =>
    (completed_artificial demand x (mem_range.mp mem)).1)

theorem closest_of_maximum (maximum : (imbalanced G demand flow).MaximumFlow (s1 G)
    (t1 G) (initialFlow G demand flow) f) : Closest G G.WithinBounds demand flow f := by
  obtain ⟨eqt1, eqs1, -⟩ := sizes (G := G)
  have competes := competes_of_kept maximum.within maximum.kept
  refine ⟨within_original maximum.within, competes.between, fun y within between => ?_⟩
  have least := maximum.maximal (completed G demand y) (completed_within within between) (by
    intro v low notS notT
    change v < G.n + 2 at low
    rw [completed_kept y (by omega), netInflow_initialFlow (by omega)])
  rw [completed_sink start, competes.sink start] at least
  linarith

theorem maximum_of_closest (closest : Closest G G.WithinBounds demand flow x) :
    (imbalanced G demand flow).MaximumFlow (s1 G) (t1 G) (initialFlow G demand flow)
      (completed G demand x) := by
  obtain ⟨eqt1, eqs1, -⟩ := sizes (G := G)
  refine ⟨completed_within closest.within closest.between, ?_, ?_⟩
  · intro v low notS notT
    change v < G.n + 2 at low
    rw [completed_kept x (by omega), netInflow_initialFlow (by omega)]
  · intro h within kept
    have competes := competes_of_kept within kept
    rw [competes.sink start, completed_sink start]
    have least := closest.least h (within_original within) competes.between
    linarith

omit start in
theorem perfect_iff_shortfall (competes : Competes G demand flow f) :
    perfect G f = true ↔ shortfall G demand f ≤ 0 := by
  have nonneg : ∀ v ∈ range G.n, 0 ≤ max (deficit G demand f v) 0 := fun v _ =>
    le_max_right _ _
  rw [perfect_iff]
  constructor
  · intro drained
    refine sum_nonpos fun v mem => ?_
    rw [← (competes.parts (mem_range.mp mem)).1]
    exact drained v (mem_range.mp mem)
  · intro none v low
    have zero := le_antisymm none (sum_nonneg nonneg)
    rw [(competes.parts low).1]
    exact ((sum_eq_zero_iff_of_nonneg nonneg).mp zero v (mem_range.mpr low)).le

theorem shortfall_iff (balanced : ∑ v ∈ range G.n, demand v = 0) :
    shortfall G demand x ≤ 0 ↔ ∀ v, v < G.n → G.netInflow x v = demand v := by
  have nonneg : ∀ v ∈ range G.n, 0 ≤ max (deficit G demand x v) 0 := fun v _ =>
    le_max_right _ _
  constructor
  · intro none
    have zero := le_antisymm none (sum_nonneg nonneg)
    have below : ∀ v ∈ range G.n, 0 ≤ -deficit G demand x v := by
      intro v mem
      have here := (sum_eq_zero_iff_of_nonneg nonneg).mp zero v mem
      have := le_max_left (deficit G demand x v) 0
      linarith
    have total : ∑ v ∈ range G.n, -deficit G demand x v = 0 := by
      rw [sum_neg_distrib]
      simp only [deficit]
      rw [sum_sub_distrib, balanced, Accessors.sum_netInflow start, sub_zero, neg_zero]
    intro v low
    have here := (sum_eq_zero_iff_of_nonneg below).mp total v (mem_range.mpr low)
    rw [deficit] at here
    linarith
  · intro meets
    refine sum_nonpos fun v mem => ?_
    rw [deficit, meets v (mem_range.mp mem), sub_self, max_self]

theorem closest_of_admissible (bounds : (ℕ → ℚ) → Prop) (within : bounds x)
    (meets : ∀ v, v < G.n → G.netInflow x v = demand v)
    (balanced : ∑ v ∈ range G.n, demand v = 0) : Closest G bounds demand flow x := by
  refine ⟨within, fun v low => ?_, fun y _ _ => ?_⟩
  · rw [deficit, meets v low, sub_self]
    exact (le_total 0 (deficit G demand flow v)).imp (⟨le_rfl, ·⟩) (⟨·, le_rfl⟩)
  · have none := (shortfall_iff start balanced).mpr meets
    exact none.trans (sum_nonneg fun v _ => le_max_right _ _)

section

variable (balanced : ∑ v ∈ range G.n, demand v = 0)
  (maximum : (imbalanced G demand flow).MaximumFlow (s1 G) (t1 G) (initialFlow G demand flow) f)
include balanced maximum

theorem netInflow_of_perfect
    (drained : perfect G f = true) (low : v < G.n) : G.netInflow f v = demand v :=
  (shortfall_iff start balanced).mp
    ((perfect_iff_shortfall (competes_of_kept maximum.within maximum.kept)).mp drained) v low

/-- **A maximum flow drains the artificial arcs exactly if the demands can be met.** -/
theorem perfect_iff_admissible :
    perfect G f = true ↔ ∃ x, G.WithinBounds x ∧ ∀ v, v < G.n → G.netInflow x v = demand v := by
  have closest := closest_of_maximum start maximum
  constructor
  · intro drained
    exact ⟨f, closest.within, fun v low =>
      netInflow_of_perfect start balanced maximum drained low⟩
  · rintro ⟨x, within, meets⟩
    have admissible : Closest G G.WithinBounds demand flow x :=
      closest_of_admissible start G.WithinBounds within meets balanced
    rw [perfect_iff_shortfall (competes_of_kept maximum.within maximum.kept)]
    exact (closest.least x within admissible.between).trans
      ((shortfall_iff start balanced).mpr meets)

end

end Drained

end DigraphToDigraph

end Goblin
