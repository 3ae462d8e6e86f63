import Goblin.Accessors
import Goblin.BaseTypes

/-!
# The network of a balanced flow with odd cycles

The flow on the odd cycles of a balanced flow network is half integral. From every cycle one pair
of complementary nodes is chosen, and the flow on the cycle is made integral. What is lost by this
is carried by artificial arcs from the additional source and to the additional sink.
-/

set_option autoImplicit false

namespace Goblin

open Library List Option Function

variable {m0 k v a u fuel i r j : ℕ} {artifical : ℕ → ℕ} {S : List ℕ} {flow pi : ℕ → ℚ}

/-- A balanced flow network: nodes and arcs come in complementary pairs. -/
structure Accessors.Balanced (N : Accessors) : Prop where
  evenNodes : N.n % 2 = 0
  evenArcs : N.m % 2 = 0
  complementary : N.Complementary

namespace BalancedToBalanced

variable (G : Accessors)

/-! ## The constructor -/

/-- What the constructor works on: the flow and the labels `Q` of the original network, and the
artificial arcs. -/
structure State where
  flow : ℕ → ℚ
  Q : ℕ → ℕ
  artifical : ℕ → ℕ
  S : List ℕ
  k2 : ℕ

section

variable (a : ℕ) (lambda : ℚ) (flow : ℕ → ℚ)

def setSubRelative : Option (ℕ → ℚ) :=
  if 2 * G.m ≤ a then none
  else if (0 < flow (a / 2) ∧ |flow (a / 2) + lambda| < G.lcap a) ∨
      (G.ucap a < infCap ∧ G.ucap a < |flow (a / 2) + lambda|) then none
  else some (update flow (a / 2) (flow (a / 2) + lambda))

def push : Option (ℕ → ℚ) :=
  if 2 * G.m ≤ a then none
  else setSubRelative G a (if a % 2 = 1 then -lambda else lambda) flow

def balPush : Option (ℕ → ℚ) :=
  (push G a lambda flow).bind (push G (a ^^^ 2) lambda)

end

/-- `MakeIntegral` with the labels `Q`. -/
def makeIntegral (u : ℕ) : ℕ → ℕ → State → Option State
  | 0, _, _ => none
  | fuel + 1, w, st =>
    if w = u then some st
    else
      (balPush G (st.Q w ^^^ 1) (1 / 2) st.flow).bind fun flow =>
        (G.startNode (st.Q w)).bind fun next =>
          makeIntegral u fuel next { st with
            flow := flow
            Q := update (update st.Q w noArc) (w ^^^ 1) noArc }

/-- The node from which on the potential is not positive. -/
def canonical (pi : ℕ → ℚ) (Q : ℕ → ℕ) : ℕ → ℕ → Option ℕ
  | 0, _ => none
  | fuel + 1, v => if 0 < pi v then (G.startNode (Q v)).bind (canonical pi Q fuel) else some v

/-- One step of the loop over the roots. -/
def cancel (pi : ℕ → ℚ) (fuel root : ℕ) (st : State) : Option State :=
  if st.Q root = noArc then some st
  else
    (canonical G pi st.Q fuel root).bind fun v =>
      (makeIntegral G v fuel (v ^^^ 1) st).map fun st =>
        { st with
          artifical := update (update st.artifical v (2 * G.m + 4 * st.k2 + 2))
            (v ^^^ 1) (2 * G.m + 4 * st.k2 + 1)
          S := (v ^^^ 1) :: v :: st.S
          k2 := st.k2 + 1 }

/-- The loop over the roots. -/
def cancelAll (pi : ℕ → ℚ) (fuel : ℕ) : List ℕ → State → Option State
  | [], st => some st
  | root :: roots, st => (cancel G pi fuel root st).bind (cancelAll pi fuel roots)

/-- The loop that moves the canonical elements from the stack into `repr`. -/
def unstack : ℕ → List ℕ → (ℕ → ℕ) → Option (ℕ → ℕ)
  | 0, _, repr => some repr
  | k + 1, cv :: v :: S, repr =>
    unstack k S (update (update repr (2 * k) cv) (2 * k + 1) v)
  | _ + 1, _, _ => none

/-- The members of the object from which its methods are computed. -/
structure Members where
  k2 : ℕ
  artifical : ℕ → ℕ
  repr : ℕ → ℕ

/-- The constructor, for the potentials, the labels and the flow of the original network. -/
def construct (pi : ℕ → ℚ) (Q : ℕ → ℕ) (flow : ℕ → ℚ) (fuel : ℕ) : Option Members :=
  (cancelAll G pi fuel (List.range G.n) ⟨flow, Q, fun _ => noArc, [], 0⟩).bind fun st =>
    (unstack st.k2 st.S fun _ => 0).map fun repr => ⟨st.k2, st.artifical, repr⟩

/-! ## The network -/

variable (M : Members)

/-- The number of nodes. -/
def n : ℕ := G.n + 4

/-- The number of arcs. -/
def m : ℕ := G.m + 2 * M.k2 + 6

def s1 : ℕ := n G - 1
def t1 : ℕ := n G - 2
def s2 : ℕ := n G - 3
def t2 : ℕ := n G - 4
def ret2 : ℕ := 2 * m G M - 12
def art1 : ℕ := 2 * m G M - 8
def art2 : ℕ := 2 * m G M - 6
def ret1 : ℕ := 2 * m G M - 4

def startNode (a : ℕ) : Option ℕ :=
  let d2 := a / 2
  let r2 := a % 2
  let r4 := a % 4
  if d2 < G.m then G.startNode a
  else if d2 < G.m + 2 * M.k2 then
    if r4 = 0 then some (s2 G)
    else if r4 = 1 then some (M.repr (d2 - G.m))
    else if r4 = 2 then some (M.repr (d2 - G.m))
    else some (t2 G)
  else if d2 = art1 G M / 2 then
    if r2 = 1 then some (t2 G) else some (s1 G)
  else if d2 = art2 G M / 2 then
    if r2 = 1 then some (t1 G) else some (s2 G)
  else if a / 4 = ret2 G M / 4 then
    if r2 = 1 then some (s2 G) else some (t2 G)
  else if a / 4 = ret1 G M / 4 then
    if r2 = 1 then some (s1 G) else some (t1 G)
  else none

def first (v : ℕ) : Option ℕ :=
  if v < G.n then G.first v
  else if v = t2 G then some (ret2 G M)
  else if v = s2 G then some (ret2 G M ^^^ 1)
  else if v = t1 G then some (ret1 G M)
  else if v = s1 G then some (ret1 G M ^^^ 1)
  else none

/-- The bound `m0+2*(k2-1)` in unsigned arithmetic. -/
def lastPair : ℕ :=
  if 2 ≤ G.m + 2 * M.k2 then G.m + 2 * M.k2 - 2 else G.m + 2 * M.k2 + 2 ^ 64 - 2

def right (a u : ℕ) : Option ℕ :=
  let d2 := a / 2
  let r4 := a % 4
  if startNode G M a ≠ some u then none
  else if d2 < G.m then
    (G.right a u).bind fun ar =>
      (G.first u).bind fun af =>
        if ar ≠ af ∨ M.artifical u = noArc then some ar else some (M.artifical u)
  else if d2 < lastPair G M then
    if r4 = 0 then some (a + 4)
    else if r4 = 1 then G.first (M.repr (d2 - G.m))
    else if r4 = 2 then G.first (M.repr (d2 - G.m))
    else some (a + 4)
  else if d2 < G.m + 2 * M.k2 then
    if r4 = 0 then some (art2 G M)
    else if r4 = 1 then G.first (M.repr (d2 - G.m))
    else if r4 = 2 then G.first (M.repr (d2 - G.m))
    else some (art1 G M ^^^ 1)
  else if a / 4 = art1 G M / 4 then
    if r4 = 0 then some (ret1 G M ^^^ 1)
    else if r4 = 1 then some (ret2 G M)
    else if r4 = 2 then some (ret2 G M ^^^ 1)
    else some (ret1 G M)
  else if a / 4 = ret2 G M / 4 then
    if r4 = 0 then some (ret2 G M ^^^ 2)
    else if r4 = 1 then some (ret2 G M ^^^ 3)
    else if r4 = 2 then
      if 0 < M.k2 then some (M.artifical (M.repr 1) ^^^ 1) else some (art1 G M ^^^ 1)
    else
      if 0 < M.k2 then some (M.artifical (M.repr 0) ^^^ 1) else some (art2 G M)
  else if a / 4 = ret1 G M / 4 then
    if r4 = 0 then some (ret1 G M ^^^ 2)
    else if r4 = 1 then some (ret1 G M ^^^ 3)
    else if r4 = 2 then some (art2 G M ^^^ 1)
    else some (art1 G M)
  else none

def ucap (a : ℕ) : ℚ :=
  let d2 := a / 2
  let k1 := M.k2 / 2
  if d2 < G.m then G.ucap a
  else if d2 < G.m + 2 * M.k2 then 1
  else if a / 4 = ret2 G M / 4 then (k1 : ℕ)
  else if a / 4 = art1 G M / 4 then M.k2
  else 0

def lcap (a : ℕ) : ℚ :=
  if a / 2 < G.m then G.lcap a else 0

def length (a : ℕ) : ℚ :=
  if a / 2 < G.m then G.length a else 0

/-- The network as its methods present it. -/
def network : Accessors where
  n := n G
  m := m G M
  startNode := startNode G M
  first := first G M
  right := right G M
  ucap := ucap G M
  lcap := lcap G
  length := length G

/-! ## The canonical elements -/

section Canonical

variable {G} {M} {st st' : State}

/-- The stack of canonical elements with their artificial arcs. -/
def Stacked (m0 : ℕ) (artifical : ℕ → ℕ) : ℕ → List ℕ → Prop
  | 0, S => S = []
  | k + 1, S => ∃ v S', S = (v ^^^ 1) :: v :: S' ∧ artifical v = 2 * m0 + 4 * k + 2 ∧
      artifical (v ^^^ 1) = 2 * m0 + 4 * k + 1 ∧ Stacked m0 artifical k S'

theorem Stacked.congr {artifical' : ℕ → ℕ} (stacked : Stacked m0 artifical k S)
    (eq : ∀ v ∈ S, artifical' v = artifical v) : Stacked m0 artifical' k S := by
  induction k generalizing S with
  | zero => exact stacked
  | succ k ih =>
    obtain ⟨v, S', rfl, atV, atCv, rest⟩ := stacked
    refine ⟨v, S', rfl, ?_, ?_, ih rest fun w mem => eq w (by simp [mem])⟩
    · rw [eq v (by simp), atV]
    · rw [eq (v ^^^ 1) (by simp), atCv]

theorem Stacked.complement (stacked : Stacked m0 artifical k S) (mem : v ∈ S) : v ^^^ 1 ∈ S := by
  induction k generalizing S with
  | zero =>
    rw [stacked] at mem
    cases mem
  | succ k ih =>
    obtain ⟨w, S', rfl, -, -, rest⟩ := stacked
    simp only [mem_cons] at mem ⊢
    rcases mem with rfl | rfl | later
    · exact .inr (.inl (Nat.xor_xor_cancel_right w 1))
    · exact .inl rfl
    · exact .inr (.inr (ih rest later))

/-- The labels `Q` of an odd cycle are arcs that end in the labelled node. -/
def PredecessorLabels (G : Accessors) (Q : ℕ → ℕ) : Prop :=
  ∀ v, Q v < 2 * G.m → G.endNode (Q v) = some v

/-- The invariant of the loop over the roots. -/
structure Inv (G : Accessors) (st : State) : Prop where
  labels : PredecessorLabels G st.Q
  stacked : Stacked G.m st.artifical st.k2 st.S
  cleared : ∀ v ∈ st.S, st.Q v = noArc
  incident : ∀ v ∈ st.S, ∃ a, a < 2 * G.m ∧ G.startNode a = some v
  others : ∀ v, v ∉ st.S → st.artifical v = noArc

theorem balPush_low {lambda : ℚ} {flow' : ℕ → ℚ}
    (pushed : balPush G a lambda flow = some flow') : a < 2 * G.m := by
  by_contra high
  rw [balPush, push, if_pos (by omega)] at pushed
  cases pushed

theorem makeIntegral_frame {w : ℕ} (run : makeIntegral G u fuel w st = some st') :
    (∀ v, st'.Q v = st.Q v ∨ st'.Q v = noArc) ∧ st'.artifical = st.artifical ∧ st'.S = st.S ∧
      st'.k2 = st.k2 := by
  induction fuel generalizing w st with
  | zero => cases run
  | succ fuel ih =>
    rw [makeIntegral] at run
    split_ifs at run with eq
    · obtain rfl := some_inj.mp run
      exact ⟨fun v => .inl rfl, rfl, rfl, rfl⟩
    obtain ⟨flow, -, run⟩ := bind_eq_some_iff.mp run
    obtain ⟨next, -, run⟩ := bind_eq_some_iff.mp run
    obtain ⟨labels, artifical, stack, count⟩ := ih run
    refine ⟨fun v => ?_, artifical, stack, count⟩
    rcases labels v with kept | gone
    · simp only [update_apply] at kept
      split_ifs at kept
      · exact .inr kept
      · exact .inr kept
      · exact .inl kept
    · exact .inr gone

/-- The cycle is entered at the complement of `u`, so both have lost their labels. -/
theorem makeIntegral_cleared (run : makeIntegral G u fuel (u ^^^ 1) st = some st') :
    st.Q (u ^^^ 1) ^^^ 1 < 2 * G.m ∧ st'.Q u = noArc ∧ st'.Q (u ^^^ 1) = noArc := by
  cases fuel with
  | zero => cases run
  | succ fuel =>
    have apart' : u ^^^ 1 ≠ u := SparseState.rev_ne u
    rw [makeIntegral, if_neg apart'] at run
    obtain ⟨flow, pushed, run⟩ := bind_eq_some_iff.mp run
    obtain ⟨next, -, run⟩ := bind_eq_some_iff.mp run
    obtain ⟨labels, -, -, -⟩ := makeIntegral_frame run
    refine ⟨balPush_low pushed, ?_, ?_⟩
    · rcases labels u with kept | gone
      · refine kept.trans ?_
        simp only [Nat.xor_xor_cancel_right, update_self]
      · exact gone
    · rcases labels (u ^^^ 1) with kept | gone
      · refine kept.trans ?_
        simp only [Nat.xor_xor_cancel_right, update_of_ne apart', update_self]
      · exact gone

theorem cancel_inv (consistent : G.Consistent) (balanced : G.Balanced) {root : ℕ} (inv : Inv G st)
    (run : cancel G pi fuel root st = some st') : Inv G st' := by
  rw [cancel] at run
  split_ifs at run with unlabelled
  · obtain rfl := some_inj.mp run
    exact inv
  obtain ⟨v, -, run⟩ := bind_eq_some_iff.mp run
  obtain ⟨mid, integral, rfl⟩ := map_eq_some_iff.mp run
  obtain ⟨lowQ, atV, atCv⟩ := makeIntegral_cleared integral
  obtain ⟨kept, sameA, sameS, sameK⟩ := makeIntegral_frame integral
  have limit := consistent.limit
  have lowQ' : st.Q (v ^^^ 1) < 2 * G.m := SparseState.rev_lt.mp lowQ
  have ends := inv.labels _ lowQ'
  -- the label of the complement ends there, so both nodes have an arc of their own
  have startCv : G.startNode (st.Q (v ^^^ 1) ^^^ 1) = some (v ^^^ 1) := by
    rw [Accessors.endNode, if_pos lowQ'] at ends
    exact ends
  have startV : G.startNode (st.Q (v ^^^ 1) ^^^ 2) = some v := by
    rw [balanced.complementary.startNode _ lowQ', ends, map_some, Nat.xor_xor_cancel_right]
  have lowQ2 : st.Q (v ^^^ 1) ^^^ 2 < 2 * G.m := xor_two_lt balanced.evenArcs lowQ'
  -- a canonical element has no label any more, so this pair is a new one
  have newCv : v ^^^ 1 ∉ st.S := by
    intro mem
    have := inv.cleared _ mem
    omega
  have newV : v ∉ st.S := fun mem => newCv (inv.stacked.complement mem)
  have apart : v ^^^ 1 ≠ v := SparseState.rev_ne v
  rw [sameS, sameK, sameA]
  constructor
  · intro w lowW
    rcases kept w with eq | gone
    · exact eq ▸ inv.labels w (eq ▸ lowW)
    · simp only [gone] at lowW
      omega
  · refine ⟨v, st.S, rfl, ?_, ?_, inv.stacked.congr ?_⟩
    · simp only [update_of_ne apart.symm, update_self]
    · simp only [update_self]
    · intro w mem
      have w_ne : w ≠ v ^^^ 1 := fun eq => newCv (eq ▸ mem)
      have w_ne' : w ≠ v := fun eq => newV (eq ▸ mem)
      simp only [update_of_ne w_ne, update_of_ne w_ne']
  · intro w mem
    simp only [mem_cons] at mem
    rcases mem with rfl | rfl | earlier
    · exact atCv
    · exact atV
    · rcases kept w with eq | gone
      · exact eq.trans (inv.cleared w earlier)
      · exact gone
  · intro w mem
    simp only [mem_cons] at mem
    rcases mem with rfl | rfl | earlier
    · exact ⟨_, lowQ, startCv⟩
    · exact ⟨_, lowQ2, startV⟩
    · exact inv.incident w earlier
  · intro w out
    simp only [mem_cons, not_or] at out
    obtain ⟨w_ne, w_ne', older⟩ := out
    simp only [update_of_ne w_ne, update_of_ne w_ne']
    exact inv.others w older

theorem cancelAll_inv (consistent : G.Consistent) (balanced : G.Balanced) {roots : List ℕ}
    (inv : Inv G st) (run : cancelAll G pi fuel roots st = some st') : Inv G st' := by
  induction roots generalizing st with
  | nil =>
    obtain rfl := some_inj.mp run
    exact inv
  | cons root roots ih =>
    obtain ⟨mid, first, rest⟩ := bind_eq_some_iff.mp run
    exact ih (cancel_inv consistent balanced inv first) rest

/-- The canonical elements and their artificial arcs, as the methods of the network find them. -/
structure Represented (G : Accessors) (M : Members) : Prop where
  arc : ∀ j, j < 2 * M.k2 → M.artifical (M.repr j) = 2 * G.m + 2 * j + (1 - j % 2)
  incident : ∀ j, j < 2 * M.k2 → ∃ a, a < 2 * G.m ∧ G.startNode a = some (M.repr j)
  complement : ∀ j, j < 2 * M.k2 → M.repr (j ^^^ 1) = M.repr j ^^^ 1
  others : ∀ v, (∀ j, j < 2 * M.k2 → M.repr j ≠ v) → M.artifical v = noArc

/-- What the loop over the stack writes into `repr`. -/
theorem unstack_spec {repr repr' : ℕ → ℕ} (stacked : Stacked m0 artifical k S)
    (run : unstack k S repr = some repr') : (∀ j, 2 * k ≤ j → repr' j = repr j) ∧
      (∀ j, j < 2 * k → artifical (repr' j) = 2 * m0 + 2 * j + (1 - j % 2) ∧ repr' j ∈ S ∧
        repr' (j ^^^ 1) = repr' j ^^^ 1) ∧ ∀ v ∈ S, ∃ j, j < 2 * k ∧ repr' j = v := by
  induction k generalizing S repr with
  | zero =>
    obtain rfl := some_inj.mp run
    rw [stacked]
    refine ⟨fun j _ => rfl, fun j low => by omega, fun v mem => ?_⟩
    cases mem
  | succ k ih =>
    obtain ⟨v, S', rfl, atV, atCv, rest⟩ := stacked
    obtain ⟨above, below, all⟩ := ih rest run
    have atTop : repr' (2 * k + 1) = v := (above _ (by omega)).trans (update_self ..)
    have atNext : repr' (2 * k) = v ^^^ 1 := by
      rw [above _ le_rfl, update_of_ne (by omega), update_self]
    have up : (2 * k) ^^^ 1 = 2 * k + 1 := xor_one_even (by omega)
    have down : (2 * k + 1) ^^^ 1 = 2 * k := xor_one_odd (by omega)
    refine ⟨?_, ?_, ?_⟩
    · intro j high
      rw [above j (by omega), update_of_ne (by omega), update_of_ne (by omega)]
    · intro j low
      have cases' : j < 2 * k ∨ j = 2 * k ∨ j = 2 * k + 1 := by omega
      rcases cases' with earlier | rfl | rfl
      · obtain ⟨arc, mem, complement⟩ := below j earlier
        exact ⟨arc, by simp [mem], complement⟩
      · rw [atNext, atCv, up, atTop, Nat.xor_xor_cancel_right]
        exact ⟨by omega, by simp, rfl⟩
      · rw [atTop, atV, down, atNext]
        exact ⟨by omega, by simp, rfl⟩
    · intro w mem
      simp only [mem_cons] at mem
      rcases mem with rfl | rfl | earlier
      · exact ⟨2 * k, by omega, atNext⟩
      · exact ⟨2 * k + 1, by omega, atTop⟩
      · obtain ⟨j, low, eq⟩ := all w earlier
        exact ⟨j, by omega, eq⟩

theorem construct_represented (consistent : G.Consistent) (balanced : G.Balanced) {Q : ℕ → ℕ}
    (labels : PredecessorLabels G Q)
    (built : construct G pi Q flow fuel = some M) : Represented G M := by
  obtain ⟨st, run, built⟩ := bind_eq_some_iff.mp built
  obtain ⟨repr, moved, rfl⟩ := map_eq_some_iff.mp built
  have start : Inv G ⟨flow, Q, fun _ => noArc, [], 0⟩ := by
    refine ⟨labels, rfl, ?_, ?_, fun _ _ => rfl⟩
    · intro v mem
      cases mem
    · intro v mem
      cases mem
  have inv := cancelAll_inv consistent balanced start run
  obtain ⟨-, below, all⟩ := unstack_spec inv.stacked moved
  constructor
  · intro j low
    exact (below j low).1
  · intro j low
    exact inv.incident _ (below j low).2.1
  · intro j low
    exact (below j low).2.2
  · intro v out
    refine inv.others v fun mem => ?_
    obtain ⟨j, low, eq⟩ := all v mem
    exact out j low eq

end Canonical

/-! ## Arcs by their index -/

section Arcs

variable {G} {M}

theorem sizes (even : G.m % 2 = 0) : t2 G = G.n ∧ s2 G = G.n + 1 ∧ t1 G = G.n + 2 ∧
    s1 G = G.n + 3 ∧ ret2 G M = 4 * (G.m / 2 + M.k2) ∧ art1 G M = 4 * (G.m / 2 + M.k2 + 1) ∧
    art2 G M = 4 * (G.m / 2 + M.k2 + 1) + 2 ∧ ret1 G M = 4 * (G.m / 2 + M.k2 + 2) := by
  simp only [t2, s2, t1, s1, ret2, art1, art2, ret1, n, m]
  omega

theorem startNode_edge (low : a < 2 * G.m) : startNode G M a = G.startNode a :=
  if_pos (by omega)

section

variable (even : G.m % 2 = 0)
include even

theorem startNode_pair (low : i < M.k2) (lowR : r < 4) :
    startNode G M (4 * (G.m / 2 + i) + r) = some (if r = 0 then s2 G
      else if r = 1 then M.repr (2 * i) else if r = 2 then M.repr (2 * i + 1) else t2 G) := by
  rw [startNode, if_neg (by omega), if_pos (by omega),
    show (4 * (G.m / 2 + i) + r) % 4 = r by omega]
  by_cases lower : r < 2
  · rw [show (4 * (G.m / 2 + i) + r) / 2 - G.m = 2 * i by omega]
    split_ifs <;> first | rfl | omega
  · rw [show (4 * (G.m / 2 + i) + r) / 2 - G.m = 2 * i + 1 by omega]
    split_ifs <;> first | rfl | omega

theorem startNode_ret2 (lowR : r < 4) :
    startNode G M (ret2 G M + r) = some (if r % 2 = 1 then s2 G else t2 G) := by
  obtain ⟨-, -, -, -, eq2, eqA1, eqA2, eq1⟩ := sizes (M := M) even
  rw [startNode, if_neg (by omega), if_neg (by omega), if_neg (by omega), if_neg (by omega),
    if_pos (by omega), show (ret2 G M + r) % 2 = r % 2 by omega]
  split_ifs <;> rfl

theorem startNode_art (lowR : r < 4) :
    startNode G M (art1 G M + r) = some (if r = 0 then s1 G else if r = 1 then t2 G
      else if r = 2 then s2 G else t1 G) := by
  obtain ⟨-, -, -, -, eq2, eqA1, eqA2, eq1⟩ := sizes (M := M) even
  rw [startNode]
  interval_cases r
  · rw [if_neg (by omega), if_neg (by omega), if_pos (by omega), if_neg (by omega)]
    rfl
  · rw [if_neg (by omega), if_neg (by omega), if_pos (by omega), if_pos (by omega)]
    rfl
  · rw [if_neg (by omega), if_neg (by omega), if_neg (by omega), if_pos (by omega),
      if_neg (by omega)]
    rfl
  · rw [if_neg (by omega), if_neg (by omega), if_neg (by omega), if_pos (by omega),
      if_pos (by omega)]
    rfl

theorem startNode_ret1 (lowR : r < 4) :
    startNode G M (ret1 G M + r) = some (if r % 2 = 1 then s1 G else t1 G) := by
  obtain ⟨-, -, -, -, eq2, eqA1, eqA2, eq1⟩ := sizes (M := M) even
  rw [startNode, if_neg (by omega), if_neg (by omega), if_neg (by omega), if_neg (by omega),
    if_neg (by omega), if_pos (by omega), show (ret1 G M + r) % 2 = r % 2 by omega]
  split_ifs <;> rfl

/-- The kinds of arcs. -/
inductive ArcKind (G : Accessors) (M : Members) : ℕ → Prop
  | edge (b : ℕ) (low : b < 2 * G.m) : ArcKind G M b
  | pair (i r : ℕ) (low : i < M.k2) (lowR : r < 4) : ArcKind G M (4 * (G.m / 2 + i) + r)
  | ret2 (r : ℕ) (lowR : r < 4) : ArcKind G M (ret2 G M + r)
  | art (r : ℕ) (lowR : r < 4) : ArcKind G M (art1 G M + r)
  | ret1 (r : ℕ) (lowR : r < 4) : ArcKind G M (ret1 G M + r)

theorem arcKind (low : a < 2 * m G M) : ArcKind G M a := by
  obtain ⟨-, -, -, -, eq2, eqA1, eqA2, eq1⟩ := sizes (M := M) even
  rw [m] at low
  by_cases edge : a < 2 * G.m
  · exact .edge a edge
  by_cases pairs : a < BalancedToBalanced.ret2 G M
  · rw [show a = 4 * (G.m / 2 + (a / 4 - G.m / 2)) + a % 4 by omega]
    exact .pair _ _ (by omega) (by omega)
  by_cases two : a < art1 G M
  · rw [show a = BalancedToBalanced.ret2 G M + (a - BalancedToBalanced.ret2 G M) by omega]
    exact .ret2 _ (by omega)
  by_cases one : a < BalancedToBalanced.ret1 G M
  · rw [show a = art1 G M + (a - art1 G M) by omega]
    exact .art _ (by omega)
  · rw [show a = BalancedToBalanced.ret1 G M + (a - BalancedToBalanced.ret1 G M) by omega]
    exact .ret1 _ (by omega)

theorem members_iff {P : ℕ → Prop} (low : ∀ a, P a → a < 2 * m G M)
    (edges : ∀ a, a < 2 * G.m → (P a ↔ G.startNode a = some u))
    (pairs : ∀ i r, i < M.k2 → r < 4 → (P (4 * (G.m / 2 + i) + r) ↔ (if r = 0 then s2 G
      else if r = 1 then M.repr (2 * i) else if r = 2 then M.repr (2 * i + 1) else t2 G) = u))
    (single : ∀ r, r < 4 → (P (ret2 G M + r) ↔ (if r % 2 = 1 then s2 G else t2 G) = u) ∧
      (P (art1 G M + r) ↔ (if r = 0 then s1 G else if r = 1 then t2 G
        else if r = 2 then s2 G else t1 G) = u) ∧
      (P (ret1 G M + r) ↔ (if r % 2 = 1 then s1 G else t1 G) = u))
    (a : ℕ) : P a ↔ a < 2 * m G M ∧ startNode G M a = some u := by
  refine iff_below (low a) fun lowA => ?_
  cases arcKind even lowA with
  | edge _ lowB =>
    rw [startNode_edge lowB]
    exact edges a lowB
  | pair i r lowI lowR =>
    rw [startNode_pair even lowI lowR, some_inj]
    exact pairs i r lowI lowR
  | ret2 r lowR =>
    rw [startNode_ret2 even lowR, some_inj]
    exact (single r lowR).1
  | art r lowR =>
    rw [startNode_art even lowR, some_inj]
    exact (single r lowR).2.1
  | ret1 r lowR =>
    rw [startNode_ret1 even lowR, some_inj]
    exact (single r lowR).2.2

end

end Arcs

/-! ## The incidence lists -/

section Lists

variable {G} {M}

section

variable (represented : Represented G M)
include represented

/-- Distinct artificial arcs belong to distinct canonical elements. -/
theorem Represented.injective (lowI : i < 2 * M.k2)
    (lowJ : j < 2 * M.k2) (eq : M.repr i = M.repr j) : i = j := by
  have arcI := represented.arc i lowI
  have arcJ := represented.arc j lowJ
  rw [eq] at arcI
  omega

theorem Represented.low (consistent : G.Consistent)
    (lowJ : j < 2 * M.k2) : M.repr j < G.n := by
  obtain ⟨a, lowA, start⟩ := represented.incident j lowJ
  obtain ⟨w, lowW, start'⟩ := consistent.start a lowA
  rw [start, some_inj] at start'
  exact start' ▸ lowW

theorem members_canonical (consistent : G.Consistent)
    (even : G.m % 2 = 0) (lowJ : j < 2 * M.k2) (a : ℕ) :
    (a < 2 * G.m ∧ G.startNode a = some (M.repr j)) ∨ a = M.artifical (M.repr j) ↔
      a < 2 * m G M ∧ startNode G M a = some (M.repr j) := by
  obtain ⟨eqt2, eqs2, eqt1, eqs1, eq2, eqA1, eqA2, eq1⟩ := sizes (M := M) even
  have eqM : m G M = G.m + 2 * M.k2 + 6 := rfl
  have arc := represented.arc j lowJ
  have low := represented.low consistent lowJ
  have pairs : ∀ i r, i < M.k2 → r < 4 → (4 * (G.m / 2 + i) + r = M.artifical (M.repr j) ↔
      (if r = 0 then s2 G else if r = 1 then M.repr (2 * i)
        else if r = 2 then M.repr (2 * i + 1) else t2 G) = M.repr j) := by
    intro i r lowI lowR
    split_ifs with zero one two
    · omega
    · constructor
      · intro eq
        rw [show j = 2 * i by omega]
      · intro eq
        have := represented.injective (by omega) lowJ eq
        omega
    · constructor
      · intro eq
        rw [show j = 2 * i + 1 by omega]
      · intro eq
        have := represented.injective (by omega) lowJ eq
        omega
    · omega
  refine members_iff (P := fun a => (a < 2 * G.m ∧ G.startNode a = some (M.repr j)) ∨
    a = M.artifical (M.repr j)) even (by omega) ?_ ?_ ?_ a
  · intro a lowA
    constructor
    · rintro (⟨-, start⟩ | eq)
      · exact start
      · omega
    · exact fun start => .inl ⟨lowA, start⟩
  · intro i r lowI lowR
    rw [← pairs i r lowI lowR]
    constructor
    · rintro (⟨lowA, -⟩ | eq)
      · omega
      · exact eq
    · exact .inr
  · intro r lowR
    refine ⟨?_, ?_, ?_⟩
    all_goals split_ifs <;> omega

end

theorem members_original (even : G.m % 2 = 0) (low : v < G.n)
    (other : ∀ j, j < 2 * M.k2 → M.repr j ≠ v) (a : ℕ) :
    (a < 2 * G.m ∧ G.startNode a = some v) ↔ a < 2 * m G M ∧ startNode G M a = some v := by
  obtain ⟨eqt2, eqs2, eqt1, eqs1, eq2, eqA1, eqA2, eq1⟩ := sizes (M := M) even
  have eqM : m G M = G.m + 2 * M.k2 + 6 := rfl
  refine members_iff (P := fun a => a < 2 * G.m ∧ G.startNode a = some v) even (by omega) ?_ ?_ ?_ a
  · exact fun a lowA => and_iff_right lowA
  · intro i r lowI lowR
    have first := other (2 * i) (by omega)
    have second := other (2 * i + 1) (by omega)
    split_ifs <;> omega
  · intro r lowR
    refine ⟨?_, ?_, ?_⟩
    all_goals split_ifs <;> omega

theorem right_edge (low : a < 2 * G.m) (start : G.startNode a = some v) :
    right G M a v = (G.right a v).bind fun ar => (G.first v).bind fun af =>
      if ar ≠ af ∨ M.artifical v = noArc then some ar else some (M.artifical v) := by
  rw [right, if_neg (not_not.mpr ((startNode_edge low).trans start)), if_pos (by omega)]

section

variable (represented : Represented G M) (consistent : G.Consistent) (even : G.m % 2 = 0)
include represented consistent even

theorem right_artificial (lowJ : j < 2 * M.k2) :
    right G M (M.artifical (M.repr j)) (M.repr j) = G.first (M.repr j) := by
  have arc := represented.arc j lowJ
  have start := ((members_canonical represented consistent even lowJ _).mp (.inr rfl)).2
  have index : M.artifical (M.repr j) / 2 - G.m = j := by omega
  have rest : M.artifical (M.repr j) % 4 = 1 ∨ M.artifical (M.repr j) % 4 = 2 := by omega
  have below : M.artifical (M.repr j) / 2 < G.m + 2 * M.k2 := by omega
  have above : ¬ M.artifical (M.repr j) / 2 < G.m := by omega
  generalize M.artifical (M.repr j) = x at *
  rw [right, if_neg (not_not.mpr start), if_neg above, index]
  split_ifs <;> first | rfl | omega

theorem lists_canonical (lowJ : j < 2 * M.k2) : (network G M).ListsAt (M.repr j) := by
  have low := represented.low consistent lowJ
  obtain ⟨l, nodup, members, firstG, links⟩ := (consistent.lists _ low).exists_list
  have arc := represented.arc j lowJ
  have limit := consistent.limit
  obtain ⟨a, lowA, startA⟩ := represented.incident j lowJ
  obtain ⟨f, l, rfl⟩ :=
    exists_cons_of_ne_nil (ne_nil_of_mem ((members a).mpr ⟨lowA, startA⟩))
  have ne : (f :: l ++ [M.artifical (M.repr j)]).Nodup := by
    rw [nodup_append]
    refine ⟨nodup, nodup_singleton _, ?_⟩
    intro b mem c last eq
    rw [mem_singleton] at last
    have := ((members b).mp mem).1
    omega
  have artificial : M.artifical (M.repr j) ≠ noArc := by
    rw [arc, noArc]
    omega
  refine .inr ⟨f, l ++ [M.artifical (M.repr j)], ?_, ⟨ne, ?_⟩, ?_⟩
  · exact (if_pos low).trans firstG
  · rw [← cons_append, links_append]
    constructor
    · rw [← map_id (f :: l)]
      refine links_rerouted (x := M.artifical (M.repr j)) links (nodup_cons.mp nodup).1 ?_
      · intro b mem c next
        obtain ⟨lowB, startB⟩ := (members b).mp mem
        change right G M b _ = _
        rw [right_edge lowB startB, next, firstG, bind_some, headD_cons, bind_some]
        by_cases last : c = f
        · rw [if_neg (by tauto), if_pos last]
        · rw [if_pos (.inl last), if_neg last]
          rfl
    · exact ⟨(right_artificial represented consistent even lowJ).trans firstG, trivial⟩
  · intro b
    rw [← cons_append, mem_append, mem_singleton, members b]
    exact members_canonical represented consistent even lowJ b

theorem lists_original (low : v < G.n) (other : ∀ j, j < 2 * M.k2 → M.repr j ≠ v) :
    (network G M).ListsAt v := by
  have eq := members_original even low other
  have firstG : first G M v = G.first v := if_pos low
  rcases consistent.lists v low with ⟨none, isolated⟩ | ⟨a, l, isFirst, ring, members⟩
  · refine .inl ⟨firstG.trans none, fun a lowA start => ?_⟩
    obtain ⟨lowB, startB⟩ := (eq a).mpr ⟨lowA, start⟩
    exact isolated a lowB startB
  refine .inr ⟨a, l, firstG.trans isFirst, ?_, fun b => (members b).trans (eq b)⟩
  refine ring.congr fun b mem => ?_
  obtain ⟨lowB, startB⟩ := (members b).mp mem
  obtain ⟨next, -, isNext⟩ := ring.next_mem mem
  change right G M b v = _
  rw [right_edge lowB startB, isFirst]
  change G.right b v = some next at isNext
  rw [isNext, bind_some, bind_some, if_pos (.inr (represented.others v other))]

end

theorem lists_terminal (even : G.m % 2 = 0) {y z x f : ℕ} (r count : ℕ) (lowR : r < 4)
    (lowC : count ≤ M.k2) (ne : [y, z, x].Nodup)
    (beyond : ∀ a ∈ [y, z, x], 2 * G.m + 4 * M.k2 ≤ a) (members : ∀ a, (a = y ∨ a = z ∨ a = x) ∨
        (4 * (G.m / 2) ≤ a ∧ a < 4 * (G.m / 2 + count) ∧ a % 4 = r) ↔
      a < 2 * m G M ∧ startNode G M a = some u) (isFirst : first G M u = some f)
    (inside : f = y ∨ f = z ∨ f = x) (atY : right G M y u = some z) (atZ : right G M z u = some x)
    (atX : right G M x u = if count = 0 then some y else some (4 * (G.m / 2) + r))
    (group : ∀ i, i < count → right G M (4 * (G.m / 2 + i) + r) u =
      if i + 1 = count then some y else some (4 * (G.m / 2 + i) + r + 4)) :
    (network G M).ListsAt u := by
  refine Accessors.listsAt_group (f := f) [y, z, x] (G.m / 2) count lowR ?_ group ne ?_
    isFirst (by simpa using inside) ?_
  · refine ⟨atY, atZ, ?_, trivial⟩
    exact atX
  · intro a mem
    have := beyond a mem
    omega
  · intro a
    rw [mem_group lowR]
    simp only [mem_cons, not_mem_nil, or_false]
    exact members a

theorem right_single (represented : Represented G M) (even : G.m % 2 = 0) (pos : 0 < G.m)
    (lowR : r < 4) : (startNode G M (ret1 G M + r) = some u → right G M (ret1 G M + r) u =
      if r = 0 then some (ret1 G M + 2) else if r = 1 then some (ret1 G M + 3)
      else if r = 2 then some (art1 G M + 3) else some (art1 G M)) ∧
    (startNode G M (art1 G M + r) = some u → right G M (art1 G M + r) u =
      if r = 0 then some (ret1 G M + 1) else if r = 1 then some (ret2 G M)
      else if r = 2 then some (ret2 G M + 1) else some (ret1 G M)) ∧
    (startNode G M (ret2 G M + r) = some u → right G M (ret2 G M + r) u =
      if r = 0 then some (ret2 G M + 2) else if r = 1 then some (ret2 G M + 3) else if r = 2 then
        if M.k2 = 0 then some (art1 G M + 1) else some (4 * (G.m / 2) + 3)
      else if M.k2 = 0 then some (art1 G M + 2) else some (4 * (G.m / 2))) := by
  obtain ⟨-, -, -, -, eq2, eqA1, eqA2, eq1⟩ := sizes (M := M) even
  have eqLast : lastPair G M = G.m + 2 * M.k2 - 2 := if_pos (by omega)
  have ret1_xor : ∀ k, k < 4 → ret1 G M ^^^ k = ret1 G M + k := by
    intro k low
    rw [eq1, xor_zero_low low]
  have ret2_xor : ∀ k, k < 4 → ret2 G M ^^^ k = ret2 G M + k := by
    intro k low
    rw [eq2, xor_zero_low low]
  have art1_xor : art1 G M ^^^ 1 = art1 G M + 1 := xor_one_even (by omega)
  have art2_xor : art2 G M ^^^ 1 = art1 G M + 3 := by
    rw [xor_one_even (by omega)]
    omega
  refine ⟨?_, ?_, ?_⟩
  · intro start
    rw [right, if_neg (not_not.mpr start), if_neg (by omega), if_neg (by omega),
      if_neg (by omega), if_neg (by omega), if_neg (by omega), if_pos (by omega),
      show (ret1 G M + r) % 4 = r by omega, ret1_xor 2 (by decide), ret1_xor 3 (by decide),
      art2_xor]
  · intro start
    rw [right, if_neg (not_not.mpr start), if_neg (by omega), if_neg (by omega),
      if_neg (by omega), if_pos (by omega), show (art1 G M + r) % 4 = r by omega,
      ret1_xor 1 (by decide), ret2_xor 1 (by decide)]
  · intro start
    rw [right, if_neg (not_not.mpr start), if_neg (by omega), if_neg (by omega),
      if_neg (by omega), if_neg (by omega), if_pos (by omega),
      show (ret2 G M + r) % 4 = r by omega, ret2_xor 2 (by decide), ret2_xor 3 (by decide),
      art1_xor]
    by_cases none : M.k2 = 0
    · have empty : ¬ 0 < M.k2 := by omega
      simp only [if_neg empty, if_pos none, eqA2, eqA1]
    have first : M.artifical (M.repr 0) ^^^ 1 = 4 * (G.m / 2) := by
      rw [represented.arc 0 (by omega), xor_one_odd (by omega)]
      omega
    have second : M.artifical (M.repr 1) ^^^ 1 = 4 * (G.m / 2) + 3 := by
      rw [represented.arc 1 (by omega), xor_one_even (by omega)]
      omega
    have some_ : 0 < M.k2 := by omega
    simp only [if_pos some_, if_neg none, first, second]

theorem right_pair (even : G.m % 2 = 0) (pos : 0 < G.m) (lowI : i < M.k2) (outer : r = 0 ∨ r = 3)
    (start : startNode G M (4 * (G.m / 2 + i) + r) = some u) : right G M (4 * (G.m / 2 + i) + r) u =
      if i + 1 = M.k2 then some (if r = 0 then art1 G M + 2 else art1 G M + 1)
      else some (4 * (G.m / 2 + i) + r + 4) := by
  obtain ⟨-, -, -, -, eq2, eqA1, eqA2, eq1⟩ := sizes (M := M) even
  have eqLast : lastPair G M = G.m + 2 * M.k2 - 2 := if_pos (by omega)
  have art1_xor : art1 G M ^^^ 1 = art1 G M + 1 := xor_one_even (by omega)
  rw [right, if_neg (not_not.mpr start), if_neg (by omega), art1_xor]
  by_cases last : i + 1 = M.k2
  · rw [if_neg (by omega), if_pos (by omega), if_pos last]
    split_ifs <;> first | rfl | omega
  · rw [if_pos (by omega), if_neg last]
    split_ifs <;> first | rfl | omega

section

variable (represented : Represented G M)
include represented

theorem lists_terminals (consistent : G.Consistent)
    (even : G.m % 2 = 0) (pos : 0 < G.m)
    (isTerminal : u = t2 G ∨ u = s2 G ∨ u = t1 G ∨ u = s1 G) : (network G M).ListsAt u := by
  obtain ⟨eqt2, eqs2, eqt1, eqs1, eq2, eqA1, eqA2, eq1⟩ := sizes (M := M) even
  have eqM : m G M = G.m + 2 * M.k2 + 6 := rfl
  have lowRepr : ∀ j, j < 2 * M.k2 → M.repr j < G.n := fun j low =>
    represented.low consistent low
  have edges : ∀ w, G.n ≤ w → ∀ a, a < 2 * G.m → G.startNode a ≠ some w := by
    intro w high a low start
    obtain ⟨w', low', start'⟩ := consistent.start a low
    rw [start, some_inj] at start'
    omega
  have single := fun r u => right_single (u := u) (r := r) represented even pos
  have members : ∀ w, G.n ≤ w → ∀ P : ℕ → Prop, (∀ a, P a → 2 * G.m ≤ a) →
      (∀ a, P a → a < 2 * m G M) →
      (∀ i r, i < M.k2 → r < 4 → (P (4 * (G.m / 2 + i) + r) ↔
        (r = 0 ∧ s2 G = w) ∨ (r = 3 ∧ t2 G = w))) →
      (∀ r, r < 4 → (P (ret2 G M + r) ↔ (if r % 2 = 1 then s2 G else t2 G) = w) ∧
        (P (art1 G M + r) ↔ (if r = 0 then s1 G else if r = 1 then t2 G
          else if r = 2 then s2 G else t1 G) = w) ∧
        (P (ret1 G M + r) ↔ (if r % 2 = 1 then s1 G else t1 G) = w)) →
      ∀ a, P a ↔ a < 2 * m G M ∧ startNode G M a = some w := by
    intro w high P above below pairs singles
    refine members_iff even below ?_ ?_ singles
    · intro a low
      constructor
      · intro holds
        have := above a holds
        omega
      · exact fun start => absurd start (edges w high a low)
    · intro i r lowI lowR
      have := lowRepr (2 * i) (by omega)
      have := lowRepr (2 * i + 1) (by omega)
      rw [pairs i r lowI lowR]
      split_ifs <;> omega
  rcases isTerminal with rfl | rfl | rfl | rfl
  · apply lists_terminal even (y := art1 G M + 1) (z := ret2 G M) (x := ret2 G M + 2)
      (f := ret2 G M) 3 M.k2 (by decide) le_rfl
    · simp
      omega
    · simp
      omega
    · refine members (t2 G) (by omega) _ (by omega) (by omega) (by omega) ?_
      intro r lowR
      refine ⟨?_, ?_, ?_⟩
      all_goals split_ifs <;> omega
    · rw [first, if_neg (by omega), if_pos rfl]
    · simp
    · exact (single 1 _ (by decide)).2.1 (startNode_art even (by decide))
    · exact (single 0 _ (by decide)).2.2 (startNode_ret2 even (by decide))
    · exact (single 2 _ (by decide)).2.2 (startNode_ret2 even (by decide))
    · intro i lowI
      exact right_pair even pos lowI (.inr rfl) (startNode_pair even lowI (by decide))
  · apply lists_terminal even (y := art1 G M + 2) (z := ret2 G M + 1) (x := ret2 G M + 3)
      (f := ret2 G M + 1) 0 M.k2 (by decide) le_rfl
    · simp
      omega
    · simp
      omega
    · refine members (s2 G) (by omega) _ (by omega) (by omega) (by omega) ?_
      intro r lowR
      refine ⟨?_, ?_, ?_⟩
      all_goals split_ifs <;> omega
    · rw [first, if_neg (by omega), if_neg (by omega), if_pos rfl, xor_one_even (by omega)]
    · simp
    · exact (single 2 _ (by decide)).2.1 (startNode_art even (by decide))
    · exact (single 1 _ (by decide)).2.2 (startNode_ret2 even (by decide))
    · exact (single 3 _ (by decide)).2.2 (startNode_ret2 even (by decide))
    · intro i lowI
      exact right_pair even pos lowI (.inl rfl) (startNode_pair even lowI (by decide))
  · apply lists_terminal even (y := ret1 G M) (z := ret1 G M + 2) (x := art1 G M + 3)
      (f := ret1 G M) 0 0 (by decide) (Nat.zero_le _)
    · simp
      omega
    · simp
      omega
    · refine members (t1 G) (by omega) _ (by omega) (by omega) (by omega) ?_
      intro r lowR
      refine ⟨?_, ?_, ?_⟩
      all_goals split_ifs <;> omega
    · rw [first, if_neg (by omega), if_neg (by omega), if_neg (by omega), if_pos rfl]
    · simp
    · exact (single 0 _ (by decide)).1 (startNode_ret1 even (by decide))
    · exact (single 2 _ (by decide)).1 (startNode_ret1 even (by decide))
    · exact (single 3 _ (by decide)).2.1 (startNode_art even (by decide))
    · intro i lowI
      omega
  · apply lists_terminal even (y := ret1 G M + 1) (z := ret1 G M + 3) (x := art1 G M)
      (f := ret1 G M + 1) 0 0 (by decide) (Nat.zero_le _)
    · simp
      omega
    · simp
      omega
    · refine members (s1 G) (by omega) _ (by omega) (by omega) (by omega) ?_
      intro r lowR
      refine ⟨?_, ?_, ?_⟩
      all_goals split_ifs <;> omega
    · rw [first, if_neg (by omega), if_neg (by omega), if_neg (by omega), if_neg (by omega),
        if_pos rfl, xor_one_even (by omega)]
    · simp
    · exact (single 1 _ (by decide)).1 (startNode_ret1 even (by decide))
    · exact (single 3 _ (by decide)).1 (startNode_ret1 even (by decide))
    · exact (single 0 _ (by decide)).2.1 (startNode_art even (by decide))
    · intro i lowI
      omega

/-- Without arcs there are no canonical elements. The subtraction in `Right` wraps around then,
and the list of the sink `t2` leaves this node. -/
theorem not_lists_empty (empty : G.m = 0) :
    ¬ (network G M).ListsAt (t2 G) := by
  obtain ⟨eqt2, eqs2, eqt1, eqs1, eq2, eqA1, eqA2, eq1⟩ := sizes (G := G) (M := M) (by omega)
  have noPairs : M.k2 = 0 := by
    by_contra some
    obtain ⟨a, lowA, -⟩ := represented.incident 0 (by omega)
    omega
  have firstT : first G M (t2 G) = some 0 := by
    rw [first, if_neg (by omega), if_pos rfl]
    congr 1
    omega
  have start : startNode G M 0 = some (t2 G) := by
    have atRet2 := startNode_ret2 (G := G) (M := M) (r := 0) (by omega) (by decide)
    rw [show ret2 G M + 0 = 0 by omega] at atRet2
    exact atRet2
  have eqLast : lastPair G M = 2 ^ 64 - 2 := by
    rw [lastPair, if_neg (by omega), empty, noPairs]
    rfl
  have nextT : right G M 0 (t2 G) = some 4 := by
    rw [right, if_neg (not_not.mpr start), if_neg (by omega), if_pos (by omega), if_pos rfl]
  have start4 : startNode G M 4 = some (s1 G) := by
    have atArt := startNode_art (G := G) (M := M) (r := 0) (by omega) (by decide)
    rw [show art1 G M + 0 = 4 by omega] at atArt
    exact atArt
  rintro (⟨none, -⟩ | ⟨a, l, isFirst, ring, members⟩)
  · cases firstT.symm.trans none
  · obtain rfl : 0 = a := some_inj.mp (firstT.symm.trans isFirst)
    obtain ⟨next, inside, isNext⟩ := ring.next_mem mem_cons_self
    obtain rfl : 4 = next := some_inj.mp (nextT.symm.trans isNext)
    have start4' : startNode G M 4 = some (t2 G) := ((members 4).mp inside).2
    rw [start4, some_inj] at start4'
    omega

/-- The incidence lists of all nodes are consistent unless the original network has no arcs. -/
theorem lists_iff (consistent : G.Consistent)
    (balanced : G.Balanced) : (∀ v, v < n G → (network G M).ListsAt v) ↔ 0 < G.m := by
  have even := balanced.evenArcs
  obtain ⟨eqt2, eqs2, eqt1, eqs1, -, -, -, -⟩ := sizes (M := M) even
  constructor
  · intro all
    by_contra empty
    exact not_lists_empty represented (by omega) (all (t2 G) (by rw [n]; omega))
  · intro pos v low
    rw [n] at low
    by_cases original : v < G.n
    · by_cases canonical : ∃ j, j < 2 * M.k2 ∧ M.repr j = v
      · obtain ⟨j, lowJ, rfl⟩ := canonical
        exact lists_canonical represented consistent even lowJ
      · refine lists_original represented consistent even original fun j lowJ eq => ?_
        exact canonical ⟨j, lowJ, eq⟩
    · exact lists_terminals represented consistent even pos (by omega)

end

end Lists

/-! ## Complementary arcs -/

section Complement

variable {G} {M}

theorem startNode_complement (represented : Represented G M) (balanced : G.Balanced)
    (low : a < 2 * m G M) : startNode G M (a ^^^ 2) = (startNode G M (a ^^^ 1)).map (· ^^^ 1) := by
  have even := balanced.evenArcs
  have evenN := balanced.evenNodes
  obtain ⟨eqt2, eqs2, eqt1, eqs1, eq2, eqA1, eqA2, eq1⟩ := sizes (M := M) even
  have s1_xor : s1 G ^^^ 1 = t1 G := by
    rw [xor_one_odd (by omega)]
    omega
  have t1_xor : t1 G ^^^ 1 = s1 G := by rw [← s1_xor, Nat.xor_xor_cancel_right]
  have s2_xor : s2 G ^^^ 1 = t2 G := by
    rw [xor_one_odd (by omega)]
    omega
  have t2_xor : t2 G ^^^ 1 = s2 G := by rw [← s2_xor, Nat.xor_xor_cancel_right]
  have small : ∀ r, r < 4 → r ^^^ 1 < 4 ∧ r ^^^ 2 < 4 := fun r lowR =>
    ⟨Nat.xor_lt_two_pow (n := 2) lowR (by decide), Nat.xor_lt_two_pow (n := 2) lowR (by decide)⟩
  cases arcKind even low with
  | edge _ lowB =>
    have lowRev : a ^^^ 1 < 2 * G.m := SparseState.rev_lt.mpr lowB
    have lowCompl : a ^^^ 2 < 2 * G.m := xor_two_lt even lowB
    rw [startNode_edge lowCompl, startNode_edge lowRev, balanced.complementary.startNode a lowB,
      Accessors.endNode, if_pos lowB]
  | pair i r lowI lowR =>
    have compl := represented.complement (2 * i) (by omega)
    rw [xor_one_even (by omega)] at compl
    rw [xor_low lowR (by decide), xor_low lowR (by decide),
      startNode_pair even lowI (small r lowR).1, startNode_pair even lowI (small r lowR).2,
      map_some]
    interval_cases r <;> simp [s2_xor, t2_xor, compl]
  | ret2 r lowR =>
    rw [eq2, xor_low lowR (by decide), xor_low lowR (by decide), ← eq2,
      startNode_ret2 even (small r lowR).1, startNode_ret2 even (small r lowR).2,
      map_some]
    interval_cases r <;> simp [s2_xor, t2_xor]
  | art r lowR =>
    rw [eqA1, xor_low lowR (by decide), xor_low lowR (by decide), ← eqA1,
      startNode_art even (small r lowR).1, startNode_art even (small r lowR).2, map_some]
    interval_cases r <;> simp [s1_xor, t1_xor, s2_xor, t2_xor]
  | ret1 r lowR =>
    rw [eq1, xor_low lowR (by decide), xor_low lowR (by decide), ← eq1,
      startNode_ret1 even (small r lowR).1, startNode_ret1 even (small r lowR).2,
      map_some]
    interval_cases r <;> simp [s1_xor, t1_xor]

theorem complementary (represented : Represented G M) (balanced : G.Balanced) :
    (network G M).Complementary := by
  have even := balanced.evenArcs
  constructor
  · intro a low
    have reverse : (network G M).endNode a = startNode G M (a ^^^ 1) := if_pos low
    rw [reverse]
    exact startNode_complement represented balanced low
  · intro a _
    change ucap G M (a ^^^ 2) = ucap G M a
    have eq := xor_two_div_four a
    rw [ucap, ucap, eq]
    split_ifs <;> first | rfl | exact balanced.complementary.ucap a (by omega) | omega
  · intro a _
    change length G (a ^^^ 2) = length G a
    have eq := xor_two_div_four a
    rw [length, length]
    split_ifs <;> first | rfl | exact balanced.complementary.length a (by omega) | omega

end Complement

end BalancedToBalanced

end Goblin
