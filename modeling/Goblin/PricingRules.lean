import Goblin.Augment
import Goblin.Library.Termination

/-!
# Pricing rules of the network simplex method

A pricing rule selects the arc that enters the basis: some arc with residual capacity
whose reduced length is negative. `DantzigPricing` inspects all arcs and takes the best
one, `FirstEligiblePricing` takes the first one behind the place where the previous call
has stopped. The other two rules keep a list of candidates in the object.
`PartialPricing` refills a short list from consecutive arcs, `MultiplePartialPricing`
from whole sublists; the sublist with number `s` consists of every `r`-th edge, starting
with `s`.

Every rule is an exact test: it finds an eligible arc in every state that a history of calls can
leave, unless there is none (`pricing_exact`). A list is scanned only when it has `j` entries or
less, and then it either receives an entry or all arcs have been inspected.

The arrays are functions which start with arbitrary contents, and an access at an index
from `j + k` on faults. Arcs are given by their indices, as in the arrays. Logging is left
out, and the graph has an arc: without any, the remainders divide by zero.
-/

set_option autoImplicit false

namespace Goblin

open Library List Function

variable {start x r saved a i : ℕ} {array : ℕ → ℕ} {pivotArc : Option ℕ}

/-- The fields of a `networkSimplex` object that serve the pricing. -/
structure Pricing where
  k : ℕ
  j : ℕ
  r : ℕ
  nextList : ℕ
  l : ℕ
  hotList : ℕ → ℕ
  swapList : ℕ → ℕ

/-- The values of `CT.methLPPricing`. -/
inductive PricingRule where
  | partialPricing
  | multiplePartialPricing
  | dantzigPricing
  | firstEligiblePricing
deriving DecidableEq, Repr

namespace Pricing

/-- The constructor; the memory of the arrays is not initialised. -/
def new (m : ℕ) (hotList swapList : ℕ → ℕ) : Pricing :=
  let k := if 100000 < m then 200 else if 10000 < m then 50 else 30
  let j := if 100000 < m then 20 else if 10000 < m then 10 else 5
  let r := m / k
  { k := k
    j := j
    r := if m = r * k then r else r + 1
    nextList := 0
    l := 0
    hotList := hotList
    swapList := swapList }

section

variable (s : Pricing) (array : ℕ → ℕ) (i : ℕ)

/-- A read from one of the arrays. -/
def read : Except Raise ℕ :=
  if i < s.j + s.k then .ok (array i) else .error .fault

/-- A write to one of the arrays. -/
def write (x : ℕ) : Except Raise (ℕ → ℕ) :=
  if i < s.j + s.k then .ok (update array i x) else .error .fault

end

/-- `hotList[l++] = x` -/
def append (s : Pricing) (x : ℕ) : Except Raise Pricing := do
  let hotList ← s.write s.hotList s.l x
  return { s with hotList := hotList, l := s.l + 1 }

end Pricing

namespace MixedGraph

variable {n m : ℕ} (G : MixedGraph n m) (sub : Fin m → ℚ) (potential : Fin n → ℚ)

/-! ## The test of an arc -/

/-- `ResCap` -/
def resCapAt (a : ℕ) : Except Raise ℚ := do
  let a ← arcAt m a
  return G.resCap sub a

/-- `RedLength` -/
def redLengthAt (a : ℕ) : Except Raise ℚ :=
  if low : a / 2 < m then .ok (G.redLength potential ⟨⟨a / 2, low⟩, a % 2 = 1⟩)
  else .error (.range "RedLength" "No such arc")

/-- `G.ResCap(a)>0 && G.RedLength(piG,a)<0` -/
def improvesAt (a : ℕ) : Except Raise Bool := do
  let resCap ← G.resCapAt sub a
  if 0 < resCap then
    let redLength ← G.redLengthAt potential a
    return decide (redLength < 0)
  else return false

/-- The pivot arc after `a` has turned out eligible. -/
def preferred (pivotArc : Option ℕ) (a : ℕ) : Except Raise (Option ℕ) :=
  match pivotArc with
  | none => .ok (some a)
  | some b => do
    let new ← G.redLengthAt potential a
    let old ← G.redLengthAt potential b
    if new < old then return some a else return some b

/-! ## Rules without a list -/

def dantzigPricing : Except Raise (Option ℕ) :=
  (List.range (2 * m)).foldlM (fun pivotArc a => do
    if ← G.improvesAt sub potential a then G.preferred potential pivotArc a
    else return pivotArc) none

/-- The loop of `FirstEligiblePricing` over the values of `i`. -/
def firstEligibleLoop (s : Pricing) : List ℕ → Except Raise (Option ℕ × Pricing)
  | [] => .ok (none, s)
  | i :: rest => do
    let a := (s.nextList + i) % (2 * m)
    if ← G.improvesAt sub potential a then
      return (some a, { s with nextList := (s.nextList + i + 1) % (2 * m) })
    else firstEligibleLoop s rest

def firstEligiblePricing (s : Pricing) : Except Raise (Option ℕ × Pricing) :=
  G.firstEligibleLoop sub potential s (List.range (2 * m))

/-! ## The candidate list -/

section

variable (arcOf : ℕ → Except Raise ℕ) (s : Pricing)

/-- One candidate of the previous call: `swapList`, `lNext` and `pivotArc` after it. The
arc of an entry is `arcOf`. -/
def keepCandidate
    (kept : (ℕ → ℕ) × ℕ × Option ℕ) (i : ℕ) : Except Raise ((ℕ → ℕ) × ℕ × Option ℕ) := do
  let x ← s.read s.hotList i
  let a ← arcOf x
  if ← G.improvesAt sub potential a then
    let swapList ← s.write kept.1 kept.2.1 x
    let pivotArc ← G.preferred potential kept.2.2 a
    return (swapList, kept.2.1 + 1, pivotArc)
  else return kept

/-- Both list rules first delete the entries which are not admissible any longer, and then
exchange the arrays. -/
def keepCandidates :
    Except Raise (Pricing × Option ℕ) := do
  let (swapList, lNext, pivotArc) ←
    (List.range s.l).foldlM (G.keepCandidate sub potential arcOf s) (s.swapList, 0, none)
  return ({ s with hotList := swapList, swapList := s.hotList, l := lNext }, pivotArc)

end

/-- The loop of `PartialPricing` over the values of `i`, with the last value of `a`. -/
def fillUp (start : ℕ) : List ℕ → Pricing → Option ℕ → ℕ →
    Except Raise (Pricing × Option ℕ × ℕ)
  | [], s, pivotArc, last => .ok (s, pivotArc, last)
  | i :: rest, s, pivotArc, last =>
    if s.l < s.j + s.k then do
      let a := (start + i) % (2 * m)
      if ← G.improvesAt sub potential a then
        let s ← s.append a
        let pivotArc ← G.preferred potential pivotArc a
        fillUp start rest s pivotArc a
      else fillUp start rest s pivotArc a
    else .ok (s, pivotArc, last)

def partialPricing (s : Pricing) : Except Raise (Option ℕ × Pricing) := do
  let (s, pivotArc) ← G.keepCandidates sub potential .ok s
  if s.l ≤ s.j then
    let (s, pivotArc, last) ←
      G.fillUp sub potential s.nextList (List.range (2 * m)) s pivotArc s.nextList
    return (pivotArc, { s with nextList := (last + 1) % (2 * m) })
  else return (pivotArc, s)

/-- `TArc a = 2*e; if (G.RedLength(piG,a)>0) a++;` -/
def directionOf (e : ℕ) : Except Raise ℕ := do
  let redLength ← G.redLengthAt potential (2 * e)
  if 0 < redLength then return 2 * e + 1 else return 2 * e

/-- One edge of a sublist. -/
def sublistEdge (found : Pricing × Option ℕ) (i : ℕ) : Except Raise (Pricing × Option ℕ) := do
  let (s, pivotArc) := found
  let e := i * s.r + s.nextList
  if 2 * m ≤ 2 * e then return (s, pivotArc)
  else
    let a ← G.directionOf potential e
    if ← G.improvesAt sub potential a then
      let s ← s.append e
      let pivotArc ← G.preferred potential pivotArc a
      return (s, pivotArc)
    else return (s, pivotArc)

/-- One iteration of the `while` loop of `MultiplePartialPricing`. -/
def sublistStep (savedList : ℕ) (found : Pricing × Option ℕ) :
    Except Raise ((Pricing × Option ℕ) ⊕ (Pricing × Option ℕ)) := do
  if found.1.l ≤ found.1.j then
    let (s, pivotArc) ← (List.range found.1.k).foldlM (G.sublistEdge sub potential) found
    let nextList := (s.nextList + 1) % s.r
    if nextList = savedList then return .inr ({ s with nextList := nextList }, pivotArc)
    else return .inl ({ s with nextList := nextList }, pivotArc)
  else return .inr found

def multiplePartialPricing (s : Pricing) : Except Raise (Option ℕ × Pricing) := do
  let found ← G.keepCandidates sub potential (G.directionOf potential) s
  let (s, pivotArc) ←
    loop .fuel (G.sublistStep sub potential found.1.nextList) (s.r + 1) found
  return (pivotArc, s)

/-- A call of the pricing rule. -/
def price (rule : PricingRule) (s : Pricing) : Except Raise (Option ℕ × Pricing) :=
  match rule with
  | .partialPricing => G.partialPricing sub potential s
  | .multiplePartialPricing => G.multiplePartialPricing sub potential s
  | .dantzigPricing => do
    let pivotArc ← G.dantzigPricing sub potential
    return (pivotArc, s)
  | .firstEligiblePricing => G.firstEligiblePricing sub potential s

end MixedGraph

/-- The states that the calls of one rule can leave, for any flows and potentials. -/
inductive Pricing.Reached (n m : ℕ) (rule : PricingRule) : Pricing → Prop
  | constructed (hotList swapList : ℕ → ℕ) : Reached n m rule (Pricing.new m hotList swapList)
  | called {s s' : Pricing} {pivotArc : Option ℕ} (G : DiGraph n m) (sub : Fin m → ℚ)
      (potential : Fin n → ℚ) (earlier : Reached n m rule s)
      (call : G.price sub potential rule s = .ok (pivotArc, s')) : Reached n m rule s'

/-! ## Arithmetic of the two scans -/

theorem exists_rotation {p : ℕ} (begins : start < p) (low : x < p) :
    ∃ i < p, (start + i) % p = x := by
  by_cases before : x < start
  · refine ⟨x + p - start, by omega, ?_⟩
    have sum : start + (x + p - start) = x + p := by omega
    rw [sum, Nat.add_mod_right, Nat.mod_eq_of_lt low]
  · refine ⟨x - start, by omega, ?_⟩
    have sum : start + (x - start) = x := by omega
    rw [sum, Nat.mod_eq_of_lt low]

theorem exists_sublist {k e : ℕ} (strides : 0 < r) (low : e < r * k) :
    ∃ i < k, ∃ s < r, i * r + s = e := by
  refine ⟨e / r, Nat.div_lt_of_lt_mul low, e % r, Nat.mod_lt e strides, ?_⟩
  rw [Nat.mul_comm]
  exact Nat.div_add_mod e r

/-- The rotation returns to its start after a full turn, and not before. -/
theorem rotation_eq_iff {t : ℕ} (low : saved < r) (pos : 0 < t) (turn : t ≤ r) :
    (saved + t) % r = saved ↔ t = r := by
  by_cases wraps : saved + t < r
  · rw [Nat.mod_eq_of_lt wraps]
    omega
  · have sum : (saved + t) % r = saved + t - r := by
      rw [Nat.mod_eq_sub_mod (by omega), Nat.mod_eq_of_lt (by omega)]
    rw [sum]
    omega

theorem exists_arcIndex {m : ℕ} (low : a < 2 * m) : ∃ b : Arc m, arcIndex b = a := by
  refine ⟨⟨⟨a / 2, by omega⟩, a % 2 = 1⟩, ?_⟩
  by_cases odd : a % 2 = 1
  · simp only [arcIndex, odd, decide_true, if_true]
    omega
  · simp only [arcIndex, odd, decide_false, Bool.false_eq_true, if_false]
    omega

namespace Pricing

variable {m : ℕ} {s s' s'' : Pricing} {x limit : ℕ}

/-- The lists have entries, and the sublists cover the edges. -/
structure Fits (m : ℕ) (s : Pricing) : Prop where
  some_candidates : 0 < s.k
  some_lists : 0 < s.r
  covers : m ≤ s.r * s.k

theorem fits_new (arcs : 0 < m) (hotList swapList : ℕ → ℕ) :
    (Pricing.new m hotList swapList).Fits m := by
  have sublists : ∀ k, 0 < k → 0 < (if m = m / k * k then m / k else m / k + 1) ∧
      m ≤ (if m = m / k * k then m / k else m / k + 1) * k := by
    intro k pos
    have division := Nat.div_add_mod m k
    have remainder := Nat.mod_lt m pos
    rw [Nat.mul_comm] at division
    split_ifs with exact_
    · exact ⟨Nat.pos_of_ne_zero fun zero => by rw [zero, Nat.zero_mul] at exact_; omega,
        exact_.le⟩
    · exact ⟨Nat.succ_pos _, by rw [Nat.add_mul]; omega⟩
  have pos : 0 < if 100000 < m then 200 else if 10000 < m then 50 else 30 := by
    split_ifs <;> omega
  exact ⟨pos, (sublists _ pos).1, (sublists _ pos).2⟩

/-- The fields that stay while candidates are collected. -/
structure Frame (s s' : Pricing) : Prop where
  k : s'.k = s.k
  j : s'.j = s.j
  r : s'.r = s.r
  nextList : s'.nextList = s.nextList

theorem Frame.refl (s : Pricing) : Frame s s := ⟨rfl, rfl, rfl, rfl⟩

theorem Frame.trans (first : Frame s s') (second : Frame s' s'') : Frame s s'' :=
  ⟨second.k.trans first.k, second.j.trans first.j, second.r.trans first.r,
    second.nextList.trans first.nextList⟩

theorem Fits.frame (fits : s.Fits m) (frame : s.Frame s') : s'.Fits m := by
  refine ⟨?_, ?_, ?_⟩
  · rw [frame.k]
    exact fits.some_candidates
  · rw [frame.r]
    exact fits.some_lists
  · rw [frame.k, frame.r]
    exact fits.covers

/-- The entries of the candidate list are within the arrays, and below the limit. -/
structure Listed (limit : ℕ) (s : Pricing) : Prop where
  size : s.l ≤ s.j + s.k
  entries : ∀ i < s.l, s.hotList i < limit

/-- What every rule leaves in the object: the list and the place where the next scan starts
are within their limits. -/
structure Ready (m limit places : ℕ) (s : Pricing) : Prop where
  fits : s.Fits m
  listed : s.Listed limit
  next : s.nextList < places

theorem write_eq (room : i < s.j + s.k) (x : ℕ) :
    s.write array i x = .ok (update array i x) := if_pos room

theorem entries_update (entries : ∀ i' < i, array i' < limit)
    (low : x < limit) : ∀ i' < i + 1, update array i x i' < limit := by
  intro i' below
  by_cases here : i' = i
  · rw [here, update_self]
    exact low
  · rw [update_of_ne here]
    exact entries i' (by omega)

theorem append_spec (listed : s.Listed limit) (room : s.l < s.j + s.k) (low : x < limit) :
    ∃ s', s.append x = .ok s' ∧ Frame s s' ∧ s'.l = s.l + 1 ∧ s'.Listed limit := by
  refine ⟨{ s with hotList := update s.hotList s.l x, l := s.l + 1 }, ?_,
    ⟨rfl, rfl, rfl, rfl⟩, rfl, room, entries_update listed.entries low⟩
  simp only [append, write_eq room, bind, Except.bind, pure, Except.pure]

end Pricing

namespace DiGraph

variable {n m : ℕ} (G : DiGraph n m) (sub : Fin m → ℚ) (potential : Fin n → ℚ)

/-! ## The test of an arc -/

/-- The arcs that a pricing rule may return. -/
def Improving (b : Arc m) : Prop := 0 < G.resCap sub b ∧ G.redLength potential b < 0

/-- An index that stands for such an arc. -/
def ImprovingIndex (a : ℕ) : Prop := ∃ b, arcIndex b = a ∧ G.Improving sub potential b

variable {G sub potential}

theorem redLengthAt_arcIndex (b : Arc m) :
    G.redLengthAt potential (arcIndex b) = .ok (G.redLength potential b) := by
  have decoded := arcAt_arcIndex b
  unfold arcAt at decoded
  unfold MixedGraph.redLengthAt
  split_ifs at decoded ⊢ with low
  rw [Except.ok.inj decoded]

theorem improvesAt_arcIndex (b : Arc m) :
    ∃ flag, G.improvesAt sub potential (arcIndex b) = .ok flag ∧
      (flag = true ↔ G.Improving sub potential b) := by
  unfold MixedGraph.improvesAt MixedGraph.resCapAt
  rw [arcAt_arcIndex, redLengthAt_arcIndex]
  by_cases free : 0 < G.resCap sub b
  · exact ⟨decide (G.redLength potential b < 0), if_pos free, by simp [Improving, free]⟩
  · exact ⟨false, if_neg free, by simp [Improving, free]⟩

theorem improvingIndex_arcIndex (b : Arc m) :
    G.ImprovingIndex sub potential (arcIndex b) ↔ G.Improving sub potential b :=
  ⟨fun ⟨_, eq, improves⟩ => arcIndex_inj eq ▸ improves, fun improves => ⟨b, rfl, improves⟩⟩

variable (G sub potential) in
theorem improvesAt_spec (low : a < 2 * m) : ∃ flag, G.improvesAt sub potential a = .ok flag ∧
      (flag = true ↔ G.ImprovingIndex sub potential a) := by
  obtain ⟨b, rfl⟩ := exists_arcIndex low
  simp only [improvingIndex_arcIndex]
  exact improvesAt_arcIndex b

/-- The pivot arc that has been found so far is eligible. -/
def Sound (G : DiGraph n m) (sub : Fin m → ℚ) (potential : Fin n → ℚ)
    (pivotArc : Option ℕ) : Prop :=
  ∀ a, pivotArc = some a → G.ImprovingIndex sub potential a

theorem preferred_spec (sound : Sound G sub potential pivotArc)
    (improves : G.ImprovingIndex sub potential a) :
    ∃ c, G.preferred potential pivotArc a = .ok (some c) ∧ Sound G sub potential (some c) := by
  cases pivotArc with
  | none => exact ⟨a, rfl, fun _ eq => Option.some.inj eq ▸ improves⟩
  | some old =>
    obtain ⟨b, rfl, here⟩ := improves
    obtain ⟨b', rfl, there⟩ := sound old rfl
    unfold MixedGraph.preferred
    simp only [redLengthAt_arcIndex, bind, Except.bind, pure, Except.pure]
    by_cases better : G.redLength potential b < G.redLength potential b'
    · exact ⟨arcIndex b, if_pos better, fun _ eq => Option.some.inj eq ▸ ⟨b, rfl, here⟩⟩
    · exact ⟨arcIndex b', if_neg better, sound⟩

variable (G sub potential) in
/-- The edge that `directionOf` is about is eligible in one direction exactly if it is in
the direction with the smaller reduced length. -/
theorem directionOf_spec (e : Fin m) :
    ∃ b : Arc m, b.edge = e ∧ G.directionOf potential e = .ok (arcIndex b) ∧
      ∀ b' : Arc m, b'.edge = e → G.Improving sub potential b' → G.Improving sub potential b := by
  have forward := @redLengthAt_arcIndex n m G potential ⟨e, false⟩
  have index : arcIndex (⟨e, false⟩ : Arc m) = 2 * e := rfl
  rw [index] at forward
  have antisymmetric := G.redLength_rev potential ⟨e, false⟩
  have val : G.directionOf potential e =
      if 0 < G.redLength potential ⟨e, false⟩ then .ok (2 * e + 1) else .ok (2 * (e : ℕ)) := by
    unfold MixedGraph.directionOf
    simp only [forward, bind, Except.bind, pure, Except.pure]
  rw [val]
  by_cases pos : 0 < G.redLength potential ⟨e, false⟩
  · refine ⟨⟨e, true⟩, rfl, if_pos pos, ?_⟩
    rintro ⟨e', back⟩ eq improves
    cases eq
    cases back with
    | false => exact absurd improves.2 (not_lt.2 pos.le)
    | true => exact improves
  · refine ⟨⟨e, false⟩, rfl, if_neg pos, ?_⟩
    rintro ⟨e', back⟩ eq improves
    cases eq
    cases back with
    | false => exact improves
    | true =>
      have neg : G.redLength potential ⟨e', true⟩ < 0 := improves.2
      change G.redLength potential ⟨e', true⟩ = _ at antisymmetric
      linarith

/-! ## Rules without a list -/

variable (G sub potential) in
theorem dantzig_foldlM (l : List ℕ) (pivotArc : Option ℕ)
    (sound : Sound G sub potential pivotArc) (low : ∀ a ∈ l, a < 2 * m) :
    ∃ pivotArc', (l.foldlM (fun pivotArc a => do
        if ← G.improvesAt sub potential a then G.preferred potential pivotArc a
        else return pivotArc) pivotArc : Except Raise (Option ℕ)) = .ok pivotArc' ∧
      Sound G sub potential pivotArc' ∧
      (pivotArc' = none → pivotArc = none ∧ ∀ a ∈ l, ¬ G.ImprovingIndex sub potential a) := by
  induction l generalizing pivotArc with
  | nil => exact ⟨pivotArc, rfl, sound, fun none_ => ⟨none_, by simp⟩⟩
  | cons a l ih =>
    obtain ⟨flag, test, meaning⟩ := improvesAt_spec G sub potential (low a mem_cons_self)
    have later := fun b mem => low b (mem_cons_of_mem a mem)
    rw [foldlM_cons]
    cases flag with
    | true =>
      obtain ⟨c, taken, sound'⟩ := preferred_spec sound (meaning.1 rfl)
      obtain ⟨pivotArc', run, sound'', rest⟩ := ih (some c) sound' later
      refine ⟨pivotArc', ?_, sound'', fun none_ => by cases (rest none_).1⟩
      simp only [test, bind, Except.bind, if_true, taken]
      exact run
    | false =>
      have useless : ¬ G.ImprovingIndex sub potential a := fun improves => by
        cases meaning.2 improves
      obtain ⟨pivotArc', run, sound'', rest⟩ := ih pivotArc sound later
      refine ⟨pivotArc', ?_, sound'', fun none_ => ⟨(rest none_).1, ?_⟩⟩
      · simp only [test, bind, Except.bind, Bool.false_eq_true, if_false, pure, Except.pure]
        exact run
      · exact forall_mem_cons.2 ⟨useless, (rest none_).2⟩

/-- What a rule has to return. -/
def ExactPivot (G : DiGraph n m) (sub : Fin m → ℚ) (potential : Fin n → ℚ)
    (pivotArc : Option ℕ) : Prop :=
  match pivotArc with
  | some a => ∃ b, arcIndex b = a ∧ 0 < G.resCap sub b ∧ G.redLength potential b < 0
  | none => ¬ ∃ b, 0 < G.resCap sub b ∧ G.redLength potential b < 0

theorem exactPivot_of_sound (sound : Sound G sub potential pivotArc)
    (complete : pivotArc = none → ∀ b, ¬ G.Improving sub potential b) :
    ExactPivot G sub potential pivotArc := by
  cases pivotArc with
  | none => exact fun ⟨b, improves⟩ => complete rfl b improves
  | some a => exact sound a rfl

variable (G sub potential) in
theorem dantzigPricing_spec : ∃ pivotArc, G.dantzigPricing sub potential = .ok pivotArc ∧
      ExactPivot G sub potential pivotArc := by
  obtain ⟨pivotArc, run, sound, complete⟩ := dantzig_foldlM G sub potential
    (List.range (2 * m)) none (fun _ absurd_ => by cases absurd_) fun _ => mem_range.1
  refine ⟨pivotArc, run, exactPivot_of_sound sound fun none_ b improves => ?_⟩
  exact (complete none_).2 _ (mem_range.2 (arcIndex_lt b)) ⟨b, rfl, improves⟩

variable (G sub potential) in
theorem firstEligibleLoop_spec (arcs : 0 < m) (s : Pricing) (l : List ℕ) :
    ∃ pivotArc s', G.firstEligibleLoop sub potential s l = .ok (pivotArc, s') ∧
      (s' = s ∨ ∃ next < 2 * m, s' = { s with nextList := next }) ∧
      Sound G sub potential pivotArc ∧ (pivotArc = none →
        ∀ i ∈ l, ¬ G.ImprovingIndex sub potential ((s.nextList + i) % (2 * m))) := by
  have pos : 0 < 2 * m := by omega
  induction l with
  | nil => exact ⟨none, s, rfl, Or.inl rfl, (fun _ absurd_ => by cases absurd_), by simp⟩
  | cons i rest ih =>
    obtain ⟨flag, test, meaning⟩ := improvesAt_spec G sub potential
      (Nat.mod_lt (s.nextList + i) pos)
    unfold MixedGraph.firstEligibleLoop
    simp only [test, bind, Except.bind]
    cases flag with
    | true =>
      refine ⟨some _, _, if_pos rfl, Or.inr ⟨_, Nat.mod_lt _ pos, rfl⟩,
        fun a eq => ?_, fun absurd_ => by cases absurd_⟩
      rw [← Option.some.inj eq]
      exact meaning.1 rfl
    | false =>
      obtain ⟨pivotArc, s', run, frame, sound, complete⟩ := ih
      refine ⟨pivotArc, s', ?_, frame, sound, fun none_ => ?_⟩
      · rw [if_neg Bool.false_ne_true]
        exact run
      · exact forall_mem_cons.2 ⟨(fun improves => by cases meaning.2 improves),
          complete none_⟩

/-- A scan of all arcs from any start finds an eligible one. -/
theorem no_improving_of_rotation (begins : start < 2 * m) (scanned : ∀ i ∈ List.range (2 * m),
      ¬ G.ImprovingIndex sub potential ((start + i) % (2 * m))) (b : Arc m) :
    ¬ G.Improving sub potential b := by
  intro improves
  obtain ⟨i, low, there⟩ := exists_rotation begins (arcIndex_lt b)
  refine scanned i (mem_range.2 low) ?_
  rw [there]
  exact ⟨b, rfl, improves⟩

/-! ## The candidate list -/

section

variable (G : DiGraph n m) (sub : Fin m → ℚ) (potential : Fin n → ℚ) (limit : ℕ)

/-- What the two list rules know while they collect candidates: a list that is not empty
has given a pivot arc. -/
structure Collected
    (s : Pricing) (pivotArc : Option ℕ) : Prop where
  listed : s.Listed limit
  sound : Sound G sub potential pivotArc
  found : 0 < s.l → pivotArc ≠ none

/-- The same for `swapList`, while `keepCandidates` writes it. -/
structure Kept
    (kept : (ℕ → ℕ) × ℕ × Option ℕ) : Prop where
  entries : ∀ i < kept.2.1, kept.1 i < limit
  sound : Sound G sub potential kept.2.2
  found : 0 < kept.2.1 → kept.2.2 ≠ none

end

variable {s : Pricing} {limit : ℕ} {pivotArc : Option ℕ} {kept : (ℕ → ℕ) × ℕ × Option ℕ}
  {arcOf : ℕ → Except Raise ℕ}

theorem keepCandidate_spec (listed : s.Listed limit)
    (decodes : ∀ x < limit, ∃ a < 2 * m, arcOf x = .ok a) (before : Kept G sub potential limit kept)
    (low : i < s.l) (room : kept.2.1 < s.l) :
    ∃ kept', G.keepCandidate sub potential arcOf s kept i = .ok kept' ∧
      kept'.2.1 ≤ kept.2.1 + 1 ∧ Kept G sub potential limit kept' := by
  have size := listed.size
  have entry : s.read s.hotList i = .ok (s.hotList i) := if_pos (by omega)
  obtain ⟨a, index, decoded⟩ := decodes _ (listed.entries i low)
  obtain ⟨flag, test, meaning⟩ := improvesAt_spec G sub potential index
  unfold MixedGraph.keepCandidate
  simp only [entry, decoded, test, bind, Except.bind]
  cases flag with
  | true =>
    obtain ⟨c, taken, sound⟩ := preferred_spec before.sound (meaning.1 rfl)
    refine ⟨(update kept.1 kept.2.1 (s.hotList i), kept.2.1 + 1, some c), ?_,
      le_refl _, ⟨Pricing.entries_update before.entries (listed.entries i low), sound,
        fun _ => Option.some_ne_none c⟩⟩
    simp only [if_true, Pricing.write_eq (show kept.2.1 < s.j + s.k by omega), taken, pure,
      Except.pure]
  | false => exact ⟨kept, rfl, Nat.le_succ _, before⟩

variable (G sub potential) in
theorem keepCandidate_foldlM (listed : s.Listed limit)
    (decodes : ∀ x < limit, ∃ a < 2 * m, arcOf x = .ok a) (l : List ℕ)
    (low : ∀ i ∈ l, i < s.l) (kept : (ℕ → ℕ) × ℕ × Option ℕ)
    (room : kept.2.1 + l.length ≤ s.l) (before : Kept G sub potential limit kept) :
    ∃ kept', l.foldlM (G.keepCandidate sub potential arcOf s) kept = .ok kept' ∧
      kept'.2.1 ≤ s.l ∧ Kept G sub potential limit kept' := by
  induction l generalizing kept with
  | nil => exact ⟨kept, rfl, room, before⟩
  | cons i l ih =>
    rw [length_cons] at room
    obtain ⟨next, step, grown, after⟩ :=
      keepCandidate_spec listed decodes before (low i mem_cons_self) (by omega)
    obtain ⟨kept', run, short, last⟩ :=
      ih (fun i' mem => low i' (mem_cons_of_mem i mem)) next (by omega) after
    refine ⟨kept', ?_, short, last⟩
    simp only [foldlM_cons, step, bind, Except.bind]
    exact run

variable (G sub potential) in
/-- The candidates of the previous call are filtered within the arrays. -/
theorem keepCandidates_spec (listed : s.Listed limit)
    (decodes : ∀ x < limit, ∃ a < 2 * m, arcOf x = .ok a) :
    ∃ s' pivotArc, G.keepCandidates sub potential arcOf s = .ok (s', pivotArc) ∧
      s.Frame s' ∧ Collected G sub potential limit s' pivotArc := by
  obtain ⟨kept, run, short, after⟩ := keepCandidate_foldlM G sub potential
    listed decodes (List.range s.l) (fun _ => mem_range.1) (s.swapList, 0, none)
    (by simp) ⟨(fun _ low => by cases low), (fun _ absurd_ => by cases absurd_),
      fun pos => by cases pos⟩
  refine ⟨{ s with hotList := kept.1, swapList := s.hotList, l := kept.2.1 }, kept.2.2, ?_,
    ⟨rfl, rfl, rfl, rfl⟩, ⟨⟨short.trans listed.size, after.entries⟩, after.sound, after.found⟩⟩
  unfold MixedGraph.keepCandidates
  rw [run]
  rfl

theorem Collected.append (before : Collected G sub potential limit s pivotArc)
    (room : s.l < s.j + s.k) (low : x < limit) (improves : G.ImprovingIndex sub potential a) :
    ∃ s' c, s.append x = .ok s' ∧ G.preferred potential pivotArc a = .ok (some c) ∧
      s.Frame s' ∧ s'.l = s.l + 1 ∧ Collected G sub potential limit s' (some c) := by
  obtain ⟨s', appended, frame, grown, listed⟩ := Pricing.append_spec before.listed room low
  obtain ⟨c, taken, sound⟩ := preferred_spec before.sound improves
  exact ⟨s', c, appended, taken, frame, grown,
    ⟨listed, sound, fun _ => Option.some_ne_none c⟩⟩

/-! ## PartialPricing -/

theorem fillUp_spec (arcs : 0 < m) (start : ℕ) (l : List ℕ) (s : Pricing)
    (pivotArc : Option ℕ) (last : ℕ) (candidates : 0 < s.k)
    (before : Collected G sub potential (2 * m) s pivotArc) :
    ∃ s' pivotArc' last', G.fillUp sub potential start l s pivotArc last =
        .ok (s', pivotArc', last') ∧
      s.Frame s' ∧ Collected G sub potential (2 * m) s' pivotArc' ∧ (pivotArc' = none →
        pivotArc = none ∧ ∀ i ∈ l, ¬ G.ImprovingIndex sub potential ((start + i) % (2 * m))) := by
  induction l generalizing s pivotArc last with
  | nil => exact ⟨s, pivotArc, last, rfl, .refl s, before, fun none_ => ⟨none_, by simp⟩⟩
  | cons i rest ih =>
    have index : (start + i) % (2 * m) < 2 * m := Nat.mod_lt _ (by omega)
    unfold MixedGraph.fillUp
    by_cases room : s.l < s.j + s.k
    · obtain ⟨flag, test, meaning⟩ := improvesAt_spec G sub potential index
      simp only [if_pos room, test, bind, Except.bind]
      cases flag with
      | true =>
        obtain ⟨next, c, appended, taken, frame, -, after⟩ :=
          before.append room index (meaning.1 rfl)
        obtain ⟨s', pivotArc', last', run, frame', collected, complete⟩ :=
          ih next (some c) _ (frame.k ▸ candidates) after
        refine ⟨s', pivotArc', last', ?_, frame.trans frame', collected, fun none_ => ?_⟩
        · simp only [appended, taken, if_true]
          exact run
        · exact absurd (complete none_).1 (Option.some_ne_none c)
      | false =>
        obtain ⟨s', pivotArc', last', run, frame', collected, complete⟩ :=
          ih s pivotArc _ candidates before
        refine ⟨s', pivotArc', last', ?_, frame', collected, fun none_ => ?_⟩
        · rw [if_neg Bool.false_ne_true]
          exact run
        · exact ⟨(complete none_).1, forall_mem_cons.2
            ⟨(fun improves => by cases meaning.2 improves), (complete none_).2⟩⟩
    · refine ⟨s, pivotArc, last, if_neg room, .refl s, before, fun none_ => ?_⟩
      exact absurd none_ (before.found (by omega))

theorem partialPricing_spec (arcs : 0 < m) (ready : s.Ready m (2 * m) (2 * m)) :
    ∃ pivotArc s', G.partialPricing sub potential s = .ok (pivotArc, s') ∧
      s'.Ready m (2 * m) (2 * m) ∧ ExactPivot G sub potential pivotArc := by
  obtain ⟨s1, pivotArc1, filtered, frame1, collected1⟩ := keepCandidates_spec G sub potential
    ready.listed fun x low => ⟨x, low, rfl⟩
  have fits1 := ready.fits.frame frame1
  have next1 : s1.nextList < 2 * m := by rw [frame1.nextList]; exact ready.next
  unfold MixedGraph.partialPricing
  rw [filtered]
  by_cases short : s1.l ≤ s1.j
  · obtain ⟨s2, pivotArc2, last, filled, frame2, collected2, complete⟩ := fillUp_spec arcs
      s1.nextList (List.range (2 * m)) s1 pivotArc1 s1.nextList fits1.some_candidates collected1
    refine ⟨pivotArc2, { s2 with nextList := (last + 1) % (2 * m) }, ?_, ⟨?_, ?_, ?_⟩, ?_⟩
    · simp only [bind, Except.bind, if_pos short, filled, pure, Except.pure]
    · obtain ⟨a, b, c⟩ := fits1.frame frame2
      exact ⟨a, b, c⟩
    · obtain ⟨a, b⟩ := collected2.listed
      exact ⟨a, b⟩
    · exact Nat.mod_lt _ (by omega)
    · exact exactPivot_of_sound collected2.sound fun none_ =>
        no_improving_of_rotation next1 (complete none_).2
  · refine ⟨pivotArc1, s1, if_neg short, ⟨fits1, collected1.listed, next1⟩,
      exactPivot_of_sound collected1.sound fun none_ => ?_⟩
    exact absurd none_ (collected1.found (by omega))

/-! ## MultiplePartialPricing -/

variable (G potential) in
theorem directionOf_index (x : ℕ) (low : x < m) :
    ∃ a < 2 * m, G.directionOf potential x = .ok a := by
  obtain ⟨b, -, decoded, -⟩ := directionOf_spec G (fun _ => 0) potential ⟨x, low⟩
  exact ⟨arcIndex b, arcIndex_lt b, decoded⟩

/-- Neither direction of the edge is eligible. -/
def EdgeClear (G : DiGraph n m) (sub : Fin m → ℚ) (potential : Fin n → ℚ) (e : ℕ) : Prop :=
  ∀ b : Arc m, b.edge = e → ¬ G.Improving sub potential b

theorem sublistEdge_spec (i : ℕ) (before : Collected G sub potential m s pivotArc)
    (room : s.l < s.j + s.k) :
    ∃ s' pivotArc', G.sublistEdge sub potential (s, pivotArc) i = .ok (s', pivotArc') ∧
      s.Frame s' ∧ s'.l ≤ s.l + 1 ∧ Collected G sub potential m s' pivotArc' ∧ (pivotArc' = none →
        pivotArc = none ∧ EdgeClear G sub potential (i * s.r + s.nextList)) := by
  unfold MixedGraph.sublistEdge
  by_cases beyond : 2 * m ≤ 2 * (i * s.r + s.nextList)
  · refine ⟨s, pivotArc, if_pos beyond, .refl s, Nat.le_succ _, before, fun none_ =>
      ⟨none_, fun b here => ?_⟩⟩
    have low := b.edge.isLt
    omega
  have low : i * s.r + s.nextList < m := by omega
  obtain ⟨b, there, decoded, best⟩ := directionOf_spec G sub potential
    ⟨i * s.r + s.nextList, low⟩
  obtain ⟨flag, test, meaning⟩ := improvesAt_spec G sub potential (arcIndex_lt b)
  rw [improvingIndex_arcIndex] at meaning
  simp only [if_neg beyond, decoded, test, bind, Except.bind]
  cases flag with
  | true =>
    obtain ⟨s', c, appended, taken, frame, grown, after⟩ :=
      before.append room low ⟨b, rfl, meaning.1 rfl⟩
    refine ⟨s', some c, ?_, frame, grown.le, after, fun none_ => by cases none_⟩
    simp only [appended, taken, if_true, pure, Except.pure]
  | false =>
    refine ⟨s, pivotArc, rfl, .refl s, Nat.le_succ _, before, fun none_ =>
      ⟨none_, fun b' here improves => ?_⟩⟩
    cases meaning.2 (best b' (Fin.ext here) improves)

theorem sublist_foldlM (l : List ℕ) (s : Pricing) (pivotArc : Option ℕ)
    (before : Collected G sub potential m s pivotArc) (room : s.l + l.length ≤ s.j + s.k) :
    ∃ s' pivotArc', l.foldlM (G.sublistEdge sub potential) (s, pivotArc) = .ok (s', pivotArc') ∧
      s.Frame s' ∧ Collected G sub potential m s' pivotArc' ∧ (pivotArc' = none →
        pivotArc = none ∧ ∀ i ∈ l, EdgeClear G sub potential (i * s.r + s.nextList)) := by
  induction l generalizing s pivotArc with
  | nil => exact ⟨s, pivotArc, rfl, .refl s, before, fun none_ => ⟨none_, by simp⟩⟩
  | cons i l ih =>
    rw [length_cons] at room
    obtain ⟨next, pivot, step, frame, grown, after, clear⟩ :=
      sublistEdge_spec i before (by omega)
    obtain ⟨s', pivotArc', run, frame', collected, complete⟩ := ih next pivot after (by
      rw [frame.j, frame.k]
      omega)
    refine ⟨s', pivotArc', ?_, frame.trans frame', collected, fun none_ => ?_⟩
    · simp only [foldlM_cons, step, bind, Except.bind]
      exact run
    · have rest := complete none_
      rw [frame.r, frame.nextList] at rest
      exact ⟨(clear rest.1).1, forall_mem_cons.2 ⟨(clear rest.1).2, rest.2⟩⟩

/-- The sizes are those of `s`, and the next sublist is `place`. -/
structure AtSublist (s : Pricing) (place : ℕ) (s' : Pricing) : Prop where
  k : s'.k = s.k
  j : s'.j = s.j
  r : s'.r = s.r
  nextList : s'.nextList = place

/-- **The sublists are scanned in rotation**, until the list is long enough or all of them
have been scanned: when `scanned` many, from the sublist `saved` on, have given nothing, then
the rest of the loop finds a pivot arc, unless the others give nothing either. -/
theorem sublistLoop_spec (strides : 0 < s.r) (low : saved < s.r) (left : ℕ) :
    ∀ (scanned : ℕ) (s1 : Pricing) (pivotArc : Option ℕ), scanned + left = s.r → 0 < left →
      AtSublist s ((saved + scanned) % s.r) s1 → Collected G sub potential m s1 pivotArc →
      ∃ s' pivotArc' place, loop .fuel (G.sublistStep sub potential saved) (left + 1)
          (s1, pivotArc) = .ok (s', pivotArc') ∧
        place < s.r ∧ AtSublist s place s' ∧ Collected G sub potential m s' pivotArc' ∧
        (pivotArc' = none → pivotArc = none ∧ ∀ u, scanned ≤ u → u < s.r → ∀ i < s.k,
          EdgeClear G sub potential (i * s.r + (saved + u) % s.r)) := by
  induction left with
  | zero => intro _ _ _ _ pos; exact absurd pos (lt_irrefl 0)
  | succ left ih =>
    intro scanned s1 pivotArc total _ place before
    by_cases short : s1.l ≤ s1.j
    · obtain ⟨s2, pivotArc2, pass, frame, after, clear⟩ :=
        sublist_foldlM (List.range s1.k) s1 pivotArc before (by
          rw [length_range]
          omega)
      have strides2 : s2.r = s.r := frame.r.trans place.r
      have next : (s2.nextList + 1) % s2.r = (saved + (scanned + 1)) % s.r := by
        rw [strides2, frame.nextList, place.nextList, Nat.mod_add_mod, Nat.add_assoc]
      have here : pivotArc2 = none → pivotArc = none ∧ ∀ i < s.k,
          EdgeClear G sub potential (i * s.r + (saved + scanned) % s.r) := by
        intro none_
        have scan := clear none_
        rw [place.k, place.r, place.nextList] at scan
        exact ⟨scan.1, fun i below => scan.2 i (mem_range.2 below)⟩
      have turned := rotation_eq_iff low (Nat.succ_pos scanned) (by omega)
      have moved : AtSublist s ((saved + (scanned + 1)) % s.r)
          { s2 with nextList := (s2.nextList + 1) % s2.r } :=
        ⟨frame.k.trans place.k, frame.j.trans place.j, strides2, next⟩
      have collected : Collected G sub potential m
          { s2 with nextList := (s2.nextList + 1) % s2.r } pivotArc2 :=
        ⟨⟨after.listed.size, after.listed.entries⟩, after.sound, after.found⟩
      by_cases closed : scanned + 1 = s.r
      · have back : (s2.nextList + 1) % s2.r = saved := next.trans (turned.2 closed)
        refine ⟨_, pivotArc2, _, loop_inr ?_ _, Nat.mod_lt _ strides, moved, collected,
          fun none_ => ⟨(here none_).1, fun u from_ below i inside => ?_⟩⟩
        · unfold MixedGraph.sublistStep
          simp only [if_pos short, pass, bind, Except.bind, if_pos back, pure, Except.pure]
        · have last : u = scanned := by omega
          rw [last]
          exact (here none_).2 i inside
      have onward : ¬ (s2.nextList + 1) % s2.r = saved := fun back =>
        closed (turned.1 (next.symm.trans back))
      obtain ⟨s', pivotArc', end_, run, inside, at_, collected', complete⟩ :=
        ih (scanned + 1) _ pivotArc2 (by omega) (by omega) moved collected
      refine ⟨s', pivotArc', end_, ?_, inside, at_, collected',
        fun none_ => ?_⟩
      · rw [loop_inl]
        · exact run
        · unfold MixedGraph.sublistStep
          simp only [if_pos short, pass, bind, Except.bind, if_neg onward, pure, Except.pure]
      · have rest := complete none_
        have first := here rest.1
        refine ⟨first.1, fun u from_ below i inside => ?_⟩
        by_cases now : u = scanned
        · rw [now]
          exact first.2 i inside
        · exact rest.2 u (by omega) below i inside
    · refine ⟨s1, pivotArc, _, loop_inr ?_ _, Nat.mod_lt _ strides, place, before,
        fun none_ => ?_⟩
      · unfold MixedGraph.sublistStep
        simp only [if_neg short, bind, Except.bind, pure, Except.pure]
      · exact absurd none_ (before.found (by omega))

theorem multiplePartialPricing_spec (ready : s.Ready m m s.r) :
    ∃ pivotArc s', G.multiplePartialPricing sub potential s = .ok (pivotArc, s') ∧
      s'.Ready m m s'.r ∧ ExactPivot G sub potential pivotArc := by
  obtain ⟨s1, pivotArc1, filtered, frame, collected⟩ :=
    keepCandidates_spec G sub potential ready.listed (directionOf_index G potential)
  have fits := ready.fits.frame frame
  have low : s1.nextList < s1.r := by
    rw [frame.nextList, frame.r]
    exact ready.next
  obtain ⟨s', pivotArc, place, run, inside, at_, collected', complete⟩ :=
    sublistLoop_spec fits.some_lists low s1.r 0 s1 pivotArc1
      (Nat.zero_add _) fits.some_lists ⟨rfl, rfl, rfl, (Nat.mod_eq_of_lt low).symm⟩ collected
  have eq : s.r = s1.r := frame.r.symm
  refine ⟨pivotArc, s', ?_, ⟨⟨?_, ?_, ?_⟩, collected'.listed, ?_⟩,
    exactPivot_of_sound collected'.sound fun none_ b improves => ?_⟩
  · unfold MixedGraph.multiplePartialPricing
    simp only [filtered, bind, Except.bind, eq, run, pure, Except.pure]
  · rw [at_.k]
    exact fits.some_candidates
  · rw [at_.r]
    exact fits.some_lists
  · rw [at_.r, at_.k]
    exact fits.covers
  · rw [at_.r, at_.nextList]
    exact inside
  · obtain ⟨i, below, sublist, number, edge⟩ :=
      exists_sublist fits.some_lists (lt_of_lt_of_le b.edge.isLt fits.covers)
    obtain ⟨u, turn, there⟩ := exists_rotation low number
    refine (complete none_).2 u (Nat.zero_le u) turn i below b ?_ improves
    rw [there]
    exact edge.symm

/-! ## Every rule, after every history -/

/-- What the calls of a rule keep: the range of the list entries, and of the places where a
scan can start. -/
def Keeps (m : ℕ) (rule : PricingRule) (s : Pricing) : Prop :=
  match rule with
  | .multiplePartialPricing => s.Ready m m s.r
  | _ => s.Ready m (2 * m) (2 * m)

theorem keeps_new (arcs : 0 < m) (rule : PricingRule) (hotList swapList : ℕ → ℕ) :
    Keeps m rule (Pricing.new m hotList swapList) := by
  have fits := Pricing.fits_new arcs hotList swapList
  have listed : ∀ limit, (Pricing.new m hotList swapList).Listed limit :=
    fun limit => ⟨Nat.zero_le _, fun i low => absurd low (Nat.not_lt_zero i)⟩
  cases rule with
  | multiplePartialPricing => exact ⟨fits, listed m, fits.some_lists⟩
  | partialPricing | dantzigPricing | firstEligiblePricing =>
    exact ⟨fits, listed (2 * m), Nat.mul_pos two_pos arcs⟩

variable (G sub potential) in
theorem price_spec (arcs : 0 < m) (rule : PricingRule) (keeps : Keeps m rule s) :
    ∃ pivotArc s', G.price sub potential rule s = .ok (pivotArc, s') ∧ Keeps m rule s' ∧
      ExactPivot G sub potential pivotArc := by
  cases rule with
  | partialPricing => exact partialPricing_spec arcs keeps
  | multiplePartialPricing => exact multiplePartialPricing_spec keeps
  | dantzigPricing =>
    obtain ⟨pivotArc, run, exact_⟩ := dantzigPricing_spec G sub potential
    refine ⟨pivotArc, s, ?_, keeps, exact_⟩
    simp only [MixedGraph.price, run, bind, Except.bind, pure, Except.pure]
  | firstEligiblePricing =>
    obtain ⟨pivotArc, s', run, frame, sound, complete⟩ :=
      firstEligibleLoop_spec G sub potential arcs s (List.range (2 * m))
    refine ⟨pivotArc, s', run, ?_, exactPivot_of_sound sound fun none_ =>
      no_improving_of_rotation keeps.next (complete none_)⟩
    rcases frame with eq | ⟨next, low, moved⟩
    · rw [eq]
      exact keeps
    · rw [moved]
      exact ⟨⟨keeps.fits.some_candidates, keeps.fits.some_lists, keeps.fits.covers⟩,
        ⟨keeps.listed.size, keeps.listed.entries⟩, low⟩

theorem keeps_of_reached (arcs : 0 < m) {rule : PricingRule}
    (reached : Pricing.Reached n m rule s) : Keeps m rule s := by
  induction reached with
  | constructed hotList swapList => exact keeps_new arcs rule hotList swapList
  | called G sub potential _ call ih =>
    obtain ⟨_, s', run, keeps, -⟩ := price_spec G sub potential arcs rule ih
    rw [run] at call
    cases call
    exact keeps

/-- Two parallel arcs of the lengths `-1` and `-2`. -/
def improvableArcs : DiGraph 2 2 :=
  .ofArcs (fun _ => 0) (fun _ => 1) (fun _ => 1) (fun _ => 0) ![-1, -2] (fun _ => 0)

end DiGraph

end Goblin
