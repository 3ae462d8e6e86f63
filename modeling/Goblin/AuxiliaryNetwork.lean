import Goblin.MaxFlow

/-!
# The layered auxiliary network

The network of Dinic's method. Phase one collects, at every node, the arcs by
which the search may reach it (the props of the node). In phase two the props
are consumed: `FindPath` follows live props backwards from the target,
`TopErasure` removes a saturated prop and then, transitively, every node that
has lost its last live prop.

A prop is live while it has residual capacity and its start node has not been
erased. The counter `currentDegree` of a node is the number of its live props;
while nodes wait to be erased, their outgoing props still count
(`DegreeInv`). The props in front of `currentIndex` are never live again
(`IndexInv`).
-/

set_option autoImplicit false

namespace Goblin

open Library List Function

variable {left : ℕ} {x : ℚ}

/-- `layeredAuxNetwork` with its investigator. -/
structure AuxNetwork (n m : ℕ) where
  prop : Fin n → List (Arc m)
  successor : Fin n → List (Arc m)
  currentDegree : Fin n → ℕ
  currentIndex : Fin n → ℕ

namespace AuxNetwork

variable {n m : ℕ}

def init : AuxNetwork n m := ⟨fun _ => [], fun _ => [], fun _ => 0, fun _ => 0⟩

def phase2 (aux : AuxNetwork n m) : AuxNetwork n m :=
  { aux with
    currentDegree := fun v => (aux.prop v).length
    currentIndex := fun _ => 0 }

def blocked (s : Fin n) (degree : Fin n → ℕ) (v : Fin n) : Bool :=
  decide (v ≠ s) && decide (degree v = 0)

end AuxNetwork

namespace MixedGraph

variable {n m : ℕ} (G : MixedGraph n m)

def insertProp (aux : AuxNetwork n m) (a : Arc m) : AuxNetwork n m :=
  { aux with
    prop := update aux.prop (G.endNode a) (aux.prop (G.endNode a) ++ [a])
    successor := update aux.successor (G.startNode a)
      (aux.successor (G.startNode a) ++ [a]) }

/-- The inner loop of `FindPath`: skip the props that are saturated or start at
a blocked node. The list holds the props from position `i` on. -/
def skipDead (sub : Fin m → ℚ) (s : Fin n) (degree : Fin n → ℕ) :
    List (Arc m) → ℕ → Except Raise (ℕ × Arc m)
  | [], _ => .error (.rejected "Peek" "No more arcs")
  | a :: rest, i =>
    if AuxNetwork.blocked s degree (G.startNode a) = true ∨ G.resCap sub a = 0 then
      skipDead sub s degree rest (i + 1)
    else .ok (i, a)

/-- The path that `FindPath` has found: the positions of the investigator, the
predecessor labels and the bottleneck. -/
structure FoundPath (n m : ℕ) where
  currentIndex : Fin n → ℕ
  pred : Fin n → Option (Arc m)
  lambda : ℚ

/-- The main loop of `FindPath`. -/
def findPathFrom (sub : Fin m → ℚ) (s : Fin n) (aux : AuxNetwork n m) :
    ℕ → Fin n → FoundPath n m → Except Raise (FoundPath n m)
  | 0, _, _ => .error .fuel
  | left + 1, v, found =>
    if v = s then .ok found
    else do
      let (i, a) ← G.skipDead sub s aux.currentDegree
        ((aux.prop v).drop (found.currentIndex v)) (found.currentIndex v)
      findPathFrom sub s aux left (G.startNode a)
        { currentIndex := update found.currentIndex v i
          pred := update found.pred v (some a)
          lambda := G.narrow sub found.lambda a }

def findPath (sub : Fin m → ℚ) (s t : Fin n) (aux : AuxNetwork n m)
    (pred : Fin n → Option (Arc m)) : Except Raise (FoundPath n m) := do
  let found ← G.findPathFrom sub s aux n t ⟨aux.currentIndex, pred, infFloat⟩
  if found.lambda ≤ 0 then .error (.internal "FindPath" "Path has no residual capacity")
  else return found

/-- One successor of an erased node. -/
def eraseRead (sub : Fin m → ℚ) (st : (Fin n → ℕ) × List (Fin n)) (a : Arc m) :
    (Fin n → ℕ) × List (Fin n) :=
  let y := G.endNode a
  if 0 < G.resCap sub a then
    let degree := update st.1 y (st.1 y - 1)
    (degree, if degree y = 0 then st.2 ++ [y] else st.2)
  else st

/-- The loop of `TopErasure` over the queue of blocked nodes. -/
def eraseLoop (sub : Fin m → ℚ) (successor : Fin n → List (Arc m)) :
    ℕ → (Fin n → ℕ) → List (Fin n) → Except Raise (Fin n → ℕ)
  | _, degree, [] => .ok degree
  | 0, _, _ :: _ => .error .fuel
  | left + 1, degree, x :: queue =>
    let next := (successor x).foldl (G.eraseRead sub) (degree, queue)
    eraseLoop sub successor left next.1 next.2

def topErasure (sub : Fin m → ℚ) (aux : AuxNetwork n m) (a : Arc m) :
    Except Raise (AuxNetwork n m) :=
  let x := G.endNode a
  if (aux.prop x).length ≤ aux.currentIndex x then .error (.rejected "Skip" "No more arcs")
  else
    let index := update aux.currentIndex x (aux.currentIndex x + 1)
    let degree := update aux.currentDegree x (aux.currentDegree x - 1)
    if degree x = 0 then do
      let degree ← G.eraseLoop sub aux.successor n degree [x]
      return { aux with currentDegree := degree, currentIndex := index }
    else .ok { aux with currentDegree := degree, currentIndex := index }

/-! ## Invariants of the props -/

/-- The props lead from layers of smaller rank; the successors are the same
arcs, sorted by their start nodes. -/
structure Layered (s : Fin n) (rank : Fin n → ℕ) (aux : AuxNetwork n m) : Prop where
  source : rank s = 0
  rank_lt : ∀ v, rank v < n
  prop_end : ∀ v, ∀ a ∈ aux.prop v, G.dst a = v
  prop_rank : ∀ v, ∀ a ∈ aux.prop v, rank (G.src a) < rank v
  prop_nodup : ∀ v, (aux.prop v).Nodup
  mem_successor : ∀ x a, a ∈ aux.successor x ↔ G.src a = x ∧ a ∈ aux.prop (G.dst a)
  successor_nodup : ∀ x, (aux.successor x).Nodup

/-- A prop counts while it has residual capacity and its start node is neither
erased nor, among the arcs still to be processed, released. -/
def counts (sub : Fin m → ℚ) (s : Fin n) (degree : Fin n → ℕ) (pending : List (Fin n))
    (l : List (Arc m)) (a : Arc m) : Bool :=
  decide (0 < G.resCap sub a ∧
    (G.src a = s ∨ degree (G.src a) ≠ 0 ∨ G.src a ∈ pending ∨ a ∈ l))

/-- The degree of a node is the number of its props that count. -/
def DegreeInv (sub : Fin m → ℚ) (s : Fin n) (prop : Fin n → List (Arc m)) (degree : Fin n → ℕ)
    (pending : List (Fin n)) (l : List (Arc m)) : Prop :=
  ∀ v, v ≠ s → degree v = (prop v).countP (G.counts sub s degree pending l)

variable {G} {sub : Fin m → ℚ} {s : Fin n} {rank : Fin n → ℕ} {aux : AuxNetwork n m}
  {l late : List (Arc m)} {a b : Arc m} {st : (Fin n → ℕ) × List (Fin n)} {degree : Fin n → ℕ}
  {queue : List (Fin n)} {v : Fin n}

/-- A prop that stops counting lowers the count of its list by one. -/
theorem countP_of_drop {f g : Arc m → Bool} (nodup : l.Nodup) (member : a ∈ l) (before : f a = true)
    (after : g a = false) (others : ∀ b ∈ l, b ≠ a → g b = f b) : l.countP f = l.countP g + 1 := by
  induction l with
  | nil => cases member
  | cons b l ih =>
    obtain ⟨fresh, nodup⟩ := nodup_cons.1 nodup
    by_cases here : b = a
    · subst here
      have eq : l.countP g = l.countP f := by
        refine countP_congr fun c inRest => ?_
        rw [others c (mem_cons_of_mem _ inRest) (fun equal => fresh (equal ▸ inRest))]
      rw [countP_cons_of_pos before, countP_cons_of_neg (by simp [after]), eq]
    · have later : a ∈ l := (mem_cons.1 member).resolve_left (Ne.symm here)
      have rest := ih nodup later fun c inRest => others c (mem_cons_of_mem _ inRest)
      have head := others b mem_cons_self here
      rw [countP_cons, countP_cons, rest, head]
      omega

/-! ## Erasing nodes -/

section

variable (G : MixedGraph n m) (sub : Fin m → ℚ) (s : Fin n)

/-- The degrees while the arcs of `late` have been saturated but not yet erased: these still
count as well. -/
def LateDegreeInv
    (prop : Fin n → List (Arc m)) (late : List (Arc m)) (degree : Fin n → ℕ)
    (pending : List (Fin n)) (l : List (Arc m)) : Prop :=
  ∀ v, v ≠ s → degree v = (prop v).countP (G.counts sub s degree pending l) +
    late.countP fun a => decide (G.dst a = v)

/-- The state while the successors of the erased node `x` are processed: `l`
are those still to come. -/
structure Erasing (rank : Fin n → ℕ)
    (aux : AuxNetwork n m) (late : List (Arc m)) (x : Fin n) (l : List (Arc m))
    (st : (Fin n → ℕ) × List (Fin n)) : Prop where
  degrees : G.LateDegreeInv sub s aux.prop late st.1 st.2 l
  pending : ∀ y ∈ st.2, y ≠ s ∧ st.1 y = 0
  nodup : st.2.Nodup
  erased : x ≠ s ∧ st.1 x = 0 ∧ x ∉ st.2

end

/-- Nodes that are not erased yet or wait to be processed. -/
def eraseMeasure (st : (Fin n → ℕ) × List (Fin n)) : ℕ :=
  (Finset.univ.filter fun v => st.1 v ≠ 0).card + st.2.length

/-- One step of the erasure keeps its invariant, lowers no degree of a node
whose rank is at most that of `x`, and never raises a degree. -/
theorem eraseRead_spec {x : Fin n} (layered : G.Layered s rank aux)
    (fromX : ∀ b ∈ a :: l, b ∈ aux.successor x) (nodup : (a :: l).Nodup)
    (erasing : Erasing G sub s rank aux late x (a :: l) st) :
    Erasing G sub s rank aux late x l (G.eraseRead sub st a) ∧
      eraseMeasure (G.eraseRead sub st a) = eraseMeasure st ∧
      (∀ v, (G.eraseRead sub st a).1 v ≤ st.1 v) ∧
      (∀ v, rank v ≤ rank x → (G.eraseRead sub st a).1 v = st.1 v) ∧
      ∀ y ∈ (G.eraseRead sub st a).2, y ∈ st.2 ∨ rank x < rank y := by
  obtain ⟨start, isProp⟩ := (layered.mem_successor x a).1 (fromX a mem_cons_self)
  obtain ⟨fresh, -⟩ := nodup_cons.1 nodup
  obtain ⟨xNotSource, xZero, xNotPending⟩ := erasing.erased
  by_cases residual : 0 < G.resCap sub a
  · have rankLess : rank x < rank (G.dst a) := start ▸ layered.prop_rank _ a isProp
    have yNotSource : G.dst a ≠ s := by
      intro eq
      rw [eq, layered.source] at rankLess
      omega
    have yNotX : G.dst a ≠ x := by
      intro eq
      rw [eq] at rankLess
      omega
    have before : G.counts sub s st.1 st.2 (a :: l) a = true := by
      simp [counts, residual]
    have yPos : 1 ≤ st.1 (G.dst a) := by
      rw [erasing.degrees _ yNotSource]
      exact Nat.le_add_right_of_le (countP_pos_iff.2 ⟨a, isProp, before⟩)
    have yNotPending : G.dst a ∉ st.2 := by
      intro member
      have zero := (erasing.pending _ member).2
      omega
    set degree := update st.1 (G.dst a) (st.1 (G.dst a) - 1) with degreeEq
    set queue := (if degree (G.dst a) = 0 then st.2 ++ [G.dst a] else st.2) with queueEq
    have res : G.eraseRead sub st a = (degree, queue) := by
      simp only [eraseRead, residual, if_true]
      rfl
    have degreeY : degree (G.dst a) = st.1 (G.dst a) - 1 := by simp [degreeEq]
    have degreeOther : ∀ v, v ≠ G.dst a → degree v = st.1 v := fun v other =>
      update_of_ne other _ _
    have mem_queue : ∀ y, y ∈ queue ↔ y ∈ st.2 ∨ (y = G.dst a ∧ degree (G.dst a) = 0) := by
      intro y
      rw [queueEq]
      split_ifs with zero <;> simp [zero]
    -- being unblocked or pending is not affected by the step
    have open' : ∀ v, (degree v ≠ 0 ∨ v ∈ queue) ↔ (st.1 v ≠ 0 ∨ v ∈ st.2) := by
      intro v
      by_cases eq : v = G.dst a
      · subst eq
        constructor
        · exact fun _ => .inl (by omega)
        · intro _
          by_cases zero : degree (G.dst a) = 0
          · exact .inr ((mem_queue _).2 (.inr ⟨rfl, zero⟩))
          · exact .inl zero
      · rw [degreeOther v eq, mem_queue]
        simp [eq]
    have sameCount : ∀ b, b ≠ a →
        G.counts sub s degree queue l b = G.counts sub s st.1 st.2 (a :: l) b := by
      intro b other
      have iff := open' (G.src b)
      simp only [counts, mem_cons, other, false_or]
      congr 1
      rw [← or_assoc (a := degree (G.src b) ≠ 0), iff, or_assoc]
    have after : G.counts sub s degree queue l a = false := by
      have closed : ¬ (degree (G.src a) ≠ 0 ∨ G.src a ∈ queue) := by
        rw [open', start]
        rintro (nonzero | member)
        · exact nonzero xZero
        · exact xNotPending member
      rw [not_or] at closed
      simp [counts, start ▸ xNotSource, not_not.1 closed.1, closed.2, fresh]
    rw [res]
    refine ⟨⟨?_, ?_, ?_, ?_⟩, ?_, ?_, ?_, ?_⟩
    · intro v notSource
      dsimp only
      by_cases eq : v = G.dst a
      · subst eq
        have drop := countP_of_drop (layered.prop_nodup _) isProp before after
          fun b _ other => sameCount b other
        have old := erasing.degrees _ notSource
        rw [degreeY]
        omega
      · rw [degreeOther v eq, erasing.degrees v notSource]
        refine congrArg (· + _) (countP_congr fun b inProp => ?_)
        have other : b ≠ a := by
          rintro rfl
          exact eq (layered.prop_end v b inProp).symm
        rw [sameCount b other]
    · intro y member
      rcases (mem_queue y).1 member with old | ⟨rfl, zero⟩
      · have facts := erasing.pending y old
        refine ⟨facts.1, ?_⟩
        exact (degreeOther y fun eq => yNotPending (eq ▸ old)).trans facts.2
      · exact ⟨yNotSource, zero⟩
    · rw [queueEq]
      split_ifs
      · refine nodup_append.2 ⟨erasing.nodup, by simp, ?_⟩
        intro y old z last
        rw [mem_singleton] at last
        rintro rfl
        exact yNotPending (last ▸ old)
      · exact erasing.nodup
    · refine ⟨xNotSource, ?_, ?_⟩
      · exact (degreeOther x yNotX.symm).trans xZero
      · intro member
        rcases (mem_queue x).1 member with old | ⟨eq, -⟩
        · exact xNotPending old
        · exact yNotX eq.symm
    · -- a node that loses its last prop moves from the first summand to the second
      simp only [eraseMeasure]
      by_cases zero : degree (G.dst a) = 0
      · have cards : (Finset.univ.filter fun v => st.1 v ≠ 0) =
            insert (G.dst a) (Finset.univ.filter fun v => degree v ≠ 0) := by
          ext v
          by_cases eq : v = G.dst a
          · subst eq
            simp
            omega
          · simp [eq, degreeOther v eq]
        rw [cards, Finset.card_insert_of_notMem (by simp [zero]), queueEq, if_pos zero]
        simp
        omega
      · have cards : (Finset.univ.filter fun v => st.1 v ≠ 0) =
            Finset.univ.filter fun v => degree v ≠ 0 := by
          ext v
          by_cases eq : v = G.dst a
          · subst eq
            simp [zero]
            omega
          · simp [degreeOther v eq]
        rw [cards, queueEq, if_neg zero]
    · intro v
      by_cases eq : v = G.dst a
      · subst eq
        exact degreeY.trans_le (Nat.sub_le _ _)
      · exact (degreeOther v eq).le
    · intro v low
      refine degreeOther v ?_
      rintro rfl
      omega
    · intro y member
      rcases (mem_queue y).1 member with old | ⟨rfl, -⟩
      · exact .inl old
      · exact .inr rankLess
  · have res : G.eraseRead sub st a = st := by simp [eraseRead, residual]
    rw [res]
    refine ⟨⟨?_, erasing.pending, erasing.nodup, erasing.erased⟩, rfl, fun _ => le_refl _,
      fun _ _ => rfl, fun y member => .inl member⟩
    intro v notSource
    rw [erasing.degrees v notSource]
    refine congrArg (· + _) (countP_congr fun b _ => ?_)
    by_cases eq : b = a
    · subst eq
      simp [counts, residual]
    · simp [counts, eq]

theorem eraseRead_foldl {x : Fin n} (l : List (Arc m)) (layered : G.Layered s rank aux)
    (fromX : ∀ b ∈ l, b ∈ aux.successor x) (nodup : l.Nodup)
    (erasing : Erasing G sub s rank aux late x l st) :
    Erasing G sub s rank aux late x [] (l.foldl (G.eraseRead sub) st) ∧
      eraseMeasure (l.foldl (G.eraseRead sub) st) = eraseMeasure st ∧
      (∀ v, (l.foldl (G.eraseRead sub) st).1 v ≤ st.1 v) ∧
      (∀ v, rank v ≤ rank x → (l.foldl (G.eraseRead sub) st).1 v = st.1 v) ∧
      ∀ y ∈ (l.foldl (G.eraseRead sub) st).2, y ∈ st.2 ∨ rank x < rank y := by
  induction l generalizing st with
  | nil => exact ⟨erasing, rfl, fun _ => le_refl _, fun _ _ => rfl, fun y member => .inl member⟩
  | cons a l ih =>
    obtain ⟨erasing', measure, falls, keeps, queue⟩ :=
      eraseRead_spec layered fromX nodup erasing
    obtain ⟨final, measure', falls', keeps', queue'⟩ :=
      ih (fun b member => fromX b (mem_cons_of_mem _ member)) (nodup_cons.1 nodup).2
        erasing'
    refine ⟨final, measure'.trans measure, fun v => (falls' v).trans (falls v),
      fun v low => (keeps' v low).trans (keeps v low), fun y member => ?_⟩
    rcases queue' y member with earlier | high
    · exact queue y earlier
    · exact .inr high

/-- The state between two erased nodes. -/
structure Pending (G : MixedGraph n m) (sub : Fin m → ℚ) (s : Fin n) (rank : Fin n → ℕ)
    (aux : AuxNetwork n m) (late : List (Arc m)) (degree : Fin n → ℕ) (queue : List (Fin n)) :
    Prop where
  degrees : G.LateDegreeInv sub s aux.prop late degree queue []
  pending : ∀ y ∈ queue, y ≠ s ∧ degree y = 0
  nodup : queue.Nodup

/-- Taking a node from the queue turns its successors into arcs to be
processed. -/
theorem Pending.pop {x : Fin n} (layered : G.Layered s rank aux)
    (pending : Pending G sub s rank aux late degree (x :: queue)) :
    Erasing G sub s rank aux late x (aux.successor x) (degree, queue) := by
  obtain ⟨fresh, nodup⟩ := nodup_cons.1 pending.nodup
  obtain ⟨notSource, zero⟩ := pending.pending x mem_cons_self
  refine ⟨?_, fun y member => pending.pending y (mem_cons_of_mem _ member), nodup,
    notSource, zero, fresh⟩
  intro v other
  dsimp only
  rw [pending.degrees v other]
  refine congrArg (· + _) (countP_congr fun b inProp => ?_)
  have release : b ∈ aux.successor x ↔ G.src b = x := by
    rw [layered.mem_successor, layered.prop_end v b inProp]
    exact ⟨And.left, fun start => ⟨start, inProp⟩⟩
  simp only [counts, release, mem_cons, not_mem_nil, or_false, decide_eq_true_eq]
  rw [or_comm (a := G.src b = x)]

theorem eraseLoop_spec (bound : ℕ) (layered : G.Layered s rank aux)
    (pending : Pending G sub s rank aux late degree queue) (high : ∀ y ∈ queue, bound ≤ rank y)
    (enough : eraseMeasure (degree, queue) ≤ left) :
    ∃ degree', G.eraseLoop sub aux.successor left degree queue = .ok degree' ∧
      G.LateDegreeInv sub s aux.prop late degree' [] [] ∧ (∀ v, degree' v ≤ degree v) ∧
      ∀ v, rank v ≤ bound → degree' v = degree v := by
  induction left generalizing degree queue with
  | zero =>
    cases queue with
    | nil => exact ⟨degree, rfl, pending.degrees, fun _ => le_refl _, fun _ _ => rfl⟩
    | cons x queue =>
      simp only [eraseMeasure, length_cons] at enough
      omega
  | succ left ih =>
    cases queue with
    | nil =>
      exact ⟨degree, by simp [eraseLoop], pending.degrees, fun _ => le_refl _,
        fun _ _ => rfl⟩
    | cons x queue =>
      obtain ⟨erased, measure, falls, keeps, entered⟩ :=
        eraseRead_foldl (aux.successor x) layered (fun _ member => member)
          (layered.successor_nodup x) (pending.pop layered)
      have xHigh := high x mem_cons_self
      obtain ⟨degree', res, inv, falls', keeps'⟩ :=
        ih ⟨erased.degrees, erased.pending, erased.nodup⟩
          (fun y member => by
            rcases entered y member with old | above
            · exact high y (mem_cons_of_mem _ old)
            · omega)
          (by
            have shorter : eraseMeasure (degree, x :: queue) =
                eraseMeasure (degree, queue) + 1 := by
              simp only [eraseMeasure, length_cons]
              omega
            have eq : eraseMeasure (((aux.successor x).foldl (G.eraseRead sub)
                (degree, queue)).1, ((aux.successor x).foldl (G.eraseRead sub)
                (degree, queue)).2) = eraseMeasure (degree, queue) := measure
            omega)
      refine ⟨degree', res, inv, fun v => (falls' v).trans (falls v), fun v low => ?_⟩
      exact (keeps' v low).trans (keeps v (low.trans xHigh))

/-! ## Saturated props -/

/-- The props in front of the current one are not live. -/
def IndexInv (G : MixedGraph n m) (sub : Fin m → ℚ) (s : Fin n) (prop : Fin n → List (Arc m))
    (degree index : Fin n → ℕ) : Prop :=
  ∀ v, ∀ a ∈ (prop v).take (index v), G.counts sub s degree [] [] a = false

/-- Props that are not live stay so when degrees and residual capacities do
not rise. -/
theorem IndexInv.mono {sub' : Fin m → ℚ} {prop : Fin n → List (Arc m)} {degree' index : Fin n → ℕ}
    (inv : IndexInv G sub s prop degree index) (falls : ∀ v, degree' v ≤ degree v)
    (shrinks : ∀ v, ∀ a ∈ prop v, G.resCap sub' a ≤ G.resCap sub a) :
    IndexInv G sub' s prop degree' index := by
  intro v a member
  have dead := inv v a member
  have less := shrinks v a (mem_of_mem_take member)
  have lower := falls (G.src a)
  simp only [counts, not_mem_nil, or_false, decide_eq_false_iff_not, not_and_or,
    not_or, not_not, not_lt] at dead ⊢
  rcases dead with saturated | ⟨notSource, zero⟩
  · exact .inl (less.trans saturated)
  · exact .inr ⟨notSource, by omega⟩

/-- The state of the network in phase two, between two pushes. -/
structure PhaseInv (G : MixedGraph n m) (sub : Fin m → ℚ) (s : Fin n) (rank : Fin n → ℕ)
    (aux : AuxNetwork n m) : Prop where
  layered : G.Layered s rank aux
  degrees : G.DegreeInv sub s aux.prop aux.currentDegree [] []
  indices : G.IndexInv sub s aux.prop aux.currentDegree aux.currentIndex

section

variable (rank : Fin n → ℕ) (bound : ℕ) (aux : AuxNetwork n m)

/-- What erasing and pushing leave alone: the props, and everything at the
nodes of rank below `bound`. -/
structure SameBelow (aux' : AuxNetwork n m) : Prop where
  prop : aux'.prop = aux.prop
  degree : ∀ v, rank v < bound → aux'.currentDegree v = aux.currentDegree v
  index : ∀ v, rank v < bound → aux'.currentIndex v = aux.currentIndex v

theorem SameBelow.refl :
    SameBelow rank bound aux aux :=
  ⟨rfl, fun _ _ => rfl, fun _ _ => rfl⟩

end

section

variable (layered : G.Layered s rank aux)
include layered

theorem Layered.congr {aux' : AuxNetwork n m}
    (prop : aux'.prop = aux.prop) (successor : aux'.successor = aux.successor) :
    G.Layered s rank aux' where
  source := layered.source
  rank_lt := layered.rank_lt
  prop_end := prop ▸ layered.prop_end
  prop_rank := prop ▸ layered.prop_rank
  prop_nodup := prop ▸ layered.prop_nodup
  mem_successor := by
    rw [prop, successor]
    exact layered.mem_successor
  successor_nodup := successor ▸ layered.successor_nodup

section

variable (isProp : a ∈ aux.prop (G.dst a)) (member : b ∈ aux.prop v) (other : b ≠ a) (x : ℚ)
include isProp member other

/-- Pushing a prop affects no other prop, since the reversal of a prop is not a
prop. -/
theorem Layered.resCap_push : G.resCap (push sub a x) b = G.resCap sub b := by
  refine resCap_congr (push_of_ne sub a x fun eq => ?_)
  rcases Dart.eq_or_eq_rev eq with equal | opposite
  · exact other equal
  · have up := layered.prop_rank _ a isProp
    have endB := layered.prop_end v b member
    have down := layered.prop_rank v b member
    rw [← endB, opposite, Network.src_rev, Network.dst_rev] at down
    omega

theorem Layered.counts_push (degree : Fin n → ℕ) :
    G.counts (push sub a x) s degree [] [] b = G.counts sub s degree [] [] b := by
  simp only [counts, layered.resCap_push isProp member other x]

end

end

section

variable (G : MixedGraph n m) (sub : Fin m → ℚ)

/-- What the loop of Dinic's method does to the network after a push. -/
def eraseIfSaturated (aux : AuxNetwork n m) (a : Arc m) :
    Except Raise (AuxNetwork n m) :=
  if G.resCap sub a = 0 then G.topErasure sub aux a else .ok aux

/-- The state of the network in phase two while the arcs of `late`, the current props of their
end nodes, have been saturated but not yet erased. -/
structure LatePhaseInv (s : Fin n) (rank : Fin n → ℕ)
    (aux : AuxNetwork n m) (late : List (Arc m)) : Prop where
  layered : G.Layered s rank aux
  degrees : G.LateDegreeInv sub s aux.prop late aux.currentDegree [] []
  indices : G.IndexInv sub s aux.prop aux.currentDegree aux.currentIndex
  current : ∀ a ∈ late, (aux.prop (G.dst a))[aux.currentIndex (G.dst a)]? = some a
  saturated : ∀ a ∈ late, G.resCap sub a = 0
  nodup : late.Nodup

end

theorem latePhaseInv_nil : LatePhaseInv G sub s rank aux [] ↔ PhaseInv G sub s rank aux := by
  constructor
  · intro inv
    refine ⟨inv.layered, fun v other => ?_, inv.indices⟩
    simpa using inv.degrees v other
  · intro inv
    refine ⟨inv.layered, fun v other => ?_, inv.indices, by simp, by simp, nodup_nil⟩
    simpa using inv.degrees v other

section

variable (inv : LatePhaseInv G sub s rank aux late)
include inv

theorem LatePhaseInv.eq_of_dst
    (cur : (aux.prop (G.dst a))[aux.currentIndex (G.dst a)]? = some a) (inB : b ∈ late)
    (eq : G.dst b = G.dst a) : b = a := by
  have other := inv.current b inB
  rw [eq, cur] at other
  exact (Option.some.inj other).symm

theorem LatePhaseInv.pushLive (within : G.WithinBounds sub) (isProp : a ∈ aux.prop (G.dst a))
    (cur : (aux.prop (G.dst a))[aux.currentIndex (G.dst a)]? = some a)
    (live : G.counts sub s aux.currentDegree [] [] a = true) (pos : 0 < x)
    (room : x ≤ G.resCap sub a) : LatePhaseInv G (push sub a x) s rank aux
      (if G.resCap (push sub a x) a = 0 then a :: late else late) := by
  have layered := inv.layered
  have within' := withinBounds_push within pos.le room
  have pushed := (resCap_of_pushed within within' (push_same sub a x)).1
  have livePos : 0 < G.resCap sub a := by
    simp only [counts, decide_eq_true_eq] at live
    exact live.1
  have fresh : a ∉ late := by
    intro member
    exact livePos.ne' (inv.saturated a member)
  have lateCap : ∀ b ∈ late, G.resCap (push sub a x) b = 0 := by
    intro b member
    have inProp : b ∈ aux.prop (G.dst b) := mem_of_getElem? (inv.current b member)
    rw [layered.resCap_push isProp inProp (fun eq => fresh (eq ▸ member)) x]
    exact inv.saturated b member
  have shrinks : ∀ v, ∀ b ∈ aux.prop v, G.resCap (push sub a x) b ≤ G.resCap sub b := by
    intro v b member
    by_cases here : b = a
    · subst here
      linarith
    · exact (layered.resCap_push isProp member here x).le
  have indices := inv.indices.mono (fun v => le_refl _) shrinks
  have others : ∀ v, ∀ b ∈ aux.prop v, b ≠ a →
      G.counts (push sub a x) s aux.currentDegree [] [] b =
        G.counts sub s aux.currentDegree [] [] b := fun v b member other =>
    layered.counts_push isProp member other x _
  have elsewhere : ∀ v, v ≠ G.dst a → ∀ b ∈ aux.prop v, b ≠ a := by
    rintro v other b member rfl
    exact other (layered.prop_end v b member).symm
  split_ifs with saturated
  · refine ⟨layered, ?_, indices, ?_, ?_, nodup_cons.2 ⟨fresh, inv.nodup⟩⟩
    · have dead : G.counts (push sub a x) s aux.currentDegree [] [] a = false := by
        simp [counts, saturated]
      intro v notSource
      by_cases here : v = G.dst a
      · subst here
        have drop := countP_of_drop (layered.prop_nodup _) isProp live dead (others _)
        rw [inv.degrees _ notSource, drop, countP_cons_of_pos (by simp)]
        omega
      · rw [inv.degrees v notSource, countP_cons_of_neg (by simpa using Ne.symm here)]
        refine congrArg (· + _) (countP_congr fun b member => ?_)
        rw [others v b member (elsewhere v here b member)]
    · intro b member
      rcases mem_cons.1 member with rfl | earlier
      · exact cur
      · exact inv.current b earlier
    · intro b member
      rcases mem_cons.1 member with rfl | earlier
      · exact saturated
      · exact lateCap b earlier
  · refine ⟨layered, ?_, indices, inv.current, lateCap, inv.nodup⟩
    have left : 0 < G.resCap (push sub a x) a :=
      lt_of_le_of_ne (resCap_nonneg within' a) (Ne.symm saturated)
    intro v other
    rw [inv.degrees v other]
    refine congrArg (· + _) (countP_congr fun b member => ?_)
    by_cases here : b = a
    · subst here
      simp only [counts, decide_eq_true_eq] at live ⊢
      exact ⟨fun _ => ⟨left, live.2⟩, fun _ => live⟩
    · rw [others v b member here]

/-- **Removing a late arc**: its end node loses one of the props that count, and so do,
transitively, the ends of the live props of erased nodes. -/
theorem topErasure_spec (isLate : a ∈ late) : ∃ aux', G.topErasure sub aux a = .ok aux' ∧
      LatePhaseInv G sub s rank aux' (late.erase a) ∧ SameBelow rank (rank (G.dst a)) aux aux' := by
  have layered := inv.layered
  have cur := inv.current a isLate
  have saturated := inv.saturated a isLate
  have isProp : a ∈ aux.prop (G.dst a) := mem_of_getElem? cur
  have notSource : G.dst a ≠ s := by
    intro eq
    have lower := layered.prop_rank _ a isProp
    rw [eq, layered.source] at lower
    omega
  set x := G.dst a with xEq
  set degree := update aux.currentDegree x (aux.currentDegree x - 1) with degreeEq
  set index := update aux.currentIndex x (aux.currentIndex x + 1) with indexEq
  set queue := (if degree x = 0 then [x] else []) with queueEq
  have degreeX : degree x = aux.currentDegree x - 1 := by simp [degreeEq]
  have degreeOther : ∀ v, v ≠ x → degree v = aux.currentDegree v := fun v other =>
    update_of_ne other _ _
  have inRange : aux.currentIndex x < (aux.prop x).length :=
    (List.getElem?_eq_some_iff.1 cur).1
  have oldDegree := inv.degrees x notSource
  have lateX : (late.countP fun b => decide (G.dst b = x)) =
      ((late.erase a).countP fun b => decide (G.dst b = x)) + 1 := by
    have erased := countP_erase (fun b => decide (G.dst b = x)) late a
    have some_late : 0 < late.countP fun b => decide (G.dst b = x) :=
      countP_pos_iff.2 ⟨a, isLate, by simp [xEq]⟩
    simp only [isLate, ← xEq, decide_true, and_self, if_true] at erased
    omega
  have lateOther : ∀ v, v ≠ x → ((late.erase a).countP fun b => decide (G.dst b = v)) =
      late.countP fun b => decide (G.dst b = v) := by
    intro v other
    have erased := countP_erase (fun b => decide (G.dst b = v)) late a
    simp only [← xEq, Ne.symm other, decide_false, Bool.false_eq_true, and_false, if_false,
      Nat.sub_zero] at erased
    exact erased
  have alive : ∀ v, (degree v ≠ 0 ∨ v ∈ queue) ↔ aux.currentDegree v ≠ 0 := by
    intro v
    by_cases here : v = x
    · rw [here, degreeX, queueEq, degreeX]
      split_ifs with zero
      · simp
        omega
      · simp
        omega
    · have notQueued : v ∉ queue := by
        rw [queueEq]
        split_ifs <;> simp [here]
      rw [degreeOther v here]
      simp [notQueued]
  have sameCount : ∀ b, G.counts sub s degree queue [] b =
      G.counts sub s aux.currentDegree [] [] b := by
    intro b
    have iff := alive (G.src b)
    simp only [counts, not_mem_nil, or_false, decide_eq_decide]
    rw [iff]
  have degrees : G.LateDegreeInv sub s aux.prop (late.erase a) degree queue [] := by
    intro v other
    rw [countP_congr fun b _ => by rw [sameCount b]]
    by_cases here : v = x
    · rw [here, degreeX]
      omega
    · rw [degreeOther v here, inv.degrees v other, lateOther v here]
  have falls : ∀ v, degree v ≤ aux.currentDegree v := by
    intro v
    by_cases here : v = x
    · rw [here, degreeX]
      omega
    · exact (degreeOther v here).le
  have indices : ∀ degree' : Fin n → ℕ, (∀ v, degree' v ≤ aux.currentDegree v) →
      G.IndexInv sub s aux.prop degree' index := by
    intro degree' lower v b member
    have old := inv.indices.mono lower fun _ _ _ => le_refl _
    by_cases here : v = x
    · rw [here, indexEq, update_self, take_add_one, cur] at member
      rcases mem_append.1 member with before | last
      · exact old x b before
      · rw [Option.toList_some, mem_singleton] at last
        simp [counts, last, saturated]
    · rw [indexEq, update_of_ne here] at member
      exact old v b member
  have currentRest : ∀ b ∈ late.erase a, (aux.prop (G.dst b))[index (G.dst b)]? = some b := by
    intro b member
    obtain ⟨other, inB⟩ := (Nodup.mem_erase_iff inv.nodup).1 member
    rw [indexEq, update_of_ne fun eq => other (inv.eq_of_dst cur inB eq)]
    exact inv.current b inB
  have finish : ∀ degree' : Fin n → ℕ,
      G.LateDegreeInv sub s aux.prop (late.erase a) degree' [] [] →
      (∀ v, degree' v ≤ degree v) → LatePhaseInv G sub s rank
        { aux with currentDegree := degree', currentIndex := index } (late.erase a) :=
    fun degree' final lower => ⟨layered.congr rfl rfl, final,
      indices degree' fun v => (lower v).trans (falls v), currentRest,
      fun b member => inv.saturated b (mem_of_mem_erase member), inv.nodup.erase a⟩
  have indexBelow : ∀ v, rank v < rank x → index v = aux.currentIndex v := by
    rintro v low
    refine update_of_ne ?_ _ _
    rintro rfl
    omega
  have degreeBelow : ∀ v, rank v < rank x → degree v = aux.currentDegree v := by
    rintro v low
    refine degreeOther v ?_
    rintro rfl
    omega
  by_cases zero : degree x = 0
  · have single : queue = [x] := by rw [queueEq, if_pos zero]
    rw [single] at degrees
    have measure : eraseMeasure (degree, [x]) ≤ n := by
      have proper : (Finset.univ.filter fun v => degree v ≠ 0).card < n := by
        have strict := Finset.card_lt_card (Finset.ssubset_univ_iff.2 (by
          intro all
          have member : x ∈ Finset.univ.filter fun v => degree v ≠ 0 := by simp [all]
          simp [zero] at member) : (Finset.univ.filter fun v => degree v ≠ 0) ⊂ Finset.univ)
        simpa using strict
      simp only [eraseMeasure, length_singleton]
      omega
    obtain ⟨degree', res, final, falls', keeps⟩ :=
      eraseLoop_spec (rank x) layered ⟨degrees, by simp [notSource, zero], by simp⟩
        (by simp) measure
    refine ⟨{ aux with currentDegree := degree', currentIndex := index }, ?_,
      finish degree' final falls', ?_⟩
    · simp only [topErasure, ← xEq, not_le.2 inRange, if_false, ← degreeEq, ← indexEq, zero,
        if_true, res, bind, Except.bind, pure, Except.pure]
    · exact ⟨rfl, fun v low => (keeps v low.le).trans (degreeBelow v low), indexBelow⟩
  · have empty : queue = [] := by rw [queueEq, if_neg zero]
    rw [empty] at degrees
    refine ⟨{ aux with currentDegree := degree, currentIndex := index }, ?_,
      finish degree degrees fun v => le_refl _, ⟨rfl, degreeBelow, indexBelow⟩⟩
    simp only [topErasure, ← xEq, not_le.2 inRange, if_false, ← degreeEq, ← indexEq, zero]

end

/-- **One push along a live prop.** The network is brought up to date, and
nothing changes below the end of the prop. -/
theorem eraseIfSaturated_spec (inv : PhaseInv G sub s rank aux) (within : G.WithinBounds sub)
    (isProp : a ∈ aux.prop (G.dst a))
    (cur : (aux.prop (G.dst a))[aux.currentIndex (G.dst a)]? = some a)
    (live : G.counts sub s aux.currentDegree [] [] a = true) (pos : 0 < x)
    (room : x ≤ G.resCap sub a) : ∃ aux', G.eraseIfSaturated (push sub a x) aux a = .ok aux' ∧
      PhaseInv G (push sub a x) s rank aux' ∧ SameBelow rank (rank (G.dst a)) aux aux' := by
  have late := (latePhaseInv_nil.2 inv).pushLive within isProp cur live pos room
  by_cases saturated : G.resCap (push sub a x) a = 0
  · rw [if_pos saturated] at late
    obtain ⟨aux', erased, inv', eq⟩ := topErasure_spec late mem_cons_self
    rw [erase_cons_head] at inv'
    exact ⟨aux', by rw [eraseIfSaturated, if_pos saturated, erased], latePhaseInv_nil.1 inv', eq⟩
  · rw [if_neg saturated] at late
    exact ⟨aux, by rw [eraseIfSaturated, if_neg saturated], latePhaseInv_nil.1 late,
      SameBelow.refl _ _ _⟩

/-! ## Finding a path -/

section

variable (within : G.WithinBounds sub) (degree : Fin n → ℕ)
include within

theorem skipped_iff (a : Arc m) :
    (AuxNetwork.blocked s degree (G.startNode a) = true ∨ G.resCap sub a = 0) ↔
      G.counts sub s degree [] [] a = false := by
  have nonneg := resCap_nonneg within a
  simp only [AuxNetwork.blocked, counts, Bool.and_eq_true, decide_eq_true_eq, not_mem_nil,
    or_false, decide_eq_false_iff_not, not_and_or, not_or, not_not, not_lt]
  constructor
  · rintro (blocked | saturated)
    · exact .inr blocked
    · exact .inl saturated.le
  · rintro (saturated | blocked)
    · exact .inr (le_antisymm saturated nonneg)
    · exact .inl blocked

theorem skipDead_spec (l : List (Arc m))
    (i : ℕ) (some_live : ∃ a ∈ l, G.counts sub s degree [] [] a = true) :
    ∃ j a, G.skipDead sub s degree l i = .ok (i + j, a) ∧ l[j]? = some a ∧
      G.counts sub s degree [] [] a = true ∧
      ∀ b ∈ l.take j, G.counts sub s degree [] [] b = false := by
  induction l generalizing i with
  | nil =>
    obtain ⟨a, member, -⟩ := some_live
    cases member
  | cons a l ih =>
    by_cases live : G.counts sub s degree [] [] a = true
    · refine ⟨0, a, ?_, rfl, live, by simp⟩
      have taken := (skipped_iff (s := s) within degree a).not.2 (by simp [live])
      rw [skipDead, if_neg taken, add_zero]
    have dead : G.counts sub s degree [] [] a = false := by simpa using live
    obtain ⟨b, member, bLive⟩ := some_live
    have later : b ∈ l := by
      rcases mem_cons.1 member with rfl | later
      · exact absurd bLive live
      · exact later
    obtain ⟨j, c, res, position, cLive, before⟩ := ih (i + 1) ⟨b, later, bLive⟩
    refine ⟨j + 1, c, ?_, position, cLive, ?_⟩
    · rw [skipDead, if_pos ((skipped_iff within degree a).2 dead), res]
      congr 2
      omega
    · intro d inFront
      rw [take_succ_cons] at inFront
      rcases mem_cons.1 inFront with rfl | rest
      · exact dead
      · exact before d rest

end

/-- A path of live props from `s` to `v`, read backwards. -/
structure FoundFrom (G : MixedGraph n m) (sub : Fin m → ℚ) (s : Fin n) (rank : Fin n → ℕ)
    (aux : AuxNetwork n m) (v : Fin n) (found found' : FoundPath n m) (p : List (Arc m)) :
    Prop where
  path : BackPath found'.pred G.src s v p
  consistent : ∀ w a, found'.pred w = some a → G.dst a = w
  live : ∀ a ∈ p, G.counts sub s aux.currentDegree [] [] a = true
  isProp : ∀ a ∈ p, a ∈ aux.prop (G.dst a)
  current : ∀ a ∈ p, (aux.prop (G.dst a))[found'.currentIndex (G.dst a)]? = some a
  indices : G.IndexInv sub s aux.prop aux.currentDegree found'.currentIndex
  lambda : found'.lambda = p.foldl (G.narrow sub) found.lambda
  above : ∀ w, rank v < rank w → found'.pred w = found.pred w ∧
    found'.currentIndex w = found.currentIndex w

theorem findPathFrom_spec (found : FoundPath n m) (within : G.WithinBounds sub)
    (layered : G.Layered s rank aux) (degrees : G.DegreeInv sub s aux.prop aux.currentDegree [] [])
    (indices : G.IndexInv sub s aux.prop aux.currentDegree found.currentIndex)
    (consistent : ∀ w a, found.pred w = some a → G.dst a = w) (notSource : v ≠ s)
    (alive : aux.currentDegree v ≠ 0) (enough : rank v < left) :
    ∃ found' p, G.findPathFrom sub s aux left v found = .ok found' ∧
      FoundFrom G sub s rank aux v found found' p := by
  induction left generalizing v found with
  | zero => omega
  | succ left ih =>
    have some_live : ∃ a ∈ (aux.prop v).drop (found.currentIndex v),
        G.counts sub s aux.currentDegree [] [] a = true := by
      have count := degrees v notSource
      obtain ⟨a, member, live⟩ := countP_pos_iff.1 (by omega :
        0 < (aux.prop v).countP (G.counts sub s aux.currentDegree [] []))
      rw [← take_append_drop (found.currentIndex v) (aux.prop v)] at member
      rcases mem_append.1 member with front | rest
      · rw [indices v a front] at live
        cases live
      · exact ⟨a, rest, live⟩
    obtain ⟨j, a, skip, position, live, before⟩ :=
      skipDead_spec within aux.currentDegree _ (found.currentIndex v) some_live
    have atIndex : (aux.prop v)[found.currentIndex v + j]? = some a := by
      rw [getElem?_drop] at position
      exact position
    have member : a ∈ aux.prop v := mem_of_getElem? atIndex
    have endA : G.dst a = v := layered.prop_end v a member
    have lower := layered.prop_rank v a member
    set next : FoundPath n m :=
      { currentIndex := update found.currentIndex v (found.currentIndex v + j)
        pred := update found.pred v (some a)
        lambda := G.narrow sub found.lambda a } with nextEq
    have unfold : G.findPathFrom sub s aux (left + 1) v found =
        G.findPathFrom sub s aux left (G.startNode a) next := by
      rw [findPathFrom, if_neg notSource, skip]
      rfl
    have indices' : G.IndexInv sub s aux.prop aux.currentDegree next.currentIndex := by
      intro w b inFront
      by_cases here : w = v
      · subst here
        rw [nextEq] at inFront
        dsimp only at inFront
        rw [update_self, take_add] at inFront
        rcases mem_append.1 inFront with old | new
        · exact indices w b old
        · exact before b new
      · rw [nextEq] at inFront
        dsimp only at inFront
        rw [update_of_ne here] at inFront
        exact indices w b inFront
    have consistent' : ∀ w b, next.pred w = some b → G.dst b = w := by
      intro w b label
      by_cases here : w = v
      · subst here
        rw [nextEq] at label
        dsimp only at label
        rw [update_self] at label
        cases label
        exact endA
      · rw [nextEq] at label
        dsimp only at label
        rw [update_of_ne here] at label
        exact consistent w b label
    have label : next.pred v = some a := update_self _ _ _
    have index : next.currentIndex v = found.currentIndex v + j := update_self _ _ _
    have aside : ∀ w, rank v < rank w → next.pred w = found.pred w ∧
        next.currentIndex w = found.currentIndex w := by
      intro w high
      have other : w ≠ v := by
        rintro rfl
        omega
      exact ⟨update_of_ne other _ _, update_of_ne other _ _⟩
    rw [unfold]
    by_cases arrived : G.src a = s
    · refine ⟨next, [a], ?_, ?_⟩
      · obtain ⟨left, rfl⟩ : ∃ k, left = k + 1 := ⟨left - 1, by omega⟩
        rw [findPathFrom, if_pos arrived]
      · refine ⟨.last label arrived, consistent', ?_, ?_, ?_, indices', rfl, aside⟩
        · intro b inPath
          rw [mem_singleton.1 inPath]
          exact live
        · intro b inPath
          rw [mem_singleton.1 inPath, endA]
          exact member
        · intro b inPath
          rw [mem_singleton.1 inPath, endA, index]
          exact atIndex
    · have srcAlive : aux.currentDegree (G.src a) ≠ 0 := by
        have facts := live
        simp only [counts, decide_eq_true_eq, not_mem_nil, or_false, arrived,
          false_or] at facts
        exact facts.2
      obtain ⟨found', p, res, rest⟩ :=
        ih next indices' consistent' arrived srcAlive (by omega)
      have kept := rest.above v lower
      refine ⟨found', a :: p, res, ?_⟩
      refine ⟨.step (kept.1.trans label) arrived rest.path, rest.consistent, ?_, ?_, ?_,
        rest.indices, rest.lambda, ?_⟩
      · intro b inPath
        rcases mem_cons.1 inPath with rfl | later
        · exact live
        · exact rest.live b later
      · intro b inPath
        rcases mem_cons.1 inPath with rfl | later
        · rw [endA]
          exact member
        · exact rest.isProp b later
      · intro b inPath
        rcases mem_cons.1 inPath with rfl | later
        · rw [endA, kept.2, index]
          exact atIndex
        · exact rest.current b later
      · intro w high
        obtain ⟨predSame, indexSame⟩ := rest.above w (lower.trans high)
        obtain ⟨predSame', indexSame'⟩ := aside w high
        exact ⟨predSame.trans predSame', indexSame.trans indexSame'⟩

/-- **`FindPath` succeeds** at every unblocked node, with the bottleneck of a
path of live props. -/
theorem findPath_spec {t : Fin n} {pred : Fin n → Option (Arc m)}
    (within : G.WithinBounds sub) (inv : PhaseInv G sub s rank aux)
    (consistent : ∀ w a, pred w = some a → G.dst a = w) (notSource : t ≠ s)
    (alive : aux.currentDegree t ≠ 0) : ∃ found p, G.findPath sub s t aux pred = .ok found ∧
      FoundFrom G sub s rank aux t ⟨aux.currentIndex, pred, infFloat⟩ found p ∧
      found.lambda = G.bottleneck sub p ∧ 0 < found.lambda := by
  obtain ⟨found, p, res, path⟩ :=
    findPathFrom_spec ⟨aux.currentIndex, pred, infFloat⟩ within inv.layered inv.degrees
      inv.indices consistent notSource alive (inv.layered.rank_lt t)
  have residual : ∀ a ∈ p, 0 < G.resCap sub a := by
    intro a member
    have live := path.live a member
    simp only [counts, decide_eq_true_eq] at live
    exact live.1
  have lambda : found.lambda = G.bottleneck sub p := path.lambda
  have pos : 0 < found.lambda := by
    rw [lambda]
    exact bottleneck_pos within path.path.ne_nil residual
  refine ⟨found, p, ?_, path, lambda, pos⟩
  simp only [findPath, res, bind, Except.bind, not_le.2 pos, if_false, pure, Except.pure]

end MixedGraph

end Goblin
