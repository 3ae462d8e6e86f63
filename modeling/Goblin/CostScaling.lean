import Goblin.BaseTypes
import Goblin.CapacityScaling
import Goblin.StaticQueue

/-!
# Minimum cost flow by cost scaling

A phase of `MCF_CostScaling` saturates the arcs of negative reduced length. Then the nodes with
excess are discharged, in the order of a priority queue: flow is pushed along the arcs of negative
reduced length, and when there is no such arc any more, the potential of the node is lowered by
`epsilon / 2`.

The arcs to push along are kept in static queues, one for every node, with a common array of
links. They are filled by relabel steps only, and the arcs which are no longer of interest are
recognised when they are deleted. Nevertheless the queue of a node has all its residual arcs of
negative reduced length, whether the node has excess or not. So a node is relabelled only if no
residual arc of it has negative length, and the reduced lengths do not fall below `-epsilon / 2`
(`costScaling_phase`).
-/

set_option autoImplicit false

namespace Goblin

open Library List Option Function

variable {l : List ℕ} {i : ℕ}

/-- `Empty` -/
def QueueFamily.isEmpty (q : ℕ) (st : QueueFamily) : Except Raise Bool := do
  let Q ← defined (st.queues q)
  return Q.first = none

/-- What a phase of `MCF_CostScaling` works on. The node that is being discharged is `active`. -/
structure CostPhase (n m : ℕ) (Q : MinQueue.{0, 0, 0} (Fin n) ℚ) where
  sub : Fin m → ℚ
  potential : Fin n → ℚ
  nodeColour : Fin n → UInt64
  queue : Q.Carrier
  admissible : QueueFamily
  active : Option (Fin n)

namespace MixedGraph

variable {n m : ℕ} (G : MixedGraph n m) (Q : MinQueue.{0, 0, 0} (Fin n) ℚ) (epsilon : ℚ)

/-! ## A phase -/

/-- The queues `Admissible`: the first one is constructed, the others are copies. -/
def admissibleQueues (n m handle : ℕ) (set memory : ℕ → ℕ) : Except Raise QueueFamily :=
  (List.range (n - 1)).foldlM (fun adm i => adm.copy 0 (i + 1))
    (QueueFamily.new (2 * m) handle set memory)

section

variable (st : CostPhase n m Q)

/-- `Insert` of the node heap. -/
def enqueue (v : Fin n) : Except Raise (CostPhase n m Q) :=
  if Q.keys st.queue v ≠ none then .error (.rejected "Insert" "Already on queue")
  else .ok { st with queue := Q.insert st.queue v ((st.nodeColour v).toNat : ℚ) }

/-- The arc is inserted to the queue of `v` if it is residual and has negative reduced length. -/
def queueArc (sub : Fin m → ℚ) (potential : Fin n → ℚ) (throws : Bool) (v : Fin n) (a : Arc m)
    (adm : QueueFamily) : Except Raise QueueFamily :=
  if 0 < G.resCap sub a ∧ G.redLength potential a < 0 then adm.insert v (arcIndex a) throws
  else .ok adm

/-- The loop that fills the queues, for one node. -/
def activate (v : Fin n) : Except Raise (CostPhase n m Q) := do
  let st := { st with nodeColour := update st.nodeColour v 0 }
  if G.demand v < G.divergence st.sub v then
    let st ← enqueue Q st v
    let adm ← (G.incidences v).foldlM
      (fun adm a => G.queueArc st.sub st.potential true v a adm) st.admissible
    return { st with admissible := adm }
  else return st

/-- The beginning of a phase. -/
def startPhase : Except Raise (CostPhase n m Q) :=
  (finRange n).foldlM (G.activate Q) { st with sub := G.saturate st.potential 0 st.sub }

/-- The first arc is deleted from the queue of `v`, and flow is pushed along it if it is still
admissible. -/
def dischargeArc (v : Fin n) : Except Raise (CostPhase n m Q) := do
  let (adm, i) ← st.admissible.delete v
  let a ← arcAt m i
  if 0 < G.resCap st.sub a ∧ G.redLength st.potential a < 0 then
    let w := G.endNode a
    let lambda := G.resCap st.sub a
    let lambda := if G.divergence st.sub v - G.demand v < lambda then
      G.divergence st.sub v - G.demand v else lambda
    let sub := push st.sub a lambda
    let adm ← if 0 < G.resCap sub a then adm.insert v i true else pure adm
    let st := { st with sub := sub, admissible := adm }
    if G.demand w < G.divergence sub w ∧ G.divergence sub w - G.demand w ≤ lambda then
      enqueue Q st w
    else return st
  else return { st with admissible := adm }

end

/-- The colour of `w` is lowered if it is below that of `v`. -/
def lowerColour (v : Fin n) (st : CostPhase n m Q) (w : Fin n) :
    Except Raise (CostPhase n m Q) :=
  if st.nodeColour w < st.nodeColour v then
    let st := { st with nodeColour := update st.nodeColour w (st.nodeColour w - 1) }
    if G.demand w < G.divergence st.sub w then
      if Q.keys st.queue w = none then .error (.rejected "ChangeKey" "Not a member")
      else .ok { st with queue := Q.changeKey st.queue w ((st.nodeColour w).toNat : ℚ) }
    else .ok st
  else .ok st

/-- `v` is relabelled and queued again. -/
def relabel (st : CostPhase n m Q) (v : Fin n) : Except Raise (CostPhase n m Q) := do
  let potential := update st.potential v (st.potential v - epsilon / 2)
  let adm ← (G.incidences v).foldlM (fun adm a => do
    let adm ← G.queueArc st.sub potential false v a adm
    G.queueArc st.sub potential false (G.endNode a) a.rev adm) st.admissible
  let st ← (finRange n).foldlM (G.lowerColour Q v)
    { st with potential := potential, admissible := adm }
  enqueue Q { st with nodeColour := update st.nodeColour v 0, active := none } v

/-- The next step: a node is deleted from the heap, an arc is taken from the queue of the active
node, or the active node is relabelled or done. There is no step when the heap is empty. -/
def phaseStep (st : CostPhase n m Q) : Except Raise (Option (CostPhase n m Q)) :=
  match st.active with
  | none =>
    match Q.delete st.queue with
    | none => .ok none
    | some (v, queue) => .ok (some { st with queue := queue, active := some v })
  | some v => do
    if G.demand v < G.divergence st.sub v then
      if ← st.admissible.isEmpty v then
        let st ← G.relabel Q epsilon st v
        return some st
      else
        let st ← G.dischargeArc Q st v
        return some st
    else return some { st with active := none }

/-! ## The queues of arcs -/

variable {G} {handle : ℕ} {adm : QueueFamily} {lists : Lists} {sub : Fin m → ℚ}
  {potential : Fin n → ℚ} {v : Fin n} {a : Arc m}

/-- Every node has a queue of arcs which leave it. -/
structure ArcQueues (G : MixedGraph n m) (handle : ℕ) (adm : QueueFamily) (lists : Lists) :
    Prop where
  represents : adm.Represents handle lists
  capacity : adm.n = 2 * m
  live : ∀ v : Fin n, lists v ≠ none
  leaving : ∀ q l, lists q = some l → ∀ i ∈ l, ∃ a : Arc m, arcIndex a = i ∧ (G.src a : ℕ) = q

namespace ArcQueues

section

variable (queues : G.ArcQueues handle adm lists)
include queues

/-- An arc that is queued is in the queue of its start node. -/
theorem mem_iff
    (live : lists (G.src a) = some l) : lists.Present (arcIndex a) ↔ arcIndex a ∈ l := by
  constructor
  · rintro ⟨q, k, live', mem⟩
    obtain ⟨b, eq, start⟩ := queues.leaving q k live' _ mem
    rw [arcIndex_inj eq] at start
    rw [← start, live] at live'
    cases live'
    exact mem
  · exact fun mem => ⟨_, l, live, mem⟩

theorem insert (start : G.src a = v) (free : ¬ lists.Present (arcIndex a)) (throws : Bool) :
    ∃ adm' lists', adm.insert v (arcIndex a) throws = .ok adm' ∧
      G.ArcQueues handle adm' lists' ∧ (∀ i, lists.Present i → lists'.Present i) ∧
      lists'.Present (arcIndex a) := by
  obtain ⟨l, live⟩ := ne_none_iff_exists'.1 (queues.live v)
  have low : arcIndex a < adm.n := queues.capacity ▸ arcIndex_lt a
  obtain ⟨adm', res, capacity, rep⟩ :=
    queues.represents.insert live low free throws
  refine ⟨adm', _, res, ⟨rep, capacity.trans queues.capacity, fun w => ?_, ?_⟩, ?_, ?_⟩
  · by_cases here : (w : ℕ) = v
    · rw [here, update_self]
      exact some_ne_none _
    · rw [update_of_ne here]
      exact queues.live w
  · intro q k live' i mem
    by_cases here : q = v
    · rw [here, update_self, Option.some.injEq] at live'
      subst live'
      rcases mem_append.1 mem with old | new
      · rw [here]
        exact queues.leaving v l live i old
      · exact ⟨a, (mem_singleton.1 new).symm, by rw [here, start]⟩
    · rw [update_of_ne here] at live'
      exact queues.leaving q k live' i mem
  · intro i present
    rw [Lists.present_update]
    obtain ⟨q, k, live', mem⟩ := present
    by_cases here : q = v
    · rw [here, live] at live'
      cases live'
      exact .inl ⟨_, rfl, mem_append_left _ mem⟩
    · exact .inr ⟨q, k, here, live', mem⟩
  · exact Lists.present_update.2 (.inl ⟨_, rfl, by simp [QueueFamily.push]⟩)

theorem delete (live : lists v = some (i :: l)) :
    ∃ a : Arc m, G.src a = v ∧ arcIndex a = i ∧ ∃ adm' lists', adm.delete v = .ok (adm', i) ∧
      G.ArcQueues handle adm' lists' ∧ ¬ lists'.Present i ∧
      ∀ j, j ≠ i → lists.Present j → lists'.Present j := by
  obtain ⟨a, index, start⟩ := queues.leaving v _ live i mem_cons_self
  obtain ⟨adm', res, capacity, rep⟩ := queues.represents.delete live
  refine ⟨a, Fin.ext start, index, adm', _, res,
    ⟨rep, capacity.trans queues.capacity, fun w => ?_, ?_⟩, ?_, ?_⟩
  · by_cases here : (w : ℕ) = v
    · rw [here, update_self]
      exact some_ne_none _
    · rw [update_of_ne here]
      exact queues.live w
  · intro q k live' j mem
    by_cases here : q = v
    · rw [here, update_self, Option.some.injEq] at live'
      subst live'
      rw [here]
      exact queues.leaving v _ live j (mem_cons_of_mem i mem)
    · rw [update_of_ne here] at live'
      exact queues.leaving q k live' j mem
  · rw [Lists.present_update]
    rintro (⟨k, val, mem⟩ | ⟨q, k, other, live', mem⟩)
    · cases val
      exact (nodup_cons.1 (queues.represents.exclusive.nodup v _ live)).1 mem
    · exact other (queues.represents.exclusive.disjoint q v k _ live' live i mem mem_cons_self)
  · intro j other present
    rw [Lists.present_update]
    obtain ⟨q, k, live', mem⟩ := present
    by_cases here : q = v
    · rw [here, live] at live'
      cases live'
      exact .inl ⟨l, rfl, (mem_cons.1 mem).resolve_left other⟩
    · exact .inr ⟨q, k, here, live', mem⟩

theorem isEmpty (live : lists v = some l) : adm.isEmpty v = .ok (decide (l = [])) := by
  obtain ⟨Q, object, holds, -⟩ := queues.represents.live live
  simp only [QueueFamily.isEmpty, object, defined, bind, Except.bind, pure, Except.pure,
    holds.first, head?_eq_none_iff]

theorem queueArc (sub : Fin m → ℚ) (potential : Fin n → ℚ) (start : G.src a = v) :
    ∃ adm' lists', G.queueArc sub potential false v a adm = .ok adm' ∧
      G.ArcQueues handle adm' lists' ∧ (∀ i, lists.Present i → lists'.Present i) ∧
      (0 < G.resCap sub a ∧ G.redLength potential a < 0 → lists'.Present (arcIndex a)) := by
  unfold MixedGraph.queueArc
  split_ifs with admissible
  · by_cases present : lists.Present (arcIndex a)
    · rw [queues.represents.insert_present (queues.live v) present, if_neg Bool.false_ne_true]
      exact ⟨adm, lists, rfl, queues, fun _ old => old, fun _ => present⟩
    · obtain ⟨adm', lists', res, queues', kept, new⟩ := queues.insert start present false
      exact ⟨adm', lists', res, queues', kept, fun _ => new⟩
  · exact ⟨adm, lists, rfl, queues, fun _ old => old, fun yes => absurd yes admissible⟩

end

theorem incidences (sub : Fin m → ℚ) (potential : Fin n → ℚ) {l : List (Arc m)}
    (start : ∀ b ∈ l, G.src b = v) : ∀ {adm : QueueFamily} {lists : Lists},
    G.ArcQueues handle adm lists →
    ∃ adm' lists', l.foldlM (fun adm a => do
        let adm ← G.queueArc sub potential false v a adm
        G.queueArc sub potential false (G.endNode a) a.rev adm) adm = .ok adm' ∧
      G.ArcQueues handle adm' lists' ∧ (∀ i, lists.Present i → lists'.Present i) ∧
      ∀ b ∈ l, 0 < G.resCap sub b ∧ G.redLength potential b < 0 → lists'.Present (arcIndex b) := by
  induction l with
  | nil => exact fun queues => ⟨_, _, rfl, queues, fun _ old => old, by simp⟩
  | cons a l ih =>
    intro adm lists queues
    obtain ⟨adm1, lists1, first, queues1, kept1, new1⟩ :=
      queues.queueArc sub potential (start a mem_cons_self)
    obtain ⟨adm2, lists2, second, queues2, kept2, -⟩ :=
      queues1.queueArc sub potential (G.src_rev a)
    obtain ⟨adm', lists', rest, queues', kept, new⟩ :=
      ih (fun b mem => start b (mem_cons_of_mem a mem)) queues2
    refine ⟨adm', lists', ?_, queues', fun i old => kept i (kept2 i (kept1 i old)), ?_⟩
    · rw [foldlM_cons, first]
      simp only [bind, Except.bind, second]
      exact rest
    · intro b mem admissible
      rcases mem_cons.1 mem with rfl | later
      · exact kept _ (kept2 _ (new1 admissible))
      · exact new b later admissible

end ArcQueues

/-- **The constructors make empty queues for all nodes.** -/
theorem admissibleQueues_spec (G : MixedGraph n m) (handle : ℕ) (set memory : ℕ → ℕ) :
    ∃ adm lists, admissibleQueues n m handle set memory = .ok adm ∧
      G.ArcQueues handle adm lists := by
  have copies : ∀ k, ∃ adm, (List.range k).foldlM (fun adm i => adm.copy 0 (i + 1))
        (QueueFamily.new (2 * m) handle set memory) = .ok adm ∧ adm.n = 2 * m ∧
      adm.Represents handle fun q => if q ≤ k then some [] else none := by
    intro k
    induction k with
    | zero =>
      refine ⟨_, rfl, rfl, ?_⟩
      have initial : (fun q => if q ≤ 0 then some [] else none) = Lists.initial :=
        funext fun q => if_congr Nat.le_zero rfl rfl
      rw [initial]
      exact QueueFamily.new_represents ..
    | succ k ih =>
      obtain ⟨adm, res, capacity, rep⟩ := ih
      let lists : Lists := fun q => if q ≤ k then some [] else none
      have master : lists 0 ≠ none := by simp [lists]
      have fresh : lists (k + 1) = none := by simp [lists]
      obtain ⟨adm', copied, capacity', rep'⟩ := rep.copy master fresh
      refine ⟨adm', ?_, capacity'.trans capacity, ?_⟩
      · rw [range_succ, foldlM_append, res]
        simp only [bind, Except.bind, foldlM_cons, foldlM_nil, copied]
        rfl
      · convert rep' using 1
        funext q
        by_cases here : q = k + 1
        · rw [here, update_self, if_pos le_rfl]
        · rw [update_of_ne here]
          exact if_congr (by omega) rfl rfl
  obtain ⟨adm, res, capacity, rep⟩ := copies (n - 1)
  refine ⟨adm, _, res, rep, capacity, fun v => ?_, fun q l live i mem => ?_⟩
  · have := v.isLt
    rw [if_pos (by omega)]
    exact some_ne_none _
  · split_ifs at live
    cases live
    cases mem

end MixedGraph

namespace DiGraph

variable {n m : ℕ} {G : DiGraph n m} {Q : MinQueue.{0, 0, 0} (Fin n) ℚ} {handle : ℕ}
  {epsilon : ℚ} {st st' : CostPhase n m Q} {v : Fin n} {sub : Fin m → ℚ}

/-! ## The invariant -/

/-- The invariant of a phase. All admissible arcs are queued, also those of nodes without
excess. -/
structure CostPhaseInv (G : DiGraph n m) (handle : ℕ) (epsilon : ℚ) (st : CostPhase n m Q) :
    Prop where
  within : G.WithinBounds st.sub
  optimal : ∀ a, 0 < G.resCap st.sub a → -(epsilon / 2) ≤ G.redLength st.potential a
  loops : ∀ a, G.src a = G.dst a → 0 < G.resCap st.sub a → 0 ≤ G.redLength st.potential a
  arcs : ∃ lists, G.ArcQueues handle st.admissible lists ∧
    ∀ a, 0 < G.resCap st.sub a ∧ G.redLength st.potential a < 0 → lists.Present (arcIndex a)
  nodes : ∀ v, Q.keys st.queue v ≠ none ↔
    G.demand v < G.divergence st.sub v ∧ st.active ≠ some v
  colours : ∀ v, st.nodeColour v = 0

/-- No phase is going on. -/
structure CostIdle (G : DiGraph n m) (handle : ℕ) (st : CostPhase n m Q) : Prop where
  within : G.WithinBounds st.sub
  arcs : ∃ lists, G.ArcQueues handle st.admissible lists
  empty : ∀ v, Q.keys st.queue v = none
  idle : st.active = none

/-- The node heap takes a node that it does not have. -/
theorem enqueue_ok (st : CostPhase n m Q) (free : Q.keys st.queue v = none) :
    ∃ queue, MixedGraph.enqueue Q st v = .ok { st with queue := queue } ∧
      ∀ w, Q.keys queue w ≠ none ↔ Q.keys st.queue w ≠ none ∨ w = v := by
  refine ⟨Q.insert st.queue v ((st.nodeColour v).toNat : ℚ), ?_, fun w => ?_⟩
  · rw [MixedGraph.enqueue, if_neg (not_not.2 free)]
  · rw [Q.keys_insert _ _ _ free]
    by_cases here : w = v
    · rw [here, update_self]
      exact iff_of_true (some_ne_none _) (.inr rfl)
    · rw [update_of_ne here]
      exact (or_iff_left here).symm

/-- When no arc is admissible, the loop that fills the queues only queues the nodes with
excess. -/
theorem activate_all (st : CostPhase n m Q) (optimal : G.ReducedOptimal st.sub st.potential 0) :
    ∀ (l : List (Fin n)) (queue : Q.Carrier) (colour : Fin n → UInt64), l.Nodup →
    (∀ v ∈ l, Q.keys queue v = none) →
    ∃ queue' colour', l.foldlM (G.activate Q) { st with queue := queue, nodeColour := colour } =
        .ok { st with queue := queue', nodeColour := colour' } ∧
      (∀ v, Q.keys queue' v ≠ none ↔
        Q.keys queue v ≠ none ∨ (v ∈ l ∧ G.demand v < G.divergence st.sub v)) ∧
      ∀ v, colour' v = if v ∈ l then 0 else colour v := by
  intro l
  induction l with
  | nil => exact fun queue colour _ _ => ⟨queue, colour, rfl, by simp, by simp⟩
  | cons u l ih =>
    intro queue colour nodup free
    obtain ⟨notLater, nodup⟩ := nodup_cons.1 nodup
    have freeLater : ∀ v ∈ l, Q.keys queue v = none := fun v mem =>
      free v (mem_cons_of_mem u mem)
    have painted : ∀ v, (if v ∈ l then 0 else update colour u 0 v) =
        if v ∈ u :: l then 0 else colour v := by
      intro v
      by_cases here : v = u
      · subst here
        rw [if_neg notLater, update_self, if_pos mem_cons_self]
      · rw [update_of_ne here]
        exact if_congr (by rw [mem_cons, or_iff_right here]) rfl rfl
    by_cases excess : G.demand u < G.divergence st.sub u
    · obtain ⟨queue1, queued, keys⟩ := enqueue_ok { st with
          queue := queue, nodeColour := update colour u 0 } (free u mem_cons_self)
      have skip : ∀ k : List (Arc m), k.foldlM (fun adm a =>
          G.queueArc st.sub st.potential true u a adm) st.admissible = .ok st.admissible := by
        intro k
        induction k with
        | nil => rfl
        | cons a k skip =>
          rw [foldlM_cons, MixedGraph.queueArc,
            if_neg fun both => not_lt.2 (optimal a both.1) both.2]
          exact skip
      have one : G.activate Q { st with queue := queue, nodeColour := colour } u =
          .ok { st with queue := queue1, nodeColour := update colour u 0 } := by
        unfold MixedGraph.activate
        dsimp only
        rw [if_pos excess, queued]
        simp only [bind, Except.bind, skip]
        rfl
      obtain ⟨queue', colour', rest, keys', colours⟩ := ih queue1 (update colour u 0)
        nodup fun v mem => by
          by_contra present
          rcases (keys v).1 present with old | rfl
          · exact old (freeLater v mem)
          · exact notLater mem
      refine ⟨queue', colour', ?_, fun v => ?_, fun v => (colours v).trans (painted v)⟩
      · rw [foldlM_cons, one]
        exact rest
      · rw [keys', keys, mem_cons]
        constructor
        · rintro ((old | rfl) | ⟨mem, exceeds⟩)
          · exact .inl old
          · exact .inr ⟨.inl rfl, excess⟩
          · exact .inr ⟨.inr mem, exceeds⟩
        · rintro (old | ⟨rfl | mem, exceeds⟩)
          · exact .inl (.inl old)
          · exact .inl (.inr rfl)
          · exact .inr ⟨mem, exceeds⟩
    · have one : G.activate Q { st with queue := queue, nodeColour := colour } u =
          .ok { st with queue := queue, nodeColour := update colour u 0 } := by
        unfold MixedGraph.activate
        dsimp only
        rw [if_neg excess]
        rfl
      obtain ⟨queue', colour', rest, keys', colours⟩ := ih queue (update colour u 0) nodup freeLater
      refine ⟨queue', colour', ?_, fun v => ?_, fun v => (colours v).trans (painted v)⟩
      · rw [foldlM_cons, one]
        exact rest
      · rw [keys', mem_cons]
        refine or_congr_right (and_congr_left fun exceeds => (or_iff_right ?_).symm)
        rintro rfl
        exact excess exceeds

theorem startPhase_spec (pos : 0 < epsilon) (idle : G.CostIdle handle st) :
    ∃ st', G.startPhase Q st = .ok st' ∧ G.CostPhaseInv handle epsilon st' := by
  obtain ⟨within, optimal⟩ := saturate_keeps le_rfl idle.within st.potential
  obtain ⟨queue, colour, res, keys, colours⟩ := activate_all
    { st with sub := G.saturate st.potential 0 st.sub } optimal (finRange n) st.queue
    st.nodeColour (nodup_finRange n) fun v _ => idle.empty v
  refine ⟨_, res, within, fun a residual => ?_, fun a _ residual => optimal a residual, ?_,
    fun v => ?_, fun v => ?_⟩
  · linarith [optimal a residual]
  · obtain ⟨lists, queues⟩ := idle.arcs
    exact ⟨lists, queues, fun a both => absurd both.2 (not_lt.2 (optimal a both.1))⟩
  · refine (keys v).trans ?_
    constructor
    · rintro (old | ⟨-, exceeds⟩)
      · exact absurd (idle.empty v) old
      · refine ⟨exceeds, ?_⟩
        dsimp only
        rw [idle.idle]
        exact nofun
    · exact fun both => .inr ⟨mem_finRange v, both.1⟩
  · dsimp only
    rw [colours v, if_pos (mem_finRange v)]

/-! ## Relabel steps -/

theorem lowerColour_all (st : CostPhase n m Q) (colours : ∀ v, st.nodeColour v = 0) (v : Fin n)
    (l : List (Fin n)) : l.foldlM (G.lowerColour Q v) st = .ok st := by
  induction l with
  | nil => rfl
  | cons w l ih =>
    have skip : G.lowerColour Q v st w = .ok st := if_neg (by simp [colours])
    rw [foldlM_cons, skip]
    exact ih

theorem redLength_relabel (potential : Fin n → ℚ) (v : Fin n) (x : ℚ) (a : Arc m) :
    G.redLength (update potential v (potential v - x)) a =
      G.redLength potential a - (if G.src a = v then x else 0) + if G.dst a = v then x else 0 := by
  have at_ : ∀ w, update potential v (potential v - x) w =
      potential w - if w = v then x else 0 := by
    intro w
    by_cases here : w = v
    · rw [here, update_self, if_pos rfl]
    · rw [update_of_ne here, if_neg here, sub_zero]
  rw [redLength_eq, redLength_eq, at_, at_]
  ring

/-- **A node is relabelled when no residual arc of it has negative reduced length.** -/
theorem relabel_spec (pos : 0 < epsilon) (inv : G.CostPhaseInv handle epsilon st)
    (active : st.active = some v) (excess : G.demand v < G.divergence st.sub v)
    (empty : ∀ a, G.src a = v → 0 < G.resCap st.sub a → 0 ≤ G.redLength st.potential a) :
    ∃ st', G.relabel Q epsilon st v = .ok st' ∧ G.CostPhaseInv handle epsilon st' := by
  obtain ⟨lists, queues, present⟩ := inv.arcs
  let potential := update st.potential v (st.potential v - epsilon / 2)
  obtain ⟨adm, lists', filled, queues', kept, new⟩ := MixedGraph.ArcQueues.incidences st.sub
    potential (fun b mem => (G.mem_incidences v b).1 mem) queues
  have notQueued : Q.keys st.queue v = none := by
    by_contra queued
    exact ((inv.nodes v).1 queued).2 active
  have repainted : ∀ w, update st.nodeColour v 0 w = 0 := by
    intro w
    by_cases here : w = v
    · rw [here, update_self]
    · rw [update_of_ne here]
      exact inv.colours w
  let lowered : CostPhase n m Q := { st with potential := potential, admissible := adm }
  let idle : CostPhase n m Q :=
    { lowered with nodeColour := update st.nodeColour v 0, active := none }
  obtain ⟨queue, queued, keys⟩ := enqueue_ok idle notQueued
  have change := redLength_relabel (G := G) st.potential v (epsilon / 2)
  have leaving : ∀ a, G.src a ≠ v → G.redLength st.potential a ≤ G.redLength potential a := by
    intro a elsewhere
    have val := change a
    rw [if_neg elsewhere] at val
    split_ifs at val <;> linarith
  refine ⟨{ idle with queue := queue }, ?_, inv.within, fun a residual => ?_,
    fun a loop residual => ?_, ⟨lists', queues', fun a both => ?_⟩, fun w => ?_, repainted⟩
  · unfold MixedGraph.relabel
    dsimp only
    rw [filled]
    simp only [bind, Except.bind]
    rw [lowerColour_all lowered inv.colours]
    exact queued
  · by_cases here : G.src a = v
    · have val := change a
      have before := empty a here residual
      rw [if_pos here] at val
      change _ ≤ G.redLength potential a
      split_ifs at val <;> linarith
    · exact (inv.optimal a residual).trans (leaving a here)
  · have val := change a
    rw [loop, sub_add_cancel] at val
    change 0 ≤ G.redLength potential a
    rw [val]
    exact inv.loops a loop residual
  · by_cases here : G.src a = v
    · exact new a ((G.mem_incidences v a).2 here) both
    · exact kept _ (present a ⟨both.1, (leaving a here).trans_lt both.2⟩)
  · rw [keys]
    constructor
    · rintro (old | rfl)
      · exact ⟨((inv.nodes w).1 old).1, nofun⟩
      · exact ⟨excess, nofun⟩
    · rintro ⟨exceeds, -⟩
      by_cases here : w = v
      · exact .inr here
      · refine .inl ((inv.nodes w).2 ⟨exceeds, fun eq => here ?_⟩)
        rw [active] at eq
        exact (Option.some.inj eq).symm

/-! ## Pushes -/

theorem resCap_push {a : Arc m} {x : ℚ} (within : G.WithinBounds sub) (nonneg : 0 ≤ x)
    (room : x ≤ G.resCap sub a) (b : Arc m) :
    (b = a ∧ G.resCap (push sub a x) b = G.resCap sub a - x) ∨
      (b = a.rev ∧ G.resCap (push sub a x) b = G.resCap sub b + x) ∨
      (b ≠ a ∧ G.resCap (push sub a x) b = G.resCap sub b) := by
  have within' := MixedGraph.withinBounds_push within nonneg room
  have values := MixedGraph.resCap_of_pushed within within' (push_same sub a x)
  by_cases edge : b.edge = a.edge
  · rcases Dart.eq_or_eq_rev edge with rfl | rfl
    · exact .inl ⟨rfl, values.1⟩
    · exact .inr (.inl ⟨rfl, values.2⟩)
  · refine .inr (.inr ⟨fun eq => edge (congrArg Dart.edge eq), ?_⟩)
    exact MixedGraph.resCap_congr (push_of_ne sub a x edge)

theorem divergence_push (sub : Fin m → ℚ) (a : Arc m) (x : ℚ) (v : Fin n) :
    G.divergence (push sub a x) v = G.divergence sub v +
      ((if G.dst a = v then x else 0) - if G.src a = v then x else 0) := by
  rw [divergence_eq, divergence_eq, div_push]

/-- **A push keeps the invariant.** The arc is queued again if it has residual capacity left, and
the end node is queued if it had no excess before. -/
theorem dischargeArc_spec (inv : G.CostPhaseInv handle epsilon st) (active : st.active = some v)
    (excess : G.demand v < G.divergence st.sub v) {lists : Lists}
    (queues : G.ArcQueues handle st.admissible lists)
    (present : ∀ a, 0 < G.resCap st.sub a ∧ G.redLength st.potential a < 0 →
      lists.Present (arcIndex a)) (live : lists v = some (i :: l)) :
    ∃ st', G.dischargeArc Q st v = .ok st' ∧ G.CostPhaseInv handle epsilon st' := by
  obtain ⟨a, start, rfl, adm1, lists1, deleted, queues1, free, kept⟩ := queues.delete live
  -- the other arcs are still queued
  have others : ∀ b, b ≠ a → 0 < G.resCap st.sub b ∧ G.redLength st.potential b < 0 →
      lists1.Present (arcIndex b) := fun b other both =>
    kept _ (fun eq => other (arcIndex_inj eq)) (present b both)
  by_cases admissible : 0 < G.resCap st.sub a ∧ G.redLength st.potential a < 0
  · obtain ⟨residual, neg⟩ := admissible
    have apart : G.src a ≠ G.dst a := fun loop =>
      not_lt.2 (inv.loops a loop residual) neg
    -- the amount
    let lambda := if G.divergence st.sub v - G.demand v < G.resCap st.sub a then
      G.divergence st.sub v - G.demand v else G.resCap st.sub a
    have amount : 0 < lambda ∧ lambda ≤ G.resCap st.sub a ∧
        lambda ≤ G.divergence st.sub v - G.demand v := by
      change 0 < ite _ _ _ ∧ ite _ _ _ ≤ _ ∧ ite _ _ _ ≤ _
      split_ifs with less
      · exact ⟨sub_pos.2 excess, less.le, le_rfl⟩
      · exact ⟨residual, le_rfl, not_lt.1 less⟩
    obtain ⟨pos, room, most⟩ := amount
    let sub := push st.sub a lambda
    have within := MixedGraph.withinBounds_push inv.within pos.le room
    have caps := resCap_push inv.within pos.le room
    have divergences := G.divergence_push st.sub a lambda
    have reversed := redLength_rev G st.potential a
    -- no other arc becomes residual, up to the reversal
    have residualBefore : ∀ b, b ≠ a.rev → 0 < G.resCap sub b → 0 < G.resCap st.sub b := by
      intro b forward residual'
      rcases caps b with ⟨rfl, -⟩ | ⟨eq, -⟩ | ⟨-, val⟩
      · exact residual
      · exact absurd eq forward
      · exact val ▸ residual'
    obtain ⟨adm2, lists2, requeued, queues2, present2⟩ : ∃ adm2 lists2,
        (if 0 < G.resCap sub a then adm1.insert v (arcIndex a) true else pure adm1) =
          .ok adm2 ∧ G.ArcQueues handle adm2 lists2 ∧
        ∀ b, 0 < G.resCap sub b ∧ G.redLength st.potential b < 0 → lists2.Present (arcIndex b) := by
      have before : ∀ b, 0 < G.resCap sub b ∧ G.redLength st.potential b < 0 →
          0 < G.resCap st.sub b := fun b both =>
        residualBefore b (by rintro rfl; linarith [both.2]) both.1
      by_cases left : 0 < G.resCap sub a
      · obtain ⟨adm2, lists2, inserted, queues2, kept2, new⟩ := queues1.insert start free true
        refine ⟨adm2, lists2, (if_pos left).trans inserted, queues2, fun b both => ?_⟩
        by_cases here : b = a
        · exact here ▸ new
        · exact kept2 _ (others b here ⟨before b both, both.2⟩)
      · refine ⟨adm1, lists1, if_neg left, queues1, fun b both => ?_⟩
        refine others b ?_ ⟨before b both, both.2⟩
        rintro rfl
        exact left both.1
    let pushed : CostPhase n m Q := { st with sub := sub, admissible := adm2 }
    have rest : ∀ queue, (∀ u, Q.keys queue u ≠ none ↔
        G.demand u < G.divergence sub u ∧ st.active ≠ some u) →
        G.CostPhaseInv handle epsilon { pushed with queue := queue } := by
      refine fun queue nodes => ⟨within, fun b residual' => ?_, fun b loop residual' => ?_,
        ⟨lists2, queues2, present2⟩, nodes, inv.colours⟩
      · by_cases back : b = a.rev
        · change _ ≤ G.redLength st.potential b
          rw [back, reversed]
          linarith [inv.optimal a residual]
        · exact inv.optimal b (residualBefore b back residual')
      · refine inv.loops b loop (residualBefore b ?_ residual')
        rintro rfl
        rw [G.src_rev, G.dst_rev] at loop
        exact apart loop.symm
    have valueW : G.divergence sub (G.dst a) = G.divergence st.sub (G.dst a) + lambda := by
      rw [divergences, if_pos rfl, if_neg apart, sub_zero]
    have valueU : ∀ u, u ≠ v → u ≠ G.dst a → G.divergence sub u = G.divergence st.sub u := by
      intro u notV notW
      rw [divergences, start, if_neg (Ne.symm notW), if_neg (Ne.symm notV), sub_zero, add_zero]
    have inactive : st.active ≠ some (G.dst a) := by
      rw [active]
      exact fun eq => apart (start.trans (Option.some.inj eq))
    have computed : G.dischargeArc Q st v = if G.demand (G.dst a) < G.divergence sub (G.dst a) ∧
          G.divergence sub (G.dst a) - G.demand (G.dst a) ≤ lambda then
          MixedGraph.enqueue Q pushed (G.dst a)
        else .ok pushed := by
      unfold MixedGraph.dischargeArc
      rw [deleted]
      simp only [bind, Except.bind, arcAt_arcIndex, if_pos (And.intro residual neg)]
      by_cases left : 0 < G.resCap sub a
      · rw [if_pos left] at requeued ⊢
        rw [requeued]
        rfl
      · rw [if_neg left] at requeued ⊢
        cases requeued
        rfl
    rw [computed]
    split_ifs with reached
    · have notQueued : Q.keys pushed.queue (G.dst a) = none := by
        by_contra queued
        have before := ((inv.nodes _).1 queued).1
        linarith [reached.2]
      obtain ⟨queue, queued, keys⟩ := enqueue_ok pushed notQueued
      refine ⟨_, queued, rest queue fun u => ?_⟩
      rw [keys]
      by_cases atW : u = G.dst a
      · subst atW
        exact iff_of_true (.inr rfl) ⟨reached.1, inactive⟩
      · rw [or_iff_left atW]
        refine (inv.nodes u).trans (and_congr_left fun other => ?_)
        have notV : u ≠ v := fun eq => other (by rw [active, eq])
        rw [valueU u notV atW]
    · refine ⟨_, rfl, rest st.queue fun u => ?_⟩
      refine (inv.nodes u).trans (and_congr_left fun other => ?_)
      have notV : u ≠ v := fun eq => other (by rw [active, eq])
      by_cases atW : u = G.dst a
      · subst atW
        rw [valueW]
        constructor
        · intro before
          linarith
        · intro after
          rw [not_and, not_le, valueW] at reached
          linarith [reached after]
      · rw [valueU u notV atW]
  · refine ⟨{ st with admissible := adm1 }, ?_, inv.within, inv.optimal, inv.loops,
      ⟨lists1, queues1, fun b both => others b ?_ both⟩, inv.nodes, inv.colours⟩
    · unfold MixedGraph.dischargeArc
      rw [deleted]
      simp only [bind, Except.bind, arcAt_arcIndex, if_neg admissible]
      rfl
    · rintro rfl
      exact admissible both

/-! ## Runs -/

/-- **Every step of a phase keeps the invariant, and no step raises.** -/
theorem phaseStep_spec (pos : 0 < epsilon) (inv : G.CostPhaseInv handle epsilon st) :
    ∃ next, G.phaseStep Q epsilon st = .ok next ∧
      ∀ st', next = some st' → G.CostPhaseInv handle epsilon st' := by
  unfold MixedGraph.phaseStep
  cases active : st.active with
  | none =>
    cases deleted : Q.delete st.queue with
    | none => exact ⟨none, rfl, nofun⟩
    | some res =>
      obtain ⟨v, queue⟩ := res
      refine ⟨_, rfl, fun st' eq => ?_⟩
      cases eq
      obtain ⟨k, key, -, keys⟩ := Q.delete_some _ _ _ deleted
      refine ⟨inv.within, inv.optimal, inv.loops, inv.arcs, fun u => ?_, inv.colours⟩
      dsimp only
      rw [keys]
      by_cases here : u = v
      · rw [here, update_self]
        exact iff_of_false (fun some => some rfl) fun both => both.2 rfl
      · rw [update_of_ne here]
        refine (inv.nodes u).trans (and_congr_right fun _ => ?_)
        rw [active]
        exact iff_of_true nofun fun eq => here (Option.some.inj eq).symm
  | some v =>
    dsimp only
    split_ifs with excess
    · obtain ⟨lists, queues, present⟩ := inv.arcs
      obtain ⟨l, live⟩ := ne_none_iff_exists'.1 (queues.live v)
      rw [queues.isEmpty live]
      cases l with
      | nil =>
        have empty : ∀ a, G.src a = v → 0 < G.resCap st.sub a → 0 ≤ G.redLength st.potential a := by
          rintro a rfl residual
          by_contra neg
          have mem := (queues.mem_iff live).1 (present a ⟨residual, not_le.1 neg⟩)
          cases mem
        obtain ⟨st', res, inv'⟩ := relabel_spec pos inv active excess empty
        refine ⟨some st', ?_, fun _ eq => Option.some.inj eq ▸ inv'⟩
        simp only [bind, Except.bind, decide_true, if_true, res]
        rfl
      | cons i l =>
        obtain ⟨st', res, inv'⟩ := dischargeArc_spec inv active excess queues present live
        refine ⟨some st', ?_, fun _ eq => Option.some.inj eq ▸ inv'⟩
        simp only [bind, Except.bind, reduceCtorEq, decide_false, Bool.false_eq_true, if_false,
          res]
        rfl
    · refine ⟨_, rfl, fun st' eq => ?_⟩
      cases eq
      refine ⟨inv.within, inv.optimal, inv.loops, inv.arcs, fun u => ?_, inv.colours⟩
      refine (inv.nodes u).trans (and_congr_right fun exceeds => iff_of_true ?_ nofun)
      rw [active]
      exact fun eq => excess (Option.some.inj eq ▸ exceeds)

/-- The states of the phases, from any feasible flow on. Between two phases only the potentials are
changed. -/
inductive CostReach (G : DiGraph n m) (Q : MinQueue.{0, 0, 0} (Fin n) ℚ) (handle : ℕ)
    (set memory : ℕ → ℕ) : ℚ → CostPhase n m Q → Prop
  | first {epsilon : ℚ} {sub : Fin m → ℚ} {adm : QueueFamily} {st : CostPhase n m Q}
      (potential : Fin n → ℚ) (nodeColour : Fin n → UInt64) (feasible : G.BFlow sub)
      (positive : 0 < epsilon)
      (near : ∀ a, 0 < G.resCap sub a → -epsilon ≤ G.redLength potential a)
      (constructed : MixedGraph.admissibleQueues n m handle set memory = .ok adm)
      (started : G.startPhase Q ⟨sub, potential, nodeColour, Q.empty, adm, none⟩ = .ok st) :
      CostReach G Q handle set memory epsilon st
  | step {epsilon : ℚ} {st st' : CostPhase n m Q}
      (reach : CostReach G Q handle set memory epsilon st)
      (step : G.phaseStep Q epsilon st = .ok (some st')) :
      CostReach G Q handle set memory epsilon st'
  | next {epsilon epsilon' : ℚ} {st st' : CostPhase n m Q} (potential : Fin n → ℚ)
      (reach : CostReach G Q handle set memory epsilon st)
      (ended : G.phaseStep Q epsilon st = .ok none) (positive : 0 < epsilon')
      (near : ∀ a, 0 < G.resCap st.sub a → -epsilon' ≤ G.redLength potential a)
      (started : G.startPhase Q { st with potential := potential } = .ok st') :
      CostReach G Q handle set memory epsilon' st'

/-- What holds in the states of a phase. -/
structure CostSound (G : DiGraph n m) (Q : MinQueue.{0, 0, 0} (Fin n) ℚ) (epsilon : ℚ)
    (st : CostPhase n m Q) : Prop where
  bounds : ∀ e, G.lcap e ≤ st.sub e ∧ st.sub e ≤ G.ucap e
  optimal : ∀ a, 0 < G.resCap st.sub a → -(epsilon / 2) ≤ G.redLength st.potential a
  /-- The admissible arcs of a node with excess are in its queue. -/
  queued : ∀ a, 0 < G.resCap st.sub a → G.redLength st.potential a < 0 →
    G.demand (G.src a) < G.divergence st.sub (G.src a) →
    ∃ R l, st.admissible.queues (G.src a) = some R ∧
      QueueFamily.Holds st.admissible.next R l ∧ arcIndex a ∈ l
  /-- The nodes with excess are in the heap, up to the one that is being discharged. -/
  heap : ∀ v, G.demand v < G.divergence st.sub v → st.active ≠ some v → Q.keys st.queue v ≠ none
  /-- No `Insert` raises. -/
  proceeds : ∃ next, G.phaseStep Q epsilon st = .ok next
  /-- When the heap is empty, the flow is feasible and another phase can begin. -/
  ends : st.active = none → (∀ v, Q.keys st.queue v = none) → G.BFlow st.sub ∧
    ∀ potential, ∃ st', G.startPhase Q { st with potential := potential } = .ok st'

theorem CostPhaseInv.idle (inv : G.CostPhaseInv handle epsilon st) (idle : st.active = none)
    (empty : ∀ v, Q.keys st.queue v = none) (potential : Fin n → ℚ) :
    G.CostIdle handle { st with potential := potential } := by
  obtain ⟨lists, queues, -⟩ := inv.arcs
  exact ⟨inv.within, ⟨lists, queues⟩, empty, idle⟩

theorem phaseStep_none (ended : G.phaseStep Q epsilon st = .ok none) :
    st.active = none ∧ ∀ v, Q.keys st.queue v = none := by
  unfold MixedGraph.phaseStep at ended
  cases active : st.active with
  | none =>
    rw [active] at ended
    cases deleted : Q.delete st.queue with
    | none => exact ⟨rfl, Q.delete_none _ deleted⟩
    | some res =>
      simp only [deleted] at ended
      cases ended
  | some v =>
    rw [active] at ended
    dsimp only at ended
    by_cases excess : G.demand v < G.divergence st.sub v
    · rw [if_pos excess] at ended
      cases empty : st.admissible.isEmpty v with
      | error err =>
        rw [empty] at ended
        cases ended
      | ok b =>
        simp only [empty, bind, Except.bind] at ended
        cases b with
        | false =>
          simp only [Bool.false_eq_true, if_false] at ended
          cases res : G.dischargeArc Q st v <;> rw [res] at ended <;> cases ended
        | true =>
          simp only [if_true] at ended
          cases res : G.relabel Q epsilon st v <;> rw [res] at ended <;> cases ended
    · rw [if_neg excess] at ended
      cases ended

section Finite

variable (finite : ∀ e, G.ucap e < infCap)

include finite

theorem BFlow.within (feasible : G.BFlow sub) : G.WithinBounds sub := by
  intro e
  rw [MixedGraph.bound_eq_ucap (finite e)]
  exact feasible.bounds e

/-- Demands that some flow meets sum to zero, so no excess means no deficiency. -/
theorem CostPhaseInv.feasible (inv : G.CostPhaseInv handle epsilon st)
    (resolve : ∑ v, G.demand v = 0) (idle : st.active = none)
    (empty : ∀ v, Q.keys st.queue v = none) : G.BFlow st.sub := by
  have nonneg : ∀ v ∈ Finset.univ, 0 ≤ G.deficiency st.sub v := by
    intro v _
    by_contra negative
    refine (inv.nodes v).2 ⟨?_, by rw [idle]; nofun⟩ (empty v)
    rw [MixedGraph.deficiency, not_le] at negative
    linarith
  have all := G.sum_deficiency st.sub
  rw [resolve, Finset.sum_eq_zero_iff_of_nonneg nonneg] at all
  refine ⟨fun e => ?_, fun v => ?_⟩
  · have bounds := inv.within e
    rwa [MixedGraph.bound_eq_ucap (finite e)] at bounds
  · exact (sub_eq_zero.1 (all v (Finset.mem_univ v))).symm

theorem CostReach.inv {set memory : ℕ → ℕ} (reach : G.CostReach Q handle set memory epsilon st) :
    0 < epsilon ∧ G.CostPhaseInv handle epsilon st ∧ ∑ v, G.demand v = 0 := by
  induction reach with
  | @first epsilon sub adm st potential nodeColour feasible pos near constructed started =>
    obtain ⟨adm', lists, constructed', queues⟩ :=
      MixedGraph.admissibleQueues_spec G.toMixedGraph handle set memory
    rw [constructed] at constructed'
    cases constructed'
    obtain ⟨st', started', inv⟩ := startPhase_spec pos
      (⟨feasible.within finite, ⟨lists, queues⟩, fun v => congrFun (funext (Q.keys_empty)) v,
        rfl⟩ : G.CostIdle handle ⟨sub, potential, nodeColour, Q.empty, adm, none⟩)
    rw [started] at started'
    cases started'
    refine ⟨pos, inv, ?_⟩
    rw [← G.sum_deficiency sub]
    exact Finset.sum_eq_zero fun v _ => sub_eq_zero.2 (feasible.met v).symm
  | step _ step ih =>
    obtain ⟨pos, inv, resolve⟩ := ih
    obtain ⟨next, res, kept⟩ := phaseStep_spec pos inv
    rw [step] at res
    cases res
    exact ⟨pos, kept _ rfl, resolve⟩
  | next potential _ ended pos near started ih =>
    obtain ⟨-, inv, resolve⟩ := ih
    obtain ⟨idle, empty⟩ := phaseStep_none ended
    obtain ⟨st', started', inv'⟩ := startPhase_spec pos (inv.idle idle empty potential)
    rw [started] at started'
    cases started'
    exact ⟨pos, inv', resolve⟩

/-- **Cost scaling.** A phase begins without an error from any feasible flow, and in every state of
every phase the capacities are respected, the residual arcs have reduced lengths of at least
`-epsilon / 2`, the queues and the heap are complete, and no step raises. When the heap is empty,
the flow is feasible. -/
theorem costScaling_phase (Q : MinQueue.{0, 0, 0} (Fin n) ℚ) (handle : ℕ) (set memory : ℕ → ℕ) :
    (∀ sub potential nodeColour, G.BFlow sub → ∃ adm st,
      MixedGraph.admissibleQueues n m handle set memory = .ok adm ∧
      G.startPhase Q ⟨sub, potential, nodeColour, Q.empty, adm, none⟩ = .ok st) ∧
    ∀ epsilon st, G.CostReach Q handle set memory epsilon st → G.CostSound Q epsilon st := by
  refine ⟨fun sub potential nodeColour feasible => ?_, fun epsilon st reach => ?_⟩
  · obtain ⟨adm, lists, constructed, queues⟩ :=
      MixedGraph.admissibleQueues_spec G.toMixedGraph handle set memory
    obtain ⟨st, started, -⟩ := startPhase_spec one_pos
      (⟨feasible.within finite, ⟨lists, queues⟩, Q.keys_empty, rfl⟩ :
        G.CostIdle handle ⟨sub, potential, nodeColour, Q.empty, adm, none⟩)
    exact ⟨adm, st, constructed, started⟩
  · obtain ⟨positive, inv, resolve⟩ := reach.inv finite
    obtain ⟨lists, queues, present⟩ := inv.arcs
    refine ⟨fun e => ?_, inv.optimal, fun a residual negative _ => ?_,
      fun v exceeds other => (inv.nodes v).2 ⟨exceeds, other⟩, ?_, fun idle empty => ?_⟩
    · have bounds := inv.within e
      rwa [MixedGraph.bound_eq_ucap (finite e)] at bounds
    · obtain ⟨l, live⟩ := ne_none_iff_exists'.1 (queues.live (G.src a))
      obtain ⟨R, object, holds, -⟩ := queues.represents.live live
      exact ⟨R, l, object, holds, (queues.mem_iff live).1 (present a ⟨residual, negative⟩)⟩
    · obtain ⟨next, result, -⟩ := phaseStep_spec positive inv
      exact ⟨next, result⟩
    · refine ⟨inv.feasible finite resolve idle empty, fun potential => ?_⟩
      obtain ⟨st', started, -⟩ := startPhase_spec positive (inv.idle idle empty potential)
      exact ⟨st', started⟩

end Finite

/-- One arc of length `-1` and capacity `1`. -/
def negativeArc : DiGraph 2 1 :=
  .ofArcs (fun _ => 0) (fun _ => 1) (fun _ => 1) (fun _ => 0) (fun _ => -1) (fun _ => 0)

theorem costScaling_phase_negativeArc :
    ∃ st, negativeArc.CostReach (MinQueue.table 2 ℚ) 1 (fun _ => 0) (fun _ => 0) 1 st ∧
      negativeArc.CostSound (MinQueue.table 2 ℚ) 1 st := by
  have finite : ∀ e, negativeArc.ucap e < infCap := by
    intro e
    change ((1 : ℕ) : ℚ) < infCap
    norm_num [infCap]
  have feasible : negativeArc.BFlow fun _ => 0 := by
    refine ⟨fun e => ⟨le_rfl, Nat.cast_nonneg _⟩, fun v => ?_⟩
    rw [divergence_eq]
    simp [div, negativeArc, ofArcs, MixedGraph.ofArcs]
  obtain ⟨starts, sound⟩ :=
    costScaling_phase finite (MinQueue.table 2 ℚ) 1 (fun _ => 0) (fun _ => 0)
  obtain ⟨adm, st, constructed, started⟩ := starts _ (fun _ => 0) (fun _ => 0) feasible
  have reach := CostReach.first (fun _ => 0) (fun _ => 0) feasible one_pos (fun a residual => by
    rw [redLength_eq]
    cases a with
    | mk e back => cases back <;> norm_num [signed, negativeArc, ofArcs, MixedGraph.ofArcs])
    constructed started
  exact ⟨st, reach, sound 1 st reach⟩

end DiGraph

end Goblin
