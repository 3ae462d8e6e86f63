import Goblin.AuxiliaryNetwork

/-!
# Maximum flow by blocking flows

`MXF_Dinic` searches the residual graph layer by layer, collects all arcs that
lead from one layer to the next as props of an auxiliary network, and augments
along paths of live props until the target is blocked. Then it searches again.

The search labels the nodes as `BFS` does, but it reads all arcs of a layer.
Its labels order the props (`DinicSearchInv`), which gives the ranks of the
layered network. Every phase augments at least once, so the augmentations that
are left bound the number of phases too.
-/

set_option autoImplicit false

namespace Goblin

open Library List Function AuxNetwork List

variable {ε : ℚ} {fuel : ℕ}

/-- The labels, the queue and the props of the search. -/
structure DinicSearch (n m : ℕ) where
  dist : Fin n → ℕ∞
  queue : List (Fin n)
  aux : AuxNetwork n m

/-- What a phase passes on to the next one. -/
structure DinicState (n m : ℕ) where
  val : ℚ
  sub : Fin m → ℚ
  pred : Fin n → Option (Arc m)
  trace : List (Fin m → ℚ)

namespace DinicState

variable {n m : ℕ}

/-- The part that the augmenting path methods have in common. -/
def toMXF (st : DinicState n m) : MXFState m := ⟨st.val, st.sub, st.trace⟩

end DinicState

namespace MixedGraph

variable {n m : ℕ} (G : MixedGraph n m)

/-- One arc of the incidence list of `u`. -/
def dinicRead (sub : Fin m → ℚ) (u : Fin n) (st : DinicSearch n m) (a : Arc m) :
    DinicSearch n m :=
  let v := G.endNode a
  if st.dist u + 1 ≤ st.dist v ∧ 0 < G.resCap sub a then
    if st.dist v = ⊤ then
      { dist := update st.dist v (st.dist u + 1)
        queue := st.queue ++ [v]
        aux := G.insertProp st.aux a }
    else { st with aux := G.insertProp st.aux a }
  else st

/-- The loop of the search; it stops at the layer of the target. -/
def dinicSearchLoop (sub : Fin m → ℚ) (t : Fin n) : ℕ → DinicSearch n m → DinicSearch n m
  | 0, st => st
  | left + 1, st =>
    match st.queue with
    | [] => st
    | u :: rest =>
      if st.dist u = st.dist t then { st with queue := rest }
      else dinicSearchLoop sub t left
        ((G.incidences u).foldl (G.dinicRead sub u) { st with queue := rest })

/-- The search of a phase: no node is expanded twice, so `n` iterations
suffice. -/
def dinicSearch (sub : Fin m → ℚ) (s t : Fin n) : DinicSearch n m :=
  G.dinicSearchLoop sub t n
    { dist := fun v => if v = s then 0 else ⊤
      queue := [s]
      aux := init }

/-- Push along the path that the predecessor labels describe and update the
auxiliary network. -/
def dinicPush (s : Fin n) (lambda : ℚ) :
    ℕ → Fin n → (Fin m → ℚ) → (Fin n → Option (Arc m)) → AuxNetwork n m →
      Except Raise ((Fin m → ℚ) × (Fin n → Option (Arc m)) × AuxNetwork n m)
  | 0, _, _, _, _ => .error .fuel
  | left + 1, w, sub, pred, aux =>
    if w = s then .ok (sub, pred, aux)
    else
      match pred w with
      | none => .error (.range "Push" "No such arc")
      | some a => do
        let sub := push sub a lambda
        let aux ← G.eraseIfSaturated sub aux a
        dinicPush s lambda left (G.startNode a) sub (update pred w none) aux

/-- One augmentation of a phase. The result carries a flag for unbounded
problems. -/
def dinicAugment (s t : Fin n) (st : DinicState n m × AuxNetwork n m) :
    Except Raise (DinicState n m × AuxNetwork n m ⊕ Bool × DinicState n m) :=
  if blocked s st.2.currentDegree t then .ok (.inr (false, st.1))
  else do
    let found ← G.findPath st.1.sub s t st.2 st.1.pred
    if found.lambda = infCap then return .inr (true, st.1)
    else
      let (sub, pred, aux) ← G.dinicPush s found.lambda (n + 1) t st.1.sub found.pred
        { st.2 with currentIndex := found.currentIndex }
      return .inl (⟨st.1.val + found.lambda, sub, pred, sub :: st.1.trace⟩, aux)

/-- One phase: search, then augment until the target is blocked. -/
def dinicPhase (fuel : ℕ) (s t : Fin n) (st : DinicState n m) :
    Except Raise (DinicState n m ⊕ MXFResult n m) :=
  let labels := G.dinicSearch st.sub s t
  if labels.dist t = ⊤ then .ok (.inr ⟨st.val, st.sub, labels.dist, st.trace, false⟩)
  else do
    let (unbounded, next) ← loop .fuel (G.dinicAugment s t) fuel (st, labels.aux.phase2)
    if unbounded then return .inr ⟨infCap, next.sub, labels.dist, next.trace, true⟩
    else return .inl next

def mxfDinic (fuel : ℕ) (sub : Fin m → ℚ) (s t : Fin n) : Except Raise (MXFResult n m) := do
  let val ← G.initialValue sub s
  loop .fuel (G.dinicPhase fuel s t) fuel ⟨val, sub, fun _ => none, []⟩

/-! ## The search -/

/-- What holds between two arcs of the search. The nodes of `done` have been
taken from the queue, and the arcs of `l` are those of the last one that are
still to be read. -/
structure DinicSearchInv (sub : Fin m → ℚ) (s : Fin n) (done : List (Fin n)) (l : List (Arc m))
    (st : DinicSearch n m) : Prop where
  nodup : (done ++ st.queue).Nodup
  labelled : ∀ v, st.dist v ≠ ⊤ ↔ v ∈ done ++ st.queue
  source : st.dist s = 0
  reached : ∀ v, v ≠ s → st.dist v ≠ ⊤ → st.aux.prop v ≠ []
  prop_end : ∀ v, ∀ a ∈ st.aux.prop v, G.dst a = v
  prop_dist : ∀ v, ∀ a ∈ st.aux.prop v, st.dist (G.src a) < st.dist v ∧ st.dist v ≠ ⊤
  prop_cap : ∀ v, ∀ a ∈ st.aux.prop v, 0 < G.resCap sub a
  prop_nodup : ∀ v, (st.aux.prop v).Nodup
  prop_read : ∀ v, ∀ a ∈ st.aux.prop v, G.src a ∈ done ∧ a ∉ l
  mem_successor : ∀ x a, a ∈ st.aux.successor x ↔ G.src a = x ∧ a ∈ st.aux.prop (G.dst a)
  successor_nodup : ∀ x, (st.aux.successor x).Nodup

variable {G} {sub : Fin m → ℚ} {s t u : Fin n} {done : List (Fin n)} {st : DinicSearch n m}
  {a b : Arc m} {v : Fin n} {l : List (Arc m)} {dist : Fin n → ℕ∞}

theorem mem_insertProp {aux : AuxNetwork n m} :
    b ∈ (G.insertProp aux a).prop v ↔ b ∈ aux.prop v ∨ (b = a ∧ v = G.dst a) := by
  by_cases here : v = G.dst a
  · subst here
    simp [insertProp]
  · simp [insertProp, here]

theorem mem_insertSuccessor {aux : AuxNetwork n m} {x : Fin n} :
    b ∈ (G.insertProp aux a).successor x ↔ b ∈ aux.successor x ∨ (b = a ∧ x = G.src a) := by
  by_cases here : x = G.src a
  · subst here
    simp [insertProp]
  · simp [insertProp, here]

theorem nodup_update {l : Fin n → List (Arc m)} (nodup : ∀ w, (l w).Nodup) (fresh : a ∉ l v)
    (w : Fin n) : (update l v (l v ++ [a]) w).Nodup := by
  by_cases here : w = v
  · subst here
    rw [update_self]
    refine nodup_append.2 ⟨nodup w, by simp, ?_⟩
    intro b mem c last
    rw [mem_singleton] at last
    rintro rfl
    exact fresh (last ▸ mem)
  · rw [update_of_ne here]
    exact nodup w

section

variable (inv : G.DinicSearchInv sub s done (a :: l) st)
include inv

/-- Reading an arc that leads on inserts it as a prop. -/
theorem DinicSearchInv.insert {queue : List (Fin n)}
    (nodupL : (a :: l).Nodup) (start : G.src a ∈ done) (cap : 0 < G.resCap sub a)
    (nodup : (done ++ queue).Nodup) (labelled : ∀ v, dist v ≠ ⊤ ↔ v ∈ done ++ queue)
    (source : dist s = 0) (rises : dist (G.src a) < dist (G.dst a)) (set : dist (G.dst a) ≠ ⊤)
    (keeps : ∀ v, st.dist v ≠ ⊤ → dist v = st.dist v)
    (new : ∀ v, dist v ≠ ⊤ → st.dist v ≠ ⊤ ∨ v = G.dst a) :
    G.DinicSearchInv sub s done l ⟨dist, queue, G.insertProp st.aux a⟩ := by
  have fresh : a ∉ st.aux.prop (G.dst a) := fun mem =>
    (inv.prop_read _ a mem).2 mem_cons_self
  have freshSuccessor : a ∉ st.aux.successor (G.src a) := fun mem =>
    fresh ((inv.mem_successor _ a).1 mem).2
  refine ⟨nodup, labelled, source, ?_, ?_, ?_, ?_, ?_, ?_, ?_, ?_⟩ <;> dsimp only
  · intro v notSource set
    by_cases here : v = G.dst a
    · exact ne_nil_of_mem (mem_insertProp.2 (.inr ⟨rfl, here⟩))
    · obtain ⟨b, mem⟩ := exists_mem_of_ne_nil _
        (inv.reached v notSource ((new v set).resolve_right here))
      exact ne_nil_of_mem (mem_insertProp.2 (.inl mem))
  · intro v b mem
    rcases mem_insertProp.1 mem with old | ⟨rfl, rfl⟩
    · exact inv.prop_end v b old
    · rfl
  · intro v b mem
    rcases mem_insertProp.1 mem with old | ⟨rfl, rfl⟩
    · obtain ⟨less, finite⟩ := inv.prop_dist v b old
      rw [keeps _ (ne_top_of_lt less), keeps v finite]
      exact ⟨less, finite⟩
    · exact ⟨rises, set⟩
  · intro v b mem
    rcases mem_insertProp.1 mem with old | ⟨rfl, rfl⟩
    · exact inv.prop_cap v b old
    · exact cap
  · exact nodup_update inv.prop_nodup fresh
  · intro v b mem
    rcases mem_insertProp.1 mem with old | ⟨rfl, rfl⟩
    · obtain ⟨read, notLeft⟩ := inv.prop_read v b old
      exact ⟨read, fun later => notLeft (mem_cons_of_mem _ later)⟩
    · exact ⟨start, (nodup_cons.1 nodupL).1⟩
  · intro x b
    rw [mem_insertSuccessor, mem_insertProp, inv.mem_successor]
    constructor
    · rintro (⟨from', old⟩ | ⟨rfl, rfl⟩)
      · exact ⟨from', .inl old⟩
      · exact ⟨rfl, .inr ⟨rfl, rfl⟩⟩
    · rintro ⟨from', old | ⟨rfl, -⟩⟩
      · exact .inl ⟨from', old⟩
      · exact .inr ⟨rfl, from'.symm⟩
  · exact nodup_update inv.successor_nodup freshSuccessor

theorem DinicSearchInv.skip
    : G.DinicSearchInv sub s done l st :=
  { inv with
    prop_read := fun v b mem =>
      ⟨(inv.prop_read v b mem).1,
        fun later => (inv.prop_read v b mem).2 (mem_cons_of_mem _ later)⟩ }

/-- One arc keeps the invariant and the labels that are set; a residual arc
leads to a labelled node. -/
theorem dinicRead_inv (nodupL : (a :: l).Nodup) (start : G.src a = u) (mem : u ∈ done) :
    G.DinicSearchInv sub s done l (G.dinicRead sub u st a) ∧
      (∀ v, st.dist v ≠ ⊤ → (G.dinicRead sub u st a).dist v ≠ ⊤) ∧
      (0 < G.resCap sub a → (G.dinicRead sub u st a).dist (G.dst a) ≠ ⊤) := by
  have label : st.dist u ≠ ⊤ := (inv.labelled u).2 (mem_append_left _ mem)
  have finite : st.dist u + 1 ≠ ⊤ := by simpa using label
  have rise : st.dist u < st.dist u + 1 := by
    obtain ⟨k, val⟩ := ENat.ne_top_iff_exists.1 label
    rw [← val]
    exact_mod_cast Nat.lt_succ_self k
  by_cases leads : st.dist u + 1 ≤ st.dist (G.dst a) ∧ 0 < G.resCap sub a
  · by_cases new : st.dist (G.dst a) = ⊤
    · have fresh : G.dst a ∉ done ++ st.queue := fun old => (inv.labelled _).2 old new
      have other : ∀ v, st.dist v ≠ ⊤ → v ≠ G.dst a := by
        rintro v set rfl
        exact set new
      rw [show G.dinicRead sub u st a =
        { dist := update st.dist (G.dst a) (st.dist u + 1)
          queue := st.queue ++ [G.dst a]
          aux := G.insertProp st.aux a } by simp only [dinicRead, leads, new]; simp]
      refine ⟨inv.insert nodupL (start ▸ mem) leads.2 ?_ ?_ ?_ ?_ ?_ ?_ ?_, ?_, ?_⟩
      · rw [← append_assoc]
        refine nodup_append.2 ⟨inv.nodup, by simp, ?_⟩
        intro x old y last
        rw [mem_singleton] at last
        rintro rfl
        exact fresh (last ▸ old)
      · intro v
        by_cases eq : v = G.dst a
        · subst eq
          simp [finite]
        · rw [update_of_ne eq, inv.labelled v]
          simp [eq]
      · rw [update_of_ne (other s (by simp [inv.source]))]
        exact inv.source
      · rw [update_self, start, update_of_ne (other u label)]
        exact rise
      · rw [update_self]
        exact finite
      · intro v set
        exact update_of_ne (other v set) _ _
      · intro v set
        by_cases eq : v = G.dst a
        · exact .inr eq
        · rw [update_of_ne eq] at set
          exact .inl set
      · intro v set
        dsimp only
        rw [update_of_ne (other v set)]
        exact set
      · intro _
        simp [finite]
    · rw [show G.dinicRead sub u st a = { st with aux := G.insertProp st.aux a } by
        simp only [dinicRead, leads, new]; simp]
      refine ⟨inv.insert nodupL (start ▸ mem) leads.2 inv.nodup inv.labelled inv.source ?_
        new (fun _ _ => rfl) fun _ set => .inl set, fun _ set => set, fun _ => new⟩
      rw [start]
      exact rise.trans_le leads.1
  · rw [show G.dinicRead sub u st a = st from if_neg leads]
    refine ⟨inv.skip, fun _ set => set, fun cap top => leads ⟨?_, cap⟩⟩
    rw [top]
    exact le_top

end

theorem dinicRead_foldl (l : List (Arc m)) (inv : G.DinicSearchInv sub s done l st)
    (nodupL : l.Nodup) (start : ∀ a ∈ l, G.src a = u) (mem : u ∈ done) :
    G.DinicSearchInv sub s done [] (l.foldl (G.dinicRead sub u) st) ∧
      (∀ v, st.dist v ≠ ⊤ → (l.foldl (G.dinicRead sub u) st).dist v ≠ ⊤) ∧
      ∀ a ∈ l, 0 < G.resCap sub a → (l.foldl (G.dinicRead sub u) st).dist (G.dst a) ≠ ⊤ := by
  induction l generalizing st with
  | nil => exact ⟨inv, fun _ set => set, fun a mem => nomatch mem⟩
  | cons a l ih =>
    obtain ⟨inv', keeps', reaches⟩ :=
      dinicRead_inv inv nodupL (start a mem_cons_self) mem
    obtain ⟨invAll, keeps, closes⟩ := ih inv' (nodup_cons.1 nodupL).2
      fun b later => start b (mem_cons_of_mem _ later)
    refine ⟨invAll, fun v set => keeps v (keeps' v set), fun b inList cap => ?_⟩
    rcases mem_cons.1 inList with rfl | later
    · exact keeps _ (reaches cap)
    · exact closes b later cap

theorem dinicSearchLoop_spec (left : ℕ) (inv : G.DinicSearchInv sub s done [] st)
    (closed : ∀ a, G.src a ∈ done → 0 < G.resCap sub a → st.dist (G.dst a) ≠ ⊤)
    (enough : n ≤ done.length + left) :
    ∃ done', G.DinicSearchInv sub s done' [] (G.dinicSearchLoop sub t left st) ∧
      ((G.dinicSearchLoop sub t left st).dist t = ⊤ →
        ∀ a, (G.dinicSearchLoop sub t left st).dist (G.src a) ≠ ⊤ → 0 < G.resCap sub a →
          (G.dinicSearchLoop sub t left st).dist (G.dst a) ≠ ⊤) := by
  induction left generalizing done st with
  | zero =>
    have bound := inv.nodup.length_le_card
    rw [length_append, Fintype.card_fin] at bound
    have empty : st.queue = [] := length_eq_zero_iff.1 (by omega)
    refine ⟨done, inv, fun _ a label cap => closed a ?_ cap⟩
    have mem := (inv.labelled _).1 label
    rwa [empty, append_nil] at mem
  | succ left ih =>
    cases queue : st.queue with
    | nil =>
      rw [show G.dinicSearchLoop sub t (left + 1) st = st by simp [dinicSearchLoop, queue]]
      refine ⟨done, inv, fun _ a label cap => closed a ?_ cap⟩
      have mem := (inv.labelled _).1 label
      rwa [queue, append_nil] at mem
    | cons u rest =>
      have label : st.dist u ≠ ⊤ := (inv.labelled u).2 (by simp [queue])
      have fresh : u ∉ done := by
        have nodup := inv.nodup
        rw [queue] at nodup
        exact fun old => (nodup_append.1 nodup).2.2 u old u mem_cons_self rfl
      have popped : ∀ l, (∀ a ∈ l, G.src a = u) →
          G.DinicSearchInv sub s (done ++ [u]) l { st with queue := rest } := by
        intro l fromU
        refine { inv with nodup := ?_, labelled := ?_, prop_read := ?_ }
        · have nodup := inv.nodup
          rw [queue] at nodup
          simpa using nodup
        · intro v
          have iff := inv.labelled v
          rw [queue] at iff
          simpa using iff
        · intro v a mem
          have read := (inv.prop_read v a mem).1
          refine ⟨mem_append_left _ read, fun inList => ?_⟩
          rw [fromU a inList] at read
          exact fresh read
      by_cases last : st.dist u = st.dist t
      · rw [show G.dinicSearchLoop sub t (left + 1) st = { st with queue := rest } by
          simp [dinicSearchLoop, queue, last]]
        refine ⟨done ++ [u], popped [] (by simp), fun top => ?_⟩
        rw [← show st.dist u = ⊤ from last.trans top] at label
        exact absurd rfl label
      rw [show G.dinicSearchLoop sub t (left + 1) st = G.dinicSearchLoop sub t left
        ((G.incidences u).foldl (G.dinicRead sub u) { st with queue := rest }) by
          simp [dinicSearchLoop, queue, last]]
      have start : ∀ a ∈ G.incidences u, G.src a = u := fun a mem =>
        (G.mem_incidences u a).1 mem
      obtain ⟨inv', keeps, closes⟩ := dinicRead_foldl (G.incidences u)
        (popped _ start) (G.nodup_incidences u) start (by simp)
      refine ih inv' ?_ (by simp only [length_append, length_singleton]; omega)
      intro a mem cap
      rcases mem_append.1 mem with old | new
      · exact keeps _ (closed a old cap)
      · exact closes a ((G.mem_incidences u a).2 (mem_singleton.1 new)) cap

theorem dinicSearch_spec (G : MixedGraph n m) (sub : Fin m → ℚ) (s t : Fin n) :
    ∃ done, G.DinicSearchInv sub s done [] (G.dinicSearch sub s t) ∧
      ((G.dinicSearch sub s t).dist t = ⊤ →
        ∀ a, (G.dinicSearch sub s t).dist (G.src a) ≠ ⊤ → 0 < G.resCap sub a →
          (G.dinicSearch sub s t).dist (G.dst a) ≠ ⊤) := by
  have start : G.DinicSearchInv sub s [] []
      ⟨fun v => if v = s then 0 else ⊤, [s], init⟩ := by
    refine ⟨by simp, ?_, by simp, ?_, ?_, ?_, ?_, ?_, ?_, ?_, ?_⟩ <;>
      simp [init]
  exact dinicSearchLoop_spec n start (by simp) (by simp)

/-- The rank of a node in the layered network: how many nodes have smaller
labels. -/
def layerRank (dist : Fin n → ℕ∞) (v : Fin n) : ℕ :=
  (Finset.univ.filter fun w => dist w < dist v).card

theorem layerRank_lt_of_lt {w : Fin n} (less : dist v < dist w) :
    layerRank dist v < layerRank dist w := by
  refine Finset.card_lt_card (Finset.ssubset_iff_of_subset ?_ |>.2 ⟨v, ?_, ?_⟩)
  · intro x mem
    simp only [Finset.mem_filter, Finset.mem_univ, true_and] at mem ⊢
    exact mem.trans less
  · simpa using less
  · simp

theorem layerRank_lt (dist : Fin n → ℕ∞) (v : Fin n) : layerRank dist v < n := by
  have strict : (Finset.univ.filter fun w => dist w < dist v) ⊂ Finset.univ :=
    Finset.ssubset_univ_iff.2 fun all => by
      have mem : v ∈ Finset.univ.filter fun w => dist w < dist v := by simp [all]
      simp at mem
  simpa [layerRank] using Finset.card_lt_card strict

theorem phaseInv_phase2 (inv : G.DinicSearchInv sub s done [] st) :
    PhaseInv G sub s (layerRank st.dist) st.aux.phase2 where
  layered :=
    { source := by simp [layerRank, inv.source]
      rank_lt := layerRank_lt _
      prop_end := inv.prop_end
      prop_rank := fun v a mem => layerRank_lt_of_lt (inv.prop_dist v a mem).1
      prop_nodup := inv.prop_nodup
      mem_successor := inv.mem_successor
      successor_nodup := inv.successor_nodup }
  degrees := by
    intro v _
    refine (countP_eq_length.2 fun a mem => ?_).symm
    simp only [counts, decide_eq_true_eq]
    refine ⟨inv.prop_cap v a mem, ?_⟩
    by_cases fromSource : G.src a = s
    · exact .inl fromSource
    · refine .inr (.inl ?_)
      have label := ne_top_of_lt (inv.prop_dist v a mem).1
      have props := inv.reached _ fromSource label
      simpa [phase2] using props
  indices := by
    intro v a mem
    simp [phase2] at mem

/-! ## Augmenting along live props -/

variable {rank : Fin n → ℕ} {aux : AuxNetwork n m} {pred : Fin n → Option (Arc m)}
  {p : List (Arc m)} {w : Fin n} {lambda : ℚ}

theorem rank_le_of_path (layered : G.Layered s rank aux)
    (consistent : ∀ v a, pred v = some a → G.dst a = v) (path : BackPath pred G.src s w p)
    (isProp : ∀ a ∈ p, a ∈ aux.prop (G.dst a)) : ∀ a ∈ p, rank (G.dst a) ≤ rank w := by
  induction path with
  | last label _ =>
    intro a mem
    cases mem_singleton.1 mem
    rw [consistent _ _ label]
  | @step w b p label onward rest ih =>
    have endB := consistent _ _ label
    have lower := layered.prop_rank _ b (isProp b mem_cons_self)
    rw [endB] at lower
    intro a mem
    rcases mem_cons.1 mem with rfl | later
    · rw [endB]
    · have below := ih (fun c inRest => isProp c (mem_cons_of_mem _ inRest)) a later
      omega

/-- **Pushing along a path of live props** keeps the network up to date. -/
theorem dinicPush_spec {left : ℕ} (ne : w ≠ s) (within : G.WithinBounds sub)
    (inv : PhaseInv G sub s rank aux) (consistent : ∀ v a, pred v = some a → G.dst a = v)
    (path : BackPath pred G.src s w p)
    (live : ∀ a ∈ p, G.counts sub s aux.currentDegree [] [] a = true)
    (isProp : ∀ a ∈ p, a ∈ aux.prop (G.dst a))
    (cur : ∀ a ∈ p, (aux.prop (G.dst a))[aux.currentIndex (G.dst a)]? = some a)
    (pos : 0 < lambda) (room : ∀ a ∈ p, lambda ≤ G.resCap sub a) (enough : p.length < left) :
    ∃ pred' aux', G.dinicPush s lambda left w sub pred aux =
        .ok (pushAll sub p lambda, pred', aux') ∧ PhaseInv G (pushAll sub p lambda) s rank aux' ∧
      ∀ v a, pred' v = some a → G.dst a = v := by
  induction p generalizing w left sub pred aux with
  | nil => exact absurd rfl path.ne_nil
  | cons a p ih =>
    rw [length_cons] at enough
    obtain ⟨left, rfl⟩ : ∃ k, left = k + 1 := ⟨left - 1, by omega⟩
    have label := path.label_head
    have endA : G.dst a = w := consistent _ _ label
    have nodup := path.nodup consistent
    rw [map_cons, nodup_cons, endA] at nodup
    obtain ⟨aux', erased, inv', eq⟩ := eraseIfSaturated_spec inv within
      (isProp a mem_cons_self) (cur a mem_cons_self)
      (live a mem_cons_self) pos (room a mem_cons_self)
    have within' := withinBounds_push within pos.le (room a mem_cons_self)
    have consistent' : ∀ v b, update pred w none v = some b → G.dst b = v := by
      intro v b set
      by_cases here : v = w
      · simp [here] at set
      · rw [update_of_ne here] at set
        exact consistent v b set
    have unfold : G.dinicPush s lambda (left + 1) w sub pred aux =
        G.dinicPush s lambda left (G.src a) (push sub a lambda)
          (update pred w none) aux' := by
      simp only [dinicPush, ne, if_false, label, erased, bind, Except.bind]
    rw [unfold, pushAll_cons]
    cases path with
    | last _ arrived =>
      obtain ⟨left, rfl⟩ : ∃ k, left = k + 1 := ⟨left - 1, by omega⟩
      refine ⟨update pred w none, aux', ?_, inv', consistent'⟩
      simp only [dinicPush, arrived, if_true, pushAll_nil]
    | step _ onward rest =>
      have isPropRest : ∀ b ∈ p, b ∈ aux.prop (G.dst b) := fun b mem =>
        isProp b (mem_cons_of_mem _ mem)
      have lowerA := inv.layered.prop_rank _ a (isProp a mem_cons_self)
      -- the rest of the path lies below the end of `a`
      have below : ∀ b ∈ p, rank (G.dst b) < rank (G.dst a) := by
        intro b mem
        have le := rank_le_of_path inv.layered consistent rest isPropRest b mem
        omega
      have otherArc : ∀ b ∈ p, b ≠ a := by
        rintro b mem rfl
        exact lt_irrefl _ (below b mem)
      have resCap : ∀ b ∈ p, G.resCap (push sub a lambda) b = G.resCap sub b :=
        fun b mem => inv.layered.resCap_push (isProp a mem_cons_self)
          (isPropRest b mem) (otherArc b mem) lambda
      refine ih onward within' inv' consistent' (rest.congr consistent fun b mem => ?_)
        ?_ ?_ ?_ ?_ (by omega)
      · refine update_of_ne ?_ _ _
        rintro rfl
        exact nodup.1 (mem_map_of_mem mem)
      · intro b mem
        have lowerB := inv.layered.prop_rank _ b (isPropRest b mem)
        have degree := eq.degree (G.src b) (lowerB.trans (below b mem))
        have liveB := live b (mem_cons_of_mem _ mem)
        simp only [counts, resCap b mem, degree] at liveB ⊢
        exact liveB
      · intro b mem
        rw [eq.prop]
        exact isPropRest b mem
      · intro b mem
        rw [eq.prop, eq.index _ (below b mem)]
        exact cur b (mem_cons_of_mem _ mem)
      · intro b mem
        rw [resCap b mem]
        exact room b (mem_cons_of_mem _ mem)

end MixedGraph

namespace DiGraph

variable {n m : ℕ} {G : DiGraph n m} {s t : Fin n} {r : MXFResult n m}

/-! ## Phases -/

/-- The state between two augmentations of a phase. -/
structure DinicInv (G : DiGraph n m) (s t : Fin n) (ε : ℚ) (st : DinicState n m) : Prop where
  flow : G.MXFInv s t ε st.toMXF
  consistent : ∀ v a, st.pred v = some a → G.dst a = v

/-- One augmentation: it uses up one of those that are left, or the target is
blocked. -/
theorem dinicAugment_spec {rank : Fin n → ℕ} (st : DinicState n m × AuxNetwork n m)
    (finite : ∀ e, G.ucap e < infCap) (caps : G.CapsOnGrid ε) (pos : 0 < ε) (ne : s ≠ t)
    (inv : G.DinicInv s t ε st.1)
    (phase : MixedGraph.PhaseInv G.toMixedGraph st.1.sub s rank st.2) :
    (st.2.currentDegree t = 0 ∧ G.dinicAugment s t st = .ok (.inr (false, st.1))) ∨
    (st.2.currentDegree t ≠ 0 ∧ ∃ st', G.dinicAugment s t st = .ok (.inl st') ∧
      G.DinicInv s t ε st'.1 ∧ MixedGraph.PhaseInv G.toMixedGraph st'.1.sub s rank st'.2 ∧
      st.1.val ≤ st'.1.val ∧
      G.augmentationsLeft ε st'.1.toMXF < G.augmentationsLeft ε st.1.toMXF) := by
  by_cases zero : st.2.currentDegree t = 0
  · refine .inl ⟨zero, ?_⟩
    simp [MixedGraph.dinicAugment, blocked, zero, ne.symm]
  have within : G.WithinBounds st.1.sub := inv.flow.flow.within
  obtain ⟨found, p, res, path, lambda, lambdaPos⟩ :=
    MixedGraph.findPath_spec within phase inv.consistent ne.symm zero
  have residual : ∀ a ∈ p, 0 < G.resCap st.1.sub a := by
    intro a mem
    have live := path.live a mem
    simp only [MixedGraph.counts, decide_eq_true_eq] at live
    exact live.1
  obtain ⟨bottleneckPos, bounded, inGrid⟩ := inv.flow.bottleneck finite caps path.path residual
  obtain ⟨inv', less⟩ :=
    inv.flow.augment pos ne path.consistent path.path bottleneckPos inGrid (le_refl _)
  have cur : MixedGraph.PhaseInv G.toMixedGraph st.1.sub s rank
      { st.2 with currentIndex := found.currentIndex } :=
    ⟨phase.layered.congr rfl rfl, phase.degrees, path.indices⟩
  have enough : p.length < n + 1 := by
    simpa using Nat.lt_succ_of_le (path.path.length_le_card path.consistent)
  obtain ⟨pred', aux', pushed, phase', consistent'⟩ :=
    MixedGraph.dinicPush_spec ne.symm within cur path.consistent path.path path.live
      path.isProp path.current lambdaPos
      (fun a mem => lambda.trans_le (MixedGraph.bottleneck_le mem)) enough
  rw [lambda] at pushed phase'
  refine .inr ⟨zero, (⟨st.1.val + G.bottleneck st.1.sub p,
    pushAll st.1.sub p (G.bottleneck st.1.sub p), pred',
    pushAll st.1.sub p (G.bottleneck st.1.sub p) :: st.1.trace⟩, aux'), ?_, ⟨inv', consistent'⟩,
    phase', ?_, less⟩
  · have open' : blocked s st.2.currentDegree t = false := by
      simp [blocked, zero]
    have boundedSub : G.bottleneck st.1.sub p ≠ infCap := bounded.ne
    simp only [MixedGraph.dinicAugment, open', Bool.false_eq_true, if_false, res, lambda,
      boundedSub, pushed, bind, Except.bind, pure, Except.pure]
  · have grows : 0 < G.bottleneck st.1.sub p := bottleneckPos
    dsimp only
    linarith

/-- **One phase.** It augments at least once, or it ends with labels that no
residual arc leaves. -/
theorem dinicPhase_spec {st : DinicState n m} (finite : ∀ e, G.ucap e < infCap)
    (caps : G.CapsOnGrid ε) (pos : 0 < ε) (ne : s ≠ t) (inv : G.DinicInv s t ε st)
    (enough : G.augmentationsLeft ε st.toMXF < fuel) :
    (∃ st', G.dinicPhase fuel s t st = .ok (.inl st') ∧ G.DinicInv s t ε st' ∧
      G.augmentationsLeft ε st'.toMXF < G.augmentationsLeft ε st.toMXF) ∨
    ∃ r, G.dinicPhase fuel s t st = .ok (.inr r) ∧ G.MXFInv s t ε ⟨r.val, r.sub, r.trace⟩ ∧
      r.dist s ≠ ⊤ ∧ r.dist t = ⊤ ∧
      ∀ a, 0 < G.resCap r.sub a → r.dist (G.src a) ≠ ⊤ → r.dist (G.dst a) ≠ ⊤ := by
  obtain ⟨done, search, closed⟩ := G.toMixedGraph.dinicSearch_spec st.sub s t
  set labels := G.dinicSearch st.sub s t with labelsEq
  by_cases reached : labels.dist t = ⊤
  · refine .inr ⟨⟨st.val, st.sub, labels.dist, st.trace, false⟩, ?_, inv.flow, ?_, reached,
      fun a cap label => closed reached a label cap⟩
    · simp only [MixedGraph.dinicPhase, ← labelsEq, reached, if_true]
    · simp [search.source]
  have props := search.reached t ne.symm reached
  have start : MixedGraph.PhaseInv G.toMixedGraph st.sub s (MixedGraph.layerRank labels.dist)
      labels.aux.phase2 := MixedGraph.phaseInv_phase2 search
  have alive : labels.aux.phase2.currentDegree t ≠ 0 := by
    simpa [phase2] using props
  -- the first augmentation of the phase makes the progress
  obtain ⟨-, first, step, inv1, phase1, -, less1⟩ :=
    (dinicAugment_spec (st, labels.aux.phase2) finite caps pos ne inv
      start).resolve_left fun blocked => alive blocked.1
  obtain ⟨fuel, rfl⟩ : ∃ k, fuel = k + 1 := ⟨fuel - 1, by omega⟩
  obtain ⟨res, run, post⟩ := loop_of_measure Raise.fuel (G.dinicAugment s t)
    (fun st' => G.DinicInv s t ε st'.1 ∧
      MixedGraph.PhaseInv G.toMixedGraph st'.1.sub s (MixedGraph.layerRank labels.dist) st'.2 ∧
      G.augmentationsLeft ε st'.1.toMXF < G.augmentationsLeft ε st.toMXF)
    (fun st' => G.augmentationsLeft ε st'.1.toMXF)
    (fun res => res.1 = false ∧ G.DinicInv s t ε res.2 ∧
      G.augmentationsLeft ε res.2.toMXF < G.augmentationsLeft ε st.toMXF)
    (fun st' invs => by
      obtain ⟨inv', phase', below⟩ := invs
      rcases dinicAugment_spec st' finite caps pos ne inv' phase' with
        ⟨-, done⟩ | ⟨-, next, step, invNext, phaseNext, -, less⟩
      · exact .inr ⟨_, done, rfl, inv', below⟩
      · exact .inl ⟨next, step, ⟨invNext, phaseNext, less.trans below⟩, less⟩)
    ⟨inv1, phase1, less1⟩ fuel (less1.trans_le (Nat.le_of_lt_succ enough))
  obtain ⟨unbounded, next⟩ := res
  obtain ⟨bounded, invNext, below⟩ := post
  dsimp only at bounded invNext below
  refine .inl ⟨next, ?_, invNext, below⟩
  have whole : loop Raise.fuel (G.dinicAugment s t) (fuel + 1) (st, labels.aux.phase2) =
      .ok (unbounded, next) := (loop_inl step fuel).trans run
  simp only [MixedGraph.dinicPhase, ← labelsEq, reached, if_false, whole, bounded,
    Bool.false_eq_true, bind, Except.bind, pure, Except.pure]

/-- **Dinic's method** ends with a certified maximum flow. -/
theorem mxfDinic_spec (finite : ∀ e, G.ucap e < infCap) (lower : ∀ e, G.lcap e = 0)
    (caps : G.CapsOnGrid ε) (pos : 0 < ε) (ne : s ≠ t) (incident : G.incidences s ≠ [])
    (enough : gridSteps ε (∑ e, G.bound e) < fuel) :
    ∃ r, G.mxfDinic fuel (fun _ => 0) s t = .ok r ∧ G.Certificate s t r ∧
      ∀ f ∈ r.trace, G.STFlow s t f := by
  have start : G.augmentationsLeft ε (DinicState.toMXF (n := n) (m := m)
      ⟨0, fun _ => 0, fun _ => none, []⟩) < fuel := by
    simpa [augmentationsLeft, DinicState.toMXF] using enough
  obtain ⟨r, res, post⟩ := loop_of_measure Raise.fuel (G.dinicPhase fuel s t)
    (fun st => G.DinicInv s t ε st ∧ G.augmentationsLeft ε st.toMXF < fuel)
    (fun st => G.augmentationsLeft ε st.toMXF)
    (fun r => G.Certificate s t r ∧ ∀ f ∈ r.trace, G.STFlow s t f)
    (fun st inv => by
      rcases dinicPhase_spec finite caps pos ne inv.1 inv.2 with
        ⟨next, step, invNext, less⟩ | ⟨r, step, flow, source, target, closed⟩
      · exact .inl ⟨next, step, ⟨invNext, less.trans inv.2⟩, less⟩
      · exact .inr ⟨r, step, certificate_of_phase finite lower flow source target closed⟩)
    (s := ⟨0, fun _ => 0, fun _ => none, []⟩)
    ⟨⟨mxfInv_zero lower, by simp⟩, start⟩ fuel start
  refine ⟨r, ?_, post⟩
  simp only [MixedGraph.mxfDinic, initialValue_zero incident, bind, Except.bind]
  exact res

/-! ## The three methods -/

/-- What a maximum flow method delivers: the flow after every augmentation is
within the capacities and balanced between `s` and `t`, and the final labels
certify the value. -/
structure MaxFlowRun (G : DiGraph n m) (s t : Fin n) (value : ℚ) (r : MXFResult n m) : Prop where
  bounds : ∀ f ∈ r.sub :: r.trace, ∀ e, 0 ≤ f e ∧ f e ≤ G.ucap e
  balanced : ∀ f ∈ r.sub :: r.trace, ∀ v, v ≠ s → v ≠ t → G.divergence f v = 0
  certified : G.Certificate s t r
  value : r.val = value

theorem Certificate.val_eq {r' : MXFResult n m} (certificate : G.Certificate s t r)
    (certificate' : G.Certificate s t r') : r.val = r'.val := by
  refine le_antisymm ?_ ?_
  · rw [← certificate.value]
    exact certificate'.maximum _ certificate.flow
  · rw [← certificate'.value]
    exact certificate.maximum _ certificate'.flow

theorem maxFlowRun_of_certificate {val : ℚ} (finite : ∀ e, G.ucap e < infCap)
    (lower : ∀ e, G.lcap e = 0) (certificate : G.Certificate s t r)
    (history : ∀ f ∈ r.trace, G.STFlow s t f)
    (eq : r.val = val) : G.MaxFlowRun s t val r := by
  have flows : ∀ f ∈ r.sub :: r.trace, G.STFlow s t f := by
    intro f mem
    rcases mem_cons.1 mem with rfl | earlier
    · exact certificate.flow
    · exact history f earlier
  refine ⟨fun f mem e => ?_, fun f mem => (flows f mem).balanced, certificate, eq⟩
  have bounds := (flows f mem).within e
  rw [lower e, MixedGraph.bound_eq_ucap (finite e)] at bounds
  exact bounds

/-- Two paths of capacities 2 and 1 that share no arc. -/
def twoPaths : DiGraph 4 4 :=
  DiGraph.ofArcs ![0, 1, 0, 2] ![1, 3, 2, 3] ![2, 3, 1, 1] (fun _ => 0) (fun _ => 0) fun _ => 0

/-- The second path has the residual capacity `2 ^ 25 - 1`, which is rounded up. -/
def sharedArc : DiGraph 3 3 :=
  DiGraph.ofArcs ![0, 1, 1] ![1, 2, 2] ![2 ^ 25, 1, 2 ^ 25] (fun _ => 0) (fun _ => 0) fun _ => 0

/-- The method of Edmonds and Karp fails in the second iteration at the latest. -/
theorem edmondsKarp_raises_sharedArc (fuel : ℕ) :
    ∃ e, sharedArc.mxfEdmondsKarp fuel (fun _ => 0) 0 2 = .error e := by
  have fails : ((sharedArc.mxfIteration 0 0 2 ⟨0, fun _ => 0, []⟩).bind
      (Sum.elim (sharedArc.mxfIteration 0 0 2) fun r => .ok (.inr r))).isOk = false := by
    decide +kernel
  have start : sharedArc.initialValue (fun _ => 0) 0 = .ok 0 := by decide +kernel
  unfold MixedGraph.mxfEdmondsKarp MixedGraph.mxfPhase
  simp only [start, bind, Except.bind]
  cases fuel with
  | zero => exact ⟨_, rfl⟩
  | succ fuel =>
    cases first : sharedArc.mxfIteration 0 0 2 ⟨0, fun _ => 0, []⟩ with
    | error e => exact ⟨e, by rw [loop, first]⟩
    | ok outcome =>
      rw [first] at fails
      cases outcome with
      | inr r => cases fails
      | inl st =>
        rw [loop_inl first]
        cases fuel with
        | zero => exact ⟨_, rfl⟩
        | succ fuel =>
          cases second : sharedArc.mxfIteration 0 0 2 st with
          | error e => exact ⟨e, by rw [loop, second]⟩
          | ok outcome =>
            simp only [Except.bind, Sum.elim_inl, second] at fails
            cases fails

end DiGraph

end Goblin
