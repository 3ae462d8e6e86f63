import Goblin.Dinic

/-!
# Augmentation phases

The calls that a phase of `MXF_Dinic` makes to the auxiliary network: `FindPath` chooses a path
of live props, the flow is pushed along its arcs from the target back to the source, and
`TopErasure` is called for every arc of the path that this saturates. The method erases a saturated
arc before it pushes along the next one. Here an arc may be erased at any later time before the
next path is searched, and the degrees count the arcs that wait for it (`late`).
-/

set_option autoImplicit false

namespace Goblin

open Library List

/-- The state of a phase. The walk back to the source has come to `node`; between two walks this
is the source. -/
structure PhaseState (n m : ℕ) where
  sub : Fin m → ℚ
  pred : Fin n → Option (Arc m)
  aux : AuxNetwork n m
  node : Fin n
  lambda : ℚ
  late : List (Arc m)

namespace MixedGraph

variable {n m : ℕ} (G : MixedGraph n m) (s t : Fin n)

/-- The state after `Phase2`, when the residual graph has been searched. -/
def phaseStart (sub : Fin m → ℚ) (pred : Fin n → Option (Arc m)) : PhaseState n m :=
  { sub := sub
    pred := pred
    aux := (G.dinicSearch sub s t).aux.phase2
    node := s
    lambda := 0
    late := [] }

/-- The calls of a phase, and the beginning of the next one. -/
inductive PhaseStep : PhaseState n m → PhaseState n m → Prop
  | findPath {st : PhaseState n m} {found : FoundPath n m} (idle : st.node = s)
      (erased : st.late = [])
      (unblocked : AuxNetwork.blocked s st.aux.currentDegree t = false)
      (result : G.findPath st.sub s t st.aux st.pred = .ok found) :
      PhaseStep st { st with
        pred := found.pred
        aux := { st.aux with currentIndex := found.currentIndex }
        node := t
        lambda := found.lambda }
  | push {st : PhaseState n m} {a : Arc m} (walking : st.node ≠ s)
      (label : st.pred st.node = some a) :
      PhaseStep st { st with
        sub := push st.sub a st.lambda
        pred := Function.update st.pred st.node none
        node := G.startNode a
        late := if G.resCap (push st.sub a st.lambda) a = 0 then a :: st.late else st.late }
  | topErasure {st : PhaseState n m} {a : Arc m} {aux : AuxNetwork n m} (late : a ∈ st.late)
      (result : G.topErasure st.sub st.aux a = .ok aux) :
      PhaseStep st { st with aux := aux, late := st.late.erase a }
  | nextPhase {st : PhaseState n m} (idle : st.node = s) (erased : st.late = [])
      (blocked : AuxNetwork.blocked s st.aux.currentDegree t = true)
      (reached : (G.dinicSearch st.sub s t).dist t ≠ ⊤) :
      PhaseStep st (G.phaseStart s t st.sub st.pred)

/-- The states of the phases that begin with a flow within the bounds. -/
inductive PhaseReach : PhaseState n m → Prop
  | start {sub : Fin m → ℚ} (within : G.WithinBounds sub)
      (reached : (G.dinicSearch sub s t).dist t ≠ ⊤) :
      PhaseReach (G.phaseStart s t sub fun _ => none)
  | step {st st' : PhaseState n m} (reach : PhaseReach st) (step : G.PhaseStep s t st st') :
      PhaseReach st'

variable {G s t} {rank : Fin n → ℕ} {st : PhaseState n m} {a : Arc m}

section

variable (G : MixedGraph n m) (s : Fin n) (rank : Fin n → ℕ) (st : PhaseState n m)

/-- The rest of the path that the walk has to go. It lies below the arcs that wait for their
erasure. -/
structure RestPath
    (p : List (Arc m)) : Prop where
  path : BackPath st.pred G.src s st.node p
  live : ∀ a ∈ p, G.counts st.sub s st.aux.currentDegree [] [] a = true
  isProp : ∀ a ∈ p, a ∈ st.aux.prop (G.dst a)
  current : ∀ a ∈ p, (st.aux.prop (G.dst a))[st.aux.currentIndex (G.dst a)]? = some a
  pos : 0 < st.lambda
  room : ∀ a ∈ p, st.lambda ≤ G.resCap st.sub a
  below : ∀ b ∈ st.late, ∀ a ∈ p, rank (G.dst a) < rank (G.dst b)

/-- The invariant of a phase. -/
structure WalkInv :
    Prop where
  within : G.WithinBounds st.sub
  phase : LatePhaseInv G st.sub s rank st.aux st.late
  consistent : ∀ v a, st.pred v = some a → G.dst a = v
  walk : st.node ≠ s → ∃ p, RestPath G s rank st p

end

theorem walkInv_phaseStart {sub : Fin m → ℚ} {pred : Fin n → Option (Arc m)}
    (within : G.WithinBounds sub) (consistent : ∀ v a, pred v = some a → G.dst a = v) :
    WalkInv G s (layerRank (G.dinicSearch sub s t).dist) (G.phaseStart s t sub pred) := by
  obtain ⟨done, search, -⟩ := G.dinicSearch_spec sub s t
  exact ⟨within, latePhaseInv_nil.2 (phaseInv_phase2 search), consistent,
    fun walking => absurd rfl walking⟩

/-! ## The calls -/

theorem WalkInv.findPath {found : FoundPath n m} (ne : s ≠ t) (inv : WalkInv G s rank st)
    (erased : st.late = []) (unblocked : AuxNetwork.blocked s st.aux.currentDegree t = false)
    (res : G.findPath st.sub s t st.aux st.pred = .ok found) :
    ∃ p, WalkInv G s rank { st with
        pred := found.pred
        aux := { st.aux with currentIndex := found.currentIndex }
        node := t
        lambda := found.lambda } ∧
      RestPath G s rank { st with
        pred := found.pred
        aux := { st.aux with currentIndex := found.currentIndex }
        node := t
        lambda := found.lambda } p := by
  have phase := inv.phase
  rw [erased, latePhaseInv_nil] at phase
  have alive : st.aux.currentDegree t ≠ 0 := by
    intro zero
    simp [AuxNetwork.blocked, ne.symm, zero] at unblocked
  obtain ⟨found', p, res', path, lambda, pos⟩ :=
    findPath_spec inv.within phase inv.consistent ne.symm alive
  obtain rfl : found = found' := Except.ok.inj (res.symm.trans res')
  have rest : RestPath G s rank { st with
      pred := found.pred
      aux := { st.aux with currentIndex := found.currentIndex }
      node := t
      lambda := found.lambda } p :=
    ⟨path.path, path.live, path.isProp, path.current, pos,
      fun a mem => lambda.trans_le (bottleneck_le mem), by simp [erased]⟩
  have phase' : PhaseInv G st.sub s rank { st.aux with currentIndex := found.currentIndex } :=
    ⟨phase.layered.congr rfl rfl, phase.degrees, path.indices⟩
  refine ⟨p, ⟨inv.within, ?_, path.consistent, fun _ => ⟨p, rest⟩⟩, rest⟩
  change LatePhaseInv G st.sub s rank { st.aux with currentIndex := found.currentIndex } st.late
  rw [erased]
  exact latePhaseInv_nil.2 phase'

theorem WalkInv.push (inv : WalkInv G s rank st) (walking : st.node ≠ s)
    (label : st.pred st.node = some a) :
    WalkInv G s rank { st with
      sub := push st.sub a st.lambda
      pred := Function.update st.pred st.node none
      node := G.startNode a
      late := if G.resCap (push st.sub a st.lambda) a = 0 then a :: st.late else st.late } := by
  obtain ⟨p, rest⟩ := inv.walk walking
  have path := rest.path
  cases p with
  | nil => exact absurd rfl path.ne_nil
  | cons b p =>
    obtain rfl : a = b := Option.some.inj (label.symm.trans path.label_head)
    have layered := inv.phase.layered
    have endA : G.dst a = st.node := inv.consistent _ _ label
    have nodup := path.nodup inv.consistent
    rw [map_cons, nodup_cons, endA] at nodup
    have propA := rest.isProp a mem_cons_self
    have room := rest.room a mem_cons_self
    refine ⟨withinBounds_push inv.within rest.pos.le room,
      inv.phase.pushLive inv.within propA (rest.current a mem_cons_self)
        (rest.live a mem_cons_self) rest.pos room, ?_, ?_⟩
    · intro v b set
      by_cases here : v = st.node
      · simp [here] at set
      · exact inv.consistent v b ((Function.update_of_ne here _ _).symm.trans set)
    · intro onward
      cases path with
      | last _ arrived => exact absurd arrived onward
      | step _ _ tail =>
        have isPropRest : ∀ b ∈ p, b ∈ st.aux.prop (G.dst b) := fun b mem =>
          rest.isProp b (mem_cons_of_mem _ mem)
        have lowerA := layered.prop_rank _ a propA
        -- the rest of the path lies below the end of `a`
        have below : ∀ b ∈ p, rank (G.dst b) < rank (G.dst a) := by
          intro b mem
          have le := rank_le_of_path layered inv.consistent tail isPropRest b mem
          omega
        have otherArc : ∀ b ∈ p, b ≠ a := by
          rintro b mem rfl
          exact lt_irrefl _ (below b mem)
        have resCap : ∀ b ∈ p, G.resCap (Library.push st.sub a st.lambda) b =
            G.resCap st.sub b := fun b mem =>
          layered.resCap_push propA (isPropRest b mem) (otherArc b mem) _
        refine ⟨p, tail.congr inv.consistent fun b mem => ?_, ?_, isPropRest,
          fun b mem => rest.current b (mem_cons_of_mem _ mem), rest.pos, ?_, ?_⟩
        · refine Function.update_of_ne ?_ _ _
          rintro eq
          exact nodup.1 (eq ▸ mem_map_of_mem mem)
        · intro b mem
          have live := rest.live b (mem_cons_of_mem _ mem)
          simp only [counts, resCap b mem] at live ⊢
          exact live
        · intro b mem
          rw [resCap b mem]
          exact rest.room b (mem_cons_of_mem _ mem)
        · intro c late b mem
          dsimp only at late
          split_ifs at late with saturated
          · rcases mem_cons.1 late with rfl | earlier
            · exact below b mem
            · exact rest.below c earlier b (mem_cons_of_mem _ mem)
          · exact rest.below c late b (mem_cons_of_mem _ mem)

/-- The erasure of a saturated arc changes nothing on the rest of the path. -/
theorem WalkInv.topErasure {aux : AuxNetwork n m} (inv : WalkInv G s rank st) (late : a ∈ st.late)
    (res : G.topErasure st.sub st.aux a = .ok aux) :
    WalkInv G s rank { st with aux := aux, late := st.late.erase a } := by
  obtain ⟨aux', res', phase, eq⟩ := topErasure_spec inv.phase late
  obtain rfl : aux = aux' := Except.ok.inj (res.symm.trans res')
  refine ⟨inv.within, phase, inv.consistent, fun walking => ?_⟩
  obtain ⟨p, rest⟩ := inv.walk walking
  have below := rest.below a late
  refine ⟨p, rest.path, ?_, ?_, ?_, rest.pos, rest.room,
    fun b mem => rest.below b (mem_of_mem_erase mem)⟩
  · intro b mem
    have lower := inv.phase.layered.prop_rank _ b (rest.isProp b mem)
    have live := rest.live b mem
    simp only [counts, eq.degree _ (lower.trans (below b mem))] at live ⊢
    exact live
  · intro b mem
    rw [show aux.prop = st.aux.prop from eq.prop]
    exact rest.isProp b mem
  · intro b mem
    rw [show aux.prop = st.aux.prop from eq.prop, eq.index _ (below b mem)]
    exact rest.current b mem

theorem PhaseReach.inv (ne : s ≠ t) (reach : G.PhaseReach s t st) :
    ∃ rank, WalkInv G s rank st := by
  induction reach with
  | start within _ => exact ⟨_, walkInv_phaseStart within (by simp)⟩
  | step _ step ih =>
    obtain ⟨rank, inv⟩ := ih
    cases step with
    | findPath _ erased unblocked res =>
      obtain ⟨p, inv', -⟩ := inv.findPath ne erased unblocked res
      exact ⟨rank, inv'⟩
    | push walking label => exact ⟨rank, inv.push walking label⟩
    | topErasure late res => exact ⟨rank, inv.topErasure late res⟩
    | nextPhase _ _ _ _ => exact ⟨_, walkInv_phaseStart inv.within inv.consistent⟩

/-! ## What the counters say -/

/-- A prop is live while it has residual capacity and starts at the source or at a node with a
positive degree. -/
def liveProp (G : MixedGraph n m) (s : Fin n) (st : PhaseState n m) (a : Arc m) : Bool :=
  decide (0 < G.resCap st.sub a ∧ (G.startNode a = s ∨ 0 < st.aux.currentDegree (G.startNode a)))

theorem counts_eq_liveProp (a : Arc m) :
    G.counts st.sub s st.aux.currentDegree [] [] a = liveProp G s st a := by
  simp [counts, liveProp, Nat.pos_iff_ne_zero, startNode]

/-- A node that is reached from the source by props with residual capacity has a positive
degree. -/
theorem WalkInv.degree_pos {v : Fin n} (inv : WalkInv G s rank st) (path : Relation.ReflTransGen
      (fun u v => ∃ a ∈ st.aux.prop v, G.startNode a = u ∧ 0 < G.resCap st.sub a) s v) :
    v = s ∨ 0 < st.aux.currentDegree v := by
  induction path with
  | refl => exact .inl rfl
  | @tail u v _ last ih =>
    obtain ⟨a, mem, start, residual⟩ := last
    by_cases source : v = s
    · exact .inl source
    have live : G.counts st.sub s st.aux.currentDegree [] [] a = true := by
      rw [counts_eq_liveProp, liveProp, decide_eq_true_eq, start]
      exact ⟨residual, ih⟩
    have some_live := countP_pos_iff.2 ⟨a, mem, live⟩
    have degree := inv.phase.degrees v source
    exact .inr (by omega)

/-- **The layered network of Dinic's method.** In every state of every phase, the degree of a node
is the number of its live props and of the saturated arcs that have not yet been erased, so it is
the number of the live props whenever every saturated arc has been erased. `TopErasure` returns
for the arcs that wait for it. Between two paths `FindPath` succeeds while the target is not
blocked, and when the target is blocked, no path of props with residual capacity leads to it. -/
theorem layered_phases (distinct : s ≠ t) (reach : G.PhaseReach s t st) :
    (∀ v, v ≠ s → st.aux.currentDegree v = (st.aux.prop v).countP (liveProp G s st) +
      st.late.countP fun a => decide (G.endNode a = v)) ∧
    (∀ a ∈ st.late, ∃ aux, G.topErasure st.sub st.aux a = .ok aux) ∧
    (st.node = s → st.late = [] → AuxNetwork.blocked s st.aux.currentDegree t = false →
      ∃ found p, G.findPath st.sub s t st.aux st.pred = .ok found ∧ 0 < found.lambda ∧
        BackPath found.pred G.startNode s t p ∧
        ∀ a ∈ p, a ∈ st.aux.prop (G.endNode a) ∧ 0 < G.resCap st.sub a) ∧
    (AuxNetwork.blocked s st.aux.currentDegree t = true → ¬ Relation.ReflTransGen
      (fun u v => ∃ a ∈ st.aux.prop v, G.startNode a = u ∧ 0 < G.resCap st.sub a) s t) := by
  obtain ⟨rank, inv⟩ := reach.inv distinct
  refine ⟨?_, ?_, ?_, ?_⟩
  · intro v other
    rw [inv.phase.degrees v other]
    refine congrArg (· + _) (countP_congr fun a _ => ?_)
    rw [counts_eq_liveProp]
  · intro a late
    obtain ⟨aux, result, -⟩ := topErasure_spec inv.phase late
    exact ⟨aux, result⟩
  · intro _ erased unblocked
    have phase := inv.phase
    rw [erased, latePhaseInv_nil] at phase
    have alive : st.aux.currentDegree t ≠ 0 := by
      intro zero
      simp [AuxNetwork.blocked, distinct.symm, zero] at unblocked
    obtain ⟨found, p, result, path, -, pos⟩ :=
      findPath_spec inv.within phase inv.consistent distinct.symm alive
    refine ⟨found, p, result, pos, path.path, fun a member => ⟨path.isProp a member, ?_⟩⟩
    have live := path.live a member
    simp only [counts, decide_eq_true_eq] at live
    exact live.1
  · intro blocked path
    simp only [AuxNetwork.blocked, Bool.and_eq_true, decide_eq_true_eq] at blocked
    rcases inv.degree_pos path with same | positive
    · exact distinct same.symm
    · omega

theorem ok_of_isOk_bind {ε α β : Type} {x : Except ε α} {f : α → Except ε β}
    (ok : (x.bind f).isOk = true) : ∃ a, x = .ok a ∧ (f a).isOk = true := by
  cases x with
  | error e => cases ok
  | ok a => exact ⟨a, rfl, ok⟩

/-- A flow of value 2 is sent along the first one of two disjoint paths, whose first arc is then
erased. The other path is found after that. -/
theorem layered_phases_twoPaths : ∃ st, DiGraph.twoPaths.PhaseReach 0 3 st ∧ st.sub 0 = 2 ∧
    st.sub 1 = 2 ∧ ∃ found p,
      DiGraph.twoPaths.findPath st.sub 0 3 st.aux st.pred = .ok found ∧ 0 < found.lambda ∧
        BackPath found.pred DiGraph.twoPaths.startNode 0 3 p := by
  let G := DiGraph.twoPaths.toMixedGraph
  let st := G.phaseStart 0 3 (fun _ => 0) fun _ => none
  let sub1 := push st.sub ⟨1, false⟩
  let sub2 := fun lambda => push (sub1 lambda) ⟨0, false⟩ lambda
  have start : G.PhaseReach 0 3 st := .start (by decide +kernel) (by decide +kernel)
  have calls : ((G.findPath st.sub 0 3 st.aux st.pred).bind fun found =>
      (G.topErasure (sub2 found.lambda) { st.aux with currentIndex := found.currentIndex }
        ⟨0, false⟩).bind fun aux =>
        if found.pred 3 = some ⟨1, false⟩ ∧ found.pred 1 = some ⟨0, false⟩ ∧
          sub2 found.lambda 0 = 2 ∧ sub2 found.lambda 1 = 2 ∧
          G.resCap (sub1 found.lambda) ⟨1, false⟩ ≠ 0 ∧
          G.resCap (sub2 found.lambda) ⟨0, false⟩ = 0 ∧
          AuxNetwork.blocked 0 aux.currentDegree 3 = false then .ok ()
        else .error .fuel).isOk = true := by decide +kernel
  obtain ⟨found, first, calls⟩ := ok_of_isOk_bind calls
  obtain ⟨aux, second, calls⟩ := ok_of_isOk_bind calls
  split_ifs at calls with facts
  · obtain ⟨label3, label1, flow0, flow1, unsaturated, saturated, unblocked⟩ := facts
    let aux1 := { st.aux with currentIndex := found.currentIndex }
    have found1 := start.step (.findPath rfl rfl (by decide +kernel) first)
    have pushed1 : G.PhaseReach 0 3 ⟨sub1 found.lambda, Function.update found.pred 3 none, aux1,
        1, found.lambda, if G.resCap (sub1 found.lambda) ⟨1, false⟩ = 0 then [⟨1, false⟩]
          else []⟩ := found1.step (.push (show (3 : Fin 4) ≠ 0 by decide) label3)
    rw [if_neg unsaturated] at pushed1
    have label1' : Function.update found.pred 3 none 1 = some ⟨0, false⟩ := by
      rw [Function.update_of_ne (by decide), label1]
    have pushed2 : G.PhaseReach 0 3 ⟨sub2 found.lambda,
        Function.update (Function.update found.pred 3 none) 1 none, aux1, 0, found.lambda,
        if G.resCap (sub2 found.lambda) ⟨0, false⟩ = 0 then [⟨0, false⟩] else []⟩ :=
      pushed1.step (.push (show (1 : Fin 4) ≠ 0 by decide) label1')
    rw [if_pos saturated] at pushed2
    have erased := pushed2.step (.topErasure mem_cons_self second)
    obtain ⟨-, -, search, -⟩ := layered_phases (by decide) erased
    obtain ⟨found', p, result, pos, path, -⟩ :=
      search rfl (erase_cons_head (⟨0, false⟩ : Arc 4) []) unblocked
    exact ⟨_, erased, flow0, flow1, found', p, result, pos, path⟩
  · cases calls

end MixedGraph

end Goblin
