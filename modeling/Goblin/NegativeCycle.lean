import Goblin.Dijkstra

/-!
# Negative cycles by label correcting

`NegativeCycle` corrects labels in passes over the nodes and gives up after
`2n` passes. If a label is still corrected in the last pass, the node from
which this happened is taken `n` steps back along the predecessor labels.

Two facts carry the proof. The predecessor labels never close a cycle that is
not negative (`NCInv.cycles`). And a label that was set in some pass rests on
labels set one pass earlier at most (`NCInv.order`), so `n` steps back from the
last pass only meet labelled nodes, and by then the walk is on a cycle.

A label that is not below `InfFloat` is not stored. This is of no effect if the walks
that give the nodes their first labels are shorter (`NCInv.short`).
-/

set_option autoImplicit false

namespace Goblin

open Library List Function

/-- The labels of the label correcting method and its flags. -/
structure NCState (n m : ℕ) where
  dist : Fin n → WithTop ℚ
  pred : Fin n → Option (Arc m)
  active : Fin n → Bool
  updates : Bool
  root : Option (Fin n)

/-- The labels that `NegativeCycle` leaves, and the node that it returns. -/
structure NCResult (n m : ℕ) where
  dist : Fin n → WithTop ℚ
  pred : Fin n → Option (Arc m)
  root : Option (Fin n)

namespace MixedGraph

variable {n m : ℕ} (G : MixedGraph n m)

section Model

variable (el : Arc m → Bool) (len : Arc m → ℚ)

/-- One arc of the incidence list of `v`, in pass `itCount`. -/
def ncRead (itCount : ℕ) (v : Fin n) (st : NCState n m) (a : Arc m) : NCState n m :=
  let w := G.endNode a
  let thisLabel := st.dist v + (len a : WithTop ℚ)
  if thisLabel < labelNumber infFloat (st.dist w) ∧ st.pred v ≠ some a.rev ∧ el a = true then
    { dist := update st.dist w thisLabel
      pred := update st.pred w (some a)
      active := update st.active w true
      updates := if itCount < 2 * n then true else st.updates
      root := if itCount < 2 * n then st.root else some v }
  else st

/-- Scan a node if it is active. -/
def ncScan (itCount : ℕ) (st : NCState n m) (v : Fin n) : NCState n m :=
  if st.active v then
    (G.incidences v).foldl (G.ncRead el len itCount v)
      { st with active := update st.active v false }
  else st

/-- One pass over all nodes. -/
def ncPass (itCount : ℕ) (st : NCState n m) : NCState n m :=
  (finRange n).foldl (G.ncScan el len itCount) { st with updates := false }

/-- The main loop: while there are updates, for `left` more passes. -/
def ncLoop : ℕ → ℕ → NCState n m → NCState n m
  | 0, _, st => st
  | left + 1, itCount, st =>
    if st.updates then ncLoop left (itCount + 1) (G.ncPass el len itCount st) else st

/-- Go back along the predecessor labels. -/
def walkBack (pred : Fin n → Option (Arc m)) : ℕ → Fin n → Except Raise (Fin n)
  | 0, v => .ok v
  | k + 1, v =>
    match pred v with
    | none => .error (.range "StartNode" "No such arc")
    | some a => walkBack pred k (G.startNode a)

/-- The labels before the first pass. -/
def ncInit (source : Option (Fin n)) : NCState n m where
  dist := fun v => if source = none ∨ source = some v then 0 else ⊤
  pred := fun _ => none
  active := fun v => decide (source = none ∨ source = some v)
  updates := true
  root := none

/-- The method for given arcs and lengths. -/
def labelCorrect (source : Option (Fin n)) : Except Raise (NCResult n m) :=
  let st := G.ncLoop el len (2 * n) 1 (ncInit source)
  match st.root with
  | none => .ok ⟨st.dist, st.pred, none⟩
  | some root => do
    let root ← G.walkBack st.pred n root
    return ⟨st.dist, st.pred, some root⟩

end Model

def negativeCycle (sub : Fin m → ℚ) (potential : Fin n → ℚ) (delta : ℚ)
    (characteristic : TOptSPX) (source : Option (Fin n)) (epsilon : ℚ) :
    Except Raise (NCResult n m) :=
  G.labelCorrect (G.eligible sub delta characteristic)
    (fun a => G.searchLength potential characteristic a + epsilon) source

/-! ## Predecessor cycles -/

variable {G} {el : Arc m → Bool} {len : Arc m → ℚ}

/-- Lowering the label of one node closes negative cycles only. The labels `d`
are those after the update of `w`; arcs that start at `w` have strict slack. -/
theorem cycle_neg_of_slack {pred pred' : Fin n → Option (Arc m)} {d : Fin n → ℚ} {w : Fin n}
    (consistent : ∀ v a, pred' v = some a → G.dst a = v) (eq : ∀ v, v ≠ w → pred' v = pred v)
    (slack : ∀ v a, pred' v = some a → d (G.src a) + len a ≤ d v)
    (strict : ∀ v a, pred' v = some a → G.src a = w → d (G.src a) + len a < d v)
    (cycles : ∀ x p, BackPath pred G.src x x p → (p.map len).sum < 0)
    {x : Fin n} {p : List (Arc m)} (cycle : BackPath pred' G.src x x p) : (p.map len).sum < 0 := by
  by_cases visited : ∃ b ∈ p, G.src b = w
  · obtain ⟨b, mem, start⟩ := visited
    have closed : (p.map fun a => d (G.dst a) - d (G.src a)).sum = 0 := by
      have walk := (cycle.isWalk consistent).sum_sub d
      rw [sub_self, map_reverse, sum_reverse] at walk
      exact walk
    have label : ∀ a ∈ p, pred' (G.dst a) = some a := fun a inPath =>
      cycle.label_of_mem consistent inPath
    rw [← closed]
    refine sum_lt_sum _ _ (fun a inPath => ?_) ⟨b, mem, ?_⟩
    · have bound := slack _ a (label a inPath)
      linarith
    · have bound := strict _ b (label b mem) start
      linarith
  · push Not at visited
    refine cycles x p (cycle.congr consistent fun a mem => (eq _ ?_).symm)
    rintro rfl
    rcases cycle.left_of_entered consistent mem with atStart | ⟨b, inPath, start⟩
    · obtain ⟨b, inPath, start⟩ := cycle.start_left
      exact visited b inPath (start.trans atStart.symm)
    · exact visited b inPath start

/-! ## The invariant of the passes -/

/-- The nodes that are labelled before the first pass. -/
def ncSource (source : Option (Fin n)) (v : Fin n) : Prop := source = none ∨ source = some v

section

variable (G : MixedGraph n m) (el : Arc m → Bool) (len : Arc m → ℚ)

/-- What the labels say in pass `itCount`: `d` are the values of the finite
labels, and `stamp` tells the pass in which each of them was set. -/
structure NCInv (S : Fin n → Prop)
    (itCount : ℕ) (d : Fin n → ℚ) (stamp : Fin n → ℕ) (st : NCState n m) : Prop where
  labels : ∀ v, st.dist v ≠ ⊤ → st.dist v = (d v : WithTop ℚ)
  sources : ∀ v, S v → st.dist v ≠ ⊤ ∧ d v ≤ 0
  attained : ∀ v, st.dist v ≠ ⊤ → ∃ s p, S s ∧ IsWalk G.src G.dst s p v ∧
    (∀ a ∈ p, el a = true) ∧ (p.map len).sum = d v
  linked : ∀ v a, st.pred v = some a → st.dist v ≠ ⊤ ∧ st.dist (G.src a) ≠ ⊤
  consistent : ∀ v a, st.pred v = some a → G.dst a = v
  usable : ∀ v a, st.pred v = some a → el a = true
  slack : ∀ v a, st.pred v = some a → d (G.src a) + len a ≤ d v
  cycles : ∀ x p, BackPath st.pred G.src x x p → (p.map len).sum < 0
  stamped : ∀ v, 1 ≤ stamp v → ∃ a, st.pred v = some a
  order : ∀ v a, st.pred v = some a → stamp v ≤ stamp (G.src a) + 1
  past : ∀ v, stamp v ≤ itCount
  rooted : ∀ x, st.root = some x → 2 * n ≤ stamp x + 1
  late : ∀ x, st.root = some x → 2 * n ≤ itCount
  anchored : Anchored G.src G.dst (fun a => el a = true) S len st.dist
  short : WalksBelow G.src G.dst (fun a => el a = true) S len infFloat

/-- What the flags say within a pass. The nodes of `scanned` have had their
turn; `pending` are the arcs of the last one that are still to be read. -/
structure NCScan (itCount : ℕ)
    (scanned : List (Fin n)) (pending : List (Arc m)) (d : Fin n → ℚ) (stamp : Fin n → ℕ)
    (st : NCState n m) : Prop where
  live : ∀ u, st.active u = true → st.dist u ≠ ⊤
  waiting : ∀ u, st.active u = true → u ∉ scanned → itCount ≤ stamp u + 1
  again : ∀ u, st.active u = true → u ∈ scanned → itCount ≤ stamp u
  relaxed : ∀ a, el a = true → st.dist (G.src a) ≠ ⊤ → st.active (G.src a) = false →
    a ∉ pending → st.dist (G.dst a) ≠ ⊤ ∧ d (G.dst a) ≤ d (G.src a) + len a
  quiet : st.updates = false → st.root = none → ∀ u ∈ scanned, st.active u = false
  timely : st.updates = true → itCount < 2 * n

end

variable {S : Fin n → Prop} {itCount : ℕ} {d : Fin n → ℚ} {stamp : Fin n → ℕ} {st : NCState n m}
  {v : Fin n} {scanned : List (Fin n)}

theorem ncRead_inv {a : Arc m} {l : List (Arc m)} (antisymm : ∀ a, 0 ≤ len a + len a.rev)
    (inv : NCInv G el len S itCount d stamp st)
    (scan : NCScan G el len itCount scanned (a :: l) d stamp st) (start : G.src a = v)
    (labelled : st.dist v ≠ ⊤) (recent : itCount ≤ stamp v + 1) :
    ∃ d' stamp', NCInv G el len S itCount d' stamp' (G.ncRead el len itCount v st a) ∧
      NCScan G el len itCount scanned l d' stamp' (G.ncRead el len itCount v st a) ∧
      (G.ncRead el len itCount v st a).dist v ≠ ⊤ ∧ itCount ≤ stamp' v + 1 := by
  by_cases better : st.dist v + (len a : WithTop ℚ) < st.dist (G.dst a) ∧
      st.pred v ≠ some a.rev ∧ el a = true
  · obtain ⟨less, notBack, usable⟩ := better
    have known : ∀ u, S u → st.dist u ≠ ⊤ := fun u source => (inv.sources u source).1
    have fits := inv.anchored.label_lt known (start.symm ▸ labelled) usable inv.short
      (start.symm ▸ less)
    have anchored := inv.anchored.relax known (start.symm ▸ labelled) usable (start.symm ▸ less)
    rw [start] at fits anchored
    have lower : st.dist (G.dst a) ≠ ⊤ → d v + len a < d (G.dst a) := by
      intro known
      rw [inv.labels _ labelled, inv.labels _ known] at less
      exact_mod_cast less
    set w := G.dst a with wEq
    set d' := update d w (d v + len a) with dEq
    set stamp' := update stamp w itCount with stampEq
    set dist' := update st.dist w (st.dist v + (len a : WithTop ℚ)) with distEq
    set pred' := update st.pred w (some a) with predEq
    have dW : d' w = d v + len a := update_self ..
    have dOther : ∀ u, u ≠ w → d' u = d u := fun u other => update_of_ne other ..
    have dLe : ∀ u, st.dist u ≠ ⊤ → d' u ≤ d u :=
      (forall_update_iff d fun u y => st.dist u ≠ ⊤ → y ≤ d u).2
        ⟨fun known => (lower known).le, fun _ _ _ => le_rfl⟩
    have knownW : dist' w ≠ ⊤ := (update_self w _ st.dist).trans_ne (ne_top_of_lt less)
    have keeps : ∀ u, st.dist u ≠ ⊤ → dist' u ≠ ⊤ :=
      (forall_update_iff st.dist fun u y => st.dist u ≠ ⊤ → y ≠ ⊤).2
        ⟨fun _ => ne_top_of_lt less, fun _ _ => id⟩
    have stampLe : ∀ u, stamp u ≤ stamp' u :=
      (forall_update_iff stamp fun u y => stamp u ≤ y).2 ⟨inv.past w, fun _ _ => le_rfl⟩
    have res : G.ncRead el len itCount v st a =
        { dist := dist'
          pred := pred'
          active := update st.active w true
          updates := if itCount < 2 * n then true else st.updates
          root := if itCount < 2 * n then st.root else some v } :=
      if_pos ⟨lt_labelNumber less fits, notBack, usable⟩
    have consistent' : ∀ u b, pred' u = some b → G.dst b = u := by
      intro u b label
      rcases of_update label with ⟨eq, ⟨⟩⟩ | ⟨-, label⟩
      · exact eq.symm
      · exact inv.consistent u b label
    -- the new label is tight, the labels that rest on `w` gain slack
    have slackCases : ∀ u b, pred' u = some b → d' (G.src b) + len b ≤ d' u ∧
        (G.src b = w → d' (G.src b) + len b < d' u) := by
      intro u b label
      rcases of_update label with ⟨eq, ⟨⟩⟩ | ⟨eq, label⟩
      · rw [eq, dW, start]
        by_cases isLoop : v = w
        · have neg : len a < 0 := by
            rw [← isLoop] at lower
            linarith [lower labelled]
          rw [isLoop, dW, isLoop]
          exact ⟨by linarith, fun _ => by linarith⟩
        · rw [dOther v isLoop]
          exact ⟨le_refl _, fun equal => absurd equal isLoop⟩
      · have old := inv.slack u b label
        rw [dOther u eq]
        by_cases fromW : G.src b = w
        · have known := (inv.linked u b label).2
          rw [fromW] at old known ⊢
          have lower := lower known
          rw [dW]
          exact ⟨by linarith, fun _ => by linarith⟩
        · rw [dOther _ fromW]
          exact ⟨old, fun equal => absurd equal fromW⟩
    refine ⟨d', stamp', ?_, ?_, by rw [res]; exact keeps v labelled,
      recent.trans (Nat.add_le_add_right (stampLe v) 1)⟩
    · rw [res]
      refine ⟨?_, ?_, ?_, ?_, consistent', ?_, fun u b label => (slackCases u b label).1, ?_, ?_,
        ?_, (forall_update_iff stamp fun _ y => y ≤ itCount).2 ⟨le_rfl, fun u _ => inv.past u⟩,
        ?_, ?_, anchored, inv.short⟩
      · intro u known
        by_cases eq : u = w
        · exact (congrArg dist' eq).trans (by simp [distEq, eq, dW, inv.labels v labelled])
        · simp only [distEq, update_of_ne eq] at known ⊢
          rw [dOther u eq, inv.labels u known]
      · intro u source
        obtain ⟨known, nonpos⟩ := inv.sources u source
        exact ⟨keeps u known, (dLe u known).trans nonpos⟩
      · intro u known
        by_cases eq : u = w
        · obtain ⟨s, p, source, walk, along, length⟩ := inv.attained v labelled
          refine ⟨s, p ++ [a], source, ?_, ?_, ?_⟩
          · rw [eq]
            exact isWalk_concat.2 ⟨start ▸ walk, rfl⟩
          · intro b mem
            rcases mem_append.1 mem with old | last
            · exact along b old
            · rw [mem_singleton.1 last]
              exact usable
          · rw [eq, dW, map_append, sum_append, length]
            simp
        · rw [dOther u eq]
          exact inv.attained u ((update_of_ne eq _ st.dist).symm.trans_ne known)
      · intro u b label
        rcases of_update label with ⟨eq, ⟨⟩⟩ | ⟨-, label⟩
        · rw [eq, start]
          exact ⟨knownW, keeps v labelled⟩
        · obtain ⟨known, knownSrc⟩ := inv.linked u b label
          exact ⟨keeps u known, keeps _ knownSrc⟩
      · intro u b label
        rcases of_update label with ⟨-, ⟨⟩⟩ | ⟨-, label⟩
        · exact usable
        · exact inv.usable u b label
      · intro x p cycle
        exact cycle_neg_of_slack consistent' (fun u other => update_of_ne other ..)
          (fun u b label => (slackCases u b label).1)
          (fun u b label => (slackCases u b label).2) inv.cycles cycle
      · intro u set
        by_cases eq : u = w
        · exact ⟨a, (congrArg pred' eq).trans (update_self ..)⟩
        · rw [stampEq, update_of_ne eq] at set
          exact (inv.stamped u set).imp fun b label => (update_of_ne eq ..).trans label
      · intro u b label
        rcases of_update label with ⟨eq, ⟨⟩⟩ | ⟨eq, label⟩
        · rw [eq, start, stampEq, update_self]
          exact recent.trans (Nat.add_le_add_right (stampLe v) 1)
        · rw [stampEq, update_of_ne eq]
          exact (inv.order u b label).trans (Nat.add_le_add_right (stampLe _) 1)
      · intro x root
        dsimp only at root
        split_ifs at root with early
        · exact (inv.rooted x root).trans (Nat.add_le_add_right (stampLe x) 1)
        · cases root
          have bound := stampLe v
          omega
      · intro x root
        dsimp only at root
        split_ifs at root with early
        · exact inv.late x root
        · exact not_lt.1 early
    · rw [res]
      refine ⟨?_, ?_, ?_, ?_, ?_, ?_⟩
      · intro u active
        rcases of_update active with ⟨eq, -⟩ | ⟨-, active⟩
        · rw [eq]
          exact knownW
        · exact keeps u (scan.live u active)
      · intro u active notScanned
        rcases of_update active with ⟨eq, -⟩ | ⟨eq, active⟩
        · rw [eq, stampEq, update_self]
          omega
        · rw [stampEq, update_of_ne eq]
          exact scan.waiting u active notScanned
      · intro u active isScanned
        rcases of_update active with ⟨eq, -⟩ | ⟨eq, active⟩
        · rw [eq, stampEq, update_self]
        · rw [stampEq, update_of_ne eq]
          exact scan.again u active isScanned
      · intro b usableB known inactive notPending
        rcases of_update inactive with ⟨-, ⟨⟩⟩ | ⟨notW, inactive⟩
        simp only [distEq, update_of_ne notW] at known
        rw [dOther _ notW]
        by_cases eq : b = a
        · subst eq
          rw [← wEq, dW, start]
          exact ⟨knownW, le_refl _⟩
        · obtain ⟨knownDst, bound⟩ :=
            scan.relaxed b usableB known inactive (by simp [eq, notPending])
          exact ⟨keeps _ knownDst, (dLe _ knownDst).trans bound⟩
      · intro noUpdates noRoot
        dsimp only at noUpdates noRoot
        split_ifs at noUpdates noRoot
      · intro flag
        dsimp only at flag
        split_ifs at flag with early
        · exact early
        · exact scan.timely flag
  · have res : G.ncRead el len itCount v st a = st :=
      if_neg fun relaxed => better ⟨lt_of_lt_labelNumber relaxed.1, relaxed.2⟩
    rw [res]
    refine ⟨d, stamp, inv, { scan with relaxed := ?_ }, labelled, recent⟩
    intro b usable known inactive notPending
    by_cases eq : b = a
    · subst eq
      rw [start]
      by_cases less : st.dist v + (len b : WithTop ℚ) < st.dist (G.dst b)
      · -- the label of `v` comes from the opposite arc
        have back : st.pred v = some b.rev := by
          by_contra notBack
          exact better ⟨less, notBack, usable⟩
        have slack := inv.slack v b.rev back
        have knownDst := (inv.linked v b.rev back).2
        have sum := antisymm b
        rw [Network.src_rev] at slack knownDst
        exact ⟨knownDst, by linarith⟩
      · rw [not_lt] at less
        have finite : st.dist v + (len b : WithTop ℚ) ≠ ⊤ :=
          WithTop.add_ne_top.2 ⟨labelled, WithTop.coe_ne_top⟩
        have knownDst := ne_top_of_le_ne_top finite less
        rw [inv.labels _ labelled, inv.labels _ knownDst] at less
        exact ⟨knownDst, by exact_mod_cast less⟩
    · exact scan.relaxed b usable known inactive (by simp [eq, notPending])

theorem ncRead_foldl (l : List (Arc m)) (antisymm : ∀ a, 0 ≤ len a + len a.rev)
    (inv : NCInv G el len S itCount d stamp st)
    (scan : NCScan G el len itCount scanned l d stamp st) (start : ∀ a ∈ l, G.src a = v)
    (labelled : st.dist v ≠ ⊤) (recent : itCount ≤ stamp v + 1) :
    ∃ d' stamp', NCInv G el len S itCount d' stamp' (l.foldl (G.ncRead el len itCount v) st) ∧
      NCScan G el len itCount scanned [] d' stamp' (l.foldl (G.ncRead el len itCount v) st) := by
  induction l generalizing d stamp st with
  | nil => exact ⟨d, stamp, inv, scan⟩
  | cons a l ih =>
    obtain ⟨d', stamp', inv', scan', labelled', recent'⟩ :=
      ncRead_inv antisymm inv scan (start a mem_cons_self) labelled recent
    exact ih inv' scan' (fun b later => start b (mem_cons_of_mem _ later)) labelled'
      recent'

theorem ncScan_inv (antisymm : ∀ a, 0 ≤ len a + len a.rev)
    (inv : NCInv G el len S itCount d stamp st)
    (scan : NCScan G el len itCount scanned [] d stamp st) (fresh : v ∉ scanned) :
    ∃ d' stamp', NCInv G el len S itCount d' stamp' (G.ncScan el len itCount st v) ∧
      NCScan G el len itCount (scanned ++ [v]) [] d' stamp' (G.ncScan el len itCount st v) := by
  cases active : st.active v with
  | true =>
    have recent := scan.waiting v active fresh
    set st1 : NCState n m := { st with active := update st.active v false } with stEq
    have res : G.ncScan el len itCount st v =
        (G.incidences v).foldl (G.ncRead el len itCount v) st1 := by
      simp [ncScan, active, stEq]
    have inactive : st1.active v = false := update_self _ _ _
    have other : ∀ u, u ≠ v → st1.active u = st.active u := fun u different =>
      update_of_ne different _ _
    have inv1 : NCInv G el len S itCount d stamp st1 :=
      ⟨inv.labels, inv.sources, inv.attained, inv.linked, inv.consistent, inv.usable, inv.slack,
        inv.cycles, inv.stamped, inv.order, inv.past, inv.rooted, inv.late, inv.anchored,
        inv.short⟩
    have scan1 : NCScan G el len itCount (scanned ++ [v]) (G.incidences v) d stamp st1 := by
      refine ⟨?_, ?_, ?_, ?_, ?_, scan.timely⟩
      · intro u isActive
        have different : u ≠ v := by
          rintro rfl
          rw [inactive] at isActive
          cases isActive
        rw [other u different] at isActive
        exact scan.live u isActive
      · intro u isActive notScanned
        rw [mem_append, mem_singleton, not_or] at notScanned
        rw [other u notScanned.2] at isActive
        exact scan.waiting u isActive notScanned.1
      · intro u isActive isScanned
        have different : u ≠ v := by
          rintro rfl
          rw [inactive] at isActive
          cases isActive
        rw [other u different] at isActive
        refine scan.again u isActive ?_
        simpa [different] using isScanned
      · intro a usable known inactiveA notPending
        have different : G.src a ≠ v := fun eq =>
          notPending ((G.mem_incidences v a).2 eq)
        rw [other _ different] at inactiveA
        exact scan.relaxed a usable known inactiveA (by simp)
      · intro noUpdates noRoot u isScanned
        by_cases eq : u = v
        · rw [eq]
          exact inactive
        · rw [other u eq]
          exact scan.quiet noUpdates noRoot u (by simpa [eq] using isScanned)
    rw [res]
    exact ncRead_foldl (G.incidences v) antisymm inv1 scan1
      (fun a mem => (G.mem_incidences v a).1 mem) (scan.live v active) recent
  | false =>
    have res : G.ncScan el len itCount st v = st := by simp [ncScan, active]
    rw [res]
    refine ⟨d, stamp, inv, ⟨scan.live, ?_, ?_, scan.relaxed, ?_, scan.timely⟩⟩
    · intro u isActive notScanned
      rw [mem_append, not_or] at notScanned
      exact scan.waiting u isActive notScanned.1
    · intro u isActive isScanned
      rcases mem_append.1 isScanned with old | last
      · exact scan.again u isActive old
      · rw [mem_singleton.1 last, active] at isActive
        cases isActive
    · intro noUpdates noRoot u isScanned
      rcases mem_append.1 isScanned with old | last
      · exact scan.quiet noUpdates noRoot u old
      · rw [mem_singleton.1 last]
        exact active

theorem ncScan_foldl (l : List (Fin n)) (antisymm : ∀ a, 0 ≤ len a + len a.rev)
    (inv : NCInv G el len S itCount d stamp st)
    (scan : NCScan G el len itCount scanned [] d stamp st) (nodup : (scanned ++ l).Nodup) :
    ∃ d' stamp', NCInv G el len S itCount d' stamp' (l.foldl (G.ncScan el len itCount) st) ∧
      NCScan G el len itCount (scanned ++ l) [] d' stamp'
        (l.foldl (G.ncScan el len itCount) st) := by
  induction l generalizing d stamp st scanned with
  | nil =>
    rw [append_nil]
    exact ⟨d, stamp, inv, scan⟩
  | cons v l ih =>
    have fresh : v ∉ scanned := fun old =>
      (nodup_append.1 nodup).2.2 v old v mem_cons_self rfl
    obtain ⟨d', stamp', inv', scan'⟩ := ncScan_inv antisymm inv scan fresh
    have all := ih inv' scan' (by simpa using nodup)
    rwa [append_assoc, singleton_append] at all

/-- What holds before pass `itCount`. -/
structure NCEntry (G : MixedGraph n m) (el : Arc m → Bool) (len : Arc m → ℚ) (S : Fin n → Prop)
    (itCount : ℕ) (d : Fin n → ℚ) (stamp : Fin n → ℕ) (st : NCState n m) : Prop where
  inv : NCInv G el len S itCount d stamp st
  live : ∀ u, st.active u = true → st.dist u ≠ ⊤
  waiting : ∀ u, st.active u = true → itCount ≤ stamp u + 1
  relaxed : ∀ a, el a = true → st.dist (G.src a) ≠ ⊤ → st.active (G.src a) = false →
    st.dist (G.dst a) ≠ ⊤ ∧ d (G.dst a) ≤ d (G.src a) + len a
  settled : st.updates = false → st.root = none → ∀ u, st.active u = false
  timely : st.updates = true → itCount ≤ 2 * n ∧ st.root = none

section

variable (antisymm : ∀ a, 0 ≤ len a + len a.rev) (entry : NCEntry G el len S itCount d stamp st)
include antisymm entry

theorem ncPass_entry :
    ∃ d' stamp', NCEntry G el len S (itCount + 1) d' stamp' (G.ncPass el len itCount st) := by
  have scan : NCScan G el len itCount [] [] d stamp { st with updates := false } :=
    ⟨entry.live, fun u active _ => entry.waiting u active, fun u _ mem => (by cases mem),
      fun a usable known inactive _ => entry.relaxed a usable known inactive,
      fun _ _ u mem => (by cases mem), fun flag => (by cases flag)⟩
  have inv : NCInv G el len S itCount d stamp { st with updates := false } :=
    ⟨entry.inv.labels, entry.inv.sources, entry.inv.attained, entry.inv.linked,
      entry.inv.consistent, entry.inv.usable, entry.inv.slack, entry.inv.cycles,
      entry.inv.stamped, entry.inv.order, entry.inv.past, entry.inv.rooted, entry.inv.late,
      entry.inv.anchored, entry.inv.short⟩
  obtain ⟨d', stamp', inv', scan'⟩ := ncScan_foldl (finRange n) antisymm inv scan
    (by simpa using nodup_finRange n)
  have everywhere : ∀ u : Fin n, u ∈ [] ++ finRange n := by simp
  refine ⟨d', stamp', ⟨inv'.labels, inv'.sources, inv'.attained, inv'.linked, inv'.consistent,
    inv'.usable, inv'.slack, inv'.cycles, inv'.stamped, inv'.order,
    fun v => (inv'.past v).trans (Nat.le_succ _), inv'.rooted,
    fun x root => (inv'.late x root).trans (Nat.le_succ _), inv'.anchored, inv'.short⟩, scan'.live,
    ?_, ?_, ?_, ?_⟩
  · intro u active
    exact Nat.add_le_add_right (scan'.again u active (everywhere u)) 1
  · exact fun a usable known inactive => scan'.relaxed a usable known inactive (by simp)
  · exact fun noUpdates noRoot u => scan'.quiet noUpdates noRoot u (everywhere u)
  · intro flag
    have early := scan'.timely flag
    refine ⟨early, ?_⟩
    cases root : (G.ncPass el len itCount st).root with
    | none => rfl
    | some x =>
      have bound := inv'.late x root
      omega

/-- The loop ends after `2n` passes at the latest. -/
theorem ncLoop_spec {left : ℕ} (count : left + itCount = 2 * n + 1) :
    ∃ d' stamp' itCount', NCInv G el len S itCount' d' stamp' (G.ncLoop el len left itCount st) ∧
      ((G.ncLoop el len left itCount st).root = none → ∀ a, el a = true →
        (G.ncLoop el len left itCount st).dist (G.src a) ≠ ⊤ →
        (G.ncLoop el len left itCount st).dist (G.dst a) ≠ ⊤ ∧
          d' (G.dst a) ≤ d' (G.src a) + len a) := by
  induction left generalizing itCount d stamp st with
  | zero =>
    have noUpdates : st.updates = false := by
      cases flag : st.updates with
      | false => rfl
      | true =>
        have bound := (entry.timely flag).1
        omega
    exact ⟨d, stamp, itCount, entry.inv, fun noRoot a usable known =>
      entry.relaxed a usable known (entry.settled noUpdates noRoot _)⟩
  | succ left ih =>
    cases flag : st.updates with
    | true =>
      obtain ⟨d', stamp', entry'⟩ := ncPass_entry antisymm entry
      rw [show G.ncLoop el len (left + 1) itCount st =
        G.ncLoop el len left (itCount + 1) (G.ncPass el len itCount st) by
          simp [ncLoop, flag]]
      exact ih entry' (by omega)
    | false =>
      rw [show G.ncLoop el len (left + 1) itCount st = st by simp [ncLoop, flag]]
      exact ⟨d, stamp, itCount, entry.inv, fun noRoot a usable known =>
        entry.relaxed a usable known (entry.settled flag noRoot _)⟩

end

theorem walkBack_spec {k : ℕ} (inv : NCInv G el len S itCount d stamp st) (enough : k ≤ stamp v) :
    ∃ x p, G.walkBack st.pred k v = .ok x ∧ ReadsTo st.pred G.src v p x ∧ p.length = k := by
  induction k generalizing v with
  | zero => exact ⟨v, [], rfl, rfl, rfl⟩
  | succ k ih =>
    obtain ⟨a, label⟩ := inv.stamped v (by omega)
    have order := inv.order v a label
    obtain ⟨x, p, res, reads, length⟩ := ih (by omega : k ≤ stamp (G.src a))
    refine ⟨x, a :: p, ?_, ⟨label, reads⟩, by simp [length]⟩
    simp only [walkBack, label]
    exact res

section

variable (G : MixedGraph n m) (el : Arc m → Bool) (len : Arc m → ℚ)

/-- What label correcting delivers. -/
structure NCSpec (S : Fin n → Prop)
    (r : NCResult n m) : Prop where
  sources : ∀ v, S v → r.dist v ≤ 0
  attained : ∀ (v : Fin n) (d : ℚ), r.dist v = d → ∃ s p, S s ∧ IsWalk G.src G.dst s p v ∧
    (∀ a ∈ p, el a = true) ∧ (p.map len).sum = d
  consistent : ∀ v a, r.pred v = some a → G.dst a = v
  feasible : r.root = none → ∀ a, el a = true →
    r.dist (G.dst a) ≤ r.dist (G.src a) + (len a : WithTop ℚ)
  negative : ∀ x, r.root = some x → ∃ p, BackPath r.pred G.src x x p ∧ (∀ a ∈ p, el a = true) ∧
    (p.map len).sum < 0

/-- The condition on the walks, which is of no meaning if all nodes are sources. -/
theorem walksBelow_ncSource {G : MixedGraph n m} {el : Arc m → Bool} {len : Arc m → ℚ}
    {source : Option (Fin n)} (short : ∀ s, source = some s →
      WalksBelow G.src G.dst (fun a => el a = true) (· = s) len infFloat) :
    WalksBelow G.src G.dst (fun a => el a = true) (ncSource source) len infFloat := by
  cases source with
  | none => exact walksBelow_of_forall (fun _ => .inl rfl) (WithTop.coe_pos.2 infFloat_pos)
  | some s =>
    have same : ncSource (some s) = (· = s) := by
      funext v
      simp [ncSource, eq_comm]
    rw [same]
    exact short s rfl

section

variable (source : Option (Fin n)) (antisymm : ∀ a, 0 ≤ len a + len a.rev)
  (short : WalksBelow G.src G.dst (fun a => el a = true) (ncSource source) len infFloat)
include antisymm short

theorem labelCorrect_linked :
    ∃ r, G.labelCorrect el len source = .ok r ∧ NCSpec G el len (ncSource source) r ∧
      ∀ v a, r.pred v = some a → r.dist v ≠ ⊤ := by
  by_cases empty : n = 0
  · subst empty
    cases source with
    | some s => exact s.elim0
    | none =>
      exact ⟨⟨fun v => v.elim0, fun v => v.elim0, none⟩,
        by
          simp only [labelCorrect, ncLoop, ncInit]
          congr 2 <;> exact funext fun v => v.elim0,
        ⟨fun v => v.elim0, fun v => v.elim0, fun v => v.elim0, fun _ a => (G.src a).elim0,
          fun x => x.elim0⟩, fun v => v.elim0⟩
  · have start : NCEntry G el len (ncSource source) 1 (fun _ => 0) (fun _ => 0)
        (ncInit source) := by
      have label : ∀ v, (ncInit source : NCState n m).dist v ≠ ⊤ ↔ ncSource source v := by
        intro v
        simp [ncInit, ncSource, or_iff_not_imp_left]
      refine ⟨⟨?_, fun v isSource => ⟨(label v).2 isSource, le_refl _⟩, ?_, ?_, ?_, ?_, ?_, ?_, ?_,
        ?_, ?_, ?_, ?_, .init (fun v => (label v).1) fun v isSource => (if_pos isSource).le, short⟩,
        ?_, ?_, ?_, ?_, ?_⟩
      · intro v known
        exact if_pos ((label v).1 known)
      · intro v known
        exact ⟨v, [], (label v).1 known, rfl, by simp, rfl⟩
      · simp [ncInit]
      · simp [ncInit]
      · simp [ncInit]
      · simp [ncInit]
      · intro x p cycle
        cases cycle with
        | last label _ | step label _ _ => cases label
      · simp
      · simp [ncInit]
      · simp
      · simp [ncInit]
      · simp [ncInit]
      · intro u active
        exact (label u).2 (by simpa [ncInit, ncSource] using active)
      · simp
      · intro a _ known inactive
        exact absurd ((label _).1 known) (by simpa [ncInit, ncSource] using inactive)
      · simp [ncInit]
      · intro _
        exact ⟨by omega, rfl⟩
    obtain ⟨d, stamp, itCount, inv, relaxed⟩ := ncLoop_spec antisymm start (by omega :
      2 * n + 1 = 2 * n + 1)
    set st := G.ncLoop el len (2 * n) 1 (ncInit source) with stEq
    have sources : ∀ v, ncSource source v → st.dist v ≤ 0 := by
      intro v isSource
      obtain ⟨known, nonpos⟩ := inv.sources v isSource
      rw [inv.labels v known]
      exact_mod_cast nonpos
    have attained : ∀ (v : Fin n) (x : ℚ), st.dist v = x → ∃ s p, ncSource source s ∧
        IsWalk G.src G.dst s p v ∧ (∀ a ∈ p, el a = true) ∧ (p.map len).sum = x := by
      intro v x label
      have known : st.dist v ≠ ⊤ := by simp [label]
      have val : d v = x := by
        rw [inv.labels v known] at label
        exact_mod_cast label
      rw [← val]
      exact inv.attained v known
    cases root : st.root with
    | none =>
      refine ⟨⟨st.dist, st.pred, none⟩, by simp only [labelCorrect, ← stEq, root],
        ⟨sources, attained, inv.consistent, fun _ a usable => ?_, by simp⟩,
        fun v a label => (inv.linked v a label).1⟩
      dsimp only
      by_cases known : st.dist (G.src a) = ⊤
      · rw [known, WithTop.top_add]
        exact le_top
      · obtain ⟨knownDst, bound⟩ := relaxed root a usable known
        rw [inv.labels _ known, inv.labels _ knownDst]
        exact_mod_cast bound
    | some r =>
      have recent := inv.rooted r root
      obtain ⟨x, p, walked, reads, length⟩ := walkBack_spec inv (by omega : n ≤ stamp r)
      obtain ⟨q, cycle⟩ := reads.cycle_of_card_le (by simp [length])
      refine ⟨⟨st.dist, st.pred, some x⟩, ?_, ⟨sources, attained, inv.consistent, by simp, ?_⟩,
        fun v a label => (inv.linked v a label).1⟩
      · simp only [labelCorrect, ← stEq, root, walked, bind, Except.bind, pure, Except.pure]
      · intro y eq
        cases eq
        refine ⟨q, cycle, fun a mem => ?_, inv.cycles x q cycle⟩
        exact inv.usable _ a (cycle.label_of_mem inv.consistent mem)

/-- **Label correcting** returns a node on a negative cycle that the predecessor
labels describe, or labels that are feasible. -/
theorem labelCorrect_spec :
    ∃ r, G.labelCorrect el len source = .ok r ∧ NCSpec G el len (ncSource source) r := by
  obtain ⟨r, res, spec, -⟩ := G.labelCorrect_linked el len source antisymm short
  exact ⟨r, res, spec⟩

end

end

/-! ## Deciding whether there is a negative cycle -/

theorem NCSpec.root_none_iff {r : NCResult n m} (spec : NCSpec G el len S r)
    (linked : ∀ v a, r.pred v = some a → r.dist v ≠ ⊤) :
    r.root = none ↔ ¬ ∃ x c, ReachableFrom G.src G.dst (fun a => el a = true) S x ∧
      IsCycle G.src G.dst (fun a => el a = true) x c ∧ (c.map len).sum < 0 := by
  constructor
  · rintro noRoot ⟨x, c, ⟨s, p, source, walk, usable⟩, cycle, neg⟩
    have feasible := spec.feasible noRoot
    have finite : r.dist x ≠ ⊤ := by
      have bound := le_of_feasible (fun a => el a = true) feasible walk usable
      refine ne_top_of_le_ne_top ?_ bound
      exact WithTop.add_ne_top.2
        ⟨ne_top_of_le_ne_top WithTop.zero_ne_top (spec.sources s source), WithTop.coe_ne_top⟩
    exact absurd (cycle.nonneg_of_feasible finite feasible) (not_le.2 neg)
  · intro none
    cases root : r.root with
    | none => rfl
    | some x =>
      obtain ⟨c, path, usable, neg⟩ := spec.negative x root
      obtain ⟨a, label⟩ : ∃ a, r.pred x = some a := by
        cases path with
        | last label _ | step label _ _ => exact ⟨_, label⟩
      obtain ⟨d, val⟩ := WithTop.ne_top_iff_exists.1 (linked x a label)
      obtain ⟨s, p, source, walk, along, -⟩ := spec.attained x d val.symm
      refine absurd ⟨x, c.reverse, ⟨s, p, source, walk, along⟩,
        path.isCycle spec.consistent usable, ?_⟩ none
      rw [map_reverse, sum_reverse]
      exact neg

end MixedGraph

namespace DiGraph

variable {n m : ℕ}

/-- **Negative cycles**: on a residual graph, a node is returned exactly if some cycle that can be
reached has a negative length, where every arc counts for `epsilon` in addition. Following the
predecessor labels from this node, one is back after at most `n` arcs that form such a cycle.

The walks from the source on which no node occurs twice are shorter than `InfFloat`. This holds
anyway if all nodes are sources. -/
theorem negativeCycle_correct (G : DiGraph n m) (sub : Fin m → ℚ) (potential : Fin n → ℚ)
    (delta : ℚ) (source : Option (Fin n)) {epsilon : ℚ} (nonneg : 0 ≤ epsilon)
    (short : ∀ s, source = some s → WalksBelow G.src G.dst
      (fun a => G.eligible sub delta .residual a = true) (· = s)
      (fun a => G.redLength potential a + epsilon) infFloat) :
    ∃ r, G.negativeCycle sub potential delta .residual source epsilon = .ok r ∧
      (r.root = none ↔ ¬ ∃ x c,
        ReachableFrom G.src G.dst (fun a => G.eligible sub delta .residual a = true)
          (MixedGraph.ncSource source) x ∧
        IsCycle G.src G.dst (fun a => G.eligible sub delta .residual a = true) x c ∧
        (c.map (G.redLength potential)).sum + epsilon * c.length < 0) ∧
      ∀ x, r.root = some x → ∃ c, BackPath r.pred G.src x x c ∧ c.length ≤ n ∧
        IsCycle G.src G.dst (fun a => G.eligible sub delta .residual a = true) x c.reverse ∧
        (c.map (G.redLength potential)).sum + epsilon * c.length < 0 := by
  have lengths : (fun a => G.searchLength potential .residual a + epsilon) =
      fun a => G.redLength potential a + epsilon := by
    funext a
    rw [MixedGraph.searchLength, if_neg (by decide)]
  obtain ⟨r, result, spec, linked⟩ := G.labelCorrect_linked (G.eligible sub delta .residual)
    (fun a => G.redLength potential a + epsilon) source (by
      intro a
      rw [redLength_rev]
      linarith) (MixedGraph.walksBelow_ncSource short)
  refine ⟨r, by rw [MixedGraph.negativeCycle, lengths]; exact result, ?_, fun x root => ?_⟩
  · simpa only [sum_map_add_const] using spec.root_none_iff linked
  · obtain ⟨c, path, usable, negative⟩ := spec.negative x root
    rw [sum_map_add_const] at negative
    have short := path.length_le_card spec.consistent
    rw [Fintype.card_fin] at short
    exact ⟨c, path, short, path.isCycle spec.consistent usable, negative⟩

/-- Two antiparallel arcs whose lengths sum up to -2. -/
def negativePair : DiGraph 2 2 :=
  DiGraph.ofArcs ![0, 1] ![1, 0] ![1, 1] ![0, 0] ![-3, 1] ![0, 0]

theorem negativeCycle_correct_negativePair : (0 : ℚ) ≤ 1 / 2 ∧ ∃ r,
      negativePair.negativeCycle (fun _ => 0) (fun _ => 0) 0 .residual (some 0) (1 / 2) = .ok r ∧
        r.root ≠ none := by
  have nonneg : (0 : ℚ) ≤ 1 / 2 := by norm_num
  have short : ∀ s, some 0 = some s → WalksBelow negativePair.src negativePair.dst
      (fun a => negativePair.eligible (fun _ => 0) 0 .residual a = true) (· = s)
      (fun a => negativePair.redLength (fun _ => 0) a + 1 / 2) infFloat := by
    refine fun s _ => walksBelow_of_card (c := 4) (by norm_num) ?_
      (WithTop.coe_lt_coe.2 (by norm_num [infFloat]))
    rintro ⟨e, back⟩ -
    revert e back
    decide +kernel
  obtain ⟨r, result, found, -⟩ :=
    negativePair.negativeCycle_correct (fun _ => 0) (fun _ => 0) 0 (some 0) nonneg short
  refine ⟨nonneg, r, result, fun none => found.1 none ⟨0, [⟨0, false⟩, ⟨1, false⟩], ?_, ?_, ?_⟩⟩
  · exact ⟨0, [], .inr rfl, rfl, by simp⟩
  · exact ⟨by simp, ⟨rfl, rfl, rfl⟩, by decide +kernel⟩
  · decide +kernel

/-- A loop of length -1 behind two arcs whose lengths add up to more than `InfFloat`. -/
def farLoop : DiGraph 3 3 :=
  DiGraph.ofArcs ![0, 1, 2] ![1, 2, 2] (fun _ => 1) (fun _ => 0) ![6 * 10 ^ 49, 6 * 10 ^ 49, -1]
    fun _ => 0

/-- The search does not get to the loop. -/
theorem negativeCycle_misses_farLoop :
    (farLoop.negativeCycle (fun _ => 0) (fun _ => 0) 0 .residual (some 0) 0).map (·.root) =
      .ok none ∧ ∃ x c,
      ReachableFrom farLoop.src farLoop.dst
        (fun a => farLoop.eligible (fun _ => 0) 0 .residual a = true) (· = 0) x ∧
      IsCycle farLoop.src farLoop.dst
        (fun a => farLoop.eligible (fun _ => 0) 0 .residual a = true) x c ∧
      (c.map (farLoop.redLength fun _ => 0)).sum < 0 := by
  refine ⟨by decide +kernel, 2, [⟨2, false⟩],
    ⟨0, [⟨0, false⟩, ⟨1, false⟩], rfl, ⟨rfl, rfl, rfl⟩, by decide +kernel⟩,
    ⟨by simp, ⟨rfl, rfl⟩, by decide +kernel⟩, by decide +kernel⟩

end DiGraph

end Goblin
