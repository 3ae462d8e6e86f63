import Goblin.NegativeCycle
import Goblin.TimerBounds

/-!
# The method of Bellman and Ford

`SPX_BellmanFord` scans all arcs in passes until a pass makes no update, and
reports a cycle of negative length when the pass counter arrives at `2n`.

A label that is not below `InfFloat` is not stored. So what matters are the walks on which
all sums are less (`LowWalk`): after `k` passes, the labels are at most the lengths of all
such walks with `k` arcs (`BFPasses.lower`). If there are no negative cycles on them, then
pass `n` is the last one, and the counter ends at `n + 1`. This is less than `2n` unless the
graph has one node only, where the error is raised after the first pass in any case
(`bellmanFord_decides_iff`).
-/

set_option autoImplicit false

namespace Goblin

open Library List Function

variable {k : ℕ}

/-- The labels, and whether the pass has made an update. -/
structure BFState (n m : ℕ) where
  dist : Fin n → WithTop ℚ
  pred : Fin n → Option (Arc m)
  updates : Bool

/-- The labels that `SPX_BellmanFord` leaves, and whether the target is reached. -/
structure BFResult (n m : ℕ) where
  dist : Fin n → WithTop ℚ
  pred : Fin n → Option (Arc m)
  reached : Bool

namespace MixedGraph

variable {n m : ℕ} (G : MixedGraph n m)

section Model

variable (el : Arc m → Bool) (len : Arc m → ℚ)

/-- One arc of a pass. -/
def bfRead (st : BFState n m) (a : Arc m) : BFState n m :=
  let u := G.startNode a
  let v := G.endNode a
  let thisLabel := st.dist u + (len a : WithTop ℚ)
  if thisLabel < labelNumber infFloat (st.dist v) ∧ st.dist u ≠ ⊤ ∧ st.pred u ≠ some a.rev ∧
      el a = true then
    ⟨update st.dist v thisLabel, update st.pred v (some a), true⟩
  else st

/-- A pass over all arcs. -/
def bfPass (st : BFState n m) : BFState n m :=
  (arcs m).foldl (G.bfRead el len) { st with updates := false }

/-- The main loop, with the counter `i` and `left` rounds to go. -/
def bfLoop : ℕ → ℕ → BFState n m → ℕ × BFState n m
  | 0, i, st => (i, st)
  | left + 1, i, st =>
    if st.updates = true ∧ i < 2 * n then bfLoop left (i + 1) (G.bfPass el len st) else (i, st)

/-- The labels before the first pass. -/
def bfInit (s : Fin n) : BFState n m :=
  ⟨update (fun _ => ⊤) s 0, fun _ => none, true⟩

/-- The report for the target node, if there is one. -/
def bfReport (epsilon : ℚ) (dist : Fin n → WithTop ℚ) (pred : Fin n → Option (Arc m)) :
    Option (Fin n) → Except Raise (BFResult n m)
  | none => .ok ⟨dist, pred, false⟩
  | some t => do
    setResult epsilon ((dist t).untopD (-infFloat))
    return ⟨dist, pred, dist t ≠ ⊤⟩

/-- The method for given arcs and lengths. The counter stops at `2n` at the latest. -/
def bellmanFord (epsilon : ℚ) (s : Fin n) (t : Option (Fin n)) : Except Raise (BFResult n m) :=
  let r := G.bfLoop el len (2 * n) 1 (bfInit s)
  if r.1 = 2 * n then .error (.check "SPX_BellmanFord" "Negative length cycles")
  else bfReport epsilon r.2.dist r.2.pred t

end Model

def spxBellmanFord (sub : Fin m → ℚ) (potential : Fin n → ℚ) (delta : ℚ)
    (characteristic : TOptSPX) (epsilon : ℚ) (s : Fin n) (t : Option (Fin n)) :
    Except Raise (BFResult n m) :=
  G.bellmanFord (G.eligible sub delta characteristic) (G.searchLength potential characteristic)
    epsilon s t

/-! ## The labels -/

variable {G} {el : Arc m → Bool} {len : Arc m → ℚ}

/-- The walks from `s` that stay below `InfFloat`. -/
def LowFrom (G : MixedGraph n m) (el : Arc m → Bool) (len : Arc m → ℚ) (s : Fin n) :
    List (Arc m) → Fin n → Prop :=
  LowWalk G.src G.dst (fun a => el a = true) len infFloat s

theorem lowFrom_nil (G : MixedGraph n m) (el : Arc m → Bool) (len : Arc m → ℚ) (s : Fin n) :
    G.LowFrom el len s [] s :=
  ⟨rfl, by simp, fun q initial => by simp [prefix_nil.1 initial, infFloat_pos]⟩

/-- What the labels say at any time. -/
structure BFInv (G : MixedGraph n m) (el : Arc m → Bool) (len : Arc m → ℚ) (s : Fin n)
    (dist : Fin n → WithTop ℚ) (pred : Fin n → Option (Arc m)) : Prop where
  source : dist s ≤ 0
  attained : ∀ (v : Fin n) (d : ℚ), dist v = d → ∃ p, G.LowFrom el len s p v ∧ (p.map len).sum = d
  reached : ∀ v, dist v ≠ ⊤ → v = s ∨ ∃ a, pred v = some a
  lowered : ∀ a, pred s = some a → dist s < 0
  linked : ∀ v a, pred v = some a → dist v ≠ ⊤ ∧ dist (G.src a) ≠ ⊤
  consistent : ∀ v a, pred v = some a → G.dst a = v
  usable : ∀ v a, pred v = some a → el a = true
  slack : ∀ v a, pred v = some a → dist (G.src a) + (len a : WithTop ℚ) ≤ dist v
  cycles : ∀ x p, BackPath pred G.src x x p → (p.map len).sum < 0

variable {s : Fin n} {dist old : Fin n → WithTop ℚ} {pred : Fin n → Option (Arc m)}
  {st : BFState n m} {a : Arc m}

/-- Labels that are stored are below `InfFloat`. -/
theorem BFInv.fits (inv : BFInv G el len s dist pred) {v : Fin n} {label : WithTop ℚ}
    (less : label < labelNumber infFloat (dist v)) : label < (infFloat : WithTop ℚ) := by
  cases val : dist v with
  | top =>
    rw [val] at less
    exact less
  | coe d =>
    obtain ⟨p, low, rfl⟩ := inv.attained v d val
    rw [val] at less
    exact less.trans (WithTop.coe_lt_coe.2 (low.low p (prefix_refl p)))

theorem BFInv.relabel (inv : BFInv G el len s dist pred)
    (less : dist (G.src a) + (len a : WithTop ℚ) < dist (G.dst a)) (known : dist (G.src a) ≠ ⊤)
    (usable : el a = true) (fits : dist (G.src a) + (len a : WithTop ℚ) < (infFloat : WithTop ℚ)) :
    BFInv G el len s (update dist (G.dst a) (dist (G.src a) + (len a : WithTop ℚ)))
      (update pred (G.dst a) (some a)) := by
  set w := G.dst a with wEq
  set label := dist (G.src a) + (len a : WithTop ℚ) with labelEq
  set dist' := update dist w label with distEq
  set pred' := update pred w (some a) with predEq
  have distW : dist' w = label := update_self _ _ _
  have distOther : ∀ u, u ≠ w → dist' u = dist u := fun u other =>
    update_of_ne other _ _
  have predW : pred' w = some a := update_self _ _ _
  have predOther : ∀ u, u ≠ w → pred' u = pred u := fun u other =>
    update_of_ne other _ _
  have lower : dist' ≤ dist := update_le_self_iff.2 less.le
  have keeps : ∀ u, dist u ≠ ⊤ → dist' u ≠ ⊤ := fun u finite =>
    ne_top_of_le_ne_top finite (lower u)
  have consistent : ∀ u b, pred' u = some b → G.dst b = u := by
    intro u b set
    rcases of_update set with ⟨rfl, ⟨⟩⟩ | ⟨-, before⟩
    · rfl
    · exact inv.consistent u b before
  have linked : ∀ u b, pred' u = some b → dist' u ≠ ⊤ ∧ dist' (G.src b) ≠ ⊤ := by
    intro u b set
    rcases of_update set with ⟨rfl, ⟨⟩⟩ | ⟨-, before⟩
    · exact ⟨by rw [distW]; exact ne_top_of_lt less, keeps _ known⟩
    · obtain ⟨finite, finiteSrc⟩ := inv.linked u b before
      exact ⟨keeps _ finite, keeps _ finiteSrc⟩
  -- the new label is tight, and those that rest on it gain slack
  have slackCases : ∀ u b, pred' u = some b → dist' (G.src b) + (len b : WithTop ℚ) ≤ dist' u ∧
      (G.src b = w → dist' (G.src b) + (len b : WithTop ℚ) < dist' u) := by
    intro u b set
    rcases of_update set with ⟨rfl, ⟨⟩⟩ | ⟨other, before⟩
    · by_cases isLoop : G.src a = G.dst a
      · have strict : dist' (G.src a) + (len a : WithTop ℚ) < dist' (G.dst a) := by
          have twice := WithTop.add_lt_add_right (z := (len a : WithTop ℚ)) WithTop.coe_ne_top less
          rw [wEq, ← isLoop] at twice
          rw [isLoop, distW]
          exact twice
        exact ⟨strict.le, fun _ => strict⟩
      · rw [distOther _ isLoop, distW]
        exact ⟨le_rfl, fun eq => absurd eq isLoop⟩
    · have bound := inv.slack u b before
      rw [distOther u other]
      by_cases fromW : G.src b = w
      · rw [fromW, distW]
        rw [fromW] at bound
        have strict := (WithTop.add_lt_add_right (z := (len b : WithTop ℚ)) WithTop.coe_ne_top
          less).trans_le bound
        exact ⟨strict.le, fun _ => strict⟩
      · rw [distOther _ fromW]
        exact ⟨bound, fun eq => absurd eq fromW⟩
  have finite : ∀ u, dist' u ≠ ⊤ → (((dist' u).untopD 0 : ℚ) : WithTop ℚ) = dist' u := by
    intro u known'
    obtain ⟨d, val⟩ := WithTop.ne_top_iff_exists.1 known'
    rw [← val, WithTop.untopD_coe]
  refine ⟨(lower s).trans inv.source, ?_, ?_, ?_, linked, consistent, ?_,
    fun u b set => (slackCases u b set).1, ?_⟩
  · intro u d val
    rcases of_update val with ⟨eq, val⟩ | ⟨-, val⟩
    · obtain ⟨x, start⟩ := WithTop.ne_top_iff_exists.1 known
      obtain ⟨p, low, length⟩ := inv.attained _ x start.symm
      rw [labelEq, ← start, ← WithTop.coe_add, WithTop.coe_lt_coe] at fits
      rw [labelEq, ← start, ← WithTop.coe_add, WithTop.coe_inj] at val
      rw [eq]
      exact ⟨p ++ [a], low.concat usable (length ▸ fits), by simp [length, val]⟩
    · exact inv.attained u d val
  · intro u known'
    by_cases eq : u = w
    · exact .inr ⟨a, by rw [eq, predW]⟩
    · rw [distOther u eq] at known'
      rw [predOther u eq]
      exact inv.reached u known'
  · intro b set
    rcases of_update set with ⟨eq, -⟩ | ⟨other, before⟩
    · rw [eq, distW]
      rw [eq] at inv
      exact less.trans_le inv.source
    · rw [distOther s other]
      exact inv.lowered b before
  · intro u b set
    rcases of_update set with ⟨-, ⟨⟩⟩ | ⟨-, before⟩
    · exact usable
    · exact inv.usable u b before
  · intro x p cycle
    have values : ∀ u b, pred' u = some b →
        ((dist' (G.src b)).untopD 0 + len b ≤ (dist' u).untopD 0) ∧
          (G.src b = w → (dist' (G.src b)).untopD 0 + len b < (dist' u).untopD 0) := by
      intro u b set
      obtain ⟨weak, strict⟩ := slackCases u b set
      obtain ⟨finiteU, finiteSrc⟩ := linked u b set
      rw [← finite u finiteU, ← finite _ finiteSrc, ← WithTop.coe_add] at weak strict
      exact ⟨WithTop.coe_le_coe.1 weak, fun eq => WithTop.coe_lt_coe.1 (strict eq)⟩
    exact cycle_neg_of_slack (d := fun u => (dist' u).untopD 0) consistent predOther
      (fun u b set => (values u b set).1) (fun u b set => (values u b set).2) inv.cycles cycle

/-! ## Passes -/

/-- What a pass that started with the labels `old` has achieved after the arcs of `read`. -/
structure BFPass (G : MixedGraph n m) (el : Arc m → Bool) (len : Arc m → ℚ) (s : Fin n)
    (old : Fin n → WithTop ℚ) (read : List (Arc m)) (st : BFState n m) : Prop where
  inv : BFInv G el len s st.dist st.pred
  lower : ∀ v, st.dist v ≤ old v
  relaxed : ∀ a ∈ read, el a = true → old (G.src a) + (len a : WithTop ℚ) < (infFloat : WithTop ℚ) →
    st.dist (G.dst a) ≤ old (G.src a) + (len a : WithTop ℚ)
  quiet : st.updates = false → st.dist = old
  loud : st.updates = true → ∃ v, st.dist v ≠ old v

section

variable (oneWay : ∀ a, el a = true → el a.rev = false)
include oneWay

theorem bfRead_pass {read : List (Arc m)}
    (pass : BFPass G el len s old read st) (a : Arc m) :
    BFPass G el len s old (read ++ [a]) (G.bfRead el len st a) := by
  by_cases better : st.dist (G.src a) + (len a : WithTop ℚ) < labelNumber infFloat (st.dist (G.dst a)) ∧
      st.dist (G.src a) ≠ ⊤ ∧ st.pred (G.src a) ≠ some a.rev ∧ el a = true
  · obtain ⟨stored, known, -, usable⟩ := id better
    have less := lt_of_lt_labelNumber stored
    have res : G.bfRead el len st a =
        ⟨update st.dist (G.dst a) (st.dist (G.src a) + (len a : WithTop ℚ)),
          update st.pred (G.dst a) (some a), true⟩ := if_pos better
    have lower : update st.dist (G.dst a) (st.dist (G.src a) + (len a : WithTop ℚ)) ≤ st.dist :=
      update_le_self_iff.2 less.le
    rw [res]
    refine ⟨pass.inv.relabel less known usable (pass.inv.fits stored),
      fun v => (lower v).trans (pass.lower v), ?_,
      fun flag => (by cases flag), fun _ => ⟨G.dst a, ?_⟩⟩
    · intro b mem usable' below
      rcases mem_append.1 mem with before | last
      · exact (lower _).trans (pass.relaxed b before usable' below)
      · rw [mem_singleton.1 last]
        dsimp only
        rw [update_self]
        exact add_le_add_left (pass.lower _) _
    · dsimp only
      rw [update_self]
      exact (less.trans_le (pass.lower _)).ne
  · have res : G.bfRead el len st a = st := if_neg better
    rw [res]
    refine ⟨pass.inv, pass.lower, ?_, pass.quiet, pass.loud⟩
    intro b mem usable below
    rcases mem_append.1 mem with before | last
    · exact pass.relaxed b before usable below
    rw [mem_singleton.1 last] at usable below ⊢
    have closer := add_le_add_left (pass.lower (G.src a)) (len a : WithTop ℚ)
    refine le_trans ?_ closer
    by_cases known : st.dist (G.src a) = ⊤
    · rw [known, WithTop.top_add]
      exact le_top
    -- labels are usable arcs, so the reverse arc is no label
    have forward : st.pred (G.src a) ≠ some a.rev := by
      intro label
      have back := pass.inv.usable _ _ label
      rw [oneWay a usable] at back
      cases back
    exact not_lt.1 fun less =>
      better ⟨lt_labelNumber less (closer.trans_lt below), known, forward, usable⟩

theorem bfPass_spec
    (inv : BFInv G el len s st.dist st.pred) :
    BFPass G el len s st.dist (arcs m) (G.bfPass el len st) := by
  have all : ∀ (l read : List (Arc m)) (st' : BFState n m), BFPass G el len s st.dist read st' →
      BFPass G el len s st.dist (read ++ l) (l.foldl (G.bfRead el len) st') := by
    intro l
    induction l with
    | nil =>
      intro read st' pass
      rwa [append_nil]
    | cons a l ih =>
      intro read st' pass
      have next := ih (read ++ [a]) _ (bfRead_pass oneWay pass a)
      rwa [append_assoc, singleton_append] at next
  exact all (arcs m) [] _ ⟨inv, fun v => le_rfl, fun a mem => (by cases mem),
    fun _ => rfl, fun flag => (by cases flag)⟩

end

section

variable (G : MixedGraph n m) (el : Arc m → Bool) (len : Arc m → ℚ) (s : Fin n)

/-- Some cycle of usable arcs that can be reached from `s` has negative length. -/
def NegativeFrom : Prop :=
  ∃ x c, ReachableFrom G.src G.dst (fun a => el a = true) (· = s) x ∧
    IsCycle G.src G.dst (fun a => el a = true) x c ∧ (c.map len).sum < 0

/-- Some cycle of negative length is met, and passed through once, before the lengths get to
`InfFloat`. -/
def NegativeNear : Prop :=
  ∃ x p c, IsWalk G.src G.dst s p x ∧ IsCycle G.src G.dst (fun a => el a = true) x c ∧
    G.LowFrom el len s (p ++ c) x ∧ (c.map len).sum < 0

/-- No further correction is possible. -/
def BFSettled (dist : Fin n → WithTop ℚ) : Prop :=
  ∀ a, el a = true → dist (G.src a) + (len a : WithTop ℚ) < (infFloat : WithTop ℚ) →
    dist (G.dst a) ≤ dist (G.src a) + (len a : WithTop ℚ)

/-- The labels after `k` passes. -/
structure BFPasses (k : ℕ)
    (st : BFState n m) : Prop where
  inv : BFInv G el len s st.dist st.pred
  lower : ∀ v p, G.LowFrom el len s p v → p.length ≤ k →
    st.dist v ≤ (((p.map len).sum : ℚ) : WithTop ℚ)
  settled : st.updates = false → G.BFSettled el len st.dist

theorem bfInit_passes : BFPasses G el len s 0 (bfInit s) := by
  have label : ∀ v, (bfInit s : BFState n m).dist v ≠ ⊤ → v = s := by
    intro v known
    by_contra other
    exact known (by simp [bfInit, other])
  have atSource : (bfInit s : BFState n m).dist s = 0 := by simp [bfInit]
  refine ⟨⟨atSource.le, ?_, fun v known => .inl (label v known), ?_, ?_, ?_, ?_, ?_, ?_⟩, ?_, ?_⟩
  · intro v d val
    obtain rfl := label v (by simp [val])
    rw [atSource] at val
    exact ⟨[], lowFrom_nil .., by exact_mod_cast val⟩
  · intro a set
    cases set
  · intro v a set
    cases set
  · intro v a set
    cases set
  · intro v a set
    cases set
  · intro v a set
    cases set
  · intro x p cycle
    cases cycle with
    | last set _ | step set _ _ => cases set
  · intro v p low short
    rw [Nat.le_zero, length_eq_zero_iff] at short
    subst short
    obtain rfl : s = v := low.walk
    exact atSource.le
  · intro flag
    cases flag

end

theorem BFPasses.step {k : ℕ} (oneWay : ∀ a, el a = true → el a.rev = false)
    (passes : BFPasses G el len s k st) : BFPasses G el len s (k + 1) (G.bfPass el len st) := by
  have pass := bfPass_spec oneWay passes.inv
  refine ⟨pass.inv, fun v p low short => ?_, fun flag a usable below => ?_⟩
  · induction p using reverseRecOn with
    | nil => exact (pass.lower v).trans (passes.lower v [] low (Nat.zero_le k))
    | append_singleton p a _ =>
      obtain ⟨first, rfl⟩ := isWalk_concat.1 low.walk
      rw [length_append, length_singleton] at short
      have before := passes.lower _ p (low.of_prefix first) (by omega)
      have sum := low.low _ (prefix_refl _)
      rw [map_append, sum_append, map_singleton, sum_singleton] at sum ⊢
      rw [WithTop.coe_add]
      have closer := add_le_add_left before (len a : WithTop ℚ)
      refine (pass.relaxed a (mem_arcs a) (low.usable a (by simp)) ?_).trans closer
      exact closer.trans_lt (by exact_mod_cast sum)
  · have eq := pass.quiet flag
    rw [eq] at below
    have bound := pass.relaxed a (mem_arcs a) usable below
    rwa [← eq] at bound

theorem BFInv.le_of_low (inv : BFInv G el len s dist pred) (settled : G.BFSettled el len dist)
    {v : Fin n} {p : List (Arc m)} (low : G.LowFrom el len s p v) :
    dist v ≤ (((p.map len).sum : ℚ) : WithTop ℚ) := by
  induction p using reverseRecOn generalizing v with
  | nil =>
    obtain rfl : s = v := low.walk
    exact inv.source
  | append_singleton p a ih =>
    obtain ⟨first, rfl⟩ := isWalk_concat.1 low.walk
    have before := add_le_add_left (ih (low.of_prefix first)) (len a : WithTop ℚ)
    have sum := low.low _ (prefix_refl _)
    rw [map_append, sum_append, map_singleton, sum_singleton] at sum ⊢
    refine (settled a (low.usable a (by simp)) (before.trans_lt ?_)).trans before
    exact_mod_cast sum

theorem BFInv.not_negativeNear (inv : BFInv G el len s dist pred)
    (settled : G.BFSettled el len dist) : ¬ G.NegativeNear el len s := by
  rintro ⟨x, p, c, first, cycle, around, neg⟩
  have along : ∀ q v, IsWalk G.src G.dst x q v → G.LowFrom el len s (p ++ q) v →
      dist v ≤ dist x + (((q.map len).sum : ℚ) : WithTop ℚ) := by
    intro q
    induction q using reverseRecOn with
    | nil =>
      rintro v rfl -
      simp
    | append_singleton q a ih =>
      intro v walk low
      obtain ⟨start, rfl⟩ := isWalk_concat.1 walk
      rw [← append_assoc] at low
      have before := low.of_prefix (isWalk_append.2 ⟨x, first, start⟩)
      have sum := low.low _ (prefix_refl _)
      have bound := add_le_add_left (inv.le_of_low settled before) (len a : WithTop ℚ)
      rw [map_append, sum_append, map_singleton, sum_singleton] at sum ⊢
      rw [WithTop.coe_add, ← add_assoc]
      refine (settled a (low.usable a (by simp)) (bound.trans_lt (by exact_mod_cast sum))).trans ?_
      exact add_le_add_left (ih _ start before) _
  have bound := along c x cycle.walk around
  have finite := ne_top_of_le_ne_top WithTop.coe_ne_top
    (inv.le_of_low settled (around.of_prefix first))
  obtain ⟨d, val⟩ := WithTop.ne_top_iff_exists.1 finite
  rw [← val, ← WithTop.coe_add, WithTop.coe_le_coe] at bound
  linarith

theorem BFPasses.quiet (oneWay : ∀ a, el a = true → el a.rev = false)
    (passes : BFPasses G el len s k st) (enough : n ≤ k + 1)
    (nonneg : ¬ G.NegativeNear el len s) : (G.bfPass el len st).updates = false := by
  have pass := bfPass_spec oneWay passes.inv
  cases flag : (G.bfPass el len st).updates with
  | false => rfl
  | true =>
    obtain ⟨v, changed⟩ := pass.loud flag
    have strict := lt_of_le_of_ne (pass.lower v) changed
    obtain ⟨d, val⟩ := WithTop.ne_top_iff_exists.1 (ne_top_of_lt strict)
    obtain ⟨p, low, sum⟩ := pass.inv.attained v d val.symm
    obtain ⟨q, qLow, short, less⟩ := low.exists_short fun x p c first cycle around =>
      not_lt.1 fun neg => nonneg ⟨x, p, c, first, cycle, around, neg⟩
    rw [Fintype.card_fin] at short
    have bound := passes.lower v q qLow (by omega)
    rw [sum] at less
    rw [← val] at strict
    exact absurd (bound.trans (WithTop.coe_le_coe.2 less)) (not_le.2 strict)

/-! ## The main loop -/

/-- The loop stops after a pass without updates, or with the counter at `2n`. Without negative
cycles, pass `n` is the last one. -/
theorem bfLoop_spec (left : ℕ) {i : ℕ} (oneWay : ∀ a, el a = true → el a.rev = false)
    (passes : BFPasses G el len s k st) (counter : i = k + 1) (limit : i ≤ 2 * n)
    (fuel : 2 * n ≤ left + k) : ∃ k', BFPasses G el len s k' (G.bfLoop el len left i st).2 ∧
      (G.bfLoop el len left i st).1 ≤ 2 * n ∧
      ((G.bfLoop el len left i st).1 < 2 * n → (G.bfLoop el len left i st).2.updates = false) ∧
      (¬ G.NegativeNear el len s → i ≤ n + 1 → (i = n + 1 → st.updates = false) →
        (G.bfLoop el len left i st).1 ≤ n + 1) := by
  induction left generalizing i k st with
  | zero => omega
  | succ left ih =>
    by_cases more : st.updates = true ∧ i < 2 * n
    · have next : G.bfLoop el len (left + 1) i st =
          G.bfLoop el len left (i + 1) (G.bfPass el len st) := if_pos more
      rw [next]
      have below := more.2
      obtain ⟨k', passes', bounded, stopped, early⟩ :=
        ih (passes.step oneWay) (congrArg (· + 1) counter) below (by omega)
      refine ⟨k', passes', bounded, stopped, fun nonneg bound settled => ?_⟩
      have before : i ≠ n + 1 := by
        intro last
        have flag := settled last
        rw [more.1] at flag
        cases flag
      refine early nonneg (by omega) fun last => ?_
      exact passes.quiet oneWay (by omega) nonneg
    · have stop : G.bfLoop el len (left + 1) i st = (i, st) := if_neg more
      rw [stop]
      refine ⟨k, passes, limit, fun less => ?_, fun _ bound _ => bound⟩
      cases flag : st.updates with
      | false => rfl
      | true => exact absurd ⟨flag, less⟩ more

/-- The labels are distances, and the predecessor labels are shortest paths. -/
structure ShortestPaths (G : MixedGraph n m) (el : Arc m → Bool) (len : Arc m → ℚ) (s : Fin n)
    (r : BFResult n m) : Prop where
  distance : ∀ (v : Fin n) (d : ℚ), r.dist v = d →
    IsDistance G.src G.dst (fun a => el a = true) len (· = s) v d
  unreached : ∀ v, r.dist v = ⊤ → ¬ ReachableFrom G.src G.dst (fun a => el a = true) (· = s) v
  root : r.pred s = none
  path : ∀ (v : Fin n) (d : ℚ), r.dist v = d → ∃ p, ReadsTo r.pred G.src v p s ∧
    (∀ a ∈ p, el a = true) ∧ (p.map len).sum = d

theorem BFInv.not_negativeFrom (inv : BFInv G el len s dist pred)
    (feasible : ∀ a, el a = true → dist (G.dst a) ≤ dist (G.src a) + (len a : WithTop ℚ)) :
    ¬ G.NegativeFrom el len s := by
  rintro ⟨x, c, ⟨s', p, rfl, walk, usable⟩, cycle, neg⟩
  have bound := le_of_feasible (fun a => el a = true) feasible walk usable
  have finite : dist x ≠ ⊤ := by
    refine ne_top_of_le_ne_top (WithTop.add_ne_top.2 ⟨?_, WithTop.coe_ne_top⟩) bound
    exact ne_top_of_le_ne_top WithTop.zero_ne_top inv.source
  exact absurd (cycle.nonneg_of_feasible finite feasible) (not_le.2 neg)

theorem BFInv.shortestPaths {r : BFResult n m} (inv : BFInv G el len s r.dist r.pred)
    (feasible : ∀ a, el a = true → r.dist (G.dst a) ≤ r.dist (G.src a) + (len a : WithTop ℚ)) :
    G.ShortestPaths el len s r := by
  have nonneg := inv.not_negativeFrom feasible
  have lower : ∀ {v : Fin n} {p : List (Arc m)}, IsWalk G.src G.dst s p v →
      (∀ a ∈ p, el a = true) → r.dist v ≤ (((p.map len).sum : ℚ) : WithTop ℚ) := by
    intro v p walk usable
    have bound := le_of_feasible (fun a => el a = true) feasible walk usable
    refine bound.trans ?_
    simpa using add_le_add_left inv.source (((p.map len).sum : ℚ) : WithTop ℚ)
  have atSource : r.dist s = 0 := by
    refine le_antisymm inv.source (not_lt.1 fun below => ?_)
    obtain ⟨d, val⟩ := WithTop.ne_top_iff_exists.1 (ne_top_of_lt below)
    obtain ⟨p, ⟨walk, usable, -⟩, sum⟩ := inv.attained s d val.symm
    have neg : (p.map len).sum < 0 := by
      rw [sum]
      rw [← val] at below
      exact_mod_cast below
    have ne : p ≠ [] := by
      rintro rfl
      simp at neg
    exact nonneg ⟨s, p, ⟨s, [], rfl, rfl, by simp⟩, ⟨ne, walk, usable⟩, neg⟩
  have root : r.pred s = none := by
    cases label : r.pred s with
    | none => rfl
    | some a =>
      have below := inv.lowered a label
      rw [atSource] at below
      exact absurd below (lt_irrefl _)
  have tight : ∀ v a, r.pred v = some a → r.dist v = r.dist (G.src a) + (len a : WithTop ℚ) := by
    intro v a label
    have upper := feasible a (inv.usable v a label)
    rw [inv.consistent v a label] at upper
    exact le_antisymm upper (inv.slack v a label)
  refine ⟨fun v d val => ⟨?_, ?_⟩, ?_, root, ?_⟩
  · obtain ⟨p, ⟨walk, usable, -⟩, sum⟩ := inv.attained v d val
    exact ⟨s, p, rfl, walk, usable, sum⟩
  · rintro _ p rfl walk usable
    have bound := lower walk usable
    rw [val] at bound
    exact_mod_cast bound
  · rintro v unlabelled ⟨_, p, rfl, walk, usable⟩
    have bound := lower walk usable
    rw [unlabelled, top_le_iff] at bound
    exact WithTop.coe_ne_top bound
  · intro v d val
    have acyclic : ∀ x q, ¬ BackPath r.pred G.src x x q := by
      intro x q cycle
      refine nonneg ⟨x, q.reverse, ?_, cycle.isCycle inv.consistent ?_, ?_⟩
      · obtain ⟨a, label⟩ : ∃ a, r.pred x = some a := by
          cases cycle with
          | last label _ | step label _ _ => exact ⟨_, label⟩
        obtain ⟨e, finite⟩ := WithTop.ne_top_iff_exists.1 (inv.linked x a label).1
        obtain ⟨p, ⟨walk, usable, -⟩, -⟩ := inv.attained x e finite.symm
        exact ⟨s, p, rfl, walk, usable⟩
      · exact fun a mem => inv.usable _ a (cycle.label_of_mem inv.consistent mem)
      · rw [map_reverse, sum_reverse]
        exact inv.cycles x q cycle
    obtain ⟨p, x, reads, final⟩ := exists_readsTo_root acyclic v
    have along : ∀ {w : Fin n} {q : List (Arc m)}, ReadsTo r.pred G.src w q x → r.dist w ≠ ⊤ →
        r.dist x ≠ ⊤ ∧ r.dist w = r.dist x + (((q.map len).sum : ℚ) : WithTop ℚ) := by
      intro w q
      induction q generalizing w with
      | nil =>
        rintro rfl known
        exact ⟨known, by simp⟩
      | cons a q ih =>
        rintro ⟨label, rest⟩ known
        obtain ⟨finite, total⟩ := ih rest (inv.linked w a label).2
        refine ⟨finite, ?_⟩
        rw [tight w a label, total, map_cons, sum_cons, add_assoc, ← WithTop.coe_add,
          add_comm (len a)]
    obtain ⟨finite, total⟩ := along reads (by simp [val])
    obtain rfl : x = s := by
      rcases inv.reached x finite with here | ⟨a, label⟩
      · exact here
      · rw [final] at label
        cases label
    refine ⟨p, reads, reads.forall_mem inv.usable, ?_⟩
    rw [atSource, zero_add, val] at total
    exact_mod_cast total.symm

/-- The label of the target node is refused with another exception. -/
theorem bfReport_ne_check (epsilon : ℚ) (dist : Fin n → WithTop ℚ) (pred : Fin n → Option (Arc m))
    (t : Option (Fin n)) :
    bfReport epsilon dist pred t ≠
      .error (.check "SPX_BellmanFord" "Negative length cycles") := by
  cases t with
  | none => simp [bfReport]
  | some t =>
    unfold bfReport setResult setBounds
    dsimp only
    split_ifs <;> simp [bind, Except.bind, pure, Except.pure]

theorem of_bfReport {epsilon : ℚ} {t : Option (Fin n)} {r : BFResult n m}
    (ok : bfReport epsilon dist pred t = .ok r) :
    r.dist = dist ∧ ∀ v ∈ t, setResult epsilon ((dist v).untopD (-infFloat)) = .ok () := by
  cases t with
  | none =>
    cases ok
    exact ⟨rfl, by simp⟩
  | some t =>
    unfold bfReport at ok
    dsimp only at ok
    cases report : setResult epsilon ((dist t).untopD (-infFloat)) with
    | error e =>
      rw [report] at ok
      cases ok
    | ok u =>
      rw [report] at ok
      cases ok
      refine ⟨rfl, fun v eq => ?_⟩
      cases eq
      exact report

section

variable (G : MixedGraph n m) (el : Arc m → Bool) (len : Arc m → ℚ)

/-- Every node that can be reached is reached by a walk on which all sums are below `InfFloat`, and
the distance of the target node is accepted as a bound. -/
structure BFInRange (epsilon : ℚ) (s : Fin n) (t : Option (Fin n)) : Prop where
  near : ∀ v, ReachableFrom G.src G.dst (fun a => el a = true) (· = s) v →
    ∃ p, G.LowFrom el len s p v
  target : ∀ v ∈ t, ∀ p, IsWalk G.src G.dst s p v → (∀ a ∈ p, el a = true) →
    -infFloat - epsilon ≤ (p.map len).sum

/-- **The method of Bellman and Ford** for graphs with several nodes. -/
theorem bellmanFord_spec (oneWay : ∀ a, el a = true → el a.rev = false) (several : 2 ≤ n)
    (s : Fin n) : ∃ dist pred, BFInv G el len s dist pred ∧
    ((G.NegativeNear el len s ∧ ∀ epsilon t, G.bellmanFord el len epsilon s t =
        .error (.check "SPX_BellmanFord" "Negative length cycles")) ∨
      (¬ G.NegativeNear el len s ∧ G.BFSettled el len dist ∧
        ∀ epsilon t, G.bellmanFord el len epsilon s t = bfReport epsilon dist pred t)) := by
  obtain ⟨k, passes, bounded, stopped, early⟩ := bfLoop_spec (2 * n) oneWay
    (bfInit_passes G el len s) (Nat.zero_add 1).symm (by omega) (by omega)
  refine ⟨_, _, passes.inv, ?_⟩
  by_cases limit : (G.bfLoop el len (2 * n) 1 (bfInit s)).1 = 2 * n
  · refine .inl ⟨?_, fun epsilon t => if_pos limit⟩
    by_contra nonneg
    have bound := early nonneg (by omega) (by omega)
    omega
  · have settled := passes.settled (stopped (lt_of_le_of_ne bounded limit))
    exact .inr ⟨passes.inv.not_negativeNear settled, settled, fun epsilon t => if_neg limit⟩

theorem bellmanFord_single (single : n = 1) (epsilon : ℚ) (s : Fin n) (t : Option (Fin n)) :
    G.bellmanFord el len epsilon s t =
      .error (.check "SPX_BellmanFord" "Negative length cycles") := by
  subst single
  refine if_pos ?_
  simp [bfLoop, bfInit]

end

end MixedGraph

namespace DiGraph

variable {n m : ℕ}

section

variable (G : DiGraph n m) (sub : Fin m → ℚ)

/-- What the method is for: it raises `ERCheck` exactly if a negative cycle can be reached, and
delivers shortest paths otherwise. -/
def DecidesNegativeCycles (potential : Fin n → ℚ) (delta epsilon : ℚ)
    (s : Fin n) (t : Option (Fin n)) : Prop :=
  (G.spxBellmanFord sub potential delta .plain epsilon s t =
      .error (.check "SPX_BellmanFord" "Negative length cycles") ↔
    G.NegativeFrom (G.eligible sub delta .plain) (fun a => G.length a.edge) s) ∧
  (G.spxBellmanFord sub potential delta .plain epsilon s t ≠
      .error (.check "SPX_BellmanFord" "Negative length cycles") →
    ∃ r, G.spxBellmanFord sub potential delta .plain epsilon s t = .ok r ∧
      G.ShortestPaths (G.eligible sub delta .plain) (fun a => G.length a.edge) s r)

theorem eligible_plain_oneWay (delta : ℚ) (a : Arc m)
    (usable : G.eligible sub delta .plain a = true) :
    G.eligible sub delta .plain a.rev = false := by
  cases a with
  | mk e back =>
    cases back <;>
      simp [MixedGraph.eligible, TOptSPX.hasSubgraph, TOptSPX.hasResidual, Dart.rev] at usable ⊢

end

theorem negativeNear_of_single {G : MixedGraph n m} {el : Arc m → Bool} {len : Arc m → ℚ}
    {s : Fin n} (single : n = 1) (negative : G.NegativeFrom el len s) :
    G.NegativeNear el len s := by
  have atSource : ∀ v : Fin n, v = s := by
    intro v
    have low := v.isLt
    have low' := s.isLt
    exact Fin.ext (by omega)
  obtain ⟨x, c, -, cycle, neg⟩ := negative
  obtain ⟨a, usable, less⟩ : ∃ a, el a = true ∧ len a < 0 := by
    by_contra none
    push Not at none
    refine absurd neg (not_lt.2 (sum_nonneg fun y member => ?_))
    obtain ⟨a, inCycle, rfl⟩ := mem_map.1 member
    exact none a (cycle.usable a inCycle)
  refine ⟨s, [], [a], rfl, ⟨by simp, ⟨atSource _, atSource _⟩, by simpa using usable⟩, ?_,
    by simpa using less⟩
  have empty : G.LowFrom el len s [] (G.src a) := by
    rw [atSource (G.src a)]
    exact MixedGraph.lowFrom_nil ..
  have loop := empty.concat usable (by simpa using less.trans infFloat_pos)
  rwa [atSource (G.dst a)] at loop

/-- The condition under which negative cycles are decided. -/
def CanDecide (G : MixedGraph n m) (el : Arc m → Bool) (len : Arc m → ℚ) (epsilon : ℚ) (s : Fin n)
    (t : Option (Fin n)) : Prop :=
  G.NegativeNear el len s ∨
    2 ≤ n ∧ ¬ G.NegativeFrom el len s ∧ G.BFInRange el len epsilon s t

/-- **Negative cycles are decided** exactly if one is near enough, or there is none and the
distances are in the range of the labels, on two nodes at least. -/
theorem bellmanFord_decides_iff (G : DiGraph n m) (sub : Fin m → ℚ) (potential : Fin n → ℚ)
    (delta : ℚ) {epsilon : ℚ} (nonneg : 0 ≤ epsilon) (s : Fin n) (t : Option (Fin n)) :
    G.DecidesNegativeCycles sub potential delta epsilon s t ↔
      CanDecide G.toMixedGraph (G.eligible sub delta .plain) (fun a => G.length a.edge)
        epsilon s t := by
  set el := G.eligible sub delta .plain with elEq
  set len : Arc m → ℚ := fun a => G.length a.edge with lenEq
  have lengths : G.spxBellmanFord sub potential delta .plain epsilon s t =
      G.bellmanFord el len epsilon s t := by
    rw [MixedGraph.spxBellmanFord]
    congr 1
  have far : G.NegativeNear el len s → G.NegativeFrom el len s := by
    rintro ⟨x, p, c, first, cycle, low, neg⟩
    exact ⟨x, c, ⟨s, p, rfl, first, fun a mem => low.usable a (mem_append_left _ mem)⟩, cycle, neg⟩
  rw [DecidesNegativeCycles, lengths, CanDecide]
  by_cases several : 2 ≤ n
  · obtain ⟨dist, pred, inv, ⟨near, raised⟩ | ⟨notNear, settled, res⟩⟩ :=
      G.bellmanFord_spec el len (G.eligible_plain_oneWay sub delta) several s
    · refine iff_of_true ⟨iff_of_true (raised _ _) (far near), fun other => ?_⟩ (.inl near)
      exact absurd (raised _ _) other
    have result := res epsilon t
    have other := MixedGraph.bfReport_ne_check epsilon dist pred t
    rw [← result] at other
    refine ⟨fun ⟨decided, delivers⟩ => .inr ⟨several, fun neg => other (decided.2 neg), ?_⟩, ?_⟩
    · obtain ⟨r, ok, paths⟩ := delivers other
      obtain ⟨same, bound⟩ := MixedGraph.of_bfReport (result.symm.trans ok)
      have labelled : ∀ v, ReachableFrom G.src G.dst (fun a => el a = true) (· = s) v →
          ∃ d : ℚ, dist v = d := fun v reachable => by
        obtain ⟨d, val⟩ := WithTop.ne_top_iff_exists.1 fun top =>
          paths.unreached v (same ▸ top) reachable
        exact ⟨d, val.symm⟩
      refine ⟨fun v reachable => ?_, fun v isTarget p walk usable => ?_⟩
      · obtain ⟨d, val⟩ := labelled v reachable
        exact (inv.attained v d val).imp fun p both => both.1
      · obtain ⟨d, val⟩ := labelled v ⟨s, p, rfl, walk, usable⟩
        have low := (setResult_eq_ok.1 (bound v isTarget)).1
        rw [val, WithTop.untopD_coe] at low
        exact low.trans ((paths.distance v d (same ▸ val)).least s p rfl walk usable)
    · rintro (near | ⟨-, nonneg', range⟩)
      · exact absurd near notNear
      have feasible : ∀ a, el a = true → dist (G.dst a) ≤ dist (G.src a) + (len a : WithTop ℚ) := by
        intro a usable
        by_cases below : dist (G.src a) + (len a : WithTop ℚ) < (infFloat : WithTop ℚ)
        · exact settled a usable below
        cases val : dist (G.src a) with
        | top => exact le_top
        | coe d =>
          obtain ⟨p, ⟨walk, along, -⟩, -⟩ := inv.attained _ d val
          obtain ⟨q, low⟩ := range.near (G.dst a) ⟨s, p ++ [a], rfl, isWalk_concat.2 ⟨walk, rfl⟩,
            fun b mem =>
              (mem_append.1 mem).elim (along b) fun last => mem_singleton.1 last ▸ usable⟩
          rw [← val]
          refine (inv.le_of_low settled low).trans (le_trans ?_ (not_lt.1 below))
          exact WithTop.coe_le_coe.2 (low.low q (prefix_refl q)).le
      refine ⟨iff_of_false other nonneg', fun _ => ?_⟩
      rw [result]
      cases t with
      | none => exact ⟨_, rfl, inv.shortestPaths feasible⟩
      | some v =>
        have bound : setResult epsilon ((dist v).untopD (-infFloat)) = .ok () := by
          cases val : dist v with
          | top =>
            refine setResult_ok nonneg ?_
            rw [WithTop.untopD_top, abs_neg, abs_of_pos infFloat_pos]
          | coe d =>
            obtain ⟨p, low, rfl⟩ := inv.attained v d val
            have upper := low.low p (prefix_refl p)
            exact setResult_eq_ok.2 ⟨range.target v rfl p low.walk low.usable, by
              rw [WithTop.untopD_coe]
              linarith⟩
        refine ⟨⟨dist, pred, dist v ≠ ⊤⟩, ?_, inv.shortestPaths feasible⟩
        simp only [MixedGraph.bfReport, bound]
        rfl
  have single : n = 1 := by
    have positive := s.pos
    omega
  have raised := G.bellmanFord_single el len single epsilon s t
  constructor
  · rintro ⟨decided, -⟩
    exact .inl (negativeNear_of_single single (decided.1 raised))
  · rintro (near | ⟨many, -⟩)
    · exact ⟨iff_of_true raised (far near), fun other => absurd raised other⟩
    · exact absurd many several

theorem bellmanFord_decides_iff_farLoop : (0 : ℚ) ≤ 0 ∧
    farLoop.DecidesNegativeCycles (fun _ => 0) (fun _ => 0) 0 0 2 none := by
  refine ⟨le_rfl, (farLoop.bellmanFord_decides_iff _ _ 0 le_rfl 2 none).2 (.inl ?_)⟩
  have start : LowWalk farLoop.src farLoop.dst
      (fun a => farLoop.eligible (fun _ => 0) 0 .plain a = true) (fun a => farLoop.length a.edge)
      infFloat 2 [] (farLoop.src ⟨2, false⟩) := MixedGraph.lowFrom_nil ..
  exact ⟨2, [], [⟨2, false⟩], rfl, ⟨by simp, ⟨rfl, rfl⟩, by decide +kernel⟩,
    start.concat (by decide +kernel) (by decide +kernel),
    by decide +kernel⟩

/-- A graph with one node and no arcs. -/
def onePoint : DiGraph 1 0 :=
  DiGraph.ofArcs Fin.elim0 Fin.elim0 Fin.elim0 Fin.elim0 Fin.elim0 ![0]

/-- A graph without arcs is said to have a negative cycle, and a loop of negative length is not
found that is too far from the first node. -/
theorem onePoint_not_decided :
    ¬ onePoint.DecidesNegativeCycles Fin.elim0 (fun _ => 0) 0 0 0 none ∧
    ¬ farLoop.DecidesNegativeCycles (fun _ => 0) (fun _ => 0) 0 0 0 none := by
  constructor
  · rintro ⟨decided, -⟩
    obtain ⟨x, c, -, cycle, -⟩ := decided.1 rfl
    cases c with
    | nil => exact cycle.nonempty rfl
    | cons a c => exact a.edge.elim0
  · rintro ⟨decided, -⟩
    have found : ((farLoop.spxBellmanFord (fun _ => 0) (fun _ => 0) 0 .plain 0 0 none).map
        fun _ => ()) = .ok () := by
      decide +kernel
    rw [decided.2 ⟨2, [⟨2, false⟩], ⟨0, [⟨0, false⟩, ⟨1, false⟩], rfl, ⟨rfl, rfl, rfl⟩,
      by decide +kernel⟩, ⟨by simp, ⟨rfl, rfl⟩, by decide +kernel⟩, by decide +kernel⟩] at found
    cases found

end DiGraph

end Goblin
