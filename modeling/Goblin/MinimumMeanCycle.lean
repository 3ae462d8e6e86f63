import Goblin.Dijkstra
import Goblin.Library.Extrema

/-!
# Minimum mean cycles

`MinimumMeanCycle` tabulates, for every `k ≤ n` and every node, the least length
of a walk with exactly `k` arcs that ends there, and reads a cycle from the
table. If the mean value is negative, so is the cycle (`minimumMeanCycle_neg`):
cutting the cycle out of the walk leaves a walk that the table knows. If it is
not, every walk can be replaced by one with less than `n` arcs that is no longer
(`exists_short_row`), so there is no negative cycle at all
(`minimumMeanCycle_nonneg`).

The initial entries of the table are the number `InfFloat`, here `limit`. The results
are those for the limit `⊤` if the lengths of walks with at most `n` arcs are in the range of
the table (`meanCycle_limit`).
-/

set_option autoImplicit false

namespace Goblin

open Library List Function
open WithTop (coe_add coe_le_coe coe_lt_top ne_top_iff_exists untopD_coe)

variable {k : ℕ} {mean : ℚ}

/-- One row of the table: the least lengths and the last arcs. -/
structure KarpRow (n m : ℕ) where
  dist : Fin n → WithTop ℚ
  pred : Fin n → Option (Arc m)

/-- A node on the cycle, the mean value and the exported predecessor labels. -/
structure MeanCycle (n m : ℕ) where
  node : Fin n
  meanValue : ℚ
  pred : Fin n → Option (Arc m)

namespace MixedGraph

variable {n m : ℕ} (G : MixedGraph n m)

section Model

variable (limit : WithTop ℚ) (el : Arc m → Bool) (len : Arc m → ℚ)

/-- One arc of the computation of a row. -/
def karpRead (prev : Fin n → WithTop ℚ) (row : KarpRow n m) (a : Arc m) : KarpRow n m :=
  let u := G.startNode a
  let v := G.endNode a
  if el a = true ∧ prev u ≠ ⊤ ∧ prev u + (len a : WithTop ℚ) < labelNumber limit (row.dist v) then
    { dist := update row.dist v (prev u + (len a : WithTop ℚ))
      pred := update row.pred v (some a) }
  else row

/-- The rows of the table. -/
def karpRow : ℕ → KarpRow n m
  | 0 => ⟨fun _ => 0, fun _ => none⟩
  | k + 1 => (arcs m).foldl (G.karpRead limit el len (karpRow k).dist) ⟨fun _ => ⊤, fun _ => none⟩

/-- The mean value that row `k` gives for `v`. -/
def karpMean (v : Fin n) (k : ℕ) : ℚ :=
  (((G.karpRow limit el len n).dist v).untopD 0 - ((G.karpRow limit el len k).dist v).untopD 0) /
    ((n : ℚ) - k)

/-- The loop over the rows; `none` is the initial `-InfFloat`. -/
def maxMean (v : Fin n) : Option ℚ :=
  if (G.karpRow limit el len n).dist v < ⊤ then
    (List.range n).foldl (fun best k =>
      if (G.karpRow limit el len k).dist v < ⊤ then
        match best with
        | none => if ((-G.karpMean limit el len v k : ℚ) : WithTop ℚ) < limit then
            some (G.karpMean limit el len v k) else none
        | some mean => if mean < G.karpMean limit el len v k then
            some (G.karpMean limit el len v k) else some mean
      else best) none
  else none

/-- The loop over the nodes; `none` is the initial `InfFloat`. -/
def karpSelect : Option (Fin n × ℚ) :=
  (finRange n).foldl (fun best v =>
    match G.maxMean limit el len v, best with
    | none, best => best
    | some mean, none => if (mean : WithTop ℚ) < limit then some (v, mean) else none
    | some mean, some (u, mu) => if mean < mu then some (v, mean) else some (u, mu)) none

/-- Export the predecessor labels from row `k` downwards until a node repeats. -/
def karpExtract : ℕ → Fin n → (Fin n → Option (Arc m)) →
    Except Raise (Fin n × (Fin n → Option (Arc m)))
  | k, v, pred =>
    match pred v with
    | some _ => .ok (v, pred)
    | none =>
      match k with
      | 0 => .error (.range "StartNode" "No such arc")
      | k + 1 =>
        match (G.karpRow limit el len (k + 1)).pred v with
        | none => .error (.range "StartNode" "No such arc")
        | some a => karpExtract k (G.startNode a) (update pred v (some a))

/-- The method for given arcs and lengths. -/
def meanCycle : Except Raise (Option (MeanCycle n m)) :=
  match G.karpSelect limit el len with
  | none => .ok none
  | some (v, mean) => do
    let (x, pred) ← G.karpExtract limit el len n v fun _ => none
    return some ⟨x, mean, pred⟩

end Model

/-- `MinimumMeanCycle`: the result is `none` when the graph is acyclic. -/
def minimumMeanCycle (limit : WithTop ℚ) (sub : Fin m → ℚ) (delta : ℚ) (characteristic : TOptSPX) :
    Except Raise (Option (MeanCycle n m)) :=
  G.meanCycle limit (G.eligible sub delta characteristic) (G.redLength fun _ => 0)

/-! ## The table -/

variable {G} {el : Arc m → Bool} {len : Arc m → ℚ} {u v v0 x : Fin n} {p q c : List (Arc m)}
  {pred : Fin n → Option (Arc m)} {visited : List (Fin n)}

/-- What is known about a row after the arcs of `read`. -/
structure RowInv (G : MixedGraph n m) (el : Arc m → Bool) (len : Arc m → ℚ)
    (prev : Fin n → WithTop ℚ) (read : List (Arc m)) (row : KarpRow n m) : Prop where
  bound : ∀ a ∈ read, el a = true → row.dist (G.dst a) ≤ prev (G.src a) + (len a : WithTop ℚ)
  label : ∀ v, row.dist v ≠ ⊤ → ∃ a, row.pred v = some a ∧ G.dst a = v ∧ el a = true ∧
    row.dist v = prev (G.src a) + (len a : WithTop ℚ)

theorem karpRead_inv {prev : Fin n → WithTop ℚ} {read : List (Arc m)} {row : KarpRow n m}
    (inv : RowInv G el len prev read row) (a : Arc m) :
    RowInv G el len prev (read ++ [a]) (G.karpRead ⊤ el len prev row a) := by
  have number : labelNumber ⊤ (row.dist (G.dst a)) = row.dist (G.dst a) := by
    unfold labelNumber
    split_ifs with top
    · exact top.symm
    · rfl
  by_cases better : el a = true ∧ prev (G.src a) ≠ ⊤ ∧
      prev (G.src a) + (len a : WithTop ℚ) < labelNumber ⊤ (row.dist (G.dst a))
  · rw [show G.karpRead ⊤ el len prev row a =
      { dist := update row.dist (G.dst a) (prev (G.src a) + (len a : WithTop ℚ))
        pred := update row.pred (G.dst a) (some a) } from if_pos better]
    rw [number] at better
    refine ⟨?_, ?_⟩
    · intro b mem usable
      dsimp only
      rcases mem_append.1 mem with old | last
      · have bound := inv.bound b old usable
        by_cases eq : G.dst b = G.dst a
        · rw [eq] at bound ⊢
          rw [update_self]
          exact better.2.2.le.trans bound
        · rw [update_of_ne eq]
          exact bound
      · rw [mem_singleton.1 last, update_self]
    · intro v finite
      dsimp only at finite ⊢
      by_cases eq : v = G.dst a
      · subst eq
        exact ⟨a, update_self _ _ _, rfl, better.1, update_self _ _ _⟩
      · rw [update_of_ne eq] at finite
        rw [update_of_ne eq, update_of_ne eq]
        exact inv.label v finite
  · rw [show G.karpRead ⊤ el len prev row a = row from if_neg better]
    rw [number] at better
    refine ⟨fun b mem usable => ?_, inv.label⟩
    rcases mem_append.1 mem with old | last
    · exact inv.bound b old usable
    · rw [mem_singleton.1 last] at usable ⊢
      by_cases top : prev (G.src a) = ⊤
      · rw [top, WithTop.top_add]
        exact le_top
      · exact not_lt.1 fun less => better ⟨usable, top, less⟩

theorem karpRow_succ (G : MixedGraph n m) (el : Arc m → Bool) (len : Arc m → ℚ) (k : ℕ) :
    RowInv G el len (G.karpRow ⊤ el len k).dist (arcs m) (G.karpRow ⊤ el len (k + 1)) := by
  have all : ∀ (l read : List (Arc m)) (row : KarpRow n m),
      RowInv G el len (G.karpRow ⊤ el len k).dist read row →
      RowInv G el len (G.karpRow ⊤ el len k).dist (read ++ l)
        (l.foldl (G.karpRead ⊤ el len (G.karpRow ⊤ el len k).dist) row) := by
    intro l
    induction l with
    | nil =>
      intro read row inv
      rwa [append_nil]
    | cons a l ih =>
      intro read row inv
      have next := ih (read ++ [a]) _ (karpRead_inv inv a)
      rwa [append_assoc, singleton_append] at next
  exact all (arcs m) [] _ ⟨fun a mem => (by cases mem), fun v finite => absurd rfl finite⟩

theorem karpRow_le (len : Arc m → ℚ) (walk : IsWalk G.src G.dst u p v)
    (usable : ∀ a ∈ p, el a = true) :
    (G.karpRow ⊤ el len p.length).dist v ≤ (((p.map len).sum : ℚ) : WithTop ℚ) := by
  induction p using reverseRecOn generalizing v with
  | nil => simp [karpRow]
  | append_singleton p a ih =>
    obtain ⟨first, rfl⟩ := isWalk_concat.1 walk
    have before := ih first fun b mem => usable b (mem_append_left _ mem)
    have step := (karpRow_succ G el len p.length).bound a (mem_arcs a)
      (usable a (by simp))
    rw [length_append, length_singleton, map_append, sum_append,
      map_singleton, sum_singleton, coe_add]
    exact step.trans (add_le_add_left before _)

theorem karpRow_attained {d : ℚ} (val : (G.karpRow ⊤ el len k).dist v = d) :
    ∃ u p, IsWalk G.src G.dst u p v ∧ p.length = k ∧ (∀ a ∈ p, el a = true) ∧
      (p.map len).sum = d := by
  induction k generalizing v d with
  | zero =>
    refine ⟨v, [], rfl, rfl, by simp, ?_⟩
    have zero : (0 : WithTop ℚ) = d := val
    exact_mod_cast zero
  | succ k ih =>
    obtain ⟨a, -, rfl, usable, sum⟩ := (karpRow_succ G el len k).label v (by simp [val])
    have finite : (G.karpRow ⊤ el len k).dist (G.src a) ≠ ⊤ := by
      intro top
      rw [val, top, WithTop.top_add] at sum
      cases sum
    obtain ⟨d', val'⟩ := ne_top_iff_exists.1 finite
    obtain ⟨u, p, walk, length, allUsable, total⟩ := ih val'.symm
    refine ⟨u, p ++ [a], isWalk_concat.2 ⟨walk, rfl⟩, by simp [length], ?_, ?_⟩
    · intro b mem
      rcases mem_append.1 mem with old | last
      · exact allUsable b old
      · rw [mem_singleton.1 last]
        exact usable
    · rw [val, ← val', ← coe_add] at sum
      rw [map_append, sum_append, total]
      simpa using (WithTop.coe_inj.1 sum).symm

/-! ## Mean values -/

/-- The maximum over the rows is attained, and it bounds the mean value of every
finite row. -/
theorem maxMean_spec (finite : (G.karpRow ⊤ el len n).dist v < ⊤) :
    ∃ mean, G.maxMean ⊤ el len v = some mean ∧
      (∃ k < n, (G.karpRow ⊤ el len k).dist v < ⊤ ∧ mean = G.karpMean ⊤ el len v k) ∧
      ∀ k < n, (G.karpRow ⊤ el len k).dist v < ⊤ → G.karpMean ⊤ el len v k ≤ mean := by
  set f : Option ℚ → ℕ → Option ℚ := fun best k =>
    if (G.karpRow ⊤ el len k).dist v < ⊤ then
      match best with
      | none => if ((-G.karpMean ⊤ el len v k : ℚ) : WithTop ℚ) < ⊤ then
          some (G.karpMean ⊤ el len v k) else none
      | some mean => if mean < G.karpMean ⊤ el len v k then
          some (G.karpMean ⊤ el len v k) else some mean
    else best with fEq
  have prefixes : ∀ j ≤ n, j = 0 ∨ ∃ mean, (List.range j).foldl f none = some mean ∧
      (∃ k < j, (G.karpRow ⊤ el len k).dist v < ⊤ ∧ mean = G.karpMean ⊤ el len v k) ∧
      ∀ k < j, (G.karpRow ⊤ el len k).dist v < ⊤ → G.karpMean ⊤ el len v k ≤ mean := by
    intro j
    induction j with
    | zero => exact fun _ => .inl rfl
    | succ j ih =>
      intro inRange
      refine .inr ?_
      rw [range_succ, foldl_append, foldl_cons, foldl_nil]
      rcases ih (by omega) with rfl | ⟨mean, val, ⟨k, less, finiteK, equal⟩, upper⟩
      · -- row 0 is finite everywhere
        have zero : (G.karpRow ⊤ el len 0).dist v < ⊤ := by simp [karpRow]
        refine ⟨G.karpMean ⊤ el len v 0,
          by simp only [zero, coe_lt_top, if_true, range_zero, foldl_nil, fEq],
          ⟨0, by omega, zero, rfl⟩, ?_⟩
        intro k less _
        rw [show k = 0 by omega]
      rw [val]
      by_cases finiteJ : (G.karpRow ⊤ el len j).dist v < ⊤
      · by_cases grows : mean < G.karpMean ⊤ el len v j
        · refine ⟨G.karpMean ⊤ el len v j, by simp [fEq, finiteJ, grows],
            ⟨j, by omega, finiteJ, rfl⟩, fun i inRange' finiteI => ?_⟩
          rcases Nat.lt_succ_iff_lt_or_eq.1 inRange' with earlier | rfl
          · exact (upper i earlier finiteI).trans grows.le
          · exact le_refl _
        · refine ⟨mean, by simp [fEq, finiteJ, grows], ⟨k, by omega, finiteK, equal⟩,
            fun i inRange' finiteI => ?_⟩
          rcases Nat.lt_succ_iff_lt_or_eq.1 inRange' with earlier | rfl
          · exact upper i earlier finiteI
          · exact not_lt.1 grows
      · refine ⟨mean, by simp [fEq, finiteJ], ⟨k, by omega, finiteK, equal⟩,
          fun i inRange' finiteI => ?_⟩
        rcases Nat.lt_succ_iff_lt_or_eq.1 inRange' with earlier | rfl
        · exact upper i earlier finiteI
        · exact absurd finiteI finiteJ
  rcases prefixes n (le_refl n) with rfl | ⟨mean, val, attained, upper⟩
  · exact v.elim0
  · exact ⟨mean, by rw [maxMean, if_pos finite, ← val], attained, upper⟩

theorem karpSelect_spec (G : MixedGraph n m) (el : Arc m → Bool) (len : Arc m → ℚ) :
    match G.karpSelect ⊤ el len with
    | none => ∀ v, G.maxMean ⊤ el len v = none
    | some (u, mu) => G.maxMean ⊤ el len u = some mu ∧
        ∀ v mean, G.maxMean ⊤ el len v = some mean → mu ≤ mean := by
  have whole : Selected (· ≤ ·) (G.maxMean ⊤ el len)
      (fun c y => G.maxMean ⊤ el len c.1 = some c.2 ∧ c.2 = y) (finRange n)
      (G.karpSelect ⊤ el len) := by
    refine selected_foldl _ (fun v best none => by simp only [none])
      (fun v mean val => ⟨(v, mean), by simp [val], val, rfl⟩)
      (fun v mean c mu val known => ?_) _
    obtain ⟨known, rfl⟩ := known
    by_cases less : mean < c.2
    · exact .inl ⟨(v, mean), by simp [val, less], ⟨val, rfl⟩, less.le⟩
    · exact .inr ⟨by simp [val, less], not_lt.1 less⟩
  cases selected : G.karpSelect ⊤ el len with
  | none =>
    rw [selected] at whole
    exact fun v => whole v (mem_finRange v)
  | some found =>
    rw [selected] at whole
    obtain ⟨_, ⟨known, rfl⟩, upper⟩ := whole
    exact ⟨known, fun v => upper v (mem_finRange v)⟩

/-! ## Extracting the cycle -/

/-- The walk from the selected node `v0` that has been exported so far. The nodes
of `visited` have labels; the walk is at `v`, and row `k` knows its rest. -/
structure KarpTrace (G : MixedGraph n m) (el : Arc m → Bool) (len : Arc m → ℚ) (v0 : Fin n)
    (k : ℕ) (v : Fin n) (pred : Fin n → Option (Arc m)) (q : List (Arc m))
    (visited : List (Fin n)) : Prop where
  reads : ReadsTo pred G.src v0 q v
  nodes : v0 :: q.map G.src = visited ++ [v]
  nodup : visited.Nodup
  labelled : ∀ y, pred y ≠ none ↔ y ∈ visited
  consistent : ∀ y a, pred y = some a → G.dst a = y
  usable : ∀ y a, pred y = some a → el a = true
  count : q.length + k = n
  rest : (G.karpRow ⊤ el len k).dist v ≠ ⊤
  total : (G.karpRow ⊤ el len n).dist v0 =
    (((q.map len).sum : ℚ) : WithTop ℚ) + (G.karpRow ⊤ el len k).dist v

section

variable (trace : KarpTrace G el len v0 k v pred q visited)
include trace

/-- Cutting the cycle out of the walk leaves a walk that the table knows. -/
theorem KarpTrace.cycle (again : v ∈ visited) :
    ∃ c, BackPath pred G.src v v c ∧ (∀ a ∈ c, el a = true) ∧ c.length ≤ n ∧
      (G.karpRow ⊤ el len (n - c.length)).dist v0 + (((c.map len).sum : ℚ) : WithTop ℚ) ≤
        (G.karpRow ⊤ el len n).dist v0 := by
  obtain ⟨front, rest, split⟩ := append_of_mem again
  have nodes := trace.nodes
  rw [split, append_assoc, cons_append] at nodes
  obtain ⟨q1, c, rfl, first, second, last⟩ := trace.reads.split nodes
  have fresh : v ∉ rest := by
    have nodup := trace.nodup
    rw [split] at nodup
    exact (nodup_cons.1 (nodup_append.1 nodup).2.1).1
  have count := trace.count
  rw [length_append] at count
  refine ⟨c, second.backPath_of_fresh last fresh, second.forall_mem trace.usable, by omega,
    ?_⟩
  obtain ⟨d, val⟩ := ne_top_iff_exists.1 trace.rest
  obtain ⟨u, p, walk, length, usable, sum⟩ := karpRow_attained val.symm
  have short : IsWalk G.src G.dst u (p ++ q1.reverse) v0 :=
    isWalk_append.2 ⟨v, walk, first.isWalk trace.consistent⟩
  have bound : (G.karpRow ⊤ el len (p ++ q1.reverse).length).dist v0 ≤
      ((((p ++ q1.reverse).map len).sum : ℚ) : WithTop ℚ) := by
    refine karpRow_le len short fun a mem => ?_
    rcases mem_append.1 mem with before | after
    · exact usable a before
    · exact first.forall_mem trace.usable a (mem_reverse.1 after)
  have arcsLeft : (p ++ q1.reverse).length = n - c.length := by
    rw [length_append, length_reverse]
    omega
  rw [arcsLeft, map_append, sum_append, sum, map_reverse, sum_reverse]
    at bound
  rw [trace.total, ← val, map_append, sum_append]
  refine (add_le_add_left bound _).trans (le_of_eq ?_)
  rw [← coe_add, ← coe_add]
  congr 1
  ring

theorem karpExtract_spec :
    ∃ x pred' c, G.karpExtract ⊤ el len k v pred = .ok (x, pred') ∧
      (∀ y a, pred' y = some a → G.dst a = y) ∧ BackPath pred' G.src x x c ∧
      (∀ a ∈ c, el a = true) ∧ c.length ≤ n ∧
      (G.karpRow ⊤ el len (n - c.length)).dist v0 + (((c.map len).sum : ℚ) : WithTop ℚ) ≤
        (G.karpRow ⊤ el len n).dist v0 := by
  induction k generalizing v pred q visited with
  | zero =>
    cases label : pred v with
    | some a =>
      obtain ⟨c, cycle, rest⟩ := trace.cycle ((trace.labelled v).1 (by simp [label]))
      exact ⟨v, pred, c, by simp [karpExtract, label], trace.consistent, cycle, rest⟩
    | none =>
      -- the walk has met more than `n` different nodes
      have fresh : v ∉ visited := fun mem => (trace.labelled v).2 mem label
      have ne : (visited ++ [v]).Nodup := by
        refine nodup_append.2 ⟨trace.nodup, by simp, ?_⟩
        intro x old y last
        rw [mem_singleton] at last
        rintro rfl
        exact fresh (last ▸ old)
      have bound := ne.length_le_card
      rw [← trace.nodes, length_cons, length_map, Fintype.card_fin] at bound
      have count := trace.count
      omega
  | succ k ih =>
    cases label : pred v with
    | some a =>
      obtain ⟨c, cycle, rest⟩ := trace.cycle ((trace.labelled v).1 (by simp [label]))
      exact ⟨v, pred, c, by simp [karpExtract, label], trace.consistent, cycle, rest⟩
    | none =>
      have fresh : v ∉ visited := fun mem => (trace.labelled v).2 mem label
      obtain ⟨a, rowLabel, endA, usable, sum⟩ := (karpRow_succ G el len k).label v trace.rest
      have extended : ∀ y b, pred y = some b →
          update pred v (some a) y = some b := by
        intro y b set
        have other : y ≠ v := by
          rintro rfl
          rw [label] at set
          cases set
        rw [update_of_ne other]
        exact set
      have next : KarpTrace G el len v0 k (G.src a) (update pred v (some a))
          (q ++ [a]) (visited ++ [v]) := by
        refine ⟨(trace.reads.mono extended).append ⟨update_self _ _ _, rfl⟩, ?_, ?_,
          ?_, ?_, ?_, ?_, ?_, ?_⟩
        · rw [map_append, ← cons_append, trace.nodes]
          rfl
        · refine nodup_append.2 ⟨trace.nodup, by simp, ?_⟩
          intro x old y last
          rw [mem_singleton] at last
          rintro rfl
          exact fresh (last ▸ old)
        · intro y
          by_cases eq : y = v
          · simp [eq]
          · rw [update_of_ne eq, trace.labelled y]
            simp [eq]
        · intro y b set
          rcases of_update set with ⟨eq, ⟨⟩⟩ | ⟨-, set⟩
          · exact endA.trans eq.symm
          · exact trace.consistent y b set
        · intro y b set
          rcases of_update set with ⟨-, ⟨⟩⟩ | ⟨-, set⟩
          · exact usable
          · exact trace.usable y b set
        · rw [length_append, length_singleton]
          have count := trace.count
          omega
        · intro top
          have finite := trace.rest
          rw [sum, top, WithTop.top_add] at finite
          exact finite rfl
        · rw [trace.total, sum, map_append, sum_append, map_singleton,
            sum_singleton, coe_add, add_assoc,
            add_comm (len a : WithTop ℚ)]
      obtain ⟨x, pred', c, res, facts⟩ := ih next
      refine ⟨x, pred', c, ?_, facts⟩
      rw [karpExtract]
      simp only [label, rowLabel]
      exact res

end

/-! ## Negative cycles -/

/-- The mean value of the extracted cycle is at most that of the node from which
it was extracted. -/
theorem cycle_le_mean (ne : c ≠ []) (short : c.length ≤ n)
    (finite : (G.karpRow ⊤ el len n).dist v0 < ⊤)
    (upper : ∀ k < n, (G.karpRow ⊤ el len k).dist v0 < ⊤ → G.karpMean ⊤ el len v0 k ≤ mean)
    (cut : (G.karpRow ⊤ el len (n - c.length)).dist v0 + (((c.map len).sum : ℚ) : WithTop ℚ) ≤
      (G.karpRow ⊤ el len n).dist v0) : (c.map len).sum ≤ mean * c.length := by
  have pos : 0 < c.length := length_pos_iff.2 ne
  obtain ⟨dn, valueN⟩ := ne_top_iff_exists.1 finite.ne
  have finiteK : (G.karpRow ⊤ el len (n - c.length)).dist v0 < ⊤ := by
    rw [lt_top_iff_ne_top]
    intro top
    rw [top, WithTop.top_add, top_le_iff] at cut
    exact finite.ne cut
  obtain ⟨dk, valueK⟩ := ne_top_iff_exists.1 finiteK.ne
  have bound := upper (n - c.length) (by omega) finiteK
  rw [← valueN, ← valueK, ← coe_add, coe_le_coe] at cut
  rw [karpMean, ← valueN, ← valueK, Nat.cast_sub short] at bound
  have lengthPos : (0 : ℚ) < c.length := by exact_mod_cast pos
  rw [untopD_coe, untopD_coe, sub_sub_cancel, div_le_iff₀ lengthPos] at bound
  linarith

/-- **A negative mean value belongs to a negative cycle** that the exported
labels describe, since the mean value bounds that of the cycle. -/
theorem meanCycle_spec (G : MixedGraph n m) (el : Arc m → Bool) (len : Arc m → ℚ) :
    (G.meanCycle ⊤ el len = .ok none ∧ ∀ v, (G.karpRow ⊤ el len n).dist v = ⊤) ∨
    ∃ found, G.meanCycle ⊤ el len = .ok (some found) ∧
      (∀ v, (G.karpRow ⊤ el len n).dist v < ⊤ → ∃ k < n,
        (G.karpRow ⊤ el len k).dist v < ⊤ ∧ found.meanValue ≤ G.karpMean ⊤ el len v k) ∧
      (∀ y a, found.pred y = some a → G.dst a = y) ∧
      ∃ c, BackPath found.pred G.src found.node found.node c ∧ (∀ a ∈ c, el a = true) ∧
        (c.map len).sum ≤ found.meanValue * c.length := by
  have selection := G.karpSelect_spec el len
  cases selected : G.karpSelect ⊤ el len with
  | none =>
    rw [selected] at selection
    refine .inl ⟨by simp [meanCycle, selected], fun v => ?_⟩
    by_contra finite
    obtain ⟨mean, val, -⟩ := maxMean_spec (lt_top_iff_ne_top.2 finite)
    rw [selection v] at val
    cases val
  | some best =>
    obtain ⟨v0, mean⟩ := best
    rw [selected] at selection
    obtain ⟨isMax, least⟩ := selection
    have finite : (G.karpRow ⊤ el len n).dist v0 < ⊤ := by
      by_contra top
      rw [maxMean, if_neg top] at isMax
      cases isMax
    obtain ⟨mean', val, -, upper⟩ := maxMean_spec finite
    cases isMax.symm.trans val
    have start : KarpTrace G el len v0 n v0 (fun _ => none) [] [] := by
      refine ⟨rfl, rfl, nodup_nil, ?_, ?_, ?_, ?_, finite.ne, ?_⟩ <;> simp
    obtain ⟨x, pred, c, res, consistent, cycle, usable, short, cut⟩ := karpExtract_spec start
    refine .inr ⟨⟨x, mean, pred⟩, ?_, ?_, consistent, c, cycle, usable,
      cycle_le_mean cycle.ne_nil short finite upper cut⟩
    · simp only [meanCycle, selected, res, bind, Except.bind, pure, Except.pure]
    · intro v finiteV
      obtain ⟨meanV, valueV, ⟨k, less, finiteK, equal⟩, -⟩ := maxMean_spec finiteV
      exact ⟨k, less, finiteK, equal ▸ least v meanV valueV⟩

/-- If no row `n` entry is below all shorter ones, every walk is at least as long
as one with less than `n` arcs. -/
theorem exists_short_row (noGain : ∀ v, (G.karpRow ⊤ el len n).dist v < ⊤ → ∃ k < n,
      (G.karpRow ⊤ el len k).dist v ≤ (G.karpRow ⊤ el len n).dist v) (walk : IsWalk G.src G.dst u p v)
    (usable : ∀ a ∈ p, el a = true) :
    ∃ k < n, (G.karpRow ⊤ el len k).dist v ≤ (((p.map len).sum : ℚ) : WithTop ℚ) := by
  induction size : p.length using Nat.strong_induction_on generalizing u p with
  | _ j ih =>
    by_cases short : p.length < n
    · exact ⟨p.length, short, karpRow_le len walk usable⟩
    -- replace the first `n` arcs by a walk of the table
    rw [← take_append_drop n p] at walk usable
    obtain ⟨y, front, back⟩ := isWalk_append.1 walk
    have usableFront : ∀ a ∈ p.take n, el a = true := fun a mem =>
      usable a (mem_append_left _ mem)
    have bound : (G.karpRow ⊤ el len (p.take n).length).dist y ≤
        ((((p.take n).map len).sum : ℚ) : WithTop ℚ) := karpRow_le len front usableFront
    rw [length_take, min_eq_left (not_lt.1 short)] at bound
    obtain ⟨k, less, shorter⟩ := noGain y (bound.trans_lt (coe_lt_top _))
    obtain ⟨d, val⟩ := ne_top_iff_exists.1
      (ne_top_of_le_ne_top (WithTop.coe_ne_top) (shorter.trans bound))
    obtain ⟨x, q, qWalk, qLength, qUsable, qSum⟩ := karpRow_attained val.symm
    have total : (q.map len).sum ≤ ((p.take n).map len).sum := by
      rw [qSum]
      have chain := shorter.trans bound
      rw [← val] at chain
      exact_mod_cast chain
    obtain ⟨i, inRange, final⟩ := ih (q ++ p.drop n).length (by
        rw [length_append, length_drop, qLength]
        omega) (isWalk_append.2 ⟨y, qWalk, back⟩) (by
        intro a mem
        rcases mem_append.1 mem with new | old
        · exact qUsable a new
        · exact usable a (mem_append_right _ old)) rfl
    refine ⟨i, inRange, final.trans ?_⟩
    rw [map_append, sum_append]
    have whole : (p.map len).sum = ((p.take n).map len).sum + ((p.drop n).map len).sum := by
      rw [← sum_append, ← map_append, take_append_drop]
    rw [whole]
    exact_mod_cast add_le_add_left total _

theorem isWalk_repeat (len : Arc m → ℚ) (walk : IsWalk G.src G.dst u p u)
    (usable : ∀ a ∈ p, el a = true) (k : ℕ) :
    ∃ q, IsWalk G.src G.dst u q u ∧ (∀ a ∈ q, el a = true) ∧
      (q.map len).sum = k * (p.map len).sum := by
  induction k with
  | zero => exact ⟨[], rfl, by simp, by simp⟩
  | succ k ih =>
    obtain ⟨q, qWalk, qUsable, sum⟩ := ih
    refine ⟨p ++ q, isWalk_append.2 ⟨u, walk, qWalk⟩, ?_, ?_⟩
    · intro a mem
      rcases mem_append.1 mem with first | second
      · exact usable a first
      · exact qUsable a second
    · rw [map_append, sum_append, sum]
      push_cast
      ring

/-- **Without a row that improves on all shorter ones there is no negative
cycle.** -/
theorem closed_nonneg (noGain : ∀ v, (G.karpRow ⊤ el len n).dist v < ⊤ → ∃ k < n,
      (G.karpRow ⊤ el len k).dist v ≤ (G.karpRow ⊤ el len n).dist v) (walk : IsWalk G.src G.dst u p u)
    (usable : ∀ a ∈ p, el a = true) : 0 ≤ (p.map len).sum := by
  by_contra negative
  rw [not_le] at negative
  -- a bound below all finite entries of the column of `u`
  obtain ⟨low, below⟩ : ∃ low : ℚ, ∀ k < n, (low : WithTop ℚ) ≤ (G.karpRow ⊤ el len k).dist u := by
    have columns : ∀ j, ∃ low : ℚ, ∀ k < j, (low : WithTop ℚ) ≤ (G.karpRow ⊤ el len k).dist u := by
      intro j
      induction j with
      | zero => exact ⟨0, fun k less => absurd less (Nat.not_lt_zero k)⟩
      | succ j ih =>
        obtain ⟨low, below⟩ := ih
        refine ⟨min low (((G.karpRow ⊤ el len j).dist u).untopD low), fun k less => ?_⟩
        rcases Nat.lt_succ_iff_lt_or_eq.1 less with earlier | rfl
        · exact (coe_le_coe.2 (min_le_left _ _)).trans (below k earlier)
        · cases entry : (G.karpRow ⊤ el len k).dist u with
          | top => exact le_top
          | coe d => exact coe_le_coe.2 (min_le_right _ _)
    exact columns n
  obtain ⟨k, large⟩ := exists_nat_gt ((-low) / (-(p.map len).sum))
  obtain ⟨q, qWalk, qUsable, sum⟩ := isWalk_repeat len walk usable k
  obtain ⟨i, inRange, bound⟩ := exists_short_row noGain qWalk qUsable
  have chain := (below i inRange).trans bound
  rw [sum, coe_le_coe] at chain
  rw [div_lt_iff₀ (by linarith)] at large
  linarith

theorem noGain_of_nonneg (nonneg : 0 ≤ mean)
    (means : ∀ v, (G.karpRow ⊤ el len n).dist v < ⊤ → ∃ k < n,
      (G.karpRow ⊤ el len k).dist v < ⊤ ∧ mean ≤ G.karpMean ⊤ el len v k) (v : Fin n)
    (finite : (G.karpRow ⊤ el len n).dist v < ⊤) :
    ∃ k < n, (G.karpRow ⊤ el len k).dist v ≤ (G.karpRow ⊤ el len n).dist v := by
  obtain ⟨k, less, finiteK, bound⟩ := means v finite
  refine ⟨k, less, ?_⟩
  obtain ⟨dn, valueN⟩ := ne_top_iff_exists.1 finite.ne
  obtain ⟨dk, valueK⟩ := ne_top_iff_exists.1 finiteK.ne
  have gap : (0 : ℚ) < (n : ℚ) - k := by
    have cast : (k : ℚ) < n := by exact_mod_cast less
    linarith
  have pos := nonneg.trans bound
  rw [karpMean, ← valueN, ← valueK, untopD_coe, untopD_coe,
    le_div_iff₀ gap] at pos
  rw [← valueN, ← valueK, coe_le_coe]
  linarith

/-! ## The minimum of the mean values -/

theorem karpRow_lowered (G : MixedGraph n m) (el : Arc m → Bool) (len : Arc m → ℚ) (mu : ℚ) (k : ℕ) (v : Fin n) :
    (G.karpRow ⊤ el (fun a => len a + -mu) k).dist v ≤
      (G.karpRow ⊤ el len k).dist v + ((-(k * mu) : ℚ) : WithTop ℚ) := by
  cases entry : (G.karpRow ⊤ el len k).dist v with
  | top => exact le_top
  | coe d =>
    obtain ⟨u, p, walk, length, usable, sum⟩ := karpRow_attained entry
    have bound := karpRow_le (fun a => len a + -mu) walk usable
    rw [length] at bound
    have lowered : (p.map fun a => len a + -mu).sum = d + -(k * mu) := by
      rw [sum_map_add_const, sum, length]
      ring
    rw [lowered, coe_add] at bound
    exact bound

theorem karpRow_shift (mu : ℚ) (k : ℕ) (v : Fin n) :
    (G.karpRow ⊤ el (fun a => len a + -mu) k).dist v =
      (G.karpRow ⊤ el len k).dist v + ((-(k * mu) : ℚ) : WithTop ℚ) := by
  refine le_antisymm (karpRow_lowered G el len mu k v) ?_
  have back := karpRow_lowered G el (fun a => len a + -mu) (-mu) k v
  have raised : (fun a => len a + -mu + - -mu) = len := by
    funext a
    ring
  rw [raised] at back
  refine (add_le_add_left back _).trans (le_of_eq ?_)
  rw [add_assoc, ← coe_add]
  have cancel : -(k * -mu) + -(k * mu) = 0 := by ring
  rw [cancel, WithTop.coe_zero, add_zero]

/-- **The mean value is a lower bound** for the mean values of all cycles, since lowering all
lengths by it leaves no row that improves on all shorter ones. -/
theorem mean_le_of_isCycle (means : ∀ v, (G.karpRow ⊤ el len n).dist v < ⊤ → ∃ k < n,
      (G.karpRow ⊤ el len k).dist v < ⊤ ∧ mean ≤ G.karpMean ⊤ el len v k)
    (cycle : IsCycle G.src G.dst (fun a => el a = true) x c) :
    mean ≤ (c.map len).sum / c.length := by
  have noGain : ∀ v, (G.karpRow ⊤ el (fun a => len a + -mean) n).dist v < ⊤ → ∃ k < n,
      (G.karpRow ⊤ el (fun a => len a + -mean) k).dist v ≤
        (G.karpRow ⊤ el (fun a => len a + -mean) n).dist v := by
    intro v finite
    rw [karpRow_shift, WithTop.add_lt_top] at finite
    obtain ⟨k, less, finiteK, bound⟩ := means v finite.1
    refine ⟨k, less, ?_⟩
    rw [karpRow_shift, karpRow_shift]
    obtain ⟨dn, valueN⟩ := ne_top_iff_exists.1 finite.1.ne
    obtain ⟨dk, valueK⟩ := ne_top_iff_exists.1 finiteK.ne
    have gap : (0 : ℚ) < (n : ℚ) - k := by
      have cast : (k : ℚ) < n := by exact_mod_cast less
      linarith
    rw [karpMean, ← valueN, ← valueK, untopD_coe, untopD_coe,
      le_div_iff₀ gap] at bound
    rw [← valueN, ← valueK, ← coe_add, ← coe_add, coe_le_coe]
    linarith
  have nonneg := closed_nonneg noGain cycle.walk cycle.usable
  rw [sum_map_add_const] at nonneg
  have pos : (0 : ℚ) < c.length := by
    exact_mod_cast length_pos_iff.2 cycle.nonempty
  rw [le_div_iff₀ pos]
  linarith

theorem karpRow_finite_of_isCycle (len : Arc m → ℚ)
    (cycle : IsCycle G.src G.dst (fun a => el a = true) x c) :
    ∃ v, (G.karpRow ⊤ el len n).dist v < ⊤ := by
  obtain ⟨q, walk, usable, sum⟩ := isWalk_repeat (fun _ => 1) cycle.walk cycle.usable n
  have long : n ≤ q.length := by
    have one : (1 : ℚ) ≤ c.length := by
      exact_mod_cast length_pos_iff.2 cycle.nonempty
    rw [map_const', sum_replicate, map_const', sum_replicate, nsmul_one,
      nsmul_one] at sum
    have bound : (n : ℚ) ≤ q.length := by
      rw [sum]
      exact le_mul_of_one_le_right (Nat.cast_nonneg n) one
    exact_mod_cast bound
  rw [← take_append_drop n q] at walk
  obtain ⟨y, front, -⟩ := isWalk_append.1 walk
  have bound := karpRow_le len front fun a mem =>
    usable a (mem_of_mem_take mem)
  rw [length_take, min_eq_left long] at bound
  exact ⟨y, bound.trans_lt (coe_lt_top _)⟩

/-! ## The limit of the table -/

section

variable (G : MixedGraph n m) (el : Arc m → Bool) (len : Arc m → ℚ)

/-- The walks with at most `n` arcs have lengths between `-InfFloat` and `InfFloat`. -/
def BoundedWalks : Prop :=
  ∀ u p v, IsWalk G.src G.dst u p v → (∀ a ∈ p, el a = true) → p.length ≤ n →
    |(p.map len).sum| < infFloat

end

section

variable (bounded : G.BoundedWalks el len)
include bounded

theorem karpRow_limit (inTable : k ≤ n) : G.karpRow infFloat el len k = G.karpRow ⊤ el len k := by
  induction k with
  | zero => rfl
  | succ k ih =>
    unfold karpRow
    rw [ih (by omega)]
    refine foldl_ext _ _ _ fun row a _ => ?_
    unfold karpRead
    dsimp only
    refine if_congr (and_congr_right fun usable => and_congr_right fun known => ?_) rfl rfl
    obtain ⟨d, val⟩ := ne_top_iff_exists.1 known
    obtain ⟨u, p, walk, length, along, sum⟩ := karpRow_attained val.symm
    have range := (abs_lt.1 (bounded u (p ++ [a]) (G.dst a) (isWalk_concat.2 ⟨walk, rfl⟩)
      (fun b mem => (mem_append.1 mem).elim (along b) fun last => mem_singleton.1 last ▸ usable)
      (by simpa [length] using inTable))).2
    rw [map_append, sum_append, sum, map_singleton, sum_singleton] at range
    have below : (G.karpRow ⊤ el len k).dist (G.startNode a) + (len a : WithTop ℚ) <
        (infFloat : WithTop ℚ) := by
      rw [← val, ← coe_add]
      exact WithTop.coe_lt_coe.2 range
    exact ⟨fun less => lt_labelNumber (lt_of_lt_labelNumber less) (below.trans_le le_top),
      fun less => lt_labelNumber (lt_of_lt_labelNumber less) below⟩

theorem karpMean_limit (v : Fin n) (inTable : k < n) :
    G.karpMean infFloat el len v k = G.karpMean ⊤ el len v k := by
  rw [karpMean, karpMean, karpRow_limit bounded le_rfl, karpRow_limit bounded inTable.le]

/-- The last arcs of a walk in row `n` are no shorter than one in row `k`. -/
theorem karpMean_gt (inTable : k < n) (finite : (G.karpRow ⊤ el len n).dist v < ⊤)
    (finiteK : (G.karpRow ⊤ el len k).dist v < ⊤) : -G.karpMean ⊤ el len v k < infFloat := by
  obtain ⟨dn, valueN⟩ := ne_top_iff_exists.1 finite.ne
  obtain ⟨dk, valueK⟩ := ne_top_iff_exists.1 finiteK.ne
  obtain ⟨u, p, walk, length, usable, sum⟩ := karpRow_attained valueN.symm
  rw [← take_append_drop (n - k) p] at walk usable sum
  obtain ⟨y, front, back⟩ := isWalk_append.1 walk
  have upper := karpRow_le len back fun a mem => usable a (mem_append_right _ mem)
  have count : (p.drop (n - k)).length = k := by
    rw [length_drop]
    omega
  rw [count, ← valueK, coe_le_coe] at upper
  have range := (abs_lt.1 (bounded u _ y front (fun a mem => usable a (mem_append_left _ mem))
    (by rw [length_take]; omega))).1
  rw [map_append, sum_append] at sum
  have gap : (1 : ℚ) ≤ (n : ℚ) - k := by
    have cast : (k : ℚ) + 1 ≤ n := by exact_mod_cast inTable
    linarith
  rw [karpMean, ← valueN, ← valueK, untopD_coe, untopD_coe, neg_lt, lt_div_iff₀ (by linarith)]
  nlinarith [infFloat_pos]

theorem maxMean_limit (v : Fin n) : G.maxMean infFloat el len v = G.maxMean ⊤ el len v := by
  unfold maxMean
  rw [karpRow_limit bounded le_rfl]
  refine if_ctx_congr Iff.rfl (fun finite => foldl_ext _ _ _ fun best k mem => ?_) fun _ => rfl
  rw [mem_range] at mem
  rw [karpRow_limit bounded mem.le, karpMean_limit bounded v mem]
  refine if_ctx_congr Iff.rfl (fun finiteK => ?_) fun _ => rfl
  have above := karpMean_gt bounded mem finite finiteK
  cases best with
  | none => exact if_congr (iff_of_true (WithTop.coe_lt_coe.2 above) (coe_lt_top _)) rfl rfl
  | some mean => rfl

/-- A node whose mean value is not below `InfFloat` is not selected. -/
theorem karpSelect_limit : G.karpSelect infFloat el len =
    (G.karpSelect ⊤ el len).filter fun best => decide (best.2 < infFloat) := by
  unfold karpSelect
  generalize finRange n = l
  induction l using reverseRecOn with
  | nil => rfl
  | append_singleton l v ih =>
    rw [foldl_append, foldl_append, ih, foldl_cons, foldl_cons, foldl_nil, foldl_nil,
      maxMean_limit bounded v]
    cases G.maxMean ⊤ el len v with
    | none => rfl
    | some mean =>
      generalize foldl _ _ l = best
      cases best with
      | none =>
        by_cases small : mean < infFloat
        · simp [Option.filter_some, small, WithTop.coe_lt_coe]
        · simp [Option.filter_some, small, WithTop.coe_lt_coe]
      | some best =>
        by_cases low : best.2 < infFloat
        · by_cases less : mean < best.2
          · simp [Option.filter_some, low, less, less.trans low]
          · simp [Option.filter_some, low, less]
        · by_cases less : mean < best.2
          · simp [Option.filter_some, low, less, WithTop.coe_lt_coe]
          · have high : ¬ mean < infFloat := fun small => less (small.trans_le (not_lt.1 low))
            simp [Option.filter_some, low, less, high, WithTop.coe_lt_coe]

theorem karpExtract_limit (inTable : k ≤ n) (v : Fin n) (pred : Fin n → Option (Arc m)) :
    G.karpExtract infFloat el len k v pred = G.karpExtract ⊤ el len k v pred := by
  induction k generalizing v pred with
  | zero =>
    unfold karpExtract
    cases pred v <;> rfl
  | succ k ih =>
    unfold karpExtract
    dsimp only
    rw [karpRow_limit bounded inTable]
    cases pred v with
    | some a => rfl
    | none =>
      cases (G.karpRow ⊤ el len (k + 1)).pred v with
      | none => rfl
      | some a => exact ih (by omega) _ _

theorem meanCycle_limit {r : Option (MeanCycle n m)} (result : G.meanCycle ⊤ el len = .ok r)
    (least : ∀ found, r = some found → found.meanValue < infFloat) :
    G.meanCycle infFloat el len = .ok r := by
  unfold meanCycle at result ⊢
  rw [karpSelect_limit bounded]
  cases selected : G.karpSelect ⊤ el len with
  | none =>
    rw [selected] at result
    exact result
  | some best =>
    obtain ⟨v, mean⟩ := best
    rw [selected] at result
    dsimp only at result
    cases found : G.karpExtract ⊤ el len n v fun _ => none with
    | error e =>
      rw [found] at result
      cases result
    | ok pair =>
      rw [found] at result
      cases result
      have small := least _ rfl
      dsimp only at small
      rw [Option.filter_some, if_pos (by simpa using small)]
      dsimp only
      rw [karpExtract_limit bounded le_rfl, found]
      rfl

end

end MixedGraph

namespace DiGraph

variable {n m : ℕ}

/-- **Minimum mean cycles**: the result is empty exactly if the eligible arcs contain no cycle.
Otherwise, the mean value is the least one of all cycles, and it is the mean value of the cycle
which the exported predecessor labels describe. -/
theorem minimumMeanCycle_correct (G : DiGraph n m) (sub : Fin m → ℚ) (delta : ℚ)
    (characteristic : TOptSPX)
    (bounded : G.BoundedWalks (G.eligible sub delta characteristic) (G.redLength fun _ => 0)) :
    ∃ r, G.minimumMeanCycle infFloat sub delta characteristic = .ok r ∧
      (r = none ↔ ¬ ∃ x c,
        IsCycle G.src G.dst (fun a => G.eligible sub delta characteristic a = true) x c) ∧
      ∀ found, r = some found →
        (∀ x c, IsCycle G.src G.dst (fun a => G.eligible sub delta characteristic a = true) x c →
          found.meanValue ≤ (c.map (G.redLength fun _ => 0)).sum / c.length) ∧
        ∃ c, BackPath found.pred G.src found.node found.node c ∧
          IsCycle G.src G.dst (fun a => G.eligible sub delta characteristic a = true)
            found.node c.reverse ∧
          (c.map (G.redLength fun _ => 0)).sum / c.length = found.meanValue := by
  rcases G.meanCycle_spec (G.eligible sub delta characteristic) (G.redLength fun _ => 0) with
    ⟨result, acyclic⟩ | ⟨found, result, means, consistent, c, path, usable, upper⟩
  · refine ⟨none, MixedGraph.meanCycle_limit bounded result (by simp), iff_of_true rfl ?_,
      fun found some => by cases some⟩
    rintro ⟨x, c, cycle⟩
    obtain ⟨v, finite⟩ := MixedGraph.karpRow_finite_of_isCycle
      (G.redLength fun _ => 0) cycle
    exact finite.ne (acyclic v)
  have cycle := path.isCycle consistent usable
  have positive : (0 : ℚ) < c.length := by
    exact_mod_cast length_pos_iff.2 path.ne_nil
  have value : (c.map (G.redLength fun _ => 0)).sum / c.length = found.meanValue := by
    have lower := MixedGraph.mean_le_of_isCycle means cycle
    rw [map_reverse, sum_reverse, length_reverse] at lower
    exact le_antisymm ((div_le_iff₀ positive).2 upper) lower
  refine ⟨some found, MixedGraph.meanCycle_limit bounded result ?_,
    iff_of_false (by simp) fun none => none ⟨_, _, cycle⟩, ?_⟩
  · intro found' same
    cases same
    have short := path.length_le_card consistent
    rw [Fintype.card_fin, ← length_reverse] at short
    have range := (abs_lt.1 (bounded _ _ _ cycle.walk cycle.usable short)).2
    rw [map_reverse, sum_reverse] at range
    have one : (1 : ℚ) ≤ c.length := by exact_mod_cast length_pos_iff.2 path.ne_nil
    rw [← value, div_lt_iff₀ positive]
    nlinarith [infFloat_pos]
  · intro found' same
    cases same
    exact ⟨fun x c => MixedGraph.mean_le_of_isCycle means, c, path, cycle, value⟩

/-- A cycle of two arcs. -/
def twoCycle (length : ℚ) : DiGraph 2 2 :=
  DiGraph.ofArcs ![0, 1] ![1, 0] ![1, 1] ![0, 0] ![length, length] ![0, 0]

theorem minimumMeanCycle_correct_twoCycle :
    (twoCycle 3).BoundedWalks ((twoCycle 3).eligible (fun _ => 0) 0 .plain)
      ((twoCycle 3).redLength fun _ => 0) ∧
    ∃ r, (twoCycle 3).minimumMeanCycle infFloat (fun _ => 0) 0 .plain = .ok r ∧ r ≠ none := by
  have bounded : (twoCycle 3).BoundedWalks ((twoCycle 3).eligible (fun _ => 0) 0 .plain)
      ((twoCycle 3).redLength fun _ => 0) := by
    intro u p v _ _ short
    have each : ∀ a, |(twoCycle 3).redLength (fun _ => 0) a| ≤ 3 := by
      rintro ⟨e, back⟩
      revert e back
      decide +kernel
    have sum : ∀ p : List (Arc 2),
        |(p.map ((twoCycle 3).redLength fun _ => 0)).sum| ≤ 3 * p.length := by
      intro p
      induction p with
      | nil => simp
      | cons a p ih =>
        rw [map_cons, sum_cons, length_cons]
        push_cast
        exact (abs_add_le _ _).trans (by linarith [each a])
    have few : (p.length : ℚ) ≤ 2 := by exact_mod_cast short
    refine (sum p).trans_lt ?_
    rw [infFloat]
    linarith
  obtain ⟨r, result, found, -⟩ := minimumMeanCycle_correct (twoCycle 3) (fun _ => 0) 0 .plain bounded
  exact ⟨bounded, r, result, fun none => found.1 none ⟨0, [⟨0, false⟩, ⟨1, false⟩], by simp,
    ⟨rfl, rfl, rfl⟩, by decide +kernel⟩⟩

/-- A cycle that is too long for the table is not found. -/
theorem minimumMeanCycle_misses_twoCycle :
    ((twoCycle (6 * 10 ^ 49)).minimumMeanCycle infFloat (fun _ => 0) 0 .plain).map Option.isNone =
      .ok true ∧
    IsCycle (twoCycle (6 * 10 ^ 49)).src (twoCycle (6 * 10 ^ 49)).dst
      (fun a => (twoCycle (6 * 10 ^ 49)).eligible (fun _ => 0) 0 .plain a = true) 0
      [⟨0, false⟩, ⟨1, false⟩] :=
  ⟨by decide +kernel, by simp, ⟨rfl, rfl, rfl⟩, by decide +kernel⟩

end DiGraph

end Goblin
