import Goblin.Library.ShortestPath
import Mathlib.Algebra.Order.BigOperators.Group.List
import Mathlib.Algebra.Order.Monoid.WithTop

/-!
# Labels below a limit

A search that keeps its labels in numbers of a limited range has a value which stands for the nodes
without a label, and it does not store sums that are not less than this value. If no label gets
there, then the limit is of no effect.

A node gets its first label from a node that is labelled already. So this label is at most the
length of a walk from a source on which no node occurs twice (`Anchored.relax`), and later labels
are smaller. Hence a limit on the lengths of these walks bounds the labels (`Anchored.lt`), even if
there are cycles of negative length.

If the limit is of effect, then the labels are the lengths of walks that stay below it (`LowWalk`).
-/

set_option autoImplicit false

namespace Goblin.Library

open List Function
universe u v w

variable {V : Type v} {A : Type u} {K : Type w} (src dst : A → V) (usable : A → Prop) (S : V → Prop)

/-- A walk from a source that meets no other source, and no node twice. -/
structure FirstWalk (x : V) (p : List A) (v : V) : Prop where
  source : S x
  walk : IsWalk src dst x p v
  usable : ∀ a ∈ p, usable a
  fresh : ∀ a ∈ p, ¬ S (dst a)
  nodup : (p.map dst).Nodup

theorem FirstWalk.nil {x : V} (source : S x) : FirstWalk src dst usable S x [] x :=
  ⟨source, rfl, by simp, by simp, by simp⟩

section

variable [AddCommGroup K] [LinearOrder K] (len : A → K)

/-- The walks of this kind are shorter than the limit. -/
def WalksBelow (limit : WithTop K) : Prop :=
  ∀ x p v, FirstWalk src dst usable S x p v → ((p.map len).sum : WithTop K) < limit

/-- Every label is at most the length of such a walk through labelled nodes. -/
def Anchored (dist : V → WithTop K) : Prop :=
  ∀ v (d : K), dist v = (d : WithTop K) → ∃ x p, FirstWalk src dst usable S x p v ∧
    (∀ a ∈ p, dist (dst a) ≠ ⊤) ∧ d ≤ (p.map len).sum

variable {src dst usable S len} {dist : V → WithTop K} {limit : WithTop K}

theorem walksBelow_top : WalksBelow src dst usable S len ⊤ := fun _ _ _ _ => WithTop.coe_lt_top _

/-- Without other nodes than sources, there are no arcs on such walks. -/
theorem walksBelow_of_forall (all : ∀ v, S v) (pos : 0 < limit) :
    WalksBelow src dst usable S len limit := by
  rintro x p v first
  have empty : p = [] := eq_nil_iff_forall_not_mem.2 fun a mem => first.fresh a mem (all _)
  rw [empty]
  simpa using pos

theorem Anchored.init (sources : ∀ v, dist v ≠ ⊤ → S v) (atSources : ∀ v, S v → dist v ≤ 0) :
    Anchored src dst usable S len dist := by
  intro v d val
  have source := sources v (by simp [val])
  refine ⟨v, [], .nil src dst usable S source, by simp, ?_⟩
  have low := atSources v source
  rw [val] at low
  exact_mod_cast low

theorem Anchored.lt (anchored : Anchored src dst usable S len dist)
    (below : WalksBelow src dst usable S len limit) {v : V} (labelled : dist v ≠ ⊤) :
    dist v < limit := by
  obtain ⟨d, val⟩ := WithTop.ne_top_iff_exists.1 labelled
  obtain ⟨x, p, first, -, le⟩ := anchored v d val.symm
  rw [← val]
  exact (WithTop.coe_le_coe.2 le).trans_lt (below x p v first)

variable [IsOrderedAddMonoid K]

/-- On `n` nodes, no such walk is longer than `n` arcs of the greatest length. -/
theorem walksBelow_of_card [Fintype V] {c : K} (nonneg : 0 ≤ c)
    (small : ∀ a, usable a → len a ≤ c) (few : ((Fintype.card V • c : K) : WithTop K) < limit) :
    WalksBelow src dst usable S len limit := by
  intro x p v first
  have count : p.length ≤ Fintype.card V := by
    simpa using first.nodup.length_le_card
  have sum := sum_le_card_nsmul (p.map len) c fun y mem => by
    obtain ⟨a, inWalk, rfl⟩ := mem_map.1 mem
    exact small a (first.usable a inWalk)
  rw [length_map] at sum
  exact (WithTop.coe_le_coe.2 (sum.trans (nsmul_le_nsmul_left nonneg count))).trans_lt few

section

variable (anchored : Anchored src dst usable S len dist) (sources : ∀ v, S v → dist v ≠ ⊤)
  {a : A} (known : dist (src a) ≠ ⊤) (allowed : usable a)
include anchored sources known allowed

/-- The walk to a node that is labelled for the first time. -/
theorem Anchored.extend (absent : dist (dst a) = ⊤) :
    ∃ x p, FirstWalk src dst usable S x (p ++ [a]) (dst a) ∧ (∀ b ∈ p, dist (dst b) ≠ ⊤) ∧
      dist (src a) + (len a : WithTop K) ≤ (((p ++ [a]).map len).sum : K) := by
  obtain ⟨d, val⟩ := WithTop.ne_top_iff_exists.1 known
  obtain ⟨x, p, first, labelled, le⟩ := anchored _ d val.symm
  refine ⟨x, p, ⟨first.source, isWalk_concat.2 ⟨first.walk, rfl⟩, ?_, ?_, ?_⟩, labelled, ?_⟩
  · intro b mem
    rcases mem_append.1 mem with before | last
    · exact first.usable b before
    · rwa [mem_singleton.1 last]
  · intro b mem
    rcases mem_append.1 mem with before | last
    · exact first.fresh b before
    · rw [mem_singleton.1 last]
      exact fun source => sources _ source absent
  · rw [map_append, map_singleton, nodup_append]
    refine ⟨first.nodup, nodup_singleton _, ?_⟩
    rintro y mem _ last rfl
    obtain ⟨b, inPath, eq⟩ := mem_map.1 mem
    rw [mem_singleton.1 last] at eq
    exact labelled b inPath (eq ▸ absent)
  · rw [← val]
    simp only [map_append, map_singleton, sum_append, sum_singleton]
    exact_mod_cast add_le_add_left le (len a)

/-- **A new label is below the limit.** -/
theorem Anchored.label_lt (below : WalksBelow src dst usable S len limit)
    (less : dist (src a) + (len a : WithTop K) < dist (dst a)) :
    dist (src a) + (len a : WithTop K) < limit := by
  by_cases absent : dist (dst a) = ⊤
  · obtain ⟨x, p, first, -, le⟩ := anchored.extend sources known allowed absent
    exact le.trans_lt (below x _ _ first)
  · exact less.trans (anchored.lt below absent)

/-- **A correction keeps the labels anchored.** -/
theorem Anchored.relax [DecidableEq V]
    (less : dist (src a) + (len a : WithTop K) < dist (dst a)) :
    Anchored src dst usable S len
      (update dist (dst a) (dist (src a) + (len a : WithTop K))) := by
  have lower : update dist (dst a) (dist (src a) + (len a : WithTop K)) ≤ dist :=
    update_le_self_iff.2 less.le
  have keeps : ∀ u, dist u ≠ ⊤ →
      update dist (dst a) (dist (src a) + (len a : WithTop K)) u ≠ ⊤ := fun u labelled =>
    ne_top_of_le_ne_top labelled (lower u)
  intro v d val
  by_cases here : v = dst a
  · subst here
    rw [update_self] at val
    by_cases absent : dist (dst a) = ⊤
    · obtain ⟨x, p, first, labelled, le⟩ := anchored.extend sources known allowed absent
      refine ⟨x, _, first, fun b mem => ?_, ?_⟩
      · rcases mem_append.1 mem with before | last
        · exact keeps _ (labelled b before)
        · rw [mem_singleton.1 last, update_self]
          exact ne_top_of_lt less
      · rw [val] at le
        exact_mod_cast le
    · obtain ⟨old, former⟩ := WithTop.ne_top_iff_exists.1 absent
      obtain ⟨x, p, first, labelled, le⟩ := anchored _ old former.symm
      refine ⟨x, p, first, fun b mem => keeps _ (labelled b mem), le_trans ?_ le⟩
      rw [val, ← former] at less
      exact_mod_cast less.le
  · rw [update_of_ne here] at val
    obtain ⟨x, p, first, labelled, le⟩ := anchored v d val
    exact ⟨x, p, first, fun b mem => keeps _ (labelled b mem), le⟩

end

end

/-! ## Walks that stay below the limit -/

section

variable [AddCommGroup K] [LinearOrder K] (len : A → K) (limit : K) (s : V)

/-- A walk from `s` on which no sum of lengths gets to the limit. -/
structure LowWalk (p : List A) (v : V) : Prop where
  walk : IsWalk src dst s p v
  usable : ∀ a ∈ p, usable a
  low : ∀ q, q <+: p → (q.map len).sum < limit

variable {src dst usable len limit s} {p q c : List A} {v x : V} {a : A}

theorem LowWalk.of_prefix (low : LowWalk src dst usable len limit s (p ++ q) v)
    (first : IsWalk src dst s p x) : LowWalk src dst usable len limit s p x :=
  ⟨first, fun a mem => low.usable a (mem_append_left _ mem), fun r initial =>
    low.low r (initial.trans (prefix_append p q))⟩

theorem LowWalk.concat (low : LowWalk src dst usable len limit s p (src a)) (allowed : usable a)
    (below : (p.map len).sum + len a < limit) :
    LowWalk src dst usable len limit s (p ++ [a]) (dst a) := by
  refine ⟨isWalk_concat.2 ⟨low.walk, rfl⟩, fun b mem => ?_, fun q initial => ?_⟩
  · rcases mem_append.1 mem with before | last
    · exact low.usable b before
    · rwa [mem_singleton.1 last]
  · rcases prefix_concat_iff.1 initial with rfl | before
    · simpa using below
    · exact low.low q before

variable [IsOrderedAddMonoid K]

/-- A cycle that is not negative can be left out. -/
theorem LowWalk.cut (low : LowWalk src dst usable len limit s (p ++ (c ++ q)) v)
    (first : IsWalk src dst s p x) (last : IsWalk src dst x q v) (nonneg : 0 ≤ (c.map len).sum) :
    LowWalk src dst usable len limit s (p ++ q) v := by
  refine ⟨isWalk_append.2 ⟨x, first, last⟩, fun a mem => low.usable a ?_, fun r initial => ?_⟩
  · simp only [mem_append] at mem ⊢
    exact mem.imp_right .inr
  · rcases prefix_or_prefix_of_prefix initial (prefix_append p q) with before | ⟨t, rfl⟩
    · exact low.low r (before.trans (prefix_append _ _))
    · have rest := (prefix_append_right_inj p).1 initial
      have whole := low.low (p ++ (c ++ t))
        ((prefix_append_right_inj p).2 ((prefix_append_right_inj c).2 rest))
      simp only [map_append, sum_append] at whole ⊢
      exact lt_of_le_of_lt (by gcongr; exact le_add_of_nonneg_left nonneg) whole

theorem LowWalk.exists_short [Fintype V] (low : LowWalk src dst usable len limit s p v)
    (nonneg : ∀ x p c, IsWalk src dst s p x → IsCycle src dst usable x c →
      LowWalk src dst usable len limit s (p ++ c) x → 0 ≤ (c.map len).sum) :
    ∃ q, LowWalk src dst usable len limit s q v ∧ q.length < Fintype.card V ∧
      (q.map len).sum ≤ (p.map len).sum := by
  induction size : p.length using Nat.strong_induction_on generalizing p with
  | _ k ih =>
    by_cases short : p.length < Fintype.card V
    · exact ⟨p, low, short, le_rfl⟩
    have again : ¬ (s :: p.map dst).Nodup := by
      intro nodup
      have bound := nodup.length_le_card
      rw [length_cons, length_map] at bound
      omega
    obtain ⟨p1, c, p2, x, rfl, ne, first, closed, second⟩ := low.walk.exists_cycle again
    have around : LowWalk src dst usable len limit s (p1 ++ c) x := by
      rw [← append_assoc] at low
      exact low.of_prefix (isWalk_append.2 ⟨x, first, closed⟩)
    have gain := nonneg x p1 c first
      ⟨ne, closed, fun a mem => around.usable a (mem_append_right _ mem)⟩ around
    have cut : (p1 ++ p2).length < k := by
      have pos := length_pos_iff.2 ne
      simp only [length_append] at size ⊢
      omega
    obtain ⟨q, qLow, qShort, qSum⟩ := ih _ cut (low.cut first second gain) rfl
    refine ⟨q, qLow, qShort, qSum.trans ?_⟩
    simp only [map_append, sum_append]
    gcongr
    exact le_add_of_nonneg_left gain

end

end Goblin.Library
