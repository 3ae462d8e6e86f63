import Goblin.Library.Walk

/-!
# Shrinking and expanding cycles

Some nodes have a label, and `up` tells from which node a label comes. A node is rooted if the
labels can be read back from it to a node without a label. When no cycle of labels exists, all
nodes are rooted.

A new label that closes a cycle destroys this. It is restored when the nodes on the cycle are
replaced by a new node without a label (`Rooted.collapse`).
-/

set_option autoImplicit false

namespace Goblin.Library

open List Function

universe u v

variable {V : Type v} {A : Type u} {label label' : V → Option A} {up up' : A → V} {t r w : V}
  {p q : List A} {u v x : V} {a : A}

/-- The labels can be read back to a node without a label. -/
def Rooted (label : V → Option A) (up : A → V) (t : V) : Prop :=
  ∃ p r, ReadsTo label up t p r ∧ label r = none

theorem Rooted.self (root : label t = none) : Rooted label up t := ⟨[], t, rfl, root⟩

theorem Rooted.append (reads : ReadsTo label up t p w) (rooted : Rooted label up w) :
    Rooted label up t := by
  obtain ⟨q, r, rest, root⟩ := rooted
  exact ⟨p ++ q, r, reads.append rest, root⟩

theorem ReadsTo.congr_src (reads : ReadsTo label up t p r) (eq : ∀ a ∈ p, up' a = up a) :
    ReadsTo label up' t p r := by
  induction p generalizing t with
  | nil => exact reads
  | cons a p ih =>
    refine ⟨reads.1, ?_⟩
    rw [eq a mem_cons_self]
    exact ih reads.2 fun b mem => eq b (mem_cons_of_mem a mem)

theorem ReadsTo.congr_nodes (reads : ReadsTo label up t p r)
    (eq : ∀ x ∈ t :: p.map up, label' x = label x) : ReadsTo label' up t p r := by
  induction p generalizing t with
  | nil => exact reads
  | cons a p ih =>
    refine ⟨(eq t mem_cons_self).trans reads.1, ih reads.2 fun x met => ?_⟩
    exact eq x (mem_cons_of_mem t met)

/-- The label of a node is not read on the way to this node. -/
theorem BackPath.readsTo_drop [DecidableEq V] (path : BackPath label up u w p)
    (other : w ≠ u) : ReadsTo (update label u none) up w p u := by
  induction path with
  | @last w a known arrived =>
    refine ⟨?_, arrived⟩
    rw [update_of_ne other, known]
  | @step w a p known onward _ ih =>
    refine ⟨?_, ih onward⟩
    rw [update_of_ne other, known]

theorem ReadsTo.nodup_of_root (reads : ReadsTo label up t p r) (root : label r = none) :
    (t :: p.map up).Nodup := by
  rcases reads.nodup_or_cycle with ne | ⟨c, nonempty, cycle⟩
  · exact ne
  cases c with
  | nil => exact absurd rfl nonempty
  | cons b c =>
    have again := cycle.1
    rw [root] at again
    cases again

/-- **A new label** at a root `v`, from a node that is not below `v`. -/
theorem Rooted.assign [DecidableEq V] (rooted : Rooted label up t) (fresh : label v = none)
    (reads : ReadsTo label up (up a) p r) (root : label r = none)
    (other : r ≠ v) : Rooted (update label v (some a)) up t := by
  have keep : ∀ y b, label y = some b → update label v (some a) y = some b := by
    intro y b known
    rw [update_of_ne, known]
    rintro rfl
    rw [fresh] at known
    cases known
  obtain ⟨q, r', reads', root'⟩ := rooted
  by_cases here : r' = v
  · have onward : ReadsTo (update label v (some a)) up r' (a :: p) r :=
      ⟨by rw [here]; exact update_self _ _ _, reads.mono keep⟩
    refine ⟨q ++ a :: p, r, (reads'.mono keep).append onward, ?_⟩
    rw [update_of_ne other, root]
  · exact ⟨q, r', reads'.mono keep, by rw [update_of_ne here, root']⟩

theorem ReadsTo.single (first : label t = some a) : ReadsTo label up t [a] (up a) :=
  ⟨first, rfl⟩

/-- **Shrinking.** The nodes in `C` are replaced by a new node `c`. -/
theorem Rooted.collapse {C : Set V} {c : V} (rooted : Rooted label up t)
    (inner : ∀ a, up a ∈ C → up' a = c) (outer : ∀ a, up a ∉ C → up' a = up a)
    (eq : ∀ x, x ∉ C → label' x = label x) (root : label' c = none) (out : t ∉ C) :
    Rooted label' up' t := by
  obtain ⟨p, r, reads, end_⟩ := rooted
  induction p generalizing t with
  | nil =>
    cases reads
    exact .self ((eq _ out).trans end_)
  | cons a p ih =>
    have first : label' t = some a := (eq t out).trans reads.1
    refine Rooted.append (ReadsTo.single first) ?_
    by_cases inside : up a ∈ C
    · rw [inner a inside]
      exact .self root
    · rw [outer a inside]
      exact ih inside reads.2

/-- The node `s` is replaced by the nodes in `C`. -/
structure Replaces (label label' : V → Option A) (up up' : A → V) (s : V) (C : Set V) : Prop where
  inner : ∀ a, up a = s → up' a ∈ C
  outer : ∀ a, up a ≠ s → up' a = up a
  same : ∀ x, x ∉ C → label' x = label x
  apart : ∀ a, up a ∉ C

variable {s : V} {C : Set V}

theorem Replaces.rooted_of_avoids (replaces : Replaces label label' up up' s C)
    (reads : ReadsTo label up t p r) (root : label r = none) (out : t ∉ C)
    (avoids : s ∉ p.map up) : Rooted label' up' t := by
  induction p generalizing t with
  | nil =>
    cases reads
    exact .self ((replaces.same _ out).trans root)
  | cons a p ih =>
    rw [map_cons, mem_cons, not_or] at avoids
    have first : label' t = some a := (replaces.same t out).trans reads.1
    refine Rooted.append (ReadsTo.single first) ?_
    rw [replaces.outer a (Ne.symm avoids.1)]
    exact ih reads.2 (replaces.apart a) avoids.2

/-- **Expanding.** If the nodes of `C` are rooted then so are all others. -/
theorem Replaces.rooted (replaces : Replaces label label' up up' s C)
    (members : ∀ y ∈ C, Rooted label' up' y) (rooted : Rooted label up t) (out : t ∉ C)
    (other : t ≠ s) : Rooted label' up' t := by
  obtain ⟨p, r, reads, root⟩ := rooted
  induction p generalizing t with
  | nil =>
    cases reads
    exact .self ((replaces.same _ out).trans root)
  | cons a p ih =>
    have first : label' t = some a := (replaces.same t out).trans reads.1
    refine Rooted.append (ReadsTo.single first) ?_
    by_cases meets : up a = s
    · exact members _ (replaces.inner a meets)
    · rw [replaces.outer a meets]
      exact ih (replaces.apart a) meets reads.2

/-! ## Cycles -/

theorem ReadsTo.label_or_end (reads : ReadsTo label up w p r)
    (met : x ∈ w :: p.map up) : x = r ∨ ∃ a ∈ p, label x = some a := by
  induction p generalizing w with
  | nil =>
    cases reads
    exact .inl (mem_singleton.1 met)
  | cons a p ih =>
    rcases mem_cons.1 met with rfl | later
    · exact .inr ⟨a, mem_cons_self, reads.1⟩
    · rcases ih reads.2 later with last | ⟨b, mem, known⟩
      · exact .inl last
      · exact .inr ⟨b, mem_cons_of_mem a mem, known⟩

/-- A cycle of labels. -/
structure LabelCycle (label : V → Option A) (up : A → V) (q : List A) : Prop where
  nonempty : q ≠ []
  closed : ∃ u, ReadsTo label up u q u

theorem ReadsTo.exists_node (reads : ReadsTo label up w p r) (mem : a ∈ p) :
    ∃ x ∈ w :: p.map up, label x = some a := by
  induction p generalizing w with
  | nil => cases mem
  | cons b p ih =>
    rcases mem_cons.1 mem with rfl | later
    · exact ⟨w, mem_cons_self, reads.1⟩
    · obtain ⟨x, met, known⟩ := ih reads.2 later
      exact ⟨x, mem_cons_of_mem w met, known⟩

namespace LabelCycle

variable {ρ : V}

section

variable (cycle : LabelCycle label up q)
include cycle

theorem nodes (reads : ReadsTo label up u q u) : x ∈ u :: q.map up ↔ x ∈ q.map up := by
  refine ⟨fun met => ?_, mem_cons_of_mem u⟩
  rcases mem_cons.1 met with rfl | mem
  · have ne := cycle.nonempty
    cases q with
    | nil => exact absurd rfl ne
    | cons a q =>
      have last := reads.2.end_mem
      rwa [← map_cons] at last
  · exact mem

theorem exists_node (mem : a ∈ q) : ∃ x ∈ q.map up, label x = some a := by
  obtain ⟨u, reads⟩ := cycle.closed
  obtain ⟨x, met, known⟩ := reads.exists_node mem
  exact ⟨x, (cycle.nodes reads).1 met, known⟩

theorem congr_nodes (eq : ∀ x ∈ q.map up, label' x = label x) : LabelCycle label' up q := by
  obtain ⟨u, reads⟩ := cycle.closed
  exact ⟨cycle.nonempty, u, reads.congr_nodes fun x met => eq x ((cycle.nodes reads).1 met)⟩

theorem congr_src (eq : ∀ a ∈ q, up' a = up a) : LabelCycle label up' q := by
  obtain ⟨u, reads⟩ := cycle.closed
  exact ⟨cycle.nonempty, u, reads.congr_src eq⟩

end

/-- The label of a node, and what is read from there on until the node is met again. -/
theorem of_closes (reads : ReadsTo label up u p v) (known : label v = some a)
    (closes : up a = u) : LabelCycle label up (p ++ [a]) :=
  ⟨by simp, u, reads.append ⟨known, closes⟩⟩

section

variable (cycle : LabelCycle label up q)
include cycle

theorem exists_label (mem : x ∈ q.map up) : ∃ a ∈ q, label x = some a := by
  obtain ⟨u, reads⟩ := cycle.closed
  rcases reads.label_or_end (mem_cons_of_mem u mem) with rfl | found
  · obtain ⟨a, q, rfl⟩ := exists_cons_of_ne_nil cycle.nonempty
    exact ⟨a, mem_cons_self, reads.1⟩
  · exact found

theorem exists_path {y : V} (start : y ∈ q.map up)
    (goal : ρ ∈ q.map up) : y = ρ ∨ ∃ c, BackPath label up ρ y c := by
  obtain ⟨u, reads⟩ := cycle.closed
  obtain ⟨front, rest, nodes⟩ := append_of_mem (mem_cons_of_mem u start)
  obtain ⟨q1, c, -, -, onward, -⟩ := reads.split nodes
  have whole := onward.append reads
  have met : ρ ∈ y :: (c ++ q).map up := by
    rw [map_append]
    exact mem_cons_of_mem y (mem_append_right _ goal)
  rcases whole.exists_cut met with eq | ⟨c', d, -, path, -⟩
  · exact .inl eq.symm
  · exact .inr ⟨c', path⟩

theorem rooted (goal : ρ ∈ q.map up)
    (rooted : Rooted label' up ρ) (eq : ∀ x ∈ q.map up, x ≠ ρ → label' x = label x) :
    ∀ y ∈ q.map up, Rooted label' up y := by
  intro y start
  rcases cycle.exists_path start goal with rfl | ⟨c, path⟩
  · exact rooted
  by_cases here : y = ρ
  · rw [here]
    exact rooted
  induction path with
  | @last w a known arrived =>
    have first := (eq w start here).trans known
    refine Rooted.append (ReadsTo.single first) ?_
    rw [arrived]
    exact rooted
  | @step w a p known onward _ ih =>
    have first := (eq w start here).trans known
    obtain ⟨b, mem, known'⟩ := cycle.exists_label start
    cases known.symm.trans known'
    exact Rooted.append (ReadsTo.single first) (ih (mem_map_of_mem mem) onward)

end

end LabelCycle

end Goblin.Library
