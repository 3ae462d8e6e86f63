import Goblin.Library.Network

/-!
# Walks and predecessor labels

A walk is a list of arcs in which every arc starts where the previous one
ends. Search procedures do not store walks; they store, at every node, the arc
by which the node was reached. Reading these predecessor labels backwards from
a node, until a given start node is met for the first time, yields the arcs of
a walk in reverse order (`BackPath`).
-/

set_option autoImplicit false

namespace Goblin.Library

open List
universe u v w

/-! ## Walks -/

section Walk

variable {V : Type v} {A : Type u}

/-- `IsWalk src dst u p v`: the arcs of `p` lead from `u` to `v`. -/
def IsWalk (src dst : A → V) : V → List A → V → Prop
  | u, [], v => u = v
  | u, a :: p, v => src a = u ∧ IsWalk src dst (dst a) p v

variable {src dst : A → V} {u v : V} {a : A} {p : List A}

@[simp] theorem isWalk_nil : IsWalk src dst u [] v ↔ u = v := Iff.rfl

@[simp] theorem isWalk_cons :
    IsWalk src dst u (a :: p) v ↔ src a = u ∧ IsWalk src dst (dst a) p v := Iff.rfl

theorem isWalk_append {q : List A} :
    IsWalk src dst u (p ++ q) v ↔ ∃ x, IsWalk src dst u p x ∧ IsWalk src dst x q v := by
  induction p generalizing u with
  | nil => simp
  | cons a p ih =>
    simp only [cons_append, isWalk_cons, ih]
    constructor
    · rintro ⟨start, x, first, second⟩
      exact ⟨x, ⟨start, first⟩, second⟩
    · rintro ⟨x, ⟨start, first⟩, second⟩
      exact ⟨start, x, first, second⟩

theorem isWalk_concat : IsWalk src dst u (p ++ [a]) v ↔ IsWalk src dst u p (src a) ∧ dst a = v := by
  rw [isWalk_append]
  constructor
  · rintro ⟨x, walk, rfl, last⟩
    exact ⟨walk, last⟩
  · rintro ⟨walk, last⟩
    exact ⟨src a, walk, rfl, last⟩

/-- A property that passes along the arcs of a walk holds at its end. -/
theorem IsWalk.transport {P : V → Prop} (walk : IsWalk src dst u p v) (start : P u)
    (step : ∀ a ∈ p, P (src a) → P (dst a)) : P v := by
  induction p generalizing u with
  | nil => exact walk ▸ start
  | cons a p ih =>
    obtain ⟨rfl, rest⟩ := walk
    exact ih rest (step a mem_cons_self start) fun b mem => step b (mem_cons_of_mem _ mem)

theorem IsWalk.sum_sub {K : Type w} [AddCommGroup K] (walk : IsWalk src dst u p v) (g : V → K) :
    (p.map fun a => g (dst a) - g (src a)).sum = g v - g u := by
  induction p generalizing u with
  | nil =>
    rw [isWalk_nil] at walk
    simp [walk]
  | cons a p ih =>
    obtain ⟨rfl, rest⟩ := walk
    rw [map_cons, sum_cons, ih rest]
    abel

theorem IsWalk.exists_simple [DecidableEq V] (walk : IsWalk src dst u p v) :
    ∃ q, IsWalk src dst u q v ∧ q ⊆ p ∧ (u :: q.map dst).Nodup := by
  induction p generalizing u with
  | nil => exact ⟨[], walk, List.Subset.refl _, by simp⟩
  | cons a p ih =>
    obtain ⟨rfl, rest⟩ := walk
    obtain ⟨q, qWalk, subset, nodup⟩ := ih rest
    by_cases again : src a ∈ dst a :: q.map dst
    · -- the tail returns to the first node: start from its last visit
      have suffix : ∀ (x : V) (r : List A), IsWalk src dst x r v → (x :: r.map dst).Nodup →
          src a ∈ x :: r.map dst → ∃ r', IsWalk src dst (src a) r' v ∧ r' ⊆ r ∧
            (src a :: r'.map dst).Nodup := by
        intro x r
        induction r generalizing x with
        | nil =>
          intro rWalk rNodup mem
          rw [map_nil, mem_singleton] at mem
          exact ⟨[], mem ▸ rWalk, List.Subset.refl _, by simp⟩
        | cons b r ihr =>
          intro rWalk rNodup mem
          by_cases here : src a = x
          · exact ⟨b :: r, here ▸ rWalk, List.Subset.refl _, by rw [here]; exact rNodup⟩
          · obtain ⟨r', walk', subset', nodup'⟩ := ihr (dst b) rWalk.2 (nodup_cons.1 rNodup).2
              ((mem_cons.1 mem).resolve_left here)
            exact ⟨r', walk', fun y hy => mem_cons_of_mem _ (subset' hy), nodup'⟩
      obtain ⟨r, rWalk, rSubset, rNodup⟩ := suffix (dst a) q qWalk nodup again
      exact ⟨r, rWalk, fun y hy => mem_cons_of_mem _ (subset (rSubset hy)), rNodup⟩
    · refine ⟨a :: q, ⟨rfl, qWalk⟩, ?_, ?_⟩
      · exact cons_subset_cons a subset
      · rw [map_cons]
        exact nodup_cons.2 ⟨again, nodup⟩

theorem IsWalk.exists_split {x : V} (walk : IsWalk src dst u p v) (visited : x ∈ u :: p.map dst) :
    ∃ p1 p2, p = p1 ++ p2 ∧ IsWalk src dst u p1 x ∧ IsWalk src dst x p2 v := by
  induction p generalizing u with
  | nil =>
    rw [map_nil, mem_singleton] at visited
    subst visited
    exact ⟨[], [], rfl, rfl, walk⟩
  | cons a p ih =>
    rcases mem_cons.1 visited with rfl | later
    · exact ⟨[], a :: p, rfl, rfl, walk⟩
    · obtain ⟨p1, p2, rfl, first, second⟩ := ih walk.2 later
      exact ⟨a :: p1, p2, rfl, ⟨walk.1, first⟩, second⟩

theorem IsWalk.exists_cycle (walk : IsWalk src dst u p v) (again : ¬ (u :: p.map dst).Nodup) :
    ∃ p1 c p2 x, p = p1 ++ (c ++ p2) ∧ c ≠ [] ∧ IsWalk src dst u p1 x ∧
      IsWalk src dst x c x ∧ IsWalk src dst x p2 v := by
  induction p generalizing u with
  | nil => exact absurd (nodup_singleton u) again
  | cons a p ih =>
    by_cases back : u ∈ dst a :: p.map dst
    · obtain ⟨c, p2, rfl, first, second⟩ := walk.2.exists_split back
      exact ⟨[], a :: c, p2, u, rfl, by simp, rfl, ⟨walk.1, first⟩, second⟩
    · have later : ¬ (dst a :: p.map dst).Nodup := by
        intro nodup
        exact again (nodup_cons.2 ⟨back, nodup⟩)
      obtain ⟨p1, c, p2, x, rfl, ne, first, cycle, second⟩ := ih walk.2 later
      exact ⟨a :: p1, c, p2, x, rfl, ne, ⟨walk.1, first⟩, cycle, second⟩

end Walk

/-! ## Pushing along walks -/

section PushWalk

variable {V : Type v} {E : Type u} {K : Type w} [AddCommGroup K]
  [Fintype E] [DecidableEq V] [DecidableEq E] {u : V} {p q : List (Dart E)}

/-- Pushing along a walk, in any order of its darts, moves the amount from its
first node to its last one. -/
theorem div_pushAll_of_walk (N : Network V E) (f : E → K) {v : V} (walk : IsWalk N.src N.dst u q v)
    (perm : p.Perm q) (x : K) (w : V) : div N (pushAll f p x) w =
      div N f w + ((if v = w then x else 0) - (if u = w then x else 0)) := by
  rw [div_pushAll, (perm.map _).sum_eq]
  congr 1
  exact walk.sum_sub fun y => if y = w then x else 0

theorem div_pushAll_of_closed (N : Network V E) (f : E → K) (walk : IsWalk N.src N.dst u q u)
    (perm : p.Perm q) (x : K) (w : V) : div N (pushAll f p x) w = div N f w := by
  rw [div_pushAll_of_walk N f walk perm, sub_self, add_zero]

end PushWalk

/-! ## Predecessor labels -/

section BackPath

variable {V : Type v} {A : Type u}

/-- `BackPath pred src u w p`: following the predecessor labels from `w` reads
the arcs of `p`, in this order, and meets `u` for the first time after the last
of them. -/
inductive BackPath (pred : V → Option A) (src : A → V) (u : V) : V → List A → Prop where
  | last {w : V} {a : A} (label : pred w = some a) (arrived : src a = u) : BackPath pred src u w [a]
  | step {w : V} {a : A} {p : List A} (label : pred w = some a) (onward : src a ≠ u)
      (rest : BackPath pred src u (src a) p) : BackPath pred src u w (a :: p)

variable {pred : V → Option A} {src dst : A → V} {u w : V} {p q : List A} {a : A}
  {pred' : V → Option A} {x y : V}

namespace BackPath

theorem ne_nil (path : BackPath pred src u w p) : p ≠ [] := by
  cases path <;> simp

theorem label_head (path : BackPath pred src u w (a :: p)) : pred w = some a := by
  cases path with
  | last label _ | step label _ _ => exact label

/-- The labels determine the arcs that are read. -/
theorem unique (path : BackPath pred src u w p) (other : BackPath pred src u w q) : p = q := by
  induction path generalizing q with
  | last label arrived =>
    cases other with
    | last label' _ =>
      cases label.symm.trans label'
      rfl
    | step label' onward _ =>
      cases label.symm.trans label'
      exact absurd arrived onward
  | step label onward _ ih =>
    cases other with
    | last label' arrived =>
      cases label.symm.trans label'
      exact absurd arrived onward
    | step label' _ rest =>
      cases label.symm.trans label'
      rw [ih rest]

section

variable (consistent : ∀ x a, pred x = some a → dst a = x)
include consistent

section

variable (path : BackPath pred src u w p)
include path

theorem label_of_mem (mem : a ∈ p) : pred (dst a) = some a := by
  induction path with
  | last label _ =>
    cases mem_singleton.1 mem
    rw [consistent _ _ label]
    exact label
  | step label _ _ ih =>
    rcases mem_cons.1 mem with rfl | later
    · rw [consistent _ _ label]
      exact label
    · exact ih later

theorem exists_suffix (mem : a ∈ p) : ∃ q, BackPath pred src u (dst a) q ∧ q <:+ p := by
  induction path with
  | last label arrived =>
    cases mem_singleton.1 mem
    rw [consistent _ _ label]
    exact ⟨_, .last label arrived, suffix_refl _⟩
  | @step w b p label onward rest ih =>
    rcases mem_cons.1 mem with rfl | later
    · rw [consistent _ _ label]
      exact ⟨_, .step label onward rest, suffix_refl _⟩
    · obtain ⟨q, path, suffix⟩ := ih later
      exact ⟨q, path, suffix.trans (suffix_cons _ _)⟩

theorem nodup : (p.map dst).Nodup := by
  induction path with
  | last _ _ => simp
  | @step w b p label onward rest ih =>
    rw [map_cons, nodup_cons]
    refine ⟨?_, ih⟩
    intro again
    obtain ⟨a, mem, eq⟩ := mem_map.1 again
    obtain ⟨q, path, suffix⟩ := rest.exists_suffix consistent mem
    rw [eq, consistent _ _ label] at path
    have equal : q = b :: p := path.unique (.step label onward rest)
    have short := suffix.length_le
    rw [equal, length_cons] at short
    omega

end

end

theorem length_le_card [Fintype V] (consistent : ∀ x a, pred x = some a → dst a = x)
    (path : BackPath pred src u w p) : p.length ≤ Fintype.card V := by
  have bound := (path.nodup consistent).length_le_card
  rwa [length_map] at bound

theorem isWalk (consistent : ∀ x a, pred x = some a → dst a = x)
    (path : BackPath pred src u w p) : IsWalk src dst u p.reverse w := by
  induction path with
  | last label arrived => exact ⟨arrived, consistent _ _ label⟩
  | step label onward rest ih =>
    rw [reverse_cons, isWalk_concat]
    exact ⟨ih, consistent _ _ label⟩

theorem congr (path : BackPath pred src u w p) (consistent : ∀ x a, pred x = some a → dst a = x)
    (eq : ∀ a ∈ p, pred' (dst a) = pred (dst a)) : BackPath pred' src u w p := by
  induction path with
  | @last w a label arrived =>
    refine .last ?_ arrived
    have here := eq a mem_cons_self
    rw [consistent _ _ label] at here
    rw [here, label]
  | @step w a p label onward rest ih =>
    refine .step ?_ onward (ih fun b mem => eq b (mem_cons_of_mem _ mem))
    have here := eq a mem_cons_self
    rw [consistent _ _ label] at here
    rw [here, label]

theorem exists_of_rank (rank : V → ℕ) (P : V → Prop)
    (descend : ∀ x, P x → x ≠ u → ∃ a, pred x = some a ∧ (src a = u ∨ P (src a)) ∧
      rank (src a) < rank x) (start : P x) (other : x ≠ u) : ∃ p, BackPath pred src u x p := by
  induction hk : rank x using Nat.strong_induction_on generalizing x with
  | _ k ih =>
    obtain ⟨a, label, mem, lower⟩ := descend x start other
    by_cases arrived : src a = u
    · exact ⟨[a], .last label arrived⟩
    · obtain ⟨p, path⟩ := ih (rank (src a)) (hk ▸ lower) (mem.resolve_left arrived) arrived rfl
      exact ⟨a :: p, .step label arrived path⟩

theorem left_of_entered (consistent : ∀ x a, pred x = some a → dst a = x)
    (path : BackPath pred src u w p) (mem : a ∈ p) : dst a = w ∨ ∃ b ∈ p, src b = dst a := by
  induction path with
  | last label _ =>
    cases mem_singleton.1 mem
    exact .inl (consistent _ _ label)
  | @step w c p label onward rest ih =>
    rcases mem_cons.1 mem with rfl | later
    · exact .inl (consistent _ _ label)
    · rcases ih later with next | ⟨b, inRest, eq⟩
      · exact .inr ⟨c, mem_cons_self, next.symm⟩
      · exact .inr ⟨b, mem_cons_of_mem _ inRest, eq⟩

theorem start_left (path : BackPath pred src u w p) : ∃ b ∈ p, src b = u := by
  induction path with
  | @last w a label arrived => exact ⟨a, mem_cons_self, arrived⟩
  | step _ _ _ ih =>
    obtain ⟨b, inRest, eq⟩ := ih
    exact ⟨b, mem_cons_of_mem _ inRest, eq⟩

end BackPath

/-! ## Reading a fixed number of labels -/

/-- Reading the labels from `w` yields the arcs of `p` and ends at `x`. -/
def ReadsTo (pred : V → Option A) (src : A → V) : V → List A → V → Prop
  | w, [], x => w = x
  | w, a :: p, x => pred w = some a ∧ ReadsTo pred src (src a) p x

theorem ReadsTo.append (first : ReadsTo pred src w p x) (second : ReadsTo pred src x q y) :
    ReadsTo pred src w (p ++ q) y := by
  induction p generalizing w with
  | nil =>
    cases first
    exact second
  | cons a p ih => exact ⟨first.1, ih first.2⟩

theorem ReadsTo.exists_to (reads : ReadsTo pred src w p x)
    (mem : y ∈ w :: p.map src) : ∃ q, ReadsTo pred src w q y := by
  induction p generalizing w with
  | nil =>
    rw [map_nil, mem_singleton] at mem
    exact ⟨[], mem.symm⟩
  | cons a p ih =>
    rw [map_cons] at mem
    rcases mem_cons.1 mem with rfl | later
    · exact ⟨[], rfl⟩
    · obtain ⟨q, rest⟩ := ih reads.2 later
      exact ⟨a :: q, reads.1, rest⟩

theorem ReadsTo.rotate {c : List A} (cycle : ReadsTo pred src w c w) (ne : c ≠ [])
    (reads : ReadsTo pred src w p x) : ∃ c', c' ≠ [] ∧ ReadsTo pred src x c' x := by
  induction p generalizing w c with
  | nil =>
    cases reads
    exact ⟨c, ne, cycle⟩
  | cons a p ih =>
    cases c with
    | nil => exact absurd rfl ne
    | cons b c =>
      obtain ⟨label, rest⟩ := cycle
      cases label.symm.trans reads.1
      have turned : ReadsTo pred src (src a) (c ++ [a]) (src a) :=
        rest.append ⟨reads.1, rfl⟩
      exact ih turned (by simp) reads.2

/-- Reading on until a node repeats ends on a cycle. -/
theorem ReadsTo.nodup_or_cycle (reads : ReadsTo pred src w p x) :
    (w :: p.map src).Nodup ∨ ∃ c, c ≠ [] ∧ ReadsTo pred src x c x := by
  induction p generalizing w with
  | nil => exact .inl (by simp)
  | cons a p ih =>
    rcases ih reads.2 with ne | found
    · by_cases again : w ∈ src a :: p.map src
      · obtain ⟨q, back⟩ := ReadsTo.exists_to reads.2 again
        have cycle : ReadsTo pred src w (a :: q) w := ⟨reads.1, back⟩
        exact .inr (ReadsTo.rotate cycle (by simp) reads)
      · exact .inl (nodup_cons.2 ⟨again, ne⟩)
    · exact .inr found

theorem ReadsTo.backPath (reads : ReadsTo pred src w p u) (ne : p ≠ []) :
    ∃ q, BackPath pred src u w q := by
  induction p generalizing w with
  | nil => exact absurd rfl ne
  | cons a p ih =>
    by_cases arrived : src a = u
    · exact ⟨[a], .last reads.1 arrived⟩
    · have more : p ≠ [] := by
        rintro rfl
        exact arrived reads.2
      obtain ⟨q, path⟩ := ih reads.2 more
      exact ⟨a :: q, .step reads.1 arrived path⟩

theorem BackPath.readsTo (path : BackPath pred src u w p) : ReadsTo pred src w p u := by
  induction path with
  | last label arrived => exact ⟨label, arrived⟩
  | step label _ _ ih => exact ⟨label, ih⟩

theorem ReadsTo.mono (reads : ReadsTo pred src w p x)
    (extends' : ∀ y a, pred y = some a → pred' y = some a) : ReadsTo pred' src w p x := by
  induction p generalizing w with
  | nil => exact reads
  | cons a p ih => exact ⟨extends' _ _ reads.1, ih reads.2⟩

theorem ReadsTo.isWalk (consistent : ∀ y a, pred y = some a → dst a = y)
    (reads : ReadsTo pred src w p x) : IsWalk src dst x p.reverse w := by
  induction p generalizing w with
  | nil => exact (show w = x from reads).symm
  | cons a p ih =>
    rw [reverse_cons, isWalk_concat]
    exact ⟨ih reads.2, consistent _ _ reads.1⟩

theorem ReadsTo.split {front rest : List V} (reads : ReadsTo pred src w p x)
    (nodes : w :: p.map src = front ++ y :: rest) :
    ∃ q c, p = q ++ c ∧ ReadsTo pred src w q y ∧ ReadsTo pred src y c x ∧ c.map src = rest := by
  induction front generalizing w p with
  | nil =>
    rw [nil_append] at nodes
    cases nodes
    exact ⟨[], p, rfl, rfl, reads, rfl⟩
  | cons z front ih =>
    cases p with
    | nil => simp at nodes
    | cons a p =>
      rw [map_cons, cons_append] at nodes
      obtain ⟨-, tail⟩ := List.cons.inj nodes
      obtain ⟨q, c, rfl, first, second, last⟩ := ih reads.2 tail
      exact ⟨a :: q, c, rfl, ⟨reads.1, first⟩, second, last⟩

theorem ReadsTo.backPath_of_fresh {nodes : List V} (reads : ReadsTo pred src w p u)
    (last : p.map src = nodes ++ [u]) (fresh : u ∉ nodes) : BackPath pred src u w p := by
  induction p generalizing w nodes with
  | nil => simp at last
  | cons a p ih =>
    cases nodes with
    | nil =>
      rw [map_cons, nil_append] at last
      obtain ⟨arrived, noMore⟩ := List.cons.inj last
      rw [map_eq_nil_iff.1 noMore]
      exact .last reads.1 arrived
    | cons z nodes =>
      rw [map_cons, cons_append] at last
      obtain ⟨here, tail⟩ := List.cons.inj last
      rw [mem_cons, not_or] at fresh
      refine .step reads.1 ?_ (ih reads.2 tail fresh.2)
      rw [here]
      exact Ne.symm fresh.1

/-- **Pigeonhole for labels.** After as many labels as there are nodes, the
reading is on a cycle. -/
theorem ReadsTo.cycle_of_card_le [Fintype V] (reads : ReadsTo pred src w p x)
    (long : Fintype.card V ≤ p.length) : ∃ q, BackPath pred src x x q := by
  rcases reads.nodup_or_cycle with ne | ⟨c, nonempty, cycle⟩
  · have bound := ne.length_le_card
    rw [length_cons, length_map] at bound
    omega
  · exact cycle.backPath nonempty

theorem exists_readsTo_root [Fintype V] (acyclic : ∀ x q, ¬ BackPath pred src x x q) (w : V) :
    ∃ p x, ReadsTo pred src w p x ∧ pred x = none := by
  by_contra endless
  push Not at endless
  have long : ∀ k : ℕ, ∃ p x, ReadsTo pred src w p x ∧ p.length = k := by
    intro k
    induction k with
    | zero => exact ⟨[], w, rfl, rfl⟩
    | succ k ih =>
      obtain ⟨p, x, reads, length⟩ := ih
      obtain ⟨a, label⟩ := Option.ne_none_iff_exists'.1 (endless p x reads)
      exact ⟨p ++ [a], src a, reads.append ⟨label, rfl⟩, by simp [length]⟩
  obtain ⟨p, x, reads, length⟩ := long (Fintype.card V)
  obtain ⟨q, cycle⟩ := reads.cycle_of_card_le length.ge
  exact acyclic x q cycle

theorem ReadsTo.exists_cut (reads : ReadsTo pred src w p x) (mem : u ∈ w :: p.map src) :
    u = w ∨ ∃ q c, p = q ++ c ∧ BackPath pred src u w q ∧ ReadsTo pred src u c x := by
  induction p generalizing w with
  | nil => exact .inl (mem_singleton.1 mem)
  | cons a p ih =>
    rcases mem_cons.1 mem with here | later
    · exact .inl here
    refine .inr ?_
    by_cases arrived : src a = u
    · exact ⟨[a], p, rfl, .last reads.1 arrived, arrived ▸ reads.2⟩
    · rcases ih reads.2 later with eq | ⟨q, c, rfl, path, rest⟩
      · exact absurd eq.symm arrived
      · exact ⟨a :: q, c, rfl, .step reads.1 arrived path, rest⟩

theorem ReadsTo.backPath_of_root (reads : ReadsTo pred src w p x) (root : pred x = none)
    (ne : p ≠ []) : BackPath pred src x w p := by
  induction p generalizing w with
  | nil => exact absurd rfl ne
  | cons a p ih =>
    cases p with
    | nil => exact .last reads.1 reads.2
    | cons b p =>
      refine .step reads.1 ?_ (ih reads.2 (cons_ne_nil b p))
      intro arrived
      have label := reads.2.1
      rw [arrived, root] at label
      cases label

theorem ReadsTo.not_cycle (reads : ReadsTo pred src u p x) (root : pred x = none) :
    ¬ BackPath pred src u u q := by
  intro cycle
  obtain ⟨c, ne, turned⟩ := ReadsTo.rotate cycle.readsTo cycle.ne_nil reads
  cases c with
  | nil => exact ne rfl
  | cons a c =>
    have label := turned.1
    rw [root] at label
    cases label

section

variable (consistent : ∀ y a, pred y = some a → dst a = y)
include consistent

section

variable (reads : ReadsTo pred src w p x)
include reads

theorem ReadsTo.label_of_mem (mem : a ∈ p) : pred (dst a) = some a := by
  induction p generalizing w with
  | nil => cases mem
  | cons b p ih =>
    rcases mem_cons.1 mem with rfl | later
    · rw [consistent _ _ reads.1]
      exact reads.1
    · exact ih reads.2 later

theorem ReadsTo.dst_mem (mem : a ∈ p) : dst a ∈ w :: p.map src := by
  induction p generalizing w with
  | nil => cases mem
  | cons b p ih =>
    rcases mem_cons.1 mem with rfl | later
    · rw [consistent _ _ reads.1]
      exact mem_cons_self
    · exact mem_cons_of_mem _ (ih reads.2 later)

theorem ReadsTo.congr (eq : ∀ a ∈ p, pred' (dst a) = pred (dst a)) : ReadsTo pred' src w p x := by
  induction p generalizing w with
  | nil => exact reads
  | cons b p ih =>
    have here := eq b mem_cons_self
    rw [consistent _ _ reads.1] at here
    exact ⟨here.trans reads.1, ih reads.2 fun a mem => eq a (mem_cons_of_mem b mem)⟩

end

end

theorem ReadsTo.end_mem (reads : ReadsTo pred src w p x) : x ∈ w :: p.map src := by
  induction p generalizing w with
  | nil =>
    cases reads
    exact mem_cons_self
  | cons b p ih => exact mem_cons_of_mem _ (ih reads.2)

theorem IsWalk.perm_of_closed (walk : IsWalk src dst u p u) : (p.map dst).Perm (p.map src) := by
  have nodes : ∀ (p : List A) (u v : V), IsWalk src dst u p v →
      u :: p.map dst = p.map src ++ [v] := by
    intro p
    induction p with
    | nil =>
      intro u v walk
      cases walk
      rfl
    | cons a p ih =>
      rintro u v ⟨start, rest⟩
      rw [map_cons, map_cons, cons_append, ← ih _ _ rest, start]
  have shifted := nodes p u u walk
  have rotated : (u :: p.map dst).Perm (u :: p.map src) := by
    rw [shifted]
    exact perm_append_singleton u (p.map src)
  exact rotated.cons_inv

theorem ReadsTo.transport {P : V → Prop} (reads : ReadsTo pred src w p x) (start : P w)
    (step : ∀ y a, pred y = some a → P y → P (src a)) : P x := by
  induction p generalizing w with
  | nil => exact (show w = x from reads) ▸ start
  | cons a p ih => exact ih reads.2 (step w a reads.1 start)

theorem ReadsTo.forall_mem {P : A → Prop} (labels : ∀ y a, pred y = some a → P a)
    (reads : ReadsTo pred src w p x) : ∀ a ∈ p, P a := by
  induction p generalizing w with
  | nil => exact fun a mem => nomatch mem
  | cons b p ih =>
    intro a mem
    rcases mem_cons.1 mem with rfl | later
    · exact labels w a reads.1
    · exact ih reads.2 a later

end BackPath

/-! ## Predecessor labels on darts -/

section Edges

variable {V : Type v} {E : Type u} {N : Network V E} {pred : V → Option (Dart E)}
  {u w : V} {p : List (Dart E)} {x y : V}

section

variable (walk : IsWalk N.src N.dst x p y)
include walk

theorem IsWalk.backwards : IsWalk N.src N.dst y (p.map Dart.rev).reverse x := by
  induction p generalizing x with
  | nil => exact Eq.symm (show x = y from walk)
  | cons a p ih =>
    rw [map_cons, reverse_cons, isWalk_concat, Network.src_rev, Network.dst_rev]
    exact ⟨ih walk.2, walk.1⟩

theorem IsWalk.edges_nodup (simple : (x :: p.map N.dst).Nodup) : (p.map Dart.edge).Nodup := by
  induction p generalizing x with
  | nil => exact nodup_nil
  | cons a p ih =>
    obtain ⟨start, rest⟩ := walk
    rw [map_cons, nodup_cons] at simple
    refine nodup_cons.2 ⟨fun again => ?_, ih rest simple.2⟩
    obtain ⟨b, mem, eq⟩ := mem_map.1 again
    rcases Dart.eq_or_eq_rev eq with rfl | turned
    · exact (nodup_cons.1 simple.2).1 (mem_map_of_mem mem)
    · have back : N.dst b = x := by rw [turned, Network.dst_rev, start]
      exact simple.1 (mem_cons_of_mem _ (back ▸ mem_map_of_mem mem))

theorem IsWalk.readsTo_rev (labels : ∀ b ∈ p, pred (N.src b) = some b.rev) :
    ReadsTo pred N.src x (p.map Dart.rev) y := by
  induction p generalizing x with
  | nil => exact walk
  | cons a p ih =>
    obtain ⟨start, rest⟩ := walk
    refine ⟨start ▸ labels a mem_cons_self, ?_⟩
    exact ih rest fun b mem => labels b (mem_cons_of_mem a mem)

end

theorem BackPath.edges_nodup (consistent : ∀ x a, pred x = some a → N.dst a = x)
    (path : BackPath pred N.src u w p) (notForthAndBack : ∀ a, p ≠ [a, a.rev]) :
    (p.map Dart.edge).Nodup := by
  induction path with
  | last _ _ => simp
  | @step w b p label onward rest ih =>
    have whole : BackPath pred N.src u w (b :: p) := .step label onward rest
    have ne : ∀ a ∈ p, a ≠ b := by
      rintro a mem rfl
      have nodup := whole.nodup consistent
      rw [map_cons, nodup_cons] at nodup
      exact nodup.1 (mem_map_of_mem mem)
    have opposite : b.rev ∉ p := by
      intro mem
      -- the opposite dart is the label of the node reached by `b`, so it comes next
      have next : pred (N.src b) = some b.rev := by
        have label' := rest.label_of_mem consistent mem
        rwa [N.dst_rev] at label'
      cases rest with
      | last label' arrived =>
        cases label'.symm.trans next
        exact notForthAndBack b rfl
      | @step _ c p label' onward' rest' =>
        cases label'.symm.trans next
        have again : b ∈ p := by
          cases rest' with
          | last label'' _ =>
            rw [N.src_rev, consistent _ _ label] at label''
            cases label.symm.trans label''
            exact mem_cons_self
          | step label'' _ _ =>
            rw [N.src_rev, consistent _ _ label] at label''
            cases label.symm.trans label''
            exact mem_cons_self
        exact ne b (mem_cons_of_mem _ again) rfl
    rw [map_cons, nodup_cons]
    constructor
    · intro again
      obtain ⟨a, mem, eq⟩ := mem_map.1 again
      rcases Dart.eq_or_eq_rev eq with rfl | rfl
      · exact ne _ mem rfl
      · exact opposite mem
    · refine ih fun a equal => ?_
      -- a two-cycle at the end would start at `src b`, which is not `u`
      subst equal
      cases rest with
      | step label' _ rest' =>
        cases rest' with
        | last _ arrived =>
          rw [N.src_rev, consistent _ _ label'] at arrived
          exact onward arrived
        | step _ _ rest'' => exact absurd rfl rest''.ne_nil

end Edges

end Goblin.Library
