import Goblin.Augment

/-!
# Breadth first search

`BFS` labels the nodes that eligible arcs reach from `s` and stops when the
target is labelled. The queue holds the labelled nodes that are still to be
expanded. Every labelled node other than `s` carries the arc by which it was
labelled, so the labels lead back to `s` (`bfs_path`). When the target is not
reached, the labelled nodes are closed under eligible arcs (`bfs_closed`).
-/

set_option autoImplicit false

namespace Goblin

open Library List Function

/-- The labels and the queue of a search. `⊤` is `InfFloat`. -/
structure BFSState (n m : ℕ) where
  dist : Fin n → ℕ∞
  pred : Fin n → Option (Arc m)
  queue : List (Fin n)
  searching : Bool

namespace MixedGraph

variable {n m : ℕ} (G : MixedGraph n m)

section Search

variable (el : Arc m → Bool) (t : Option (Fin n))

/-- One arc of the incidence list of `u`. -/
def bfsRead (u : Fin n) (st : BFSState n m) (a : Arc m) : BFSState n m :=
  let v := G.endNode a
  if st.dist v = ⊤ ∧ el a = true then
    { dist := update st.dist v (st.dist u + 1)
      pred := update st.pred v (some a)
      queue := st.queue ++ [v]
      searching := st.searching && decide (t ≠ some v) }
  else st

/-- The main loop: expand the nodes of the queue. -/
def bfsLoop : ℕ → BFSState n m → BFSState n m
  | 0, st => st
  | left + 1, st =>
    match st.queue with
    | [] => st
    | u :: rest =>
      if st.searching then
        bfsLoop left ((G.incidences u).foldl (G.bfsRead el t u) { st with queue := rest })
      else st

/-- The state in which the search starts. -/
def bfsInit (s : Fin n) : BFSState n m where
  dist := fun v => if v = s then 0 else ⊤
  pred := fun _ => none
  queue := [s]
  searching := true

end Search

/-- `BFS`: no node is expanded twice, so `n` iterations suffice. -/
def bfs (sub : Fin m → ℚ) (delta : ℚ) (characteristic : TOptSPX) (s : Fin n)
    (t : Option (Fin n)) : BFSState n m :=
  G.bfsLoop (G.eligible sub delta characteristic) t n (bfsInit s)

/-! ## The invariant of the search -/

/-- What holds between two arcs of the search; `done` lists the nodes taken from the
queue so far. -/
structure BFSInv (el : Arc m → Bool) (s : Fin n) (t : Option (Fin n)) (done : List (Fin n))
    (st : BFSState n m) : Prop where
  nodup : (done ++ st.queue).Nodup
  labelled : ∀ v, st.dist v ≠ ⊤ ↔ v ∈ done ++ st.queue
  source : st.dist s = 0
  reached : ∀ v, v ≠ s → st.dist v ≠ ⊤ → ∃ a, st.pred v = some a ∧ el a = true ∧
    st.dist (G.src a) ≠ ⊤ ∧ st.dist v = st.dist (G.src a) + 1
  consistent : ∀ v a, st.pred v = some a → G.dst a = v
  target : st.searching = false ↔ ∃ v, t = some v ∧ v ≠ s ∧ st.dist v ≠ ⊤

variable {G} {el : Arc m → Bool} {s : Fin n} {t : Option (Fin n)} {done : List (Fin n)}
  {st : BFSState n m} {u v : Fin n} {a : Arc m}

theorem bfsInv_init (el : Arc m → Bool) (s : Fin n) (t : Option (Fin n)) :
    G.BFSInv el s t [] (bfsInit s) where
  nodup := by simp [bfsInit]
  labelled := by
    intro v
    by_cases eq : v = s <;> simp [bfsInit, eq]
  source := by simp [bfsInit]
  reached := by
    intro v other label
    simp [bfsInit, other] at label
  consistent := by simp [bfsInit]
  target := by
    simp only [bfsInit]
    constructor
    · simp
    · rintro ⟨v, _, other, label⟩
      simp [other] at label

theorem bfsRead_dist (label : st.dist v ≠ ⊤) : (G.bfsRead el t u st a).dist v = st.dist v := by
  simp only [bfsRead]
  split_ifs with new
  · refine update_of_ne ?_ _ _
    rintro rfl
    exact label new.1
  · rfl

theorem bfsRead_inv (inv : G.BFSInv el s t done st) (label : st.dist u ≠ ⊤) (start : G.src a = u) :
    G.BFSInv el s t done (G.bfsRead el t u st a) ∧
      (el a = true → (G.bfsRead el t u st a).dist (G.dst a) ≠ ⊤) := by
  by_cases new : st.dist (G.dst a) = ⊤ ∧ el a = true
  · have finite : st.dist u + 1 ≠ ⊤ := by simpa using label
    have other : ∀ v, st.dist v ≠ ⊤ → v ≠ G.dst a := by
      rintro v set rfl
      exact set new.1
    have fresh : G.dst a ∉ done ++ st.queue := fun mem =>
      (inv.labelled _).2 mem new.1
    have sourceOther : s ≠ G.dst a := other s (by simp [inv.source])
    rw [show G.bfsRead el t u st a =
      { dist := update st.dist (G.dst a) (st.dist u + 1)
        pred := update st.pred (G.dst a) (some a)
        queue := st.queue ++ [G.dst a]
        searching := st.searching && decide (t ≠ some (G.dst a)) } from if_pos new]
    refine ⟨⟨?_, ?_, ?_, ?_, ?_, ?_⟩, ?_⟩ <;> dsimp only
    · rw [← append_assoc]
      exact nodup_append.2 ⟨inv.nodup, by simp, by
        intro x mem y last
        rw [mem_singleton] at last
        rintro rfl
        rw [last] at mem
        exact fresh mem⟩
    · intro v
      by_cases eq : v = G.dst a
      · subst eq
        simp [finite]
      · rw [update_of_ne eq, inv.labelled v]
        simp [eq]
    · rw [update_of_ne sourceOther]
      exact inv.source
    · intro v notSource set
      by_cases eq : v = G.dst a
      · subst eq
        refine ⟨a, by simp, new.2, ?_, ?_⟩
        · rw [start, update_of_ne (other u label)]
          exact label
        · rw [update_self, start, update_of_ne (other u label)]
      · rw [update_of_ne eq] at set
        obtain ⟨b, pred, usable, before, next⟩ := inv.reached v notSource set
        refine ⟨b, ?_, usable, ?_, ?_⟩
        · rw [update_of_ne eq]
          exact pred
        · rw [update_of_ne (other _ before)]
          exact before
        · rw [update_of_ne eq, update_of_ne (other _ before)]
          exact next
    · intro v b pred
      rcases of_update pred with ⟨rfl, ⟨⟩⟩ | ⟨-, pred⟩
      · rfl
      · exact inv.consistent v b pred
    · rw [Bool.and_eq_false_iff, inv.target, decide_eq_false_iff_not, not_not]
      constructor
      · rintro (⟨v, isTarget, notSource, set⟩ | isTarget)
        · refine ⟨v, isTarget, notSource, ?_⟩
          rw [update_of_ne (other v set)]
          exact set
        · exact ⟨G.dst a, isTarget, sourceOther.symm, by simp [finite]⟩
      · rintro ⟨v, isTarget, notSource, set⟩
        by_cases eq : v = G.dst a
        · exact .inr (eq ▸ isTarget)
        · rw [update_of_ne eq] at set
          exact .inl ⟨v, isTarget, notSource, set⟩
    · intro _
      simp [finite]
  · rw [show G.bfsRead el t u st a = st from if_neg new]
    exact ⟨inv, fun usable set => new ⟨set, usable⟩⟩

/-- Expanding a node keeps the invariant and labels the ends of its eligible
arcs. -/
theorem bfsRead_foldl (l : List (Arc m)) (inv : G.BFSInv el s t done st) (label : st.dist u ≠ ⊤)
    (start : ∀ a ∈ l, G.src a = u) : G.BFSInv el s t done (l.foldl (G.bfsRead el t u) st) ∧
      (∀ v, st.dist v ≠ ⊤ → (l.foldl (G.bfsRead el t u) st).dist v ≠ ⊤) ∧
      ∀ a ∈ l, el a = true → (l.foldl (G.bfsRead el t u) st).dist (G.dst a) ≠ ⊤ := by
  induction l generalizing st with
  | nil => exact ⟨inv, fun _ set => set, fun a mem => nomatch mem⟩
  | cons a l ih =>
    obtain ⟨inv', reaches⟩ := bfsRead_inv inv label (start a mem_cons_self)
    have label' : (G.bfsRead el t u st a).dist u ≠ ⊤ := by
      rw [bfsRead_dist label]
      exact label
    obtain ⟨invAll, keeps, closes⟩ := ih inv' label'
      fun b mem => start b (mem_cons_of_mem _ mem)
    refine ⟨invAll, fun v set => keeps v ?_, fun b mem usable => ?_⟩
    · rw [bfsRead_dist set]
      exact set
    · rcases mem_cons.1 mem with rfl | later
      · exact keeps _ (reaches usable)
      · exact closes b later usable

/-- The search stops with an empty queue or at the target; the expanded nodes
are closed under eligible arcs. -/
theorem bfsLoop_spec (left : ℕ) (inv : G.BFSInv el s t done st)
    (closed : ∀ a, G.src a ∈ done → el a = true → st.dist (G.dst a) ≠ ⊤)
    (enough : n ≤ done.length + left) : ∃ done', G.BFSInv el s t done' (G.bfsLoop el t left st) ∧
      (∀ a, G.src a ∈ done' → el a = true → (G.bfsLoop el t left st).dist (G.dst a) ≠ ⊤) ∧
      ((G.bfsLoop el t left st).queue = [] ∨ (G.bfsLoop el t left st).searching = false) := by
  induction left generalizing done st with
  | zero =>
    refine ⟨done, inv, closed, .inl ?_⟩
    have bound := inv.nodup.length_le_card
    rw [length_append, Fintype.card_fin] at bound
    exact length_eq_zero_iff.1 (by simp only [bfsLoop]; omega)
  | succ left ih =>
    cases queue : st.queue with
    | nil =>
      rw [show G.bfsLoop el t (left + 1) st = st by simp [bfsLoop, queue]]
      exact ⟨done, inv, closed, .inl queue⟩
    | cons u rest =>
      by_cases active : st.searching = true
      · rw [show G.bfsLoop el t (left + 1) st = G.bfsLoop el t left
          ((G.incidences u).foldl (G.bfsRead el t u) { st with queue := rest }) by
            simp [bfsLoop, queue, active]]
        have label : st.dist u ≠ ⊤ := (inv.labelled u).2 (by simp [queue])
        have popped : G.BFSInv el s t (done ++ [u]) { st with queue := rest } := by
          refine ⟨?_, ?_, inv.source, inv.reached, inv.consistent, inv.target⟩
          · have nodup := inv.nodup
            rw [queue] at nodup
            simpa using nodup
          · intro v
            have iff := inv.labelled v
            rw [queue] at iff
            simpa using iff
        obtain ⟨inv', keeps, closes⟩ := bfsRead_foldl (G.incidences u) popped label
          fun a mem => (G.mem_incidences u a).1 mem
        refine ih inv' ?_ (by simp only [length_append, length_singleton]; omega)
        intro a mem usable
        rcases mem_append.1 mem with old | new
        · exact keeps _ (closed a old usable)
        · exact closes a ((G.mem_incidences u a).2 (mem_singleton.1 new)) usable
      · rw [show G.bfsLoop el t (left + 1) st = st by simp [bfsLoop, queue, active]]
        exact ⟨done, inv, closed, .inr (by simpa using active)⟩

section Result

variable (G) (sub : Fin m → ℚ) (delta : ℚ) (characteristic : TOptSPX) (s : Fin n)
  (t : Option (Fin n))

theorem bfs_spec :
    ∃ done, G.BFSInv (G.eligible sub delta characteristic) s t done
        (G.bfs sub delta characteristic s t) ∧
      (∀ a, G.src a ∈ done → G.eligible sub delta characteristic a = true →
        (G.bfs sub delta characteristic s t).dist (G.dst a) ≠ ⊤) ∧
      ((G.bfs sub delta characteristic s t).queue = [] ∨
        (G.bfs sub delta characteristic s t).searching = false) :=
  bfsLoop_spec n (bfsInv_init _ s t) (by simp) (by simp)

theorem bfs_source : (G.bfs sub delta characteristic s t).dist s ≠ ⊤ := by
  obtain ⟨_, inv, _⟩ := G.bfs_spec sub delta characteristic s t
  simp [inv.source]

theorem bfs_consistent (v : Fin n) (a : Arc m)
    (label : (G.bfs sub delta characteristic s t).pred v = some a) : G.dst a = v := by
  obtain ⟨_, inv, _⟩ := G.bfs_spec sub delta characteristic s t
  exact inv.consistent v a label

/-- A labelled node is the end of a path of eligible arcs that the
predecessor labels describe. -/
theorem bfs_path (other : v ≠ s) (label : (G.bfs sub delta characteristic s t).dist v ≠ ⊤) :
    ∃ p, BackPath (G.bfs sub delta characteristic s t).pred G.src s v p ∧
      ∀ a ∈ p, G.eligible sub delta characteristic a = true := by
  obtain ⟨_, inv, _⟩ := G.bfs_spec sub delta characteristic s t
  set st := G.bfs sub delta characteristic s t
  have usable : ∀ (x : Fin n) (p : List (Arc m)), BackPath st.pred G.src s x p → x ≠ s →
      st.dist x ≠ ⊤ → ∀ a ∈ p, G.eligible sub delta characteristic a = true := by
    intro x p path
    induction path with
    | last pred arrived =>
      intro notSource set a mem
      obtain ⟨b, pred', elig, _⟩ := inv.reached _ notSource set
      cases pred.symm.trans pred'
      cases mem_singleton.1 mem
      exact elig
    | step pred onward rest ih =>
      intro notSource set a mem
      obtain ⟨b, pred', elig, before, _⟩ := inv.reached _ notSource set
      cases pred.symm.trans pred'
      rcases mem_cons.1 mem with rfl | later
      · exact elig
      · exact ih onward before a later
  have descend : ∀ x, st.dist x ≠ ⊤ → x ≠ s → ∃ a, st.pred x = some a ∧
      (G.src a = s ∨ st.dist (G.src a) ≠ ⊤) ∧ (st.dist (G.src a)).toNat < (st.dist x).toNat := by
    intro x set notSource
    obtain ⟨a, pred, _, before, next⟩ := inv.reached x notSource set
    refine ⟨a, pred, .inr before, ?_⟩
    rw [next]
    obtain ⟨k, val⟩ := ENat.ne_top_iff_exists.1 before
    rw [← val]
    have sum : ((k : ℕ∞) + 1).toNat = k + 1 := by norm_cast
    simp [sum]
  obtain ⟨p, path⟩ := BackPath.exists_of_rank (fun x => (st.dist x).toNat)
    (fun x => st.dist x ≠ ⊤) descend label other
  exact ⟨p, path, usable v p path other label⟩

theorem bfs_closed (unreached : ∀ v, t = some v → v ≠ s →
      (G.bfs sub delta characteristic s t).dist v = ⊤)
    (usable : G.eligible sub delta characteristic a = true)
    (label : (G.bfs sub delta characteristic s t).dist (G.src a) ≠ ⊤) :
    (G.bfs sub delta characteristic s t).dist (G.dst a) ≠ ⊤ := by
  obtain ⟨done, inv, closed, stopped⟩ := G.bfs_spec sub delta characteristic s t
  rcases stopped with empty | found
  · refine closed a ?_ usable
    have mem := (inv.labelled _).1 label
    rwa [empty, append_nil] at mem
  · obtain ⟨v, isTarget, other, set⟩ := inv.target.1 found
    exact absurd (unreached v isTarget other) set

end Result

end MixedGraph

end Goblin
