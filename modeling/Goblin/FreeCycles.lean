import Goblin.CycleCanceling

/-!
# Canceling free cycles

A free edge has residual capacity in both directions. `MCF_NWSimplexCancelFree` prepares a
flow for the network simplex method: a depth-first search goes along free edges, and when
it meets a node on the current path again, it pushes flow around the cycle, in the
direction in which this costs nothing, until some edge is no longer free.

The search always returns, with a flow of the same divergences whose weight has not grown
(`cancelFree_spec`). Free cycles can survive, however. `Augment` clears the labels of the nodes on a
cycle, but these nodes keep their cursors. An arc which has been skipped as the reverse of a label
is not read again when its start node is reached on another way.

Loops that the source leaves open run with fuel; logging is left out.
-/

set_option autoImplicit false

namespace Goblin

open Library List Finset Function Dart

/-- The variables of the search. The incidences that the investigator has not read are
`unread`. -/
structure FreeScan (n m : ℕ) where
  sub : Fin m → ℚ
  pred : Fin n → Option (Arc m)
  unread : Fin n → List (Arc m)
  v : Fin n

namespace DiGraph

variable {n m : ℕ} (G : DiGraph n m)

/-- `ResCap(a)>0 && ResCap(a^1)>0` -/
def Free (sub : Fin m → ℚ) (a : Arc m) : Prop := 0 < G.resCap sub a ∧ 0 < G.resCap sub a.rev

instance (sub : Fin m → ℚ) (a : Arc m) : Decidable (G.Free sub a) :=
  inferInstanceAs (Decidable (_ ∧ _))

/-! ## One cycle -/

/-- The loop that computes the length of the cycle through `u`. -/
def cycleLengthFrom (pred : Fin n → Option (Arc m)) (u : Fin n) :
    ℕ → Fin n → ℚ → Except Raise ℚ
  | 0, _, _ => .error .fuel
  | left + 1, w, length => do
    let a ← defined (pred w)
    if G.startNode a = u then return length + G.redLength (fun _ => 0) a
    else cycleLengthFrom pred u left (G.startNode a) (length + G.redLength (fun _ => 0) a)

/-- The loop that turns the labels round until it meets the arc `final` again. -/
def reverseFrom (final : Arc m) :
    ℕ → Arc m → Fin n → (Fin n → Option (Arc m)) → Except Raise (Fin n → Option (Arc m))
  | 0, _, _, _ => .error .fuel
  | left + 1, a, w, pred =>
    if pred w = some final then .ok (update pred w (some a.rev))
    else do
      let a2 ← defined (pred w)
      reverseFrom final left a2 (G.startNode a2) (update pred w (some a.rev))

/-- The labels of the cycle through `u`, in the direction that does not cost anything. -/
def orientCycle (pred : Fin n → Option (Arc m)) (u : Fin n) :
    Except Raise (Fin n → Option (Arc m)) := do
  let length ← G.cycleLengthFrom pred u n u 0
  if 0 < length then
    let final ← defined (pred u)
    G.reverseFrom final n final (G.startNode final) pred
  else return pred

/-- The arc `a` has closed a cycle through its end node. -/
def cancelCycle (s : FreeScan n m) (a : Arc m) : Except Raise (FreeScan n m) := do
  let u := G.endNode a
  let pred ← G.orientCycle (update s.pred u (some a)) u
  let lambda ← G.findCap s.sub pred u u
  let (sub, pred) ← G.augment s.sub pred u u lambda
  return { s with sub := sub, pred := update pred u (s.pred u), v := u }

/-! ## The search -/

/-- `Skip` -/
def skipArc (s : FreeScan n m) (v : Fin n) : FreeScan n m :=
  { s with unread := update s.unread v (s.unread v).tail }

/-- One iteration of the search from the root `r`. -/
def cancelFreeStep (r : Fin n) (s : FreeScan n m) :
    Except Raise (FreeScan n m ⊕ FreeScan n m) :=
  match s.unread s.v with
  | a :: _ =>
    let u := G.endNode a
    if G.Free s.sub a ∧ s.pred s.v ≠ some a.rev then
      if s.pred u ≠ none ∨ u = r then do
        let s ← G.cancelCycle s a
        return .inl s
      else .ok (.inl { s with pred := update s.pred u (some a), v := u })
    else .ok (.inl (skipArc s s.v))
  | [] =>
    if s.v = r then .ok (.inr s)
    else do
      let a ← defined (s.pred s.v)
      let s := { s with pred := update s.pred s.v none, v := G.startNode a }
      return .inl (skipArc s s.v)

/-- As many iterations as a search from one root can take. -/
def cancelFreeFuel : ℕ := (m + ∑ v, (G.incidences v).length + 1) * (n + 1)

section

variable (sub : Fin m → ℚ)

/-- The state before the first root. -/
def freeScan (v : Fin n) : FreeScan n m :=
  { sub := sub, pred := fun _ => none, unread := G.incidences, v := v }

/-- `MCF_NWSimplexCancelFree` -/
def cancelFree : Except Raise (Fin m → ℚ) :=
  match finRange n with
  | [] => .ok sub
  | v :: _ => do
    let s ← (finRange n).foldlM (fun s r =>
      loop .fuel (G.cancelFreeStep r) G.cancelFreeFuel { s with v := r }) (G.freeScan sub v)
    return s.sub

/-- A cycle of free edges which uses no edge twice. -/
structure FreeCycle (x : Fin n) (c : List (Arc m)) : Prop
    extends IsCycle G.src G.dst (G.Free sub) x c where
  edges : (c.map edge).Nodup

end

end DiGraph

namespace DiGraph

variable {n m : ℕ} {G : DiGraph n m} {pred : Fin n → Option (Arc m)} {u : Fin n}
  {c p rest : List (Arc m)} {sub' : Fin m → ℚ} {b : Arc m} {v x : Fin n}

/-! ## The direction of a cycle -/

theorem cycleLengthFrom_eq {w : Fin n} (path : BackPath pred G.src u w c) {left : ℕ}
    (enough : c.length ≤ left) (length : ℚ) :
    G.cycleLengthFrom pred u left w length = .ok (length + (c.map G.dartLength).sum) := by
  induction path generalizing left length with
  | last label arrived =>
    obtain ⟨left, rfl⟩ : ∃ k, left = k + 1 := ⟨left - 1, by simp at enough; omega⟩
    simp only [cycleLengthFrom, label, defined, bind, Except.bind, arrived, if_true, pure,
      Except.pure, redLength_zero, List.map_cons, List.map_nil, List.sum_cons, List.sum_nil,
      add_zero]
  | step label onward rest ih =>
    obtain ⟨left, rfl⟩ : ∃ k, left = k + 1 := ⟨left - 1, by simp at enough; omega⟩
    rw [List.length_cons] at enough
    simp only [cycleLengthFrom, label, defined, bind, Except.bind, onward, if_false,
      redLength_zero, List.map_cons, List.sum_cons]
    rw [ih (by omega), add_assoc]

theorem reverseFrom_spec {final : Arc m} (rest : List (Arc m)) :
    ∀ (left : ℕ) (a : Arc m) (pred : Fin n → Option (Arc m)), rest.length < left →
      (∀ x b, pred x = some b → G.dst b = x) → ReadsTo pred G.src (G.src a) rest u →
      pred u = some final → ((a :: rest).map G.src).Nodup →
      ∃ pred', G.reverseFrom final left a (G.startNode a) pred = .ok pred' ∧
        (∀ b ∈ a :: rest, pred' (G.src b) = some b.rev) ∧
        ∀ x, x ∉ (a :: rest).map G.src → pred' x = pred x := by
  induction rest with
  | nil =>
    intro left a pred enough _ reads label _
    obtain ⟨left, rfl⟩ : ∃ k, left = k + 1 := ⟨left - 1, by omega⟩
    have here : G.src a = u := reads
    have closed : pred (G.src a) = some final := here ▸ label
    refine ⟨_, if_pos closed, ?_, ?_⟩
    · intro b mem
      rw [List.mem_singleton.1 mem]
      exact update_self _ _ _
    · intro x out
      rw [List.map_cons, List.map_nil, List.mem_singleton] at out
      exact update_of_ne out _ _
  | cons b rest ih =>
    intro left a pred enough consistent reads label ne
    obtain ⟨left, rfl⟩ : ∃ k, left = k + 1 := ⟨left - 1, by omega⟩
    obtain ⟨here, onward⟩ := reads
    rw [List.map_cons, List.nodup_cons] at ne
    -- `u` is the last node, so it is not the start node of `a`
    have other : G.src a ≠ u := by
      rintro eq
      have last := ReadsTo.end_mem (w := G.src b) onward
      rw [← eq] at last
      exact ne.1 last
    have notFinal : ¬ pred (G.src a) = some final := by
      intro eq
      exact other ((consistent _ _ eq).symm.trans (consistent _ _ label))
    have unread : ∀ c ∈ rest, G.dst c ≠ G.src a := by
      intro c mem eq
      have met := onward.dst_mem consistent mem
      rw [eq] at met
      exact ne.1 met
    have consistent' : ∀ x c, update pred (G.src a) (some a.rev) x = some c → G.dst c = x := by
      intro x c there
      rcases of_update there with ⟨eq, ⟨⟩⟩ | ⟨-, there⟩
      · rw [Network.dst_rev, eq]
      · exact consistent x c there
    obtain ⟨pred', run, turned, kept⟩ := ih left b (update pred (G.src a) (some a.rev))
      (by rw [List.length_cons] at enough; omega) consistent'
      (onward.congr consistent fun c mem => update_of_ne (unread c mem) _ _)
      (by rw [update_of_ne other.symm]; exact label) ne.2
    refine ⟨pred', ?_, ?_, ?_⟩
    · rw [reverseFrom, if_neg notFinal]
      simp only [here, defined, bind, Except.bind]
      exact run
    · refine forall_mem_cons.2 ⟨?_, turned⟩
      rw [kept _ ne.1, update_self]
    · intro x out
      rw [List.map_cons, List.mem_cons, not_or] at out
      rw [kept x out.2, update_of_ne out.1]

/-- The labels on a cycle through `u`, and the same cycle in the direction that `orientCycle`
chooses. -/
structure Oriented (G : DiGraph n m) (pred pred' : Fin n → Option (Arc m)) (u : Fin n)
    (c d : List (Arc m)) : Prop where
  consistent : ∀ x a, pred' x = some a → G.dst a = x
  path : BackPath pred' G.src u u d
  cheap : (d.map G.dartLength).sum ≤ 0
  direction : (∀ b ∈ d, b ∈ c) ∨ ∀ b ∈ d, b.rev ∈ c
  edges : (d.map edge).Perm (c.map edge)
  nodes : (d.map G.dst).Perm (c.map G.dst)
  others : ∀ x, x ∉ c.map G.dst → pred' x = pred x

theorem sum_dartLength_rev (c : List (Arc m)) :
    ((c.map rev).map G.dartLength).sum = -(c.map G.dartLength).sum := by
  induction c with
  | nil => simp
  | cons a c ih =>
    simp only [List.map_cons, List.sum_cons, ih, dartLength_rev]
    ring

theorem orientCycle_spec (consistent : ∀ x a, pred x = some a → G.dst a = x)
    (path : BackPath pred G.src u u c) :
    ∃ pred' d, G.orientCycle pred u = .ok pred' ∧ Oriented G pred pred' u c d := by
  have short : c.length ≤ n := by simpa using path.length_le_card consistent
  have measured := cycleLengthFrom_eq path short 0
  rw [zero_add] at measured
  unfold orientCycle
  rw [measured]
  by_cases pos : 0 < (c.map G.dartLength).sum
  · obtain ⟨final, rest, rfl⟩ := exists_cons_of_ne_nil path.ne_nil
    have walk := path.isWalk consistent
    have targets := path.nodup consistent
    have nodes : ((final :: rest).map G.dst).Perm ((final :: rest).map G.src) := by
      have backwards := walk.perm_of_closed
      rw [List.map_reverse, List.map_reverse] at backwards
      exact (List.reverse_perm _).symm.trans (backwards.trans (List.reverse_perm _))
    have ne := nodes.nodup_iff.1 targets
    obtain ⟨pred', run, turned, kept⟩ := reverseFrom_spec rest n final pred
      (by rw [List.length_cons] at short; omega) consistent path.readsTo.2 path.label_head ne
    have turned' : ∀ b ∈ (final :: rest).reverse, pred' (G.src b) = some b.rev :=
      fun b mem => turned b (mem_reverse.1 mem)
    refine ⟨pred', (final :: rest).reverse.map rev, ?_, ?_, ?_, ?_, ?_, ?_, ?_, ?_⟩
    · simp only [bind, Except.bind, if_pos pos, path.label_head, defined]
      exact run
    · intro x a label
      by_cases onCycle : x ∈ (final :: rest).map G.src
      · obtain ⟨b, mem, rfl⟩ := mem_map.1 onCycle
        rw [turned b mem] at label
        cases label
        exact G.dst_rev b
      · rw [kept x onCycle] at label
        exact consistent x a label
    · have fresh : u ∉ (rest.map G.dst).reverse := by
        rw [mem_reverse, ← consistent _ _ path.label_head]
        exact (List.nodup_cons.1 targets).1
      refine (walk.readsTo_rev turned').backPath_of_fresh ?_ fresh
      rw [List.map_map, List.reverse_cons, List.map_append, List.map_reverse,
        ← consistent _ _ path.label_head]
      simp [Function.comp_def]
    · rw [sum_dartLength_rev, List.map_reverse, List.sum_reverse]
      linarith
    · refine .inr fun b mem => ?_
      obtain ⟨a, inside, rfl⟩ := mem_map.1 mem
      rw [rev_rev]
      exact mem_reverse.1 inside
    · rw [List.map_map, List.map_reverse]
      exact List.reverse_perm _
    · rw [List.map_map, List.map_reverse]
      refine (List.reverse_perm _).trans ?_
      have sources : (G.dst ∘ rev : Arc m → Fin n) = G.src := funext G.dst_rev
      rw [sources]
      exact nodes.symm
    · intro x out
      exact kept x fun mem => out (nodes.mem_iff.2 mem)
  · exact ⟨pred, c, if_neg pos, consistent, path, not_lt.1 pos,
      .inl fun b mem => mem, List.Perm.refl _, List.Perm.refl _, fun x _ => rfl⟩

/-! ## Canceling one cycle -/

variable {sub sub₀ : Fin m → ℚ} {s : FreeScan n m} {a : Arc m} {r : Fin n}

theorem free_rev (b : Arc m) : G.Free sub b.rev ↔ G.Free sub b := by
  unfold Free
  rw [rev_rev]
  exact and_comm

theorem free_congr (eq : sub' b.edge = sub b.edge) : G.Free sub' b ↔ G.Free sub b := by
  unfold Free
  rw [MixedGraph.resCap_congr eq, @MixedGraph.resCap_congr n m G.toMixedGraph sub sub' b.rev eq]

/-- The free edges after a flow has been changed are among those before, and some edge is not
free any more. -/
structure LessFree (G : DiGraph n m) (sub sub' : Fin m → ℚ) : Prop where
  subset : ∀ b, G.Free sub' b → G.Free sub b
  lost : ∃ b, G.Free sub b ∧ ¬ G.Free sub' b

/-- After the bottleneck has been pushed around a cycle of free edges, some edge of the cycle
is not free any more. -/
theorem lessFree_pushAll (within : G.WithinBounds sub) {d : List (Arc m)} (ne : d ≠ [])
    (once : (d.map edge).Nodup) (free : ∀ b ∈ d, G.Free sub b) :
    LessFree G sub (pushAll sub d (G.bottleneck sub d)) := by
  have pos := MixedGraph.bottleneck_pos within ne fun b mem => (free b mem).1
  have room : ∀ b ∈ d, G.bottleneck sub d ≤ G.resCap sub b := fun b mem =>
    MixedGraph.bottleneck_le mem
  refine ⟨fun b free' => ?_, ?_⟩
  · by_cases onCycle : b ∈ d ∨ b.rev ∈ d
    · rcases onCycle with mem | mem
      · exact free b mem
      · exact (free_rev b).1 (free _ mem)
    · refine (free_congr (pushAll_of_notMem sub d _ fun b' mem eq => ?_)).1 free'
      rcases eq_or_eq_rev eq with rfl | rfl
      · exact onCycle (.inl mem)
      · exact onCycle (.inr mem)
  · obtain ⟨b, mem, val⟩ := MixedGraph.exists_bottleneck within ne
    refine ⟨b, free b mem, fun free' => ?_⟩
    have after := free'.1
    have within' := MixedGraph.withinBounds_pushAll within once pos.le room
    rw [(MixedGraph.resCap_of_pushed within within'
      (pushAll_of_mem sub (G.bottleneck sub d) once mem)).1, val, sub_self] at after
    exact lt_irrefl 0 after

/-- What is known of the incidences that have been read: arcs which lead back to their start
node were not free any more, and the nodes before the root have been finished. -/
structure ReadInv (G : DiGraph n m) (sub : Fin m → ℚ) (r : Fin n)
    (unread : Fin n → List (Arc m)) : Prop where
  leaves : ∀ x, ∀ a ∈ unread x, G.src a = x
  loops : ∀ a, G.src a = G.dst a → a ∉ unread (G.src a) → ¬ G.Free sub a
  before : ∀ x < r, unread x = []

theorem ReadInv.tail {unread : Fin n → List (Arc m)} (inv : ReadInv G sub r unread) {v : Fin n}
    {rest : List (Arc m)} (next : unread v = a :: rest)
    (closed : G.src a = G.dst a → ¬ G.Free sub a) : ReadInv G sub r (update unread v rest) := by
  have start : G.src a = v := inv.leaves v a (by rw [next]; exact mem_cons_self)
  refine ⟨?_, ?_, ?_⟩
  · intro x b mem
    by_cases here : x = v
    · rw [here, update_self] at mem
      rw [here]
      exact inv.leaves v b (by rw [next]; exact mem_cons_of_mem a mem)
    · rw [update_of_ne here] at mem
      exact inv.leaves x b mem
  · intro b loop read
    by_cases here : G.src b = v
    · rw [here, update_self] at read
      by_cases now : b = a
      · exact now ▸ closed (now ▸ loop)
      · refine inv.loops b loop ?_
        rw [here, next, List.mem_cons, not_or]
        exact ⟨now, read⟩
    · rw [update_of_ne here] at read
      exact inv.loops b loop read
  · intro x low
    by_cases here : x = v
    · have empty := inv.before x low
      rw [here, next] at empty
      cases empty
    · rw [update_of_ne here]
      exact inv.before x low

/-- **Invariant of the search.** The labels are those of the path from the root to `v`, and
every node on it has read its incidences up to the next arc of the path. -/
structure FreeInv (G : DiGraph n m) (sub₀ : Fin m → ℚ) (r : Fin n) (s : FreeScan n m) :
    Prop where
  flow : G.SameDemand sub₀ s.sub
  weight : G.weight s.sub ≤ G.weight sub₀
  consistent : ∀ x a, s.pred x = some a → G.dst a = x
  root : s.pred r = none
  path : ∃ p, ReadsTo s.pred G.src s.v p r ∧ ∀ x a, s.pred x = some a → a ∈ p
  cursor : ∀ x a, s.pred x = some a → ∃ rest, s.unread (G.src a) = a :: rest
  free : ∀ x a, s.pred x = some a → G.Free s.sub a
  noLoop : ∀ x a, s.pred x = some a → G.src a ≠ x
  reading : ReadInv G s.sub r s.unread

theorem FreeInv.met (inv : FreeInv G sub₀ r s) (reads : ReadsTo s.pred G.src s.v p r)
    (labels : ∀ x a, s.pred x = some a → a ∈ p)
    (onPath : s.pred u ≠ none ∨ u = r) : u ∈ s.v :: p.map G.src := by
  rcases onPath with labelled | rfl
  · obtain ⟨b, label⟩ := Option.ne_none_iff_exists'.1 labelled
    have met := reads.dst_mem inv.consistent (labels u b label)
    rwa [inv.consistent u b label] at met
  · exact reads.end_mem

/-- What the cancellation of a cycle leaves. -/
structure Canceled (G : DiGraph n m) (sub₀ : Fin m → ℚ) (r u : Fin n) (s s' : FreeScan n m) :
    Prop where
  inv : FreeInv G sub₀ r s'
  lessFree : LessFree G s.sub s'.sub
  unread : s'.unread = s.unread
  arrived : s'.v = u

section

variable (inv : FreeInv G sub₀ r s)
include inv

/-- The part of the path up to `u` closes a cycle with `a`, the rest of the path stays. -/
theorem FreeInv.exists_cycle (start : G.src a = s.v)
    (reads : ReadsTo s.pred G.src s.v p r) (met : G.dst a ∈ s.v :: p.map G.src) :
    ∃ q c, p = q ++ c ∧ ReadsTo s.pred G.src (G.dst a) c r ∧
      BackPath (update s.pred (G.dst a) (some a)) G.src (G.dst a) (G.dst a) (a :: q) ∧
      G.dst a ∉ q.map G.dst := by
  rcases reads.exists_cut met with eq | ⟨q, c, rfl, path, back⟩
  · exact ⟨[], p, rfl, eq ▸ reads, .last (update_self _ _ _) (start.trans eq.symm), by simp⟩
  have fresh : G.dst a ∉ q.map G.dst := by
    intro again
    obtain ⟨b, mem, eq⟩ := mem_map.1 again
    obtain ⟨q', cycle, -⟩ := path.exists_suffix inv.consistent mem
    rw [eq] at cycle
    exact back.not_cycle inv.root cycle
  refine ⟨q, c, rfl, back, .step (update_self _ _ _) ?_ ?_, fresh⟩
  · intro eq
    rw [← start, eq] at path
    exact back.not_cycle inv.root path
  · rw [start]
    refine path.congr inv.consistent fun b mem => update_of_ne ?_ _ _
    exact fun eq => fresh (mem_map.2 ⟨b, mem, eq⟩)

theorem FreeInv.edge_disjoint (start : G.src a = s.v)
    (notBack : s.pred s.v ≠ some a.rev) {q : List (Arc m)}
    (reads : ReadsTo s.pred G.src s.v (q ++ c) r) (back : ReadsTo s.pred G.src (G.dst a) c r)
    (cycle : BackPath (update s.pred (G.dst a) (some a)) G.src (G.dst a) (G.dst a)
      (a :: q)) (mem : b ∈ c) : b.edge ∉ (a :: q).map edge := by
  have label := back.label_of_mem inv.consistent mem
  rw [List.map_cons, List.mem_cons, not_or]
  constructor
  · intro eq
    rcases eq_or_eq_rev eq with rfl | rfl
    · rw [← label, update_eq_self] at cycle
      exact back.not_cycle inv.root cycle
    · rw [G.dst_rev, start] at label
      exact notBack label
  · intro onCycle
    have ne : q ++ c ≠ [] := append_ne_nil_of_right_ne_nil _ (ne_nil_of_mem mem)
    have path := reads.backPath_of_root inv.root ne
    have once := path.edges_nodup (N := G.toNetwork) inv.consistent (by
      intro e eq
      rw [eq] at path reads
      have arrived : G.src e.rev = r := reads.2.2
      have here : G.src e.rev = s.v := (G.src_rev e).trans (inv.consistent _ _ path.label_head)
      have label := path.label_head
      rw [← here, arrived, inv.root] at label
      cases label)
    rw [List.map_append] at once
    exact (disjoint_of_nodup_append once) onCycle (mem_map_of_mem mem)

theorem cancelCycle_spec (next : s.unread s.v = a :: rest)
    (free : G.Free s.sub a) (notBack : s.pred s.v ≠ some a.rev)
    (onPath : s.pred (G.dst a) ≠ none ∨ G.dst a = r) :
    ∃ s', G.cancelCycle s a = .ok s' ∧ Canceled G sub₀ r (G.dst a) s s' := by
  have start : G.src a = s.v := inv.reading.leaves s.v a (by rw [next]; exact mem_cons_self)
  obtain ⟨p, reads, labels⟩ := inv.path
  obtain ⟨q, c, rfl, back, cycle, fresh⟩ :=
    inv.exists_cycle start reads (inv.met reads labels onPath)
  have consistent' : ∀ x b, update s.pred (G.dst a) (some a) x = some b → G.dst b = x := by
    intro x b label
    rcases of_update label with ⟨eq, ⟨⟩⟩ | ⟨-, label⟩
    · exact eq.symm
    · exact inv.consistent x b label
  have once : ((a :: q).map edge).Nodup := by
    refine cycle.edges_nodup (N := G.toNetwork) consistent' ?_
    intro b eq
    obtain ⟨rfl, rfl⟩ := List.cons.inj eq
    have label := cycle.readsTo.2.1
    rw [start] at label
    rcases of_update label with ⟨-, label⟩ | ⟨-, label⟩
    · exact a.rev_ne (Option.some.inj label).symm
    · exact notBack label
  have freeCycle : ∀ b ∈ a :: q, G.Free s.sub b := by
    refine forall_mem_cons.2 ⟨free, fun b mem => ?_⟩
    exact reads.forall_mem inv.free b (mem_append_left c mem)
  obtain ⟨pred', d, oriented, turned⟩ := orientCycle_spec consistent' cycle
  have freeTurned : ∀ b ∈ d, G.Free s.sub b := by
    rcases turned.direction with eq | opposite
    · exact fun b mem => freeCycle b (eq b mem)
    · exact fun b mem => (free_rev b).1 (freeCycle _ (opposite b mem))
  have onceTurned := turned.edges.nodup_iff.2 once
  obtain ⟨pos, flow, weight⟩ := inv.flow.push_closed (turned.path.isWalk turned.consistent)
    turned.path.ne_nil onceTurned fun b mem => (freeTurned b mem).1
  have less := lessFree_pushAll inv.flow.within turned.path.ne_nil onceTurned freeTurned
  have capacity : G.findCap s.sub pred' (G.dst a) (G.dst a) = .ok (G.bottleneck s.sub d) :=
    MixedGraph.findCap_eq turned.consistent turned.path
  have pushed := MixedGraph.augment_labels s.sub turned.consistent turned.path pos
  have final : update (fun x => if x ∈ d.map G.dst then none else pred' x) (G.dst a)
      (s.pred (G.dst a)) = fun x => if x ∈ q.map G.dst then none else s.pred x := by
    funext x
    by_cases here : x = G.dst a
    · rw [here, update_self, if_neg fresh]
    have members : x ∈ d.map G.dst ↔ x ∈ q.map G.dst := by
      rw [turned.nodes.mem_iff, List.map_cons, List.mem_cons, or_iff_right here]
    rw [update_of_ne here]
    by_cases onCycle : x ∈ q.map G.dst
    · rw [if_pos (members.2 onCycle), if_pos onCycle]
    · rw [if_neg (mt members.1 onCycle), if_neg onCycle, turned.others x, update_of_ne here]
      rw [List.map_cons, List.mem_cons, not_or]
      exact ⟨here, onCycle⟩
  refine ⟨{ s with
    sub := pushAll s.sub d (G.bottleneck s.sub d)
    pred := fun x => if x ∈ q.map G.dst then none else s.pred x
    v := G.dst a }, ?_, ?_, less, rfl, rfl⟩
  · unfold cancelCycle
    simp only [oriented, capacity, pushed, bind, Except.bind, final]
    rfl
  -- the labels that are left are those on the rest of the path
  have kept : ∀ x b, (if x ∈ q.map G.dst then none else s.pred x) = some b →
      s.pred x = some b ∧ b ∈ c := by
    intro x b label
    by_cases onCycle : x ∈ q.map G.dst
    · rw [if_pos onCycle] at label
      cases label
    · rw [if_neg onCycle] at label
      refine ⟨label, (mem_append.1 (labels x b label)).resolve_left fun mem => ?_⟩
      exact onCycle (mem_map.2 ⟨b, mem, inv.consistent x b label⟩)
  have disjoint := fun b mem => inv.edge_disjoint (b := b) start notBack reads back cycle mem
  refine {
    flow := flow
    weight := ?_
    consistent := fun x b label => inv.consistent x b (kept x b label).1
    root := ?_
    path := ⟨c, ?_, fun x b label => (kept x b label).2⟩
    cursor := fun x b label => inv.cursor x b (kept x b label).1
    free := ?_
    noLoop := fun x b label => inv.noLoop x b (kept x b label).1
    reading := ⟨inv.reading.leaves, fun b loop read free' =>
      inv.reading.loops b loop read (less.subset b free'), inv.reading.before⟩ }
  · refine le_trans ?_ inv.weight
    rw [weight]
    have saved := mul_nonneg pos.le (neg_nonneg.2 turned.cheap)
    linarith
  · by_cases onCycle : r ∈ q.map G.dst
    · exact if_pos onCycle
    · exact (if_neg onCycle).trans inv.root
  · refine back.congr inv.consistent fun b mem => if_neg fun onCycle => ?_
    obtain ⟨b', inside, eq⟩ := mem_map.1 onCycle
    have label := reads.label_of_mem inv.consistent (mem_append_left c inside)
    rw [eq, back.label_of_mem inv.consistent mem] at label
    cases label
    exact disjoint b mem (mem_map_of_mem (mem_cons_of_mem a inside))
  · intro x b label
    obtain ⟨label', mem⟩ := kept x b label
    refine (free_congr (pushAll_of_notMem s.sub d _ fun b' inside eq => ?_)).2
      (inv.free x b label')
    exact disjoint b mem (turned.edges.mem_iff.1 (mem_map.2 ⟨b', inside, eq⟩))

end

/-! ## One iteration -/

/-- The number of free edges. -/
def freeCount (G : DiGraph n m) (sub : Fin m → ℚ) : ℕ :=
  (Finset.univ.filter fun e : Fin m => G.Free sub ⟨e, false⟩).card

/-- The number of nodes with a label. -/
def labelCount (pred : Fin n → Option (Arc m)) : ℕ :=
  (Finset.univ.filter fun x => pred x ≠ none).card

/-- A bound on the number of iterations that are left. -/
def freeMeasure (G : DiGraph n m) (s : FreeScan n m) : ℕ :=
  (G.freeCount s.sub + ∑ v, (s.unread v).length) * (n + 1) + (n - labelCount s.pred)

theorem LessFree.count_lt (less : LessFree G sub sub') : G.freeCount sub' < G.freeCount sub := by
  obtain ⟨b, free, lost⟩ := less.lost
  have forward : ∀ (f : Fin m → ℚ) (b : Arc m), G.Free f ⟨b.edge, false⟩ ↔ G.Free f b := by
    rintro f ⟨e, back⟩
    cases back with
    | false => exact Iff.rfl
    | true => exact (free_rev ⟨e, true⟩)
  refine card_lt_card (ssubset_iff_of_subset ?_ |>.2 ⟨b.edge, ?_, ?_⟩)
  · intro e mem
    rw [Finset.mem_filter] at mem ⊢
    exact ⟨mem.1, less.subset _ mem.2⟩
  · exact Finset.mem_filter.2 ⟨Finset.mem_univ _, (forward sub b).2 free⟩
  · exact fun mem => lost ((forward sub' b).1 (Finset.mem_filter.1 mem).2)

theorem labelCount_le (pred : Fin n → Option (Arc m)) : labelCount pred ≤ n := by
  have bound := Finset.card_le_univ (Finset.univ.filter fun x => pred x ≠ none)
  rwa [Fintype.card_fin] at bound

theorem labelCount_update (fresh : pred u = none) (a : Arc m) :
    labelCount (update pred u (some a)) = labelCount pred + 1 := by
  have members : (Finset.univ.filter fun x => update pred u (some a) x ≠ none) =
      insert u (Finset.univ.filter fun x => pred x ≠ none) := by
    ext x
    by_cases here : x = u
    · simp [here]
    · simp [here]
  unfold labelCount
  rw [members, card_insert_of_notMem]
  simp [fresh]

theorem labelCount_clear (label : pred v = some b) :
    labelCount (update pred v none) + 1 = labelCount pred := by
  have again := labelCount_update (update_self v none pred) b
  rw [update_idem, ← label, update_eq_self] at again
  exact again.symm

theorem FreeInv.nodup (inv : FreeInv G sub₀ r s)
    (reads : ReadsTo s.pred G.src s.v p r) : (s.v :: p.map G.src).Nodup := by
  rcases reads.nodup_or_cycle with ne | ⟨c, nonempty, cycle⟩
  · exact ne
  cases c with
  | nil => exact absurd rfl nonempty
  | cons b c =>
    have label := cycle.1
    rw [inv.root] at label
    cases label

theorem FreeInv.src_ne (inv : FreeInv G sub₀ r s) (label : s.pred x = some b) : G.src b ≠ s.v := by
  obtain ⟨p, reads, labels⟩ := inv.path
  intro eq
  have ne := (List.nodup_cons.1 (inv.nodup reads)).1
  rw [← eq] at ne
  exact ne (mem_map_of_mem (labels x b label))

theorem sum_length_update {unread : Fin n → List (Arc m)} (head : unread v = b :: rest) :
    ∑ x, (update unread v rest x).length + 1 = ∑ x, (unread x).length := by
  rw [← add_sum_erase _ _ (Finset.mem_univ v),
    ← add_sum_erase Finset.univ (fun x => (unread x).length) (Finset.mem_univ v),
    update_self, head, List.length_cons]
  have others : ∑ x ∈ Finset.univ.erase v, (update unread v rest x).length =
      ∑ x ∈ Finset.univ.erase v, (unread x).length :=
    sum_congr rfl fun x mem => by
      rw [update_of_ne (ne_of_mem_erase mem)]
  omega

section

variable (inv : FreeInv G sub₀ r s)
include inv

theorem skip_spec (next : s.unread s.v = a :: rest)
    (useless : ¬ (G.Free s.sub a ∧ s.pred s.v ≠ some a.rev)) :
    FreeInv G sub₀ r (skipArc s s.v) ∧ G.freeMeasure (skipArc s s.v) < G.freeMeasure s := by
  have start : G.src a = s.v := inv.reading.leaves s.v a (by rw [next]; exact mem_cons_self)
  have shape : skipArc s s.v = { s with unread := update s.unread s.v rest } := by
    rw [skipArc, next, tail_cons]
  rw [shape]
  refine ⟨{ inv with cursor := ?_, reading := ?_ }, ?_⟩
  · intro x b label
    obtain ⟨rest', head⟩ := inv.cursor x b label
    exact ⟨rest', (update_of_ne (inv.src_ne label) _ _).trans head⟩
  · refine inv.reading.tail next fun loop free => useless ⟨free, fun label => ?_⟩
    refine inv.noLoop _ _ label ?_
    rw [G.src_rev, ← loop, start]
  · have fewer := sum_length_update next
    unfold freeMeasure
    rw [← fewer]
    nlinarith

theorem descend_spec (next : s.unread s.v = a :: rest)
    (free : G.Free s.sub a) (fresh : s.pred (G.dst a) = none) (other : G.dst a ≠ r) :
    FreeInv G sub₀ r { s with pred := update s.pred (G.dst a) (some a), v := G.dst a } ∧
      G.freeMeasure { s with pred := update s.pred (G.dst a) (some a), v := G.dst a } <
        G.freeMeasure s := by
  have start : G.src a = s.v := inv.reading.leaves s.v a (by rw [next]; exact mem_cons_self)
  obtain ⟨p, reads, labels⟩ := inv.path
  have known : ∀ x b, update s.pred (G.dst a) (some a) x = some b →
      (x = G.dst a ∧ b = a) ∨ s.pred x = some b := by
    intro x b label
    rcases of_update label with ⟨here, label⟩ | ⟨-, label⟩
    · exact .inl ⟨here, (Option.some.inj label).symm⟩
    · exact .inr label
  -- the end of the path is the root or has a label
  have moves : G.src a ≠ G.dst a := by
    intro loop
    cases p with
    | nil =>
      have root : s.v = r := reads
      exact other (loop.symm.trans (start.trans root))
    | cons b p =>
      have label := reads.1
      rw [← start, loop, fresh] at label
      cases label
  refine ⟨{
    flow := inv.flow
    weight := inv.weight
    consistent := ?_
    root := (update_of_ne other.symm _ _).trans inv.root
    path := ⟨a :: p, ⟨update_self _ _ _, ?_⟩, ?_⟩
    cursor := ?_
    free := ?_
    noLoop := ?_
    reading := inv.reading }, ?_⟩
  · intro x b label
    rcases known x b label with ⟨rfl, rfl⟩ | before
    · rfl
    · exact inv.consistent x b before
  · rw [start]
    refine reads.mono fun x b label => (update_of_ne ?_ _ _).trans label
    rintro rfl
    rw [fresh] at label
    cases label
  · intro x b label
    rcases known x b label with ⟨rfl, rfl⟩ | before
    · exact mem_cons_self
    · exact mem_cons_of_mem a (labels x b before)
  · intro x b label
    rcases known x b label with ⟨rfl, rfl⟩ | before
    · exact ⟨rest, start ▸ next⟩
    · exact inv.cursor x b before
  · intro x b label
    rcases known x b label with ⟨rfl, rfl⟩ | before
    · exact free
    · exact inv.free x b before
  · intro x b label
    rcases known x b label with ⟨rfl, rfl⟩ | before
    · exact moves
    · exact inv.noLoop x b before
  · have more := labelCount_update fresh a
    have room := labelCount_le (update s.pred (G.dst a) (some a))
    unfold freeMeasure
    dsimp only
    omega

theorem backtrack_spec (label : s.pred s.v = some b) : FreeInv G sub₀ r
        (skipArc { s with pred := update s.pred s.v none, v := G.src b } (G.src b)) ∧
      G.freeMeasure (skipArc { s with pred := update s.pred s.v none, v := G.src b } (G.src b)) <
        G.freeMeasure s := by
  obtain ⟨p, reads, labels⟩ := inv.path
  obtain ⟨rest, next⟩ := inv.cursor s.v b label
  have shape : skipArc { s with pred := update s.pred s.v none, v := G.src b } (G.src b) = { s with
        pred := update s.pred s.v none
        unread := update s.unread (G.src b) rest
        v := G.src b } := by
    rw [skipArc]
    dsimp only
    rw [next, tail_cons]
  rw [shape]
  have ne := inv.nodup reads
  obtain ⟨p, rfl, onward⟩ : ∃ p', p = b :: p' ∧ ReadsTo s.pred G.src (G.src b) p' r := by
    cases p with
    | nil =>
      have root : s.v = r := reads
      rw [root, inv.root] at label
      cases label
    | cons c p =>
      have eq := reads.1
      rw [label] at eq
      cases eq
      exact ⟨p, rfl, reads.2⟩
  rw [List.map_cons] at ne
  have kept : ∀ x c, update s.pred s.v none x = some c → s.pred x = some c ∧ c ∈ p := by
    intro x c label'
    by_cases here : x = s.v
    · rw [here, update_self] at label'
      cases label'
    · rw [update_of_ne here] at label'
      refine ⟨label', (List.mem_cons.1 (labels x c label')).resolve_left ?_⟩
      rintro rfl
      exact here ((inv.consistent _ _ label').symm.trans (inv.consistent _ _ label))
  refine ⟨{
    flow := inv.flow
    weight := inv.weight
    consistent := fun x c label' => inv.consistent x c (kept x c label').1
    root := ?_
    path := ⟨p, ?_, fun x c label' => (kept x c label').2⟩
    cursor := ?_
    free := fun x c label' => inv.free x c (kept x c label').1
    noLoop := fun x c label' => inv.noLoop x c (kept x c label').1
    reading := ?_ }, ?_⟩
  · by_cases here : r = s.v
    · rw [here]
      exact update_self _ _ _
    · exact (update_of_ne here _ _).trans inv.root
  · refine onward.congr inv.consistent fun c mem => update_of_ne ?_ _ _
    intro here
    have met := onward.dst_mem inv.consistent mem
    rw [here] at met
    exact (List.nodup_cons.1 ne).1 met
  · intro x c label'
    obtain ⟨label'', mem⟩ := kept x c label'
    obtain ⟨rest', head⟩ := inv.cursor x c label''
    refine ⟨rest', (update_of_ne ?_ _ _).trans head⟩
    intro here
    have inner := (List.nodup_cons.1 (List.nodup_cons.1 ne).2).1
    rw [← here] at inner
    exact inner (mem_map_of_mem mem)
  · refine inv.reading.tail next fun loop _ => ?_
    exact inv.noLoop _ _ label (loop.trans (inv.consistent _ _ label))
  · have fewer := sum_length_update next
    have cleared := labelCount_clear label
    have room := labelCount_le s.pred
    unfold freeMeasure
    dsimp only
    rw [← fewer]
    have split : (G.freeCount s.sub +
        (∑ x, (update s.unread (G.src b) rest x).length + 1)) * (n + 1) =
        (G.freeCount s.sub + ∑ x, (update s.unread (G.src b) rest x).length) * (n + 1) +
          (n + 1) := by ring
    rw [split]
    omega

end

/-! ## Finished nodes -/

section

variable (G : DiGraph n m) (s : FreeScan n m)

/-- Where the search finds no further arc at a node, it has left no free arc for later: the
free arcs at this node lead to nodes without further arcs, or back along the label. -/
def Exhaustive : Prop :=
  s.unread s.v = [] → ∀ a, G.src a = s.v → G.Free s.sub a → s.pred s.v ≠ some a.rev →
    s.unread (G.dst a) = []

/-- No free cycle goes through a node that has been finished. -/
def Clear : Prop :=
  ∀ x, s.unread x = [] → x ≠ s.v → ∀ c, ¬ G.FreeCycle s.sub x c

end

theorem FreeCycle.mono (subset : ∀ b, G.Free sub' b → G.Free sub b)
    (cycle : G.FreeCycle sub' x c) : G.FreeCycle sub x c :=
  ⟨⟨cycle.nonempty, cycle.walk, fun b mem => subset b (cycle.usable b mem)⟩, cycle.edges⟩

theorem FreeCycle.later
    (cycle : G.FreeCycle sub x (b :: c)) : G.FreeCycle sub (G.dst b) (c ++ [b]) := by
  have swapped : (c ++ [b]).Perm (b :: c) := perm_append_singleton b c
  refine ⟨⟨by simp, isWalk_concat.2 ⟨?_, rfl⟩, fun e mem => ?_⟩, ?_⟩
  · rw [cycle.walk.1]
    exact cycle.walk.2
  · exact cycle.usable e (swapped.mem_iff.1 mem)
  · exact ((swapped.map edge).nodup_iff).2 cycle.edges

theorem FreeCycle.earlier
    (cycle : G.FreeCycle sub x (c ++ [b])) : G.FreeCycle sub (G.src b) (b :: c) := by
  have swapped : (b :: c).Perm (c ++ [b]) := (perm_append_singleton b c).symm
  obtain ⟨walk, last⟩ := isWalk_concat.1 cycle.walk
  refine ⟨⟨by simp, ⟨rfl, last ▸ walk⟩, fun e mem => ?_⟩, ?_⟩
  · exact cycle.usable e (swapped.mem_iff.1 mem)
  · exact ((swapped.map edge).nodup_iff).2 cycle.edges

/-- A finished node is on no free cycle: two different arcs of the cycle leave it, and one of
them would lead to a node that has been finished earlier. -/
theorem Clear.finish (clear : G.Clear s) (inv : FreeInv G sub₀ r s) (done : s.unread s.v = [])
    (exhaustive : G.Exhaustive s) (c : List (Arc m)) : ¬ G.FreeCycle s.sub s.v c := by
  intro cycle
  -- an arc that leaves `v` on a cycle, in either direction, is the reverse of the label
  have only : ∀ b, G.src b = s.v → G.Free s.sub b → (∃ c', G.FreeCycle s.sub (G.dst b) c') →
      s.pred s.v = some b.rev := by
    rintro b start free ⟨c', through⟩
    by_contra other
    by_cases loop : G.dst b = s.v
    · refine inv.reading.loops b (start.trans loop.symm) ?_ free
      rw [start, done]
      exact not_mem_nil
    · exact clear _ (exhaustive done b start free other) loop c' through
  obtain ⟨b, rest, rfl⟩ := exists_cons_of_ne_nil cycle.nonempty
  have first := only b cycle.walk.1 (cycle.usable b mem_cons_self) ⟨_, cycle.later⟩
  obtain ⟨front, e, split⟩ := (eq_nil_or_concat' (b :: rest)).resolve_left (by simp)
  rw [split] at cycle
  have arrives : G.dst e = s.v := (isWalk_concat.1 cycle.walk).2
  have last : s.pred s.v = some e := by
    have back := only e.rev ((G.src_rev e).trans arrives)
      ((free_rev e).2 (cycle.usable e (by simp)))
      ⟨_, by rw [G.dst_rev]; exact cycle.earlier⟩
    rwa [rev_rev] at back
  rw [first] at last
  have eq : b.rev = e := Option.some.inj last
  cases front with
  | nil =>
    -- the cycle has one arc
    rw [nil_append] at split
    obtain ⟨equal, -⟩ := List.cons.inj split
    exact b.rev_ne (eq.trans equal.symm)
  | cons b' front =>
    rw [List.cons_append] at split
    obtain ⟨rfl, -⟩ := List.cons.inj split
    have ne := cycle.edges
    rw [List.cons_append, List.map_cons, List.nodup_cons, List.map_append] at ne
    refine ne.1 (List.mem_append_right _ ?_)
    rw [← eq]
    simp

/-! ## A run -/

/-- The states that the search visits, with the root at that time. -/
inductive Visits (G : DiGraph n m) (sub₀ : Fin m → ℚ) : Fin n → FreeScan n m → Prop
  | first {r : Fin n} (start : (r : ℕ) = 0) : Visits G sub₀ r (G.freeScan sub₀ r)
  | step {r : Fin n} {s s' : FreeScan n m} (visited : Visits G sub₀ r s)
      (step : G.cancelFreeStep r s = .ok (.inl s')) : Visits G sub₀ r s'
  | next {r r' : Fin n} {s s' : FreeScan n m} (visited : Visits G sub₀ r s)
      (step : G.cancelFreeStep r s = .ok (.inr s')) (following : (r' : ℕ) = r + 1) :
      Visits G sub₀ r' { s' with v := r' }

section

variable (G : DiGraph n m) (sub₀ : Fin m → ℚ)

/-- Every state that the search visits is exhaustive. -/
def NothingSkipped : Prop :=
  ∀ r s, G.Visits sub₀ r s → G.Exhaustive s

/-- What holds of every state that the search visits. -/
structure FreeRun (r : Fin n) (s : FreeScan n m) :
    Prop where
  inv : FreeInv G sub₀ r s
  visited : G.Visits sub₀ r s
  clear : G.NothingSkipped sub₀ → G.Clear s

end

/-- A state that another one has become in one step is clear again if the nodes that are
finished then, other than `v`, have been finished before. -/
theorem Clear.step {s' : FreeScan n m} (clear : G.Clear s)
    (subset : ∀ b, G.Free s'.sub b → G.Free s.sub b)
    (finished : ∀ x, s'.unread x = [] → x ≠ s'.v → s.unread x = [] ∧ x ≠ s.v) : G.Clear s' := by
  intro x done other c cycle
  obtain ⟨done', other'⟩ := finished x done other
  exact clear x done' other' c (cycle.mono subset)

theorem cancelFreeStep_spec (run : FreeRun G sub₀ r s) :
    (∃ s', G.cancelFreeStep r s = .ok (.inl s') ∧ FreeRun G sub₀ r s' ∧
      G.freeMeasure s' < G.freeMeasure s) ∨
    (G.cancelFreeStep r s = .ok (.inr s) ∧ s.v = r ∧ s.unread r = []) := by
  have inv := run.inv
  cases next : s.unread s.v with
  | nil =>
    by_cases root : s.v = r
    · refine .inr ⟨?_, root, root ▸ next⟩
      simp only [cancelFreeStep, next, if_pos root]
    obtain ⟨b, label⟩ : ∃ b, s.pred s.v = some b := by
      obtain ⟨p, reads, -⟩ := inv.path
      cases p with
      | nil => exact absurd reads root
      | cons b p => exact ⟨b, reads.1⟩
    obtain ⟨inv', less⟩ := backtrack_spec inv label
    have step : G.cancelFreeStep r s = .ok (.inl (skipArc
        { s with pred := update s.pred s.v none, v := G.src b } (G.src b))) := by
      simp only [cancelFreeStep, next, if_neg root, label, defined, bind, Except.bind, pure,
        Except.pure]
    refine .inl ⟨_, step, ⟨inv', run.visited.step step, fun nothing x done other c cycle => ?_⟩,
      less⟩
    -- all nodes but the new `v` have kept their incidences
    have done' : s.unread x = [] := (update_of_ne other _ _).symm.trans done
    by_cases here : x = s.v
    · rw [here] at cycle
      exact (run.clear nothing).finish inv next (nothing r s run.visited) c cycle
    · exact run.clear nothing x done' here c cycle
  | cons a rest =>
    have active : ∀ x, s.unread x = [] → x ≠ s.v := by
      rintro x done rfl
      rw [next] at done
      cases done
    by_cases useful : G.Free s.sub a ∧ s.pred s.v ≠ some a.rev
    · by_cases closes : s.pred (G.dst a) ≠ none ∨ G.dst a = r
      · obtain ⟨s', canceled, after⟩ := cancelCycle_spec inv next useful.1 useful.2 closes
        have step : G.cancelFreeStep r s = .ok (.inl s') := by
          simp only [cancelFreeStep, next, if_pos useful, if_pos closes, canceled, bind,
            Except.bind, pure, Except.pure]
        refine .inl ⟨s', step, ⟨after.inv, run.visited.step step, fun nothing => ?_⟩, ?_⟩
        · refine (run.clear nothing).step after.lessFree.subset fun x done _ => ?_
          rw [after.unread] at done
          exact ⟨done, active x done⟩
        · have fewer := after.lessFree.count_lt
          unfold freeMeasure
          rw [after.unread]
          have split : (G.freeCount s'.sub + 1 + ∑ x, (s.unread x).length) * (n + 1) ≤
              (G.freeCount s.sub + ∑ x, (s.unread x).length) * (n + 1) :=
            Nat.mul_le_mul_right _ (by omega)
          have distribute : (G.freeCount s'.sub + 1 + ∑ x, (s.unread x).length) * (n + 1) =
              (G.freeCount s'.sub + ∑ x, (s.unread x).length) * (n + 1) + (n + 1) := by ring
          omega
      · rw [not_or, not_not] at closes
        obtain ⟨inv', less⟩ := descend_spec inv next useful.1 closes.1 closes.2
        have step : G.cancelFreeStep r s = .ok (.inl { s with
            pred := update s.pred (G.dst a) (some a)
            v := G.dst a }) := by
          simp only [cancelFreeStep, next, if_pos useful]
          rw [if_neg]
          rw [not_or, not_not]
          exact closes
        refine .inl ⟨_, step, ⟨inv', run.visited.step step, fun nothing => ?_⟩, less⟩
        exact (run.clear nothing).step (fun b free => free) fun x done _ => ⟨done, active x done⟩
    · obtain ⟨inv', less⟩ := skip_spec inv next useful
      have step : G.cancelFreeStep r s = .ok (.inl (skipArc s s.v)) := by
        simp only [cancelFreeStep, next, if_neg useful]
      refine .inl ⟨_, step, ⟨inv', run.visited.step step, fun nothing => ?_⟩, less⟩
      refine (run.clear nothing).step (fun b free => free) fun x done other => ⟨?_, other⟩
      exact (update_of_ne other _ _).symm.trans done

theorem cancelFreeRoot_spec (run : FreeRun G sub₀ r s)
    (enough : G.freeMeasure s < G.cancelFreeFuel) :
    ∃ s', loop .fuel (G.cancelFreeStep r) G.cancelFreeFuel s = .ok s' ∧ FreeRun G sub₀ r s' ∧
      G.freeMeasure s' < G.cancelFreeFuel ∧ G.cancelFreeStep r s' = .ok (.inr s') ∧ s'.v = r ∧
      s'.unread r = [] := by
  refine loop_of_measure .fuel (G.cancelFreeStep r)
    (fun s => FreeRun G sub₀ r s ∧ G.freeMeasure s < G.cancelFreeFuel) G.freeMeasure _ ?_
    ⟨run, enough⟩ _ enough
  rintro s ⟨run, bounded⟩
  rcases cancelFreeStep_spec run with ⟨s', step, run', less⟩ | ⟨step, root, done⟩
  · exact .inl ⟨s', step, ⟨run', less.trans bounded⟩, less⟩
  · exact .inr ⟨s, step, run, bounded, step, root, done⟩

/-- The state between two roots, when those with indices below `k` have been served. -/
structure Between (G : DiGraph n m) (sub₀ : Fin m → ℚ) (k : ℕ) (s : FreeScan n m) : Prop where
  flow : G.SameDemand sub₀ s.sub
  weight : G.weight s.sub ≤ G.weight sub₀
  unlabelled : ∀ x, s.pred x = none
  reading : ∀ r : Fin n, (r : ℕ) ≤ k → ReadInv G s.sub r s.unread
  before : ∀ x : Fin n, (x : ℕ) < k → s.unread x = []
  visited : ∀ r : Fin n, (r : ℕ) = k → G.Visits sub₀ r { s with v := r }
  clear : G.NothingSkipped sub₀ → ∀ x, s.unread x = [] → ∀ c, ¬ G.FreeCycle s.sub x c
  bounded : G.freeMeasure s < G.cancelFreeFuel

theorem Between.start (within : G.WithinBounds sub₀) (v : Fin n) :
    Between G sub₀ 0 (G.freeScan sub₀ v) where
  flow := ⟨within, fun _ => rfl⟩
  weight := le_refl _
  unlabelled := fun _ => rfl
  reading := fun r low => {
    leaves := fun x a mem => (G.mem_incidences x a).1 mem
    loops := fun a _ read => absurd ((G.mem_incidences _ a).2 rfl) read
    before := fun x below => by
      have := Fin.lt_def.1 below
      omega }
  before := fun x low => absurd low (Nat.not_lt_zero _)
  visited := fun r zero => .first zero
  clear := by
    intro _ x done c cycle
    obtain ⟨b, rest, rfl⟩ := exists_cons_of_ne_nil cycle.nonempty
    have mem := (G.mem_incidences x b).2 cycle.walk.1
    have empty : G.incidences x = [] := done
    rw [empty] at mem
    cases mem
  bounded := by
    have few : G.freeCount sub₀ ≤ m := by
      have bound := Finset.card_le_univ (Finset.univ.filter fun e : Fin m => G.Free sub₀ ⟨e, false⟩)
      rwa [Fintype.card_fin] at bound
    have scaled := Nat.mul_le_mul_right (n + 1)
      (Nat.add_le_add_right few (∑ v, (G.incidences v).length))
    have split : G.cancelFreeFuel = (m + ∑ v, (G.incidences v).length) * (n + 1) + (n + 1) := by
      unfold cancelFreeFuel
      ring
    unfold freeMeasure freeScan
    dsimp only
    omega

theorem Between.root (between : Between G sub₀ r s) :
    ∃ s', loop .fuel (G.cancelFreeStep r) G.cancelFreeFuel { s with v := r } = .ok s' ∧
      Between G sub₀ (r + 1) s' := by
  have run : FreeRun G sub₀ r { s with v := r } := {
    inv := {
      flow := between.flow
      weight := between.weight
      consistent := fun x a label => by cases (between.unlabelled x).symm.trans label
      root := between.unlabelled r
      path := ⟨[], rfl, fun x a label => by cases (between.unlabelled x).symm.trans label⟩
      cursor := fun x a label => by cases (between.unlabelled x).symm.trans label
      free := fun x a label => by cases (between.unlabelled x).symm.trans label
      noLoop := fun x a label => by cases (between.unlabelled x).symm.trans label
      reading := between.reading r (le_refl _) }
    visited := between.visited r rfl
    clear := fun nothing x done _ => between.clear nothing x done }
  obtain ⟨s', res, run', bounded, step, here, done⟩ := cancelFreeRoot_spec run between.bounded
  have inv := run'.inv
  have unlabelled : ∀ x, s'.pred x = none := by
    intro x
    obtain ⟨p, reads, labels⟩ := inv.path
    cases p with
    | nil => exact Option.eq_none_iff_forall_ne_some.2 fun b label => by cases labels x b label
    | cons b p =>
      have label := reads.1
      rw [here, inv.root] at label
      cases label
  have before : ∀ x : Fin n, (x : ℕ) < r + 1 → s'.unread x = [] := by
    intro x low
    by_cases last : x = r
    · rw [last]
      exact done
    · refine inv.reading.before x (Fin.lt_def.2 ?_)
      have := Fin.val_ne_of_ne last
      omega
  refine ⟨s', res, {
    flow := inv.flow
    weight := inv.weight
    unlabelled := unlabelled
    reading := fun r' low => ⟨inv.reading.leaves, inv.reading.loops, fun x below =>
      before x (lt_of_lt_of_le (Fin.lt_def.1 below) low)⟩
    before := before
    visited := fun r' following => run'.visited.next step following
    clear := ?_
    bounded := bounded }⟩
  intro nothing x finished c cycle
  by_cases last : x = s'.v
  · rw [last] at cycle finished
    exact (run'.clear nothing).finish inv finished (nothing r s' run'.visited) c cycle
  · exact run'.clear nothing x finished last c cycle

theorem Between.roots (left : ℕ) : ∀ (k : ℕ) (s : FreeScan n m), k + left = n → Between G sub₀ k s →
    ∃ s', ((finRange n).drop k).foldlM (fun s r =>
        loop .fuel (G.cancelFreeStep r) G.cancelFreeFuel { s with v := r }) s = .ok s' ∧
      Between G sub₀ n s' := by
  induction left with
  | zero =>
    intro k s total between
    obtain rfl : k = n := by omega
    refine ⟨s, ?_, between⟩
    rw [drop_of_length_le (by rw [length_finRange])]
    rfl
  | succ left ih =>
    intro k s total between
    have low : k < (finRange n).length := by
      rw [length_finRange]
      omega
    have index : (((finRange n)[k] : Fin n) : ℕ) = k := by simp
    rw [drop_eq_getElem_cons low, foldlM_cons]
    generalize (finRange n)[k] = r at index ⊢
    subst index
    obtain ⟨s', res, between'⟩ := between.root
    rw [res]
    exact ih (r + 1) s' (by omega) between'

/-! ## The whole search -/

/-- **Canceling free cycles.** The search returns for every feasible flow. The new flow is
feasible, has the same divergences, and its weight is not larger. No cycle of free edges is
left if no free arc has been skipped, that is, if every node runs out of arcs only when its
free arcs lead to nodes without further arcs, except for the arc back to its predecessor. -/
theorem cancelFree_spec (G : DiGraph n m) (within : G.WithinBounds sub₀) :
    ∃ sub, G.cancelFree sub₀ = .ok sub ∧ G.WithinBounds sub ∧
      (∀ v, G.divergence sub v = G.divergence sub₀ v) ∧ G.weight sub ≤ G.weight sub₀ ∧
      (G.NothingSkipped sub₀ → ∀ x c, ¬ G.FreeCycle sub x c) := by
  unfold cancelFree
  cases nodes : finRange n with
  | nil =>
    refine ⟨sub₀, rfl, within, fun _ => rfl, le_refl _, fun _ x => ?_⟩
    have member := mem_finRange x
    rw [nodes] at member
    cases member
  | cons v rest =>
    obtain ⟨s, run, between⟩ := Between.roots n 0 (G.freeScan sub₀ v) (Nat.zero_add n)
      (Between.start within v)
    rw [drop_zero, nodes] at run
    refine ⟨s.sub, ?_, between.flow.within, between.flow.divergences, between.weight,
      fun nothing x => between.clear nothing x (between.before x x.isLt)⟩
    simp only [run, bind, Except.bind, pure, Except.pure]

/-- A node with a free loop. -/
def freeLoop : DiGraph 1 1 :=
  .ofArcs (fun _ => 0) (fun _ => 0) (fun _ => 2) (fun _ => 0) (fun _ => 1) (fun _ => 0)

theorem cancelFree_freeLoop : freeLoop.Free (fun _ => 1) ⟨0, false⟩ ∧
      ∃ sub, freeLoop.cancelFree (fun _ => 1) = .ok sub ∧ ∀ x c, ¬ freeLoop.FreeCycle sub x c := by
  obtain ⟨sub, run, -, -, -, acyclic⟩ :=
    @cancelFree_spec 1 1 (fun _ => 1) freeLoop (by decide +kernel)
  refine ⟨by decide +kernel, sub, run, acyclic fun r s _ done a _ _ _ => ?_⟩
  rw [Subsingleton.elim (freeLoop.dst a) s.v]
  exact done

/-- The free edges form a graph with two cycles through the first node. Node 2 is reached from
node 1, and leaves the path when the first edge is saturated. -/
def skippedArc : DiGraph 5 7 :=
  .ofArcs ![0, 1, 2, 3, 2, 4, 0] ![1, 2, 3, 0, 4, 1, 4] ![2, 6, 6, 6, 6, 6, 6] (fun _ => 0)
    (fun _ => 0) ![-1, 1, -3, 0, 3]

/-- A feasible flow of this graph. -/
def skippedFlow : Fin 7 → ℚ := ![1, 3, 3, 3, 3, 3, 3]

/-- The arc from node 2 back to node 1 is skipped, and the cycle of the nodes 1, 2 and 4
survives. -/
theorem cancelFree_skippedArc : skippedArc.WithinBounds skippedFlow ∧
      (∀ v, skippedArc.divergence skippedFlow v = skippedArc.demand v) ∧
      (∀ e, skippedArc.ucap e < infCap) ∧ ∃ sub, skippedArc.cancelFree skippedFlow = .ok sub ∧
        skippedArc.FreeCycle sub 1 [⟨1, false⟩, ⟨4, false⟩, ⟨5, false⟩] := by
  refine ⟨by decide +kernel, by decide +kernel, by decide +kernel, ?_⟩
  have survives : (match skippedArc.cancelFree skippedFlow with
    | .ok sub => decide (∀ a ∈ [⟨1, false⟩, ⟨4, false⟩, ⟨5, false⟩], skippedArc.Free sub a)
    | .error _ => false) = true := by decide +kernel
  cases run : skippedArc.cancelFree skippedFlow with
  | error raise =>
    rw [run] at survives
    cases survives
  | ok sub =>
    rw [run] at survives
    refine ⟨sub, rfl, ⟨⟨by simp, ?_, of_decide_eq_true survives⟩, by decide⟩⟩
    exact ⟨rfl, rfl, rfl, rfl⟩

end DiGraph

end Goblin
