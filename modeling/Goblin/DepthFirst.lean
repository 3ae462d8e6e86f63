import Goblin.Augment
import Goblin.Library.Termination

/-!
# Depth-first searches

`Connected` and `StronglyConnected` search with an investigator: an arc is read at the current
node, and if it is admitted, its end node becomes the current one. A node without unread arcs is
left, and the search goes back along the predecessor label.

The nodes between the root and the current node form the `path`, the current one in front, and the
nodes that the search has left are `left`, the last one in front. In the end, these are the nodes
that can be reached from the root (`searchFrom_spec`). Among the nodes that can be reached from
one of them, the one that has been left last leads back (`Leads`), which is what the second pass of
`StronglyConnected` depends on.
-/

set_option autoImplicit false

namespace Goblin

open Library List
open Function (update update_self update_of_ne)

variable {n m : ℕ}

/-- The registers of the searches, and the stacks `S` and `Recovery`. -/
structure Scan (n m : ℕ) where
  nodeColour : Fin n → Option ℕ
  pred : Fin n → Option (Arc m)
  marked : Fin n → Bool
  stack : List (Fin n)
  recovery : List (Fin n)

/-- The registers, the incidences that the investigator has not read, and the current node. -/
structure Search (n m : ℕ) where
  scan : Scan n m
  unread : Fin n → List (Arc m)
  u : Fin n

/-- In what the searches differ: the test for an arc, what is done with a node that is entered or
left, and whether its incidences are reset then. -/
structure Visits (n m : ℕ) where
  admits : Scan n m → Arc m → Bool
  enter : Fin n → Scan n m → Scan n m
  leave : Fin n → Scan n m → Except Raise (Scan n m)
  resets : Bool

namespace MixedGraph

variable (G : MixedGraph n m) (V : Visits n m)

/-- The end node of an admitted arc is labelled and entered. -/
def entered (a : Arc m) (scan : Scan n m) : Scan n m :=
  V.enter (G.endNode a) { scan with pred := update scan.pred (G.endNode a) (some a) }

/-- One iteration of a search from the root `r`. -/
def searchStep (r : Fin n) (s : Search n m) : Except Raise (Search n m ⊕ Search n m) :=
  match s.unread s.u with
  | a :: l =>
    if V.admits s.scan a = true then
      .ok (.inl ⟨G.entered V a s.scan, update s.unread s.u l, G.endNode a⟩)
    else .ok (.inl { s with unread := update s.unread s.u l })
  | [] => do
    let scan ← V.leave s.u s.scan
    let unread := if V.resets = true then update s.unread s.u (G.incidences s.u) else s.unread
    if s.u = r then return .inr ⟨scan, unread, s.u⟩
    else
      let a ← defined (scan.pred s.u)
      return .inl ⟨scan, unread, G.startNode a⟩

/-- The search from `r`, with as many iterations as it can take. -/
def searchFrom (r : Fin n) (scan : Scan n m) (unread : Fin n → List (Arc m)) :
    Except Raise (Search n m) :=
  loop .fuel (G.searchStep V r) (∑ v, ((G.incidences v).length + 1) + 1) ⟨scan, unread, r⟩

/-! ## What a search visits -/

variable (el : Arc m → Prop) (S : Fin n → Prop)

/-- The nodes of `S` that can be reached along eligible arcs. -/
def Reach : Fin n → Fin n → Prop :=
  Relation.ReflTransGen fun x y => ∃ a, G.src a = x ∧ G.dst a = y ∧ el a ∧ S y

/-- Among the nodes that can be reached from `x`, the one that has been left last leads back. -/
def Leads (left : List (Fin n)) (x : Fin n) : Prop :=
  ∃ front y back, left = front ++ y :: back ∧ G.Reach el S x y ∧ G.Reach el S y x ∧
    ∀ z, G.Reach el S x z → z ∈ y :: back

/-- `Inv` describes the registers when the nodes of `path` and `left` have been visited, and it is
kept by the actions. The admitted arcs are the eligible ones to nodes of `S` that have not been
visited. -/
structure Follows (Inv : Scan n m → List (Fin n) → List (Fin n) → Prop) : Prop where
  admits : ∀ {scan path left a}, Inv scan path left → G.src a ∈ path →
    (V.admits scan a = true ↔ el a ∧ S (G.dst a) ∧ G.dst a ∉ path ++ left)
  enter : ∀ {scan path left a}, Inv scan path left → S (G.dst a) → G.dst a ∉ path ++ left →
    (G.entered V a scan).pred = update scan.pred (G.dst a) (some a) ∧
      Inv (G.entered V a scan) (G.dst a :: path) left
  leave : ∀ {scan u path left}, Inv scan (u :: path) left → u ∉ left →
    ∃ scan', V.leave u scan = .ok scan' ∧ scan'.pred = scan.pred ∧ Inv scan' path (u :: left)

/-- What holds between two iterations of the search from `r`. -/
structure Searching (r : Fin n) (unread0 : Fin n → List (Arc m)) (pred : Fin n → Option (Arc m))
    (unread : Fin n → List (Arc m)) (path left : List (Fin n)) : Prop where
  labels : ∀ x y q, x :: y :: q <:+ path → ∃ a, pred x = some a ∧ G.src a = y
  nodup : (path ++ left).Nodup
  inside : ∀ v ∈ path ++ left, S v ∧ G.Reach el S r v
  climbs : path.Pairwise fun x y => G.Reach el S y x
  starts : ∀ v, ∀ a ∈ unread v, G.src a = v
  /-- An eligible arc of the path has not been read, or its end node has been visited. -/
  pending : ∀ a, G.src a ∈ path → el a → S (G.dst a) →
    a ∈ unread (G.src a) ∨ G.dst a ∈ path ++ left
  closed : ∀ a, G.src a ∈ left → el a → S (G.dst a) → G.dst a ∈ path ++ left
  rest : ∀ v, v ∉ path → unread v = if v ∈ left ∧ V.resets = false then [] else unread0 v
  leaders : ∀ x ∈ left, (∃ g ∈ path, G.Reach el S x g ∧ G.Reach el S g x) ∨ G.Leads el S left x

variable {G V el S} {r u : Fin n} {unread0 unread : Fin n → List (Arc m)} {a : Arc m}
  {pred : Fin n → Option (Arc m)} {l : List (Arc m)} {path left : List (Fin n)} {s : Search n m}

theorem Reach.step {x : Fin n} (reach : G.Reach el S x (G.src a)) (eligible : el a)
    (inside : S (G.dst a)) : G.Reach el S x (G.dst a) :=
  reach.tail ⟨a, rfl, rfl, eligible, inside⟩

/-- An arc of the path to a node that has been visited, or that does not matter, is read. -/
theorem Searching.read {w : Fin n} (searching : G.Searching V el S r unread0 pred unread path left)
    (inPath : w ∈ path) (head : unread w = a :: l)
    (seen : el a → S (G.dst a) → G.dst a ∈ path ++ left) :
    G.Searching V el S r unread0 pred (update unread w l) path left := by
  refine ⟨searching.labels, searching.nodup, searching.inside, searching.climbs,
    fun v b mem => ?_, fun b start eligible inside => ?_, searching.closed, fun v out => ?_, searching.leaders⟩
  · by_cases eq : v = w
    · rw [eq, update_self] at mem
      exact eq ▸ searching.starts w b (head ▸ mem_cons_of_mem a mem)
    · rw [update_of_ne eq] at mem
      exact searching.starts v b mem
  · rcases searching.pending b start eligible inside with waits | visited
    · by_cases eq : G.src b = w
      · rw [eq, update_self]
        rw [eq, head] at waits
        rcases mem_cons.1 waits with rfl | later
        · exact .inr (seen eligible inside)
        · exact .inl later
      · rw [update_of_ne eq]
        exact .inl waits
    · exact .inr visited
  · have other : v ≠ w := by
      rintro rfl
      exact out inPath
    rw [update_of_ne other]
    exact searching.rest v out

section

variable (searching : G.Searching V el S r unread0 pred unread (u :: path) left)
  (untouched : ∀ v, S v → unread0 v = G.incidences v)
include searching untouched

theorem Searching.enter (start : G.src a = u) (eligible : el a)
    (inside : S (G.dst a)) (fresh : G.dst a ∉ (u :: path) ++ left) :
    G.Searching V el S r unread0 (update pred (G.dst a) (some a)) unread (G.dst a :: u :: path)
      left := by
  obtain ⟨notPath, notLeft⟩ := not_or.1 (mt mem_append.2 fresh)
  have onward : ∀ y ∈ u :: path, G.Reach el S y (G.dst a) := by
    intro y mem
    apply Reach.step _ eligible inside
    rw [start]
    rcases mem_cons.1 mem with rfl | below
    · exact .refl
    · exact (pairwise_cons.1 searching.climbs).1 y below
  refine ⟨fun x y q suffix => ?_, nodup_cons.2 ⟨fresh, searching.nodup⟩, fun v mem => ?_,
    pairwise_cons.2 ⟨onward, searching.climbs⟩, searching.starts,
    fun b from' eligible' inside' => ?_,
    fun b from' eligible' inside' =>
      mem_cons_of_mem _ (searching.closed b from' eligible' inside'),
    fun v out => searching.rest v fun mem => out (mem_cons_of_mem _ mem),
    fun x mem => (searching.leaders x mem).imp_left fun ⟨g, inPath, reach⟩ =>
      ⟨g, mem_cons_of_mem _ inPath, reach⟩⟩
  · rcases suffix_cons_iff.1 suffix with whole | within
    · obtain ⟨rfl, rfl, -⟩ : x = G.dst a ∧ y = u ∧ q = path := by simpa using whole
      exact ⟨a, update_self .., start⟩
    · have other : x ≠ G.dst a := by
        rintro rfl
        exact notPath (within.subset mem_cons_self)
      rw [update_of_ne other]
      exact searching.labels x y q within
  · rcases mem_cons.1 mem with rfl | old
    · exact ⟨inside, (searching.inside u mem_cons_self).2.trans (onward u mem_cons_self)⟩
    · exact searching.inside v old
  · rcases mem_cons.1 from' with new | old
    · left
      rw [new, searching.rest _ notPath, if_neg fun both => notLeft both.1, untouched _ inside,
        G.mem_incidences, new]
    · exact (searching.pending b old eligible' inside').imp_right (mem_cons_of_mem _)

theorem Searching.leave (done : unread u = []) : G.Searching V el S r unread0 pred
      (if V.resets = true then update unread u (G.incidences u) else unread) path (u :: left) := by
  set unread' := if V.resets = true then update unread u (G.incidences u) else unread with eq
  have others : ∀ v, v ≠ u → unread' v = unread v := by
    intro v other
    rw [eq]
    split_ifs
    · exact update_of_ne other ..
    · rfl
  have perm : ((u :: path) ++ left).Perm (path ++ u :: left) := perm_middle.symm
  have nodup := searching.nodup
  have fresh : u ∉ path := fun mem =>
    (nodup_cons.1 nodup).1 (mem_append_left _ mem)
  have insideU := (searching.inside u mem_cons_self).1
  have closed : ∀ b, G.src b ∈ u :: left → el b → S (G.dst b) → G.dst b ∈ path ++ u :: left := by
    intro b from' eligible inside
    rw [← perm.mem_iff]
    rcases mem_cons.1 from' with same | old
    · refine (searching.pending b (same ▸ mem_cons_self) eligible inside).resolve_left ?_
      rw [same, done]
      exact not_mem_nil
    · exact searching.closed b old eligible inside
  -- the node itself is the last one, unless it leads to the rest of the path
  have leader : (∃ g ∈ path, G.Reach el S u g ∧ G.Reach el S g u) ∨ G.Leads el S (u :: left) u := by
    by_cases escapes : ∃ g ∈ path, G.Reach el S u g
    · obtain ⟨g, below, reach⟩ := escapes
      exact .inl ⟨g, below, reach, (pairwise_cons.1 searching.climbs).1 g below⟩
    · refine .inr ⟨[], u, left, rfl, .refl, .refl, fun z reach => ?_⟩
      induction reach with
      | refl => exact mem_cons_self
      | tail reach step ih =>
        obtain ⟨b, rfl, rfl, eligible, inside⟩ := step
        refine (mem_append.1 (closed b ih eligible inside)).resolve_left fun below => ?_
        exact escapes ⟨_, below, Reach.step reach eligible inside⟩
  refine ⟨fun x y q suffix => searching.labels x y q (suffix.trans (suffix_cons ..)),
    perm.nodup_iff.1 nodup, fun v mem => searching.inside v (perm.mem_iff.2 mem),
    (pairwise_cons.1 searching.climbs).2, fun v b mem => ?_,
    fun b from' eligible inside => ?_, closed, fun v out => ?_, fun x mem => ?_⟩
  · by_cases same : v = u
    · rw [same, eq] at mem
      split_ifs at mem
      · rw [update_self, G.mem_incidences] at mem
        rw [mem, same]
      · rw [done] at mem
        cases mem
    · exact searching.starts v b (others v same ▸ mem)
  · rw [others _ fun same => fresh (same ▸ from'), ← perm.mem_iff]
    exact searching.pending b (mem_cons_of_mem _ from') eligible inside
  · by_cases same : v = u
    · rw [same, eq, untouched u insideU]
      cases resets : V.resets <;> simp [done]
    · rw [others v same, searching.rest v (by simp [same, out])]
      simp [same]
  · rcases mem_cons.1 mem with rfl | old
    · exact leader
    rcases searching.leaders x old with ⟨g, inPath, there, back⟩ | ⟨front, y, q, split, rest⟩
    · rcases mem_cons.1 inPath with rfl | below
      · rcases leader with ⟨g', below, on, home⟩ | ⟨front, y, q, split, on, home, last⟩
        · exact .inl ⟨g', below, there.trans on, home.trans back⟩
        · exact .inr ⟨front, y, q, split, there.trans on, home.trans back, fun z reach =>
            last z (back.trans reach)⟩
      · exact .inl ⟨g, below, there, back⟩
    · exact .inr ⟨u :: front, y, q, by rw [split]; rfl, rest⟩

end

/-! ## The whole search -/

/-- The iterations that are left. -/
def remaining (unread : Fin n → List (Arc m)) (left : List (Fin n)) : ℕ :=
  ∑ v, if v ∈ left then 0 else (unread v).length + 1

theorem remaining_lt {unread' : Fin n → List (Arc m)} {left' : List (Fin n)} (fresh : u ∉ left)
    (less : (if u ∈ left' then 0 else (unread' u).length + 1) < (unread u).length + 1)
    (others : ∀ v, v ≠ u → unread' v = unread v ∧ (v ∈ left' ↔ v ∈ left)) :
    remaining unread' left' < remaining unread left := by
  refine Finset.sum_lt_sum (fun v _ => ?_) ⟨u, Finset.mem_univ u, by rwa [if_neg fresh]⟩
  by_cases eq : v = u
  · rw [eq, if_neg fresh]
    exact less.le
  · rw [(others v eq).1]
    simp only [(others v eq).2, le_refl]

theorem search_loop {Inv : Scan n m → List (Fin n) → List (Fin n) → Prop}
    (follows : G.Follows V el S Inv) (untouched : ∀ v, S v → unread0 v = G.incidences v)
    {fuel : ℕ} (inv : Inv s.scan (s.u :: path) left) (root : (s.u :: path).getLast? = some r)
    (searching : G.Searching V el S r unread0 s.scan.pred s.unread (s.u :: path) left)
    (enough : remaining s.unread left < fuel) :
    ∃ s' left', loop .fuel (G.searchStep V r) fuel s = .ok s' ∧ Inv s'.scan [] left' ∧ r ∈ left' ∧
      G.Searching V el S r unread0 s'.scan.pred s'.unread [] left' := by
  induction fuel generalizing s path left with
  | zero => exact absurd enough (Nat.not_lt_zero _)
  | succ fuel ih =>
    have notLeft : s.u ∉ left := fun mem =>
      (nodup_append.1 searching.nodup).2.2 _ mem_cons_self _ mem rfl
    cases head : s.unread s.u with
    | cons a l =>
      have start := searching.starts s.u a (head ▸ mem_cons_self)
      have shorter : remaining (update s.unread s.u l) left < fuel := by
        refine Nat.lt_of_lt_of_le (remaining_lt notLeft ?_ fun v other =>
          ⟨update_of_ne other .., Iff.rfl⟩) (Nat.lt_succ_iff.1 enough)
        simp [notLeft, head]
      have admits := follows.admits inv (start ▸ mem_cons_self : G.src a ∈ s.u :: path)
      by_cases admitted : V.admits s.scan a = true
      · obtain ⟨eligible, inside, fresh⟩ := admits.1 admitted
        obtain ⟨label, inv'⟩ := follows.enter inv inside fresh
        have next := (searching.enter untouched start eligible inside fresh).read
          (mem_cons_of_mem _ mem_cons_self) head fun _ _ => mem_cons_self
        rw [← label] at next
        rw [loop_inl (by rw [searchStep, head]; simp only [admitted, if_true]; rfl)]
        exact ih inv' (by rwa [getLast?_cons_cons]) next shorter
      · rw [loop_inl (by rw [searchStep, head]; simp only [admitted]; rfl)]
        refine ih inv root (searching.read mem_cons_self head ?_) shorter
        intro eligible inside
        by_contra fresh
        exact admitted (admits.2 ⟨eligible, inside, fresh⟩)
    | nil =>
      obtain ⟨scan', res, label, inv'⟩ := follows.leave inv notLeft
      have next := searching.leave untouched head
      rw [← label] at next
      by_cases isRoot : s.u = r
      · subst isRoot
        have alone : path = [] := by
          cases path with
          | nil => rfl
          | cons y q =>
            rw [getLast?_cons_cons] at root
            exact absurd (mem_append_left _ (mem_of_getLast? root)) (nodup_cons.1 searching.nodup).1
        rw [alone] at inv' next
        refine ⟨_, _, loop_inr (by
          rw [searchStep, head]
          simp only [res, bind, Except.bind, if_true]
          rfl) _, inv', mem_cons_self, next⟩
      · cases path with
        | nil => exact absurd (by simpa using root) isRoot
        | cons y q =>
          obtain ⟨a, val, rfl⟩ := searching.labels s.u y q (suffix_refl _)
          rw [loop_inl (by
            rw [searchStep, head]
            simp only [res, bind, Except.bind, isRoot, if_false, label, val, defined]
            rfl)]
          refine @ih q (s.u :: left) ⟨scan', _, G.startNode a⟩ inv'
            (by rwa [getLast?_cons_cons] at root) next ?_
          refine Nat.lt_of_lt_of_le (remaining_lt notLeft (by simp) fun v other => ⟨?_, by
            simp [other]⟩) (Nat.lt_succ_iff.1 enough)
          dsimp only
          split_ifs
          · exact update_of_ne other ..
          · rfl

/-- **A search leaves the nodes that can be reached from its root.** -/
theorem searchFrom_spec {Inv : Scan n m → List (Fin n) → List (Fin n) → Prop} {scan : Scan n m}
    (follows : G.Follows V el S Inv) (inside : S r)
    (untouched : ∀ v, unread0 v = G.incidences v ∨ (¬ S v ∧ unread0 v = []))
    (inv : Inv scan [r] []) : ∃ s left, G.searchFrom V r scan unread0 = .ok s ∧ Inv s.scan [] left ∧
      (∀ v, v ∈ left ↔ G.Reach el S r v) ∧ left.Nodup ∧ (∀ x ∈ left, G.Leads el S left x) ∧
      ∀ v, s.unread v = if v ∈ left ∧ V.resets = false then [] else unread0 v := by
  have whole : ∀ v, S v → unread0 v = G.incidences v := fun v inside =>
    (untouched v).resolve_right fun ⟨out, _⟩ => out inside
  have start : G.Searching V el S r unread0 scan.pred unread0 [r] [] := by
    refine ⟨fun x y q suffix => ?_, by simp, fun v mem => ?_, pairwise_singleton _ _,
      fun v a mem => ?_, fun a from' _ _ => ?_, by simp, fun v _ => by simp, by simp⟩
    · have short := suffix.length_le
      simp at short
    · rw [mem_singleton.1 mem]
      exact ⟨inside, .refl⟩
    · rcases untouched v with all | ⟨-, none⟩
      · exact (G.mem_incidences v a).1 (all ▸ mem)
      · rw [none] at mem
        cases mem
    · left
      rw [mem_singleton.1 from', whole r inside, G.mem_incidences, mem_singleton.1 from']
  have enough : remaining unread0 [] < ∑ v, ((G.incidences v).length + 1) + 1 := by
    refine Nat.lt_succ_of_le (Finset.sum_le_sum fun v _ => ?_)
    rcases untouched v with all | ⟨-, none⟩
    · simp [all]
    · simp [none]
  obtain ⟨s, left, res, inv', root, searching⟩ :=
    search_loop (s := ⟨scan, unread0, r⟩) follows whole inv rfl start enough
  refine ⟨s, left, res, inv', fun v => ⟨fun mem => (searching.inside v mem).2, fun reach =>
    ?_⟩, searching.nodup, fun x mem => (searching.leaders x mem).resolve_left (by simp),
    fun v => searching.rest v not_mem_nil⟩
  induction reach with
  | refl => exact root
  | tail _ step ih =>
    obtain ⟨a, rfl, rfl, eligible, inside'⟩ := step
    exact searching.closed a ih eligible inside'

end MixedGraph

end Goblin
