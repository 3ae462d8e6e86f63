import Goblin.SimplexThread

/-!
# Bases and rehanging

A basis is a spanning forest with its thread index, its depths and potentials by which the
tree arcs have reduced length zero (`IsBasis`). The second half of `PivotOperation` hangs
a subtree from another node and leaves a basis behind (`rehang_spec`): the subtree is cut
out of its tour, and put back in preorder behind its new parent.
-/

set_option autoImplicit false

namespace Goblin

open Library List Function

variable {mu : ℚ}

namespace DiGraph

variable {n m : ℕ} {G : DiGraph n m} {b' : Fin n}

/-- The labels of a spanning forest, with its tours and potentials. -/
structure IsBasis (G : DiGraph n m) (st : SimplexState n m) : Prop where
  ends : ∀ v a, st.pred v = some a → G.endNode a = v
  depth : IsDepth (G.parent st.pred) st.depth
  tours : ∀ r, st.pred r = none → ∃ l, Tour (G.parent st.pred) st.thread r l
  tight : ∀ v a, st.pred v = some a → G.redLength st.potential a = 0

/-! ## New potentials and depths -/

/-- The last loop of `PivotOperation` treats every node after its parent. -/
theorem relabelSubtree_spec {pred : Fin n → Option (Arc m)} {thread : Fin n → Option (Fin n)}
    {stop : Option (Fin n)} {K : List (Fin n)} {count : ℕ} (labels : (Fin n → ℚ) × (Fin n → ℕ))
    (links : Links thread K stop) (apart : ∀ y ∈ K, stop ≠ some y) (nodup : K.Nodup)
    (present : ∀ y ∈ K, pred y ≠ none) (order : K.Pairwise fun y z => G.parent pred y ≠ some z)
    (proper : ∀ y ∈ K, G.parent pred y ≠ some y) (enough : K.length ≤ count) :
    ∃ labels', G.relabelSubtree pred thread mu stop count (K.head?.or stop) labels = .ok labels' ∧
      (∀ y, y ∉ K → labels'.1 y = labels.1 y ∧ labels'.2 y = labels.2 y) ∧
      (∀ y ∈ K, labels'.1 y = labels.1 y + mu) ∧
      ∀ y ∈ K, labels'.2 y = level labels'.2 (G.parent pred y) := by
  induction K generalizing labels count with
  | nil =>
    refine ⟨labels, ?_, fun _ _ => ⟨rfl, rfl⟩, by simp, by simp⟩
    cases count with
    | zero | succ count => simp [relabelSubtree]
  | cons y K ih =>
    obtain ⟨count, rfl⟩ : ∃ k, count = k + 1 := ⟨count - 1, by simp at enough; omega⟩
    obtain ⟨a, label⟩ := Option.ne_none_iff_exists'.1 (present y mem_cons_self)
    have parentY := parent_of_pred (G := G) label
    obtain ⟨fresh, nodupK⟩ := nodup_cons.1 nodup
    obtain ⟨before, order'⟩ := pairwise_cons.1 order
    obtain ⟨labels', res, kept, moved, deeper⟩ := ih (update labels.1 y (labels.1 y + mu),
        update labels.2 y (labels.2 (G.startNode a) + 1)) links.2
      (fun z mem => apart z (mem_cons_of_mem _ mem)) nodupK
      (fun z mem => present z (mem_cons_of_mem _ mem)) order'
      (fun z mem => proper z (mem_cons_of_mem _ mem))
      (Nat.le_of_succ_le_succ (by simpa using enough))
    dsimp only at kept moved
    have atY := kept y fresh
    rw [update_self, update_self] at atY
    refine ⟨labels', ?_, ?_, ?_, ?_⟩
    · rw [head?_cons, Option.some_or, relabelSubtree,
        if_neg fun eq => apart y mem_cons_self eq.symm]
      simp only [defined, bind, Except.bind, label, links.1]
      exact res
    · intro z outside
      rw [mem_cons, not_or] at outside
      have old := kept z outside.2
      rwa [update_of_ne outside.1, update_of_ne outside.1] at old
    · intro z mem
      rcases mem_cons.1 mem with rfl | later
      · exact atY.1
      · rw [moved z later, update_of_ne]
        rintro rfl
        exact fresh later
    · intro z mem
      rcases mem_cons.1 mem with rfl | later
      · -- the parent does not come later
        have notLater : G.startNode a ∉ K := fun inside =>
          before _ inside parentY
        have notSelf : G.startNode a ≠ z := by
          intro eq
          exact proper z mem_cons_self (by rw [parentY, eq])
        have old := (kept _ notLater).2
        rw [update_of_ne notSelf] at old
        rw [atY.2, parentY, level, old]
      · exact deeper z later

/-! ## Rehanging -/

section Rehang

variable {st : SimplexState n m} {a stop : Arc m} {r x : Fin n}

theorem IsBasis.root_tour (basis : IsBasis G st) (v : Fin n) : ∃ b l, st.pred b = none ∧
    Tour (G.parent st.pred) st.thread b l ∧ Preorder (G.parent st.pred) none (b :: l) ∧
    v ∈ b :: l := by
  obtain ⟨b, root, above⟩ := basis.depth.exists_root v
  have root' := parent_eq_none.1 root
  obtain ⟨l, tour⟩ := basis.tours b root'
  exact ⟨b, l, root', tour, .single root tour.preorder, (tour.mem_iff v).2 above⟩

/-- The threads after the subtree has been cut out and put back behind `x`. -/
def respliced (thread : Fin n → Option (Fin n)) (z fs x r : Fin n) : Fin n → Option (Fin n) :=
  let thread := update thread z (thread fs)
  let thread := update thread fs (thread x)
  update thread x (some r)

/-- The first loops of `rehang`: the subtree of the leaving arc is turned, and the node in
front of it is found. -/
theorem rehang_turn (basis : IsBasis G st) (start : G.startNode a = r)
    (label : st.pred (G.endNode stop) = some stop)
    (above : Ancestor (G.parent st.pred) (G.endNode stop) r) :
    ∃ b l fs0 pred thread fs X T Y C z, st.pred b = none ∧ Tour (G.parent st.pred) st.thread b l ∧
      updateThread st.depth st.thread r none none = .ok (st.thread, fs0) ∧
      G.turnPath st.depth stop (n + 1) r a fs0 st.pred st.thread = .ok (pred, thread, fs) ∧
      TurnEnd G st.pred st.thread (b :: l) r a stop fs pred thread X T Y C ∧
      threadBefore thread (G.endNode stop) (n + 1) (G.startNode stop) = .ok z ∧
      ∃ front, X = front ++ [z] := by
  obtain ⟨b, l, root, tour, preorder, mem⟩ := basis.root_tour r
  obtain ⟨X, T, Y, split, subtree⟩ := preorder.exists_subtree mem
  obtain ⟨front, fs0, last⟩ : ∃ front fs0, r :: T = front ++ [fs0] :=
    ⟨(r :: T).dropLast, (r :: T).getLast (by simp), (dropLast_append_getLast (by simp)).symm⟩
  have inv := turnInv_start basis.ends tour.links tour.nodup split subtree start ⟨front, last⟩
  have first := updateThread_none inv.links
    (fun z inside => subtree.descendants.level_le basis.depth inside)
    (fun z isNext => subtree.after basis.depth isNext) inv.nodup last
  obtain ⟨pred, thread, fs, X', T', Y', C, res, done⟩ := turnPath_spec basis.depth tour.links
    tour.nodup label inv above (show n < (n + 1) + T.length by omega)
  -- the leaving arc leads to the node in front of the subtree
  rcases done.subtree.parent with none | ⟨q, X1, A, B, Y1, parentW, rfl, rfl, -, -⟩
  · rw [parent_of_pred label] at none
    cases none
  rw [parent_of_pred label] at parentW
  obtain rfl := Option.some.inj parentW
  obtain ⟨linksA, -, nodupA, apart⟩ := tour_parts tour.links tour.nodup done.split
  obtain ⟨front', z, lastA⟩ : ∃ front z, G.startNode stop :: A = front ++ [z] :=
    ⟨(G.startNode stop :: A).dropLast, (G.startNode stop :: A).getLast (by simp),
      (dropLast_append_getLast (by simp)).symm⟩
  have kept : ∀ y ∈ G.startNode stop :: A, thread y = st.thread y := fun y inside =>
    done.threadKept y fun inside' => apart y (.inl inside) ((done.mem y).1 inside')
  have found : threadBefore thread (G.endNode stop) (n + 1) (G.startNode stop) = .ok z := by
    refine threadBefore_spec (linksA.congr kept) (fun inside => ?_) lastA ?_
    · exact apart _ (.inl (mem_cons_of_mem _ inside)) mem_cons_self
    · have short := length_lt_of_nodup nodupA
      rw [length_append] at short
      omega
  exact ⟨b, l, fs0, pred, thread, fs, _, T', _, C, z, root, tour, first, res, done, found,
    X1 ++ front', by rw [lastA, append_assoc]⟩

end Rehang

section Respliced

variable {st : SimplexState n m} {a stop : Arc m} {r x fs z b : Fin n} {l X T Y C : List (Fin n)}
  {pred : Fin n → Option (Arc m)} {thread : Fin n → Option (Fin n)}

theorem TurnEnd.mem_rest (tour : Tour (G.parent st.pred) st.thread b l)
    (done : TurnEnd G st.pred st.thread (b :: l) r a stop fs pred thread X T Y C) (y : Fin n) :
    y ∈ X ++ Y ↔ y ∈ b :: l ∧ y ∉ r :: C := by
  have nodup := tour.nodup
  rw [done.split] at nodup ⊢
  rw [done.mem y]
  obtain ⟨-, inner, apart⟩ := nodup_append.1 nodup
  rw [← cons_append] at inner apart
  obtain ⟨-, -, apart'⟩ := nodup_append.1 inner
  constructor
  · intro mem
    refine ⟨by simp only [mem_append, mem_cons] at mem ⊢; tauto, fun inside => ?_⟩
    rcases mem_append.1 mem with before | after
    · exact apart y before y (mem_append_left _ inside) rfl
    · exact apart' y inside y after rfl
  · rintro ⟨mem, outside⟩
    simp only [mem_append, mem_cons, not_or] at mem outside ⊢
    tauto

section

variable (basis : IsBasis G st) (root : st.pred b = none)
  (tour : Tour (G.parent st.pred) st.thread b l)
  (done : TurnEnd G st.pred st.thread (b :: l) r a stop fs pred thread X T Y C)
  (before : ∃ front, X = front ++ [z])
include basis root tour done before

theorem pruned_tours (root' : st.pred b' = none) :
    ∃ l', Links (update thread z (thread fs)) (b' :: l') none ∧ (b' :: l').Nodup ∧
      Preorder (G.parent pred) none (b' :: l') ∧
      ∀ y, y ∈ b' :: l' ↔ Ancestor (G.parent st.pred) b' y ∧ y ∉ r :: C := by
  have atFs : thread fs = Y.head? := by
    obtain ⟨front, last⟩ := done.last
    have links := done.links
    rw [last, links_concat] at links
    exact links.2
  obtain ⟨front, lastX⟩ := before
  have inX : z ∈ X := by
    rw [lastX]
    simp
  have parents : ∀ y, y ∉ r :: C → G.parent pred y = G.parent st.pred y := by
    intro y outside
    rw [parent, parent, done.predKept y outside]
  by_cases eq : b' = b
  · subst eq
    obtain ⟨l', list⟩ : ∃ l', X ++ Y = b' :: l' := by
      cases X with
      | nil => cases inX
      | cons c X =>
        obtain ⟨rfl, -⟩ := List.cons.inj done.split
        exact ⟨X ++ Y, rfl⟩
    have members := done.mem_rest tour
    have links := tour.links
    have nodup := tour.nodup
    rw [done.split, ← cons_append] at links nodup
    rw [links_append, links_append] at links
    obtain ⟨nodupX, inner, apart⟩ := nodup_append.1 nodup
    have kept : ∀ y ∈ X ++ Y, thread y = st.thread y := fun y mem =>
      done.threadKept y ((members y).1 mem).2
    have nodup' : (X ++ Y).Nodup := by
      rw [nodup_append]
      refine ⟨nodupX, (nodup_append.1 inner).2.1, ?_⟩
      rintro y early y' late rfl
      exact apart y early y (mem_append_right _ late) rfl
    refine ⟨l', ?_, list ▸ nodup', ?_, ?_⟩
    · rw [← list, links_append, Option.or_none, atFs]
      constructor
      · exact (links.1.congr fun y mem => kept y (by simp [mem])).retarget lastX nodupX _
      · refine links.2.2.congr fun y mem => ?_
        rw [update_of_ne]
        · exact kept y (by simp [mem])
        · rintro rfl
          exact apart y inX y (mem_append_right _ mem) rfl
    · rw [← list]
      exact done.subtree.without.congr fun y mem => parents y ((members y).1 mem).2
    · intro y
      rw [← list, members y, tour.mem_iff y]
  · obtain ⟨l', tour'⟩ := basis.tours b' root'
    -- the other tours do not meet the tree that has been cut
    have apart : ∀ y ∈ b' :: l', y ∉ b :: l := by
      intro y mem inside
      refine eq (Ancestor.root_unique ((tour'.mem_iff y).1 mem) ((tour.mem_iff y).1 inside) ?_ ?_)
      · exact parent_eq_none.2 root'
      · exact parent_eq_none.2 root
    have outside : ∀ y ∈ b' :: l', y ∉ r :: C := by
      intro y mem inside
      refine apart y mem ?_
      rw [done.split, ← cons_append]
      exact mem_append_right _ (mem_append_left _ ((done.mem y).1 inside))
    refine ⟨l', tour'.links.congr fun y mem => ?_, tour'.nodup, ?_, ?_⟩
    · rw [update_of_ne]
      · exact done.threadKept y (outside y mem)
      · rintro rfl
        refine apart y mem ?_
        rw [done.split]
        exact mem_append_left _ inX
    · refine (Preorder.single (parent_eq_none.2 root') tour'.preorder).congr fun y mem => ?_
      exact parents y (outside y mem)
    · intro y
      rw [tour'.mem_iff y]
      exact ⟨fun above => ⟨above, outside y ((tour'.mem_iff y).2 above)⟩, And.left⟩

theorem grafted_tours (hang : G.endNode a = x) (outside : x ∉ r :: C) (root' : st.pred b' = none) :
    ∃ l', Links (respliced thread z fs x r) (b' :: l') none ∧ (b' :: l').Nodup ∧
      Preorder (G.parent pred) none (b' :: l') ∧
      (∀ y, y ∈ b' :: l' ↔ Ancestor (G.parent st.pred) b' y ∧ y ∉ r :: C ∨
        Ancestor (G.parent st.pred) b' x ∧ y ∈ r :: C) ∧
      (Ancestor (G.parent st.pred) b' x → ∃ M1 M2, b' :: l' = M1 ++ x :: ((r :: C) ++ M2)) := by
  obtain ⟨l', links, nodup, preorder, members⟩ := pruned_tours basis root tour done before root'
  obtain ⟨front, last⟩ := done.last
  have disjoint : ∀ y ∈ r :: C, y ∉ b' :: l' := fun y inside mem =>
    ((members y).1 mem).2 inside
  have parentR : G.parent pred r = some x := by
    rw [parent_of_pred done.first, ← hang]
    rfl
  have chunk : Preorder (G.parent pred) (some x) (r :: C) := .single parentR done.preorder
  by_cases here : Ancestor (G.parent st.pred) b' x
  · obtain ⟨M1, M2, split⟩ := append_of_mem ((members x).2 ⟨here, outside⟩)
    have chain : Links (update thread z (thread fs)) (r :: C) Y.head? := by
      refine done.links.congr fun y inside => update_of_ne ?_ _ _
      rintro rfl
      obtain ⟨front', rfl⟩ := before
      exact ((done.mem_rest tour y).1 (by simp)).2 inside
    obtain ⟨l'', list⟩ : ∃ l'', M1 ++ x :: ((r :: C) ++ M2) = b' :: l'' := by
      cases M1 with
      | nil | cons c M1 =>
        obtain ⟨rfl, -⟩ := List.cons.inj split
        exact ⟨_, rfl⟩
    have all : ∀ y, y ∈ b' :: l'' ↔ y ∈ b' :: l' ∨ y ∈ r :: C := by
      intro y
      rw [← list, split]
      simp only [mem_append, mem_cons]
      tauto
    refine ⟨l'', ?_, ?_, ?_, fun y => ?_, fun _ => ⟨M1, M2, list.symm⟩⟩
    · rw [← list]
      rw [split] at links nodup disjoint
      exact links.splice nodup chain done.nodup rfl last disjoint
    · rw [← list]
      rw [split] at nodup disjoint
      obtain ⟨nodup1, nodup2, apart⟩ := nodup_append.1 nodup
      obtain ⟨fresh, nodupM⟩ := nodup_cons.1 nodup2
      rw [nodup_append, nodup_cons, nodup_append]
      refine ⟨nodup1, ⟨?_, done.nodup, nodupM, ?_⟩, ?_⟩
      · rw [mem_append, not_or]
        exact ⟨outside, fresh⟩
      · rintro y inside y' mem rfl
        exact disjoint y inside (by simp [mem])
      · rintro y early y' late rfl
        rw [mem_cons, mem_append] at late
        rcases late with rfl | inside | mem
        · exact apart y early y mem_cons_self rfl
        · exact disjoint y inside (by simp [early])
        · exact apart y early y (mem_cons_of_mem _ mem) rfl
    · rw [← list]
      exact preorder.insert split chunk
    · rw [all y, members y]
      simp only [here, true_and]
  · have notFs : ∀ y ∈ b' :: l', y ≠ fs := by
      rintro y mem rfl
      exact disjoint y (by rw [last]; simp) mem
    refine ⟨l', links.congr fun y mem => ?_, nodup, preorder, fun y => ?_,
      fun above => absurd above here⟩
    · have notX : y ≠ x := by
        rintro rfl
        exact here ((members y).1 mem).1
      rw [respliced, update_of_ne notX, update_of_ne (notFs y mem)]
    · rw [members y]
      simp only [here, false_and, or_false]

end

end Respliced

section RehangSpec

variable {st : SimplexState n m} {a stop : Arc m} {r x fs z b : Fin n} {l X T Y C : List (Fin n)}
  {pred : Fin n → Option (Arc m)} {thread : Fin n → Option (Fin n)}

section

variable (tour : Tour (G.parent st.pred) st.thread b l)
  (done : TurnEnd G st.pred st.thread (b :: l) r a stop fs pred thread X T Y C)
include tour done

theorem TurnEnd.mem_iff (y : Fin n) : y ∈ r :: C ↔ Ancestor (G.parent st.pred) (G.endNode stop) y :=
  (done.mem y).trans (tour.mem_subtree done.split done.subtree y)

theorem TurnEnd.pred_ne_none
    (label : st.pred (G.endNode stop) = some stop) {y : Fin n} (inside : y ∈ r :: C) :
    pred y ≠ none := by
  intro root
  rw [done.exchange.roots y] at root
  have above := (done.mem_iff tour y).1 inside
  by_cases eq : G.endNode stop = y
  · rw [← eq, label] at root
    cases root
  · obtain ⟨q, parentY, -⟩ := above.of_ne eq
    rw [parent_eq_none.2 root] at parentY
    cases parentY

end

section

variable (basis : IsBasis G st) (root : st.pred b = none)
  (tour : Tour (G.parent st.pred) st.thread b l)
  (done : TurnEnd G st.pred st.thread (b :: l) r a stop fs pred thread X T Y C)
  (before : ∃ front, X = front ++ [z]) (hang : G.endNode a = x) (outside : x ∉ r :: C)
  (label : st.pred (G.endNode stop) = some stop)
include basis root tour done before hang outside label

theorem rehang_tours (root' : pred b' = none) :
    ∃ l', Tour (G.parent pred) (respliced thread z fs x r) b' l' := by
  have grafted := fun {b' : Fin n} (isRoot : st.pred b' = none) =>
    grafted_tours basis root tour done before hang outside isRoot
  -- a tour has one root only
  have single : ∀ {b' : Fin n} {l' : List (Fin n)}, st.pred b' = none → (b' :: l').Nodup →
      Preorder (G.parent pred) none (b' :: l') →
      (∀ y, y ∈ b' :: l' ↔ Ancestor (G.parent st.pred) b' y ∧ y ∉ r :: C ∨
        Ancestor (G.parent st.pred) b' x ∧ y ∈ r :: C) →
      Preorder (G.parent pred) (some b') l' := by
    intro b' l' isRoot nodup preorder members
    refine preorder.of_root fun y mem none => ?_
    have none' := parent_eq_none.1 none
    rcases (members y).1 (mem_cons_of_mem _ mem) with ⟨above, -⟩ | ⟨-, inside⟩
    · have rootY := (done.exchange.roots y).1 none'
      have eq := above.root_unique .refl (parent_eq_none.2 isRoot) (parent_eq_none.2 rootY)
      rw [eq] at nodup
      exact (nodup_cons.1 nodup).1 mem
    · exact done.pred_ne_none tour label inside none'
  have below : ∀ {b' : Fin n} {l' : List (Fin n)}, Preorder (G.parent pred) (some b') l' →
      ∀ y ∈ b' :: l', Ancestor (G.parent pred) b' y := by
    intro b' l' preorder y mem
    rcases mem_cons.1 mem with rfl | later
    · exact .refl
    · exact preorder.ancestor later rfl
  have isRoot := (done.exchange.roots b').1 root'
  obtain ⟨l', links, nodup, preorder, members, -⟩ := grafted isRoot
  have tree := single isRoot nodup preorder members
  refine ⟨l', links, nodup, tree, fun y => ⟨below tree y, fun above => ?_⟩⟩
  -- every node is in some tour, and its root is unique
  obtain ⟨b'', isRoot'', listed⟩ : ∃ b'', st.pred b'' = none ∧
      (Ancestor (G.parent st.pred) b'' y ∧ y ∉ r :: C ∨
        Ancestor (G.parent st.pred) b'' x ∧ y ∈ r :: C) := by
    by_cases inside : y ∈ r :: C
    · obtain ⟨b'', none, above'⟩ := basis.depth.exists_root x
      exact ⟨b'', parent_eq_none.1 none, .inr ⟨above', inside⟩⟩
    · obtain ⟨b'', none, above'⟩ := basis.depth.exists_root y
      exact ⟨b'', parent_eq_none.1 none, .inl ⟨above', inside⟩⟩
  obtain ⟨l'', -, nodup'', preorder'', members'', -⟩ := grafted isRoot''
  have above'' := below (single isRoot'' nodup'' preorder'' members'') y ((members'' y).2 listed)
  have eq := above.root_unique above'' (parent_eq_none.2 root')
    (parent_eq_none.2 ((done.exchange.roots b'').2 isRoot''))
  subst eq
  exact (members y).2 listed

theorem rehang_labels (mu : ℚ) : ∃ labels : (Fin n → ℚ) × (Fin n → ℕ),
      G.relabelSubtree pred (respliced thread z fs x r) mu (respliced thread z fs x r fs) n
        (respliced thread z fs x r r) (update st.potential r (st.potential r + mu),
          update st.depth r (st.depth x + 1)) = .ok labels ∧
      (∀ y ∈ r :: C, labels.1 y = st.potential y + mu) ∧
      (∀ y, y ∉ r :: C → labels.1 y = st.potential y ∧ labels.2 y = st.depth y) ∧
      ∀ y ∈ r :: C, labels.2 y = level labels.2 (G.parent pred y) := by
  obtain ⟨bx, rootX, aboveX⟩ := basis.depth.exists_root x
  obtain ⟨l', links, nodup, -, -, around⟩ := grafted_tours basis root tour done before hang outside
    (parent_eq_none.1 rootX)
  obtain ⟨M1, M2, split⟩ := around aboveX
  rw [split] at links nodup
  rw [links_append] at links
  have chain := (links_append.1 links.2.2).1
  rw [Option.or_none] at chain
  obtain ⟨front, last⟩ := done.last
  have atFs : respliced thread z fs x r fs = M2.head? := by
    have chain' := chain
    rw [last, links_concat] at chain'
    exact chain'.2
  have atR : respliced thread z fs x r r = C.head?.or M2.head? := chain.1
  obtain ⟨fresh, nodupC⟩ := nodup_cons.1 done.nodup
  have notX : x ∉ C := fun mem => outside (mem_cons_of_mem _ mem)
  have notR : x ≠ r := by
    rintro rfl
    exact outside mem_cons_self
  have apart : ∀ y ∈ C, M2.head? ≠ some y := by
    intro y mem isNext
    have tail := (nodup_cons.1 (nodup_append.1 nodup).2.1).2
    exact (nodup_append.1 tail).2.2 y (mem_cons_of_mem _ mem) y (mem_of_mem_head? isNext) rfl
  have proper : ∀ y ∈ C, G.parent pred y ≠ some y := by
    intro y mem parentY
    obtain ⟨A, B, splitC⟩ := append_of_mem mem
    rcases done.preorder.parent_mem splitC with here | ⟨q, early, parentY'⟩
    · rw [parentY] at here
      cases here
      exact fresh mem
    · rw [parentY] at parentY'
      cases parentY'
      rw [splitC] at nodupC
      exact (nodup_append.1 nodupC).2.2 y early y mem_cons_self rfl
  obtain ⟨labels, res, kept, moved, deeper⟩ := relabelSubtree_spec (G := G)
    (update st.potential r (st.potential r + mu), update st.depth r (st.depth x + 1))
    chain.2 apart nodupC
    (fun y mem => done.pred_ne_none tour label (mem_cons_of_mem _ mem))
    (done.preorder.pairwise_parent nodupC fun q mem eq => fresh (by
      rw [Option.some.inj eq]
      exact mem)) proper (length_lt_of_nodup done.nodup).le
  dsimp only at kept moved
  have keptR := kept r fresh
  rw [update_self, update_self] at keptR
  refine ⟨labels, ?_, ?_, ?_, ?_⟩
  · rw [atFs, atR]
    exact res
  · intro y mem
    rcases mem_cons.1 mem with rfl | later
    · exact keptR.1
    · rw [moved y later, update_of_ne]
      rintro rfl
      exact fresh later
  · intro y out
    rw [mem_cons, not_or] at out
    have old := kept y out.2
    rwa [update_of_ne out.1, update_of_ne out.1] at old
  · intro y mem
    rcases mem_cons.1 mem with rfl | later
    · have parentR : G.parent pred y = some x := by
        rw [parent_of_pred done.first, ← hang]
        rfl
      have keptX := (kept x notX).2
      rw [update_of_ne notR] at keptX
      rw [keptR.2, parentR, level, keptX]
    · exact deeper y later

end

theorem rehang_spec (basis : IsBasis G st) (start : G.startNode a = r) (hang : G.endNode a = x)
    (label : st.pred (G.endNode stop) = some stop)
    (above : Ancestor (G.parent st.pred) (G.endNode stop) r)
    (apart : ¬ Ancestor (G.parent st.pred) (G.endNode stop) x)
    (shift : G.redLength st.potential a.rev = mu) :
    ∃ st', G.rehang st a stop r x (G.startNode stop) (G.endNode stop) mu = .ok st' ∧
      IsBasis G st' ∧ st'.sub = st.sub ∧ (∀ y, st'.pred y = none ↔ st.pred y = none) ∧
      ∀ c, G.TreeArc st.pred c ∨ c.edge = a.edge → G.TreeArc st'.pred c ∨ c.edge = stop.edge := by
  obtain ⟨b, l, fs0, pred, thread, fs, X, T, Y, C, z, root, tour, first, turned, done, found,
    before⟩ := rehang_turn basis start label above
  have outside : x ∉ r :: C := fun inside => apart ((done.mem_iff tour x).1 inside)
  obtain ⟨labels, relabelled, moved, kept, deeper⟩ := rehang_labels basis root tour done before hang
    outside label mu
  -- the parents of the other nodes are outside of the subtree
  have parentOut : ∀ y q, y ∉ r :: C → G.parent st.pred y = some q → q ∉ r :: C := by
    intro y q out parentY inside
    refine out ((done.mem_iff tour y).2 ?_)
    exact Ancestor.trans ((done.mem_iff tour q).1 inside) (.single parentY)
  have parentIn : ∀ y q, y ∈ C → G.parent pred y = some q → q ∈ r :: C := by
    intro y q mem parentY
    obtain ⟨A, B, split⟩ := append_of_mem mem
    rcases done.preorder.parent_mem split with here | ⟨q', early, parentY'⟩
    · rw [parentY] at here
      cases here
      exact mem_cons_self
    · rw [parentY] at parentY'
      cases parentY'
      rw [split]
      simp [early]
  refine ⟨{ st with
    pred := pred
    thread := respliced thread z fs x r
    potential := labels.1
    depth := labels.2 }, ?_, ⟨done.exchange.ends, ?_, ?_, ?_⟩, rfl, done.exchange.roots,
    done.exchange.trees⟩
  · have startRev : G.startNode a.rev = x := hang
    rw [rehang]
    simp only [first, turned, found, done.first, defined, bind, Except.bind, startRev]
    rw [show ∀ t : Fin n → Option (Fin n), update (update
      (update t z (t fs)) fs (update t z (t fs) x)) x (some r) =
      respliced t z fs x r from fun _ => rfl, relabelled]
    rfl
  · intro y
    by_cases inside : y ∈ r :: C
    · exact deeper y inside
    have eq : G.parent pred y = G.parent st.pred y := by
      rw [parent, parent, done.predKept y inside]
    dsimp only
    rw [(kept y inside).2, basis.depth y, eq]
    cases parentY : G.parent st.pred y with
    | none => rfl
    | some q => rw [level, level, (kept q (parentOut y q inside parentY)).2]
  · exact fun b' root' => rehang_tours basis root tour done before hang outside label root'
  · intro y c labelY
    dsimp only at labelY ⊢
    have endC : G.endNode c = y := done.exchange.ends y c labelY
    have parentY := parent_of_pred (G := G) labelY
    have old : y ≠ r → G.redLength st.potential c = 0 := by
      intro notR
      rcases done.exchange.origin y c labelY with rfl | label0 | label0
      · refine absurd ?_ notR
        rw [← endC, MixedGraph.endNode, Network.dst_rev]
        exact start
      · exact basis.tight y c label0
      · have zero := basis.tight _ _ label0
        rw [redLength_rev, neg_eq_zero] at zero
        exact zero
    rw [redLength_eq, endC]
    by_cases inside : y ∈ r :: C
    · rcases mem_cons.1 inside with rfl | later
      · -- the new tree arc
        rw [done.first] at labelY
        cases labelY
        have startRev : G.startNode a.rev = x := hang
        rw [redLength_eq, startRev, endC] at shift
        rw [startRev, moved y inside, (kept x outside).1]
        linarith
      · have zero := old fun eq => (nodup_cons.1 done.nodup).1 (eq ▸ later)
        rw [redLength_eq, endC] at zero
        rw [moved y inside, moved _ (parentIn y _ later parentY)]
        linarith
    · have zero := old fun eq => inside (eq ▸ mem_cons_self)
      rw [redLength_eq, endC] at zero
      have parentY0 : G.parent st.pred y = some (G.startNode c) := by
        rw [← parentY, parent, parent, done.predKept y inside]
      rw [(kept y inside).1, (kept _ (parentOut y _ inside parentY0)).1]
      exact zero

end RehangSpec

end DiGraph

end Goblin
