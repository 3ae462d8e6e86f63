import Goblin.NetworkSimplex

/-!
# Rehanging a subtree in the thread

`UpdateThread` skips the part of a subtree that has been threaded already and returns the
last node of the rest (`updateThread_spec`). Turning the path from the pivot arc to the
leaving arc appends, node by node, what hangs from the path, and the list that results is
a preorder of the turned subtree (`turnPath_spec`).
-/

set_option autoImplicit false

namespace Goblin

open Library List Option Function

variable {count : ℕ}

namespace DiGraph

variable {n m : ℕ} {G : DiGraph n m} {front A : List (Fin n)} {y z v w : Fin n}
  {pred : Fin n → Option (Arc m)}

/-! ## UpdateThread -/

section UpdateThread

variable {depth : Fin n → ℕ} {thread : Fin n → Option (Fin n)} {r x c fs : Fin n}
  {e : Option (Fin n)} {A B : List (Fin n)}

theorem updateLoop_run (part final : Option (Fin n)) (links : Links thread B e)
    (deep : ∀ z ∈ B, depth r < depth z) (stop : ∀ z, e = some z → depth z ≤ depth r)
    (clear : ∀ z ∈ B, thread z ≠ none → thread z ≠ part) (enough : B.length < count)
    (last : x :: B = front ++ [y]) :
    updateLoop depth r part final count thread x (B.head?.or e) = .ok (thread, y) := by
  obtain ⟨count, rfl⟩ : ∃ k, count = k + 1 := ⟨count - 1, by omega⟩
  induction B generalizing x count front with
  | nil =>
    obtain ⟨-, rfl⟩ : front = [] ∧ x = y := by
      cases front with
      | nil => simpa using last
      | cons d front => simp at last
    cases e with
    | none => rfl
    | some z =>
      rw [head?_nil, none_or, updateLoop, if_neg (not_lt.2 (stop z rfl))]
  | cons b B ih =>
    obtain ⟨here, rest⟩ := links
    rw [length_cons] at enough
    obtain ⟨count, rfl⟩ : ∃ k, count = k + 1 := ⟨count - 1, by omega⟩
    obtain ⟨front, rfl⟩ : ∃ front', front = x :: front' := by
      cases front with
      | nil => simp at last
      | cons d front => exact ⟨front, by simpa using (List.cons.inj last).1.symm⟩
    have noSkip : skipPart part final thread b = .ok (thread, B.head?.or e) := by
      rw [skipPart, if_neg, here]
      rintro ⟨present, isPart⟩
      exact clear b mem_cons_self present isPart
    rw [head?_cons, some_or, updateLoop, if_pos (deep b mem_cons_self), noSkip]
    exact ih rest (fun z mem => deep z (mem_cons_of_mem _ mem))
      (fun z mem => clear z (mem_cons_of_mem _ mem)) (List.cons.inj last).2 count
      (by omega)

theorem updateLoop_skip {front' : List (Fin n)} (linksA : Links thread (x :: A) (some c))
    (fresh : c ∉ A) (deepA : ∀ y ∈ A, depth r < depth y) (linksB : Links thread B e)
    (next : thread fs = B.head?.or e) (deepB : ∀ y ∈ B, depth r < depth y)
    (stop : ∀ y, e = some y → depth y ≤ depth r) (freshB : c ∉ B) (apart : e ≠ some c)
    (nodup : (x :: (A ++ B)).Nodup) (enough : A.length + B.length < count)
    (lastA : x :: A = front ++ [z]) (last : x :: (A ++ B) = front' ++ [y]) :
    (do
      let (thread, next) ← skipPart (some c) (some fs) thread x
      updateLoop depth r (some c) (some fs) count thread x next) =
      .ok (update thread z (B.head?.or e), y) := by
  induction A generalizing x count front front' with
  | nil =>
    obtain ⟨-, rfl⟩ : front = [] ∧ x = z := by
      cases front with
      | nil => simpa using lastA
      | cons d front => simp at lastA
    have skipped : skipPart (some c) (some fs) thread x =
        .ok (update thread x (B.head?.or e), B.head?.or e) := by
      have here : thread x = some c := linksA.1
      rw [skipPart, if_pos ⟨by simp [here], here⟩]
      simp only [defined, bind, Except.bind, pure, Except.pure, next]
    rw [nil_append] at nodup last
    have other : ∀ d ∈ B, d ≠ x := by
      rintro d mem rfl
      exact (nodup_cons.1 nodup).1 mem
    have kept : ∀ d ∈ B, update thread x (B.head?.or e) d = thread d := fun d mem =>
      update_of_ne (other d mem) _ _
    simp only [skipped, bind, Except.bind]
    refine updateLoop_run (some c) (some fs) (linksB.congr kept) deepB stop ?_ (by simpa using enough) last
    intro d mem _ isPart
    rw [kept d mem] at isPart
    rcases linksB.target_mem mem with ⟨d', inside, val⟩ | val
    · rw [isPart] at val
      cases val
      exact freshB inside
    · exact apart (val.symm.trans isPart)
  | cons b A ih =>
    obtain ⟨here, rest⟩ := linksA
    have here' : thread x = some b := here
    obtain ⟨front, rfl⟩ : ∃ k, front = x :: k := by
      cases front with
      | nil => simp at lastA
      | cons d front => exact ⟨front, by simpa using (List.cons.inj lastA).1.symm⟩
    obtain ⟨front', rfl⟩ : ∃ k, front' = x :: k := by
      cases front' with
      | nil => simp at last
      | cons d front => exact ⟨front, by simpa using (List.cons.inj last).1.symm⟩
    rw [length_cons] at enough
    obtain ⟨count, rfl⟩ : ∃ k, count = k + 1 := ⟨count - 1, by omega⟩
    have notC : b ≠ c := by
      rintro rfl
      exact fresh mem_cons_self
    have noSkip : skipPart (some c) (some fs) thread x = .ok (thread, some b) := by
      rw [skipPart, if_neg, here']
      rintro ⟨-, isPart⟩
      rw [here'] at isPart
      exact notC (Option.some.inj isPart)
    simp only [noSkip, bind, Except.bind]
    rw [updateLoop, if_pos (deepA b mem_cons_self)]
    exact ih rest (fun inside => fresh (mem_cons_of_mem _ inside))
      (fun y mem => deepA y (mem_cons_of_mem _ mem)) (nodup_cons.1 nodup).2
      (by omega) (List.cons.inj lastA).2 (List.cons.inj last).2

theorem length_lt_of_nodup {l : List (Fin n)} (nodup : (r :: l).Nodup) : l.length < n := by
  have bound := nodup.length_le_card
  rw [Fintype.card_fin, length_cons] at bound
  omega

/-- **`UpdateThread`** at the start of the path: the last node of the subtree. -/
theorem updateThread_none (links : Links thread (r :: B) e) (deep : ∀ z ∈ B, depth r < depth z)
    (stop : ∀ z, e = some z → depth z ≤ depth r) (nodup : (r :: B).Nodup)
    (last : r :: B = front ++ [y]) : updateThread depth thread r none none = .ok (thread, y) := by
  have noSkip : skipPart none none thread r = .ok (thread, B.head?.or e) := by
    rw [skipPart, if_neg (fun both => both.1 both.2), links.1]
  have run := updateLoop_run none none links.2 deep stop (fun z _ present => present)
    (length_lt_of_nodup nodup) last
  simp only [updateThread, noSkip, bind, Except.bind, run, pure, Except.pure]

/-- **`UpdateThread`** behind a part that has been threaded already: the rest of the
subtree of `r` follows on that part. -/
theorem updateThread_part (linksA : Links thread (r :: A) (some c)) (fresh : c ∉ A)
    (deepA : ∀ z ∈ A, depth r < depth z) (linksB : Links thread B e)
    (next : thread fs = B.head?.or e) (deepB : ∀ z ∈ B, depth r < depth z)
    (stop : ∀ z, e = some z → depth z ≤ depth r) (freshB : c ∉ B) (apart : e ≠ some c)
    (nodup : (r :: (A ++ B)).Nodup) (out : fs ∉ r :: (A ++ B))
    (last : r :: (A ++ B) = front ++ [y]) :
    ∃ thread', updateThread depth thread r (some c) (some fs) = .ok (thread', y) ∧
      Links thread' (r :: (A ++ B)) e ∧ thread' fs = some r ∧
      ∀ d, d ∉ r :: (A ++ B) → d ≠ fs → thread' d = thread d := by
  obtain ⟨front', z, lastA⟩ : ∃ front' z, r :: A = front' ++ [z] :=
    ⟨(r :: A).dropLast, (r :: A).getLast (by simp), (dropLast_append_getLast (by simp)).symm⟩
  have short := length_lt_of_nodup nodup
  rw [length_append] at short
  have run := updateLoop_skip linksA fresh deepA linksB next deepB stop freshB apart nodup short
    lastA last
  have inA : z ∈ r :: A := by
    rw [lastA]
    simp
  refine ⟨update (update thread z (B.head?.or e)) fs (some r), ?_, ?_, update_self _ _ _, ?_⟩
  · rw [updateThread]
    cases skip : skipPart (some c) (some fs) thread r with
    | error err => simp [skip, bind, Except.bind] at run
    | ok val =>
      simp only [skip, bind, Except.bind] at run ⊢
      rw [run]
      rfl
  · have nodupA : (r :: A).Nodup := by
      rw [← cons_append] at nodup
      exact (nodup_append.1 nodup).1
    have links : Links (update thread z (B.head?.or e)) (r :: (A ++ B)) e := by
      rw [← cons_append, links_append]
      refine ⟨linksA.retarget lastA nodupA _, linksB.congr fun d mem => ?_⟩
      refine update_of_ne ?_ _ _
      rintro rfl
      rw [← cons_append] at nodup
      exact (nodup_append.1 nodup).2.2 d inA d mem rfl
    refine links.congr fun d mem => update_of_ne ?_ _ _
    rintro rfl
    exact out mem
  · intro d notIn notFs
    rw [update_of_ne notFs, update_of_ne]
    rintro rfl
    refine notIn ?_
    rw [← cons_append]
    exact mem_append_left _ inA

end UpdateThread

/-! ## Exchanging tree arcs -/

variable (G) in
/-- The parents that the predecessor labels define. -/
def parent (pred : Fin n → Option (Arc m)) (v : Fin n) : Option (Fin n) :=
  (pred v).map G.startNode

variable (G) in
/-- The arcs of the forest, in both directions. -/
def TreeArc (pred : Fin n → Option (Arc m)) (a : Arc m) : Prop :=
  pred (G.endNode a) = some a ∨ pred (G.startNode a) = some a.rev

theorem parent_eq_none : G.parent pred v = none ↔ pred v = none := map_eq_none_iff

theorem parent_of_pred {a : Arc m}
    (label : pred v = some a) : G.parent pred v = some (G.startNode a) := by
  rw [parent, label, map_some]

/-- The labels `pred` come from the forest `pred0` and the arc `a0`, turned or not, and of
these arcs only `out` is missing. -/
structure Exchange (G : DiGraph n m) (pred0 : Fin n → Option (Arc m)) (a0 : Arc m)
    (pred : Fin n → Option (Arc m)) (out : Arc m) : Prop where
  ends : ∀ y b, pred y = some b → G.endNode b = y
  origin : ∀ y b, pred y = some b →
    b = a0.rev ∨ pred0 y = some b ∨ pred0 (G.startNode b) = some b.rev
  roots : ∀ y, pred y = none ↔ pred0 y = none
  trees : ∀ c, G.TreeArc pred0 c ∨ c.edge = a0.edge → G.TreeArc pred c ∨ c.edge = out.edge

section Exchange

variable {pred0 pred : Fin n → Option (Arc m)} {a0 a a2 : Arc m} {v : Fin n}

theorem Exchange.refl (ends : ∀ y b, pred0 y = some b → G.endNode b = y) :
    Exchange G pred0 a0 pred0 a0 :=
  ⟨ends, fun _ _ label => .inr (.inl label), fun _ => Iff.rfl, fun _ tree => tree⟩

/-- Put the missing arc in, turned, for the predecessor of its start node. -/
theorem Exchange.step (exchange : Exchange G pred0 a0 pred a) (start : G.startNode a = v)
    (label : pred v = some a2) (old : a = a0 ∨ pred0 (G.endNode a) = some a) :
    Exchange G pred0 a0 (update pred v (some a.rev)) a2 := by
  have atV : update pred v (some a.rev) v = some a.rev := update_self _ _ _
  have other : ∀ y, y ≠ v → update pred v (some a.rev) y = pred y := fun y apart =>
    update_of_ne apart _ _
  constructor
  · intro y b label'
    by_cases here : y = v
    · subst here
      rw [atV] at label'
      cases label'
      rw [MixedGraph.endNode, Network.dst_rev]
      exact start
    · rw [other y here] at label'
      exact exchange.ends y b label'
  · intro y b label'
    by_cases here : y = v
    · subst here
      rw [atV] at label'
      cases label'
      rcases old with rfl | tree
      · exact .inl rfl
      · refine .inr (.inr ?_)
        rw [Dart.rev_rev]
        exact tree
    · rw [other y here] at label'
      exact exchange.origin y b label'
  · intro y
    by_cases here : y = v
    · subst here
      rw [atV, ← exchange.roots y, label]
      exact iff_of_false (by simp) (by simp)
    · rw [other y here]
      exact exchange.roots y
  · intro c tree
    rcases exchange.trees c tree with (entering | leaving) | missing
    · by_cases here : G.endNode c = v
      · rw [here, label] at entering
        cases entering
        exact .inr rfl
      · exact .inl (.inl ((other _ here).trans entering))
    · by_cases here : G.startNode c = v
      · rw [here, label] at leaving
        cases leaving
        exact .inr rfl
      · exact .inl (.inr ((other _ here).trans leaving))
    · left
      rcases Dart.eq_or_eq_rev missing with rfl | rfl
      · right
        rw [start]
        exact atV
      · left
        rw [MixedGraph.endNode, Network.dst_rev, ← MixedGraph.startNode, start]
        exact atV

end Exchange

/-! ## Turning the path -/

/-- The state of the loop that turns the path from `r` upwards, when it is at `v`. The tour
`L` of the tree has the subtree of `v` behind `X`; its nodes are threaded from `r` on, as the
list `C`, and what hangs from `v` may still be appended. -/
structure TurnInv (G : DiGraph n m) (pred0 : Fin n → Option (Arc m))
    (thread0 : Fin n → Option (Fin n)) (L : List (Fin n)) (r : Fin n) (a0 : Arc m) (v : Fin n)
    (a : Arc m) (fs : Fin n) (pred : Fin n → Option (Arc m)) (thread : Fin n → Option (Fin n))
    (X T Y C : List (Fin n)) : Prop where
  split : L = X ++ v :: (T ++ Y)
  subtree : Subtree (G.parent pred0) none X v T Y
  mem : ∀ y, y ∈ r :: C ↔ y ∈ v :: T
  nodup : (r :: C).Nodup
  last : ∃ front, r :: C = front ++ [fs]
  links : Links thread (r :: C) Y.head?
  threadKept : ∀ y, y ∉ v :: T → thread y = thread0 y
  predKept : ∀ y, y ∉ T → pred y = pred0 y
  start : G.startNode a = v
  turned : a = a0 ∧ v = r ∨ pred0 (G.endNode a) = some a ∧ pred r = some a0.rev ∧ r ∈ T
  exchange : Exchange G pred0 a0 pred a
  open_end : ∀ par : Fin n → Option (Fin n), (∀ y ∈ T, par y = G.parent pred y) →
    par v = some (G.endNode a) → ∀ R, Preorder par (some v) R → Preorder par (some r) (C ++ R)

section Turn

variable {pred0 pred : Fin n → Option (Arc m)} {thread0 thread : Fin n → Option (Fin n)}
  {depth : Fin n → ℕ} {L X T Y C : List (Fin n)} {r v fs : Fin n} {a0 a a2 : Arc m}

theorem turnInv_start (ends : ∀ y b, pred0 y = some b → G.endNode b = y)
    (tour : Links thread0 L none) (nodup : L.Nodup) (split : L = X ++ r :: (T ++ Y))
    (subtree : Subtree (G.parent pred0) none X r T Y) (start : G.startNode a0 = r)
    (last : ∃ front, r :: T = front ++ [fs]) :
    TurnInv G pred0 thread0 L r a0 r a0 fs pred0 thread0 X T Y T := by
  refine ⟨split, subtree, fun _ => Iff.rfl, ?_, last, ?_, fun _ _ => rfl, fun _ _ => rfl, start, .inl ⟨rfl, rfl⟩, .refl ends, ?_⟩
  · rw [split, ← cons_append] at nodup
    exact (nodup_append.1 (nodup_append.1 nodup).2.1).1
  · rw [split, ← cons_append, links_append, links_append] at tour
    simpa using tour.2.1
  · intro par eq _ R rest
    exact (subtree.descendants.congr eq).append rest

theorem TurnInv.notMem (nodup : L.Nodup)
    (inv : TurnInv G pred0 thread0 L r a0 v a fs pred thread X T Y C) : v ∉ T := by
  intro mem
  rw [inv.split] at nodup
  exact (nodup_cons.1 (nodup_append.1 nodup).2.1).1 (mem_append_left _ mem)

/-- A tour around the subtree of `v`, in which `w` is followed by `A` and the subtree by
`B`. -/
theorem tour_parts {B : List (Fin n)} (tour : Links thread0 L none) (nodup : L.Nodup)
    (split : L = (X ++ w :: A) ++ v :: (T ++ (B ++ Y))) :
    Links thread0 (w :: A) (some v) ∧ Links thread0 B Y.head? ∧ (w :: (A ++ B)).Nodup ∧
      ∀ y, y ∈ w :: A ∨ y ∈ B ∨ y ∈ Y → y ∉ v :: T := by
  have regroup : L = X ++ ((w :: A) ++ ((v :: T) ++ (B ++ Y))) := by
    rw [split]
    simp [append_assoc]
  rw [regroup] at nodup tour
  rw [links_append, links_append, links_append, links_append] at tour
  simp only [or_none] at tour
  obtain ⟨-, linksA, -, linksB, -⟩ := tour
  have rest := (nodup_append.1 nodup).2.1
  have rest' := (nodup_append.1 rest).2.1
  refine ⟨linksA, linksB, ?_, ?_⟩
  · rw [← cons_append, nodup_append]
    refine ⟨(nodup_append.1 rest).1, (nodup_append.1 (nodup_append.1 rest').2.1).1, ?_⟩
    rintro y before z after rfl
    exact (nodup_append.1 rest).2.2 y before y (by simp [after]) rfl
  · intro y side inside
    rcases side with before | after
    · exact (nodup_append.1 rest).2.2 y before y (mem_append_left _ inside) rfl
    · exact (nodup_append.1 rest').2.2 y inside y (mem_append.2 after) rfl

/-- **One node of the path.** The loop goes on to the parent of `v`. -/
theorem TurnInv.step (isDepth : IsDepth (G.parent pred0) depth) (tour : Links thread0 L none)
    (nodup : L.Nodup) (inv : TurnInv G pred0 thread0 L r a0 v a fs pred thread X T Y C)
    (label : pred v = some a2) : ∃ thread' fs' X' T' Y' C',
      updateThread depth thread (G.startNode a2) (some (G.endNode a2)) (some fs) =
        .ok (thread', fs') ∧ TurnInv G pred0 thread0 L r a0 (G.startNode a2) a2 fs'
        (update pred v (some a.rev)) thread' X' T' Y' C' ∧ T.length < T'.length := by
  have notT := inv.notMem nodup
  have label0 : pred0 v = some a2 := (inv.predKept v notT).symm.trans label
  have parentV := parent_of_pred (G := G) label0
  have endV : G.endNode a2 = v := inv.exchange.ends v a2 label
  rcases inv.subtree.parent with root | ⟨w, X', A, B, Y', parentW, rfl, rfl, outer, rest⟩
  · rw [parentV] at root
    cases root
  rw [parentV] at parentW
  obtain rfl := Option.some.inj parentW
  set w := G.startNode a2 with wEq
  obtain ⟨linksA, linksB, nodupW, apart⟩ := tour_parts tour nodup inv.split
  have inW : ∀ y ∈ w :: (A ++ B), y ∈ w :: A ∨ y ∈ B ∨ y ∈ Y' := by
    intro y mem
    rw [← cons_append, mem_append] at mem
    exact mem.imp_right .inl
  obtain ⟨front, isLast⟩ := inv.last
  have inC : ∀ y ∈ w :: (A ++ B), y ∉ r :: C := fun y mem inside =>
    apart y (inW y mem) ((inv.mem y).1 inside)
  have atV : ∀ y, y ∈ w :: A ∨ y ∈ B ∨ y ∈ Y' → y ≠ v := by
    rintro y side rfl
    exact apart y side mem_cons_self
  have lastC : fs ∈ r :: C := by
    rw [isLast]
    simp
  have next : thread fs = B.head?.or Y'.head? := by
    have links := inv.links
    rw [isLast, links_concat, head?_append] at links
    exact links.2
  obtain ⟨front', fs', isLast'⟩ : ∃ front' fs', w :: (A ++ B) = front' ++ [fs'] :=
    ⟨(w :: (A ++ B)).dropLast, (w :: (A ++ B)).getLast (by simp),
      (dropLast_append_getLast (by simp)).symm⟩
  have deep : ∀ y ∈ A ++ B, depth w < depth y := fun y mem =>
    rest.level_le isDepth mem
  obtain ⟨thread', res, links', atFs, kept⟩ := updateThread_part
    (linksA.congr fun y mem => inv.threadKept y (apart y (.inl mem)))
    (fun mem => atV v (.inl (mem_cons_of_mem _ mem)) rfl)
    (fun y mem => deep y (mem_append_left _ mem))
    (linksB.congr fun y mem => inv.threadKept y (apart y (.inr (.inl mem)))) next
    (fun y mem => deep y (mem_append_right _ mem))
    (fun y isNext => outer.after isDepth isNext)
    (fun mem => atV v (.inr (.inl mem)) rfl)
    (fun isNext => atV v (.inr (.inr (mem_of_mem_head? isNext))) rfl) nodupW
    (fun mem => inC fs mem lastC) isLast'
  refine ⟨thread', fs', X', A ++ v :: (T ++ B), Y', C ++ w :: (A ++ B), ?_, ?_, ?_⟩
  · rw [endV]
    exact res
  · have linksC : Links thread' (r :: C) (some w) := by
      have links := inv.links
      rw [isLast, links_concat] at links
      rw [isLast, links_concat]
      refine ⟨links.1.congr fun y mem => kept y ?_ ?_, atFs⟩
      · exact fun inside => inC y inside (by rw [isLast]; exact mem_append_left _ mem)
      · rintro rfl
        have nodupC := inv.nodup
        rw [isLast] at nodupC
        exact (nodup_append.1 nodupC).2.2 y mem y (by simp) rfl
    refine ⟨?_, outer, ?_, ?_, ⟨r :: C ++ front', ?_⟩, ?_, ?_, ?_, wEq.symm,
      .inr ⟨by rw [endV]; exact label0, ?_, ?_⟩,
      inv.exchange.step inv.start label (inv.turned.imp And.left And.left), ?_⟩
    · rw [inv.split]
      simp [append_assoc]
    · intro y
      have regroup : (y ∈ v :: T ∨ y ∈ w :: (A ++ B)) ↔ y ∈ w :: (A ++ v :: (T ++ B)) := by
        clear * -
        simp only [mem_append, mem_cons]
        tauto
      rw [← cons_append, mem_append, inv.mem y, regroup]
    · rw [← cons_append, nodup_append]
      refine ⟨inv.nodup, nodupW, ?_⟩
      rintro y inside z mem rfl
      exact inC y mem inside
    · rw [← cons_append, isLast', append_assoc]
    · rw [← cons_append, links_append]
      exact ⟨linksC, links'⟩
    · intro y out
      simp only [mem_cons, mem_append, not_or] at out
      rw [kept y (by simp [out]) ?_]
      · exact inv.threadKept y (by simp [out])
      · rintro rfl
        have inside := (inv.mem y).1 lastC
        rw [mem_cons] at inside
        rcases inside with here | below
        · exact out.2.2.1 here
        · exact out.2.2.2.1 below
    · intro y out
      simp only [mem_cons, mem_append, not_or] at out
      rw [update_of_ne out.2.1]
      exact inv.predKept y out.2.2.1
    · rcases inv.turned with ⟨rfl, rfl⟩ | ⟨-, first, below⟩
      · exact update_self _ _ _
      · rw [update_of_ne ?_]
        · exact first
        · rintro rfl
          exact notT below
    · rcases inv.turned with ⟨-, rfl⟩ | ⟨-, -, below⟩
      · simp
      · simp [below]
    · intro par eq parentW R below
      have sameOld : ∀ y, y ∈ A ∨ y ∈ B → par y = G.parent pred0 y := by
        intro y side
        have mem : y ∈ A ++ v :: (T ++ B) := by
          simp only [mem_append, mem_cons]
          tauto
        have side' : y ∈ w :: A ∨ y ∈ B ∨ y ∈ Y' :=
          side.imp (mem_cons_of_mem _) .inl
        rw [eq y mem, parent, parent, update_of_ne (atV y side'),
          inv.predKept y fun inside => apart y side' (mem_cons_of_mem _ inside)]
      have atTop : par v = some (G.endNode a) := by
        rw [eq v (by simp), parent, update_self]
        rfl
      have whole := inv.open_end par (fun y mem => by
        have other : y ≠ v := by
          rintro rfl
          exact notT mem
        rw [eq y (by simp [mem]), parent, parent, update_of_ne other]) atTop
        (w :: ((A ++ B) ++ R)) ?_
      · rw [append_assoc, cons_append]
        exact whole
      · rw [endV] at parentW
        refine Preorder.single parentW (Preorder.append ?_ below)
        exact rest.congr fun y mem => sameOld y (mem_append.1 mem)
  · simp only [length_append, length_cons]
    omega

end Turn

/-- What the loop has reached at the node `w` that loses its predecessor `stop`: the
subtree of `w` is threaded from `r` on, as the list `C`, and this is a preorder. -/
structure TurnEnd (G : DiGraph n m) (pred0 : Fin n → Option (Arc m))
    (thread0 : Fin n → Option (Fin n)) (L : List (Fin n)) (r : Fin n) (a0 stop : Arc m)
    (fs : Fin n) (pred : Fin n → Option (Arc m)) (thread : Fin n → Option (Fin n))
    (X T Y C : List (Fin n)) : Prop where
  split : L = X ++ G.endNode stop :: (T ++ Y)
  subtree : Subtree (G.parent pred0) none X (G.endNode stop) T Y
  mem : ∀ y, y ∈ r :: C ↔ y ∈ G.endNode stop :: T
  nodup : (r :: C).Nodup
  last : ∃ front, r :: C = front ++ [fs]
  links : Links thread (r :: C) Y.head?
  threadKept : ∀ y, y ∉ r :: C → thread y = thread0 y
  predKept : ∀ y, y ∉ r :: C → pred y = pred0 y
  first : pred r = some a0.rev
  exchange : Exchange G pred0 a0 pred stop
  preorder : Preorder (G.parent pred) (some r) C

section TurnEnd

variable {pred0 pred : Fin n → Option (Arc m)} {thread0 thread : Fin n → Option (Fin n)}
  {depth : Fin n → ℕ} {L X T Y C : List (Fin n)} {r v fs : Fin n} {a0 a stop : Arc m}

theorem TurnInv.finish (nodup : L.Nodup)
    (inv : TurnInv G pred0 thread0 L r a0 v a fs pred thread X T Y C) (label : pred v = some stop) :
    TurnEnd G pred0 thread0 L r a0 stop fs (update pred v (some a.rev)) thread X T Y C := by
  have notT := inv.notMem nodup
  have endV : G.endNode stop = v := inv.exchange.ends v stop label
  have first : update pred v (some a.rev) r = some a0.rev := by
    rcases inv.turned with ⟨rfl, rfl⟩ | ⟨-, first, below⟩
    · exact update_self _ _ _
    · rw [update_of_ne ?_]
      · exact first
      · rintro rfl
        exact notT below
  refine ⟨by rw [endV]; exact inv.split, by rw [endV]; exact inv.subtree,
    by rw [endV]; exact inv.mem, inv.nodup, inv.last, inv.links, ?_, ?_, first,
    inv.exchange.step inv.start label (inv.turned.imp And.left And.left), ?_⟩
  · intro y out
    exact inv.threadKept y fun inside => out ((inv.mem y).2 inside)
  · intro y out
    rw [inv.mem y, mem_cons, not_or] at out
    rw [update_of_ne out.1]
    exact inv.predKept y out.2
  · have whole := inv.open_end (G.parent (update pred v (some a.rev))) (fun y mem => by
        have other : y ≠ v := by
          rintro rfl
          exact notT mem
        rw [parent, parent, update_of_ne other])
      (parent_of_pred (update_self _ _ _)) [] .nil
    rwa [append_nil] at whole

/-- **Turning the path** from `r` to the node whose predecessor is `stop`. -/
theorem turnPath_spec (isDepth : IsDepth (G.parent pred0) depth) (tour : Links thread0 L none)
    (nodup : L.Nodup) (label : pred0 w = some stop)
    (inv : TurnInv G pred0 thread0 L r a0 v a fs pred thread X T Y C)
    (above : Ancestor (G.parent pred0) w v) (enough : n < count + T.length) :
    ∃ pred' thread' fs' X' T' Y' C',
      G.turnPath depth stop count v a fs pred thread = .ok (pred', thread', fs') ∧
      TurnEnd G pred0 thread0 L r a0 stop fs' pred' thread' X' T' Y' C' := by
  induction count generalizing v a fs pred thread X T Y C with
  | zero =>
    -- the subtree does not have more than `n` nodes
    have bound := nodup.length_le_card
    rw [inv.split, Fintype.card_fin] at bound
    simp only [length_append, length_cons] at bound
    omega
  | succ count ih =>
    have kept := inv.predKept v (inv.notMem nodup)
    rw [turnPath]
    split_ifs with stopHere
    · exact ⟨_, _, _, X, T, Y, C, rfl, inv.finish nodup stopHere⟩
    have other : w ≠ v := by
      rintro rfl
      exact stopHere (kept.trans label)
    obtain ⟨q, parentV, above'⟩ := above.of_ne other
    obtain ⟨a2, label2, rfl⟩ := map_eq_some_iff.1 parentV
    have labelV : pred v = some a2 := kept.trans label2
    obtain ⟨thread', fs', X', T', Y', C', res, inv', grown⟩ :=
      inv.step isDepth tour nodup labelV
    obtain ⟨pred'', thread'', fs'', X'', T'', Y'', C'', rest, done⟩ :=
      ih inv' above' (by omega)
    refine ⟨pred'', thread'', fs'', X'', T'', Y'', C'', ?_, done⟩
    simp only [labelV, defined, bind, Except.bind, res]
    exact rest

theorem threadBefore_spec {q : Fin n} (links : Links thread (q :: A) (some w)) (fresh : w ∉ A)
    (last : q :: A = front ++ [z])
    (enough : A.length < count) : threadBefore thread w count q = .ok z := by
  induction A generalizing q count front with
  | nil =>
    obtain ⟨count, rfl⟩ : ∃ k, count = k + 1 := ⟨count - 1, by simp at enough; omega⟩
    obtain ⟨-, rfl⟩ : front = [] ∧ q = z := by
      cases front with
      | nil => simpa using last
      | cons d front => simp at last
    have here : thread q = some w := links.1
    rw [threadBefore, if_pos here]
  | cons b A ih =>
    rw [length_cons] at enough
    obtain ⟨count, rfl⟩ : ∃ k, count = k + 1 := ⟨count - 1, by omega⟩
    obtain ⟨front, rfl⟩ : ∃ k, front = q :: k := by
      cases front with
      | nil => simp at last
      | cons d front => exact ⟨front, by simpa using (List.cons.inj last).1.symm⟩
    have here : thread q = some b := links.1
    have other : b ≠ w := by
      rintro rfl
      exact fresh mem_cons_self
    rw [threadBefore, if_neg (by rw [here]; simpa using other)]
    simp only [here, defined, bind, Except.bind]
    exact ih links.2 (fun inside => fresh (mem_cons_of_mem _ inside))
      (List.cons.inj last).2 (by omega)

end TurnEnd

end DiGraph

end Goblin
