import Goblin.Graph

/-!
# Residual capacities and augmentation

`FindCap` and `Augment` read the predecessor labels backwards, from the last
node of a path to its first one, or once around a cycle. Both count the arcs
they have read and raise when the start node does not turn up among the first
`n` of them.

On labels that lead back to the start node, `FindCap` returns the bottleneck
of the path and `Augment` pushes along exactly its arcs (`findCap_eq`,
`augment_eq`). Pushing at most the bottleneck keeps the flow within its bounds
(`withinBounds_pushAll`).
-/

set_option autoImplicit false

namespace Goblin

open Library List

variable {m left : ℕ} {x lambda : ℚ}

/-- What the library raises: the kind of error, the method and the text. `fuel`
and `fault` are no errors of the library; they mark a run that was cut off, and an
access to an array by an undefined index. -/
inductive Raise where
  | fuel
  | fault
  | range (method text : String)
  | rejected (method text : String)
  | check (method text : String)
  | internal (method text : String)
deriving DecidableEq, Repr

/-- An index by which an array is accessed. -/
def defined {I : Type} (i : Option I) : Except Raise I :=
  match i with
  | some i => .ok i
  | none => .error .fault

/-! ## Arc indices -/

/-- The index of an arc. -/
def arcIndex {m : ℕ} (a : Arc m) : ℕ := 2 * a.edge + if a.back then 1 else 0

/-- The arc with this index. -/
def arcAt (m i : ℕ) : Except Raise (Arc m) :=
  if low : i / 2 < m then .ok ⟨⟨i / 2, low⟩, i % 2 = 1⟩
  else .error (.range "ResCap" "No such arc")

theorem arcIndex_lt (a : Arc m) : arcIndex a < 2 * m := by
  have := a.edge.isLt
  unfold arcIndex
  split_ifs <;> omega

theorem arcAt_arcIndex (a : Arc m) : arcAt m (arcIndex a) = .ok a := by
  have low := a.edge.isLt
  cases a with
  | mk e back =>
    cases back with
    | false =>
      have half : (2 * (e : ℕ) + 0) / 2 = e := by omega
      have even : ¬ (2 * (e : ℕ) + 0) % 2 = 1 := by omega
      simp only [arcIndex, arcAt, Bool.false_eq_true, if_false, half, dif_pos low, even,
        decide_false]
    | true =>
      have half : (2 * (e : ℕ) + 1) / 2 = e := by omega
      have odd : (2 * (e : ℕ) + 1) % 2 = 1 := by omega
      simp only [arcIndex, arcAt, if_true, half, dif_pos low, odd, decide_true]

theorem arcIndex_inj {a b : Arc m} (same : arcIndex a = arcIndex b) : a = b := by
  have eq := arcAt_arcIndex a
  rw [same, arcAt_arcIndex] at eq
  exact (Except.ok.inj eq).symm

namespace MixedGraph

variable {n m : ℕ} (G : MixedGraph n m)

/-! ## Bounds -/

/-- The capacity that `ResCap` works with: `InfCap` for uncapacitated arcs. -/
def bound (e : Fin m) : ℚ := if G.ucap e < infCap then G.ucap e else infCap

/-- Every flow value lies between the lower bound and the capacity. -/
def WithinBounds (sub : Fin m → ℚ) : Prop := ∀ e, G.lcap e ≤ sub e ∧ sub e ≤ G.bound e

instance (sub : Fin m → ℚ) : Decidable (G.WithinBounds sub) :=
  inferInstanceAs (Decidable (∀ e, G.lcap e ≤ sub e ∧ sub e ≤ G.bound e))

variable {G} {sub : Fin m → ℚ} {a : Arc m}

theorem bound_le_infCap (e : Fin m) : G.bound e ≤ infCap := by
  rw [bound]
  split_ifs with finite
  · exact finite.le
  · exact le_refl _

theorem bound_eq_ucap {e : Fin m} (finite : G.ucap e < infCap) : G.bound e = G.ucap e :=
  if_pos finite

theorem WithinBounds.nonneg (within : G.WithinBounds sub) (e : Fin m) : 0 ≤ sub e :=
  (G.lcap_nonneg e).trans (within e).1

theorem resCap_back (a : Arc m) (back : a.back = true) :
    G.resCap sub a = sub a.edge - G.lcap a.edge := by
  simp [resCap, back]

section

variable (within : G.WithinBounds sub)
include within

theorem resCap_forward (a : Arc m) (forward : a.back = false) :
    G.resCap sub a = G.bound a.edge - sub a.edge := by
  have upper := (within a.edge).2
  rw [bound] at upper ⊢
  simp only [resCap, forward, Bool.false_eq_true, if_false]
  split_ifs at upper ⊢ with finite room
  · rfl
  · rfl
  · linarith

theorem resCap_nonneg (a : Arc m) : 0 ≤ G.resCap sub a := by
  have bounds := within a.edge
  cases direction : a.back with
  | true =>
    rw [resCap_back a direction]
    linarith [bounds.1]
  | false =>
    rw [resCap_forward within a direction]
    linarith [bounds.2]

theorem resCap_le_infCap (a : Arc m) : G.resCap sub a ≤ infCap := by
  have bounds := within a.edge
  have large := G.bound_le_infCap a.edge
  have lower := G.lcap_nonneg a.edge
  cases direction : a.back with
  | true =>
    rw [resCap_back a direction]
    linarith [bounds.2]
  | false =>
    rw [resCap_forward within a direction]
    linarith [bounds.1]

end

theorem infCap_lt_infFloat : infCap < infFloat := by
  norm_num [infCap, infFloat]

/-- The residual capacity depends on the flow of the edge only. -/
theorem resCap_congr {sub' : Fin m → ℚ} {a : Arc m} (eq : sub' a.edge = sub a.edge) :
    G.resCap sub' a = G.resCap sub a := by
  simp only [resCap, eq]

section

variable (within : G.WithinBounds sub)
include within

theorem resCap_of_pushed {sub' : Fin m → ℚ}
    (within' : G.WithinBounds sub') (pushed : sub' a.edge = sub a.edge + signed a x) :
    G.resCap sub' a = G.resCap sub a - x ∧ G.resCap sub' a.rev = G.resCap sub a.rev + x := by
  cases a with
  | mk e back =>
    cases back with
    | false =>
      have pushed' : sub' e = sub e + x := by simpa [signed] using pushed
      rw [resCap_forward within ⟨e, false⟩ rfl, resCap_forward within' ⟨e, false⟩ rfl,
        resCap_back (Dart.rev ⟨e, false⟩) rfl, resCap_back (Dart.rev ⟨e, false⟩) rfl]
      simp only [Dart.rev, pushed']
      constructor <;> ring
    | true =>
      have pushed' : sub' e = sub e - x := by
        rw [pushed]
        simp [signed, sub_eq_add_neg]
      rw [resCap_back ⟨e, true⟩ rfl, resCap_back ⟨e, true⟩ rfl,
        resCap_forward within (Dart.rev ⟨e, true⟩) rfl,
        resCap_forward within' (Dart.rev ⟨e, true⟩) rfl]
      simp only [Dart.rev, pushed']
      constructor <;> ring

theorem withinBounds_pushAll {p : List (Arc m)}
    (once : (p.map Dart.edge).Nodup) (nonneg : 0 ≤ x) (room : ∀ a ∈ p, x ≤ G.resCap sub a) :
    G.WithinBounds (pushAll sub p x) := by
  intro e
  have bounds := within e
  by_cases mem : ∃ a ∈ p, a.edge = e
  · obtain ⟨a, inPath, rfl⟩ := mem
    rw [pushAll_of_mem sub x once inPath]
    have fits := room a inPath
    cases direction : a.back with
    | true =>
      rw [resCap_back a direction] at fits
      simp only [signed, direction, if_true]
      constructor <;> linarith [bounds.1, bounds.2]
    | false =>
      rw [resCap_forward within a direction] at fits
      simp only [signed, direction, Bool.false_eq_true, if_false]
      constructor <;> linarith [bounds.1, bounds.2]
  · push Not at mem
    rw [pushAll_of_notMem sub p x mem]
    exact bounds

theorem withinBounds_push (nonneg : 0 ≤ x)
    (room : x ≤ G.resCap sub a) : G.WithinBounds (push sub a x) := by
  have all := withinBounds_pushAll within (p := [a]) (by simp) nonneg (by simpa using room)
  simpa using all

/-- A dart that a path does not meet in either direction keeps its residual
capacity; the darts of the path lose the amount and their reversals gain it. -/
theorem resCap_pushAll {p : List (Arc m)}
    (once : (p.map Dart.edge).Nodup) (nonneg : 0 ≤ x) (room : ∀ a ∈ p, x ≤ G.resCap sub a)
    (a : Arc m) : (a ∈ p ∧ G.resCap (pushAll sub p x) a = G.resCap sub a - x) ∨
    (a.rev ∈ p ∧ G.resCap (pushAll sub p x) a = G.resCap sub a + x) ∨
    G.resCap (pushAll sub p x) a = G.resCap sub a := by
  have within' := withinBounds_pushAll within once nonneg room
  by_cases forth : a ∈ p
  · exact .inl ⟨forth, (resCap_of_pushed within within' (pushAll_of_mem sub x once forth)).1⟩
  by_cases back : a.rev ∈ p
  · refine .inr (.inl ⟨back, ?_⟩)
    have pushed := (resCap_of_pushed within within' (pushAll_of_mem sub x once back)).2
    rwa [Dart.rev_rev] at pushed
  · refine .inr (.inr (resCap_congr (pushAll_of_notMem sub p x ?_)))
    intro b mem eq
    rcases Dart.eq_or_eq_rev eq with rfl | rfl
    · exact forth mem
    · exact back mem

end

/-! ## FindCap -/

variable (G)

/-- One arc of `FindCap`: the bottleneck so far and the next residual capacity. -/
def narrow (sub : Fin m → ℚ) (lambda : ℚ) (a : Arc m) : ℚ :=
  if G.resCap sub a < lambda then G.resCap sub a else lambda

/-- The bottleneck of a list of arcs. -/
def bottleneck (sub : Fin m → ℚ) (p : List (Arc m)) : ℚ :=
  p.foldl (G.narrow sub) infFloat

/-- The loop of `FindCap`; the counter is `n - PathLength`. -/
def findCapFrom (sub : Fin m → ℚ) (pred : Fin n → Option (Arc m)) (u : Fin n) :
    ℕ → Fin n → ℚ → Except Raise ℚ
  | 0, _, _ => .error (.internal "FindCap" "Missing start node")
  | left + 1, w, lambda =>
    match pred w with
    | none => .error (.internal "FindCap" "Missing start node")
    | some a =>
      if G.startNode a = u then .ok (G.narrow sub lambda a)
      else findCapFrom sub pred u left (G.startNode a) (G.narrow sub lambda a)

def findCap (sub : Fin m → ℚ) (pred : Fin n → Option (Arc m)) (u v : Fin n) :
    Except Raise ℚ :=
  G.findCapFrom sub pred u n v infFloat

/-- The loop of `Augment`. -/
def augmentFrom (u : Fin n) (lambda : ℚ) :
    ℕ → Fin n → (Fin m → ℚ) → (Fin n → Option (Arc m)) →
      Except Raise ((Fin m → ℚ) × (Fin n → Option (Arc m)))
  | 0, _, _, _ => .error (.internal "Augment" "Missing start node")
  | left + 1, w, sub, pred =>
    match pred w with
    | none => .error (.internal "Augment" "Missing start node")
    | some a =>
      let sub := push sub a lambda
      let pred := Function.update pred w none
      if G.startNode a = u then .ok (sub, pred)
      else augmentFrom u lambda left (G.startNode a) sub pred

def augment (sub : Fin m → ℚ) (pred : Fin n → Option (Arc m)) (u v : Fin n) (lambda : ℚ) :
    Except Raise ((Fin m → ℚ) × (Fin n → Option (Arc m))) :=
  if lambda ≤ 0 then .error (.rejected "Augment" "Amount should be positive")
  else G.augmentFrom u lambda n v sub pred

variable {G}

theorem bottleneck_le {p : List (Arc m)} (mem : a ∈ p) :
    G.bottleneck sub p ≤ G.resCap sub a := by
  have decreases : ∀ (p : List (Arc m)) (x : ℚ), p.foldl (G.narrow sub) x ≤ x := by
    intro p
    induction p with
    | nil => exact fun x => le_refl x
    | cons b p ih =>
      intro x
      refine (ih _).trans ?_
      rw [narrow]
      split_ifs with less
      · exact less.le
      · exact le_refl x
  have general : ∀ (p : List (Arc m)) (x : ℚ), a ∈ p →
      p.foldl (G.narrow sub) x ≤ G.resCap sub a := by
    intro p
    induction p with
    | nil => exact fun x mem => nomatch mem
    | cons b p ih =>
      intro x mem
      rcases mem_cons.1 mem with rfl | later
      · refine (decreases p _).trans ?_
        rw [narrow]
        split_ifs with less
        · exact le_refl _
        · exact not_lt.1 less
      · exact ih _ later
  exact general p infFloat mem

/-- The bottleneck is the residual capacity of one of the arcs. -/
theorem exists_bottleneck (within : G.WithinBounds sub) {p : List (Arc m)} (ne : p ≠ []) :
    ∃ a ∈ p, G.bottleneck sub p = G.resCap sub a := by
  have general : ∀ (p : List (Arc m)) (x : ℚ),
      p.foldl (G.narrow sub) x = x ∨ ∃ a ∈ p, p.foldl (G.narrow sub) x = G.resCap sub a := by
    intro p
    induction p with
    | nil => exact fun x => .inl rfl
    | cons b p ih =>
      intro x
      rw [foldl_cons]
      rcases ih (G.narrow sub x b) with eq | ⟨a, mem, val⟩
      · rw [eq, narrow]
        split_ifs with less
        · exact .inr ⟨b, mem_cons_self, rfl⟩
        · exact .inl rfl
      · exact .inr ⟨a, mem_cons_of_mem _ mem, val⟩
  rcases general p infFloat with inf | found
  · obtain ⟨a, rest, rfl⟩ := exists_cons_of_ne_nil ne
    have below : G.bottleneck sub (a :: rest) ≤ G.resCap sub a := bottleneck_le mem_cons_self
    have small := resCap_le_infCap within a
    rw [bottleneck, inf] at below
    exact absurd (below.trans small) (not_le.2 infCap_lt_infFloat)
  · exact found

theorem bottleneck_pos (within : G.WithinBounds sub) {p : List (Arc m)} (ne : p ≠ [])
    (residual : ∀ a ∈ p, 0 < G.resCap sub a) : 0 < G.bottleneck sub p := by
  obtain ⟨a, mem, val⟩ := exists_bottleneck within ne
  rw [val]
  exact residual a mem

theorem bottleneck_lt_infCap (finite : ∀ e, G.ucap e < infCap) (within : G.WithinBounds sub)
    {p : List (Arc m)} (ne : p ≠ []) : G.bottleneck sub p < infCap := by
  obtain ⟨a, -, val⟩ := exists_bottleneck within ne
  rw [val]
  have bounds := within a.edge
  have nonneg := within.nonneg a.edge
  have lower := G.lcap_nonneg a.edge
  have capacity := finite a.edge
  rw [bound_eq_ucap capacity] at bounds
  cases direction : a.back with
  | true =>
    rw [resCap_back a direction]
    linarith
  | false =>
    rw [resCap_forward within a direction, bound_eq_ucap capacity]
    linarith

variable {pred : Fin n → Option (Arc m)} {u w : Fin n} {p : List (Arc m)}

theorem findCapFrom_eq (path : BackPath pred G.src u w p) (enough : p.length ≤ left) (lambda : ℚ) :
    G.findCapFrom sub pred u left w lambda = .ok (p.foldl (G.narrow sub) lambda) := by
  induction path generalizing left lambda with
  | last label arrived =>
    obtain ⟨left, rfl⟩ : ∃ k, left = k + 1 := ⟨left - 1, by simp at enough; omega⟩
    simp [findCapFrom, label, arrived]
  | step label onward rest ih =>
    obtain ⟨left, rfl⟩ : ∃ k, left = k + 1 := ⟨left - 1, by simp at enough; omega⟩
    rw [length_cons] at enough
    simp only [findCapFrom, label, onward, if_false, foldl_cons]
    exact ih (by omega) _

section

variable (consistent : ∀ x a, pred x = some a → G.dst a = x) (path : BackPath pred G.src u w p)
include consistent path

theorem findCap_eq : G.findCap sub pred u w = .ok (G.bottleneck sub p) := by
  refine findCapFrom_eq path ?_ infFloat
  simpa using path.length_le_card consistent

theorem augmentFrom_eq (enough : p.length ≤ left) (lambda : ℚ) :
    G.augmentFrom u lambda left w sub pred =
      .ok (pushAll sub p lambda, fun x => if x ∈ p.map G.dst then none else pred x) := by
  induction p generalizing w left sub pred with
  | nil => exact absurd rfl path.ne_nil
  | cons a p ih =>
    rw [length_cons] at enough
    obtain ⟨left, rfl⟩ : ∃ k, left = k + 1 := ⟨left - 1, by omega⟩
    have nodup := path.nodup consistent
    have target := consistent _ _ path.label_head
    have cleared : ∀ x, (if x ∈ p.map G.dst then none else Function.update pred w none x) =
        if x ∈ (a :: p).map G.dst then none else pred x := by
      intro x
      rw [map_cons, target]
      by_cases eq : x = w
      · simp [eq]
      · simp [eq]
    cases path with
    | last label arrived =>
      simp only [augmentFrom, label, arrived, if_true, ← cleared]
      simp
    | step label onward rest =>
      simp only [augmentFrom, label, onward, if_false, pushAll_cons, ← cleared]
      -- clearing the label of `w` does not affect the rest of the path
      rw [map_cons, nodup_cons, target] at nodup
      refine ih ?_ (rest.congr consistent fun b mem => ?_) (by omega)
      · intro x b label'
        by_cases eq : x = w
        · simp [eq] at label'
        · rw [Function.update_of_ne eq] at label'
          exact consistent x b label'
      · refine Function.update_of_ne ?_ _ _
        rintro rfl
        exact nodup.1 (mem_map_of_mem mem)

end

section

variable (sub : Fin m → ℚ) (consistent : ∀ x a, pred x = some a → G.dst a = x)
  (path : BackPath pred G.src u w p) (pos : 0 < lambda)
include consistent path pos

theorem augment_labels : G.augment sub pred u w lambda =
      .ok (pushAll sub p lambda, fun x => if x ∈ p.map G.dst then none else pred x) := by
  rw [augment, if_neg (not_le.2 pos)]
  refine augmentFrom_eq consistent path ?_ lambda
  simpa using path.length_le_card consistent

theorem augment_eq : ∃ pred', G.augment sub pred u w lambda = .ok (pushAll sub p lambda, pred') :=
  ⟨_, augment_labels sub consistent path pos⟩

end

end MixedGraph

end Goblin
