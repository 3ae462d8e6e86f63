import Goblin.Augment
import Goblin.Library.Representatives
import Goblin.Library.StateRuns

/-!
# Disjoint set families

A `disjointFamily` keeps a partition of the items that have been budded. Every item points to
another item of its set or, if it is the canonical one, to itself. `Merge` looks up both canonical
items and links them by rank. `Find` is a constant method, yet it redirects the pointers on its
way if the context parameter `methDSU` asks for path compression.

The value `UNDEFINED` of an item that has not been budded is `none` here. Items that do not exist
are only reported if warnings are enabled; otherwise an array is accessed out of its range.
-/

set_option autoImplicit false

namespace Goblin

open Library Relation
open Function (update update_self update_of_ne update_eq_self)

/-- A `disjointFamily`. -/
structure DisjointFamily where
  n : ℕ
  B : ℕ → Option ℕ
  rank : ℕ → ℕ

/-- The parameters of the context that the methods read. -/
structure FamilyContext where
  methDSU : ℤ
  logWarn : Bool

namespace DisjointFamily

/-- The methods of a disjoint family. -/
abbrev FamilyM := EStateM Raise DisjointFamily

/-- The constructor. The array `rank` is not initialised. -/
def new (n : ℕ) (rank : ℕ → ℕ) : DisjointFamily := ⟨n, fun _ => none, rank⟩

/-- `NoSuchItem`, if warnings are enabled -/
def noSuchItem {α : Type} (CT : FamilyContext) : FamilyM α :=
  throw (if CT.logWarn then .range "Find" "No such item" else .fault)

def bud (CT : FamilyContext) (v : ℕ) : FamilyM Unit := do
  let st ← get
  if st.n ≤ v then noSuchItem CT
  else modify fun st => { st with
    B := update st.B v (some v)
    rank := update st.rank v 1 }

/-- The redirection of a pointer at the end of `Find`. -/
def compress (CT : FamilyContext) (v w : ℕ) : FamilyM Unit :=
  modify fun st =>
    if CT.methDSU = 1 ∧ st.B v ≠ some w then { st with B := update st.B v (some w) } else st

/-- The recursion of `Find`. -/
def findFrom (CT : FamilyContext) : ℕ → ℕ → FamilyM ℕ
  | 0, _ => throw .fuel
  | fuel + 1, v => do
    let st ← get
    match st.B v with
    | none => noSuchItem CT
    | some u => do
      let w ← if u = v then pure v else findFrom CT fuel u
      compress CT v w
      return w

def find (CT : FamilyContext) (v : ℕ) : FamilyM ℕ := do
  let st ← get
  findFrom CT st.n v

/-- The last part of `Merge`, for the canonical items. -/
def link (u v : ℕ) (st : DisjointFamily) : DisjointFamily :=
  if st.rank u < st.rank v then { st with B := update st.B u (some v) }
  else { st with
    B := update st.B v (some u)
    rank := if st.rank v = st.rank u ∧ u ≠ v then update st.rank u (st.rank u + 1)
      else st.rank }

def merge (CT : FamilyContext) (u v : ℕ) : FamilyM Unit := do
  let st ← get
  if st.n ≤ u ∨ st.B u = none then throw (.range "Find" "No such item")
  else if st.n ≤ v ∨ st.B v = none then throw (.range "Find" "No such item")
  else do
    let u ← find CT u
    let v ← find CT v
    modify (link u v)

/-! ## The invariant -/

variable {st st' : DisjointFamily} {CT : FamilyContext} {u v w : ℕ} {joined : ℕ → ℕ → Prop}

/-- The pointers stay within the items that have been budded, and the ranks increase. -/
structure Valid (st : DisjointFamily) : Prop where
  low : ∀ v, st.B v ≠ none → v < st.n
  closed : ∀ v u, st.B v = some u → st.B u ≠ none
  rising : Rising st.B st.rank

theorem new_valid (n : ℕ) (rank : ℕ → ℕ) : (new n rank).Valid where
  low := fun _ defined => absurd rfl defined
  closed := fun _ _ ptr => by cases ptr
  rising := fun _ _ ptr => by cases ptr

/-- The other state differs by path compression. -/
structure Compressed (st st' : DisjointFamily) : Prop where
  n : st'.n = st.n
  rank : st'.rank = st.rank
  shortens : Shortens st.B st'.B

theorem Compressed.valid (compressed : Compressed st st') (valid : st.Valid) : st'.Valid where
  low := fun v defined => by
    rw [compressed.n]
    exact valid.low v fun none => defined (compressed.shortens.none_iff.2 none)
  closed := fun v u ptr none => by
    have absent := compressed.shortens.none_iff.1 none
    rcases compressed.shortens v with eq | ⟨w, leads, ptr'⟩
    · exact valid.closed v u (eq ▸ ptr) absent
    · rw [ptr] at ptr'
      cases ptr'
      exact leads.canonical.ne_none absent
  rising := by
    rw [compressed.rank]
    exact compressed.shortens.rising valid.rising

theorem Compressed.trans {st'' : DisjointFamily} (first : Compressed st st')
    (second : Compressed st' st'') : Compressed st st'' where
  n := second.n.trans first.n
  rank := second.rank.trans first.rank
  shortens := first.shortens.trans second.shortens

theorem compress_spec (CT : FamilyContext) (leads : Leads st.B v w) :
    ∃ st', compress CT v w st = .ok () st' ∧ Compressed st st' := by
  refine ⟨_, rfl, ?_⟩
  dsimp only
  split_ifs
  · exact ⟨rfl, rfl, .update leads⟩
  · exact ⟨rfl, rfl, .refl _⟩

/-! ## Find -/

/-- The way from an item is shorter than the number of items of higher rank. -/
theorem findFrom_spec (CT : FamilyContext) : ∀ (fuel : ℕ) {st : DisjointFamily} {v : ℕ}, st.Valid →
    st.B v ≠ none → higher st.rank (Finset.range st.n) v < fuel →
    ∃ w st', findFrom CT fuel v st = .ok w st' ∧ Leads st.B v w ∧ Compressed st st' := by
  intro fuel
  induction fuel with
  | zero => exact fun _ _ short => absurd short (Nat.not_lt_zero _)
  | succ fuel ih =>
    intro st v valid budded short
    obtain ⟨u, ptr⟩ := Option.ne_none_iff_exists'.1 budded
    by_cases isRoot : u = v
    · subst isRoot
      have leads : Leads st.B u u := .root ptr
      obtain ⟨st', res, compressed⟩ := compress_spec CT leads
      refine ⟨u, st', ?_, leads, compressed⟩
      rw [findFrom, run_bind_get, ptr]
      simp only [if_true]
      change (compress CT u u >>= fun _ => pure u : FamilyM ℕ) st = _
      rw [run_bind_ok res]
      rfl
    · have mem : u ∈ Finset.range st.n :=
        Finset.mem_range.2 (valid.low u (valid.closed v u ptr))
      have less := higher_lt mem (valid.rising v u ptr isRoot)
      obtain ⟨w, st1, found, leads, compressed⟩ :=
        ih valid (valid.closed v u ptr) (by omega)
      have leadsV : Leads st.B v w := .step ptr isRoot leads
      obtain ⟨st', res, compressed'⟩ :=
        compress_spec CT (compressed.shortens.leads leadsV)
      refine ⟨w, st', ?_, leadsV, compressed.trans compressed'⟩
      rw [findFrom, run_bind_get, ptr]
      simp only [if_neg isRoot]
      rw [run_bind_ok found, run_bind_ok res]
      rfl

/-- **`Find` returns the canonical item**, and compresses at most. -/
theorem find_spec (CT : FamilyContext) (valid : st.Valid) (budded : st.B v ≠ none) :
    ∃ w st', find CT v st = .ok w st' ∧ Leads st.B v w ∧ Compressed st st' := by
  have mem : v ∈ Finset.range st.n := Finset.mem_range.2 (valid.low v budded)
  have short : higher st.rank (Finset.range st.n) v < (Finset.range st.n).card :=
    higher_lt_card mem
  rw [Finset.card_range] at short
  rw [find, run_bind_get]
  exact findFrom_spec CT st.n valid budded short

/-! ## Bud and Merge -/

/-- The sets are the components of the pairs that have been merged. -/
structure Represents (st : DisjointFamily) (joined : ℕ → ℕ → Prop) : Prop where
  valid : st.Valid
  partitions : Partitions st.B joined

theorem Represents.compressed (rep : st.Represents joined) (compressed : Compressed st st') :
    st'.Represents joined :=
  ⟨compressed.valid rep.valid, rep.partitions.shortens compressed.shortens⟩

theorem bud_spec (CT : FamilyContext) (rep : st.Represents joined) (low : v < st.n)
    (fresh : st.B v = none) :
    ∃ st', bud CT v st = .ok () st' ∧ st'.Represents joined ∧ st'.n = st.n ∧
      ∀ x, st'.B x ≠ none ↔ x = v ∨ st.B x ≠ none := by
  have valid := rep.valid
  have defined : ∀ x, update st.B v (some v) x ≠ none ↔ x = v ∨ st.B x ≠ none := by
    intro x
    by_cases here : x = v
    · simp [here]
    · simp [here]
  refine ⟨{ st with
      B := update st.B v (some v)
      rank := update st.rank v 1 }, ?_, ⟨⟨?_, ?_, ?_⟩, ?_⟩, rfl, defined⟩
  · rw [bud, run_bind_get, if_neg (not_le.2 low)]
    rfl
  · intro x present
    rcases (defined x).1 present with rfl | old
    · exact low
    · exact valid.low x old
  · intro x u ptr
    refine (defined u).2 ?_
    by_cases here : x = v
    · rw [here] at ptr
      dsimp only at ptr
      rw [update_self] at ptr
      exact .inl (Option.some.inj ptr).symm
    · dsimp only at ptr
      rw [update_of_ne here] at ptr
      exact .inr (valid.closed x u ptr)
  · intro x u ptr moved
    dsimp only at ptr ⊢
    by_cases here : x = v
    · rw [here, update_self] at ptr
      exact absurd ((Option.some.inj ptr).symm.trans here.symm) moved
    rw [update_of_ne here] at ptr
    have notV : u ≠ v := by
      rintro rfl
      exact valid.closed x u ptr fresh
    rw [update_of_ne here, update_of_ne notV]
    exact valid.rising x u ptr moved
  · exact rep.partitions.bud fresh valid.closed

/-- A pointer from a budded item to another one is redirected. -/
theorem Valid.redirect {rank : ℕ → ℕ} (valid : st.Valid) (budded : st.B u ≠ none)
    (budded' : st.B w ≠ none) (rising : Rising (update st.B u (some w)) rank) :
    Valid { st with B := update st.B u (some w), rank := rank } := by
  have defined : ∀ x, update st.B u (some w) x = none → st.B x = none := by
    intro x absent
    by_cases here : x = u
    · rw [here, update_self] at absent
      cases absent
    · rwa [update_of_ne here] at absent
  refine ⟨fun x present => ?_, fun x t ptr => ?_, rising⟩
  · refine valid.low x fun absent => present ?_
    have other : x ≠ u := fun here => budded (here ▸ absent)
    exact (update_of_ne other ..).trans absent
  · refine fun absent => ?_
    have old := defined t absent
    by_cases here : x = u
    · dsimp only at ptr
      rw [here, update_self] at ptr
      cases ptr
      exact budded' old
    · dsimp only at ptr
      rw [update_of_ne here] at ptr
      exact valid.closed x t ptr old

theorem link_spec {x y : ℕ} (rep : st.Represents joined) (leadsX : Leads st.B x u)
    (leadsY : Leads st.B y v) : (link u v st).Represents (fun p q => joined p q ∨ (p = x ∧ q = y)) ∧
      (link u v st).n = st.n ∧ ∀ z, (link u v st).B z ≠ none ↔ st.B z ≠ none := by
  obtain ⟨valid, partitions⟩ := rep
  have loopU := leadsX.loop
  have loopV := leadsY.loop
  have definedU := leadsX.canonical.ne_none
  have definedV := leadsY.canonical.ne_none
  have kept : ∀ {s t : ℕ}, st.B s ≠ none → ∀ z,
      update st.B s (some t) z ≠ none ↔ st.B z ≠ none := by
    intro s t defined z
    by_cases here : z = s
    · rw [here]
      simp [defined]
    · rw [update_of_ne here]
  have pair : EqvGen (fun p q => joined p q ∨ (p = x ∧ q = y)) x y :=
    .rel x y (.inr ⟨rfl, rfl⟩)
  rw [link]
  by_cases less : st.rank u < st.rank v
  · have other : v ≠ u := by
      rintro rfl
      exact lt_irrefl _ less
    rw [if_pos less]
    refine ⟨⟨valid.redirect definedU definedV (valid.rising.link less), ?_⟩, rfl, kept definedU⟩
    exact partitions.join leadsX leadsY other (fun _ _ => .inl) pair fun p q new =>
      new.imp_right .inl
  rw [if_neg less]
  by_cases eq : u = v
  · subst eq
    have loop : update st.B u (some u) = st.B := by rw [← loopU, update_eq_self]
    have idle : ¬ (st.rank u = st.rank u ∧ u ≠ u) := fun both => both.2 rfl
    rw [if_neg idle, loop]
    exact ⟨⟨valid, partitions.joinSame ⟨u, leadsX, leadsY⟩⟩, rfl, fun _ => Iff.rfl⟩
  have partitions' : Partitions (update st.B v (some u)) fun p q => joined p q ∨ (p = x ∧ q = y) :=
    partitions.join leadsY leadsX eq (fun _ _ => .inl) (pair.symm _ _) fun p q new =>
      new.imp_right .inr
  have rising : Rising (update st.B v (some u))
      (if st.rank v = st.rank u ∧ u ≠ v then update st.rank u (st.rank u + 1)
        else st.rank) := by
    by_cases tie : st.rank v = st.rank u
    · rw [if_pos ⟨tie, eq⟩]
      refine (valid.rising.raise loopU (Nat.le_succ _)).link ?_
      rw [update_self, update_of_ne (Ne.symm eq)]
      omega
    · rw [if_neg fun both => tie both.1]
      exact valid.rising.link (by omega)
  exact ⟨⟨valid.redirect definedV definedU rising, partitions'⟩, rfl, kept definedV⟩

theorem merge_spec (CT : FamilyContext) (rep : st.Represents joined)
    (buddedU : st.B u ≠ none) (buddedV : st.B v ≠ none) : ∃ st', merge CT u v st = .ok () st' ∧
      st'.Represents (fun p q => joined p q ∨ (p = u ∧ q = v)) ∧ st'.n = st.n ∧
      ∀ x, st'.B x ≠ none ↔ st.B x ≠ none := by
  obtain ⟨a, st1, foundU, leadsU, compressed1⟩ := find_spec CT rep.valid buddedU
  have rep1 := rep.compressed compressed1
  have buddedV1 : st1.B v ≠ none := fun absent =>
    buddedV (compressed1.shortens.none_iff.1 absent)
  obtain ⟨b, st2, foundV, leadsV, compressed2⟩ := find_spec CT rep1.valid buddedV1
  have rep2 := rep1.compressed compressed2
  have both := compressed1.trans compressed2
  have leadsU2 : Leads st2.B u a := both.shortens.leads leadsU
  have leadsV2 : Leads st2.B v b := compressed2.shortens.leads leadsV
  obtain ⟨after, n, defined⟩ := link_spec rep2 leadsU2 leadsV2
  refine ⟨link a b st2, ?_, after, n.trans both.n, fun x => ?_⟩
  · have lowU : ¬ (st.n ≤ u ∨ st.B u = none) := by
      rintro (high | absent)
      · exact absurd (rep.valid.low u buddedU) (not_lt.2 high)
      · exact buddedU absent
    have lowV : ¬ (st.n ≤ v ∨ st.B v = none) := by
      rintro (high | absent)
      · exact absurd (rep.valid.low v buddedV) (not_lt.2 high)
      · exact buddedV absent
    rw [merge, run_bind_get, if_neg lowU, if_neg lowV, run_bind_ok foundU, run_bind_ok foundV]
    rfl
  · rw [defined, ne_eq, ne_eq, both.shortens.none_iff]

/-! ## Runs -/

/-- The calls of a disjoint family. -/
inductive FamilyOp where
  | bud (v : ℕ)
  | merge (u v : ℕ)
  | find (v : ℕ)

/-- A call in a context. -/
def run (call : FamilyContext × FamilyOp) : FamilyM Unit :=
  match call.2 with
  | .bud v => bud call.1 v
  | .merge u v => merge call.1 u v
  | .find v => discard (find call.1 v)

section

variable (calls : List (FamilyContext × FamilyOp))

/-- The item has been budded. -/
def Budded (v : ℕ) : Prop := ∃ CT, (CT, .bud v) ∈ calls

/-- The items have been merged by a call. -/
def Joined (u v : ℕ) : Prop :=
  ∃ CT, (CT, .merge u v) ∈ calls

end

/-- Every item is budded at most once, and before it is used. The context may change at any
time. -/
inductive Legal (n : ℕ) : List (FamilyContext × FamilyOp) → Prop
  | start : Legal n []
  | bud {calls : List (FamilyContext × FamilyOp)} (CT : FamilyContext) {v : ℕ}
      (before : Legal n calls) (low : v < n) (fresh : ¬ Budded calls v) :
      Legal n (calls ++ [(CT, .bud v)])
  | merge {calls : List (FamilyContext × FamilyOp)} (CT : FamilyContext) {u v : ℕ}
      (before : Legal n calls) (buddedU : Budded calls u) (buddedV : Budded calls v) :
      Legal n (calls ++ [(CT, .merge u v)])
  | find {calls : List (FamilyContext × FamilyOp)} (CT : FamilyContext) {v : ℕ}
      (before : Legal n calls) (budded : Budded calls v) : Legal n (calls ++ [(CT, .find v)])

variable {n : ℕ} {calls : List (FamilyContext × FamilyOp)}

theorem run_concat {call : FamilyContext × FamilyOp} {start : DisjointFamily}
    (before : calls.forM run start = .ok () st) (last : run call st = .ok () st') :
    (calls ++ [call]).forM run start = .ok () st' := by
  rw [run_forM_append before]
  change (run call >>= fun _ => pure () : FamilyM Unit) st = _
  rw [run_bind_ok last]
  rfl

theorem Legal.represents (legal : Legal n calls) (rank : ℕ → ℕ) :
    ∃ st, calls.forM run (new n rank) = .ok () st ∧ st.Represents (Joined calls) ∧ st.n = n ∧
      ∀ v, st.B v ≠ none ↔ Budded calls v := by
  induction legal with
  | start =>
    refine ⟨new n rank, rfl, ⟨new_valid n rank, ⟨?_, ?_⟩⟩, rfl, fun v => ?_⟩
    · rintro x y ⟨w, leads, -⟩
      exact absurd rfl leads.ne_none
    · rintro x y ⟨CT, mem⟩
      cases mem
    · exact iff_of_false (fun defined => defined rfl) fun ⟨_, mem⟩ => by cases mem
  | @bud calls CT v _ low fresh ih =>
    obtain ⟨st, res, rep, count, defined⟩ := ih
    have free : st.B v = none := not_not.1 fun present => fresh ((defined v).1 present)
    obtain ⟨st', res', rep', count', defined'⟩ :=
      bud_spec CT rep (count.symm ▸ low) free
    have joined : Joined (calls ++ [(CT, .bud v)]) = Joined calls := by
      funext x y
      simp [Joined]
    refine ⟨st', run_concat res res', ?_, count'.trans count, fun x => ?_⟩
    · rw [joined]
      exact rep'
    · rw [defined', defined]
      simp [Budded, eq_comm, or_comm, exists_or]
  | @merge calls CT u v _ buddedU buddedV ih =>
    obtain ⟨st, res, rep, count, defined⟩ := ih
    obtain ⟨st', res', rep', count', defined'⟩ :=
      merge_spec CT rep ((defined u).2 buddedU) ((defined v).2 buddedV)
    have joined : Joined (calls ++ [(CT, .merge u v)]) =
        fun p q => Joined calls p q ∨ (p = u ∧ q = v) := by
      funext x y
      simp [Joined, exists_or]
    refine ⟨st', run_concat res res', ?_, count'.trans count, fun x => ?_⟩
    · rw [joined]
      exact rep'
    · rw [defined', defined]
      simp [Budded]
  | @find calls CT v _ budded ih =>
    obtain ⟨st, res, rep, count, defined⟩ := ih
    obtain ⟨w, st', found, -, compressed⟩ :=
      find_spec CT rep.valid ((defined v).2 budded)
    have joined : Joined (calls ++ [(CT, .find v)]) = Joined calls := by
      funext x y
      simp [Joined]
    refine ⟨st', run_concat res (run_discard_ok found), ?_, compressed.n.trans count,
      fun x => ?_⟩
    · rw [joined]
      exact rep.compressed compressed
    · rw [ne_eq, compressed.shortens.none_iff, ← ne_eq, defined]
      simp [Budded]

/-- `Find` returns the same item for two others if and only if they are connected. -/
theorem Represents.canonical (rep : st.Represents joined) : ∃ canonical : ℕ → ℕ,
      (∀ CT v, st.B v ≠ none → ∃ st', find CT v st = .ok (canonical v) st') ∧
      ∀ u v, st.B u ≠ none → st.B v ≠ none → (canonical u = canonical v ↔ EqvGen joined u v) := by
  obtain ⟨valid, partitions⟩ := rep
  have leads : ∀ v, ∃ w, st.B v ≠ none → Leads st.B v w := by
    intro v
    by_cases budded : st.B v ≠ none
    · obtain ⟨w, -, -, leads, -⟩ := find_spec ⟨0, true⟩ valid budded
      exact ⟨w, fun _ => leads⟩
    · exact ⟨v, fun present => absurd present budded⟩
  choose canonical leads using leads
  refine ⟨canonical, fun CT v budded => ?_, fun u v buddedU buddedV => ?_⟩
  · obtain ⟨w, st', found, leadsW, -⟩ := find_spec CT valid budded
    rw [(leads v budded).unique leadsW]
    exact ⟨st', found⟩
  · rw [← partitions.sameSet_iff (leads u buddedU)]
    constructor
    · intro eq
      exact ⟨canonical u, leads u buddedU, eq ▸ leads v buddedV⟩
    · rintro ⟨w, atU, atV⟩
      rw [(leads u buddedU).unique atU, (leads v buddedV).unique atV]

theorem Represents.congr {joined' : ℕ → ℕ → Prop} (rep : st.Represents joined)
    (sound : ∀ x y, joined x y → EqvGen joined' x y)
    (complete : ∀ x y, joined' x y → st.B x ≠ none ∧ EqvGen joined x y) :
    st.Represents joined' := by
  obtain ⟨valid, partitions⟩ := rep
  refine ⟨valid, fun x y eq => ?_, fun x y pair => ?_⟩
  · have old := partitions.sound x y eq
    clear eq
    induction old with
    | rel x y pair => exact sound x y pair
    | refl x => exact .refl x
    | symm x y _ ih => exact ih.symm
    | trans x y z _ _ first second => exact first.trans _ _ _ second
  · obtain ⟨budded, connected⟩ := complete x y pair
    obtain ⟨w, -, -, leads, -⟩ := find_spec ⟨0, true⟩ valid budded
    exact (partitions.sameSet_iff leads).2 connected

/-- **A disjoint family is a partition into the components of the merged pairs.** All calls return,
the rank increases along every pointer, and `Find` returns the same canonical item in
every context. -/
theorem disjointFamily_correct (legal : Legal n calls) (rank : ℕ → ℕ) :
    ∃ st, calls.forM run (new n rank) = .ok () st ∧
      (∀ v u, st.B v = some u → u ≠ v → st.rank v < st.rank u) ∧ ∃ canonical : ℕ → ℕ,
        (∀ CT v, Budded calls v → ∃ st', find CT v st = .ok (canonical v) st') ∧
        ∀ u v, Budded calls u → Budded calls v →
          (canonical u = canonical v ↔ EqvGen (Joined calls) u v) := by
  obtain ⟨st, result, represents, -, defined⟩ := legal.represents rank
  obtain ⟨canonical, found, same⟩ := represents.canonical
  refine ⟨st, result, represents.valid.rising, canonical, fun CT v budded => ?_,
    fun u v buddedU buddedV => ?_⟩
  · exact found CT v ((defined v).2 budded)
  · exact same u v ((defined u).2 buddedU) ((defined v).2 buddedV)

/-- Two of three items are merged, once with and once without compression. -/
theorem disjointFamily_correct_pair : let on : FamilyContext := ⟨1, true⟩
    let off : FamilyContext := ⟨0, true⟩
    let calls : List (FamilyContext × FamilyOp) :=
      [(on, .bud 0), (on, .bud 1), (off, .bud 2), (on, .merge 0 1), (off, .merge 1 0)]
    ∃ canonical : ℕ → ℕ, canonical 0 = canonical 1 ∧
      (canonical 0 = canonical 2 ↔ EqvGen (Joined calls) 0 2) := by
  intro on off calls
  have budded : Budded calls 0 ∧ Budded calls 1 ∧ Budded calls 2 := by
    refine ⟨⟨on, ?_⟩, ⟨on, ?_⟩, ⟨off, ?_⟩⟩ <;> simp [calls]
  have legal : Legal 3 calls := by
    have first : Legal 3 [(on, .bud 0)] := .bud on .start (by decide) (by simp [Budded])
    have second : Legal 3 [(on, .bud 0), (on, .bud 1)] :=
      .bud on first (by decide) (by simp [Budded])
    have third : Legal 3 [(on, .bud 0), (on, .bud 1), (off, .bud 2)] :=
      .bud off second (by decide) (by simp [Budded])
    have fourth : Legal 3 [(on, .bud 0), (on, .bud 1), (off, .bud 2), (on, .merge 0 1)] :=
      .merge on third ⟨on, by simp⟩ ⟨on, by simp⟩
    exact .merge off fourth ⟨on, by simp⟩ ⟨on, by simp⟩
  obtain ⟨st, -, -, canonical, -, same⟩ := disjointFamily_correct legal fun _ => 0
  refine ⟨canonical, (same 0 1 budded.1 budded.2.1).2 ?_, same 0 2 budded.1 budded.2.2⟩
  exact .rel 0 1 ⟨on, by simp [calls]⟩

end DisjointFamily

end Goblin
