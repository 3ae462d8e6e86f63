import Goblin.NestedSplit

/-!
# Blocking nested sets

`Block(s)` makes the members of a set `s` outermost items for the time being: as `Split` does, it
makes their canonical items roots again and lets `set` lead to the members. In contrast to `Split`,
the set stays linked with its members, and its own pointer is not deleted. So `UnBlock(s)` can
enumerate the members and let their canonical items point to the canonical item of `s`.

Meanwhile, queries may compress pointers. They do not lead out of `s`, and this is enough (`Hides`):
within a member, all ways end at the canonical item of the member, and the pointer of `s`, which no
query needs, leads to an item within `s` other than `s`, unless `s` is its own canonical item. What
the members show of the family is that of a family without `s` (`Shows`).
-/

set_option autoImplicit false

namespace Goblin

open Library List Option Function

variable {B B' : ℕ → Option ℕ} {compress : Bool} {z n m : ℕ} {depth : ℕ → ℕ}

namespace NestedFamily

/-! ## The methods -/

/-- The loop of `Block` over the members, where `u` is the last member. -/
def blockFrom : ℕ → Option ℕ → Option ℕ → NestedM Unit
  | 0, _, _ => throw .fuel
  | fuel + 1, u, w =>
    if u = w then pure ()
    else match w with
    | none => throw .fault
    | some w => do
      releaseMember w
      let st ← get
      blockFrom fuel (some w) (st.next w)

/-- `Block`. It has the body of the loop in common with `Split`. -/
def block (v : ℕ) : NestedM Unit := do
  let st ← get
  if st.n + st.m ≤ v then throw (.range "Block" "No such item")
  else if st.B v = none then throw (.rejected "Block" "No such item")
  else if v < st.n then throw .fault
  else blockFrom (st.n + st.m + 1) none (st.first (v - st.n))

/-- A member of a set that is restored, whose canonical item is `x`. -/
def encloseMember (x : Option ℕ) (u : ℕ) : NestedM Unit := do
  let st ← get
  if u < st.n then modify fun st => { st with B := update st.B u x }
  else match st.canonical (u - st.n) with
    | none => throw .fault
    | some r => modify fun st => { st with B := update st.B r x }

/-- The loop of `UnBlock` over the members, where `u` is the last member. -/
def encloseFrom (x : Option ℕ) : ℕ → Option ℕ → Option ℕ → NestedM Unit
  | 0, _, _ => throw .fuel
  | fuel + 1, u, w =>
    if u = w then pure ()
    else match w with
    | none => throw .fault
    | some w => do
      encloseMember x w
      let st ← get
      encloseFrom x fuel (some w) (st.next w)

def unBlock (v : ℕ) : NestedM Unit := do
  let st ← get
  if st.n + st.m ≤ v then throw (.range "Block" "No such item")
  else if st.B v = none then throw (.rejected "UnBlock" "No such item")
  else if v < st.n then throw .fault
  else do
    encloseFrom (st.canonical (v - st.n)) (st.n + st.m + 1) none (st.first (v - st.n))
    match st.canonical (v - st.n) with
    | none => throw .fault
    | some x => modify fun st => { st with set := update st.set x v }

/-- The queries which may compress pointers. -/
inductive Query where
  | set (x : ℕ)
  | find (x : ℕ)

def Query.item : Query → ℕ
  | .set x => x
  | .find x => x

/-- A query whose result is not used. -/
def ask : Query → NestedM Unit
  | .set x => discard (outerSet x)
  | .find x => discard (find x)

/-- `Set(x)` returns `t`. -/
def Answers (st : NestedFamily) (x t : ℕ) : Prop := ∃ st', outerSet x st = .ok (some t) st'

variable {st st' : NestedFamily} {L : Nesting} {rep : ℕ → ℕ} {s t u v w x : ℕ}

/-! ## What is shown of a family -/

/-- The family as far as the given sets are concerned. -/
def view (st : NestedFamily) (L : Nesting) : NestedFamily :=
  { st with
    B := fun x => if x < st.n ∨ x ∈ L.sets then st.B x else none
    next := fun x => if L.parent x = none then none else st.next x }

/-- The arrays represent the given sets, with others that are not shown. -/
structure Shows (st : NestedFamily) (L : Nesting) (rep : ℕ → ℕ) : Prop where
  represents : (st.view L).Represents L rep
  rising : Rising st.B st.depth
  targets : ∀ z p, st.B z = some p → st.B p ≠ none
  low : ∀ z, st.B z ≠ none → z < st.n + st.m

theorem view_item (item : L.Item st.n x) : (st.view L).B x = st.B x := if_pos item

section

variable (shows : st.Shows L rep)
include shows

theorem Shows.exist (item : L.Item st.n x) : st.B x ≠ none := by
  rw [← view_item item]
  exact (shows.represents.pointers.exist x).2 item

theorem Shows.laminar : L.Laminar st.n st.m := shows.represents.laminar

theorem Shows.roots : Roots L st.n rep st.depth := shows.represents.roots

theorem Shows.leads (item : L.Item st.n t) (top : L.parent t = none)
    (within : Within L.parent u t) : Leads st.B u (rep t) := by
  refine (shows.represents.leads item top within).congr fun x leads => (view_item ?_).symm
  exact (shows.represents.pointers.exist x).1 leads.ne_none

end

theorem Represents.shows (represents : st.Represents L rep) : st.Shows L rep := by
  have hides : (st.view L).B = st.B := by
    funext x
    by_cases item : x < st.n ∨ x ∈ L.sets
    · exact if_pos item
    · have absent : st.B x = none := by
        by_contra present
        exact item ((represents.pointers.exist x).1 present)
      exact (if_neg item).trans absent.symm
  obtain ⟨laminar, roots, pointers, lists, canonical⟩ := represents
  refine ⟨⟨laminar, roots, ?_, ⟨fun t mem => ?_, fun x item top => if_pos top⟩, canonical⟩,
    pointers.rising, fun z p ptr => ?_, fun z present => ?_⟩
  · rw [hides]
    exact pointers
  · obtain ⟨l, nodup, members, first, links⟩ := lists.members t mem
    refine ⟨l, nodup, members, first, links.congr fun v inside => if_neg ?_⟩
    rw [(members v).1 inside]
    simp
  · have item := (pointers.exist z).1 (by simp [ptr])
    obtain ⟨t, outer⟩ := laminar.grounded z
    have leads := Represents.leads ⟨laminar, roots, pointers, lists, canonical⟩
      (laminar.item_above outer.within item) outer.top outer.within
    exact (leads.of_pointer ptr).ne_none
  · exact laminar.item_lt ((pointers.exist z).1 present)

/-- If no item is hidden, the arrays represent the sets. -/
theorem Shows.whole (shows : st.Shows L rep) (exist : ∀ x, st.B x ≠ none → L.Item st.n x)
    (tops : ∀ x, L.Item st.n x → L.parent x = none → st.next x = none) : st.Represents L rep := by
  obtain ⟨laminar, roots, pointers, lists, canonical⟩ := shows.represents
  have eq : (st.view L).B = st.B := by
    funext x
    by_cases item : L.Item st.n x
    · exact view_item item
    · exact (if_neg item).trans (by_contra fun present => item (exist x (Ne.symm present)))
  rw [eq] at pointers
  refine ⟨laminar, roots, pointers, ⟨fun t mem => ?_, tops⟩, canonical⟩
  obtain ⟨l, nodup, members, first, links⟩ := lists.members t mem
  refine ⟨l, nodup, members, first, links.congr fun v inside => (if_neg ?_).symm⟩
  rw [(members v).1 inside]
  simp

/-! ## Queries -/

theorem Shows.exists_leads (shows : st.Shows L rep) (present : st.B v ≠ none) :
    ∃ w, Leads st.B v w := by
  -- by induction on the number of items that are higher
  induction left : higher st.depth (Finset.range (st.n + st.m)) v using
    Nat.strong_induction_on generalizing v with
  | _ k ih =>
    obtain ⟨u, ptr⟩ := ne_none_iff_exists'.1 present
    by_cases isRoot : u = v
    · subst isRoot
      exact ⟨u, .root ptr⟩
    · have target := shows.targets v u ptr
      have less := higher_lt (Finset.mem_range.2 (shows.low u target))
        (shows.rising v u ptr isRoot)
      obtain ⟨w, leads⟩ := ih _ (left ▸ less) target rfl
      exact ⟨w, .step ptr isRoot leads⟩

theorem Shows.find (shows : st.Shows L rep) (leads : Leads st.B v w) :
    ∃ B, find v st = .ok (some w) { st with B := B } ∧ Shortens st.B B ∧
      (st.compress = false → B = st.B) := by
  have short : higher st.depth (Finset.range (st.n + st.m)) v < (Finset.range (st.n + st.m)).card :=
    higher_lt_card (Finset.mem_range.2 (shows.low v leads.ne_none))
  rw [Finset.card_range] at short
  exact findFrom_spec shows.low shows.rising leads _ short

section

variable (shows : st.Shows L rep)
include shows

theorem Shows.outerSet (leads : Leads st.B v w) :
    ∃ B, outerSet v st = .ok (some (st.set w)) { st with B := B } ∧ Shortens st.B B ∧
      (st.compress = false → B = st.B) := by
  obtain ⟨B, res, shortens, idle⟩ := shows.find leads
  have root : findRoot v st = .ok w { st with B := B } := by
    rw [findRoot, run_bind_ok res]
    rfl
  refine ⟨B, ?_, shortens, idle⟩
  rw [NestedFamily.outerSet, run_bind_get, if_neg (not_le.2 (shows.low v leads.ne_none)),
    if_neg leads.ne_none, run_bind_ok root, run_bind_get]
  rfl

theorem Shows.ask {q : Query} (legal : q.item < st.n + st.m) :
    ∃ B, ask q st = .ok () { st with B := B } ∧ Shortens st.B B ∧
      (st.compress = false → B = st.B) := by
  by_cases absent : st.B q.item = none
  · refine ⟨st.B, ?_, .refl st.B, fun _ => rfl⟩
    cases q with
    | set x =>
      have inRange : ¬ st.n + st.m ≤ x := not_le.2 legal
      have gone : st.B x = none := absent
      have res : NestedFamily.outerSet x st = .ok none st := by
        rw [NestedFamily.outerSet, run_bind_get, if_neg inRange, if_pos gone]
        rfl
      exact run_discard_ok res
    | find x =>
      have inRange : ¬ st.n + st.m ≤ x := not_le.2 legal
      have gone : st.B x = none := absent
      obtain ⟨k, size⟩ := Nat.exists_eq_succ_of_ne_zero (show st.n + st.m ≠ 0 by omega)
      have res : NestedFamily.find x st = .ok none st := by
        rw [NestedFamily.find, run_bind_get, size, findFrom, run_bind_get, if_neg inRange, gone]
        rfl
      exact run_discard_ok res
  · obtain ⟨w, leads⟩ := shows.exists_leads absent
    cases q with
    | set x =>
      obtain ⟨B, res, after⟩ := shows.outerSet leads
      exact ⟨B, run_discard_ok res, after⟩
    | find x =>
      obtain ⟨B, res, after⟩ := shows.find leads
      exact ⟨B, run_discard_ok res, after⟩

theorem Shows.compressed (shortens : Shortens st.B B)
    (idle : st.compress = false → B = st.B) : Shows { st with B := B } L rep := by
  have viewed : Shortens (st.view L).B (view { st with B := B } L).B := by
    intro v
    by_cases item : L.Item st.n v
    · have new : (view { st with B := B } L).B v = B v := if_pos item
      obtain ⟨t, outer⟩ := shows.laminar.grounded v
      have itemT := shows.laminar.item_above outer.within item
      rw [new, view_item item]
      rcases shortens v with eq | ⟨w, leads, ptr⟩
      · exact .inl eq
      · obtain rfl := leads.unique (shows.leads itemT outer.top outer.within)
        exact .inr ⟨_, shows.represents.leads itemT outer.top outer.within, ptr⟩
    · exact .inl ((if_neg item).trans (if_neg item).symm)
  refine ⟨?_, shortens.rising shows.rising, fun z p ptr => ?_, fun z present => ?_⟩
  · refine shows.represents.compressed viewed fun uncompressed => ?_
    funext x
    simp only [view, idle uncompressed]
  · rw [ne_eq, shortens.none_iff, ← ne_eq]
    rcases shortens z with eq | ⟨w, leads, ptr'⟩
    · exact shows.targets z p (eq ▸ ptr)
    · rw [show B z = some p from ptr] at ptr'
      cases ptr'
      exact leads.canonical.ne_none
  · rw [ne_eq, shortens.none_iff, ← ne_eq] at present
    exact shows.low z present

/-- **`Set` returns the outermost set that is shown.** -/
theorem Shows.answers (item : L.Item st.n x) (outer : Outermost L.parent x t) : st.Answers x t := by
  have itemT := shows.laminar.item_above outer.within item
  obtain ⟨B, res, -⟩ := shows.outerSet (shows.leads itemT outer.top outer.within)
  rw [show st.set (rep t) = t from shows.represents.pointers.owner t itemT outer.top] at res
  exact ⟨_, res⟩

end

/-! ## Block -/

theorem view_next (inner : L.parent x ≠ none) : (st.view L).next x = st.next x := if_neg inner

theorem Shows.members (shows : st.Shows L rep) (mem : s ∈ L.sets) :
    ∃ l : List ℕ, l.Nodup ∧ (∀ v, v ∈ l ↔ L.parent v = some s) ∧
      st.first (s - st.n) = l.head? ∧ Links st.next l l.getLast? := by
  obtain ⟨l, nodup, members, first, links⟩ := shows.represents.lists.members s mem
  refine ⟨l, nodup, members, first, links.congr fun v inside => (view_next ?_).symm⟩
  rw [(members v).1 inside]
  simp

theorem Shows.releasing (shows : st.Shows L rep) : Releasing L rep st where
  laminar := shows.laminar
  roots := shows.roots
  lists := fun _ mem _ => shows.members mem
  canonical := fun t fixed => (shows.represents.canonical t
    (shows.laminar.fixed fixed)).trans (if_pos fixed)
  real := shows.represents.pointers.real

theorem blockFrom_done (fuel : ℕ) (u : Option ℕ) (st : NestedFamily) :
    blockFrom (fuel + 1) u u st = .ok () st := by
  cases u <;> simp [blockFrom, run_pure]

theorem blockFrom_step (fuel : ℕ) {u : Option ℕ} (other : u ≠ some w)
    (release : releaseMember w st = .ok () st') :
    blockFrom (fuel + 1) u (some w) st = blockFrom fuel (some w) (st'.next w) st' := by
  rw [blockFrom.eq_def]
  simp only [if_neg other]
  rw [run_bind_ok release, run_bind_get]

theorem blockFrom_spec (s fuel : ℕ) : ∀ (st : NestedFamily) (u : Option ℕ) (l : List ℕ),
    Releasing L rep st → l.Nodup → (∀ c ∈ l, u ≠ some c) → (∀ c ∈ l, L.parent c = some s) →
    Links st.next l l.getLast? → l.length < fuel →
    ∃ B set, blockFrom fuel u (l.head?.or u) st = .ok () { st with B := B, set := set } ∧
      Released L rep l st { st with
        B := B
        set := set
        next := fun z => if z ∈ l then none else st.next z } := by
  classical
  induction fuel with
  | zero => exact fun _ _ _ _ _ _ _ _ short => absurd short (Nat.not_lt_zero _)
  | succ fuel ih =>
    intro st u l releasing nodup before members links enough
    cases l with
    | nil =>
      exact ⟨st.B, st.set, by simpa using blockFrom_done fuel u st, rfl, rfl, rfl, rfl, rfl, rfl,
        fun z => .inr ⟨by simp, rfl⟩, fun z => .inr ⟨by simp, rfl⟩, fun z => rfl⟩
    | cons c l =>
      obtain ⟨fresh, nodup⟩ := nodup_cons.1 nodup
      obtain ⟨next, links⟩ := links_tail links
      have stepC := members c mem_cons_self
      have release := releaseMember_spec releasing stepC
      have releasing1 : Releasing L rep { st with
          B := fun z => if Touched L rep st.compress c z then some (rep c) else st.B z
          set := update st.set (rep c) c } :=
        ⟨releasing.laminar, releasing.roots, releasing.lists, releasing.canonical,
          releasing.real_release stepC⟩
      obtain ⟨B, set, res, released⟩ := ih _ (some c) l releasing1 nodup
        (fun d inside eq => fresh (Option.some.inj eq ▸ inside))
        (fun d inside => members d (mem_cons_of_mem c inside)) links (by simpa using enough)
      refine ⟨B, set, ?_, .cons fresh ⟨rfl, rfl, rfl, rfl, rfl, rfl, released.pointers,
        released.owners, fun z => ?_⟩⟩
      · rw [head?_cons, some_or, blockFrom_step fuel (before c mem_cons_self) release]
        rw [next]
        exact res
      · by_cases here : z = c
        · simp [here]
        · simp [here]

/-! ## A set that is blocked -/

/-- What is known of a blocked set. The family `L` is the one in front of the blockade. -/
structure Hides (st : NestedFamily) (L : Nesting) (rep : ℕ → ℕ) (s : ℕ) : Prop where
  laminar : L.Laminar st.n st.m
  roots : Roots L st.n rep st.depth
  lists : ∀ t ∈ L.sets, ∃ l : List ℕ, l.Nodup ∧ (∀ v, v ∈ l ↔ L.parent v = some t) ∧
    st.first (t - st.n) = l.head? ∧ Links st.next l l.getLast?
  canonical : ∀ t ∈ L.sets, st.canonical (t - st.n) = if t ∈ L.fixed then some (rep t) else none
  fixed : s ∈ L.fixed
  top : L.parent s = none
  present : st.B s ≠ none
  /-- Pointers do not lead out of the set. -/
  closed : ∀ z p, Within L.parent z s → st.B z = some p → Within L.parent p s
  /-- The set points to itself if it is its own canonical item, and only then. -/
  loop : st.B s = some s ↔ rep s = s

/-- The pointers after the members of `s` have been released. -/
def Redirected (L : Nesting) (rep : ℕ → ℕ) (compress : Bool) (s : ℕ) (B B' : ℕ → Option ℕ) : Prop :=
  ∀ z, (∃ c, L.parent c = some s ∧ Touched L rep compress c z ∧ B' z = some (rep c)) ∨
    ((∀ c, L.parent c = some s → ¬ Touched L rep compress c z) ∧ B' z = B z)

section Redirect

variable {B : ℕ → Option ℕ}

theorem Redirected.ne_none (redirected : Redirected L rep compress s B B')
    (present : B z ≠ none) : B' z ≠ none := by
  rcases redirected z with ⟨c, -, -, ptr⟩ | ⟨-, ptr⟩
  · simp [ptr]
  · rw [ptr]
    exact present

section

variable (shows : st.Shows L rep)
include shows

theorem Shows.release (mem : s ∈ L.sets) (top : L.parent s = none)
    {l : List ℕ} (members : ∀ v, v ∈ l ↔ L.parent v = some s) {set : ℕ → ℕ}
    (released : Released L rep l st { st with
      B := B
      set := set
      next := fun z => if z ∈ l then none else st.next z }) :
    (view { st with B := B, set := set } (L.release s)).Represents (L.release s) rep := by
  have laminar := shows.laminar
  have item : ∀ {c z}, c ∈ l → Touched L rep st.compress c z → L.Item st.n z := by
    intro c z inside touched
    have itemC := laminar.item_of_parent ((members c).1 inside)
    exact laminar.item_within (touched.within shows.roots itemC) itemC
  have shown : Released L rep l (st.view L) { st with
      B := fun x => if x < st.n ∨ x ∈ L.sets then B x else none
      set := set
      next := fun z => if z ∈ l then none else (st.view L).next z } := by
    refine ⟨rfl, rfl, rfl, rfl, rfl, rfl, fun z => ?_, released.owners, fun z => rfl⟩
    rcases released.pointers z with ⟨c, inside, touched, ptr⟩ | ⟨untouched, ptr⟩
    · exact .inl ⟨c, inside, touched, (if_pos (item inside touched)).trans ptr⟩
    · exact .inr ⟨untouched, if_congr Iff.rfl ptr rfl⟩
  have after := shows.represents.release mem top members shown
  have high := (laminar.low s mem).1
  have pointers : update (fun x => if x < st.n ∨ x ∈ L.sets then B x else none) s none =
      (view { st with B := B, set := set } (L.release s)).B := by
    funext x
    by_cases here : x = s
    · subst here
      rw [update_self]
      refine (if_neg ?_).symm
      rintro (real | present)
      · exact absurd real (not_lt.2 high)
      · exact (Finset.mem_erase.1 present).1 rfl
    · rw [update_of_ne here]
      refine if_congr (or_congr_right ?_) rfl rfl
      exact (Finset.mem_erase.trans (and_iff_right here)).symm
  have links : (fun z => if z ∈ l then none else (st.view L).next z) =
      (view { st with B := B, set := set } (L.release s)).next := by
    funext z
    have outer : (L.release s).parent z = none ↔ z ∈ l ∨ L.parent z = none := by
      rw [members]
      exact dissolve_eq_none
    split_ifs with inside
    · exact (if_pos (outer.2 (.inl inside))).symm
    · exact if_congr (by rw [outer, or_iff_right inside]) rfl rfl
  rw [pointers, links] at after
  exact after

theorem Shows.closed (mem : s ∈ L.sets) (top : L.parent s = none)
    {p : ℕ} (inside : Within L.parent z s) (ptr : st.B z = some p) : Within L.parent p s := by
  have item : L.Item st.n s := .inr mem
  have itemZ := shows.laminar.item_within inside item
  rw [← view_item itemZ] at ptr
  by_cases isRoot : z = rep s
  · have loop := shows.represents.pointers.loop s item top
    rw [← isRoot, ptr] at loop
    rw [Option.some.inj loop]
    exact inside
  · obtain ⟨q, ptr', -, target⟩ :=
      shows.represents.pointers.inward s item (.inl top) z inside isRoot
    rw [ptr] at ptr'
    cases ptr'
    exact target

theorem Shows.loop_iff (mem : s ∈ L.sets) (top : L.parent s = none) :
    st.B s = some s ↔ rep s = s := by
  have item : L.Item st.n s := .inr mem
  rw [← view_item item]
  constructor
  · intro loop
    by_contra other
    obtain ⟨p, ptr, moved, -⟩ :=
      shows.represents.pointers.inward s item (.inl top) s (.refl s) (Ne.symm other)
    rw [loop] at ptr
    exact moved (Option.some.inj ptr).symm
  · intro isRoot
    have loop := shows.represents.pointers.loop s item top
    rwa [isRoot] at loop

/-- **`Block`** shows the members of a set and hides the set. -/
theorem block_spec (fixed : s ∈ L.fixed) (top : L.parent s = none) :
    ∃ B set, block s st = .ok () { st with B := B, set := set } ∧
      Shows { st with B := B, set := set } (L.release s) rep ∧
      Hides { st with B := B, set := set } L rep s ∧
      Redirected L rep st.compress s st.B B := by
  have laminar := shows.laminar
  have roots := shows.roots
  have mem := laminar.fixed fixed
  have low := laminar.low s mem
  obtain ⟨l, nodup, members, first, links⟩ := shows.members mem
  have short := laminar.length_children_lt nodup members
  obtain ⟨B, set, res, released⟩ := blockFrom_spec s (st.n + st.m + 1) st none l
    shows.releasing nodup (fun c _ => by simp) (fun c => (members c).1) links short
  rw [or_none, ← first] at res
  have redirected : Redirected L rep st.compress s st.B B := by
    intro z
    rcases released.pointers z with ⟨c, inside, touched, ptr⟩ | ⟨untouched, ptr⟩
    · exact .inl ⟨c, (members c).1 inside, touched, ptr⟩
    · exact .inr ⟨fun c step => untouched c ((members c).2 step), ptr⟩
  have nested : ∀ {c z}, L.parent c = some s → Touched L rep st.compress c z →
      Within L.parent z c := fun step touched =>
    touched.within roots (laminar.item_of_parent step)
  refine ⟨B, set, ?_, ⟨shows.release mem top members released, fun z p ptr moved => ?_,
    fun z p ptr => ?_, fun z present => ?_⟩, ⟨laminar, roots, fun t => shows.members,
    shows.represents.canonical, fixed, top, ?_, fun z p inside ptr => ?_, ?_⟩, redirected⟩
  · rw [block, run_bind_get, if_neg (by omega), if_neg (shows.exist (.inr mem)),
      if_neg (by omega)]
    exact res
  · rcases redirected z with ⟨c, step, touched, ptr'⟩ | ⟨-, ptr'⟩
    · rw [show B z = some p from ptr] at ptr'
      cases ptr'
      exact roots.higher c z (laminar.item_of_parent step) (nested step touched) moved.symm
    · exact shows.rising z p (ptr'.symm.trans ptr) moved
  · rcases redirected z with ⟨c, step, touched, ptr'⟩ | ⟨-, ptr'⟩
    · rw [show B z = some p from ptr] at ptr'
      cases ptr'
      have item := laminar.item_of_parent step
      exact redirected.ne_none (shows.exist (laminar.item_within (roots.within c item) item))
    · exact redirected.ne_none (shows.targets z p (ptr'.symm.trans ptr))
  · rcases redirected z with ⟨c, step, touched, -⟩ | ⟨-, ptr⟩
    · exact laminar.item_lt (laminar.item_within (nested step touched)
        (laminar.item_of_parent step))
    · exact shows.low z (ptr ▸ present)
  · exact redirected.ne_none (shows.exist (.inr mem))
  · rcases redirected z with ⟨c, step, touched, ptr'⟩ | ⟨-, ptr'⟩
    · rw [show B z = some p from ptr] at ptr'
      cases ptr'
      exact (roots.within c (laminar.item_of_parent step)).trans (.single step)
    · exact shows.closed mem top inside (ptr'.symm.trans ptr)
  · rw [← shows.loop_iff mem top]
    rcases redirected s with ⟨c, step, touched, -⟩ | ⟨-, ptr⟩
    · exact absurd (nested step touched) (not_within_of_parent laminar.grounded step)
    · dsimp only
      rw [ptr]

end

end Redirect

/-! ## UnBlock -/

/-- The canonical items of the members of `s` point to the canonical item of `s`. -/
def Enclosed (L : Nesting) (rep : ℕ → ℕ) (s : ℕ) (B B' : ℕ → Option ℕ) : Prop :=
  ∀ z, (∃ c, L.parent c = some s ∧ z = rep c ∧ B' z = some (rep s)) ∨
    ((∀ c, L.parent c = some s → z ≠ rep c) ∧ B' z = B z)

section Enclose

variable {B B' : ℕ → Option ℕ}

section

variable (hides : st.Hides L rep t) (step : L.parent v = some s)
include hides step

theorem Hides.canonical_item
    (high : ¬ v < st.n) : st.canonical (v - st.n) = some (rep v) := by
  have fixed := (hides.laminar.members v s step).1.resolve_left high
  rw [hides.canonical v (hides.laminar.fixed fixed), if_pos fixed]

theorem encloseMember_spec
    (x : Option ℕ) (B : ℕ → Option ℕ) :
    encloseMember x v { st with B := B } = .ok () { st with B := update B (rep v) x } := by
  rw [encloseMember, run_bind_get]
  split_ifs with isReal
  · rw [run_modify, hides.roots.eq_of_real hides.laminar isReal]
  · simp only [hides.canonical_item step isReal]
    rfl

end

theorem encloseFrom_done (x : Option ℕ) (fuel : ℕ) (u : Option ℕ) (st : NestedFamily) :
    encloseFrom x (fuel + 1) u u st = .ok () st := by
  cases u <;> simp [encloseFrom, run_pure]

theorem encloseFrom_step (x : Option ℕ) (fuel : ℕ) {u : Option ℕ} (other : u ≠ some w)
    (enclose : encloseMember x w st = .ok () st') :
    encloseFrom x (fuel + 1) u (some w) st = encloseFrom x fuel (some w) (st'.next w) st' := by
  rw [encloseFrom.eq_def]
  simp only [if_neg other]
  rw [run_bind_ok enclose, run_bind_get]

/-- **All members are enclosed**, one after the other. -/
theorem encloseFrom_spec (hides : st.Hides L rep t) (x : Option ℕ) (fuel : ℕ) :
    ∀ (B : ℕ → Option ℕ) (u : Option ℕ) (l : List ℕ), l.Nodup → (∀ c ∈ l, u ≠ some c) →
      (∀ c ∈ l, L.parent c = some s) → Links st.next l l.getLast? → l.length < fuel →
      ∃ B', encloseFrom x fuel u (l.head?.or u) { st with B := B } = .ok () { st with B := B' } ∧
        ∀ z, (∃ c ∈ l, z = rep c ∧ B' z = x) ∨ ((∀ c ∈ l, z ≠ rep c) ∧ B' z = B z) := by
  induction fuel with
  | zero => exact fun _ _ _ _ _ _ _ short => absurd short (Nat.not_lt_zero _)
  | succ fuel ih =>
    intro B u l nodup before members links enough
    cases l with
    | nil =>
      exact ⟨B, by simpa using encloseFrom_done x fuel u { st with B := B },
        fun z => .inr ⟨by simp, rfl⟩⟩
    | cons c l =>
      obtain ⟨fresh, nodup⟩ := nodup_cons.1 nodup
      obtain ⟨next, links⟩ := links_tail links
      have enclose := encloseMember_spec hides (members c mem_cons_self) x B
      obtain ⟨B', res, redirects⟩ := ih (update B (rep c) x) (some c) l nodup
        (fun d inside eq => fresh (Option.some.inj eq ▸ inside))
        (fun d inside => members d (mem_cons_of_mem c inside)) links (by simpa using enough)
      refine ⟨B', ?_, fun z => ?_⟩
      · rw [head?_cons, some_or, encloseFrom_step x fuel (before c mem_cons_self) enclose]
        rw [next]
        exact res
      · rcases redirects z with ⟨d, inside, eq, ptr⟩ | ⟨others, ptr⟩
        · exact .inl ⟨d, mem_cons_of_mem c inside, eq, ptr⟩
        by_cases here : z = rep c
        · refine .inl ⟨c, mem_cons_self, here, ptr.trans ?_⟩
          rw [here, update_self]
        · refine .inr ⟨fun d inside => ?_, ptr.trans (update_of_ne here ..)⟩
          rcases mem_cons.1 inside with rfl | later
          · exact here
          · exact others d later

theorem Enclosed.ne_none (enclosed : Enclosed L rep s B B') (present : B z ≠ none) :
    B' z ≠ none := by
  rcases enclosed z with ⟨c, -, -, ptr⟩ | ⟨-, ptr⟩
  · simp [ptr]
  · rw [ptr]
    exact present

theorem Hides.root_cases (hides : st.Hides L rep s) :
    rep s = s ∨ ∃ d, L.parent d = some s ∧ rep d = rep s := by
  have item : L.Item st.n s := .inr (hides.laminar.fixed hides.fixed)
  by_cases isRoot : rep s = s
  · exact .inl isRoot
  · obtain ⟨d, step, inside⟩ := (hides.roots.within s item).exists_member isRoot
    exact .inr ⟨d, step, hides.roots.down s d item (.single step) inside⟩

theorem item_release (item : L.Item n z) (other : z ≠ s) : (L.release s).Item n z :=
  item.imp id fun mem => Finset.mem_erase.2 ⟨other, mem⟩

theorem Hides.exist (hides : st.Hides L rep s) (shows : st.Shows (L.release s) rep)
    (item : L.Item st.n z) : st.B z ≠ none := by
  by_cases here : z = s
  · rw [here]
    exact hides.present
  · exact shows.exist (item_release item here)

/-- The canonical item of a member of `s` is within `s`, and within no other outermost set. -/
theorem Hides.eq_of_root (hides : st.Hides L rep s) (step : L.parent v = some s)
    (top : L.parent t = none) (inside : Within L.parent (rep v) t) : t = s := by
  have root := hides.roots.within v (hides.laminar.item_of_parent step)
  exact Outermost.unique ⟨inside, top⟩ ⟨root.trans (.single step), hides.top⟩

section

variable (shows : st.Shows (L.release s) rep)
include shows

section

variable (hides : st.Hides L rep s) (enclosed : Enclosed L rep s st.B B)
include hides enclosed

theorem Shows.enclose_pointers :
    Pointers L st.n st.compress rep st.depth (update st.set (rep s) s)
      fun x => if x < st.n ∨ x ∈ L.sets then B x else none := by
  have laminar := hides.laminar
  have roots := hides.roots
  have top := hides.top
  have mem := laminar.fixed hides.fixed
  have itemS : L.Item st.n s := .inr mem
  have shown := shows.represents.pointers
  have topRelease : ∀ {t}, L.parent t = none → (L.release s).parent t = none := fun topT =>
    dissolve_eq_none.2 (.inr topT)
  have pointerAt : ∀ {z}, L.Item st.n z →
      (if z < st.n ∨ z ∈ L.sets then B z else none) = B z := fun item => if_pos item
  refine ⟨fun z => ?_, fun t item topT => ?_, fun t item inner u inside notRoot => ?_,
    fun z p ptr moved => ?_, fun t item topT => ?_, fun v real => ?_⟩
  · by_cases item : L.Item st.n z
    · rw [pointerAt item]
      exact iff_of_true (enclosed.ne_none (hides.exist shows item)) item
    · exact iff_of_false (fun present => present (if_neg item)) item
  · rw [pointerAt (laminar.item_within (roots.within t item) item)]
    by_cases here : t = s
    · subst here
      rcases hides.root_cases with isRoot | ⟨d, step, eq⟩
      · rw [isRoot]
        rcases enclosed t with ⟨c, -, -, ptr⟩ | ⟨-, ptr⟩
        · rw [ptr, isRoot]
        · rw [ptr]
          exact hides.loop.2 isRoot
      · rcases enclosed (rep t) with ⟨c, -, -, ptr⟩ | ⟨others, -⟩
        · exact ptr
        · exact absurd eq.symm (others d step)
    · have root := roots.within t item
      have itemT := item_release item here
      rcases enclosed (rep t) with ⟨c, step, eq, -⟩ | ⟨-, ptr⟩
      · exact absurd (hides.eq_of_root step topT (eq ▸ root)) here
      · rw [ptr, ← view_item (laminar.item_within root item |> (item_release ·
          (ne_of_within top here root)))]
        exact shown.loop t itemT (topRelease topT)
  · rw [pointerAt (laminar.item_within inside item)]
    rcases enclosed u with ⟨c, step, eq, ptr⟩ | ⟨others, ptr⟩
    · -- only the pointers within `s` are changed, and those of the members are of no concern
      have here : t = s := by
        rcases inner with topT | -
        · exact hides.eq_of_root step topT (eq ▸ inside)
        have itemC := laminar.item_of_parent step
        have root := roots.within c itemC
        rcases (eq ▸ inside).comparable root with down | up
        · exact absurd (eq.trans (roots.down c t itemC down (eq ▸ inside)).symm) notRoot
        · by_cases isC : c = t
          · exact absurd (isC ▸ eq) notRoot
          · exact (up.parent_within isC step).eq_of_top top
      subst here
      exact ⟨rep t, ptr, notRoot.symm, roots.within t item⟩
    · rw [ptr]
      by_cases here : t = s
      · subst here
        by_cases isS : u = t
        · subst isS
          obtain ⟨p, ptr'⟩ := ne_none_iff_exists'.1 hides.present
          refine ⟨p, ptr', ?_, hides.closed u p (.refl u) ptr'⟩
          rintro rfl
          exact notRoot (hides.loop.1 ptr').symm
        obtain ⟨d, step, insideD⟩ := inside.exists_member isS
        have otherD : d ≠ t := by
          rintro rfl
          rw [top] at step
          cases step
        have itemD := laminar.item_of_parent step
        obtain ⟨p, ptr', moved, target⟩ := shown.inward d (item_release itemD otherD)
          (.inl (dissolve_eq_none.2 (.inl step))) u ((within_release top otherD).2 insideD)
          (others d step)
        rw [view_item (item_release (laminar.item_within inside item) isS)] at ptr'
        exact ⟨p, ptr', moved, ((within_release top otherD).1 target).trans (.single step)⟩
      · have notS := ne_of_within top here inside
        obtain ⟨p, ptr', moved, target⟩ := shown.inward t (item_release item here)
          (inner.imp topRelease id) u ((within_release top here).2 inside) notRoot
        rw [view_item (item_release (laminar.item_within inside item) notS)] at ptr'
        exact ⟨p, ptr', moved, (within_release top here).1 target⟩
  · by_cases item : L.Item st.n z
    · rw [pointerAt item] at ptr
      rcases enclosed z with ⟨c, step, rfl, ptr'⟩ | ⟨-, ptr'⟩
      · rw [ptr] at ptr'
        cases ptr'
        exact roots.higher s (rep c) itemS ((roots.within c
          (laminar.item_of_parent step)).trans (.single step)) moved.symm
      · exact shows.rising z p (ptr'.symm.trans ptr) moved
    · rw [show (if z < st.n ∨ z ∈ L.sets then B z else none) = none from if_neg item] at ptr
      cases ptr
  · by_cases here : t = s
    · rw [here, update_self]
    have other : rep t ≠ rep s := by
      intro eq
      have insideS := eq ▸ roots.within t item
      exact here (Outermost.unique ⟨insideS, topT⟩ ⟨roots.within s itemS, top⟩)
    rw [update_of_ne other]
    exact shown.owner t (item_release item here) (topRelease topT)
  · have other : v ≠ rep s := by
      rintro rfl
      exact absurd real (not_lt.2 (laminar.low _ (roots.sets s mem)).1)
    rw [update_of_ne other]
    exact shown.real v real

theorem Shows.enclose :
    (view { st with B := B, set := update st.set (rep s) s } L).Represents L rep := by
  refine ⟨hides.laminar, hides.roots, shows.enclose_pointers hides enclosed,
    ⟨fun t mem => ?_, fun x item top => if_pos top⟩, hides.canonical⟩
  obtain ⟨l, nodup, members, first, links⟩ := hides.lists t mem
  refine ⟨l, nodup, members, first, links.congr fun v inside => if_neg ?_⟩
  rw [(members v).1 inside]
  simp

end

theorem unBlock_spec (hides : st.Hides L rep s) :
    ∃ B set, unBlock s st = .ok () { st with B := B, set := set } ∧
      Shows { st with B := B, set := set } L rep ∧ Enclosed L rep s st.B B := by
  have laminar := hides.laminar
  have roots := hides.roots
  have mem := laminar.fixed hides.fixed
  have low := laminar.low s mem
  have item : L.Item st.n s := .inr mem
  obtain ⟨l, nodup, members, first, links⟩ := hides.lists s mem
  have short := laminar.length_children_lt nodup members
  have canonical : st.canonical (s - st.n) = some (rep s) := by
    rw [hides.canonical s mem, if_pos hides.fixed]
  obtain ⟨B, res, redirects⟩ := encloseFrom_spec hides (some (rep s)) (st.n + st.m + 1) st.B
    none l nodup (fun c _ => by simp) (fun c => (members c).1) links short
  rw [or_none, ← first] at res
  have enclosed : Enclosed L rep s st.B B := by
    intro z
    rcases redirects z with ⟨c, inside, eq, ptr⟩ | ⟨others, ptr⟩
    · exact .inl ⟨c, (members c).1 inside, eq, ptr⟩
    · exact .inr ⟨fun c step => others c ((members c).2 step), ptr⟩
  refine ⟨B, update st.set (rep s) s, ?_, ⟨shows.enclose hides enclosed,
    fun z p ptr moved => ?_, fun z p ptr => ?_, fun z exists' => ?_⟩, enclosed⟩
  · rw [unBlock, run_bind_get, if_neg (by omega), if_neg hides.present, if_neg (by omega),
      canonical, run_bind_ok res]
    rfl
  · rcases enclosed z with ⟨c, step, rfl, ptr'⟩ | ⟨-, ptr'⟩
    · rw [show B (rep c) = some p from ptr] at ptr'
      cases ptr'
      exact roots.higher s (rep c) item
        ((roots.within c (laminar.item_of_parent step)).trans (.single step)) moved.symm
    · exact shows.rising z p (ptr'.symm.trans ptr) moved
  · rcases enclosed z with ⟨c, step, rfl, ptr'⟩ | ⟨-, ptr'⟩
    · rw [show B (rep c) = some p from ptr] at ptr'
      cases ptr'
      exact enclosed.ne_none (hides.exist shows (laminar.item_within (roots.within s item) item))
    · exact enclosed.ne_none (shows.targets z p (ptr'.symm.trans ptr))
  · rcases enclosed z with ⟨c, step, rfl, -⟩ | ⟨-, ptr⟩
    · exact laminar.item_lt (laminar.item_within (roots.within c (laminar.item_of_parent step))
        (laminar.item_of_parent step))
    · exact shows.low z (ptr ▸ exists')

end

end Enclose

/-! ## Sets that stay blocked -/

section Outer

variable {B : ℕ → Option ℕ} {set : ℕ → ℕ} {L1 : Nesting} {stack : List (ℕ × Nesting)}

/-- The pointers of some items that are shown lead to the canonical items of sets which contain
them. -/
def Rerouted (L : Nesting) (n : ℕ) (rep : ℕ → ℕ) (B B' : ℕ → Option ℕ) : Prop :=
  ∀ z, (∃ x, L.Item n x ∧ Within L.parent z x ∧ B' z = some (rep x)) ∨ B' z = B z

theorem Redirected.rerouted (redirected : Redirected L rep compress s B B')
    (laminar : L.Laminar n m) (roots : Roots L n rep depth) : Rerouted L n rep B B' := by
  intro z
  rcases redirected z with ⟨c, step, touched, ptr⟩ | ⟨-, ptr⟩
  · have item := laminar.item_of_parent step
    exact .inl ⟨c, item, touched.within roots item, ptr⟩
  · exact .inr ptr

theorem Enclosed.rerouted (enclosed : Enclosed L rep s B B') (mem : s ∈ L.sets)
    (laminar : L.Laminar n m) (roots : Roots L n rep depth) : Rerouted L n rep B B' := by
  intro z
  rcases enclosed z with ⟨c, step, rfl, ptr⟩ | ⟨-, ptr⟩
  · exact .inl ⟨s, .inr mem,
      (roots.within c (laminar.item_of_parent step)).trans (.single step), ptr⟩
  · exact .inr ptr

theorem Hides.leads_within (hides : st.Hides L rep s) (leads : Leads st.B x w)
    (inside : Within L.parent x s) : Within L.parent w s := by
  induction leads with
  | root _ => exact inside
  | step ptr _ _ ih => exact ih (hides.closed _ _ inside ptr)

theorem Hides.compressed (hides : st.Hides L rep s) (shortens : Shortens st.B B) :
    Hides { st with B := B } L rep s := by
  refine ⟨hides.laminar, hides.roots, hides.lists, hides.canonical, hides.fixed, hides.top, ?_,
    fun z p inside ptr => ?_, ?_⟩
  · rw [ne_eq, shortens.none_iff]
    exact hides.present
  · rcases shortens z with eq | ⟨w, leads, ptr'⟩
    · exact hides.closed z p inside (eq ▸ ptr)
    · rw [show B z = some p from ptr] at ptr'
      cases ptr'
      exact hides.leads_within leads inside
  · rw [← hides.loop]
    exact ⟨fun loop => (shortens.leads_iff.1 (.root loop)).loop,
      fun loop => (shortens.leads (.root loop)).loop⟩

/-- A blocked set is not affected by the blockade of another one. -/
theorem Hides.rerouted (hides : st.Hides L1 rep t) (roots : Roots L st.n rep st.depth)
    (rerouted : Rerouted L st.n rep st.B B) (laminar : L.Laminar st.n st.m)
    (coarser : ∀ x y, Within L.parent x y → Within L1.parent x y) (hidden : ¬ L.Item st.n t) :
    Hides { st with B := B, set := set } L1 rep t := by
  refine ⟨hides.laminar, hides.roots, hides.lists, hides.canonical, hides.fixed, hides.top, ?_,
    fun z p inside ptr => ?_, ?_⟩
  · rcases rerouted t with ⟨x, -, -, ptr⟩ | ptr
    · simp [ptr]
    · dsimp only
      rw [ptr]
      exact hides.present
  · rcases rerouted z with ⟨x, item, within, ptr'⟩ | ptr'
    · rw [show B z = some p from ptr] at ptr'
      cases ptr'
      have root := coarser _ _ (roots.within x item)
      -- two sets with the item `z` are nested, and `t` is outermost
      rcases (coarser _ _ within).comparable inside with up | down
      · exact root.trans up
      · rw [← down.eq_of_top hides.top]
        exact root
    · exact hides.closed z p inside (ptr'.symm.trans ptr)
  · rw [← hides.loop]
    rcases rerouted t with ⟨x, item, within, -⟩ | ptr
    · exact absurd (laminar.item_within within item) hidden
    · dsimp only
      rw [ptr]

/-- The sets that are blocked, the latest one first, and the families in front of the
blockades. -/
def Stacked (st : NestedFamily) (rep : ℕ → ℕ) : List (ℕ × Nesting) → Nesting → Prop
  | [], _ => True
  | (s, L') :: stack, L => L = L'.release s ∧ st.Hides L' rep s ∧ Stacked st rep stack L'

theorem Stacked.compressed (shortens : Shortens st.B B)
    (stacked : Stacked st rep stack L) : Stacked { st with B := B } rep stack L := by
  induction stack generalizing L with
  | nil => trivial
  | cons entry stack ih =>
    obtain ⟨eq, hides, outer⟩ := stacked
    exact ⟨eq, hides.compressed shortens, ih outer⟩

theorem Stacked.rerouted (laminar : L.Laminar st.n st.m) (roots : Roots L st.n rep st.depth)
    (rerouted : Rerouted L st.n rep st.B B) (stacked : Stacked st rep stack L1)
    (coarser : ∀ x y, Within L.parent x y → Within L1.parent x y)
    (items : ∀ x, L.Item st.n x → L1.Item st.n x) :
    Stacked { st with B := B, set := set } rep stack L1 := by
  induction stack generalizing L1 with
  | nil => trivial
  | cons entry stack ih =>
    obtain ⟨t, L'⟩ := entry
    obtain ⟨rfl, hides, outer⟩ := stacked
    have coarser' : ∀ x y, Within L.parent x y → Within L'.parent x y := fun x y within =>
      ((within_split hides.top).1 (coarser x y within)).1
    have hidden : ¬ L.Item st.n t := fun item =>
      ne_of_item_release hides.laminar (hides.laminar.fixed hides.fixed) (items t item) rfl
    exact ⟨rfl, hides.rerouted roots rerouted laminar coarser' hidden,
      ih outer coarser' fun x item => item_of_release (items x item)⟩

end Outer

/-- The family in front of all blockades. -/
def base : List (ℕ × Nesting) → Nesting → Nesting
  | [], L => L
  | (_, L') :: stack, _ => base stack L'

/-- The invariant of runs with blockades. -/
structure Blocked (st : NestedFamily) (stack : List (ℕ × Nesting)) (L : Nesting) (rep : ℕ → ℕ) :
    Prop where
  shows : st.Shows L rep
  stacked : Stacked st rep stack L
  exist : ∀ x, st.B x ≠ none → (base stack L).Item st.n x
  tops : ∀ x, (base stack L).Item st.n x → (base stack L).parent x = none → st.next x = none

section Steps

variable {stack : List (ℕ × Nesting)}

theorem Represents.blocked (represents : st.Represents L rep) : st.Blocked [] L rep :=
  ⟨represents.shows, trivial, fun x => (represents.pointers.exist x).1, represents.lists.tops⟩

/-- Without a blockade, the arrays represent the family. -/
theorem Blocked.represents (blocked : st.Blocked [] L rep) : st.Represents L rep :=
  blocked.shows.whole blocked.exist blocked.tops

theorem Blocked.ask (blocked : st.Blocked stack L rep) {q : Query} (legal : q.item < st.n + st.m) :
    ∃ st', NestedFamily.ask q st = .ok () st' ∧ st'.Blocked stack L rep ∧ st'.n = st.n ∧
      st'.m = st.m := by
  obtain ⟨B, res, shortens, idle⟩ := blocked.shows.ask legal
  refine ⟨_, res, ⟨blocked.shows.compressed shortens idle,
    blocked.stacked.compressed shortens, fun x present => blocked.exist x ?_, blocked.tops⟩,
    rfl, rfl⟩
  rwa [ne_eq, ← shortens.none_iff]

theorem Rerouted.ne_none (rerouted : Rerouted L st.n rep st.B B) (shows : st.Shows L rep)
    (present : B x ≠ none) : st.B x ≠ none := by
  rcases rerouted x with ⟨y, item, within, -⟩ | ptr
  · exact shows.exist (shows.laminar.item_within within item)
  · rwa [← ptr]

theorem Blocked.block (blocked : st.Blocked stack L rep) (fixed : s ∈ L.fixed)
    (top : L.parent s = none) : ∃ st', NestedFamily.block s st = .ok () st' ∧
      st'.Blocked ((s, L) :: stack) (L.release s) rep ∧ st'.n = st.n ∧ st'.m = st.m := by
  have laminar := blocked.shows.laminar
  have roots := blocked.shows.roots
  obtain ⟨B, set, res, shows, hides, redirected⟩ := block_spec blocked.shows fixed top
  have rerouted := redirected.rerouted laminar roots
  exact ⟨_, res, ⟨shows, ⟨rfl, hides, .rerouted laminar roots rerouted blocked.stacked
    (fun _ _ within => within) fun _ item => item⟩,
    fun x present => blocked.exist x (rerouted.ne_none blocked.shows present), blocked.tops⟩,
    rfl, rfl⟩

theorem Blocked.unBlock {L' : Nesting} (blocked : st.Blocked ((s, L) :: stack) L' rep) :
    ∃ st', NestedFamily.unBlock s st = .ok () st' ∧ st'.Blocked stack L rep ∧ st'.n = st.n ∧
      st'.m = st.m := by
  obtain ⟨shows, ⟨rfl, hides, outer⟩, exist, tops⟩ := blocked
  have laminar := hides.laminar
  have roots := hides.roots
  have mem := laminar.fixed hides.fixed
  obtain ⟨B, set, res, shown, enclosed⟩ := unBlock_spec shows hides
  have rerouted := enclosed.rerouted mem laminar roots
  refine ⟨_, res, ⟨shown, .rerouted laminar roots rerouted outer
    (fun _ _ within => within) fun _ item => item, fun x present => exist x ?_, tops⟩, rfl, rfl⟩
  rcases rerouted x with ⟨y, item, within, -⟩ | ptr
  · exact hides.exist shows (laminar.item_within within item)
  · rwa [← ptr]

end Steps

/-! ## Runs with blockades -/

/-- The calls of a nested family, blockades included. -/
inductive BlockCall where
  | op (op : NestedOp)
  | ask (q : Query)
  | block (s : ℕ)
  | unBlock (s : ℕ)

def runCall : BlockCall → NestedM Unit
  | .op op => run op
  | .ask q => ask q
  | .block s => block s
  | .unBlock s => unBlock s

/-- The calls, after the construction. -/
def runCalls (calls : List BlockCall) : NestedM Unit := do
  init
  calls.forM runCall

/-- The calls that lead to some blocked sets and to the sets that are shown. While sets are blocked,
there are only queries and further blockades, and the set that has been blocked last is the first
one to be shown again. -/
inductive BlockRuns (n m : ℕ) : List BlockCall → List (ℕ × Nesting) → Nesting → Prop
  | start : BlockRuns n m [] [] .initial
  | op {calls : List BlockCall} {L L' : Nesting} {op : NestedOp}
      (before : BlockRuns n m calls [] L) (admits : Admits n m L op L') :
      BlockRuns n m (calls ++ [.op op]) [] L'
  | ask {calls : List BlockCall} {stack : List (ℕ × Nesting)} {L : Nesting} {q : Query}
      (before : BlockRuns n m calls stack L) (legal : q.item < n + m) :
      BlockRuns n m (calls ++ [.ask q]) stack L
  | block {calls : List BlockCall} {stack : List (ℕ × Nesting)} {L : Nesting} {s : ℕ}
      (before : BlockRuns n m calls stack L) (fixed : s ∈ L.fixed) (top : L.parent s = none) :
      BlockRuns n m (calls ++ [.block s]) ((s, L) :: stack) (L.release s)
  | unBlock {calls : List BlockCall} {stack : List (ℕ × Nesting)} {L L' : Nesting} {s : ℕ}
      (before : BlockRuns n m calls ((s, L) :: stack) L') :
      BlockRuns n m (calls ++ [.unBlock s]) stack L

/-- The state after the calls. -/
structure BlockReaches (start : NestedFamily) (calls : List BlockCall)
    (stack : List (ℕ × Nesting)) (L : Nesting) (st : NestedFamily) : Prop where
  result : runCalls calls start = .ok () st
  blocked : ∃ rep, st.Blocked stack L rep
  n : st.n = start.n
  m : st.m = start.m

section Runs

variable {start : NestedFamily} {calls : List BlockCall} {stack stack' : List (ℕ × Nesting)}
  {L' : Nesting}

theorem BlockReaches.call {call : BlockCall} (reaches : BlockReaches start calls stack L st)
    (step : runCall call st = .ok () st') (blocked : ∃ rep, st'.Blocked stack' L' rep)
    (n : st'.n = st.n) (m : st'.m = st.m) : BlockReaches start (calls ++ [call]) stack' L' st' := by
  obtain ⟨before, -, n', m'⟩ := reaches
  refine ⟨?_, blocked, n.trans n', m.trans m'⟩
  obtain ⟨a, st1, first, rest⟩ := of_run_bind before
  rw [runCalls, run_bind_ok first, run_forM_append rest]
  change (runCall call >>= fun _ => pure () : NestedM Unit) st = _
  rw [run_bind_ok step]
  rfl

/-- **What a run with blockades preserves.** It returns as well. -/
theorem BlockRuns.reaches (runs : BlockRuns start.n start.m calls stack L) :
    ∃ st, BlockReaches start calls stack L st := by
  induction runs with
  | start =>
    obtain ⟨st, res, represents, n, m, -⟩ := init_spec start
    refine ⟨st, ?_, ⟨id, represents.blocked⟩, n, m⟩
    rw [runCalls, run_bind_ok res]
    rfl
  | op _ admits ih =>
    obtain ⟨st, reaches⟩ := ih
    obtain ⟨rep, blocked⟩ := reaches.blocked
    rw [← reaches.n, ← reaches.m] at admits
    obtain ⟨st', rep', res, after, n, m⟩ := blocked.represents.call admits
    exact ⟨st', reaches.call res ⟨rep', after.blocked⟩ n m⟩
  | ask _ legal ih =>
    obtain ⟨st, reaches⟩ := ih
    obtain ⟨rep, blocked⟩ := reaches.blocked
    rw [← reaches.n, ← reaches.m] at legal
    obtain ⟨st', res, after, n, m⟩ := blocked.ask legal
    exact ⟨st', reaches.call res ⟨rep, after⟩ n m⟩
  | block _ fixed top ih =>
    obtain ⟨st, reaches⟩ := ih
    obtain ⟨rep, blocked⟩ := reaches.blocked
    obtain ⟨st', res, after, n, m⟩ := blocked.block fixed top
    exact ⟨st', reaches.call res ⟨rep, after⟩ n m⟩
  | unBlock _ ih =>
    obtain ⟨st, reaches⟩ := ih
    obtain ⟨rep, blocked⟩ := reaches.blocked
    obtain ⟨st', res, after, n, m⟩ := blocked.unBlock
    exact ⟨st', reaches.call res ⟨rep, after⟩ n m⟩

theorem Blocked.asks {queries : List Query} (blocked : st.Blocked stack L rep)
    (legal : ∀ q ∈ queries, q.item < st.n + st.m) :
    ∃ st', queries.forM NestedFamily.ask st = .ok () st' ∧ st'.Blocked stack L rep ∧
      st'.n = st.n ∧ st'.m = st.m := by
  induction queries generalizing st with
  | nil => exact ⟨st, rfl, blocked, rfl, rfl⟩
  | cons q queries ih =>
    obtain ⟨st1, first, blocked1, n, m⟩ := blocked.ask (legal q mem_cons_self)
    obtain ⟨st', rest, blocked', n', m'⟩ := ih blocked1 fun q' mem => by
      rw [n, m]
      exact legal q' (mem_cons_of_mem q mem)
    exact ⟨st', (run_bind_ok first).trans rest, blocked', n'.trans n, m'.trans m⟩

/-- **`UnBlock` undoes `Block`.** In front of a blockade of an outermost set `s`, and between any
queries, `Set` returns the outermost sets. During the blockade it returns the members of `s` for
what is nested in them, and `s` again after the blockade. For other items it always returns the same
sets. -/
theorem unBlock_undoes_block (runs : BlockRuns start.n start.m calls stack L) (fixed : s ∈ L.fixed)
    (top : L.parent s = none) {queries : List Query}
    (legal : ∀ q ∈ queries, q.item < start.n + start.m) :
    ∃ st st1 st2 st', runCalls calls start = .ok () st ∧ block s st = .ok () st1 ∧
      queries.forM ask st1 = .ok () st2 ∧ unBlock s st2 = .ok () st' ∧
      (∀ v x, L.parent v = some s → Within L.parent x v → st1.Answers x v ∧ st2.Answers x v) ∧
      (∀ x, Within L.parent x s → st.Answers x s ∧ st'.Answers x s) ∧
      ∀ y, L.Item start.n y → ¬ Within L.parent y s → ∃ t,
        st.Answers y t ∧ st1.Answers y t ∧ st2.Answers y t ∧ st'.Answers y t := by
  obtain ⟨st, reaches⟩ := runs.reaches
  obtain ⟨rep, blocked⟩ := reaches.blocked
  obtain ⟨st1, result1, blocked1, n1, m1⟩ := blocked.block fixed top
  rw [← reaches.n, ← reaches.m, ← n1, ← m1] at legal
  obtain ⟨st2, result2, blocked2, n2, m2⟩ := blocked1.asks legal
  obtain ⟨st', result', blocked', n', m'⟩ := blocked2.unBlock
  have laminar := blocked.shows.laminar
  have member := laminar.fixed fixed
  have ofBlock : ∀ {x t}, L.Item st.n x → x ≠ s → Outermost (L.release s).parent x t →
      st1.Answers x t ∧ st2.Answers x t := by
    intro x t item other outer
    have shown := item_release item other
    exact ⟨blocked1.shows.answers (n1 ▸ shown) outer,
      blocked2.shows.answers (n2.trans n1 ▸ shown) outer⟩
  have same : st'.n = st.n := n'.trans (n2.trans n1)
  refine ⟨st, st1, st2, st', reaches.result, result1, result2, result', fun v x step inside => ?_,
    fun x inside => ?_, fun y item outside => ?_⟩
  · have itemX := laminar.item_within inside (laminar.item_of_parent step)
    have otherV : v ≠ s := by
      rintro rfl
      rw [top] at step
      cases step
    have otherX : x ≠ s := by
      rintro rfl
      exact not_within_of_parent laminar.grounded step inside
    exact ofBlock itemX otherX
      ⟨(within_release top otherV).2 inside, dissolve_eq_none.2 (.inl step)⟩
  · have itemX := laminar.item_within inside (.inr member)
    exact ⟨blocked.shows.answers itemX ⟨inside, top⟩,
      blocked'.shows.answers (same ▸ itemX) ⟨inside, top⟩⟩
  · rw [← reaches.n] at item
    obtain ⟨t, outer⟩ := laminar.grounded y
    have otherT : t ≠ s := by
      rintro rfl
      exact outside outer.within
    have otherY : y ≠ s := by
      rintro rfl
      exact outside (.refl y)
    obtain ⟨during, after⟩ := ofBlock item otherY
      ⟨(within_release top otherT).2 outer.within, dissolve_eq_none.2 (.inr outer.top)⟩
    exact ⟨t, blocked.shows.answers item outer, during, after,
      blocked'.shows.answers (same ▸ item) outer⟩

end Runs

/-- A set with the item `0` is put into another one together with the item `1`. The outer set is
blocked, and then the inner one for two queries. -/
theorem unBlock_undoes_block_nested :
    ∃ st st1 st2 st', runCalls [.op .makeSet, .op (.merge 2 0), .op (.fixSet 2), .op .makeSet,
        .op (.merge 3 2), .op (.merge 3 1), .op (.fixSet 3), .block 3] (blank true) = .ok () st ∧
      block 2 st = .ok () st1 ∧ [Query.set 0, .find 3].forM ask st1 = .ok () st2 ∧
      unBlock 2 st2 = .ok () st' ∧ st.Answers 0 2 ∧ st2.Answers 0 0 ∧ st'.Answers 0 2 ∧
      ∃ t, st.Answers 1 t ∧ st'.Answers 1 t := by
  have first : BlockRuns 2 2 [.op .makeSet] [] _ := .op .start (.makeSet (s := 2) (by decide))
  have second : BlockRuns 2 2 [.op .makeSet, .op (.merge 2 0)] [] _ :=
    .op first (.merge (s := 2) (v := 0) (by decide) (by decide) (by decide) (by decide))
  have third : BlockRuns 2 2 [.op .makeSet, .op (.merge 2 0), .op (.fixSet 2)] [] _ :=
    .op second (.fixSet (s := 2) (v := 0) (by decide) (by decide) (by decide))
  have fourth : BlockRuns 2 2 [.op .makeSet, .op (.merge 2 0), .op (.fixSet 2), .op .makeSet] []
      _ := .op third (.makeSet (s := 3) (by decide))
  have fifth : BlockRuns 2 2 [.op .makeSet, .op (.merge 2 0), .op (.fixSet 2), .op .makeSet,
      .op (.merge 3 2)] [] _ :=
    .op fourth (.merge (s := 3) (v := 2) (by decide) (by decide) (by decide) (by decide))
  have sixth : BlockRuns 2 2 [.op .makeSet, .op (.merge 2 0), .op (.fixSet 2), .op .makeSet,
      .op (.merge 3 2), .op (.merge 3 1)] [] _ :=
    .op fifth (.merge (s := 3) (v := 1) (by decide) (by decide) (by decide) (by decide))
  have seventh : BlockRuns 2 2 [.op .makeSet, .op (.merge 2 0), .op (.fixSet 2), .op .makeSet,
      .op (.merge 3 2), .op (.merge 3 1), .op (.fixSet 3)] [] _ :=
    .op sixth (.fixSet (s := 3) (v := 1) (by decide) (by decide) (by decide))
  have runs : BlockRuns (blank true).n (blank true).m [.op .makeSet, .op (.merge 2 0),
      .op (.fixSet 2), .op .makeSet, .op (.merge 3 2), .op (.merge 3 1), .op (.fixSet 3),
      .block 3] [_] _ := .block (s := 3) seventh (by decide) (by decide)
  have legal : ∀ q ∈ [Query.set 0, .find 3], q.item < (blank true).n + (blank true).m := by
    simp [Query.item, blank]
  obtain ⟨st, st1, st2, st', result, blocked, asked, unblocked, members, inside, others⟩ :=
    unBlock_undoes_block (s := 2) runs (by decide) (by decide) legal
  obtain ⟨before, after⟩ := inside 0 (.single (by decide))
  obtain ⟨t, outside, -, -, later⟩ := others 1 (.inl (by decide)) fun within => by
    cases within.eq_of_top (by decide)
  exact ⟨st, st1, st2, st', result, blocked, asked, unblocked, before,
    (members 0 0 (by decide) (.refl 0)).2, after, t, outside, later⟩

end NestedFamily

end Goblin
