import Goblin.NestedFamily

/-!
# Splitting nested sets

`Split` makes the canonical items of the members roots again. With path compression, `Adjust` visits
all items that are nested in a member and redirects their pointers to its canonical item. Together
with the other methods this makes a `nestedFamily` a laminar family of sets
(`nestedFamily_refines`), whether pointers are compressed or not, and also if the index of a set
that has been split is used again.
-/

set_option autoImplicit false

namespace Goblin

open Library List Finset Option Function

variable {r B : ℕ → Option ℕ} {c n m : ℕ} {l : List ℕ} {compress : Bool}

namespace NestedFamily

variable {st st' : NestedFamily} {L : Nesting} {rep : ℕ → ℕ} {s t u v w x : ℕ}

/-! ## Adjust -/

/-- The members of sets that are members themselves are linked. -/
def InnerLists (L : Nesting) (n : ℕ) (first next : ℕ → Option ℕ) : Prop :=
  ∀ t ∈ L.sets, L.parent t ≠ none → ∃ l : List ℕ, l.Nodup ∧ (∀ v, v ∈ l ↔ L.parent v = some t) ∧
    first (t - n) = l.head? ∧ Links next l l.getLast?

/-- The loops over the members of a set stop at the last one, which is linked to itself. -/
theorem links_tail (links : Links r (c :: l) (c :: l).getLast?) :
    r c = l.head?.or (some c) ∧ Links r l l.getLast? := by
  cases l with
  | nil => exact ⟨links.1, trivial⟩
  | cons d l =>
    refine ⟨links.1, ?_⟩
    rw [← getLast?_cons_cons (a := c)]
    exact links.2

open Classical in
section

variable (L : Nesting) (k : ℕ) (l : List ℕ)

/-- The number of items that are nested in one of the given members. -/
noncomputable def nestedIn : ℕ :=
  ((Finset.range k).filter fun z => ∃ c ∈ l, Within L.parent z c).card

theorem nestedIn_le : nestedIn L k l ≤ k := by
  classical
  rw [nestedIn]
  exact (card_filter_le _ _).trans_eq (card_range k)

end

/-- The item `c` is not nested in any member of `l`. -/
theorem nestedIn_lt {k : ℕ} {l' : List ℕ} (low : c < k)
    (more : ∀ z, ∀ d ∈ l, Within L.parent z d → ∃ e ∈ l', Within L.parent z e) (here : c ∈ l')
    (fresh : ∀ d ∈ l, ¬ Within L.parent c d) : nestedIn L k l < nestedIn L k l' := by
  classical
  rw [nestedIn, nestedIn]
  refine card_lt_card (ssubset_iff.2 ⟨c, ?_, ?_⟩)
  · simp only [Finset.mem_filter, not_and, not_exists]
    exact fun _ d mem => fresh d mem
  · intro z mem
    rw [Finset.mem_filter, Finset.mem_range]
    rcases Finset.mem_insert.1 mem with rfl | old
    · exact ⟨low, z, here, .refl z⟩
    · obtain ⟨lowZ, d, inside, within⟩ := Finset.mem_filter.1 old
      exact ⟨Finset.mem_range.1 lowZ, more z d inside within⟩

section

variable (laminar : L.Laminar n m)
include laminar

theorem siblings_apart (stepU : L.parent u = some s)
    (stepV : L.parent v = some s) (within : Within L.parent u v) : u = v := by
  by_contra other
  exact not_within_of_parent laminar.grounded stepV (within.parent_within other stepU)

theorem siblings_apart_of_member (step : L.parent v = some s)
    (down : Within L.parent t v) (up : Within L.parent v t) : t = v := by
  by_contra other
  have back := up.parent_within (Ne.symm other) step
  exact not_within_of_parent laminar.grounded step (back.trans down)

theorem siblings_eq (stepU : L.parent u = some s)
    (stepV : L.parent v = some s) (withinU : Within L.parent x u) (withinV : Within L.parent x v) :
    u = v := by
  rcases withinU.comparable withinV with up | down
  · exact siblings_apart laminar stepU stepV up
  · exact (siblings_apart laminar stepV stepU down).symm

end

theorem adjustFrom_done (b fuel : ℕ) (u : Option ℕ) (st : NestedFamily) :
    adjustFrom b (fuel + 1) u u st = .ok () st := by
  cases u <;> simp [adjustFrom, run_pure]

/-- The call for a member that is a set. -/
def adjustMember (b fuel w : ℕ) : NestedM Unit := do
  let st ← get
  if st.n ≤ w then adjustFrom b fuel none (st.first (w - st.n)) else pure ()

theorem adjustFrom_step (b fuel : ℕ) {u : Option ℕ} (other : u ≠ some w)
    (mem : adjustMember b fuel w { st with B := update st.B w (some b) } =
      .ok () { st with B := B }) :
    adjustFrom b (fuel + 1) u (some w) st =
      adjustFrom b fuel (some w) (st.next w) { st with B := B } := by
  rw [adjustFrom.eq_def]
  simp only [if_neg other]
  rw [run_bind_modify, run_bind_get]
  rw [adjustMember, run_bind_get] at mem
  rw [run_bind_ok mem, run_bind_get]

open Classical in
theorem adjustFrom_spec (b : ℕ) (fuel : ℕ) : ∀ (st : NestedFamily) (u : Option ℕ) (l : List ℕ) (s : ℕ),
    L.Laminar st.n st.m → InnerLists L st.n st.first st.next → l.Nodup → (∀ c ∈ l, u ≠ some c) →
    (∀ c ∈ l, L.parent c = some s) → Links st.next l l.getLast? →
    nestedIn L (st.n + st.m) l < fuel →
    adjustFrom b fuel u (l.head?.or u) st = .ok () { st with
      B := fun z => if ∃ c ∈ l, Within L.parent z c then some b else st.B z } := by
  induction fuel with
  | zero => exact fun _ _ _ _ _ _ _ _ _ _ short => absurd short (Nat.not_lt_zero _)
  | succ fuel ih =>
    intro st u l s laminar lists nodup before members links enough
    cases l with
    | nil =>
      simpa using adjustFrom_done b fuel u st
    | cons c l =>
      obtain ⟨fresh, nodup⟩ := nodup_cons.1 nodup
      obtain ⟨next, links⟩ := links_tail links
      have stepC := members c List.mem_cons_self
      have itemC := laminar.item_of_parent stepC
      have lowC := laminar.item_lt itemC
      -- the members of `c` first, which are nested in `c`
      obtain ⟨B, inner, redirected⟩ : ∃ B : ℕ → Option ℕ,
          adjustMember b fuel c { st with B := update st.B c (some b) } =
            .ok () { st with B := B } ∧
          ∀ z, B z = if Within L.parent z c then some b else st.B z := by
        by_cases isSet : st.n ≤ c
        · have mem : c ∈ L.sets := itemC.resolve_left (not_lt.2 isSet)
          obtain ⟨k, nodupK, membersK, first, linksK⟩ := lists c mem (by simp [stepC])
          have run := ih { st with B := update st.B c (some b) } none k c laminar lists
            nodupK (fun d _ => by simp) (fun d inside => (membersK d).1 inside) linksK ?_
          · rw [or_none, ← first] at run
            refine ⟨_, (run_bind_get ..).trans ((congrFun (if_pos isSet) _).trans run), fun z => ?_⟩
            by_cases here : z = c
            · subst here
              simp [Within.refl z]
            dsimp only
            rw [update_of_ne here]
            refine if_congr ⟨?_, fun within => ?_⟩ rfl rfl
            · rintro ⟨d, inside, within⟩
              exact within.trans (.single ((membersK d).1 inside))
            · obtain ⟨d, step, inside⟩ := within.exists_member here
              exact ⟨d, (membersK d).2 step, inside⟩
          · refine (nestedIn_lt lowC (fun z d inside within => ?_) List.mem_cons_self
              fun d inside => ?_).trans_le (Nat.le_of_lt_succ enough)
            · exact ⟨c, List.mem_cons_self, within.trans (.single ((membersK d).1 inside))⟩
            · exact not_within_of_parent laminar.grounded ((membersK d).1 inside)
        · refine ⟨update st.B c (some b), ?_, fun z => ?_⟩
          · exact (run_bind_get ..).trans (congrFun (if_neg isSet) _)
          by_cases here : z = c
          · subst here
            simp [Within.refl z]
          · rw [update_of_ne here, if_neg]
            exact fun within => here (laminar.eq_of_real within (not_le.1 isSet))
      have rest := ih { st with B := B } (some c) l s laminar lists nodup
        (fun d inside eq => fresh (Option.some.inj eq ▸ inside))
        (fun d inside => members d (mem_cons_of_mem c inside)) links
        ((nestedIn_lt lowC (fun z d inside within =>
          ⟨d, mem_cons_of_mem c inside, within⟩) List.mem_cons_self fun d inside within =>
            fresh (siblings_apart laminar stepC (members d (mem_cons_of_mem c inside))
              within ▸ inside)).trans_le (Nat.le_of_lt_succ enough))
      rw [head?_cons, some_or, adjustFrom_step b fuel (before c List.mem_cons_self)
        inner, next, rest]
      congr 2
      funext z
      dsimp only
      rw [redirected z]
      by_cases inRest : ∃ d ∈ l, Within L.parent z d
      · obtain ⟨d, inside, within⟩ := inRest
        rw [if_pos ⟨d, inside, within⟩, if_pos ⟨d, mem_cons_of_mem c inside, within⟩]
      rw [if_neg inRest]
      refine if_congr ⟨fun within => ⟨c, List.mem_cons_self, within⟩, ?_⟩ rfl rfl
      rintro ⟨d, inside, within⟩
      rcases mem_cons.1 inside with rfl | later
      · exact within
      · exact absurd ⟨d, later, within⟩ inRest

open Classical in
theorem adjust_spec (st : NestedFamily) {b : ℕ} (laminar : L.Laminar st.n st.m)
    (lists : InnerLists L st.n st.first st.next) (step : L.parent v = some s)
    (mem : v ∈ L.sets) (low : b < st.n + st.m) :
    adjust v b st = .ok () { st with
      B := fun z => if Within L.parent z v ∧ z ≠ v then some b else st.B z } := by
  have lowV := laminar.low v mem
  obtain ⟨l, nodup, members, first, links⟩ := lists v mem (by simp [step])
  have run := adjustFrom_spec b (st.n + st.m + 1) st none l v laminar lists nodup
    (fun c _ => by simp) (fun c => (members c).1) links (Nat.lt_succ_of_le (nestedIn_le L _ l))
  rw [or_none, ← first] at run
  rw [adjust, run_bind_get, if_neg (by omega), if_neg (not_le.2 low), run]
  congr 2
  funext z
  refine if_congr ⟨?_, fun ⟨within, other⟩ => ?_⟩ rfl rfl
  · rintro ⟨c, inside, within⟩
    have stepC := (members c).1 inside
    refine ⟨within.trans (.single stepC), ?_⟩
    rintro rfl
    exact not_within_of_parent laminar.grounded stepC within
  · obtain ⟨c, stepC, inside⟩ := within.exists_member other
    exact ⟨c, (members c).2 stepC, inside⟩

/-! ## The members of a set that is split -/

/-- The pointers that are redirected when the member `c` is released. -/
def Touched (L : Nesting) (rep : ℕ → ℕ) (compress : Bool) (c z : ℕ) : Prop :=
  z = c ∨ z = rep c ∨ (compress = true ∧ Within L.parent z c)

/-- What is known of the arrays while the members are released. -/
structure Releasing (L : Nesting) (rep : ℕ → ℕ) (st : NestedFamily) : Prop where
  laminar : L.Laminar st.n st.m
  roots : Roots L st.n rep st.depth
  lists : InnerLists L st.n st.first st.next
  canonical : ∀ s ∈ L.fixed, st.canonical (s - st.n) = some (rep s)
  real : ∀ v < st.n, st.set v = v

theorem Touched.within {depth : ℕ → ℕ} {z : ℕ} (touched : Touched L rep compress c z)
    (roots : Roots L n rep depth) (item : L.Item n c) : Within L.parent z c := by
  rcases touched with rfl | rfl | ⟨-, within⟩
  · exact .refl z
  · exact roots.within c item
  · exact within

open Classical in
theorem releaseMember_spec (releasing : Releasing L rep st) (step : L.parent v = some s) :
    releaseMember v st = .ok () { st with
      B := fun z => if Touched L rep st.compress v z then some (rep v) else st.B z
      set := update st.set (rep v) v } := by
  obtain ⟨laminar, roots, lists, canonical, real⟩ := releasing
  have item := laminar.item_of_parent step
  rw [releaseMember, run_bind_get]
  by_cases isReal : v < st.n
  · have root : rep v = v := roots.eq_of_real laminar isReal
    have touched : ∀ z, Touched L rep st.compress v z ↔ z = v := by
      intro z
      rw [Touched, root]
      refine ⟨?_, fun here => .inl here⟩
      rintro (here | here | ⟨-, within⟩)
      · exact here
      · exact here
      · exact laminar.eq_of_real within isReal
    have sets : (if st.compress then update st.set v v else st.set) =
        update st.set v v := by
      have eq : update st.set v v = st.set := by
        rw [← update_eq_self v st.set, real v isReal, update_idem]
      split_ifs
      · rfl
      · exact eq.symm
    rw [if_pos isReal, run_modify, root]
    congr 2
    · funext z
      by_cases here : z = v
      · rw [if_pos ((touched z).2 here), here, update_self]
      · rw [if_neg fun present => here ((touched z).1 present), update_of_ne here]
  · have fixed : v ∈ L.fixed := (laminar.members v s step).1.resolve_left isReal
    have mem := laminar.fixed fixed
    have low := laminar.low v mem
    have lowRoot := laminar.item_lt (laminar.item_within (roots.within v item) item)
    rw [if_neg isReal, canonical v fixed]
    dsimp only
    rw [run_bind_modify]
    have after : ∃ B : ℕ → Option ℕ,
        (if st.compress then adjust v (rep v) else pure () : NestedM Unit) { st with
          B := update (update st.B (rep v) (some (rep v))) v (some (rep v)) } =
          .ok () { st with B := B } ∧
        ∀ z, B z = if Touched L rep st.compress v z then some (rep v) else st.B z := by
      by_cases compress : st.compress = true
      · have call := adjust_spec { st with
          B := update (update st.B (rep v) (some (rep v))) v (some (rep v)) }
          laminar lists step mem lowRoot
        refine ⟨_, (congrFun (if_pos compress) _).trans call, fun z => ?_⟩
        dsimp only
        by_cases here : z = v
        · simp [here, Touched]
        · rw [update_of_ne here]
          by_cases isRoot : z = rep v
          · simp [isRoot, Touched]
          · rw [update_of_ne isRoot]
            simp [Touched, here, isRoot, compress]
      · refine ⟨_, congrFun (if_neg compress) _, fun z => ?_⟩
        by_cases here : z = v
        · simp [here, Touched]
        · rw [update_of_ne here]
          by_cases isRoot : z = rep v
          · simp [isRoot, Touched]
          · simp [Touched, here, isRoot, compress]
    obtain ⟨B, res, pointers⟩ := after
    rw [run_bind_ok res, run_modify]
    congr 2
    funext z
    exact pointers z

/-! ## Split -/

/-- The arrays after the members of `l` have been released. -/
structure Released (L : Nesting) (rep : ℕ → ℕ) (l : List ℕ) (st st' : NestedFamily) : Prop where
  n : st'.n = st.n
  m : st'.m = st.m
  compress : st'.compress = st.compress
  depth : st'.depth = st.depth
  canonical : st'.canonical = st.canonical
  first : st'.first = st.first
  pointers : ∀ z, (∃ c ∈ l, Touched L rep st.compress c z ∧ st'.B z = some (rep c)) ∨
    ((∀ c ∈ l, ¬ Touched L rep st.compress c z) ∧ st'.B z = st.B z)
  owners : ∀ z, (∃ c ∈ l, z = rep c ∧ st'.set z = c) ∨
    ((∀ c ∈ l, z ≠ rep c) ∧ st'.set z = st.set z)
  next : ∀ z, st'.next z = if z ∈ l then none else st.next z

theorem splitFrom_done (fuel : ℕ) (u : Option ℕ) (st : NestedFamily) :
    splitFrom (fuel + 1) u u st = .ok () st := by
  cases u <;> simp [splitFrom, run_pure]

theorem splitFrom_step (fuel : ℕ) {u : Option ℕ} (other : u ≠ some w)
    (release : releaseMember w st = .ok () st') :
    splitFrom (fuel + 1) u (some w) st = splitFrom fuel (some w) (st'.next w)
      { st' with next := update st'.next w none } := by
  rw [splitFrom.eq_def]
  simp only [if_neg other]
  rw [run_bind_ok release, run_bind_get, run_bind_modify]

/-- The labels of real items stay as they are if a member is released. -/
theorem Releasing.real_release (releasing : Releasing L rep st) (step : L.parent v = some s) :
    ∀ u < st.n, update st.set (rep v) v u = u := by
  intro u real
  have item := releasing.laminar.item_of_parent step
  by_cases here : u = rep v
  · have isReal : v < st.n := by
      by_contra high
      have set := releasing.roots.sets v (item.resolve_left high)
      rw [← here] at set
      exact absurd real (not_lt.2 (releasing.laminar.low u set).1)
    have eq := releasing.roots.eq_of_real releasing.laminar isReal
    rw [here, update_self, eq]
  · rw [update_of_ne here]
    exact releasing.real u real

open Classical in
theorem Released.cons {c : ℕ} {l : List ℕ} (fresh : c ∉ l) (released : Released L rep l { st with
      B := fun z => if Touched L rep st.compress c z then some (rep c) else st.B z
      set := update st.set (rep c) c
      next := update st.next c none } st') : Released L rep (c :: l) st st' := by
  refine ⟨released.n, released.m, released.compress, released.depth, released.canonical,
    released.first, fun z => ?_, fun z => ?_, fun z => ?_⟩
  · rcases released.pointers z with ⟨d, inside, touched, ptr⟩ | ⟨untouched, ptr⟩
    · exact .inl ⟨d, mem_cons_of_mem c inside, touched, ptr⟩
    by_cases here : Touched L rep st.compress c z
    · exact .inl ⟨c, List.mem_cons_self, here, ptr.trans (if_pos here)⟩
    · refine .inr ⟨fun d inside => ?_, ptr.trans (if_neg here)⟩
      rcases mem_cons.1 inside with rfl | later
      · exact here
      · exact untouched d later
  · rcases released.owners z with ⟨d, inside, root, owner⟩ | ⟨none, owner⟩
    · exact .inl ⟨d, mem_cons_of_mem c inside, root, owner⟩
    by_cases here : z = rep c
    · refine .inl ⟨c, List.mem_cons_self, here, owner.trans ?_⟩
      rw [here]
      exact update_self ..
    · refine .inr ⟨fun d inside => ?_, owner.trans (update_of_ne here ..)⟩
      rcases mem_cons.1 inside with rfl | later
      · exact here
      · exact none d later
  · rw [released.next z]
    by_cases here : z = c
    · subst here
      rw [if_neg fresh, if_pos List.mem_cons_self]
      exact update_self ..
    · dsimp only
      rw [update_of_ne here]
      exact if_congr (by simp [here]) rfl rfl

/-- **All members are released**, one after the other. -/
theorem splitFrom_spec (s fuel : ℕ) : ∀ (st : NestedFamily) (u : Option ℕ) (l : List ℕ),
    Releasing L rep st → L.parent s = none → l.Nodup → (∀ c ∈ l, u ≠ some c) →
    (∀ c ∈ l, L.parent c = some s) → Links st.next l l.getLast? → l.length < fuel →
    ∃ st', splitFrom fuel u (l.head?.or u) st = .ok () st' ∧ Released L rep l st st' := by
  classical
  induction fuel with
  | zero => exact fun _ _ _ _ _ _ _ _ _ short => absurd short (Nat.not_lt_zero _)
  | succ fuel ih =>
    intro st u l releasing topS nodup before members links enough
    cases l with
    | nil =>
      refine ⟨st, by simpa using splitFrom_done fuel u st, rfl, rfl, rfl, rfl, rfl, rfl,
        fun z => .inr ⟨by simp, rfl⟩, fun z => .inr ⟨by simp, rfl⟩, fun z => by simp⟩
    | cons c l =>
      obtain ⟨fresh, nodup⟩ := nodup_cons.1 nodup
      obtain ⟨next, links⟩ := links_tail links
      have stepC := members c List.mem_cons_self
      have release := releaseMember_spec releasing stepC
      let st1 : NestedFamily := { st with
        B := fun z => if Touched L rep st.compress c z then some (rep c) else st.B z
        set := update st.set (rep c) c
        next := update st.next c none }
      have releasing1 : Releasing L rep st1 := by
        refine ⟨releasing.laminar, releasing.roots, fun t mem inner => ?_,
          releasing.canonical, releasing.real_release stepC⟩
        obtain ⟨k, nodupK, membersK, first, linksK⟩ := releasing.lists t mem inner
        refine ⟨k, nodupK, membersK, first, linksK.congr fun d inside => ?_⟩
        refine update_of_ne ?_ _ _
        rintro rfl
        have step := (membersK d).1 inside
        rw [stepC] at step
        cases step
        exact inner topS
      obtain ⟨st', res, released⟩ := ih st1 (some c) l releasing1 topS nodup
        (fun d inside eq => fresh (Option.some.inj eq ▸ inside))
        (fun d inside => members d (mem_cons_of_mem c inside))
        (links.congr fun d inside => update_of_ne (by rintro rfl; exact fresh inside) _ _)
        (by simpa using enough)
      refine ⟨st', ?_, .cons fresh released⟩
      rw [head?_cons, some_or, splitFrom_step fuel (before c List.mem_cons_self) release]
      dsimp only
      rw [next]
      exact res

section Release

variable {n m : ℕ} {depth : ℕ → ℕ} {l : List ℕ} {c z : ℕ}

theorem within_release (top : L.parent s = none) (other : t ≠ s) :
    Within (L.release s).parent x t ↔ Within L.parent x t :=
  (within_split top).trans (and_iff_left fun isS => absurd isS other)

theorem ne_of_item_release (laminar : L.Laminar n m) (mem : s ∈ L.sets)
    (item : (L.release s).Item n t) : t ≠ s := by
  rintro rfl
  rcases item with real | present
  · exact absurd real (not_lt.2 (laminar.low t mem).1)
  · exact (mem_erase.1 present).1 rfl

theorem item_of_release (item : (L.release s).Item n t) : L.Item n t :=
  item.imp id (mem_of_mem_erase ·)

theorem ne_of_within (top : L.parent s = none) (other : t ≠ s) (within : Within L.parent z t) :
    z ≠ s := by
  rintro rfl
  exact other (within.eq_of_top top)

/-- An outermost item of the new family is a member of `s`, or it has nothing in common with the
members. -/
theorem top_release (top : L.parent s = none) (members : ∀ v, v ∈ l ↔ L.parent v = some s)
    (topT : (L.release s).parent t = none) (other : t ≠ s) :
    t ∈ l ∨ (L.parent t = none ∧ ∀ z, Within L.parent z t → ∀ c ∈ l, ¬ Within L.parent z c) := by
  rcases dissolve_eq_none.1 topT with step | topT
  · exact .inl ((members t).2 step)
  · refine .inr ⟨topT, fun z inside c insideC insideZ => other ?_⟩
    exact Outermost.unique ⟨inside, topT⟩ ⟨insideZ.trans (.single ((members c).1 insideC)), top⟩

theorem laminar_release (laminar : L.Laminar n m) (top : L.parent s = none) :
    (L.release s).Laminar n m where
  low := fun t present => laminar.low t (mem_of_mem_erase present)
  fixed := erase_subset_erase s laminar.fixed
  filled := by
    intro t fixed
    obtain ⟨other, fixed⟩ := mem_erase.1 fixed
    obtain ⟨v, step⟩ := laminar.filled t fixed
    exact ⟨v, dissolve_eq_some.2 ⟨step, other⟩⟩
  members := by
    intro x t stepT
    obtain ⟨step, other⟩ := dissolve_eq_some.1 stepT
    obtain ⟨ready, present⟩ := laminar.members x t step
    refine ⟨ready.imp id fun fixed => mem_erase.2 ⟨?_, fixed⟩, mem_erase.2 ⟨other, present⟩⟩
    rintro rfl
    exact absurd (top.symm.trans step) (by simp)
  grounded := laminar.grounded.split top

theorem Roots.release (roots : Roots L n rep depth) (laminar : L.Laminar n m)
    (mem : s ∈ L.sets) (top : L.parent s = none) : Roots (L.release s) n rep depth where
  within := fun t item =>
    (within_release top (ne_of_item_release laminar mem item)).2
      (roots.within t (item_of_release item))
  down := by
    intro t t' item inside root
    have other := ne_of_item_release laminar mem item
    rw [within_release top other] at inside
    rw [within_release top (ne_of_within top other inside)] at root
    exact roots.down t t' (item_of_release item) inside root
  sets := by
    intro t present
    obtain ⟨other, present⟩ := mem_erase.1 present
    refine mem_erase.2 ⟨?_, roots.sets t present⟩
    exact ne_of_within top other (roots.within t (.inr present))
  higher := by
    intro t u item inside notRoot
    rw [within_release top (ne_of_item_release laminar mem item)] at inside
    exact roots.higher t u (item_of_release item) inside notRoot
  positive := fun x item => roots.positive x (item_of_release item)
  real := roots.real

/-- **The canonical items of the members are roots again.** -/
theorem Pointers.release {set set' : ℕ → ℕ} {B' : ℕ → Option ℕ}
    (pointers : Pointers L n compress rep depth set B) (roots : Roots L n rep depth)
    (laminar : L.Laminar n m) (mem : s ∈ L.sets) (top : L.parent s = none)
    (members : ∀ v, v ∈ l ↔ L.parent v = some s)
    (redirects : ∀ z, (∃ c ∈ l, Touched L rep compress c z ∧ B' z = some (rep c)) ∨
      ((∀ c ∈ l, ¬ Touched L rep compress c z) ∧ B' z = B z))
    (owners : ∀ z, (∃ c ∈ l, z = rep c ∧ set' z = c) ∨ ((∀ c ∈ l, z ≠ rep c) ∧ set' z = set z)) :
    Pointers (L.release s) n compress rep depth set' (update B' s none) := by
  have item : ∀ {c}, c ∈ l → L.Item n c := fun inside =>
    laminar.item_of_parent ((members _).1 inside)
  have nested : ∀ {c z}, c ∈ l → Touched L rep compress c z → Within L.parent z c :=
    fun inside touched => touched.within roots (item inside)
  have unique : ∀ {c d z}, c ∈ l → d ∈ l → Within L.parent z c → Within L.parent z d → c = d :=
    fun insideC insideD => siblings_eq laminar ((members _).1 insideC) ((members _).1 insideD)
  have notS : ∀ {t}, (L.release s).Item n t → t ≠ s := ne_of_item_release laminar mem
  refine ⟨fun z => ?_, fun t itemT topT => ?_, fun t itemT inner u inside notRoot => ?_,
    fun z p ptr moved => ?_, fun t itemT topT => ?_, fun v real => ?_⟩
  · by_cases here : z = s
    · rw [here, update_self]
      exact iff_of_false (fun none => none rfl) fun itemS => notS itemS rfl
    have eq : (L.release s).Item n z ↔ L.Item n z :=
      or_congr_right (mem_erase.trans (and_iff_right here))
    rw [update_of_ne here, eq]
    rcases redirects z with ⟨c, inside, touched, ptr⟩ | ⟨-, ptr⟩
    · exact iff_of_true (by simp [ptr]) (laminar.item_within (nested inside touched) (item inside))
    · rw [ptr, pointers.exist]
  · have itemT' := item_of_release itemT
    have root := roots.within t itemT'
    rw [update_of_ne (ne_of_within top (notS itemT) root)]
    rcases top_release top members topT (notS itemT) with inside | ⟨topT, apart⟩
    · rcases redirects (rep t) with ⟨c, insideC, touched, ptr⟩ | ⟨untouched, -⟩
      · rw [ptr, unique insideC inside (nested insideC touched) root]
      · exact absurd (.inr (.inl rfl)) (untouched t inside)
    · rcases redirects (rep t) with ⟨c, insideC, touched, -⟩ | ⟨-, ptr⟩
      · exact absurd (nested insideC touched) (apart _ root c insideC)
      · rw [ptr]
        exact pointers.loop t itemT' topT
  · have itemT' := item_of_release itemT
    rw [within_release top (notS itemT)] at inside
    rw [update_of_ne (ne_of_within top (notS itemT) inside)]
    simp only [within_release top (notS itemT)]
    rcases redirects u with ⟨c, insideC, touched, ptr⟩ | ⟨untouched, ptr⟩
    · -- a pointer that is redirected leads to the root of the member
      have isC : t = c := by
        rcases inner with topT | uncompressed
        · rcases top_release top members topT (notS itemT) with insideT | ⟨-, apart⟩
          · exact unique insideT insideC inside (nested insideC touched)
          · exact absurd (nested insideC touched) (apart u inside c insideC)
        rcases inside.comparable (nested insideC touched) with down | up
        · rcases touched with rfl | rfl | ⟨compressed, -⟩
          · exact (siblings_apart_of_member laminar ((members u).1 insideC) down inside)
          · exact absurd (roots.down c t (item insideC) down inside).symm notRoot
          · rw [uncompressed] at compressed
            cases compressed
        · by_contra other
          exact notS itemT ((up.parent_within (Ne.symm other) ((members c).1 insideC)).eq_of_top top)
      subst isC
      exact ⟨rep t, ptr, notRoot.symm, roots.within t itemT'⟩
    · rw [ptr]
      refine pointers.inward t itemT' ?_ u inside notRoot
      rcases inner with topT | uncompressed
      · rcases top_release top members topT (notS itemT) with insideT | ⟨topT, -⟩
        · refine .inr (Bool.eq_false_of_not_eq_true fun compressed => ?_)
          exact untouched t insideT (.inr (.inr ⟨compressed, inside⟩))
        · exact .inl topT
      · exact .inr uncompressed
  · by_cases here : z = s
    · rw [here, update_self] at ptr
      cases ptr
    rw [update_of_ne here] at ptr
    rcases redirects z with ⟨c, inside, touched, ptr'⟩ | ⟨-, ptr'⟩
    · rw [ptr] at ptr'
      cases ptr'
      exact roots.higher c z (item inside) (nested inside touched) moved.symm
    · rw [ptr] at ptr'
      exact pointers.rising z p ptr'.symm moved
  · have itemT' := item_of_release itemT
    have root := roots.within t itemT'
    rcases top_release top members topT (notS itemT) with inside | ⟨topT, apart⟩
    · rcases owners (rep t) with ⟨c, insideC, eq, owner⟩ | ⟨none, -⟩
      · rw [owner]
        exact unique insideC inside (eq ▸ roots.within c (item insideC)) root
      · exact absurd rfl (none t inside)
    · rcases owners (rep t) with ⟨c, insideC, eq, -⟩ | ⟨-, owner⟩
      · exact absurd (eq ▸ roots.within c (item insideC)) (apart _ root c insideC)
      · rw [owner]
        exact pointers.owner t itemT' topT
  · rcases owners v with ⟨c, inside, eq, owner⟩ | ⟨-, owner⟩
    · have isReal : c < n := by
        by_contra high
        have set := roots.sets c ((item inside).resolve_left high)
        rw [← eq] at set
        exact absurd real (not_lt.2 (laminar.low v set).1)
      rw [owner, eq, roots.eq_of_real laminar isReal]
    · rw [owner]
      exact pointers.real v real

theorem Lists.release {first next next' : ℕ → Option ℕ} (lists : Lists L n first next)
    (members : ∀ v, v ∈ l ↔ L.parent v = some s)
    (nexts : ∀ z, next' z = if z ∈ l then none else next z) :
    Lists (L.release s) n first next' where
  members := by
    intro t present
    obtain ⟨other, present⟩ := mem_erase.1 present
    obtain ⟨k, nodup, membersK, head, links⟩ := lists.members t present
    refine ⟨k, nodup, fun v => ?_, head, links.congr fun v inside => ?_⟩
    · rw [membersK]
      exact (dissolve_eq_some.trans (and_iff_left other)).symm
    · rw [nexts, if_neg]
      intro insideS
      have step := (membersK v).1 inside
      rw [(members v).1 insideS] at step
      exact other (Option.some.inj step).symm
  tops := by
    intro x item top
    rw [nexts]
    split_ifs with inside
    · rfl
    · refine lists.tops x (item_of_release item) ?_
      exact (dissolve_eq_none.1 top).resolve_left fun step => inside ((members x).2 step)

end Release

theorem Represents.release (represents : st.Represents L rep) (mem : s ∈ L.sets)
    (top : L.parent s = none) (members : ∀ v, v ∈ l ↔ L.parent v = some s)
    (released : Released L rep l st st') :
    Represents { st' with B := update st'.B s none } (L.release s) rep := by
  obtain ⟨laminar, roots, pointers, lists, canonical⟩ := represents
  refine ⟨?_, ?_, ?_, ?_, fun t present => ?_⟩
  · rw [released.n, released.m]
    exact laminar_release laminar top
  · rw [released.n, released.depth]
    exact roots.release laminar mem top
  · rw [released.n, released.compress, released.depth]
    exact pointers.release roots laminar mem top members released.pointers released.owners
  · rw [released.n, released.first]
    exact lists.release members released.next
  · obtain ⟨other, present⟩ := mem_erase.1 present
    rw [released.n, released.canonical, canonical t present]
    exact if_congr (by simp [Nesting.release, other]) rfl rfl

theorem split_spec (represents : st.Represents L rep) (fixed : s ∈ L.fixed)
    (top : L.parent s = none) :
    ∃ st', split s st = .ok () st' ∧ st'.Represents (L.release s) rep ∧ st'.n = st.n ∧
      st'.m = st.m := by
  have mem := represents.laminar.fixed fixed
  have low := represents.laminar.low s mem
  have present := (represents.pointers.exist s).2 (.inr mem)
  obtain ⟨B, found, after⟩ := findRoot_spec represents (.inr mem) (.self top)
  obtain ⟨l, nodup, members, first, links⟩ := after.lists.members s mem
  obtain ⟨v, step⟩ := represents.laminar.filled s fixed
  have ne : st.first (s - st.n) ≠ none := by
    dsimp only at first
    rw [first, ne_eq, head?_eq_none_iff]
    rintro rfl
    exact absurd ((members v).2 step) (by simp)
  have owner := after.pointers.owner s (.inr mem) top
  have canonical : st.canonical (s - st.n) ≠ none := by
    rw [represents.canonical s mem, if_pos fixed]
    simp
  have releasing : Releasing L rep { st with B := B } := by
    refine ⟨after.laminar, after.roots, fun t present _ => after.lists.members t present,
      fun t fixedT => ?_, after.pointers.real⟩
    exact (after.canonical t (after.laminar.fixed fixedT)).trans (if_pos fixedT)
  have short := represents.laminar.length_children_lt nodup members
  obtain ⟨st', res, released⟩ := splitFrom_spec s (st.n + st.m + 1) { st with B := B } none l
    releasing top nodup (fun c _ => by simp) (fun c => (members c).1) links short
  rw [or_none, ← first] at res
  refine ⟨_, ?_, after.release mem top members released, released.n, released.m⟩
  have isSet : ¬ (st.n + st.m ≤ s ∨ s < st.n ∨ st.B s = none) := by
    rintro (high | real | absent)
    · omega
    · omega
    · exact present absent
  rw [split, run_bind_get, if_neg isSet, if_neg ne, run_bind_ok found, run_bind_get]
  dsimp only at owner res ⊢
  rw [if_neg (not_not.2 owner), if_neg canonical, run_bind_ok res]
  rfl

/-! ## Runs -/

/-- The calls of a nested family. -/
inductive NestedOp where
  | makeSet
  | merge (s v : ℕ)
  | fixSet (s : ℕ)
  | split (s : ℕ)
  | set (x : ℕ)
  | top (x : ℕ)
  | first (s : ℕ)
  | next (x : ℕ)

/-- A call whose result is not used. -/
def run : NestedOp → NestedM Unit
  | .makeSet => discard makeSet
  | .merge s v => merge s v
  | .fixSet s => fixSet s
  | .split s => split s
  | .set x => discard (outerSet x)
  | .top x => discard (top x)
  | .first s => discard (firstOf s)
  | .next x => discard (nextOf x)

/-- A call that the checks admit and that names no set that does not exist, with the sets after
it. -/
inductive Admits (n m : ℕ) (L : Nesting) : NestedOp → Nesting → Prop
  | makeSet {s : ℕ} (free : L.fresh n m = some s) : Admits n m L .makeSet (L.make s)
  | merge {s v : ℕ} (member : s ∈ L.sets) (isOpen : s ∉ L.fixed) (top : L.parent v = none)
      (ready : v < n ∨ v ∈ L.fixed) : Admits n m L (.merge s v) (L.put s v)
  | fixSet {s v : ℕ} (member : s ∈ L.sets) (isOpen : s ∉ L.fixed) (inner : L.parent v = some s) :
      Admits n m L (.fixSet s) (L.fix s)
  | split {s : ℕ} (fixed : s ∈ L.fixed) (top : L.parent s = none) :
      Admits n m L (.split s) (L.release s)
  | set {x : ℕ} (item : L.Item n x) : Admits n m L (.set x) L
  | top {x : ℕ} (item : L.Item n x) : Admits n m L (.top x) L
  | first {s : ℕ} (member : s ∈ L.sets) : Admits n m L (.first s) L
  | next {x s : ℕ} (inner : L.parent x = some s) : Admits n m L (.next x) L

/-- Runs of such calls, after the construction. -/
inductive Runs (n m : ℕ) : List NestedOp → Nesting → Prop
  | start : Runs n m [] .initial
  | call {ops : List NestedOp} {op : NestedOp} {L L' : Nesting} (before : Runs n m ops L)
      (admits : Admits n m L op L') : Runs n m (ops ++ [op]) L'

variable {ops : List NestedOp} {start : NestedFamily} {L' : Nesting} {op : NestedOp}

/-- The calls of a run, after the construction. -/
def runAll (ops : List NestedOp) : NestedM Unit := do
  init
  ops.forM run

/-- The arrays represent the sets after the calls. -/
structure Reaches (start : NestedFamily) (ops : List NestedOp) (L : Nesting) (st : NestedFamily) :
    Prop where
  result : runAll ops start = .ok () st
  represents : ∃ rep, st.Represents L rep
  n : st.n = start.n
  m : st.m = start.m

theorem Reaches.call (reaches : Reaches start ops L st) (step : run op st = .ok () st')
    (represents : ∃ rep, st'.Represents L' rep) (n : st'.n = st.n) (m : st'.m = st.m) :
    Reaches start (ops ++ [op]) L' st' := by
  obtain ⟨before, -, n', m'⟩ := reaches
  refine ⟨?_, represents, n.trans n', m.trans m'⟩
  obtain ⟨a, st1, first, rest⟩ := of_run_bind before
  rw [runAll, run_bind_ok first, run_forM_append rest]
  change (run op >>= fun _ => pure () : NestedM Unit) st = _
  rw [run_bind_ok step]
  rfl

theorem Represents.call (represents : st.Represents L rep) (admits : Admits st.n st.m L op L') :
    ∃ st' rep', run op st = .ok () st' ∧ st'.Represents L' rep' ∧ st'.n = st.n ∧ st'.m = st.m := by
  cases admits with
  | makeSet free =>
    obtain ⟨st', res, after, n, m⟩ := makeSet_spec represents free
    exact ⟨st', _, run_discard_ok res, after, n, m⟩
  | merge mem isOpen top ready =>
    obtain ⟨st', rep', res, after, n, m⟩ :=
      merge_spec represents ⟨mem, isOpen, top, ready⟩
    exact ⟨st', rep', res, after, n, m⟩
  | fixSet mem isOpen inner =>
    obtain ⟨st', res, after, n, m⟩ := fixSet_spec represents mem isOpen inner
    exact ⟨st', rep, res, after, n, m⟩
  | split fixed top =>
    obtain ⟨st', res, after, n, m⟩ := split_spec represents fixed top
    exact ⟨st', rep, res, after, n, m⟩
  | @set x item =>
    obtain ⟨t, outer⟩ := represents.laminar.grounded x
    obtain ⟨B, res, after⟩ := outerSet_spec represents item outer
    exact ⟨_, rep, run_discard_ok res, after, rfl, rfl⟩
  | top item =>
    exact ⟨st, rep, run_discard_ok (top_spec represents item), represents, rfl, rfl⟩
  | first mem =>
    exact ⟨st, rep, run_discard_ok (firstOf_spec represents mem), represents, rfl, rfl⟩
  | next inner =>
    exact ⟨st, rep, run_discard_ok (nextOf_spec represents inner), represents, rfl, rfl⟩

theorem Reaches.step {start : NestedFamily} {L' : Nesting} {op : NestedOp}
    (reached : ∃ st, Reaches start ops L st) (admits : Admits start.n start.m L op L') :
    ∃ st, Reaches start (ops ++ [op]) L' st := by
  obtain ⟨st, reaches⟩ := reached
  obtain ⟨rep, represents⟩ := reaches.represents
  rw [← reaches.n, ← reaches.m] at admits
  obtain ⟨st', rep', res, after, n, m⟩ := represents.call admits
  exact ⟨st', reaches.call res ⟨rep', after⟩ n m⟩

theorem Runs.reaches (runs : Runs start.n start.m ops L) : ∃ st, Reaches start ops L st := by
  induction runs with
  | start =>
    obtain ⟨st, res, rep, n, m, -⟩ := init_spec start
    refine ⟨st, ?_, ⟨id, rep⟩, n, m⟩
    rw [runAll, run_bind_ok res]
    rfl
  | call _ admits ih => exact Reaches.step ih admits

/-- The successors of the members, in order; the last one is its own successor. -/
theorem links_get (links : Links r l l.getLast?) (i : ℕ)
    (low : i < l.length) : r (l.get ⟨i, low⟩) = some (l.getD (i + 1) (l.get ⟨i, low⟩)) := by
  induction l generalizing i with
  | nil => cases low
  | cons c l ih =>
    obtain ⟨next, links⟩ := links_tail links
    cases i with
    | zero =>
      change r c = _
      rw [next]
      cases l <;> rfl
    | succ i =>
      have low' : i < l.length := by simpa using low
      have := ih links i low'
      simpa using this

/-- **A nested family is a laminar family of sets.** After any run, `Set` returns the outermost set
that contains an item, `Top` tells whether it is in no set, `First` and `Next` enumerate the members
of a set, and `MakeSet` returns the first index that is not in use. -/
theorem nestedFamily_refines (start : NestedFamily) (runs : Runs start.n start.m ops L) :
    ∃ st, runAll ops start = .ok () st ∧
      (∀ x, L.Item start.n x → ∃ t st', outerSet x st = .ok (some t) st' ∧
        ∀ t', Outermost L.parent x t' ↔ t' = t) ∧
      (∀ x, L.Item start.n x → top x st = .ok (decide (L.parent x = none)) st) ∧
      (∀ s ∈ L.sets, ∃ l : List ℕ, l.Nodup ∧ (∀ v, v ∈ l ↔ L.parent v = some s) ∧
        firstOf s st = .ok l.head? st ∧ ∀ (i : ℕ) (low : i < l.length),
          nextOf (l.get ⟨i, low⟩) st = .ok (some (l.getD (i + 1) (l.get ⟨i, low⟩))) st) ∧
      ∀ s, L.fresh start.n start.m = some s → ∃ st', makeSet st = .ok s st' := by
  obtain ⟨st, result, ⟨rep, represents⟩, n, m⟩ := runs.reaches
  refine ⟨st, result, fun x item => ?_, fun x item => ?_, fun s member => ?_, fun s free => ?_⟩
  · rw [← n] at item
    obtain ⟨t, outer⟩ := represents.laminar.grounded x
    obtain ⟨B, found, -⟩ := outerSet_spec represents item outer
    exact ⟨t, _, found, fun t' => ⟨fun outer' => outer'.unique outer, fun same => same ▸ outer⟩⟩
  · rw [← n] at item
    exact top_spec represents item
  · obtain ⟨l, nodup, members, first, links⟩ := represents.lists.members s member
    refine ⟨l, nodup, members, ?_, fun i low => ?_⟩
    · rw [firstOf_spec represents member, first]
    · rw [nextOf_spec represents ((members _).1 (l.get_mem _)), links_get links i low]
  · rw [← n, ← m] at free
    obtain ⟨st', made, -⟩ := makeSet_spec represents free
    exact ⟨st', made⟩

/-- A family of two items and up to two sets, before the construction. -/
def blank (compress : Bool) : NestedFamily :=
  ⟨2, 2, compress, fun _ => none, fun _ => 0, fun _ => 0, fun _ => none, fun _ => none, fun _ => none⟩

/-- A set is put into another one, which is split. Its index is used again, with compression. -/
theorem nestedFamily_refines_reuse :
    ∃ st st' st'', runAll [.makeSet, .merge 2 0, .fixSet 2, .makeSet, .merge 3 2, .merge 3 1,
        .fixSet 3, .set 0, .split 3, .makeSet] (blank true) = .ok () st ∧
      outerSet 0 st = .ok (some 2) st' ∧ outerSet 1 st = .ok (some 1) st'' ∧
      firstOf 3 st = .ok none st := by
  have first : Runs 2 2 [.makeSet] _ := .call .start (.makeSet (s := 2) (by decide))
  have second : Runs 2 2 [.makeSet, .merge 2 0] _ :=
    .call first (.merge (by decide) (by decide) (by decide) (by decide))
  have third : Runs 2 2 [.makeSet, .merge 2 0, .fixSet 2] _ :=
    .call second (.fixSet (v := 0) (by decide) (by decide) (by decide))
  have fourth : Runs 2 2 [.makeSet, .merge 2 0, .fixSet 2, .makeSet] _ :=
    .call third (.makeSet (s := 3) (by decide))
  have fifth : Runs 2 2 [.makeSet, .merge 2 0, .fixSet 2, .makeSet, .merge 3 2] _ :=
    .call fourth (.merge (by decide) (by decide) (by decide) (by decide))
  have sixth : Runs 2 2 [.makeSet, .merge 2 0, .fixSet 2, .makeSet, .merge 3 2, .merge 3 1] _ :=
    .call fifth (.merge (by decide) (by decide) (by decide) (by decide))
  have seventh : Runs 2 2 [.makeSet, .merge 2 0, .fixSet 2, .makeSet, .merge 3 2, .merge 3 1,
      .fixSet 3] _ := .call sixth (.fixSet (v := 1) (by decide) (by decide) (by decide))
  have eighth : Runs 2 2 [.makeSet, .merge 2 0, .fixSet 2, .makeSet, .merge 3 2, .merge 3 1,
      .fixSet 3, .set 0] _ := .call seventh (.set (.inl (by decide)))
  have ninth : Runs 2 2 [.makeSet, .merge 2 0, .fixSet 2, .makeSet, .merge 3 2, .merge 3 1,
      .fixSet 3, .set 0, .split 3] _ := .call eighth (.split (by decide) (by decide))
  obtain ⟨st, result, sets, -, lists, -⟩ := nestedFamily_refines (blank true)
    (.call ninth (.makeSet (s := 3) (by decide)))
  obtain ⟨t, st', found, outer⟩ := sets 0 (.inl (by decide))
  obtain ⟨t', st'', found', outer'⟩ := sets 1 (.inl (by decide))
  obtain ⟨l, -, members, head, -⟩ := lists 3 (by decide)
  refine ⟨st, st', st'', result, ?_, ?_, ?_⟩
  · rw [found, (outer 2).1 ⟨.single (by decide), by decide⟩]
  · rw [found', (outer' 1).1 (.self (by decide))]
  · have empty : l = [] := eq_nil_iff_forall_not_mem.2 fun v inside => by
      have step := (members v).1 inside
      rcases dissolve_eq_some.1 step with ⟨-, other⟩
      exact other rfl
    rw [head, empty]
    rfl

/-- The canonical item of a set that has been split is still there. So the checks of `Merge` admit
the set as a member, but `Find` has no root for it. -/
theorem merge_split_fault : ∃ st st',
    runAll [.makeSet, .merge 2 0, .fixSet 2, .makeSet, .split 2] (blank true) = .ok () st ∧
      st.canonical 1 = none ∧ st.canonical 0 = some 2 ∧ top 2 st = .ok true st ∧
      find 2 st = .ok none st ∧ merge 3 2 st = .error .fault st' := by
  exact ⟨_, _, rfl, rfl, rfl, rfl, rfl, rfl⟩

end NestedFamily

end Goblin
