import Goblin.Augment
import Goblin.Library.ChainedTable
import Goblin.Library.MapRequests

/-!
# Hash tables

A `goblinHashTable` maps the indices below `range` to keys and stores only the entries that
differ from `defaultKey`. An entry occupies a slot of the arrays `index`, `key` and `next`; the
slots of a bucket, and the free slots, are chained by `next`. The end of a chain is marked by
`UNDEFINED`, which equals the number `nHash` of buckets and hence changes whenever the table is
rescaled.

When there is no free slot, `ChangeKey` doubles the arrays and calls itself for all entries of the
former table.
-/

set_option autoImplicit false

namespace Goblin

open Library List Function

variable {w x : ℕ} {l : List ℕ} {done : ℕ → Prop}

/-- A `goblinHashTable`. -/
structure HashTable (K : Type) where
  range : ℕ
  nMax : ℕ
  nHash : ℕ
  undefined : ℕ
  first : ℕ → ℕ
  next : ℕ → ℕ
  index : ℕ → ℕ
  key : ℕ → K
  defaultKey : K
  free : ℕ
  nz : ℕ

namespace HashTable

variable {K : Type}

def init (t : HashTable K) : HashTable K :=
  { t with
    first := fun _ => t.undefined
    next := fun v => if v + 1 = t.nMax then t.undefined else v + 1
    free := 0
    nz := 0 }

/-- The constructor. The arrays `index` and `key` are not initialised. -/
def new (rr nn : ℕ) (alpha : K) (index : ℕ → ℕ) (key : ℕ → K) : HashTable K :=
  init
    { range := rr
      nMax := nn
      nHash := 2 * nn
      undefined := 2 * nn
      first := fun _ => 0
      next := fun _ => 0
      index := index
      key := key
      defaultKey := alpha
      free := 0
      nz := 0 }

variable (t : HashTable K)

/-- The search for the entry of `w`: its slot and the slot before it. -/
def search (w : ℕ) : Except Raise (ℕ × ℕ) :=
  chainSearch .fuel t.next t.undefined (fun x => t.index x == w) (t.nMax + 1) t.undefined
    (t.first (w % t.nHash))

/-- The method `Key`. -/
def keyOf (w : ℕ) : Except Raise K :=
  if t.range ≤ w then .error (.range "Key" "No such item")
  else do
    let (_, x) ← t.search w
    return if x = t.undefined then t.defaultKey else t.key x

/-- Take the slot `x` out of the bucket `w0`, where it follows the slot `y`. -/
def unlink (w0 y x : ℕ) : HashTable K :=
  { t with
    first := if y = t.undefined then update t.first w0 (t.next x) else t.first
    next := update
      (if y = t.undefined then t.next else update t.next y (t.next x)) x t.free
    free := x }

/-- Use a free slot for a new entry of the bucket `w0`. -/
def link (w0 w : ℕ) (alpha : K) : HashTable K :=
  { t with
    free := t.next t.free
    index := update t.index t.free w
    key := update t.key t.free alpha
    first := update t.first w0 t.free
    next := update t.next t.free (t.first w0)
    nz := t.nz + 1 }

/-- The inner loop of the rescaling: enter the saved entries from slot `y` on into the new
table. -/
def reinsert (enter : HashTable K → ℕ → K → Except Raise (HashTable K)) :
    ℕ → ℕ → HashTable K → Except Raise (HashTable K)
  | 0, _, _ => .error .fuel
  | fuel + 1, y, t' =>
    if y ≠ t.undefined then do
      let t' ← enter t' (t.index y) (t.key y)
      reinsert enter fuel (t.next y) t'
    else .ok t'

/-- A table with twice as many slots and without entries. The contents of its arrays `index`
and `key` do not matter. -/
def doubled : HashTable K :=
  init
    { t with
      nMax := 2 * t.nMax
      nHash := 2 * t.nHash
      undefined := 2 * t.nHash }

/-- The rescaling of the table. The outer loop ends at the new value of `nMax`, which is the
old number of buckets. -/
def rescale (enter : HashTable K → ℕ → K → Except Raise (HashTable K)) :
    Except Raise (HashTable K) :=
  (List.range t.doubled.nMax).foldlM
    (fun t' x => t.reinsert enter (t.nMax + 1) (t.first x) t') t.doubled

section ChangeKey

variable [DecidableEq K]

/-- The body of `ChangeKey`, where `enter` is the recursive call. -/
def changeKeyBody (enter : HashTable K → ℕ → K → Except Raise (HashTable K)) (w : ℕ) (alpha : K) :
    Except Raise (HashTable K) :=
  if t.range ≤ w then .error (.range "ChangeKey" "No such item")
  else do
    let k ← t.keyOf w
    if k = alpha then return t
    else
      let (y, x) ← t.search w
      if alpha = t.defaultKey then
        let t := if x ≠ t.undefined then t.unlink (w % t.nHash) y x else t
        return { t with nz := t.nz - 1 }
      else if x ≠ t.undefined then
        return { t with key := update t.key x alpha }
      else
        let t ← (if t.free = t.undefined then t.rescale enter else .ok t)
        return t.link (w % t.nHash) w alpha

/-- `ChangeKey`, with a bound on the depth of the recursion. -/
def changeKeyDepth : ℕ → HashTable K → ℕ → K → Except Raise (HashTable K)
  | 0, _, _, _ => .error .fuel
  | depth + 1, t, w, alpha => t.changeKeyBody (changeKeyDepth depth) w alpha

def changeKey (w : ℕ) (alpha : K) : Except Raise (HashTable K) := changeKeyDepth 2 t w alpha

end ChangeKey

/-! ## Entries -/

/-- The table represents the map `m`; `place` is the distribution of the slots. -/
structure Holds (t : HashTable K) (m : ℕ → K) (place : ℕ → Option ℕ) : Prop where
  pos : 0 < t.nMax
  nHash_eq : t.nHash = 2 * t.nMax
  undefined_eq : t.undefined = t.nHash
  entries : Entries t.first t.next t.undefined t.free t.nHash t.nMax t.index t.key (· % t.nHash)
    t.defaultKey m place
  inRange : ∀ w, m w ≠ t.defaultKey → w < t.range
  nz_eq : t.nz = (usedSlots place t.nMax).card

variable {t} {m : ℕ → K} {place : ℕ → Option ℕ} {alpha : K} {t' : HashTable K}

section

variable (holds : t.Holds m place)
include holds

theorem Holds.bucket_lt (w : ℕ) : w % t.nHash < t.nHash := by
  apply Nat.mod_lt
  have := holds.pos
  have := holds.nHash_eq
  omega

/-- `NZ` is the number of indices whose value is not the default. -/
theorem Holds.nz_ncard : t.nz = {w | m w ≠ t.defaultKey}.ncard := by
  rw [holds.nz_eq, holds.entries.ncard.2]

theorem Holds.search (w : ℕ) :
    ∃ y x l, t.search w = .ok (y, x) ∧ Chain t.next t.undefined (t.first (w % t.nHash)) l ∧
      (∀ x, x ∈ l ↔ x < t.nMax ∧ place x = some (w % t.nHash)) ∧
      SearchSpec t.undefined (fun x => t.index x == w) t.undefined l y x ∧
      ((x = t.undefined ∧ m w = t.defaultKey) ∨
        (x ≠ t.undefined ∧ x < t.nMax ∧ place x = some (w % t.nHash) ∧ t.index x = w ∧
          m w = t.key x ∧ m w ≠ t.defaultKey)) :=
  holds.entries.search Raise.fuel (fun x => t.index x == w) (holds.bucket_lt w) fun x _ _ => by simp

theorem keyOf_spec (low : w < t.range) : t.keyOf w = .ok (m w) := by
  obtain ⟨y, x, l, res, -, -, -, cases⟩ := holds.search w
  have legal : ¬ t.range ≤ w := by omega
  simp only [keyOf, if_neg legal, res]
  change Except.ok (if x = t.undefined then t.defaultKey else t.key x) = _
  rcases cases with ⟨last, default⟩ | ⟨inside, -, -, -, val, -⟩
  · rw [if_pos last, default]
  · rw [if_neg inside, val]

end

/-! ## Removal, replacement and insertion -/

section

variable (holds : t.Holds m place)
include holds

theorem unlink_holds {y : ℕ}
    (chain : Chain t.next t.undefined (t.first (w % t.nHash)) l)
    (mem : ∀ x, x ∈ l ↔ x < t.nMax ∧ place x = some (w % t.nHash))
    (spec : SearchSpec t.undefined (fun x => t.index x == w) t.undefined l y x)
    (inside : x ≠ t.undefined) (lowX : x < t.nMax) (placed : place x = some (w % t.nHash))
    (index : t.index x = w) :
    Holds { t.unlink (w % t.nHash) y x with nz := (t.unlink (w % t.nHash) y x).nz - 1 }
      (update m w t.defaultKey) (update place x none) := by
  constructor
  case pos => exact holds.pos
  case nHash_eq => exact holds.nHash_eq
  case undefined_eq => exact holds.undefined_eq
  case entries =>
    exact holds.entries.release (holds.bucket_lt w) chain mem spec inside lowX placed index
  case inRange =>
    intro v nonzero
    have ne : v ≠ w := fun eq => by simp [eq, unlink] at nonzero
    rw [update_of_ne ne] at nonzero
    exact holds.inRange v nonzero
  case nz_eq =>
    have count := card_usedSlots_release lowX (by simp [placed] : place x ≠ none)
    change t.nz - 1 = _
    rw [holds.nz_eq, ← count]
    rfl

theorem Holds.inRange_update (low : w < t.range) :
    ∀ v, update m w alpha v ≠ t.defaultKey → v < t.range := by
  intro v nonzero
  by_cases here : v = w
  · exact here ▸ low
  · rw [update_of_ne here] at nonzero
    exact holds.inRange v nonzero

theorem replace_holds (low : w < t.range) (lowX : x < t.nMax)
    (placed : place x = some (w % t.nHash)) (index : t.index x = w)
    (nonzero : alpha ≠ t.defaultKey) :
    Holds { t with key := update t.key x alpha } (update m w alpha) place :=
  { holds with
    entries := holds.entries.replace lowX placed index nonzero
    inRange := holds.inRange_update low }

theorem link_holds (low : w < t.range) (absent : m w = t.defaultKey)
    (nonzero : alpha ≠ t.defaultKey) (room : t.free ≠ t.undefined) :
    Holds (t.link (w % t.nHash) w alpha) (update m w alpha)
      (update place t.free (some (w % t.nHash))) := by
  obtain ⟨lowFree, unused, entries⟩ := holds.entries.take
    (update t.index t.free w) (holds.bucket_lt w) absent nonzero room
    (update_self _ _ _) fun z ne _ _ => update_of_ne ne _ _
  constructor
  case pos => exact holds.pos
  case nHash_eq => exact holds.nHash_eq
  case undefined_eq => exact holds.undefined_eq
  case entries => exact entries
  case inRange => exact holds.inRange_update low
  case nz_eq =>
    have count := card_usedSlots_take (b := w % t.nHash) lowFree unused
    change t.nz + 1 = _
    rw [holds.nz_eq, ← count]
    rfl

end

/-! ## Changes of keys -/

variable [DecidableEq K]

/-- `ChangeKey`, but for the case that the table has to be rescaled. What is left then is the
insertion of a new entry. -/
theorem changeKeyBody_cases (holds : t.Holds m place)
    (enter : HashTable K → ℕ → K → Except Raise (HashTable K)) (alpha : K) (low : w < t.range) :
    (∃ t' place', t.changeKeyBody enter w alpha = .ok t' ∧ t'.range = t.range ∧
      t'.defaultKey = t.defaultKey ∧ t'.nMax = t.nMax ∧ t'.Holds (update m w alpha) place') ∨
      (m w = t.defaultKey ∧ alpha ≠ t.defaultKey ∧ t.free = t.undefined ∧
        t.changeKeyBody enter w alpha = do
          let t' ← t.rescale enter
          return t'.link (w % t'.nHash) w alpha) := by
  obtain ⟨y, x, l, res, chain, mem, spec, cases⟩ := holds.search w
  have legal : ¬ t.range ≤ w := by omega
  by_cases eq : m w = alpha
  · refine .inl ⟨t, place, ?_, rfl, rfl, rfl, ?_⟩
    · simp only [changeKeyBody, if_neg legal, keyOf_spec holds low]
      exact if_pos eq
    · rw [← eq, update_eq_self]
      exact holds
  have start : t.changeKeyBody enter w alpha =
      if alpha = t.defaultKey then
        .ok { (if x ≠ t.undefined then t.unlink (w % t.nHash) y x else t) with
          nz := (if x ≠ t.undefined then t.unlink (w % t.nHash) y x else t).nz - 1 }
      else if x ≠ t.undefined then .ok { t with key := update t.key x alpha }
      else do
        let t' ← (if t.free = t.undefined then t.rescale enter else .ok t)
        return t'.link (w % t'.nHash) w alpha := by
    simp only [changeKeyBody, if_neg legal, keyOf_spec holds low, res]
    exact if_neg eq
  rw [start]
  rcases cases with ⟨last, absent⟩ | ⟨inside, lowX, placed, index, val, nonzero⟩
  · have nonzero : alpha ≠ t.defaultKey := fun default => eq (absent.trans default.symm)
    have notFound : ¬ x ≠ t.undefined := not_not.2 last
    rw [if_neg nonzero, if_neg notFound]
    split_ifs with full
    · exact .inr ⟨absent, nonzero, full, rfl⟩
    · exact .inl ⟨_, _, rfl, rfl, rfl, rfl, link_holds holds low absent nonzero full⟩
  · by_cases default : alpha = t.defaultKey
    · rw [if_pos default, if_pos inside, default]
      exact .inl ⟨_, _, rfl, rfl, rfl, rfl,
        unlink_holds holds chain mem spec inside lowX placed index⟩
    · rw [if_neg default, if_pos inside]
      exact .inl ⟨_, _, rfl, rfl, rfl, rfl, replace_holds holds low lowX placed index
        default⟩

/-! ## Rescaling -/

omit [DecidableEq K] in
theorem init_holds {t : HashTable K} (pos : 0 < t.nMax) (nHash_eq : t.nHash = 2 * t.nMax)
    (undefined_eq : t.undefined = t.nHash) :
    t.init.Holds (fun _ => t.defaultKey) fun _ => none where
  pos := pos
  nHash_eq := nHash_eq
  undefined_eq := undefined_eq
  entries := Entries.init t.undefined t.nHash (by omega) pos t.index t.key _ t.defaultKey
  inRange _ nonzero := absurd rfl nonzero
  nz_eq := by simp [init, usedSlots]

/-- The state of the rescaling: the new table has the entries of some slots of the old one,
among them those of `done`. -/
structure Copied (t : HashTable K) (m : ℕ → K) (t' : HashTable K) (done : ℕ → Prop) : Prop where
  range_eq : t'.range = t.range
  default_eq : t'.defaultKey = t.defaultKey
  nMax_eq : t'.nMax = 2 * t.nMax
  holds : ∃ m' place', t'.Holds m' place' ∧
    (∀ w, m' w = m w ∨ m' w = t.defaultKey) ∧
    ∀ x, done x → m' (t.index x) = m (t.index x)

omit [DecidableEq K] in
theorem Copied.mono {done' : ℕ → Prop} (copied : Copied t m t' done)
    (less : ∀ x, done' x → done x) : Copied t m t' done' := by
  obtain ⟨range_eq, default_eq, nMax_eq, m', place', holds', partly, finished⟩ := copied
  exact ⟨range_eq, default_eq, nMax_eq, m', place', holds', partly,
    fun x copiedX => finished x (less x copiedX)⟩

omit [DecidableEq K] in
theorem Copied.room {m' : ℕ → K} {place' : ℕ → Option ℕ} (holds : t.Holds m place)
    (holds' : t'.Holds m' place') (default_eq : t'.defaultKey = t.defaultKey)
    (nMax_eq : t'.nMax = 2 * t.nMax)
    (copied : ∀ w, m' w = m w ∨ m' w = t.defaultKey) : t'.free ≠ t'.undefined := by
  apply holds'.entries.slots.free_ne
  have fewer : {w | m' w ≠ t'.defaultKey}.ncard ≤ {w | m w ≠ t.defaultKey}.ncard := by
    refine Set.ncard_le_ncard (fun w nonzero default => ?_) holds.entries.ncard.1
    rcases copied w with eq | eq
    · exact nonzero (by rw [eq, default, default_eq])
    · exact nonzero (by rw [eq, default_eq])
  rw [holds'.entries.ncard.2, holds.entries.ncard.2] at fewer
  have bound := card_usedSlots_le place t.nMax
  have := holds.pos
  omega

theorem Copied.enter (holds : t.Holds m place) (copied : Copied t m t' done) (depth : ℕ) {b : ℕ}
    (low : x < t.nMax) (placed : place x = some b) :
    ∃ t'', changeKeyDepth (depth + 1) t' (t.index x) (t.key x) = .ok t'' ∧
      Copied t m t'' fun z => z = x ∨ done z := by
  obtain ⟨range_eq, default_eq, nMax_eq, m', place', holds', partly, finished⟩ := copied
  obtain ⟨-, val, nonzero⟩ := holds.entries.stored x b low placed
  have inRange : t.index x < t.range := holds.inRange _ (val.symm ▸ nonzero)
  rcases changeKeyBody_cases holds' (changeKeyDepth depth) (t.key x) (range_eq.symm ▸ inRange)
    with ⟨t'', place'', res, range_eq', default_eq', nMax_eq', holds''⟩ | ⟨-, -, full, -⟩
  · refine ⟨t'', res, range_eq'.trans range_eq, default_eq'.trans default_eq,
      nMax_eq'.trans nMax_eq, _, place'', holds'', fun w => ?_, fun z finishedZ => ?_⟩
    · by_cases here : w = t.index x
      · rw [here, update_self]
        exact .inl val.symm
      · rw [update_of_ne here]
        exact partly w
    · by_cases here : t.index z = t.index x
      · rw [here, update_self]
        exact val.symm
      · rw [update_of_ne here]
        exact finished z (finishedZ.resolve_left fun eq => here (congrArg t.index eq))
  · exact absurd full (Copied.room holds holds' default_eq nMax_eq partly)

theorem reinsert_spec (holds : t.Holds m place) (depth : ℕ) (fuel : ℕ) :
    ∀ (y : ℕ) (t' : HashTable K) (done : ℕ → Prop), Chain t.next t.undefined y l →
      (∀ x ∈ l, x < t.nMax ∧ place x ≠ none) → l.length < fuel → Copied t m t' done →
      ∃ t'', t.reinsert (changeKeyDepth (depth + 1)) fuel y t' = .ok t'' ∧
        Copied t m t'' fun x => x ∈ l ∨ done x := by
  induction l generalizing fuel with
  | nil =>
    intro y t' done chain _ enough copied
    obtain ⟨fuel, rfl⟩ : ∃ f, fuel = f + 1 := ⟨fuel - 1, by simp at enough; omega⟩
    have stop : ¬ y ≠ t.undefined := not_not.2 chain
    refine ⟨t', by rw [reinsert, if_neg stop], ?_⟩
    simpa using copied
  | cons x l ih =>
    intro y t' done chain used enough copied
    obtain ⟨fuel, rfl⟩ : ∃ f, fuel = f + 1 := ⟨fuel - 1, by simp at enough; omega⟩
    obtain ⟨rfl, inside, rest⟩ := chain
    obtain ⟨low, present⟩ := used y mem_cons_self
    obtain ⟨b, placed⟩ := Option.ne_none_iff_exists'.1 present
    obtain ⟨t1, res1, copied1⟩ := copied.enter holds depth low placed
    obtain ⟨t'', res, copied''⟩ := ih fuel (t.next y) t1 _ rest
      (fun z mem => used z (mem_cons_of_mem y mem)) (by simpa using enough) copied1
    refine ⟨t'', ?_, ?_⟩
    · rw [reinsert, if_pos inside, res1]
      exact res
    · refine copied''.mono fun z copiedZ => ?_
      rcases copiedZ with mem | before
      · rcases mem_cons.1 mem with here | later
        · exact .inr (.inl here)
        · exact .inl later
      · exact .inr (.inr before)

/-- The rescaled table represents the same map and has a free slot. -/
theorem rescale_spec (holds : t.Holds m place) (depth : ℕ) :
    ∃ t' place', t.rescale (changeKeyDepth (depth + 1)) = .ok t' ∧ t'.range = t.range ∧
      t'.defaultKey = t.defaultKey ∧ t'.nMax = 2 * t.nMax ∧ t'.Holds m place' ∧
      t'.free ≠ t'.undefined := by
  have nHash_eq := holds.nHash_eq
  have start : Copied t m t.doubled fun _ => False := by
    refine ⟨rfl, rfl, rfl, fun _ => t.defaultKey, fun _ => none, ?_, fun w => .inr rfl,
      fun x impossible => absurd impossible id⟩
    refine init_holds (t := { t with
      nMax := 2 * t.nMax
      nHash := 2 * t.nHash
      undefined := 2 * t.nHash }) ?_ ?_ rfl
    · have := holds.pos
      change 0 < 2 * t.nMax
      omega
    · change 2 * t.nHash = 2 * (2 * t.nMax)
      omega
  have loop : ∀ (buckets : List ℕ) (t' : HashTable K) (done : ℕ → Prop),
      (∀ b ∈ buckets, b < t.nHash) → Copied t m t' done →
      ∃ t'', buckets.foldlM
          (fun t' x => t.reinsert (changeKeyDepth (depth + 1)) (t.nMax + 1) (t.first x) t') t' =
          .ok t'' ∧
        Copied t m t'' fun x => (x < t.nMax ∧ ∃ b ∈ buckets, place x = some b) ∨ done x := by
    intro buckets
    induction buckets with
    | nil =>
      intro t' done _ copied
      exact ⟨t', rfl, by simpa using copied⟩
    | cons b buckets ih =>
      intro t' done inside copied
      obtain ⟨l, chain, mem⟩ := holds.entries.slots.bucket_chain b (inside b mem_cons_self)
      obtain ⟨t1, res1, copied1⟩ := reinsert_spec holds depth (t.nMax + 1) (t.first b) t' done
        chain (fun x member => ⟨((mem x).1 member).1, by simp [((mem x).1 member).2]⟩)
        (Nat.lt_succ_of_le (Slots.length_le chain mem)) copied
      obtain ⟨t'', res, copied''⟩ := ih t1 _
        (fun c member => inside c (mem_cons_of_mem b member)) copied1
      refine ⟨t'', ?_, ?_⟩
      · rw [foldlM_cons, res1]
        exact res
      · refine copied''.mono fun x copiedX => ?_
        rcases copiedX with ⟨low, c, member, placed⟩ | before
        · rcases mem_cons.1 member with rfl | later
          · exact .inr (.inl ((mem x).2 ⟨low, placed⟩))
          · exact .inl ⟨low, c, later, placed⟩
        · exact .inr (.inr before)
  obtain ⟨t', res, range_eq, default_eq, nMax_eq, m', place', holds', partly, finished⟩ :=
    loop (List.range t.doubled.nMax) t.doubled _ (fun b member => by
      have low : b < 2 * t.nMax := mem_range.1 member
      omega) start
  have eq : m' = m := by
    funext w
    by_cases default : m w = t.defaultKey
    · rcases partly w with copied | copied
      · exact copied
      · rw [default, copied]
    obtain ⟨x, lowX, placed, index⟩ := holds.entries.complete w default
    have val := finished x (.inl ⟨lowX, w % t.nHash, mem_range.2 ?_, placed⟩)
    · rw [index] at val
      exact val
    · have := holds.bucket_lt w
      change w % t.nHash < 2 * t.nMax
      omega
  exact ⟨t', place', res, range_eq, default_eq, nMax_eq, eq ▸ holds',
    Copied.room holds holds' default_eq nMax_eq partly⟩

theorem changeKey_spec (holds : t.Holds m place) (alpha : K) (low : w < t.range) :
    ∃ t' place', t.changeKey w alpha = .ok t' ∧ t'.range = t.range ∧
      t'.defaultKey = t.defaultKey ∧ t'.Holds (update m w alpha) place' := by
  rcases changeKeyBody_cases holds (changeKeyDepth 1) alpha low with
    ⟨t', place', res, range_eq, default_eq, -, holds'⟩ | ⟨absent, nonzero, full, res⟩
  · exact ⟨t', place', res, range_eq, default_eq, holds'⟩
  · obtain ⟨t', place', rescaled, range_eq, default_eq, -, holds', room⟩ := rescale_spec holds 0
    rw [rescaled] at res
    exact ⟨_, _, res, range_eq, default_eq, link_holds holds' (range_eq.symm ▸ low)
      (absent.trans default_eq.symm) (default_eq.symm ▸ nonzero) room⟩

/-! ## Runs -/

/-- The methods by request. -/
def serve (request : MapRequest ℕ K) (t : HashTable K) :
    Except Raise (HashTable K × Option K) :=
  match request with
  | .changeKey w alpha => do return (← t.changeKey w alpha, none)
  | .key w => do return (t, some (← t.keyOf w))

/-- The table stands for the map `m`. -/
structure Refines (t : HashTable K) (m : ℕ → K) : Prop where
  key_eq : ∀ w, w < t.range → t.keyOf w = .ok (m w)
  nz_eq : t.nz = {w | w < t.range ∧ m w ≠ t.defaultKey}.ncard
  partition : ∃ (freeList : List ℕ) (bucket : ℕ → List ℕ),
    Chain t.next t.undefined t.free freeList ∧
    (∀ b, b < t.nHash → Chain t.next t.undefined (t.first b) (bucket b)) ∧
    (freeList ++ (List.range t.nHash).flatMap bucket).Perm (List.range t.nMax)

/-- **A `goblinHashTable` is a map with a default value**, however often it is rescaled: in every
reachable state it stands for the map that the requests describe, and every request for an
index of the range is served and answered from this map. -/
theorem hashTable_refines {rr nn : ℕ} {alpha : K} {index : ℕ → ℕ} {key : ℕ → K} (pos : 1 ≤ nn)
    (reach : MapReach (new rr nn alpha index key) alpha serve (fun _ _ request => request.index < rr)
      t m) : t.range = rr ∧ t.defaultKey = alpha ∧ t.Refines m ∧
      ∀ request : MapRequest ℕ K, request.index < rr →
        ∃ t', serve request t = .ok (t', request.answer m) := by
  have served : ∀ (t : HashTable K) (m : ℕ → K) (place : ℕ → Option ℕ), t.range = rr →
      t.Holds m place → ∀ request : MapRequest ℕ K, request.index < rr →
      ∃ t' place', serve request t = .ok (t', request.answer m) ∧ t'.range = rr ∧
        t'.defaultKey = t.defaultKey ∧ t'.Holds (request.mapAfter m) place' := by
    intro t m place range_eq holds request low
    cases request with
    | changeKey w alpha =>
      obtain ⟨t', place', result, range_eq', default_eq, holds'⟩ :=
        changeKey_spec holds (w := w) alpha (range_eq.symm ▸ low)
      exact ⟨t', place', by simp [serve, result, MapRequest.answer], range_eq'.trans range_eq,
        default_eq, holds'⟩
    | key w =>
      have result := keyOf_spec holds (w := w) (range_eq.symm ▸ low)
      exact ⟨t, place, by simp [serve, result, MapRequest.answer], range_eq, rfl, holds⟩
  have invariant : t.range = rr ∧ t.defaultKey = alpha ∧ ∃ place, t.Holds m place := by
    refine reach.invariant
      (fun t m => t.range = rr ∧ t.defaultKey = alpha ∧ ∃ place, t.Holds m place) ?_ ?_
    · exact ⟨rfl, rfl, fun _ => none, init_holds pos rfl rfl⟩
    · rintro t m ⟨range_eq, default_eq, place, holds⟩ request low t' answer result
      obtain ⟨t1, place1, result1, range_eq1, default_eq1, holds1⟩ := served t m place range_eq
        holds request low
      rw [result1] at result
      cases result
      exact ⟨range_eq1, default_eq1.trans default_eq, place1, holds1⟩
  obtain ⟨range_eq, default_eq, place, holds⟩ := invariant
  have support : {w | w < t.range ∧ m w ≠ t.defaultKey} = {w | m w ≠ t.defaultKey} := by
    ext w
    exact ⟨fun both => both.2, fun nonzero => ⟨holds.inRange w nonzero, nonzero⟩⟩
  refine ⟨range_eq, default_eq, ⟨fun w low => keyOf_spec holds low, ?_,
    holds.entries.slots.perm⟩, ?_⟩
  · rw [support]
    exact holds.nz_ncard
  intro request low
  obtain ⟨t', -, result, -⟩ := served t m place range_eq holds request low
  exact ⟨t', result⟩

/-- A table with a single slot that is rescaled for the second entry. -/
theorem hashTable_refines_rescaled : ∃ (t : HashTable ℕ) (m : ℕ → ℕ),
    MapReach (new 10 1 0 (fun _ => 0) fun _ => 0) 0 serve (fun _ _ request => request.index < 10)
      t m ∧ t.nMax = 2 ∧ m 3 = 7 ∧ m 5 = 8 ∧ t.keyOf 3 = .ok 7 ∧ t.Refines m := by
  have reach1 : MapReach (new 10 1 0 (fun _ => 0) fun _ => 0) 0 serve
      (fun _ _ request => request.index < 10) _ _ :=
    .step (.changeKey 3 7) .start (by decide) rfl
  have reach2 := MapReach.step (.changeKey 5 8) reach1 (by decide) rfl
  exact ⟨_, _, reach2, rfl, rfl, rfl, rfl, (hashTable_refines (by decide) reach2).2.2.1⟩

end HashTable

end Goblin
