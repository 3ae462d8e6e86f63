import Goblin.Augment
import Goblin.Library.ChainedTable
import Goblin.Library.MapRequests

/-!
# Dictionaries

A `goblinDictionary` maps pairs of a label and an optional number to keys. It is organised like
a `goblinHashTable`, with the labels in `token` and the numbers in `index`; the latter array is
not allocated before it is needed.

The method `ChangeKey` has three flaws. It returns early when the label alone has the key
already, whatever the number. While there is no array `index`, the numbers are not compared, so
that a pair can be mistaken for the bare label if the two are in the same bucket. And when the
dictionary is rescaled, the recursive calls mix up the keys and the numbers.
-/

set_option autoImplicit false

namespace Goblin

open Library Function

variable {alpha : ℕ}

def noIndex : ℕ := 2000000000

/-- A `goblinDictionary` with keys of type `TIndex`; `none` stands for a missing array. -/
structure Dictionary where
  nMax : ℕ
  nHash : ℕ
  first : ℕ → ℕ
  next : ℕ → ℕ
  token : ℕ → List Int8
  index : Option (ℕ → ℕ)
  key : ℕ → ℕ
  defaultKey : ℕ
  free : ℕ
  nz : ℕ

namespace Dictionary

def init (d : Dictionary) : Dictionary :=
  { d with
    first := fun _ => noIndex
    next := fun v => if v + 1 = d.nMax then noIndex else v + 1
    free := 0
    nz := 0 }

/-- The constructor. The arrays `token` and `key` are not initialised. -/
def new (nn alpha : ℕ) (token : ℕ → List Int8) (key : ℕ → ℕ) : Dictionary :=
  init
    { nMax := nn
      nHash := 2 * nn + 1
      first := fun _ => 0
      next := fun _ => 0
      token := token
      index := none
      key := key
      defaultKey := alpha
      free := 0
      nz := 0 }

/-- `HashVal`, in the arithmetic of `unsigned long`. -/
def hashVal (txt : List Int8) (id : ℕ) : ℕ :=
  txt.foldl (fun val c => ((val : ℤ) * (val + 131 + c.toInt * 101) % 2 ^ 64).toNat)
    (if id ≠ noIndex then 73 * id % 2 ^ 64 else 119)

variable (d : Dictionary)

section

variable (txt : List Int8) (id : ℕ)

/-- The test by which the methods recognise a pair. -/
def agrees (x : ℕ) : Bool :=
  d.token x == txt &&
    match d.index with
    | none => true
    | some index => index x == id

/-- The search for the entry of a pair: its slot and the slot before it. -/
def search : Except Raise (ℕ × ℕ) :=
  chainSearch .fuel d.next noIndex (d.agrees txt id) (d.nMax + 1) noIndex
    (d.first (hashVal txt id % d.nHash))

/-- The method `Key`. -/
def keyOf : Except Raise ℕ := do
  let (_, x) ← d.search txt id
  return if x = noIndex then d.defaultKey else d.key x

end

/-- Take the slot `x` out of the bucket `w0`, where it follows the slot `y`. -/
def unlink (w0 y x : ℕ) : Dictionary :=
  { d with
    first := if y = noIndex then update d.first w0 (d.next x) else d.first
    next := update
      (if y = noIndex then d.next else update d.next y (d.next x)) x d.free
    free := x }

/-- Use a free slot for a new entry of the bucket `w0`. -/
def link (w0 : ℕ) (txt : List Int8) (alpha id : ℕ) : Dictionary :=
  { d with
    free := d.next d.free
    token := update d.token d.free txt
    index :=
      match d.index with
      | some index => some (update index d.free id)
      | none => if id ≠ noIndex then some (update (fun _ => noIndex) d.free id) else none
    key := update d.key d.free alpha
    first := update d.first w0 d.free
    next := update d.next d.free (d.first w0)
    nz := d.nz + 1 }

/-- The inner loop of the rescaling. The method is called with the saved number as the key, and
the saved key as the number. -/
def reinsert (enter : Dictionary → List Int8 → ℕ → ℕ → Except Raise Dictionary) :
    ℕ → ℕ → Dictionary → Except Raise Dictionary
  | 0, _, _ => .error .fuel
  | fuel + 1, y, d' =>
    if y ≠ noIndex then do
      let d' ← (match d.index with
        | some index => enter d' (d.token y) (index y) (d.key y)
        | none => enter d' (d.token y) noIndex (d.key y))
      reinsert enter fuel (d.next y) d'
    else .ok d'

/-- A dictionary with twice as many slots and without entries. The contents of the arrays
`token`, `index` and `key` do not matter. -/
def doubled : Dictionary :=
  init
    { d with
      nMax := 2 * d.nMax
      nHash := 2 * (2 * d.nMax) + 1 }

section

variable (enter : Dictionary → List Int8 → ℕ → ℕ → Except Raise Dictionary)

/-- The rescaling of the dictionary. -/
def rescale :
    Except Raise Dictionary :=
  (List.range (d.doubled.nMax + 1)).foldlM
    (fun d' x => d.reinsert enter (d.nMax + 1) (d.first x) d') d.doubled

/-- The body of `ChangeKey`, where `enter` is the recursive call. The number of entries is an
`unsigned long`. -/
def changeKeyBody
    (txt : List Int8) (alpha id : ℕ) : Except Raise Dictionary := do
  let k ← d.keyOf txt noIndex
  if k = alpha then return d
  else
    let (y, x) ← d.search txt id
    if alpha = d.defaultKey then
      let d := if x ≠ noIndex then d.unlink (hashVal txt id % d.nHash) y x else d
      return { d with nz := if d.nz = 0 then 2 ^ 64 - 1 else d.nz - 1 }
    else if x ≠ noIndex then
      return { d with key := update d.key x alpha }
    else
      let d ← (if d.free = noIndex then d.rescale enter else .ok d)
      return d.link (hashVal txt id % d.nHash) txt alpha id

end

/-- `ChangeKey`, with a bound on the depth of the recursion. -/
def changeKeyDepth : ℕ → Dictionary → List Int8 → ℕ → ℕ → Except Raise Dictionary
  | 0, _, _, _, _ => .error .fuel
  | depth + 1, d, txt, alpha, id => d.changeKeyBody (changeKeyDepth depth) txt alpha id

/-- `ChangeKey`. The recursive calls of a rescaling do not rescale again. -/
def changeKey (txt : List Int8) (alpha id : ℕ) : Except Raise Dictionary :=
  changeKeyDepth 2 d txt alpha id

/-- The methods by request, where an index is a pair of a label and a number. -/
def serve (request : MapRequest (List Int8 × ℕ) ℕ) (d : Dictionary) :
    Except Raise (Dictionary × Option ℕ) :=
  match request with
  | .changeKey (txt, id) alpha => do return (← d.changeKey txt alpha id, none)
  | .key (txt, id) => do return (d, some (← d.keyOf txt id))

/-! ## Entries -/

/-- The number of a slot. -/
def idAt (x : ℕ) : ℕ :=
  match d.index with
  | none => noIndex
  | some index => index x

/-- The pair of a slot. -/
def label (x : ℕ) : List Int8 × ℕ := (d.token x, d.idAt x)

/-- The bucket of a pair. -/
def bucket (p : List Int8 × ℕ) : ℕ := hashVal p.1 p.2 % d.nHash

section

variable (m : List Int8 × ℕ → ℕ)

/-- The dictionary represents the map `m`; `place` is the distribution of the slots. -/
structure Holds (place : ℕ → Option ℕ) : Prop where
  pos : 0 < d.nMax
  low : d.nMax ≤ noIndex
  nHash_eq : d.nHash = 2 * d.nMax + 1
  entries : Entries d.first d.next noIndex d.free d.nHash d.nMax d.label d.key d.bucket
    d.defaultKey m place
  nz_eq : d.nz = (usedSlots place d.nMax).card

/-- A pair is not mistaken for its label: the numbers are compared, or the label is not
present, or it is in another bucket. -/
def Distinguishes (p : List Int8 × ℕ) : Prop :=
  p.2 = noIndex ∨ d.index ≠ none ∨ m (p.1, noIndex) = d.defaultKey ∨
    d.bucket p ≠ d.bucket (p.1, noIndex)

/-- The requests that do not reach one of the flaws. A change is harmless if the label has the
new key and the pair has it, too; or if the label has another key, the pair is not mistaken for
the label, an entry that is to be deleted exists, and there is a slot for a new one. -/
def Harmless : MapRequest (List Int8 × ℕ) ℕ → Prop
  | .key p => d.Distinguishes m p
  | .changeKey p alpha =>
    (m (p.1, noIndex) = alpha ∧ m p = alpha) ∨
      (m (p.1, noIndex) ≠ alpha ∧ d.Distinguishes m p ∧
        (alpha = d.defaultKey → m p ≠ d.defaultKey) ∧
        (alpha ≠ d.defaultKey → m p = d.defaultKey →
          {q | m q ≠ d.defaultKey}.ncard < d.nMax))

end

variable {d} {m : List Int8 × ℕ → ℕ} {place : ℕ → Option ℕ} {p : List Int8 × ℕ}

theorem Holds.bucket_lt (holds : d.Holds m place) (p : List Int8 × ℕ) : d.bucket p < d.nHash := by
  apply Nat.mod_lt
  have := holds.nHash_eq
  omega

theorem agrees_iff (d : Dictionary) (txt : List Int8) (id x : ℕ) :
    d.agrees txt id x = true ↔ d.token x = txt ∧ (d.index ≠ none → d.idAt x = id) := by
  cases present : d.index with
  | none => simp [agrees, present]
  | some index => simp [agrees, idAt, present]

/-- Where the pair is not mistaken for its label, the search stops at the entry of the pair. -/
theorem Holds.search (holds : d.Holds m place) (distinguishes : d.Distinguishes m p) :
    ∃ y x l, d.search p.1 p.2 = .ok (y, x) ∧ Chain d.next noIndex (d.first (d.bucket p)) l ∧
      (∀ x, x ∈ l ↔ x < d.nMax ∧ place x = some (d.bucket p)) ∧
      SearchSpec noIndex (d.agrees p.1 p.2) noIndex l y x ∧ ((x = noIndex ∧ m p = d.defaultKey) ∨
        (x ≠ noIndex ∧ x < d.nMax ∧ place x = some (d.bucket p) ∧ d.label x = p ∧
          m p = d.key x ∧ m p ≠ d.defaultKey)) := by
  refine holds.entries.search Raise.fuel (d.agrees p.1 p.2) (holds.bucket_lt p) fun x low placed => ?_
  rw [agrees_iff, label, Prod.ext_iff]
  constructor
  · rintro ⟨token, number⟩
    refine ⟨token, ?_⟩
    by_cases present : d.index = none
    · -- all entries are bare labels, and this one is in the bucket of the pair
      have bare : d.idAt x = noIndex := by simp [idAt, present]
      obtain ⟨hash, val, nonzero⟩ := holds.entries.stored x _ low placed
      rw [label, bare, token] at hash val
      rcases distinguishes with eq | compared | absent | other
      · exact bare.trans eq.symm
      · exact absurd present compared
      · exact absurd (val.symm.trans absent) nonzero
      · exact absurd hash.symm other
    · exact number present
  · rintro ⟨token, number⟩
    exact ⟨token, fun _ => number⟩

theorem keyOf_iff (holds : d.Holds m place) (p : List Int8 × ℕ) :
    d.keyOf p.1 p.2 = .ok (m p) ↔ d.Distinguishes m p := by
  constructor
  · intro res
    by_contra mistaken
    simp only [Distinguishes, not_or, not_not] at mistaken
    obtain ⟨numbered, missing, present, eq⟩ := mistaken
    have bare : ∀ x, d.label x = (d.token x, noIndex) := fun x => by simp [label, idAt, missing]
    have absent : m p = d.defaultKey := by
      by_contra nonzero
      obtain ⟨x, -, -, entry⟩ := holds.entries.complete p nonzero
      rw [bare] at entry
      exact numbered (by rw [← entry])
    -- the walk ends at the entry of the label
    obtain ⟨y, x, l, found, -, -, -, cases⟩ := holds.entries.search Raise.fuel (d.agrees p.1 p.2)
      (i := (p.1, noIndex)) (holds.bucket_lt _) fun x _ _ => by
        rw [agrees_iff, bare]
        simp [missing]
    have walked : d.search p.1 p.2 = .ok (y, x) := by
      rw [search]
      exact (congrArg (fun b => chainSearch Raise.fuel d.next noIndex (d.agrees p.1 p.2)
        (d.nMax + 1) noIndex (d.first b)) eq).trans found
    rcases cases with ⟨-, default⟩ | ⟨inside, -, -, -, val, -⟩
    · exact present default
    · simp only [keyOf, walked] at res
      change Except.ok (if x = noIndex then d.defaultKey else d.key x) = _ at res
      rw [if_neg inside, ← val, absent] at res
      exact present (Except.ok.inj res)
  · intro distinguishes
    obtain ⟨y, x, l, res, -, -, -, cases⟩ := holds.search distinguishes
    simp only [keyOf, res]
    change Except.ok (if x = noIndex then d.defaultKey else d.key x) = _
    rcases cases with ⟨last, default⟩ | ⟨inside, -, -, -, val, -⟩
    · rw [if_pos last, default]
    · rw [if_neg inside, val]

/-! ## Changes of keys -/

theorem link_label (d : Dictionary) (w0 : ℕ) (txt : List Int8) (alpha id : ℕ) :
    (d.link w0 txt alpha id).label = update d.label d.free (txt, id) := by
  funext x
  by_cases here : x = d.free
  · cases present : d.index with
    | none =>
      by_cases bare : id = noIndex
      · simp [label, idAt, link, present, here, bare]
      · simp [label, idAt, link, present, here, bare]
    | some index => simp [label, idAt, link, present, here]
  · cases present : d.index with
    | none =>
      by_cases bare : id = noIndex
      · simp [label, idAt, link, present, here, bare]
      · simp [label, idAt, link, present, here, bare]
    | some index => simp [label, idAt, link, present, here]

theorem link_holds (holds : d.Holds m place) (absent : m p = d.defaultKey)
    (nonzero : alpha ≠ d.defaultKey) (room : d.free ≠ noIndex) :
    Holds (d.link (d.bucket p) p.1 alpha p.2) (update m p alpha)
      (update place d.free (some (d.bucket p))) := by
  obtain ⟨lowFree, unused, entries⟩ := holds.entries.take
    (d.link (d.bucket p) p.1 alpha p.2).label (holds.bucket_lt p) absent nonzero room
    (by rw [link_label, update_self])
    fun z ne _ _ => by rw [link_label, update_of_ne ne]
  constructor
  case pos => exact holds.pos
  case low => exact holds.low
  case nHash_eq => exact holds.nHash_eq
  case entries => exact entries
  case nz_eq =>
    have count := card_usedSlots_take (b := d.bucket p) lowFree unused
    change d.nz + 1 = _
    rw [holds.nz_eq, ← count]
    rfl

theorem changeKey_spec (holds : d.Holds m place) (harmless : d.Harmless m (.changeKey p alpha)) :
    ∃ d' place', d.changeKey p.1 alpha p.2 = .ok d' ∧ d'.nMax = d.nMax ∧
      d'.defaultKey = d.defaultKey ∧ d'.Holds (update m p alpha) place' := by
  have early : d.keyOf p.1 noIndex = .ok (m (p.1, noIndex)) :=
    (keyOf_iff holds (p.1, noIndex)).2 (.inl rfl)
  rcases harmless with ⟨label, pair⟩ | ⟨label, distinguishes, deletes, room⟩
  · refine ⟨d, place, ?_, rfl, rfl, ?_⟩
    · simp only [changeKey, changeKeyDepth, changeKeyBody, early]
      exact if_pos label
    · rw [← pair, update_eq_self]
      exact holds
  obtain ⟨y, x, l, res, chain, mem, spec, cases⟩ := holds.search distinguishes
  have start : d.changeKey p.1 alpha p.2 =
      if alpha = d.defaultKey then
        .ok { (if x ≠ noIndex then d.unlink (d.bucket p) y x else d) with
          nz := if (if x ≠ noIndex then d.unlink (d.bucket p) y x else d).nz = 0 then 2 ^ 64 - 1
            else (if x ≠ noIndex then d.unlink (d.bucket p) y x else d).nz - 1 }
      else if x ≠ noIndex then .ok { d with key := update d.key x alpha }
      else do
        let d' ← (if d.free = noIndex then d.rescale (changeKeyDepth 1) else .ok d)
        return d'.link (hashVal p.1 p.2 % d'.nHash) p.1 alpha p.2 := by
    simp only [changeKey, changeKeyDepth, changeKeyBody, early, res]
    exact if_neg label
  rw [start]
  rcases cases with ⟨last, absent⟩ | ⟨inside, lowX, placed, entry, val, present⟩
  · have nonzero : alpha ≠ d.defaultKey := fun default => deletes default absent
    have notFound : ¬ x ≠ noIndex := not_not.2 last
    have some_free : d.free ≠ noIndex := by
      apply holds.entries.slots.free_ne
      have fewer := room nonzero absent
      rwa [holds.entries.ncard.2] at fewer
    rw [if_neg nonzero, if_neg notFound, if_neg some_free]
    exact ⟨_, _, rfl, rfl, rfl, link_holds holds absent nonzero some_free⟩
  by_cases default : alpha = d.defaultKey
  · have count := card_usedSlots_release lowX (by simp [placed] : place x ≠ none)
    have used : 0 < (usedSlots place d.nMax).card :=
      Finset.card_pos.2 ⟨x, mem_usedSlots.2 ⟨lowX, by simp [placed]⟩⟩
    have pos : (d.unlink (d.bucket p) y x).nz ≠ 0 := by
      change d.nz ≠ 0
      rw [holds.nz_eq]
      omega
    rw [if_pos default, if_pos inside, if_neg pos, default]
    refine ⟨_, update place x none, rfl, rfl, rfl, holds.pos, holds.low,
      holds.nHash_eq, ?_, ?_⟩
    · exact holds.entries.release (holds.bucket_lt p) chain mem spec inside lowX placed entry
    · change d.nz - 1 = (usedSlots (update place x none) d.nMax).card
      rw [holds.nz_eq, count]
  · rw [if_neg default, if_pos inside]
    exact ⟨_, place, rfl, rfl, rfl, holds.pos, holds.low, holds.nHash_eq,
      holds.entries.replace lowX placed entry default, holds.nz_eq⟩

/-! ## Runs -/

theorem serve_spec (holds : d.Holds m place) (req : MapRequest (List Int8 × ℕ) ℕ)
    (harmless : d.Harmless m req) :
    ∃ d' place', serve req d = .ok (d', req.answer m) ∧ d'.nMax = d.nMax ∧
      d'.defaultKey = d.defaultKey ∧ d'.Holds (req.mapAfter m) place' := by
  cases req with
  | changeKey p alpha =>
    obtain ⟨d', place', res, spec⟩ := changeKey_spec holds harmless
    exact ⟨d', place', by simp [serve, res, MapRequest.answer], spec⟩
  | key p =>
    have res := (keyOf_iff holds p).2 harmless
    exact ⟨d, place, by simp [serve, res, MapRequest.answer], rfl, rfl, holds⟩

/-- **A `goblinDictionary` is a map with a default value in the runs of harmless requests.** In
every state of such a run the number of entries is right, a look-up is answered from the map if
and only if it is harmless, and every harmless request is served. -/
theorem dictionary_refines {nn alpha : ℕ} {token : ℕ → List Int8} {key : ℕ → ℕ} (pos : 1 ≤ nn)
    (low : nn ≤ noIndex) (reach : MapReach (new nn alpha token key) alpha serve Harmless d m) :
    d.nz = {p | m p ≠ alpha}.ncard ∧ (∀ p, d.keyOf p.1 p.2 = .ok (m p) ↔ d.Harmless m (.key p)) ∧
      ∀ request, d.Harmless m request → ∃ d', serve request d = .ok (d', request.answer m) := by
  have invariant : d.defaultKey = alpha ∧ ∃ place, d.Holds m place := by
    refine reach.invariant (fun d m => d.defaultKey = alpha ∧ ∃ place, d.Holds m place) ?_ ?_
    · refine ⟨rfl, fun _ => none, pos, low, rfl, ?_, by simp [new, init, usedSlots]⟩
      exact Entries.init noIndex (2 * nn + 1) low pos _ key _ alpha
    · rintro d m ⟨default_eq, place, holds⟩ request harmless d' answer result
      obtain ⟨d1, place1, result1, -, default_eq1, holds1⟩ := serve_spec holds request harmless
      rw [result1] at result
      cases result
      exact ⟨default_eq1.trans default_eq, place1, holds1⟩
  obtain ⟨default_eq, place, holds⟩ := invariant
  refine ⟨?_, keyOf_iff holds, fun request harmless => ?_⟩
  · rw [holds.nz_eq, ← holds.entries.ncard.2, default_eq]
  · obtain ⟨d', -, result, -⟩ := serve_spec holds request harmless
    exact ⟨d', result⟩

/-- The label `a` with and without a number. -/
theorem dictionary_refines_pair : ∃ (d : Dictionary) (m : List Int8 × ℕ → ℕ),
    MapReach (new 2 0 (fun _ => []) fun _ => 0) 0 serve Harmless d m ∧ m ([97], 2) = 7 ∧
      m ([97], noIndex) = 5 ∧ d.keyOf [97] 2 = .ok 7 ∧ d.nz = {p | m p ≠ 0}.ncard := by
  have reach1 : MapReach (new 2 0 (fun _ => []) fun _ => 0) 0 serve Harmless _ _ :=
    .step (.changeKey ([97], noIndex) 5) .start
      (.inr ⟨by decide, .inl rfl, fun equal => absurd equal (by decide),
        fun _ _ => by simp [new, init]⟩) rfl
  have few : {q | update (fun _ : List Int8 × ℕ => 0) ([97], noIndex) 5 q ≠ 0}.ncard <
      2 := by
    have single : {q | update (fun _ : List Int8 × ℕ => 0) ([97], noIndex) 5 q ≠ 0} =
        {([97], noIndex)} := by
      ext q
      by_cases here : q = ([97], noIndex)
      · simp [here]
      · simp [here]
    rw [single, Set.ncard_singleton]
    decide
  have reach2 := MapReach.step (.changeKey ([97], 2) 7) reach1
    (.inr ⟨by decide, .inr (.inr (.inr (by decide))), fun equal => absurd equal (by decide),
      fun _ _ => few⟩) rfl
  exact ⟨_, _, reach2, by decide, by decide, rfl,
    (dictionary_refines (by decide) (by decide) reach2).1⟩

/-- The second label exceeds the capacity, and the first one is lost. -/
theorem dictionary_rescale_loses : ∃ (d : Dictionary) (m : List Int8 × ℕ → ℕ),
    MapReach (new 1 0 (fun _ => []) fun _ => 0) 0 serve (fun _ _ _ => True) d m ∧
      m ([97], noIndex) = 5 ∧ d.keyOf [97] noIndex = .ok 0 := by
  have reach1 : MapReach (new 1 0 (fun _ => []) fun _ => 0) 0 serve (fun _ _ _ => True) _ _ :=
    .step (.changeKey ([97], noIndex) 5) .start trivial rfl
  have reach2 := MapReach.step (.changeKey ([98], noIndex) 6) reach1 trivial rfl
  exact ⟨_, _, reach2, by decide, rfl⟩

end Dictionary

end Goblin
