import Goblin.Augment
import Goblin.IndexSet
import Goblin.Library.BoundedLabels
import Goblin.Library.PriorityQueue

/-!
# Label setting shortest path search

`SPX_Dijkstra` labels nodes from a set of sources and stops when a target is
taken from the priority queue. A node is queued while it has a finite label
and has not been taken from the queue; the procedure tells this from the label
alone, and the invariant `DijkstraInv` says that it is right.

The label of a node without a label is the number `InfFloat`, here `limit`, so labels from this number
on are not stored. This is of no effect if the walks that give the nodes their first labels
are shorter (`DijkstraInv.short`), and in particular for `⊤`.

When the search ends, the expanded nodes are settled up to a level: the label
of the target, or infinity if the queue ran empty (`Settled`).
-/

set_option autoImplicit false

namespace Goblin

open Library List Function

variable {left : ℕ} {d : ℚ}

/-- The labels and the queue of the search. `⊤` is the label of the nodes without a label. -/
structure SPState (n m : ℕ) (Q : MinQueue.{0, 0, 0} (Fin n) (WithTop ℚ)) where
  dist : Fin n → WithTop ℚ
  pred : Fin n → Option (Arc m)
  queue : Q.Carrier

/-- The labels that a search leaves, and the node that it returns. -/
structure SPResult (n m : ℕ) where
  dist : Fin n → WithTop ℚ
  pred : Fin n → Option (Arc m)
  target : Option (Fin n)

namespace MixedGraph

variable {n m : ℕ} (G : MixedGraph n m) (Q : MinQueue.{0, 0, 0} (Fin n) (WithTop ℚ))

section

variable (q : Q.Carrier) (v : Fin n)

/-- `Insert` refuses nodes that are queued. -/
def queueInsert (key : WithTop ℚ) : Except Raise Q.Carrier :=
  match Q.keys q v with
  | none => .ok (Q.insert q v key)
  | some _ => .error (.rejected "Insert" "Already on queue")

/-- `ChangeKey` refuses nodes that are not queued. -/
def queueChangeKey (key : WithTop ℚ) : Except Raise Q.Carrier :=
  match Q.keys q v with
  | none => .error (.range "ChangeKey" "No such item")
  | some _ => .ok (Q.changeKey q v key)

/-- What the search does with a node whose label is lowered: it takes a finite
label to mean that the node is queued. -/
def queueRelabel (label key : WithTop ℚ) : Except Raise Q.Carrier :=
  if label = ⊤ then queueInsert Q q v key else queueChangeKey Q q v key

end

/-- The length by which a search with this characteristic measures an arc. -/
def searchLength (potential : Fin n → ℚ) (characteristic : TOptSPX) (a : Arc m) : ℚ :=
  if characteristic = .plain then G.length a.edge else G.redLength potential a

section Search

/-- The number that is stored for a label. -/
def labelNumber (limit label : WithTop ℚ) : WithTop ℚ := if label = ⊤ then limit else label

variable (limit : WithTop ℚ) (epsilon : ℚ) (el : Arc m → Bool) (len : Arc m → ℚ)

/-- One arc of the incidence list of `u`. -/
def dijkstraRead (u : Fin n) (st : SPState n m Q) (a : Arc m) : Except Raise (SPState n m Q) :=
  let v := G.endNode a
  let dd := st.dist u + (len a : WithTop ℚ)
  if dd < labelNumber limit (st.dist v) ∧ el a = true then
    if len a < -epsilon then .error (.rejected "SPX_Dijkstra" "Negative arc length")
    else do
      let queue ← queueRelabel Q st.queue v (st.dist v) dd
      return ⟨update st.dist v dd, update st.pred v (some a), queue⟩
  else .ok st

/-- The main loop: expand the nodes of the queue. -/
def dijkstraLoop (T : IndexSet n) : ℕ → SPState n m Q → Except Raise (SPResult n m)
  | 0, _ => .error .fuel
  | left + 1, st =>
    match Q.delete st.queue with
    | none => .ok ⟨st.dist, st.pred, none⟩
    | some (u, queue) =>
      if T.isMember u then .ok ⟨st.dist, st.pred, some u⟩
      else do
        let st ← (G.incidences u).foldlM (G.dijkstraRead Q limit epsilon el len u)
          { st with queue := queue }
        dijkstraLoop T left st

/-- The loop over the sources. -/
def insertSources (S : IndexSet n) : ℕ → ℕ → SPState n m Q → Except Raise (SPState n m Q)
  | 0, _, _ => .error .fuel
  | left + 1, i, st =>
    if inRange : i < n then do
      let queue ← queueInsert Q st.queue ⟨i, inRange⟩ 0
      insertSources S left (S.successor i)
        { st with dist := update st.dist ⟨i, inRange⟩ 0, queue := queue }
    else .ok st

/-- The search for given arcs and lengths. Every node is inserted and taken
from the queue at most once, so `n + 1` rounds suffice for both loops. -/
def dijkstra (S T : IndexSet n) : Except Raise (SPResult n m) := do
  let st ← insertSources Q S (n + 1) S.first ⟨fun _ => ⊤, fun _ => none, Q.empty⟩
  G.dijkstraLoop Q limit epsilon el len T (n + 1) st

end Search

def spxDijkstra (limit : WithTop ℚ) (epsilon : ℚ) (sub : Fin m → ℚ) (potential : Fin n → ℚ)
    (delta : ℚ) (characteristic : TOptSPX) (S T : IndexSet n) : Except Raise (SPResult n m) :=
  G.dijkstra Q limit epsilon (G.eligible sub delta characteristic)
    (G.searchLength potential characteristic) S T

/-! ## The invariant of the search -/

/-- The nodes of an index set. -/
def members (S : IndexSet n) (v : Fin n) : Prop := S.isMember v = true

section

variable (limit : WithTop ℚ) (el : Arc m → Bool) (len : Arc m → ℚ) (S : Fin n → Prop)

/-- What the labels say. The nodes of `done` have been expanded, in this
order; predecessors come earlier. -/
structure Labels (done : List (Fin n))
    (dist : Fin n → WithTop ℚ) (pred : Fin n → Option (Arc m)) : Prop where
  nonneg : ∀ v, 0 ≤ dist v
  sources : ∀ v, S v → dist v = 0 ∧ pred v = none
  reached : ∀ v, dist v ≠ ⊤ → S v ∨ ∃ a, pred v = some a
  consistent : ∀ v a, pred v = some a → G.dst a = v
  usable : ∀ v a, pred v = some a → el a = true
  tight : ∀ v a, pred v = some a → dist v = dist (G.src a) + (len a : WithTop ℚ)
  earlier : ∀ v a, pred v = some a → G.src a ∈ done ∧ done.idxOf (G.src a) < done.idxOf v

/-- The key of a node that has not been expanded. -/
def openKey (label : WithTop ℚ) : Option (WithTop ℚ) := if label = ⊤ then none else some label

/-- What holds between two arcs of the search. `pending` are the arcs of the
last expanded node that are still to be read, `level` is its label. -/
structure DijkstraInv
    (T : IndexSet n) (done : List (Fin n)) (pending : List (Arc m)) (level : WithTop ℚ)
    (st : SPState n m Q) : Prop where
  labels : G.Labels el len S done st.dist st.pred
  nodup : done.Nodup
  closed : ∀ v ∈ done, Q.keys st.queue v = none ∧ st.dist v ≤ level ∧ st.dist v ≠ ⊤
  waiting : ∀ v, v ∉ done → level ≤ st.dist v ∧ Q.keys st.queue v = openKey (st.dist v)
  relaxed : ∀ a, G.src a ∈ done → el a = true → a ∉ pending →
    st.dist (G.dst a) ≤ st.dist (G.src a) + (len a : WithTop ℚ)
  noTarget : ∀ v ∈ done, T.isMember v = false
  anchored : Anchored G.src G.dst (fun a => el a = true) S len st.dist
  short : WalksBelow G.src G.dst (fun a => el a = true) S len limit

end

variable {G Q} {limit : WithTop ℚ} {epsilon : ℚ} {el : Arc m → Bool} {len : Arc m → ℚ}
  {S : Fin n → Prop} {T : IndexSet n}
  {done : List (Fin n)} {st : SPState n m Q} {level : WithTop ℚ} {u : Fin n} {q : Q.Carrier}
  {v : Fin n} {a : Arc m} {dist : Fin n → WithTop ℚ} {pred : Fin n → Option (Arc m)}
  {r : SPResult n m}

theorem queueInsert_ok (absent : Q.keys q v = none)
    (key : WithTop ℚ) : queueInsert Q q v key = .ok (Q.insert q v key) := by
  simp [queueInsert, absent]

theorem queueChangeKey_ok (present : Q.keys q v ≠ none)
    (key : WithTop ℚ) : queueChangeKey Q q v key = .ok (Q.changeKey q v key) := by
  obtain ⟨k, found⟩ := Option.ne_none_iff_exists'.1 present
  simp [queueChangeKey, found]

/-- The operation that the label selects is legal, and it sets the key. -/
theorem queueRelabel_ok {label : WithTop ℚ} (keys : Q.keys q v = openKey label) (key : WithTop ℚ) :
    ∃ q', queueRelabel Q q v label key = .ok q' ∧ Q.keys q' = update (Q.keys q) v (some key) := by
  rw [openKey] at keys
  rw [queueRelabel]
  by_cases top : label = ⊤
  · rw [if_pos top] at keys ⊢
    exact ⟨_, queueInsert_ok keys key, Q.keys_insert q v key keys⟩
  · rw [if_neg top] at keys ⊢
    have present : Q.keys q v ≠ none := by simp [keys]
    exact ⟨_, queueChangeKey_ok present key, Q.keys_changeKey q v key present⟩

theorem lt_of_lt_labelNumber {x y : WithTop ℚ} (less : x < labelNumber limit y) : x < y := by
  unfold labelNumber at less
  split_ifs at less with top
  · exact top ▸ less.trans_le le_top
  · exact less

theorem lt_labelNumber {x y : WithTop ℚ} (less : x < y) (below : x < limit) :
    x < labelNumber limit y := by
  unfold labelNumber
  split_ifs
  · exact below
  · exact less

section

variable (tolerant : 0 ≤ epsilon)
include tolerant

/-- **One arc.** It never raises: a node whose label is lowered is queued if
and only if its label is finite. -/
theorem dijkstraRead_inv {l : List (Arc m)} (nonneg : ∀ a, el a = true → 0 ≤ len a)
    (inv : G.DijkstraInv Q limit el len S T done (a :: l) level st) (start : G.src a = u)
    (mem : u ∈ done) (atLevel : st.dist u = level) :
    ∃ st', G.dijkstraRead Q limit epsilon el len u st a = .ok st' ∧
      G.DijkstraInv Q limit el len S T done l level st' ∧ st'.dist u = level := by
  by_cases lower : st.dist u + (len a : WithTop ℚ) < st.dist (G.dst a) ∧ el a = true
  · obtain ⟨less, usable⟩ := lower
    have starts : st.dist (G.src a) ≠ ⊤ := start ▸ (inv.closed u mem).2.2
    have known : ∀ v, S v → st.dist v ≠ ⊤ := fun v source => by
      simp [(inv.labels.sources v source).1]
    rw [← start] at less
    have stored := lt_labelNumber less
      (inv.anchored.label_lt known starts usable inv.short less)
    have anchored := inv.anchored.relax known starts usable less
    rw [start] at less stored anchored
    have lenNonneg := nonneg a usable
    have lenNonneg' : (0 : WithTop ℚ) ≤ (len a : WithTop ℚ) := by exact_mod_cast lenNonneg
    set dd := st.dist u + (len a : WithTop ℚ) with ddEq
    have ddLevel : level ≤ dd := by
      rw [ddEq, atLevel]
      exact le_add_of_nonneg_right lenNonneg'
    have ddFinite : dd ≠ ⊤ := ne_top_of_lt less
    have notDone : G.dst a ∉ done := by
      intro settled
      have below := (inv.closed _ settled).2.1
      exact absurd (below.trans ddLevel) (not_le.2 less)
    have other : ∀ v ∈ done, v ≠ G.dst a := by
      rintro v settled rfl
      exact notDone settled
    have notSource : ¬ S (G.dst a) := by
      intro source
      rw [(inv.labels.sources _ source).1, ddEq] at less
      exact absurd (add_nonneg (inv.labels.nonneg u) lenNonneg') (not_le.2 less)
    obtain ⟨queue, relabelled, keys⟩ := queueRelabel_ok (inv.waiting _ notDone).2 dd
    refine ⟨⟨update st.dist (G.dst a) dd, update st.pred (G.dst a) (some a),
      queue⟩, ?_, ⟨⟨?_, ?_, ?_, ?_, ?_, ?_, ?_⟩, inv.nodup, ?_, ?_, ?_, inv.noTarget,
      anchored, inv.short⟩, ?_⟩
    · have notNegative : ¬ len a < -epsilon := by
        rw [not_lt]
        exact (neg_nonpos.2 tolerant).trans lenNonneg
      simp only [dijkstraRead, ← ddEq, stored, usable, and_self, if_true, notNegative, if_false,
        relabelled, bind, Except.bind, pure, Except.pure]
    all_goals dsimp only
    · intro v
      by_cases eq : v = G.dst a
      · rw [eq, update_self]
        exact add_nonneg (inv.labels.nonneg u) lenNonneg'
      · rw [update_of_ne eq]
        exact inv.labels.nonneg v
    · intro v source
      have eq : v ≠ G.dst a := by
        rintro rfl
        exact notSource source
      rw [update_of_ne eq, update_of_ne eq]
      exact inv.labels.sources v source
    · intro v label
      by_cases eq : v = G.dst a
      · exact .inr ⟨a, by rw [eq, update_self]⟩
      · rw [update_of_ne eq] at label ⊢
        exact inv.labels.reached v label
    · intro v b label
      rcases of_update label with ⟨eq, ⟨⟩⟩ | ⟨-, label⟩
      · exact eq.symm
      · exact inv.labels.consistent v b label
    · intro v b label
      rcases of_update label with ⟨-, ⟨⟩⟩ | ⟨-, label⟩
      · exact usable
      · exact inv.labels.usable v b label
    · intro v b label
      rcases of_update label with ⟨eq, ⟨⟩⟩ | ⟨eq, label⟩
      · rw [eq, update_self, start, update_of_ne (other u mem)]
      · have settled := (inv.labels.earlier v b label).1
        rw [update_of_ne eq, update_of_ne (other _ settled)]
        exact inv.labels.tight v b label
    · intro v b label
      rcases of_update label with ⟨eq, ⟨⟩⟩ | ⟨-, label⟩
      · rw [eq, start, idxOf_eq_length notDone]
        exact ⟨mem, idxOf_lt_length_iff.2 mem⟩
      · exact inv.labels.earlier v b label
    · intro v settled
      rw [keys, update_of_ne (other v settled), update_of_ne (other v settled)]
      exact inv.closed v settled
    · intro v open'
      by_cases eq : v = G.dst a
      · rw [eq, keys, update_self, update_self, openKey, if_neg ddFinite]
        exact ⟨ddLevel, rfl⟩
      · rw [keys, update_of_ne eq, update_of_ne eq]
        exact inv.waiting v open'
    · intro b settled usableB notPending
      rw [update_of_ne (other _ settled)]
      by_cases eq : b = a
      · rw [eq, update_self, start]
      have old := inv.relaxed b settled usableB (by simp [eq, notPending])
      by_cases sameEnd : G.dst b = G.dst a
      · rw [sameEnd] at old ⊢
        rw [update_self]
        exact less.le.trans old
      · rw [update_of_ne sameEnd]
        exact old
    · rw [update_of_ne (other u mem)]
      exact atLevel
  · refine ⟨st, if_neg fun both => lower ⟨lt_of_lt_labelNumber both.1, both.2⟩,
      { inv with relaxed := ?_ }, atLevel⟩
    intro b settled usable notPending
    by_cases eq : b = a
    · subst eq
      rw [not_and] at lower
      rw [start]
      exact not_lt.1 fun less => lower less usable
    · exact inv.relaxed b settled usable (by simp [eq, notPending])

theorem dijkstraRead_foldlM (l : List (Arc m)) (nonneg : ∀ a, el a = true → 0 ≤ len a)
    (inv : G.DijkstraInv Q limit el len S T done l level st) (start : ∀ a ∈ l, G.src a = u)
    (mem : u ∈ done) (atLevel : st.dist u = level) :
    ∃ st', l.foldlM (G.dijkstraRead Q limit epsilon el len u) st = .ok st' ∧
      G.DijkstraInv Q limit el len S T done [] level st' := by
  induction l generalizing st with
  | nil => exact ⟨st, rfl, inv⟩
  | cons a l ih =>
    obtain ⟨st1, read, inv1, atLevel1⟩ :=
      dijkstraRead_inv tolerant nonneg inv (start a mem_cons_self) mem atLevel
    obtain ⟨st2, rest, inv2⟩ :=
      ih inv1 (fun b later => start b (mem_cons_of_mem _ later)) atLevel1
    refine ⟨st2, ?_, inv2⟩
    rw [foldlM_cons, read]
    exact rest

end

theorem DijkstraInv.pop {queue : Q.Carrier} (inv : G.DijkstraInv Q limit el len S T done [] level st)
    (deleted : Q.delete st.queue = some (u, queue)) :
    u ∉ done ∧ st.dist u ≠ ⊤ ∧ (∀ v, v ∉ done → st.dist u ≤ st.dist v) ∧
      (T.isMember u = false → G.DijkstraInv Q limit el len S T (done ++ [u]) (G.incidences u)
        (st.dist u) { st with queue := queue }) := by
  obtain ⟨key, found, least, keys⟩ := Q.delete_some _ _ _ deleted
  have fresh : u ∉ done := by
    intro settled
    rw [(inv.closed u settled).1] at found
    cases found
  obtain ⟨above, keyU⟩ := inv.waiting u fresh
  have finite : st.dist u ≠ ⊤ := by
    intro top
    rw [keyU, openKey, if_pos top] at found
    cases found
  have keyEq : key = st.dist u := by
    rw [keyU, openKey, if_neg finite] at found
    exact (Option.some.inj found).symm
  have minimal : ∀ v, v ∉ done → st.dist u ≤ st.dist v := by
    intro v open'
    by_cases top : st.dist v = ⊤
    · rw [top]
      exact le_top
    · have keyV := (inv.waiting v open').2
      rw [openKey, if_neg top] at keyV
      rw [← keyEq]
      exact least v _ keyV
  refine ⟨fresh, finite, minimal, fun notTarget => ?_⟩
  refine ⟨{ inv.labels with earlier := ?_ }, ?_, ?_, ?_, ?_, ?_, inv.anchored, inv.short⟩
  · intro v a label
    obtain ⟨settled, before⟩ := inv.labels.earlier v a label
    refine ⟨mem_append_left _ settled, ?_⟩
    rw [idxOf_append_of_mem settled]
    by_cases old : v ∈ done
    · rw [idxOf_append_of_mem old]
      exact before
    · rw [idxOf_append_of_notMem old]
      exact (idxOf_lt_length_iff.2 settled).trans_le (Nat.le_add_right _ _)
  · refine nodup_append.2 ⟨inv.nodup, by simp, ?_⟩
    intro v old w last
    rw [mem_singleton] at last
    rintro rfl
    exact fresh (last ▸ old)
  · intro v mem
    rw [keys]
    rcases mem_append.1 mem with old | last
    · have facts := inv.closed v old
      have other : v ≠ u := by
        rintro rfl
        exact fresh old
      rw [update_of_ne other]
      exact ⟨facts.1, facts.2.1.trans above, facts.2.2⟩
    · rw [mem_singleton] at last
      rw [last, update_self]
      exact ⟨rfl, le_refl _, finite⟩
  · intro v open'
    rw [mem_append, mem_singleton, not_or] at open'
    rw [keys, update_of_ne open'.2]
    exact ⟨minimal v open'.1, (inv.waiting v open'.1).2⟩
  · intro a mem usable notRead
    rcases mem_append.1 mem with old | last
    · exact inv.relaxed a old usable (by simp)
    · exact absurd ((G.mem_incidences u a).2 (mem_singleton.1 last)) notRead
  · intro v mem
    rcases mem_append.1 mem with old | last
    · exact inv.noTarget v old
    · rw [mem_singleton.1 last]
      exact notTarget

/-! ## The sources -/

/-- What holds when the members below `i` have been inserted. -/
structure SourcesInv (Q : MinQueue.{0, 0, 0} (Fin n) (WithTop ℚ)) (S : IndexSet n) (i : ℕ)
    (st : SPState n m Q) : Prop where
  inserted : ∀ v : Fin n, v.val < i → S.isMember v = true → st.dist v = 0
  others : ∀ v : Fin n, (i ≤ v.val ∨ S.isMember v = false) → st.dist v = ⊤
  noPred : ∀ v, st.pred v = none
  keys : ∀ v, Q.keys st.queue v = openKey (st.dist v)

theorem insertSources_spec {S : IndexSet n} {i : ℕ} (inv : SourcesInv Q S i st)
    (next : i < n → S.isMember i = true) (enough : n - i < left) :
    ∃ st', insertSources Q S left i st = .ok st' ∧ SourcesInv Q S n st' := by
  induction left generalizing i st with
  | zero => omega
  | succ left ih =>
    by_cases inRange : i < n
    · set v : Fin n := ⟨i, inRange⟩ with vEq
      have top : st.dist v = ⊤ := inv.others v (.inl (le_refl i))
      have absent : Q.keys st.queue v = none := by
        rw [inv.keys, openKey, if_pos top]
      have mem := next inRange
      have above := S.lt_successor i inRange mem
      have inv' : SourcesInv Q S (S.successor i) { st with
            dist := update st.dist v 0
            queue := Q.insert st.queue v 0 } := by
        refine ⟨?_, ?_, inv.noPred, ?_⟩
        · intro w below isMember
          by_cases eq : w = v
          · simp [eq]
          have otherIndex : w.val ≠ i := fun equal => eq (Fin.ext equal)
          have notBetween : ¬ i < w.val := by
            intro between
            have late := S.successor_le i inRange mem w w.isLt between isMember
            omega
          exact (update_of_ne eq _ _).trans (inv.inserted w (by omega) isMember)
        · intro w condition
          have other : w ≠ v := by
            rintro rfl
            rcases condition with late | notMember
            · exact absurd late (not_le.2 above)
            · rw [mem] at notMember
              cases notMember
          refine (update_of_ne other _ _).trans (inv.others w ?_)
          rcases condition with late | notMember
          · exact .inl (above.le.trans late)
          · exact .inr notMember
        · intro w
          dsimp only
          rw [Q.keys_insert _ _ _ absent]
          by_cases eq : w = v
          · rw [eq, update_self, update_self, openKey, if_neg (by simp)]
          · rw [update_of_ne eq, update_of_ne eq]
            exact inv.keys w
      obtain ⟨st', res, final⟩ :=
        ih inv' (fun less => S.successor_mem i inRange mem less) (by omega)
      refine ⟨st', ?_, final⟩
      simp only [insertSources, inRange, dif_pos, ← vEq, queueInsert_ok absent, bind, Except.bind]
      exact res
    · refine ⟨st, by simp [insertSources, inRange], ?_, ?_, inv.noPred, inv.keys⟩
      · exact fun w _ isMember => inv.inserted w (by omega) isMember
      · intro w condition
        refine inv.others w (.inr ?_)
        rcases condition with late | notMember
        · exact absurd w.isLt (not_lt.2 late)
        · exact notMember

theorem dijkstraInv_start {S : IndexSet n} (sources : SourcesInv Q S n st)
    (short : WalksBelow G.src G.dst (fun a => el a = true) (members S) len limit) :
    G.DijkstraInv Q limit el len (members S) T [] [] 0 st := by
  have zero : ∀ v : Fin n, S.isMember v = true → st.dist v = 0 := fun v mem =>
    sources.inserted v v.isLt mem
  have top : ∀ v : Fin n, S.isMember v = false → st.dist v = ⊤ := fun v mem =>
    sources.others v (.inr mem)
  have nonneg : ∀ v, 0 ≤ st.dist v := by
    intro v
    cases mem : S.isMember v with
    | true => rw [zero v mem]
    | false =>
      rw [top v mem]
      exact le_top
  have noLabel : ∀ v a, st.pred v ≠ some a := by
    intro v a label
    rw [sources.noPred v] at label
    cases label
  refine ⟨⟨nonneg, ?_, ?_, ?_, ?_, ?_, ?_⟩, nodup_nil, ?_, ?_, ?_, ?_,
    .init (fun v label => ?_) fun v mem => (zero v mem).le, short⟩
  · exact fun v mem => ⟨zero v mem, sources.noPred v⟩
  · intro v label
    refine .inl ?_
    by_contra notMember
    exact label (top v (by simpa [members] using notMember))
  · exact fun v a label => absurd label (noLabel v a)
  · exact fun v a label => absurd label (noLabel v a)
  · exact fun v a label => absurd label (noLabel v a)
  · exact fun v a label => absurd label (noLabel v a)
  · exact fun v mem => nomatch mem
  · exact fun v _ => ⟨nonneg v, sources.keys v⟩
  · exact fun a mem => nomatch mem
  · exact fun v mem => nomatch mem
  · by_contra notMember
    exact label (top v (by simpa [members] using notMember))

/-! ## The result of the search -/

/-- The labels of a finished search. The nodes of `done` are those with final
labels; all other labels are at least `level`, which is the label of the target
or infinity. -/
structure Settled (G : MixedGraph n m) (el : Arc m → Bool) (len : Arc m → ℚ) (S : Fin n → Prop)
    (T : IndexSet n) (done : List (Fin n)) (level : WithTop ℚ) (r : SPResult n m) : Prop where
  labels : G.Labels el len S done r.dist r.pred
  inside : ∀ v ∈ done, r.dist v ≤ level ∧ r.dist v ≠ ⊤
  outside : ∀ v, v ∉ done → level ≤ r.dist v
  relaxed : ∀ a, G.src a ∈ done → el a = true →
    r.dist (G.dst a) ≤ r.dist (G.src a) + (len a : WithTop ℚ)
  noTarget : ∀ v ∈ done, T.isMember v = false
  target : (r.target = none ∧ level = ⊤) ∨
    ∃ u, r.target = some u ∧ T.isMember u = true ∧ u ∉ done ∧ r.dist u = level ∧ level ≠ ⊤

theorem dijkstraLoop_spec (tolerant : 0 ≤ epsilon) (nonneg : ∀ a, el a = true → 0 ≤ len a)
    (inv : G.DijkstraInv Q limit el len S T done [] level st) (enough : n < done.length + left) :
    ∃ r done' level', G.dijkstraLoop Q limit epsilon el len T left st = .ok r ∧
      G.Settled el len S T done' level' r := by
  induction left generalizing done level st with
  | zero =>
    have bound := inv.nodup.length_le_card
    rw [Fintype.card_fin] at bound
    omega
  | succ left ih =>
    cases deleted : Q.delete st.queue with
    | none =>
      have top : ∀ v, v ∉ done → st.dist v = ⊤ := by
        intro v open'
        have key := (inv.waiting v open').2
        rw [Q.delete_none _ deleted v, openKey] at key
        by_contra finite
        rw [if_neg finite] at key
        cases key
      refine ⟨⟨st.dist, st.pred, none⟩, done, ⊤, by simp [dijkstraLoop, deleted], inv.labels,
        fun v mem => ⟨le_top, (inv.closed v mem).2.2⟩, fun v open' => (top v open').ge,
        fun a mem usable => inv.relaxed a mem usable (by simp), inv.noTarget,
        .inl ⟨rfl, rfl⟩⟩
    | some popped =>
      obtain ⟨u, queue⟩ := popped
      obtain ⟨fresh, finite, minimal, next⟩ := inv.pop deleted
      cases isTarget : T.isMember u with
      | true =>
        refine ⟨⟨st.dist, st.pred, some u⟩, done, st.dist u, ?_, inv.labels, ?_, minimal,
          fun a mem usable => inv.relaxed a mem usable (by simp), inv.noTarget,
          .inr ⟨u, rfl, isTarget, fresh, rfl, finite⟩⟩
        · simp [dijkstraLoop, deleted, isTarget]
        · intro v mem
          have facts := inv.closed v mem
          exact ⟨facts.2.1.trans (inv.waiting u fresh).1, facts.2.2⟩
      | false =>
        obtain ⟨st', read, inv'⟩ := dijkstraRead_foldlM tolerant (G.incidences u) nonneg
          (next isTarget) (fun a mem => (G.mem_incidences u a).1 mem) (by simp) rfl
        obtain ⟨r, done', level', res, settled⟩ :=
          ih inv' (by simp only [length_append, length_singleton]; omega)
        refine ⟨r, done', level', ?_, settled⟩
        simp only [dijkstraLoop, deleted, isTarget, Bool.false_eq_true, if_false, read, bind,
          Except.bind]
        exact res

/-- **The search never raises** and ends with settled labels. -/
theorem dijkstra_spec (G : MixedGraph n m) (Q : MinQueue.{0, 0, 0} (Fin n) (WithTop ℚ))
    (tolerant : 0 ≤ epsilon) (nonneg : ∀ a, el a = true → 0 ≤ len a) (S T : IndexSet n)
    (short : WalksBelow G.src G.dst (fun a => el a = true) (members S) len limit) :
    ∃ r done level, G.dijkstra Q limit epsilon el len S T = .ok r ∧
      G.Settled el len (members S) T done level r := by
  have start : SourcesInv Q S S.first (⟨fun _ => ⊤, fun _ => none, Q.empty⟩ : SPState n m Q) := by
    refine ⟨?_, fun _ _ => rfl, fun _ => rfl, fun v => ?_⟩
    · intro v below mem
      have first := S.first_le v v.isLt mem
      omega
    · rw [Q.keys_empty, openKey, if_pos rfl]
  obtain ⟨st, inserted, sources⟩ := insertSources_spec start S.first_mem (by omega : _ < n + 1)
  obtain ⟨r, done, level, res, settled⟩ :=
    dijkstraLoop_spec tolerant nonneg (dijkstraInv_start (G := G) (T := T) sources short)
      (by simp : n < [].length + (n + 1))
  refine ⟨r, done, level, ?_, settled⟩
  simp only [dijkstra, inserted, bind, Except.bind]
  exact res

section Consequences

variable {r : SPResult n m}

/-- The labels of a node lead back to a source, along a path whose length is
the label of the node. -/
theorem Labels.path (labels : G.Labels el len S done dist pred) (label : dist v ≠ ⊤)
    (notSource : ¬ S v) : ∃ s p, S s ∧ BackPath pred G.src s v p ∧ (∀ a ∈ p, el a = true) ∧
      dist v = (((p.map len).sum : ℚ) : WithTop ℚ) := by
  induction rank : done.idxOf v using Nat.strong_induction_on generalizing v with
  | _ k ih =>
    obtain ⟨a, pred⟩ := (labels.reached v label).resolve_left notSource
    have tight := labels.tight v a pred
    have before := (labels.earlier v a pred).2
    have usable := labels.usable v a pred
    have finite : dist (G.src a) ≠ ⊤ := by
      intro top
      rw [tight, top, WithTop.top_add] at label
      exact label rfl
    by_cases source : S (G.src a)
    · refine ⟨G.src a, [a], source, .last pred rfl, by simpa using usable, ?_⟩
      rw [tight, (labels.sources _ source).1]
      simp
    obtain ⟨s, p, isSource, path, allUsable, length⟩ :=
      ih _ (rank ▸ before) finite source rfl
    refine ⟨s, a :: p, isSource, .step pred ?_ path, ?_, ?_⟩
    · rintro rfl
      exact source isSource
    · intro b mem
      rcases mem_cons.1 mem with rfl | later
      · exact usable
      · exact allUsable b later
    · rw [tight, length, map_cons, sum_cons, add_comm, WithTop.coe_add]

theorem Labels.walk (labels : G.Labels el len S done dist pred) (label : dist v = d) :
    ∃ s p, S s ∧ IsWalk G.src G.dst s p v ∧ (∀ a ∈ p, el a = true) ∧ (p.map len).sum = d := by
  by_cases source : S v
  · refine ⟨v, [], source, rfl, by simp, ?_⟩
    rw [(labels.sources v source).1] at label
    exact_mod_cast label
  obtain ⟨s, p, isSource, path, usable, length⟩ :=
    labels.path (v := v) (by simp [label]) source
  refine ⟨s, p.reverse, isSource, path.isWalk labels.consistent, by simpa using usable, ?_⟩
  rw [label] at length
  rw [map_reverse, sum_reverse]
  exact_mod_cast length.symm

section

variable (settled : G.Settled el len S T done level r)
include settled

section

variable (nonneg : ∀ a, el a = true → 0 ≤ len a)
include nonneg

theorem Settled.min_le {s : Fin n} {p : List (Arc m)} (source : S s)
    (walk : IsWalk G.src G.dst s p v) (usable : ∀ a ∈ p, el a = true) :
    min (r.dist v) level ≤ (((p.map len).sum : ℚ) : WithTop ℚ) := by
  have zero := (settled.labels.sources s source).1
  have bound := min_le_of_expanded (fun a => el a = true) (fun v => v ∈ done) nonneg
    settled.relaxed settled.outside walk usable 0 (by rw [zero]; exact min_le_left _ _)
  rwa [zero_add] at bound

theorem settled_distance (label : r.dist v = d) (low : r.dist v ≤ level) :
    IsDistance G.src G.dst (fun a => el a = true) len S v d := by
  refine ⟨settled.labels.walk label, fun s p source walk usable => ?_⟩
  have bound := settled.min_le nonneg source walk usable
  rw [min_eq_left low, label] at bound
  exact_mod_cast bound

theorem Settled.truncate_feasible (usable : el a = true) :
    min (r.dist (G.dst a)) level ≤ min (r.dist (G.src a)) level + (len a : WithTop ℚ) :=
  Library.truncate_feasible (fun a => el a = true) (fun v => v ∈ done) nonneg settled.relaxed
    settled.outside usable

end

end

end Consequences

/-! ## Correctness -/

/-- What the search returns at a target `u`: it is nearest among the targets,
and its predecessor labels describe a path of this length from a source. -/
structure NearestTarget (G : MixedGraph n m) (el : Arc m → Bool) (len : Arc m → ℚ)
    (S T : IndexSet n) (r : SPResult n m) (u : Fin n) (d : ℚ) : Prop where
  returned : r.target = some u
  isTarget : T.isMember u = true
  label : r.dist u = d
  distance : IsDistance G.src G.dst (fun a => el a = true) len (members S) u d
  nearest : ∀ v : Fin n, T.isMember v = true → ∀ s p, members S s →
    IsWalk G.src G.dst s p v → (∀ a ∈ p, el a = true) → d ≤ (p.map len).sum
  path : (members S u ∧ r.pred u = none ∧ d = 0) ∨
    ∃ s p, members S s ∧ BackPath r.pred G.src s u p ∧ (p.map len).sum = d

theorem Settled.nearest {S : IndexSet n} (settled : G.Settled el len (members S) T done level r)
    (nonneg : ∀ a, el a = true → 0 ≤ len a) (isTarget : T.isMember v = true)
    (reachable : ReachableFrom G.src G.dst (fun a => el a = true) (members S) v) :
    ∃ u d, G.NearestTarget el len S T r u d := by
  have notDone : ∀ w : Fin n, T.isMember w = true → w ∉ done := by
    intro w mem old
    rw [settled.noTarget w old] at mem
    cases mem
  -- walks to a target are no shorter than the level
  have above : ∀ w : Fin n, T.isMember w = true → ∀ s p, members S s →
      IsWalk G.src G.dst s p w → (∀ a ∈ p, el a = true) →
      level ≤ (((p.map len).sum : ℚ) : WithTop ℚ) := by
    intro w mem s p source walk usable
    have bound := settled.min_le nonneg source walk usable
    rwa [min_eq_right (settled.outside w (notDone w mem))] at bound
  rcases settled.target with ⟨-, top⟩ | ⟨u, returned, mem, fresh, label, finite⟩
  · obtain ⟨s, p, source, walk, usable⟩ := reachable
    have bound := above v isTarget s p source walk usable
    rw [top] at bound
    simp at bound
  obtain ⟨d, val⟩ := WithTop.ne_top_iff_exists.1 finite
  have labelD : r.dist u = d := label.trans val.symm
  refine ⟨u, d, returned, mem, labelD, settled_distance settled nonneg labelD label.le, ?_, ?_⟩
  · intro w isTarget' s p source walk usable
    have bound := above w isTarget' s p source walk usable
    rw [← val] at bound
    exact_mod_cast bound
  · by_cases source : members S u
    · obtain ⟨zero, noPred⟩ := settled.labels.sources u source
      refine .inl ⟨source, noPred, ?_⟩
      rw [labelD] at zero
      exact_mod_cast zero
    · obtain ⟨s, p, isSource, path, -, length⟩ :=
        settled.labels.path (by simp [labelD] : r.dist u ≠ ⊤) source
      refine .inr ⟨s, p, isSource, path, ?_⟩
      rw [labelD] at length
      exact_mod_cast length.symm

theorem Settled.all_distances {S : IndexSet n}
    (settled : G.Settled el len (members S) T done level r) (nonneg : ∀ a, el a = true → 0 ≤ len a)
    (noTargets : ∀ v : Fin n, T.isMember v = false) (v : Fin n) :
    (r.dist v = ⊤ ↔ ¬ ReachableFrom G.src G.dst (fun a => el a = true) (members S) v) ∧
      ∀ d : ℚ, r.dist v = d → IsDistance G.src G.dst (fun a => el a = true) len (members S) v d := by
  have top : level = ⊤ := by
    rcases settled.target with ⟨-, top⟩ | ⟨u, -, mem, -⟩
    · exact top
    · rw [noTargets u] at mem
      cases mem
  refine ⟨⟨?_, ?_⟩, fun d label => settled_distance settled nonneg label (top ▸ le_top)⟩
  · rintro unlabelled ⟨s, p, source, walk, usable⟩
    have bound := settled.min_le nonneg source walk usable
    rw [unlabelled, top, min_self] at bound
    simp at bound
  · intro unreachable
    by_contra finite
    obtain ⟨d, val⟩ := WithTop.ne_top_iff_exists.1 finite
    obtain ⟨s, p, source, walk, usable, -⟩ := settled.labels.walk val.symm
    exact unreachable ⟨s, p, source, walk, usable⟩

/-- **The search is correct for all sources, targets and characteristics.** It
never raises, in particular not from `ChangeKey`. It returns a nearest target
when one is reachable, and all distances when there are no targets, if the walks are short enough for
the labels. -/
theorem spxDijkstra_correct (G : MixedGraph n m) (Q : MinQueue.{0, 0, 0} (Fin n) (WithTop ℚ))
    {epsilon : ℚ} (tolerant : 0 ≤ epsilon) (sub : Fin m → ℚ) (potential : Fin n → ℚ) (delta : ℚ)
    (characteristic : TOptSPX) (S T : IndexSet n)
    (nonneg : ∀ a, G.eligible sub delta characteristic a = true →
      0 ≤ G.searchLength potential characteristic a)
    (short : WalksBelow G.src G.dst (fun a => G.eligible sub delta characteristic a = true)
      (members S) (G.searchLength potential characteristic) infFloat) :
    ∃ r, G.spxDijkstra Q infFloat epsilon sub potential delta characteristic S T = .ok r ∧
      ((∃ v : Fin n, T.isMember v = true ∧ ReachableFrom G.src G.dst
          (fun a => G.eligible sub delta characteristic a = true) (members S) v) →
        ∃ u d, G.NearestTarget (G.eligible sub delta characteristic)
          (G.searchLength potential characteristic) S T r u d) ∧
      ((∀ v : Fin n, T.isMember v = false) → ∀ v, (r.dist v = ⊤ ↔ ¬ ReachableFrom G.src G.dst
          (fun a => G.eligible sub delta characteristic a = true) (members S) v) ∧
        ∀ d : ℚ, r.dist v = d → IsDistance G.src G.dst
          (fun a => G.eligible sub delta characteristic a = true)
          (G.searchLength potential characteristic) (members S) v d) := by
  obtain ⟨r, done, level, result, settled⟩ := G.dijkstra_spec Q tolerant nonneg S T short
  refine ⟨r, result, ?_, settled.all_distances nonneg⟩
  rintro ⟨v, isTarget, reachable⟩
  exact settled.nearest nonneg isTarget reachable

/-- An undirected edge followed by a directed arc. -/
def edgeThenArc : MixedGraph 3 2 :=
  MixedGraph.ofArcs ![0, 1] ![1, 2] ![false, true] (fun _ => 1) (fun _ => 0) ![2, 3] fun _ => 0

theorem spxDijkstra_correct_edgeThenArc :
    (∀ a, edgeThenArc.eligible (fun _ => 0) 0 .plain a = true →
      0 ≤ edgeThenArc.searchLength (fun _ => 0) .plain a) ∧
    ∃ r, edgeThenArc.spxDijkstra (MinQueue.table 3 (WithTop ℚ)) infFloat (1 / 10000) (fun _ => 0)
        (fun _ => 0) 0 .plain (.singletonIndex 3 0) (.singletonIndex 3 2) = .ok r ∧
      ∃ u d, edgeThenArc.NearestTarget (edgeThenArc.eligible (fun _ => 0) 0 .plain)
        (edgeThenArc.searchLength (fun _ => 0) .plain) (.singletonIndex 3 0)
        (.singletonIndex 3 2) r u d := by
  have nonneg : ∀ a, edgeThenArc.eligible (fun _ => 0) 0 .plain a = true →
      0 ≤ edgeThenArc.searchLength (fun _ => 0) .plain a := by decide +kernel
  obtain ⟨r, result, found, -⟩ := spxDijkstra_correct edgeThenArc (MinQueue.table 3 (WithTop ℚ))
    (by norm_num : (0 : ℚ) ≤ 1 / 10000) (fun _ => 0) (fun _ => 0) 0 .plain (.singletonIndex 3 0)
    (.singletonIndex 3 2) nonneg (walksBelow_of_card (c := 3) (by norm_num)
      (fun a _ => by revert a; decide +kernel) (WithTop.coe_lt_coe.2 (by norm_num [infFloat])))
  refine ⟨nonneg, r, result, found ⟨2, rfl, 0, [⟨0, false⟩, ⟨1, false⟩], rfl, ⟨rfl, rfl, rfl⟩, ?_⟩⟩
  decide +kernel

/-- Two edges of which each has a length below `InfFloat`, but not both. -/
def longEdges : MixedGraph 3 2 :=
  MixedGraph.ofArcs ![0, 1] ![1, 2] ![false, false] (fun _ => 1) (fun _ => 0)
    (fun _ => 6 * 10 ^ 49) fun _ => 0

/-- The last node gets no label, and as a target it is not found. -/
theorem spxDijkstra_misses_farNode :
    (∀ a, 0 ≤ longEdges.searchLength (fun _ => 0) .plain a) ∧
    ((longEdges.spxDijkstra (MinQueue.table 3 (WithTop ℚ)) infFloat (1 / 10000) (fun _ => 0)
      (fun _ => 0) 0 .plain (.singletonIndex 3 0) (.singletonIndex 3 2)).map
        fun r => (r.target, r.dist 2)) = .ok (none, ⊤) ∧
    ReachableFrom longEdges.src longEdges.dst
      (fun a => longEdges.eligible (fun _ => 0) 0 .plain a = true)
      (members (.singletonIndex 3 0)) 2 :=
  ⟨by decide +kernel, by decide +kernel,
    0, [⟨0, false⟩, ⟨1, false⟩], rfl, ⟨rfl, rfl, rfl⟩, by decide +kernel⟩

end MixedGraph

end Goblin
