import Goblin.Augment
import Goblin.Library.Preorder
import Goblin.Library.Termination

/-!
# Network simplex bases

A `networkSimplex` object maintains a spanning forest of the graph: `pred` leads to the
roots, `depth` counts the arcs on the way, and `thread` lists the nodes of every tree in
preorder. `InitThreadIndex` computes both from the predecessor labels by a depth-first
search, and `ComputePotentials` sets the node potentials by which all tree arcs have
reduced length zero.

`PivotOperation` sends flow along the cycle that the pivot arc closes with the forest, drops a
blocking arc, hangs the detached subtree from the pivot arc, and corrects the thread, the depths and
the potentials.

`NoNode` and `NoArc` are `none`, and an array access by them faults. The loops run with
fuel. Logging is left out.
-/

set_option autoImplicit false

namespace Goblin

open Library Function

/-- The arrays that a pivot works on. -/
structure SimplexState (n m : ℕ) where
  sub : Fin m → ℚ
  potential : Fin n → ℚ
  pred : Fin n → Option (Arc m)
  thread : Fin n → Option (Fin n)
  depth : Fin n → ℕ

/-- The variables of `InitThreadIndex`. The incidences that the investigator has not read
are `unread`. -/
structure ThreadScan (n m : ℕ) where
  unread : Fin n → List (Arc m)
  v : Fin n
  previous : Fin n
  thisDepth : ℕ
  thread : Fin n → Option (Fin n)
  depth : Fin n → ℕ

namespace DiGraph

variable {n m : ℕ} (G : DiGraph n m)

/-! ## InitThreadIndex -/

/-- One iteration of the search from the root `r`. -/
def threadStep (pred : Fin n → Option (Arc m)) (r : Fin n) (s : ThreadScan n m) :
    Except Raise (ThreadScan n m ⊕ ThreadScan n m) :=
  match s.unread s.v with
  | a :: rest =>
    let u := G.endNode a
    let unread := update s.unread s.v rest
    if pred u = some a then
      .ok (.inl {
        unread := unread
        v := u
        previous := u
        thisDepth := s.thisDepth + 1
        thread := update (update s.thread s.previous (some u)) u none
        depth := update s.depth u (s.thisDepth + 1) })
    else .ok (.inl { s with unread := unread })
  | [] =>
    if s.v = r then .ok (.inr s)
    else do
      let a ← defined (pred s.v)
      return .inl { s with v := G.startNode a, thisDepth := s.thisDepth - 1 }

/-- What `InitThreadIndex` does for the node `r`. -/
def threadFrom (pred : Fin n → Option (Arc m)) (s : ThreadScan n m) (r : Fin n) :
    Except Raise (ThreadScan n m) :=
  if pred r ≠ none then .ok s
  else
    loop .fuel (G.threadStep pred r) (4 * m + 1) { s with
      v := r
      previous := r
      thread := update s.thread r none
      depth := update s.depth r s.thisDepth }

/-- `InitThreadIndex`; the arrays are not initialised before. -/
def initThreadIndex (st : SimplexState n m) : Except Raise (SimplexState n m) :=
  match List.finRange n with
  | [] => .ok st
  | v :: _ => do
    let s ← (List.finRange n).foldlM (G.threadFrom st.pred) {
      unread := G.incidences
      v := v
      previous := v
      thisDepth := 0
      thread := st.thread
      depth := st.depth }
    return { st with thread := s.thread, depth := s.depth }

/-! ## ComputePotentials -/

/-- The loop of `ComputePotentials` over one tree. -/
def potentialLoop (st : SimplexState n m) :
    ℕ → Option (Fin n) → (Fin n → ℚ) → Except Raise (Fin n → ℚ)
  | _, none, potential => .ok potential
  | 0, some _, _ => .error .fuel
  | count + 1, some v, potential => do
    let a ← defined (st.pred v)
    potentialLoop st count (st.thread v)
      (update potential v (potential (G.startNode a) + G.redLength (fun _ => 0) a))

def computePotentials (st : SimplexState n m) : Except Raise (SimplexState n m) := do
  let potential ← (List.finRange n).foldlM (fun potential r =>
    if st.pred r ≠ none then .ok potential
    else G.potentialLoop st n (st.thread r) (update potential r 0)) fun _ => 0
  return { st with potential := potential }

/-! ## UpdateThread -/

/-- The successor of `x` once the part from `pr` to `fs` is skipped. -/
def skipPart (pr fs : Option (Fin n)) (thread : Fin n → Option (Fin n)) (x : Fin n) :
    Except Raise ((Fin n → Option (Fin n)) × Option (Fin n)) :=
  if thread x ≠ none ∧ thread x = pr then do
    let f ← defined fs
    return (update thread x (thread f), thread f)
  else .ok (thread, thread x)

/-- The loop of `UpdateThread`. -/
def updateLoop (depth : Fin n → ℕ) (r : Fin n) (pr fs : Option (Fin n)) :
    ℕ → (Fin n → Option (Fin n)) → Fin n → Option (Fin n) →
      Except Raise ((Fin n → Option (Fin n)) × Fin n)
  | _, thread, x, none => .ok (thread, x)
  | 0, _, _, some _ => .error .fuel
  | count + 1, thread, x, some y =>
    if depth r < depth y then do
      let (thread, next) ← skipPart pr fs thread y
      updateLoop depth r pr fs count thread y next
    else .ok (thread, x)

def updateThread (depth : Fin n → ℕ) (thread : Fin n → Option (Fin n)) (r : Fin n)
    (pr fs : Option (Fin n)) : Except Raise ((Fin n → Option (Fin n)) × Fin n) := do
  let (thread, y) ← skipPart pr fs thread r
  let (thread, x) ← updateLoop depth r pr fs n thread r y
  match fs with
  | none => return (thread, x)
  | some f => return (update thread f (some r), x)

/-! ## PivotOperation -/

/-- The search for the pivot cycle, with the residual capacity found so far. -/
def cycleCap (st : SimplexState n m) : ℕ → Fin n → Fin n → ℚ → Except Raise ℚ
  | 0, _, _, _ => .error .fuel
  | count + 1, u, v, delta =>
    if v ≠ u ∧ (0 < st.depth u ∨ 0 < st.depth v) then
      if st.depth v < st.depth u then do
        let a ← defined (st.pred u)
        cycleCap st count (G.startNode a) v (G.narrow st.sub delta a)
      else do
        let a ← defined (st.pred v)
        cycleCap st count u (G.startNode a) (G.narrow st.sub delta a.rev)
    else .ok delta

/-- The flow and the blocking arcs found while pushing along the pivot cycle. -/
structure PivotPush (m : ℕ) where
  sub : Fin m → ℚ
  leftCandidate : Option (Arc m)
  rightCandidate : Option (Arc m)

/-- The second run along the pivot cycle. -/
def cyclePush (st : SimplexState n m) (delta : ℚ) :
    ℕ → Fin n → Fin n → PivotPush m → Except Raise (PivotPush m)
  | 0, _, _, _ => .error .fuel
  | count + 1, u, v, s =>
    if v ≠ u ∧ (0 < st.depth u ∨ 0 < st.depth v) then
      if st.depth v < st.depth u then do
        let a ← defined (st.pred u)
        let sub := push s.sub a delta
        cyclePush st delta count (G.startNode a) v { s with
          sub := sub
          leftCandidate :=
            if G.resCap sub a = 0 ∧ s.leftCandidate = none then some a else s.leftCandidate }
      else do
        let a ← defined (st.pred v)
        let sub := push s.sub a.rev delta
        cyclePush st delta count u (G.startNode a) { s with
          sub := sub
          rightCandidate := if G.resCap sub a.rev = 0 then some a.rev else s.rightCandidate }
    else .ok s

/-- Turn the predecessors around on the path from `v` to the node whose predecessor is
`stop`, and thread the detached subtree from `v` on. `a` is the arc that takes the place
of the predecessor of `v`, reversed. -/
def turnPath (depth : Fin n → ℕ) (stop : Arc m) :
    ℕ → Fin n → Arc m → Fin n → (Fin n → Option (Arc m)) → (Fin n → Option (Fin n)) →
      Except Raise ((Fin n → Option (Arc m)) × (Fin n → Option (Fin n)) × Fin n)
  | 0, _, _, _, _, _ => .error .fuel
  | count + 1, v, a, fs, pred, thread =>
    if pred v = some stop then .ok (update pred v (some a.rev), thread, fs)
    else do
      let a2 ← defined (pred v)
      let (thread, fs') ←
        updateThread depth thread (G.startNode a2) (some (G.endNode a2)) (some fs)
      turnPath depth stop count (G.startNode a2) a2 fs' (update pred v (some a.rev)) thread

/-- The node in front of `w` in the thread, searched for from `v` on. -/
def threadBefore (thread : Fin n → Option (Fin n)) (w : Fin n) : ℕ → Fin n → Except Raise (Fin n)
  | 0, _ => .error .fuel
  | count + 1, v =>
    if thread v = some w then .ok v
    else do
      let next ← defined (thread v)
      threadBefore thread w count next

/-- The last loop: the nodes of the detached subtree from `v` to the one in front of
`stop` get new potentials and depths. -/
def relabelSubtree (pred : Fin n → Option (Arc m)) (thread : Fin n → Option (Fin n)) (mu : ℚ)
    (stop : Option (Fin n)) : ℕ → Option (Fin n) → (Fin n → ℚ) × (Fin n → ℕ) →
      Except Raise ((Fin n → ℚ) × (Fin n → ℕ))
  | 0, v, labels => if v = stop then .ok labels else .error .fuel
  | count + 1, v, labels =>
    if v = stop then .ok labels
    else do
      let w ← defined v
      let a ← defined (pred w)
      relabelSubtree pred thread mu stop count (thread w) (update labels.1 w (labels.1 w + mu),
          update labels.2 w (labels.2 (G.startNode a) + 1))

/-- Exchange the tree arc `stop`, which enters `w` and leaves `q`, for the reverse of `a`,
which enters `r` and leaves `x`. The source has this text twice, for both sides of the
pivot arc. -/
def rehang (st : SimplexState n m) (a stop : Arc m) (r x q w : Fin n) (mu : ℚ) :
    Except Raise (SimplexState n m) := do
  let (thread, fs) ← updateThread st.depth st.thread r none none
  let (pred, thread, fs) ← G.turnPath st.depth stop (n + 1) r a fs st.pred thread
  let z ← threadBefore thread w (n + 1) q
  let thread := update thread z (thread fs)
  let thread := update thread fs (thread x)
  let thread := update thread x (some r)
  -- the node `r` itself is treated in front of the loop
  let b ← defined (pred r)
  let potential := update st.potential r (st.potential r + mu)
  let depth := update st.depth r (st.depth (G.startNode b) + 1)
  let labels ← G.relabelSubtree pred thread mu (thread fs) n (thread r) (potential, depth)
  return { st with pred := pred, thread := thread, potential := labels.1, depth := labels.2 }

/-- `PivotOperation`; the flag tells that the problem is unbounded. -/
def pivotOperation (st : SimplexState n m) (pivot : Arc m) :
    Except Raise (Bool × SimplexState n m) := do
  let u := G.startNode pivot
  let v := G.endNode pivot
  let delta ← G.cycleCap st (2 * n + 1) u v (G.resCap st.sub pivot)
  if delta = infCap then return (true, st)
  else do
    let sub := push st.sub pivot delta
    let pushed ← G.cyclePush st delta (2 * n + 1) u v {
      sub := sub
      leftCandidate := none
      rightCandidate := if G.resCap sub pivot = 0 then some pivot else none }
    let st := { st with sub := pushed.sub }
    let mu := G.redLength st.potential pivot
    match pushed.rightCandidate with
    | some leaving =>
      if leaving = pivot then return (false, st)
      else do
        let st ← G.rehang st pivot.rev leaving.rev v u (G.endNode leaving) (G.startNode leaving) mu
        return (false, st)
    | none => do
      let leaving ← defined pushed.leftCandidate
      let st ← G.rehang st pivot leaving u v (G.startNode leaving) (G.endNode leaving) (-mu)
      return (false, st)

end DiGraph

end Goblin
