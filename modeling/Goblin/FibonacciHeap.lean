import Goblin.Augment
import Goblin.Library.Chains
import Goblin.Library.QueueRequests

/-!
# Fibonacci heaps

A `fibonacciHeap` is a forest of items in which no key is smaller than the key of the parent. The
children of an item are doubly linked by `next` and `previous`, starting at `first`, and know their
parent by `pred`; `rank` is the number of children. The roots are linked by `nextLink`, starting at
`firstLink`. `Cut` turns a child into a root, and with it every marked ancestor up to the first one
that is not marked. `Restore` links roots of equal rank by means of the array `bucket`, and thereby
turns roots into children.

`UNDEFINED` is the capacity `n`. An access to `bucket` beyond its `k` entries is a fault.
-/

set_option autoImplicit false

namespace Goblin

open Library Function

/-- `TStatus` -/
inductive FibonacciStatus where
  | unmarkedChild
  | markedChild
  | rootNode
  | notQueued
deriving DecidableEq

/-- A `fibonacciHeap` for the items below `n`. -/
structure FibonacciHeap (K : Type) where
  n : ℕ
  k : ℕ
  undefined : ℕ
  card : ℕ
  minimal : ℕ
  firstLink : ℕ
  pred : ℕ → ℕ
  first : ℕ → ℕ
  next : ℕ → ℕ
  previous : ℕ → ℕ
  rank : ℕ → ℕ
  bucket : ℕ → ℕ
  nextLink : ℕ → ℕ
  status : ℕ → FibonacciStatus
  key : ℕ → K

namespace FibonacciHeap

variable {K : Type}

/-- The assignments by which `Init` and the constructor clear the heap. -/
def clear (h : FibonacciHeap K) : FibonacciHeap K :=
  { h with
    status := fun _ => .notQueued
    bucket := fun _ => h.undefined
    nextLink := fun _ => h.undefined
    card := 0
    minimal := h.undefined
    firstLink := h.undefined }

/-- The constructor. The other arrays keep what is in the memory. -/
def new (n : ℕ) (memory : FibonacciHeap K) : FibonacciHeap K :=
  clear { memory with
      n := n
      k := n
      undefined := n }

variable (h : FibonacciHeap K)

/-- The item is in the list of children of another one. -/
def isChild (x : ℕ) : Bool :=
  h.status x == .unmarkedChild || h.status x == .markedChild

def push (w : ℕ) : Except Raise (FibonacciHeap K) :=
  if h.n ≤ w ∨ h.status w ≠ .rootNode then .error (.rejected "Push" "Not a root")
  else .ok { h with
    nextLink := update h.nextLink w h.firstLink
    firstLink := w }

/-- An access to `bucket[r]`. -/
def bucketAt (r : ℕ) : Except Raise ℕ := if r < h.k then .ok (h.bucket r) else .error .fault

/-- Take `v` out of the children of `x`, by the pointers to its neighbours `u` and `w`. -/
def detach (v : ℕ) : FibonacciHeap K :=
  let x := h.pred v
  let u := h.previous v
  let w := h.next v
  { h with
    first := if u = h.undefined then update h.first x w else h.first
    next := if u = h.undefined then h.next else update h.next u w
    previous := if w = h.undefined then h.previous else update h.previous w u
    status := update h.status v .rootNode }

/-- Put `v` in front of the children of `w`. -/
def attach (v w : ℕ) : FibonacciHeap K :=
  let x := h.first w
  { h with
    pred := update h.pred v w
    status := update h.status v .unmarkedChild
    first := update h.first w v
    previous :=
      if x = h.undefined then update h.previous v h.undefined
      else update (update h.previous v h.undefined) x v
    next := update h.next v x
    rank := update h.rank w (h.rank w + 1) }

/-- Take `v` out of its bucket. -/
def vacate (v : ℕ) : Except Raise (FibonacciHeap K) := do
  let b ← h.bucketAt (h.rank v)
  return if v = b then { h with bucket := update h.bucket (h.rank v) h.undefined } else h

/-- Put `v` into its bucket. -/
def occupy (v : ℕ) : FibonacciHeap K := { h with bucket := update h.bucket (h.rank v) v }

variable [LinearOrder K]

/-- The assignment of a new minimum. -/
def updateMinimal (v : ℕ) : FibonacciHeap K :=
  if h.minimal = h.undefined ∨ h.key v < h.key h.minimal then { h with minimal := v } else h

def insert (w : ℕ) (alpha : K) : Except Raise (FibonacciHeap K) :=
  if h.n ≤ w then .error (.range "Insert" "No such item")
  else if h.status w ≠ .notQueued then .error (.rejected "Insert" "Already on queue")
  else do
    let h ← push
      { h with
        first := update h.first w h.undefined
        rank := update h.rank w 0
        status := update h.status w .rootNode
        key := update h.key w alpha
        nextLink := update h.nextLink w h.undefined
        card := h.card + 1 } w
    return h.updateMinimal w

def link : ℕ → FibonacciHeap K → ℕ → ℕ → Except Raise (FibonacciHeap K)
  | 0, _, _, _ => .error .fuel
  | fuel + 1, h, v, w =>
    if h.n ≤ v then .error (.range "Link" "No such item")
    else if h.status v ≠ .rootNode then .error (.rejected "Link" "Not a root")
    else if h.n ≤ w then .error (.range "Link" "No such item")
    else if h.status w ≠ .rootNode then .error (.rejected "Link" "Not a root")
    else do
      let (v, w) := if h.key v < h.key w then (w, v) else (v, w)
      let h ← h.vacate v
      let h ← h.vacate w
      let h := h.attach v w
      let b ← h.bucketAt (h.rank w)
      if b = h.undefined then return h.occupy w else link fuel h w b

/-- The first loop of `Restore`, from the item `x` on. -/
def consolidate : ℕ → FibonacciHeap K → ℕ → Except Raise (FibonacciHeap K)
  | 0, _, _ => .error .fuel
  | fuel + 1, h, x =>
    if x ≠ h.undefined then do
      let h ← (if h.status x = .rootNode then do
          let b ← h.bucketAt (h.rank x)
          if b = h.undefined then return h.occupy x else link (h.n + 1) h x b
        else .ok h)
      consolidate fuel h (h.nextLink x)
    else .ok h

/-- The second loop of `Restore`, from the item `x` on; `y` is the last root. -/
def sweep : ℕ → FibonacciHeap K → ℕ → ℕ → Except Raise (FibonacciHeap K)
  | 0, _, _, _ => .error .fuel
  | fuel + 1, h, y, x =>
    if x ≠ h.undefined then
      if h.status x ≠ .rootNode then
        sweep fuel { h with
            firstLink := if y = h.undefined then h.nextLink x else h.firstLink
            nextLink := if y = h.undefined then h.nextLink
              else update h.nextLink y (h.nextLink x) }
          y (h.nextLink x)
      else sweep fuel (h.updateMinimal x) x (h.nextLink x)
    else .ok h

def restore : Except Raise (FibonacciHeap K) := do
  let h ← consolidate (h.n + 1)
    { h with
      bucket := fun _ => h.undefined
      minimal := h.undefined } h.firstLink
  sweep (h.n + 1) h h.undefined h.firstLink

def cut : ℕ → FibonacciHeap K → ℕ → Except Raise (FibonacciHeap K)
  | 0, _, _ => .error .fuel
  | fuel + 1, h, v =>
    if h.n ≤ v then .error (.range "Cut" "No such item")
    else if h.isChild v = false then .error (.rejected "Cut" "Cut node is a root")
    else do
      let x := h.pred v
      let h ← (h.detach v).push v
      let h := h.updateMinimal v
      let h ← (if h.status x = .markedChild then cut fuel h x
        else if h.status x = .unmarkedChild then
          .ok { h with status := update h.status x .markedChild }
        else .ok h)
      return { h with rank := update h.rank x (h.rank x - 1) }

/-- The loops of `Delete(w)` and `ChangeKey` over the children from `x` on. -/
def cutChildren (selected : ℕ → Bool) : ℕ → FibonacciHeap K → ℕ → Except Raise (FibonacciHeap K)
  | 0, _, _ => .error .fuel
  | fuel + 1, h, x =>
    if x ≠ h.undefined then do
      let y := h.next x
      let h ← (if selected x then cut (h.n + 1) h x else .ok h)
      cutChildren selected fuel h y
    else .ok h

/-- `Delete(w)` -/
def deleteItem (w : ℕ) : Except Raise (FibonacciHeap K) :=
  if h.n ≤ w ∨ h.status w = .notQueued then .error (.range "Delete" "No such item")
  else do
    let h ← cutChildren (fun _ => true) (h.n + 1) h (h.first w)
    let h ← (if h.isChild w then cut (h.n + 1) h w else .ok h)
    restore { h with
        status := update h.status w .notQueued
        card := h.card - 1 }

/-- `Delete()` -/
def delete : Except Raise (FibonacciHeap K × ℕ) :=
  if h.card = 0 then .error (.rejected "Delete" "Heap is empty")
  else do
    let ret := h.minimal
    return (← h.deleteItem ret, ret)

def changeKey (w : ℕ) (alpha : K) : Except Raise (FibonacciHeap K) :=
  if h.n ≤ w ∨ h.status w = .notQueued then .error (.range "ChangeKey" "No such item")
  else if h.key w < alpha then
    let h := { h with key := update h.key w alpha }
    cutChildren (fun x => h.key x < h.key w) (h.n + 1) h (h.first w)
  else
    let h := { h with key := update h.key w alpha }
    if h.status w ≠ .rootNode ∧ h.status w ≠ .notQueued ∧ h.pred w ≠ h.undefined ∧
        alpha < h.key (h.pred w) then
      cut (h.n + 1) h w
    else .ok h

def peek : Except Raise ℕ :=
  if h.card = 0 then .error (.rejected "PEEK" "Heap is empty") else .ok h.minimal

/-- The loop by which `Init` empties a heap with few items. -/
def drain : ℕ → FibonacciHeap K → Except Raise (FibonacciHeap K)
  | 0, _ => .error .fuel
  | fuel + 1, h =>
    if h.card = 0 then .ok h
    else do
      let (h, _) ← h.delete
      drain fuel h

def init : Except Raise (FibonacciHeap K) :=
  if h.card * 100 < h.n then drain (h.card + 1) h else .ok h.clear

/-- The operations by request, with the item that `Delete()` returns. -/
def serve (request : QueueRequest K) (h : FibonacciHeap K) :
    Except Raise (FibonacciHeap K × Option ℕ) :=
  match request with
  | .insert w alpha => do return (← h.insert w alpha, none)
  | .deleteItem w => do return (← h.deleteItem w, none)
  | .delete => do
    let (h, w) ← h.delete
    return (h, some w)
  | .changeKey w alpha => do return (← h.changeKey w alpha, none)
  | .init => do return (← h.init, none)

end FibonacciHeap

end Goblin
