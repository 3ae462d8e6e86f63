import Goblin.SparseGraph
import Goblin.Library.Decimal

/-!
# Base types of attributes

The entries of an attribute are indices, floating point numbers, orientations, integers,
Boolean values or strings. An entry of a file is converted according to the base type:
`atol`, `atoi` and `atof` read the beginning of a text, as the C library does.

A string attribute does not copy what it reads. Its entries point into the buffer of the reader,
which has its own form here (`TString.inBuffer`).
-/

set_option autoImplicit false

namespace Goblin

open Goblin.Library

/-- `TBaseType` -/
inductive BaseType where
  | nodeIndex
  | arcIndex
  | floatValue
  | capValue
  | index
  | orientation
  | int
  | bool
  | string
  | varIndex
  | restrIndex
  | special
  deriving DecidableEq, Repr

/-- A `char*` value. -/
inductive TString where
  | null
  | text (chars : List Char)
  /-- A pointer into the buffer of a `goblinImport` object. -/
  | inBuffer
  deriving DecidableEq, Repr

/-- An entry of an attribute. Indices of all kinds are of type `unsigned long`. -/
inductive Value where
  | index (value : UInt64)
  | float (value : ℚ)
  | orientation (value : Int8)
  | int (value : Int32)
  | bool (value : Bool)
  | string (value : TString)
  deriving DecidableEq

/-- `NoNode` -/
def noNodeValue : UInt64 := 200000

/-- `NoArc`, `NoIndex`, `NoVar` and `NoRestr` -/
def noIndexValue : UInt64 := 2000000000

/-- `UndefinedVoidPtr` -/
def BaseType.undefined : BaseType → Value
  | .nodeIndex => .index noNodeValue
  | .arcIndex | .index | .varIndex | .restrIndex => .index noIndexValue
  | .floatValue => .float infFloat
  | .capValue => .float infCap
  | .orientation => .orientation 0
  | .int => .int 0
  | .bool => .bool false
  | .string | .special => .string .null

/-! ## Conversions -/

/-- A text without its sign, and whether it is negative. -/
def signOf : List Char → Bool × List Char
  | '-' :: text => (true, text)
  | '+' :: text => (false, text)
  | text => (false, text)

section

variable (text : List Char)

/-- The integer at the beginning of a text. -/
def leadingInt : Int :=
  let (negative, text) := signOf (text.dropWhile isSpace)
  let value : Int := Nat.ofDigitChars 10 (text.takeWhile Char.isDigit) 0
  if negative then -value else value

/-- `atol`, which does not exceed the range of the type. -/
def atol : Int64 :=
  Int64.ofIntClamp (leadingInt text)

/-- `atoi`, which keeps the low bits. -/
def atoi : Int32 :=
  (atol text).toInt32

/-- `atof`, for texts in decimal -/
def atof : ℚ :=
  let (negative, text) := signOf (text.dropWhile isSpace)
  let whole := text.takeWhile Char.isDigit
  let text := text.dropWhile Char.isDigit
  let (fraction, text) := match text with
    | '.' :: text => (text.takeWhile Char.isDigit, text.dropWhile Char.isDigit)
    | text => ([], text)
  let exponent := match text with
    | 'e' :: text => leadingInt text
    | 'E' :: text => leadingInt text
    | _ => 0
  let digits := Nat.ofDigitChars 10 (whole ++ fraction) 0
  let value := (digits : ℚ) / 10 ^ fraction.length * 10 ^ exponent
  if negative then -value else value

end

/-- `TNode(atol(label))` and the like -/
def indexOf (label : List Char) : UInt64 :=
  (atol label).toUInt64

/-- What `ReadTupleValues` stores for an entry of a file. Undefined entries are recognised for four
of the types. -/
def BaseType.read (type : BaseType) (label : List Char) : Value :=
  match type with
  | .nodeIndex => if label = ['*'] then .index noNodeValue else .index (indexOf label)
  | .arcIndex => if label = ['*'] then .index noIndexValue else .index (indexOf label)
  | .floatValue => if label = ['*'] then .float infFloat else .float (atof label)
  | .capValue => if label = ['*'] then .float infCap else .float (atof label)
  | .index | .varIndex | .restrIndex => .index (indexOf label)
  | .orientation => .orientation (atoi label).toInt8
  | .int => .int (atoi label)
  | .bool => .bool (atoi label ≠ 0)
  | .string => .string .inBuffer
  | .special => .string .null

/-! ## Tables -/

/-- `TPoolTable` -/
structure PoolEntry where
  tokenLabel : List Char
  arrayType : BaseType
  arrayDim : ArrayDim
  primaryIndex : Nat

/-- An `attributePool` as the attributes with their tokens. -/
structure AttributePool where
  attributes : List (Nat × Attribute Value)

namespace AttributePool

/-- `FindAttribute`, for a primary token -/
def findAttribute (pool : AttributePool) (token : Nat) : Option (Attribute Value) :=
  (pool.attributes.find? fun A => A.1 = token).map Prod.snd

/-- `GetValue`, for a primary token -/
def getValue (pool : AttributePool) (token i : Nat) (default : Value) : Value :=
  match pool.findAttribute token with
  | some A => A.getValue i
  | none => default

section

variable (pool : AttributePool) (token : Nat)

/-- The attribute with this token is replaced. -/
def setAttribute (A : Attribute Value) : AttributePool :=
  ⟨pool.attributes.map fun B => if B.1 = token then (token, A) else B⟩

def releaseAttribute : AttributePool :=
  ⟨pool.attributes.eraseP fun A => A.1 = token⟩

/-- The size is adjusted by `MakeAttribute`. -/
def resize (size : Nat) (A : Attribute Value) : Attribute Value :=
  if size = 0 then
    if 1 < A.size then A.eraseItems (A.size - 1)
    else if A.size = 0 then { A with data := [A.defaultValue] }
    else A
  else if A.size < size then
    { A with data := A.data ++ List.replicate (size - A.size) A.defaultValue }
  else if size < A.size then A.eraseItems (A.size - size)
  else A

/-- `MakeAttribute` with `ATTR_REQ_SINGLETON`, for a primary token. A new attribute has an entry
even if nothing can be represented. -/
def makeAttribute (type : BaseType) (size capacity : Nat) :
    AttributePool × Attribute Value :=
  match pool.findAttribute token with
  | some A =>
    let A := { resize size A with defaultValue := type.undefined }
    (pool.setAttribute token A, A)
  | none =>
    let size := if capacity = 0 then 1 else size
    let A : Attribute Value := ⟨List.replicate size type.undefined, type.undefined⟩
    (⟨(token, A) :: pool.attributes⟩, A)

end

end AttributePool

end Goblin
