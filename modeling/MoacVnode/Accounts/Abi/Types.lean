import MoacVnode.Core.DatabaseKeys

/-!
# ABI types

The types of the arguments of a contract method, as `NewType` builds them from their names.  A
name is an elementary type or a one-dimensional array of one; the regular expressions that take
it apart are left out.

The type of an array of `bytesN`, `bytes` or `function` is returned before its kind and its tag
are set: both keep their zero value.
-/

namespace MoacVnode.Accounts.Abi

open MoacVnode.Core

/-- The tag `T` of a type; `IntTy` is the zero value. -/
inductive TypeTag where
  | intTy
  | uintTy
  | boolTy
  | stringTy
  | sliceTy
  | addressTy
  | fixedBytesTy
  | bytesTy
  | hashTy
  | fixedPointTy
  | functionTy
  deriving DecidableEq, Repr

/-- The values of `reflect.Kind` that the package uses; `Invalid` is the zero value. -/
inductive Kind where
  | invalid
  | bool
  | uint8
  | uint16
  | uint32
  | uint64
  | int8
  | int16
  | int32
  | int64
  | ptr
  | array
  | slice
  | string
  deriving DecidableEq, Repr

structure Component where
  isSlice : Bool := false
  isArray : Bool := false
  sliceSize : Int := 0
  kind : Kind := .invalid
  size : Int := 0
  tag : TypeTag := .intTy
  deriving DecidableEq, Repr

/-- `Type`; the element of an array is an elementary type. -/
structure AbiType extends Component where
  elem : Option Component := none
  deriving DecidableEq, Repr

/-- The name of an elementary type; an `int` or `uint` without a size has the size 0 here, and
`bytes0` is `bytes`. -/
inductive Elementary where
  | int (bits : Nat)
  | uint (bits : Nat)
  | bool
  | address
  | string
  | bytes
  | fixedBytes (size : Nat)
  | function
  deriving DecidableEq, Repr

inductive TypeName where
  | single (elem : Elementary)
  | slice (elem : Elementary)
  | array (elem : Elementary) (size : Nat)
  deriving DecidableEq, Repr

def reflectIntKind (unsigned : Bool) (size : Nat) : Kind :=
  if size = 8 then if unsigned then .uint8 else .int8
  else if size = 16 then if unsigned then .uint16 else .int16
  else if size = 32 then if unsigned then .uint32 else .int32
  else if size = 64 then if unsigned then .uint64 else .int64
  else .ptr

def canonicalBits (bits : Nat) : Nat := if bits = 0 then 256 else bits

def Elementary.component : Elementary → Component
  | .int bits =>
    { kind := reflectIntKind false (canonicalBits bits), size := canonicalBits bits,
      tag := .intTy }
  | .uint bits =>
    { kind := reflectIntKind true (canonicalBits bits), size := canonicalBits bits,
      tag := .uintTy }
  | .bool => { kind := .bool, tag := .boolTy }
  | .address => { kind := .array, size := 20, tag := .addressTy }
  | .string => { kind := .string, size := -1, tag := .stringTy }
  | .bytes => { isSlice := true, sliceSize := -1, tag := .bytesTy }
  | .fixedBytes size => { isArray := true, sliceSize := size, tag := .fixedBytesTy }
  | .function => { isArray := true, sliceSize := 24, tag := .functionTy }

/-- `strconv.Atoi`, whose error is ignored: a number that is too large reads as the largest. -/
def atoi (number : Nat) : Int := min (number : Int) (2 ^ 63 - 1)

def newType : TypeName → AbiType
  | .single elem =>
    match elem with
    | .bytes | .fixedBytes _ | .function =>
      { elem.component with elem := some (Elementary.uint 8).component }
    | _ => { elem.component with elem := none }
  | .slice elem => arrayType { isSlice := true, sliceSize := -1 } elem.component
  | .array elem size => arrayType { isArray := true, sliceSize := atoi size } elem.component
where
  /-- The kind and tag of an array are those of its element, unless that is an array. -/
  arrayType (shape elem : Component) : AbiType :=
    if elem.isArray ∨ elem.isSlice then { shape with elem := some elem }
    else { shape with kind := elem.kind, size := elem.size, tag := elem.tag, elem := some elem }

/-- A Go value that is not an array of others. -/
inductive Scalar where
  | num (kind : Kind) (val : Int)
  | bool (val : Bool)
  | address (val : Address)
  | hash (val : Hash)
  | bytes (val : List UInt8)
  deriving DecidableEq, Repr

/-- The Go values that are packed and unpacked; a slice has the kind of its element type. -/
inductive GoValue where
  | scalar (val : Scalar)
  | string (val : List UInt8)
  | list (elemKind : Kind) (items : List Scalar)
  deriving DecidableEq, Repr

end MoacVnode.Accounts.Abi
