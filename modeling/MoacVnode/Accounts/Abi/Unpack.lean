import MoacVnode.Accounts.Abi.Types
import MoacVnode.Lib.Slices

/-!
# Unpacking ABI data

`toGoType` and `toGoSlice` of `unpack.go`.  Offsets and lengths are words of the data; their
low 64 bits are converted to an `int` and added and multiplied in 64 bits before they are
compared with the length of the data.

A slice of a slice can reach up to the capacity; here any access behind the end of the data
counts as a fault.
-/

namespace MoacVnode.Accounts.Abi

open MoacVnode.Core Lib

/-- What a type error expects: a kind, or an array of one. -/
inductive Expected where
  | kind (kind : Kind)
  | arrayOf (size : Int) (kind : Kind)
  deriving DecidableEq, Repr

/-- The errors of the package, with the numbers of their texts; the Go type of a value that does
not fit is left out. -/
inductive AbiError where
  /-- `abi: cannot marshal in to go slice: insufficient size output %d require %d`. -/
  | goSliceSize (output require : Int)
  /-- `abi: unsupported slice type %v`. -/
  | unsupportedSliceType (tag : TypeTag)
  /-- `abi: cannot marshal in to go slice: offset %d would go over slice boundary (len=%d)`. -/
  | goSliceOffset (output bound : Int)
  /-- `abi: cannot marshal in to go array: offset %d would go over slice boundary (len=%d)`. -/
  | goArrayOffset (output bound : Int)
  /-- `abi: cannot marshal in to go type: length insufficient %d require %d`. -/
  | goTypeLength (output require : Int)
  /-- `abi: fatal error: incorrect word length`. -/
  | wordLength
  /-- `abi: improperly encoded boolean value`. -/
  | badBool
  /-- `abi: unknown type %v`. -/
  | unknownType (tag : TypeTag)
  /-- `abi: cannot use %v as type %v as argument`. -/
  | typeErr (expected : Expected)
  /-- `argument count mismatch: %d for %d`. -/
  | argumentCount (args inputs : Nat)
  deriving DecidableEq, Repr

/-- How a call ends; `fault` is an access behind the data. -/
inductive Outcome (α : Type) where
  | value (res : α)
  | error (reason : AbiError)
  | fault
  deriving DecidableEq, Repr

namespace Outcome

variable {α β : Type}

def bind (outcome : Outcome α) (next : α → Outcome β) : Outcome β :=
  match outcome with
  | .value res => next res
  | .error reason => .error reason
  | .fault => .fault

instance : Monad Outcome where
  pure := .value
  bind := bind

-- proved by tactic, so that `simp` leaves proof terms: the kernel would evaluate the numbers
-- of 64 bits in them to compare both sides
@[simp]
theorem value_bind (res : α) (next : α → Outcome β) : (Outcome.value res >>= next) = next res := by
  rfl

@[simp]
theorem error_bind (reason : AbiError) (next : α → Outcome β) :
    ((Outcome.error reason : Outcome α) >>= next) = .error reason := by
  rfl

@[simp]
theorem fault_bind (next : α → Outcome β) : ((Outcome.fault : Outcome α) >>= next) = .fault := by
  rfl

def access (slice : Option α) : Outcome α :=
  match slice with
  | some res => .value res
  | none => .fault

@[simp]
theorem access_some (res : α) : access (some res) = .value res := by rfl

@[simp]
theorem access_none : access (none : Option α) = .fault := by rfl

theorem bind_eq_value_iff {outcome : Outcome α} {next : α → Outcome β} {res : β} :
    (outcome >>= next) = .value res ↔ ∃ mid, outcome = .value mid ∧
      next mid = .value res := by
  cases outcome <;> simp

theorem access_eq_value_iff {slice : Option α} {res : α} :
    access slice = .value res ↔ slice = some res := by
  cases slice <;> simp

end Outcome

open Outcome (access)

/-- The value of an `int` operation on 64 bits. -/
def wrap (value : Int) : Int := (value + 2 ^ 63) % 2 ^ 64 - 2 ^ 63

variable (bytes : List UInt8)

/-- `int(binary.BigEndian.Uint64(bytes))`. -/
def intOfUint64 : Int := wrap (beNat bytes)

/-- The signed value of the low bits of a word. -/
def signed (bits : Nat) (value : Nat) : Int := (BitVec.ofNat bits value).toInt

def readInteger (kind : Kind) (word : List UInt8) : Scalar :=
  let low (size : Nat) := beNat (word.drop (word.length - size))
  match kind with
  | .uint8 => .num .uint8 (low 1)
  | .uint16 => .num .uint16 (low 2)
  | .uint32 => .num .uint32 (low 4)
  | .uint64 => .num .uint64 (low 8)
  | .int8 => .num .int8 (signed 8 (low 1))
  | .int16 => .num .int16 (signed 16 (low 2))
  | .int32 => .num .int32 (signed 32 (low 4))
  | .int64 => .num .int64 (signed 64 (low 8))
  | _ => .num .ptr (beNat word)

def readBool (word : List UInt8) : Outcome Bool :=
  if word.length ≠ 32 then .error .wordLength
  else if word.take 31 ≠ List.replicate 31 0 then .error .badBool
  else
    match word.drop 31 with
    | [0] => .value false
    | [1] => .value true
    | _ => .error .badBool

def supportedElem : TypeTag → Bool
  | .intTy | .uintTy | .boolTy | .addressTy | .hashTy | .fixedBytesTy => true
  | _ => false

/-- An element of an array; integers are read by the kind of the array. -/
def readElem (kind : Kind) (tag : TypeTag) (word : List UInt8) : Outcome Scalar :=
  match tag with
  | .boolTy => do
      let value ← readBool word
      .value (.bool value)
  | .addressTy => .value (.address (bytesToAddress word))
  | .hashTy => .value (.hash (bytesToHash word))
  | .fixedBytesTy => .value (.bytes word)
  | _ => .value (readInteger kind word)

def readElems (kind : Kind) (tag : TypeTag) (data : List UInt8) : Nat → Nat → Outcome (List Scalar)
  | 0, _ => .value []
  | count + 1, idx => do
      let start := wrap (idx * 32)
      let word ← access (slice data start (wrap (start + 32)))
      let item ← readElem kind tag word
      let items ← readElems kind tag data count (idx + 1)
      .value (item :: items)

def readOffset (idx : Int) (output : List UInt8) : Outcome Int := do
  let word ← access (slice output (wrap (idx + 24)) (wrap (idx + 32)))
  .value (intOfUint64 word)

/-- The data of an array that starts at an offset, and the length that is read there. -/
def sliceAt (off : Int) (output : List UInt8) : Outcome (List UInt8 × Int) :=
  if wrap (off + 32) > output.length then
    .error (.goSliceOffset output.length (wrap (off + 32)))
  else do
    let data ← access (sliceFrom output off)
    let sizeWord ← access (slice data 24 32)
    let data ← access (sliceFrom data 32)
    .value (data, intOfUint64 sizeWord)

/-- The check of the end of the elements, and the slice expression for them. -/
def takeWindow (reason : AbiError) (data : List UInt8) (start stop size : Int) :
    Outcome (List UInt8 × Int) :=
  if stop > data.length then .error reason
  else do
    let window ← access (slice data start stop)
    .value (window, size)

def sliceData (idx : Int) (output : List UInt8) : Outcome (List UInt8 × Int) := do
  let off ← readOffset idx output
  let (data, size) ← sliceAt off output
  let stop := wrap (size * 32)
  takeWindow (.goSliceSize output.length (wrap (wrap (off + 32) + stop))) data 0 stop size

def arrayData (idx size : Int) (output : List UInt8) : Outcome (List UInt8 × Int) :=
  let stop := wrap (idx + wrap (32 * size))
  takeWindow (.goArrayOffset output.length stop) output idx stop size

variable (type : AbiType)

def AbiType.elementData (idx : Int) (output : List UInt8) : Outcome (List UInt8 × Int) :=
  if type.isSlice then sliceData idx output
  else if type.isArray then arrayData idx type.sliceSize output
  else .value ([], 0)

def refSliceKind (kind : Kind) (tag : TypeTag) : Kind :=
  match tag with
  | .addressTy | .hashTy => .array
  | .fixedBytesTy => .slice
  | _ =>
    match kind with
    | .bool | .uint8 | .uint16 | .uint32 | .uint64 | .int8 | .int16 | .int32 | .int64 => kind
    | _ => .ptr

def toGoSlice (i : Nat) (type : AbiType) (output : List UInt8) : Outcome GoValue :=
  let idx := wrap (i * 32)
  if wrap (idx + 32) > output.length then .error (.goSliceSize output.length (wrap (idx + 32)))
  else
    match type.elem with
    | none => .fault
    | some elem =>
      if supportedElem elem.tag then do
        let (data, size) ← type.elementData idx output
        let items ← readElems type.kind elem.tag data size.toNat 0
        .value (.list (refSliceKind type.kind elem.tag) items)
      else .error (.unsupportedSliceType elem.tag)

/-- The length of a string that starts at an offset. -/
def stringAt (off : Int) (output : List UInt8) : Outcome Int :=
  if wrap (off + 32) > output.length then
    .error (.goTypeLength output.length (wrap (off + 32)))
  else do
    let sizeWord ← access (slice output (wrap (off + 24)) (wrap (off + 32)))
    .value (intOfUint64 sizeWord)

def stringData (idx : Int) (output : List UInt8) : Outcome (List UInt8) := do
  let off ← readOffset idx output
  let size ← stringAt off output
  let stop := wrap (wrap (off + 32) + size)
  if stop > output.length then .error (.goTypeLength output.length stop)
  else access (slice output (wrap (off + 32)) stop)

def AbiType.decodedAsSlice : Bool :=
  (type.isSlice || type.isArray) && type.tag ∉ [.bytesTy, .stringTy, .fixedBytesTy, .functionTy]

def AbiType.returnOutput (idx : Int) (output : List UInt8) : Outcome (List UInt8) :=
  match type.tag with
  | .stringTy | .bytesTy => stringData idx output
  | _ => access (slice output idx (wrap (idx + 32)))

def AbiType.convert (returnOutput : List UInt8) : Outcome GoValue :=
  match type.tag with
  | .intTy | .uintTy => .value (.scalar (readInteger type.kind returnOutput))
  | .boolTy => do
      let value ← readBool returnOutput
      .value (.scalar (.bool value))
  | .addressTy => .value (.scalar (.address (bytesToAddress returnOutput)))
  | .hashTy => .value (.scalar (.hash (bytesToHash returnOutput)))
  | .bytesTy | .fixedBytesTy | .functionTy => .value (.scalar (.bytes returnOutput))
  | .stringTy => .value (.string returnOutput)
  | tag => .error (.unknownType tag)

def toGoType (i : Nat) (type : AbiType) (output : List UInt8) : Outcome GoValue :=
  if type.decodedAsSlice then toGoSlice i type output
  else
    let idx := wrap (i * 32)
    if wrap (idx + 32) > output.length then
      .error (.goTypeLength output.length (wrap (idx + 32)))
    else do
      let returnOutput ← type.returnOutput idx output
      type.convert returnOutput

/-- The length that the decoder reads of the data at a position and converts to an `int`. -/
def lengthRead (i : Nat) (type : AbiType) (output : List UInt8) : Outcome (Option Int) :=
  let idx := wrap (i * 32)
  if wrap (idx + 32) > output.length then .value none
  else if type.decodedAsSlice then
    match type.elem with
    | none => .value none
    | some elem =>
      if supportedElem elem.tag ∧ type.isSlice then do
        let off ← readOffset idx output
        let (_, size) ← sliceAt off output
        .value (some size)
      else .value none
  else
    match type.tag with
    | .stringTy | .bytesTy => do
        let off ← readOffset idx output
        let size ← stringAt off output
        .value (some size)
    | _ => .value none

end MoacVnode.Accounts.Abi
