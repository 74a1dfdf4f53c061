import MoacVnode.Accounts.Abi.Unpack

/-!
# Packing the arguments of a method

`Method.pack` with `Type.pack`, `packElement`, `packNum` and the type checks.
-/

namespace MoacVnode.Accounts.Abi

open MoacVnode.Core

def Scalar.kind : Scalar → Kind
  | .num kind _ => kind
  | .bool _ => .bool
  | .address _ | .hash _ => .array
  | .bytes _ => .slice

def Scalar.arrayBytes : Scalar → List UInt8
  | .address val => bigEndian 20 val.toNat
  | .hash val => bigEndian 32 val.toNat
  | .bytes val => val
  | _ => []

def GoValue.kind : GoValue → Kind
  | .scalar val => val.kind
  | .string _ => .string
  | .list _ _ => .slice

/-- `Type().Elem().Kind()` of an array or a slice. -/
def GoValue.elemKind : GoValue → Kind
  | .list elemKind _ => elemKind
  | _ => .uint8

def GoValue.elements : GoValue → List Scalar
  | .scalar val => val.arrayBytes.map fun byte => .num .uint8 byte.toNat
  | .string _ => []
  | .list _ items => items

def GoValue.len (val : GoValue) : Nat := val.elements.length

def bytesTypeCheck (elem : Component) (val : Scalar) : Outcome Unit :=
  if val.kind ≠ .slice ∧ val.kind ≠ .array then
    .error (.typeErr (.arrayOf elem.sliceSize elem.kind))
  else if elem.isArray ∧ (val.arrayBytes.length : Int) ≠ elem.sliceSize then
    .error (.typeErr (.arrayOf elem.sliceSize .uint8))
  else .value ()

variable (type : AbiType)

/-- `sliceTypeCheck`; the first element of an empty array is an access behind its end. -/
def sliceTypeCheck (val : GoValue) : Outcome Unit :=
  if val.kind ≠ .slice ∧ val.kind ≠ .array then
    .error (.typeErr (.arrayOf type.sliceSize type.kind))
  else
    match type.elem with
    | none => .fault
    | some elem =>
      let checkFirst :=
        match val.elements with
        | [] => .fault
        | first :: _ => bytesTypeCheck elem first
      let checkKind :=
        if val.elemKind ≠ elem.kind then .error (.typeErr (.arrayOf type.sliceSize elem.kind))
        else .value ()
      if type.isArray ∧ (val.len : Int) ≠ type.sliceSize then
        .error (.typeErr (.arrayOf type.sliceSize elem.kind))
      else if elem.isSlice then if val.len > 0 then checkFirst else checkKind
      else if elem.isArray then checkFirst
      else checkKind

def typeCheck (val : GoValue) : Outcome Unit :=
  if type.isSlice ∨ type.isArray then sliceTypeCheck type val
  else if type.kind ≠ val.kind then .error (.typeErr (.kind type.kind))
  else .value ()

def elemTypeCheck (elem : Component) (val : Scalar) : Outcome Unit :=
  if elem.isSlice ∨ elem.isArray then bytesTypeCheck elem val
  else if elem.kind ≠ val.kind then .error (.typeErr (.kind elem.kind))
  else .value ()

def packBytesSlice (bytes : List UInt8) (length : Nat) : List UInt8 :=
  u256 length ++ rightPadBytes bytes ((length + 31) / 32 * 32)

/-- `packElement`; a value of another kind than the type panics. -/
def packElement (tag : TypeTag) (val : GoValue) : Outcome (List UInt8) :=
  match tag, val with
  | .intTy, .scalar (.num _ num) | .uintTy, .scalar (.num _ num) => .value (u256 num)
  | .stringTy, .string bytes => .value (packBytesSlice bytes bytes.length)
  | .addressTy, .scalar val => .value (leftPadBytes val.arrayBytes 32)
  | .boolTy, .scalar (.bool val) => .value (u256 (if val then 1 else 0))
  | .bytesTy, .scalar val => .value (packBytesSlice val.arrayBytes val.arrayBytes.length)
  | .fixedBytesTy, .scalar val | .functionTy, .scalar val =>
    .value (rightPadBytes val.arrayBytes 32)
  | _, _ => .fault

def packElems (elem : Component) : List Scalar → Outcome (List UInt8)
  | [] => .value []
  | item :: items => do
      let _ ← elemTypeCheck elem item
      let packed ← packElement elem.tag (.scalar item)
      let rest ← packElems elem items
      .value (packed ++ rest)

def AbiType.pack (val : GoValue) : Outcome (List UInt8) := do
  let _ ← typeCheck type val
  if (type.isSlice ∨ type.isArray) ∧ type.tag ∉ [.bytesTy, .fixedBytesTy, .functionTy] then
    match type.elem with
    | none => .fault
    | some elem => do
        let packed ← packElems elem val.elements
        .value (if type.isSlice then packBytesSlice packed val.len else packed)
  else packElement type.tag val

def AbiType.requiresLengthPrefix : Bool :=
  type.tag ≠ .fixedBytesTy ∧ (type.tag = .stringTy ∨ type.tag = .bytesTy ∨ type.isSlice)

/-- The loop of `Method.pack` over the arguments, with the heads and the tails so far. -/
def packLoop (inputs : Nat) : List (AbiType × GoValue) → List UInt8 → List UInt8 →
    Outcome (List UInt8)
  | [], ret, variableInput => .value (ret ++ variableInput)
  | (type, arg) :: rest, ret, variableInput => do
      let packed ← type.pack arg
      if type.requiresLengthPrefix then
        let off := wrap (wrap (inputs * 32) + variableInput.length)
        packLoop inputs rest (ret ++ u256 off) (variableInput ++ packed)
      else packLoop inputs rest (ret ++ packed) variableInput

def methodPack (inputs : List AbiType) (args : List GoValue) : Outcome (List UInt8) :=
  if args.length ≠ inputs.length then .error (.argumentCount args.length inputs.length)
  else packLoop inputs.length (inputs.zip args) [] []

end MoacVnode.Accounts.Abi
