import MoacVnode.Accounts.Abi.Pack
import MoacVnode.Accounts.Abi.UnpackSafety

/-!
# The layout of packed arguments

What `Method.pack` returns for arguments of the right types: the heads of the arguments one after
the other, then the tails.
-/

namespace MoacVnode.Accounts.Abi

open MoacVnode.Core List Nat Outcome Abi.TypeName GoValue

variable {size inputs tails : Nat} {elem : Elementary} {item : Scalar} {items : List Scalar}
  {name : TypeName} {value : GoValue}

theorem drop_bigEndian (high low number : Nat) :
    (bigEndian (high + low) number).drop high = bigEndian low number := by
  induction low generalizing number with
  | zero => simp [bigEndian]
  | succ low ih => rw [← add_assoc, bigEndian, drop_append_of_le_length (by simp), ih, bigEndian]

@[simp]
theorem length_u256 (number : Int) : (u256 number).length = 32 := length_bigEndian _ _

theorem beNat_drop_u256 (within : size ≤ 32) (number : Int) :
    beNat ((u256 number).drop (32 - size)) = (number % 2 ^ 256).toNat % 256 ^ size := by
  have split : 32 = 32 - size + size := by omega
  rw [u256]
  nth_rewrite 2 [split]
  rw [drop_bigEndian, beNat_bigEndian]

theorem beNat_u256 (number : Int) : beNat (u256 number) = (number % 2 ^ 256).toNat := by
  rw [u256, beNat_bigEndian, mod_eq_of_lt]
  omega

def Elementary.Packable : Elementary → Prop
  | .int bits | .uint bits => bits % 8 = 0 ∧ bits ≤ 256
  | .fixedBytes size => 1 ≤ size ∧ size ≤ 32
  | .bool | .address => True
  | _ => False

def TypeName.Packable : TypeName → Prop
  | .single .string | .single .bytes => True
  | .single elem | .slice elem | .array elem _ => elem.Packable

def Elementary.InRange : Elementary → Scalar → Prop
  | .int bits, .num kind number =>
    kind = reflectIntKind false (canonicalBits bits) ∧
      -2 ^ (canonicalBits bits - 1) ≤ number ∧ number < 2 ^ (canonicalBits bits - 1)
  | .uint bits, .num kind number =>
    kind = reflectIntKind true (canonicalBits bits) ∧ 0 ≤ number ∧ number < 2 ^ canonicalBits bits
  | .bool, .bool _ => True
  | .address, .address _ => True
  | .fixedBytes size, .bytes value => value.length = size
  | _, _ => False

/-- The kind of the Go type of the values: an array of bytes for `bytesN`. -/
def Elementary.valueKind : Elementary → Kind
  | .fixedBytes _ => .array
  | elem => elem.component.kind

def TypeName.InRange : TypeName → GoValue → Prop
  | .single .string, .string _ => True
  | .single .bytes, .scalar (.bytes _) => True
  | .single elem, .scalar value => elem.InRange value
  | .slice elem, .list kind items => kind = elem.valueKind ∧ ∀ item ∈ items, elem.InRange item
  | .array elem size, .list kind items =>
    kind = elem.valueKind ∧ (∀ item ∈ items, elem.InRange item) ∧ items.length = size
  | _, _ => False

def Scalar.word : Scalar → List UInt8
  | .num _ number => u256 number
  | .bool value => u256 (if value then 1 else 0)
  | .address value => leftPadBytes (bigEndian 20 value.toNat) 32
  | .hash value => bigEndian 32 value.toNat
  | .bytes value => rightPadBytes value 32

def TypeName.body : TypeName → GoValue → List UInt8
  | .slice _, .list _ items => u256 items.length ++ items.flatMap Scalar.word
  | .array _ _, .list _ items => items.flatMap Scalar.word
  | .single .string, .string bytes => packBytesSlice bytes bytes.length
  | .single .bytes, .scalar (.bytes bytes) => packBytesSlice bytes bytes.length
  | _, .scalar value => value.word
  | _, _ => []

def TypeName.headWords : TypeName → Nat
  | .array _ size => size
  | _ => 1

def TypeName.dynamic : TypeName → Bool
  | .slice _ | .single .string | .single .bytes => true
  | _ => false

/-- An array of `bytesN` without elements; the type check looks at the first. -/
def TypeName.EmptyBytes : TypeName → GoValue → Prop
  | .slice (.fixedBytes _), .list _ items | .array (.fixedBytes _) _, .list _ items => items = []
  | _, _ => False

theorem length_word (packable : elem.Packable) (inRange : elem.InRange item) :
    item.word.length = 32 := by
  cases elem <;> cases item <;> simp only [Elementary.InRange] at inRange <;>
    simp [Scalar.word, leftPadBytes, rightPadBytes]
  simp only [Elementary.Packable] at packable
  omega

theorem length_flatMap_word (packable : elem.Packable)
    (inRange : ∀ item ∈ items, elem.InRange item) :
    (items.flatMap Scalar.word).length = 32 * items.length := by
  induction items with
  | nil => rfl
  | cons item items ih =>
    rw [flatMap_cons, length_append, length_cons, length_word packable (inRange item (by simp)),
      ih (fun other mem => inRange other (by simp [mem]))]
    omega

theorem length_body (packable : name.Packable) (inRange : name.InRange value)
    (isStatic : name.dynamic = false) : (name.body value).length = 32 * name.headWords := by
  cases name with
  | slice elem => simp [dynamic] at isStatic
  | array elem size =>
    cases value <;> simp only [InRange] at inRange
    rw [body, headWords, length_flatMap_word packable inRange.2.1, inRange.2.2]
  | single elem =>
    cases elem <;> cases value <;> simp only [dynamic, reduceCtorEq] at isStatic <;>
      simp only [InRange] at inRange <;>
      exact length_word (by exact packable) inRange

theorem packElement_elem (packable : elem.Packable) (inRange : elem.InRange item) :
    packElement elem.component.tag (.scalar item) = .value item.word := by
  cases elem <;> cases item <;> simp only [Elementary.InRange] at inRange <;> rfl

theorem elemTypeCheck_elem (inRange : elem.InRange item) :
    elemTypeCheck elem.component item = .value () := by
  cases elem <;> cases item <;> simp only [Elementary.InRange] at inRange
  all_goals simp [elemTypeCheck, Elementary.component, Scalar.kind, bytesTypeCheck,
    Scalar.arrayBytes, inRange]

theorem packElems_eq (packable : elem.Packable) (inRange : ∀ item ∈ items, elem.InRange item) :
    packElems elem.component items = .value (items.flatMap Scalar.word) := by
  induction items with
  | nil => rfl
  | cons item items ih =>
    have first := inRange item (by simp)
    rw [packElems, elemTypeCheck_elem first, value_bind,
      packElement_elem packable first, value_bind,
      ih (fun other mem => inRange other (by simp [mem])),
      value_bind, flatMap_cons]

theorem bytesTypeCheck_elem (inRange : (Elementary.fixedBytes size).InRange item) :
    bytesTypeCheck (Elementary.fixedBytes size).component item = .value () := by
  cases item <;> simp only [Elementary.InRange] at inRange
  simp [bytesTypeCheck, Elementary.component, Scalar.kind, Scalar.arrayBytes, inRange]

theorem sliceTypeCheck_list {type : AbiType} (packable : elem.Packable)
    (elemEq : type.elem = some elem.component)
    (sized : type.isArray = true → (items.length : Int) = type.sliceSize)
    (inRange : ∀ item ∈ items, elem.InRange item)
    (nonempty : ∀ size, elem = .fixedBytes size → items ≠ []) :
    sliceTypeCheck type (.list elem.valueKind items) = .value () := by
  have lengthOk : ¬ (type.isArray = true ∧
      ((list elem.valueKind items).len : Int) ≠ type.sliceSize) := by
    intro wrong
    exact wrong.2 (sized wrong.1)
  simp only [sliceTypeCheck, kind, ne_eq, elemEq, if_neg lengthOk]
  cases elem with
  | fixedBytes size =>
    cases items with
    | nil => exact absurd rfl (nonempty size rfl)
    | cons first rest => exact bytesTypeCheck_elem (inRange first (by simp))
  | string | bytes | function => exact packable.elim
  | _ => simp [Elementary.component, Elementary.valueKind, elemKind]

theorem tag_array (packable : elem.Packable) (shape : Component) (zeroTag : shape.tag = .intTy) :
    (newType.arrayType shape elem.component).tag ∉
      [TypeTag.bytesTy, .fixedBytesTy, .functionTy] := by
  cases elem with
  | string | bytes | function => exact packable.elim
  | _ => simp [newType.arrayType, Elementary.component, zeroTag]

@[simp]
theorem arrayType_isSlice (shape elem : Component) :
    (newType.arrayType shape elem).isSlice = shape.isSlice := by
  unfold newType.arrayType
  split <;> rfl

@[simp]
theorem arrayType_isArray (shape elem : Component) :
    (newType.arrayType shape elem).isArray = shape.isArray := by
  unfold newType.arrayType
  split <;> rfl

@[simp]
theorem arrayType_sliceSize (shape elem : Component) :
    (newType.arrayType shape elem).sliceSize = shape.sliceSize := by
  unfold newType.arrayType
  split <;> rfl

@[simp]
theorem arrayType_elem (shape elem : Component) :
    (newType.arrayType shape elem).elem = some elem := by
  unfold newType.arrayType
  split <;> rfl

theorem pack_list (shape : Component) (packable : elem.Packable)
    (isList : shape.isSlice = true ∨ shape.isArray = true) (zeroTag : shape.tag = .intTy)
    (sized : shape.isArray = true → (items.length : Int) = shape.sliceSize)
    (inRange : ∀ item ∈ items, elem.InRange item)
    (nonempty : ∀ size, elem = .fixedBytes size → items ≠ []) :
    (newType.arrayType shape elem.component).pack (.list elem.valueKind items) =
      .value (if shape.isSlice then u256 items.length ++ items.flatMap Scalar.word
        else items.flatMap Scalar.word) := by
  have checked : typeCheck (newType.arrayType shape elem.component)
      (.list elem.valueKind items) = .value () := by
    rw [typeCheck, if_pos (by simpa using isList)]
    exact sliceTypeCheck_list packable (by simp) (by simpa using sized) inRange nonempty
  have asList : ((newType.arrayType shape elem.component).isSlice = true ∨
      (newType.arrayType shape elem.component).isArray = true) ∧
      (newType.arrayType shape elem.component).tag ∉
        [TypeTag.bytesTy, .fixedBytesTy, .functionTy] :=
    ⟨by simpa using isList, tag_array packable shape zeroTag⟩
  have padded : packBytesSlice (items.flatMap Scalar.word) items.length =
      u256 items.length ++ items.flatMap Scalar.word := by
    rw [packBytesSlice, rightPadBytes, Nat.sub_eq_zero_of_le, replicate_zero, append_nil]
    rw [length_flatMap_word packable inRange]
    omega
  rw [AbiType.pack, checked, value_bind, if_pos asList, arrayType_elem]
  simp only [elements, packElems_eq packable inRange, value_bind, len, arrayType_isSlice, padded]

theorem pack_eq (packable : name.Packable) (inRange : name.InRange value)
    (small : name.headWords < 2 ^ 63) (nonempty : ¬ name.EmptyBytes value) :
    (newType name).pack value = .value (name.body value) := by
  cases name with
  | slice elem =>
    cases value <;> simp only [InRange] at inRange
    rw [inRange.1]
    refine pack_list _ packable (.inl rfl) rfl nofun inRange.2 ?_
    intro size elemEq empty
    subst elemEq empty
    exact nonempty rfl
  | array elem size =>
    cases value <;> simp only [InRange] at inRange
    rw [inRange.1]
    refine pack_list _ packable (.inr rfl) rfl ?_ inRange.2.1 ?_
    · intro _
      have sizeEq : atoi size = size := by
        simp only [headWords] at small
        unfold atoi
        omega
      rw [inRange.2.2]
      exact sizeEq.symm
    · intro width elemEq empty
      subst elemEq empty
      exact nonempty rfl
  | single elem =>
    cases elem with
    | function => exact packable.elim
    | bytes | string =>
      cases value <;> simp only [InRange] at inRange
      rename_i item
      cases item <;> simp only [Elementary.InRange] at inRange
      rfl
    | _ =>
      cases value <;> simp only [InRange] at inRange
      rename_i item
      cases item <;> simp only [Elementary.InRange] at inRange
      simp [AbiType.pack, typeCheck, newType, Elementary.component, sliceTypeCheck,
        kind, Scalar.kind, len, elements, Scalar.arrayBytes, inRange,
        elemKind, reflectIntKind, canonicalBits, packElement, body,
        Scalar.word]

theorem pack_empty (inRange : name.InRange value) (empty : name.EmptyBytes value) :
    (newType name).pack value = .fault := by
  cases name with
  | single elem => exact absurd empty (by simp [EmptyBytes])
  | slice elem =>
    cases elem <;> cases value <;> simp only [EmptyBytes] at empty
    subst empty
    rfl
  | array elem size =>
    cases elem <;> cases value <;> simp only [EmptyBytes] at empty
    subst empty
    rw [← inRange.2.2]
    rfl

abbrev Argument := TypeName × GoValue

/-- An argument of a type that can be packed, with a value of that type. -/
def WellTyped (arg : Argument) : Prop := arg.1.Packable ∧ arg.1.InRange arg.2

def headWords (names : List TypeName) : Nat := (names.map TypeName.headWords).sum

variable (args : List Argument)

def tailBytes : List UInt8 :=
  args.flatMap fun arg => if arg.1.dynamic then arg.1.body arg.2 else []

def headOf (inputs tails : Nat) (arg : Argument) : List UInt8 :=
  if arg.1.dynamic then u256 (wrap (wrap (inputs * 32) + tails)) else arg.1.body arg.2

def headBytes (inputs : Nat) : Nat → List Argument → List UInt8
  | _, [] => []
  | tails, arg :: rest =>
    headOf inputs tails arg ++ headBytes inputs (tails + (tailBytes [arg]).length) rest

/-- The arguments as `Method.pack` lays them out. -/
def encode : List UInt8 := headBytes args.length 0 args ++ tailBytes args

def packArguments : Outcome (List UInt8) :=
  methodPack (args.map fun arg => newType arg.1) (args.map Prod.snd)

@[simp]
theorem headWords_append (left right : List TypeName) :
    headWords (left ++ right) = headWords left + headWords right := by
  simp [headWords]

@[simp]
theorem headWords_cons (name : TypeName) (names : List TypeName) :
    headWords (name :: names) = name.headWords + headWords names := by
  simp [headWords]

@[simp]
theorem tailBytes_append (left right : List Argument) :
    tailBytes (left ++ right) = tailBytes left ++ tailBytes right :=
  flatMap_append

theorem tailBytes_cons (arg : Argument) (args : List Argument) :
    tailBytes (arg :: args) = tailBytes [arg] ++ tailBytes args :=
  tailBytes_append [arg] args

theorem tailBytes_static {arg : Argument} (isStatic : arg.1.dynamic = false) :
    tailBytes [arg] = [] := by
  simp [tailBytes, isStatic]

theorem tailBytes_dynamic {arg : Argument} (isDynamic : arg.1.dynamic = true) :
    tailBytes [arg] = arg.1.body arg.2 := by
  simp [tailBytes, isDynamic]

theorem headBytes_append (inputs tails : Nat) (left right : List Argument) :
    headBytes inputs tails (left ++ right) =
      headBytes inputs tails left ++ headBytes inputs (tails + (tailBytes left).length) right := by
  induction left generalizing tails with
  | nil => simp [headBytes, tailBytes]
  | cons arg left ih =>
    rw [cons_append, headBytes, headBytes, ih, tailBytes_cons arg left,
      length_append, append_assoc, add_assoc]

theorem length_headOf {arg : Argument} (wellTyped : WellTyped arg) :
    (headOf inputs tails arg).length = 32 * arg.1.headWords := by
  cases isDynamic : arg.1.dynamic with
  | false =>
    rw [headOf, isDynamic]
    exact length_body wellTyped.1 wellTyped.2 isDynamic
  | true =>
    have oneWord : arg.1.headWords = 1 := by
      revert isDynamic
      cases arg.1 <;> simp [TypeName.dynamic, TypeName.headWords]
    simp [headOf, isDynamic, oneWord]

theorem length_headBytes {args : List Argument} (wellTyped : ∀ arg ∈ args, WellTyped arg) :
    (headBytes inputs tails args).length = 32 * headWords (args.map Prod.fst) := by
  induction args generalizing tails with
  | nil => rfl
  | cons arg args ih =>
    rw [headBytes, length_append, length_headOf (wellTyped arg (by simp)),
      ih (fun other mem => wellTyped other (by simp [mem])),
      map_cons, headWords_cons, mul_add]

theorem requiresLengthPrefix_eq (packable : name.Packable) :
    (newType name).requiresLengthPrefix = name.dynamic := by
  cases name with
  | single elem | slice elem | array elem size => cases elem <;> first | rfl | exact packable.elim

theorem packLoop_eq {args : List Argument} (packable : ∀ arg ∈ args, arg.1.Packable)
    (packs : ∀ arg ∈ args, (newType arg.1).pack arg.2 = .value (arg.1.body arg.2))
    (ret variableInput : List UInt8) :
    packLoop inputs (args.map fun arg => (newType arg.1, arg.2)) ret variableInput =
      .value ((ret ++ headBytes inputs variableInput.length args) ++
        (variableInput ++ tailBytes args)) := by
  induction args generalizing ret variableInput with
  | nil => simp [packLoop, headBytes, tailBytes]
  | cons arg args ih =>
    have next := ih (fun other mem => packable other (by simp [mem]))
      (fun other mem => packs other (by simp [mem]))
    rw [map_cons, packLoop, packs arg (by simp), value_bind,
      requiresLengthPrefix_eq (packable arg (by simp)), headBytes, headOf,
      tailBytes_cons arg args]
    cases isDynamic : arg.1.dynamic with
    | false =>
      simp only [Bool.false_eq_true, if_false, next, tailBytes_static isDynamic,
        length_nil, add_zero, nil_append, append_assoc]
    | true => simp only [if_true, next, tailBytes_dynamic isDynamic, length_append, append_assoc]

theorem packArguments_eq_packLoop :
    packArguments args =
      packLoop args.length (args.map fun arg => (newType arg.1, arg.2)) [] [] := by
  simp [packArguments, methodPack, zip_map']

theorem packLoop_fault {args : List (AbiType × GoValue)} {ret tails out : List UInt8}
    (packed : packLoop inputs args ret tails = .value out) :
    ∀ arg ∈ args, arg.1.pack arg.2 ≠ .fault := by
  induction args generalizing ret tails with
  | nil => simp
  | cons arg args ih =>
    rw [packLoop] at packed
    cases first : arg.1.pack arg.2 with
    | fault | error reason => simp [first] at packed
    | value bytes =>
      rw [first, value_bind] at packed
      have rest : ∀ other ∈ args, other.1.pack other.2 ≠ .fault := by
        split at packed <;> exact ih packed
      simpa [first] using rest

section

variable {before after : List Argument} {arg : Argument}

theorem encode_static (isStatic : arg.1.dynamic = false) :
    encode (before ++ arg :: after) =
      headBytes (before.length + 1 + after.length) 0 before ++ arg.1.body arg.2 ++
        (headBytes (before.length + 1 + after.length) (tailBytes before).length after ++
          tailBytes before ++ tailBytes after) := by
  have count : (before ++ arg :: after).length = before.length + 1 + after.length := by
    simp
    omega
  rw [encode, count, headBytes_append, headBytes, headOf, isStatic, tailBytes_append,
    tailBytes_cons arg after, tailBytes_static isStatic]
  simp

theorem encode_head (isDynamic : arg.1.dynamic = true) :
    ∃ rest, encode (before ++ arg :: after) =
      headBytes (before.length + 1 + after.length) 0 before ++
        u256 (wrap (wrap ((before.length + 1 + after.length : Nat) * 32) +
          (tailBytes before).length)) ++ rest := by
  have count : (before ++ arg :: after).length = before.length + 1 + after.length := by
    simp
    omega
  rw [encode, count, headBytes_append, headBytes, headOf, isDynamic]
  simp only [append_assoc, zero_add]
  exact ⟨_, rfl⟩

end

end MoacVnode.Accounts.Abi
