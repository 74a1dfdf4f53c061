import MoacVnode.Accounts.Abi.Layout

/-!
# Unpacking what was packed

The decoder looks for the head of an argument at its position, a word for each argument before it,
and the offsets of the tails are counted from the same place.
-/

namespace MoacVnode.Accounts.Abi

open MoacVnode.Core Lib Scalar Abi.TypeName
open Outcome (access access_some value_bind)
open List Nat

variable {size bits start : Nat} {number : Int} {elem : Elementary} {item : Scalar}
  {items : List Scalar} {before rest out word : List UInt8} {arg : Argument}

/-- A value as the decoder returns it: `bytesN` is filled up to a word. -/
def Scalar.padded : Scalar → Scalar
  | .bytes value => .bytes (rightPadBytes value 32)
  | value => value

def TypeName.decoded : TypeName → GoValue → GoValue
  | .single (.fixedBytes _), .scalar value => .scalar value.padded
  | .slice (.fixedBytes _), .list _ items | .array (.fixedBytes _) _, .list _ items =>
    .list .slice (items.map Scalar.padded)
  | _, value => value

def Elementary.signedBig : Elementary → Bool
  | .int bits => canonicalBits bits ∉ [8, 16, 32, 64]
  | _ => false

/-! ## Reading a word -/

theorem low_u256 (within : size ≤ 32) (number : Int) :
    beNat ((u256 number).drop ((u256 number).length - size)) =
      (number % 2 ^ 256).toNat % 256 ^ size := by
  rw [length_u256, beNat_drop_u256 within]

theorem signed_low (native : (bits, size) ∈ [(8, 1), (16, 2), (32, 4), (64, 8)])
    (low : -2 ^ (bits - 1) ≤ number) (high : number < 2 ^ (bits - 1)) :
    signed bits (beNat ((u256 number).drop ((u256 number).length - size))) = number := by
  simp only [mem_cons, Prod.mk.injEq, not_mem_nil, or_false] at native
  rw [low_u256 (by omega), signed, BitVec.toInt_eq_toNat_bmod, BitVec.toNat_ofNat]
  rcases native with ⟨rfl, rfl⟩ | ⟨rfl, rfl⟩ | ⟨rfl, rfl⟩ | ⟨rfl, rfl⟩ <;> simp only [Int.bmod] <;>
    omega

theorem readInteger_int (native : bits ∈ [8, 16, 32, 64]) (low : -2 ^ (bits - 1) ≤ number)
    (high : number < 2 ^ (bits - 1)) :
    readInteger (reflectIntKind false bits) (u256 number) =
      .num (reflectIntKind false bits) number := by
  simp only [mem_cons, not_mem_nil, or_false] at native
  rcases native with rfl | rfl | rfl | rfl <;>
    simp only [reflectIntKind, Bool.false_eq_true, if_false, if_true, Nat.reduceEqDiff,
      readInteger] <;>
    rw [signed_low (by decide) low high]

theorem unsigned_low (within : size ≤ 32) (low : 0 ≤ number) (high : number < 256 ^ size) :
    (beNat ((u256 number).drop ((u256 number).length - size)) : Int) = number := by
  have large : (256 : Int) ^ size ≤ 256 ^ 32 := by
    exact_mod_cast Nat.pow_le_pow_right (by omega) within
  have cut : number.toNat < 256 ^ size := by
    have cast : ((256 ^ size : Nat) : Int) = 256 ^ size := by
      push_cast
      rfl
    omega
  rw [low_u256 within, Int.emod_eq_of_lt low (by omega), mod_eq_of_lt cut]
  omega

theorem readInteger_uint (atMost : bits ≤ 256) (low : 0 ≤ number) (high : number < 2 ^ bits) :
    readInteger (reflectIntKind true bits) (u256 number) =
      .num (reflectIntKind true bits) number := by
  have large : (2 : Int) ^ bits ≤ 2 ^ 256 := by
    exact_mod_cast Nat.pow_le_pow_right (by omega) atMost
  have whole : (beNat (u256 number) : Int) = number := by
    rw [beNat_u256]
    omega
  simp only [reflectIntKind]
  split_ifs with is8 is16 is32 is64 <;> simp only [readInteger]
  · rw [unsigned_low (by omega) low (by rw [is8] at high; omega)]
  · rw [unsigned_low (by omega) low (by rw [is16] at high; omega)]
  · rw [unsigned_low (by omega) low (by rw [is32] at high; omega)]
  · rw [unsigned_low (by omega) low (by rw [is64] at high; omega)]
  · rw [whole]

theorem readBool_u256 (value : Bool) : readBool (u256 (if value then 1 else 0)) = .value value := by
  cases value <;> decide +kernel

theorem bytesToAddress_word (value : Address) :
    bytesToAddress (leftPadBytes (bigEndian 20 value.toNat) 32) = value := by
  rw [bytesToAddress, leftPadBytes, beNat_append, beNat_zeros, beNat_bigEndian, zero_mul,
    zero_add, mod_eq_of_lt (by omega), BitVec.ofNat_toNat, BitVec.setWidth_eq]

theorem readElem_word (packable : elem.Packable) (inRange : elem.InRange item)
    (sign : elem.signedBig = false) (shape : Component) :
    readElem (newType.arrayType shape elem.component).kind elem.component.tag item.word =
      .value item.padded := by
  cases item with
  | num kind number =>
    have read : readInteger elem.component.kind (u256 number) = .num kind number := by
      cases elem <;> simp only [Elementary.InRange] at inRange
      · rw [inRange.1]
        refine readInteger_int ?_ inRange.2.1 inRange.2.2
        simpa only [Elementary.signedBig, decide_eq_false_iff_not, not_not] using sign
      · rw [inRange.1]
        refine readInteger_uint ?_ inRange.2.1 inRange.2.2
        simp only [Elementary.Packable] at packable
        unfold canonicalBits
        split <;> omega
    cases elem <;> simp only [Elementary.InRange] at inRange <;> exact congrArg Outcome.value read
  | bool value =>
    cases elem <;> simp only [Elementary.InRange] at inRange
    simp [readElem, Elementary.component, word, readBool_u256, padded]
  | address value =>
    cases elem <;> simp only [Elementary.InRange] at inRange
    exact congrArg (fun address => Outcome.value (Scalar.address address))
      (bytesToAddress_word value)
  | hash value => cases elem <;> simp only [Elementary.InRange] at inRange
  | bytes value =>
    cases elem <;> simp only [Elementary.InRange] at inRange
    rfl

theorem convert_word (packable : elem.Packable) (inRange : elem.InRange item)
    (sign : elem.signedBig = false) :
    (newType (.single elem)).convert item.word = .value (.scalar item.padded) := by
  have read := readElem_word packable inRange sign {}
  cases item with
  | bool value =>
    cases elem <;> simp only [Elementary.InRange] at inRange
    simp [AbiType.convert, newType, Elementary.component, word, readBool_u256, padded]
  | _ =>
    cases elem <;> simp only [Elementary.InRange] at inRange <;>
      exact congrArg (· >>= fun value => .value (GoValue.scalar value)) read

theorem wordFrom_append (startEq : before.length = start) (length : word.length = 32) :
    wordFrom (before ++ word ++ rest) start = word := by
  rw [wordFrom, append_assoc, ← startEq, drop_left, ← length, take_left]

theorem numberBefore_append (startEq : before.length = start) :
    numberBefore (before ++ u256 number ++ rest) (start + 32) =
      (number % 2 ^ 256).toNat % 2 ^ 64 := by
  have low : beNat ((u256 number).drop 24) = (number % 2 ^ 256).toNat % 2 ^ 64 :=
    (beNat_drop_u256 (show 8 ≤ 32 by omega) number).trans (by simp only [Nat.reducePow])
  have place : start + 32 - 8 = before.length + 24 := by omega
  have eight : ((u256 number).drop 24).length = 8 := by simp
  rw [numberBefore, place, append_assoc, drop_append, drop_of_length_le (by omega),
    nil_append, Nat.add_sub_cancel_left, drop_append_of_le_length (by simp), ← eight,
    take_left, low]

theorem readElems_words (packable : elem.Packable) (sign : items ≠ [] → elem.signedBig = false)
    (shape : Component) (done : List Scalar) (doneInRange : ∀ item ∈ done, elem.InRange item)
    (inRange : ∀ item ∈ items, elem.InRange item)
    (short : ((done ++ items).flatMap Scalar.word).length < 2 ^ 63) :
    readElems (newType.arrayType shape elem.component).kind elem.component.tag
        ((done ++ items).flatMap Scalar.word) items.length done.length =
      .value (items.map padded) := by
  induction items generalizing done with
  | nil => rfl
  | cons item items ih =>
    have itemInRange := inRange item (by simp)
    have doneLength := length_flatMap_word packable doneInRange
    have wordLength := length_word packable itemInRange
    have split : (done ++ item :: items).flatMap word =
        done.flatMap word ++ item.word ++ items.flatMap word := by
      simp
    have within : 32 * done.length + 32 ≤ ((done ++ item :: items).flatMap word).length := by
      rw [split]
      simp only [length_append]
      omega
    have startEq : wrap ((done.length : Int) * 32) = (32 * done.length : Nat) :=
      wrap_eq_nat (by omega) (by omega)
    have stopEq : wrap (((32 * done.length : Nat) : Int) + 32) = (32 * done.length + 32 : Nat) :=
      wrap_eq_nat (by omega) (by omega)
    have got : slice ((done ++ item :: items).flatMap word) (32 * done.length : Nat)
        (32 * done.length + 32 : Nat) = some item.word := by
      rw [slice_of_le (by omega) within, Nat.add_sub_cancel_left, split]
      exact congrArg some (wordFrom_append doneLength wordLength)
    have next := ih (fun _ => sign (by simp)) (done ++ [item]) (by
        intro other mem
        rcases mem_append.mp mem with prior | here
        · exact doneInRange other prior
        · exact mem_singleton.mp here ▸ itemInRange)
      (fun other mem => inRange other (by simp [mem])) (by simpa using short)
    rw [append_assoc, singleton_append, length_append, length_singleton] at next
    rw [length_cons, readElems, startEq, stopEq, got, access_some,
      value_bind, readElem_word packable itemInRange (sign (by simp)) shape,
      value_bind, next,
      value_bind, map_cons]

/-! ## The returned slice -/

theorem padded_of_inRange (inRange : elem.InRange item)
    (notBytes : ∀ size, elem ≠ .fixedBytes size) : item.padded = item := by
  cases item with
  | bytes value =>
    cases elem <;> simp only [Elementary.InRange] at inRange
    exact absurd rfl (notBytes _)
  | _ => rfl

theorem map_padded (inRange : ∀ item ∈ items, elem.InRange item)
    (notBytes : ∀ size, elem ≠ .fixedBytes size) : items.map padded = items := by
  rw [map_congr_left (fun item mem => padded_of_inRange (inRange item mem) notBytes), map_id']

theorem refSliceKind_int (unsigned : Bool) (bits : Nat) {tag : TypeTag}
    (isInteger : tag = .intTy ∨ tag = .uintTy) :
    refSliceKind (reflectIntKind unsigned bits) tag = reflectIntKind unsigned bits := by
  unfold reflectIntKind
  rcases isInteger with rfl | rfl <;> split_ifs <;> rfl

def decodedList (elem : Elementary) (items : List Scalar) : GoValue :=
  (TypeName.slice elem).decoded (.list elem.valueKind items)

theorem decodedList_eq (packable : elem.Packable) (inRange : ∀ item ∈ items, elem.InRange item)
    (shape : Component) :
    .list (refSliceKind (newType.arrayType shape elem.component).kind elem.component.tag)
      (items.map padded) = decodedList elem items := by
  cases elem with
  | string | bytes | function => exact packable.elim
  | fixedBytes size => rfl
  | int bits =>
    rw [map_padded inRange nofun]
    exact congrArg (fun kind => GoValue.list kind items) (refSliceKind_int _ _ (.inl rfl))
  | uint bits =>
    rw [map_padded inRange nofun]
    exact congrArg (fun kind => GoValue.list kind items) (refSliceKind_int _ _ (.inr rfl))
  | bool | address =>
    rw [map_padded inRange nofun]
    rfl

theorem decoded_array (elem : Elementary) (size : Nat) (items : List Scalar) :
    (array elem size).decoded (.list elem.valueKind items) = decodedList elem items := by
  cases elem <;> rfl

theorem decodedAsSlice_list (packable : elem.Packable) (shape : Component)
    (isList : shape.isSlice = true ∨ shape.isArray = true) (zeroTag : shape.tag = .intTy) :
    (newType.arrayType shape elem.component).decodedAsSlice = true := by
  have shapes : ((newType.arrayType shape elem.component).isSlice ||
      (newType.arrayType shape elem.component).isArray) = true := by
    simpa using isList
  cases elem with
  | string | bytes | function => exact packable.elim
  | _ =>
    rw [AbiType.decodedAsSlice, shapes]
    simp [newType.arrayType, Elementary.component, zeroTag]

theorem single_isWord (packable : elem.Packable) :
    (newType (.single elem)).decodedAsSlice = false ∧
      (newType (.single elem)).tag ≠ .stringTy ∧ (newType (.single elem)).tag ≠ .bytesTy := by
  cases elem with
  | string | bytes | function => exact packable.elim
  | _ => exact ⟨rfl, nofun, nofun⟩

/-! ## Positions of packed data -/

theorem takeWindow_append {reason : AbiError} {window : List UInt8} {stop : Nat}
    (startEq : before.length = start) (stopEq : start + window.length = stop) (size : Int) :
    takeWindow reason (before ++ window ++ rest) (start : Nat) (stop : Nat) size =
      .value (window, size) := by
  have within : stop ≤ (before ++ window ++ rest).length := by
    simp only [length_append]
    omega
  have windowLength : stop - start = window.length := by omega
  rw [takeWindow, if_neg (by omega), slice_of_le (by omega) within, windowLength,
    append_assoc, ← startEq, drop_left, take_left, access_some,
    value_bind]

section

variable {i : Nat}

theorem stringData_append {bytes : List UInt8}
    (outEq : out = before ++ packBytesSlice bytes bytes.length ++ rest)
    (within : 32 * i + 32 ≤ out.length) (short : out.length < 2 ^ 63)
    (offsetEq : numberBefore out (32 * i + 32) = before.length) :
    stringData (32 * i : Nat) out = .value bytes := by
  have padding : out = before ++ u256 bytes.length ++
      (rightPadBytes bytes ((bytes.length + 31) / 32 * 32) ++ rest) := by
    rw [outEq, packBytesSlice]
    simp
  have outSplit : out = (before ++ u256 bytes.length) ++ bytes ++
      (List.replicate ((bytes.length + 31) / 32 * 32 - bytes.length) 0 ++ rest) := by
    rw [padding, rightPadBytes]
    simp
  have total : before.length + 32 + bytes.length ≤ out.length := by
    rw [outSplit]
    simp only [length_append, length_u256]
    omega
  have sizeEq : numberBefore out (before.length + 32) = bytes.length := by
    rw [padding, numberBefore_append rfl]
    omega
  obtain ⟨start, read⟩ := stringAt_of_within short (show before.length < 2 ^ 64 by omega)
    (by omega) (.inl (by omega))
  have direct : (before.length + 32) % 2 ^ 64 = before.length + 32 := by omega
  have sizeWrap : wrap (bytes.length : Nat) = bytes.length := wrap_nat (by omega)
  rw [direct] at start read
  rw [sizeEq, sizeWrap] at read
  have stop : wrap (((before.length + 32 : Nat) : Int) + (bytes.length : Nat)) =
      (before.length + 32 + bytes.length : Nat) :=
    wrap_eq_nat (by omega) (by omega)
  have got : slice out (before.length + 32 : Nat) (before.length + 32 + bytes.length : Nat) =
      some bytes := by
    have place : before.length + 32 = (before ++ u256 bytes.length).length := by simp
    rw [slice_of_le (by omega) total, Nat.add_sub_cancel_left, outSplit, append_assoc, place,
      drop_left, take_left]
  rw [stringData, readOffset_eq within short, offsetEq, value_bind, read,
    value_bind, start, stop, if_neg (by omega), got, access_some]

variable (packable : elem.Packable) (sign : items ≠ [] → elem.signedBig = false)
  (inRange : ∀ item ∈ items, elem.InRange item)

include packable sign inRange

theorem toGoType_list (shape : Component) (isList : shape.isSlice = true ∨ shape.isArray = true)
    (zeroTag : shape.tag = .intTy)
    (data : (newType.arrayType shape elem.component).elementData (32 * i : Nat) out = .value
      (items.flatMap Scalar.word, (items.length : Int)))
    (words : (items.flatMap Scalar.word).length < 2 ^ 63) (within : 32 * i + 32 ≤ out.length)
    (short : out.length < 2 ^ 63) :
    toGoType i (newType.arrayType shape elem.component) out = .value (decodedList elem items) := by
  have read := readElems_words packable sign shape [] nofun inRange words
  simp only [nil_append, length_nil] at read
  rw [toGoType_elements within short (decodedAsSlice_list packable shape isList zeroTag)
    (arrayType_elem _ _) (by cases elem <;> first | rfl | exact packable.elim), data, value_bind,
    Int.toNat_natCast, read, value_bind, decodedList_eq packable inRange]

theorem toGoType_array (outEq : out = before ++ items.flatMap Scalar.word ++ rest)
    (beforeLength : before.length = 32 * i) (short : out.length < 2 ^ 63)
    (within : 32 * i + 32 ≤ out.length) :
    toGoType i (newType (.array elem items.length)) out = .value (decodedList elem items) := by
  have wordsLength := length_flatMap_word packable inRange
  have total : 32 * i + 32 * items.length ≤ out.length := by
    rw [outEq]
    simp only [length_append]
    omega
  have sizeEq : atoi items.length = items.length := by
    unfold atoi
    omega
  have stopEq : wrap (((32 * i : Nat) : Int) + wrap (32 * (items.length : Int))) =
      (32 * i + 32 * items.length : Nat) := by
    rw [wrap_add_wrap]
    exact wrap_eq_nat (by omega) (by omega)
  refine toGoType_list packable sign inRange _ (.inr rfl) rfl ?_ (by omega) within short
  simp only [AbiType.elementData, arrayType_isSlice,
    arrayType_isArray, if_true, arrayType_sliceSize, arrayData, sizeEq, stopEq]
  rw [outEq]
  exact takeWindow_append beforeLength (by omega) _

theorem toGoType_slice
    (outEq : out = before ++ (u256 items.length ++ items.flatMap Scalar.word) ++ rest)
    (within : 32 * i + 32 ≤ out.length) (short : out.length < 2 ^ 63)
    (offsetEq : numberBefore out (32 * i + 32) = before.length) :
    toGoType i (newType (.slice elem)) out = .value (decodedList elem items) := by
  have wordsLength := length_flatMap_word packable inRange
  have outSplit : out = before ++ u256 items.length ++ (items.flatMap Scalar.word ++ rest) := by
    rw [outEq]
    simp
  have total : before.length + 32 + 32 * items.length ≤ out.length := by
    rw [outEq]
    simp only [length_append, length_u256]
    omega
  have sizeEq : numberBefore out (before.length + 32) = items.length := by
    rw [outSplit, numberBefore_append rfl]
    omega
  have sizeWrap : wrap (items.length : Nat) = items.length := wrap_nat (by omega)
  have stopEq : wrap ((items.length : Int) * 32) = (32 * items.length : Nat) :=
    wrap_eq_nat (by omega) (by omega)
  have dropped : out.drop (before.length + 32) = [] ++ items.flatMap Scalar.word ++ rest := by
    have place : before.length + 32 = (before ++ u256 items.length).length := by simp
    rw [outSplit, place, drop_left, nil_append]
  refine toGoType_list packable sign inRange _ (.inl rfl) rfl ?_ (by omega) within short
  rw [AbiType.elementData, if_pos (arrayType_isSlice _ _), sliceData, readOffset_eq within short,
    offsetEq, value_bind, sliceAt_of_within short (by omega), value_bind, dropped,
    sizeEq, sizeWrap]
  dsimp only
  rw [stopEq]
  exact takeWindow_append length_nil (by omega) _

end

/-! ## Methods -/

/-- The types of the inputs of a method, which fit into memory with a few values. -/
structure MethodInputs where
  names : List TypeName
  packable : ∀ name ∈ names, name.Packable
  fits : 32 * (headWords names + names.length + 1) < 2 ^ 63

structure Arguments (inputs : MethodInputs) where
  args : List Argument
  types : args.map Prod.fst = inputs.names
  inRange : ∀ arg ∈ args, arg.1.InRange arg.2
  fits : 32 * headWords inputs.names + (tailBytes args).length < 2 ^ 63

/-- The head of an argument starts where the heads before it end; that of a dynamic argument is
the offset of its tail. -/
def Placed (out : List UInt8) (before : List Argument) (arg : Argument) (after : List Argument) :
    Prop :=
  let start := 32 * headWords (before.map Prod.fst)
  let off := 32 * headWords ((before ++ arg :: after).map Prod.fst) + (tailBytes before).length
  if arg.1.dynamic then
    wordFrom out start = u256 off ∧ (out.drop off).take (arg.1.body arg.2).length = arg.1.body arg.2
  else (out.drop start).take (arg.1.body arg.2).length = arg.1.body arg.2

def RoundTrips (args : List Argument) : Prop :=
  ∃ out, packArguments args = .value out ∧
    ∀ before arg after, args = before ++ arg :: after →
      Placed out before arg after ∧
        toGoType before.length (newType arg.1) out = .value (arg.1.decoded arg.2)

def TypeName.losesSign : TypeName → Bool
  | .single elem | .slice elem => elem.signedBig
  | .array elem size => elem.signedBig && size ≠ 0

/-- A type with a value whose first element is looked at although it has none. -/
def TypeName.panics : TypeName → Bool
  | .slice (.fixedBytes _) | .array (.fixedBytes _) 0 => true
  | _ => false

def TypeName.emptyArray : TypeName → Bool
  | .array _ 0 => true
  | _ => false

/-- Packing and unpacking fit together: signed integers have a native size, no array of `bytesN` can
be empty, with dynamic arguments there are as many words of heads as arguments, and the heads before
an argument are as many words as arguments. An array without elements is only looked for within the
data. -/
structure Decodable (names : List TypeName) : Prop where
  sign : ∀ name ∈ names, name.losesSign = false
  noPanic : ∀ name ∈ names, name.panics = false
  offsets : (∃ name ∈ names, name.dynamic = true) → headWords names = names.length
  positions : ∀ before name after, names = before ++ name :: after →
    if name.emptyArray then before.length < headWords names
    else headWords before = before.length

/-! ## Types that fit together -/

section

variable {inputs : MethodInputs} (arguments : Arguments inputs)

theorem Arguments.wellTyped (mem : arg ∈ arguments.args) : WellTyped arg := by
  refine ⟨inputs.packable arg.1 ?_, arguments.inRange arg mem⟩
  rw [← arguments.types]
  exact mem_map_of_mem mem

theorem headWords_le {name : TypeName} {names : List TypeName} (mem : name ∈ names) :
    name.headWords ≤ headWords names :=
  le_sum_of_mem (mem_map_of_mem mem)

theorem Arguments.mem_names (mem : arg ∈ arguments.args) : arg.1 ∈ inputs.names := by
  rw [← arguments.types]
  exact mem_map_of_mem mem

theorem Arguments.packed (nonempty : ∀ arg ∈ arguments.args, ¬ arg.1.EmptyBytes arg.2) :
    packArguments arguments.args = .value (encode arguments.args) := by
  rw [packArguments_eq_packLoop]
  apply packLoop_eq
  · intro arg mem
    exact (arguments.wellTyped mem).1
  · intro arg mem
    have atMost := headWords_le (arguments.mem_names mem)
    have bound := inputs.fits
    have wellTyped := arguments.wellTyped mem
    exact pack_eq wellTyped.1 wellTyped.2 (by omega) (nonempty arg mem)

theorem Arguments.length_encode :
    (encode arguments.args).length =
      32 * headWords inputs.names + (tailBytes arguments.args).length := by
  rw [encode, length_append, length_headBytes (fun _ mem => arguments.wellTyped mem),
    arguments.types]

theorem Arguments.short : (encode arguments.args).length < 2 ^ 63 := by
  rw [arguments.length_encode]
  exact arguments.fits

end

theorem not_emptyBytes (inRange : arg.1.InRange arg.2) (noPanic : arg.1.panics = false) :
    ¬ arg.1.EmptyBytes arg.2 := by
  obtain ⟨name, value⟩ := arg
  intro empty
  cases name with
  | single elem => simp [EmptyBytes] at empty
  | slice elem => cases elem <;> simp [EmptyBytes, panics] at empty noPanic
  | array elem size =>
    cases elem <;> cases value <;> simp only [EmptyBytes] at empty
    simp only [InRange] at inRange
    rw [empty, length_nil] at inRange
    rw [← inRange.2.2] at noPanic
    simp [panics] at noPanic

theorem take_drop_append {mid : List UInt8} (startEq : before.length = start) :
    ((before ++ mid ++ rest).drop start).take mid.length = mid := by
  rw [append_assoc, ← startEq, drop_left, take_left]

theorem offset_fits {inputs tails : Nat} (fits : 32 * inputs + tails < 2 ^ 63) :
    wrap (wrap ((inputs : Int) * 32) + tails) = (32 * inputs + tails : Nat) := by
  unfold wrap
  omega

section

variable {inputs : MethodInputs} {arguments : Arguments inputs} {before after : List Argument}
  (split : arguments.args = before ++ arg :: after)

include split

theorem names_split : inputs.names = before.map Prod.fst ++ arg.1 :: after.map Prod.fst := by
  rw [← arguments.types, split, map_append, map_cons]

theorem length_heads_before (inputs' : Nat) :
    (headBytes inputs' 0 before).length = 32 * headWords (before.map Prod.fst) :=
  length_headBytes (fun other mem => arguments.wellTyped (by rw [split]; simp [mem]))

theorem length_tailBytes_split :
    (tailBytes arguments.args).length =
      (tailBytes before).length + (tailBytes (arg :: after)).length := by
  rw [split, tailBytes_append, length_append]

theorem dynamic_places (isDynamic : arg.1.dynamic = true)
    (words : headWords inputs.names = inputs.names.length) :
    (∃ rest, encode arguments.args = headBytes arguments.args.length 0 before ++
        u256 (32 * headWords inputs.names + (tailBytes before).length : Nat) ++ rest) ∧
      ∃ tail, tail.length = 32 * headWords inputs.names + (tailBytes before).length ∧
        encode arguments.args = tail ++ arg.1.body arg.2 ++ tailBytes after := by
  have count : inputs.names.length = arguments.args.length := by
    simpa using (congrArg List.length arguments.types).symm
  have tails := length_tailBytes_split split
  have total : arguments.args.length = before.length + 1 + after.length := by
    rw [split]
    simp
    omega
  have fits := arguments.fits
  constructor
  · obtain ⟨rest, head⟩ : ∃ rest, encode (before ++ arg :: after) = _ ++ rest :=
      encode_head isDynamic
    refine ⟨rest, ?_⟩
    have off : _ = ((32 * arguments.args.length + (tailBytes before).length : Nat) : Int) :=
      offset_fits (by omega)
    rw [words, count, ← off, total, split, head]
  · refine ⟨headBytes arguments.args.length 0 arguments.args ++ tailBytes before, ?_, ?_⟩
    · rw [length_append, length_headBytes (fun _ mem => arguments.wellTyped mem), arguments.types]
    · rw [encode, split, tailBytes_append, tailBytes_cons arg after, tailBytes_dynamic isDynamic]
      simp

variable (decodable : Decodable inputs.names)

include decodable

theorem words_before (notEmpty : arg.1.emptyArray = false) :
    headWords (before.map Prod.fst) = before.length := by
  have pos := decodable.positions _ _ _ (names_split split)
  simpa [notEmpty] using pos

theorem decodes_word (argEq : arg = (.single elem, .scalar item)) (packable : elem.Packable)
    (inRange : elem.InRange item) :
    toGoType before.length (newType (.single elem)) (encode arguments.args) =
      .value (.scalar item.padded) := by
  have isStatic : (single elem).dynamic = false := by
    cases elem <;> first | rfl | exact packable.elim
  have body : (single elem).body (.scalar item) = item.word := by
    cases elem <;> first | rfl | exact packable.elim
  have sign : elem.signedBig = false := by
    refine decodable.sign (.single elem) ?_
    rw [names_split split, argEq]
    simp
  have heads := length_heads_before split (before.length + 1 + after.length)
  rw [words_before split decodable (by rw [argEq]; rfl)] at heads
  subst argEq
  have place := congrArg encode split
  rw [encode_static isStatic, body] at place
  have wordLength := length_word packable inRange
  have within : 32 * before.length + 32 ≤ (encode arguments.args).length := by
    rw [place]
    simp only [length_append]
    omega
  obtain ⟨notSlice, notString, notBytes⟩ := single_isWord packable
  rw [toGoType_within within arguments.short notSlice,
    returnOutput_word within arguments.short notString notBytes, value_bind, place,
    wordFrom_append heads wordLength, convert_word packable inRange sign]

theorem decodes_array (argEq : arg = (.array elem items.length, .list elem.valueKind items))
    (packable : elem.Packable) (inRange : ∀ item ∈ items, elem.InRange item) :
    toGoType before.length (newType (.array elem items.length)) (encode arguments.args) =
      .value (decodedList elem items) := by
  have sign : items ≠ [] → elem.signedBig = false := by
    have loses := decodable.sign (.array elem items.length) (by
      rw [names_split split, argEq]
      simp)
    intro nonempty
    simpa [losesSign, nonempty] using loses
  have pos := decodable.positions _ _ _ (names_split split)
  have length := arguments.length_encode
  subst argEq
  cases items with
  | nil =>
    -- an empty array may stand anywhere in the data
    have within : before.length < headWords inputs.names := by
      simpa [emptyArray] using pos
    have cut : encode arguments.args = (encode arguments.args).take (32 * before.length) ++
        ([] : List Scalar).flatMap Scalar.word ++
          (encode arguments.args).drop (32 * before.length) := by
      simp
    refine toGoType_array packable sign nofun cut ?_ arguments.short (by omega)
    rw [length_take]
    omega
  | cons first others =>
    have words : headWords (before.map Prod.fst) = before.length := by
      simpa [emptyArray] using pos
    have heads := length_heads_before split (before.length + 1 + after.length)
    rw [words] at heads
    have place := congrArg encode split
    rw [encode_static rfl] at place
    refine toGoType_array packable sign inRange place heads arguments.short ?_
    have wordsLength := length_flatMap_word packable inRange
    have outLength := congrArg List.length place
    simp only [length_append, body, wordsLength, length_cons] at outLength
    omega

theorem dynamic_offset (isDynamic : arg.1.dynamic = true) :
    ∃ tail rest, encode arguments.args = tail ++ arg.1.body arg.2 ++ rest ∧
      numberBefore (encode arguments.args) (32 * before.length + 32) = tail.length ∧
      32 * before.length + 32 ≤ (encode arguments.args).length := by
  have words : headWords inputs.names = inputs.names.length := by
    refine decodable.offsets ⟨arg.1, ?_, isDynamic⟩
    rw [names_split split]
    simp
  have notEmpty : arg.1.emptyArray = false := by
    revert isDynamic
    cases arg.1 <;> simp [dynamic, emptyArray]
  have heads := length_heads_before split arguments.args.length
  rw [words_before split decodable notEmpty] at heads
  obtain ⟨⟨rest, head⟩, tail, tailLength, tailPlace⟩ := dynamic_places split isDynamic words
  have fits := arguments.fits
  have tails := length_tailBytes_split split
  refine ⟨tail, _, tailPlace, ?_, ?_⟩
  · rw [head, numberBefore_append heads]
    omega
  · rw [head]
    simp only [length_append, length_u256]
    omega

theorem decodes :
    toGoType before.length (newType arg.1) (encode arguments.args) =
      .value (arg.1.decoded arg.2) := by
  have wellTyped : WellTyped arg := arguments.wellTyped (by rw [split]; simp)
  have sign := decodable.sign arg.1 (by rw [names_split split]; simp)
  obtain ⟨name, value⟩ := arg
  obtain ⟨packable, inRange⟩ := wellTyped
  cases name with
  | slice elem =>
    cases value <;> simp only [InRange] at inRange
    obtain ⟨rfl, inRange⟩ := inRange
    obtain ⟨tail, rest, place, off, within⟩ := dynamic_offset split decodable rfl
    exact toGoType_slice packable (fun _ => sign) inRange place within arguments.short off
  | array elem size =>
    cases value <;> simp only [InRange] at inRange
    obtain ⟨rfl, inRange, rfl⟩ := inRange
    rw [decodes_array split decodable rfl packable inRange, decoded_array]
  | single elem =>
    cases elem with
    | string | bytes =>
      cases value <;> simp only [InRange] at inRange
      rename_i item
      cases item <;> simp only [Elementary.InRange] at inRange
      obtain ⟨tail, rest, place, off, within⟩ := dynamic_offset split decodable rfl
      have read := stringData_append place within arguments.short off
      rw [toGoType_within within arguments.short rfl, AbiType.returnOutput]
      simp only [newType, read]
      rfl
    | fixedBytes size =>
      cases value <;> simp only [InRange] at inRange
      exact decodes_word split decodable rfl packable inRange
    | _ =>
      cases value <;> simp only [InRange] at inRange
      rw [decodes_word split decodable rfl packable inRange, padded_of_inRange inRange (by simp)]
      rfl

end

end MoacVnode.Accounts.Abi
