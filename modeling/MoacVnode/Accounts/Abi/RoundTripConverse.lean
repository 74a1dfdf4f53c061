import MoacVnode.Accounts.Abi.RoundTrip

/-!
# Types that cannot be unpacked

For every method whose types do not fit together there are arguments that show it: zero values
everywhere, and at one position -1, a value that is told apart from zero, or a dynamic value of
length 1.
-/

namespace MoacVnode.Accounts.Abi

open MoacVnode.Core Lib Abi.TypeName Outcome Scalar
open List Nat
open List (replicate)

variable {bits i off word : Nat} {elem : Elementary} {name : TypeName} {out : List UInt8}
  {kind : Kind} {items : List Scalar} {value : GoValue} {args : List Argument}
  {inputs : MethodInputs} {before after : List TypeName} {type : AbiType} {count place size : Nat}
  {item : Scalar}

/-! ## Sample values -/

def Elementary.sample (other : Bool) : Elementary → Scalar
  | .int bits => .num (reflectIntKind false (canonicalBits bits)) (if other then 1 else 0)
  | .uint bits => .num (reflectIntKind true (canonicalBits bits)) (if other then 1 else 0)
  | .bool => .bool other
  | .address => .address (if other then 1 else 0)
  | .fixedBytes size => .bytes ((if other then 1 else 0) :: replicate (size - 1) 0)
  | _ => .bytes []

def TypeName.zeroValue : TypeName → GoValue
  | .single .string => .string []
  | .single .bytes => .scalar (.bytes [])
  | .single elem => .scalar (elem.sample false)
  | .slice elem => .list elem.valueKind []
  | .array elem size => .list elem.valueKind (replicate size (elem.sample false))

theorem canonicalBits_ge (bytes : bits % 8 = 0) : 8 ≤ canonicalBits bits := by
  unfold canonicalBits
  split <;> omega

theorem sample_inRange (packable : elem.Packable) (other : Bool) :
    elem.InRange (elem.sample other) := by
  cases elem with
  | int bits =>
    have large : (2 : Int) ^ 7 ≤ 2 ^ (canonicalBits bits - 1) := by
      have wide := canonicalBits_ge packable.1
      exact_mod_cast Nat.pow_le_pow_right (by omega) (by omega : 7 ≤ canonicalBits bits - 1)
    refine ⟨rfl, ?_, ?_⟩ <;> cases other <;> simp <;> omega
  | uint bits =>
    have large : (2 : Int) ^ 8 ≤ 2 ^ canonicalBits bits := by
      exact_mod_cast Nat.pow_le_pow_right (by omega) (canonicalBits_ge packable.1)
    refine ⟨rfl, ?_, ?_⟩ <;> cases other <;> simp
    omega
  | fixedBytes size =>
    simp only [Elementary.Packable] at packable
    simp only [Elementary.InRange, Elementary.sample, length_cons, length_replicate]
    omega
  | string | bytes | function => exact packable.elim
  | _ => trivial

theorem sample_padded_ne (packable : elem.Packable) :
    (elem.sample true).padded ≠ (elem.sample false).padded := by
  cases elem with
  | string | bytes | function => exact packable.elim
  | _ => simp [Elementary.sample, padded, rightPadBytes]

theorem u256_zero : u256 0 = replicate 32 0 := by decide +kernel

theorem sample_word (packable : elem.Packable) : (elem.sample false).word = replicate 32 0 := by
  cases elem with
  | string | bytes | function => exact packable.elim
  | address => decide +kernel
  | fixedBytes size =>
    simp only [Elementary.Packable] at packable
    have length : (0 :: replicate (size - 1) (0 : UInt8)).length = size := by
      simp
      omega
    simp only [Elementary.sample, Bool.false_eq_true, if_false, word, rightPadBytes, length]
    rw [← replicate_succ, ← replicate_add]
    congr 1
    omega
  | _ => exact u256_zero

theorem single_packable (packable : (single elem).Packable)
    (isStatic : (single elem).dynamic = false) : elem.Packable := by
  cases elem <;> first | exact packable | cases isStatic

theorem zeroValue_inRange (packable : name.Packable) : name.InRange name.zeroValue := by
  cases name with
  | single elem =>
    cases isDynamic : (single elem).dynamic with
    | false =>
      have sampled := sample_inRange (single_packable packable isDynamic) false
      cases elem <;> first | exact sampled | cases isDynamic
    | true => cases elem <;> trivial
  | slice elem => exact ⟨rfl, nofun⟩
  | array elem size =>
    refine ⟨rfl, ?_, length_replicate⟩
    intro item mem
    rw [eq_of_mem_replicate mem]
    exact sample_inRange packable false

theorem zeroValue_body_static (packable : name.Packable) (isStatic : name.dynamic = false) :
    name.body name.zeroValue = replicate (32 * name.headWords) 0 := by
  cases name with
  | slice elem => simp [dynamic] at isStatic
  | single elem =>
    have word := sample_word (single_packable packable isStatic)
    cases elem <;> exact word
  | array elem size =>
    simp only [TypeName.body, TypeName.zeroValue, TypeName.headWords]
    rw [flatMap_replicate, sample_word packable, flatten_replicate_replicate, mul_comm]

theorem zeroValue_body_dynamic (isDynamic : name.dynamic = true) :
    name.body name.zeroValue = u256 0 := by
  cases name with
  | array elem size => simp [dynamic] at isDynamic
  | slice elem => simp [body, zeroValue]
  | single elem =>
    cases elem <;> simp only [dynamic, Bool.false_eq_true] at isDynamic <;>
      simp [body, zeroValue, packBytesSlice, rightPadBytes]

variable (names : List TypeName)

def zeroArgs : List Argument := names.map fun name => (name, name.zeroValue)

theorem fst_zeroArgs : (zeroArgs names).map Prod.fst = names := by
  simp [zeroArgs, Function.comp_def]

theorem length_tailBytes_zeroArgs :
    (tailBytes (zeroArgs names)).length ≤ 32 * names.length ∧
      (tailBytes (zeroArgs names)).length ≤ 32 * headWords names := by
  induction names with
  | nil => simp [zeroArgs, tailBytes]
  | cons name names ih =>
    have first : (tailBytes [(name, name.zeroValue)]).length ≤ 32 ∧
        (tailBytes [(name, name.zeroValue)]).length ≤ 32 * name.headWords := by
      cases isDynamic : name.dynamic with
      | false => simp [tailBytes, isDynamic]
      | true =>
        have oneWord : name.headWords = 1 := by
          revert isDynamic
          cases name <;> simp [dynamic, TypeName.headWords]
        simp [tailBytes, isDynamic, zeroValue_body_dynamic isDynamic, oneWord]
    rw [zeroArgs, map_cons, tailBytes_cons, length_append, length_cons, headWords_cons]
    simp only [zeroArgs] at ih
    omega

theorem static_tail (isStatic : name.dynamic = false) (value : GoValue) :
    (tailBytes [(name, value)]).length ≤ 64 := by
  simp [tailBytes, isStatic]

section

variable (inputs : MethodInputs) {before after : List TypeName} {name : TypeName}
  (split : inputs.names = before ++ name :: after)

include split in
theorem packable_of_split : name.Packable := inputs.packable name (by rw [split]; simp)

def vary (value : GoValue) (inRange : name.InRange value)
    (tail : (tailBytes [(name, value)]).length ≤ 64) : Arguments inputs where
  args := zeroArgs before ++ (name, value) :: zeroArgs after
  types := by rw [map_append, map_cons, fst_zeroArgs, fst_zeroArgs, split]
  inRange := by
    intro arg mem
    have zeros (names : List TypeName) (within : ∀ name ∈ names, name ∈ inputs.names)
        (isZero : arg ∈ zeroArgs names) : arg.1.InRange arg.2 := by
      obtain ⟨other, otherMember, rfl⟩ := mem_map.mp isZero
      exact zeroValue_inRange (inputs.packable other (within other otherMember))
    rcases mem_append.mp mem with prior | later
    · exact zeros before (fun other within => by rw [split]; simp [within]) prior
    · rcases mem_cons.mp later with rfl | later
      · exact inRange
      · exact zeros after (fun other within => by rw [split]; simp [within]) later
  fits := by
    have bound := inputs.fits
    have count : inputs.names.length = before.length + 1 + after.length := by
      rw [split]
      simp
      omega
    have first := length_tailBytes_zeroArgs before
    have last := length_tailBytes_zeroArgs after
    rw [tailBytes_append, tailBytes_cons, length_append, length_append]
    omega

theorem zero_tail (name : TypeName) : (tailBytes [(name, name.zeroValue)]).length ≤ 64 := by
  have tail := length_tailBytes_zeroArgs [name]
  simp only [zeroArgs, map_cons, map_nil, length_singleton] at tail
  omega

def zeros : Arguments inputs :=
  vary inputs split name.zeroValue (zeroValue_inRange (packable_of_split inputs split))
    (zero_tail name)

include split in
theorem position_fits : 32 * (headWords inputs.names + before.length) + 32 < 2 ^ 63 := by
  have bound := inputs.fits
  have count : inputs.names.length = before.length + 1 + after.length := by
    rw [split]
    simp
    omega
  omega

theorem encode_vary (isStatic : name.dynamic = false) :
    ∃ first last : List UInt8, first.length = 32 * headWords before ∧
      ∀ (value : GoValue) (inRange : name.InRange value),
        encode (vary inputs split value inRange (static_tail isStatic value)).args =
          first ++ name.body value ++ last := by
  have zeros := zeroValue_inRange (packable_of_split inputs split)
  have heads := length_heads_before (show (vary inputs split name.zeroValue zeros
    (static_tail isStatic _)).args = _ from rfl)
    ((zeroArgs before).length + 1 + (zeroArgs after).length)
  rw [fst_zeroArgs] at heads
  exact ⟨_, _, heads, fun value inRange => encode_static isStatic⟩

end

/-! ## What a decoded value tells about the data -/

section

variable {tag : TypeTag} {data : List UInt8} {idx : Nat}

theorem toGoType_single (notSlice : type.decodedAsSlice = false)
    (decoded : toGoType i type out = .value value) :
    ∃ bytes, type.convert bytes = .value value := by
  simp only [toGoType, notSlice, Bool.false_eq_true, if_false] at decoded
  split at decoded
  · cases decoded
  · obtain ⟨bytes, -, converted⟩ := bind_eq_value_iff.mp decoded
    exact ⟨bytes, converted⟩

theorem readElems_succ (read : readElems kind tag data (count + 1) idx = .value items) :
    ∃ word item others, slice data (wrap (idx * 32)) (wrap (wrap (idx * 32) + 32)) = some word ∧
      readElem kind tag word = .value item ∧
      readElems kind tag data count (idx + 1) = .value others ∧ items = item :: others := by
  rw [readElems] at read
  obtain ⟨word, got, read⟩ := bind_eq_value_iff.mp read
  obtain ⟨item, first, read⟩ := bind_eq_value_iff.mp read
  obtain ⟨others, rest, same⟩ := bind_eq_value_iff.mp read
  cases same
  exact ⟨word, item, others, access_eq_value_iff.mp got, first, rest, rfl⟩

theorem readElems_items (read : readElems kind tag data count idx = .value items) :
    items.length = count ∧ ∀ item ∈ items, ∃ word, readElem kind tag word = .value item := by
  induction count generalizing idx items with
  | zero =>
    cases read
    simp
  | succ count ih =>
    obtain ⟨word, item, others, -, first, rest, rfl⟩ := readElems_succ read
    obtain ⟨length, words⟩ := ih rest
    refine ⟨by simp [length], ?_⟩
    intro other mem
    rcases mem_cons.mp mem with rfl | later
    · exact ⟨word, first⟩
    · exact words other later

theorem readElems_first (read : readElems kind tag data (count + 1) 0 = .value (item :: items)) :
    readElem kind tag (wordFrom data 0) = .value item := by
  have startEq : wrap (((0 : Nat) : Int) * 32) = (0 : Nat) := wrap_eq_nat rfl (by omega)
  have stopEq : wrap (((0 : Nat) : Int) + 32) = (32 : Nat) := wrap_eq_nat rfl (by omega)
  obtain ⟨word, first, others, got, readFirst, -, same⟩ := readElems_succ read
  rw [startEq, stopEq] at got
  have long : 32 ≤ data.length := by
    have bounds := slice_isSome_iff.mp (Option.isSome_of_eq_some got)
    omega
  rw [slice_of_le (by omega) long] at got
  cases same
  cases got
  exact readFirst

theorem toGoType_elementData (asSlice : type.decodedAsSlice = true)
    (elemEq : type.elem = some elem.component) (decoded : toGoType i type out = .value value) :
    ∃ data items, type.elementData (wrap (i * 32)) out = .value data ∧
      readElems type.kind elem.component.tag data.1 data.2.toNat 0 = .value items ∧
      value = .list (refSliceKind type.kind elem.component.tag) items := by
  simp only [toGoType, asSlice, if_true, toGoSlice, elemEq] at decoded
  split at decoded
  · cases decoded
  · split at decoded
    · obtain ⟨data, got, decoded⟩ := bind_eq_value_iff.mp decoded
      obtain ⟨items, read, same⟩ := bind_eq_value_iff.mp decoded
      exact ⟨data, items, got, read, (Outcome.value.inj same).symm⟩
    · cases decoded

theorem within_of_decoded (fits : 32 * i + 32 < 2 ^ 63)
    (decoded : toGoType i type out = .value value) : 32 * i + 32 ≤ out.length := by
  by_contra beyond
  have checked : ((32 * i + 32 : Nat) : Int) > out.length := by omega
  simp only [toGoType, toGoSlice, wrap_index fits, wrap_index_add fits, if_pos checked] at decoded
  split at decoded <;> cases decoded

end

section

variable (big : (Elementary.int bits).signedBig = true)

include big

theorem bigKind : reflectIntKind false (canonicalBits bits) = .ptr := by
  simp only [Elementary.signedBig, decide_eq_true_eq, mem_cons, not_mem_nil, or_false,
    not_or] at big
  simp [reflectIntKind, big]

theorem minusOne_inRange : (Elementary.int bits).InRange (.num .ptr (-1)) := by
  have positive : (0 : Int) < 2 ^ (canonicalBits bits - 1) := by exact_mod_cast Nat.two_pow_pos _
  exact ⟨(bigKind big).symm, by omega, by omega⟩

theorem readInteger_big (word : List UInt8) :
    readInteger (Elementary.int bits).component.kind word ≠ .num .ptr (-1) := by
  have kind : (Elementary.int bits).component.kind = .ptr := bigKind big
  rw [kind]
  simp only [readInteger, ne_eq, num.injEq, true_and]
  omega

theorem minusOne_not_mem (shape : Component)
    (isList : shape.isSlice = true ∨ shape.isArray = true) (zeroTag : shape.tag = .intTy)
    (packable : (Elementary.int bits).Packable)
    (decoded : toGoType i (newType.arrayType shape (Elementary.int bits).component) out = .value
      (.list kind items)) : num .ptr (-1) ∉ items := by
  obtain ⟨data, got, -, read, same⟩ := toGoType_elementData
    (decodedAsSlice_list packable shape isList zeroTag) (arrayType_elem _ _) decoded
  cases same
  intro mem
  obtain ⟨word, readWord⟩ := (readElems_items read).2 _ mem
  exact readInteger_big big word (value.inj readWord)

end

theorem wordFrom_other {before left right : List UInt8} (rest : List UInt8)
    (beforeLength : before.length = 32 * place) (leftLength : left.length = 32)
    (rightLength : right.length = 32) (ne : i ≠ place) :
    wordFrom (before ++ left ++ rest) (32 * i) = wordFrom (before ++ right ++ rest) (32 * i) := by
  have reads (word : List UInt8) (length : word.length = 32) :
      wordFrom (before ++ word ++ rest) (32 * i) =
        if i < place then wordFrom before (32 * i)
        else wordFrom rest (32 * i - 32 * place - 32) := by
    split
    · rw [wordFrom, wordFrom, append_assoc, drop_append_of_le_length (by omega),
        take_append_of_le_length (by rw [length_drop]; omega)]
    · have behind : 32 * i = (before ++ word).length + (32 * i - 32 * place - 32) := by
        rw [length_append]
        omega
      rw [wordFrom, wordFrom]
      conv_lhs =>
        rw [behind, drop_append, drop_of_length_le (Nat.le_add_right _ _),
          nil_append, Nat.add_sub_cancel_left]
  rw [reads left leftLength, reads right rightLength]

theorem array_first (packable : elem.Packable) (fits : 32 * i + 32 * size < 2 ^ 63)
    (nonempty : size ≠ 0)
    (decoded : toGoType i (newType (.array elem size)) out = .value (.list kind (item :: items))) :
    readElem (newType (.array elem size)).kind elem.component.tag (wordFrom out (32 * i)) =
      .value item := by
  obtain ⟨data, got, window, read, same⟩ := toGoType_elementData
    (decodedAsSlice_list packable _ (.inr rfl) rfl) (arrayType_elem _ _) decoded
  cases same
  have sizeEq : atoi size = size := by
    unfold atoi
    omega
  have stopEq : wrap (((32 * i : Nat) : Int) + wrap (32 * (size : Int))) =
      (32 * i + 32 * size : Nat) := by
    rw [wrap_add_wrap]
    exact wrap_eq_nat (by omega) (by omega)
  simp only [AbiType.elementData, arrayType_isSlice, Bool.false_eq_true, if_false,
    arrayType_isArray, if_true, arrayType_sliceSize, arrayData, sizeEq,
    wrap_index (show 32 * i + 32 < 2 ^ 63 by omega), stopEq, takeWindow] at window
  split at window
  · cases window
  · rw [slice_of_le (by omega) (by omega), Nat.add_sub_cancel_left, access_some,
      value_bind] at window
    cases window
    obtain ⟨count, rfl⟩ := Nat.exists_eq_succ_of_ne_zero nonempty
    have first := readElems_first read
    rw [wordFrom, drop_zero, take_take, min_eq_left (by omega)] at first
    exact first

section

variable (within : 32 * i + 32 ≤ out.length) (short : out.length < 2 ^ 63)
  (offsetEq : numberBefore out (32 * i + 32) = off) (ran : off + 32 ≤ out.length)

include within short offsetEq ran

theorem slice_length (packable : elem.Packable)
    (decoded : toGoType i (newType (.slice elem)) out = .value (.list kind items)) :
    (wrap (numberBefore out (off + 32))).toNat = items.length := by
  obtain ⟨data, got, window, read, same⟩ := toGoType_elementData
    (decodedAsSlice_list packable _ (.inl rfl) rfl) (arrayType_elem _ _) decoded
  cases same
  rw [AbiType.elementData, if_pos (arrayType_isSlice _ _), wrap_index (by omega), sliceData,
    readOffset_eq within short, offsetEq, value_bind, sliceAt_of_within short ran,
    value_bind] at window
  have size : data.2 = wrap (numberBefore out (off + 32)) := by
    simp only [takeWindow] at window
    split at window
    · cases window
    · obtain ⟨bytes, -, same⟩ := bind_eq_value_iff.mp window
      cases same
      rfl
  rw [← size, (readElems_items read).1]

theorem string_length {bytes : List UInt8} (read : stringData (32 * i : Nat) out = .value bytes) :
    wrap (((off + 32 : Nat) : Int) + wrap (numberBefore out (off + 32))) =
      (off + 32 + bytes.length : Nat) := by
  obtain ⟨start, size⟩ := stringAt_of_within short (show off < 2 ^ 64 by omega) (by omega)
    (.inl ran)
  have direct : (off + 32) % 2 ^ 64 = off + 32 := by omega
  rw [direct] at start size
  rw [stringData, readOffset_eq within short, offsetEq, value_bind, size, value_bind, start] at read
  generalize wrap (((off + 32 : Nat) : Int) + wrap (numberBefore out (off + 32))) = stop at read ⊢
  dsimp only at read
  split at read
  · cases read
  · have got := access_eq_value_iff.mp read
    have bounds := slice_isSome_iff.mp (Option.isSome_of_eq_some got)
    obtain ⟨place, rfl⟩ : ∃ place : Nat, stop = place := ⟨stop.toNat, by omega⟩
    rw [slice_of_le (by omega) (by omega)] at got
    have length := congrArg List.length (Option.some.inj got)
    rw [length_take, length_drop] at length
    omega

end

theorem length_tailBytes_mod (wellTyped : ∀ arg ∈ args, WellTyped arg) :
    (tailBytes args).length % 32 = 0 := by
  induction args with
  | nil => rfl
  | cons arg args ih =>
    have rest := ih (fun other mem => wellTyped other (by simp [mem]))
    have first : (tailBytes [arg]).length % 32 = 0 := by
      have typed := wellTyped arg (by simp)
      obtain ⟨name, value⟩ := arg
      obtain ⟨packable, inRange⟩ := typed
      have padded (bytes : List UInt8) : (packBytesSlice bytes bytes.length).length % 32 = 0 := by
        rw [packBytesSlice, rightPadBytes, length_append, length_append, length_u256,
          length_replicate]
        omega
      cases isDynamic : name.dynamic with
      | false => simp [tailBytes, isDynamic]
      | true =>
        rw [tailBytes_dynamic isDynamic]
        cases name with
        | array elem size => cases isDynamic
        | slice elem =>
          cases value <;> simp only [InRange] at inRange
          rw [body, length_append, length_u256, length_flatMap_word packable inRange.2]
          omega
        | single elem =>
          cases elem <;> try cases isDynamic
          · cases value <;> simp only [InRange, Elementary.InRange] at inRange
            exact padded _
          · cases value with
            | scalar item =>
              cases item <;> simp only [InRange, Elementary.InRange] at inRange
              exact padded _
            | _ => simp only [InRange] at inRange
    rw [tailBytes_cons, length_append]
    omega

theorem exists_split_of_word (within : word < headWords (args.map Prod.fst)) :
    ∃ before arg after, args = before ++ arg :: after ∧
      headWords (before.map Prod.fst) ≤ word ∧
      word < headWords (before.map Prod.fst) + arg.1.headWords := by
  induction args generalizing word with
  | nil => cases within
  | cons arg args ih =>
    rw [map_cons, headWords_cons] at within
    by_cases here : word < arg.1.headWords
    · exact ⟨[], arg, args, rfl, zero_le _, by simpa [headWords] using here⟩
    · obtain ⟨before, got, after, split, low, high⟩ :
          ∃ before got after, args = before ++ got :: after ∧ _ :=
        ih (show word - arg.1.headWords < _ by omega)
      refine ⟨arg :: before, got, after, by rw [split]; rfl, ?_, ?_⟩ <;>
        rw [map_cons, headWords_cons] <;>
        omega

theorem split_cases {α : Type} {left right before after : List α} {here there : α}
    (same : left ++ here :: right = before ++ there :: after) :
    before = left ∨ there ∈ left ∨ there ∈ right := by
  rcases append_eq_append_iff.mp same with ⟨mid, beforeEq, rest⟩ | ⟨mid, leftEq, rest⟩ <;>
    cases mid <;>
    simp_all

theorem numberBefore_zeros {before rest : List UInt8} (beforeLength : before.length = 32 * place)
    (low : place ≤ word) (high : word < place + count) :
    numberBefore (before ++ replicate (32 * count) 0 ++ rest) (32 * word + 32) = 0 := by
  have parts : 32 * count = 32 * (word - place) + 32 + 32 * (place + count - word - 1) := by omega
  have split : before ++ replicate (32 * count) (0 : UInt8) ++ rest =
      before ++ replicate (32 * (word - place)) 0 ++ u256 0 ++
        (replicate (32 * (place + count - word - 1)) 0 ++ rest) := by
    rw [parts, replicate_add, replicate_add, u256_zero]
    simp
  have startEq : (before ++ replicate (32 * (word - place)) (0 : UInt8)).length = 32 * word := by
    rw [length_append, length_replicate]
    omega
  rw [split, numberBefore_append startEq]
  rfl

theorem head_number (words : headWords inputs.names = inputs.names.length)
    (isDynamic : name.dynamic = true) (arguments : Arguments inputs)
    (argsEq : arguments.args = zeroArgs before ++ (name, value) :: zeroArgs after)
    (within : word < headWords inputs.names) :
    numberBefore (encode arguments.args) (32 * word + 32) = 0 ∨
      ∃ first arg last tail, arguments.args = first ++ arg :: last ∧ arg.1.dynamic = true ∧
        headWords (first.map Prod.fst) = word ∧
        numberBefore (encode arguments.args) (32 * word + 32) = tail.length ∧
        tail.length % 32 = 0 ∧
        encode arguments.args = tail ++ arg.1.body arg.2 ++ tailBytes last := by
  rw [← arguments.types] at within
  obtain ⟨first, arg, last, argSplit, low, high⟩ := exists_split_of_word within
  have typed (other : Argument) (mem : other ∈ first) : WellTyped other :=
    arguments.wellTyped (by rw [argSplit]; simp [mem])
  cases argDynamic : arg.1.dynamic with
  | false =>
    -- only the dynamic argument is not zero
    have isZero : arg.2 = arg.1.zeroValue := by
      have mem : arg ∈ arguments.args := by
        rw [argSplit]
        simp
      simp only [argsEq, mem_append, mem_cons, zeroArgs, mem_map] at mem
      rcases mem with ⟨other, -, rfl⟩ | rfl | ⟨other, -, rfl⟩
      · rfl
      · rw [isDynamic] at argDynamic
        cases argDynamic
      · rfl
    have packable := (arguments.wellTyped (show arg ∈ arguments.args by rw [argSplit]; simp)).1
    left
    rw [argSplit, encode_static argDynamic, isZero, zeroValue_body_static packable argDynamic]
    exact numberBefore_zeros (length_headBytes typed) low high
  | true =>
    have oneWord : arg.1.headWords = 1 := by
      revert argDynamic
      cases arg.1 <;> simp [dynamic, TypeName.headWords]
    have place : headWords (first.map Prod.fst) = word := by omega
    obtain ⟨⟨rest, head⟩, tail, tailLength, tailPlace⟩ := dynamic_places argSplit argDynamic words
    have heads := length_heads_before argSplit arguments.args.length
    rw [place] at heads
    have fits := arguments.fits
    have tails := length_tailBytes_split argSplit
    have whole := length_tailBytes_mod typed
    refine .inr ⟨first, arg, last, tail, argSplit, argDynamic, place, ?_, by omega, tailPlace⟩
    rw [head, numberBefore_append heads]
    omega

section

variable (roundTrips : ∀ arguments : Arguments inputs, RoundTrips arguments.args)

include roundTrips

theorem noPanic_of_roundTrips (mem : name ∈ inputs.names) : name.panics = false := by
  by_contra panics
  obtain ⟨before, after, split⟩ := append_of_mem mem
  obtain ⟨out, packed, -⟩ := roundTrips (zeros inputs split)
  rw [packArguments_eq_packLoop] at packed
  have empty : name.EmptyBytes name.zeroValue := by
    revert panics
    cases name with
    | single elem => simp [panics]
    | slice elem => cases elem <;> simp [panics, EmptyBytes, zeroValue]
    | array elem size =>
      cases elem <;> cases size <;> simp [panics, EmptyBytes, zeroValue]
  refine packLoop_fault packed (newType name, name.zeroValue) ?_
    (pack_empty (zeroValue_inRange (packable_of_split inputs split)) empty)
  simp [zeros, vary]

theorem packed_of_roundTrips (arguments : Arguments inputs) :
    ∀ before arg after, arguments.args = before ++ arg :: after →
      Placed (encode arguments.args) before arg after ∧
        toGoType before.length (newType arg.1) (encode arguments.args) =
          .value (arg.1.decoded arg.2) := by
  obtain ⟨out, packed, placed⟩ := roundTrips arguments
  have laidOut := arguments.packed (fun arg mem =>
    not_emptyBytes (arguments.inRange arg mem)
      (noPanic_of_roundTrips roundTrips (arguments.mem_names mem)))
  rw [packed] at laidOut
  cases laidOut
  exact placed

theorem decoded_vary (split : inputs.names = before ++ name :: after) (value : GoValue)
    (inRange : name.InRange value) (tail : (tailBytes [(name, value)]).length ≤ 64) :
    toGoType before.length (newType name) (encode (vary inputs split value inRange tail).args) =
      .value (name.decoded value) := by
  have placed := packed_of_roundTrips roundTrips (vary inputs split value inRange tail)
    (zeroArgs before) (name, value) (zeroArgs after) rfl
  have pos : (zeroArgs before).length = before.length := length_map _
  rw [pos] at placed
  exact placed.2

theorem sign_of_roundTrips (mem : name ∈ inputs.names) : name.losesSign = false := by
  by_contra loses
  obtain ⟨before, after, split⟩ := append_of_mem mem
  have packable := packable_of_split inputs split
  cases name with
  | single elem =>
    cases elem <;> try exact loses rfl
    rename_i bits
    have big : (Elementary.int bits).signedBig = true := eq_true_of_ne_false loses
    have decoded := decoded_vary roundTrips split (.scalar (.num .ptr (-1)))
      (minusOne_inRange big) (by simp [tailBytes, dynamic])
    obtain ⟨word, converted⟩ := toGoType_single rfl decoded
    exact readInteger_big big word (GoValue.scalar.inj (value.inj converted))
  | slice elem =>
    cases elem <;> try exact loses rfl
    rename_i bits
    have big : (Elementary.int bits).signedBig = true := eq_true_of_ne_false loses
    have decoded := decoded_vary roundTrips split
      (.list (Elementary.int bits).valueKind [.num .ptr (-1)])
      ⟨rfl, by simpa using minusOne_inRange big⟩
      (by simp [tailBytes, dynamic, body, word])
    exact minusOne_not_mem big _ (.inl rfl) rfl packable decoded (by simp)
  | array elem size =>
    cases elem <;> try exact loses rfl
    rename_i bits
    simp only [losesSign, Bool.not_eq_false, Bool.and_eq_true, decide_eq_true_eq] at loses
    have decoded := decoded_vary roundTrips split
      (.list (Elementary.int bits).valueKind (replicate size (.num .ptr (-1))))
      ⟨rfl, fun item isItem => by
        rw [eq_of_mem_replicate isItem]
        exact minusOne_inRange loses.1, length_replicate⟩
      (by simp [tailBytes, dynamic])
    exact minusOne_not_mem loses.1 _ (.inr rfl) rfl packable decoded
      (mem_replicate.mpr ⟨loses.2, rfl⟩)

theorem offsets_of_roundTrips (exists_dynamic : ∃ name ∈ inputs.names, name.dynamic = true) :
    headWords inputs.names = inputs.names.length := by
  obtain ⟨name, mem, isDynamic⟩ := exists_dynamic
  obtain ⟨before, after, split⟩ := append_of_mem mem
  obtain ⟨placed, -⟩ := packed_of_roundTrips roundTrips (zeros inputs split) (zeroArgs before)
    (name, name.zeroValue) (zeroArgs after) rfl
  simp only [Placed, isDynamic, if_true, map_append, map_cons, fst_zeroArgs, ← split] at placed
  obtain ⟨rest, head⟩ : ∃ rest, encode (zeroArgs before ++ (name, name.zeroValue) ::
      zeroArgs after) = _ ++ rest := encode_head isDynamic
  have heads := length_heads_before (show (zeros inputs split).args = _ from rfl)
    ((zeroArgs before).length + 1 + (zeroArgs after).length)
  rw [fst_zeroArgs] at heads
  have count : inputs.names.length = (zeroArgs before).length + 1 + (zeroArgs after).length := by
    rw [split]
    simp [zeroArgs]
    omega
  have bound := inputs.fits
  have tails := length_tailBytes_zeroArgs before
  have fewer : headWords before ≤ headWords inputs.names := by
    rw [split, headWords_append]
    omega
  have word := placed.1
  rw [show (zeros inputs split).args = zeroArgs before ++ (name, name.zeroValue) ::
    zeroArgs after from rfl, head, wordFrom_append heads (length_u256 _), offset_fits (by omega)]
    at word
  have same := congrArg beNat word
  rw [beNat_u256, beNat_u256] at same
  omega

/-! ## Positions -/

section

variable (split : inputs.names = before ++ name :: after)

include split

theorem position_within : before.length < headWords inputs.names := by
  have packable := packable_of_split inputs split
  have fits := position_fits inputs split
  have decoded := decoded_vary roundTrips split name.zeroValue (zeroValue_inRange packable)
    (zero_tail name)
  have within := within_of_decoded (by omega) decoded
  by_cases anyDynamic : ∃ other ∈ inputs.names, other.dynamic = true
  · rw [offsets_of_roundTrips roundTrips anyDynamic, split]
    simp
  · have noTails : tailBytes (zeros inputs split).args = [] := by
      apply flatMap_eq_nil_iff.mpr
      intro arg mem
      rw [if_neg]
      intro isDynamic
      exact anyDynamic ⟨arg.1, (zeros inputs split).mem_names mem, isDynamic⟩
    have length := (zeros inputs split).length_encode
    rw [noTails, length_nil] at length
    change 32 * before.length + 32 ≤ (encode (zeros inputs split).args).length at within
    omega

theorem position_single (isSingle : name = .single elem) (isStatic : name.dynamic = false) :
    headWords before = before.length := by
  by_contra ne
  subst isSingle
  have packable := single_packable (packable_of_split inputs split) isStatic
  obtain ⟨first, last, firstLength, place⟩ := encode_vary inputs split isStatic
  have inRange (other : Bool) : (single elem).InRange (.scalar (elem.sample other)) := by
    have sampled := sample_inRange packable other
    cases elem <;> first | exact sampled | cases isStatic
  have body (other : Bool) : (single elem).body (.scalar (elem.sample other)) =
      (elem.sample other).word := by
    cases elem <;> rfl
  -- what is read at the position does not depend on the value
  have reads (other : Bool) : (newType (.single elem)).convert
      (wordFrom (first ++ (elem.sample other).word ++ last) (32 * before.length)) =
        .value (.scalar (elem.sample other).padded) := by
    have decoded := decoded_vary roundTrips split _ (inRange other) (static_tail isStatic _)
    have fits := position_fits inputs split
    have within := within_of_decoded (by omega) decoded
    have short := (vary inputs split _ (inRange other) (static_tail isStatic _)).short
    obtain ⟨notSlice, notString, notBytes⟩ := single_isWord packable
    rw [toGoType_within within short notSlice, returnOutput_word within short notString notBytes,
      value_bind, place, body] at decoded
    rw [decoded]
    have same := padded_of_inRange (sample_inRange packable other)
    cases elem <;> first | rfl | rw [same nofun]; rfl
  have kept := wordFrom_other last firstLength (length_word packable (sample_inRange packable true))
    (length_word packable (sample_inRange packable false)) (fun same => ne same.symm)
  have same := reads true
  rw [kept, reads false] at same
  exact sample_padded_ne packable (GoValue.scalar.inj (value.inj same)).symm

theorem position_array (isArray : name = .array elem size) (notEmpty : name.emptyArray = false) :
    headWords before = before.length := by
  by_contra ne
  subst isArray
  have packable : elem.Packable := packable_of_split inputs split
  have nonempty : size ≠ 0 := by
    rintro rfl
    cases notEmpty
  obtain ⟨first, last, firstLength, place⟩ := encode_vary inputs split rfl
  let items (other : Bool) := elem.sample other :: replicate (size - 1) (elem.sample false)
  have itemsInRange (other : Bool) : ∀ item ∈ items other, elem.InRange item := by
    intro item mem
    rcases mem_cons.mp mem with rfl | later
    · exact sample_inRange packable other
    · rw [eq_of_mem_replicate later]
      exact sample_inRange packable false
  have inRange (other : Bool) : (array elem size).InRange (.list elem.valueKind (items other)) := by
    refine ⟨rfl, itemsInRange other, ?_⟩
    simp only [items, length_cons, length_replicate]
    omega
  have reads (other : Bool) : readElem (newType (.array elem size)).kind elem.component.tag
      (wordFrom (first ++ (elem.sample other).word ++
        ((replicate (size - 1) (elem.sample false)).flatMap word ++ last))
        (32 * before.length)) = .value (elem.sample other).padded := by
    have decoded := decoded_vary roundTrips split _ (inRange other) (static_tail rfl _)
    have fits := position_fits inputs split
    have atMost : size ≤ headWords inputs.names :=
      headWords_le (show array elem size ∈ inputs.names by rw [split]; simp)
    rw [decoded_array, ← decodedList_eq packable (itemsInRange other)
      { isArray := true, sliceSize := atoi size }, place] at decoded
    have read := array_first packable (by omega) nonempty decoded
    simpa [body, items] using read
  have kept := wordFrom_other ((replicate (size - 1)
    (elem.sample false)).flatMap word ++ last) firstLength
    (length_word packable (sample_inRange packable true))
    (length_word packable (sample_inRange packable false)) (fun same => ne same.symm)
  have same := reads true
  rw [kept, reads false] at same
  exact sample_padded_ne packable (value.inj same).symm

section

variable (isDynamic : name.dynamic = true)

include isDynamic

theorem length_not_found (ne : headWords before ≠ before.length) (arguments : Arguments inputs)
    (argsEq : arguments.args = zeroArgs before ++ (name, value) :: zeroArgs after) :
    ∃ off, numberBefore (encode arguments.args) (32 * before.length + 32) = off ∧
      off + 32 ≤ (encode arguments.args).length ∧
      numberBefore (encode arguments.args) (off + 32) ≠ 1 := by
  have words := offsets_of_roundTrips roundTrips ⟨name, by rw [split]; simp, isDynamic⟩
  have within := position_within roundTrips split
  have length := arguments.length_encode
  rcases head_number words isDynamic arguments argsEq within with
    zero | ⟨first, arg, last, tail, argSplit, argDynamic, place, number, -, tailPlace⟩
  · -- the length is looked for in the first word
    refine ⟨0, zero, by omega, ?_⟩
    rcases head_number words isDynamic arguments argsEq
      (show 0 < headWords inputs.names by omega) with
      zeroFirst | ⟨_, _, _, tail, -, -, -, number, whole, -⟩
    · rw [mul_zero] at zeroFirst
      omega
    · rw [mul_zero] at number
      omega
  · refine ⟨tail.length, number, ?_, ?_⟩ <;> rw [argsEq] at argSplit
    all_goals
      have isZero : arg.2 = arg.1.zeroValue := by
        rcases split_cases argSplit with same | prior | later
        · rw [same, fst_zeroArgs] at place
          exact absurd place ne
        · obtain ⟨other, -, rfl⟩ := mem_map.mp prior
          rfl
        · obtain ⟨other, -, rfl⟩ := mem_map.mp later
          rfl
      rw [tailPlace, isZero, zeroValue_body_dynamic argDynamic]
    · simp
    · rw [numberBefore_append rfl]
      decide

theorem string_not_found (ne : headWords before ≠ before.length)
    (inRange : name.InRange value) (tail : (tailBytes [(name, value)]).length ≤ 64)
    (notSlice : (newType name).decodedAsSlice = false)
    (tag : (newType name).tag = .stringTy ∨ (newType name).tag = .bytesTy)
    (oneByte : ∀ bytes, (newType name).convert bytes = .value (name.decoded value) → bytes.length =
      1) : False := by
  have fits := position_fits inputs split
  have decoded := decoded_vary roundTrips split _ inRange tail
  obtain ⟨off, number, ran, notOne⟩ := length_not_found roundTrips split isDynamic ne
    (vary inputs split _ inRange tail) rfl
  have within := within_of_decoded (by omega) decoded
  have short := (vary inputs split _ inRange tail).short
  rw [toGoType_within within short notSlice] at decoded
  obtain ⟨bytes, output, converted⟩ := bind_eq_value_iff.mp decoded
  have length : _ = ((off + 32 + bytes.length : Nat) : Int) :=
    string_length within short number ran (by
      rcases tag with tag | tag <;> simpa only [AbiType.returnOutput, tag] using output)
  have bound : numberBefore (encode (vary inputs split _ inRange tail).args) (off + 32) <
    2 ^ 64 := numberBefore_lt _
  rw [oneByte bytes converted, wrap_add_wrap] at length
  unfold wrap at length
  omega

theorem position_dynamic : headWords before = before.length := by
  by_contra ne
  have packable := packable_of_split inputs split
  have fits := position_fits inputs split
  cases name with
  | array elem size => cases isDynamic
  | slice elem =>
    have item := sample_inRange packable false
    have inRange : (slice elem).InRange (.list elem.valueKind [elem.sample false]) :=
      ⟨rfl, by simpa using item⟩
    have tail : (tailBytes [(slice elem,
        GoValue.list elem.valueKind [elem.sample false])]).length ≤ 64 := by
      rw [tailBytes_dynamic rfl, body, length_append, length_u256,
        length_flatMap_word packable inRange.2]
      simp
    have decoded := decoded_vary roundTrips split _ inRange tail
    obtain ⟨off, number, ran, notOne⟩ := length_not_found roundTrips split rfl ne
      (vary inputs split _ inRange tail) rfl
    have within := within_of_decoded (by omega) decoded
    change _ = value (decodedList elem [elem.sample false]) at decoded
    rw [← decodedList_eq packable inRange.2 { isSlice := true, sliceSize := -1 }] at decoded
    have length := slice_length within (vary inputs split _ inRange tail).short number ran
      packable decoded
    have bound : numberBefore (encode (vary inputs split _ inRange tail).args) (off + 32) <
      2 ^ 64 := numberBefore_lt _
    simp only [map_cons, map_nil, length_singleton] at length
    unfold wrap at length
    omega
  | single elem =>
    cases elem <;> try cases isDynamic
    · refine string_not_found roundTrips split rfl ne
        (show (single .string).InRange (.string [0]) from trivial) ?_ rfl (.inl rfl) ?_
      · rw [tailBytes_dynamic rfl]
        decide +kernel
      · intro bytes converted
        rw [GoValue.string.inj (value.inj converted)]
        rfl
    · refine string_not_found roundTrips split rfl ne
        (show (single .bytes).InRange (.scalar (.bytes [0])) from trivial) ?_ rfl
        (.inr rfl) ?_
      · rw [tailBytes_dynamic rfl]
        decide +kernel
      · intro bytes converted
        rw [Scalar.bytes.inj (GoValue.scalar.inj (value.inj converted))]
        rfl

end

end

end

theorem roundTrips_of_decodable (decodable : Decodable inputs.names)
    (arguments : Arguments inputs) : RoundTrips arguments.args := by
  refine ⟨_, arguments.packed (fun arg mem => not_emptyBytes (arguments.inRange arg mem)
    (decodable.noPanic _ (arguments.mem_names mem))), ?_⟩
  intro before arg after split
  refine ⟨?_, decodes split decodable⟩
  cases isDynamic : arg.1.dynamic with
  | false =>
    simp only [Placed, isDynamic, Bool.false_eq_true, if_false]
    rw [split, encode_static isDynamic]
    exact take_drop_append (length_heads_before split _)
  | true =>
    have words := decodable.offsets ⟨arg.1, arguments.mem_names (by rw [split]; simp), isDynamic⟩
    obtain ⟨⟨rest, head⟩, tail, tailLength, tailPlace⟩ := dynamic_places split isDynamic words
    have names : (before ++ arg :: after).map Prod.fst = inputs.names := by
      rw [← split, arguments.types]
    simp only [Placed, isDynamic, if_true, names]
    constructor
    · rw [head]
      exact wordFrom_append (length_heads_before split _) (length_u256 _)
    · rw [tailPlace]
      exact take_drop_append tailLength

theorem decodable_of_roundTrips
    (roundTrips : ∀ arguments : Arguments inputs, RoundTrips arguments.args) :
    Decodable inputs.names where
  sign _ mem := sign_of_roundTrips roundTrips mem
  noPanic _ mem := noPanic_of_roundTrips roundTrips mem
  offsets := offsets_of_roundTrips roundTrips
  positions before name after split := by
    cases isEmpty : name.emptyArray with
    | true => exact position_within roundTrips split
    | false =>
      cases isDynamic : name.dynamic with
      | true => exact position_dynamic roundTrips split isDynamic
      | false =>
        cases name with
        | slice elem => cases isDynamic
        | single elem => exact position_single roundTrips split rfl isDynamic
        | array elem size => exact position_array roundTrips split rfl isEmpty

/-- All values of a method come back from their positions exactly if its types fit together. -/
theorem abi_round_trip_iff (inputs : MethodInputs) :
    (∀ arguments : Arguments inputs, RoundTrips arguments.args) ↔ Decodable inputs.names :=
  ⟨decodable_of_roundTrips, roundTrips_of_decodable⟩

/-- The method of one `int256` does not give back -1. -/
theorem minus_one_comes_back_positive :
    packArguments [(.single (.int 256), .scalar (.num .ptr (-1)))] =
        .value (replicate 32 255) ∧
      toGoType 0 (newType (.single (.int 256))) (replicate 32 255) =
        .value (.scalar (.num .ptr (2 ^ 256 - 1))) := by
  decide +kernel

end MoacVnode.Accounts.Abi
