import WireFormat.Proofs.Reader
import WireFormat.Proofs.ZigZag
import WireFormat.Scalar

/-!
# Tags and scalar values read back

What is written for a tag or a value is taken off the front of any bytes by the reader for it
(`Tag.tag_write_append`, `Scalar.reader_write_append`). A tag keeps field numbers of 29 bits, and a
length keeps bodies of less than 4 GiB; nothing else is lost. The digits of a number and the number
are inverse up to the width (`ofLittleEndian_littleEndian`, `littleEndian_ofLittleEndian`).
-/

namespace WireFormat

/-! ## Tags -/

namespace Tag

variable {number : UInt32} {wire : WireType}

theorem toNat_raw_of (hnumber : number.toNat < 2 ^ 29) (hwire : wire.bits.toNat < 8) :
    (Tag.of number wire).raw.toNat = 8 * number.toNat + wire.bits.toNat := by
  have hbits : (wire.bits.toUInt32 &&& 7).toNat = wire.bits.toNat := by
    rw [UInt32.toNat_and, UInt8.toNat_toUInt32]
    exact (Nat.and_two_pow_sub_one_eq_mod _ 3).trans (Nat.mod_eq_of_lt hwire)
  have hshift : (number <<< 3).toNat = 8 * number.toNat := by
    rw [UInt32.toNat_shiftLeft]
    simp only [UInt32.reduceToNat, Nat.reduceMod, Nat.shiftLeft_eq]
    omega
  have hsum := Nat.two_pow_add_eq_or_of_lt (i := 3) (b := wire.bits.toNat) hwire number.toNat
  simp only [Nat.reducePow] at hsum
  rw [Tag.of, ofField, UInt32.toNat_or, hbits, hshift, hsum]

theorem field_of (hnumber : number.toNat < 2 ^ 29) (hwire : wire.bits.toNat < 8) :
    (Tag.of number wire).field = number := by
  apply UInt32.toNat_inj.1
  rw [field, UInt32.toNat_shiftRight, toNat_raw_of hnumber hwire]
  simp only [UInt32.reduceToNat, Nat.reduceMod, Nat.shiftRight_eq_div_pow, Nat.reducePow]
  omega

theorem wireBits_of (hnumber : number.toNat < 2 ^ 29) (hwire : wire.bits.toNat < 8) :
    (Tag.of number wire).wireBits = wire.bits := by
  apply UInt8.toNat_inj.1
  rw [wireBits, UInt32.toNat_toUInt8, UInt32.toNat_and, toNat_raw_of hnumber hwire]
  have hmod := Nat.and_two_pow_sub_one_eq_mod (8 * number.toNat + wire.bits.toNat) 3
  simp only [Nat.reducePow, Nat.reduceSub] at hmod
  simp only [UInt32.reduceToNat, hmod]
  omega

theorem wireType_of (hnumber : number.toNat < 2 ^ 29) (hwire : wire.bits.toNat < 8)
    (hnamed : WireType.ofBits wire.bits = wire) : (Tag.of number wire).wireType = wire := by
  rw [wireType, wireBits_of hnumber hwire, hnamed]

theorem tag_write_append (tag : Tag) (rest : Bytes) :
    Reader.tag (tag.write ++ rest) = .ok (tag, tag.write.length) := by
  refine Reader.tag_append ⟨Varint.isVarint_encode _, ?_⟩ rest
  rw [Varint.value_encode, UInt32.toNat_toUInt64]
  exact (Nat.mod_eq_of_lt tag.raw.toNat_lt).symm

theorem write_length_pos (tag : Tag) : 0 < tag.write.length :=
  (Varint.isVarint_encode _).length_pos

end Tag

namespace Kind

/-- The layouts of values are layouts that bits name. -/
theorem bits_wireType_lt (kind : Kind) : kind.wireType.bits.toNat < 8 := by
  cases kind <;> decide

theorem ofBits_bits_wireType (kind : Kind) :
    WireType.ofBits kind.wireType.bits = kind.wireType := by
  cases kind <;> rfl

/-- All kinds but texts and bytes have a layout of their own. -/
theorem wireType_ne_lengthDelimited {kind : Kind} (hstring : kind ≠ .string)
    (hbytes : kind ≠ .bytes) : .lengthDelimited ≠ kind.wireType := by
  cases kind <;> simp_all [wireType]

end Kind

/-! ## Lengths -/

theorem Reader.lengthDelimited_lengthPrefixed_append {body : Bytes} (h : body.length < 2 ^ 32)
    (rest : Bytes) :
    Reader.lengthDelimited (lengthPrefixed body ++ rest) =
      .ok (body, (lengthPrefixed body).length) := by
  refine Reader.lengthDelimited_append (Varint.isVarint_encode _) ?_ rest
  rw [Varint.value_encode, UInt64.toNat_ofNat']
  omega

theorem lengthPrefixed_length_pos (body : Bytes) : 0 < (lengthPrefixed body).length := by
  have hpos := (Varint.isVarint_encode (UInt64.ofNat body.length)).length_pos
  rw [lengthPrefixed, List.length_append]
  omega

/-! ## Fixed widths -/

theorem ofLittleEndian_lt (bytes : Bytes) : ofLittleEndian bytes < 256 ^ bytes.length := by
  induction bytes with
  | nil => simp [ofLittleEndian]
  | cons b rest ih =>
    have hb : b.toNat < 256 := b.toNat_lt
    simp only [ofLittleEndian, List.length_cons, Nat.pow_succ]
    omega

/-- Reading the digits back keeps what the width can hold. -/
theorem ofLittleEndian_littleEndian (width n : Nat) :
    ofLittleEndian (littleEndian width n) = n % 256 ^ width := by
  induction width generalizing n with
  | zero => simp [littleEndian, ofLittleEndian, Nat.mod_one]
  | succ width ih =>
    rw [littleEndian, ofLittleEndian, ih, Nat.pow_succ', Nat.mod_mul]
    simp

/-- Every byte string is the digits of the number it spells. -/
theorem littleEndian_ofLittleEndian (bytes : Bytes) :
    littleEndian bytes.length (ofLittleEndian bytes) = bytes := by
  induction bytes with
  | nil => rfl
  | cons b rest ih =>
    have hb : b.toNat < 256 := b.toNat_lt
    have hd : (b.toNat + 256 * ofLittleEndian rest) / 256 = ofLittleEndian rest := by omega
    have hm : UInt8.ofNat (b.toNat + 256 * ofLittleEndian rest) = b := by
      apply UInt8.toNat_inj.1
      rw [UInt8.toNat_ofNat']
      omega
    simp only [List.length_cons, littleEndian, ofLittleEndian, hd, hm, ih]

/-! ## Values -/

namespace Scalar

/-- The bytes that are written behind their length. -/
def bodies : Scalar → List Bytes
  | string s => [Utf8.encode s]
  | bytes b => [b]
  | _ => []

theorem bodies_eq_nil {value : Scalar} (h : .lengthDelimited ≠ value.kind.wireType) :
    value.bodies = [] := by
  cases value with
  | string s => exact absurd rfl h
  | bytes b => exact absurd rfl h
  | _ => rfl

theorem uint32_write_append (v : UInt32) (rest : Bytes) :
    Reader.uint32 (Varint.encode v.toUInt64 ++ rest) =
      .ok (v, (Varint.encode v.toUInt64).length) := by
  rw [Reader.uint32_append (Varint.isVarint_encode _), Varint.value_encode, UInt32.toNat_toUInt64,
    UInt32.ofNat_toNat]

theorem uint64_write_append (v : UInt64) (rest : Bytes) :
    Reader.uint64 (Varint.encode v ++ rest) = .ok (v, (Varint.encode v).length) := by
  rw [Reader.uint64_append (Varint.isVarint_encode _), Varint.value_encode, UInt64.ofNat_toNat]

/-- A number is taken back from its digits as the value that is made of it. -/
theorem fixed_write_append {α : Type} {width n : Nat} {make : Nat → α} {a : α}
    (hless : n < 256 ^ width) (hmake : make n = a) (rest : Bytes) :
    Reader.fixed width make (littleEndian width n ++ rest) =
      .ok (a, (littleEndian width n).length) := by
  have hdigits := Reader.exactly_append (littleEndian width n) rest
  have hvalue : make (ofLittleEndian (littleEndian width n)) = a := by
    rw [ofLittleEndian_littleEndian, Nat.mod_eq_of_lt hless, hmake]
  rw [length_littleEndian] at hdigits ⊢
  exact Reader.map_eq_ok_iff.2 ⟨_, hdigits, hvalue⟩

theorem fixed32_write_append (v : UInt32) (rest : Bytes) :
    Reader.fixed32 (littleEndian 4 v.toNat ++ rest) = .ok (v, (littleEndian 4 v.toNat).length) :=
  fixed_write_append v.toNat_lt UInt32.ofNat_toNat rest

theorem fixed64_write_append (v : UInt64) (rest : Bytes) :
    Reader.fixed64 (littleEndian 8 v.toNat ++ rest) = .ok (v, (littleEndian 8 v.toNat).length) :=
  fixed_write_append v.toNat_lt UInt64.ofNat_toNat rest

/-- The low half of a number that was written with its sign in 64 bits. -/
theorem int32_write_append (v : Int32) (rest : Bytes) :
    Reader.int32 (Varint.encode v.toInt64.toUInt64 ++ rest) =
      .ok (v, (Varint.encode v.toInt64.toUInt64).length) := by
  refine Reader.map_eq_ok_iff.2 ⟨_, Reader.uint32_append (Varint.isVarint_encode _) rest, ?_⟩
  rw [Varint.value_encode]
  apply Int32.toBitVec_inj.1
  -- the sign only fills bits that are cut off again
  show BitVec.setWidth 32 (BitVec.signExtend 64 v.toBitVec) = v.toBitVec
  ext i hi
  have hwide : i < 64 := Nat.lt_trans hi (by decide)
  simp [BitVec.getElem_signExtend, hi, hwide]

theorem sint32_write_append (v : Int32) (rest : Bytes) :
    Reader.sint32 (Varint.encode (ZigZag.encode32 v).toUInt64 ++ rest) =
      .ok (v, (Varint.encode (ZigZag.encode32 v).toUInt64).length) :=
  Reader.map_eq_ok_iff.2 ⟨_, uint32_write_append _ rest, ZigZag.decode32_encode32 v⟩

theorem sint64_write_append (v : Int64) (rest : Bytes) :
    Reader.sint64 (Varint.encode (ZigZag.encode64 v) ++ rest) =
      .ok (v, (Varint.encode (ZigZag.encode64 v)).length) :=
  Reader.map_eq_ok_iff.2 ⟨_, uint64_write_append _ rest, ZigZag.decode64_encode64 v⟩

theorem bool_write_append (v : Bool) (rest : Bytes) :
    Reader.bool (Varint.encode v.toUInt64 ++ rest) =
      .ok (v, (Varint.encode v.toUInt64).length) :=
  Reader.map_eq_ok_iff.2 ⟨_, uint64_write_append _ rest, by cases v <;> rfl⟩

theorem text_write_append {s : String} (h : (Utf8.encode s).length < 2 ^ 32) (rest : Bytes) :
    Reader.text (lengthPrefixed (Utf8.encode s) ++ rest) =
      .ok (s, (lengthPrefixed (Utf8.encode s)).length) :=
  Reader.text_eq_ok_iff.2
    ⟨_, Reader.lengthDelimited_lengthPrefixed_append h rest, Utf8.decode_eq_ok_iff.2 rfl⟩

/-- A value is taken off the front of any bytes as it was written. -/
theorem reader_write_append (value : Scalar) (hbodies : ∀ body ∈ value.bodies, body.length < 2 ^ 32)
    (rest : Bytes) :
    value.kind.reader (value.write ++ rest) = .ok (value, value.write.length) := by
  cases value with
  | int32 v => exact Reader.map_ok int32 (int32_write_append v rest)
  | uint32 v => exact Reader.map_ok uint32 (uint32_write_append v rest)
  | sint32 v => exact Reader.map_ok sint32 (sint32_write_append v rest)
  | uint64 v => exact Reader.map_ok uint64 (uint64_write_append v rest)
  | sint64 v => exact Reader.map_ok sint64 (sint64_write_append v rest)
  | bool v => exact Reader.map_ok bool (bool_write_append v rest)
  | fixed32 v => exact Reader.map_ok fixed32 (fixed32_write_append v rest)
  -- signed words are the bits of unsigned ones
  | sfixed32 v =>
    exact Reader.map_ok (fun bits => sfixed32 bits.toInt32) (fixed32_write_append v.toUInt32 rest)
  | float bits => exact Reader.map_ok float (fixed32_write_append bits rest)
  | fixed64 v => exact Reader.map_ok fixed64 (fixed64_write_append v rest)
  | sfixed64 v =>
    exact Reader.map_ok (fun bits => sfixed64 bits.toInt64) (fixed64_write_append v.toUInt64 rest)
  | double bits => exact Reader.map_ok double (fixed64_write_append bits rest)
  | string s =>
    have hbody : (Utf8.encode s).length < 2 ^ 32 := hbodies _ (List.mem_singleton.2 rfl)
    exact Reader.map_ok string (text_write_append hbody rest)
  | bytes b =>
    have hbody : b.length < 2 ^ 32 := hbodies _ (List.mem_singleton.2 rfl)
    exact Reader.map_ok bytes (Reader.lengthDelimited_lengthPrefixed_append hbody rest)

theorem write_length_pos (value : Scalar) : 0 < value.write.length := by
  cases value with
  | string s => exact lengthPrefixed_length_pos _
  | bytes b => exact lengthPrefixed_length_pos _
  | fixed32 v | sfixed32 v | float v | fixed64 v | sfixed64 v | double v => simp [write]
  | _ => exact (Varint.isVarint_encode _).length_pos

end Scalar

end WireFormat
