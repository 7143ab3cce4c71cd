/-!
# Wire types and tags

Every field of a message starts with a tag: the field's number, and in its three low bits the wire
type, which says how the value that follows is laid out. Tags are 32-bit words; a field number
loses what does not fit in the upper 29 bits.
-/

namespace WireFormat

/-- How a value is laid out. -/
inductive WireType where
  /-- A varint. -/
  | varint
  /-- Eight bytes. -/
  | fixed64
  /-- A varint length and that many bytes. -/
  | lengthDelimited
  /-- The fields up to the end tag of the same number. -/
  | groupStart
  /-- The end of a group. -/
  | groupEnd
  /-- Four bytes. -/
  | fixed32
  /-- Bits that name no layout. -/
  | invalid (bits : UInt8)
  deriving DecidableEq, Repr

/-- The wire type that some bits name. -/
def WireType.ofBits (bits : UInt8) : WireType :=
  match bits with
  | 0 => .varint
  | 1 => .fixed64
  | 2 => .lengthDelimited
  | 3 => .groupStart
  | 4 => .groupEnd
  | 5 => .fixed32
  | other => .invalid other

/-- The bits that name a wire type. -/
def WireType.bits : WireType → UInt8
  | .varint => 0
  | .fixed64 => 1
  | .lengthDelimited => 2
  | .groupStart => 3
  | .groupEnd => 4
  | .fixed32 => 5
  | .invalid bits => bits

/-- The name of a wire type. -/
def WireType.name : WireType → String
  | .varint => "Varint"
  | .fixed64 => "Fixed64"
  | .lengthDelimited => "LengthDelimited"
  | .groupStart => "GroupStart"
  | .groupEnd => "GroupEnd"
  | .fixed32 => "Fixed32"
  | .invalid bits => s!"Invalid({bits.toNat})"

/-- The bits of the wire type that some bits name are those bits. -/
@[simp] theorem WireType.bits_ofBits (bits : UInt8) : (WireType.ofBits bits).bits = bits := by
  unfold WireType.ofBits
  split <;> rfl

/-- The word in front of a value. -/
structure Tag where
  /-- The field number shifted left by three, and the wire type. -/
  raw : UInt32
  deriving DecidableEq, Repr

namespace Tag

/-- The tag of a field number and wire type bits; of the bits, the low three count. -/
def ofField (field : UInt32) (wireBits : UInt8) : Tag :=
  ⟨(field <<< 3) ||| (wireBits.toUInt32 &&& 7)⟩

/-- The tag of a field number and a wire type. -/
def of (field : UInt32) (wire : WireType) : Tag := ofField field wire.bits

/-- The field number. -/
def field (tag : Tag) : UInt32 := tag.raw >>> 3

/-- The three bits of the wire type. -/
def wireBits (tag : Tag) : UInt8 := (tag.raw &&& 7).toUInt8

/-- The layout of the value that follows. -/
def wireType (tag : Tag) : WireType := WireType.ofBits tag.wireBits

/-- The field number and the name of the wire type. -/
def text (tag : Tag) : String := s!"{tag.field.toNat}:{tag.wireType.name}"

@[simp] theorem bits_wireType (tag : Tag) : tag.wireType.bits = tag.wireBits := by
  simp [wireType]

end Tag

end WireFormat
