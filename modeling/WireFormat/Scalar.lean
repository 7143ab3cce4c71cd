import WireFormat.Reader

/-!
# Scalar values

The fourteen kinds of a single value in a message. A kind determines how a value is laid out
(`Kind.wireType`) and read (`Kind.reader`); a value determines how it is written (`Scalar.write`).
Floating-point numbers are kept as the bits they travel as.
-/

namespace WireFormat

/-- What a field's single values are. -/
inductive Kind where
  | int32 | uint32 | sint32 | uint64 | sint64 | bool
  | fixed32 | sfixed32 | float | fixed64 | sfixed64 | double
  | string | bytes
  deriving DecidableEq, Repr

/-- A single value. -/
inductive Scalar where
  /-- A signed number as a varint, in two's complement of 64 bits. -/
  | int32 (value : Int32)
  /-- A number as a varint. -/
  | uint32 (value : UInt32)
  /-- A signed number as a varint, in zig-zag order. -/
  | sint32 (value : Int32)
  /-- A number as a varint. -/
  | uint64 (value : UInt64)
  /-- A signed number as a varint, in zig-zag order. -/
  | sint64 (value : Int64)
  /-- A truth value as a varint. -/
  | bool (value : Bool)
  /-- A number in four bytes. -/
  | fixed32 (value : UInt32)
  /-- A signed number in four bytes. -/
  | sfixed32 (value : Int32)
  /-- The bits of a single-precision number, in four bytes. -/
  | float (bits : UInt32)
  /-- A number in eight bytes. -/
  | fixed64 (value : UInt64)
  /-- A signed number in eight bytes. -/
  | sfixed64 (value : Int64)
  /-- The bits of a double-precision number, in eight bytes. -/
  | double (bits : UInt64)
  /-- A text behind its length. -/
  | string (value : String)
  /-- Bytes behind their number. -/
  | bytes (value : Bytes)
  deriving DecidableEq, Repr

namespace Kind

/-- The layout of a kind's values. -/
def wireType : Kind → WireType
  | int32 | uint32 | sint32 | uint64 | sint64 | bool => .varint
  | fixed32 | sfixed32 | float => .fixed32
  | fixed64 | sfixed64 | double => .fixed64
  | string | bytes => .lengthDelimited

/-- The reader of a kind's values. -/
def reader : Kind → Reader Scalar
  | int32 => Reader.int32.map .int32
  | uint32 => Reader.uint32.map .uint32
  | sint32 => Reader.sint32.map .sint32
  | uint64 => Reader.uint64.map .uint64
  | sint64 => Reader.sint64.map .sint64
  | bool => Reader.bool.map .bool
  | fixed32 => Reader.fixed32.map .fixed32
  | sfixed32 => Reader.fixed32.map fun v => .sfixed32 v.toInt32
  | float => Reader.fixed32.map .float
  | fixed64 => Reader.fixed64.map .fixed64
  | sfixed64 => Reader.fixed64.map fun v => .sfixed64 v.toInt64
  | double => Reader.fixed64.map .double
  | string => Reader.text.map .string
  | bytes => Reader.lengthDelimited.map .bytes

end Kind

/-- A number of bytes as a varint, and the bytes. -/
def lengthPrefixed (bytes : Bytes) : Bytes :=
  Varint.encode (UInt64.ofNat bytes.length) ++ bytes

/-- A tag as a varint. -/
def Tag.write (tag : Tag) : Bytes := Varint.encode tag.raw.toUInt64

namespace Scalar

/-- The kind of a value. -/
def kind : Scalar → Kind
  | int32 _ => .int32
  | uint32 _ => .uint32
  | sint32 _ => .sint32
  | uint64 _ => .uint64
  | sint64 _ => .sint64
  | bool _ => .bool
  | fixed32 _ => .fixed32
  | sfixed32 _ => .sfixed32
  | float _ => .float
  | fixed64 _ => .fixed64
  | sfixed64 _ => .sfixed64
  | double _ => .double
  | string _ => .string
  | bytes _ => .bytes

/-- The bytes of a value. -/
def write : Scalar → Bytes
  | int32 v => Varint.encode v.toInt64.toUInt64
  | uint32 v => Varint.encode v.toUInt64
  | sint32 v => Varint.encode (ZigZag.encode32 v).toUInt64
  | uint64 v => Varint.encode v
  | sint64 v => Varint.encode (ZigZag.encode64 v)
  | bool v => Varint.encode v.toUInt64
  | fixed32 v => littleEndian 4 v.toNat
  | sfixed32 v => littleEndian 4 v.toUInt32.toNat
  | float bits => littleEndian 4 bits.toNat
  | fixed64 v => littleEndian 8 v.toNat
  | sfixed64 v => littleEndian 8 v.toUInt64.toNat
  | double bits => littleEndian 8 bits.toNat
  | string s => lengthPrefixed (Utf8.encode s)
  | bytes b => lengthPrefixed b

end Scalar

end WireFormat
