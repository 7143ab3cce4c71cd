import WireFormat.Scalar

/-!
# Writing

What can be written is an `Item`: a tag, a value, bytes as they are, the ends of a group, a
length-prefixed body of further items, or a packed run. `Item.write` gives the bytes of an item on
their own, whatever stands before it, and a `Writer` collects them.
-/

namespace WireFormat

/-- Values of one field as a packed run: a tag, a length, and the values back to back. -/
def packedField (field : UInt32) (values : List Scalar) : Bytes :=
  (Tag.of field .lengthDelimited).write ++ lengthPrefixed (values.flatMap Scalar.write)

/-- Something to write. -/
inductive Item where
  /-- A tag. -/
  | tag (field : UInt32) (wire : WireType)
  /-- A value. -/
  | scalar (value : Scalar)
  /-- Bytes as they are. -/
  | raw (bytes : Bytes)
  /-- The tag in front of a group. -/
  | groupStart (field : UInt32)
  /-- The tag behind a group. -/
  | groupEnd (field : UInt32)
  /-- Items behind their length. -/
  | nested (body : List Item)
  /-- A packed run. -/
  | packed (field : UInt32) (values : List Scalar)

mutual

/-- The bytes of an item. -/
def Item.write : Item → Bytes
  | .tag field wire => (Tag.of field wire).write
  | .scalar value => value.write
  | .raw bytes => bytes
  | .groupStart field => (Tag.of field .groupStart).write
  | .groupEnd field => (Tag.of field .groupEnd).write
  | .nested body => lengthPrefixed (Item.writeAll body)
  | .packed field values => packedField field values

/-- The bytes of some items one after another. -/
def Item.writeAll : List Item → Bytes
  | [] => []
  | item :: rest => item.write ++ Item.writeAll rest

end

/-- Bytes written so far. -/
structure Writer where
  /-- The bytes. -/
  bytes : Bytes := []
  deriving DecidableEq, Repr

namespace Writer

/-- Writes an item behind what is there. -/
def write (writer : Writer) (item : Item) : Writer := ⟨writer.bytes ++ item.write⟩

/-- The number of bytes written. -/
def length (writer : Writer) : Nat := writer.bytes.length

/-- Whether nothing was written. -/
def isEmpty (writer : Writer) : Bool := writer.bytes.isEmpty

end Writer

end WireFormat
