import WireFormat.Schema.Visitor
import WireFormat.Writer

/-!
# Writing messages by their schema

A message is written slot by slot in the order of the entries: single values each behind its tag,
or all of them as one packed run where the entry says so; sub-messages each behind its tag and its
length. Scripts write nothing, and an entry for all field numbers writes the number zero.
-/

namespace WireFormat

namespace Schema

/-- A value behind its tag. -/
def writeValue (number : UInt32) (kind : Kind) (value : Scalar) : Bytes :=
  (Tag.of number kind.wireType).write ++ value.write

mutual

/-- The bytes of a message of a schema. -/
def encode (schema : Schema) : Message → Bytes
  | ⟨slots, _⟩ => encodeSlots schema schema.entries slots

/-- The bytes of some slots of the schema `self`, with their entries. -/
def encodeSlots (self : Schema) : List (Entry Schema) → List (Slot Message) → Bytes
  | entry :: entries, slot :: slots =>
    encodeSlot self entry slot ++ encodeSlots self entries slots
  | _, _ => []

/-- The bytes of one slot of the schema `self`, with its entry. -/
def encodeSlot (self : Schema) : Entry Schema → Slot Message → Bytes
  | .scalar number kind packed, .scalars values =>
    if packed then packedField (number.getD 0) values
    else values.flatMap (writeValue (number.getD 0) kind)
  | .message number _ sub, .messages values =>
    encodeMessages (sub.getD self) (number.getD 0) values
  | _, _ => []

/-- The bytes of some sub-messages of a schema under a field number. -/
def encodeMessages (schema : Schema) (number : UInt32) : List Message → Bytes
  | [] => []
  | message :: rest =>
    (Tag.of number .lengthDelimited).write ++ lengthPrefixed (encode schema message) ++
      encodeMessages schema number rest

end

/-- The messages of a schema, which a decoder reads. -/
def messageType (decoder : Decoder) (schema : Schema) : MessageType Target :=
  { schema.readableType (schema.visitor decoder) with
    encode? := some fun target => schema.encode target.message }

end Schema

end WireFormat
