import WireFormat.Decode
import WireFormat.Skip

/-!
# The fields of a message

A message is a run of fields up to the limit of the cursor. A decoder reads the tag of each field
and offers it to a visitor, which knows the message type. The visitor reads the value itself,
leaves an unknown one to be skipped, or declares it a packed run: a length and that many bytes of
values back to back, each of which is offered to the visitor under the tag of an element.

`decode` reads the fields in front of the limit or behind a length prefix, `decodeBytes` those of
a byte string.
-/

namespace WireFormat

/-- What a visitor did with a field. -/
inductive Outcome where
  /-- It read the value. -/
  | handled
  /-- It does not know the tag, and read nothing. -/
  | unrecognized
  /-- The value is a packed run of elements with this tag, and it read nothing. -/
  | packed (element : Tag)
  deriving DecidableEq, Repr

/-- Reads the value behind a tag into a message. -/
abbrev Visitor (σ : Type) := Tag → Decode σ Outcome

namespace Decoder

variable {σ : Type}

/-- Refuses a message that is longer than allowed. -/
def checkLength (decoder : Decoder) (length : Nat) : Decode σ Unit :=
  match decoder.maxMessageLength with
  | none => pure ()
  | some max => if max < length then throw (.messageTooLarge length max) else pure ()

/-- Offers one element of a packed run to the visitor. It has to move the cursor. -/
def packedElement (decoder : Decoder) (visitor : Visitor σ) (element : Tag) : Decode σ Unit := do
  let before ← Decode.cursor
  match ← visitor element with
  | .handled => pure ()
  | .unrecognized => Decode.onCursor (decoder.skip element)
  | .packed _ => throw (.unsupported .nestedPacked)
  let after ← Decode.cursor
  if after.position = before.position then throw (.unsupported .emptyPackedElement)

/-- Reads a packed run: its length, and elements up to its end. -/
def packedRun (decoder : Decoder) (visitor : Visitor σ) (element : Tag) : Decode σ Unit := do
  let length ← Decode.onCursor (Cursor.read Reader.uint32)
  Decode.inRange length.toNat do
    let start ← Decode.cursor
    Decode.repeatWhile (fun c => !c.isExhausted) (decoder.packedElement visitor element)
      start.places

/-- Reads one field. -/
def field (decoder : Decoder) (visitor : Visitor σ) : Decode σ Unit := do
  let tag ← Decode.onCursor (Cursor.read Reader.tag)
  match ← visitor tag with
  | .handled => pure ()
  | .unrecognized => Decode.onCursor (decoder.skip tag)
  | .packed element => decoder.packedRun visitor element

/-- Reads fields until the position reaches the limit that the cursor has at the start. -/
def fields (decoder : Decoder) (visitor : Visitor σ) : Decode σ Unit := do
  let start ← Decode.cursor
  Decode.repeatWhile (fun c => c.position < start.limit) (decoder.field visitor) start.places

/-- Reads the fields up to the limit, or those in the bytes behind a length prefix. -/
def decode (decoder : Decoder) (visitor : Visitor σ) (delimited : Bool) : Decode σ Unit := do
  if delimited then
    let length ← Decode.onCursor (Cursor.read Reader.uint32)
    decoder.checkLength length.toNat
    Decode.inRange length.toNat (decoder.fields visitor)
  else
    let start ← Decode.cursor
    decoder.checkLength start.remaining
    decoder.fields visitor

/-- Reads the fields of a byte string. -/
def decodeBytes (decoder : Decoder) (visitor : Visitor σ) (data : Bytes) :
    EStateM DecodeError σ Unit := fun state =>
  match decoder.decode visitor false ⟨state, .ofBytes data⟩ with
  | .ok () run => .ok () run.state
  | .error e run => .error e run.state

end Decoder

end WireFormat
