import WireFormat.Fields
import WireFormat.Json
import WireFormat.Text.Base64
import WireFormat.Text.Escaped

/-!
# Inspecting a payload without a schema

An inspector shows the fields of a message as a JSON object named by their numbers. Varints and
fixed widths are shown as numbers, and groups are left out. What a length-delimited value is, is
not written anywhere: bytes that read as a message are shown as one, and all others as text in the
form the inspector is set to.

Bytes are not taken for a message if they are printable text, if reading them shows no field, or if
they are text and show a field with a reserved number. `guess` recurses on the number of message
levels that may still be guessed below, which starts at the decoder's `maxMessageDepth`.
-/

namespace WireFormat

/-- How bytes that are not a message are shown. -/
inductive BytesForm where
  /-- As they are if they are UTF-8, and in base64 if not. -/
  | auto
  /-- In base64. -/
  | base64
  /-- As an array of numbers. -/
  | array
  /-- As escaped text. -/
  | escaped
  /-- As text with replacement characters. -/
  | lossy
  deriving DecidableEq, Repr

/-- How payloads are shown. -/
structure Inspector where
  /-- The form of bytes. -/
  form : BytesForm := .auto
  /-- The bounds under which messages are read. -/
  decoder : Decoder := {}
  deriving DecidableEq, Repr

/-- The fields of a message as they are shown, in the order in which they come. -/
abbrev Shown := List (UInt32 × Json)

/-- Whether a field number is set aside and appears in no proper message. -/
def isReserved (field : UInt32) : Bool := 19000 ≤ field && field < 20000

/-- Whether a character is a control character: one of the two blocks of them, or the one between.
-/
def isControl (c : Char) : Bool := c.toNat < 0x20 || (0x7f ≤ c.toNat && c.toNat < 0xa0)

/-- Whether some bytes are UTF-8. -/
def isText (bytes : Bytes) : Bool :=
  match Utf8.decode bytes with
  | .ok _ => true
  | .error _ => false

/-- Whether some bytes are UTF-8 without control characters. -/
def isPrintable (bytes : Bytes) : Bool :=
  match Utf8.decode bytes with
  | .ok text => text.toList.all fun c => !isControl c
  | .error _ => false

namespace Inspector

/-- Bytes in the form they are shown in. -/
def plain (inspector : Inspector) (bytes : Bytes) : Json :=
  match inspector.form with
  | .auto =>
    match Utf8.decode bytes with
    | .ok text => .text text
    | .error _ => .text (Text.Base64.encode bytes)
  | .base64 => .text (Text.Base64.encode bytes)
  | .array => .array (bytes.map fun b => .number b.toNat)
  | .escaped => .text (Text.Escaped.encode bytes)
  | .lossy => .text (Utf8.lossy bytes)

/-- Reads the value behind a tag as it is shown, if it is shown. -/
def value? (inspector : Inspector) (guess : Bytes → Option Json) (tag : Tag) :
    Option (Reader Json) :=
  match tag.wireType with
  | .varint => some (Reader.uint64.map fun v => .number v.toNat)
  | .fixed64 => some (Reader.fixed64.map fun v => .number v.toNat)
  | .fixed32 => some (Reader.fixed32.map fun v => .number v.toNat)
  | .lengthDelimited =>
    some (Reader.lengthDelimited.map fun bytes => (guess bytes).getD (inspector.plain bytes))
  | .groupStart | .groupEnd | .invalid _ => none

/-- Collects the fields of a message, where `guess` shows bytes that it takes for a message. -/
def collect (inspector : Inspector) (guess : Bytes → Option Json) : Visitor Shown := fun tag =>
  match inspector.value? guess tag with
  | none => return .unrecognized
  | some reader => do
    let value ← Decode.onCursor (Cursor.read reader)
    Decode.onState fun shown => shown ++ [(tag.field, value)]
    return .handled

/-- The fields of a message in some bytes, where `guess` shows bytes that it takes for a message. -/
def fields (inspector : Inspector) (guess : Bytes → Option Json) (data : Bytes) :
    Except DecodeError Shown :=
  match inspector.decoder.decodeBytes (inspector.collect guess) data [] with
  | .ok () shown => .ok shown
  | .error e _ => .error e

/-- Shows bytes as a message if they are taken for one, with as many levels of messages as given,
their own included. -/
def guess (inspector : Inspector) : Nat → Bytes → Option Json
  | 0, _ => none
  | levels + 1, bytes =>
    if bytes.isEmpty || isPrintable bytes then none
    else
      match inspector.fields (guess inspector levels) bytes with
      | .error _ => none
      | .ok shown =>
        if shown.isEmpty || (isText bytes && shown.any fun field => isReserved field.1) then none
        else some (Json.gather shown)

/-- Shows a payload. The payload itself is not guessed to be a message: it has to be one. -/
def inspect (inspector : Inspector) (data : Bytes) : Except DecodeError Json :=
  match inspector.fields (inspector.guess inspector.decoder.maxMessageDepth) data with
  | .ok shown => .ok (Json.gather shown)
  | .error e => .error e

end Inspector

end WireFormat
