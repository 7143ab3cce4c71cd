/-!
# Errors of reading

A read that cannot be done ends with one of ten causes, each with the numbers that locate it in
the bytes. `DecodeError.message` is the only place where a cause is put into words.
-/

namespace WireFormat

/-- Something that was asked for and is not done. -/
inductive Operation where
  /-- Reading into a message type that has no visitor. -/
  | decoding
  /-- Writing a message type that cannot be written. -/
  | encoding
  /-- A visitor answered an element of a packed run with another packed run. -/
  | nestedPacked
  /-- A visitor took an element of a packed run and moved by no byte. -/
  | emptyPackedElement
  /-- A visitor has set the cursor back so often that a loop was given up. -/
  | endlessRewinding
  deriving DecidableEq, Repr

/-- The words for an operation. -/
def Operation.text : Operation → String
  | .decoding => "decoding"
  | .encoding => "encoding"
  | .nestedPacked => "packed field nested in a packed field"
  | .emptyPackedElement => "packed element that consumes no bytes"
  | .endlessRewinding => "visitor that rewinds the cursor without end"

/-- Why a read failed. Offsets and limits count bytes from the start of the region. -/
inductive DecodeError where
  /-- More bytes were needed than lie before the limit. -/
  | truncated (offset needed limit : Nat)
  /-- A range consumed another number of bytes than its length prefix declared. -/
  | malformedLength (start declared actual : Nat)
  /-- A value with these wire type bits cannot be skipped. -/
  | unknownWireType (wireBits : UInt8) (offset : Nat)
  /-- The text that starts at the offset is no UTF-8 after so many bytes. -/
  | invalidEncoding (offset validUpTo : Nat)
  /-- The message type does not do this. -/
  | unsupported (operation : Operation)
  /-- A varint ends only after more than ten bytes. -/
  | varintTooLong (offset : Nat)
  /-- A group was closed by the end tag of another field number. -/
  | unbalancedGroup (expected found : UInt32) (offset : Nat)
  /-- Groups are nested deeper than allowed. -/
  | recursionLimitExceeded (limit : Nat)
  /-- A message is longer than allowed. -/
  | messageTooLarge (length max : Nat)
  /-- The message was read, but a required field is not there. -/
  | missingRequiredFields
  deriving DecidableEq, Repr

namespace DecodeError

/-- The message shown for an error. -/
def message : DecodeError → String
  | truncated offset needed limit =>
    s!"truncated input at offset {offset}: needed {needed} byte(s), limit is {limit}"
  | malformedLength start declared actual =>
    s!"malformed length for range starting at offset {start}: declared {declared} byte(s), " ++
      s!"consumed {actual}"
  | unknownWireType wireBits offset =>
    s!"unknown wire type {wireBits} at offset {offset}"
  | invalidEncoding offset validUpTo =>
    s!"invalid UTF-8 in string at offset {offset} (valid up to byte {validUpTo})"
  | unsupported operation =>
    s!"{operation.text} is not supported by this message type"
  | varintTooLong offset =>
    s!"varint at offset {offset} exceeds 10 bytes"
  | unbalancedGroup expected found offset =>
    s!"group for field {expected} closed by end tag for field {found} at offset {offset}"
  | recursionLimitExceeded limit =>
    s!"group nesting exceeds the limit of {limit}"
  | messageTooLarge length max =>
    s!"message of {length} bytes exceeds the maximum of {max}"
  | missingRequiredFields =>
    "message is missing required fields"

/-- The same error for bytes that lie `distance` further on: offsets, starts and limits of the
region move along, counts and configured limits stay. -/
def shift (distance : Nat) : DecodeError → DecodeError
  | truncated offset needed limit => truncated (offset + distance) needed (limit + distance)
  | malformedLength start declared actual => malformedLength (start + distance) declared actual
  | unknownWireType wireBits offset => unknownWireType wireBits (offset + distance)
  | invalidEncoding offset validUpTo => invalidEncoding (offset + distance) validUpTo
  | varintTooLong offset => varintTooLong (offset + distance)
  | unbalancedGroup expected found offset => unbalancedGroup expected found (offset + distance)
  | other => other

@[simp] theorem shift_zero (e : DecodeError) : e.shift 0 = e := by
  cases e <;> rfl

@[simp] theorem shift_shift (first second : Nat) (e : DecodeError) :
    (e.shift first).shift second = e.shift (first + second) := by
  cases e <;> simp only [shift, Nat.add_assoc]

end DecodeError

end WireFormat
