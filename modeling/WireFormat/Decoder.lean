/-!
# Decoders

A decoder is nothing but the three bounds that it holds input to. What decoders do is spread over
`WireFormat.Skip` (unknown values), `WireFormat.Fields` (the fields of a message) and
`WireFormat.MessageType` (whole messages).
-/

namespace WireFormat

/-- The bounds under which messages are read. -/
structure Decoder where
  /-- How deeply groups that are skipped may nest. -/
  maxGroupDepth : Nat := 100
  /-- The longest message, in bytes, that is begun. Whole payloads and length-delimited messages
  are held to it; packed runs and the byte fields of a message are not. -/
  maxMessageLength : Option Nat := none
  /-- How many messages deep an inspection still takes bytes for a message. -/
  maxMessageDepth : Nat := 100
  deriving DecidableEq, Repr

end WireFormat
