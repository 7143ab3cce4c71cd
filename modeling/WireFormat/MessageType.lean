import WireFormat.Fields

/-!
# Message types

A message type says how its values are reset, and may say how they are read, written and checked
for required fields. Reading and writing are capabilities: a type without them is a message type
all the same, and asking for what it lacks is an error.
-/

namespace WireFormat

/-- What can be done with the messages of a type. -/
structure MessageType (σ : Type) where
  /-- The message with every field at its default. -/
  reset : σ → σ
  /-- Whether every required field is there. -/
  isComplete : σ → Bool := fun _ => true
  /-- The visitor that reads the fields, if messages of this type can be read. -/
  visitor? : Option (Visitor σ) := none
  /-- The bytes of a message, if messages of this type can be written. -/
  encode? : Option (σ → Bytes) := none

namespace MessageType

/-- A message type that can be reset, which does nothing, and has no capability. -/
def bare (σ : Type) : MessageType σ := { reset := id }

/-- The bytes of a message. -/
def encode {σ : Type} (type : MessageType σ) (message : σ) : Except DecodeError Bytes :=
  match type.encode? with
  | some encode => .ok (encode message)
  | none => .error (.unsupported .encoding)

end MessageType

namespace Decoder

variable {σ : Type}

/-- Resets a message, reads it from a byte string, and requires its required fields. -/
def load (decoder : Decoder) (type : MessageType σ) (data : Bytes) :
    EStateM DecodeError σ Unit := do
  modify type.reset
  match type.visitor? with
  | none => throw (.unsupported .decoding)
  | some visitor =>
    decoder.decodeBytes visitor data
    unless type.isComplete (← get) do throw .missingRequiredFields

/-- Reads a length-delimited message into a message, which keeps what it has, and then requires
its required fields. -/
def merge (decoder : Decoder) (type : MessageType σ) : Decode σ Unit := do
  match type.visitor? with
  | none => throw (.unsupported .decoding)
  | some visitor =>
    decoder.decode visitor true
    let run ← get
    unless type.isComplete run.state do throw .missingRequiredFields

end Decoder

/-- Resets a message and reads it from a byte string under the default bounds. -/
def MessageType.loadDefault {σ : Type} (type : MessageType σ) (data : Bytes) :
    EStateM DecodeError σ Unit :=
  Decoder.load {} type data

end WireFormat
