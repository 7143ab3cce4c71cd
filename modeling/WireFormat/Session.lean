import WireFormat.MessageType
import WireFormat.Script

/-!
# Sessions

A session is a cursor with the limits it had before they were narrowed, a message of some type, and
commands that work on them one after another. A command that fails leaves the session where it
failed, and the next one goes on from there.
-/

namespace WireFormat

/-- A command. -/
inductive Command where
  /-- A step on the cursor. -/
  | step (step : Step)
  /-- Moves the cursor past the value behind a tag. -/
  | skip (tag : Tag)
  /-- Reads fields from the cursor into the message. -/
  | decode (delimited : Bool)
  /-- Reads a length-delimited message from the cursor into the message. -/
  | merge
  /-- Reads the fields of other bytes into the message. -/
  | decodeBytes (data : Bytes)
  /-- Resets the message and reads it from other bytes. -/
  | load (data : Bytes)
  /-- Resets the message and reads it from other bytes under the default bounds. -/
  | loadDefault (data : Bytes)
  /-- Resets the message. -/
  | reset
  /-- Asks for the bytes of the message. -/
  | encode
  /-- Asks whether the message has its required fields. -/
  | isComplete
  /-- Asks whether messages of the type can be read. -/
  | isReadable
  deriving DecidableEq, Repr

/-- What a session works on. -/
structure Session (σ : Type) where
  /-- Where reading goes on. -/
  cursor : Cursor
  /-- The limits that were narrowed and can be restored, newest first. -/
  saved : List Nat
  /-- The message. -/
  message : σ

namespace Session

variable {σ : Type}

/-- A session that begins with a cursor and a message. -/
def start (cursor : Cursor) (message : σ) : Session σ := ⟨cursor, [], message⟩

/-- Works on the cursor alone. -/
def onCursor {α : Type} (reading : Reading α) : EStateM DecodeError (Session σ) α := fun session =>
  match reading session.cursor with
  | .ok a cursor => .ok a { session with cursor }
  | .error e cursor => .error e { session with cursor }

/-- Works on the message alone. -/
def onMessage {α : Type} (body : EStateM DecodeError σ α) : EStateM DecodeError (Session σ) α :=
  fun session =>
    match body session.message with
    | .ok a message => .ok a { session with message }
    | .error e message => .error e { session with message }

/-- Works on the message and the cursor. -/
def onBoth {α : Type} (body : Decode σ α) : EStateM DecodeError (Session σ) α := fun session =>
  match body ⟨session.message, session.cursor⟩ with
  | .ok a run => .ok a { session with cursor := run.cursor, message := run.state }
  | .error e run => .error e { session with cursor := run.cursor, message := run.state }

/-- Takes a step on the cursor. -/
def takeStep (step : Step) : EStateM DecodeError (Session σ) Answer := do
  let (answer, saved) ← onCursor (step.run (← get).saved)
  modify fun session => { session with saved }
  return answer

/-- The visitor of a message type. -/
def visitorOf (type : MessageType σ) : EStateM DecodeError (Session σ) (Visitor σ) :=
  match type.visitor? with
  | some visitor => pure visitor
  | none => throw (.unsupported .decoding)

/-- Carries out a command. -/
def perform (decoder : Decoder) (type : MessageType σ) :
    Command → EStateM DecodeError (Session σ) Answer
  | .step step => takeStep step
  | .skip tag => do
    onCursor (decoder.skip tag)
    return .nothing
  | .decode delimited => do
    onBoth (decoder.decode (← visitorOf type) delimited)
    return .nothing
  | .merge => do
    onBoth (decoder.merge type)
    return .nothing
  | .decodeBytes data => do
    onMessage (decoder.decodeBytes (← visitorOf type) data)
    return .nothing
  | .load data => do
    onMessage (decoder.load type data)
    return .nothing
  | .loadDefault data => do
    onMessage (type.loadDefault data)
    return .nothing
  | .reset => do
    onMessage (modify type.reset)
    return .nothing
  | .encode => do
    match type.encode (← get).message with
    | .ok bytes => return .scalar (.bytes bytes)
    | .error e => throw e
  | .isComplete => return .flag (type.isComplete (← get).message)
  | .isReadable => return .flag type.visitor?.isSome

end Session

end WireFormat
