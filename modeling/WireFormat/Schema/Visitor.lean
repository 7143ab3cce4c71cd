import WireFormat.MessageType
import WireFormat.Schema

/-!
# Reading messages by their schema

The visitor of a schema reads a field as the entry that takes it says. Sub-messages are read by the
same decoder, with a visitor for their schema; `visitAt` has the number of levels that may lie
below as a number of its own, and `Schema.visitor` sets it to `Schema.levels`.

The levels run out only where a script keeps setting the cursor back. A reading goes by its place
and its schema alone, except that a missing required field ends it. So levels on which a place and a
schema come again are the start of an endless descent, unless such a failure cuts it short. It comes
soon or never. The messages that were there before may put it off by as many levels as they are
deep. Behind them, a stretch of as many levels as there are pairs of a place and a schema has room
for the way into the cycle, another for what finished readings have left further down, a third for
one turn of the cycle, and a fourth for the levels of a reading beside the descent, which is the one
that fails.

Every visit is recorded with its depth, tag and position, in the order of the visits across all
levels.
-/

namespace WireFormat

/-- A call of a visitor: how many messages enclose the field's message, the field's tag, and the
position of its value. -/
structure Visit where
  /-- The number of messages around the message. -/
  depth : Nat
  /-- The tag of the field. -/
  tag : Tag
  /-- The position behind the tag. -/
  position : Nat
  deriving DecidableEq, Repr

/-- A visit in writing. -/
def Visit.text (visit : Visit) : String := s!"{visit.depth} {visit.tag.text}@{visit.position}"

/-- A message that is being filled, and the visits so far. -/
structure Target where
  /-- The message as far as it is read. -/
  message : Message
  /-- The visits in their order. -/
  visits : List Visit

namespace Target

/-- Records a visit. -/
def record (visit : Visit) (target : Target) : Target :=
  { target with visits := target.visits ++ [visit] }

/-- Changes the message. -/
def modifyMessage (change : Message → Message) (target : Target) : Target :=
  { target with message := change target.message }

/-- The visits so far, and the target without them. -/
def takeVisits (target : Target) : List Visit × Target :=
  (target.visits, { target with visits := [] })

/-- The sub-message of a slot that the next field goes to, with the visits so far. -/
def subTarget (index : Nat) (repeated : Bool) (blank : Message) (target : Target) : Target :=
  { target with message := (target.message.slot index).current repeated blank }

/-- The target with a sub-message put back that `subTarget` gave, and the visits it made. -/
def storeSub (index : Nat) (repeated : Bool) (sub : Target) (target : Target) : Target :=
  ⟨target.message.modifySlot index (Slot.store repeated sub.message), sub.visits⟩

end Target

namespace Schema

/-- Runs a script and adds its answers to a slot. -/
def runScript (index : Nat) : List Step → List Nat → Decode Target Unit
  | [], _ => pure ()
  | step :: rest, saved => do
    let (answer, saved) ← Decode.onCursor (step.run saved)
    Decode.onState (.modifyMessage (.modifySlot index (.addAnswer answer)))
    runScript index rest saved

/-- The messages of a schema as a type that a visitor reads. -/
def readableType (schema : Schema) (visitor : Visitor Target) : MessageType Target where
  reset := fun _ => ⟨schema.blank, []⟩
  isComplete := fun target => schema.isComplete target.message
  visitor? := some visitor

/-- Reads one field of a message that lies `depth` messages deep, with as many levels of messages
below it as given. -/
def visitAt (decoder : Decoder) : Nat → Nat → Schema → Visitor Target
  | 0, _, _ => fun _ => throw (.unsupported .endlessRewinding)
  | levels + 1, depth, schema => fun tag => do
    let start ← Decode.cursor
    Decode.onState (.record ⟨depth, tag, start.position⟩)
    match schema.take? tag with
    | none => return .unrecognized
    | some (index, .value kind) =>
      let value ← Decode.onCursor (Cursor.read kind.reader)
      Decode.onState (.modifyMessage (.modifySlot index (.addScalar value)))
      Decode.onState (.modifyMessage (.noteField tag.field))
      return .handled
    | some (_, .packed kind) => return .packed (Tag.of tag.field kind.wireType)
    | some (index, .message repeated sub) =>
      let visitor := visitAt decoder levels (depth + 1) sub
      Decode.onPart (.subTarget index repeated sub.blank) (.storeSub index repeated)
        (if repeated then decoder.decode visitor true
          else decoder.merge (sub.readableType visitor))
      Decode.onState (.modifyMessage (.noteField tag.field))
      return .handled
    | some (index, .script steps reply) =>
      runScript index steps []
      if reply = .handled then
        Decode.onState (.modifyMessage (.noteField tag.field))
      return reply

/-- The number of levels that a reading may go through. One that needs more never ends. -/
def levels (schema : Schema) (run : Run Target) : Nat :=
  run.state.message.depth + 4 * (run.cursor.places * schema.size)

/-- Reads one field of a message of the schema. -/
def visitor (decoder : Decoder) (schema : Schema) : Visitor Target := fun tag run =>
  schema.visitAt decoder (schema.levels run) 0 tag run

end Schema

end WireFormat
