import WireFormat.Cursor
import WireFormat.Scalar

/-!
# Scripts

A script is a list of steps on a cursor: reads, moves, limits and questions, each with an answer.
Besides the cursor, a script keeps the limits it has narrowed, newest first, and restoring takes the
newest. A jump starts over with a new cursor on the same region, so it forgets them.
-/

namespace WireFormat

/-- One step of a script. -/
inductive Step where
  /-- Reads a value of some kind. -/
  | read (kind : Kind)
  /-- Reads a tag. -/
  | readTag
  /-- Passes over some bytes. -/
  | skip (count : Nat)
  /-- Narrows the limit to the next bytes and keeps the limit it had. -/
  | narrow (length : Nat)
  /-- Restores the newest limit that was kept. -/
  | restore
  /-- Asks for the number of bytes up to the limit. -/
  | remaining
  /-- Asks whether the limit is reached. -/
  | isExhausted
  /-- Asks for the number of bytes of the region. -/
  | regionLength
  /-- Starts over at an offset of the region. -/
  | jump (position : Nat)
  /-- Starts over some bytes further on. -/
  | jumpBy (distance : Nat)
  deriving DecidableEq, Repr

/-- What a step has to say. -/
inductive Answer where
  /-- It is done. -/
  | nothing
  /-- A count or an offset. -/
  | number (value : Nat)
  /-- Yes or no. -/
  | flag (value : Bool)
  /-- A tag that was read. -/
  | tag (value : Tag)
  /-- A value that was read. -/
  | scalar (value : Scalar)
  deriving DecidableEq, Repr

/-- Takes one step. The limits kept so far go in and come out. -/
def Step.run (step : Step) (saved : List Nat) : Reading (Answer × List Nat) :=
  match step with
  | .read kind => do
    let value ← Cursor.read kind.reader
    return (.scalar value, saved)
  | .readTag => do
    let tag ← Cursor.read Reader.tag
    return (.tag tag, saved)
  | .skip count => do
    Cursor.read (Reader.skip count)
    return (.nothing, saved)
  | .narrow length => do
    let old ← Cursor.narrow length
    return (.number old, old :: saved)
  | .restore =>
    match saved with
    | [] => return (.nothing, [])
    | old :: older => do
      modify (·.withLimit old)
      return (.number old, older)
  | .remaining => return (.number (← get).remaining, saved)
  | .isExhausted => return (.flag (← get).isExhausted, saved)
  | .regionLength => return (.number (← get).region.length, saved)
  | .jump position => do
    modify fun c => Cursor.atPosition c.region position
    return (.nothing, [])
  | .jumpBy distance => do
    modify fun c => Cursor.atPosition c.region (c.position + distance)
    return (.nothing, [])

end WireFormat
