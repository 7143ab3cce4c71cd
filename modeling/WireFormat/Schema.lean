import WireFormat.Fields
import WireFormat.Script

/-!
# Schemas and their messages

A schema lists what the fields of a message are: single values of a kind, which may also come as
packed runs, sub-messages with a schema of their own, and scripts, which read what they like. An
entry is for one field number or for all of them. A message has one slot for each entry, and notes
the numbers of the fields it has taken.

`Schema.take?` says which entry takes a tag, and what is to be done with the value.
-/

namespace WireFormat

/-- A line of a schema whose sub-messages have schemas of type `σ`. -/
inductive Entry (σ : Type) where
  /-- Single values of a kind; with `packed`, also packed runs of them. -/
  | scalar (number : Option UInt32) (kind : Kind) (packed : Bool)
  /-- Sub-messages, one that merges all that comes, or one for each time. Without a schema of its
  own, a sub-message has the schema that the entry is in. -/
  | message (number : Option UInt32) (repeated : Bool) (sub : Option σ)
  /-- A script for the fields with some wire type bits, and what it reports to the decoder. -/
  | script (number : Option UInt32) (wireBits : UInt8) (steps : List Step) (reply : Outcome)

/-- What the fields of a message are. -/
structure Schema where
  /-- The entries, the first that takes a field counts. -/
  entries : List (Entry Schema)
  /-- The numbers of the fields that a message has to have. -/
  required : List UInt32

/-- What a message holds for one entry of its schema, in the order in which it came. -/
inductive Slot (μ : Type) where
  /-- Single values. -/
  | scalars (values : List Scalar)
  /-- Sub-messages. -/
  | messages (values : List μ)
  /-- The answers of a script. -/
  | answers (values : List Answer)

/-- A message: a slot for each entry of its schema, and the numbers of the fields it has taken. -/
structure Message where
  /-- The slots, in the order of the entries. -/
  slots : List (Slot Message)
  /-- The numbers of the fields taken, the latest first. -/
  seen : List UInt32

/-! ## Taking fields -/

/-- What to do with the value of a field. -/
inductive Action where
  /-- Read a value of a kind. -/
  | value (kind : Kind)
  /-- Declare it a packed run of values of a kind. -/
  | packed (kind : Kind)
  /-- Read a sub-message. -/
  | message (repeated : Bool) (sub : Schema)
  /-- Run a script. -/
  | script (steps : List Step) (reply : Outcome)

namespace Entry

variable {σ : Type}

/-- The field number of an entry, if it is for one. -/
def number : Entry σ → Option UInt32
  | scalar number .. => number
  | message number .. => number
  | script number .. => number

/-- Whether an entry is for a field number. -/
def fits (entry : Entry σ) (field : UInt32) : Bool :=
  match entry.number with
  | none => true
  | some number => number == field

/-- What an entry of the schema `self` does with a tag whose field number it is for. -/
def actionFor? (self : Schema) (tag : Tag) : Entry Schema → Option Action
  | scalar _ kind packed =>
    if tag.wireType = kind.wireType then some (.value kind)
    else if packed && tag.wireType = .lengthDelimited then some (.packed kind)
    else none
  | message _ repeated sub =>
    if tag.wireType = .lengthDelimited then some (.message repeated (sub.getD self)) else none
  | script _ wireBits steps reply =>
    if tag.wireBits = wireBits then some (.script steps reply) else none

/-- What an entry of the schema `self` does with a tag. -/
def action? (self : Schema) (tag : Tag) (entry : Entry Schema) : Option Action :=
  if entry.fits tag.field then entry.actionFor? self tag else none

/-- The slot of an entry before anything came. -/
def blank {μ : Type} : Entry σ → Slot μ
  | scalar .. => .scalars []
  | message .. => .messages []
  | script .. => .answers []

end Entry

namespace Schema

/-- The first entry that takes a tag, as its index and what it does. -/
def take? (schema : Schema) (tag : Tag) : Option (Nat × Action) :=
  (schema.entries.zipIdx).findSome? fun (entry, i) =>
    (entry.action? schema tag).map fun action => (i, action)

/-- The message before anything came. -/
def blank (schema : Schema) : Message := ⟨schema.entries.map Entry.blank, []⟩

/-- Whether a message has taken every required field. -/
def isComplete (schema : Schema) (message : Message) : Bool :=
  schema.required.all fun number => message.seen.contains number

end Schema

/-! ## Sizes -/

namespace Schema

mutual

/-- The number of schemas in a schema, itself included. -/
def size : Schema → Nat
  | ⟨entries, _⟩ => sizeEntries entries + 1

/-- The number of schemas in some entries. -/
def sizeEntries : List (Entry Schema) → Nat
  | [] => 0
  | entry :: rest => sizeEntry entry + sizeEntries rest

/-- The number of schemas in an entry. -/
def sizeEntry : Entry Schema → Nat
  | .message _ _ (some sub) => size sub
  | _ => 0

end

end Schema

namespace Message

mutual

/-- The number of messages inside each other, itself included. -/
def depth : Message → Nat
  | ⟨slots, _⟩ => depthSlots slots + 1

/-- The number of messages inside each other in some slots. -/
def depthSlots : List (Slot Message) → Nat
  | [] => 0
  | slot :: rest => max (depthSlot slot) (depthSlots rest)

/-- The number of messages inside each other in a slot. -/
def depthSlot : Slot Message → Nat
  | .messages values => depthMessages values
  | _ => 0

/-- The number of messages inside each other in some messages. -/
def depthMessages : List Message → Nat
  | [] => 0
  | message :: rest => max (depth message) (depthMessages rest)

end

end Message

/-! ## Filling slots -/

namespace Slot

variable {μ : Type}

/-- Adds a single value. -/
def addScalar (value : Scalar) : Slot μ → Slot μ
  | scalars values => scalars (values ++ [value])
  | other => other

/-- Adds an answer of a script. -/
def addAnswer (answer : Answer) : Slot μ → Slot μ
  | answers values => answers (values ++ [answer])
  | other => other

/-- The sub-message that the next sub-message field is read into: a blank one, or, unless each
field has its own, the one that is there. -/
def current (repeated : Bool) (blank : μ) : Slot μ → μ
  | messages values => if repeated then blank else values.getLast?.getD blank
  | _ => blank

/-- Puts the sub-message that `current` gave back, as a further one or in its place. -/
def store (repeated : Bool) (message : μ) : Slot μ → Slot μ
  | messages values => messages ((if repeated then values else values.dropLast) ++ [message])
  | other => other

end Slot

namespace Message

/-- The slot of an entry. -/
def slot (message : Message) (index : Nat) : Slot Message :=
  message.slots.getD index (.answers [])

/-- Changes the slot of an entry. -/
def modifySlot (index : Nat) (change : Slot Message → Slot Message) (message : Message) :
    Message :=
  { message with slots := message.slots.modify index change }

/-- Notes that a field was taken. -/
def noteField (number : UInt32) (message : Message) : Message :=
  { message with seen := number :: message.seen }

end Message

end WireFormat
