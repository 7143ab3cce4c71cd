import WireFormat.Schema

/-!
# The shapes of schemas and messages

Two properties that later statements are about. A schema is free of scripts if no entry on any
level is one; such a schema reads what the format says and nothing else. A message fits a schema if
each slot holds what its entry is for: values of the entry's kind, or sub-messages that fit their
own schema, at most one if they merge.
-/

namespace WireFormat

namespace Schema

/-- No entry of a schema is a script, nor any of a schema inside it. -/
inductive ScriptFree : Schema → Prop
  | intro {schema : Schema} :
      (∀ number wireBits steps reply, .script number wireBits steps reply ∉ schema.entries) →
      (∀ number repeated sub, .message number repeated (some sub) ∈ schema.entries →
        ScriptFree sub) →
      ScriptFree schema

end Schema

namespace Message

mutual

/-- A message holds what the entries of a schema are for. -/
inductive Fits : Schema → Message → Prop
  | intro {schema : Schema} {slots : List (Slot Message)} {seen : List UInt32} :
      SlotsFit schema schema.entries slots → Fits schema ⟨slots, seen⟩

/-- Slots hold what their entries in the schema `self` are for. -/
inductive SlotsFit : Schema → List (Entry Schema) → List (Slot Message) → Prop
  | nil {self : Schema} : SlotsFit self [] []
  | scalars {self : Schema} {number : Option UInt32} {kind : Kind} {packed : Bool}
      {values : List Scalar} {entries : List (Entry Schema)} {slots : List (Slot Message)} :
      (∀ value ∈ values, value.kind = kind) → SlotsFit self entries slots →
      SlotsFit self (.scalar number kind packed :: entries) (.scalars values :: slots)
  | messages {self : Schema} {number : Option UInt32} {repeated : Bool} {sub : Option Schema}
      {values : List Message} {entries : List (Entry Schema)} {slots : List (Slot Message)} :
      (∀ message ∈ values, Fits (sub.getD self) message) →
      (repeated = true ∨ values.length ≤ 1) → SlotsFit self entries slots →
      SlotsFit self (.message number repeated sub :: entries) (.messages values :: slots)
  | answers {self : Schema} {number : Option UInt32} {wireBits : UInt8} {steps : List Step}
      {reply : Outcome} {values : List Answer} {entries : List (Entry Schema)}
      {slots : List (Slot Message)} :
      SlotsFit self entries slots →
      SlotsFit self (.script number wireBits steps reply :: entries) (.answers values :: slots)

end

end Message

end WireFormat
