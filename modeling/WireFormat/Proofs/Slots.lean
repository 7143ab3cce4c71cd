import WireFormat.Proofs.Reading
import WireFormat.Proofs.SchemaVisitor

/-!
# Slots that fill up

What a visitor of a schema does with the slot of the entry that takes a field. Of a message this
speaks in terms of its `content`, which leaves out the notes of the fields taken: they say in which
order the fields came, and this is not written.
-/

namespace WireFormat

namespace Message

/-! ## The content of a message -/

mutual

/-- A message without the notes of the fields that were taken, on every level. -/
def content : Message → Message
  | ⟨slots, _⟩ => ⟨contentSlots slots, []⟩

/-- Some slots without the notes in their messages. -/
def contentSlots : List (Slot Message) → List (Slot Message)
  | [] => []
  | slot :: rest => contentSlot slot :: contentSlots rest

/-- A slot without the notes in its messages. -/
def contentSlot : Slot Message → Slot Message
  | .scalars values => .scalars values
  | .messages values => .messages (contentMessages values)
  | .answers values => .answers values

/-- Some messages without their notes. -/
def contentMessages : List Message → List Message
  | [] => []
  | message :: rest => content message :: contentMessages rest

end

theorem contentSlots_eq_map (slots : List (Slot Message)) :
    contentSlots slots = slots.map contentSlot := by
  induction slots with
  | nil => rfl
  | cons slot rest ih => rw [contentSlots, ih, List.map_cons]

theorem contentMessages_eq_map (values : List Message) :
    contentMessages values = values.map content := by
  induction values with
  | nil => rfl
  | cons message rest ih => rw [contentMessages, ih, List.map_cons]

theorem content_noteField (number : UInt32) (message : Message) :
    (message.noteField number).content = message.content := by
  cases message
  rfl

theorem content_blank (schema : Schema) : schema.blank.content = schema.blank := by
  have hentry : contentSlot ∘ (Entry.blank : Entry Schema → Slot Message) = Entry.blank := by
    funext entry
    cases entry <;> rfl
  rw [Schema.blank, content, contentSlots_eq_map, List.map_map, hentry]

variable {message : Message} {before after : List (Slot Message)} {slot slot' : Slot Message}

/-- A slot of the content is the content of a slot. -/
theorem exists_slot_of_content (h : message.content = ⟨before ++ slot :: after, []⟩) :
    ∃ before' held after', message.slots = before' ++ held :: after' ∧
      before'.length = before.length ∧ before'.map contentSlot = before ∧
      contentSlot held = slot ∧ after'.map contentSlot = after := by
  obtain ⟨slots, seen⟩ := message
  rw [content, contentSlots_eq_map] at h
  obtain ⟨before', rest, rfl, hbefore, hrest⟩ := List.map_eq_append_iff.1 (congrArg Message.slots h)
  obtain ⟨held, after', rfl, hheld, hafter⟩ := List.map_eq_cons_iff.1 hrest
  refine ⟨before', held, after', rfl, ?_, hbefore, hheld, hafter⟩
  rw [← hbefore, List.length_map]

theorem content_slot (h : message.content = ⟨before ++ slot :: after, []⟩) :
    contentSlot (message.slot before.length) = slot := by
  obtain ⟨before', held, after', hslots, hlength, -, hheld, -⟩ := exists_slot_of_content h
  rw [Message.slot, hslots, ← hlength]
  simpa using hheld

/-- Values have no notes. -/
theorem slot_eq_scalars {values : List Scalar}
    (h : message.content = ⟨before ++ .scalars values :: after, []⟩) :
    message.slot before.length = .scalars values := by
  have hslot := content_slot h
  cases hheld : message.slot before.length <;> rw [hheld] at hslot <;> cases hslot
  rfl

theorem content_modifySlot {change : Slot Message → Slot Message}
    (h : message.content = ⟨before ++ slot :: after, []⟩)
    (hchange : ∀ held, contentSlot held = slot → contentSlot (change held) = slot') :
    (message.modifySlot before.length change).content = ⟨before ++ slot' :: after, []⟩ := by
  obtain ⟨before', held, after', hslots, hlength, hbefore, hheld, hafter⟩ :=
    exists_slot_of_content h
  have hmodify : (before' ++ held :: after').modify before'.length change =
      before' ++ change held :: after' := by
    rw [List.modify_eq_take_cons_drop (by simp)]
    simp
  rw [modifySlot, content, contentSlots_eq_map, hslots, ← hlength, hmodify, List.map_append,
    List.map_cons, hbefore, hchange held hheld, hafter]

end Message

namespace Slot

open Message

variable {held : Slot Message} {done : List Message}

theorem content_addScalar {values : List Scalar} (h : contentSlot held = .scalars values)
    (value : Scalar) : contentSlot (held.addScalar value) = .scalars (values ++ [value]) := by
  cases held with
  | scalars =>
    cases h
    rfl
  | messages => cases h
  | answers => cases h

/-- A blank message is filled for each field of a repeated entry, and for the first field of one
that merges. -/
theorem current_eq_blank {repeated : Bool} (h : contentSlot held = .messages done)
    (hone : repeated = true ∨ done = []) (blank : Message) :
    held.current repeated blank = blank := by
  cases held with
  | scalars => cases h
  | messages values =>
    rcases hone with rfl | rfl
    · rfl
    · rw [contentSlot, contentMessages_eq_map] at h
      have hnone : values = [] := List.map_eq_nil_iff.1 (Slot.messages.inj h)
      rw [hnone]
      cases repeated <;> rfl
  | answers => cases h

theorem content_store {repeated : Bool} (h : contentSlot held = .messages done)
    (hone : repeated = true ∨ done = []) (message : Message) :
    contentSlot (held.store repeated message) = .messages (done ++ [message.content]) := by
  cases held with
  | scalars => cases h
  | messages values =>
    have hdone : values.map content = done := by
      rw [contentSlot, contentMessages_eq_map] at h
      exact Slot.messages.inj h
    have hkept : (if repeated then values else values.dropLast) = values := by
      rcases hone with rfl | rfl
      · rfl
      · rw [List.map_eq_nil_iff.1 hdone]
        cases repeated <;> rfl
    rw [store, hkept, contentSlot, contentMessages_eq_map, List.map_append, hdone, List.map_cons,
      List.map_nil]
  | answers => cases h

end Slot

/-! ## What the visitor does with a slot -/

open Decode

/-- The content of the message that is being filled. -/
def Target.content (target : Target) : Message := target.message.content

namespace Schema

variable {decoder : Decoder} {schema sub : Schema} {tag : Tag} {before after : List (Slot Message)}

/-- Noting a field leaves the content as it is. -/
theorem reads_noteField (number : UInt32) (m : Message) :
    Reads Target.content (onState (.modifyMessage (.noteField number))) [] m () m := by
  refine .onState fun target h => ?_
  rw [← h]
  exact Message.content_noteField number target.message

/-- Recording a visit leaves the content as it is. -/
theorem reads_record (visit : Visit) (m : Message) :
    Reads Target.content (onState (.record visit)) [] m () m :=
  .onState fun _ h => h

/-- A single value goes to the end of its slot. -/
theorem reads_visitAt_value {value : Scalar}
    (htake : schema.take? tag = some (before.length, .value value.kind))
    (hbodies : ∀ body ∈ value.bodies, body.length < 2 ^ 32) (done : List Scalar)
    (levels depth : Nat) :
    Reads Target.content (schema.visitAt decoder (levels + 1) depth tag) value.write
      ⟨before ++ .scalars done :: after, []⟩ .handled
      ⟨before ++ .scalars (done ++ [value]) :: after, []⟩ := by
  rw [visitAt_succ, htake]
  refine .cursor_bind fun start => .bind_nil (reads_record _ _) <| .bind_pure
    (.read (value.reader_write_append hbodies)) <| .bind_nil (.onState fun target h => ?_) <|
    .bind_nil (reads_noteField _ _) (.pure _)
  exact Message.content_modifySlot h fun held hheld => Slot.content_addScalar hheld value

/-- A packed run is left to the decoder. -/
theorem reads_visitAt_packed {kind : Kind} {index : Nat} {number : UInt32}
    (htake : schema.take? tag = some (index, .packed kind)) (hfield : tag.field = number)
    (m : Message) (levels depth : Nat) :
    Reads Target.content (schema.visitAt decoder (levels + 1) depth tag) [] m
      (.packed (Tag.of number kind.wireType)) m := by
  subst hfield
  rw [visitAt_succ, htake]
  exact .cursor_bind fun start => .bind_nil (reads_record _ _) (.pure _)

/-- A sub-message is filled from a blank one and goes to the end of its slot. -/
theorem reads_visitAt_message {repeated : Bool} {bytes : Bytes} {message : Message}
    {done : List Message} {levels depth : Nat}
    (htake : schema.take? tag = some (before.length, .message repeated sub))
    (hone : repeated = true ∨ done = [])
    (hsub : Reads Target.content (readSub decoder levels (depth + 1) repeated sub) bytes
      sub.blank () message.content) :
    Reads Target.content (schema.visitAt decoder (levels + 1) depth tag) bytes
      ⟨before ++ .messages done :: after, []⟩ .handled
      ⟨before ++ .messages (done ++ [message.content]) :: after, []⟩ := by
  rw [visitAt_succ, htake]
  -- only the sub-message takes bytes; the notes around it take none
  refine .cursor_bind fun start => .bind_nil (reads_record _ _) <| .bind_pure
    (.onPart (fun target h => ?_) (fun target' target h' h => ?_) hsub) <|
    .bind_nil (reads_noteField _ _) (.pure _)
  · have hcurrent := Slot.current_eq_blank (Message.content_slot h) hone sub.blank
    rw [Target.content, Target.subTarget, hcurrent]
    exact Message.content_blank sub
  · refine Message.content_modifySlot h fun held hheld => ?_
    rw [Slot.content_store hheld hone]
    rw [← h']
    rfl

end Schema

end WireFormat
