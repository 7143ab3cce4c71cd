import WireFormat.Proofs.Slots
import WireFormat.Schema.Encoding
import WireFormat.Schema.Shape

/-!
# Messages read back

What `encode` writes for a message, `decodeBytes` reads into a blank one so that the content is the
same (`decodeBytes_encode`). The schema has to be `Unambiguous`, so that each field finds the entry
that wrote it, and the bodies behind lengths have to be as long as their lengths say.

The induction is on how the message fits its schema. A message is read in rounds, one for each field
that was written for it; the slots in front of a field are full by then and those behind it blank.
-/

namespace WireFormat

open Decode

/-! ## Schemas and messages that can be read back -/

namespace Schema

/-- On every level each entry has a field number of its own that a tag can hold, only kinds with a
layout of their own are packed, and no field is required. -/
inductive Unambiguous : Schema → Prop
  | intro {schema : Schema} :
      schema.required = [] →
      (∀ entry ∈ schema.entries, ∃ number, entry.number = some number ∧ number.toNat < 2 ^ 29) →
      (schema.entries.map Entry.number).Nodup →
      (∀ number kind, .scalar number kind true ∈ schema.entries →
        kind ≠ .string ∧ kind ≠ .bytes) →
      (∀ number repeated sub, .message number repeated (some sub) ∈ schema.entries →
        Unambiguous sub) →
      Unambiguous schema

mutual

/-- What is written of a message behind lengths: texts, bytes, packed runs and sub-messages. -/
def bodies (schema : Schema) : Message → List Bytes
  | ⟨slots, _⟩ => bodiesSlots schema schema.entries slots

/-- What is written behind lengths of some slots of the schema `self`, with their entries. -/
def bodiesSlots (self : Schema) : List (Entry Schema) → List (Slot Message) → List Bytes
  | entry :: entries, slot :: slots => bodiesSlot self entry slot ++ bodiesSlots self entries slots
  | _, _ => []

/-- What is written behind lengths of one slot of the schema `self`, with its entry. -/
def bodiesSlot (self : Schema) : Entry Schema → Slot Message → List Bytes
  | .scalar _ _ packed, .scalars values =>
    if packed then [values.flatMap Scalar.write] else values.flatMap Scalar.bodies
  | .message _ _ sub, .messages values => bodiesMessages (sub.getD self) values
  | _, _ => []

/-- What is written behind lengths of some sub-messages of a schema. -/
def bodiesMessages (schema : Schema) : List Message → List Bytes
  | [] => []
  | message :: rest => encode schema message :: bodies schema message ++ bodiesMessages schema rest

end

variable {schema self : Schema} {decoder : Decoder} {visitor : Visitor Target}

/-- Among what is written of some sub-messages is each of them, and what is inside it. -/
theorem mem_bodiesMessages {message : Message} {values : List Message} (hmem : message ∈ values)
    {body : Bytes} (h : body = schema.encode message ∨ body ∈ schema.bodies message) :
    body ∈ schema.bodiesMessages values := by
  induction values with
  | nil => cases hmem
  | cons first rest ih =>
    rw [bodiesMessages]
    rcases List.mem_cons.1 hmem with rfl | hrest
    · rcases h with rfl | h
      · exact List.mem_cons_self
      · exact List.mem_cons_of_mem _ (List.mem_append_left _ h)
    · exact List.mem_cons_of_mem _ (List.mem_append_right _ (ih hrest))

namespace Unambiguous

theorem required_eq_nil (h : schema.Unambiguous) : schema.required = [] := by
  obtain ⟨hrequired, -⟩ := h
  exact hrequired

theorem isComplete (h : schema.Unambiguous) (message : Message) :
    schema.isComplete message = true := by
  rw [Schema.isComplete, h.required_eq_nil]
  rfl

theorem exists_number (h : schema.Unambiguous) {entry : Entry Schema}
    (hmem : entry ∈ schema.entries) : ∃ number, entry.number = some number := by
  obtain ⟨-, hnumbers, -, -, -⟩ := h
  obtain ⟨number, hnumber, -⟩ := hnumbers entry hmem
  exact ⟨number, hnumber⟩

theorem number_lt (h : schema.Unambiguous) {entry : Entry Schema} (hmem : entry ∈ schema.entries)
    {number : UInt32} (hnumber : entry.number = some number) : number.toNat < 2 ^ 29 := by
  obtain ⟨-, hnumbers, -, -, -⟩ := h
  obtain ⟨number', hnumber', hless⟩ := hnumbers entry hmem
  rw [hnumber] at hnumber'
  cases hnumber'
  exact hless

theorem wireType_ne_of_packed (h : schema.Unambiguous) {number : Option UInt32} {kind : Kind}
    (hmem : .scalar number kind true ∈ schema.entries) :
    WireType.lengthDelimited ≠ kind.wireType := by
  obtain ⟨-, -, -, hpacked, -⟩ := h
  obtain ⟨hstring, hbytes⟩ := hpacked number kind hmem
  exact Kind.wireType_ne_lengthDelimited hstring hbytes

/-- The schema of a sub-message. -/
theorem sub (h : self.Unambiguous) {number : Option UInt32} {repeated : Bool}
    {sub? : Option Schema} (hmem : .message number repeated sub? ∈ self.entries) :
    (sub?.getD self).Unambiguous := by
  cases sub? with
  | none => exact h
  | some sub =>
    obtain ⟨-, -, -, -, hsubs⟩ := h
    exact hsubs number repeated sub hmem

/-- The tag under which an entry writes is taken by it. -/
theorem take? (h : schema.Unambiguous) {before after : List (Entry Schema)}
    {entry : Entry Schema} {number : UInt32} {tag : Tag} {action : Action}
    (hentries : schema.entries = before ++ entry :: after) (hnumber : entry.number = some number)
    (hfield : tag.field = number) (haction : entry.actionFor? schema tag = some action) :
    schema.take? tag = some (before.length, action) := by
  obtain ⟨-, hnumbers, hdistinct, -, -⟩ := h
  refine take?_eq_some_of hentries (fun other hother => ?_) ?_ haction
  · obtain ⟨otherNumber, hother', -⟩ := hnumbers other (hentries ▸ List.mem_append_left _ hother)
    rw [hentries, List.map_append, List.map_cons, List.nodup_append] at hdistinct
    have hne := hdistinct.2.2 _ (List.mem_map_of_mem hother) _ List.mem_cons_self
    rw [hother', hnumber] at hne
    have hless : otherNumber ≠ number := fun heq => hne (congrArg some heq)
    simp [Entry.fits, hother', hfield, hless]
  · simp [Entry.fits, hnumber, hfield]

end Unambiguous

theorem ScriptFree.sub (h : self.ScriptFree) {number : Option UInt32} {repeated : Bool}
    {sub? : Option Schema} (hmem : .message number repeated sub? ∈ self.entries) :
    (sub?.getD self).ScriptFree := by
  cases sub? with
  | none => exact h
  | some sub =>
    obtain ⟨-, hsubs⟩ := h
    exact hsubs number repeated sub hmem

/-! ## Visitors with levels enough -/

/-- A visitor reads the fields of a schema, with levels enough for `size` bytes or for all that are
left. -/
def Serves (decoder : Decoder) (schema : Schema) (size : Nat) (visitor : Visitor Target) : Prop :=
  ∀ tag (run : Run Target), run.cursor.Valid → ∃ levels depth,
    min size run.cursor.remaining < levels ∧
      visitor tag run = schema.visitAt decoder levels depth tag run

theorem serves_visitor (decoder : Decoder) (schema : Schema) (size : Nat) :
    Serves decoder schema size (schema.visitor decoder) := by
  intro tag run hc
  have hlevels := schema.remaining_lt_levels hc
  exact ⟨schema.levels run, 0, by omega, rfl⟩

theorem serves_visitAt (decoder : Decoder) (schema : Schema) {size levels : Nat} (depth : Nat)
    (h : size < levels) : Serves decoder schema size (schema.visitAt decoder levels depth) := by
  intro tag run _
  exact ⟨levels, depth, by omega, rfl⟩

theorem Serves.reads {size : Nat} (h : Serves decoder schema size visitor) {tag : Tag}
    {bytes : Bytes} {m m' : Message} {outcome : Outcome}
    (hreads : ∀ levels depth, min size bytes.length ≤ levels →
      Reads Target.content (schema.visitAt decoder (levels + 1) depth tag) bytes m outcome m') :
    Reads Target.content (visitor tag) bytes m outcome m' := by
  intro run hc hbytes hm
  have hlength := length_le_remaining hc hbytes
  obtain ⟨levels, depth, hlevels, heq⟩ := h tag run hc
  obtain ⟨levels, rfl⟩ := Nat.exists_eq_add_of_le' (show 1 ≤ levels by omega)
  rw [heq]
  exact hreads levels depth (by omega) run hc hbytes hm

/-! ## Slots -/

section Slots

variable {number : UInt32} {kind : Kind} {packed repeated : Bool} {sub? : Option Schema}
variable {entriesBefore entriesAfter : List (Entry Schema)} {before after : List (Slot Message)}

/-- What an entry for values does behind the tag of a single one. -/
theorem actionFor?_value (hnumber : number.toNat < 2 ^ 29) (own : Option UInt32) :
    (Entry.scalar own kind packed).actionFor? self (Tag.of number kind.wireType) =
      some (.value kind) := by
  rw [Entry.actionFor?, if_pos]
  exact Tag.wireType_of hnumber kind.bits_wireType_lt kind.ofBits_bits_wireType

/-- What it does behind the tag of a packed run. -/
theorem actionFor?_packed (hnumber : number.toNat < 2 ^ 29)
    (hkind : .lengthDelimited ≠ kind.wireType) (own : Option UInt32) :
    (Entry.scalar own kind true).actionFor? self (Tag.of number .lengthDelimited) =
      some (.packed kind) := by
  have hwire : (Tag.of number .lengthDelimited).wireType = .lengthDelimited :=
    Tag.wireType_of hnumber (by decide) rfl
  simp [Entry.actionFor?, hwire, hkind]

/-- A schema takes the values under a field number into the slot of one entry, single ones and those
in packed runs. -/
structure Unpacks (schema : Schema) (number : UInt32) (kind : Kind) (index : Nat) : Prop where
  number_lt : number.toNat < 2 ^ 29
  wireType_ne : .lengthDelimited ≠ kind.wireType
  value : schema.take? (Tag.of number kind.wireType) = some (index, .value kind)
  packed : schema.take? (Tag.of number .lengthDelimited) = some (index, .packed kind)

theorem take?_value (hschema : self.Unambiguous)
    (hentries : self.entries = entriesBefore ++ .scalar (some number) kind packed :: entriesAfter) :
    self.take? (Tag.of number kind.wireType) = some (entriesBefore.length, .value kind) := by
  have hmem : .scalar (some number) kind packed ∈ self.entries := by simp [hentries]
  have hnumber := hschema.number_lt hmem rfl
  exact hschema.take? hentries rfl (Tag.field_of hnumber kind.bits_wireType_lt)
    (actionFor?_value hnumber _)

theorem Unambiguous.unpacks (hschema : self.Unambiguous)
    (hentries : self.entries = entriesBefore ++ .scalar (some number) kind true :: entriesAfter) :
    self.Unpacks number kind entriesBefore.length := by
  have hmem : .scalar (some number) kind true ∈ self.entries := by simp [hentries]
  have hnumber := hschema.number_lt hmem rfl
  have hkind := hschema.wireType_ne_of_packed hmem
  exact ⟨hnumber, hkind, take?_value hschema hentries,
    hschema.take? hentries rfl (Tag.field_of hnumber (by decide))
      (actionFor?_packed hnumber hkind _)⟩

theorem take?_message (hschema : self.Unambiguous)
    (hentries : self.entries =
      entriesBefore ++ .message (some number) repeated sub? :: entriesAfter) :
    self.take? (Tag.of number .lengthDelimited) =
      some (entriesBefore.length, .message repeated (sub?.getD self)) := by
  have hmem : .message (some number) repeated sub? ∈ self.entries := by simp [hentries]
  have hnumber := hschema.number_lt hmem rfl
  refine hschema.take? hentries rfl (Tag.field_of hnumber (by decide)) ?_
  rw [Entry.actionFor?, if_pos]
  exact Tag.wireType_of hnumber (by decide) rfl

/-- Values that are read one in a round fill their slot. -/
theorem rounds_flatMap {round : Decode Target Unit} {write : Scalar → Bytes} (values : List Scalar)
    (hpos : ∀ value ∈ values, 0 < (write value).length)
    (hround : ∀ value ∈ values, ∀ done,
      Reads Target.content round (write value) ⟨before ++ .scalars done :: after, []⟩ ()
        ⟨before ++ .scalars (done ++ [value]) :: after, []⟩) (done : List Scalar) :
    Rounds Target.content round (values.flatMap write) ⟨before ++ .scalars done :: after, []⟩
      ⟨before ++ .scalars (done ++ values) :: after, []⟩ := by
  induction values generalizing done with
  | nil =>
    rw [List.append_nil]
    exact .nil
  | cons value values ih =>
    have hrest := ih (fun v hv => hpos v (List.mem_cons_of_mem _ hv))
      (fun v hv => hround v (List.mem_cons_of_mem _ hv)) (done ++ [value])
    rw [List.append_assoc] at hrest
    exact .cons (hpos value List.mem_cons_self) (hround value List.mem_cons_self done) hrest

/-- The visitor reads a single value into the slot of its entry. -/
theorem reads_value {size : Nat} (hserves : Serves decoder self size visitor)
    (htake : self.take? (Tag.of number kind.wireType) = some (before.length, .value kind))
    {value : Scalar} (hkind : value.kind = kind)
    (hbodies : ∀ body ∈ value.bodies, body.length < 2 ^ 32) (done : List Scalar) :
    Reads Target.content (visitor (Tag.of number kind.wireType)) value.write
      ⟨before ++ .scalars done :: after, []⟩ .handled
      ⟨before ++ .scalars (done ++ [value]) :: after, []⟩ := by
  subst hkind
  exact hserves.reads fun levels depth _ => reads_visitAt_value htake hbodies done levels depth

/-- Single values that were written behind tags. -/
theorem rounds_values {size : Nat} (hserves : Serves decoder self size visitor)
    (htake : self.take? (Tag.of number kind.wireType) = some (before.length, .value kind))
    {values : List Scalar} (hkinds : ∀ value ∈ values, value.kind = kind)
    (hbodies : ∀ value ∈ values, ∀ body ∈ value.bodies, body.length < 2 ^ 32)
    (done : List Scalar) :
    Rounds Target.content (decoder.field visitor) (values.flatMap (writeValue number kind))
      ⟨before ++ .scalars done :: after, []⟩
      ⟨before ++ .scalars (done ++ values) :: after, []⟩ := by
  refine rounds_flatMap values (fun value _ => ?_) (fun value hvalue done => ?_) done
  · rw [writeValue, List.length_append]
    exact Nat.add_pos_left (Tag.write_length_pos _) _
  · exact Decoder.reads_field
      (reads_value hserves htake (hkinds value hvalue) (hbodies value hvalue) done)

/-- Values of a kind that may be packed have nothing behind a length. -/
theorem Unpacks.bodies_eq_nil {index : Nat} (hunpacks : self.Unpacks number kind index)
    {value : Scalar} (hkind : value.kind = kind) : value.bodies = [] :=
  Scalar.bodies_eq_nil (hkind ▸ hunpacks.wireType_ne)

/-- The values of a packed run, back to back. -/
theorem rounds_elements {size : Nat} (hserves : Serves decoder self size visitor)
    (hunpacks : self.Unpacks number kind before.length) {values : List Scalar}
    (hkinds : ∀ value ∈ values, value.kind = kind) (done : List Scalar) :
    Rounds Target.content (decoder.packedElement visitor (Tag.of number kind.wireType))
      (values.flatMap Scalar.write) ⟨before ++ .scalars done :: after, []⟩
      ⟨before ++ .scalars (done ++ values) :: after, []⟩ := by
  refine rounds_flatMap values (fun value _ => value.write_length_pos)
    (fun value hvalue done => ?_) done
  refine Decoder.reads_packedElement value.write_length_pos
    (reads_value hserves hunpacks.value (hkinds value hvalue) ?_ done)
  simp [hunpacks.bodies_eq_nil (hkinds value hvalue)]

/-- The visitor leaves a packed run to the decoder. -/
theorem reads_packed {size index : Nat} (hserves : Serves decoder self size visitor)
    (hunpacks : self.Unpacks number kind index) (m : Message) :
    Reads Target.content (visitor (Tag.of number .lengthDelimited)) [] m
      (.packed (Tag.of number kind.wireType)) m :=
  hserves.reads fun levels depth _ =>
    reads_visitAt_packed hunpacks.packed (Tag.field_of hunpacks.number_lt (by decide)) m levels
      depth

/-- Values that were written as a packed run. -/
theorem rounds_packed {size : Nat} (hserves : Serves decoder self size visitor)
    (hunpacks : self.Unpacks number kind before.length) {values : List Scalar}
    (hkinds : ∀ value ∈ values, value.kind = kind)
    (hlength : (values.flatMap Scalar.write).length < 2 ^ 32) (done : List Scalar) :
    Rounds Target.content (decoder.field visitor) (packedField number values)
      ⟨before ++ .scalars done :: after, []⟩
      ⟨before ++ .scalars (done ++ values) :: after, []⟩ := by
  refine .single ?_ (Decoder.reads_packedField hlength (reads_packed hserves hunpacks _)
    (rounds_elements hserves hunpacks hkinds done))
  rw [packedField, List.length_append]
  exact Nat.add_pos_left (Tag.write_length_pos _) _

/-- The visitor reads a sub-message into the slot of its entry, if the fields of the sub-message can
be read. -/
theorem reads_message (hschema : self.Unambiguous) (hmax : decoder.maxMessageLength = none)
    {size : Nat} (hserves : Serves decoder self size visitor)
    (hentries : self.entries =
      entriesBefore ++ .message (some number) repeated sub? :: entriesAfter)
    (hbefore : before.length = entriesBefore.length) {bytes : Bytes} {message : Message}
    (hlength : bytes.length < 2 ^ 32) (hsize : (lengthPrefixed bytes).length ≤ size)
    (hsub : ∀ visitor, Serves decoder (sub?.getD self) bytes.length visitor →
      Rounds Target.content (decoder.field visitor) bytes (sub?.getD self).blank message.content)
    {done : List Message} (hone : repeated = true ∨ done = []) :
    Reads Target.content (visitor (Tag.of number .lengthDelimited)) (lengthPrefixed bytes)
      ⟨before ++ .messages done :: after, []⟩ .handled
      ⟨before ++ .messages (done ++ [message.content]) :: after, []⟩ := by
  have hmem : .message (some number) repeated sub? ∈ self.entries := by simp [hentries]
  have htake := take?_message hschema hentries
  rw [← hbefore] at htake
  refine hserves.reads fun levels depth hlevels => reads_visitAt_message htake hone ?_
  -- the length in front takes a byte, which pays for the level
  have hless : bytes.length < levels := by
    have hprefix := (Varint.isVarint_encode (UInt64.ofNat bytes.length)).length_pos
    rw [Nat.min_eq_right hsize, lengthPrefixed, List.length_append] at hlevels
    omega
  have hrounds := hsub _ (serves_visitAt decoder (sub?.getD self) (depth + 1) hless)
  cases repeated with
  | true => exact Decoder.reads_decode hmax hlength hrounds
  | false =>
    have hcomplete := (hschema.sub hmem).isComplete
    show Reads Target.content (decoder.merge ((sub?.getD self).readableType _)) _ _ _ _
    exact Decoder.reads_merge rfl (fun target => hcomplete target.message) hmax hlength hrounds

/-- Sub-messages that were written behind tags, if the fields of each can be read. -/
theorem rounds_messages (hschema : self.Unambiguous) (hmax : decoder.maxMessageLength = none)
    {size : Nat} (hserves : Serves decoder self size visitor)
    (hentries : self.entries =
      entriesBefore ++ .message (some number) repeated sub? :: entriesAfter)
    (hbefore : before.length = entriesBefore.length) (values : List Message)
    (hlength : ∀ message ∈ values, ((sub?.getD self).encode message).length < 2 ^ 32)
    (hsize : (encodeMessages (sub?.getD self) number values).length ≤ size)
    (hsub : ∀ message ∈ values, ∀ visitor,
      Serves decoder (sub?.getD self) ((sub?.getD self).encode message).length visitor →
      Rounds Target.content (decoder.field visitor) ((sub?.getD self).encode message)
        (sub?.getD self).blank message.content)
    (done : List Message) (hone : repeated = true ∨ (done ++ values).length ≤ 1) :
    Rounds Target.content (decoder.field visitor) (encodeMessages (sub?.getD self) number values)
      ⟨before ++ .messages done :: after, []⟩
      ⟨before ++ .messages (done ++ Message.contentMessages values) :: after, []⟩ := by
  induction values generalizing done with
  | nil =>
    rw [Message.contentMessages, List.append_nil]
    exact .nil
  | cons message values ih =>
    rw [encodeMessages, List.length_append, List.length_append] at hsize
    -- an entry that merges holds one message at most, so no other was read before this one
    have hnone : repeated = true ∨ done = [] := by
      rcases hone with hone | hone
      · exact .inl hone
      · rw [List.length_append, List.length_cons] at hone
        exact .inr (List.eq_nil_of_length_eq_zero (by omega))
    have hvisit : Reads Target.content (visitor (Tag.of number .lengthDelimited))
        (lengthPrefixed ((sub?.getD self).encode message)) ⟨before ++ .messages done :: after, []⟩
        .handled ⟨before ++ .messages (done ++ [message.content]) :: after, []⟩ :=
      reads_message hschema hmax hserves hentries hbefore (hlength message List.mem_cons_self)
        (by omega) (hsub message List.mem_cons_self) hnone
    have hrest := ih (fun m hm => hlength m (List.mem_cons_of_mem _ hm)) (by omega)
      (fun m hm => hsub m (List.mem_cons_of_mem _ hm)) (done ++ [message.content])
      (hone.imp_right (by simp))
    rw [List.append_assoc] at hrest
    refine .cons ?_ (Decoder.reads_field hvisit) hrest
    rw [List.length_append]
    exact Nat.add_pos_left (Tag.write_length_pos _) _

end Slots

/-! ## Messages -/

mutual

/-- What was written for a message is read in rounds. -/
theorem rounds_encode {schema : Schema} {message : Message} (hfits : message.Fits schema)
    (hschema : schema.Unambiguous) (hscripts : schema.ScriptFree)
    (hmax : decoder.maxMessageLength = none)
    (hbodies : ∀ body ∈ schema.bodies message, body.length < 2 ^ 32)
    {visitor : Visitor Target}
    (hserves : Serves decoder schema (schema.encode message).length visitor) :
    Rounds Target.content (decoder.field visitor) (schema.encode message) schema.blank
      message.content := by
  cases hfits with
  | @intro _ slots seen hslots =>
    exact rounds_encodeSlots hslots hschema hscripts hmax hbodies hserves (Nat.le_refl _) [] [] rfl
      rfl

/-- What was written for the slots behind some others is read in rounds. -/
theorem rounds_encodeSlots {self : Schema} {entries : List (Entry Schema)}
    {slots : List (Slot Message)} (hfits : Message.SlotsFit self entries slots)
    (hschema : self.Unambiguous) (hscripts : self.ScriptFree)
    (hmax : decoder.maxMessageLength = none)
    (hbodies : ∀ body ∈ self.bodiesSlots entries slots, body.length < 2 ^ 32)
    {size : Nat} {visitor : Visitor Target} (hserves : Serves decoder self size visitor)
    (hsize : (self.encodeSlots entries slots).length ≤ size)
    (before : List (Slot Message)) (entriesBefore : List (Entry Schema))
    (hentries : self.entries = entriesBefore ++ entries)
    (hbefore : before.length = entriesBefore.length) :
    Rounds Target.content (decoder.field visitor) (self.encodeSlots entries slots)
      ⟨before ++ entries.map Entry.blank, []⟩ ⟨before ++ Message.contentSlots slots, []⟩ := by
  match hfits with
  | .nil => exact .nil
  | @Message.SlotsFit.scalars _ number? kind packed values entries slots hkinds hrest =>
    have hmem : .scalar number? kind packed ∈ self.entries := by simp [hentries]
    obtain ⟨number, hnumber⟩ := hschema.exists_number hmem
    cases hnumber
    rw [bodiesSlots] at hbodies
    rw [encodeSlots, List.length_append] at hsize
    have hslot : Rounds Target.content (decoder.field visitor)
        (self.encodeSlot (.scalar (some number) kind packed) (.scalars values))
        ⟨before ++ .scalars [] :: entries.map Entry.blank, []⟩
        ⟨before ++ .scalars values :: entries.map Entry.blank, []⟩ := by
      cases packed with
      | true =>
        have hunpacks := hschema.unpacks hentries
        rw [← hbefore] at hunpacks
        refine rounds_packed hserves hunpacks hkinds (hbodies _ ?_) []
        exact List.mem_append_left _ List.mem_cons_self
      | false =>
        have htake := take?_value hschema hentries
        rw [← hbefore] at htake
        refine rounds_values hserves htake hkinds (fun value hvalue body hbody =>
          hbodies body (List.mem_append_left _ ?_)) []
        exact List.mem_flatMap.2 ⟨value, hvalue, hbody⟩
    -- the slot is full now and stands among those in front
    have hslots := rounds_encodeSlots hrest hschema hscripts hmax
      (fun body hbody => hbodies body (List.mem_append_right _ hbody)) hserves (by omega)
      (before ++ [.scalars values]) (entriesBefore ++ [.scalar (some number) kind packed])
      (by rw [List.append_assoc]; exact hentries) (by simp [hbefore])
    rw [List.append_assoc, List.append_assoc] at hslots
    exact hslot.append hslots
  | @Message.SlotsFit.messages _ number? repeated sub? values entries slots hvalues hone hrest =>
    have hmem : .message number? repeated sub? ∈ self.entries := by simp [hentries]
    obtain ⟨number, hnumber⟩ := hschema.exists_number hmem
    cases hnumber
    rw [bodiesSlots] at hbodies
    rw [encodeSlots, List.length_append] at hsize
    have hslot : Rounds Target.content (decoder.field visitor)
        (self.encodeSlot (.message (some number) repeated sub?) (.messages values))
        ⟨before ++ .messages [] :: entries.map Entry.blank, []⟩
        ⟨before ++ .messages (Message.contentMessages values) :: entries.map Entry.blank, []⟩ := by
      have hinside : ∀ message ∈ values, ∀ body,
          body = (sub?.getD self).encode message ∨ body ∈ (sub?.getD self).bodies message →
            body.length < 2 ^ 32 :=
        fun message hmessage body hbody =>
          hbodies body (List.mem_append_left _ (mem_bodiesMessages hmessage hbody))
      refine rounds_messages hschema hmax hserves hentries hbefore values
        (fun message hmessage => hinside message hmessage _ (.inl rfl)) ?_
        (fun message hmessage visitor hserves => ?_) [] hone
      · exact Nat.le_trans (Nat.le_add_right _ _) hsize
      · exact rounds_encode (hvalues message hmessage) (hschema.sub hmem) (hscripts.sub hmem) hmax
          (fun body hbody => hinside message hmessage body (.inr hbody)) hserves
    have hslots := rounds_encodeSlots hrest hschema hscripts hmax
      (fun body hbody => hbodies body (List.mem_append_right _ hbody)) hserves (by omega)
      (before ++ [.messages (Message.contentMessages values)])
      (entriesBefore ++ [.message (some number) repeated sub?])
      (by rw [List.append_assoc]; exact hentries) (by simp [hbefore])
    rw [List.append_assoc, List.append_assoc] at hslots
    exact hslot.append hslots
  | @Message.SlotsFit.answers _ number? wireBits steps reply _ _ _ _ =>
    have hmem : .script number? wireBits steps reply ∈ self.entries := by simp [hentries]
    obtain ⟨hnone, -⟩ := hscripts
    exact absurd hmem (hnone _ _ _ _)

end

/-- Reading what was written for a message, under the default bounds into a blank message, gives its
content back. -/
theorem decodeBytes_encode {schema : Schema} {message : Message} (hscripts : schema.ScriptFree)
    (hschema : schema.Unambiguous) (hfits : message.Fits schema)
    (hbodies : ∀ body ∈ schema.bodies message, body.length < 2 ^ 32) :
    ∃ target, Decoder.decodeBytes {} (schema.visitor {}) (schema.encode message)
        ⟨schema.blank, []⟩ = .ok () target ∧
      target.message.content = message.content :=
  Decoder.decodeBytes_eq_ok rfl
    (rounds_encode hfits hschema hscripts rfl hbodies (serves_visitor {} schema _))
    (Message.content_blank schema)

/-- Trees: numbers in a packed run, a label, and branches of the same schema. -/
def treeSchema : Schema :=
  ⟨[.scalar (some 1) .sint32 true, .scalar (some 2) .bytes false, .message (some 3) true none], []⟩

/-- A tree with one branch. -/
def tree : Message :=
  ⟨[.scalars [.sint32 (-1), .sint32 150], .scalars [.bytes [0x72]],
    .messages [⟨[.scalars [], .scalars [.bytes [0x6c]], .messages []], []⟩]], []⟩

theorem decodeBytes_encode_tree :
    treeSchema.ScriptFree ∧ treeSchema.Unambiguous ∧ tree.Fits treeSchema ∧
      (∀ body ∈ treeSchema.bodies tree, body.length < 2 ^ 32) ∧
      ∃ target, Decoder.decodeBytes {} (treeSchema.visitor {}) (treeSchema.encode tree)
          ⟨treeSchema.blank, []⟩ = .ok () target ∧ target.message.content = tree := by
  have hscripts : treeSchema.ScriptFree := .intro (by simp [treeSchema]) (by simp [treeSchema])
  have hschema : treeSchema.Unambiguous := by
    refine .intro rfl ?_ (by decide) (by simp [treeSchema]) (by simp [treeSchema])
    simp [treeSchema, Entry.number]
  have hleaf : Message.Fits treeSchema
      ⟨[.scalars [], .scalars [.bytes [0x6c]], .messages []], []⟩ := by
    refine .intro (.scalars ?_ (.scalars ?_ (.messages ?_ (.inl rfl) .nil)))
    · simp
    · simp [Scalar.kind]
    · simp
  have hfits : tree.Fits treeSchema := by
    refine .intro (.scalars ?_ (.scalars ?_ (.messages ?_ (.inl rfl) .nil)))
    · simp [Scalar.kind]
    · simp [Scalar.kind]
    · intro message hmessage
      rw [List.mem_singleton.1 hmessage]
      exact hleaf
  have hbodies : ∀ body ∈ treeSchema.bodies tree, body.length < 2 ^ 32 := by decide
  exact ⟨hscripts, hschema, hfits, hbodies, decodeBytes_encode hscripts hschema hfits hbodies⟩

end Schema

end WireFormat
