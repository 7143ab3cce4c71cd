import WireFormat.Schema.Encoding
import WireFormat.Proofs.Ensures
import WireFormat.Proofs.Range
import WireFormat.Proofs.SchemaVisitor

/-!
# Required fields on all levels

A payload that is loaded well leaves no message that wants for a required field: not the message
itself, and none inside it that merges what comes for its entry, on any level
(`Schema.load_complete`). Messages that have an entry's field each are not asked for theirs, but the
messages inside them are.

The check is made behind each part of a message, before it is put back. That it holds at the end is
an invariant (`Message.Sound`): it is kept by each change of a message (`Message.Sound.modifySlot`),
so also by putting a message back that is sound itself and, if it merges, complete
(`Message.Sound.store`). The induction is on the levels of messages that a visitor reads.
-/

namespace WireFormat

open Decode

namespace Message

/-- A message holds another one for an entry of its schema, which is repeated or merges. -/
inductive Holds (schema : Schema) (message : Message) : Bool → Schema → Message → Prop
  | intro {index : Nat} {number : Option UInt32} {repeated : Bool} {sub : Option Schema}
      {values : List Message} {held : Message} :
      schema.entries[index]? = some (.message number repeated sub) →
      message.slots[index]? = some (.messages values) → held ∈ values →
      Holds schema message repeated (sub.getD schema) held

/-- A message lies somewhere inside another one, for an entry that is repeated or merges. -/
inductive Encloses : Schema → Message → Bool → Schema → Message → Prop
  | direct {schema sub : Schema} {message held : Message} {repeated : Bool} :
      Holds schema message repeated sub held → Encloses schema message repeated sub held
  | within {schema between sub : Schema} {message middle held : Message}
      {repeated repeated' : Bool} :
      Holds schema message repeated' between middle → Encloses between middle repeated sub held →
      Encloses schema message repeated sub held

/-- Every message inside that merges has its required fields. -/
def Sound (schema : Schema) (message : Message) : Prop :=
  ∀ sub held, Encloses schema message false sub held → sub.isComplete held = true

variable {schema sub : Schema} {message held : Message} {index : Nat} {repeated : Bool}

/-- A message is sound if what it holds is, and is complete where it merges. -/
theorem sound_iff : Sound schema message ↔ ∀ repeated sub held,
    Holds schema message repeated sub held →
      Sound sub held ∧ (repeated = false → sub.isComplete held = true) := by
  constructor
  · intro h repeated sub held hholds
    refine ⟨fun sub' held' hinside => h _ _ (.within hholds hinside), ?_⟩
    rintro rfl
    exact h _ _ (.direct hholds)
  · intro h sub held hinside
    cases hinside with
    | direct hholds => exact (h _ _ _ hholds).2 rfl
    | within hholds hinside => exact (h _ _ _ hholds).1 _ _ hinside

/-- Before anything came, no message is inside. -/
theorem sound_blank (schema : Schema) : Sound schema schema.blank := by
  rw [sound_iff]
  rintro repeated sub held ⟨hentry, hslot, hmem⟩
  rw [Schema.blank, List.getElem?_map, hentry] at hslot
  simp only [Option.map_some, Entry.blank, Option.some.injEq, Slot.messages.injEq] at hslot
  rw [← hslot] at hmem
  cases hmem

theorem Sound.noteField (h : Sound schema message) (number : UInt32) :
    Sound schema (message.noteField number) := by
  rw [sound_iff] at h ⊢
  rintro repeated sub held ⟨hentry, hslot, hmem⟩
  exact h _ _ _ ⟨hentry, hslot, hmem⟩

/-- A slot is changed, and what it holds then is sound. -/
theorem Sound.modifySlot (h : Sound schema message) {change : Slot Message → Slot Message}
    (hchange : ∀ slot number repeated sub values held,
      message.slots[index]? = some slot →
      schema.entries[index]? = some (.message number repeated sub) →
      change slot = .messages values → held ∈ values →
      Sound (sub.getD schema) held ∧
        (repeated = false → (sub.getD schema).isComplete held = true)) :
    Sound schema (message.modifySlot index change) := by
  rw [sound_iff] at h ⊢
  intro repeated sub held hholds
  cases hholds with
  | @intro place number _ sub? values _ hentry hslot hmem =>
    change (message.slots.modify index change)[place]? = _ at hslot
    by_cases hplace : index = place
    · subst hplace
      rw [List.getElem?_modify_eq] at hslot
      cases hget : message.slots[index]? with
      | none =>
        rw [hget] at hslot
        cases hslot
      | some slot =>
        rw [hget] at hslot
        exact hchange slot number repeated sub? values held hget hentry (Option.some.inj hslot) hmem
    · rw [List.getElem?_modify_ne _ _ hplace] at hslot
      exact h _ _ _ ⟨hentry, hslot, hmem⟩

/-- A change that leaves slots of messages alone. -/
theorem Sound.modifySlot_other (h : Sound schema message) {change : Slot Message → Slot Message}
    (hchange : ∀ slot values, change slot = .messages values → slot = .messages values) :
    Sound schema (message.modifySlot index change) := by
  refine h.modifySlot ?_
  intro slot number repeated sub values held hslot hentry hchanged hmem
  rw [hchange slot values hchanged] at hslot
  exact sound_iff.1 h _ _ _ ⟨hentry, hslot, hmem⟩

theorem Sound.addScalar (h : Sound schema message) (value : Scalar) :
    Sound schema (message.modifySlot index (.addScalar value)) := by
  refine h.modifySlot_other fun slot values hslot => ?_
  cases slot with
  | messages => exact hslot
  | scalars | answers => cases hslot

theorem Sound.addAnswer (h : Sound schema message) (answer : Answer) :
    Sound schema (message.modifySlot index (.addAnswer answer)) := by
  refine h.modifySlot_other fun slot values hslot => ?_
  cases slot with
  | messages => exact hslot
  | scalars | answers => cases hslot

/-- The message that the next field goes to is sound. -/
theorem Sound.current (h : Sound schema message) {number : Option UInt32} {sub? : Option Schema}
    (hentry : schema.entries[index]? = some (.message number repeated sub?)) :
    Sound (sub?.getD schema)
      ((message.slot index).current repeated (sub?.getD schema).blank) := by
  have hblank := sound_blank (sub?.getD schema)
  cases hslot : message.slots[index]? with
  | none =>
    rw [slot, List.getD_eq_getElem?_getD, hslot]
    exact hblank
  | some slot =>
    rw [Message.slot, List.getD_eq_getElem?_getD, hslot, Option.getD_some]
    cases slot with
    | scalars values => exact hblank
    | answers values => exact hblank
    | messages values =>
      simp only [Slot.current]
      by_cases hrepeated : repeated = true
      · rw [if_pos hrepeated]
        exact hblank
      · rw [if_neg hrepeated]
        -- a message that merges is the last one, if there is one
        cases hlast : values.getLast? with
        | none => exact hblank
        | some held =>
          have hmem := List.mem_of_getLast? hlast
          exact (sound_iff.1 h _ _ _ ⟨hentry, hslot, hmem⟩).1

/-- A message that is sound, and complete if it merges, is put back. -/
theorem Sound.store (h : Sound schema message) {number : Option UInt32} {sub? : Option Schema}
    (hentry : schema.entries[index]? = some (.message number repeated sub?))
    (hheld : Sound (sub?.getD schema) held)
    (hcomplete : repeated = false → (sub?.getD schema).isComplete held = true) :
    Sound schema (message.modifySlot index (.store repeated held)) := by
  refine h.modifySlot ?_
  intro slot number' repeated' sub' values' other hslot hentry' hstored hmem
  rw [hentry] at hentry'
  cases hentry'
  cases slot with
  | scalars values => cases hstored
  | answers values => cases hstored
  | messages values =>
    cases hstored
    rcases List.mem_append.1 hmem with hbefore | hnew
    · have hthere : other ∈ values := by
        by_cases hrepeated : repeated = true
        · rwa [if_pos hrepeated] at hbefore
        · rw [if_neg hrepeated] at hbefore
          exact List.dropLast_subset values hbefore
      exact sound_iff.1 h _ _ _ ⟨hentry, hslot, hthere⟩
    · cases List.mem_singleton.1 hnew
      exact ⟨hheld, hcomplete⟩

end Message

namespace Schema

variable {schema : Schema} {decoder : Decoder}

/-- The message under way is sound. -/
def Sound (schema : Schema) (target : Target) : Prop := Message.Sound schema target.message

theorem ensures_modifyMessage {change : Message → Message}
    (hchange : ∀ message, Message.Sound schema message → Message.Sound schema (change message)) :
    Ensures schema.Sound schema.Sound (onState (.modifyMessage change)) :=
  .onState fun _ h => hchange _ h

theorem ensures_runScript (index : Nat) (steps : List Step) (saved : List Nat) :
    Ensures schema.Sound schema.Sound (runScript index steps saved) := by
  induction steps generalizing saved with
  | nil => exact .pure ()
  | cons step rest ih =>
    exact .bind (.onCursor _) fun result =>
      .bind (ensures_modifyMessage fun _ h => h.addAnswer _) fun _ => ih _

/-- A sub-message that is read well is sound, and complete if it merges. -/
theorem ensures_readSub (decoder : Decoder) {levels depth : Nat} {sub : Schema}
    (hvisitor : ∀ tag, Ensures sub.Sound sub.Sound (sub.visitAt decoder levels depth tag))
    (repeated : Bool) :
    Ensures sub.Sound
      (fun target => sub.Sound target ∧
        (repeated = false → sub.isComplete target.message = true))
      (readSub decoder levels depth repeated sub) := by
  intro run ended u hrun h
  cases repeated with
  | true =>
    exact ⟨decoder.ensures_decode hvisitor true run ended u hrun h, nofun⟩
  | false =>
    have hmerge : Ensures sub.Sound
        (fun target => sub.Sound target ∧ sub.isComplete target.message = true)
        (decoder.merge (sub.readableType (sub.visitAt decoder levels depth))) :=
      decoder.ensures_merge rfl hvisitor
    have hended := hmerge run ended u hrun h
    exact ⟨hended.1, fun _ => hended.2⟩

/-- An entry that takes a sub-message is for the schema that it is read by. -/
theorem message_entry_of_take? {tag : Tag} {index : Nat} {repeated : Bool} {sub : Schema}
    (h : schema.take? tag = some (index, .message repeated sub)) :
    ∃ number sub?, schema.entries[index]? = some (.message number repeated sub?) ∧
      sub = sub?.getD schema := by
  obtain ⟨entry, hentry, haction⟩ := take?_eq_some h
  obtain ⟨-, haction⟩ := actionFor?_of_action? haction
  cases entry with
  | scalar number kind packed =>
    simp only [Entry.actionFor?] at haction
    split at haction
    · cases haction
    · split at haction <;> cases haction
  | message number repeated' sub? =>
    simp only [Entry.actionFor?] at haction
    split at haction <;> cases haction
    exact ⟨number, sub?, hentry, rfl⟩
  | script number wireBits steps reply =>
    simp only [Entry.actionFor?] at haction
    split at haction <;> cases haction

/-- What is done with a value keeps the message sound. -/
theorem ensures_act (decoder : Decoder) {levels depth : Nat}
    (hsub : ∀ (sub : Schema) tag,
      Ensures sub.Sound sub.Sound (sub.visitAt decoder levels (depth + 1) tag))
    {tag : Tag} {index : Nat} {action : Action} (htake : schema.take? tag = some (index, action)) :
    Ensures schema.Sound schema.Sound (act decoder levels depth tag index action) := by
  have hnote : Ensures schema.Sound schema.Sound
      (onState (.modifyMessage (.noteField tag.field))) :=
    ensures_modifyMessage fun _ h => h.noteField _
  cases action with
  | value kind =>
    exact .bind (.onCursor _) fun value =>
      .bind (ensures_modifyMessage fun _ h => h.addScalar value) fun _ =>
        .bind hnote fun _ => .pure _
  | packed kind => exact .pure _
  | script steps reply =>
    refine .bind (ensures_runScript index steps []) fun _ => ?_
    split
    · exact .bind hnote fun _ => .pure _
    · exact .bind (.pure _) fun _ => .pure _
  | message repeated sub =>
    obtain ⟨number, sub?, hentry, rfl⟩ := message_entry_of_take? htake
    refine .bind (.onPart (fun target h => Message.Sound.current h hentry)
      (ensures_readSub decoder (hsub _) repeated) fun part target h hpart => ?_) fun _ =>
        .bind hnote fun _ => .pure _
    exact Message.Sound.store h hentry hpart.1 hpart.2

/-- The visitor of a schema keeps messages sound, however many levels it may go through. -/
theorem ensures_visitAt (decoder : Decoder) (levels depth : Nat) (schema : Schema) (tag : Tag) :
    Ensures schema.Sound schema.Sound (schema.visitAt decoder levels depth tag) := by
  induction levels generalizing depth schema tag with
  | zero => exact .throw _
  | succ levels ih =>
    have hrecord : ∀ visit, Ensures schema.Sound schema.Sound (onState (.record visit)) :=
      fun _ => .onState fun _ h => h
    rw [visitAt_succ]
    refine .bind .cursor fun start => .bind (hrecord ⟨depth, tag, start.position⟩) fun _ => ?_
    cases htake : schema.take? tag with
    | none => exact .pure _
    | some taken => exact ensures_act decoder (ih (depth + 1)) htake

theorem ensures_visitor (decoder : Decoder) (schema : Schema) (tag : Tag) :
    Ensures schema.Sound schema.Sound (schema.visitor decoder tag) := by
  intro run ended outcome hrun h
  exact ensures_visitAt decoder _ 0 schema tag run ended outcome hrun h

theorem mem_seen_of_isComplete {message : Message} (h : schema.isComplete message = true) :
    ∀ number ∈ schema.required, number ∈ message.seen := by
  simpa [isComplete] using h

/-- A message that is loaded well was read from blank, and is complete. -/
theorem load_eq_ok {data : Bytes} {target ended : Target}
    (h : decoder.load (schema.messageType decoder) data target = .ok () ended) :
    decoder.decodeBytes (schema.visitor decoder) data ⟨schema.blank, []⟩ = .ok () ended ∧
      schema.isComplete ended.message = true := by
  obtain ⟨_, blanked, hreset, hrest⟩ := bind_eq_ok h
  cases hreset
  obtain ⟨_, read, hread, hrest⟩ := bind_eq_ok hrest
  obtain ⟨state, same, hget, hcheck⟩ := bind_eq_ok hrest
  cases hget
  obtain ⟨hcomplete, rfl⟩ := require_eq_ok hcheck
  exact ⟨hread, hcomplete⟩

/-- A message that is loaded well has taken every field that its schema requires, and so has every
message inside it that merges, whatever was there before. -/
theorem load_complete (decoder : Decoder) (schema : Schema) (data : Bytes) (target ended : Target)
    (h : decoder.load (schema.messageType decoder) data target = .ok () ended) :
    (∀ number ∈ schema.required, number ∈ ended.message.seen) ∧
      ∀ sub held, Message.Encloses schema ended.message false sub held →
        ∀ number ∈ sub.required, number ∈ held.seen := by
  obtain ⟨hread, hcomplete⟩ := load_eq_ok h
  obtain ⟨run, hfields, rfl⟩ := Decoder.fields_of_decodeBytes_eq_ok hread
  have hsound : schema.Sound run.state :=
    decoder.ensures_fields (ensures_visitor decoder schema) ⟨⟨schema.blank, []⟩, .ofBytes data⟩ run
      () (Message.sound_blank schema) hfields
  refine ⟨mem_seen_of_isComplete hcomplete, ?_⟩
  intro sub held hinside
  exact mem_seen_of_isComplete (hsound sub held hinside)

/-- Messages that have to have a number. -/
def partSchema : Schema := ⟨[.scalar (some 5) .uint32 false], [5]⟩

/-- Messages that have to have a number, and hold a part. -/
def boxSchema : Schema :=
  ⟨[.scalar (some 1) .uint32 false, .message (some 2) false (some partSchema)], [1]⟩

/-- Messages that have to have a number, may hold one message of their own kind, and hold boxes. -/
def shelfSchema : Schema :=
  ⟨[.scalar (some 1) .uint32 false, .message (some 2) false none,
    .message (some 3) true (some boxSchema)], [1]⟩

/-- A box with a part, a shelf inside, and a number. -/
def shelfBytes : Bytes :=
  [0x1A, 0x04, 0x12, 0x02, 0x28, 0x03, 0x12, 0x02, 0x08, 0x05, 0x08, 0x07]

/-- Whether a reading ends with a box of one part, and the box lacks the number one. -/
def boxLacksNumber : EStateM.Result DecodeError Target Unit → Bool
  | .ok _ ⟨⟨[_, _, .messages [⟨[_, .messages [_]], seen⟩]], _⟩, _⟩ => !seen.contains 1
  | _ => false

/-- The part in a box has its number, though the box itself lacks the one that it has to have. -/
theorem load_complete_shelf :
    ∃ ended box part,
      Decoder.load {} (shelfSchema.messageType {}) shelfBytes ⟨shelfSchema.blank, []⟩ =
        .ok () ended ∧
      Message.Holds shelfSchema ended.message true boxSchema box ∧ 1 ∉ box.seen ∧
      Message.Holds boxSchema box false partSchema part ∧ 5 ∈ part.seen ∧
      1 ∈ ended.message.seen := by
  have hread : boxLacksNumber (Decoder.load {} (shelfSchema.messageType {}) shelfBytes
      ⟨shelfSchema.blank, []⟩) = true := by decide +kernel
  unfold boxLacksNumber at hread
  split at hread
  · rename_i numbers shelves number part seen numbers' visits hload
    let box : Message := ⟨[number, .messages [part]], seen⟩
    have hbox : Message.Holds shelfSchema ⟨[numbers, shelves, .messages [box]], numbers'⟩ true
        boxSchema box :=
      @Message.Holds.intro _ _ 2 (some 3) true (some boxSchema) _ _ rfl rfl (.head _)
    have hpart : Message.Holds boxSchema box false partSchema part :=
      @Message.Holds.intro _ _ 1 (some 2) false (some partSchema) _ _ rfl rfl (.head _)
    obtain ⟨hnumbers, hinside⟩ := load_complete _ _ _ _ _ hload
    exact ⟨_, _, part, hload, hbox, by simpa using hread, hpart,
      hinside _ part (.within hbox (.direct hpart)) 5 (.head _), hnumbers 1 (.head _)⟩
  · cases hread

end Schema

end WireFormat
