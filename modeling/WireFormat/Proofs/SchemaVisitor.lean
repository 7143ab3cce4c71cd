import WireFormat.Proofs.Motion
import WireFormat.Schema.Encoding
import WireFormat.Schema.Shape

/-!
# The visitor of a schema

What `Schema.take?` finds is an entry of the schema, and without scripts each action is a read, a
packed run or a sub-message whose schema is free of scripts again. A visitor of such a schema does
with the cursor what the decoder does and nothing else (`keeps_visitAt`).
-/

namespace WireFormat

namespace Schema

variable {schema : Schema} {tag : Tag} {index : Nat} {action : Action}

/-! ## Which entry takes a tag -/

theorem take?_eq_some (h : schema.take? tag = some (index, action)) :
    ∃ entry, schema.entries[index]? = some entry ∧ entry.action? schema tag = some action := by
  obtain ⟨⟨entry, i⟩, hmem, hentry⟩ := List.exists_of_findSome?_eq_some h
  obtain ⟨action', haction, heq⟩ := Option.map_eq_some_iff.1 hentry
  cases heq
  exact ⟨entry, List.mem_zipIdx_iff_getElem?.1 hmem, haction⟩

theorem actionFor?_of_action? {entry : Entry Schema} (h : entry.action? schema tag = some action) :
    entry.fits tag.field = true ∧ entry.actionFor? schema tag = some action := by
  unfold Entry.action? at h
  by_cases hfits : entry.fits tag.field
  · rw [if_pos hfits] at h
    exact ⟨hfits, h⟩
  · rw [if_neg hfits] at h
    cases h

/-- The first entry that is for a field takes it, if it does anything with its layout. -/
theorem take?_eq_some_of {before after : List (Entry Schema)} {entry : Entry Schema}
    (hentries : schema.entries = before ++ entry :: after)
    (hbefore : ∀ other ∈ before, other.fits tag.field = false)
    (hfits : entry.fits tag.field = true) (haction : entry.actionFor? schema tag = some action) :
    schema.take? tag = some (before.length, action) := by
  refine List.findSome?_eq_some_iff.2 ⟨before.zipIdx, (entry, before.length),
    after.zipIdx (before.length + 1), ?_, ?_, fun x hx => ?_⟩
  · rw [hentries, List.zipIdx_append, List.zipIdx_cons, Nat.zero_add]
  · show (entry.action? schema tag).map _ = _
    rw [Entry.action?, if_pos hfits, haction]
    rfl
  · obtain ⟨other, i⟩ := x
    show (other.action? schema tag).map _ = _
    rw [Entry.action?, hbefore other (List.fst_mem_of_mem_zipIdx hx)]
    rfl

/-- An action goes with a layout: a packed run is always of values that have another layout. -/
def Suits (wire : WireType) : Action → Prop
  | .value kind => wire = kind.wireType
  | .packed kind => wire = .lengthDelimited ∧ kind.wireType ≠ .lengthDelimited
  | .message _ _ => wire = .lengthDelimited
  | .script _ _ => True

/-- What is done with a field goes with its layout. -/
theorem suits_of_take? (h : schema.take? tag = some (index, action)) :
    Suits tag.wireType action := by
  obtain ⟨entry, -, haction⟩ := take?_eq_some h
  obtain ⟨-, haction⟩ := actionFor?_of_action? haction
  cases entry with
  | scalar number kind packed =>
    simp only [Entry.actionFor?] at haction
    split at haction
    · rename_i hwire
      cases haction
      exact hwire
    · rename_i hother
      split at haction <;> cases haction
      rename_i hpacked
      have hwire : tag.wireType = .lengthDelimited := by simp_all
      exact ⟨hwire, fun hkind => hother (hwire.trans hkind.symm)⟩
  | message number repeated sub =>
    simp only [Entry.actionFor?] at haction
    split at haction <;> cases haction
    assumption
  | script number wireBits steps reply =>
    simp only [Entry.actionFor?] at haction
    split at haction <;> cases haction
    trivial

/-- Without scripts a field is a value, a packed run, or a sub-message without scripts. -/
theorem ScriptFree.action_cases (hs : schema.ScriptFree)
    (h : schema.take? tag = some (index, action)) :
    (∃ kind, action = .value kind) ∨ (∃ kind, action = .packed kind) ∨
      ∃ repeated sub, action = .message repeated sub ∧ sub.ScriptFree := by
  obtain ⟨entry, hget, haction⟩ := take?_eq_some h
  obtain ⟨-, haction⟩ := actionFor?_of_action? haction
  have hmem := List.mem_of_getElem? hget
  cases entry with
  | scalar number kind packed =>
    simp only [Entry.actionFor?] at haction
    split at haction
    · cases haction
      exact .inl ⟨kind, rfl⟩
    · split at haction <;> cases haction
      exact .inr (.inl ⟨kind, rfl⟩)
  | message number repeated sub? =>
    simp only [Entry.actionFor?] at haction
    split at haction <;> cases haction
    refine .inr (.inr ⟨repeated, _, rfl, ?_⟩)
    cases sub? with
    | none => exact hs
    | some sub =>
      obtain ⟨-, hsubs⟩ := hs
      exact hsubs _ _ _ hmem
  | script number wireBits steps reply =>
    obtain ⟨hentries, -⟩ := hs
    exact absurd hmem (hentries _ _ _ _)

end Schema

/-! ## What the visitor does with the cursor -/

/-- The readers of all kinds are made from readers of varints, of so many bytes and of what is
behind a length. -/
theorem Kind.reader_induction {P : ∀ {α : Type}, Reader α → Prop}
    (hmap : ∀ {α β : Type} {reader : Reader α}, P reader → ∀ f : α → β, P (reader.map f))
    (hvarint : ∀ {α : Type} {width groups : Nat} (make : BitVec width → α), 7 ≤ width →
      width ≤ 7 * groups → P (Reader.varint groups make))
    (hexactly : ∀ count : Nat, 0 < count → count ≤ 8 → P (Reader.exactly count))
    (hbytes : P Reader.lengthDelimited) (htext : P Reader.text) (kind : Kind) : P kind.reader := by
  have huint32 : P Reader.uint32 := hvarint _ (by decide) (by decide)
  have huint64 : P Reader.uint64 := hvarint _ (by decide) (by decide)
  have hfixed32 : P Reader.fixed32 := hmap (hexactly 4 (by decide) (by decide)) _
  have hfixed64 : P Reader.fixed64 := hmap (hexactly 8 (by decide) (by decide)) _
  cases kind with
  | int32 | sint32 => exact hmap (hmap huint32 _) _
  | uint32 => exact hmap huint32 _
  | uint64 => exact hmap huint64 _
  | sint64 | bool => exact hmap (hmap huint64 _) _
  | fixed32 | sfixed32 | float => exact hmap hfixed32 _
  | fixed64 | sfixed64 | double => exact hmap hfixed64 _
  | string => exact hmap htext _
  | bytes => exact hmap hbytes _

theorem Kind.orderly_reader (kind : Kind) : kind.reader.Orderly :=
  Kind.reader_induction (P := Reader.Orderly) (fun h f => h.map f)
    (fun make _ _ => Reader.orderly_varint _ make) (fun count _ _ => Reader.orderly_exactly count)
    Reader.orderly_lengthDelimited Reader.orderly_text kind

open Decode

variable {motion : Motion}

namespace Schema

/-- Reads a sub-message, with so many levels of messages below. -/
def readSub (decoder : Decoder) (levels depth : Nat) (repeated : Bool) (sub : Schema) :
    Decode Target Unit :=
  if repeated then decoder.decode (sub.visitAt decoder levels depth) true
  else decoder.merge (sub.readableType (sub.visitAt decoder levels depth))

/-- What is done with the value of a field that an entry takes, with so many levels of messages
below. -/
def act (decoder : Decoder) (levels depth : Nat) (tag : Tag) (index : Nat) :
    Action → Decode Target Outcome
  | .value kind => do
    let value ← onCursor (Cursor.read kind.reader)
    onState (.modifyMessage (.modifySlot index (.addScalar value)))
    onState (.modifyMessage (.noteField tag.field))
    return .handled
  | .packed kind => return .packed (Tag.of tag.field kind.wireType)
  | .message repeated sub => do
    onPart (.subTarget index repeated sub.blank) (.storeSub index repeated)
      (readSub decoder levels (depth + 1) repeated sub)
    onState (.modifyMessage (.noteField tag.field))
    return .handled
  | .script steps reply => do
    runScript index steps []
    if reply = .handled then
      onState (.modifyMessage (.noteField tag.field))
    return reply

theorem visitAt_succ (decoder : Decoder) (levels depth : Nat) (schema : Schema) (tag : Tag) :
    schema.visitAt decoder (levels + 1) depth tag = (do
      let start ← cursor
      onState (.record ⟨depth, tag, start.position⟩)
      match schema.take? tag with
      | none => return .unrecognized
      | some (index, action) => act decoder levels depth tag index action) := by
  rw [visitAt]
  dsimp only
  congr 1
  funext start
  congr 1
  funext _
  cases schema.take? tag with
  | none => rfl
  | some taken =>
    obtain ⟨index, action⟩ := taken
    cases action <;> rfl

theorem keeps_readSub (decoder : Decoder) {levels depth : Nat} {sub : Schema}
    (hvisitor : ∀ tag, Keeps motion (sub.visitAt decoder levels depth tag)) (repeated : Bool) :
    Keeps motion (readSub decoder levels depth repeated sub) := by
  cases repeated with
  | true => exact Decoder.keeps_decode decoder hvisitor true
  | false =>
    show Keeps motion (decoder.merge (sub.readableType _))
    refine Decoder.keeps_merge decoder fun visitor h => ?_
    cases h
    exact hvisitor

/-- The visitor of a schema without scripts moves the cursor as the decoder does. -/
theorem keeps_visitAt (decoder : Decoder) : ∀ (levels depth : Nat) {schema : Schema},
    schema.ScriptFree → ∀ tag, Keeps motion (schema.visitAt decoder levels depth tag) := by
  intro levels
  -- a sub-message has one level less, at another depth and of another schema
  induction levels with
  | zero =>
    intro depth schema _ tag
    exact .throw _
  | succ levels ih =>
    intro depth schema hs tag
    rw [visitAt_succ]
    refine .bind .cursor fun start => .bind (.onState _) fun _ => ?_
    cases htake : schema.take? tag with
    | none => exact .pure _
    | some taken =>
      obtain ⟨index, action⟩ := taken
      rcases hs.action_cases htake with ⟨kind, rfl⟩ | ⟨kind, rfl⟩ | ⟨repeated, sub, rfl, hsub⟩
      · exact .bind (.read kind.orderly_reader) fun _ => .bind (.onState _) fun _ =>
          .bind (.onState _) fun _ => .pure _
      · exact .pure _
      · exact .bind (.onPart (keeps_readSub decoder (ih (depth + 1) hsub) repeated)) fun _ =>
          .bind (.onState _) fun _ => .pure _

theorem size_pos (schema : Schema) : 0 < schema.size := by
  obtain ⟨entries, required⟩ := schema
  rw [size]
  exact Nat.succ_pos _

/-- There are levels enough for a sub-message at every byte. -/
theorem remaining_lt_levels (schema : Schema) {run : Run Target} (hc : run.cursor.Valid) :
    run.cursor.remaining < schema.levels run := by
  have hplaces := hc.remaining_lt_places
  have hsize := Nat.le_mul_of_pos_right run.cursor.places schema.size_pos
  unfold levels
  omega

/-- A field that no entry takes is recorded and left. -/
theorem visitor_unknown (decoder : Decoder) {schema : Schema} {tag : Tag}
    (h : schema.take? tag = none) (run : Run Target) :
    schema.visitor decoder tag run =
      .ok .unrecognized ⟨run.state.record ⟨0, tag, run.cursor.position⟩, run.cursor⟩ := by
  have hpos : 0 < schema.levels run :=
    Nat.add_pos_right _ (Nat.mul_pos (by decide)
      (Nat.mul_pos (Nat.mul_pos (Nat.succ_pos _) (Nat.succ_pos _)) schema.size_pos))
  obtain ⟨levels, hlevels⟩ := Nat.exists_eq_add_of_le' hpos
  rw [visitor, hlevels, visitAt_succ, h]
  rfl

theorem keeps_visitor (decoder : Decoder) {schema : Schema} (hs : schema.ScriptFree) (tag : Tag) :
    Keeps motion (schema.visitor decoder tag) := by
  intro run hc
  exact keeps_visitAt decoder _ 0 hs tag run hc

end Schema

end WireFormat
