import WireFormat.Proofs.LocatedRuns
import WireFormat.Proofs.Scalar

/-!
# Visitors of schemas are dutiful

The visitor of a schema without scripts gives a decoder what it relies on: its errors point into the
bytes, and an element of a packed run that it reads has a byte at least. The elements that it
announces are never length-delimited, so among the entries that take them there is no message and no
further packed run (`dutiful_visitor`).
-/

namespace WireFormat

open Decode

/-! ## Values have bytes -/

namespace Reader

/-- A reader takes a byte at least. -/
def Consumes {α : Type} (reader : Reader α) : Prop :=
  ∀ src a n, reader src = .ok (a, n) → 0 < n

theorem Consumes.map {α β : Type} {reader : Reader α} (h : reader.Consumes) (f : α → β) :
    (reader.map f).Consumes := by
  intro src b n hb
  obtain ⟨a, ha, -⟩ := map_eq_ok_iff.1 hb
  exact h src a n ha

theorem consumes_varint {α : Type} {width : Nat} (groups : Nat) (make : BitVec width → α) :
    (varint groups make).Consumes := fun _ _ _ h => (varint_bounds h).1

theorem consumes_exactly {count : Nat} (hcount : 0 < count) : (exactly count).Consumes := by
  intro src bytes n h
  rw [(exactly_eq_ok_iff.1 h).1]
  exact hcount

theorem consumes_lengthDelimited : lengthDelimited.Consumes := by
  intro src body n h
  obtain ⟨k, length, hlength, rfl, -⟩ := lengthDelimited_eq_ok_iff.1 h
  exact Nat.lt_of_lt_of_le (consumes_varint _ _ _ _ _ hlength) (Nat.le_add_right _ _)

theorem consumes_text : text.Consumes := by
  intro src s n h
  obtain ⟨bytes, hbytes, -⟩ := text_eq_ok_iff.1 h
  exact consumes_lengthDelimited _ _ _ hbytes

end Reader

/-- Every kind of value has a byte at least. -/
theorem Kind.consumes_reader (kind : Kind) : kind.reader.Consumes :=
  Kind.reader_induction (P := Reader.Consumes) (fun h f => h.map f)
    (fun make _ _ => Reader.consumes_varint _ make)
    (fun _ hcount _ => Reader.consumes_exactly hcount) Reader.consumes_lengthDelimited
    Reader.consumes_text kind

theorem Tag.toNat_field_lt (tag : Tag) : tag.field.toNat < 2 ^ 29 := by
  have hraw := tag.raw.toNat_lt
  rw [field, UInt32.toNat_shiftRight]
  simp only [UInt32.reduceToNat, Nat.reduceMod, Nat.shiftRight_eq_div_pow, Nat.reducePow]
  omega

theorem Tag.wireType_element (tag : Tag) (kind : Kind) :
    (Tag.of tag.field kind.wireType).wireType = kind.wireType :=
  wireType_of tag.toNat_field_lt kind.bits_wireType_lt kind.ofBits_bits_wireType

/-! ## What a visit answers -/

namespace Schema

variable {decoder : Decoder} {schema : Schema} {levels depth index : Nat} {tag : Tag}

theorem act_value_eq_ok {kind : Kind} {run after : Run Target} {outcome : Outcome}
    (h : act decoder levels depth tag index (.value kind) run = .ok outcome after) :
    outcome = .handled ∧ run.cursor.position < after.cursor.position := by
  obtain ⟨value, mid, hread, hrest⟩ := bind_eq_ok h
  obtain ⟨n, hn, rfl⟩ := read_eq_ok hread
  cases hrest
  exact ⟨rfl, Nat.lt_add_of_pos_right (kind.consumes_reader _ _ _ hn)⟩

/-- What a visit answers, by the action that the schema has for the tag. -/
theorem visitAt_eq_ok (hs : schema.ScriptFree) {run after : Run Target} {outcome : Outcome}
    (h : schema.visitAt decoder levels depth tag run = .ok outcome after) :
    outcome = .unrecognized ∨
      (tag.wireType = .lengthDelimited ∧ (outcome = .handled ∨
        ∃ kind : Kind, outcome = .packed (Tag.of tag.field kind.wireType) ∧
          kind.wireType ≠ .lengthDelimited)) ∨
      outcome = .handled ∧ run.cursor.position < after.cursor.position := by
  cases levels with
  | zero => cases h
  | succ levels =>
    rw [visitAt_succ] at h
    obtain ⟨start, mid, hstart, h⟩ := bind_eq_ok h
    cases hstart
    obtain ⟨u, mid, hrecord, h⟩ := bind_eq_ok h
    cases hrecord
    cases htake : schema.take? tag with
    | none =>
      rw [htake] at h
      cases h
      exact .inl rfl
    | some taken =>
      obtain ⟨index, action⟩ := taken
      have hsuits := suits_of_take? htake
      rw [htake] at h
      rcases hs.action_cases htake with ⟨kind, rfl⟩ | ⟨kind, rfl⟩ | ⟨repeated, sub, rfl, -⟩
      · obtain ⟨houtcome, hmoved⟩ := act_value_eq_ok h
        exact .inr (.inr ⟨houtcome, hmoved⟩)
      · cases h
        exact .inr (.inl ⟨hsuits.1, .inr ⟨kind, rfl, hsuits.2⟩⟩)
      · obtain ⟨_, mid, -, hrest⟩ := bind_eq_ok h
        cases hrest
        exact .inr (.inl ⟨hsuits, .inl rfl⟩)

theorem takesElement_visitAt (hs : schema.ScriptFree) {element : Tag}
    (hwire : element.wireType ≠ .lengthDelimited) :
    (schema.visitAt decoder levels depth).TakesElement element := by
  intro run outcome after _ h
  rcases visitAt_eq_ok hs h with houtcome | ⟨hpacked, -⟩ | hmoved
  · exact .inl houtcome
  · exact absurd hpacked hwire
  · exact .inr hmoved

/-- The elements of a packed run are never length-delimited. -/
theorem wireType_of_visitAt_packed (hs : schema.ScriptFree) {run after : Run Target} {element : Tag}
    (h : schema.visitAt decoder levels depth tag run = .ok (.packed element) after) :
    element.wireType ≠ .lengthDelimited := by
  rcases visitAt_eq_ok hs h with h | ⟨-, h | ⟨kind, h, hkind⟩⟩ | ⟨h, -⟩ <;> cases h
  rwa [Tag.wireType_element]

/-! ## Levels enough -/

theorem locates_readSub {bound : Nat} {sub : Schema}
    (h : Visitor.Dutiful decoder bound (sub.visitAt decoder levels depth)) (repeated : Bool) :
    Locates decoder 0 (bound + 1) (readSub decoder levels depth repeated sub) := by
  cases repeated with
  | true => exact Decoder.locates_decode_delimited h
  | false =>
    show Locates decoder 0 (bound + 1) (decoder.merge (sub.readableType _))
    exact Decoder.locates_merge h rfl

/-- The visitor of a schema without scripts is dutiful, with a level for each byte. -/
theorem dutiful_visitAt (decoder : Decoder) : ∀ (bound levels depth : Nat) {schema : Schema},
    schema.ScriptFree → bound ≤ levels →
    Visitor.Dutiful decoder bound (schema.visitAt decoder levels depth) := by
  -- a sub-message uses up a level, and a byte
  intro bound
  induction bound with
  | zero =>
    intro levels depth schema hs _
    exact ⟨keeps_visitAt decoder levels depth hs,
      fun tag run _ _ _ hbound => absurd hbound (Nat.not_lt_zero _),
      fun tag run element after h => takesElement_visitAt hs (wireType_of_visitAt_packed hs h)⟩
  | succ bound ih =>
    intro levels depth schema hs hlevels
    refine ⟨keeps_visitAt decoder levels depth hs, fun tag => ?_,
      fun tag run element after h => takesElement_visitAt hs (wireType_of_visitAt_packed hs h)⟩
    obtain ⟨levels, rfl⟩ := Nat.exists_eq_add_of_le' (Nat.le_trans (Nat.succ_pos bound) hlevels)
    rw [visitAt_succ]
    refine .cursor_bind fun start => .bind (.onState _) (.onState _) fun _ _ => ?_
    cases htake : schema.take? tag with
    | none => exact .pure _
    | some taken =>
      obtain ⟨index, action⟩ := taken
      rcases hs.action_cases htake with ⟨kind, rfl⟩ | ⟨kind, rfl⟩ | ⟨repeated, sub, rfl, hsub⟩
      · exact .bind (.read kind.locates_reader) (.read kind.orderly_reader) fun _ _ =>
          .bind (.onState _) (.onState _) fun _ _ => .bind (.onState _) (.onState _) fun _ _ =>
            .pure _
      · exact .pure _
      · have hdutiful := ih levels (depth + 1) hsub (Nat.le_of_succ_le_succ hlevels)
        exact .bind (.onPart (locates_readSub hdutiful repeated))
          (.onPart (keeps_readSub decoder hdutiful.keeps repeated)) fun _ _ =>
            .bind (.onState _) (.onState _) fun _ _ => .pure _

theorem takesElement_visitor (decoder : Decoder) (hs : schema.ScriptFree) {element : Tag}
    (hwire : element.wireType ≠ .lengthDelimited) :
    (schema.visitor decoder).TakesElement element := by
  intro run outcome after hc h
  exact takesElement_visitAt hs hwire run outcome after hc h

theorem dutiful_visitor (decoder : Decoder) (hs : schema.ScriptFree) (bound : Nat) :
    Visitor.Dutiful decoder bound (schema.visitor decoder) := by
  refine ⟨keeps_visitor decoder hs, fun tag run e after hc _ h => ?_, fun tag run element after h =>
    takesElement_visitor decoder hs (wireType_of_visitAt_packed hs h)⟩
  exact (dutiful_visitAt decoder (run.cursor.remaining + 1) _ 0 hs
    (schema.remaining_lt_levels hc)).locates tag run e after hc (Nat.lt_succ_self _) h

end Schema

end WireFormat
