import WireFormat.Proofs.Comparison
import WireFormat.Proofs.SchemaVisitor

/-!
# Reading a value and passing over it

A decoder passes over the values of a visitor that knows no field (`Passes`). For all layouts but
groups that is a single read (`skip_eq_read`), so what a visitor does with a value is compared with
a reader. The reader of a kind takes the bytes that are passed over, or fails with the same error;
only texts may be refused beyond that (`Kind.takes_passer`).
-/

namespace WireFormat

open Decode

variable {σ τ α β γ : Type} {comparison : Comparison} {bound : Nat}

/-! ## Readers that take the same bytes -/

theorem Comparison.Takes.self (reader : Reader α) (src : Bytes) :
    comparison.Takes (reader src) (reader src) := by
  cases reader src with
  | error e => exact .error (comparison.fails_refl e)
  | ok r => exact .ok

/-- What is made of the value does not count. -/
theorem Comparison.Takes.map {reader : Reader α} {src : Bytes}
    {result : Except DecodeError (β × Nat)} (h : comparison.Takes (reader src) result)
    (f : α → γ) : comparison.Takes (reader.map f src) result := by
  unfold Reader.map
  generalize reader src = first at h ⊢
  cases h with
  | ok => exact .ok
  | refused he => exact .refused he
  | error he => exact .error he

theorem Comparison.Takes.map_right {reader : Reader β} {src : Bytes}
    {result : Except DecodeError (α × Nat)} (h : comparison.Takes result (reader src))
    (f : β → γ) : comparison.Takes result (reader.map f src) := by
  unfold Reader.map
  generalize reader src = second at h ⊢
  cases h with
  | ok => exact .ok
  | refused he => exact .refused he
  | error he => exact .error he

/-- A varint occupies the same bytes whatever the width of the word. -/
theorem Comparison.takes_varint {width width' : Nat} (groups groups' : Nat)
    (make : BitVec width → α) (make' : BitVec width' → β) (src : Bytes) :
    comparison.Takes (Reader.varint groups make src) (Reader.varint groups' make' src) := by
  unfold Reader.varint Varint.decodeAs
  cases Varint.extent src with
  | error e => exact .error (comparison.fails_refl _)
  | ok n => exact .ok

theorem Comparison.takes_text_lengthDelimited
    (hrefuses : ∀ offset validUpTo, comparison.refuses (.invalidEncoding offset validUpTo))
    (src : Bytes) : comparison.Takes (Reader.text src) (Reader.lengthDelimited src) := by
  unfold Reader.text
  cases Reader.lengthDelimited src with
  | error e => exact .error (comparison.fails_refl e)
  | ok r =>
    obtain ⟨bytes, n⟩ := r
    simp only
    cases Utf8.decode bytes with
    | ok text => exact .ok
    | error validUpTo => exact .refused (hrefuses _ _)

/-! ## Passing over values -/

/-- The reader that passes over a value, if it is not a group. -/
def WireType.passer? : WireType → Option (Reader Unit)
  | .varint => some (Reader.uint64.map fun _ => ())
  | .fixed32 => some (Reader.skip 4)
  | .fixed64 => some (Reader.skip 8)
  | .lengthDelimited => some (Reader.lengthDelimited.map fun _ => ())
  | .groupStart | .groupEnd | .invalid _ => none

namespace Decoder

theorem skipStep_eq_map (decoder : Decoder) {tag : Tag} {passer : Reader Unit}
    (h : tag.wireType.passer? = some passer) (opened : List UInt32) :
    decoder.skipStep tag opened = passer.map fun _ => opened := by
  unfold skipStep
  cases hwire : tag.wireType <;> rw [hwire] at h <;> cases h
  · exact (Reader.map_map Reader.uint64 (fun _ => ()) fun _ => opened).symm
  · rfl
  · exact (Reader.map_map Reader.lengthDelimited (fun _ => ()) fun _ => opened).symm
  · rfl

/-- Values that are not groups are passed over in one read. -/
theorem skip_eq_read (decoder : Decoder) {tag : Tag} {passer : Reader Unit}
    (h : tag.wireType.passer? = some passer) : decoder.skip tag = Cursor.read passer := by
  funext c
  unfold skip Cursor.pass Cursor.read skipBytes
  rw [skipStep_eq_map decoder h]
  unfold Reader.map
  cases passer c.window with
  | error e => rfl
  | ok r =>
    obtain ⟨u, n⟩ := r
    simp only [skipOpened_nil]
    rfl

end Decoder

/-- The reader of a kind takes what is passed over, but for texts that it refuses. -/
theorem Kind.takes_passer (kind : Kind)
    (htext : kind = .string →
      ∀ offset validUpTo, comparison.refuses (.invalidEncoding offset validUpTo)) :
    ∃ passer, kind.wireType.passer? = some passer ∧
      ∀ src, comparison.Takes (kind.reader src) (passer src) := by
  cases kind with
  | int32 | sint32 =>
    exact ⟨_, rfl, fun src => (((Comparison.takes_varint _ _ _ _ src).map _).map _).map_right _⟩
  | uint32 => exact ⟨_, rfl, fun src => ((Comparison.takes_varint _ _ _ _ src).map _).map_right _⟩
  | uint64 => exact ⟨_, rfl, fun src => ((Comparison.Takes.self _ src).map _).map_right _⟩
  | sint64 | bool =>
    exact ⟨_, rfl, fun src => (((Comparison.Takes.self Reader.uint64 src).map _).map _).map_right _⟩
  | fixed32 | sfixed32 | float =>
    exact ⟨_, rfl, fun src => (((Comparison.Takes.self _ src).map _).map _).map_right _⟩
  | fixed64 | sfixed64 | double =>
    exact ⟨_, rfl, fun src => (((Comparison.Takes.self _ src).map _).map _).map_right _⟩
  | string =>
    exact ⟨_, rfl, fun src =>
      ((Comparison.takes_text_lengthDelimited (htext rfl) src).map _).map_right _⟩
  | bytes => exact ⟨_, rfl, fun src => ((Comparison.Takes.self _ src).map _).map_right _⟩

/-- A visitor that knows no field. -/
def Visitor.Passes (visitor : Visitor σ) : Prop :=
  ∀ tag (run : Run σ), ∃ state, visitor tag run = .ok .unrecognized ⟨state, run.cursor⟩

theorem Decoder.compares_passing {decoder : Decoder} {tag : Tag} {body : Decode σ Unit}
    {visitor' : Visitor τ} (hpasses : visitor'.Passes)
    (h : Compares comparison bound body (onCursor (decoder.skip tag) : Decode τ Unit)) :
    Compares comparison bound body (visitor' tag >>= decoder.settle visitor' tag) := by
  intro run run' hc hvalid hbound
  obtain ⟨state, hvisitor⟩ := hpasses tag run'
  rw [bind_apply, hvisitor]
  exact h run ⟨state, run'.cursor⟩ hc hvalid hbound

/-- The fields of a payload, read by one visitor and passed over by another. -/
theorem Decoder.compares_payload (decoder : Decoder) {visitor : Visitor σ} {visitor' : Visitor τ}
    (hkeeps : ∀ tag, Keeps .advancing (visitor tag)) (hpasses : visitor'.Passes)
    (h : ∀ bound tag, Compares comparison bound (visitor tag >>= decoder.settle visitor tag)
      (onCursor (decoder.skip tag) : Decode τ Unit)) (data : Bytes) (state : σ) (state' : τ) :
    comparison.Ends (decoder.fields visitor ⟨state, .ofBytes data⟩)
      (decoder.fields visitor' ⟨state', .ofBytes data⟩) := by
  have hfields : Compares comparison (data.length + 1) (decoder.fields visitor)
      (decoder.fields visitor') :=
    compares_fields decoder hkeeps fun tag => compares_passing hpasses (h _ tag)
  exact hfields _ _ rfl (Cursor.ofBytes_valid data) (Nat.lt_succ_self _)

/-! ## Schemas -/

namespace Schema

variable {decoder : Decoder} {visitor : Visitor Target} {schema : Schema} {tag : Tag}

/-- What the visitor of a schema does with a value that no entry takes is nothing, so it is what it
does with the others that is compared. -/
theorem compares_visitAt {levels depth : Nat}
    (h : ∀ index action, schema.take? tag = some (index, action) →
      Compares comparison bound
        (act decoder levels depth tag index action >>= decoder.settle visitor tag)
        (onCursor (decoder.skip tag) : Decode τ Unit)) :
    Compares comparison bound
      (schema.visitAt decoder (levels + 1) depth tag >>= decoder.settle visitor tag)
      (onCursor (decoder.skip tag) : Decode τ Unit) := by
  rw [visitAt_succ, bind_assoc]
  refine .preceded .cursor fun start => ?_
  rw [bind_assoc]
  refine .preceded (.onState _) fun _ => ?_
  cases htake : schema.take? tag with
  | none => exact .onCursor _
  | some taken => exact h taken.1 taken.2 htake

theorem compares_visitor
    (h : ∀ levels index action, schema.take? tag = some (index, action) →
      Compares comparison (levels + 1)
        (act decoder levels 0 tag index action >>= decoder.settle visitor tag)
        (onCursor (decoder.skip tag) : Decode τ Unit)) :
    Compares comparison bound (schema.visitor decoder tag >>= decoder.settle visitor tag)
      (onCursor (decoder.skip tag) : Decode τ Unit) := by
  intro run run' hc hvalid _
  have hless := schema.remaining_lt_levels hvalid
  obtain ⟨levels, hlevels⟩ :=
    Nat.exists_eq_add_of_le' (Nat.lt_of_le_of_lt (Nat.zero_le _) hless)
  have hvisit : (schema.visitor decoder tag >>= decoder.settle visitor tag) run =
      (schema.visitAt decoder (levels + 1) 0 tag >>= decoder.settle visitor tag) run := by
    rw [bind_apply, bind_apply, Schema.visitor, hlevels]
  rw [hvisit]
  exact compares_visitAt (h levels) run run' hc hvalid (hlevels ▸ hless)

/-- A single value is read and kept. -/
theorem compares_value {levels depth index : Nat} {kind : Kind}
    (hwire : tag.wireType = kind.wireType)
    (htext : kind = .string →
      ∀ offset validUpTo, comparison.refuses (.invalidEncoding offset validUpTo)) :
    Compares comparison bound
      (act decoder levels depth tag index (.value kind) >>= decoder.settle visitor tag)
      (onCursor (decoder.skip tag) : Decode τ Unit) := by
  obtain ⟨passer, hpasser, htakes⟩ := kind.takes_passer htext
  rw [decoder.skip_eq_read (hwire ▸ hpasser), act, bind_assoc]
  refine .followed (.read htakes) fun value => ?_
  simp only [bind_assoc, pure_bind, Decoder.settle]
  exact .bind (.onState _) fun _ => .bind (.onState _) fun _ => .pure ()

end Schema

end WireFormat
