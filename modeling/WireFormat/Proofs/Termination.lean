import WireFormat.Proofs.Course
import WireFormat.Proofs.Dutiful

/-!
# Decoding ends

The courses of a decoder have loops without a bound, and ranges whose counts may overflow. For a
visitor that goes on and lowers limits at most they come to one end, even if the visitor takes no
bytes itself: a round of fields takes the bytes of a tag, and a round of elements fails if it takes
none. Passing over a value has no bound on its rounds: it is a recursion along the bytes, whatever
groups are in them.

An overflow takes a visitor that wants more bytes behind the end of a range than a word can count
from its start. With other visitors, and where words are cut off, decoding ends as the decoder says
(`Visitor.Calm`). `Decoder.decode_ends` puts this together with the calls of the visitor, which are
no more than the bytes up to the limit.
-/

namespace WireFormat

open Decode

variable {σ : Type}

/-- A region has more places than bytes. -/
theorem Cursor.length_le_places (c : Cursor) : c.region.length ≤ c.places :=
  Nat.le_trans (Nat.le_succ _) (Nat.le_mul_of_pos_right _ (Nat.succ_pos _))

/-! ## Where nothing overflows -/

namespace Visitor

/-- No count overflows: it is cut off to a word, or the visitor wants what can be counted. -/
def Calm (visitor : Visitor σ) (arithmetic : Arithmetic) (region : Bytes) : Prop :=
  arithmetic = .wrapping ∨ (∀ tag, Counts (visitor tag)) ∧ region.length < 2 ^ 63

variable {visitor : Visitor σ} {arithmetic : Arithmetic}

/-- What counts if the visitor does has no overflow that is found out. -/
theorem Calm.not_overflows {body : Decode σ Unit} {run : Run σ}
    (h : visitor.Calm arithmetic run.cursor.region) (hchecked : arithmetic = .checked)
    (hkeeps : Keeps .narrowing body) (hcounts : (∀ tag, Counts (visitor tag)) → Counts body)
    (hc : run.cursor.Valid) : ¬ Overflows run.cursor (body run) := by
  rcases h with hwraps | ⟨hvisitor, hsmall⟩
  · rw [hchecked] at hwraps
    cases hwraps
  · exact (hcounts hvisitor).not_overflows hkeeps hc hsmall

end Visitor

/-! ## The courses of a decoder -/

namespace Decoder

/-- A packed run whose elements are read for as long as bytes are left. -/
def packedRunCourse (decoder : Decoder) (arithmetic : Arithmetic) (visitor : Visitor σ)
    (element : Tag) : Course σ :=
  .behind (onCursor (Cursor.read Reader.uint32)) fun length =>
    .inRange arithmetic length.toNat
      (.loop (fun c => !c.isExhausted) (.of (decoder.packedElement visitor element)))

/-- A field, which may be a packed run. -/
def fieldCourse (decoder : Decoder) (arithmetic : Arithmetic) (visitor : Visitor σ) : Course σ :=
  .behind (onCursor (Cursor.read Reader.tag)) fun tag =>
    .behind (visitor tag) fun
      | .handled => .of (pure ())
      | .unrecognized => .of (onCursor (decoder.skip tag))
      | .packed element => decoder.packedRunCourse arithmetic visitor element

/-- Fields that are read until the position reaches the limit that the cursor has at the start. -/
def fieldsCourse (decoder : Decoder) (arithmetic : Arithmetic) (visitor : Visitor σ) : Course σ :=
  fun run => Course.loop (fun c => c.position < run.cursor.limit)
    (decoder.fieldCourse arithmetic visitor) run

/-- The fields up to the limit, or those in the bytes behind a length prefix. -/
def decodeCourse (decoder : Decoder) (arithmetic : Arithmetic) (visitor : Visitor σ)
    (delimited : Bool) : Course σ :=
  if delimited then
    .behind (onCursor (Cursor.read Reader.uint32)) fun length =>
      .behind (decoder.checkLength length.toNat) fun _ =>
        .inRange arithmetic length.toNat (decoder.fieldsCourse arithmetic visitor)
  else
    .behind cursor fun start =>
      .behind (decoder.checkLength start.remaining) fun _ =>
        decoder.fieldsCourse arithmetic visitor

variable (decoder : Decoder) {arithmetic : Arithmetic} {visitor : Visitor σ}

/-! ## Notes -/

section

variable (hvisitor : ∀ tag, Keeps .narrowing (visitor tag))
include hvisitor

theorem determined_packedRun (element : Tag) :
    Course.Determined (visitor.Calm arithmetic)
      (decoder.packedRunCourse arithmetic visitor element) (decoder.packedRun visitor element) := by
  have helements : Course.Determined (visitor.Calm arithmetic)
      (.loop (fun c => !c.isExhausted) (.of (decoder.packedElement visitor element)))
      (decoder.elements visitor element) := by
    intro run hc
    -- an element is read inside the range, which lies inside the region
    refine Course.Determined.loop (fun c hc hregion hmore => ?_) (.of _)
      (keeps_packedElement decoder hvisitor element)
      (fun run next => packedElement_progress decoder hvisitor element) _ hc rfl ?_
    · have hless := Cursor.not_isExhausted_iff.1 hmore
      rw [← hregion]
      exact Nat.lt_of_lt_of_le hless hc.2
    · exact Nat.le_trans (Nat.sub_le _ _) run.cursor.length_le_places
  refine .behind (.read Reader.orderly_uint32) fun _ length _ _ => .inRange helements
    (fun hchecked run hc hcalm => hcalm.not_overflows hchecked ?_ ?_ hc) _
  · exact .bind .cursor fun _ => .repeatWhile (keeps_packedElement decoder hvisitor element) _
  · exact fun h => counts_elements decoder (fun tag => ⟨hvisitor tag, h tag⟩) element

section

variable {calm : Bytes → Prop}
  (hruns : ∀ tag run element after, visitor tag run = .ok (.packed element) after →
    Course.Determined calm (decoder.packedRunCourse arithmetic visitor element)
      (decoder.packedRun visitor element))
include hruns

/-- Where the packed runs that a visitor answers are determined, so are the fields. -/
theorem determined_fields :
    Course.Determined calm (decoder.fieldsCourse arithmetic visitor) (decoder.fields visitor) := by
  have hfield : Course.Determined calm (decoder.fieldCourse arithmetic visitor)
      (decoder.field visitor) := by
    rw [field_eq]
    refine .behind (.read Reader.orderly_tag) fun _ tag _ _ =>
      .behind (hvisitor tag) fun run outcome after houtcome => ?_
    cases outcome with
    | handled => exact .of _
    | unrecognized => exact .of _
    | packed element => exact hruns tag run element after houtcome
  intro run hc
  refine Course.Determined.loop (fun c _ hregion hmore => ?_) hfield (keeps_field decoder hvisitor)
    (fun run next => field_progress decoder hvisitor) _ hc rfl ?_
  · exact Nat.lt_of_lt_of_le (of_decide_eq_true hmore) hc.2
  · exact Nat.le_trans (Nat.sub_le _ _) run.cursor.length_le_places

theorem determined_payload :
    Course.Determined calm (decoder.decodeCourse arithmetic visitor false)
      (decoder.decode visitor false) := by
  show Course.Determined calm (.behind cursor fun start =>
    .behind (decoder.checkLength start.remaining) fun _ => decoder.fieldsCourse arithmetic visitor)
      (cursor >>= fun start => decoder.checkLength start.remaining >>= fun _ =>
        decoder.fields visitor)
  exact .behind .cursor fun _ start _ _ => .behind (keeps_checkLength decoder _) fun _ _ _ _ =>
    decoder.determined_fields hvisitor hruns

end

/-- Decoding comes to an end, in one way, without a bound on the rounds of its loops. -/
theorem determined_decode (delimited : Bool) :
    Course.Determined (visitor.Calm arithmetic) (decoder.decodeCourse arithmetic visitor delimited)
      (decoder.decode visitor delimited) := by
  cases delimited with
  | true =>
    refine .behind (.read Reader.orderly_uint32) fun _ length _ _ =>
      .behind (keeps_checkLength decoder _) fun _ _ _ _ => .inRange
        (decoder.determined_fields hvisitor fun _ _ element _ _ =>
          decoder.determined_packedRun hvisitor element)
        (fun hchecked run hc hcalm => hcalm.not_overflows hchecked ?_ ?_ hc) _
    · exact keeps_fields decoder hvisitor
    · exact fun h => counts_fields decoder fun tag => ⟨hvisitor tag, h tag⟩
  | false =>
    exact decoder.determined_payload hvisitor fun _ _ element _ _ =>
      decoder.determined_packedRun hvisitor element

end

end Decoder

/-! ## Schemas without scripts -/

/-- Without scripts, nothing that is wanted overflows, so that it does not matter what would become
of it: decoding has the one end that the decoder gives. -/
theorem Schema.decodeCourse_iff (decoder : Decoder) {schema : Schema} (hs : schema.ScriptFree)
    (arithmetic : Arithmetic) (delimited : Bool) {run : Run Target} (hc : run.cursor.Valid)
    (hsmall : run.cursor.region.length < 2 ^ 63) (ending : Ending Target) :
    decoder.decodeCourse arithmetic (schema.visitor decoder) delimited run ending ↔
      ending = .ended (decoder.decode (schema.visitor decoder) delimited run) := by
  have hkeeps : ∀ tag, Keeps .narrowing (schema.visitor decoder tag) :=
    fun tag => (keeps_visitor decoder hs tag).narrowing
  have hcounts : ∀ tag, Counts (schema.visitor decoder tag) :=
    fun tag => .of_locates fun bound => (dutiful_visitor decoder hs bound).locates tag
  exact (decoder.determined_decode hkeeps delimited).of_calm hc (.inr ⟨hcounts, hsmall⟩) ending

end WireFormat
