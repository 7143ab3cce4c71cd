import WireFormat.Proofs.Calls
import WireFormat.Proofs.Parsing
import WireFormat.Proofs.Passing
import WireFormat.Proofs.Verdict

/-!
# Which fields a visitor is offered

A visitor that knows no field is offered the fields that its payload consists of, each once and in
their order, with the cursor just behind the tag (`Decoder.decodeBytes_offers`). It is so offered
nothing inside groups and nothing inside length-delimited values, since these are parts of values.
Decoding goes well exactly if there are such fields.

One direction is `Decoder.decodeBytes_parses`: what is gone through is a list of fields. For the
other, a field that comes next is offered and passed over (`Decoder.field_offers`), and so are all
of them by induction (`Decoder.repeatWhile_offers`).
-/

namespace WireFormat

open Decode

/-- The calls in which fields that start at a cursor are offered. -/
def RawField.offers (start : Cursor) : List RawField → List Call
  | [] => []
  | field :: rest =>
    ⟨field.tag, start.advance field.head.length⟩ :: offers (start.advance field.bytes.length) rest

namespace RawField

@[simp] theorem offers_nil (start : Cursor) : offers start [] = [] := rfl

@[simp] theorem offers_cons (start : Cursor) (field : RawField) (rest : List RawField) :
    offers start (field :: rest) = ⟨field.tag, start.advance field.head.length⟩ ::
      offers (start.advance field.bytes.length) rest := rfl

@[simp] theorem length_offers (start : Cursor) (fields : List RawField) :
    (offers start fields).length = fields.length := by
  induction fields generalizing start with
  | nil => rfl
  | cons field rest ih => simp [ih]

/-- Each field is offered behind those in front of it and behind its tag. -/
theorem offers_getElem? {fields : List RawField} {i : Nat} {field : RawField}
    (h : fields[i]? = some field) (start : Cursor) :
    (offers start fields)[i]? = some
      ⟨field.tag, start.advance ((concat (fields.take i)).length + field.head.length)⟩ := by
  induction fields generalizing start i with
  | nil => simp at h
  | cons first rest ih =>
    cases i with
    | zero =>
      simp only [List.getElem?_cons_zero, Option.some.injEq] at h
      simp [h, concat]
    | succ i =>
      rw [List.getElem?_cons_succ] at h
      rw [offers_cons, List.getElem?_cons_succ, ih h, List.take_succ_cons, concat_cons,
        List.length_append]
      simp only [Cursor.advance, Nat.add_assoc]

end RawField

namespace Decoder

variable {σ : Type} {decoder : Decoder} {visitor : Visitor σ} {data : Bytes}

/-! ## Decoding with and without notes -/

theorem decodeBytes_noted (decoder : Decoder) (visitor : Visitor σ) (data : Bytes)
    (noted : Noted σ) :
    decoder.decodeBytes visitor data noted.state =
      match decoder.decodeBytes visitor.noted data noted with
      | .ok () after => .ok () after.state
      | .error e after => .error e after.state := by
  have hnotes := notes_decode decoder visitor false ⟨noted, .ofBytes data⟩
  have hplain : decoder.decode visitor false ⟨noted.state, .ofBytes data⟩ =
      unnoted (decoder.decode visitor.noted false ⟨noted, .ofBytes data⟩) := hnotes.symm
  unfold decodeBytes
  rw [hplain]
  cases decoder.decode visitor.noted false ⟨noted, .ofBytes data⟩ <;> rfl

/-! ## Fields that are passed over -/

theorem keeps_of_passes (hpasses : visitor.Passes) (tag : Tag) :
    Keeps .advancing (visitor tag) := by
  intro run hc
  obtain ⟨state, hvisitor⟩ := hpasses tag run
  rw [hvisitor]
  exact Motion.advancing.refl _ hc

/-- What is passed over is a value of the grammar. -/
theorem goesThrough_of_passes (hpasses : visitor.Passes) :
    decoder.GoesThrough visitor fun _ _ _ => True := by
  intro tag head run after h
  obtain ⟨state, hvisitor⟩ := hpasses tag run
  rw [bind_apply, hvisitor] at h
  obtain ⟨m, rfl, hvalue⟩ := skip_eq_ok h
  exact ⟨m, rfl, hvalue, trivial⟩

/-- A field that comes next is offered once, with the cursor behind its tag, and passed over. -/
theorem field_offers (hpasses : visitor.Passes) {field : RawField} {rest : Bytes}
    {run : Run (Noted σ)} (hhead : Grammar.IsTag field.tag field.head)
    (hvalue : Grammar.IsValue decoder.maxGroupDepth field.tag field.value)
    (hwindow : run.cursor.window = field.bytes ++ rest) :
    ∃ state, decoder.field visitor.noted run = .ok ()
      ⟨⟨state, run.state.calls ++ [⟨field.tag, run.cursor.advance field.head.length⟩]⟩,
        run.cursor.advance field.bytes.length⟩ := by
  rw [RawField.bytes, List.append_assoc] at hwindow
  have hread : Reader.tag run.cursor.window = .ok (field.tag, field.head.length) := by
    rw [hwindow]
    exact Reader.tag_append hhead _
  have hbehind : (run.cursor.advance field.head.length).window = field.value ++ rest := by
    rw [Cursor.window_advance, hwindow, List.drop_left]
  obtain ⟨state, hvisitor⟩ :=
    hpasses field.tag ⟨run.state.state, run.cursor.advance field.head.length⟩
  refine ⟨state, ?_⟩
  rw [field_eq, bind_apply, read_apply hread]
  simp only [bind_apply, Visitor.noted_apply, Run.unnoted, hvisitor]
  refine (skip_apply hvalue hbehind).trans ?_
  simp only [RawField.bytes, List.length_append, Cursor.advance, Nat.add_assoc]

/-- Fields that are all there is are offered one after another. -/
theorem repeatWhile_offers (hpasses : visitor.Passes) {more : Cursor → Bool} {limit : Nat}
    (hmore : ∀ c : Cursor, c.limit = limit → (more c = true ↔ c.position < limit))
    {fields : List RawField} (h : RawField.Parses decoder.maxGroupDepth fields data) (bound : Nat)
    {run : Run (Noted σ)} (hc : run.cursor.Valid) (hlimit : run.cursor.limit = limit)
    (hwindow : run.cursor.window = data) (hbound : run.cursor.remaining ≤ bound) :
    ∃ state c, repeatWhile more (decoder.field visitor.noted) bound run = .ok ()
      ⟨⟨state, run.state.calls ++ RawField.offers run.cursor fields⟩, c⟩ := by
  have hlength := Cursor.length_window hc
  induction fields generalizing data bound run with
  | nil =>
    have hdata : data = [] := h.bytes.symm
    have hdone : more run.cursor = false := by
      rw [← Bool.not_eq_true, hmore _ hlimit]
      rw [hwindow, hdata, List.length_nil, Cursor.remaining] at hlength
      omega
    rw [repeatWhile_done hdone, RawField.offers_nil, List.append_nil]
    exact ⟨run.state.state, run.cursor, rfl⟩
  | cons field rest ih =>
    have hhead := h.head _ List.mem_cons_self
    have hbytes : data = field.bytes ++ RawField.concat rest := h.bytes.symm
    have hpos : 0 < field.bytes.length := List.length_pos_iff.2 (RawField.bytes_ne_nil hhead)
    rw [hwindow, hbytes, List.length_append] at hlength
    -- the field takes a byte at least, so a round fewer is enough for the rest
    obtain ⟨bound, rfl⟩ := Nat.exists_eq_add_of_le' (show 1 ≤ bound by omega)
    have hgoes : more run.cursor = true := by
      rw [hmore _ hlimit]
      simp only [Cursor.remaining] at hlength
      omega
    have hvalue := h.value _ List.mem_cons_self
    obtain ⟨state, hfield⟩ := field_offers hpasses hhead hvalue (hwindow.trans hbytes)
    let next : Run (Noted σ) :=
      ⟨⟨state, run.state.calls ++ [⟨field.tag, run.cursor.advance field.head.length⟩]⟩,
        run.cursor.advance field.bytes.length⟩
    have hvalid : next.cursor.Valid := hc.advance (by omega)
    have hleft : next.cursor.window = RawField.concat rest := by
      rw [Cursor.window_advance, hwindow, hbytes, List.drop_left]
    have hremaining : next.cursor.remaining ≤ bound := by
      rw [Cursor.remaining_advance]
      omega
    obtain ⟨state', c, hrest⟩ :=
      ih h.tail bound hvalid hlimit hleft hremaining (Cursor.length_window hvalid)
    refine ⟨state', c, ?_⟩
    rw [repeatWhile_more hgoes, bind_apply, hfield]
    show repeatWhile more (decoder.field visitor.noted) bound next = _
    rw [hrest, RawField.offers_cons]
    simp only [next, List.append_assoc, List.singleton_append]

/-- A payload of fields is gone through, and they are offered. -/
theorem decodeBytes_noted_eq_ok (hmax : decoder.maxMessageLength = none)
    (hpasses : visitor.Passes) {fields : List RawField}
    (h : RawField.Parses decoder.maxGroupDepth fields data) (state : σ) :
    ∃ after, decoder.decodeBytes visitor.noted data ⟨state, []⟩ =
      .ok () ⟨after, RawField.offers (.ofBytes data) fields⟩ := by
  let start : Run (Noted σ) := ⟨⟨state, []⟩, .ofBytes data⟩
  have hvalid : start.cursor.Valid := Cursor.ofBytes_valid data
  have hmore : ∀ c : Cursor, c.limit = start.cursor.limit →
      (decide (c.position < start.cursor.limit) = true ↔ c.position < start.cursor.limit) :=
    fun _ _ => decide_eq_true_iff
  obtain ⟨after, c, hok⟩ := repeatWhile_offers hpasses hmore h start.cursor.places hvalid rfl
    (Cursor.window_ofBytes data) (Nat.le_of_lt hvalid.remaining_lt_places)
  refine ⟨after, ?_⟩
  rw [decodeBytes_of_admits (.of_none hmax _)]
  have hfields : decoder.fields visitor.noted start =
      .ok () ⟨⟨after, RawField.offers (.ofBytes data) fields⟩, c⟩ := hok
  rw [hfields]

/-- A payload is gone through by a visitor that knows no field exactly if it is a list of fields of
the grammar, with as many levels of groups as allowed. It is one list only, and the visitor is
called once for each of its fields, in their order, with the tag of the field and the cursor just
behind it. -/
theorem decodeBytes_offers (hmax : decoder.maxMessageLength = none) (hpasses : visitor.Passes)
    (data : Bytes) (state : σ) :
    ((∃ after, decoder.decodeBytes visitor data state = .ok () after) ↔
      ∃ fields, RawField.Parses decoder.maxGroupDepth fields data) ∧
    ∀ fields, RawField.Parses decoder.maxGroupDepth fields data →
      (∀ other, RawField.Parses decoder.maxGroupDepth other data → other = fields) ∧
      ∃ after : Noted σ, decoder.decodeBytes visitor.noted data ⟨state, []⟩ = .ok () after ∧
        decoder.decodeBytes visitor data state = .ok () after.state ∧
        after.calls.length = fields.length ∧
        ∀ (i : Nat) (field : RawField), fields[i]? = some field →
          after.calls[i]? = some ⟨field.tag, (Cursor.ofBytes data).advance
            ((RawField.concat (fields.take i)).length + field.head.length)⟩ := by
  have hplain : ∀ {fields}, RawField.Parses decoder.maxGroupDepth fields data →
      ∃ after, decoder.decodeBytes visitor.noted data ⟨state, []⟩ =
          .ok () ⟨after, RawField.offers (.ofBytes data) fields⟩ ∧
        decoder.decodeBytes visitor data state = .ok () after := by
    intro fields h
    obtain ⟨after, hok⟩ := decodeBytes_noted_eq_ok hmax hpasses h state
    refine ⟨after, hok, ?_⟩
    rw [decodeBytes_noted decoder visitor data ⟨state, []⟩, hok]
  refine ⟨⟨?_, ?_⟩, ?_⟩
  · rintro ⟨after, hok⟩
    obtain ⟨fields, hparses, -⟩ := decodeBytes_parses (keeps_of_passes hpasses)
      (goesThrough_of_passes hpasses) (fun _ => trivial) (fun _ _ => trivial) hok
    exact ⟨fields, hparses⟩
  · rintro ⟨fields, h⟩
    obtain ⟨after, -, hok⟩ := hplain h
    exact ⟨after, hok⟩
  · intro fields h
    obtain ⟨after, hnoted, hok⟩ := hplain h
    refine ⟨fun other hother => hother.unique h, _, hnoted, hok, ?_, ?_⟩
    · exact RawField.length_offers _ _
    · intro i field hi
      exact RawField.offers_getElem? hi _

/-- A group with a field inside, and two bytes that look like a field. -/
def groupAndBytes : List RawField :=
  [⟨Tag.of 1 .groupStart, [0x0b], [0x10, 0x05, 0x0c]⟩,
    ⟨Tag.of 3 .lengthDelimited, [0x1a], [0x02, 0x08, 0x01]⟩]

theorem parses_groupAndBytes : RawField.Parses 100 groupAndBytes
    [0x0b, 0x10, 0x05, 0x0c, 0x1a, 0x02, 0x08, 0x01] := by
  have hvarint : ∀ b : UInt8, b < 0x80 → Varint.IsVarint [b] := fun _ => Varint.isVarint_singleton
  have hinside : Grammar.IsFields 99 [0x10, 0x05] :=
    @Grammar.IsFields.cons 99 (Tag.of 2 .varint) [0x10] [0x05] []
      ⟨hvarint _ (by decide), by decide⟩ (.varint rfl (hvarint _ (by decide))) .nil
  have hgroup : Grammar.IsValue 100 (Tag.of 1 .groupStart) [0x10, 0x05, 0x0c] :=
    @Grammar.IsValue.group 99 _ (Tag.of 1 .groupEnd) [0x10, 0x05] [0x0c] (by decide) hinside
      ⟨hvarint _ (by decide), by decide⟩ (by decide) (by decide)
  have hbytes : Grammar.IsValue 100 (Tag.of 3 .lengthDelimited) [0x02, 0x08, 0x01] :=
    @Grammar.IsValue.lengthDelimited 100 _ [0x02] [0x08, 0x01] (by decide) (hvarint _ (by decide))
      (by decide)
  exact .cons ⟨hvarint _ (by decide), by decide⟩ hgroup
    (.cons ⟨hvarint _ (by decide), by decide⟩ hbytes .nil)

/-- Neither field inside is offered. -/
theorem decodeBytes_offers_groupAndBytes :
    let data : Bytes := [0x0b, 0x10, 0x05, 0x0c, 0x1a, 0x02, 0x08, 0x01]
    Decoder.maxMessageLength {} = none ∧ passing.Passes ∧
      RawField.Parses (Decoder.maxGroupDepth {}) groupAndBytes data ∧
      ∃ after : Noted Unit, Decoder.decodeBytes {} passing.noted data ⟨(), []⟩ = .ok () after ∧
        after.calls.length = 2 ∧ after.calls[0]? = some ⟨Tag.of 1 .groupStart, ⟨data, 1, 8⟩⟩ ∧
        after.calls[1]? = some ⟨Tag.of 3 .lengthDelimited, ⟨data, 5, 8⟩⟩ := by
  intro data
  have hparses : RawField.Parses (Decoder.maxGroupDepth {}) groupAndBytes data :=
    parses_groupAndBytes
  obtain ⟨-, hoffers⟩ := @decodeBytes_offers Unit {} passing rfl passing_passes data ()
  obtain ⟨-, after, hok, -, hlength, hcalls⟩ := hoffers groupAndBytes hparses
  exact ⟨rfl, passing_passes, hparses, after, hok, hlength, hcalls 0 _ rfl, hcalls 1 _ rfl⟩

end Decoder

end WireFormat
