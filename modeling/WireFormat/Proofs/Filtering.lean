import Mathlib.Data.List.Flatten
import WireFormat.Proofs.Concatenation
import WireFormat.Proofs.Strictness

/-!
# Unknown fields are transparent

A payload of well-formed fields is read as the payload of those fields that the schema takes
(`Schema.decodeBytes_filter`). A field that no entry takes is passed over and leaves the message as
it was. A field that an entry takes is read, wherever it lies, as it is read alone: either to its
end, or with an error that is not for want of bytes, since passing over it finds all of them. So the
two payloads are gone through field by field, and only the places in errors differ.
-/

namespace WireFormat

open Decode

/-- A field as it is written: its tag, the bytes of the tag and those of the value. -/
structure RawField where
  tag : Tag
  head : Bytes
  value : Bytes

namespace RawField

/-- The bytes of a field. -/
def bytes (field : RawField) : Bytes := field.head ++ field.value

/-- The bytes of some fields, one after another. -/
def concat (fields : List RawField) : Bytes := fields.flatMap bytes

/-- The tag is a varint, and a decoder that passes over the value ends just behind it. -/
structure WellFormed (decoder : Decoder) (field : RawField) : Prop where
  head : Grammar.IsTag field.tag field.head
  value : decoder.skip field.tag (.ofBytes field.value) =
    .ok () ⟨field.value, field.value.length, field.value.length⟩

theorem concat_cons (field : RawField) (rest : List RawField) :
    concat (field :: rest) = field.bytes ++ concat rest := List.flatMap_cons

theorem length_concat_filter_le (keep : RawField → Bool) (fields : List RawField) :
    (concat (fields.filter keep)).length ≤ (concat fields).length :=
  (List.filter_sublist.flatMap bytes).length_le

variable {decoder : Decoder} {field : RawField}

theorem WellFormed.length_pos (h : field.WellFormed decoder) : 0 < field.bytes.length := by
  have hpos := h.head.1.length_pos
  rw [bytes, List.length_append]
  omega

theorem WellFormed.skipBytes_eq (h : field.WellFormed decoder) :
    decoder.skipBytes field.tag field.value = .ok field.value.length := by
  have hskip := h.value
  unfold Decoder.skip Cursor.pass at hskip
  rw [Cursor.window_ofBytes] at hskip
  rcases hr : decoder.skipBytes field.tag field.value with ⟨e, n⟩ | n
  · rw [hr] at hskip
    cases hskip
  · rw [hr] at hskip
    have hposition : 0 + n = field.value.length := by
      injection hskip with _ hcursor
      exact congrArg Cursor.position hcursor
    rw [← hposition, Nat.zero_add]

/-- Where a field is all there is, its tag is read first. -/
theorem WellFormed.field_apply (h : field.WellFormed decoder) {σ : Type} (visitor : Visitor σ)
    (state : σ) :
    decoder.field visitor ⟨state, .ofBytes field.bytes⟩ =
      (visitor field.tag >>= decoder.settle visitor field.tag)
        ⟨state, (Cursor.ofBytes field.bytes).advance field.head.length⟩ := by
  have hread : Reader.tag (Cursor.ofBytes field.bytes).window =
      .ok (field.tag, field.head.length) := by
    rw [Cursor.window_ofBytes]
    exact Reader.tag_append h.head field.value
  rw [Decoder.field_eq, bind_apply, read_apply hread]

/-- Behind the tag, passing over the value ends where the field ends. -/
theorem WellFormed.skip_apply (h : field.WellFormed decoder) {σ : Type} (state : σ) :
    onCursor (decoder.skip field.tag)
        ⟨state, (Cursor.ofBytes field.bytes).advance field.head.length⟩ =
      .ok () ⟨state, (Cursor.ofBytes field.bytes).advance field.bytes.length⟩ := by
  have hwindow : ((Cursor.ofBytes field.bytes).advance field.head.length).window = field.value := by
    rw [Cursor.window_advance, Cursor.window_ofBytes, bytes, List.drop_left]
  unfold onCursor Decoder.skip Cursor.pass
  simp only [hwindow, h.skipBytes_eq]
  simp only [Cursor.advance, bytes, List.length_append, Nat.add_assoc]

/-- A tag and a value of the grammar, with no more levels of groups than the decoder goes into. -/
theorem WellFormed.of_isValue (hhead : Grammar.IsTag field.tag field.head)
    (hvalue : Grammar.IsValue decoder.maxGroupDepth field.tag field.value) :
    field.WellFormed decoder := by
  refine ⟨hhead, ?_⟩
  have hskip := Decoder.skipBytes_of_isValue hvalue []
  rw [List.append_nil] at hskip
  unfold Decoder.skip Cursor.pass
  rw [Cursor.window_ofBytes, hskip]
  simp only [Cursor.advance, Cursor.ofBytes, Nat.zero_add]

end RawField

namespace Schema

variable {schema : Schema} {decoder : Decoder} {field : RawField}

/-! ## A field alone -/

/-- A field is read to its end, or it is refused, but not for want of bytes. -/
theorem field_alone (hs : schema.ScriptFree) (hf : field.WellFormed decoder) (target : Target) :
    (∃ ended, decoder.field (schema.visitor decoder) ⟨target, .ofBytes field.bytes⟩ =
      .ok () ⟨ended, (Cursor.ofBytes field.bytes).advance field.bytes.length⟩) ∨
    ∃ e ended, decoder.field (schema.visitor decoder) ⟨target, .ofBytes field.bytes⟩ =
      .error e ended ∧ ∀ offset needed limit, e ≠ .truncated offset needed limit := by
  have hvalid : ((Cursor.ofBytes field.bytes).advance field.head.length).Valid := by
    refine (Cursor.ofBytes_valid field.bytes).advance ?_
    show field.head.length ≤ field.bytes.length
    rw [RawField.bytes, List.length_append]
    exact Nat.le_add_right _ _
  have hends := strict_visitor decoder hs field.tag
    ⟨target, (Cursor.ofBytes field.bytes).advance field.head.length⟩
    ⟨(), (Cursor.ofBytes field.bytes).advance field.head.length⟩ rfl hvalid (Nat.lt_succ_self _)
  rw [hf.skip_apply, ← hf.field_apply] at hends
  generalize decoder.field (schema.visitor decoder) ⟨target, .ofBytes field.bytes⟩ = result
    at hends ⊢
  cases hends with
  | @ok _ _ run _ hcursor =>
    obtain ⟨ended, c⟩ := run
    cases hcursor
    exact .inl ⟨ended, rfl⟩
  | refused he => exact .inr ⟨_, _, rfl, he⟩

/-- A field that no entry takes leaves the message as it was. -/
theorem field_unknown (hf : field.WellFormed decoder) (hunknown : schema.take? field.tag = none)
    (target : Target) :
    ∃ ended, decoder.field (schema.visitor decoder) ⟨target, .ofBytes field.bytes⟩ =
      .ok () ⟨ended, (Cursor.ofBytes field.bytes).advance field.bytes.length⟩ ∧
      target.SameMessage ended := by
  rw [hf.field_apply, bind_apply, visitor_unknown decoder hunknown]
  exact ⟨_, hf.skip_apply _, rfl⟩

/-! ## A field among others -/

/-- A field alone, and the same field in front of a limit inside a larger region. -/
theorem field_in_place (decoder : Decoder) (hs : schema.ScriptFree) (before bytes after : Bytes)
    {target target' : Target} (hsame : target.SameMessage target') :
    EndsAlike before.length Target.SameMessage bytes.length
      (decoder.field (schema.visitor decoder) ⟨target, .ofBytes bytes⟩)
      (decoder.field (schema.visitor decoder)
        ⟨target', ⟨before ++ bytes ++ after, before.length, before.length + bytes.length⟩⟩) := by
  have hmirrors := Run.mirrors_in_place hsame bytes before after
  exact Decoder.alike_field decoder (alike_visitor decoder hs) (keeps_visitor decoder hs) _ _
    hmirrors (Nat.lt_succ_self _)

theorem valid_in_place (before bytes after : Bytes) :
    (Cursor.mk (before ++ bytes ++ after) before.length (before.length + bytes.length)).Valid := by
  refine ⟨Nat.le_add_right _ _, ?_⟩
  simp only [List.length_append]
  omega

/-- The limit behind the field may as well be the end of the region. -/
theorem field_widened (decoder : Decoder) (hs : schema.ScriptFree) (before bytes after : Bytes)
    (target : Target) :
    EndsWider (before ++ bytes ++ after).length
      (decoder.field (schema.visitor decoder)
        ⟨target, ⟨before ++ bytes ++ after, before.length, before.length + bytes.length⟩⟩)
      (decoder.field (schema.visitor decoder) (.between target before (bytes ++ after))) := by
  have hvalid := valid_in_place before bytes after
  have hwider := widens_field decoder hs
    ⟨target, ⟨before ++ bytes ++ after, before.length, before.length + bytes.length⟩⟩ _ hvalid
    hvalid.2
  rw [Run.between, ← List.append_assoc]
  exact hwider

/-- What is read alone to its end is read to its end among other bytes. -/
theorem field_among_ok (hs : schema.ScriptFree) (before bytes after : Bytes)
    {target target' ended : Target} (hsame : target.SameMessage target')
    (h : decoder.field (schema.visitor decoder) ⟨target, .ofBytes bytes⟩ =
      .ok () ⟨ended, (Cursor.ofBytes bytes).advance bytes.length⟩) :
    ∃ reached, decoder.field (schema.visitor decoder) (.between target' before (bytes ++ after)) =
      .ok () (.between reached (before ++ bytes) after) ∧ ended.SameMessage reached := by
  have hkeeps : ∀ tag, Keeps .advancing (schema.visitor decoder tag) := keeps_visitor decoder hs
  have halike := field_in_place decoder hs before bytes after hsame
  have hwider := field_widened decoder hs before bytes after target'
  rw [h] at halike
  generalize hr : decoder.field (schema.visitor decoder)
    ⟨target', ⟨before ++ bytes ++ after, before.length, before.length + bytes.length⟩⟩ = narrow
    at halike hwider
  generalize decoder.field (schema.visitor decoder) (.between target' before (bytes ++ after)) =
    wide at hwider ⊢
  cases halike with
  | @ok _ _ reached hreached =>
    cases hwider with
    | ok =>
      have hmove := (Decoder.keeps_field decoder hkeeps).advances
        (valid_in_place before bytes after) hr
      have hregion : reached.cursor.region = before ++ bytes ++ after := hmove.region
      have hposition : reached.cursor.position = (before ++ bytes).length := by
        rw [hreached.cursor.position, List.length_append]
        simp only [Cursor.advance, Cursor.ofBytes]
        omega
      refine ⟨reached.state, ?_, hreached.state⟩
      rw [Run.withLimit, Cursor.withLimit, hregion, hposition, Run.between]

/-- What is refused alone is refused among other bytes, unless it missed some. -/
theorem field_among_error (hs : schema.ScriptFree) (before bytes after : Bytes)
    {target target' : Target} (hsame : target.SameMessage target') {e : DecodeError}
    {ended : Run Target}
    (h : decoder.field (schema.visitor decoder) ⟨target, .ofBytes bytes⟩ = .error e ended)
    (hother : ∀ offset needed limit, e ≠ .truncated offset needed limit) :
    ∃ reached, decoder.field (schema.visitor decoder) (.between target' before (bytes ++ after)) =
      .error (e.shift before.length) reached ∧ ended.state.SameMessage reached.state := by
  have halike := field_in_place decoder hs before bytes after hsame
  have hwider := field_widened decoder hs before bytes after target'
  rw [h] at halike
  generalize decoder.field (schema.visitor decoder)
    ⟨target', ⟨before ++ bytes ++ after, before.length, before.length + bytes.length⟩⟩ = narrow
    at halike hwider
  generalize decoder.field (schema.visitor decoder) (.between target' before (bytes ++ after)) =
    wide at hwider ⊢
  generalize hshifted : e.shift before.length = shifted at halike ⊢
  cases halike with
  | @error _ _ reached hreached _ =>
    rw [hshifted] at hwider
    cases hwider with
    | error => exact ⟨_, rfl, hreached.state⟩
    | missing =>
      obtain ⟨offset, limit, he, -⟩ := DecodeError.eq_truncated_of_shift hshifted
      exact absurd he (hother _ _ _)

/-! ## Payloads -/

/-- Two computations end well together, or with errors that differ by their places alone; the
messages are the same in both cases. -/
inductive EndsInKind {σ : Type} (same : σ → σ → Prop) :
    EStateM.Result DecodeError σ Unit → EStateM.Result DecodeError σ Unit → Prop
  | ok {ended ended' : σ} : same ended ended' → EndsInKind same (.ok () ended) (.ok () ended')
  | error {ended ended' : σ} (e : DecodeError) (distance distance' : Nat) :
      same ended ended' →
      EndsInKind same (.error (e.shift distance) ended) (.error (e.shift distance') ended')

/-- Whether some entry of a schema takes a field. -/
def takes (schema : Schema) (field : RawField) : Bool := (schema.take? field.tag).isSome

section

variable {before bytes after : Bytes} {target : Target} {rounds : Nat}

theorem fieldsLoop_end :
    fieldsLoop decoder schema (before ++ []).length rounds (.between target before []) =
      .ok () (.between target before []) := by
  refine repeatWhile_done (decide_eq_false ?_) rounds
  rw [List.append_nil]
  exact Nat.lt_irrefl _

theorem fieldsLoop_step (hpos : 0 < bytes.length) :
    fieldsLoop decoder schema (before ++ (bytes ++ after)).length (rounds + 1)
        (.between target before (bytes ++ after)) =
      (decoder.field (schema.visitor decoder) >>= fun _ =>
        fieldsLoop decoder schema (before ++ (bytes ++ after)).length rounds)
          (.between target before (bytes ++ after)) := by
  refine repeatWhile_more (decide_eq_true ?_) rounds
  show before.length < (before ++ (bytes ++ after)).length
  rw [List.length_append, List.length_append]
  omega

theorem fieldsLoop_field_ok (hpos : 0 < bytes.length) {reached : Target}
    (h : decoder.field (schema.visitor decoder) (.between target before (bytes ++ after)) =
      .ok () (.between reached (before ++ bytes) after)) :
    fieldsLoop decoder schema (before ++ (bytes ++ after)).length (rounds + 1)
        (.between target before (bytes ++ after)) =
      fieldsLoop decoder schema (before ++ bytes ++ after).length rounds
        (.between reached (before ++ bytes) after) := by
  rw [fieldsLoop_step hpos, bind_apply, h, List.append_assoc]

theorem fieldsLoop_field_error (hpos : 0 < bytes.length) {e : DecodeError} {ended : Run Target}
    (h : decoder.field (schema.visitor decoder) (.between target before (bytes ++ after)) =
      .error e ended) :
    fieldsLoop decoder schema (before ++ (bytes ++ after)).length (rounds + 1)
        (.between target before (bytes ++ after)) = .error e ended := by
  rw [fieldsLoop_step hpos, bind_apply, h]

end

/-- The fields of a payload and those among them that the schema takes, each behind what is read
already. -/
theorem fieldsLoop_filter (hs : schema.ScriptFree) (fields : List RawField)
    (hfields : ∀ field ∈ fields, field.WellFormed decoder) :
    ∀ (before before' : Bytes) (target target' : Target) (rounds rounds' : Nat),
      target.SameMessage target' → (RawField.concat fields).length ≤ rounds →
      (RawField.concat (fields.filter schema.takes)).length ≤ rounds' →
      EndsInKind (fun run run' : Run Target => run.state.SameMessage run'.state)
        (fieldsLoop decoder schema (before ++ RawField.concat fields).length rounds
          (.between target before (RawField.concat fields)))
        (fieldsLoop decoder schema (before' ++ RawField.concat (fields.filter schema.takes)).length
          rounds' (.between target' before' (RawField.concat (fields.filter schema.takes)))) := by
  induction fields with
  | nil =>
    intro before before' target target' rounds rounds' hsame _ _
    rw [List.filter_nil, show RawField.concat [] = [] from rfl, fieldsLoop_end, fieldsLoop_end]
    exact .ok hsame
  | cons field rest ih =>
    intro before before' target target' rounds rounds' hsame hrounds hrounds'
    obtain ⟨hfield, hrest⟩ := List.forall_mem_cons.1 hfields
    have hpos := hfield.length_pos
    rw [RawField.concat_cons, List.length_append] at hrounds
    rw [RawField.concat_cons]
    obtain ⟨rounds, rfl⟩ := Nat.exists_eq_add_of_le' (show 1 ≤ rounds by omega)
    by_cases hknown : schema.takes field = true
    · -- the field is read in both, or refused in both
      rw [List.filter_cons_of_pos hknown, RawField.concat_cons, List.length_append] at hrounds'
      rw [List.filter_cons_of_pos hknown, RawField.concat_cons]
      obtain ⟨rounds', rfl⟩ := Nat.exists_eq_add_of_le' (show 1 ≤ rounds' by omega)
      rcases field_alone hs hfield target with ⟨ended, hok⟩ | ⟨e, ended, herror, hother⟩
      · obtain ⟨reached, hread, hreached⟩ :=
          field_among_ok hs before field.bytes (RawField.concat rest) (.refl _) hok
        obtain ⟨reached', hread', hreached'⟩ := field_among_ok hs before' field.bytes _ hsame hok
        rw [fieldsLoop_field_ok hpos hread, fieldsLoop_field_ok hpos hread']
        exact ih hrest _ _ _ _ _ _ (hreached.symm.trans hreached') (by omega) (by omega)
      · obtain ⟨reached, hfails, hreached⟩ :=
          field_among_error hs before field.bytes (RawField.concat rest) (.refl _) herror hother
        obtain ⟨reached', hfails', hreached'⟩ :=
          field_among_error hs before' field.bytes _ hsame herror hother
        rw [fieldsLoop_field_error hpos hfails, fieldsLoop_field_error hpos hfails']
        exact .error e _ _ (hreached.symm.trans hreached')
    · -- the field is passed over, and is not there in the other payload
      have hunknown : schema.take? field.tag = none := Option.not_isSome_iff_eq_none.1 hknown
      rw [List.filter_cons_of_neg hknown] at hrounds' ⊢
      obtain ⟨ended, hok, hended⟩ := field_unknown hfield hunknown target
      obtain ⟨reached, hread, hreached⟩ :=
        field_among_ok hs before field.bytes (RawField.concat rest) (.refl _) hok
      rw [fieldsLoop_field_ok hpos hread]
      have hkept := (hended.trans hreached).symm
      exact ih hrest _ _ _ _ _ _ (hkept.trans hsame) (by omega) hrounds'

/-- A payload of well-formed fields and the payload of those of its fields that some entry takes
leave the same message, and they are both read well, or both fail with one error, which may be at
different places. -/
theorem decodeBytes_filter (decoder : Decoder) (hs : schema.ScriptFree) {fields : List RawField}
    (hfields : ∀ field ∈ fields, field.WellFormed decoder)
    (hadmits : decoder.Admits (RawField.concat fields).length) (target : Target) :
    EndsInKind Target.SameMessage
      (decoder.decodeBytes (schema.visitor decoder) (RawField.concat fields) target)
      (decoder.decodeBytes (schema.visitor decoder)
        (RawField.concat (fields.filter schema.takes)) target) := by
  have hless := RawField.length_concat_filter_le schema.takes fields
  rw [Decoder.decodeBytes_of_admits hadmits, Decoder.decodeBytes_of_admits (hadmits.mono hless)]
  have hloop : ∀ data : Bytes, decoder.fields (schema.visitor decoder) ⟨target, .ofBytes data⟩ =
      fieldsLoop decoder schema ([] ++ data).length (Cursor.ofBytes data).places
        (.between target [] data) := fun _ => rfl
  have hends := fieldsLoop_filter hs fields hfields [] [] target target _ _ rfl
    (Nat.le_of_lt (Cursor.ofBytes_valid (RawField.concat fields)).remaining_lt_places)
    (Nat.le_of_lt
      (Cursor.ofBytes_valid (RawField.concat (fields.filter schema.takes))).remaining_lt_places)
  rw [← hloop, ← hloop] at hends
  generalize decoder.fields (schema.visitor decoder) ⟨target, .ofBytes (RawField.concat fields)⟩ =
    result at hends ⊢
  generalize decoder.fields (schema.visitor decoder)
    ⟨target, .ofBytes (RawField.concat (fields.filter schema.takes))⟩ = result' at hends ⊢
  cases hends with
  | ok hsame => exact .ok hsame
  | error e distance distance' hsame => exact .error e distance distance' hsame

/-- A group with a number in it, and a number. -/
def groupAndNumber : List RawField :=
  [⟨Tag.of 3 .groupStart, [0x1b], [0x10, 0x05, 0x1c]⟩, ⟨Tag.of 1 .varint, [0x08], [0x01]⟩]

/-- A group in front of a number is as if it were not there. -/
theorem decodeBytes_filter_group :
    countersSchema.ScriptFree ∧ (∀ field ∈ groupAndNumber, field.WellFormed {}) ∧
      Decoder.Admits {} (RawField.concat groupAndNumber).length ∧
      ∃ ended, Decoder.decodeBytes {} (countersSchema.visitor {})
          [0x1b, 0x10, 0x05, 0x1c, 0x08, 0x01] ⟨countersSchema.blank, []⟩ = .ok () ended ∧
        ended.SameMessage counted := by
  have hs : countersSchema.ScriptFree :=
    .intro (by simp [countersSchema]) (by simp [countersSchema])
  have hone : ∀ b : UInt8, b < 0x80 → Varint.IsVarint [b] := fun _ => Varint.isVarint_singleton
  have hinside : Grammar.IsFields 99 [0x10, 0x05] :=
    @Grammar.IsFields.cons 99 (Tag.of 2 .varint) [0x10] [0x05] []
      ⟨hone _ (by decide), by decide⟩ (.varint rfl (hone _ (by decide))) .nil
  have hgroup : Grammar.IsValue 100 (Tag.of 3 .groupStart) [0x10, 0x05, 0x1c] :=
    @Grammar.IsValue.group 99 _ (Tag.of 3 .groupEnd) [0x10, 0x05] [0x1c] (by decide) hinside
      ⟨hone _ (by decide), by decide⟩ (by decide) (by decide)
  have hfields : ∀ field ∈ groupAndNumber, field.WellFormed {} := by
    simp only [groupAndNumber, List.mem_cons, List.not_mem_nil, or_false, forall_eq_or_imp,
      forall_eq]
    exact ⟨.of_isValue ⟨hone _ (by decide), by decide⟩ hgroup,
      .of_isValue ⟨hone _ (by decide), by decide⟩ (.varint (by decide) (hone _ (by decide)))⟩
  have hadmits : Decoder.Admits {} (RawField.concat groupAndNumber).length := .of_none rfl _
  have hends := decodeBytes_filter {} hs hfields hadmits ⟨countersSchema.blank, []⟩
  have hfiltered : Decoder.decodeBytes {} (countersSchema.visitor {})
      (RawField.concat (groupAndNumber.filter countersSchema.takes)) ⟨countersSchema.blank, []⟩ =
        .ok () counted := rfl
  have hpayload : RawField.concat groupAndNumber = [0x1b, 0x10, 0x05, 0x1c, 0x08, 0x01] := rfl
  rw [hfiltered, hpayload] at hends
  refine ⟨hs, hfields, hadmits, ?_⟩
  generalize Decoder.decodeBytes {} (countersSchema.visitor {}) [0x1b, 0x10, 0x05, 0x1c, 0x08, 0x01]
    ⟨countersSchema.blank, []⟩ = whole at hends ⊢
  cases hends with
  | ok hsame => exact ⟨_, rfl, hsame⟩

end Schema

end WireFormat
