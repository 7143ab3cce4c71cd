import WireFormat.Proofs.Inspection

/-!
# What bytes inside a payload are taken for

A message that is guessed so many messages below the payload is read like a payload of its own, by
an inspector that may go as many messages less deep. So bytes are shown as an object if such an
inspection shows one of them, with three exceptions: bytes that are printable, that show nothing, or
that are text and have a field with a reserved number (`Inspector.TakenFor`). All others are shown
in the form for bytes, which is a text or an array (`Inspector.shown_object_iff_takenFor`).
-/

namespace WireFormat

namespace Json

theorem insertMember_ne_nil (name : UInt32) (value : Json) (members : List (UInt32 × Json)) :
    insertMember name value members ≠ [] := by
  cases members with
  | nil => exact List.cons_ne_nil _ _
  | cons member rest =>
    rw [insertMember]
    split <;> exact List.cons_ne_nil _ _

/-- Nothing gathers to an object without members but nothing. -/
theorem gather_eq_object_nil_iff {values : List (UInt32 × Json)} :
    gather values = object [] ↔ values = [] := by
  refine ⟨fun h => ?_, by rintro rfl; rfl⟩
  rcases List.eq_nil_or_concat values with rfl | ⟨before, ⟨name, value⟩, rfl⟩
  · rfl
  · have hmembers := Json.object.inj h
    rw [List.concat_eq_append] at hmembers
    exact absurd ((membersOf_append_singleton before name value).symm.trans hmembers)
      (insertMember_ne_nil _ _ _)

end Json

/-! ## Text -/

/-- Some bytes are UTF-8. -/
def IsText (bytes : Bytes) : Prop := ∃ text, bytes = Utf8.encode text

/-- Some bytes are UTF-8 without control characters. -/
def IsPrintable (bytes : Bytes) : Prop :=
  ∃ text, bytes = Utf8.encode text ∧ ∀ c ∈ text.toList, isControl c = false

theorem isText_iff {bytes : Bytes} : isText bytes = true ↔ IsText bytes := by
  unfold isText IsText
  simp only [← Utf8.decode_eq_ok_iff]
  cases Utf8.decode bytes <;> simp

theorem isPrintable_iff {bytes : Bytes} : isPrintable bytes = true ↔ IsPrintable bytes := by
  unfold isPrintable IsPrintable
  simp only [← Utf8.decode_eq_ok_iff]
  cases Utf8.decode bytes <;> simp

/-- Bytes with a control character in front are neither empty nor printable. -/
theorem not_dismissed_of_control {bytes : Bytes} {c : Char} (hfront : Utf8.front? bytes = some c)
    (hc : isControl c = true) : (bytes.isEmpty || isPrintable bytes) = false := by
  rw [← Bool.not_eq_true, Bool.or_eq_true, List.isEmpty_iff, isPrintable_iff]
  rintro (rfl | ⟨text, rfl, hprintable⟩)
  · cases hfront
  · rw [Utf8.encode] at hfront
    cases hchars : text.toList with
    | nil =>
      rw [hchars] at hfront
      cases hfront
    | cons first others =>
      rw [hchars, List.flatMap_cons, Utf8.front?_utf8EncodeChar_append] at hfront
      cases hfront
      have hnot := hprintable c (hchars ▸ List.mem_cons_self)
      rw [hc] at hnot
      cases hnot

/-! ## Field numbers -/

/-- The numbers that are set aside. -/
theorem isReserved_iff {field : UInt32} :
    isReserved field = true ↔ 19000 ≤ field.toNat ∧ field.toNat < 20000 := by
  simp [isReserved, UInt32.le_iff_toNat_le, UInt32.lt_iff_toNat_lt]

namespace Inspector

variable {inspector : Inspector}

/-! ## Less deep inspections -/

/-- The inspector with another bound on the depth of messages. -/
def withMessageDepth (inspector : Inspector) (depth : Nat) : Inspector :=
  { inspector with decoder := { inspector.decoder with maxMessageDepth := depth } }

theorem fields_withMessageDepth (inspector : Inspector) (depth : Nat)
    (guess : Bytes → Option Json) (data : Bytes) :
    (inspector.withMessageDepth depth).fields guess data = inspector.fields guess data := by
  have hdecode := inspector.decoder.decodeBytes_maxMessageDepth depth (inspector.collect guess) data
  have hrun := congrFun hdecode []
  unfold fields
  rw [← hrun]
  rfl

/-- The bound says only where guessing begins. -/
theorem guess_withMessageDepth (inspector : Inspector) (depth levels : Nat) :
    (inspector.withMessageDepth depth).guess levels = inspector.guess levels := by
  induction levels with
  | zero => rfl
  | succ levels ih =>
    funext bytes
    unfold guess
    rw [ih, fields_withMessageDepth]

theorem inspect_eq_ok_iff {data : Bytes} {json : Json} :
    inspector.inspect data = .ok json ↔
      ∃ shown, inspector.fields (inspector.guess inspector.decoder.maxMessageDepth) data =
        .ok shown ∧ json = Json.gather shown := by
  unfold inspect
  cases inspector.fields (inspector.guess inspector.decoder.maxMessageDepth) data with
  | error e => simp
  | ok shown => simp [eq_comm]

theorem inspect_withMessageDepth_eq_ok_iff {depth : Nat} {data : Bytes} {json : Json} :
    (inspector.withMessageDepth depth).inspect data = .ok json ↔
      ∃ shown, inspector.fields (inspector.guess depth) data = .ok shown ∧
        json = Json.gather shown := by
  rw [inspect_eq_ok_iff, guess_withMessageDepth, fields_withMessageDepth]
  rfl

/-! ## Fields that are shown -/

/-- All fields of a payload are shown but groups. -/
theorem rendering_isSome_iff {guess : Bytes → Option Json} {levels : Nat} {field : RawField}
    (h : Grammar.IsValue levels field.tag field.value) :
    (∃ json, inspector.rendering guess field = some json) ↔
      field.tag.wireType ≠ .groupStart := by
  unfold rendering
  generalize hwire : field.tag.wireType = wire
  cases wire with
  | varint | fixed32 | fixed64 | lengthDelimited => simp
  | groupStart => simp
  | groupEnd | invalid bits =>
    generalize field.value = value at h
    cases h <;> simp_all

/-- Among the fields of some bytes, one that is no group has a reserved number. -/
def ShowsReserved (inspector : Inspector) (bytes : Bytes) : Prop :=
  ∃ fields, RawField.Parses inspector.decoder.maxGroupDepth fields bytes ∧
    ∃ field ∈ fields, field.tag.wireType ≠ .groupStart ∧
      19000 ≤ field.tag.field.toNat ∧ field.tag.field.toNat < 20000

theorem showsReserved_iff {guess : Bytes → Option Json} {bytes : Bytes} {shown : Shown}
    (h : inspector.fields guess bytes = .ok shown) :
    (shown.any fun field => isReserved field.1) = true ↔ inspector.ShowsReserved bytes := by
  obtain ⟨fields, hparses, rfl⟩ := fields_eq_ok h
  rw [List.any_eq_true]
  constructor
  · rintro ⟨⟨number, json⟩, hmem, hreserved⟩
    obtain ⟨field, hfield, hshown⟩ := List.mem_filterMap.1 hmem
    obtain ⟨json', hrendering, heq⟩ := Option.map_eq_some_iff.1 hshown
    cases heq
    exact ⟨fields, hparses, field, hfield,
      (rendering_isSome_iff (hparses.value field hfield)).1 ⟨_, hrendering⟩,
      isReserved_iff.1 hreserved⟩
  · rintro ⟨fields', hparses', field, hfield, hwire, hreserved⟩
    rw [← hparses.unique hparses'] at hfield
    obtain ⟨json, hrendering⟩ := (rendering_isSome_iff (hparses.value field hfield)).2 hwire
    refine ⟨(field.tag.field, json), List.mem_filterMap.2 ⟨field, hfield, ?_⟩,
      isReserved_iff.2 hreserved⟩
    rw [hrendering, Option.map_some]

/-! ## Values below the payload -/

/-- What is shown of bytes that are found so many messages below the payload. -/
def shownBelow (inspector : Inspector) (depth : Nat) (bytes : Bytes) : Json :=
  (inspector.guess (inspector.decoder.maxMessageDepth + 1 - depth) bytes).getD
    (inspector.plain bytes)

/-- An object that gathers the fields of a message so many messages below the payload, where bytes
behind a length are shown as what they are found to be one message further down. -/
def GathersAt (inspector : Inspector) (depth : Nat) (data : Bytes) (json : Json) : Prop :=
  ∃ fields, RawField.Parses inspector.decoder.maxGroupDepth fields data ∧
    json = Json.gather
      (inspector.shownOf (fun bytes => some (inspector.shownBelow (depth + 1) bytes)) fields)

/-- Bytes that are found so many messages below the payload, and are taken for a message with some
members. -/
structure TakenFor (inspector : Inspector) (depth : Nat) (bytes : Bytes)
    (members : List (UInt32 × Json)) : Prop where
  depth_le : depth ≤ inspector.decoder.maxMessageDepth
  ne_nil : bytes ≠ []
  not_printable : ¬ IsPrintable bytes
  /-- An inspection that goes as many messages less deep shows them. -/
  inspects : (inspector.withMessageDepth (inspector.decoder.maxMessageDepth - depth)).inspect
    bytes = .ok (.object members)
  shows : members ≠ []
  not_reserved : ¬ (IsText bytes ∧ inspector.ShowsReserved bytes)

/-- What it takes for bytes to be guessed to be a message. -/
theorem guess_succ_eq_some_iff {levels : Nat} {bytes : Bytes} {json : Json} :
    inspector.guess (levels + 1) bytes = some json ↔
      (bytes.isEmpty || isPrintable bytes) = false ∧
        ∃ shown, inspector.fields (inspector.guess levels) bytes = .ok shown ∧
          (shown.isEmpty || (isText bytes && shown.any fun field => isReserved field.1)) = false ∧
          json = Json.gather shown := by
  unfold guess
  rw [Option.ite_none_left_eq_some, Bool.not_eq_true]
  refine and_congr_right fun _ => ?_
  cases inspector.fields (inspector.guess levels) bytes with
  | error e => simp
  | ok shown =>
    simp only [Option.ite_none_left_eq_some, Bool.not_eq_true, Option.some.injEq,
      Except.ok.injEq, exists_eq_left', eq_comm (a := json)]

/-- Bytes are guessed to be a message if a less deep inspection shows them as one, but for the three
exceptions. -/
theorem guess_succ_iff_inspects {levels : Nat} {bytes : Bytes} {json : Json} :
    inspector.guess (levels + 1) bytes = some json ↔
      bytes ≠ [] ∧ ¬ IsPrintable bytes ∧
        (inspector.withMessageDepth levels).inspect bytes = .ok json ∧ json ≠ .object [] ∧
          ¬ (IsText bytes ∧ inspector.ShowsReserved bytes) := by
  rw [guess_succ_eq_some_iff, inspect_withMessageDepth_eq_ok_iff, ← isPrintable_iff, ← isText_iff]
  simp only [Bool.or_eq_false_iff, List.isEmpty_eq_false_iff, Bool.not_eq_true, and_assoc]
  refine and_congr_right fun _ => and_congr_right fun _ => ?_
  constructor
  · rintro ⟨shown, hfields, hshown, hreserved, rfl⟩
    rw [← showsReserved_iff hfields, ← Bool.and_eq_true, Bool.not_eq_true]
    exact ⟨⟨shown, hfields, rfl⟩, mt Json.gather_eq_object_nil_iff.1 hshown, hreserved⟩
  · rintro ⟨⟨shown, hfields, rfl⟩, hshown, hreserved⟩
    rw [← showsReserved_iff hfields, ← Bool.and_eq_true, Bool.not_eq_true] at hreserved
    exact ⟨shown, hfields, mt Json.gather_eq_object_nil_iff.2 hshown, hreserved, rfl⟩

/-- Bytes that show some fields, none of them with a reserved number, are guessed to be a message
unless they are printable. -/
theorem guess_of_fields {levels : Nat} {bytes : Bytes} {shown : Shown}
    (hnot : (bytes.isEmpty || isPrintable bytes) = false)
    (hfields : inspector.fields (inspector.guess levels) bytes = .ok shown)
    (hshown : (shown.isEmpty || shown.any fun field => isReserved field.1) = false) :
    inspector.guess (levels + 1) bytes = some (Json.gather shown) := by
  obtain ⟨hsome, hreserved⟩ := Bool.or_eq_false_iff.1 hshown
  refine guess_succ_eq_some_iff.2 ⟨hnot, shown, hfields, ?_, rfl⟩
  rw [hsome, hreserved, Bool.and_false, Bool.or_false]

/-- Text is shown as it is, where nothing else is asked for. -/
theorem plain_eq_text (hform : inspector.form = .auto) {bytes : Bytes} {text : String}
    (h : Utf8.decode bytes = .ok text) : inspector.plain bytes = .text text := by
  unfold plain
  rw [hform]
  simp only [h]

theorem shownBelow_eq_of_guess {depth : Nat} {bytes : Bytes} {json : Json}
    (h : inspector.guess (inspector.decoder.maxMessageDepth + 1 - depth) bytes = some json) :
    inspector.shownBelow depth bytes = json := by
  rw [shownBelow, h, Option.getD_some]

/-- Bytes in the form for bytes are a text or an array. -/
theorem plain_cases (inspector : Inspector) (bytes : Bytes) :
    (∃ text, inspector.plain bytes = .text text) ∨
      ∃ values, inspector.plain bytes = .array values := by
  unfold plain
  cases inspector.form with
  | auto => cases Utf8.decode bytes <;> exact .inl ⟨_, rfl⟩
  | base64 | escaped | lossy => exact .inl ⟨_, rfl⟩
  | array => exact .inr ⟨_, rfl⟩

theorem plain_ne_object (inspector : Inspector) (bytes : Bytes) (members : List (UInt32 × Json)) :
    inspector.plain bytes ≠ .object members := by
  rcases inspector.plain_cases bytes with ⟨text, h⟩ | ⟨values, h⟩ <;> rw [h] <;>
    exact Json.noConfusion

/-- What is gathered of a message is what its fields come to one message further down. -/
theorem gathersAt_of_fields {depth : Nat} {data : Bytes} {shown : Shown}
    (h : inspector.fields (inspector.guess (inspector.decoder.maxMessageDepth - depth)) data =
      .ok shown) : inspector.GathersAt depth data (Json.gather shown) := by
  obtain ⟨fields, hparses, rfl⟩ := fields_eq_ok h
  refine ⟨fields, hparses, congrArg Json.gather ?_⟩
  have hrendering : inspector.rendering
      (inspector.guess (inspector.decoder.maxMessageDepth - depth)) =
        inspector.rendering fun bytes => some (inspector.shownBelow (depth + 1) bytes) := by
    funext field
    unfold rendering
    simp only [shownBelow, Nat.add_sub_add_right, Option.getD_some]
  rw [shownOf, hrendering]
  rfl

theorem shownBelow_eq_object_iff {depth : Nat} {bytes : Bytes} {members : List (UInt32 × Json)} :
    inspector.shownBelow depth bytes = .object members ↔
      inspector.TakenFor depth bytes members := by
  have hguess : inspector.shownBelow depth bytes = .object members ↔
      inspector.guess (inspector.decoder.maxMessageDepth + 1 - depth) bytes =
        some (.object members) := by
    unfold shownBelow
    cases inspector.guess _ bytes with
    | none => simp [plain_ne_object]
    | some json => simp
  rw [hguess]
  by_cases hdepth : depth ≤ inspector.decoder.maxMessageDepth
  · rw [Nat.succ_sub hdepth, guess_succ_iff_inspects]
    constructor
    · rintro ⟨hnil, hprintable, hinspects, hshows, hreserved⟩
      exact ⟨hdepth, hnil, hprintable, hinspects, mt (congrArg Json.object) hshows, hreserved⟩
    · rintro ⟨-, hnil, hprintable, hinspects, hshows, hreserved⟩
      exact ⟨hnil, hprintable, hinspects, mt Json.object.inj hshows, hreserved⟩
  · rw [Nat.sub_eq_zero_of_le (Nat.lt_of_not_le hdepth)]
    constructor
    · intro h
      cases h
    · intro h
      exact absurd h.depth_le hdepth

/-- What an inspection shows gathers the fields of its payload. Bytes below it are shown as an
object with some members if they are taken for a message with these, and only then, and the object
gathers the fields of that message. All other bytes are in the form for bytes, and no object. -/
theorem shown_object_iff_takenFor (inspector : Inspector) :
    (∀ data json, inspector.inspect data = .ok json → inspector.GathersAt 0 data json) ∧
      ∀ depth bytes,
        (∀ members, inspector.shownBelow depth bytes = .object members ↔
          inspector.TakenFor depth bytes members) ∧
        (∀ members, inspector.shownBelow depth bytes = .object members →
          inspector.GathersAt depth bytes (.object members)) ∧
        ((∀ members, ¬ inspector.TakenFor depth bytes members) →
          inspector.shownBelow depth bytes = inspector.plain bytes ∧
            ((∃ text, inspector.plain bytes = .text text) ∨
              ∃ values, inspector.plain bytes = .array values)) := by
  refine ⟨fun data json h => ?_, fun depth bytes =>
    ⟨fun members => shownBelow_eq_object_iff, fun members h => ?_, fun h => ⟨?_, ?_⟩⟩⟩
  · obtain ⟨shown, hfields, rfl⟩ := inspect_eq_ok_iff.1 h
    exact gathersAt_of_fields hfields
  · obtain ⟨shown, hfields, heq⟩ :=
      inspect_withMessageDepth_eq_ok_iff.1 (shownBelow_eq_object_iff.1 h).inspects
    rw [heq]
    exact gathersAt_of_fields hfields
  · cases hguess : inspector.guess (inspector.decoder.maxMessageDepth + 1 - depth) bytes with
    | none => rw [shownBelow, hguess, Option.getD_none]
    | some json =>
      obtain ⟨members, rfl⟩ := guess_eq_object hguess
      exact absurd (shownBelow_eq_object_iff.1 (shownBelow_eq_of_guess hguess)) (h members)
  · exact inspector.plain_cases bytes

/-- An inspector that looks for messages in what the payload itself holds, and not further down. -/
def shallowInspector : Inspector := { decoder := { maxMessageDepth := 1 } }

/-- Of a message in a message in the payload, the outer one is taken for a message, and the inner
one is shown as text. -/
theorem shown_object_iff_takenFor_shallow :
    shallowInspector.inspect [0x0a, 0x04, 0x0a, 0x02, 0x10, 0x05] =
        .ok (.object [(1, .object [(1, .text "\x10\x05")])]) ∧
      shallowInspector.TakenFor 1 [0x0a, 0x02, 0x10, 0x05] [(1, .text "\x10\x05")] ∧
      (∀ members, ¬ shallowInspector.TakenFor 2 [0x10, 0x05] members) ∧
      (shallowInspector.withMessageDepth 2).TakenFor 2 [0x10, 0x05] [(2, .number 5)] := by
  obtain ⟨-, hbelow⟩ := shown_object_iff_takenFor shallowInspector
  obtain ⟨-, hdeeper⟩ := shown_object_iff_takenFor (shallowInspector.withMessageDepth 2)
  have htext : shallowInspector.plain [0x10, 0x05] = .text "\x10\x05" :=
    plain_eq_text rfl (Utf8.decode_eq_ok_iff.2 rfl)
  have houter : shallowInspector.shownBelow 1 [0x0a, 0x02, 0x10, 0x05] =
      .object [(1, .text "\x10\x05")] := by
    have hfields : shallowInspector.fields (shallowInspector.guess 0) [0x0a, 0x02, 0x10, 0x05] =
        .ok [(1, shallowInspector.plain [0x10, 0x05])] := rfl
    rw [← htext]
    exact shownBelow_eq_of_guess
      (guess_of_fields (not_dismissed_of_control (c := '\n') rfl rfl) hfields rfl)
  have hinner : (shallowInspector.withMessageDepth 2).shownBelow 2 [0x10, 0x05] =
      .object [(2, .number 5)] := by
    have hfields : (shallowInspector.withMessageDepth 2).fields
        ((shallowInspector.withMessageDepth 2).guess 0) [0x10, 0x05] = .ok [(2, .number 5)] := rfl
    exact shownBelow_eq_of_guess
      (guess_of_fields (not_dismissed_of_control (c := '\x10') rfl rfl) hfields rfl)
  have hinspect : shallowInspector.inspect [0x0a, 0x04, 0x0a, 0x02, 0x10, 0x05] =
      .ok (.object [(1, .object [(1, .text "\x10\x05")])]) := by
    rw [← houter]
    rfl
  exact ⟨hinspect, ((hbelow 1 _).1 _).1 houter, fun _ htaken => absurd htaken.depth_le (by decide),
    ((hdeeper 2 _).1 _).1 hinner⟩

end Inspector

end WireFormat
