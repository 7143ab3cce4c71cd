import WireFormat.Proofs.Guessing
import WireFormat.Proofs.InspectionEnds
import WireFormat.Proofs.Reading

/-!
# How deep objects are nested

Each guess makes one object, of values that have a level less left. So on a way into what an
inspection shows there are at most as many objects as levels, and the one of the payload
(`Inspector.objectsAtMost_inspect`).

Messages that are wrapped around each other reach that number: each of them begins with a control
character and shows a field, whose number is not reserved, so guessing goes on down to the last
level, or to the bottom (`Inspector.inspect_tower`).
-/

namespace WireFormat

open Decode

/-! ## Ways into a value -/

namespace Json

/-- The values on a way from a value down to one that is inside it. -/
inductive Path : Json → List Json → Prop
  | here (json : Json) : Path json [json]
  | element {value : Json} {values path : List Json} :
      value ∈ values → Path value path → Path (array values) (array values :: path)
  | member {name : UInt32} {value : Json} {members : List (UInt32 × Json)} {path : List Json} :
      (name, value) ∈ members → Path value path → Path (object members) (object members :: path)

/-- Whether a value is an object. -/
def isObject : Json → Bool
  | object _ => true
  | _ => false

/-- There are at most so many objects on each way into a value. -/
def ObjectsAtMost (count : Nat) (json : Json) : Prop :=
  ∀ path, json.Path path → path.countP isObject ≤ count

variable {count : Nat}

theorem objectsAtMost_number (value : Nat) : (number value).ObjectsAtMost count := by
  intro path hpath
  cases hpath
  exact Nat.zero_le _

theorem objectsAtMost_text (value : String) : (text value).ObjectsAtMost count := by
  intro path hpath
  cases hpath
  exact Nat.zero_le _

theorem objectsAtMost_array_iff {values : List Json} :
    (array values).ObjectsAtMost count ↔ ∀ value ∈ values, value.ObjectsAtMost count := by
  constructor
  · intro h value hmem path hpath
    have hcount := h _ (.element hmem hpath)
    rwa [List.countP_cons_of_neg Bool.false_ne_true] at hcount
  · intro h path hpath
    cases hpath with
    | here => exact Nat.zero_le _
    | element hmem hinside =>
      rw [List.countP_cons_of_neg Bool.false_ne_true]
      exact h _ hmem _ hinside

theorem objectsAtMost_object {members : List (UInt32 × Json)}
    (h : ∀ member ∈ members, member.2.ObjectsAtMost count) :
    (object members).ObjectsAtMost (count + 1) := by
  intro path hpath
  cases hpath with
  | here => exact Nat.succ_le_succ (Nat.zero_le _)
  | member hmem hinside =>
    rw [List.countP_cons_of_pos rfl]
    exact Nat.succ_le_succ (h _ hmem _ hinside)

/-- Adding a value puts nothing in an object. -/
theorem ObjectsAtMost.add {first next : Json} (hfirst : first.ObjectsAtMost count)
    (hnext : next.ObjectsAtMost count) : (first.add next).ObjectsAtMost count := by
  cases first with
  | array values =>
    refine objectsAtMost_array_iff.2 fun value hmem => ?_
    rcases List.mem_append.1 hmem with hold | hnew
    · exact objectsAtMost_array_iff.1 hfirst value hold
    · exact List.mem_singleton.1 hnew ▸ hnext
  | number _ | text _ | object _ =>
    refine objectsAtMost_array_iff.2 fun value hmem => ?_
    rcases List.mem_cons.1 hmem with rfl | hnew
    · exact hfirst
    · exact List.mem_singleton.1 hnew ▸ hnext

theorem objectsAtMost_insertMember {name : UInt32} {value : Json} {members : List (UInt32 × Json)}
    (hvalue : value.ObjectsAtMost count)
    (hmembers : ∀ member ∈ members, member.2.ObjectsAtMost count) :
    ∀ member ∈ insertMember name value members, member.2.ObjectsAtMost count := by
  induction members with
  | nil => exact List.forall_mem_singleton.2 hvalue
  | cons member rest ih =>
    obtain ⟨other, old⟩ := member
    obtain ⟨hold, hrest⟩ := List.forall_mem_cons.1 hmembers
    rw [insertMember]
    split
    · exact List.forall_mem_cons.2 ⟨hold.add hvalue, hrest⟩
    · exact List.forall_mem_cons.2 ⟨hold, ih hrest⟩

/-- Gathering makes one object, of the values. -/
theorem objectsAtMost_gather {values : List (UInt32 × Json)}
    (h : ∀ value ∈ values, value.2.ObjectsAtMost count) :
    (gather values).ObjectsAtMost (count + 1) := by
  show (object (membersOf values)).ObjectsAtMost (count + 1)
  refine objectsAtMost_object ?_
  induction values using List.reverseRecOn with
  | nil => exact List.forall_mem_nil _
  | append_singleton values last ih =>
    obtain ⟨name, value⟩ := last
    rw [membersOf_append_singleton]
    refine objectsAtMost_insertMember (h _ (List.mem_append_right _ List.mem_cons_self)) ?_
    exact ih fun value hmem => h value (List.mem_append_left _ hmem)

/-- A value inside so many objects, each with one member, of the name one. -/
def nested : Nat → Json → Json
  | 0, inner => inner
  | count + 1, inner => object [(1, nested count inner)]

end Json

namespace Inspector

variable {inspector : Inspector}

/-! ## The bound -/

theorem objectsAtMost_plain (inspector : Inspector) (bytes : Bytes) (count : Nat) :
    (inspector.plain bytes).ObjectsAtMost count := by
  unfold plain
  cases inspector.form with
  | auto => cases Utf8.decode bytes <;> exact Json.objectsAtMost_text _
  | base64 | escaped | lossy => exact Json.objectsAtMost_text _
  | array =>
    refine Json.objectsAtMost_array_iff.2 fun value hmem => ?_
    obtain ⟨b, -, rfl⟩ := List.mem_map.1 hmem
    exact Json.objectsAtMost_number _

theorem objectsAtMost_rendering {guess : Bytes → Option Json} {count : Nat}
    (hguess : ∀ bytes json, guess bytes = some json → json.ObjectsAtMost count) {field : RawField}
    {json : Json} (h : inspector.rendering guess field = some json) :
    json.ObjectsAtMost count := by
  unfold rendering at h
  cases hwire : field.tag.wireType with
  | varint | fixed32 | fixed64 =>
    simp only [hwire] at h
    cases h
    exact Json.objectsAtMost_number _
  | lengthDelimited =>
    simp only [hwire] at h
    cases h
    cases hinner : guess (Varint.behind field.value) with
    | none => exact inspector.objectsAtMost_plain _ _
    | some inner => exact hguess _ _ hinner
  | groupStart | groupEnd | invalid bits =>
    simp only [hwire] at h
    cases h

/-- A message makes one object, of what is guessed inside. -/
theorem objectsAtMost_gather_fields {guess : Bytes → Option Json} {count : Nat}
    (hguess : ∀ bytes json, guess bytes = some json → json.ObjectsAtMost count) {data : Bytes}
    {shown : Shown} (h : inspector.fields guess data = .ok shown) :
    (Json.gather shown).ObjectsAtMost (count + 1) := by
  obtain ⟨fields, -, rfl⟩ := fields_eq_ok h
  refine Json.objectsAtMost_gather fun value hmem => ?_
  obtain ⟨field, -, hshown⟩ := List.mem_filterMap.1 hmem
  obtain ⟨json, hrendering, rfl⟩ := Option.map_eq_some_iff.1 hshown
  exact objectsAtMost_rendering hguess hrendering

theorem objectsAtMost_guess {levels : Nat} {bytes : Bytes} {json : Json}
    (h : inspector.guess levels bytes = some json) : json.ObjectsAtMost levels := by
  induction levels generalizing bytes json with
  | zero => cases h
  | succ levels ih =>
    obtain ⟨shown, hfields, rfl⟩ := guess_eq_some h
    exact objectsAtMost_gather_fields (fun _ _ => ih) hfields

theorem objectsAtMost_inspect {data : Bytes} {json : Json} (h : inspector.inspect data = .ok json) :
    json.ObjectsAtMost (1 + inspector.decoder.maxMessageDepth) := by
  obtain ⟨shown, hfields, rfl⟩ := inspect_eq_ok_iff.1 h
  rw [Nat.add_comm]
  exact objectsAtMost_gather_fields (fun _ _ => objectsAtMost_guess) hfields

/-! ## Messages around each other -/

/-- The field one with the number one, wrapped so many times as bytes of the field one. -/
def tower : Nat → Bytes
  | 0 => [0x08, 0x01]
  | height + 1 => (Tag.of 1 .lengthDelimited).write ++ lengthPrefixed (tower height)

/-- What is shown inside all the objects of a tower: the number, or, where as many levels as given
do not reach it, the bytes of the tower that is left. -/
def towerCore (inspector : Inspector) (levels height : Nat) : Json :=
  if height ≤ levels then .number 1 else inspector.plain (tower (height - levels - 1))

theorem length_tower_lt (height : Nat) : (tower height).length < (tower (height + 1)).length := by
  have htag := (Tag.of 1 .lengthDelimited).write_length_pos
  simp only [tower, lengthPrefixed, List.length_append]
  omega

theorem tower_not_dismissed (height : Nat) :
    ((tower height).isEmpty || isPrintable (tower height)) = false := by
  -- a tower begins with a line end, and the innermost field with a backspace
  cases height with
  | zero =>
    exact not_dismissed_of_control (Utf8.front?_utf8EncodeChar_append '\x08' [0x01]) rfl
  | succ height =>
    exact not_dismissed_of_control
      (Utf8.front?_utf8EncodeChar_append '\n' (lengthPrefixed (tower height))) rfl

/-- A value that is shown is put behind what is shown already. -/
theorem reads_collect {guess : Bytes → Option Json} {tag : Tag} {reader : Reader Json}
    {bytes : Bytes} {json : Json} {shown : Shown}
    (hvalue : inspector.value? guess tag = some reader)
    (hread : ∀ rest, reader (bytes ++ rest) = .ok (json, bytes.length)) :
    Reads id (inspector.collect guess tag) bytes shown .handled (shown ++ [(tag.field, json)]) := by
  rw [collect, hvalue]
  exact (Reads.read hread).bind_pure (.bind_nil (.onState (by rintro _ rfl; rfl)) (.pure _))

/-- A payload of one field. -/
theorem fields_single (guess : Bytes → Option Json) (tag : Tag) {reader : Reader Json}
    {bytes : Bytes} {json : Json} (hvalue : inspector.value? guess tag = some reader)
    (hread : ∀ rest, reader (bytes ++ rest) = .ok (json, bytes.length))
    (hadmits : inspector.decoder.Admits (tag.write ++ bytes).length) :
    inspector.fields guess (tag.write ++ bytes) = .ok [(tag.field, json)] := by
  have hpos : 0 < (tag.write ++ bytes).length := by
    rw [List.length_append]
    exact Nat.add_pos_left tag.write_length_pos _
  obtain ⟨after, hok, hafter⟩ := Decoder.decodeBytes_of_rounds hadmits
    (.single hpos (Decoder.reads_field (reads_collect hvalue hread))) (Eq.refl (id ([] : Shown)))
  rw [fields, hok]
  exact congrArg Except.ok hafter

/-- Looking into a tower shows it as a message. -/
theorem guess_tower {levels height : Nat} {core : Json}
    (h : inspector.fields (inspector.guess levels) (tower height) = .ok [(1, core)]) :
    inspector.guess (levels + 1) (tower height) = some (.object [(1, core)]) :=
  guess_of_fields (tower_not_dismissed height) h rfl

theorem fields_tower (levels : Nat) {height : Nat} (hlength : (tower height).length < 2 ^ 32)
    (hadmits : inspector.decoder.Admits (tower height).length) :
    inspector.fields (inspector.guess levels) (tower height) =
      .ok [(1, Json.nested (min height levels) (inspector.towerCore levels height))] := by
  induction height generalizing levels with
  | zero =>
    have hnumber : ∀ rest, (Reader.uint64.map fun v => Json.number v.toNat) ([0x01] ++ rest) =
        .ok (.number 1, 1) :=
      fun rest => Reader.map_ok _ (Scalar.uint64_write_append 1 rest)
    rw [Nat.zero_min]
    exact fields_single (inspector.guess levels) (Tag.of 1 .varint) rfl hnumber hadmits
  | succ height ih =>
    have hless := length_tower_lt height
    have hlength' : (tower height).length < 2 ^ 32 := Nat.lt_trans hless hlength
    have hadmits' := hadmits.mono (Nat.le_of_lt hless)
    have hbytes : ∀ rest, (Reader.lengthDelimited.map fun bytes =>
        (inspector.guess levels bytes).getD (inspector.plain bytes))
          (lengthPrefixed (tower height) ++ rest) =
        .ok ((inspector.guess levels (tower height)).getD (inspector.plain (tower height)),
          (lengthPrefixed (tower height)).length) :=
      fun rest => Reader.map_ok _ (Reader.lengthDelimited_lengthPrefixed_append hlength' rest)
    refine (fields_single (inspector.guess levels) (Tag.of 1 .lengthDelimited) rfl hbytes
      hadmits).trans ?_
    cases levels with
    | zero => rfl
    | succ levels =>
      have hguess := guess_tower (ih levels hlength' hadmits')
      have hcore : inspector.towerCore (levels + 1) (height + 1) =
          inspector.towerCore levels height := by
        simp only [towerCore, Nat.add_le_add_iff_right, Nat.add_sub_add_right]
      rw [hguess, Option.getD_some, hcore, Nat.succ_min_succ]
      rfl

theorem objectsAtMost_towerCore (inspector : Inspector) (levels height : Nat) :
    (inspector.towerCore levels height).ObjectsAtMost 0 := by
  unfold towerCore
  split
  · exact Json.objectsAtMost_number 1
  · exact inspector.objectsAtMost_plain _ 0

/-- Messages around each other are shown as so many objects, or as many as there are levels and one
more, and no object is inside these. -/
theorem inspect_tower (inspector : Inspector) {height : Nat}
    (hlength : (tower height).length < 2 ^ 32)
    (hadmits : inspector.decoder.Admits (tower height).length) :
    inspector.inspect (tower height) =
      .ok (Json.nested (1 + min height inspector.decoder.maxMessageDepth)
        (inspector.towerCore inspector.decoder.maxMessageDepth height)) := by
  refine inspect_eq_ok_iff.2 ⟨_, fields_tower _ hlength hadmits, ?_⟩
  rw [Nat.add_comm]
  rfl

/-- An inspection ends, in one way. There are at most as many objects on a way into what it shows as
messages may be inside each other in the payload, and the one of the payload. Messages around each
other come to that many, or to as many as they are, and no object is inside these. -/
theorem inspect_nesting (inspector : Inspector) :
    (∀ arithmetic data result, inspector.InspectCourse arithmetic data result ↔
      result = inspector.inspect data) ∧
      (∀ data json, inspector.inspect data = .ok json →
        json.ObjectsAtMost (1 + inspector.decoder.maxMessageDepth)) ∧
      ∀ height, (tower height).length < 2 ^ 32 →
        inspector.decoder.Admits (tower height).length →
        inspector.inspect (tower height) =
            .ok (Json.nested (1 + min height inspector.decoder.maxMessageDepth)
              (inspector.towerCore inspector.decoder.maxMessageDepth height)) ∧
          (inspector.towerCore inspector.decoder.maxMessageDepth height).ObjectsAtMost 0 :=
  ⟨fun _ _ _ => inspectCourse_iff, fun _ _ => objectsAtMost_inspect, fun _ hlength hadmits =>
    ⟨inspector.inspect_tower hlength hadmits, inspector.objectsAtMost_towerCore _ _⟩⟩

/-- Of three messages inside each other, an inspection with one level shows two, and the innermost
one as text. -/
theorem inspect_nesting_shallow :
    tower 2 = [0x0a, 0x04, 0x0a, 0x02, 0x08, 0x01] ∧
      shallowInspector.decoder.Admits (tower 2).length ∧
      shallowInspector.InspectCourse .checked (tower 2)
        (.ok (.object [(1, .object [(1, .text "\x08\x01")])])) ∧
      (Json.object [(1, .object [(1, .text "\x08\x01")])]).ObjectsAtMost 2 := by
  obtain ⟨hcourse, hatMost, htower⟩ := inspect_nesting shallowInspector
  have hadmits : shallowInspector.decoder.Admits (tower 2).length := .of_none rfl _
  have htext : shallowInspector.plain [0x08, 0x01] = .text "\x08\x01" :=
    plain_eq_text rfl (Utf8.decode_eq_ok_iff.2 rfl)
  have hshown : shallowInspector.inspect (tower 2) =
      .ok (.object [(1, .object [(1, .text "\x08\x01")])]) := by
    rw [(htower 2 (by decide) hadmits).1, ← htext]
    rfl
  exact ⟨by decide, hadmits, (hcourse _ _ _).2 hshown.symm, hatMost _ _ hshown⟩

end Inspector

end WireFormat
