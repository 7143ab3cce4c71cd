import WireFormat.Inspector
import WireFormat.Proofs.Gathering
import WireFormat.Proofs.Parsing
import WireFormat.Proofs.Scalar
import WireFormat.Proofs.Verdict

/-!
# What an inspection shows

An inspection that goes well shows the fields that its payload consists of by the grammar, all of
them but groups, each as its bytes say (`Inspector.rendering`), and no others. Which fields these
are is not for the inspection to choose, since bytes are the fields of one list only
(`RawField.Parses.unique`). What comes under one number is gathered in the order of the payload, and
apart from all other numbers (`Inspector.shows_fields`); the same is true of each message that is
guessed inside.

Fields of one number are shown in a row as long as the first of them is not an array. It may be one
where bytes are shown as arrays: then the later fields are put among its bytes
(`Inspector.bytes_take_in_later`).
-/

namespace WireFormat

open Decode

/-- The bytes behind a varint. -/
def Varint.behind (bytes : Bytes) : Bytes := (bytes.dropWhile fun b => 0x80 ≤ b).drop 1

theorem Varint.behind_append {length : Bytes} (h : Varint.IsVarint length) (body : Bytes) :
    Varint.behind (length ++ body) = body := by
  obtain ⟨-, start, last, rfl, hstart, hlast⟩ := h
  have hstop : ¬ 0x80 ≤ last := UInt8.not_le.2 hlast
  rw [behind, List.append_assoc, List.singleton_append,
    List.dropWhile_append_of_pos fun b hb => decide_eq_true (hstart b hb),
    List.dropWhile_cons_of_neg (by simpa using hstop)]
  rfl

namespace Inspector

variable {inspector : Inspector} {guess : Bytes → Option Json}

/-! ## Fields as they are shown -/

/-- A field as its bytes say it is shown: varints and fixed widths are numbers, and the bytes behind
a length are what `guess` takes them for, or bytes. Groups are not shown. -/
def rendering (inspector : Inspector) (guess : Bytes → Option Json) (field : RawField) :
    Option Json :=
  match field.tag.wireType with
  | .varint => some (.number (Varint.value field.value % 2 ^ 64))
  | .fixed32 | .fixed64 => some (.number (ofLittleEndian field.value))
  | .lengthDelimited =>
    some ((guess (Varint.behind field.value)).getD (inspector.plain (Varint.behind field.value)))
  | .groupStart | .groupEnd | .invalid _ => none

/-- The fields that are shown, by number. -/
def shownOf (inspector : Inspector) (guess : Bytes → Option Json) (fields : List RawField) :
    Shown :=
  fields.filterMap fun field => (inspector.rendering guess field).map (field.tag.field, ·)

/-- What is shown of the fields with a number. -/
def renderings (inspector : Inspector) (guess : Bytes → Option Json) (number : UInt32)
    (fields : List RawField) : List Json :=
  (fields.filter fun field => field.tag.field = number).filterMap (inspector.rendering guess)

theorem named_shownOf (number : UInt32) (fields : List RawField) :
    Json.named number (inspector.shownOf guess fields) =
      inspector.renderings guess number fields := by
  induction fields with
  | nil => rfl
  | cons field rest ih =>
    simp only [Json.named, shownOf, renderings] at ih ⊢
    by_cases hnumber : field.tag.field = number <;>
      cases hshown : inspector.rendering guess field <;>
      simp [hnumber, hshown, ih]

/-- A value that is shown is a value of the grammar, and is shown as its bytes say. -/
theorem value?_eq_ok {tag : Tag} {reader : Reader Json} {src : Bytes} {json : Json} {n : Nat}
    (h : inspector.value? guess tag = some reader) (hread : reader src = .ok (json, n))
    (levels : Nat) (head : Bytes) :
    Grammar.IsValue levels tag (src.take n) ∧
      inspector.rendering guess ⟨tag, head, src.take n⟩ = some json := by
  unfold value? at h
  unfold rendering
  cases hwire : tag.wireType <;> rw [hwire] at h <;> cases h
  case varint =>
    obtain ⟨v, hv, rfl⟩ := Reader.map_eq_ok_iff.1 hread
    obtain ⟨-, hvarint, hvalue⟩ := Reader.uint64_eq_ok_iff.1 hv
    exact ⟨.varint hwire hvarint, by simp only [hvalue]⟩
  case fixed64 =>
    obtain ⟨v, hv, rfl⟩ := Reader.map_eq_ok_iff.1 hread
    obtain ⟨bytes, hbytes, rfl⟩ := Reader.map_eq_ok_iff.1 hv
    obtain ⟨rfl, hn, rfl⟩ := Reader.exactly_eq_ok_iff.1 hbytes
    have hlength : (src.take 8).length = 8 := List.length_take_of_le hn
    have hlt := ofLittleEndian_lt (src.take 8)
    rw [hlength] at hlt
    exact ⟨.fixed64 hwire hlength, by simp only [UInt64.toNat_ofNat_of_lt' hlt]⟩
  case lengthDelimited =>
    obtain ⟨body, hbody, rfl⟩ := Reader.map_eq_ok_iff.1 hread
    obtain ⟨length, htake, hvarint, hfit⟩ := Reader.take_of_lengthDelimited hbody
    rw [htake]
    exact ⟨.lengthDelimited hwire hvarint hfit, by simp only [Varint.behind_append hvarint]⟩
  case fixed32 =>
    obtain ⟨v, hv, rfl⟩ := Reader.map_eq_ok_iff.1 hread
    obtain ⟨bytes, hbytes, rfl⟩ := Reader.map_eq_ok_iff.1 hv
    obtain ⟨rfl, hn, rfl⟩ := Reader.exactly_eq_ok_iff.1 hbytes
    have hlength : (src.take 4).length = 4 := List.length_take_of_le hn
    have hlt := ofLittleEndian_lt (src.take 4)
    rw [hlength] at hlt
    exact ⟨.fixed32 hwire hlength, by simp only [UInt32.toNat_ofNat_of_lt' hlt]⟩

/-- What is not read as a value is not shown. -/
theorem rendering_of_value?_eq_none {tag : Tag} (h : inspector.value? guess tag = none)
    (head value : Bytes) : inspector.rendering guess ⟨tag, head, value⟩ = none := by
  unfold value? at h
  unfold rendering
  cases hwire : tag.wireType <;> rw [hwire] at h <;> cases h

/-! ## Reading the fields -/

/-- A value that is gone through behind its tag is a value of the grammar, and what it is shown as
is put behind what is shown already. -/
theorem collect_goesThrough (inspector : Inspector) (guess : Bytes → Option Json) :
    inspector.decoder.GoesThrough (inspector.collect guess) fun fields shown after =>
      after = shown ++ inspector.shownOf guess fields := by
  intro tag head run after h
  cases hvalue : inspector.value? guess tag with
  | none =>
    rw [collect, hvalue] at h
    obtain ⟨m, rfl, hisValue⟩ := Decoder.skip_eq_ok h
    have hhidden := rendering_of_value?_eq_none hvalue head (run.cursor.window.take m)
    refine ⟨m, rfl, hisValue, ?_⟩
    simp only [shownOf, List.filterMap_cons, List.filterMap_nil, hhidden, Option.map_none,
      List.append_nil]
  | some reader =>
    rw [collect, hvalue] at h
    simp only [bind_assoc, pure_bind, Decoder.settle] at h
    obtain ⟨json, moved, hjson, hstore⟩ := bind_eq_ok h
    obtain ⟨m, hm, rfl⟩ := read_eq_ok hjson
    obtain ⟨hisValue, hshown⟩ := value?_eq_ok hvalue hm inspector.decoder.maxGroupDepth head
    cases hstore
    refine ⟨m, rfl, hisValue, ?_⟩
    simp only [shownOf, List.filterMap_cons, List.filterMap_nil, hshown, Option.map_some]

/-- What is collected from a payload is what its fields are shown as. -/
theorem fields_eq_ok {data : Bytes} {shown : Shown}
    (h : inspector.fields guess data = .ok shown) :
    ∃ fields, RawField.Parses inspector.decoder.maxGroupDepth fields data ∧
      shown = inspector.shownOf guess fields := by
  unfold fields at h
  cases hrun : inspector.decoder.decodeBytes (inspector.collect guess) data [] with
  | error e after =>
    rw [hrun] at h
    cases h
  | ok u after =>
    rw [hrun] at h
    cases h
    refine Decoder.decodeBytes_parses (keeps_collect inspector guess)
      (collect_goesThrough inspector guess) (fun _ => (List.append_nil _).symm) ?_ hrun
    rintro field fields shown _ _ rfl rfl
    rw [List.append_assoc]
    exact congrArg _ (List.filterMap_append (l := [field])).symm

/-! ## Payloads as objects -/

/-- A message that is guessed is what its fields are gathered to. -/
theorem guess_eq_some {levels : Nat} {bytes : Bytes} {json : Json}
    (h : inspector.guess (levels + 1) bytes = some json) :
    ∃ shown, inspector.fields (inspector.guess levels) bytes = .ok shown ∧
      json = Json.gather shown := by
  unfold guess at h
  split at h
  · cases h
  · split at h
    · cases h
    · rename_i shown hfields
      split at h
      · cases h
      · cases h
        exact ⟨shown, hfields, rfl⟩

theorem guess_eq_object {levels : Nat} {bytes : Bytes} {json : Json}
    (h : inspector.guess levels bytes = some json) : ∃ members, json = .object members := by
  cases levels with
  | zero => cases h
  | succ levels =>
    obtain ⟨shown, -, rfl⟩ := guess_eq_some h
    exact ⟨_, rfl⟩

theorem plain_ne_array (hform : inspector.form ≠ .array) (bytes : Bytes) (values : List Json) :
    inspector.plain bytes ≠ .array values := by
  unfold plain
  cases hshown : inspector.form with
  | array => exact absurd hshown hform
  | auto =>
    simp only
    split <;> exact Json.noConfusion
  | base64 | escaped | lossy => exact Json.noConfusion

/-- Only bytes in the form of an array are shown as one. -/
theorem rendering_ne_array (hform : inspector.form ≠ .array) {levels : Nat} {field : RawField}
    {json : Json} (h : inspector.rendering (inspector.guess levels) field = some json)
    (values : List Json) : json ≠ .array values := by
  unfold rendering at h
  cases hwire : field.tag.wireType with
  | varint | fixed32 | fixed64 =>
    simp only [hwire] at h
    cases h
    exact Json.noConfusion
  | lengthDelimited =>
    simp only [hwire] at h
    cases hguess : inspector.guess levels (Varint.behind field.value) with
    | none =>
      rw [hguess] at h
      cases h
      exact plain_ne_array hform _ values
    | some shown =>
      obtain ⟨members, rfl⟩ := guess_eq_object hguess
      rw [hguess] at h
      cases h
      exact Json.noConfusion
  | groupStart | groupEnd | invalid bits =>
    simp only [hwire] at h
    cases h

/-- A value that shows a payload inside which so many levels of messages may be guessed. -/
structure Shows (inspector : Inspector) (levels : Nat) (data : Bytes) (json : Json) : Prop where
  /-- It is an object with one member for each name. -/
  object : ∃ members, json = .object members ∧ (members.map Prod.fst).Nodup
  /-- The payload consists of fields. -/
  parses : ∃ fields, RawField.Parses inspector.decoder.maxGroupDepth fields data
  /-- What is found under a number is what the fields with this number are gathered to. -/
  member : ∀ fields, RawField.Parses inspector.decoder.maxGroupDepth fields data → ∀ number,
    json.member? number =
      Json.gathered (inspector.renderings (inspector.guess levels) number fields)
  /-- They are all in a row, unless bytes are shown as arrays. -/
  inRow : inspector.form ≠ .array →
    ∀ fields, RawField.Parses inspector.decoder.maxGroupDepth fields data → ∀ number,
      json.member? number =
        Json.inRow (inspector.renderings (inspector.guess levels) number fields)

theorem shows_of_fields {levels : Nat} {data : Bytes} {shown : Shown}
    (h : inspector.fields (inspector.guess levels) data = .ok shown) :
    inspector.Shows levels data (Json.gather shown) := by
  obtain ⟨fields, hparses, rfl⟩ := fields_eq_ok h
  have hmember : ∀ fields', RawField.Parses inspector.decoder.maxGroupDepth fields' data →
      ∀ number, (Json.gather (inspector.shownOf (inspector.guess levels) fields)).member? number =
        Json.gathered (inspector.renderings (inspector.guess levels) number fields') := by
    intro fields' hparses' number
    rw [Json.member?_gather, named_shownOf, hparses.unique hparses']
  refine ⟨Json.gather_names_nodup _, ⟨fields, hparses⟩, hmember, ?_⟩
  intro hform fields' hparses' number
  rw [hmember fields' hparses' number]
  refine Json.gathered_eq_inRow fun first hfirst => ?_
  obtain ⟨field, -, hrendering⟩ := List.mem_filterMap.1 (List.mem_of_mem_head? hfirst)
  exact rendering_ne_array hform hrendering

/-- An inspection that goes well shows the fields of its payload, and so does each message that is
guessed inside. -/
theorem shows_fields (inspector : Inspector) :
    (∀ data json, inspector.inspect data = .ok json →
      inspector.Shows inspector.decoder.maxMessageDepth data json) ∧
    ∀ levels bytes json, inspector.guess (levels + 1) bytes = some json →
      inspector.Shows levels bytes json := by
  refine ⟨fun data json h => ?_, fun levels bytes json h => ?_⟩
  · unfold inspect at h
    split at h
    · rename_i shown hfields
      cases h
      exact shows_of_fields hfields
    · cases h
  · obtain ⟨shown, hfields, rfl⟩ := guess_eq_some h
    exact shows_of_fields hfields

/-- An inspector that shows bytes as arrays. -/
def arrayInspector : Inspector := { form := .array }

/-- Two bytes that are neither text nor a message, under the number one. -/
def pairField : RawField := ⟨Tag.of 1 .lengthDelimited, [0x0a], [0x02, 0xff, 0x00]⟩

/-- The two bytes as an array. -/
def pairShown : Json := .array [.number 0xff, .number 0x00]

theorem parses_pairs (levels : Nat) :
    RawField.Parses levels [pairField, pairField] (pairField.bytes ++ pairField.bytes) := by
  have hhead : Grammar.IsTag pairField.tag pairField.head :=
    ⟨Varint.isVarint_encode 0x0a, by decide⟩
  have hvalue : Grammar.IsValue levels pairField.tag pairField.value :=
    @Grammar.IsValue.lengthDelimited levels pairField.tag [0x02] [0xff, 0x00] (by decide)
      (Varint.isVarint_encode 0x02) (by decide)
  exact (RawField.Parses.nil.cons hhead hvalue).cons hhead hvalue

theorem guess_pair (levels : Nat) : arrayInspector.guess levels [0xff, 0x00] = none := by
  cases levels with
  | zero => rfl
  | succ levels =>
    unfold Inspector.guess
    split
    · rfl
    · have hfields : arrayInspector.fields (arrayInspector.guess levels) [0xff, 0x00] =
          .error (.unknownWireType 7 2) := rfl
      rw [hfields]

/-- Where bytes are shown as arrays, the first of two fields takes the second one in: what is found
is not the two arrays but the second among the bytes of the first. -/
theorem bytes_take_in_later :
    (∃ json, arrayInspector.inspect (pairField.bytes ++ pairField.bytes) = .ok json ∧
      json.member? 1 = some (.array [.number 0xff, .number 0x00, pairShown]) ∧
      json.member? 1 ≠ Json.inRow [pairShown, pairShown]) ∧
    (∃ json, arrayInspector.guess 1 (pairField.bytes ++ pairField.bytes) = some json ∧
      json.member? 1 = some (.array [.number 0xff, .number 0x00, pairShown])) ∧
    ∀ levels, arrayInspector.renderings (arrayInspector.guess levels) 1 [pairField, pairField] =
      [pairShown, pairShown] := by
  have hrenderings : ∀ levels, arrayInspector.renderings (arrayInspector.guess levels) 1
      [pairField, pairField] = [pairShown, pairShown] := by
    intro levels
    have hrendering : arrayInspector.rendering (arrayInspector.guess levels) pairField =
        some pairShown := by
      show some ((arrayInspector.guess levels [0xff, 0x00]).getD pairShown) = some pairShown
      rw [guess_pair, Option.getD_none]
    show [pairField, pairField].filterMap _ = _
    simp only [List.filterMap_cons, List.filterMap_nil, hrendering]
  obtain ⟨hinspect, hguess⟩ := shows_fields arrayInspector
  obtain ⟨json, hjson⟩ : ∃ json,
      arrayInspector.inspect (pairField.bytes ++ pairField.bytes) = .ok json := ⟨_, rfl⟩
  have hmember := (hinspect _ json hjson).member _ (parses_pairs _) 1
  rw [hrenderings] at hmember
  have hguessed : (arrayInspector.guess 1 (pairField.bytes ++ pairField.bytes)).isSome = true := by
    decide +kernel
  obtain ⟨inner, hinner⟩ := Option.isSome_iff_exists.1 hguessed
  have hinside := (hguess 0 _ inner hinner).member _ (parses_pairs _) 1
  rw [hrenderings] at hinside
  have hdiffers : Json.gathered [pairShown, pairShown] ≠ Json.inRow [pairShown, pairShown] := by
    simp [Json.gathered, Json.inRow, Json.elements, pairShown]
  exact ⟨⟨json, hjson, hmember, hmember ▸ hdiffers⟩, ⟨inner, hinner, hinside⟩, hrenderings⟩

end Inspector

end WireFormat
