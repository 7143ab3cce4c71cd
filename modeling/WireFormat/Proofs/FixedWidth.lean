import WireFormat.Proofs.Concatenation
import WireFormat.Proofs.LocatedRuns
import WireFormat.Proofs.Packing

/-!
# Packed runs of values with a fixed width

A packed run of values that take four or eight bytes each is accounted for by its declared length
alone. If the payload ends earlier, nothing of the run is read. Otherwise as many values are read as
fit into the length, and a part of a value at its end makes the length malformed
(`decodeBytes_fixedRun`).

`Fails` says of a computation that it breaks off where certain bytes are all that is left, as
`Reads` says that it goes well. Both are put together alike, along the decoder.
-/

namespace WireFormat

open Decode

/-! ## Computations that break off -/

namespace Decode

variable {σ μ α β : Type} {view : σ → μ} {m m' m'' : μ} {bytes rest : Bytes} {e : DecodeError}

/-- Where some bytes are all that is left, the computation fails with an error that counts from
their start, and the view of the message turns from `m` to `m'`. -/
def Fails (view : σ → μ) (body : Decode σ α) (bytes : Bytes) (m : μ) (e : DecodeError) (m' : μ) :
    Prop :=
  ∀ run : Run σ, run.cursor.Valid → run.cursor.window = bytes → view run.state = m →
    ∃ after, body run = .error (e.shift run.cursor.position) after ∧ view after.state = m'

theorem Fails.read {reader : Reader α} (h : reader bytes = .error e) :
    Fails view (onCursor (Cursor.read reader)) bytes m e m := by
  intro run _ hwindow hm
  refine ⟨run, ?_, hm⟩
  unfold onCursor Cursor.read
  rw [hwindow, h]

theorem Fails.bind {first : Decode σ α} {next : α → Decode σ β}
    (hfirst : Fails view first bytes m e m') : Fails view (first >>= next) bytes m e m' := by
  intro run hc hwindow hm
  obtain ⟨after, herror, hafter⟩ := hfirst run hc hwindow hm
  refine ⟨after, ?_, hafter⟩
  rw [bind_apply, herror]

theorem Fails.cursor_bind {next : Cursor → Decode σ α}
    (hnext : ∀ c, Fails view (next c) bytes m e m') :
    Fails view (cursor >>= next) bytes m e m' := by
  intro run hc hwindow hm
  exact hnext run.cursor run hc hwindow hm

/-- What breaks off behind bytes that are read well. -/
theorem Reads.bind_fails {first : Decode σ α} {next : α → Decode σ β} {a : α}
    (hfirst : Reads view first bytes m a m') (hnext : Fails view (next a) rest m' e m'') :
    Fails view (first >>= next) (bytes ++ rest) m (e.shift bytes.length) m'' := by
  intro run hc hwindow hm
  have hprefix : bytes <+: run.cursor.window := hwindow ▸ List.prefix_append _ _
  obtain ⟨mid, hok, hcursor, hmid⟩ := hfirst run hc hprefix hm
  have hvalid : mid.cursor.Valid := by
    rw [hcursor]
    exact hc.advance (length_le_remaining hc hprefix)
  have hrest : mid.cursor.window = rest := by
    rw [hcursor, Cursor.window_advance, hwindow, List.drop_left]
  obtain ⟨after, herror, hafter⟩ := hnext mid hvalid hrest hmid
  refine ⟨after, ?_, hafter⟩
  rw [bind_apply, hok]
  show next a mid = _
  rw [herror, hcursor, Cursor.position_advance, DecodeError.shift_shift, Nat.add_comm]

theorem Reads.bind_nil_fails {first : Decode σ α} {next : α → Decode σ β} {a : α}
    (hfirst : Reads view first [] m a m') (hnext : Fails view (next a) bytes m' e m'') :
    Fails view (first >>= next) bytes m e m'' := by
  have h := hfirst.bind_fails hnext
  rwa [List.length_nil, DecodeError.shift_zero] at h

/-- A body that breaks off in a range that is all there. -/
theorem Fails.inRange {body : Decode σ Unit} {declared : Nat} (hfit : declared ≤ bytes.length)
    (hbody : Fails view body (bytes.take declared) m e m') :
    Fails view (Decode.inRange declared body) bytes m (rangeError 0 declared declared e) m' := by
  intro run hc hwindow hm
  obtain ⟨s, c⟩ := run
  have hleft : declared ≤ c.remaining := by
    rw [← Cursor.length_window hc, hwindow]
    exact hfit
  have hinside : c.position + declared ≤ c.limit := Cursor.position_add_le hc hleft
  have hrange : (c.withLimit (c.position + declared)).window = bytes.take declared := by
    rw [Cursor.window_withLimit hleft, hwindow]
  obtain ⟨after, herror, hafter⟩ :=
    hbody ⟨s, c.withLimit (c.position + declared)⟩ (hc.narrowed hinside) hrange hm
  have hshift := rangeError_shift c.position 0 declared declared e
  rw [Nat.zero_add, Nat.add_comm declared] at hshift
  refine ⟨⟨after.state, after.cursor.withLimit c.limit⟩, ?_, hafter⟩
  rw [inRange_eq, if_pos hinside, herror, ← hshift]
  rfl

/-- A range that is not all there is not begun. -/
theorem Fails.inRange_beyond {body : Decode σ Unit} {declared : Nat}
    (hbeyond : bytes.length < declared) :
    Fails view (Decode.inRange declared body) bytes m (.truncated 0 declared bytes.length) m := by
  intro run hc hwindow hm
  have hleft := Cursor.length_window hc
  rw [hwindow, Cursor.remaining] at hleft
  have hlimit : run.cursor.limit = bytes.length + run.cursor.position := by
    have hposition := hc.1
    omega
  refine ⟨run, ?_, hm⟩
  rw [inRange_eq, if_neg (by omega), DecodeError.shift, Nat.zero_add, hlimit]

/-- A loop breaks off with the round that does, behind those that go well. -/
theorem Rounds.repeatWhile_fails {round : Decode σ Unit} {more : Cursor → Bool} {limit : Nat}
    (hmore : ∀ c : Cursor, c.limit = limit → (more c = true ↔ c.position < limit))
    (h : Rounds view round bytes m m') (hpos : 0 < rest.length)
    (hround : Fails view round rest m' e m'') (bound : Nat) (run : Run σ) (hc : run.cursor.Valid)
    (hlimit : run.cursor.limit = limit) (hwindow : run.cursor.window = bytes ++ rest)
    (hm : view run.state = m) (hbound : run.cursor.remaining ≤ bound) :
    ∃ after, Decode.repeatWhile more round bound run =
        .error ((e.shift bytes.length).shift run.cursor.position) after ∧
      view after.state = m'' := by
  obtain ⟨bound', mid, heq, hcursor, hvalid, hrest, hmid, hleft⟩ :=
    h.repeatWhile_front hmore bound run hc hlimit hwindow hm hbound
  have hlimit' : mid.cursor.limit = limit := by
    rw [hcursor]
    exact hlimit
  have hlength := Cursor.length_window hvalid
  rw [hrest] at hlength
  have hless : mid.cursor.position < limit := by
    rw [Cursor.remaining] at hlength
    omega
  obtain ⟨bound', rfl⟩ := Nat.exists_eq_add_of_le' (show 1 ≤ bound' by omega)
  obtain ⟨after, herror, hafter⟩ := hround mid hvalid hrest hmid
  refine ⟨after, ?_, hafter⟩
  rw [heq, repeatWhile_succ, if_pos ((hmore _ hlimit').2 hless), herror, hcursor,
    Cursor.position_advance, DecodeError.shift_shift, Nat.add_comm]

end Decode

/-! ## Decoders -/

namespace Decoder

variable {σ μ : Type} {view : σ → μ} {m m' m'' : μ} {bytes rest : Bytes} {e : DecodeError}
variable {decoder : Decoder} {visitor : Visitor σ}

theorem fails_packedElement {element : Tag}
    (hvisitor : Fails view (visitor element) bytes m e m') :
    Fails view (decoder.packedElement visitor element) bytes m e m' := by
  rw [packedElement_eq]
  exact .cursor_bind fun _ => hvisitor.bind

theorem fails_elements {element : Tag}
    (h : Rounds view (decoder.packedElement visitor element) bytes m m') (hpos : 0 < rest.length)
    (hvisitor : Fails view (visitor element) rest m' e m'') :
    Fails view (decoder.elements visitor element) (bytes ++ rest) m (e.shift bytes.length) m'' := by
  intro run hc hwindow hm
  exact h.repeatWhile_fails more_iff hpos (fails_packedElement hvisitor) run.cursor.places run hc
    rfl hwindow hm (Nat.le_of_lt hc.remaining_lt_places)

theorem fails_fields (hpos : 0 < bytes.length)
    (hfield : Fails view (decoder.field visitor) bytes m e m') :
    Fails view (decoder.fields visitor) bytes m e m' := by
  intro run hc hwindow hm
  have h := Rounds.nil.repeatWhile_fails (fun _ _ => decide_eq_true_iff) hpos hfield
    run.cursor.places run hc rfl hwindow hm (Nat.le_of_lt hc.remaining_lt_places)
  rw [List.length_nil, DecodeError.shift_zero] at h
  exact h

theorem decodeBytes_eq_error (hmax : decoder.maxMessageLength = none)
    (h : Fails view (decoder.fields visitor) bytes m e m') {state : σ} (hm : view state = m) :
    ∃ after, decoder.decodeBytes visitor bytes state = .error e after ∧ view after = m' := by
  obtain ⟨after, herror, hafter⟩ := h ⟨state, .ofBytes bytes⟩ (Cursor.ofBytes_valid bytes)
    (Cursor.window_ofBytes bytes) hm
  refine ⟨after.state, ?_, hafter⟩
  rw [decodeBytes_of_admits (.of_none hmax _), herror]
  show EStateM.Result.error (e.shift 0) after.state = _
  rw [DecodeError.shift_zero]

end Decoder

/-! ## Values of a fixed width -/

namespace Kind

/-- The number of bytes that a value of a kind takes, where it is the same for all values. -/
def width? (kind : Kind) : Option Nat :=
  match kind.wireType with
  | .fixed32 => some 4
  | .fixed64 => some 8
  | _ => none

/-- The values of a kind are made of so many bytes each, and are written as these bytes. -/
structure Fixed (kind : Kind) (width : Nat) (value : Bytes → Scalar) : Prop where
  pos : 0 < width
  le_eight : width ≤ 8
  reader : kind.reader = (Reader.exactly width).map value
  kind_eq : ∀ bytes, (value bytes).kind = kind
  write_eq : ∀ bytes, bytes.length = width → (value bytes).write = bytes

variable {kind : Kind} {width : Nat}

theorem Fixed.of_reader {α : Type} {word : Nat → α} {make : α → Scalar} (hpos : 0 < width)
    (hle : width ≤ 8) (hreader : kind.reader = (Reader.fixed width word).map make)
    (hkind : ∀ a, (make a).kind = kind)
    (hwrite : ∀ n, n < 256 ^ width → (make (word n)).write = littleEndian width n) :
    kind.Fixed width fun bytes => make (word (ofLittleEndian bytes)) := by
  refine ⟨hpos, hle, hreader.trans (Reader.map_map _ _ _), fun _ => hkind _, fun bytes h => ?_⟩
  have hless := ofLittleEndian_lt bytes
  rw [h] at hless
  rw [hwrite _ hless, ← h, littleEndian_ofLittleEndian]

theorem exists_fixed (h : kind.width? = some width) : ∃ value, kind.Fixed width value := by
  have hnarrow (n : Nat) (hless : n < 256 ^ 4) :
      littleEndian 4 (UInt32.ofNat n).toNat = littleEndian 4 n :=
    congrArg (littleEndian 4) (UInt32.toNat_ofNat_of_lt' hless)
  have hwide (n : Nat) (hless : n < 256 ^ 8) :
      littleEndian 8 (UInt64.ofNat n).toNat = littleEndian 8 n :=
    congrArg (littleEndian 8) (UInt64.toNat_ofNat_of_lt' hless)
  cases kind <;> cases h
  case fixed32 | sfixed32 | float =>
    exact ⟨_, .of_reader (by decide) (by decide) rfl (fun _ => rfl) hnarrow⟩
  case fixed64 | sfixed64 | double =>
    exact ⟨_, .of_reader (by decide) (by decide) rfl (fun _ => rfl) hwide⟩

theorem wireType_ne_of_width? (h : kind.width? = some width) :
    .lengthDelimited ≠ kind.wireType := by
  cases kind <;> cases h <;> decide

variable {value : Bytes → Scalar}

/-- So many times the width are so many values. -/
theorem Fixed.exists_values (h : kind.Fixed width value) {count : Nat} {bytes : Bytes}
    (hlength : bytes.length = width * count) :
    ∃ values : List Scalar, values.length = count ∧ (∀ value ∈ values, value.kind = kind) ∧
      values.flatMap Scalar.write = bytes := by
  induction count generalizing bytes with
  | zero =>
    have hnone : bytes = [] := List.eq_nil_of_length_eq_zero hlength
    exact ⟨[], rfl, by simp, hnone.symm⟩
  | succ count ih =>
    rw [Nat.mul_succ] at hlength
    have hfirst : (bytes.take width).length = width := by
      rw [List.length_take]
      omega
    have hrest : (bytes.drop width).length = width * count := by
      rw [List.length_drop]
      omega
    obtain ⟨values, hcount, hkinds, hbytes⟩ := ih hrest
    refine ⟨value (bytes.take width) :: values, congrArg (· + 1) hcount,
      List.forall_mem_cons.2 ⟨h.kind_eq _, hkinds⟩, ?_⟩
    rw [List.flatMap_cons, h.write_eq _ hfirst, hbytes, List.take_append_drop]

/-- Fewer bytes are not a value. -/
theorem Fixed.reader_short (h : kind.Fixed width value) {bytes : Bytes}
    (hshort : bytes.length < width) :
    kind.reader bytes = .error (.truncated 0 width bytes.length) := by
  rw [h.reader, Reader.map, Reader.exactly, if_neg (Nat.not_le.2 hshort)]

end Kind

/-! ## Packed runs behind a declared length -/

/-- The tag and the declared length in front of a packed run. -/
def runHead (number : UInt32) (declared : Nat) : Bytes :=
  (Tag.of number .lengthDelimited).write ++ Varint.encode (UInt64.ofNat declared)

theorem runHead_append (number : UInt32) (values : List Scalar) :
    runHead number (values.flatMap Scalar.write).length ++ values.flatMap Scalar.write =
      packedField number values :=
  List.append_assoc _ _ _

namespace Schema

variable {schema : Schema} {number : UInt32} {kind : Kind} {width size declared : Nat}
variable {decoder : Decoder} {visitor : Visitor Target} {body rest : Bytes} {e : DecodeError}
variable {m m' : Message} {before after : List (Slot Message)}

/-- A value that cannot be read. -/
theorem fails_value (hserves : Serves decoder schema size visitor) {tag : Tag} {index : Nat}
    (htake : schema.take? tag = some (index, .value kind)) (hread : kind.reader body = .error e) :
    Fails Target.content (visitor tag) body m e m := by
  intro run hc hwindow hm
  obtain ⟨levels, depth, hlevels, heq⟩ := hserves tag run hc
  obtain ⟨levels, rfl⟩ := Nat.exists_eq_add_of_le' (show 1 ≤ levels by omega)
  have hvisit :
      Fails Target.content (schema.visitAt decoder (levels + 1) depth tag) body m e m := by
    rw [visitAt_succ, htake]
    exact .cursor_bind fun start => (reads_record _ m).bind_nil_fails (Fails.read hread).bind
  rw [heq]
  exact hvisit run hc hwindow hm

/-- A field that is a packed run breaks off as the range of its elements does. -/
theorem fails_run (hserves : Serves decoder schema size visitor) {index : Nat}
    (hunpacks : schema.Unpacks number kind index) (hdeclared : declared < 2 ^ 32)
    (h : Fails Target.content
      (inRange declared (decoder.elements visitor (Tag.of number kind.wireType))) body m e m') :
    Fails Target.content (decoder.field visitor) (runHead number declared ++ body) m
      (e.shift (runHead number declared).length) m' := by
  have hread : Reads Target.content (onCursor (Cursor.read Reader.uint32))
      (Varint.encode (UInt64.ofNat declared)) m (UInt32.ofNat declared) m :=
    .read fun rest => Reader.uint32_encode_append hdeclared rest
  have hrange : Fails Target.content
      (decoder.packedRun visitor (Tag.of number kind.wireType))
      (Varint.encode (UInt64.ofNat declared) ++ body) m
      (e.shift (Varint.encode (UInt64.ofNat declared)).length) m' := by
    refine hread.bind_fails ?_
    rw [UInt32.toNat_ofNat_of_lt' hdeclared]
    exact h
  have hfield : Fails Target.content (decoder.field visitor)
      ((Tag.of number .lengthDelimited).write ++ (Varint.encode (UInt64.ofNat declared) ++ body)) m
      ((e.shift (Varint.encode (UInt64.ofNat declared)).length).shift
        (Tag.of number .lengthDelimited).write.length) m' := by
    rw [Decoder.field_eq]
    exact Reads.bind_fails (.read fun rest => Tag.tag_write_append _ rest)
      ((reads_packed hserves hunpacks m).bind_nil_fails hrange)
  rw [DecodeError.shift_shift, Nat.add_comm] at hfield
  rw [runHead, List.append_assoc, List.length_append]
  exact hfield

/-- A part of a value behind whole ones makes the declared length of a run malformed. -/
theorem fails_range (hserves : Serves decoder schema size visitor)
    (hunpacks : schema.Unpacks number kind before.length) {value : Bytes → Scalar}
    (hfixed : kind.Fixed width value) {values : List Scalar}
    (hkinds : ∀ value ∈ values, value.kind = kind) (hpos : 0 < rest.length)
    (hshort : rest.length < width)
    (hfit : body.take declared = values.flatMap Scalar.write ++ rest)
    (hdeclared : declared ≤ body.length) (hless : declared < 2 ^ 32) (done : List Scalar) :
    Fails Target.content
      (inRange declared (decoder.elements visitor (Tag.of number kind.wireType))) body
      ⟨before ++ .scalars done :: after, []⟩
      (.malformedLength 0 declared ((values.flatMap Scalar.write).length + width))
      ⟨before ++ .scalars (done ++ values) :: after, []⟩ := by
  have hvalue : Fails Target.content (visitor (Tag.of number kind.wireType)) rest
      ⟨before ++ .scalars (done ++ values) :: after, []⟩ (.truncated 0 width rest.length)
      ⟨before ++ .scalars (done ++ values) :: after, []⟩ :=
    fails_value hserves hunpacks.value (hfixed.reader_short hshort)
  have helements := Decoder.fails_elements
    (rounds_elements hserves hunpacks hkinds done) hpos hvalue
  have hlength : rest.length + (values.flatMap Scalar.write).length = declared := by
    rw [Nat.add_comm, ← List.length_append, ← hfit, List.length_take_of_le hdeclared]
  rw [← hfit] at helements
  have hrange := helements.inRange hdeclared
  have hwidth := hfixed.le_eight
  have hcount : Countable 0 ((values.flatMap Scalar.write).length + width) :=
    ⟨Nat.zero_le _, by omega⟩
  -- what is missed is missed at the end of the range
  rw [DecodeError.shift, rangeError, if_pos hlength, Nat.zero_add, hcount.span_eq,
    Nat.sub_zero] at hrange
  exact hrange

section Payloads

variable {entriesBefore entriesAfter : List (Entry Schema)}

/-- A payload that starts with a packed run breaks off as the range of its elements does. -/
theorem decodeBytes_run_eq_error
    (hfirst : schema.FirstPacked number kind entriesBefore entriesAfter) {index : Nat}
    (hunpacks : schema.Unpacks number kind index) (hdeclared : declared < 2 ^ 32)
    (h : Fails Target.content
      (inRange declared (Decoder.elements {} (schema.visitor {}) (Tag.of number kind.wireType)))
      body (blankBut entriesBefore entriesAfter []) e m) :
    ∃ ended, Decoder.decodeBytes {} (schema.visitor {}) (runHead number declared ++ body)
        ⟨schema.blank, []⟩ = .error (e.shift (runHead number declared).length) ended ∧
      ended.message.content = m := by
  have hfield := fails_run (serves_visitor {} schema 0) hunpacks hdeclared h
  refine Decoder.decodeBytes_eq_error rfl (Decoder.fails_fields ?_ hfield) hfirst.content_blank
  rw [runHead, List.append_assoc, List.length_append]
  exact Nat.add_pos_left (Tag.write_length_pos _) _

/-- A payload that starts with a packed run of whole values goes on behind it. -/
theorem decodeBytes_run_append (hs : schema.ScriptFree)
    (hfirst : schema.FirstPacked number kind entriesBefore entriesAfter)
    (hunpacks : schema.Unpacks number kind
      (entriesBefore.map Entry.blank : List (Slot Message)).length)
    {values : List Scalar} (hkinds : ∀ value ∈ values, value.kind = kind)
    (hlength : (values.flatMap Scalar.write).length < 2 ^ 32) (rest : Bytes) :
    ∃ middle, Decoder.decodeBytes {} (schema.visitor {}) (packedField number values)
        ⟨schema.blank, []⟩ = .ok () middle ∧
      middle.message.content = blankBut entriesBefore entriesAfter values ∧
      EndsBehind (packedField number values).length
        (Decoder.decodeBytes {} (schema.visitor {}) rest middle)
        (Decoder.decodeBytes {} (schema.visitor {}) (packedField number values ++ rest)
          ⟨schema.blank, []⟩) := by
  have hrounds : Rounds Target.content (Decoder.field {} (schema.visitor {}))
      (packedField number values) (blankBut entriesBefore entriesAfter [])
      (blankBut entriesBefore entriesAfter values) :=
    rounds_packed (serves_visitor {} schema 0) hunpacks hkinds hlength []
  obtain ⟨alone, hok, -, hcontent⟩ := Decoder.fills_fields hrounds
    ⟨⟨schema.blank, []⟩, .ofBytes (packedField number values)⟩ (Cursor.ofBytes_valid _)
    (Cursor.window_ofBytes _) hfirst.content_blank
  refine ⟨alone.state, ?_, hcontent, EndsBehind.of_fields (.of_none rfl _) (.of_none rfl _)
    (fields_append {} hs hok rest)⟩
  rw [Decoder.decodeBytes_of_admits (.of_none rfl _), hok]

/-- A payload that starts with a packed run which ends inside a value breaks off at that value. -/
theorem decodeBytes_run_broken
    (hfirst : schema.FirstPacked number kind entriesBefore entriesAfter)
    (hunpacks : schema.Unpacks number kind
      (entriesBefore.map Entry.blank : List (Slot Message)).length)
    {value : Bytes → Scalar} (hfixed : kind.Fixed width value) {values : List Scalar}
    (hkinds : ∀ value ∈ values, value.kind = kind)
    (hvalues : values.flatMap Scalar.write = body.take (width * (declared / width)))
    (hdeclared : declared < 2 ^ 32) (hfit : declared ≤ body.length)
    (hbroken : ¬ width ∣ declared) :
    ∃ ended, Decoder.decodeBytes {} (schema.visitor {}) (runHead number declared ++ body)
        ⟨schema.blank, []⟩ = .error (.malformedLength (runHead number declared).length declared
          (width * (declared / width) + width)) ended ∧
      ended.message.content = blankBut entriesBefore entriesAfter values := by
  have hwhole : width * (declared / width) ≤ declared := Nat.mul_div_le _ _
  have hlength : (values.flatMap Scalar.write).length = width * (declared / width) := by
    rw [hvalues, List.length_take_of_le (Nat.le_trans hwhole hfit)]
  -- what the declared length has behind the whole values is some of a value, and not all of it
  have hsplit : body.take declared = values.flatMap Scalar.write ++
      (body.take declared).drop (width * (declared / width)) := by
    have htake := List.take_append_drop (width * (declared / width)) (body.take declared)
    rwa [List.take_take, Nat.min_eq_left hwhole, ← hvalues, eq_comm] at htake
  have hrest : ((body.take declared).drop (width * (declared / width))).length =
      declared % width := by
    have hdivision := Nat.div_add_mod declared width
    rw [List.length_drop, List.length_take_of_le hfit]
    omega
  have hpos : 0 < declared % width :=
    Nat.pos_of_ne_zero fun hzero => hbroken (Nat.dvd_of_mod_eq_zero hzero)
  have hshort : declared % width < width := Nat.mod_lt _ hfixed.pos
  rw [← hrest] at hpos hshort
  have hrange : Fails Target.content
      (inRange declared (Decoder.elements {} (schema.visitor {}) (Tag.of number kind.wireType)))
      body (blankBut entriesBefore entriesAfter [])
      (.malformedLength 0 declared ((values.flatMap Scalar.write).length + width))
      (blankBut entriesBefore entriesAfter values) :=
    fails_range (serves_visitor {} schema 0) hunpacks hfixed hkinds hpos hshort hsplit hfit
      hdeclared []
  obtain ⟨ended, herror, hended⟩ := decodeBytes_run_eq_error hfirst hunpacks hdeclared hrange
  refine ⟨ended, ?_, hended⟩
  rw [herror, DecodeError.shift, Nat.zero_add, hlength]

/-- What is read of a packed run of values with a fixed width goes by its declared length alone: the
payload has to be as long, then as many values are read as fit into it, and what is left of the
length makes it malformed. If nothing is left, the bytes behind it are the next fields. -/
theorem decodeBytes_fixedRun (hs : schema.ScriptFree)
    (hfirst : schema.FirstPacked number kind entriesBefore entriesAfter)
    (hnumber : number.toNat < 2 ^ 29) (hwidth : kind.width? = some width)
    (hdeclared : declared < 2 ^ 32) (body : Bytes) :
    (body.length < declared →
      ∃ ended, Decoder.decodeBytes {} (schema.visitor {}) (runHead number declared ++ body)
          ⟨schema.blank, []⟩ = .error (.truncated (runHead number declared).length declared
            (runHead number declared ++ body).length) ended ∧
        ended.message.content = schema.blank) ∧
    (declared ≤ body.length →
      ∃ values : List Scalar, values.length = declared / width ∧
        (∀ value ∈ values, value.kind = kind) ∧
        values.flatMap Scalar.write = body.take (width * (declared / width)) ∧
        (¬ width ∣ declared →
          ∃ ended, Decoder.decodeBytes {} (schema.visitor {}) (runHead number declared ++ body)
              ⟨schema.blank, []⟩ = .error (.malformedLength (runHead number declared).length
                declared (width * (declared / width) + width)) ended ∧
            ended.message.content = blankBut entriesBefore entriesAfter values) ∧
        (width ∣ declared →
          ∃ middle, Decoder.decodeBytes {} (schema.visitor {})
              (runHead number declared ++ body.take declared) ⟨schema.blank, []⟩ =
                .ok () middle ∧
            middle.message.content = blankBut entriesBefore entriesAfter values ∧
            EndsBehind ((runHead number declared).length + declared)
              (Decoder.decodeBytes {} (schema.visitor {}) (body.drop declared) middle)
              (Decoder.decodeBytes {} (schema.visitor {}) (runHead number declared ++ body)
                ⟨schema.blank, []⟩))) := by
  have hunpacks := hfirst.unpacks hnumber (Kind.wireType_ne_of_width? hwidth)
  obtain ⟨value, hfixed⟩ := Kind.exists_fixed hwidth
  refine ⟨fun hbeyond => ?_, fun hfit => ?_⟩
  · obtain ⟨ended, herror, hended⟩ := decodeBytes_run_eq_error hfirst hunpacks hdeclared
      (.inRange_beyond hbeyond)
    refine ⟨ended, ?_, hended.trans hfirst.blank_eq.symm⟩
    rw [herror, DecodeError.shift, Nat.zero_add, List.length_append, Nat.add_comm body.length]
  · have hwhole : width * (declared / width) ≤ body.length :=
      Nat.le_trans (Nat.mul_div_le _ _) hfit
    obtain ⟨values, hcount, hkinds, hvalues⟩ :=
      hfixed.exists_values (List.length_take_of_le hwhole)
    refine ⟨values, hcount, hkinds, hvalues, fun hbroken => ?_, fun hdivides => ?_⟩
    · exact decodeBytes_run_broken hfirst hunpacks hfixed hkinds hvalues hdeclared hfit hbroken
    · rw [Nat.mul_div_cancel' hdivides] at hvalues
      have hlength : (values.flatMap Scalar.write).length = declared := by
        rw [hvalues, List.length_take_of_le hfit]
      have hpacked := runHead_append number values
      rw [hlength, hvalues] at hpacked
      obtain ⟨middle, hok, hmiddle, hends⟩ := decodeBytes_run_append hs hfirst hunpacks hkinds
        (hlength ▸ hdeclared) (body.drop declared)
      rw [← hpacked, List.append_assoc, List.take_append_drop, List.length_append,
        List.length_take_of_le hfit] at hends
      rw [← hpacked] at hok
      exact ⟨middle, hok, hmiddle, hends⟩

/-- Numbers of four bytes in packed runs, behind a number of another field. -/
def wordsSchema : Schema := ⟨[.scalar (some 1) .uint32 false, .scalar (some 3) .fixed32 true], []⟩

/-- A byte too many in a run of three values, a run beyond the end of the payload, and a run with a
field behind it. -/
theorem decodeBytes_fixedRun_words :
    wordsSchema.ScriptFree ∧
      wordsSchema.FirstPacked 3 .fixed32 [.scalar (some 1) .uint32 false] [] ∧
      (∃ ended values, Decoder.decodeBytes {} (wordsSchema.visitor {})
          [0x1a, 13, 1, 0, 0, 0, 2, 0, 0, 0, 3, 0, 0, 0, 0xff, 0x08, 0x01]
          ⟨wordsSchema.blank, []⟩ = .error (.malformedLength 2 13 16) ended ∧
        values.length = 3 ∧
        ended.message.content = blankBut [.scalar (some 1) .uint32 false] [] values) ∧
      (∃ ended, Decoder.decodeBytes {} (wordsSchema.visitor {}) [0x1a, 16, 1, 0, 0, 0]
          ⟨wordsSchema.blank, []⟩ = .error (.truncated 2 16 6) ended ∧
        ended.message.content = wordsSchema.blank) ∧
      ∃ middle, EndsBehind 6 (Decoder.decodeBytes {} (wordsSchema.visitor {}) [0x08, 0x07] middle)
        (Decoder.decodeBytes {} (wordsSchema.visitor {}) [0x1a, 4, 5, 0, 0, 0, 0x08, 0x07]
          ⟨wordsSchema.blank, []⟩) := by
  have hs : wordsSchema.ScriptFree := .intro (by simp [wordsSchema]) (by simp [wordsSchema])
  have hfirst : wordsSchema.FirstPacked 3 .fixed32 [.scalar (some 1) .uint32 false] [] :=
    ⟨⟨some 3, rfl, .inr rfl⟩, by simp [Entry.fits, Entry.number]⟩
  have hrun (declared : Nat) (hdeclared : declared < 2 ^ 32) (body : Bytes) :=
    decodeBytes_fixedRun hs hfirst (by decide) (rfl : Kind.fixed32.width? = some 4) hdeclared body
  refine ⟨hs, hfirst, ?_, ?_, ?_⟩
  · obtain ⟨values, hcount, -, -, hbroken, -⟩ :=
      (hrun 13 (by decide) [1, 0, 0, 0, 2, 0, 0, 0, 3, 0, 0, 0, 0xff, 0x08, 0x01]).2 (by decide)
    obtain ⟨ended, herror, hended⟩ := hbroken (by decide)
    exact ⟨ended, values, herror, hcount, hended⟩
  · exact (hrun 16 (by decide) [1, 0, 0, 0]).1 (by decide)
  · obtain ⟨_, -, -, -, -, hwhole⟩ :=
      (hrun 4 (by decide) [5, 0, 0, 0, 0x08, 0x07]).2 (by decide)
    obtain ⟨middle, -, -, hends⟩ := hwhole (by decide)
    exact ⟨middle, hends⟩

end Payloads

end Schema

end WireFormat
