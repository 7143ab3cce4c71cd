import WireFormat.Proofs.Dutiful
import WireFormat.Proofs.Passing

/-!
# Reading is passing over, and stricter

A decoder that knows fields finds more to object to than one that passes over them: texts that are
no UTF-8, messages that are too long or incomplete, ranges that do not come out. But it stops
nowhere else, and it misses bytes only where passing over fails as well (`Schema.strict_visitor`),
since what is missing inside a range is the fault of the length of the range.

So a payload runs out only at its own end, and each of its errors points at something that is wrong
in it (`Schema.decodeBytes_error_located`).
-/

namespace WireFormat

open Decode

/-- The first computation may refuse what the second takes, but not for want of bytes. -/
def Comparison.stricter : Comparison where
  refuses := fun e => ∀ offset needed limit, e ≠ .truncated offset needed limit
  fails := fun _ _ => True
  refuses_shift := fun _ h offset needed limit he => by
    obtain ⟨offset', limit', he', -⟩ := DecodeError.eq_truncated_of_shift he
    exact h offset' needed limit' he'
  fails_shift := fun _ _ => trivial
  fails_refl := fun _ => trivial
  fails_of_refuses := fun _ _ => trivial

/-! ## Ranges -/

/-- Behind its length, a length-delimited value is passed over as so many bytes. -/
theorem Reader.lengthDelimited_map_eq {src : Bytes} {length : UInt32} {k : Nat}
    (h : uint32 src = .ok (length, k)) :
    lengthDelimited.map (fun _ => ()) src = match skip length.toNat (src.drop k) with
      | .error e => .error (e.shift k)
      | .ok ((), n) => .ok ((), k + n) := by
  unfold map lengthDelimited skip Reader.map
  rw [h]
  simp only
  cases exactly length.toNat (src.drop k) <;> rfl

namespace Decode

variable {σ τ α : Type} {comparison : Comparison} {decoder : Decoder} {lead bound : Nat}

theorem read_error {reader : Reader α} {run : Run σ} {e : DecodeError}
    (h : reader run.cursor.window = .error e) :
    onCursor (Cursor.read reader) run = .error (e.shift run.cursor.position) run := by
  unfold onCursor Cursor.read
  rw [h]

/-- A length, and something that takes as many bytes. -/
theorem Compares.framed {next : UInt32 → Decode σ Unit}
    (hnext : ∀ length, Compares comparison bound (next length)
      (Decode.onCursor (Cursor.read (Reader.skip length.toNat)) : Decode τ Unit)) :
    Compares comparison bound (Decode.onCursor (Cursor.read Reader.uint32) >>= next)
      (Decode.onCursor (Cursor.read (Reader.lengthDelimited.map fun _ => ())) : Decode τ Unit) := by
  intro run run' hc hvalid hbound
  rw [bind_apply]
  cases hlength : Reader.uint32 run.cursor.window with
  | error e =>
    have hmissing : Reader.lengthDelimited.map (fun _ => ()) run'.cursor.window = .error e := by
      unfold Reader.map Reader.lengthDelimited
      rw [← hc, hlength]
    rw [read_error hlength, read_error hmissing, ← hc]
    exact .error (comparison.fails_refl _)
  | ok r =>
    obtain ⟨length, k⟩ := r
    have hk := Reader.orderly_uint32.le_length hlength
    rw [Cursor.length_window hvalid] at hk
    have hless : (run.cursor.advance k).remaining < bound := by
      rw [Cursor.remaining_advance]
      omega
    have hends := hnext length ⟨run.state, run.cursor.advance k⟩ ⟨run'.state, run.cursor.advance k⟩
      rfl (hvalid.advance hk) hless
    have hbody := Reader.lengthDelimited_map_eq hlength
    rw [← Cursor.window_advance, hc] at hbody
    rw [hc] at hends
    rw [read_apply hlength]
    simp only [hc]
    generalize next length ⟨run.state, run'.cursor.advance k⟩ = result at hends ⊢
    cases hskip : Reader.skip length.toNat (run'.cursor.advance k).window with
    | error e =>
      rw [hskip] at hbody
      rw [read_error hskip] at hends
      rw [read_error hbody, DecodeError.shift_shift, Nat.add_comm k]
      cases hends with
      | error he => exact .error he
    | ok r =>
      obtain ⟨u, n⟩ := r
      have hadvance : (run'.cursor.advance k).advance n = run'.cursor.advance (k + n) := by
        simp only [Cursor.advance, Nat.add_assoc]
      rw [hskip] at hbody
      rw [read_apply hskip, hadvance] at hends
      rw [read_apply hbody]
      cases hends with
      | ok h => exact .ok h
      | refused he => exact .refused he

/-- A range whose body goes through all of it takes as many bytes as are declared. -/
theorem Compares.inRange {declared : Nat} {body : Decode σ Unit} (hkeeps : Keeps .advancing body)
    (hexhausts : Exhausts body) (hlocates : Locates decoder lead bound body) :
    Compares .stricter bound (Decode.inRange declared body)
      (Decode.onCursor (Cursor.read (Reader.skip declared)) : Decode τ Unit) := by
  intro run run' hc hvalid hbound
  rw [inRange_eq]
  by_cases hfit : run.cursor.position + declared ≤ run.cursor.limit
  · have hwindow : declared ≤ run.cursor.window.length := by
      rw [Cursor.length_window hvalid, Cursor.remaining]
      omega
    have hskip : Reader.skip declared run'.cursor.window = .ok ((), declared) := by
      rw [← hc]
      exact Reader.skip_eq_ok_iff.2 ⟨rfl, hwindow⟩
    have hinner := hvalid.narrowed hfit
    have hless := Nat.lt_of_le_of_lt (Cursor.remaining_narrowed_le hfit) hbound
    rw [if_pos hfit, read_apply hskip]
    cases hr : body ⟨run.state, run.cursor.withLimit (run.cursor.position + declared)⟩ with
    | ok u after =>
      have hend : after.cursor.position = run.cursor.position + declared :=
        hexhausts _ _ hinner hr
      have hregion : after.cursor.region = run.cursor.region := (hkeeps.advances hinner hr).region
      simp only [if_pos hend]
      refine .ok ?_
      rw [← hc]
      simp only [Cursor.withLimit, Cursor.advance, hend, hregion]
    | error e after =>
      -- what is missing is missing at the end of the range, which turns it into a wrong length
      refine .refused fun offset needed limit he => ?_
      obtain ⟨rfl, hne⟩ := ne_of_rangeError_eq_truncated he
      cases hlocates _ _ _ hinner hless hr with
      | truncated => exact hne hinner.length_upToLimit
  · rw [if_neg hfit]
    have hwindow : ¬ declared ≤ run'.cursor.window.length := by
      have hp := hvalid.1
      rw [← hc, Cursor.length_window hvalid, Cursor.remaining]
      omega
    have hmissing : Reader.skip declared run'.cursor.window =
        .error (.truncated 0 declared run'.cursor.window.length) := by
      unfold Reader.skip Reader.map Reader.exactly
      rw [if_neg hwindow]
    rw [read_error hmissing]
    exact .error trivial

end Decode

/-! ## Decoders -/

namespace Decoder

variable {σ τ : Type} {decoder : Decoder} {bound : Nat} {visitor : Visitor σ}

theorem quiet_checkLength (decoder : Decoder) (length : Nat) :
    Quiet .stricter (decoder.checkLength length : Decode σ Unit) :=
  decoder.checkLength_induction (fun body (_ : Decode σ Unit) => Quiet .stricter body) length
    (.pure ()) fun _ => .throw fun _ _ _ h => nomatch h

theorem strict_packedRun (h : visitor.Dutiful decoder bound) {element : Tag}
    (helement : visitor.TakesElement element) :
    Compares .stricter bound (decoder.packedRun visitor element)
      (onCursor (Cursor.read (Reader.lengthDelimited.map fun _ => ())) : Decode τ Unit) :=
  .framed fun _ => .inRange (keeps_elements decoder h.keeps element)
    (exhausts_elements decoder h.keeps element) (locates_elements h helement)

theorem strict_decode_delimited (h : visitor.Dutiful decoder bound) :
    Compares .stricter (bound + 1) (decoder.decode visitor true)
      (onCursor (Cursor.read (Reader.lengthDelimited.map fun _ => ())) : Decode τ Unit) :=
  .framed fun _ => .preceded (quiet_checkLength decoder _) fun _ =>
    .inRange (keeps_fields decoder h.keeps) (exhausts_fields decoder h.keeps) (locates_fields h)

theorem strict_merge (h : visitor.Dutiful decoder bound) {type : MessageType σ}
    (htype : type.visitor? = some visitor) :
    Compares .stricter (bound + 1) (decoder.merge type)
      (onCursor (Cursor.read (Reader.lengthDelimited.map fun _ => ())) : Decode τ Unit) := by
  unfold merge
  rw [htype]
  refine .followed (strict_decode_delimited h) fun _ => .get_bind fun run => ?_
  split
  · exact .pure ()
  · exact .throw fun _ _ _ h => nomatch h

end Decoder

/-! ## Schemas -/

namespace Schema

variable {τ : Type} {decoder : Decoder} {schema : Schema} {bound : Nat}

theorem strict_readSub {levels depth : Nat} {sub : Schema}
    (h : Visitor.Dutiful decoder bound (sub.visitAt decoder levels depth)) (repeated : Bool) :
    Compares .stricter (bound + 1) (readSub decoder levels depth repeated sub)
      (onCursor (Cursor.read (Reader.lengthDelimited.map fun _ => ())) : Decode τ Unit) := by
  cases repeated with
  | true => exact Decoder.strict_decode_delimited h
  | false =>
    show Compares .stricter (bound + 1) (decoder.merge (sub.readableType _)) _
    exact Decoder.strict_merge h rfl

/-- What a decoder does with a value, by a schema without scripts, is stricter than passing over it.
-/
theorem strict_visitor (decoder : Decoder) (hs : schema.ScriptFree) (tag : Tag) :
    Compares .stricter bound
      (schema.visitor decoder tag >>= decoder.settle (schema.visitor decoder) tag)
      (onCursor (decoder.skip tag) : Decode τ Unit) := by
  refine compares_visitor fun levels index action htake => ?_
  have hsuits := suits_of_take? htake
  rcases hs.action_cases htake with ⟨kind, rfl⟩ | ⟨kind, rfl⟩ | ⟨repeated, sub, rfl, hsub⟩
  · exact compares_value hsuits fun _ _ _ _ _ _ h => nomatch h
  · have hpasser : tag.wireType.passer? = some (Reader.lengthDelimited.map fun _ => ()) := by
      rw [hsuits.1]
      rfl
    rw [decoder.skip_eq_read hpasser]
    refine Decoder.strict_packedRun (dutiful_visitor decoder hs _)
      (takesElement_visitor decoder hs ?_)
    rw [Tag.wireType_element]
    exact hsuits.2
  · have hpasser : tag.wireType.passer? = some (Reader.lengthDelimited.map fun _ => ()) := by
      rw [show tag.wireType = .lengthDelimited from hsuits]
      rfl
    have hdutiful := dutiful_visitAt decoder levels levels 1 hsub (Nat.le_refl _)
    rw [decoder.skip_eq_read hpasser, act, bind_assoc]
    refine .followed (.onPart (strict_readSub hdutiful repeated)) fun _ => ?_
    simp only [bind_assoc, pure_bind, Decoder.settle]
    exact .bind (.onState _) fun _ => .pure ()

/-! ## Payloads -/

/-- A schema without entries knows no field. -/
theorem visitor_passes (decoder : Decoder) {schema : Schema} (hentries : schema.entries = []) :
    (schema.visitor decoder).Passes := by
  intro tag run
  have htake : schema.take? tag = none := by
    rw [take?, hentries]
    rfl
  exact ⟨_, visitor_unknown decoder htake run⟩

/-- If passing over all fields of a payload goes well, the payload does not run out for a schema. -/
theorem ne_truncated_of_passing (decoder : Decoder) (hs : schema.ScriptFree)
    {visitor' : Visitor τ} (hpasses : visitor'.Passes) {data : Bytes} {target ended : Target}
    {e : DecodeError} {state after : τ}
    (h : decoder.decodeBytes (schema.visitor decoder) data target = .error e ended)
    (hpassed : decoder.decodeBytes visitor' data state = .ok () after) (offset needed limit : Nat) :
    e ≠ .truncated offset needed limit := by
  rcases decoder.admits_or_lt data.length with hadmits | ⟨max, hmax, hless⟩
  · have hends := Decoder.compares_payload decoder (keeps_visitor decoder hs) hpasses
      (fun _ tag => strict_visitor decoder hs tag) data target state
    rw [Decoder.decodeBytes_of_admits hadmits] at h hpassed
    generalize decoder.fields (schema.visitor decoder) ⟨target, .ofBytes data⟩ = result at hends h
    generalize decoder.fields visitor' ⟨state, .ofBytes data⟩ = result' at hends hpassed
    cases hends with
    | ok => cases h
    | refused he =>
      cases h
      exact he offset needed limit
    | error => cases hpassed
  · rw [Decoder.decodeBytes_of_lt hmax hless] at hpassed
    cases hpassed

theorem located_decodeBytes (decoder : Decoder) (hs : schema.ScriptFree) {data : Bytes}
    {target ended : Target} {e : DecodeError}
    (h : decoder.decodeBytes (schema.visitor decoder) data target = .error e ended) :
    e.Located decoder 1 data := by
  rcases decoder.admits_or_lt data.length with hadmits | ⟨max, hmax, hless⟩
  · rw [Decoder.decodeBytes_of_admits hadmits] at h
    cases hr : decoder.fields (schema.visitor decoder) ⟨target, .ofBytes data⟩ with
    | ok u run =>
      rw [hr] at h
      cases h
    | error e' run =>
      rw [hr] at h
      cases h
      have hlocated := Decoder.locates_fields (dutiful_visitor decoder hs data.length) _ _ _
        (Cursor.ofBytes_valid data) (Nat.lt_succ_self _) hr
      have hdata : (Cursor.ofBytes data).upToLimit = data := List.take_length
      rwa [hdata] at hlocated
  · rw [Decoder.decodeBytes_of_lt hmax hless] at h
    cases h
    exact .messageTooLarge hmax hless

/-- If a payload cannot be read by a schema without scripts, the error tells what is wrong with it
and where. It runs out only if passing over its fields runs out as well. -/
theorem decodeBytes_error_located (decoder : Decoder) (hs : schema.ScriptFree) {data : Bytes}
    (hlength : data.length < 2 ^ 63) {target ended : Target} {e : DecodeError}
    (h : decoder.decodeBytes (schema.visitor decoder) data target = .error e ended) :
    e.Located decoder 1 data ∧
      (∀ offset needed limit, e = .truncated offset needed limit → offset + needed < 2 ^ 64) ∧
      ∀ other passed : Target,
        decoder.decodeBytes (visitor decoder ⟨[], []⟩) data other = .ok () passed →
        ∀ offset needed limit, e ≠ .truncated offset needed limit := by
  have hlocated := located_decodeBytes decoder hs h
  refine ⟨hlocated, fun offset needed limit he => ?_, fun other passed hpassed =>
    ne_truncated_of_passing decoder hs (visitor_passes decoder rfl) h hpassed⟩
  subst he
  cases hlocated with
  | truncated _ _ hneeded => omega

/-- Messages that hold messages of their own schema. -/
def chainSchema : Schema := ⟨[.message (some 1) false none], []⟩

/-- The bytes that the inner message misses are put down to the length of the outer one. -/
theorem decodeBytes_chain_located :
    chainSchema.ScriptFree ∧ ([0x0a, 0x02, 0x0a, 0x01] : Bytes).length < 2 ^ 63 ∧
      ∃ ended, Decoder.decodeBytes {} (chainSchema.visitor {}) [0x0a, 0x02, 0x0a, 0x01]
          ⟨chainSchema.blank, []⟩ = .error (.malformedLength 2 2 3) ended ∧
        DecodeError.Located {} 1 [0x0a, 0x02, 0x0a, 0x01] (.malformedLength 2 2 3) := by
  have hs : chainSchema.ScriptFree := .intro (by simp [chainSchema]) (by simp [chainSchema])
  have hlength : ([0x0a, 0x02, 0x0a, 0x01] : Bytes).length < 2 ^ 63 := by decide
  obtain ⟨ended, hfails⟩ : ∃ ended, Decoder.decodeBytes {} (chainSchema.visitor {})
      [0x0a, 0x02, 0x0a, 0x01] ⟨chainSchema.blank, []⟩ = .error (.malformedLength 2 2 3) ended :=
    ⟨_, rfl⟩
  exact ⟨hs, hlength, ended, hfails, (decodeBytes_error_located {} hs hlength hfails).1⟩

end Schema

end WireFormat
