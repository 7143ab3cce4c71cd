import WireFormat.Proofs.Widening

/-!
# Concatenating payloads merges messages

A payload behind another one that was read well is read into the message which that one left, as if
it were alone: the same fields come out, and the same errors further on
(`Schema.decodeBytes_append`). The first payload read as the front of both is the same loop with a
later limit, and the second payload behind it is read as the same bytes further on.
-/

namespace WireFormat

open Decode

theorem Decoder.Admits.mono {decoder : Decoder} {length length' : Nat} (h : decoder.Admits length)
    (hle : length' ≤ length) : decoder.Admits length' :=
  fun max hmax => Nat.le_trans hle (h max hmax)

/-- A run behind the first bytes of a region and in front of the others. -/
def Run.between {σ : Type} (state : σ) (before after : Bytes) : Run σ :=
  ⟨state, ⟨before ++ after, before.length, (before ++ after).length⟩⟩

namespace Schema

variable {schema : Schema}

/-- What reading a payload says of reading it `distance` bytes further on: the same message comes
out, and a failure is the same error at a place that is so much further on. -/
inductive EndsBehind (distance : Nat) :
    EStateM.Result DecodeError Target Unit → EStateM.Result DecodeError Target Unit → Prop
  | ok {ended ended' : Target} :
      ended.SameMessage ended' → EndsBehind distance (.ok () ended) (.ok () ended')
  | error {e : DecodeError} {ended ended' : Target} :
      ended.SameMessage ended' →
      EndsBehind distance (.error e ended) (.error (e.shift distance) ended')

/-- If the fields of one payload end as those of another one behind some bytes, so do the payloads.
-/
theorem EndsBehind.of_fields {decoder : Decoder} {visitor : Visitor Target} {data data' : Bytes}
    (hadmits : decoder.Admits data.length) (hadmits' : decoder.Admits data'.length)
    {target target' : Target} {distance limit : Nat}
    (h : EndsAlike distance Target.SameMessage limit
      (decoder.fields visitor ⟨target, .ofBytes data⟩)
      (decoder.fields visitor ⟨target', .ofBytes data'⟩)) :
    EndsBehind distance (decoder.decodeBytes visitor data target)
      (decoder.decodeBytes visitor data' target') := by
  rw [Decoder.decodeBytes_of_admits hadmits, Decoder.decodeBytes_of_admits hadmits']
  generalize decoder.fields visitor ⟨target, .ofBytes data⟩ = result at h ⊢
  generalize decoder.fields visitor ⟨target', .ofBytes data'⟩ = result' at h ⊢
  cases h with
  | ok hmirrors => exact .ok hmirrors.state
  | error hmirrors => exact .error hmirrors.state

/-- The loop over the fields up to a limit. -/
def fieldsLoop (decoder : Decoder) (schema : Schema) (limit rounds : Nat) : Decode Target Unit :=
  repeatWhile (fun c => c.position < limit) (decoder.field (schema.visitor decoder)) rounds

/-- If the first bytes are read well alone, the loop over all of them comes behind these, with
rounds left for the others. -/
theorem fieldsLoop_front (decoder : Decoder) (hs : schema.ScriptFree) {first : Bytes}
    {target : Target} {alone : Run Target}
    (h : decoder.fields (schema.visitor decoder) ⟨target, .ofBytes first⟩ = .ok () alone)
    (second : Bytes) :
    ∃ (taken : Nat) (reached : Target), taken ≤ first.length ∧
      alone.state.SameMessage reached ∧ ∀ rounds,
        fieldsLoop decoder schema (first ++ second).length (taken + rounds)
            ⟨target, .ofBytes (first ++ second)⟩ =
          fieldsLoop decoder schema (first ++ second).length rounds
            (.between reached first second) := by
  have hkeeps : ∀ tag, Keeps .advancing (schema.visitor decoder tag) := keeps_visitor decoder hs
  have hend := (Decoder.fields_landing decoder (keeps_visitor decoder hs)
    (Cursor.ofBytes_valid first) h).1
  have hfront := fields_in_place decoder hs target first [] second
  rw [h, List.nil_append, List.length_nil, Nat.zero_add] at hfront
  generalize hr : decoder.fields (schema.visitor decoder)
    ⟨target, ⟨first ++ second, 0, first.length⟩⟩ = result at hfront
  cases hfront with
  | @ok _ _ reached hmirrors =>
    have hfit : first.length ≤ (first ++ second).length :=
      List.length_append ▸ Nat.le_add_right _ _
    have hvalid : (Cursor.mk (first ++ second) 0 first.length).Valid := ⟨Nat.zero_le _, hfit⟩
    have hmove := (Decoder.keeps_fields decoder hkeeps).advances hvalid hr
    have hposition : reached.cursor.position = first.length := by
      rw [hmirrors.cursor.position, hend]
      rfl
    -- the same loop, first with its limit behind the first bytes and then behind all of them
    have hloop : repeatWhile (fun c => c.position < first.length)
        (decoder.field (schema.visitor decoder)) _ ⟨target, ⟨first ++ second, 0, first.length⟩⟩ =
          .ok () reached := hr
    have hmore : ∀ c wider : Cursor, wider = c.withLimit (first ++ second).length →
        decide (c.position < first.length) = true →
        decide (wider.position < (first ++ second).length) = true := by
      rintro c wider rfl hless
      exact decide_eq_true (Nat.lt_of_lt_of_le (of_decide_eq_true hless) hfit)
    obtain ⟨taken, htaken, hsame⟩ := Widens.repeatWhile hmore (widens_field decoder hs)
      (Decoder.keeps_field decoder hkeeps)
      (fun _ _ => Decoder.field_progress decoder fun tag => (hkeeps tag).narrowing) _ _ _ hvalid
      hfit hloop
    refine ⟨taken, reached.state, ?_, hmirrors.state, fun rounds => ?_⟩
    · have hstart : 0 + taken ≤ reached.cursor.position := htaken
      omega
    · have hregion : reached.cursor.region = first ++ second := hmove.region
      have hwider : reached.withLimit (first ++ second).length =
          .between reached.state first second := by
        rw [Run.withLimit, Cursor.withLimit, hregion, hposition, Run.between]
      rw [← hwider]
      exact hsame rounds

/-- The fields of two payloads, of which the first is read well. -/
theorem fields_append (decoder : Decoder) (hs : schema.ScriptFree) {first : Bytes}
    {target : Target} {alone : Run Target}
    (h : decoder.fields (schema.visitor decoder) ⟨target, .ofBytes first⟩ = .ok () alone)
    (second : Bytes) :
    EndsAlike first.length Target.SameMessage second.length
      (decoder.fields (schema.visitor decoder) ⟨alone.state, .ofBytes second⟩)
      (decoder.fields (schema.visitor decoder) ⟨target, .ofBytes (first ++ second)⟩) := by
  obtain ⟨taken, reached, htaken, hsame, hgoes⟩ := fieldsLoop_front decoder hs h second
  have hkeeps : ∀ tag, Keeps .advancing (schema.visitor decoder tag) := keeps_visitor decoder hs
  have hlength : (first ++ second).length = first.length + second.length := List.length_append
  -- there are rounds enough for all bytes, and not more taken than there are first bytes
  have hplaces : (first ++ second).length < (Cursor.ofBytes (first ++ second)).places :=
    (Cursor.ofBytes_valid (first ++ second)).remaining_lt_places
  obtain ⟨rounds, hrounds⟩ : ∃ rounds,
      (Cursor.ofBytes (first ++ second)).places = taken + rounds :=
    ⟨_, (Nat.add_sub_cancel' (by omega)).symm⟩
  have hmirrors : Run.Mirrors first.length Target.SameMessage ⟨alone.state, .ofBytes second⟩
      (.between reached first second) :=
    ⟨hsame, Cursor.ofBytes_valid second, ⟨first, [], (List.append_nil _).symm, rfl⟩,
      (Nat.zero_add _).symm, hlength.trans (Nat.add_comm _ _)⟩
  have hboth : decoder.fields (schema.visitor decoder) ⟨target, .ofBytes (first ++ second)⟩ =
      fieldsLoop decoder schema (first ++ second).length rounds
        (.between reached first second) := by
    rw [← hgoes rounds, ← hrounds]
    rfl
  rw [hboth]
  have hfield : Alike first.length Target.SameMessage (second.length + 1)
      (decoder.field (schema.visitor decoder)) (decoder.field (schema.visitor decoder)) :=
    Decoder.alike_field decoder (alike_visitor decoder hs) hkeeps
  refine EndsAlike.repeatWhile (fun _ _ => decide_eq_true_iff) (fun c _ => ?_) hfield
    (Decoder.keeps_field decoder hkeeps)
    (fun _ _ => Decoder.field_progress decoder fun tag => (hkeeps tag).narrowing) _ _ _ _
    hmirrors rfl (Nat.lt_succ_self _)
    (Nat.le_of_lt (Cursor.ofBytes_valid second).remaining_lt_places) ?_
  · rw [decide_eq_true_iff, hlength, Nat.add_comm]
  · show second.length ≤ rounds
    omega

/-- If a payload is read well, reading it with another one behind is reading the other one into the
message that it left, with the same errors as many bytes further on as it has. Only places in the
bytes move along, not the bounds of the decoder that an error names. -/
theorem decodeBytes_append (decoder : Decoder) (hs : schema.ScriptFree) {first second : Bytes}
    (hadmits : decoder.Admits (first.length + second.length)) {target middle : Target}
    (h : decoder.decodeBytes (schema.visitor decoder) first target = .ok () middle) :
    EndsBehind first.length (decoder.decodeBytes (schema.visitor decoder) second middle)
      (decoder.decodeBytes (schema.visitor decoder) (first ++ second) target) := by
  have hboth : decoder.Admits (first ++ second).length := by rwa [List.length_append]
  obtain ⟨alone, hr, rfl⟩ := Decoder.fields_of_decodeBytes_eq_ok h
  exact .of_fields (hadmits.mono (Nat.le_add_left _ _)) hboth (fields_append decoder hs hr second)

/-- A schema of numbers under the number one. -/
def countersSchema : Schema := ⟨[.scalar (some 1) .uint32 false], []⟩

/-- What is there after the number one was read. -/
def counted : Target := ⟨⟨[.scalars [.uint32 1]], [1]⟩, [⟨0, ⟨8⟩, 1⟩]⟩

/-- A number that breaks off is missed two bytes further on, behind a number that was read. -/
theorem decodeBytes_append_broken :
    countersSchema.ScriptFree ∧
      Decoder.Admits {} (([0x08, 0x01] : Bytes).length + ([0x08, 0x80] : Bytes).length) ∧
      Decoder.decodeBytes {} (countersSchema.visitor {}) [0x08, 0x01] ⟨countersSchema.blank, []⟩ =
        .ok () counted ∧
      ∃ ended, Decoder.decodeBytes {} (countersSchema.visitor {}) [0x08, 0x01, 0x08, 0x80]
          ⟨countersSchema.blank, []⟩ = .error (.truncated 3 2 4) ended ∧
        counted.SameMessage ended := by
  have hs : countersSchema.ScriptFree :=
    .intro (by simp [countersSchema]) (by simp [countersSchema])
  have hadmits :
      Decoder.Admits {} (([0x08, 0x01] : Bytes).length + ([0x08, 0x80] : Bytes).length) :=
    fun _ h => nomatch h
  have hfirst : Decoder.decodeBytes {} (countersSchema.visitor {}) [0x08, 0x01]
      ⟨countersSchema.blank, []⟩ = .ok () counted := rfl
  have hends : EndsBehind 2
      (Decoder.decodeBytes {} (countersSchema.visitor {}) [0x08, 0x80] counted)
      (Decoder.decodeBytes {} (countersSchema.visitor {}) ([0x08, 0x01] ++ [0x08, 0x80])
        ⟨countersSchema.blank, []⟩) := decodeBytes_append {} hs hadmits hfirst
  have hsecond : Decoder.decodeBytes {} (countersSchema.visitor {}) [0x08, 0x80] counted =
      .error (.truncated 1 2 2) { counted with visits := counted.visits ++ [⟨0, ⟨8⟩, 1⟩] } := rfl
  rw [hsecond, List.cons_append, List.cons_append, List.nil_append] at hends
  refine ⟨hs, hadmits, hfirst, ?_⟩
  generalize Decoder.decodeBytes {} (countersSchema.visitor {}) [0x08, 0x01, 0x08, 0x80]
    ⟨countersSchema.blank, []⟩ = both at hends ⊢
  cases hends with
  | error hsame => exact ⟨_, rfl, hsame⟩

end Schema

end WireFormat
