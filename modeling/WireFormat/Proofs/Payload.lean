import WireFormat.Proofs.Dutiful

/-!
# Messages read in place

A message behind its length is read inside the region that it lies in, and it is read as if its
bytes were all there is: the same fields come out, and the same errors further on. Only a message
that ends too early is told apart, since in place it is the length that was wrong
(`decode_delimited_in_place`). How many bytes would have been needed is what the message alone asks
for, since a schema without scripts never asks for more than a word can count
(`Schema.needed_le_of_fields`).
-/

namespace WireFormat

open Decode

namespace Schema

/-- The bytes that a message wants beyond its end are no more than a length can declare. -/
theorem needed_le_of_fields (decoder : Decoder) {schema : Schema} (hs : schema.ScriptFree)
    {target : Target} {payload : Bytes} {offset needed limit : Nat} {ended : Run Target}
    (h : decoder.fields (schema.visitor decoder) ⟨target, .ofBytes payload⟩ =
      .error (.truncated offset needed limit) ended) :
    offset + needed ≤ payload.length + 2 ^ 32 := by
  have hlocated := Decoder.locates_fields (dutiful_visitor decoder hs _)
    ⟨target, .ofBytes payload⟩ _ ended (Cursor.ofBytes_valid payload) (Nat.lt_succ_self _) h
  have hall : (Cursor.ofBytes payload).upToLimit = payload := List.take_length
  rw [hall] at hlocated
  cases hlocated with
  | truncated _ _ hneeded => exact hneeded

/-- What reading a message alone says of reading it in place, where its bytes begin at `start` of a
region: the messages agree in every case. In place, a failure is the same failure further on, but
for bytes that ran out: there the length was wrong. -/
structure SimulatedInPlace (start : Nat) (payload region : Bytes)
    (alone : EStateM.Result DecodeError Target Unit)
    (inPlace : EStateM.Result DecodeError (Run Target) Unit) : Prop where
  ok : ∀ ended, alone = .ok () ended →
    ∃ run, inPlace = .ok () run ∧ run.state.message = ended.message ∧
      run.cursor = ⟨region, start + payload.length, region.length⟩
  truncated : ∀ offset needed limit ended, alone = .error (.truncated offset needed limit) ended →
    limit = payload.length ∧
      ∃ run, inPlace = .error (.malformedLength start payload.length (offset + needed)) run ∧
        run.state.message = ended.message
  error : ∀ e ended, alone = .error e ended →
    (∀ offset needed limit, e ≠ .truncated offset needed limit) →
    ∃ run, inPlace = .error (e.shift start) run ∧ run.state.message = ended.message

/-- What `decodeBytes` makes of the end of a run. -/
def endOf : EStateM.Result DecodeError (Run Target) Unit → EStateM.Result DecodeError Target Unit
  | .ok () run => .ok () run.state
  | .error e run => .error e run.state

theorem range_in_place (decoder : Decoder) {schema : Schema} (hs : schema.ScriptFree)
    (target : Target) {payload : Bytes} (hlength : payload.length < 2 ^ 32) (before after : Bytes) :
    SimulatedInPlace before.length payload (before ++ payload ++ after)
      (endOf (decoder.fields (schema.visitor decoder) ⟨target, .ofBytes payload⟩))
      (inRange payload.length (decoder.fields (schema.visitor decoder))
        ⟨target, ⟨before ++ payload ++ after, before.length,
          (before ++ payload ++ after).length⟩⟩) := by
  have hfit : before.length + payload.length ≤ (before ++ payload ++ after).length := by
    simp only [List.length_append]
    omega
  have hend := fields_in_place decoder hs target payload before after
  have hkeeps : Keeps .advancing (decoder.fields (schema.visitor decoder)) :=
    Decoder.keeps_fields decoder (keeps_visitor decoder hs)
  have hregion := (hkeeps
    ⟨target, ⟨before ++ payload ++ after, before.length, before.length + payload.length⟩⟩
    ⟨Nat.le_add_right _ _, hfit⟩).region
  rw [inRange_eq, if_pos hfit]
  dsimp only [Cursor.withLimit]
  generalize hinner : decoder.fields (schema.visitor decoder) ⟨target, .ofBytes payload⟩ = result
    at hend ⊢
  generalize decoder.fields (schema.visitor decoder)
    ⟨target, ⟨before ++ payload ++ after, before.length, before.length + payload.length⟩⟩ = result'
    at hend hregion ⊢
  cases hend with
  | @ok u ended ended' hm =>
    -- fields that are read well end where the message does
    have hlands := (Decoder.fields_landing decoder (keeps_visitor decoder hs)
      (Cursor.ofBytes_valid payload) hinner).1
    have hposition : ended'.cursor.position = before.length + payload.length := by
      rw [hm.cursor.position, hlands]
      exact Nat.add_comm _ _
    simp only [if_pos hposition]
    refine ⟨?_, ?_, ?_⟩
    · intro t ht
      cases ht
      refine ⟨_, rfl, hm.state.symm, ?_⟩
      rw [hposition]
      simp only [final_ok] at hregion
      rw [hregion]
    · intro offset needed limit t ht
      cases ht
    · intro e t ht
      cases ht
  | @error e ended ended' hm htruncated =>
    -- a truncation names the end of the message, alone and, further on, in place
    have hmoved : rangeError before.length (before.length + payload.length) payload.length
        (e.shift before.length) =
          (rangeError 0 payload.length payload.length e).shift before.length := by
      have hshift := rangeError_shift before.length 0 payload.length payload.length e
      rwa [Nat.zero_add, Nat.add_comm payload.length] at hshift
    simp only [hmoved]
    refine ⟨?_, ?_, ?_⟩
    · intro t ht
      cases ht
    · intro offset needed limit t ht
      cases ht
      have hlimit := htruncated _ _ _ rfl
      have hneeded := needed_le_of_fields decoder hs hinner
      have hcount : Countable 0 (offset + needed) := ⟨Nat.zero_le _, by omega⟩
      rw [rangeError, if_pos hlimit, DecodeError.shift, Nat.zero_add, hcount.span_eq, Nat.sub_zero]
      exact ⟨hlimit, _, rfl, hm.state.symm⟩
    · intro e' t ht hother
      cases ht
      rw [rangeError_of_ne hother]
      exact ⟨_, rfl, hm.state.symm⟩

/-- Reading a message in place, behind its length, simulates reading its bytes on their own. -/
theorem decode_delimited_in_place (decoder : Decoder) {schema : Schema} (hs : schema.ScriptFree)
    (target : Target) {payload : Bytes} (hlength : payload.length < 2 ^ 32)
    (before after : Bytes) :
    let start := before.length + (Varint.encode (UInt64.ofNat payload.length)).length
    let region := before ++ lengthPrefixed payload ++ after
    SimulatedInPlace start payload region
      (decoder.decodeBytes (schema.visitor decoder) payload target)
      (decoder.decode (schema.visitor decoder) true
        ⟨target, ⟨region, before.length, region.length⟩⟩) := by
  intro start region
  -- in place, the bytes in front of the payload are `before` and the length
  let front := before ++ Varint.encode (UInt64.ofNat payload.length)
  have hregion : region = front ++ payload ++ after := by
    simp [region, front, lengthPrefixed, List.append_assoc]
  have hstart : start = front.length := by simp [start, front]
  have halone : decoder.decodeBytes (schema.visitor decoder) payload target =
      endOf (decoder.decode (schema.visitor decoder) false ⟨target, .ofBytes payload⟩) := by
    unfold Decoder.decodeBytes
    cases decoder.decode (schema.visitor decoder) false ⟨target, .ofBytes payload⟩ <;> rfl
  have hfields : decoder.decode (schema.visitor decoder) false ⟨target, .ofBytes payload⟩ =
      (decoder.checkLength payload.length >>= fun _ => decoder.fields (schema.visitor decoder))
        ⟨target, .ofBytes payload⟩ := rfl
  rw [halone, hfields, decoder.decode_lengthPrefixed _ hlength before after target, bind_apply,
    bind_apply]
  rcases decoder.checkLength_cases payload.length with hok | ⟨max, herror⟩
  · rw [hok, hok]
    show SimulatedInPlace start payload region
      (endOf (decoder.fields (schema.visitor decoder) ⟨target, .ofBytes payload⟩))
      (inRange payload.length (decoder.fields (schema.visitor decoder))
        ⟨target, ⟨region, start, region.length⟩⟩)
    rw [hregion, hstart]
    exact range_in_place decoder hs target hlength front after
  · rw [herror, herror]
    refine ⟨?_, ?_, ?_⟩
    · intro ended h
      cases h
    · intro offset needed limit ended h
      cases h
    · intro e ended h _
      cases h
      exact ⟨_, rfl, rfl⟩

/-- Messages with one number. -/
def numberSchema : Schema := ⟨[.scalar (some 1) .uint32 false], []⟩

/-- A varint that goes on behind the declared end of the message is a wrong length, although the
byte it goes on with is there. -/
theorem decode_varint_across_end :
    numberSchema.ScriptFree ∧ ([0x08, 0x96] : Bytes).length < 2 ^ 32 ∧
      ∃ run, Decoder.decode {} (numberSchema.visitor {}) true
        ⟨⟨numberSchema.blank, []⟩, ⟨[0x12, 0x02, 0x08, 0x96, 0x01], 1, 5⟩⟩ =
          .error (.malformedLength 2 2 3) run := by
  have hs : numberSchema.ScriptFree := .intro (by simp [numberSchema]) (by simp [numberSchema])
  have hlength : ([0x08, 0x96] : Bytes).length < 2 ^ 32 := by decide
  have hsimulated := decode_delimited_in_place {} hs ⟨numberSchema.blank, []⟩ hlength [0x12] [0x01]
  obtain ⟨ended, halone⟩ : ∃ ended, Decoder.decodeBytes {} (numberSchema.visitor {}) [0x08, 0x96]
      ⟨numberSchema.blank, []⟩ = .error (.truncated 1 2 2) ended := ⟨_, rfl⟩
  obtain ⟨-, run, hrun, -⟩ := hsimulated.truncated 1 2 2 ended halone
  exact ⟨hs, hlength, run, hrun⟩

end Schema

end WireFormat
