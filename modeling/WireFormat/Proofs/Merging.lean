import WireFormat.Schema.Encoding
import WireFormat.Proofs.Concatenation
import WireFormat.Proofs.Payload
import WireFormat.Proofs.Verdict

/-!
# A message that comes in parts

A length-delimited message may come in parts, each behind a length of its own. Merging them one
after another leaves the same message and has the same verdict as merging their bytes behind one
length (`Schema.merge_twice`). Required fields are asked for behind each part, with what is there
by then, so the first part may be refused for want of a field that the second one brings. Such a
refusal leaves the message and the cursor as a merge that goes well does.

Parts that are read well are read well alone, and what is read well alone is read well in place
(`decodeBytes_of_decode_eq_ok`, `decode_of_decodeBytes_eq_ok`). Alone, they can be put together
(`decodeBytes_append_ok`). The visits on the way differ, but reading goes by the message alone
(`decodeBytes_congr`).
-/

namespace WireFormat

open Decode

theorem eq_ok_final {σ : Type} {result : EStateM.Result DecodeError (Run σ) Unit}
    (h : (verdict result).isOk = true) : result = .ok () (final result) := by
  cases result with
  | ok u run => rfl
  | error e run => cases h

theorem verdict_eq_ok {σ : Type} {result : EStateM.Result DecodeError (Run σ) Unit}
    (h : (verdict result).isOk = true) : verdict result = .ok () := by
  rw [eq_ok_final h]
  rfl

namespace Schema

variable {schema : Schema} {decoder : Decoder} {payload : Bytes} {target target' ended : Target}

/-- Targets with the same message are read into in the same way. -/
theorem decodeBytes_congr (hs : schema.ScriptFree) (hadmits : decoder.Admits payload.length)
    (hsame : target.SameMessage target')
    (h : decoder.decodeBytes (schema.visitor decoder) payload target = .ok () ended) :
    ∃ ended', decoder.decodeBytes (schema.visitor decoder) payload target' = .ok () ended' ∧
      ended.SameMessage ended' := by
  have hmirrors := Run.mirrors_in_place hsame payload [] []
  simp only [List.nil_append, List.append_nil, List.length_nil, Nat.zero_add] at hmirrors
  have hends := EndsBehind.of_fields hadmits hadmits (Decoder.alike_fields decoder
    (alike_visitor decoder hs) (keeps_visitor decoder hs) _ _ hmirrors (Nat.lt_succ_self _))
  rw [h] at hends
  generalize decoder.decodeBytes (schema.visitor decoder) payload target' = result at hends ⊢
  cases hends with
  | ok hended => exact ⟨_, rfl, hended⟩

/-- What is read well behind a payload that is read well is read well with it. -/
theorem decodeBytes_append_ok (hs : schema.ScriptFree) {first second : Bytes}
    (hadmits : decoder.Admits (first.length + second.length)) {middle : Target}
    (hfirst : decoder.decodeBytes (schema.visitor decoder) first target = .ok () middle)
    (hsecond : decoder.decodeBytes (schema.visitor decoder) second middle = .ok () ended) :
    ∃ ended', decoder.decodeBytes (schema.visitor decoder) (first ++ second) target =
      .ok () ended' ∧ ended.SameMessage ended' := by
  obtain ⟨alone, hfields, rfl⟩ := Decoder.fields_of_decodeBytes_eq_ok hfirst
  have hends := EndsBehind.of_fields (hadmits.mono (Nat.le_add_left _ _))
    (by rwa [List.length_append]) (fields_append decoder hs hfields second)
  rw [hsecond] at hends
  generalize decoder.decodeBytes (schema.visitor decoder) (first ++ second) target = result
    at hends ⊢
  cases hends with
  | ok hended => exact ⟨_, rfl, hended⟩

/-- What is read well alone is read well behind its length, among other bytes, and the limit is
kept. -/
theorem decode_of_decodeBytes_eq_ok (hs : schema.ScriptFree) (hlength : payload.length < 2 ^ 32)
    (hadmits : decoder.Admits payload.length)
    (h : decoder.decodeBytes (schema.visitor decoder) payload target = .ok () ended)
    (before after : Bytes) :
    ∃ run, decoder.decode (schema.visitor decoder) true
        ⟨target, ⟨before ++ lengthPrefixed payload ++ after, before.length,
          (before ++ lengthPrefixed payload ++ after).length⟩⟩ = .ok () run ∧
      ended.SameMessage run.state ∧
      run.cursor = ⟨before ++ lengthPrefixed payload ++ after,
        (before ++ lengthPrefixed payload).length,
        (before ++ lengthPrefixed payload ++ after).length⟩ := by
  obtain ⟨alone, hfields, rfl⟩ := Decoder.fields_of_decodeBytes_eq_ok h
  let front := before ++ Varint.encode (UInt64.ofNat payload.length)
  have hregion : before ++ lengthPrefixed payload ++ after = front ++ payload ++ after := by
    simp [front, lengthPrefixed, List.append_assoc]
  have hrange := range_in_place decoder hs target hlength front after
  rw [hfields, ← hregion] at hrange
  obtain ⟨run, hrun, hmessage, hcursor⟩ := hrange.ok alone.state rfl
  refine ⟨run, ?_, hmessage.symm, ?_⟩
  · rw [decoder.decode_lengthPrefixed _ hlength, Decoder.checkLength_of_admits hadmits]
    rw [show front.length = before.length + _ from List.length_append] at hrun
    exact hrun
  · rw [hcursor]
    simp [front, lengthPrefixed, Nat.add_assoc]

/-- What is read well behind its length is read well alone. -/
theorem decodeBytes_of_decode_eq_ok (hs : schema.ScriptFree) (hlength : payload.length < 2 ^ 32)
    (hadmits : decoder.Admits payload.length) {run : Run Target}
    (h : decoder.decode (schema.visitor decoder) true
      ⟨target, .ofBytes (lengthPrefixed payload)⟩ = .ok () run) :
    ∃ ended, decoder.decodeBytes (schema.visitor decoder) payload target = .ok () ended ∧
      ended.SameMessage run.state := by
  let front := Varint.encode (UInt64.ofNat payload.length)
  have hrange := range_in_place decoder hs target hlength front []
  have hdecode := decoder.decode_lengthPrefixed (schema.visitor decoder) hlength [] [] target
  rw [Decoder.checkLength_of_admits hadmits] at hdecode
  simp only [List.nil_append, List.append_nil, List.length_nil, Nat.zero_add] at hdecode hrange
  have hinside : inRange payload.length (decoder.fields (schema.visitor decoder))
      ⟨target, ⟨front ++ payload, front.length, (front ++ payload).length⟩⟩ = .ok () run :=
    hdecode.symm.trans h
  rw [hinside] at hrange
  rw [Decoder.decodeBytes_of_admits hadmits]
  cases halone : decoder.fields (schema.visitor decoder) ⟨target, .ofBytes payload⟩ with
  | ok u alone =>
    obtain ⟨run', hrun, hmessage, -⟩ := hrange.ok alone.state (by rw [halone]; rfl)
    cases hrun
    exact ⟨alone.state, rfl, hmessage.symm⟩
  | error e alone =>
    -- no failure alone is a success in place
    by_cases htruncated : ∃ offset needed limit, e = .truncated offset needed limit
    · obtain ⟨offset, needed, limit, rfl⟩ := htruncated
      obtain ⟨-, run', hrun, -⟩ :=
        hrange.truncated offset needed limit alone.state (by rw [halone]; rfl)
      cases hrun
    · obtain ⟨run', hrun, -⟩ := hrange.error e alone.state (by rw [halone]; rfl)
        fun offset needed limit he => htruncated ⟨offset, needed, limit, he⟩
      cases hrun

/-- Behind fields that are read well, a merge asks for the required ones, and undoes nothing. -/
theorem merge_of_decode_eq_ok {run after : Run Target}
    (h : decoder.decode (schema.visitor decoder) true run = .ok () after) :
    decoder.merge (schema.messageType decoder) run =
      if schema.isComplete after.state.message then .ok () after
      else .error .missingRequiredFields after := by
  show (decoder.decode (schema.visitor decoder) true >>= fun _ => get >>= fun run =>
    if schema.isComplete run.state.message = true then pure ()
      else throw .missingRequiredFields : Decode Target Unit) run = _
  rw [bind_apply, h]
  show (if schema.isComplete after.state.message = true then pure ()
    else throw .missingRequiredFields : Decode Target Unit) after = _
  split <;> rfl

theorem final_merge {run after : Run Target}
    (h : decoder.decode (schema.visitor decoder) true run = .ok () after) :
    final (decoder.merge (schema.messageType decoder) run) = after := by
  rw [merge_of_decode_eq_ok h]
  split <;> rfl

theorem verdict_merge {run after : Run Target}
    (h : decoder.decode (schema.visitor decoder) true run = .ok () after) :
    verdict (decoder.merge (schema.messageType decoder) run) =
      if schema.isComplete after.state.message then .ok () else .error .missingRequiredFields := by
  rw [merge_of_decode_eq_ok h]
  split <;> rfl

/-- Two payloads that are read well one after the other are read well each behind its length, and
both behind one length, and leave the same message. -/
theorem decode_of_payloads (hs : schema.ScriptFree) {first second : Bytes}
    (hlength : first.length + second.length < 2 ^ 32)
    (hadmits : decoder.Admits (first.length + second.length)) {middle : Target}
    (hfirst : decoder.decodeBytes (schema.visitor decoder) first target = .ok () middle)
    (hsecond : decoder.decodeBytes (schema.visitor decoder) second middle = .ok () ended) :
    let parts := lengthPrefixed first ++ lengthPrefixed second
    let both := lengthPrefixed (first ++ second)
    ∃ after behind done,
      decoder.decode (schema.visitor decoder) true ⟨target, .ofBytes parts⟩ = .ok () after ∧
      decoder.decode (schema.visitor decoder) true after = .ok () behind ∧
      decoder.decode (schema.visitor decoder) true ⟨target, .ofBytes both⟩ = .ok () done ∧
      behind.state.SameMessage done.state ∧
      behind.cursor = ⟨parts, parts.length, parts.length⟩ ∧
      done.cursor = ⟨both, both.length, both.length⟩ := by
  intro parts both
  have hadmitsSecond := hadmits.mono (Nat.le_add_left _ _)
  have hbothLength : (first ++ second).length < 2 ^ 32 := by rwa [List.length_append]
  have hadmitsBoth : decoder.Admits (first ++ second).length := by rwa [List.length_append]
  -- the parts, one after another
  obtain ⟨after, hafter, hmiddleAfter, hafterCursor⟩ := decode_of_decodeBytes_eq_ok hs (by omega)
    (hadmits.mono (Nat.le_add_right _ _)) hfirst [] (lengthPrefixed second)
  obtain ⟨put, hput, hendedPut⟩ := decodeBytes_congr hs hadmitsSecond hmiddleAfter hsecond
  obtain ⟨behind, hbehind, hputBehind, hbehindCursor⟩ :=
    decode_of_decodeBytes_eq_ok hs (by omega) hadmitsSecond hput (lengthPrefixed first) []
  -- both of them behind one length
  obtain ⟨whole, hwhole, hendedWhole⟩ := decodeBytes_append_ok hs hadmits hfirst hsecond
  obtain ⟨done, hdone, hwholeDone, hdoneCursor⟩ :=
    decode_of_decodeBytes_eq_ok hs hbothLength hadmitsBoth hwhole [] []
  simp only [List.nil_append, List.append_nil, List.length_nil]
    at hafter hafterCursor hbehind hbehindCursor hdone hdoneCursor
  refine ⟨after, behind, done, hafter, ?_, hdone, ?_, hbehindCursor, hdoneCursor⟩
  · rw [show after = ⟨after.state, after.cursor⟩ from rfl, hafterCursor]
    exact hbehind
  · exact (hendedPut.trans hputBehind).symm.trans (hendedWhole.trans hwholeDone)

/-- Parts that are read well one after the other have payloads that are. -/
theorem decodeBytes_of_parts (hs : schema.ScriptFree) {first second : Bytes}
    (hlength : first.length + second.length < 2 ^ 32)
    (hadmits : decoder.Admits (first.length + second.length)) {middle last : Run Target}
    (hfirst : decoder.decode (schema.visitor decoder) true
      ⟨target, .ofBytes (lengthPrefixed first)⟩ = .ok () middle)
    (hsecond : decoder.decode (schema.visitor decoder) true
      ⟨middle.state, .ofBytes (lengthPrefixed second)⟩ = .ok () last) :
    ∃ alone joined, decoder.decodeBytes (schema.visitor decoder) first target = .ok () alone ∧
      decoder.decodeBytes (schema.visitor decoder) second alone = .ok () joined := by
  have hadmitsSecond := hadmits.mono (Nat.le_add_left _ _)
  obtain ⟨alone, halone, hsame⟩ := decodeBytes_of_decode_eq_ok hs (by omega)
    (hadmits.mono (Nat.le_add_right _ _)) hfirst
  obtain ⟨ended, hended, -⟩ := decodeBytes_of_decode_eq_ok hs (by omega) hadmitsSecond hsecond
  -- the second one is read into what the first one leaves alone, as into what it leaves in place
  obtain ⟨joined, hjoined, -⟩ := decodeBytes_congr hs hadmitsSecond hsame.symm hended
  exact ⟨alone, joined, halone, hjoined⟩

/-- Two parts of a message that can be read one after another are merged as their bytes are behind
one length. Behind the first part, there may be required fields missing; the message and the cursor
are then where they would be without. -/
theorem merge_twice (hs : schema.ScriptFree) {first second : Bytes}
    (hlength : first.length + second.length < 2 ^ 32)
    (hadmits : decoder.Admits (first.length + second.length)) (target : Target)
    {middle last : Run Target}
    (hfirst : decoder.decode (schema.visitor decoder) true
      ⟨target, .ofBytes (lengthPrefixed first)⟩ = .ok () middle)
    (hsecond : decoder.decode (schema.visitor decoder) true
      ⟨middle.state, .ofBytes (lengthPrefixed second)⟩ = .ok () last) :
    let merge := decoder.merge (schema.messageType decoder)
    let parts := lengthPrefixed first ++ lengthPrefixed second
    let both := lengthPrefixed (first ++ second)
    let once := merge ⟨target, .ofBytes parts⟩
    let twice := merge (final once)
    let whole := merge ⟨target, .ofBytes both⟩
    (verdict once = .ok () ∨ verdict once = .error .missingRequiredFields) ∧
      verdict twice = verdict whole ∧
      (final twice).state.SameMessage (final whole).state ∧
      (final twice).cursor = ⟨parts, parts.length, parts.length⟩ ∧
      (final whole).cursor = ⟨both, both.length, both.length⟩ := by
  intro merge parts both once twice whole
  obtain ⟨alone, joined, halone, hjoined⟩ := decodeBytes_of_parts hs hlength hadmits hfirst hsecond
  obtain ⟨after, behind, done, hafter, hbehind, hdone, hsame, hbehindCursor, hdoneCursor⟩ :=
    decode_of_payloads hs hlength hadmits halone hjoined
  have honce : final once = after := final_merge hafter
  have htwice : decoder.decode (schema.visitor decoder) true (final once) = .ok () behind := by
    rw [honce]
    exact hbehind
  have hfinalTwice : final twice = behind := final_merge htwice
  have hfinalWhole : final whole = done := final_merge hdone
  have hverdictOnce : verdict once = if schema.isComplete after.state.message then .ok ()
      else .error .missingRequiredFields := verdict_merge hafter
  have hverdictTwice : verdict twice = if schema.isComplete behind.state.message then .ok ()
      else .error .missingRequiredFields := verdict_merge htwice
  have hverdictWhole : verdict whole = if schema.isComplete done.state.message then .ok ()
      else .error .missingRequiredFields := verdict_merge hdone
  refine ⟨?_, ?_, ?_, ?_, ?_⟩
  · rw [hverdictOnce]
    split
    · exact .inl rfl
    · exact .inr rfl
  · rw [hverdictTwice, hverdictWhole, show behind.state.message = done.state.message from hsame]
  · rw [hfinalTwice, hfinalWhole]
    exact hsame
  · rw [hfinalTwice]
    exact hbehindCursor
  · rw [hfinalWhole]
    exact hdoneCursor

/-- Messages that have to have a number and a sub-message with numbers. -/
def partsSchema : Schema :=
  ⟨[.scalar (some 1) .uint32 false,
    .message (some 2) false (some ⟨[.scalar (some 3) .uint32 false], [3]⟩)], [1, 2]⟩

/-- The first part has some of the sub-message and not the number; the second one has the rest. -/
theorem merge_twice_late_number :
    let merge := Decoder.merge {} (partsSchema.messageType {})
    let first : Bytes := [0x12, 0x02, 0x18, 0x05]
    let second : Bytes := [0x12, 0x02, 0x18, 0x06, 0x08, 0x01]
    let target : Target := ⟨partsSchema.blank, []⟩
    let once := merge ⟨target, .ofBytes (lengthPrefixed first ++ lengthPrefixed second)⟩
    let twice := merge (final once)
    let whole := merge ⟨target, .ofBytes (lengthPrefixed (first ++ second))⟩
    partsSchema.ScriptFree ∧ Decoder.Admits {} (first.length + second.length) ∧
      verdict once = .error .missingRequiredFields ∧ verdict whole = .ok () ∧
      verdict twice = .ok () ∧ (final twice).state.SameMessage (final whole).state ∧
      (final twice).cursor.position = 12 ∧ (final twice).cursor.limit = 12 := by
  intro merge first second target once twice whole
  have hs : partsSchema.ScriptFree := by
    refine .intro (by simp [partsSchema]) ?_
    intro number repeated sub hmem
    obtain ⟨-, -, rfl⟩ : number = some 2 ∧ repeated = false ∧
        sub = ⟨[.scalar (some 3) .uint32 false], [3]⟩ := by simpa [partsSchema] using hmem
    exact .intro (by simp) (by simp)
  have hadmits : Decoder.Admits {} (first.length + second.length) := .of_none rfl _
  let middle := Decoder.decode {} (partsSchema.visitor {}) true
    ⟨target, .ofBytes (lengthPrefixed first)⟩
  let last := Decoder.decode {} (partsSchema.visitor {}) true
    ⟨(final middle).state, .ofBytes (lengthPrefixed second)⟩
  have hfirst : (verdict middle).isOk = true := by decide +kernel
  have hsecond : (verdict last).isOk = true := by decide +kernel
  obtain ⟨honce, hverdict, hsame, hcursor, -⟩ :=
    merge_twice hs (by decide) hadmits target (eq_ok_final hfirst) (eq_ok_final hsecond)
  have hmissing : (verdict once).isOk = false := by decide +kernel
  have hwhole : verdict whole = .ok () := verdict_eq_ok (by decide +kernel)
  have hparts : (lengthPrefixed first ++ lengthPrefixed second).length = 12 := by decide +kernel
  refine ⟨hs, hadmits, ?_, hwhole, hverdict.trans hwhole, hsame, ?_, ?_⟩
  · rcases honce with hok | herror
    · rw [show verdict once = .ok () from hok] at hmissing
      cases hmissing
    · exact herror
  · rw [hcursor]
    exact hparts
  · rw [hcursor]
    exact hparts

end Schema

end WireFormat
