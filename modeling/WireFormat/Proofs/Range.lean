import WireFormat.Proofs.Motion

/-!
# Ranges are left as they were entered

Whatever a visitor does inside a range, as long as it only goes on and only lowers the limit, the
limit is back where it was when the range is left. If the range is left well, the position is at its
end. `decode_range_discipline` says so for messages behind a length, for packed runs and for
messages up to the limit.
-/

namespace WireFormat

open Decode

variable {σ : Type}

/-- How a computation ends that has to go through so many bytes from a cursor: with the limit of the
cursor, not in front of it, and, if all is well, behind these bytes. -/
structure Lands (declared : Nat) (c : Cursor) (result : EStateM.Result DecodeError (Run σ) Unit) :
    Prop where
  region : (final result).cursor.region = c.region
  limit : (final result).cursor.limit = c.limit
  position_le : c.position ≤ (final result).cursor.position
  le_limit : (final result).cursor.position ≤ c.limit
  landing : ∀ after, result = .ok () after → after.cursor.position = c.position + declared

/-- How a computation ends that has to go through a length at a cursor and as many bytes as it
says. -/
structure LandsBehindLength (c : Cursor) (result : EStateM.Result DecodeError (Run σ) Unit) :
    Prop where
  region : (final result).cursor.region = c.region
  limit : (final result).cursor.limit = c.limit
  position_le : c.position ≤ (final result).cursor.position
  le_limit : (final result).cursor.position ≤ c.limit
  landing : ∀ after, result = .ok () after → ∃ length k,
    Reader.uint32 c.window = .ok (length, k) ∧
      after.cursor.position = c.position + k + length.toNat

namespace Lands

variable {declared : Nat}

theorem error {run : Run σ} (hc : run.cursor.Valid) (e : DecodeError) :
    Lands declared run.cursor (.error e run : EStateM.Result DecodeError (Run σ) Unit) :=
  ⟨rfl, rfl, Nat.le_refl _, hc.1, by intro after h; cases h⟩

/-- Leaving a range. -/
theorem inRange {body : Decode σ Unit} (hbody : Keeps .narrowing body) {run : Run σ}
    (hc : run.cursor.Valid) : Lands declared run.cursor (Decode.inRange declared body run) := by
  have hkeep : run.cursor.Narrows (final (Decode.inRange declared body run)).cursor :=
    hbody.inRange run hc
  -- the body may leave the limit lower; each way out of the range sets it back
  rw [inRange_eq] at hkeep ⊢
  by_cases hfit : run.cursor.position + declared ≤ run.cursor.limit
  · rw [if_pos hfit] at hkeep ⊢
    cases hr : body ⟨run.state, run.cursor.withLimit (run.cursor.position + declared)⟩ with
    | error e after =>
      simp only [hr] at hkeep ⊢
      exact ⟨hkeep.region, rfl, hkeep.position_le, hkeep.le_limit, by intro after h; cases h⟩
    | ok u after =>
      simp only [hr] at hkeep ⊢
      by_cases hend : after.cursor.position = run.cursor.position + declared
      · rw [if_pos hend] at hkeep ⊢
        refine ⟨hkeep.region, rfl, hkeep.position_le, hkeep.le_limit, ?_⟩
        intro after' h
        cases h
        exact hend
      · rw [if_neg hend] at hkeep ⊢
        exact ⟨hkeep.region, rfl, hkeep.position_le, hkeep.le_limit, by intro after h; cases h⟩
  · rw [if_neg hfit]
    exact error hc _

end Lands

/-- A length is read, and what comes next goes through as many bytes. -/
theorem LandsBehindLength.read {next : UInt32 → Decode σ Unit}
    (hnext : ∀ length (run : Run σ), run.cursor.Valid →
      Lands length.toNat run.cursor (next length run))
    {run : Run σ} (hc : run.cursor.Valid) :
    LandsBehindLength run.cursor ((onCursor (Cursor.read Reader.uint32) >>= next) run) := by
  rw [bind_apply]
  unfold onCursor Cursor.read
  cases hr : Reader.uint32 run.cursor.window with
  | error e => exact ⟨rfl, rfl, Nat.le_refl _, hc.1, by intro after h; cases h⟩
  | ok r =>
    obtain ⟨length, k⟩ := r
    have hk := Reader.orderly_uint32.le_length hr
    rw [Cursor.length_window hc] at hk
    have hstart : run.cursor.position ≤ run.cursor.position + k := Nat.le_add_right _ _
    have h := hnext length ⟨run.state, run.cursor.advance k⟩ (hc.advance hk)
    refine ⟨h.region, h.limit, Nat.le_trans hstart h.position_le, h.le_limit, ?_⟩
    intro after hok
    exact ⟨length, k, hr, h.landing after hok⟩

namespace Decoder

theorem checkLength_cases (decoder : Decoder) (length : Nat) :
    (∀ run : Run σ, decoder.checkLength length run = .ok () run) ∨
      ∃ max, ∀ run : Run σ,
        decoder.checkLength length run = .error (.messageTooLarge length max) run := by
  unfold checkLength
  cases decoder.maxMessageLength with
  | none => exact .inl fun _ => rfl
  | some max =>
    by_cases hless : max < length
    · simp only [if_pos hless]
      exact .inr ⟨max, fun _ => rfl⟩
    · simp only [if_neg hless]
      exact .inl fun _ => rfl

/-- Messages of this length are begun. -/
def Admits (decoder : Decoder) (length : Nat) : Prop :=
  ∀ max, decoder.maxMessageLength = some max → length ≤ max

/-- Without a bound, messages of every length are begun. -/
theorem Admits.of_none {decoder : Decoder} (h : decoder.maxMessageLength = none) (length : Nat) :
    decoder.Admits length := by
  intro max hmax
  rw [h] at hmax
  cases hmax

theorem admits_or_lt (decoder : Decoder) (length : Nat) :
    decoder.Admits length ∨ ∃ max, decoder.maxMessageLength = some max ∧ max < length := by
  cases hbound : decoder.maxMessageLength with
  | none => exact .inl (.of_none hbound length)
  | some max =>
    rcases Nat.lt_or_ge max length with hless | hle
    · exact .inr ⟨max, rfl, hless⟩
    · refine .inl fun other hother => ?_
      rw [hbound] at hother
      exact Option.some.inj hother ▸ hle

theorem checkLength_of_admits {decoder : Decoder} {length : Nat} (h : decoder.Admits length) :
    (decoder.checkLength length : Decode σ Unit) = pure () := by
  unfold checkLength
  cases hmax : decoder.maxMessageLength with
  | none => rfl
  | some max => exact if_neg (Nat.not_lt.2 (h max hmax))

theorem checkLength_of_lt {decoder : Decoder} {length max : Nat}
    (hmax : decoder.maxMessageLength = some max) (h : max < length) :
    (decoder.checkLength length : Decode σ Unit) = throw (.messageTooLarge length max) := by
  unfold checkLength
  rw [hmax]
  exact if_pos h

/-- A payload that is begun is read as fields. -/
theorem decodeBytes_of_admits {decoder : Decoder} {data : Bytes}
    (h : decoder.Admits data.length) (visitor : Visitor σ) (state : σ) :
    decoder.decodeBytes visitor data state =
      match decoder.fields visitor ⟨state, .ofBytes data⟩ with
      | .ok () run => .ok () run.state
      | .error e run => .error e run.state := by
  have hdecode : decoder.decode visitor false ⟨state, .ofBytes data⟩ =
      (decoder.checkLength data.length >>= fun _ => decoder.fields visitor)
        ⟨state, .ofBytes data⟩ := rfl
  unfold decodeBytes
  rw [hdecode, checkLength_of_admits h]
  rfl

theorem decodeBytes_of_lt {decoder : Decoder} {data : Bytes} {max : Nat}
    (hmax : decoder.maxMessageLength = some max) (h : max < data.length) (visitor : Visitor σ)
    (state : σ) :
    decoder.decodeBytes visitor data state = .error (.messageTooLarge data.length max) state := by
  have hdecode : decoder.decode visitor false ⟨state, .ofBytes data⟩ =
      (decoder.checkLength data.length >>= fun _ => decoder.fields visitor)
        ⟨state, .ofBytes data⟩ := rfl
  unfold decodeBytes
  rw [hdecode, checkLength_of_lt hmax h]
  rfl

/-- A payload that is read well is begun, and its fields are read well. -/
theorem fields_of_decodeBytes_eq_ok {decoder : Decoder} {visitor : Visitor σ} {data : Bytes}
    {state ended : σ} (h : decoder.decodeBytes visitor data state = .ok () ended) :
    ∃ run, decoder.fields visitor ⟨state, .ofBytes data⟩ = .ok () run ∧ run.state = ended := by
  rcases decoder.admits_or_lt data.length with hadmits | ⟨max, hmax, hless⟩
  · rw [decodeBytes_of_admits hadmits] at h
    cases hr : decoder.fields visitor ⟨state, .ofBytes data⟩ with
    | error e run =>
      rw [hr] at h
      cases h
    | ok u run =>
      rw [hr] at h
      cases h
      exact ⟨run, rfl, rfl⟩
  · rw [decodeBytes_of_lt hmax hless] at h
    cases h

variable {visitor : Visitor σ}

/-- Fields that are read well end at the limit, which is where it was. -/
theorem fields_landing (decoder : Decoder) (hvisitor : ∀ tag, Keeps .narrowing (visitor tag))
    {run after : Run σ} (hc : run.cursor.Valid) (h : decoder.fields visitor run = .ok () after) :
    after.cursor.position = run.cursor.limit ∧ after.cursor.limit = run.cursor.limit := by
  have hkeep : run.cursor.Narrows (final (decoder.fields visitor run)).cursor :=
    keeps_fields decoder hvisitor run hc
  rw [h] at hkeep
  -- the loop goes by the limit at its start, which a visitor may have lowered since
  have hloop : repeatWhile (fun c => c.position < run.cursor.limit) (decoder.field visitor)
      run.cursor.places run = .ok () after := h
  have hmore := more_of_repeatWhile_eq_ok hloop
  simp only [decide_eq_false_iff_not, Nat.not_lt] at hmore
  have hlimit := hkeep.limit_le
  have hle := hkeep.le_limit
  simp only [final_ok] at hlimit hle
  omega

/-- Messages behind a length and packed runs give back the limit, however they end, and end behind
their bytes if they end well; messages without a length end at the limit if they end well. The
visitor may be any that goes on and lowers limits at most. -/
theorem decode_range_discipline (decoder : Decoder) {visitor : Visitor σ}
    (hvisitor : ∀ tag, Keeps .narrowing (visitor tag)) (run : Run σ) (hc : run.cursor.Valid) :
    LandsBehindLength run.cursor (decoder.decode visitor true run) ∧
    (∀ after, decoder.decode visitor false run = .ok () after →
      after.cursor.position = run.cursor.limit ∧ after.cursor.limit = run.cursor.limit) ∧
    ∀ element, LandsBehindLength run.cursor (decoder.packedRun visitor element run) := by
  refine ⟨?_, ?_, ?_⟩
  · refine LandsBehindLength.read (fun length run hc => ?_) hc
    rw [bind_apply]
    rcases checkLength_cases decoder length.toNat with hok | ⟨max, herror⟩
    · rw [hok]
      exact .inRange (keeps_fields decoder hvisitor) hc
    · rw [herror]
      exact .error hc _
  · intro after h
    have hstart : decoder.decode visitor false run =
        (decoder.checkLength run.cursor.remaining >>= fun _ => decoder.fields visitor) run := rfl
    rw [hstart, bind_apply] at h
    rcases checkLength_cases decoder run.cursor.remaining with hok | ⟨max, herror⟩
    · rw [hok] at h
      exact fields_landing decoder hvisitor hc h
    · rw [herror] at h
      cases h
  · intro element
    refine LandsBehindLength.read (fun length run hc => ?_) hc
    exact .inRange (.bind .cursor fun _ =>
      .repeatWhile (keeps_packedElement decoder hvisitor element) _) hc

/-- A visitor that takes a byte and leaves the limit where it stands. -/
def closingVisitor : Visitor Unit := fun _ => do
  onCursor (Cursor.read (Reader.skip 1))
  let _ ← onCursor (Cursor.narrow 0)
  return .handled

theorem keeps_closingVisitor (tag : Tag) : Keeps .narrowing (closingVisitor tag) :=
  .bind (.read (Reader.orderly_skip 1)) fun _ => .bind (.narrow 0) fun _ => .pure _

/-- The limit that the visitor leaves behind is taken back, in front of a byte that is not read. -/
theorem decode_closingVisitor :
    let run : Run Unit := ⟨(), ⟨[0x02, 0x08, 0x05, 0x09], 0, 4⟩⟩
    (∀ tag, Keeps .narrowing (closingVisitor tag)) ∧ run.cursor.Valid ∧
      ∃ after, Decoder.decode {} closingVisitor true run = .ok () after ∧
        after.cursor.position = 3 ∧ after.cursor.limit = 4 := by
  intro run
  have hvalid : run.cursor.Valid := by decide
  have hlands := (decode_range_discipline {} keeps_closingVisitor run hvalid).1
  obtain ⟨after, hok⟩ : ∃ after, Decoder.decode {} closingVisitor true run = .ok () after :=
    ⟨_, rfl⟩
  obtain ⟨length, k, hread, hposition⟩ := hlands.landing after hok
  have hlength : Reader.uint32 run.cursor.window = .ok (2, 1) := rfl
  rw [hlength] at hread
  cases hread
  have hlimit := hlands.limit
  rw [hok] at hlimit
  exact ⟨keeps_closingVisitor, hvalid, after, hok, hposition, hlimit⟩

end Decoder

end WireFormat
