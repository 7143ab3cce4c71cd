import WireFormat.Proofs.InPlace
import WireFormat.Proofs.Verdict

/-!
# What a length is taken for

Where a length is read, its varint is read into 32 bits. What these hold is kept to by all who read
one: bytes behind a length are just as many, or are missed, and messages and packed runs behind a
length end where as many bytes end, or fail (`Decoder.HoldsTo`). No visitor can make up for a
length that does not agree with what is behind it.

So lengths that 32 bits hold are honoured in full. Of longer ones only the low 32 bits are left, and
a length that announces 4 GiB is taken for none (`Decoder.lengths_cut_to_word`).
-/

namespace WireFormat

open Decode

variable {σ : Type}

/-! ## Bytes behind a length -/

namespace Reader

theorem uint32_of_decode {src : Bytes} {length : UInt64} {k : Nat}
    (h : Varint.decode src = .ok (length, k)) : uint32 src = .ok (length.toUInt32, k) :=
  varint_eq_ok.2 (Varint.decode32_of_decode h)

/-- Behind a length, as many bytes are taken, or missed. -/
theorem lengthDelimited_of_uint32 {src : Bytes} {length : UInt32} {k : Nat}
    (h : uint32 src = .ok (length, k)) :
    lengthDelimited src =
      if k + length.toNat ≤ src.length then
        .ok ((src.drop k).take length.toNat, k + length.toNat)
      else .error (.truncated k length.toNat src.length) := by
  have hk := (varint_bounds h).2
  have hfit : length.toNat ≤ (src.drop k).length ↔ k + length.toNat ≤ src.length := by
    rw [List.length_drop]
    omega
  unfold lengthDelimited exactly
  simp only [h, hfit]
  by_cases hlength : k + length.toNat ≤ src.length
  · simp only [if_pos hlength]
  · have hend : (src.drop k).length + k = src.length := by
      rw [List.length_drop]
      omega
    simp only [if_neg hlength, DecodeError.shift, Nat.zero_add, hend]

end Reader

namespace Cursor

/-- The bytes of a window from some place on are those of the region. -/
theorem take_drop_window {c : Cursor} {k n : Nat} (h : k + n ≤ c.remaining) :
    (c.window.drop k).take n = (c.region.drop (c.position + k)).take n := by
  rw [window, List.drop_take, List.drop_drop, List.take_take, Nat.min_eq_left]
  omega

/-- As many bytes as the length says are read from the region, or are missed in front of the limit.
-/
theorem read_lengthDelimited {c : Cursor} (hc : c.Valid) {length : UInt32} {k : Nat}
    (h : Reader.uint32 c.window = .ok (length, k)) :
    read Reader.lengthDelimited c =
      if c.position + k + length.toNat ≤ c.limit then
        .ok ((c.region.drop (c.position + k)).take length.toNat) (c.advance (k + length.toNat))
      else .error (.truncated (c.position + k) length.toNat c.limit) c := by
  have hwindow := length_window hc
  have hle := hc.1
  unfold read
  rw [Reader.lengthDelimited_of_uint32 h, hwindow]
  by_cases hfit : c.position + k + length.toNat ≤ c.limit
  · have hremaining : k + length.toNat ≤ c.remaining := by
      rw [remaining]
      omega
    simp only [if_pos hfit, if_pos hremaining, take_drop_window hremaining]
  · have hremaining : ¬ k + length.toNat ≤ c.remaining := by
      rw [remaining]
      omega
    have hlimit : c.remaining + c.position = c.limit := Nat.sub_add_cancel hle
    rw [if_neg hfit, Nat.add_comm c.position]
    simp only [if_neg hremaining, DecodeError.shift, hlimit]

end Cursor

/-! ## Ranges behind a length -/

/-- A range that is left well was there, and is left at its end and with the limit it had. -/
theorem Decode.inRange_eq_ok {declared : Nat} {body : Decode σ Unit} {run after : Run σ}
    (h : inRange declared body run = .ok () after) :
    run.cursor.position + declared ≤ run.cursor.limit ∧
      after.cursor.position = run.cursor.position + declared ∧
      after.cursor.limit = run.cursor.limit := by
  rw [inRange_eq] at h
  by_cases hfit : run.cursor.position + declared ≤ run.cursor.limit
  · rw [if_pos hfit] at h
    cases hbody : body ⟨run.state, run.cursor.withLimit (run.cursor.position + declared)⟩ with
    | error e ended =>
      simp only [hbody] at h
      cases h
    | ok u ended =>
      simp only [hbody] at h
      by_cases hend : ended.cursor.position = run.cursor.position + declared
      · rw [if_pos hend] at h
        cases h
        exact ⟨hfit, hend, rfl⟩
      · rw [if_neg hend] at h
        cases h
  · rw [if_neg hfit] at h
    cases h

namespace Decoder

/-- A run ended behind a length of `k` bytes and as many bytes as declared, which were there, and
with the limit it had. -/
structure Covers (c : Cursor) (k declared : Nat) (after : Run σ) : Prop where
  fits : c.position + k + declared ≤ c.limit
  position : after.cursor.position = c.position + k + declared
  limit : after.cursor.limit = c.limit

/-- All that reads behind a length of `k` bytes at the cursor holds to as many bytes as declared. -/
structure HoldsTo (decoder : Decoder) (visitor : Visitor σ) (run : Run σ) (k declared : Nat) :
    Prop where
  /-- Bytes are read if they are there, and only then. -/
  reads_iff : (∃ bytes after, Cursor.read Reader.lengthDelimited run.cursor = .ok bytes after) ↔
    run.cursor.position + k + declared ≤ run.cursor.limit
  /-- They are those that come next in the region, no fewer, and the cursor is left behind them. -/
  reads : ∀ bytes after, Cursor.read Reader.lengthDelimited run.cursor = .ok bytes after →
    bytes = (run.cursor.region.drop (run.cursor.position + k)).take declared ∧
      bytes.length = declared ∧ after = run.cursor.advance (k + declared)
  /-- If they are not there, they are missed, and the cursor stays. -/
  misses : run.cursor.limit < run.cursor.position + k + declared →
    Cursor.read Reader.lengthDelimited run.cursor =
      .error (.truncated (run.cursor.position + k) declared run.cursor.limit) run.cursor
  /-- A message that is read well covers them. -/
  decodes : ∀ after, decoder.decode visitor true run = .ok () after →
    Covers run.cursor k declared after
  /-- A packed run that is read well covers them. -/
  unpacks : ∀ element after, decoder.packedRun visitor element run = .ok () after →
    Covers run.cursor k declared after

variable {decoder : Decoder} {visitor : Visitor σ} {run after : Run σ}

theorem Covers.of_inRange {length : UInt32} {k : Nat} {body : Decode σ Unit}
    (h : inRange length.toNat body ⟨run.state, run.cursor.advance k⟩ = .ok () after) :
    Covers run.cursor k length.toNat after := by
  obtain ⟨hfit, hposition, hlimit⟩ := inRange_eq_ok h
  exact ⟨hfit, hposition, hlimit⟩

theorem holdsTo_of_uint32 (decoder : Decoder) (visitor : Visitor σ) (hc : run.cursor.Valid)
    {length : UInt32} {k : Nat} (h : Reader.uint32 run.cursor.window = .ok (length, k)) :
    decoder.HoldsTo visitor run k length.toNat := by
  have hread := Cursor.read_lengthDelimited hc h
  refine ⟨?_, ?_, fun hless => ?_, ?_, ?_⟩
  · rw [hread]
    by_cases hfit : run.cursor.position + k + length.toNat ≤ run.cursor.limit <;> simp [hfit]
  · intro bytes after hok
    rw [hread] at hok
    by_cases hfit : run.cursor.position + k + length.toNat ≤ run.cursor.limit
    · rw [if_pos hfit] at hok
      cases hok
      refine ⟨rfl, ?_, rfl⟩
      have hregion := hc.2
      rw [List.length_take, List.length_drop]
      omega
    · rw [if_neg hfit] at hok
      cases hok
  · rw [hread, if_neg (Nat.not_le.2 hless)]
  · intro after hok
    rw [decode_delimited_apply decoder h] at hok
    obtain ⟨_, checked, hcheck, hrange⟩ := bind_eq_ok hok
    rcases checkLength_cases decoder length.toNat with hpasses | ⟨max, hrefused⟩
    · rw [hpasses] at hcheck
      cases hcheck
      exact .of_inRange hrange
    · rw [hrefused] at hcheck
      cases hcheck
  · intro element after hok
    obtain ⟨length', _, hlength, hrange⟩ := bind_eq_ok hok
    rw [read_apply h] at hlength
    cases hlength
    exact .of_inRange hrange

/-- What counts of a length is its low 32 bits, and to them all readers hold. So they hold to a
length that 32 bits hold itself. -/
theorem lengths_cut_to_word (decoder : Decoder) (visitor : Visitor σ) (hc : run.cursor.Valid)
    {length : UInt64} {k : Nat} (h : Varint.decode run.cursor.window = .ok (length, k)) :
    decoder.HoldsTo visitor run k (length.toNat % 2 ^ 32) ∧
      (length.toNat < 2 ^ 32 → decoder.HoldsTo visitor run k length.toNat) := by
  have hholds := holdsTo_of_uint32 decoder visitor hc (Reader.uint32_of_decode h)
  rw [UInt64.toNat_toUInt32] at hholds
  refine ⟨hholds, fun hword => ?_⟩
  rwa [Nat.mod_eq_of_lt hword] at hholds

/-- The length of 4 GiB, and nothing behind it. -/
def wideRun : Run Unit := ⟨(), .ofBytes [0x80, 0x80, 0x80, 0x80, 0x10]⟩

/-- A length of 4 GiB is taken for none: no byte is read, none is missed, and the same goes for the
message and the packed run, where the bytes that it announces are not there. -/
theorem lengths_cut_to_word_wide :
    wideRun.cursor.Valid ∧ Varint.decode wideRun.cursor.window = .ok (0x100000000, 5) ∧
      HoldsTo {} passing wideRun 5 0 ∧ ¬ HoldsTo {} passing wideRun 5 (2 ^ 32) ∧
      Cursor.read Reader.lengthDelimited wideRun.cursor = .ok [] (wideRun.cursor.advance 5) := by
  have hvalid : wideRun.cursor.Valid := by decide
  have hlength : Varint.decode wideRun.cursor.window = .ok (0x100000000, 5) := rfl
  have hread : Cursor.read Reader.lengthDelimited wideRun.cursor =
      .ok [] (wideRun.cursor.advance 5) := rfl
  refine ⟨hvalid, hlength, (lengths_cut_to_word {} passing hvalid hlength).1, fun hholds => ?_,
    hread⟩
  exact absurd (hholds.reads_iff.1 ⟨_, _, hread⟩) (by decide)

end Decoder

end WireFormat
