import WireFormat.Proofs.InPlace

/-!
# Errors tell where the bytes are wrong

An error points at a place in the bytes that were read, and what it says of this place is so
(`DecodeError.Located`). Each reader tells so of the bytes it looks at, and a scan that passes over
values tells so of the bytes it scans: the error of a part, moved to where the part lies, is an
error of the whole.
-/

namespace WireFormat

open Decode

/-! ## Places -/

namespace DecodeError

/-- What an error says of some bytes in which values begin at `start` at the earliest, when a
decoder reads them. Not that something is unsupported: this is never the fault of the bytes. -/
inductive Located (decoder : Decoder) (start : Nat) (bytes : Bytes) : DecodeError → Prop
  | truncated {offset needed : Nat} :
      offset ≤ bytes.length → bytes.length < offset + needed →
      offset + needed ≤ bytes.length + 2 ^ 32 →
      Located decoder start bytes (.truncated offset needed bytes.length)
  | malformedLength {begins declared actual : Nat} :
      begins + declared ≤ bytes.length → declared < actual →
      Located decoder start bytes (.malformedLength begins declared actual)
  | unknownWireType {wireBits : UInt8} {offset : Nat} :
      wireBits = 4 ∨ wireBits = 6 ∨ wireBits = 7 → start ≤ offset → offset ≤ bytes.length →
      Located decoder start bytes (.unknownWireType wireBits offset)
  | invalidEncoding {offset validUpTo : Nat} :
      offset + validUpTo < bytes.length →
      Located decoder start bytes (.invalidEncoding offset validUpTo)
  | varintTooLong {offset : Nat} :
      offset + 11 ≤ bytes.length → (∀ b ∈ (bytes.drop offset).take 10, 0x80 ≤ b) →
      Located decoder start bytes (.varintTooLong offset)
  | unbalancedGroup {expected found : UInt32} {offset : Nat} :
      expected ≠ found → offset < bytes.length →
      Located decoder start bytes (.unbalancedGroup expected found offset)
  | recursionLimitExceeded :
      Located decoder start bytes (.recursionLimitExceeded decoder.maxGroupDepth)
  | messageTooLarge {length max : Nat} :
      decoder.maxMessageLength = some max → max < length →
      Located decoder start bytes (.messageTooLarge length max)
  | missingRequiredFields : Located decoder start bytes .missingRequiredFields

variable {decoder : Decoder} {start : Nat} {bytes : Bytes} {e : DecodeError}

theorem Located.mono (h : e.Located decoder start bytes) {start' : Nat} (hstart : start' ≤ start) :
    e.Located decoder start' bytes := by
  cases h with
  | truncated hoffset hends hneeded => exact .truncated hoffset hends hneeded
  | malformedLength hrange hactual => exact .malformedLength hrange hactual
  | unknownWireType hbits hbegins hoffset =>
    exact .unknownWireType hbits (Nat.le_trans hstart hbegins) hoffset
  | invalidEncoding hoffset => exact .invalidEncoding hoffset
  | varintTooLong hoffset hbytes => exact .varintTooLong hoffset hbytes
  | unbalancedGroup hne hoffset => exact .unbalancedGroup hne hoffset
  | recursionLimitExceeded => exact .recursionLimitExceeded
  | messageTooLarge hmax hless => exact .messageTooLarge hmax hless
  | missingRequiredFields => exact .missingRequiredFields

/-- Bytes in front move the error along. -/
theorem Located.behind (h : e.Located decoder start bytes) (before : Bytes) :
    (e.shift before.length).Located decoder (start + before.length) (before ++ bytes) := by
  have hlength : (before ++ bytes).length = bytes.length + before.length := by
    rw [List.length_append, Nat.add_comm]
  cases h with
  | @truncated offset needed hoffset hends hneeded =>
    rw [shift, ← hlength]
    exact .truncated (by omega) (by omega) (by omega)
  | malformedLength hrange hactual => exact .malformedLength (by omega) hactual
  | unknownWireType hbits hbegins hoffset => exact .unknownWireType hbits (by omega) (by omega)
  | invalidEncoding hoffset => exact .invalidEncoding (by omega)
  | @varintTooLong offset hoffset hbytes =>
    refine .varintTooLong (by omega) ?_
    rwa [Nat.add_comm, ← List.drop_drop, List.drop_left]
  | unbalancedGroup hne hoffset => exact .unbalancedGroup hne (by omega)
  | recursionLimitExceeded => exact .recursionLimitExceeded
  | messageTooLarge hmax hless => exact .messageTooLarge hmax hless
  | missingRequiredFields => exact .missingRequiredFields

/-- Bytes behind change nothing, unless it is their absence that the error tells of. -/
theorem Located.before (h : e.Located decoder start bytes) (after : Bytes)
    (hother : ∀ offset needed limit, e ≠ .truncated offset needed limit) :
    e.Located decoder start (bytes ++ after) := by
  have hlength : (bytes ++ after).length = bytes.length + after.length := List.length_append
  cases h with
  | truncated => exact absurd rfl (hother _ _ _)
  | malformedLength hrange hactual => exact .malformedLength (by omega) hactual
  | unknownWireType hbits hbegins hoffset => exact .unknownWireType hbits hbegins (by omega)
  | invalidEncoding hoffset => exact .invalidEncoding (by omega)
  | @varintTooLong offset hoffset hbytes =>
    refine .varintTooLong (by omega) ?_
    rw [List.drop_append_of_le_length (by omega), List.take_append_of_le_length]
    · exact hbytes
    · rw [List.length_drop]
      omega
  | unbalancedGroup hne hoffset => exact .unbalancedGroup hne (by omega)
  | recursionLimitExceeded => exact .recursionLimitExceeded
  | messageTooLarge hmax hless => exact .messageTooLarge hmax hless
  | missingRequiredFields => exact .missingRequiredFields

end DecodeError

/-! ## Readers -/

theorem Varint.of_extent_eq_tooLong {src : Bytes} (h : extent src = .error .tooLong) :
    11 ≤ src.length ∧ ∀ b ∈ src.take 10, 0x80 ≤ b := by
  unfold extent at h
  split at h
  · cases h
  · rename_i i hi
    split at h
    · cases h
    · rename_i hmax
      obtain ⟨hlt, -, hbefore⟩ := List.findIdx?_eq_some_iff_getElem.1 hi
      rw [maxLength] at hmax
      refine ⟨by omega, fun b hb => ?_⟩
      obtain ⟨k, hk, rfl⟩ := List.mem_iff_getElem.1 hb
      rw [List.length_take] at hk
      rw [List.getElem_take]
      exact not_isLast_iff.1 (hbefore k (by omega))

namespace Reader

variable {α β : Type} {decoder : Decoder} {start : Nat}

/-- The errors of a reader point into the bytes it reads. -/
def Locates (decoder : Decoder) (start : Nat) (reader : Reader α) : Prop :=
  ∀ src e, reader src = .error e → e.Located decoder start src

theorem Locates.map {reader : Reader α} (h : reader.Locates decoder start) (f : α → β) :
    (reader.map f).Locates decoder start := by
  intro src e he
  unfold Reader.map at he
  cases hr : reader src with
  | ok r =>
    rw [hr] at he
    cases he
  | error e' =>
    rw [hr] at he
    cases he
    exact h src _ hr

theorem located_varintError {src : Bytes} {e : Varint.Error} (h : Varint.extent src = .error e) :
    (varintError src e).Located decoder start src := by
  cases e with
  | truncated => exact .truncated (Nat.zero_le _) (by omega) (by omega)
  | tooLong =>
    obtain ⟨hlength, hbytes⟩ := Varint.of_extent_eq_tooLong h
    exact .varintTooLong (by omega) hbytes

theorem locates_varint {width : Nat} (groups : Nat) (make : BitVec width → α) :
    (varint groups make).Locates decoder start := by
  intro src e he
  unfold varint Varint.decodeAs at he
  cases hextent : Varint.extent src with
  | ok n =>
    simp only [hextent] at he
    cases he
  | error e' =>
    simp only [hextent] at he
    cases he
    exact located_varintError hextent

theorem locates_uint32 : uint32.Locates decoder start := locates_varint _ _

theorem locates_tag : tag.Locates decoder start := locates_uint32.map _

theorem locates_exactly {count : Nat} (hcount : count ≤ 2 ^ 32) :
    (exactly count).Locates decoder start := by
  intro src e he
  unfold exactly at he
  split at he
  · cases he
  · cases he
    exact .truncated (Nat.zero_le _) (by omega) (by omega)

theorem locates_skip {count : Nat} (hcount : count ≤ 2 ^ 32) :
    (skip count).Locates decoder start := (locates_exactly hcount).map _

theorem locates_lengthDelimited : lengthDelimited.Locates decoder start := by
  intro src e he
  unfold lengthDelimited at he
  cases hlength : uint32 src with
  | error e' =>
    rw [hlength] at he
    cases he
    exact locates_uint32 src _ hlength
  | ok r =>
    obtain ⟨length, k⟩ := r
    have hk := (varint_bounds hlength).2
    rw [hlength] at he
    simp only at he
    cases hbody : exactly length.toNat (src.drop k) with
    | ok r =>
      rw [hbody] at he
      cases he
    | error e' =>
      rw [hbody] at he
      cases he
      have hlocated : e'.Located decoder start (src.drop k) :=
        locates_exactly (Nat.le_of_lt length.toNat_lt) _ _ hbody
      have hmoved := hlocated.behind (src.take k)
      rw [List.take_append_drop, List.length_take, Nat.min_eq_left hk] at hmoved
      exact hmoved.mono (Nat.le_add_right _ _)

theorem locates_text : text.Locates decoder start := by
  intro src e he
  unfold text at he
  cases hbytes : lengthDelimited src with
  | error e' =>
    rw [hbytes] at he
    cases he
    exact locates_lengthDelimited src _ hbytes
  | ok r =>
    obtain ⟨bytes, n⟩ := r
    obtain ⟨k, length, -, hn, hle, rfl⟩ := lengthDelimited_eq_ok_iff.1 hbytes
    rw [hbytes] at he
    simp only at he
    cases hdecode : Utf8.decode ((src.drop k).take length.toNat) with
    | ok s =>
      rw [hdecode] at he
      cases he
    | error validUpTo =>
      rw [hdecode] at he
      cases he
      -- the text lies in front of the end, and it is well formed only up to somewhere inside
      have hvalid := Utf8.lt_length_of_decode_eq_error hdecode
      rw [List.length_take, List.length_drop] at hvalid ⊢
      exact .invalidEncoding (by omega)

end Reader

theorem Kind.locates_reader (kind : Kind) {decoder : Decoder} {start : Nat} :
    kind.reader.Locates decoder start :=
  Kind.reader_induction (P := Reader.Locates decoder start) (fun h f => h.map f)
    (fun make _ _ => Reader.locates_varint _ make)
    (fun _ _ hcount => Reader.locates_exactly (by omega)) Reader.locates_lengthDelimited
    Reader.locates_text kind

/-! ## Skipping -/

theorem Tag.toNat_wireBits_lt (tag : Tag) : tag.wireBits.toNat < 8 := by
  have hmod := Nat.and_two_pow_sub_one_eq_mod tag.raw.toNat 3
  simp only [Nat.reducePow, Nat.reduceSub] at hmod
  rw [wireBits, UInt32.toNat_toUInt8, UInt32.toNat_and]
  simp only [UInt32.reduceToNat, hmod]
  omega

/-- The bits of the wire types that are no layout of a value. -/
theorem Tag.wireBits_of_unknown {tag : Tag}
    (h : tag.wireType = .groupEnd ∨ ∃ bits, tag.wireType = .invalid bits) :
    tag.wireBits = 4 ∨ tag.wireBits = 6 ∨ tag.wireBits = 7 := by
  have hless := tag.toNat_wireBits_lt
  have hvalues : ∀ bits : Fin 8, UInt8.ofNat bits ∈ ([0, 1, 2, 3, 4, 5, 6, 7] : Bytes) := by decide
  have hbits := hvalues ⟨tag.wireBits.toNat, hless⟩
  simp only [UInt8.ofNat_toNat, List.mem_cons, List.not_mem_nil, or_false] at hbits
  unfold wireType at h
  rcases hbits with hbits | hbits | hbits | hbits | hbits | hbits | hbits | hbits <;>
    rw [hbits] at h ⊢ <;> simp [WireType.ofBits] at h ⊢

theorem Passage.after_eq_error {distance n : Nat} {passage : Passage} {e : DecodeError}
    (h : passage.after distance = .error (e, n)) :
    ∃ e' m, passage = .error (e', m) ∧ e = e'.shift distance := by
  rcases passage with ⟨e', m⟩ | m
  · cases h
    exact ⟨e', m, rfl, rfl⟩
  · cases h

namespace Decoder

variable {decoder : Decoder}

theorem locates_skipStep (decoder : Decoder) (tag : Tag) (opened : List UInt32) :
    (decoder.skipStep tag opened).Locates decoder 0 := by
  unfold skipStep
  cases hwire : tag.wireType with
  | varint => exact (Reader.locates_varint _ _).map _
  | fixed32 => exact (Reader.locates_skip (by decide)).map _
  | fixed64 => exact (Reader.locates_skip (by decide)).map _
  | lengthDelimited => exact Reader.locates_lengthDelimited.map _
  | groupStart =>
    intro src e he
    simp only at he
    split at he <;> cases he
    exact .recursionLimitExceeded
  | groupEnd =>
    intro src e he
    cases he
    exact .unknownWireType (tag.wireBits_of_unknown (.inl hwire)) (Nat.le_refl _) (Nat.zero_le _)
  | invalid bits =>
    intro src e he
    cases he
    exact .unknownWireType (tag.wireBits_of_unknown (.inr ⟨bits, hwire⟩)) (Nat.le_refl _)
      (Nat.zero_le _)

/-- An error behind the first bytes. -/
theorem located_after {src : Bytes} {k : Nat} (hk : k ≤ src.length) {passage : Passage}
    (hrest : ∀ e n, passage = .error (e, n) → e.Located decoder 0 (src.drop k)) {e : DecodeError}
    {n : Nat} (h : passage.after k = .error (e, n)) : e.Located decoder 0 src := by
  obtain ⟨e', m, he', rfl⟩ := Passage.after_eq_error h
  have hmoved := (hrest e' m he').behind (src.take k)
  rw [List.take_append_drop, List.length_take, Nat.min_eq_left hk] at hmoved
  exact hmoved.mono (Nat.zero_le _)

theorem located_skipInside {tag : Tag} {opened : List UInt32} {src : Bytes}
    (hrest : ∀ opened' k e n, k ≤ src.length →
      decoder.skipOpened opened' (src.drop k) = .error (e, n) →
      e.Located decoder 0 (src.drop k)) {e : DecodeError} {n : Nat}
    (h : decoder.skipInside tag opened src = .error (e, n)) : e.Located decoder 0 src := by
  unfold skipInside at h
  cases hstep : decoder.skipStep tag opened src with
  | error e' =>
    rw [hstep] at h
    cases h
    exact locates_skipStep decoder tag opened src _ hstep
  | ok r =>
    obtain ⟨opened', k⟩ := r
    have hk := (orderly_skipStep tag opened).le_length hstep
    rw [hstep] at h
    exact located_after hk (fun e n => hrest opened' k e n hk) h

theorem located_skipOpened {opened : List UInt32} {src : Bytes} {e : DecodeError} {n : Nat}
    (h : decoder.skipOpened opened src = .error (e, n)) : e.Located decoder 0 src := by
  -- each step goes past a tag, so the induction is on the bytes that are left
  induction hsize : src.length using Nat.strongRecOn generalizing opened src e n with
  | ind size ih =>
    subst hsize
    cases opened with
    | nil =>
      rw [skipOpened_nil] at h
      cases h
    | cons field outer =>
      rw [skipOpened_cons] at h
      cases htag : Reader.tag src with
      | error e' =>
        rw [htag] at h
        cases h
        exact Reader.locates_tag src _ htag
      | ok r =>
        obtain ⟨tag, k⟩ := r
        obtain ⟨hpos, hk⟩ := Reader.tag_bounds htag
        have hgoes : ∀ opened' j e n, k ≤ j →
            decoder.skipOpened opened' (src.drop j) = .error (e, n) →
            e.Located decoder 0 (src.drop j) := by
          intro opened' j e n hj h
          refine ih _ ?_ h rfl
          rw [List.length_drop]
          omega
        simp only [htag] at h
        by_cases hend : tag.wireType = .groupEnd
        · rw [if_pos hend] at h
          by_cases hfield : tag.field = field
          · rw [if_pos hfield] at h
            exact located_after hk (fun e n => hgoes outer k e n (Nat.le_refl _)) h
          · rw [if_neg hfield] at h
            cases h
            exact .unbalancedGroup (Ne.symm hfield) (by omega)
        · rw [if_neg hend] at h
          refine located_after hk (fun e n => located_skipInside fun opened' j e n _ => ?_) h
          rw [List.drop_drop]
          exact hgoes opened' (k + j) e n (Nat.le_add_right _ _)

theorem located_skipBytes {tag : Tag} {src : Bytes} {e : DecodeError} {n : Nat}
    (h : decoder.skipBytes tag src = .error (e, n)) : e.Located decoder 0 src := by
  rw [skipBytes_eq_skipInside] at h
  exact located_skipInside (fun _ _ _ _ _ => located_skipOpened) h

end Decoder

end WireFormat
