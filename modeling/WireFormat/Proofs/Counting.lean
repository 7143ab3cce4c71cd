import WireFormat.Proofs.LocatedRuns

/-!
# Bytes that can be counted

A range whose body wants bytes behind its end says how many there would have to be, and counts them
from its start in a word. What a decoder wants itself lies no further behind the limit than 32 bits
say, so in regions of less than 2^63 bytes such a count is exact. A visitor may want any number of
bytes. If what it wants can be counted from where it starts (`Decode.Counts`), then so can all that
the decoder wants (`Decoder.counts_fields`, `Decoder.counts_elements`). This is so with computations
that always tell where the bytes are wrong (`Decode.Counts.of_locates`).
-/

namespace WireFormat

open Decode

theorem Decode.Countable.mono {start start' stop : Nat} (h : Countable start stop)
    (hstart : start' ≤ start) : Countable start' stop :=
  ⟨Nat.le_trans hstart h.1, h.2⟩

/-- What is missed in the window of a cursor can be counted from the cursor. -/
theorem DecodeError.Located.countable {decoder : Decoder} {e : DecodeError} {c : Cursor}
    (hc : c.Valid) (hsmall : c.region.length < 2 ^ 63) (h : e.Located decoder 0 c.window)
    {offset needed limit : Nat} (he : e.shift c.position = .truncated offset needed limit) :
    Countable c.position (offset + needed) := by
  have hwindow := Cursor.length_window hc
  obtain ⟨hp, hl⟩ := hc
  rw [Cursor.remaining] at hwindow
  cases h with
  | truncated _ _ hneeded =>
    cases he
    exact ⟨by omega, by omega⟩
  | _ => cases he

namespace Decode

variable {σ α β : Type}

/-- What a computation wants beyond some limit can be counted from where it starts, in a region of
less than 2^63 bytes. -/
def Counts (body : Decode σ α) : Prop :=
  ∀ (run after : Run σ) (offset needed limit : Nat), run.cursor.Valid →
    run.cursor.region.length < 2 ^ 63 →
    body run = .error (.truncated offset needed limit) after →
    Countable run.cursor.position (offset + needed)

/-! ## Putting computations together -/

theorem Counts.pure (a : α) : Counts (Pure.pure a : Decode σ α) := by
  intro run after offset needed limit _ _ h
  cases h

theorem Counts.throw {e : DecodeError}
    (he : ∀ offset needed limit, e ≠ .truncated offset needed limit) :
    Counts (throw e : Decode σ α) := by
  intro run after offset needed limit _ _ h
  cases h
  exact absurd rfl (he _ _ _)

theorem Counts.cursor : Counts (Decode.cursor : Decode σ Cursor) := by
  intro run after offset needed limit _ _ h
  cases h

/-- A computation that never goes back counts from further on. -/
theorem Counts.bind {first : Decode σ α} {next : α → Decode σ β} (hfirst : Counts first)
    (hkeeps : Keeps .narrowing first) (hnext : ∀ a, Counts (next a)) :
    Counts (first >>= next) := by
  intro run after offset needed limit hc hsmall h
  rw [bind_apply] at h
  cases hr : first run with
  | error e mid =>
    simp only [hr] at h
    cases h
    exact hfirst run _ _ _ _ hc hsmall hr
  | ok a mid =>
    simp only [hr] at h
    have hmove := hkeeps.narrows hc hr
    have hcount := hnext a mid after offset needed limit (Motion.narrowing.valid hc hmove)
      (hmove.region ▸ hsmall) h
    exact hcount.mono hmove.position_le

/-- A range lets out what its body wants beyond other ends, and wants no more than its length. -/
theorem Counts.inRange {body : Decode σ Unit} (hbody : Counts body) (length : UInt32) :
    Counts (Decode.inRange length.toNat body) := by
  intro run after offset needed limit hc hsmall h
  rw [inRange_eq] at h
  by_cases hfit : run.cursor.position + length.toNat ≤ run.cursor.limit
  · rw [if_pos hfit] at h
    cases hr : body ⟨run.state, run.cursor.withLimit (run.cursor.position + length.toNat)⟩ with
    | ok u inner =>
      simp only [hr] at h
      split at h <;> cases h
    | error e inner =>
      simp only [hr] at h
      obtain ⟨rfl, -⟩ := ne_of_rangeError_eq_truncated (EStateM.Result.error.inj h).1
      exact hbody ⟨run.state, run.cursor.withLimit (run.cursor.position + length.toNat)⟩ inner _ _ _
        (hc.narrowed hfit) hsmall hr
  · rw [if_neg hfit] at h
    cases h
    have hlength := length.toNat_lt
    obtain ⟨hp, hl⟩ := hc
    exact ⟨Nat.le_add_right _ _, by omega⟩

theorem Counts.read {reader : Reader α} (h : ∀ decoder, reader.Locates decoder 0) :
    Counts (onCursor (Cursor.read reader) : Decode σ α) := by
  intro run after offset needed limit hc hsmall he
  unfold onCursor Cursor.read at he
  cases hr : reader run.cursor.window with
  | ok r =>
    rw [hr] at he
    cases he
  | error e =>
    rw [hr] at he
    exact (h {} _ _ hr).countable hc hsmall (EStateM.Result.error.inj he).1

theorem Counts.skip (decoder : Decoder) (tag : Tag) :
    Counts (onCursor (decoder.skip tag) : Decode σ Unit) := by
  intro run after offset needed limit hc hsmall he
  unfold onCursor Decoder.skip Cursor.pass at he
  rcases hr : decoder.skipBytes tag run.cursor.window with ⟨e, n⟩ | n
  · rw [hr] at he
    exact (Decoder.located_skipBytes hr).countable hc hsmall (EStateM.Result.error.inj he).1
  · rw [hr] at he
    cases he

/-- What a computation that always tells where the bytes are wrong wants is counted. -/
theorem Counts.of_locates {decoder : Decoder} {body : Decode σ α}
    (h : ∀ bound, Locates decoder 0 bound body) : Counts body := by
  intro run after offset needed limit hc hsmall hrun
  have hlength := hc.length_upToLimit
  have hlocated := h (run.cursor.remaining + 1) run _ after hc (Nat.lt_succ_self _) hrun
  obtain ⟨hp, hl⟩ := hc
  cases hlocated with
  | truncated _ hends hneeded => exact ⟨by omega, by omega⟩

theorem compatible_counts :
    Compatible fun _ (body _ : Decode σ _) => Keeps .narrowing body ∧ Counts body where
  pure a := ⟨.pure a, .pure a⟩
  throw e he := ⟨.throw e, .throw he⟩
  cursor := ⟨.cursor, .cursor⟩
  bind hfirst hnext :=
    ⟨hfirst.1.bind fun a => (hnext a).1, hfirst.2.bind hfirst.1 fun a => (hnext a).2⟩
  inRange length _ _ h := ⟨.inRange h.1, h.2.inRange length⟩

end Decode

/-! ## Decoders -/

namespace Decoder

variable {σ : Type} {visitor : Visitor σ}

theorem relates_counts (decoder : Decoder) :
    Relates decoder decoder fun _ (body _ : Decode σ _) => Keeps .narrowing body ∧ Counts body where
  toCompatible := compatible_counts
  readTag := ⟨.read Reader.orderly_tag, .read fun _ => Reader.locates_tag⟩
  readLength := ⟨.read Reader.orderly_uint32, .read fun _ => Reader.locates_uint32⟩
  skip tag := ⟨.skip decoder tag, .skip decoder tag⟩
  check := compatible_counts.checkLength decoder

variable (decoder : Decoder)
  (hvisitor : ∀ tag, Keeps .narrowing (visitor tag) ∧ Counts (visitor tag))
include hvisitor

theorem counts_elements (element : Tag) : Counts (decoder.elements visitor element) :=
  ((relates_counts decoder).elements visitor visitor hvisitor element).2

theorem counts_fields : Counts (decoder.fields visitor) :=
  ((relates_counts decoder).fields visitor visitor hvisitor).2

end Decoder

end WireFormat
