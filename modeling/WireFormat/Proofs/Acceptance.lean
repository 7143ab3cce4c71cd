import WireFormat.Proofs.Strictness
import WireFormat.Proofs.Verdict

/-!
# What a schema accepts is accepted without one

To know fields is to ask more of them. Where a decoder reads all fields well by a schema, it passes
over all of them as well, and it comes to the same place (`Schema.decode_without_entries`): a range
that is gone through, packed run or sub-message, ends where its length says, and that is where
passing over it by its length ends.

Values were compared with passing over them one by one (`Schema.strict_visitor`). What is left is
the way from the fields to the message, which both decoders go alike: the length in front, the bound
on it, and the range.
-/

namespace WireFormat

open Decode

namespace Decode

variable {σ τ : Type} {bound : Nat}

/-- Two bodies that compare do so in the same range. -/
theorem Compares.ranged {body : Decode σ Unit} {body' : Decode τ Unit}
    (hbody : Compares .stricter bound body body') (declared : Nat) :
    Compares .stricter bound (Decode.inRange declared body) (Decode.inRange declared body') := by
  intro run run' hc hvalid hbound
  rw [inRange_eq, inRange_eq, ← hc]
  by_cases hfit : run.cursor.position + declared ≤ run.cursor.limit
  · have hless := Nat.lt_of_le_of_lt (Cursor.remaining_narrowed_le hfit) hbound
    have hends := hbody ⟨run.state, run.cursor.withLimit (run.cursor.position + declared)⟩
      ⟨run'.state, run.cursor.withLimit (run.cursor.position + declared)⟩ rfl
      (hvalid.narrowed hfit) hless
    rw [if_pos hfit, if_pos hfit]
    generalize body ⟨run.state, run.cursor.withLimit (run.cursor.position + declared)⟩ = result
      at hends ⊢
    generalize body' ⟨run'.state, run.cursor.withLimit (run.cursor.position + declared)⟩ = result'
      at hends ⊢
    cases hends with
    | error => exact .error trivial
    | @refused e b after after' he =>
      -- only a truncation is changed by the range, and the refusal is none
      simp only [rangeError_of_ne he]
      by_cases hlands : after'.cursor.position = run.cursor.position + declared
      · rw [if_pos hlands]
        exact .refused he
      · rw [if_neg hlands]
        exact .error trivial
    | @ok a b after after' hcursor =>
      simp only [← hcursor]
      by_cases hlands : after.cursor.position = run.cursor.position + declared
      · rw [if_pos hlands, if_pos hlands]
        exact .ok rfl
      · rw [if_neg hlands, if_neg hlands]
        exact .error trivial
  · rw [if_neg hfit, if_neg hfit]
    exact .error trivial

/-- The same bound on the length in front of two bodies that compare. -/
theorem Compares.admitted {comparison : Comparison} {body : Decode σ Unit} {body' : Decode τ Unit}
    (hbody : Compares comparison bound body body') (decoder : Decoder) (length : Nat) :
    Compares comparison bound (decoder.checkLength length >>= fun _ => body)
      (decoder.checkLength length >>= fun _ => body') := by
  rcases decoder.admits_or_lt length with hadmits | ⟨max, hmax, hless⟩
  · rw [Decoder.checkLength_of_admits hadmits, Decoder.checkLength_of_admits hadmits]
    exact hbody
  · rw [Decoder.checkLength_of_lt hmax hless, Decoder.checkLength_of_lt hmax hless]
    exact fun _ _ _ _ _ => .error (comparison.fails_refl _)

end Decode

namespace Decoder

variable {σ τ : Type} {bound : Nat} {visitor : Visitor σ} {visitor' : Visitor τ}

/-- A decoder of a visitor that is stricter than passing over each value is stricter than a decoder
that passes over all of them. -/
theorem strict_decode (decoder : Decoder) (hkeeps : ∀ tag, Keeps .advancing (visitor tag))
    (hpasses : visitor'.Passes)
    (h : ∀ tag, Compares .stricter bound (visitor tag >>= decoder.settle visitor tag)
      (onCursor (decoder.skip tag) : Decode τ Unit)) (delimited : Bool) :
    Compares .stricter bound (decoder.decode visitor delimited)
      (decoder.decode visitor' delimited) := by
  have hfields : Compares .stricter bound (decoder.fields visitor) (decoder.fields visitor') :=
    compares_fields decoder hkeeps fun tag => compares_passing hpasses (h tag)
  cases delimited with
  | true =>
    exact .readBind Reader.orderly_uint32 fun length =>
      (hfields.ranged length.toNat).admitted decoder length.toNat
  | false =>
    intro run run' hc hvalid hbound
    have hplain := hfields.admitted decoder run.cursor.remaining run run' hc hvalid hbound
    show Comparison.stricter.Ends
      ((decoder.checkLength run.cursor.remaining >>= fun _ => decoder.fields visitor) run)
      ((decoder.checkLength run'.cursor.remaining >>= fun _ => decoder.fields visitor') run')
    rwa [← hc]

end Decoder

namespace Schema

/-- What is read well by a schema without scripts, up to the limit or behind a length, is passed
over well by a schema without entries, from the same cursor to the same cursor. -/
theorem decode_without_entries (decoder : Decoder) {schema empty : Schema} (hs : schema.ScriptFree)
    (hempty : empty.entries = []) (delimited : Bool) {c : Cursor} (hc : c.Valid)
    {target : Target} {after : Run Target}
    (h : decoder.decode (schema.visitor decoder) delimited ⟨target, c⟩ = .ok () after)
    (other : Target) :
    ∃ passed, decoder.decode (empty.visitor decoder) delimited ⟨other, c⟩ = .ok () passed ∧
      passed.cursor = after.cursor := by
  have hends := Decoder.strict_decode decoder (keeps_visitor decoder hs)
    (visitor_passes decoder hempty) (fun tag => strict_visitor decoder hs tag) delimited
    ⟨target, c⟩ ⟨other, c⟩ rfl hc (Nat.lt_succ_self _)
  rw [h] at hends
  generalize decoder.decode (empty.visitor decoder) delimited ⟨other, c⟩ = result at hends ⊢
  cases hends with
  | @ok _ _ _ passed hcursor => exact ⟨passed, rfl, hcursor.symm⟩

/-- Packed runs of numbers, and a sub-message that has to have a flag. -/
def enclosingSchema : Schema :=
  ⟨[.scalar (some 3) .uint32 true, .message (some 1) false (some ⟨[.scalar (some 2) .bool false],
    [2]⟩)], []⟩

/-- A cursor on the length of a message with a packed run and a sub-message, between other bytes. -/
def enclosingCursor : Cursor :=
  ⟨[0xff, 0x09, 0x1a, 0x03, 0x05, 0x96, 0x01, 0x0a, 0x02, 0x10, 0x01, 0xff], 1, 12⟩

/-- The run and the sub-message are passed over by their lengths. -/
theorem decode_enclosing_without_entries :
    enclosingSchema.ScriptFree ∧ enclosingCursor.Valid ∧
      (∃ after, Decoder.decode {} (enclosingSchema.visitor {}) true
        ⟨⟨enclosingSchema.blank, []⟩, enclosingCursor⟩ = .ok () after) ∧
      ∃ passed, Decoder.decode {} (Schema.visitor {} ⟨[], []⟩) true
        ⟨⟨⟨[], []⟩, []⟩, enclosingCursor⟩ = .ok () passed ∧
          passed.cursor = { enclosingCursor with position := 11 } := by
  have hs : enclosingSchema.ScriptFree := by
    refine .intro (by simp [enclosingSchema]) fun number repeated sub hsub => ?_
    obtain ⟨-, -, rfl⟩ : number = some 1 ∧ repeated = false ∧
        sub = ⟨[.scalar (some 2) .bool false], [2]⟩ := by simpa [enclosingSchema] using hsub
    exact .intro (by simp) (by simp)
  have hc : enclosingCursor.Valid := by decide
  have hempty : (⟨[], []⟩ : Schema).entries = [] := rfl
  let result := Decoder.decode {} (enclosingSchema.visitor {}) true
    ⟨⟨enclosingSchema.blank, []⟩, enclosingCursor⟩
  have haccepted : (verdict result).isOk = true := by decide +kernel
  have hcursor : (final result).cursor = { enclosingCursor with position := 11 } := by
    decide +kernel
  cases hresult : result with
  | error e after =>
    rw [hresult] at haccepted
    cases haccepted
  | ok u after =>
    rw [hresult] at hcursor
    obtain ⟨passed, hpassed, hsame⟩ :=
      decode_without_entries {} hs hempty true hc hresult ⟨⟨[], []⟩, []⟩
    exact ⟨hs, hc, ⟨after, hresult⟩, passed, hpassed, hsame.trans hcursor⟩

end Schema

end WireFormat
