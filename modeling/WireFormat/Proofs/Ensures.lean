import WireFormat.Proofs.Motion

/-!
# What holds of a message that was read well

`Ensures before after body` says that a message with one property has another one behind a
computation that goes well; it says nothing of failures, nor of the cursor. Computations are put
together as their properties are. A visitor that ensures a property of messages that have it already
makes a decoder that does (`Decoder.ensures_decode`), and merging asks for required fields on top of
it (`Decoder.ensures_merge`).
-/

namespace WireFormat

namespace Decode

variable {σ τ α β : Type} {before middle after holds : σ → Prop}

/-- Where the computation goes well, a message with the first property has the second one then. -/
def Ensures (before after : σ → Prop) (body : Decode σ α) : Prop :=
  ∀ (run ended : Run σ) (a : α), before run.state → body run = .ok a ended → after ended.state

theorem Ensures.pure (a : α) : Ensures holds holds (Pure.pure a : Decode σ α) := by
  intro run ended b hrun h
  cases h
  exact hrun

theorem Ensures.throw (e : DecodeError) : Ensures before after (throw e : Decode σ α) := by
  intro run ended a _ h
  cases h

theorem Ensures.cursor : Ensures holds holds (Decode.cursor : Decode σ Cursor) := by
  intro run ended c hrun h
  cases h
  exact hrun

theorem Ensures.onCursor (reading : Reading α) :
    Ensures holds holds (Decode.onCursor reading : Decode σ α) := by
  intro run ended a hrun h
  unfold Decode.onCursor at h
  cases hr : reading run.cursor with
  | error e c =>
    rw [hr] at h
    cases h
  | ok b c =>
    rw [hr] at h
    cases h
    exact hrun

theorem Ensures.onState {change : σ → σ} (hchange : ∀ s, before s → after (change s)) :
    Ensures before after (Decode.onState change) := by
  intro run ended u hrun h
  cases h
  exact hchange _ hrun

theorem Ensures.bind {first : Decode σ α} {next : α → Decode σ β}
    (hfirst : Ensures before middle first) (hnext : ∀ a, Ensures middle after (next a)) :
    Ensures before after (first >>= next) := by
  intro run ended b hrun h
  obtain ⟨a, mid, hmid, hend⟩ := bind_eq_ok h
  exact hnext a mid ended b (hfirst run mid a hrun hmid) hend

/-- What is required, or else an error is thrown, holds behind it. -/
theorem require_eq_ok {ε : Type} {required : Bool} {e : ε} {s ended : σ} {u : Unit}
    (h : (if required = true then Pure.pure () else throw e : EStateM ε σ Unit) s = .ok u ended) :
    required = true ∧ s = ended := by
  by_cases hrequired : required = true
  · rw [if_pos hrequired] at h
    cases h
    exact ⟨hrequired, rfl⟩
  · rw [if_neg hrequired] at h
    cases h

/-- A part of the message is taken out, and put back as it is then. -/
theorem Ensures.onPart {part : σ → τ} {place : τ → σ → σ} {body : Decode τ α}
    {beforePart afterPart : τ → Prop} (hpart : ∀ s, before s → beforePart (part s))
    (hbody : Ensures beforePart afterPart body)
    (hplace : ∀ t s, before s → afterPart t → after (place t s)) :
    Ensures before after (Decode.onPart part place body) := by
  intro run ended a hrun h
  unfold Decode.onPart at h
  cases hr : body ⟨part run.state, run.cursor⟩ with
  | error e sub =>
    rw [hr] at h
    cases h
  | ok b sub =>
    rw [hr] at h
    cases h
    exact hplace _ _ hrun (hbody _ _ _ (hpart _ hrun) hr)

theorem Ensures.inRange {body : Decode σ Unit} (hbody : Ensures before after body)
    (declared : Nat) : Ensures before after (Decode.inRange declared body) := by
  intro run ended u hrun h
  rw [inRange_eq] at h
  by_cases hfit : run.cursor.position + declared ≤ run.cursor.limit
  · rw [if_pos hfit] at h
    cases hr : body ⟨run.state, run.cursor.withLimit (run.cursor.position + declared)⟩ with
    | error e inside =>
      rw [hr] at h
      cases h
    | ok u inside =>
      rw [hr] at h
      by_cases hend : inside.cursor.position = run.cursor.position + declared
      · simp only [if_pos hend] at h
        cases h
        exact hbody ⟨run.state, run.cursor.withLimit (run.cursor.position + declared)⟩ inside ()
          hrun hr
      · simp only [if_neg hend] at h
        cases h
  · rw [if_neg hfit] at h
    cases h

theorem compatible_ensures (holds : σ → Prop) :
    Compatible fun _ (body _ : Decode σ _) => Ensures holds holds body where
  pure := .pure
  throw e _ := .throw e
  cursor := .cursor
  bind := .bind
  inRange length _ _ h := h.inRange length.toNat

end Decode

/-! ## Decoders -/

namespace Decoder

open Decode

variable {σ : Type} {holds : σ → Prop} {visitor : Visitor σ}

theorem relates_ensures (decoder : Decoder) (holds : σ → Prop) :
    Relates decoder decoder fun _ (body _ : Decode σ _) => Ensures holds holds body where
  toCompatible := compatible_ensures holds
  readTag := .onCursor _
  readLength := .onCursor _
  skip _ := .onCursor _
  check := (compatible_ensures holds).checkLength decoder

theorem ensures_fields (decoder : Decoder) (hvisitor : ∀ tag, Ensures holds holds (visitor tag)) :
    Ensures holds holds (decoder.fields visitor) :=
  (relates_ensures decoder holds).fields visitor visitor hvisitor

/-- A decoder keeps a property of messages that its visitor keeps. -/
theorem ensures_decode (decoder : Decoder) (hvisitor : ∀ tag, Ensures holds holds (visitor tag))
    (delimited : Bool) : Ensures holds holds (decoder.decode visitor delimited) :=
  (relates_ensures decoder holds).decode visitor visitor hvisitor delimited

/-- A message that is merged well has its required fields. -/
theorem ensures_merge (decoder : Decoder) {type : MessageType σ}
    (htype : type.visitor? = some visitor) (hvisitor : ∀ tag, Ensures holds holds (visitor tag)) :
    Ensures holds (fun s => holds s ∧ type.isComplete s = true) (decoder.merge type) := by
  intro run ended u hrun h
  unfold merge at h
  rw [htype] at h
  obtain ⟨_, mid, hdecode, hcheck⟩ := bind_eq_ok h
  have hmid := ensures_decode decoder hvisitor true run mid () hrun hdecode
  obtain ⟨hcomplete, rfl⟩ := require_eq_ok hcheck
  exact ⟨hmid, hcomplete⟩

end Decoder

end WireFormat
