import WireFormat.Proofs.Placement
import WireFormat.Proofs.SchemaVisitor

/-!
# Bounds only refuse

A decoder with lower bounds reads what a decoder with higher ones reads, and in the same way, until
it meets a bound of its own; then it fails and names the bound. So the bounds never change what is
read (`Schema.decodeBytes_within`).

`Follows` says so of two computations. It needs nothing of the cursor, and it goes through every way
of putting computations together: a refusal names no place in the bytes, so the ranges around it let
it out as it is. This holds of all visitors that a decoder may have, of those with scripts as well.
-/

namespace WireFormat

open Decode

namespace Decoder

/-- A decoder fails because of a bound of its own. -/
inductive Refuses (decoder : Decoder) : DecodeError → Prop
  | deep : Refuses decoder (.recursionLimitExceeded decoder.maxGroupDepth)
  | long {length max : Nat} : decoder.maxMessageLength = some max → max < length →
      Refuses decoder (.messageTooLarge length max)

/-- The bounds of a decoder are no higher than those of another one, where no bound on the length
is the highest. How deep inspections go is left open. -/
structure Within (decoder decoder' : Decoder) : Prop where
  groups : decoder.maxGroupDepth ≤ decoder'.maxGroupDepth
  length : ∀ max', decoder'.maxMessageLength = some max' →
    ∃ max, decoder.maxMessageLength = some max ∧ max ≤ max'

variable {decoder decoder' : Decoder}

theorem Refuses.ne_truncated {e : DecodeError} (h : decoder.Refuses e) (offset needed limit : Nat) :
    e ≠ .truncated offset needed limit := by
  cases h <;> exact nofun

theorem Within.admits (h : decoder.Within decoder') {length : Nat}
    (hadmits : decoder.Admits length) : decoder'.Admits length := by
  intro max' hmax'
  obtain ⟨max, hmax, hle⟩ := h.length max' hmax'
  exact Nat.le_trans (hadmits max hmax) hle

/-! ## Scans -/

/-- A scan stopped because groups are nested deeper than the decoder allows. -/
def Stops (decoder : Decoder) (passage : Passage) : Prop :=
  ∃ n, passage = .error (.recursionLimitExceeded decoder.maxGroupDepth, n)

theorem Stops.after {passage : Passage} (h : decoder.Stops passage) (distance : Nat) :
    decoder.Stops (passage.after distance) := by
  obtain ⟨n, hn⟩ := h
  exact Passage.after_recursionLimit distance hn

/-- Only opening a group goes by a bound. -/
theorem skipStep_within (h : decoder.Within decoder') (tag : Tag) (opened : List UInt32)
    (src : Bytes) :
    decoder.skipStep tag opened src = decoder'.skipStep tag opened src ∨
      decoder.skipStep tag opened src =
        .error (.recursionLimitExceeded decoder.maxGroupDepth) := by
  unfold skipStep
  cases tag.wireType with
  | groupStart =>
    by_cases hless : opened.length < decoder.maxGroupDepth
    · have hless' : opened.length < decoder'.maxGroupDepth := Nat.lt_of_lt_of_le hless h.groups
      refine .inl ?_
      simp only [if_pos hless, if_pos hless']
    · refine .inr ?_
      simp only [if_neg hless]
  | _ => exact .inl rfl

theorem skipInside_within (h : decoder.Within decoder') (tag : Tag) (opened : List UInt32)
    (src : Bytes) (hrest : ∀ opened' k,
      decoder.skipOpened opened' (src.drop k) = decoder'.skipOpened opened' (src.drop k) ∨
        decoder.Stops (decoder.skipOpened opened' (src.drop k))) :
    decoder.skipInside tag opened src = decoder'.skipInside tag opened src ∨
      decoder.Stops (decoder.skipInside tag opened src) := by
  unfold skipInside
  rcases skipStep_within h tag opened src with hsame | hdeep
  · rw [hsame]
    cases decoder'.skipStep tag opened src with
    | error e => exact .inl rfl
    | ok r =>
      obtain ⟨opened', k⟩ := r
      simp only
      rcases hrest opened' k with hsame | hstops
      · rw [hsame]
        exact .inl rfl
      · exact .inr (hstops.after k)
  · rw [hdeep]
    exact .inr ⟨0, rfl⟩

theorem skipOpened_within (h : decoder.Within decoder') (opened : List UInt32) (src : Bytes) :
    decoder.skipOpened opened src = decoder'.skipOpened opened src ∨
      decoder.Stops (decoder.skipOpened opened src) := by
  -- each step goes past a tag, so the induction is on the bytes that are left
  induction hsize : src.length using Nat.strongRecOn generalizing opened src with
  | ind size ih =>
    subst hsize
    cases opened with
    | nil =>
      rw [skipOpened_nil, skipOpened_nil]
      exact .inl rfl
    | cons field outer =>
      rw [skipOpened_cons, skipOpened_cons]
      cases htag : Reader.tag src with
      | error e => exact .inl rfl
      | ok r =>
        obtain ⟨tag, k⟩ := r
        obtain ⟨hpos, hk⟩ := Reader.tag_bounds htag
        have hless : ∀ j, ((src.drop k).drop j).length < src.length := by
          intro j
          rw [List.length_drop, List.length_drop]
          omega
        simp only
        by_cases hend : tag.wireType = .groupEnd
        · rw [if_pos hend, if_pos hend]
          by_cases hfield : tag.field = field
          · rw [if_pos hfield, if_pos hfield]
            rcases ih _ (hless 0) outer (src.drop k) rfl with hsame | hstops
            · rw [hsame]
              exact .inl rfl
            · exact .inr (hstops.after k)
          · rw [if_neg hfield, if_neg hfield]
            exact .inl rfl
        · rw [if_neg hend, if_neg hend]
          rcases skipInside_within h tag (field :: outer) (src.drop k)
            fun opened' j => ih _ (hless j) opened' _ rfl with hsame | hstops
          · rw [hsame]
            exact .inl rfl
          · exact .inr (hstops.after k)

theorem skipBytes_within (h : decoder.Within decoder') (tag : Tag) (src : Bytes) :
    decoder.skipBytes tag src = decoder'.skipBytes tag src ∨
      decoder.Stops (decoder.skipBytes tag src) := by
  rw [skipBytes_eq_skipInside, skipBytes_eq_skipInside]
  exact skipInside_within h tag [] src fun opened' k => skipOpened_within h opened' (src.drop k)

end Decoder

/-! ## Computations -/

namespace Decode

variable {σ τ α β : Type} {decoder : Decoder}

/-- The first computation does what the second does, or the decoder refuses. -/
def Follows (decoder : Decoder) (body body' : Decode σ α) : Prop :=
  ∀ run : Run σ, body run = body' run ∨ ∃ e after, body run = .error e after ∧ decoder.Refuses e

theorem Follows.refl (body : Decode σ α) : Follows decoder body body := fun _ => .inl rfl

theorem Follows.bind {first first' : Decode σ α} {next next' : α → Decode σ β}
    (hfirst : Follows decoder first first') (hnext : ∀ a, Follows decoder (next a) (next' a)) :
    Follows decoder (first >>= next) (first' >>= next') := by
  intro run
  rw [bind_apply, bind_apply]
  rcases hfirst run with hsame | ⟨e, after, herror, he⟩
  · rw [hsame]
    cases first' run with
    | ok a after => exact hnext a after
    | error e after => exact .inl rfl
  · rw [herror]
    exact .inr ⟨e, after, rfl, he⟩

theorem Follows.onPart {part : σ → τ} {place : τ → σ → σ} {body body' : Decode τ α}
    (hbody : Follows decoder body body') :
    Follows decoder (Decode.onPart part place body) (Decode.onPart part place body') := by
  intro run
  unfold Decode.onPart
  rcases hbody ⟨part run.state, run.cursor⟩ with hsame | ⟨e, after, herror, he⟩
  · rw [hsame]
    exact .inl rfl
  · rw [herror]
    exact .inr ⟨e, _, rfl, he⟩

/-- A range lets refusals out as they are. -/
theorem Follows.inRange {body body' : Decode σ Unit} (hbody : Follows decoder body body')
    (declared : Nat) :
    Follows decoder (Decode.inRange declared body) (Decode.inRange declared body') := by
  intro run
  rw [inRange_eq, inRange_eq]
  by_cases hfit : run.cursor.position + declared ≤ run.cursor.limit
  · rw [if_pos hfit, if_pos hfit]
    rcases hbody ⟨run.state, run.cursor.withLimit (run.cursor.position + declared)⟩ with
      hsame | ⟨e, after, herror, he⟩
    · rw [hsame]
      exact .inl rfl
    · rw [herror]
      simp only [rangeError_of_ne he.ne_truncated]
      exact .inr ⟨e, _, rfl, he⟩
  · rw [if_neg hfit, if_neg hfit]
    exact .inl rfl

end Decode

/-! ## Decoders -/

namespace Decoder

variable {σ : Type} {decoder decoder' : Decoder} {visitor visitor' : Visitor σ}

theorem follows_checkLength (h : decoder.Within decoder') (length : Nat) :
    Follows decoder (decoder.checkLength length : Decode σ Unit) (decoder'.checkLength length) := by
  intro run
  rcases decoder.admits_or_lt length with hadmits | ⟨max, hmax, hless⟩
  · rw [checkLength_of_admits hadmits, checkLength_of_admits (h.admits hadmits)]
    exact .inl rfl
  · rw [checkLength_of_lt hmax hless]
    exact .inr ⟨_, _, rfl, .long hmax hless⟩

theorem follows_skip (h : decoder.Within decoder') (tag : Tag) :
    Follows decoder (onCursor (decoder.skip tag) : Decode σ Unit)
      (onCursor (decoder'.skip tag)) := by
  intro run
  unfold onCursor skip Cursor.pass
  rcases skipBytes_within h tag run.cursor.window with hsame | ⟨n, hdeep⟩
  · rw [hsame]
    exact .inl rfl
  · rw [hdeep]
    exact .inr ⟨_, _, rfl, .deep⟩

theorem relates_follows (h : decoder.Within decoder') :
    Relates decoder decoder' fun _ (body body' : Decode σ _) => Follows decoder body body' where
  pure _ := .refl _
  throw _ _ := .refl _
  cursor := .refl _
  bind := .bind
  inRange length _ _ h := h.inRange length.toNat
  readTag := .refl _
  readLength := .refl _
  skip := follows_skip h
  check := follows_checkLength h

theorem follows_decode (h : decoder.Within decoder')
    (hvisitor : ∀ tag, Follows decoder (visitor tag) (visitor' tag)) (delimited : Bool) :
    Follows decoder (decoder.decode visitor delimited) (decoder'.decode visitor' delimited) :=
  (relates_follows h).decode visitor visitor' hvisitor delimited

end Decoder

/-! ## Schemas -/

namespace Schema

variable {decoder decoder' : Decoder}

theorem follows_readSub (h : decoder.Within decoder') {levels depth : Nat} {sub : Schema}
    (hvisitor : ∀ tag, Follows decoder (sub.visitAt decoder levels depth tag)
      (sub.visitAt decoder' levels depth tag)) (repeated : Bool) :
    Follows decoder (readSub decoder levels depth repeated sub)
      (readSub decoder' levels depth repeated sub) := by
  cases repeated with
  | true => exact Decoder.follows_decode h hvisitor true
  | false => exact .bind (Decoder.follows_decode h hvisitor true) fun _ => .refl _

theorem follows_visitAt (h : decoder.Within decoder') : ∀ (levels depth : Nat) (schema : Schema)
    (tag : Tag), Follows decoder (schema.visitAt decoder levels depth tag)
      (schema.visitAt decoder' levels depth tag) := by
  intro levels
  -- a sub-message has one level less, at another depth and of another schema
  induction levels with
  | zero =>
    intro depth schema tag
    exact .refl _
  | succ levels ih =>
    intro depth schema tag
    rw [visitAt_succ, visitAt_succ]
    refine .bind (.refl _) fun start => .bind (.refl _) fun _ => ?_
    cases schema.take? tag with
    | none => exact .refl _
    | some taken =>
      obtain ⟨index, action⟩ := taken
      cases action with
      | value kind | packed kind | script steps reply => exact .refl _
      | message repeated sub =>
        exact .bind (.onPart (follows_readSub h (ih (depth + 1) sub) repeated)) fun _ => .refl _

/-- The number of levels goes by the message and the bytes, not by the bounds. -/
theorem follows_visitor (h : decoder.Within decoder') (schema : Schema) (tag : Tag) :
    Follows decoder (schema.visitor decoder tag) (schema.visitor decoder' tag) :=
  fun run => follows_visitAt h _ 0 schema tag run

/-- Under lower bounds, messages inside included, a payload is read as under higher ones, to the
same message, the same visits and the same result, or it is refused for one of the lower bounds. -/
theorem decodeBytes_within (h : decoder.Within decoder') (schema : Schema) (data : Bytes)
    (target : Target) :
    decoder.decodeBytes (schema.visitor decoder) data target =
        decoder'.decodeBytes (schema.visitor decoder') data target ∨
      ∃ e ended, decoder.decodeBytes (schema.visitor decoder) data target = .error e ended ∧
        decoder.Refuses e := by
  unfold Decoder.decodeBytes
  rcases Decoder.follows_decode h (follows_visitor h schema) false ⟨target, .ofBytes data⟩ with
    hsame | ⟨e, after, herror, he⟩
  · rw [hsame]
    exact .inl rfl
  · rw [herror]
    exact .inr ⟨e, after.state, rfl, he⟩

/-- Messages that hold messages of their own schema. -/
def nestingSchema : Schema := ⟨[.message (some 1) true none], []⟩

/-- A decoder with lower bounds than usual, but for the depth of inspections. -/
def tightDecoder : Decoder :=
  { maxGroupDepth := 3, maxMessageLength := some 4, maxMessageDepth := 200 }

/-- A message inside that is announced to be longer than allowed is refused by the lower bound,
where without it the bytes are missed. -/
theorem decodeBytes_within_announced :
    tightDecoder.Within {} ∧
      (∃ ended, Decoder.decodeBytes {} (nestingSchema.visitor {}) [0x0a, 0x05]
        ⟨nestingSchema.blank, []⟩ = .error (.truncated 2 5 2) ended) ∧
      ∃ ended, tightDecoder.decodeBytes (nestingSchema.visitor tightDecoder) [0x0a, 0x05]
          ⟨nestingSchema.blank, []⟩ = .error (.messageTooLarge 5 4) ended ∧
        tightDecoder.Refuses (.messageTooLarge 5 4) := by
  have hwithin : tightDecoder.Within {} := ⟨by decide, fun _ h => nomatch h⟩
  obtain ⟨ended, hmissing⟩ : ∃ ended, Decoder.decodeBytes {} (nestingSchema.visitor {})
      [0x0a, 0x05] ⟨nestingSchema.blank, []⟩ = .error (.truncated 2 5 2) ended := ⟨_, rfl⟩
  obtain ⟨stopped, hlong⟩ : ∃ stopped, tightDecoder.decodeBytes
      (nestingSchema.visitor tightDecoder) [0x0a, 0x05] ⟨nestingSchema.blank, []⟩ =
        .error (.messageTooLarge 5 4) stopped := ⟨_, rfl⟩
  rcases decodeBytes_within hwithin nestingSchema [0x0a, 0x05] ⟨nestingSchema.blank, []⟩ with
    hsame | ⟨e, ended', hrefused, he⟩
  · rw [hmissing, hlong] at hsame
    cases hsame
  · rw [hlong] at hrefused
    cases hrefused
    exact ⟨hwithin, ⟨ended, hmissing⟩, stopped, hlong, he⟩

end Schema

end WireFormat
