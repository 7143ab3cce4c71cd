import WireFormat.Proofs.Composition
import WireFormat.Proofs.Skip

/-!
# How computations move the cursor

A `Motion` says which moves of a cursor are allowed, so that moves may follow each other and a range
may be left. A computation keeps a motion if it ends, well or not, where its cursor may have been
moved to. What all its parts keep the whole keeps, so a decoder keeps what its visitor keeps
(`keeps_decode`).

There are two motions. `advancing` cursors only go on; this is what the decoder itself does.
`narrowing` cursors may also be left with a lower limit, which is all that visitors owe.
-/

namespace WireFormat

/-! ## Motions -/

/-- Moves of a cursor that is valid. -/
structure Motion where
  /-- Whether a cursor may be moved to another. -/
  allows : Cursor → Cursor → Prop
  refl : ∀ c : Cursor, c.Valid → allows c c
  trans : ∀ {c d e : Cursor}, allows c d → allows d e → allows c e
  valid : ∀ {c d : Cursor}, c.Valid → allows c d → d.Valid
  advance : ∀ {c : Cursor} {n : Nat}, c.Valid → n ≤ c.remaining → allows c (c.advance n)
  /-- A move inside a range is a move of the cursor around it. -/
  range : ∀ {c d : Cursor} {n : Nat}, c.Valid → c.position + n ≤ c.limit →
    allows (c.withLimit (c.position + n)) d → allows c (d.withLimit c.limit)

namespace Cursor

theorem position_add_le {c : Cursor} {n : Nat} (hc : c.Valid) (hn : n ≤ c.remaining) :
    c.position + n ≤ c.limit := by
  have hp := hc.1
  simp only [remaining] at hn
  omega

theorem Valid.advance {c : Cursor} {n : Nat} (hc : c.Valid) (hn : n ≤ c.remaining) :
    (c.advance n).Valid :=
  ⟨position_add_le hc hn, hc.2⟩

theorem remaining_advance (c : Cursor) (n : Nat) : (c.advance n).remaining = c.remaining - n := by
  simp only [remaining, position_advance, limit_advance]
  omega

/-- A range in front of the limit. -/
theorem Valid.narrowed {c : Cursor} {n : Nat} (hc : c.Valid) (hfit : c.position + n ≤ c.limit) :
    (c.withLimit (c.position + n)).Valid :=
  ⟨Nat.le_add_right _ _, Nat.le_trans hfit hc.2⟩

theorem remaining_narrowed_le {c : Cursor} {n : Nat} (hfit : c.position + n ≤ c.limit) :
    (c.withLimit (c.position + n)).remaining ≤ c.remaining :=
  Nat.sub_le_sub_right hfit _

theorem not_isExhausted_iff {c : Cursor} : (!c.isExhausted) = true ↔ c.position < c.limit := by
  simp [isExhausted]

/-- There are more places in a region than bytes in front of a cursor. -/
theorem Valid.remaining_lt_places {c : Cursor} (h : c.Valid) : c.remaining < c.places := by
  have hl := h.2
  have hplaces : c.region.length + 1 ≤ c.places := Nat.le_mul_of_pos_right _ (Nat.succ_pos _)
  simp only [remaining]
  omega

/-- The cursor went on and kept its limit. -/
structure Advances (c d : Cursor) : Prop where
  region : d.region = c.region
  limit : d.limit = c.limit
  position_le : c.position ≤ d.position
  le_limit : d.position ≤ d.limit

/-- The cursor went on, and its limit may be lower. -/
structure Narrows (c d : Cursor) : Prop where
  region : d.region = c.region
  limit_le : d.limit ≤ c.limit
  position_le : c.position ≤ d.position
  le_limit : d.position ≤ d.limit

end Cursor

/-- Going on. -/
def Motion.advancing : Motion where
  allows := Cursor.Advances
  refl := fun _ hc => ⟨rfl, rfl, Nat.le_refl _, hc.1⟩
  trans := fun h h' => ⟨h'.region.trans h.region, h'.limit.trans h.limit,
    Nat.le_trans h.position_le h'.position_le, h'.le_limit⟩
  valid := fun hc h => ⟨h.le_limit, by rw [h.limit, h.region]; exact hc.2⟩
  advance := fun hc hn =>
    ⟨rfl, rfl, Nat.le_add_right _ _, Cursor.position_add_le hc hn⟩
  range := fun _ hn h => ⟨h.region, rfl, h.position_le,
    Nat.le_trans h.le_limit (by rw [h.limit]; exact hn)⟩

/-- Going on, perhaps with a lower limit. -/
def Motion.narrowing : Motion where
  allows := Cursor.Narrows
  refl := fun _ hc => ⟨rfl, Nat.le_refl _, Nat.le_refl _, hc.1⟩
  trans := fun h h' => ⟨h'.region.trans h.region, Nat.le_trans h'.limit_le h.limit_le,
    Nat.le_trans h.position_le h'.position_le, h'.le_limit⟩
  valid := fun hc h => ⟨h.le_limit, by rw [h.region]; exact Nat.le_trans h.limit_le hc.2⟩
  advance := fun hc hn =>
    ⟨rfl, Nat.le_refl _, Nat.le_add_right _ _, Cursor.position_add_le hc hn⟩
  range := fun _ hn h => ⟨h.region, Nat.le_refl _, h.position_le,
    Nat.le_trans h.le_limit (Nat.le_trans h.limit_le hn)⟩

/-! ## Computations -/

namespace Decode

variable {σ τ α β : Type} {motion : Motion}

/-- Where a computation ended, well or not. -/
def final : EStateM.Result DecodeError (Run σ) α → Run σ
  | .ok _ run => run
  | .error _ run => run

@[simp] theorem final_ok (a : α) (run : Run σ) :
    final (.ok a run : EStateM.Result DecodeError (Run σ) α) = run := rfl

@[simp] theorem final_error (e : DecodeError) (run : Run σ) :
    final (.error e run : EStateM.Result DecodeError (Run σ) α) = run := rfl

/-- From a valid cursor, a computation ends where the motion allows. -/
def Keeps (motion : Motion) (body : Decode σ α) : Prop :=
  ∀ run : Run σ, run.cursor.Valid → motion.allows run.cursor (final (body run)).cursor

/-- A sequence ends well if both its parts do. -/
theorem bind_eq_ok {ε : Type} {first : EStateM ε σ α} {next : α → EStateM ε σ β} {s after : σ}
    {b : β} (h : (first >>= next) s = .ok b after) :
    ∃ a mid, first s = .ok a mid ∧ next a mid = .ok b after := by
  rw [bind_apply] at h
  cases hr : first s with
  | error e mid =>
    rw [hr] at h
    cases h
  | ok a mid =>
    rw [hr] at h
    exact ⟨a, mid, rfl, h⟩

theorem Keeps.pure (a : α) : Keeps motion (Pure.pure a : Decode σ α) := by
  intro run hc
  exact motion.refl _ hc

theorem Keeps.throw (e : DecodeError) : Keeps motion (throw e : Decode σ α) := by
  intro run hc
  exact motion.refl _ hc

theorem Keeps.cursor : Keeps motion (Decode.cursor : Decode σ Cursor) := by
  intro run hc
  exact motion.refl _ hc

theorem Keeps.onState (change : σ → σ) : Keeps motion (Decode.onState change) := by
  intro run hc
  exact motion.refl _ hc

theorem Keeps.get : Keeps motion (MonadState.get : Decode σ (Run σ)) := by
  intro run hc
  exact motion.refl _ hc

theorem Keeps.bind {first : Decode σ α} {next : α → Decode σ β} (hfirst : Keeps motion first)
    (hnext : ∀ a, Keeps motion (next a)) : Keeps motion (first >>= next) := by
  intro run hc
  have h := hfirst run hc
  rw [bind_apply]
  -- what comes next starts where the first part left the cursor, which is valid there
  cases hr : first run with
  | error e after =>
    rw [hr] at h
    exact h
  | ok a after =>
    rw [hr] at h
    exact motion.trans h (hnext a after (motion.valid hc h))

theorem Keeps.onPart {part : σ → τ} {place : τ → σ → σ} {body : Decode τ α}
    (hbody : Keeps motion body) : Keeps motion (Decode.onPart part place body) := by
  intro run hc
  have h := hbody ⟨part run.state, run.cursor⟩ hc
  unfold Decode.onPart
  cases hr : body ⟨part run.state, run.cursor⟩ <;> rw [hr] at h <;> exact h

theorem Keeps.read {reader : Reader α} (hreader : reader.Orderly) :
    Keeps motion (onCursor (Cursor.read reader) : Decode σ α) := by
  intro run hc
  unfold onCursor Cursor.read
  cases hr : reader run.cursor.window with
  | error e => exact motion.refl _ hc
  | ok r =>
    obtain ⟨a, n⟩ := r
    have hn := hreader.le_length hr
    rw [Cursor.length_window hc] at hn
    exact motion.advance hc hn

theorem Keeps.skip (decoder : Decoder) (tag : Tag) :
    Keeps motion (onCursor (decoder.skip tag) : Decode σ Unit) := by
  intro run hc
  have hn := (decoder.orderly_skipBytes tag run.cursor.window).passed_le
  rw [Cursor.length_window hc] at hn
  unfold onCursor Decoder.skip Cursor.pass
  rcases hr : decoder.skipBytes tag run.cursor.window with ⟨e, n⟩ | n <;> rw [hr] at hn <;>
    exact motion.advance hc hn

theorem narrow_eq (length : Nat) (c : Cursor) :
    Cursor.narrow length c =
      if c.position + length ≤ c.limit then .ok c.limit (c.withLimit (c.position + length))
      else .error (.truncated c.position length c.limit) c := rfl

theorem Keeps.narrow (length : Nat) :
    Keeps .narrowing (onCursor (Cursor.narrow length) : Decode σ Nat) := by
  intro run hc
  unfold onCursor
  rw [narrow_eq]
  by_cases hfit : run.cursor.position + length ≤ run.cursor.limit
  · rw [if_pos hfit]
    exact ⟨rfl, hfit, Nat.le_refl _, Nat.le_add_right _ _⟩
  · rw [if_neg hfit]
    exact Motion.narrowing.refl _ hc

theorem inRange_eq (declared : Nat) (body : Decode σ Unit) (run : Run σ) :
    inRange declared body run =
      if run.cursor.position + declared ≤ run.cursor.limit then
        match body ⟨run.state, run.cursor.withLimit (run.cursor.position + declared)⟩ with
        | .error e after =>
          .error (rangeError run.cursor.position (run.cursor.position + declared) declared e)
            ⟨after.state, after.cursor.withLimit run.cursor.limit⟩
        | .ok () after =>
          if after.cursor.position = run.cursor.position + declared then
            .ok () ⟨after.state, after.cursor.withLimit run.cursor.limit⟩
          else
            .error (.malformedLength run.cursor.position declared
                (span run.cursor.position after.cursor.position))
              ⟨after.state, after.cursor.withLimit run.cursor.limit⟩
      else
        .error (.truncated run.cursor.position declared run.cursor.limit) run := by
  unfold inRange
  rw [narrow_eq]
  by_cases h : run.cursor.position + declared ≤ run.cursor.limit
  · simp only [if_pos h]
    rfl
  · simp only [if_neg h]

theorem Keeps.inRange {declared : Nat} {body : Decode σ Unit} (hbody : Keeps motion body) :
    Keeps motion (inRange declared body) := by
  intro run hc
  rw [inRange_eq]
  by_cases hfit : run.cursor.position + declared ≤ run.cursor.limit
  · rw [if_pos hfit]
    have h := hbody ⟨run.state, run.cursor.withLimit (run.cursor.position + declared)⟩
      (hc.narrowed hfit)
    cases hr : body ⟨run.state, run.cursor.withLimit (run.cursor.position + declared)⟩ with
    | error e after =>
      rw [hr] at h
      exact motion.range hc hfit h
    | ok u after =>
      rw [hr] at h
      simp only
      split <;> exact motion.range hc hfit h
  · rw [if_neg hfit]
    exact motion.refl _ hc

theorem compatible_keeps (motion : Motion) :
    Compatible fun _ (body _ : Decode σ _) => Keeps motion body where
  pure := .pure
  throw e _ := .throw e
  cursor := .cursor
  bind := .bind
  inRange _ _ _ h := .inRange h

theorem Keeps.repeatWhile {more : Cursor → Bool} {round : Decode σ Unit}
    (hround : Keeps motion round) (bound : Nat) : Keeps motion (repeatWhile more round bound) :=
  (compatible_keeps motion).repeatWhile round round hround bound

theorem Keeps.narrowing {body : Decode σ α} (h : Keeps .advancing body) :
    Keeps .narrowing body := by
  intro run hc
  have hmove : run.cursor.Advances (final (body run)).cursor := h run hc
  exact ⟨hmove.region, Nat.le_of_eq hmove.limit, hmove.position_le, hmove.le_limit⟩

/-- A computation that ends well ends where its cursor may have been moved to. -/
theorem Keeps.narrows {body : Decode σ α} (hbody : Keeps .narrowing body) {run after : Run σ}
    {a : α} (hc : run.cursor.Valid) (h : body run = .ok a after) :
    run.cursor.Narrows after.cursor := by
  have hkept : run.cursor.Narrows (final (body run)).cursor := hbody run hc
  rw [h] at hkept
  exact hkept

/-- A loop that ends well ends where there is no more to do. -/
theorem more_of_repeatWhile_eq_ok {more : Cursor → Bool} {round : Decode σ Unit} {bound : Nat}
    {run after : Run σ} (h : repeatWhile more round bound run = .ok () after) :
    more after.cursor = false := by
  induction bound generalizing run with
  | zero =>
    rw [repeatWhile_zero] at h
    by_cases hmore : more run.cursor
    · rw [if_pos hmore] at h
      cases h
    · rw [if_neg hmore] at h
      cases h
      simpa using hmore
  | succ bound ih =>
    rw [repeatWhile_succ] at h
    by_cases hmore : more run.cursor
    · rw [if_pos hmore] at h
      cases hr : round run with
      | error e next =>
        rw [hr] at h
        cases h
      | ok u next =>
        rw [hr] at h
        exact ih h
    · rw [if_neg hmore] at h
      cases h
      simpa using hmore

end Decode

/-! ## Decoders -/

namespace Decoder

open Decode

variable {σ : Type} {motion : Motion} {visitor : Visitor σ}

theorem relates_keeps (decoder : Decoder) (motion : Motion) :
    Relates decoder decoder fun _ (body _ : Decode σ _) => Keeps motion body where
  toCompatible := compatible_keeps motion
  readTag := .read Reader.orderly_tag
  readLength := .read Reader.orderly_uint32
  skip := .skip decoder
  check := (compatible_keeps motion).checkLength decoder

theorem keeps_checkLength (decoder : Decoder) (length : Nat) :
    Keeps motion (decoder.checkLength length : Decode σ Unit) :=
  (relates_keeps decoder motion).check length

theorem keeps_settleElement (decoder : Decoder) (element : Tag) (outcome : Outcome) :
    Keeps motion (decoder.settleElement element outcome : Decode σ Unit) :=
  (relates_keeps decoder motion).settleElement element outcome

section

variable (decoder : Decoder) (hvisitor : ∀ tag, Keeps motion (visitor tag))
include hvisitor

theorem keeps_packedElement (element : Tag) :
    Keeps motion (decoder.packedElement visitor element) :=
  (relates_keeps decoder motion).packedElement visitor visitor hvisitor element

theorem keeps_settle (tag : Tag) (outcome : Outcome) :
    Keeps motion (decoder.settle visitor tag outcome) :=
  (relates_keeps decoder motion).settle visitor visitor hvisitor tag outcome

theorem keeps_field : Keeps motion (decoder.field visitor) :=
  (relates_keeps decoder motion).field visitor visitor hvisitor

theorem keeps_fields : Keeps motion (decoder.fields visitor) :=
  (relates_keeps decoder motion).fields visitor visitor hvisitor

/-- A decoder keeps the motions that its visitor keeps. -/
theorem keeps_decode (delimited : Bool) : Keeps motion (decoder.decode visitor delimited) :=
  (relates_keeps decoder motion).decode visitor visitor hvisitor delimited

end

theorem keeps_merge (decoder : Decoder) {type : MessageType σ}
    (hvisitor : ∀ visitor, type.visitor? = some visitor → ∀ tag, Keeps motion (visitor tag)) :
    Keeps motion (decoder.merge type) := by
  unfold merge
  split
  · exact .throw _
  · rename_i visitor hsome
    refine .bind (keeps_decode decoder (hvisitor visitor hsome) true) fun _ =>
      .bind .get fun run => ?_
    split
    · exact .pure ()
    · exact .throw _

end Decoder

end WireFormat
