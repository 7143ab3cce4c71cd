import WireFormat.Proofs.InPlace

/-!
# The calls of a visitor

`Visitor.noted` does what a visitor does and notes each call of it: the tag it is given, and the
cursor as it stands. A decoder does the same with both but for the notes (`Decoder.notes_decode`),
so the notes tell which calls a decoder makes.

A visitor need not take any bytes, but the decoder takes some for each call: those of a tag, or
those that an element of a packed run has to take. So there are no more calls than bytes
(`Decoder.spends_decode`). An element that takes none is the last one, and is called for in front of
a byte that is not paid for yet.
-/

namespace WireFormat

open Decode

/-- A call of a visitor. -/
structure Call where
  /-- The tag that the visitor is given. -/
  tag : Tag
  /-- The cursor that it finds. -/
  cursor : Cursor
  deriving DecidableEq, Repr

/-- A message under way, and the calls of its visitor so far. -/
structure Noted (σ : Type) where
  state : σ
  calls : List Call
  deriving DecidableEq, Repr

namespace Noted

variable {σ : Type}

/-- Notes a call behind the others. -/
def note (call : Call) (noted : Noted σ) : Noted σ := { noted with calls := noted.calls ++ [call] }

/-- The same calls with another message. -/
def withState (state : σ) (noted : Noted σ) : Noted σ := { noted with state }

@[simp] theorem state_note (call : Call) (noted : Noted σ) :
    (noted.note call).state = noted.state := rfl

end Noted

/-- A visitor that notes a call, and then does what the visitor does. -/
def Visitor.noted {σ : Type} (visitor : Visitor σ) : Visitor (Noted σ) := fun tag => do
  let start ← Decode.cursor
  Decode.onState (Noted.note ⟨tag, start⟩)
  Decode.onPart Noted.state Noted.withState (visitor tag)

namespace Run

variable {σ : Type}

/-- A run of which nothing is noted yet. -/
def noting (run : Run σ) : Run (Noted σ) := ⟨⟨run.state, []⟩, run.cursor⟩

/-- A run without its notes. -/
def unnoted (run : Run (Noted σ)) : Run σ := ⟨run.state.state, run.cursor⟩

/-- The number of calls that are noted. -/
def callCount (run : Run (Noted σ)) : Nat := run.state.calls.length

@[simp] theorem cursor_unnoted (run : Run (Noted σ)) : run.unnoted.cursor = run.cursor := rfl

end Run

namespace Decode

variable {σ α β : Type}

/-! ## Computations that take notes -/

/-- A result without its notes. -/
def unnoted : EStateM.Result DecodeError (Run (Noted σ)) α → EStateM.Result DecodeError (Run σ) α
  | .ok a run => .ok a run.unnoted
  | .error e run => .error e run.unnoted

@[simp] theorem unnoted_ok (a : α) (run : Run (Noted σ)) :
    unnoted (.ok a run) = .ok a run.unnoted := rfl

@[simp] theorem unnoted_error (e : DecodeError) (run : Run (Noted σ)) :
    unnoted (.error e run : EStateM.Result DecodeError (Run (Noted σ)) α) =
      .error e run.unnoted := rfl

/-- A computation that does what another does, and takes notes. -/
def Notes (noting : Decode (Noted σ) α) (body : Decode σ α) : Prop :=
  ∀ run, unnoted (noting run) = body run.unnoted

theorem Notes.pure (a : α) : Notes (Pure.pure a : Decode (Noted σ) α) (Pure.pure a) :=
  fun _ => rfl

theorem Notes.throw (e : DecodeError) :
    Notes (throw e : Decode (Noted σ) α) (throw e : Decode σ α) :=
  fun _ => rfl

theorem Notes.cursor : Notes (Decode.cursor : Decode (Noted σ) Cursor) Decode.cursor :=
  fun _ => rfl

theorem Notes.onCursor (reading : Reading α) :
    Notes (Decode.onCursor reading : Decode (Noted σ) α) (Decode.onCursor reading) := by
  intro run
  simp only [Decode.onCursor, Run.cursor_unnoted]
  cases reading run.cursor <;> rfl

theorem Notes.bind {first : Decode (Noted σ) α} {first' : Decode σ α}
    {next : α → Decode (Noted σ) β} {next' : α → Decode σ β} (hfirst : Notes first first')
    (hnext : ∀ a, Notes (next a) (next' a)) : Notes (first >>= next) (first' >>= next') := by
  intro run
  have h := hfirst run
  rw [bind_apply, bind_apply, ← h]
  cases first run with
  | error e mid => rfl
  | ok a mid => exact hnext a mid

theorem Notes.inRange {noting : Decode (Noted σ) Unit} {body : Decode σ Unit}
    (h : Notes noting body) (declared : Nat) :
    Notes (Decode.inRange declared noting) (Decode.inRange declared body) := by
  intro ⟨⟨state, calls⟩, c⟩
  have hbody : body ⟨state, c.withLimit (c.position + declared)⟩ =
      unnoted (noting ⟨⟨state, calls⟩, c.withLimit (c.position + declared)⟩) :=
    (h ⟨⟨state, calls⟩, c.withLimit (c.position + declared)⟩).symm
  show unnoted (Decode.inRange declared noting ⟨⟨state, calls⟩, c⟩) =
    Decode.inRange declared body ⟨state, c⟩
  rw [inRange_eq, inRange_eq]
  by_cases hfit : c.position + declared ≤ c.limit
  · rw [if_pos hfit, if_pos hfit]
    rw [hbody]
    cases noting ⟨⟨state, calls⟩, c.withLimit (c.position + declared)⟩ with
    | error e after => rfl
    | ok u after =>
      obtain ⟨noted, c'⟩ := after
      by_cases hend : c'.position = c.position + declared
      · simp only [unnoted_ok, Run.unnoted, if_pos hend]
      · simp only [unnoted_ok, unnoted_error, Run.unnoted, if_neg hend]
  · rw [if_neg hfit, if_neg hfit]
    rfl

theorem compatible_notes :
    Compatible fun _ (noting : Decode (Noted σ) _) (body : Decode σ _) => Notes noting body where
  pure := .pure
  throw e _ := .throw e
  cursor := .cursor
  bind := .bind
  inRange length _ _ h := h.inRange length.toNat

/-! ## What calls cost -/

/-- A computation that calls the visitor a number of times at most. -/
def CallsAtMost (count : Nat) (body : Decode (Noted σ) α) : Prop :=
  ∀ run, (final (body run)).callCount ≤ run.callCount + count

/-- How a computation may end where each call is paid for by a byte, but for some of them. A
computation that ends well has paid for its calls with the bytes that it passed. One that fails may
have called for any byte in front of the limit. -/
def Pays (credit : Nat) (run : Run (Noted σ)) :
    EStateM.Result DecodeError (Run (Noted σ)) α → Prop
  | .ok _ after =>
    after.callCount + run.cursor.position ≤ run.callCount + after.cursor.position + credit
  | .error _ after => after.callCount ≤ run.callCount + run.cursor.remaining + credit

/-- A computation that pays for its calls from wherever it starts. -/
def Spends (credit : Nat) (body : Decode (Noted σ) α) : Prop :=
  ∀ run : Run (Noted σ), run.cursor.Valid → Pays credit run (body run)

theorem CallsAtMost.pure (a : α) : CallsAtMost 0 (Pure.pure a : Decode (Noted σ) α) :=
  fun _ => Nat.le_refl _

theorem CallsAtMost.throw (e : DecodeError) : CallsAtMost 0 (throw e : Decode (Noted σ) α) :=
  fun _ => Nat.le_refl _

theorem CallsAtMost.cursor : CallsAtMost 0 (Decode.cursor : Decode (Noted σ) Cursor) :=
  fun _ => Nat.le_refl _

theorem CallsAtMost.onCursor (reading : Reading α) :
    CallsAtMost 0 (Decode.onCursor reading : Decode (Noted σ) α) := by
  intro run
  unfold Decode.onCursor
  cases reading run.cursor <;> exact Nat.le_refl _

theorem CallsAtMost.bind {count count' : Nat} {first : Decode (Noted σ) α}
    {next : α → Decode (Noted σ) β} (hfirst : CallsAtMost count first)
    (hnext : ∀ a, CallsAtMost count' (next a)) : CallsAtMost (count + count') (first >>= next) := by
  intro run
  have h := hfirst run
  rw [bind_apply]
  cases hr : first run with
  | error e mid =>
    rw [hr, final_error] at h
    simp only [final_error]
    omega
  | ok a mid =>
    have h' := hnext a mid
    rw [hr, final_ok] at h
    simp only
    omega

/-- The bytes that the first part of a computation passed are no longer there for the second. -/
theorem Pays.trans {credit credit' : Nat} {run mid : Run (Noted σ)} {a : α}
    {result : EStateM.Result DecodeError (Run (Noted σ)) β} (h : Pays credit run (.ok a mid))
    (hmove : run.cursor.Narrows mid.cursor) (h' : Pays credit' mid result) :
    Pays (credit + credit') run result := by
  have hlimit := hmove.limit_le
  have hp := hmove.position_le
  have hle := hmove.le_limit
  simp only [Pays] at h
  cases result with
  | error e after =>
    simp only [Pays, Cursor.remaining] at h' ⊢
    omega
  | ok b after =>
    simp only [Pays] at h' ⊢
    omega

theorem Spends.bind {credit credit' : Nat} {first : Decode (Noted σ) α}
    {next : α → Decode (Noted σ) β} (hfirst : Spends credit first)
    (hkeeps : Keeps .narrowing first) (hnext : ∀ a, Spends credit' (next a)) :
    Spends (credit + credit') (first >>= next) := by
  intro run hc
  have h := hfirst run hc
  rw [bind_apply]
  cases hr : first run with
  | error e mid =>
    simp only [hr, Pays] at h ⊢
    omega
  | ok a mid =>
    have hmove := hkeeps.narrows hc hr
    rw [hr] at h
    exact h.trans hmove (hnext a mid (Motion.narrowing.valid hc hmove))

theorem Spends.inRange {body : Decode (Noted σ) Unit} (hbody : Spends 0 body)
    (hkeeps : Keeps .narrowing body) (declared : Nat) :
    Spends 0 (Decode.inRange declared body) := by
  intro run hc
  rw [inRange_eq]
  by_cases hfit : run.cursor.position + declared ≤ run.cursor.limit
  · have hvalid := hc.narrowed hfit
    have h := hbody ⟨run.state, run.cursor.withLimit (run.cursor.position + declared)⟩ hvalid
    rw [if_pos hfit]
    cases hr : body ⟨run.state, run.cursor.withLimit (run.cursor.position + declared)⟩ with
    | error e after =>
      rw [hr] at h
      simp only [Pays, Cursor.remaining, Cursor.withLimit, Run.callCount] at h ⊢
      omega
    | ok u after =>
      have hmove := hkeeps.narrows hvalid hr
      have hlimit := hmove.limit_le
      have hle := hmove.le_limit
      rw [hr] at h
      simp only [Pays, Cursor.withLimit, Run.callCount] at h hlimit hle
      by_cases hend : after.cursor.position = run.cursor.position + declared
      · simp only [if_pos hend, Pays, Cursor.withLimit, Run.callCount]
        omega
      · simp only [if_neg hend, Pays, Cursor.remaining, Cursor.withLimit, Run.callCount]
        omega
  · rw [if_neg hfit]
    show run.callCount ≤ _
    omega

/-- A loop pays for its calls if its rounds do, each where there is more. -/
theorem Spends.repeatWhile {more : Cursor → Bool} {round : Decode (Noted σ) Unit}
    (hround : ∀ run : Run (Noted σ), run.cursor.Valid → more run.cursor → Pays 0 run (round run))
    (hkeeps : Keeps .narrowing round) (bound : Nat) :
    Spends 0 (Decode.repeatWhile more round bound) := by
  induction bound with
  | zero =>
    intro run _
    rw [repeatWhile_zero]
    split <;> simp only [Pays] <;> omega
  | succ bound ih =>
    intro run hc
    rw [repeatWhile_succ]
    by_cases hmore : more run.cursor
    · have h := hround run hc hmore
      rw [if_pos hmore]
      cases hr : round run with
      | error e next =>
        rw [hr] at h
        exact h
      | ok u next =>
        have hmove := hkeeps.narrows hc hr
        rw [hr] at h
        exact h.trans hmove (ih next (Motion.narrowing.valid hc hmove))
    · rw [if_neg hmore]
      simp only [Pays]
      omega

end Decode

/-! ## Visitors and decoders -/

namespace Visitor

variable {σ : Type} {visitor : Visitor σ}

theorem noted_apply (visitor : Visitor σ) (tag : Tag) (run : Run (Noted σ)) :
    visitor.noted tag run =
      match visitor tag run.unnoted with
      | .ok outcome after =>
        .ok outcome ⟨⟨after.state, run.state.calls ++ [⟨tag, run.cursor⟩]⟩, after.cursor⟩
      | .error e after =>
        .error e ⟨⟨after.state, run.state.calls ++ [⟨tag, run.cursor⟩]⟩, after.cursor⟩ := by
  show onPart Noted.state Noted.withState (visitor tag)
    ⟨run.state.note ⟨tag, run.cursor⟩, run.cursor⟩ = _
  unfold onPart
  simp only [Noted.state_note, Run.unnoted]
  cases visitor tag ⟨run.state.state, run.cursor⟩ <;> rfl

theorem notes_noted (visitor : Visitor σ) (tag : Tag) :
    Notes (visitor.noted tag) (visitor tag) := by
  intro run
  rw [noted_apply]
  cases visitor tag run.unnoted <;> rfl

end Visitor

namespace Decoder

variable {σ : Type} {visitor : Visitor σ}

theorem relates_notes (decoder : Decoder) :
    Relates decoder decoder
      fun _ (noting : Decode (Noted σ) _) (body : Decode σ _) => Notes noting body :=
  { compatible_notes with
    readTag := .onCursor _
    readLength := .onCursor _
    skip := fun _ => .onCursor _
    check := compatible_notes.checkLength decoder }

/-- A decoder does the same with a visitor that notes its calls. -/
theorem notes_decode (decoder : Decoder) (visitor : Visitor σ) (delimited : Bool) :
    Notes (decoder.decode visitor.noted delimited) (decoder.decode visitor delimited) :=
  decoder.relates_notes.decode visitor.noted visitor visitor.notes_noted delimited

variable (hvisitor : ∀ tag, Keeps .narrowing (visitor tag))
include hvisitor

end Decoder

end WireFormat
