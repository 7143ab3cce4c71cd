import WireFormat.MessageType
import WireFormat.Proofs.Reader

/-!
# How decoders are put together

Much of what is said of a decoder holds because it holds of the visitor and of what the decoder does
itself, and is kept where computations are put together. A relation between computations for which
this is so is `Compatible`; it is then kept by loops. Where a decoder itself throws, it is never for
want of bytes, and its ranges are as long as 32 bits say, so no more is asked of a relation. If it
also relates what two decoders read and skip, it relates these decoders for visitors that it relates
(`Relates.decode`). A property of computations is a relation that looks at one side only.
-/

namespace WireFormat

open Decode

/-! ## The parts of a decoder -/

namespace Decoder

variable {σ : Type}

/-- What is done with an element of a packed run behind the visitor. -/
def settleElement (decoder : Decoder) (element : Tag) : Outcome → Decode σ Unit
  | .handled => pure ()
  | .unrecognized => onCursor (decoder.skip element)
  | .packed _ => throw (.unsupported .nestedPacked)

/-- Fails if the cursor stands where another does. -/
def requireMoved (before : Cursor) : Decode σ Unit := do
  let after ← cursor
  if after.position = before.position then throw (.unsupported .emptyPackedElement)

/-- The elements of a packed run. -/
def elements (decoder : Decoder) (visitor : Visitor σ) (element : Tag) : Decode σ Unit :=
  cursor >>= fun start => repeatWhile (fun c => !c.isExhausted)
    (decoder.packedElement visitor element) start.places

/-- What is done with a field behind the visitor. -/
def settle (decoder : Decoder) (visitor : Visitor σ) (tag : Tag) : Outcome → Decode σ Unit
  | .handled => pure ()
  | .unrecognized => onCursor (decoder.skip tag)
  | .packed element => decoder.packedRun visitor element

theorem requireMoved_apply (before : Cursor) (run : Run σ) :
    requireMoved before run =
      if run.cursor.position = before.position then
        .error (.unsupported .emptyPackedElement) run
      else .ok () run := by
  unfold requireMoved
  rw [bind_apply]
  simp only [cursor]
  split <;> rfl

theorem packedElement_eq (decoder : Decoder) (visitor : Visitor σ) (element : Tag) :
    decoder.packedElement visitor element = cursor >>= fun before =>
      visitor element >>= fun outcome =>
        decoder.settleElement element outcome >>= fun _ => requireMoved before := by
  unfold packedElement
  congr 1
  funext before
  congr 1
  funext outcome
  cases outcome <;> rfl

theorem field_eq (decoder : Decoder) (visitor : Visitor σ) :
    decoder.field visitor = onCursor (Cursor.read Reader.tag) >>= fun tag =>
      visitor tag >>= decoder.settle visitor tag := rfl

/-- A length that is too long is refused where the cursor is; otherwise nothing is done. So what is
true of doing nothing and of refusing is true of checking a length. -/
theorem checkLength_induction {τ : Type} (decoder : Decoder)
    (rel : Decode σ Unit → Decode τ Unit → Prop) (length : Nat) (hpure : rel (pure ()) (pure ()))
    (hthrow : ∀ max, rel (throw (.messageTooLarge length max))
      (throw (.messageTooLarge length max))) :
    rel (decoder.checkLength length) (decoder.checkLength length) := by
  unfold checkLength
  split
  · exact hpure
  · split
    · exact hthrow _
    · exact hpure

end Decoder

/-! ## Relations -/

variable {σ τ : Type} {rel : ∀ α : Type, Decode σ α → Decode τ α → Prop}

/-- A relation between computations that is kept where they are put together. -/
structure Decode.Compatible (rel : ∀ α : Type, Decode σ α → Decode τ α → Prop) : Prop where
  pure : ∀ {α : Type} (a : α), rel α (Pure.pure a) (Pure.pure a)
  throw : ∀ e : DecodeError, (∀ offset needed limit, e ≠ .truncated offset needed limit) →
    rel Unit (MonadExcept.throw e) (MonadExcept.throw e)
  cursor : rel Cursor Decode.cursor Decode.cursor
  bind : ∀ {α β : Type} {first : Decode σ α} {first' : Decode τ α} {next : α → Decode σ β}
    {next' : α → Decode τ β}, rel α first first' → (∀ a, rel β (next a) (next' a)) →
    rel β (first >>= next) (first' >>= next')
  inRange : ∀ (length : UInt32) {body : Decode σ Unit} {body' : Decode τ Unit},
    rel Unit body body' →
    rel Unit (Decode.inRange length.toNat body) (Decode.inRange length.toNat body')

namespace Decode.Compatible

/-- Rounds that are related make loops that are. -/
theorem repeatWhile (h : Compatible rel) {more : Cursor → Bool} (round : Decode σ Unit)
    (round' : Decode τ Unit) (hround : rel Unit round round') (bound : Nat) :
    rel Unit (Decode.repeatWhile more round bound) (Decode.repeatWhile more round' bound) := by
  -- a loop that runs out of rounds fails, so it needs no condition on the bound
  induction bound with
  | zero =>
    refine h.bind h.cursor fun c => ?_
    by_cases hmore : more c
    · simp only [if_pos hmore]
      exact h.throw _ nofun
    · simp only [if_neg hmore]
      exact h.pure ()
  | succ bound ih =>
    refine h.bind h.cursor fun c => ?_
    by_cases hmore : more c
    · simp only [if_pos hmore]
      exact h.bind hround fun _ => ih
    · simp only [if_neg hmore]
      exact h.pure ()

theorem checkLength (h : Compatible rel) (decoder : Decoder) (length : Nat) :
    rel Unit (decoder.checkLength length) (decoder.checkLength length) :=
  decoder.checkLength_induction (rel Unit) length (h.pure ()) fun _ => h.throw _ nofun

theorem requireMoved (h : Compatible rel) (before : Cursor) :
    rel Unit (Decoder.requireMoved before) (Decoder.requireMoved before) := by
  refine h.bind h.cursor fun after => ?_
  split
  · exact h.throw _ nofun
  · exact h.pure ()

end Decode.Compatible

/-! ## Decoders -/

/-- A relation that is kept where computations are put together, and that relates what two decoders
do themselves. -/
structure Decoder.Relates (decoder decoder' : Decoder)
    (rel : ∀ α : Type, Decode σ α → Decode τ α → Prop) : Prop extends Compatible rel where
  readTag : rel Tag (onCursor (Cursor.read Reader.tag)) (onCursor (Cursor.read Reader.tag))
  readLength :
    rel UInt32 (onCursor (Cursor.read Reader.uint32)) (onCursor (Cursor.read Reader.uint32))
  skip : ∀ tag : Tag, rel Unit (onCursor (decoder.skip tag)) (onCursor (decoder'.skip tag))
  check : ∀ length : Nat, rel Unit (decoder.checkLength length) (decoder'.checkLength length)

namespace Decoder.Relates

variable {decoder decoder' : Decoder}

theorem settleElement (h : Relates decoder decoder' rel) (element : Tag) (outcome : Outcome) :
    rel Unit (decoder.settleElement element outcome) (decoder'.settleElement element outcome) := by
  cases outcome with
  | handled => exact h.pure ()
  | unrecognized => exact h.skip element
  | packed inner => exact h.throw _ nofun

variable (h : Relates decoder decoder' rel) (visitor : Visitor σ) (visitor' : Visitor τ)
  (hvisitor : ∀ tag, rel Outcome (visitor tag) (visitor' tag))
include h hvisitor

theorem packedElement (element : Tag) : rel Unit (decoder.packedElement visitor element)
    (decoder'.packedElement visitor' element) := by
  rw [packedElement_eq, packedElement_eq]
  exact h.bind h.cursor fun before => h.bind (hvisitor element) fun outcome =>
    h.bind (h.settleElement element outcome) fun _ => h.requireMoved before

theorem elements (element : Tag) :
    rel Unit (decoder.elements visitor element) (decoder'.elements visitor' element) :=
  h.bind h.cursor fun _ =>
    h.repeatWhile _ _ (h.packedElement visitor visitor' hvisitor element) _

theorem packedRun (element : Tag) :
    rel Unit (decoder.packedRun visitor element) (decoder'.packedRun visitor' element) :=
  h.bind h.readLength fun length =>
    h.inRange length (h.elements visitor visitor' hvisitor element)

theorem settle (tag : Tag) (outcome : Outcome) :
    rel Unit (decoder.settle visitor tag outcome) (decoder'.settle visitor' tag outcome) := by
  cases outcome with
  | handled => exact h.pure ()
  | unrecognized => exact h.skip tag
  | packed element => exact h.packedRun visitor visitor' hvisitor element

theorem field : rel Unit (decoder.field visitor) (decoder'.field visitor') := by
  rw [field_eq, field_eq]
  exact h.bind h.readTag fun tag => h.bind (hvisitor tag) fun outcome =>
    h.settle visitor visitor' hvisitor tag outcome

theorem fields : rel Unit (decoder.fields visitor) (decoder'.fields visitor') :=
  h.bind h.cursor fun _ => h.repeatWhile _ _ (h.field visitor visitor' hvisitor) _

/-- Decoders are related as their visitors are. -/
theorem decode (delimited : Bool) :
    rel Unit (decoder.decode visitor delimited) (decoder'.decode visitor' delimited) := by
  cases delimited with
  | true =>
    exact h.bind h.readLength fun length => h.bind (h.check _) fun _ =>
      h.inRange length (h.fields visitor visitor' hvisitor)
  | false =>
    exact h.bind h.cursor fun start => h.bind (h.check _) fun _ =>
      h.fields visitor visitor' hvisitor

end Decoder.Relates

end WireFormat
