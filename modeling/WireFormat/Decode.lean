import WireFormat.Cursor

/-!
# Computations that fill a message from a cursor

`Decode σ` is a computation on a cursor and on the message, of any type `σ`, that is being filled.
A failed computation leaves both as far as it got. Two ways to put computations together are all
that reading messages needs:

* `inRange` runs a body on the next bytes only and requires that it ends exactly at their end. A
  body that runs into that end shows that the declared length was wrong, so its truncation is
  reported as a malformed length. How many bytes would have been needed is counted in words of 64
  bits (`span`). A body is free to ask for more than a word can count, and then the count is cut
  off. How computations end where an overflow is found out instead is said in
  `WireFormat.Proofs.Course`.
* `repeatWhile` runs a round as long as a condition on the cursor holds. Rounds that move on come to
  an end by themselves, but a round is free to set the cursor back. So the rounds are bounded, by
  the number of places there are, and a run that uses more of them is given up with an error of its
  own (`Operation.endlessRewinding`).

The bound is never met by rounds that go on inside the region, which is all that a decoder makes of
a visitor that does not set the cursor back: there a loop ends as one without a bound does
(`Decoder.determined_decode` in `WireFormat.Proofs.Termination`). Nor does it change anything for
rounds that go by the cursor alone. Such a run has come back to a place where it has been once it
uses more rounds than there are places, and goes on for ever. But a visitor that sets the cursor
back and counts, in its message, how often it has done so may go on for more rounds than that and
still come to an end. For such a visitor, giving up is a limit of this library.
-/

namespace WireFormat

/-- A message under way and the cursor it is read from. -/
structure Run (σ : Type) where
  /-- The message as far as it is read. -/
  state : σ
  /-- Where reading goes on. -/
  cursor : Cursor

/-- A computation that fills a message from a cursor. -/
abbrev Decode (σ : Type) := EStateM DecodeError (Run σ)

/-- The number of places in a region: a position and a limit, each from none to all of the bytes.
-/
def Cursor.places (c : Cursor) : Nat := (c.region.length + 1) * (c.region.length + 1)

namespace Decode

variable {σ : Type}

/-- The cursor. -/
def cursor : Decode σ Cursor := fun run => .ok run.cursor run

/-- Moves the cursor and leaves the message alone. -/
def onCursor {α : Type} (reading : Reading α) : Decode σ α := fun run =>
  match reading run.cursor with
  | .ok a c => .ok a { run with cursor := c }
  | .error e c => .error e { run with cursor := c }

/-- Changes the message and leaves the cursor alone. -/
def onState (change : σ → σ) : Decode σ Unit := fun run =>
  .ok () { run with state := change run.state }

/-- Runs a computation on a part of the message: `part` takes it out, `place` puts it back. -/
def onPart {τ α : Type} (part : σ → τ) (place : τ → σ → σ) (body : Decode τ α) : Decode σ α :=
  fun run =>
    match body ⟨part run.state, run.cursor⟩ with
    | .ok a sub => .ok a ⟨place sub.state run.state, sub.cursor⟩
    | .error e sub => .error e ⟨place sub.state run.state, sub.cursor⟩

/-- The number of bytes from one place to another, counted in a word of 64 bits: what a word does
not hold is cut off. -/
def span (start stop : Nat) : Nat := (UInt64.ofNat stop - UInt64.ofNat start).toNat

/-- What a failure of the body means for the range it ran in, of so many bytes from `start` to
`stop`: running into the end of the range is a malformed length, with the bytes that were wanted;
other errors stay. -/
def rangeError (start stop declared : Nat) : DecodeError → DecodeError
  | .truncated offset needed limit =>
    if limit = stop then .malformedLength start declared (span start (offset + needed))
    else .truncated offset needed limit
  | other => other

/-- Runs a body on the next `declared` bytes and requires that it ends exactly behind them. The
limit is restored in every case. -/
def inRange (declared : Nat) (body : Decode σ Unit) : Decode σ Unit := fun run =>
  match Cursor.narrow declared run.cursor with
  | .error e c => .error e { run with cursor := c }
  | .ok old c =>
    match body { run with cursor := c } with
    | .error e after =>
      .error (rangeError c.position c.limit declared e)
        { after with cursor := after.cursor.withLimit old }
    | .ok () after =>
      let restored : Run σ := { after with cursor := after.cursor.withLimit old }
      if after.cursor.position = c.limit then .ok () restored
      else
        .error (.malformedLength c.position declared (span c.position after.cursor.position))
          restored

/-- Runs a round as long as the cursor satisfies a condition, but not more often than `bound`
times. -/
def repeatWhile (more : Cursor → Bool) (round : Decode σ Unit) : Nat → Decode σ Unit
  | 0 => do
    if more (← cursor) then throw (.unsupported .endlessRewinding)
  | bound + 1 => do
    if more (← cursor) then
      round
      repeatWhile more round bound

/-! ## How computations run -/

/-- A sequence runs its second part where the first ended, unless that failed. -/
theorem bind_apply {ε α β : Type} (first : EStateM ε σ α) (next : α → EStateM ε σ β) (s : σ) :
    (first >>= next) s = match first s with
      | .ok a t => next a t
      | .error e t => .error e t := by
  simp only [bind, EStateM.bind]
  cases first s <;> rfl

theorem repeatWhile_zero (more : Cursor → Bool) (round : Decode σ Unit) (run : Run σ) :
    repeatWhile more round 0 run =
      if more run.cursor then .error (.unsupported .endlessRewinding) run else .ok () run := by
  simp only [repeatWhile, bind_apply, cursor]
  split <;> rfl

theorem repeatWhile_succ (more : Cursor → Bool) (round : Decode σ Unit) (bound : Nat)
    (run : Run σ) :
    repeatWhile more round (bound + 1) run =
      if more run.cursor then
        match round run with
        | .ok () next => repeatWhile more round bound next
        | .error e next => .error e next
      else .ok () run := by
  simp only [repeatWhile, bind_apply, cursor]
  split
  · rw [bind_apply]
    cases round run <;> rfl
  · rfl

end Decode

end WireFormat
