import WireFormat.Proofs.Exactness

/-!
# Reads that go back

`Cursor.read` looks at the window first and moves the cursor once, when all is well. A read of
several parts may as well move past each of them, and set the cursor back to where it began when a
later part fails: when a length leads behind the limit, or when bytes are no text. Such reads find
the end of what they need with a sum that may not fit a word (`Cursor.checkedEnd`). From a valid
cursor whose limit fits a word they come to the same (`Cursor.takeLengthDelimited_eq`,
`Cursor.takeText_eq`), and so do the steps of scripts that are made of them
(`Step.runRestoring_eq`).
-/

namespace WireFormat

namespace Cursor

/-- The sum of two words, if a word holds it. -/
def checkedAdd (a b : Nat) : Option Nat := if a + b < 2 ^ 64 then some (a + b) else none

/-- The place so many bytes further on, unless the limit lies in front of it. -/
def checkedEnd (c : Cursor) (needed : Nat) : Except DecodeError Nat :=
  match checkedAdd c.position needed with
  | none => .error (.truncated c.position needed c.limit)
  | some stop =>
    if stop ≤ c.limit then .ok stop else .error (.truncated c.position needed c.limit)

/-- The cursor at another place. -/
def moveTo (c : Cursor) (position : Nat) : Cursor := { c with position }

/-- Narrows the limit to the next bytes and gives the limit it had. -/
def narrowChecked (length : Nat) : Reading Nat := fun c =>
  match c.checkedEnd length with
  | .error e => .error e c
  | .ok stop => .ok c.limit (c.withLimit stop)

/-- Moves past as many bytes as asked for. -/
def passOver (count : Nat) : Reading Unit := fun c =>
  match c.checkedEnd count with
  | .error e => .error e c
  | .ok stop => .ok () (c.moveTo stop)

/-- Takes a length and that many bytes. The cursor goes back in front of the length if there are
fewer. -/
def takeLengthDelimited : Reading Bytes := fun c =>
  match read Reader.uint32 c with
  | .error e behind => .error e behind
  | .ok length behind =>
    match behind.checkedEnd length.toNat with
    | .error e => .error e (behind.moveTo c.position)
    | .ok stop => .ok (behind.bytesTo (behind.moveTo stop)) (behind.moveTo stop)

/-- Takes a length and that many bytes of text. The cursor goes back in front of the length if they
are no text. -/
def takeText : Reading String := fun c =>
  match takeLengthDelimited c with
  | .error e behind => .error e behind
  | .ok bytes behind =>
    match Utf8.decode bytes with
    | .ok s => .ok s behind
    | .error validUpTo =>
      .error (.invalidEncoding (behind.position - bytes.length) validUpTo)
        (behind.moveTo c.position)

variable {c : Cursor}

/-- With a limit that fits a word, a sum that does not is behind the limit. -/
theorem checkedEnd_eq (hlimit : c.limit < 2 ^ 64) (needed : Nat) :
    c.checkedEnd needed = if c.position + needed ≤ c.limit then .ok (c.position + needed)
      else .error (.truncated c.position needed c.limit) := by
  unfold checkedEnd checkedAdd
  by_cases hword : c.position + needed < 2 ^ 64
  · rw [if_pos hword]
  · rw [if_neg hword, if_neg (by omega)]

theorem narrowChecked_eq (hlimit : c.limit < 2 ^ 64) (length : Nat) :
    narrowChecked length c = narrow length c := by
  unfold narrowChecked narrow
  rw [checkedEnd_eq hlimit]
  by_cases hfit : c.position + length ≤ c.limit
  · rw [if_pos hfit, if_pos hfit]
    rfl
  · rw [if_neg hfit, if_neg hfit]

theorem read_map {α β : Type} (reader : Reader α) (f : α → β) (c : Cursor) :
    read (reader.map f) c = match read reader c with
      | .ok a after => .ok (f a) after
      | .error e after => .error e after := by
  unfold read Reader.map
  cases reader c.window <;> rfl

/-- Whether there are so many bytes up to the limit is whether there are in the window. -/
theorem read_exactly (hc : c.Valid) (count : Nat) :
    read (Reader.exactly count) c =
      if c.position + count ≤ c.limit then .ok (c.window.take count) (c.advance count)
      else .error (.truncated c.position count c.limit) c := by
  have hwindow := length_window hc
  have hp := hc.1
  rw [remaining] at hwindow
  unfold read Reader.exactly
  by_cases hfit : c.position + count ≤ c.limit
  · rw [if_pos (by omega), if_pos hfit]
  · rw [if_neg (by omega), if_neg hfit, hwindow]
    simp only [DecodeError.shift]
    congr 2 <;> omega

theorem passOver_eq (hc : c.Valid) (hlimit : c.limit < 2 ^ 64) (count : Nat) :
    passOver count c = read (Reader.skip count) c := by
  unfold passOver Reader.skip
  rw [read_map, read_exactly hc, checkedEnd_eq hlimit]
  by_cases hfit : c.position + count ≤ c.limit
  · rw [if_pos hfit, if_pos hfit]
    rfl
  · rw [if_neg hfit, if_neg hfit]

/-- A length and its bytes are read one behind the other. -/
theorem read_lengthDelimited_eq (c : Cursor) :
    read Reader.lengthDelimited c = match read Reader.uint32 c with
      | .error e _ => .error e c
      | .ok length behind =>
        match read (Reader.exactly length.toNat) behind with
        | .error e _ => .error e c
        | .ok bytes after => .ok bytes after := by
  unfold read Reader.lengthDelimited
  cases hlength : Reader.uint32 c.window with
  | error e => rfl
  | ok r =>
    obtain ⟨length, k⟩ := r
    simp only [window_advance, position_advance]
    cases hbytes : Reader.exactly length.toNat (c.window.drop k) with
    | error e => simp only [DecodeError.shift_shift, Nat.add_comm k]
    | ok r =>
      obtain ⟨bytes, n⟩ := r
      simp only [advance, Nat.add_assoc]

/-- Going past the length first and back again comes to the same as looking at all of the bytes. -/
theorem takeLengthDelimited_eq (hc : c.Valid) (hlimit : c.limit < 2 ^ 64) :
    takeLengthDelimited c = read Reader.lengthDelimited c := by
  rw [read_lengthDelimited_eq]
  unfold takeLengthDelimited
  cases hlength : read Reader.uint32 c with
  | error e behind =>
    rw [eq_of_read_eq_error hlength]
  | ok length behind =>
    obtain ⟨k, -, hk, rfl⟩ := read_eq_ok Reader.orderly_uint32 hc hlength
    simp only [read_exactly (hc.advance hk), checkedEnd_eq (c := c.advance k) hlimit]
    by_cases hfit : (c.advance k).position + length.toNat ≤ (c.advance k).limit
    · have hn : length.toNat ≤ (c.advance k).remaining := by
        rw [remaining]
        omega
      rw [if_pos hfit, if_pos hfit, ← bytesTo_advance hn]
      rfl
    · rw [if_neg hfit, if_neg hfit]
      rfl

theorem takeText_eq (hc : c.Valid) (hlimit : c.limit < 2 ^ 64) :
    takeText c = read Reader.text c := by
  unfold takeText
  rw [takeLengthDelimited_eq hc hlimit]
  unfold read Reader.text
  cases hbytes : Reader.lengthDelimited c.window with
  | error e => rfl
  | ok r =>
    obtain ⟨bytes, n⟩ := r
    obtain ⟨k, length, -, hn, -, hbody⟩ := Reader.lengthDelimited_eq_ok_iff.1 hbytes
    have hle : bytes.length ≤ n := by
      rw [hbody, List.length_take]
      omega
    simp only
    cases hdecode : Utf8.decode bytes with
    | ok s => rfl
    | error validUpTo =>
      have hoffset : (c.advance n).position - bytes.length = n - bytes.length + c.position := by
        rw [position_advance]
        omega
      simp only [DecodeError.shift, hoffset]
      rfl

end Cursor

/-! ## Steps -/

/-- Reads a value of some kind. Numbers are read in one move. -/
def Kind.take (kind : Kind) : Reading Scalar :=
  match kind with
  | .string => do
    let s ← Cursor.takeText
    return .string s
  | .bytes => do
    let bytes ← Cursor.takeLengthDelimited
    return .bytes bytes
  | kind => Cursor.read kind.reader

theorem Kind.take_eq (kind : Kind) {c : Cursor} (hc : c.Valid) (hlimit : c.limit < 2 ^ 64) :
    kind.take c = Cursor.read kind.reader c := by
  unfold take
  cases kind with
  | string =>
    simp only [Decode.bind_apply, Cursor.takeText_eq hc hlimit, reader, Cursor.read_map]
    cases Cursor.read Reader.text c <;> rfl
  | bytes =>
    simp only [Decode.bind_apply, Cursor.takeLengthDelimited_eq hc hlimit, reader,
      Cursor.read_map]
    cases Cursor.read Reader.lengthDelimited c <;> rfl
  | _ => rfl

namespace Step

/-- Takes one step, with reads that go back. -/
def runRestoring (step : Step) (saved : List Nat) : Reading (Answer × List Nat) :=
  match step with
  | .read kind => do
    let value ← kind.take
    return (.scalar value, saved)
  | .skip count => do
    Cursor.passOver count
    return (.nothing, saved)
  | .narrow length => do
    let old ← Cursor.narrowChecked length
    return (.number old, old :: saved)
  | step => step.run saved

/-- A step with reads that go back does what the step does. -/
theorem runRestoring_eq (step : Step) (saved : List Nat) {c : Cursor} (hc : c.Valid)
    (hlimit : c.limit < 2 ^ 64) : step.runRestoring saved c = step.run saved c := by
  unfold runRestoring run
  cases step with
  | read kind => simp only [Decode.bind_apply, kind.take_eq hc hlimit]
  | skip count => simp only [Decode.bind_apply, Cursor.passOver_eq hc hlimit]
  | narrow length => simp only [Decode.bind_apply, Cursor.narrowChecked_eq hlimit]
  | _ => rfl

/-- However far a read has gone when it fails, it goes all the way back. -/
theorem eq_of_runRestoring_eq_error {step : Step} {saved : List Nat} {c after : Cursor}
    {e : DecodeError} (hc : c.Valid) (hlimit : c.limit < 2 ^ 64)
    (h : step.runRestoring saved c = .error e after) : after = c := by
  rw [step.runRestoring_eq saved hc hlimit] at h
  exact eq_of_run_eq_error h

end Step

end WireFormat
