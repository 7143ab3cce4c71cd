import WireFormat.Reader

/-!
# Cursors

A cursor is a position in a fixed region of bytes, with a limit that reads must not pass. The
limit lies at the end of the region at first. It can be narrowed to a range that starts at the
position, and set back to what it was, so that a range inside the region is read in place without
running into what follows.

`Reading` is a computation that moves a cursor and may fail. A failed computation still tells where
it left the cursor: a single read leaves it as it was (`Cursor.read`), a longer one where its last
read ended.
-/

namespace WireFormat

/-- A read position over a region of bytes. -/
structure Cursor where
  /-- All the bytes. -/
  region : Bytes
  /-- The offset of the next read. -/
  position : Nat
  /-- The offset that no read passes. -/
  limit : Nat
  deriving DecidableEq, Repr

/-- A computation on a cursor. -/
abbrev Reading := EStateM DecodeError Cursor

namespace Cursor

/-- A cursor at the start of a region. -/
def ofBytes (region : Bytes) : Cursor := ⟨region, 0, region.length⟩

/-- A cursor at an offset of a region, or at its end if the offset lies beyond. -/
def atPosition (region : Bytes) (position : Nat) : Cursor :=
  ⟨region, min position region.length, region.length⟩

/-- The position lies in front of the limit or on it, and the limit within the region. -/
def Valid (c : Cursor) : Prop := c.position ≤ c.limit ∧ c.limit ≤ c.region.length

instance (c : Cursor) : Decidable c.Valid := inferInstanceAs (Decidable (_ ∧ _))

/-- The number of bytes up to the limit. -/
def remaining (c : Cursor) : Nat := c.limit - c.position

/-- Whether no byte is left in front of the limit. -/
def isExhausted (c : Cursor) : Bool := c.limit ≤ c.position

/-- The bytes up to the limit. -/
def window (c : Cursor) : Bytes := (c.region.drop c.position).take c.remaining

/-- The cursor some bytes further on. -/
def advance (c : Cursor) (count : Nat) : Cursor := { c with position := c.position + count }

/-- Reads with a reader: the cursor moves past the value, and stays where it is on failure. -/
def read {α : Type} (reader : Reader α) : Reading α := fun c =>
  match reader c.window with
  | .ok (a, n) => .ok a (c.advance n)
  | .error e => .error (e.shift c.position) c

/-- Narrows the limit to the next bytes and gives the limit it had. -/
def narrow (length : Nat) : Reading Nat := fun c =>
  if c.position + length ≤ c.limit then
    .ok c.limit { c with limit := c.position + length }
  else .error (.truncated c.position length c.limit) c

/-- The cursor with another limit. -/
def withLimit (c : Cursor) (limit : Nat) : Cursor := { c with limit }

/-! ## What the window and the moves say -/

theorem ofBytes_valid (region : Bytes) : (ofBytes region).Valid :=
  ⟨Nat.zero_le _, Nat.le_refl _⟩

theorem atPosition_valid (region : Bytes) (position : Nat) :
    (atPosition region position).Valid :=
  ⟨Nat.min_le_right _ _, Nat.le_refl _⟩

/-- The window of a valid cursor holds all the bytes up to the limit. -/
theorem length_window {c : Cursor} (h : c.Valid) : c.window.length = c.remaining := by
  obtain ⟨hp, hl⟩ := h
  simp only [window, List.length_take, List.length_drop, remaining]
  omega

@[simp] theorem window_ofBytes (region : Bytes) : (ofBytes region).window = region := by
  simp [window, ofBytes, remaining]

@[simp] theorem region_advance (c : Cursor) (count : Nat) : (c.advance count).region = c.region :=
  rfl

@[simp] theorem limit_advance (c : Cursor) (count : Nat) : (c.advance count).limit = c.limit := rfl

@[simp] theorem position_advance (c : Cursor) (count : Nat) :
    (c.advance count).position = c.position + count := rfl

end Cursor

end WireFormat
