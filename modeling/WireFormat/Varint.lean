import WireFormat.Bytes

/-!
# Variable-length integers

A varint carries a number in groups of seven bits, lowest group first, one group a byte; every
byte but the last has its top bit set. No varint is longer than ten bytes, which hold a 64-bit
number.

Reading is split in two. `extent` says how many bytes the varint at the front of a byte string
occupies, or why there is none; `word` puts the groups together in a word of some width, where the
groups beyond the word's end lose their high bits. `decodeAs` reads into words of any width. The
32-bit reader looks at five groups only and passes over the rest, which is how a negative 32-bit
number written as a 64-bit one comes back.
-/

namespace WireFormat.Varint

/-- The longest varint, in bytes. -/
def maxLength : Nat := 10

/-- The number of groups that a 32-bit word takes. -/
def groups32 : Nat := 5

/-- Why there is no varint at the front of a byte string. -/
inductive Error where
  /-- Every byte announces another one, and then the bytes end. -/
  | truncated
  /-- A last byte is there, but it comes after the tenth. -/
  | tooLong
  deriving DecidableEq, Repr

/-- Whether a byte is the last one of a varint: its top bit is clear. -/
def isLast (b : UInt8) : Bool := b < 0x80

/-- The length of the varint at the front of a byte string. -/
def extent (src : Bytes) : Except Error Nat :=
  match src.findIdx? isLast with
  | none => .error .truncated
  | some i => if i < maxLength then .ok (i + 1) else .error .tooLong

/-- The seven bits that a byte adds to a number, in a word of some width. -/
def group (width : Nat) (b : UInt8) : BitVec width := (b &&& 0x7f).toBitVec.setWidth width

/-- The seven-bit groups of some bytes as a word. -/
def word (width : Nat) : Bytes → BitVec width
  | [] => 0
  | b :: rest => group width b ||| word width rest <<< 7

/-- Reads the varint at the front of a byte string, with the number of bytes it occupies. Its first
`groups` groups count, as a word that `make` makes a value of. -/
def decodeAs {α : Type} {width : Nat} (groups : Nat) (make : BitVec width → α) (src : Bytes) :
    Except Error (α × Nat) :=
  match extent src with
  | .ok n => .ok (make (word width ((src.take n).take groups)), n)
  | .error e => .error e

/-- Reads the varint at the front of a byte string, all groups of which count. -/
def decode : Bytes → Except Error (UInt64 × Nat) := decodeAs maxLength UInt64.ofBitVec

/-- Reads the varint at the front of a byte string into 32 bits. It occupies as many bytes as it
does for `decode`, and only its first five groups count. -/
def decode32 : Bytes → Except Error (UInt32 × Nat) := decodeAs groups32 UInt32.ofBitVec

/-- Writes a number with at most `more` bytes before the last one. -/
def encodeWithin : Nat → UInt64 → Bytes
  | 0, v => [v.toUInt8]
  | more + 1, v =>
    if v < 0x80 then [v.toUInt8] else (v.toUInt8 ||| 0x80) :: encodeWithin more (v >>> 7)

/-- Writes a number as its shortest varint. Nine bytes before the last one are enough, since they
carry 63 of the 64 bits. -/
def encode (v : UInt64) : Bytes := encodeWithin (maxLength - 1) v

/-- The length of the shortest varint, from the number of significant bits: one byte for each
seven bits begun, and one byte for zero. -/
def encodedLength (v : UInt64) : Nat := (Nat.log2 (v.toNat ||| 1) + 7) / 7

/-! ## What the extent says -/

/-- A varint has at least one byte, at most ten, and lies within the bytes it is read from. -/
theorem extent_bounds {src : Bytes} {n : Nat} (h : extent src = .ok n) :
    1 ≤ n ∧ n ≤ maxLength ∧ n ≤ src.length := by
  unfold extent at h
  split at h
  · cases h
  · rename_i i hi
    split at h
    · obtain ⟨hlt, -⟩ := List.findIdx?_eq_some_iff_getElem.1 hi
      cases h
      omega
    · cases h

theorem decodeAs_extent {α : Type} {width groups : Nat} {make : BitVec width → α} {src : Bytes}
    {a : α} {n : Nat} (h : decodeAs groups make src = .ok (a, n)) : extent src = .ok n := by
  unfold decodeAs at h
  split at h
  · rename_i m hm
    cases h
    exact hm
  · cases h

end WireFormat.Varint
