/-!
# Byte strings and little-endian numbers

A byte string is a list of bytes, so that every reader and writer of the library is a function on
lists that the kernel can evaluate. Fixed-width numbers travel as their base-256 digits, least
significant first: `littleEndian w n` writes the low `w` digits of `n`, and `ofLittleEndian` reads
any number of them back.
-/

namespace WireFormat

/-- A byte string. -/
abbrev Bytes := List UInt8

/-- The `width` lowest base-256 digits of a number, least significant first. -/
def littleEndian : Nat → Nat → Bytes
  | 0, _ => []
  | width + 1, n => UInt8.ofNat n :: littleEndian width (n / 256)

/-- The number whose base-256 digits, least significant first, are the given bytes. -/
def ofLittleEndian : Bytes → Nat
  | [] => 0
  | b :: rest => b.toNat + 256 * ofLittleEndian rest

@[simp] theorem length_littleEndian (width n : Nat) :
    (littleEndian width n).length = width := by
  induction width generalizing n with
  | zero => rfl
  | succ width ih => simp [littleEndian, ih]

end WireFormat
