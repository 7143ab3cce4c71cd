import WireFormat.DecodeError
import WireFormat.Tag
import WireFormat.Utf8
import WireFormat.Varint
import WireFormat.ZigZag

/-!
# Readers

A reader looks at some bytes and either takes a value from their front, saying how many bytes the
value occupies, or refuses. It sees nothing but the bytes it is given and counts the offsets of
its errors from their start, so what it answers does not depend on where the bytes lie. Cursors
(`WireFormat.Cursor`) run readers inside a larger region and move the errors along.
-/

namespace WireFormat

/-- Takes a value from the front of some bytes, with the number of bytes it occupies. -/
abbrev Reader (α : Type) := Bytes → Except DecodeError (α × Nat)

namespace Reader

/-- Turns the values of a reader into others. -/
def map {α β : Type} (f : α → β) (reader : Reader α) : Reader β := fun src =>
  match reader src with
  | .ok (a, n) => .ok (f a, n)
  | .error e => .error e

/-- Takes as many bytes as asked for. -/
def exactly (count : Nat) : Reader Bytes := fun src =>
  if count ≤ src.length then .ok (src.take count, count)
  else .error (.truncated 0 count src.length)

/-- Passes over as many bytes as asked for. -/
def skip (count : Nat) : Reader Unit := (exactly count).map fun _ => ()

/-! ## Varints -/

/-- The error of a reader for a missing varint. One byte more than there are would be needed for a
varint that does not end. -/
def varintError (src : Bytes) : Varint.Error → DecodeError
  | .truncated => .truncated 0 (src.length + 1) src.length
  | .tooLong => .varintTooLong 0

/-- Takes a varint, whose first `groups` groups count as a word that `make` makes a value of. -/
def varint {α : Type} {width : Nat} (groups : Nat) (make : BitVec width → α) : Reader α :=
  fun src =>
    match Varint.decodeAs groups make src with
    | .ok result => .ok result
    | .error e => .error (varintError src e)

/-- Takes a varint. -/
def uint64 : Reader UInt64 := varint Varint.maxLength UInt64.ofBitVec

/-- Takes a varint of which the low 32 bits count. -/
def uint32 : Reader UInt32 := varint Varint.groups32 UInt32.ofBitVec

/-- Takes a signed number that is a varint in two's complement. -/
def int32 : Reader Int32 := uint32.map UInt32.toInt32

/-- Takes a signed number in zig-zag order. -/
def sint32 : Reader Int32 := uint32.map ZigZag.decode32

/-- Takes a signed 64-bit number in zig-zag order. -/
def sint64 : Reader Int64 := uint64.map ZigZag.decode64

/-- Takes a truth value: every varint but zero is true. -/
def bool : Reader Bool := uint64.map (· != 0)

/-- Takes a tag. -/
def tag : Reader Tag := uint32.map Tag.mk

/-! ## Fixed widths -/

/-- Takes so many bytes as a number that `make` makes a value of. -/
def fixed {α : Type} (width : Nat) (make : Nat → α) : Reader α :=
  (exactly width).map fun bytes => make (ofLittleEndian bytes)

/-- Takes four bytes as a number. -/
def fixed32 : Reader UInt32 := fixed 4 UInt32.ofNat

/-- Takes eight bytes as a number. -/
def fixed64 : Reader UInt64 := fixed 8 UInt64.ofNat

/-! ## Lengths -/

/-- Takes a length and that many bytes. The length is a varint of which the low 32 bits count. -/
def lengthDelimited : Reader Bytes := fun src =>
  match uint32 src with
  | .error e => .error e
  | .ok (length, k) =>
    match exactly length.toNat (src.drop k) with
    | .error e => .error (e.shift k)
    | .ok (bytes, n) => .ok (bytes, k + n)

/-- Takes a length and that many bytes, which have to be UTF-8. The error points at the text, not
at its length. -/
def text : Reader String := fun src =>
  match lengthDelimited src with
  | .error e => .error e
  | .ok (bytes, n) =>
    match Utf8.decode bytes with
    | .ok s => .ok (s, n)
    | .error validUpTo => .error (.invalidEncoding (n - bytes.length) validUpTo)

/-! ## How far tags reach -/

/-- A varint has at least one byte and lies within the bytes it is read from. -/
theorem varint_bounds {α : Type} {width groups : Nat} {make : BitVec width → α} {src : Bytes}
    {a : α} {n : Nat} (h : varint groups make src = .ok (a, n)) : 1 ≤ n ∧ n ≤ src.length := by
  unfold varint at h
  split at h
  · rename_i r hr
    cases h
    have hb := Varint.extent_bounds (Varint.decodeAs_extent hr)
    exact ⟨hb.1, hb.2.2⟩
  · cases h

/-- A tag has at least one byte and lies within the bytes it is read from. -/
theorem tag_bounds {src : Bytes} {t : Tag} {n : Nat} (h : tag src = .ok (t, n)) :
    1 ≤ n ∧ n ≤ src.length := by
  unfold tag map at h
  split at h
  · rename_i v m hv
    cases h
    exact varint_bounds hv
  · cases h

end Reader

end WireFormat
