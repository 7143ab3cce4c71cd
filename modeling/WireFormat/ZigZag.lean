/-!
# Zig-zag numbers

Zig-zag numbering puts the signed words in the order 0, -1, 1, -2, 2, … so that a number near zero
has a short varint whatever its sign. Both directions work on the bits of the word: the sign
becomes the lowest bit, and a negative number has all its other bits flipped.
-/

namespace WireFormat.ZigZag

/-- The place of a 32-bit number in the order 0, -1, 1, -2, 2, …. -/
def encode32 (v : Int32) : UInt32 := ((v <<< 1) ^^^ (v >>> 31)).toUInt32

/-- The 32-bit number at a place of the order 0, -1, 1, -2, 2, …. -/
def decode32 (n : UInt32) : Int32 := (n >>> 1).toInt32 ^^^ -(n &&& 1).toInt32

/-- The place of a 64-bit number in the order 0, -1, 1, -2, 2, …. -/
def encode64 (v : Int64) : UInt64 := ((v <<< 1) ^^^ (v >>> 63)).toUInt64

/-- The 64-bit number at a place of the order 0, -1, 1, -2, 2, …. -/
def decode64 (n : UInt64) : Int64 := (n >>> 1).toInt64 ^^^ -(n &&& 1).toInt64

end WireFormat.ZigZag
