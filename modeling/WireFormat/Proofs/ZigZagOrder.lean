import Mathlib.Algebra.Group.Int.Defs
import WireFormat.Proofs.ShortestVarint
import WireFormat.Proofs.ZigZag

/-!
# Zig-zag numbers in order of size

The integers at the first `2 * p` places of the order 0, -1, 1, -2, 2, … are those from `-p` to
`p - 1` (`place_lt_iff`). So what is nearer to zero comes first, the place of a number is the same
in 32 bits and in 64, and how many bytes the varint of a place takes is settled by how many bits the
number takes with its sign (`length_encode_place_le_iff`).
-/

namespace WireFormat.ZigZag

/-! ## Places in order -/

/-- The first `2 * p` places are those of the integers from `-p` to `p - 1`. -/
theorem place_lt_iff (z : Int) (p : Nat) : place z < 2 * p ↔ -(p : Int) ≤ z ∧ z < p := by
  unfold place
  split <;> omega

/-- What is nearer to zero comes first. -/
theorem place_lt_place {y z : Int} (h : y.natAbs < z.natAbs) : place y < place z := by
  unfold place
  split <;> split <;> omega

/-! ## The codecs in order -/

/-- A number of 32 bits has the same place among those of 64 bits. -/
theorem toNat_encode32_eq (v : Int32) : (encode32 v).toNat = (encode64 v.toInt64).toNat := by
  rw [toNat_encode32, toNat_encode64, Int32.toInt_toInt64]

/-- One bit of the first `7 * k` is taken by the sign. -/
theorem length_encode_place_le_iff {k : Nat} (hk : 0 < k) (v : Int64) :
    (Varint.encode (encode64 v)).length ≤ k ↔
      -2 ^ (7 * k - 1) ≤ v.toInt ∧ v.toInt < 2 ^ (7 * k - 1) := by
  have hpow : (128 : Nat) ^ k = 2 * 2 ^ (7 * k - 1) := by
    rw [← Nat.pow_succ', show (7 * k - 1).succ = 7 * k by omega, Nat.pow_mul]
  rw [Varint.length_encode_le_iff hk, toNat_encode64, hpow, place_lt_iff]
  push_cast
  rfl

/-- Zig-zag order is a bijection between the signed and the unsigned numbers of either width, the
wide one extends the narrow one, and what is nearer to zero comes first. So a number takes at most
`k` bytes just if it fits in `7 * k` bits with its sign. -/
theorem bijective_by_size :
    (∀ v : Int64, decode64 (encode64 v) = v) ∧ (∀ n : UInt64, encode64 (decode64 n) = n) ∧
    (∀ v : Int32, decode32 (encode32 v) = v) ∧ (∀ n : UInt32, encode32 (decode32 n) = n) ∧
    (∀ v : Int32, (encode32 v).toNat = (encode64 v.toInt64).toNat) ∧
    (∀ u v : Int64, u.toInt.natAbs < v.toInt.natAbs → encode64 u < encode64 v) ∧
    ∀ (v : Int64) (k : Nat), 1 ≤ k →
      ((Varint.encode (encode64 v)).length ≤ k ↔
        -2 ^ (7 * k - 1) ≤ v.toInt ∧ v.toInt < 2 ^ (7 * k - 1)) := by
  refine ⟨decode64_encode64, encode64_decode64, decode32_encode32, encode32_decode32,
    toNat_encode32_eq, fun u v h => ?_, fun v k hk => length_encode_place_le_iff hk v⟩
  rw [UInt64.lt_iff_toNat_lt, toNat_encode64, toNat_encode64]
  exact place_lt_place h

/-- The numbers at both ends of the first byte. -/
theorem bijective_by_size_first_byte :
    (Varint.encode (encode64 (-64))).length ≤ 1 ∧ (Varint.encode (encode64 63)).length ≤ 1 ∧
      ¬ (Varint.encode (encode64 (-65))).length ≤ 1 ∧
      ¬ (Varint.encode (encode64 64)).length ≤ 1 ∧ encode64 (-64) < encode64 65 := by
  obtain ⟨-, -, -, -, -, horder, hsize⟩ := bijective_by_size
  refine ⟨(hsize (-64) 1 (by decide)).2 (by decide), (hsize 63 1 (by decide)).2 (by decide),
    fun h => ?_, fun h => ?_, horder (-64) 65 (by decide)⟩
  · exact absurd ((hsize (-65) 1 (by decide)).1 h) (by decide)
  · exact absurd ((hsize 64 1 (by decide)).1 h) (by decide)

end WireFormat.ZigZag
