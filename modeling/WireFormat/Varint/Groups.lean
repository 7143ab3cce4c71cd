import Mathlib.Algebra.Group.Nat.Defs
import WireFormat.Varint

/-!
# Varints as numbers

What a varint is and which number it spells, said in arithmetic and without reading:
`IsVarint bytes` holds of at most ten bytes of which exactly the last has its top bit clear, and
`value bytes` is the number whose base-128 digits are the low seven bits of the bytes.

The words that `WireFormat.Varint` puts together from bits are that number, cut to their width
(`word_eq`), and the extent of a byte string is the length of the varint at its front
(`extent_eq_ok_iff`).
-/

namespace WireFormat.Varint

/-- The number that some bytes spell, lowest group first. -/
def value : Bytes → Nat
  | [] => 0
  | b :: rest => b.toNat % 128 + 128 * value rest

/-- Some bytes are one varint: at most ten, of which exactly the last is a last byte. -/
def IsVarint (bytes : Bytes) : Prop :=
  bytes.length ≤ maxLength ∧
    ∃ start last, bytes = start ++ [last] ∧ (∀ b ∈ start, 0x80 ≤ b) ∧ last < 0x80

/-! ## Words -/

/-- Seven bits below a number are added to it. -/
theorem mod_or_shiftLeft (low high width : Nat) (h : 7 ≤ width) :
    low % 128 ||| (high % 2 ^ width) <<< 7 % 2 ^ width = (low % 128 + 128 * high) % 2 ^ width := by
  obtain ⟨k, rfl⟩ : ∃ k, width = k + 7 := ⟨width - 7, by omega⟩
  have hpow : (2 : Nat) ^ (k + 7) = 2 ^ k * 128 := by rw [Nat.pow_add]
  have hshift : (high % 2 ^ (k + 7)) <<< 7 % 2 ^ (k + 7) = high % 2 ^ k * 128 := by
    rw [Nat.shiftLeft_eq, hpow, Nat.mul_mod_mul_right, Nat.mod_mul_right_mod]
  have hor := Nat.two_pow_add_eq_or_of_lt (i := 7) (b := low % 128) (by omega) (high % 2 ^ k)
  have hlt : high % 2 ^ k < 2 ^ k := Nat.mod_lt _ (Nat.two_pow_pos k)
  simp only [Nat.reducePow] at hor
  rw [hshift, Nat.or_comm, Nat.mul_comm, ← hor, hpow]
  have hmod : (low % 128 + 128 * high) % (2 ^ k * 128) = low % 128 + 128 * (high % 2 ^ k) := by
    rw [Nat.mul_comm (2 ^ k) 128, Nat.mod_mul]
    have h1 : (low % 128 + 128 * high) % 128 = low % 128 := by omega
    have h2 : (low % 128 + 128 * high) / 128 = high := by omega
    rw [h1, h2]
  rw [hmod, Nat.add_comm]

theorem toNat_and_low (b : UInt8) : (b &&& 0x7f).toNat = b.toNat % 128 := by
  rw [UInt8.toNat_and]
  exact Nat.and_two_pow_sub_one_eq_mod b.toNat 7

theorem toNat_group {width : Nat} (hwidth : 7 ≤ width) (b : UInt8) :
    (group width b).toNat = b.toNat % 128 := by
  have hle : 2 ^ 7 ≤ 2 ^ width := Nat.pow_le_pow_right (by decide) hwidth
  have hlt : b.toNat % 128 < 2 ^ width := by omega
  rw [group, BitVec.toNat_setWidth, UInt8.toNat_toBitVec, toNat_and_low, Nat.mod_eq_of_lt hlt]

/-- The groups of some bytes are those of the first below those of the others. -/
theorem ofNat_value_cons {width : Nat} (hwidth : 7 ≤ width) (b : UInt8) (rest : Bytes) :
    BitVec.ofNat width (value (b :: rest)) =
      group width b ||| BitVec.ofNat width (value rest) <<< 7 := by
  apply BitVec.eq_of_toNat_eq
  rw [BitVec.toNat_or, BitVec.toNat_shiftLeft, toNat_group hwidth, BitVec.toNat_ofNat,
    BitVec.toNat_ofNat]
  exact (mod_or_shiftLeft b.toNat (value rest) width hwidth).symm

/-- The word of some bytes is the number that they spell, cut to its width. -/
theorem word_eq {width : Nat} (hwidth : 7 ≤ width) (bytes : Bytes) :
    word width bytes = BitVec.ofNat width (value bytes) := by
  induction bytes with
  | nil => rfl
  | cons b rest ih => rw [word, ih, ofNat_value_cons hwidth]

/-! ## Extents -/

theorem isLast_iff {b : UInt8} : isLast b = true ↔ b < 0x80 := by simp [isLast]

theorem not_isLast_iff {b : UInt8} : ¬ isLast b = true ↔ 0x80 ≤ b := by simp [isLast]

/-- The extent of a byte string is the length of the varint at its front. -/
theorem extent_eq_ok_iff {src : Bytes} {n : Nat} :
    extent src = .ok n ↔ n ≤ src.length ∧ IsVarint (src.take n) := by
  constructor
  · intro h
    obtain ⟨hpos, hmax, hlen⟩ := extent_bounds h
    obtain ⟨i, rfl⟩ : ∃ i, n = i + 1 := ⟨n - 1, by omega⟩
    refine ⟨hlen, by rw [List.length_take]; omega, src.take i, src.get ⟨i, by omega⟩, ?_, ?_⟩
    · exact List.take_succ_eq_append_getElem (by omega)
    · unfold extent at h
      split at h
      · cases h
      · rename_i j hj
        split at h
        · cases h
          obtain ⟨_, hlast, hbefore⟩ := List.findIdx?_eq_some_iff_getElem.1 hj
          refine ⟨fun b hb => ?_, isLast_iff.1 hlast⟩
          obtain ⟨k, hk, rfl⟩ := List.mem_iff_getElem.1 hb
          rw [List.length_take] at hk
          rw [List.getElem_take]
          exact not_isLast_iff.1 (hbefore k (by omega))
        · cases h
  · rintro ⟨hlen, hmax, start, last, heq, hstart, hlast⟩
    have hlenEq : n = start.length + 1 := by
      have := congrArg List.length heq
      rw [List.length_take, List.length_append, List.length_singleton] at this
      omega
    have hsrc : src = start ++ last :: src.drop n := by
      rw [← List.singleton_append, ← List.append_assoc, ← heq, List.take_append_drop]
    rw [List.length_take, Nat.min_eq_left hlen] at hmax
    have hfind : src.findIdx? isLast = some start.length := by
      rw [hsrc, List.findIdx?_append, List.findIdx?_cons, isLast_iff.2 hlast]
      have hnone : start.findIdx? isLast = none :=
        List.findIdx?_eq_none_iff.2 fun b hb => by
          have := not_isLast_iff.2 (hstart b hb)
          simpa using this
      simp [hnone]
    unfold extent
    rw [hfind]
    simp only [hlenEq]
    rw [if_pos (by omega)]

end WireFormat.Varint
