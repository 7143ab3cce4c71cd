import WireFormat.ZigZag

/-!
# Zig-zag numbers read back

`place` is the place of any integer in the order 0, -1, 1, -2, 2, … and `atPlace` the integer at a
place, said without bits; each undoes the other. The codecs mix the bits of a word with its sign and
unmix them, and for words of any width that is to take the place of their number and the number at
their place (`toNat_mix`, `toInt_unmix`). So the codecs undo each other in both directions.
-/

namespace WireFormat.ZigZag

/-! ## Places of integers -/

/-- The place of an integer in the order 0, -1, 1, -2, 2, …. -/
def place (z : Int) : Nat := if 0 ≤ z then 2 * z.natAbs else 2 * z.natAbs - 1

/-- The integer at a place of the order 0, -1, 1, -2, 2, …. -/
def atPlace (n : Nat) : Int := if n % 2 = 0 then (n / 2 : Nat) else -(n / 2 : Nat) - 1

theorem atPlace_place (z : Int) : atPlace (place z) = z := by
  unfold atPlace place
  by_cases h : 0 ≤ z
  · rw [if_pos h]
    split <;> omega
  · rw [if_neg h]
    split <;> omega

theorem place_atPlace (n : Nat) : place (atPlace n) = n := by
  unfold atPlace place
  by_cases h : n % 2 = 0
  · rw [if_pos h]
    split <;> omega
  · rw [if_neg h]
    split <;> omega

/-! ## Places of words -/

/-- The place of a word in zig-zag order. -/
def mix {w : Nat} (x : BitVec (w + 1)) : BitVec (w + 1) := x <<< 1 ^^^ x.sshiftRight w

/-- The word at a place of zig-zag order. -/
def unmix {w : Nat} (x : BitVec (w + 1)) : BitVec (w + 1) := x >>> 1 ^^^ -(x &&& 1#(w + 1))

/-- The sign shifted down is a word of nothing but the sign. -/
theorem sshiftRight_all {w : Nat} (x : BitVec (w + 1)) :
    x.sshiftRight w = if x.msb then BitVec.allOnes (w + 1) else 0#(w + 1) := by
  have hsign : x[w] = x.msb := by simp [BitVec.msb_eq_getLsbD_last]
  ext i hi
  rcases i with _ | i
  · cases h : x.msb <;> simp [BitVec.getElem_sshiftRight, hsign, h]
  · cases h : x.msb <;> simp [BitVec.getElem_sshiftRight, h]

theorem toNat_mix {w : Nat} (x : BitVec (w + 1)) : (mix x).toNat = place x.toInt := by
  have hlt := x.isLt
  have hdouble : (x <<< 1).toNat = 2 * x.toNat % 2 ^ (w + 1) := by
    rw [BitVec.toNat_shiftLeft, Nat.shiftLeft_eq, Nat.mul_comm]
  rw [mix, sshiftRight_all, place, BitVec.toInt_eq_msb_cond]
  cases hsign : x.msb with
  | false =>
    have hsmall := BitVec.msb_eq_false_iff_two_mul_lt.1 hsign
    rw [Nat.mod_eq_of_lt hsmall] at hdouble
    simp [hdouble]
  | true =>
    -- doubling drops the sign, and with all bits flipped the word counts down from the last place
    have hlarge := BitVec.msb_eq_true_iff_two_mul_ge.1 hsign
    rw [Nat.mod_eq_sub_mod hlarge, Nat.mod_eq_of_lt (by omega)] at hdouble
    have hneg : ¬ 0 ≤ (x.toNat : Int) - (2 ^ (w + 1) : Nat) := by omega
    simp only [if_true, if_neg hneg, BitVec.xor_allOnes, BitVec.toNat_not, hdouble]
    omega

theorem and_one_eq {w : Nat} (x : BitVec (w + 1)) :
    x &&& 1#(w + 1) = if x.toNat % 2 = 0 then 0#(w + 1) else 1#(w + 1) := by
  have hone : (1#(w + 1)).toNat = 1 := by simp
  apply BitVec.eq_of_toNat_eq
  rw [BitVec.toNat_and, hone, Nat.and_one_is_mod]
  by_cases heven : x.toNat % 2 = 0
  · rw [if_pos heven, heven]
    rfl
  · rw [if_neg heven, hone]
    omega

theorem toInt_unmix {w : Nat} (x : BitVec (w + 1)) : (unmix x).toInt = atPlace x.toNat := by
  have hlt := x.isLt
  have hpow : 2 ^ (w + 1) = 2 * 2 ^ w := by rw [Nat.pow_succ, Nat.mul_comm]
  have hhalf : (x >>> 1).toNat = x.toNat / 2 := by
    rw [BitVec.toNat_ushiftRight, Nat.shiftRight_eq_div_pow]
  rw [unmix, and_one_eq, atPlace, BitVec.toInt_eq_toNat_cond]
  by_cases heven : x.toNat % 2 = 0
  · simp [heven, hhalf]
    omega
  · simp only [if_neg heven, BitVec.neg_one_eq_allOnes, BitVec.xor_allOnes, BitVec.toNat_not, hhalf]
    omega

/-! ## The codecs -/

theorem toNat_encode32 (v : Int32) : (encode32 v).toNat = place v.toInt := by
  have hbits : (encode32 v).toBitVec = mix v.toBitVec := by simp [encode32, mix]
  rw [← UInt32.toNat_toBitVec, hbits, toNat_mix]
  rfl

theorem toNat_encode64 (v : Int64) : (encode64 v).toNat = place v.toInt := by
  have hbits : (encode64 v).toBitVec = mix v.toBitVec := by simp [encode64, mix]
  rw [← UInt64.toNat_toBitVec, hbits, toNat_mix]
  rfl

theorem toInt_decode32 (n : UInt32) : (decode32 n).toInt = atPlace n.toNat := by
  have hbits : (decode32 n).toBitVec = unmix n.toBitVec := by simp [decode32, unmix]
  rw [← Int32.toInt_toBitVec, hbits, toInt_unmix]
  rfl

theorem toInt_decode64 (n : UInt64) : (decode64 n).toInt = atPlace n.toNat := by
  have hbits : (decode64 n).toBitVec = unmix n.toBitVec := by simp [decode64, unmix]
  rw [← Int64.toInt_toBitVec, hbits, toInt_unmix]
  rfl

theorem decode32_encode32 (v : Int32) : decode32 (encode32 v) = v := by
  apply Int32.toInt_inj.1
  rw [toInt_decode32, toNat_encode32, atPlace_place]

theorem decode64_encode64 (v : Int64) : decode64 (encode64 v) = v := by
  apply Int64.toInt_inj.1
  rw [toInt_decode64, toNat_encode64, atPlace_place]

theorem encode32_decode32 (n : UInt32) : encode32 (decode32 n) = n := by
  apply UInt32.toNat_inj.1
  rw [toNat_encode32, toInt_decode32, place_atPlace]

theorem encode64_decode64 (n : UInt64) : encode64 (decode64 n) = n := by
  apply UInt64.toNat_inj.1
  rw [toNat_encode64, toInt_decode64, place_atPlace]

end WireFormat.ZigZag
