import WireFormat.Proofs.Bytewise
import WireFormat.Writer

/-!
# The shortest varint

How many bytes a number takes as a varint is settled by the powers of 128 it is below, and both the
writer and `encodedLength`, which counts significant bits, go by them (`length_encode_le_iff`,
`encodedLength_le_iff`). Bytes of any varint, padded or not, spell a number below as many powers of
128, and what exceeds a word is only ever dropped. So no varint that is read as a number is shorter
than the one that is written for it (`encode_shortest`).
-/

namespace WireFormat.Varint

/-! ## Powers of 128 -/

theorem value_lt (bytes : Bytes) : value bytes < 128 ^ bytes.length := by
  induction bytes with
  | nil => decide
  | cons b rest ih =>
    rw [value, List.length_cons, Nat.pow_succ]
    omega

theorem length_encodeWithin_pos (more : Nat) (v : UInt64) : 0 < (encodeWithin more v).length := by
  cases more with
  | zero => simp [encodeWithin]
  | succ more =>
    rw [encodeWithin]
    split <;> simp

/-- Each byte but the last takes one power of 128 off the number. -/
theorem length_encodeWithin_le_iff (more : Nat) : ∀ (k : Nat) (v : UInt64),
    v.toNat < 128 ^ (more + 1) →
      ((encodeWithin more v).length ≤ k + 1 ↔ v.toNat < 128 ^ (k + 1)) := by
  have hpow : ∀ k : Nat, 128 ≤ 128 ^ (k + 1) := fun k =>
    Nat.pow_le_pow_right (show 0 < 128 by decide) (show 1 ≤ k + 1 by omega)
  induction more with
  | zero =>
    intro k v hv
    have hk := hpow k
    simp only [encodeWithin, List.length_singleton]
    omega
  | succ more ih =>
    intro k v hv
    by_cases hsmall : v < 0x80
    · have hv' : v.toNat < 128 := UInt64.lt_iff_toNat_lt.1 hsmall
      have hk := hpow k
      simp only [encodeWithin, if_pos hsmall, List.length_singleton]
      omega
    · have hv' : 128 ≤ v.toNat := UInt64.le_iff_toNat_le.1 (UInt64.not_lt.1 hsmall)
      simp only [encodeWithin, if_neg hsmall, List.length_cons, Nat.add_le_add_iff_right]
      cases k with
      | zero =>
        have hpos := length_encodeWithin_pos more (v >>> 7)
        omega
      | succ k =>
        have hrest : (v >>> 7).toNat < 128 ^ (more + 1) := (shiftRight_group_lt_iff v _).2 hv
        rw [ih k (v >>> 7) hrest, shiftRight_group_lt_iff]

/-- A number is written in at most `k` bytes if `k` groups hold it. -/
theorem length_encode_le_iff {k : Nat} (hk : 0 < k) (v : UInt64) :
    (encode v).length ≤ k ↔ v.toNat < 128 ^ k := by
  obtain ⟨k, rfl⟩ : ∃ j, k = j + 1 := ⟨k - 1, by omega⟩
  exact length_encodeWithin_le_iff (maxLength - 1) k v (lt_of_ten_groups v)

/-- Significant bits count the same groups, since the lowest bit, which is set first, makes one bit
out of none and adds to no other number of bits. -/
theorem encodedLength_le_iff {k : Nat} (hk : 0 < k) (v : UInt64) :
    encodedLength v ≤ k ↔ v.toNat < 128 ^ k := by
  have hpow : (128 : Nat) ^ k = 2 ^ (7 * k) := by rw [Nat.pow_mul]
  have hodd : v.toNat ||| 1 ≠ 0 := by
    have : 1 ≤ v.toNat ||| 1 := Nat.right_le_or
    omega
  have hor : v.toNat ||| 1 < 2 ^ (7 * k) ↔ v.toNat < 2 ^ (7 * k) := by
    constructor
    · exact Nat.lt_of_le_of_lt Nat.left_le_or
    · intro h
      exact Nat.or_lt_two_pow h (Nat.one_lt_two_pow (by omega))
  rw [hpow, ← hor, ← Nat.log2_lt hodd, encodedLength]
  omega

theorem encodedLength_pos (v : UInt64) : 0 < encodedLength v := by
  rw [encodedLength]
  omega

theorem length_encode (v : UInt64) : (encode v).length = encodedLength v := by
  have hpos : 0 < (encode v).length := length_encodeWithin_pos _ v
  have hpos' : 0 < encodedLength v := encodedLength_pos v
  apply Nat.le_antisymm
  · have hlt := (encodedLength_le_iff hpos' v).1 (Nat.le_refl _)
    exact (length_encode_le_iff hpos' v).2 hlt
  · have hlt := (length_encode_le_iff hpos v).1 (Nat.le_refl _)
    exact (encodedLength_le_iff hpos v).2 hlt

/-- A varint that is read as a number is at least as long as the one written for it. -/
theorem length_encode_le_of_decode {src : Bytes} {v : UInt64} {n : Nat}
    (h : decode src = .ok (v, n)) : (encode v).length ≤ n := by
  obtain ⟨hlength, hvarint, hvalue⟩ := decode_eq_ok_iff.1 h
  have htake : (src.take n).length = n := by rw [List.length_take, Nat.min_eq_left hlength]
  have hpos := hvarint.length_pos
  rw [htake] at hpos
  rw [length_encode_le_iff hpos]
  calc v.toNat = value (src.take n) % 2 ^ 64 := hvalue
    _ ≤ value (src.take n) := Nat.mod_le _ _
    _ < 128 ^ (src.take n).length := value_lt _
    _ = 128 ^ n := by rw [htake]

/-! ## What is written is the shortest -/

/-- A number is written behind what is there and leaves it as it is, in as many bytes as
`encodedLength` says, one to ten. Whatever follows them, they are read as the number again, and no
varint with fewer bytes is. -/
theorem encode_shortest (v : UInt64) :
    (∀ writer : Writer, (writer.write (.scalar (.uint64 v))).bytes = writer.bytes ++ encode v) ∧
    (∀ buffer, encodeOnto buffer v = buffer ++ encode v) ∧
    (encode v).length = encodedLength v ∧ 1 ≤ encodedLength v ∧ encodedLength v ≤ 10 ∧
    (∀ rest, decode (encode v ++ rest) = .ok (v, (encode v).length)) ∧
    ∀ src n, decode src = .ok (v, n) → (encode v).length ≤ n := by
  refine ⟨fun writer => ?_, fun buffer => encodeOnto_eq buffer v, length_encode v,
    encodedLength_pos v, ?_, decode_encode_append v, fun src n h => length_encode_le_of_decode h⟩
  · rw [Writer.write, Item.write, Scalar.write]
  · rw [encodedLength_le_iff (by decide)]
    exact lt_of_ten_groups v

/-- Ten bytes whose last group exceeds a word are read as a number of one byte. -/
theorem encode_shortest_overflowing :
    decode (0x85 :: .replicate 8 0x80 ++ [0x02]) = .ok (5, 10) ∧ (encode 5).length ≤ 10 := by
  have h : decode (0x85 :: .replicate 8 0x80 ++ [0x02]) = .ok (5, 10) := rfl
  exact ⟨h, (encode_shortest 5).2.2.2.2.2.2 _ _ h⟩

end WireFormat.Varint
