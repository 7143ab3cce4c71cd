import WireFormat.Varint.Groups

/-!
# Varints read back

The readers of varints in terms of `IsVarint` and `value` (`decodeAs_eq_ok_iff`), and what `encode`
writes in the same terms. A number written is one varint that spells it, so it is taken off the
front of any bytes (`decode_encode_append`).
-/

namespace WireFormat.Varint

/-! ## What the readers take -/

/-- The groups behind the first do not change the number modulo what these hold. -/
theorem value_take_mod (groups : Nat) : ∀ bytes : Bytes,
    value (bytes.take groups) % 128 ^ groups = value bytes % 128 ^ groups := by
  induction groups with
  | zero => simp [Nat.mod_one]
  | succ groups ih =>
    intro bytes
    cases bytes with
    | nil => rfl
    | cons b rest =>
      have hlow (high : Nat) : (b.toNat % 128 + 128 * high) % 128 ^ (groups + 1) =
          b.toNat % 128 + 128 * (high % 128 ^ groups) := by
        have hfirst : (b.toNat % 128 + 128 * high) % 128 = b.toNat % 128 := by omega
        have hrest : (b.toNat % 128 + 128 * high) / 128 = high := by omega
        rw [Nat.pow_succ', Nat.mod_mul, hfirst, hrest]
      rw [List.take_succ_cons, value, value, hlow, hlow, ih]

/-- The groups behind those that a word has room for weigh more than it holds. -/
theorem value_take {width groups : Nat} (hgroups : width ≤ 7 * groups) (bytes : Bytes) :
    value (bytes.take groups) % 2 ^ width = value bytes % 2 ^ width := by
  have hpow : (128 : Nat) ^ groups = 2 ^ (7 * groups) := by rw [Nat.pow_mul]
  have hdvd : 2 ^ width ∣ 128 ^ groups := hpow ▸ Nat.pow_dvd_pow 2 hgroups
  rw [← Nat.mod_mod_of_dvd _ hdvd, value_take_mod, Nat.mod_mod_of_dvd _ hdvd]

section

variable {α : Type} {width groups : Nat} {make : BitVec width → α} {src : Bytes}

/-- A word that counts as many groups as it has room for is the number that is spelled. -/
theorem decodeAs_eq (hwidth : 7 ≤ width) (hgroups : width ≤ 7 * groups) :
    decodeAs groups make src =
      (extent src).map fun n => (make (BitVec.ofNat width (value (src.take n))), n) := by
  have hword (bytes : Bytes) :
      word width (bytes.take groups) = BitVec.ofNat width (value bytes) := by
    rw [word_eq hwidth]
    apply BitVec.eq_of_toNat_eq
    rw [BitVec.toNat_ofNat, BitVec.toNat_ofNat, value_take hgroups]
  unfold decodeAs
  cases extent src with
  | error e => rfl
  | ok n => simp only [hword, Except.map]

theorem decodeAs_eq_ok_iff (hwidth : 7 ≤ width) (hgroups : width ≤ 7 * groups) {a : α} {n : Nat} :
    decodeAs groups make src = .ok (a, n) ↔ n ≤ src.length ∧ IsVarint (src.take n) ∧
      a = make (BitVec.ofNat width (value (src.take n))) := by
  rw [decodeAs_eq hwidth hgroups, ← and_assoc, ← extent_eq_ok_iff]
  cases extent src with
  | error e => simp [Except.map]
  | ok m =>
    simp only [Except.map, Except.ok.injEq, Prod.mk.injEq]
    constructor
    · rintro ⟨rfl, rfl⟩
      exact ⟨rfl, rfl⟩
    · rintro ⟨rfl, rfl⟩
      exact ⟨rfl, rfl⟩

end

theorem decode_eq_ok_iff {src : Bytes} {v : UInt64} {n : Nat} :
    decode src = .ok (v, n) ↔
      n ≤ src.length ∧ IsVarint (src.take n) ∧ v.toNat = value (src.take n) % 2 ^ 64 := by
  rw [decode, decodeAs_eq_ok_iff (by decide) (by decide), ← UInt64.toNat_inj]
  rfl

theorem decode32_eq_ok_iff {src : Bytes} {v : UInt32} {n : Nat} :
    decode32 src = .ok (v, n) ↔
      n ≤ src.length ∧ IsVarint (src.take n) ∧ v.toNat = value (src.take n) % 2 ^ 32 := by
  rw [decode32, decodeAs_eq_ok_iff (by decide) (by decide), ← UInt32.toNat_inj]
  rfl

/-- The 32-bit reader takes what the 64-bit reader takes, and keeps the low half of its number. -/
theorem decode32_of_decode {src : Bytes} {v : UInt64} {n : Nat} (h : decode src = .ok (v, n)) :
    decode32 src = .ok (v.toUInt32, n) := by
  obtain ⟨hlen, hvarint, hvalue⟩ := decode_eq_ok_iff.1 h
  refine decode32_eq_ok_iff.2 ⟨hlen, hvarint, ?_⟩
  rw [UInt64.toNat_toUInt32, hvalue]
  exact Nat.mod_mod_of_dvd _ (by decide)

/-- A byte below the bound is a varint. -/
theorem isVarint_singleton {b : UInt8} (h : b < 0x80) : IsVarint [b] :=
  ⟨by simp [maxLength], [], b, rfl, by simp, h⟩

theorem IsVarint.length_pos {bytes : Bytes} (h : IsVarint bytes) : 0 < bytes.length := by
  obtain ⟨-, start, last, rfl, -, -⟩ := h
  simp

/-! ## What is written -/

theorem toNat_or_top (b : UInt8) : (b ||| 0x80).toNat % 128 = b.toNat % 128 := by
  have h := Nat.or_mod_two_pow (a := b.toNat) (b := 128) (n := 7)
  rw [UInt8.toNat_or]
  simpa using h

theorem top_le_or (b : UInt8) : 0x80 ≤ b ||| 0x80 := by
  rw [UInt8.le_iff_toNat_le, UInt8.toNat_or]
  exact Nat.right_le_or

theorem toUInt8_lt {v : UInt64} (h : v < 0x80) : v.toUInt8 < 0x80 ∧ v.toUInt8.toNat = v.toNat := by
  have hv : v.toNat < 128 := UInt64.lt_iff_toNat_lt.1 h
  have hb : v.toUInt8.toNat = v.toNat := by
    rw [UInt64.toNat_toUInt8]
    omega
  refine ⟨?_, hb⟩
  rw [UInt8.lt_iff_toNat_lt, hb]
  exact hv

theorem toNat_shiftRight_group (v : UInt64) : (v >>> 7).toNat = v.toNat / 128 := by
  rw [UInt64.toNat_shiftRight, Nat.shiftRight_eq_div_pow]
  rfl

/-- What is left of a number behind its first group is below the next smaller power. -/
theorem shiftRight_group_lt_iff (v : UInt64) (k : Nat) :
    (v >>> 7).toNat < 128 ^ k ↔ v.toNat < 128 ^ (k + 1) := by
  rw [toNat_shiftRight_group, Nat.div_lt_iff_lt_mul (by decide), Nat.pow_succ]

/-- A number below the bound is one varint of at most `more + 1` bytes, and it spells the number. -/
theorem encodeWithin_spec : ∀ (more : Nat) (v : UInt64), v.toNat < 128 ^ (more + 1) →
    (encodeWithin more v).length ≤ more + 1 ∧ value (encodeWithin more v) = v.toNat ∧
      ∃ start last, encodeWithin more v = start ++ [last] ∧ (∀ b ∈ start, 0x80 ≤ b) ∧
        last < 0x80 := by
  intro more
  induction more with
  | zero =>
    intro v hv
    have hlast := toUInt8_lt (v := v) (UInt64.lt_iff_toNat_lt.2 (by simpa using hv))
    refine ⟨by simp [encodeWithin], ?_, [], v.toUInt8, rfl, by simp, hlast.1⟩
    simp only [encodeWithin, value, hlast.2]
    omega
  | succ more ih =>
    intro v hv
    by_cases hsmall : v < 0x80
    · have hlast := toUInt8_lt hsmall
      have hv' : v.toNat < 128 := UInt64.lt_iff_toNat_lt.1 hsmall
      simp only [encodeWithin, if_pos hsmall]
      refine ⟨by simp, ?_, [], v.toUInt8, rfl, by simp, hlast.1⟩
      simp only [value, hlast.2]
      omega
    · -- a full byte goes in front of the rest, which is below the next smaller bound
      have hrest : (v >>> 7).toNat < 128 ^ (more + 1) := (shiftRight_group_lt_iff v _).2 hv
      obtain ⟨hlen, hvalue, start, last, heq, hstart, hlast⟩ := ih (v >>> 7) hrest
      simp only [encodeWithin, if_neg hsmall]
      refine ⟨by simp only [List.length_cons]; omega, ?_,
        (v.toUInt8 ||| 0x80) :: start, last, by rw [heq]; rfl, ?_, hlast⟩
      · rw [value, hvalue, toNat_shiftRight_group, toNat_or_top, UInt64.toNat_toUInt8]
        omega
      · intro b hb
        rcases List.mem_cons.1 hb with rfl | hb
        · exact top_le_or _
        · exact hstart b hb

theorem lt_of_ten_groups (v : UInt64) : v.toNat < 128 ^ (maxLength - 1 + 1) := by
  have hv := v.toNat_lt
  simp only [maxLength]
  omega

theorem isVarint_encode (v : UInt64) : IsVarint (encode v) := by
  obtain ⟨hlen, -, hform⟩ := encodeWithin_spec (maxLength - 1) v (lt_of_ten_groups v)
  exact ⟨hlen, hform⟩

theorem value_encode (v : UInt64) : value (encode v) = v.toNat :=
  (encodeWithin_spec (maxLength - 1) v (lt_of_ten_groups v)).2.1

/-! ## Reading back -/

theorem decode_encode_append (v : UInt64) (rest : Bytes) :
    decode (encode v ++ rest) = .ok (v, (encode v).length) := by
  rw [decode_eq_ok_iff, List.take_left, value_encode]
  refine ⟨by simp, isVarint_encode v, ?_⟩
  exact (Nat.mod_eq_of_lt v.toNat_lt).symm

end WireFormat.Varint
