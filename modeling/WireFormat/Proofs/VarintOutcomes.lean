import Mathlib.Algebra.BigOperators.Fin
import Mathlib.Algebra.BigOperators.Ring.Finset
import WireFormat.Proofs.Bytewise

/-!
# What reading a varint comes to

Which of the three ends the reading of a varint comes to is settled by the top bits of the bytes
alone: a number if one of the first ten bytes announces no other, too long if only a later one does,
and truncated if none does. The number is the sum of the groups, each at its weight, modulo 2^64
(`decode_outcomes`). Bytes put behind can only turn a truncated varint into something else.
-/

namespace WireFormat.Varint

theorem continues_iff {b : UInt8} : continues b = true ↔ 0x80 ≤ b := by
  rw [continues_eq, ← not_isLast_iff, Bool.not_eq_true', Bool.not_eq_true]

/-! ## A varint by its places -/

/-- A varint has at most ten bytes, of which those continue that have one behind them. -/
theorem isVarint_iff {bytes : Bytes} :
    IsVarint bytes ↔ 1 ≤ bytes.length ∧ bytes.length ≤ maxLength ∧
      ∀ (i : Nat) (_ : i < bytes.length), continues bytes[i] ↔ i + 1 < bytes.length := by
  constructor
  · rintro ⟨hmax, start, last, rfl, hstart, hlast⟩
    have hlength : (start ++ [last]).length = start.length + 1 := by simp
    refine ⟨by omega, hmax, fun i hi => ?_⟩
    rw [hlength] at hi ⊢
    rcases Nat.lt_or_ge i start.length with hbefore | hbehind
    · rw [List.getElem_append_left hbefore, continues_iff]
      exact iff_of_true (hstart _ (List.getElem_mem hbefore)) (by omega)
    · obtain rfl : i = start.length := by omega
      rw [List.getElem_append_right (Nat.le_refl _), continues_iff]
      simpa using hlast
  · rintro ⟨hpos, hmax, hbits⟩
    have hne : bytes ≠ [] := List.ne_nil_of_length_pos hpos
    refine ⟨hmax, bytes.dropLast, bytes.getLast hne, (List.dropLast_concat_getLast hne).symm,
      fun b hb => ?_, ?_⟩
    · obtain ⟨i, hi, rfl⟩ := List.mem_iff_getElem.1 hb
      rw [List.length_dropLast] at hi
      rw [List.getElem_dropLast]
      exact continues_iff.1 ((hbits i (by omega)).2 (by omega))
    · rw [List.getLast_eq_getElem]
      have hlast := hbits (bytes.length - 1) (by omega)
      rw [continues_iff] at hlast
      exact UInt8.not_le.1 fun h => absurd (hlast.1 h) (by omega)

theorem isVarint_take_iff {src : Bytes} {n : Nat} (hlength : n ≤ src.length) :
    IsVarint (src.take n) ↔
      1 ≤ n ∧ n ≤ maxLength ∧ ∀ i : Fin n, continues src[i] ↔ i.val + 1 < n := by
  have htake : (src.take n).length = n := by rw [List.length_take, Nat.min_eq_left hlength]
  rw [isVarint_iff, Fin.forall_iff]
  simp only [htake, List.getElem_take]
  rfl

/-- Each group weighs 128 times as much as the one before. -/
theorem value_take_eq_sum {src : Bytes} : ∀ {n : Nat} (_ : n ≤ src.length),
    value (src.take n) = ∑ i : Fin n, src[i].toNat % 128 * 128 ^ i.val := by
  induction src with
  | nil =>
    intro n hn
    obtain rfl : n = 0 := by simpa using hn
    rfl
  | cons b rest ih =>
    intro n hn
    cases n with
    | zero => rfl
    | succ n =>
      have hrest : n ≤ rest.length := by simpa using hn
      rw [List.take_succ_cons, value, ih hrest, Fin.sum_univ_succ, Finset.mul_sum]
      congr 1
      · simp
      · refine Finset.sum_congr rfl fun i _ => ?_
        show 128 * (rest[i].toNat % 128 * 128 ^ i.val) = rest[i].toNat % 128 * 128 ^ (i.val + 1)
        rw [Nat.pow_succ, Nat.mul_comm 128, Nat.mul_assoc]

/-! ## No varint -/

theorem scan_eq_none_iff {width : Nat} (groups taken : Nat) (word : BitVec width)
    (bytes : Bytes) : scan groups taken word bytes = none ↔ ∀ b ∈ bytes, continues b := by
  induction bytes generalizing taken word with
  | nil => simp [scan]
  | cons b rest ih => cases hb : continues b <;> simp [scan, hb, ih]

theorem unended_eq_tooLong_iff {src : Bytes} :
    unended src = .tooLong ↔ ∃ b ∈ src, ¬ continues b := by
  simp [unended]

theorem unended_eq_truncated_iff {src : Bytes} :
    unended src = .truncated ↔ ∀ b ∈ src, continues b := by
  simp [unended]

/-- There is no varint if the first ten bytes continue, and the others say why. -/
theorem decode_eq_error_iff {src : Bytes} {e : Error} :
    decode src = .error e ↔ (∀ b ∈ src.take maxLength, continues b) ∧ unended src = e := by
  rw [decode_eq_bytewise, decodeBytewise, ← scan_eq_none_iff maxLength 0 (0 : BitVec 64)]
  cases scan maxLength 0 (0 : BitVec 64) (src.take maxLength) with
  | none => simp [Except.map]
  | some result => simp [Except.map]

theorem decode_eq_tooLong_iff {src : Bytes} :
    decode src = .error .tooLong ↔
      (∀ b ∈ src.take maxLength, continues b) ∧ ∃ b ∈ src.drop maxLength, ¬ continues b := by
  rw [decode_eq_error_iff, unended_eq_tooLong_iff]
  constructor
  · rintro ⟨hfirst, b, hb, hlast⟩
    rw [← List.take_append_drop maxLength src] at hb
    rcases List.mem_append.1 hb with hb | hb
    · exact absurd (hfirst b hb) hlast
    · exact ⟨hfirst, b, hb, hlast⟩
  · rintro ⟨hfirst, b, hb, hlast⟩
    exact ⟨hfirst, b, List.mem_of_mem_drop hb, hlast⟩

theorem decode_eq_truncated_iff {src : Bytes} :
    decode src = .error .truncated ↔ ∀ b ∈ src, continues b := by
  rw [decode_eq_error_iff, unended_eq_truncated_iff]
  exact ⟨And.right, fun h => ⟨fun b hb => h b (List.mem_of_mem_take hb), h⟩⟩

/-! ## Bytes behind -/

theorem decode_append_of_ok {src : Bytes} {v : UInt64} {n : Nat} (h : decode src = .ok (v, n))
    (more : Bytes) : decode (src ++ more) = .ok (v, n) := by
  obtain ⟨hlength, hvarint, hvalue⟩ := decode_eq_ok_iff.1 h
  rw [decode_eq_ok_iff, List.take_append_of_le_length hlength, List.length_append]
  exact ⟨by omega, hvarint, hvalue⟩

theorem decode_append_of_tooLong {src : Bytes} (h : decode src = .error .tooLong) (more : Bytes) :
    decode (src ++ more) = .error .tooLong := by
  obtain ⟨hfirst, b, hb, hlast⟩ := decode_eq_tooLong_iff.1 h
  have hlength : maxLength ≤ src.length := by
    have hpos := List.length_pos_of_mem hb
    rw [List.length_drop] at hpos
    omega
  rw [decode_eq_tooLong_iff, List.take_append_of_le_length hlength,
    List.drop_append_of_le_length hlength]
  exact ⟨hfirst, b, List.mem_append_left more hb, hlast⟩

/-! ## All outcomes -/

/-- What comes of reading a varint from any bytes: a number and how many bytes it takes, too long,
or truncated, and in the first two cases the same if others stand behind. -/
theorem decode_outcomes (src : Bytes) :
    (∀ v n, decode src = .ok (v, n) ↔
      1 ≤ n ∧ n ≤ 10 ∧ ∃ _ : n ≤ src.length,
        (∀ i : Fin n, continues src[i] ↔ i.val + 1 < n) ∧
        v.toNat = (∑ i : Fin n, src[i].toNat % 128 * 128 ^ i.val) % 2 ^ 64) ∧
    (decode src = .error .tooLong ↔
      (∀ b ∈ src.take 10, continues b) ∧ ∃ b ∈ src.drop 10, ¬ continues b) ∧
    (decode src = .error .truncated ↔ ∀ b ∈ src, continues b) ∧
    ∀ more, (∀ v n, decode src = .ok (v, n) → decode (src ++ more) = .ok (v, n)) ∧
      (decode src = .error .tooLong → decode (src ++ more) = .error .tooLong) := by
  refine ⟨fun v n => ?_, decode_eq_tooLong_iff, decode_eq_truncated_iff, fun more =>
    ⟨fun v n h => decode_append_of_ok h more, fun h => decode_append_of_tooLong h more⟩⟩
  rw [decode_eq_ok_iff]
  constructor
  · rintro ⟨hlength, hvarint, hvalue⟩
    obtain ⟨hpos, hmax, hbits⟩ := (isVarint_take_iff hlength).1 hvarint
    exact ⟨hpos, hmax, hlength, hbits, by rw [hvalue, value_take_eq_sum hlength]⟩
  · rintro ⟨hpos, hmax, hlength, hbits, hvalue⟩
    refine ⟨hlength, (isVarint_take_iff hlength).2 ⟨hpos, hmax, hbits⟩, ?_⟩
    rw [hvalue, value_take_eq_sum hlength]

/-- Nine full groups and a tenth of which one bit fits are a number, and eleven bytes are too long,
with or without a byte behind that announces another. -/
theorem decode_outcomes_full_groups :
    decode (.replicate 9 0xff ++ [0x7f]) = .ok (0xffffffffffffffff, 10) ∧
      decode (.replicate 9 0xff ++ [0x7f] ++ [0x80]) = .ok (0xffffffffffffffff, 10) ∧
      decode (.replicate 10 0x80 ++ [0x01]) = .error .tooLong ∧
      decode (.replicate 10 0x80 ++ [0x01] ++ [0x80]) = .error .tooLong := by
  have hfull : decode (.replicate 9 0xff ++ [0x7f]) = .ok (0xffffffffffffffff, 10) := rfl
  have hlong : decode (.replicate 10 0x80 ++ [0x01]) = .error .tooLong := rfl
  exact ⟨hfull, ((decode_outcomes _).2.2.2 [0x80]).1 _ _ hfull, hlong,
    ((decode_outcomes _).2.2.2 [0x80]).2 hlong⟩

end WireFormat.Varint
