import WireFormat.Proofs.Varint

/-!
# Varints a byte at a time

`decode` first looks for the end of a varint and then puts its groups together. Here this is done in
one pass (`decodeBytewise`): each byte adds its group to the word put together so far, at the place
that the bytes before leave it, and the first byte that announces no other ends the pass. Groups
behind those that a word takes are passed over, and all bytes are looked at again only to say why
there is no varint. The same word comes out of both (`decodeAs_eq_bytewise`).

A pass with a narrow word keeps the low bits of a pass with a wide one and stops where it stops
(`decodeBytewise_narrow`), so the 32-bit reader is the 64-bit one modulo 2^32 (`decode32_low_half`).

A number is written byte by byte behind what a buffer holds (`encodeOnto`), and what comes to stand
there is its varint (`encodeOnto_eq`).
-/

namespace WireFormat.Varint

/-- Whether a byte announces another one: its top bit is set. -/
def continues (b : UInt8) : Bool := b &&& 0x80 != 0

/-- The word after a byte that `taken` others precede. Of the groups of a varint, the first `groups`
count. -/
def addGroup {width : Nat} (groups taken : Nat) (word : BitVec width) (b : UInt8) :
    BitVec width :=
  if taken < groups then word ||| group width b <<< (7 * taken) else word

/-- Adds the groups of some bytes to the word that the `taken` bytes before have come to, up to the
byte that announces no other. -/
def scan {width : Nat} (groups : Nat) : Nat → BitVec width → Bytes → Option (BitVec width × Nat)
  | _, _, [] => none
  | taken, word, b :: rest =>
    if continues b then scan groups (taken + 1) (addGroup groups taken word b) rest
    else some (addGroup groups taken word b, taken + 1)

/-- Why no byte of the first ten is the last one of a varint. -/
def unended (src : Bytes) : Error :=
  if src.any fun b => !continues b then .tooLong else .truncated

/-- Reads the varint at the front of a byte string into a word that takes so many groups, in one
pass over at most ten bytes. -/
def decodeBytewise (width groups : Nat) (src : Bytes) : Except Error (BitVec width × Nat) :=
  match scan groups 0 0 (src.take maxLength) with
  | some result => .ok result
  | none => .error (unended src)

/-- Writes a number behind the bytes of a buffer, one byte after another. -/
def encodeOnto (buffer : Bytes) (v : UInt64) : Bytes :=
  if v < 0x80 then buffer ++ [v.toUInt8]
  else encodeOnto (buffer ++ [v.toUInt8 &&& 0x7f ||| 0x80]) (v >>> 7)
termination_by v.toNat
decreasing_by
  rename_i hsmall
  have hlarge : 0x80 ≤ v.toNat := UInt64.le_iff_toNat_le.1 (UInt64.not_lt.1 hsmall)
  rw [toNat_shiftRight_group]
  exact Nat.div_lt_self (by omega) (by decide)

/-! ## One byte -/

theorem continues_eq (b : UInt8) : continues b = !isLast b := by
  have hdiv := Nat.and_div_two_pow (a := b.toNat) (b := 128) (n := 7)
  have hmod := Nat.and_mod_two_pow (a := b.toNat) (b := 128) (n := 7)
  simp only [Nat.reducePow, Nat.reduceDiv, Nat.reduceMod, Nat.and_one_is_mod, Nat.and_zero]
    at hdiv hmod
  have hlt := b.toNat_lt
  have hzero : b &&& 0x80 = 0 ↔ b < 0x80 := by
    rw [← UInt8.toNat_inj, UInt8.toNat_and, UInt8.lt_iff_toNat_lt]
    show b.toNat &&& 128 = 0 ↔ b.toNat < 128
    omega
  by_cases h : b < 0x80 <;> simp [continues, isLast, hzero, h]

/-- A group that does not count would have come to stand beyond the end of the word. -/
theorem addGroup_eq {width groups : Nat} (hgroups : width ≤ 7 * groups) (taken : Nat)
    (word : BitVec width) (b : UInt8) :
    addGroup groups taken word b = word ||| group width b <<< (7 * taken) := by
  unfold addGroup
  split
  · rfl
  · have hbeyond : width ≤ 7 * taken := by omega
    rw [BitVec.shiftLeft_eq_zero hbeyond, BitVec.or_zero]

/-! ## The pass -/

/-- A pass adds to its word the number that the bytes spell up to the last one, in its place. -/
theorem scan_eq {width groups : Nat} (hwidth : 7 ≤ width) (hgroups : width ≤ 7 * groups)
    (taken : Nat) (word : BitVec width) (bytes : Bytes) :
    scan groups taken word bytes = (bytes.findIdx? isLast).map fun i =>
      (word ||| BitVec.ofNat width (value (bytes.take (i + 1))) <<< (7 * taken),
        taken + (i + 1)) := by
  induction bytes generalizing taken word with
  | nil => rfl
  | cons b rest ih =>
    rw [scan, continues_eq, List.findIdx?_cons, addGroup_eq hgroups]
    cases isLast b with
    | true =>
      have hword : BitVec.ofNat width (value [b]) = group width b := by
        rw [ofNat_value_cons hwidth]
        simp [value]
      simp [hword]
    | false =>
      have hplace : 7 * (taken + 1) = 7 + 7 * taken := by omega
      -- the others were added one place further up, behind the group of the first
      have hword : ∀ high : BitVec width,
          word ||| group width b <<< (7 * taken) ||| high <<< (7 * (taken + 1)) =
            word ||| (group width b ||| high <<< 7) <<< (7 * taken) := by
        intro high
        rw [hplace, BitVec.shiftLeft_add, BitVec.shiftLeft_or_distrib, BitVec.or_assoc]
      simp only [Bool.not_false, if_true, ih, hword, Bool.false_eq_true, if_false,
        Option.map_map, List.take_succ_cons, ofNat_value_cons hwidth]
      congr 1
      funext i
      show (_, taken + 1 + (i + 1)) = (_, taken + (i + 1 + 1))
      rw [Nat.add_right_comm taken 1, Nat.add_assoc taken]

/-- A pass takes the bytes of the extent, and its word is the number that they spell. -/
theorem decodeBytewise_eq {width groups : Nat} (hwidth : 7 ≤ width)
    (hgroups : width ≤ 7 * groups) (src : Bytes) :
    decodeBytewise width groups src =
      (extent src).map fun n => (BitVec.ofNat width (value (src.take n)), n) := by
  have hany : src.any (fun b => !continues b) = (src.findIdx? isLast).isSome := by
    simp only [continues_eq, Bool.not_not, List.findIdx?_isSome]
  unfold decodeBytewise extent unended
  -- the pass stops at the tenth byte, where the extent goes on to say why there is no varint
  rw [scan_eq hwidth hgroups, List.findIdx?_take, hany]
  cases src.findIdx? isLast with
  | none => rfl
  | some i =>
    by_cases hmax : i < maxLength
    · have htake : (src.take maxLength).take (i + 1) = src.take (i + 1) := by
        rw [List.take_take, Nat.min_eq_left hmax]
      simp [hmax, htake, Option.guard, Except.map]
    · simp [hmax, Option.guard, Except.map]

/-- The same word comes out of a pass and of the groups put together once their end is found. -/
theorem decodeAs_eq_bytewise {α : Type} {width groups : Nat} (hwidth : 7 ≤ width)
    (hgroups : width ≤ 7 * groups) (make : BitVec width → α) (src : Bytes) :
    decodeAs groups make src =
      (decodeBytewise width groups src).map fun (word, n) => (make word, n) := by
  rw [decodeBytewise_eq hwidth hgroups, decodeAs_eq hwidth hgroups]
  cases extent src <;> rfl

theorem decode_eq_bytewise (src : Bytes) :
    decode src = (decodeBytewise 64 maxLength src).map fun (word, n) =>
      (UInt64.ofBitVec word, n) :=
  decodeAs_eq_bytewise (by decide) (by decide) UInt64.ofBitVec src

theorem decode32_eq_bytewise (src : Bytes) :
    decode32 src = (decodeBytewise 32 groups32 src).map fun (word, n) =>
      (UInt32.ofBitVec word, n) :=
  decodeAs_eq_bytewise (by decide) (by decide) UInt32.ofBitVec src

/-! ## Narrow and wide words -/

/-- A pass with a narrow word keeps the low bits of a pass with a wide one, and fails as it does. -/
theorem decodeBytewise_narrow (narrow wide groups moreGroups : Nat) (hnarrow : 7 ≤ narrow)
    (hwide : narrow ≤ wide) (hgroups : narrow ≤ 7 * groups) (hmore : wide ≤ 7 * moreGroups)
    (src : Bytes) :
    decodeBytewise narrow groups src =
      (decodeBytewise wide moreGroups src).map fun (word, n) => (word.setWidth narrow, n) := by
  rw [decodeBytewise_eq hnarrow hgroups, decodeBytewise_eq (by omega) hmore]
  cases extent src with
  | error e => rfl
  | ok n =>
    simp only [Except.map, BitVec.setWidth_ofNat_of_le hwide]

theorem decode32_eq_map_decode (src : Bytes) :
    decode32 src = (decode src).map fun (v, n) => (v.toUInt32, n) := by
  rw [decode32_eq_bytewise, decode_eq_bytewise,
    decodeBytewise_narrow 32 64 groups32 maxLength (by decide) (by decide) (by decide) (by decide)]
  cases decodeBytewise 64 maxLength src <;> rfl

/-- Both readers are passes over the bytes, each with a word of its width. The 32-bit reader takes
the varints that the 64-bit reader takes and no others, and their numbers modulo 2^32; where there
is none, both say the same. -/
theorem decode32_low_half (src : Bytes) :
    decode src = ((decodeBytewise 64 maxLength src).map fun (word, n) =>
      (UInt64.ofBitVec word, n)) ∧
    decode32 src = ((decodeBytewise 32 groups32 src).map fun (word, n) =>
      (UInt32.ofBitVec word, n)) ∧
    (∀ w n, decode32 src = .ok (w, n) ↔
      ∃ v, decode src = .ok (v, n) ∧ w.toNat = v.toNat % 2 ^ 32) ∧
    ∀ e, decode32 src = .error e ↔ decode src = .error e := by
  refine ⟨decode_eq_bytewise src, decode32_eq_bytewise src, ?_⟩
  rw [decode32_eq_map_decode]
  cases decode src with
  | error e => simp [Except.map]
  | ok result =>
    obtain ⟨v, n⟩ := result
    refine ⟨fun w m => ⟨?_, ?_⟩, fun e => ⟨nofun, nofun⟩⟩
    · intro h
      cases h
      exact ⟨v, rfl, UInt64.toNat_toUInt32 v⟩
    · rintro ⟨v', h, hw⟩
      cases h
      have hlow : v.toUInt32 = w := by
        apply UInt32.toNat_inj.1
        rw [UInt64.toNat_toUInt32, hw]
      simp only [Except.map, hlow]

/-- A negative number, written in 64 bits, comes back in 32. -/
example : decode32 (.replicate 9 0xff ++ [0x01]) = .ok ((-1 : Int32).toUInt32, 10) := rfl

/-! ## Writing -/

/-- A byte with its top bit cleared and set again is the byte with its top bit set. -/
theorem clear_or_top (b : UInt8) : b &&& 0x7f ||| 0x80 = b ||| 0x80 := by
  have htop : ∀ b : UInt8, (b ||| 0x80).toNat = b.toNat % 128 + 128 := by
    intro b
    have hlow := toNat_or_top b
    have hle : 0x80 ≤ (b ||| 0x80).toNat := UInt8.le_iff_toNat_le.1 (top_le_or b)
    have hlt := (b ||| 0x80).toNat_lt
    omega
  apply UInt8.toNat_inj.1
  rw [htop, htop, toNat_and_low, Nat.mod_mod]

/-- Nothing of a number is left behind as many bytes as `encodeWithin` allows for it, so the loop
without a bound writes what the bounded recursion writes. -/
theorem encodeOnto_within (more : Nat) : ∀ (buffer : Bytes) (v : UInt64),
    v.toNat < 128 ^ (more + 1) → encodeOnto buffer v = buffer ++ encodeWithin more v := by
  induction more with
  | zero =>
    intro buffer v hv
    have hsmall : v < 0x80 := UInt64.lt_iff_toNat_lt.2 (by simpa using hv)
    rw [encodeOnto, if_pos hsmall, encodeWithin]
  | succ more ih =>
    intro buffer v hv
    rw [encodeOnto, encodeWithin]
    by_cases hsmall : v < 0x80
    · rw [if_pos hsmall, if_pos hsmall]
    · have hrest : (v >>> 7).toNat < 128 ^ (more + 1) := (shiftRight_group_lt_iff v _).2 hv
      rw [if_neg hsmall, if_neg hsmall, ih _ _ hrest, clear_or_top, List.append_assoc]
      rfl

/-- A number is written behind what is there, which stays, and what is added is its varint. -/
theorem encodeOnto_eq (buffer : Bytes) (v : UInt64) : encodeOnto buffer v = buffer ++ encode v :=
  encodeOnto_within (maxLength - 1) buffer v (lt_of_ten_groups v)

end WireFormat.Varint
