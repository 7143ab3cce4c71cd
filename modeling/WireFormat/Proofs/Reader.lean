import WireFormat.Grammar
import WireFormat.Proofs.Varint
import WireFormat.Reader

/-!
# What readers take

A reader takes a value off the front of some bytes exactly if those bytes begin with one. Each
equivalence here says so for one reader, without running it.
-/

namespace WireFormat.Reader

theorem map_eq_ok_iff {α β : Type} {f : α → β} {reader : Reader α} {src : Bytes} {b : β}
    {n : Nat} : reader.map f src = .ok (b, n) ↔ ∃ a, reader src = .ok (a, n) ∧ f a = b := by
  unfold map
  cases reader src with
  | error e => simp
  | ok r =>
    obtain ⟨a, m⟩ := r
    simp only [Except.ok.injEq, Prod.mk.injEq]
    constructor
    · rintro ⟨rfl, rfl⟩
      exact ⟨a, ⟨rfl, rfl⟩, rfl⟩
    · rintro ⟨_, ⟨rfl, rfl⟩, rfl⟩
      exact ⟨rfl, rfl⟩

theorem map_ok {α β : Type} (f : α → β) {reader : Reader α} {src : Bytes} {a : α} {n : Nat}
    (h : reader src = .ok (a, n)) : reader.map f src = .ok (f a, n) :=
  map_eq_ok_iff.2 ⟨a, h, rfl⟩

theorem map_map {α β γ : Type} (reader : Reader α) (f : α → β) (g : β → γ) :
    (reader.map f).map g = reader.map fun a => g (f a) := by
  funext src
  unfold map
  cases reader src <;> rfl

theorem varint_eq_ok {α : Type} {width groups : Nat} {make : BitVec width → α} {src : Bytes}
    {r : α × Nat} : varint groups make src = .ok r ↔ Varint.decodeAs groups make src = .ok r := by
  unfold varint
  cases Varint.decodeAs groups make src <;> simp

/-- A varint is taken with all its bytes, as the number that it spells, cut to the word. -/
theorem varint_eq_ok_iff {α : Type} {width groups : Nat} (hwidth : 7 ≤ width)
    (hgroups : width ≤ 7 * groups) {make : BitVec width → α} {src : Bytes} {a : α} {n : Nat} :
    varint groups make src = .ok (a, n) ↔ n ≤ src.length ∧ Varint.IsVarint (src.take n) ∧
      a = make (BitVec.ofNat width (Varint.value (src.take n))) := by
  rw [varint_eq_ok, Varint.decodeAs_eq_ok_iff hwidth hgroups]

theorem uint32_eq_ok_iff {src : Bytes} {v : UInt32} {n : Nat} :
    uint32 src = .ok (v, n) ↔ n ≤ src.length ∧ Varint.IsVarint (src.take n) ∧
      v.toNat = Varint.value (src.take n) % 2 ^ 32 :=
  varint_eq_ok.trans Varint.decode32_eq_ok_iff

theorem uint64_eq_ok_iff {src : Bytes} {v : UInt64} {n : Nat} :
    uint64 src = .ok (v, n) ↔ n ≤ src.length ∧ Varint.IsVarint (src.take n) ∧
      v.toNat = Varint.value (src.take n) % 2 ^ 64 :=
  varint_eq_ok.trans Varint.decode_eq_ok_iff

theorem tag_eq_ok_iff {src : Bytes} {t : Tag} {n : Nat} :
    tag src = .ok (t, n) ↔ n ≤ src.length ∧ Grammar.IsTag t (src.take n) := by
  rw [tag, map_eq_ok_iff, Grammar.IsTag, ← uint32_eq_ok_iff]
  constructor
  · rintro ⟨raw, h, rfl⟩
    exact h
  · intro h
    exact ⟨t.raw, h, rfl⟩

/-- A varint is taken off the front of any bytes. -/
theorem varint_append {α : Type} {width groups : Nat} (hwidth : 7 ≤ width)
    (hgroups : width ≤ 7 * groups) (make : BitVec width → α) {bytes : Bytes}
    (h : Varint.IsVarint bytes) (rest : Bytes) : varint groups make (bytes ++ rest) =
      .ok (make (BitVec.ofNat width (Varint.value bytes)), bytes.length) := by
  rw [varint_eq_ok_iff hwidth hgroups, List.take_left]
  exact ⟨by simp, h, rfl⟩

theorem uint32_append {bytes : Bytes} (h : Varint.IsVarint bytes) (rest : Bytes) :
    uint32 (bytes ++ rest) = .ok (UInt32.ofNat (Varint.value bytes), bytes.length) :=
  varint_append (by decide) (by decide) UInt32.ofBitVec h rest

theorem uint64_append {bytes : Bytes} (h : Varint.IsVarint bytes) (rest : Bytes) :
    uint64 (bytes ++ rest) = .ok (UInt64.ofNat (Varint.value bytes), bytes.length) :=
  varint_append (by decide) (by decide) UInt64.ofBitVec h rest

/-- A number that 32 bits hold is read back as it was written. -/
theorem uint32_encode_append {n : Nat} (h : n < 2 ^ 32) (rest : Bytes) :
    uint32 (Varint.encode (UInt64.ofNat n) ++ rest) =
      .ok (UInt32.ofNat n, (Varint.encode (UInt64.ofNat n)).length) := by
  have hn : (UInt64.ofNat n).toNat = n := by
    rw [UInt64.toNat_ofNat']
    omega
  rw [uint32_append (Varint.isVarint_encode _), Varint.value_encode, hn]

theorem tag_append {t : Tag} {bytes : Bytes} (h : Grammar.IsTag t bytes) (rest : Bytes) :
    tag (bytes ++ rest) = .ok (t, bytes.length) := by
  rw [tag_eq_ok_iff, List.take_left]
  exact ⟨by simp, h⟩

theorem exactly_eq_ok_iff {src bytes : Bytes} {count n : Nat} :
    exactly count src = .ok (bytes, n) ↔ n = count ∧ n ≤ src.length ∧ bytes = src.take n := by
  unfold exactly
  split
  · rename_i h
    simp only [Except.ok.injEq, Prod.mk.injEq]
    constructor
    · rintro ⟨rfl, rfl⟩
      exact ⟨rfl, h, rfl⟩
    · rintro ⟨rfl, -, rfl⟩
      exact ⟨rfl, rfl⟩
  · rename_i h
    simp only [reduceCtorEq, false_iff]
    rintro ⟨rfl, hn, -⟩
    exact h hn

theorem skip_eq_ok_iff {src : Bytes} {count n : Nat} {u : Unit} :
    skip count src = .ok (u, n) ↔ n = count ∧ n ≤ src.length := by
  rw [skip, map_eq_ok_iff]
  constructor
  · rintro ⟨bytes, h, -⟩
    obtain ⟨hn, hlen, -⟩ := exactly_eq_ok_iff.1 h
    exact ⟨hn, hlen⟩
  · rintro ⟨hn, hlen⟩
    exact ⟨_, exactly_eq_ok_iff.2 ⟨hn, hlen, rfl⟩, rfl⟩

/-- A length-delimited value is a varint and as many bytes as its low 32 bits say. -/
theorem lengthDelimited_eq_ok_iff {src body : Bytes} {n : Nat} :
    lengthDelimited src = .ok (body, n) ↔
      ∃ k length, uint32 src = .ok (length, k) ∧ n = k + length.toNat ∧ n ≤ src.length ∧
        body = (src.drop k).take length.toNat := by
  unfold lengthDelimited
  cases hlen : uint32 src with
  | error e => simp
  | ok r =>
    obtain ⟨length, k⟩ := r
    have hk := (varint_bounds hlen).2
    simp only [Except.ok.injEq, Prod.mk.injEq]
    cases hbody : exactly length.toNat (src.drop k) with
    | error e =>
      simp only [reduceCtorEq, false_iff]
      rintro ⟨_, _, ⟨rfl, rfl⟩, rfl, hn, -⟩
      have hfit : length.toNat ≤ (src.drop k).length := by
        rw [List.length_drop]
        omega
      rw [exactly, if_pos hfit] at hbody
      cases hbody
    | ok r =>
      obtain ⟨bytes, m⟩ := r
      obtain ⟨rfl, hm, rfl⟩ := exactly_eq_ok_iff.1 hbody
      rw [List.length_drop] at hm
      simp only [Except.ok.injEq, Prod.mk.injEq]
      constructor
      · rintro ⟨rfl, rfl⟩
        exact ⟨k, length, ⟨rfl, rfl⟩, rfl, by omega, rfl⟩
      · rintro ⟨_, _, ⟨rfl, rfl⟩, rfl, -, rfl⟩
        exact ⟨rfl, rfl⟩

/-- What was taken is a varint and the body that it announces. -/
theorem take_of_lengthDelimited {src body : Bytes} {n : Nat}
    (h : lengthDelimited src = .ok (body, n)) :
    ∃ length, src.take n = length ++ body ∧ Varint.IsVarint length ∧
      body.length = Varint.value length % 2 ^ 32 := by
  obtain ⟨k, length, hlength, rfl, hn, rfl⟩ := lengthDelimited_eq_ok_iff.1 h
  obtain ⟨hk, hvarint, hvalue⟩ := uint32_eq_ok_iff.1 hlength
  refine ⟨src.take k, List.take_add, hvarint, ?_⟩
  rw [← hvalue, List.length_take_of_le]
  rw [List.length_drop]
  omega

theorem exactly_append (bytes rest : Bytes) :
    exactly bytes.length (bytes ++ rest) = .ok (bytes, bytes.length) := by
  rw [exactly_eq_ok_iff, List.take_left]
  exact ⟨rfl, by simp, rfl⟩

theorem lengthDelimited_append {length body : Bytes} (h : Varint.IsVarint length)
    (hbody : body.length = Varint.value length % 2 ^ 32) (rest : Bytes) :
    lengthDelimited (length ++ body ++ rest) = .ok (body, (length ++ body).length) := by
  rw [lengthDelimited_eq_ok_iff]
  have hlen : (UInt32.ofNat (Varint.value length)).toNat = body.length := by
    rw [UInt32.toNat_ofNat', hbody]
  refine ⟨length.length, UInt32.ofNat (Varint.value length), ?_, ?_, by simp, ?_⟩
  · rw [List.append_assoc]
    exact uint32_append h (body ++ rest)
  · rw [hlen, List.length_append]
  · rw [hlen, List.append_assoc, List.drop_left, List.take_left]

theorem text_eq_ok_iff {src : Bytes} {s : String} {n : Nat} :
    text src = .ok (s, n) ↔
      ∃ bytes, lengthDelimited src = .ok (bytes, n) ∧ Utf8.decode bytes = .ok s := by
  unfold text
  cases lengthDelimited src with
  | error e => simp
  | ok r =>
    obtain ⟨bytes, m⟩ := r
    simp only [Except.ok.injEq, Prod.mk.injEq]
    constructor
    · intro h
      cases hbytes : Utf8.decode bytes with
      | error valid =>
        rw [hbytes] at h
        cases h
      | ok t =>
        rw [hbytes] at h
        cases h
        exact ⟨bytes, ⟨rfl, rfl⟩, hbytes⟩
    · intro ⟨bytes', ⟨hb, hm⟩, h⟩
      rw [hb, h, hm]

/-! ## Readers stay within the bytes -/

/-- A reader takes no more than there is, and what it misses it misses at the end. -/
structure Orderly {α : Type} (reader : Reader α) : Prop where
  le_length : ∀ {src a n}, reader src = .ok (a, n) → n ≤ src.length
  truncated : ∀ {src offset needed limit},
    reader src = .error (.truncated offset needed limit) → limit = src.length

theorem Orderly.map {α β : Type} {reader : Reader α} (h : reader.Orderly) (f : α → β) :
    (reader.map f).Orderly := by
  constructor
  · intro src b n hb
    obtain ⟨a, ha, -⟩ := map_eq_ok_iff.1 hb
    exact h.le_length ha
  · intro src offset needed limit he
    unfold Reader.map at he
    cases hr : reader src with
    | ok r =>
      rw [hr] at he
      cases he
    | error e =>
      rw [hr] at he
      cases he
      exact h.truncated hr

theorem truncated_of_varintError {src : Bytes} {e : Varint.Error} {offset needed limit : Nat}
    (h : varintError src e = .truncated offset needed limit) : limit = src.length := by
  cases e <;> cases h
  rfl

theorem orderly_varint {α : Type} {width : Nat} (groups : Nat) (make : BitVec width → α) :
    (varint groups make).Orderly := by
  constructor
  · intro src a n h
    exact (varint_bounds h).2
  · intro src offset needed limit h
    unfold varint at h
    split at h
    · cases h
    · exact truncated_of_varintError (Except.error.inj h)

theorem orderly_uint32 : uint32.Orderly := orderly_varint _ _

theorem orderly_uint64 : uint64.Orderly := orderly_varint _ _

theorem orderly_tag : tag.Orderly := orderly_uint32.map _

theorem orderly_exactly (count : Nat) : (exactly count).Orderly := by
  constructor
  · intro src bytes n h
    exact (exactly_eq_ok_iff.1 h).2.1
  · intro src offset needed limit h
    unfold exactly at h
    split at h
    · cases h
    · cases h
      rfl

theorem orderly_skip (count : Nat) : (skip count).Orderly := (orderly_exactly count).map _

theorem orderly_lengthDelimited : lengthDelimited.Orderly := by
  constructor
  · intro src body n h
    obtain ⟨-, -, -, -, hn, -⟩ := lengthDelimited_eq_ok_iff.1 h
    exact hn
  · intro src offset needed limit h
    unfold lengthDelimited at h
    split at h
    · rename_i e he
      cases h
      exact orderly_uint32.truncated he
    · rename_i length k hk
      have hle := orderly_uint32.le_length hk
      unfold exactly at h
      split at h
      · rename_i e he
        split at he
        · cases he
        · cases he
          cases h
          rw [List.length_drop]
          omega
      · cases h

theorem orderly_text : text.Orderly := by
  constructor
  · intro src s n h
    obtain ⟨bytes, hbytes, -⟩ := text_eq_ok_iff.1 h
    exact orderly_lengthDelimited.le_length hbytes
  · intro src offset needed limit h
    unfold text at h
    split at h
    · rename_i e he
      cases h
      exact orderly_lengthDelimited.truncated he
    · split at h <;> cases h

end WireFormat.Reader
