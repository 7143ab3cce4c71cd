import WireFormat.Bytes

/-!
# UTF-8 text in byte strings

A byte string is cut from the left into pieces: a character where the bytes encode one, and
otherwise an ill-formed run. How far an ill-formed run goes is up to the reading (`cut`); by
Unicode's own measure (`pieces`) it is as many bytes as could begin a character, and at least one.

`decode` accepts characters only and otherwise counts the bytes in front of the first ill-formed
run, `lossy` puts the replacement character for each ill-formed run, and escaped text
(`WireFormat.Text.Escaped`) spells the bytes of ill-formed runs out.

`decode` accepts exactly what `encode` writes (`decode_eq_ok_iff`).
-/

namespace WireFormat.Utf8

/-! ## One character -/

/-- The character that the front of a byte string encodes. -/
def front? (bytes : Bytes) : Option Char :=
  (bytes.take 4).toByteArray.utf8DecodeChar? 0

theorem front?_utf8EncodeChar_append (c : Char) (rest : Bytes) :
    front? (String.utf8EncodeChar c ++ rest) = some c := by
  have hlen : (String.utf8EncodeChar c).length ≤ 4 := by
    rw [String.length_utf8EncodeChar]
    exact c.utf8Size_le_four
  rw [front?, List.take_append, List.take_of_length_le hlen, List.toByteArray_append]
  exact ByteArray.utf8DecodeChar?_utf8EncodeChar_append

theorem eq_of_front?_eq_some {bytes : Bytes} {c : Char} (h : front? bytes = some c) :
    bytes = String.utf8EncodeChar c ++ bytes.drop c.utf8Size := by
  have hfront := ByteArray.eq_of_utf8DecodeChar?_eq_some h
  have hlist := congrArg (fun b : ByteArray => b.data.toList) hfront
  simp only [List.data_toByteArray, ByteArray.data_append, Array.toList_append] at hlist
  have hpre : String.utf8EncodeChar c <+: bytes :=
    List.IsPrefix.trans ⟨_, hlist.symm⟩ (List.take_prefix 4 bytes)
  obtain ⟨rest, hrest⟩ := hpre
  rw [← hrest, ← String.length_utf8EncodeChar, List.drop_left]

/-- What may follow the first byte of a character of several bytes: the least and the greatest
second byte, and how many more bytes come after the second. -/
def continuation? (first : UInt8) : Option (UInt8 × UInt8 × Nat) :=
  if 0xc2 ≤ first && first ≤ 0xdf then some (0x80, 0xbf, 0)
  else if first == 0xe0 then some (0xa0, 0xbf, 1)
  else if first == 0xed then some (0x80, 0x9f, 1)
  else if 0xe1 ≤ first && first ≤ 0xef then some (0x80, 0xbf, 1)
  else if first == 0xf0 then some (0x90, 0xbf, 2)
  else if 0xf1 ≤ first && first ≤ 0xf3 then some (0x80, 0xbf, 2)
  else if first == 0xf4 then some (0x80, 0x8f, 2)
  else none

/-- How many bytes after a first byte could belong to a character that starts with it. -/
def stubLength (first : UInt8) (rest : Bytes) : Nat :=
  match continuation? first, rest with
  | some (least, greatest, more), second :: tail =>
    if least ≤ second && second ≤ greatest then
      1 + ((tail.take more).takeWhile fun b => 0x80 ≤ b && b ≤ 0xbf).length
    else 0
  | _, _ => 0

/-! ## Pieces -/

/-- A part of a byte string. -/
inductive Piece where
  /-- Bytes that encode a character. -/
  | character (c : Char)
  /-- Bytes that could begin a character, or a single byte that could not, without one. -/
  | illFormed (bytes : Bytes)
  deriving DecidableEq, Repr

/-- Cuts a byte string into characters and ill-formed runs, where `extra` says how many bytes after
its first one belong to an ill-formed run. -/
def cut (extra : UInt8 → Bytes → Nat) : Bytes → List Piece
  | [] => []
  | first :: rest =>
    match front? (first :: rest) with
    | some c => .character c :: cut extra (rest.drop (c.utf8Size - 1))
    | none =>
      .illFormed (first :: rest.take (extra first rest)) :: cut extra (rest.drop (extra first rest))
termination_by bytes => bytes.length
decreasing_by all_goals simp only [List.length_drop, List.length_cons]; omega

/-- Cuts a byte string into characters and the longest runs that could begin a character. -/
def pieces (bytes : Bytes) : List Piece := cut stubLength bytes

/-- The characters of a list of pieces, or how many bytes lie before the first ill-formed run. -/
def characters : List Piece → Except Nat (List Char)
  | [] => .ok []
  | .illFormed _ :: _ => .error 0
  | .character c :: rest =>
    match characters rest with
    | .ok cs => .ok (c :: cs)
    | .error n => .error (c.utf8Size + n)

/-! ## Readings -/

/-- The bytes of a text. -/
def encode (text : String) : Bytes := text.toList.flatMap String.utf8EncodeChar

/-- The text that some bytes encode, or how many bytes lie before the first ill-formed run. -/
def decode (bytes : Bytes) : Except Nat String :=
  match characters (pieces bytes) with
  | .ok cs => .ok (String.ofList cs)
  | .error n => .error n

/-- The text of some bytes, with the replacement character for each ill-formed run. -/
def lossy (bytes : Bytes) : String :=
  String.ofList ((pieces bytes).map fun
    | .character c => c
    | .illFormed _ => '\uFFFD')

/-! ## Decoding accepts what encoding writes -/

variable {extra : UInt8 → Bytes → Nat}

theorem cut_utf8EncodeChar_append (c : Char) (rest : Bytes) :
    cut extra (String.utf8EncodeChar c ++ rest) = .character c :: cut extra rest := by
  have hlen := String.length_utf8EncodeChar c
  have hpos := c.utf8Size_pos
  have hfront := front?_utf8EncodeChar_append c rest
  generalize String.utf8EncodeChar c = e at hlen hfront ⊢
  match e with
  | [] => simp only [List.length_nil] at hlen; omega
  | b :: e' =>
    rw [List.length_cons] at hlen
    rw [List.cons_append, cut, ← List.cons_append, hfront]
    simp only [← hlen, Nat.add_sub_cancel, List.drop_left]

theorem cut_flatMap_utf8EncodeChar (cs : List Char) :
    cut extra (cs.flatMap String.utf8EncodeChar) = cs.map .character := by
  induction cs with
  | nil => simp [cut]
  | cons c cs ih => rw [List.flatMap_cons, cut_utf8EncodeChar_append, ih, List.map_cons]

theorem characters_map_character (cs : List Char) : characters (cs.map .character) = .ok cs := by
  induction cs with
  | nil => rfl
  | cons c cs ih => simp [characters, ih]

theorem eq_flatMap_of_characters {bytes : Bytes} {cs : List Char}
    (h : characters (cut extra bytes) = .ok cs) : bytes = cs.flatMap String.utf8EncodeChar := by
  fun_induction cut extra bytes generalizing cs with
  | case1 => cases h; rfl
  | case2 first rest c hc ih =>
    rw [characters] at h
    split at h
    · rename_i tail htail
      cases h
      have hcut := eq_of_front?_eq_some hc
      have hdrop : (first :: rest).drop c.utf8Size = rest.drop (c.utf8Size - 1) := by
        have hpos := c.utf8Size_pos
        obtain ⟨k, hk⟩ : ∃ k, c.utf8Size = k + 1 := ⟨c.utf8Size - 1, by omega⟩
        simp [hk]
      rw [hcut, hdrop, List.flatMap_cons, ← ih htail]
    · cases h
  | case3 first rest hnone ih => cases h

/-- Decoding accepts exactly what encoding writes. -/
theorem decode_eq_ok_iff {bytes : Bytes} {text : String} :
    decode bytes = .ok text ↔ bytes = encode text := by
  constructor
  · intro h
    unfold decode at h
    split at h
    · rename_i cs hcs
      cases h
      rw [encode, String.toList_ofList]
      exact eq_flatMap_of_characters hcs
    · cases h
  · rintro rfl
    simp [decode, encode, pieces, cut_flatMap_utf8EncodeChar, characters_map_character]

/-- The count of a refusal stops short of the end of the bytes. -/
theorem lt_length_of_decode_eq_error {bytes : Bytes} {n : Nat} (h : decode bytes = .error n) :
    n < bytes.length := by
  have hn : characters (cut stubLength bytes) = .error n := by
    unfold decode at h
    split at h
    · cases h
    · rename_i m hm
      cases h
      exact hm
  clear h
  fun_induction cut stubLength bytes generalizing n with
  | case1 => cases hn
  | case2 first rest c hc ih =>
    rw [characters] at hn
    split at hn
    · cases hn
    · rename_i m hm
      cases hn
      have := ih hm
      have hpos := c.utf8Size_pos
      simp only [List.length_drop, List.length_cons] at this ⊢
      omega
  | case3 first rest hnone ih =>
    cases hn
    simp

end WireFormat.Utf8
