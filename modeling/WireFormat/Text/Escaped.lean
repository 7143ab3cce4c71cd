import WireFormat.Utf8

/-!
# Escaped text

Bytes as a text that stays readable where they are UTF-8: characters stand for themselves, except
that a backslash, the tabulator and the two line ends have short escapes and the other ASCII control
characters are spelled as a byte, with `\x` and two capital hexadecimal digits.

Bytes that are no character are spelled out in the same way. A first byte that promises a character
and is let down takes the byte that does so along, so that a character cannot start there; if that
byte is ASCII, it is still written as a character.
-/

namespace WireFormat.Text.Escaped

/-- The hexadecimal digit for a number below 16. -/
def hexDigit (n : Nat) : Char :=
  if n < 10 then Char.ofNat ('0'.toNat + n) else Char.ofNat ('A'.toNat + (n - 10))

/-- A byte spelled out. -/
def spelled (b : UInt8) : List Char :=
  ['\\', 'x', hexDigit (b.toNat / 16), hexDigit (b.toNat % 16)]

/-- A character, escaped if need be. -/
def character (c : Char) : List Char :=
  if c = '\\' then ['\\', '\\']
  else if c = '\t' then ['\\', 't']
  else if c = '\n' then ['\\', 'n']
  else if c = '\r' then ['\\', 'r']
  else if c.toNat < 0x20 ∨ c.toNat = 0x7f then spelled (UInt8.ofNat c.toNat)
  else [c]

/-- A byte outside of a character of several bytes: a character if it is ASCII, and spelled out if
not. -/
def byte (b : UInt8) : List Char := if b < 0x80 then character (Char.ofNat b.toNat) else spelled b

/-- How many bytes after a first byte belong to the same ill-formed run: those that continue the
character, and the one that does not. -/
def brokenLength (first : UInt8) (rest : Bytes) : Nat :=
  match Utf8.continuation? first with
  | some _ => Utf8.stubLength first rest + 1
  | none => 0

/-- A piece of a byte string, escaped. -/
def piece : Utf8.Piece → List Char
  | .character c => character c
  | .illFormed bytes => bytes.flatMap byte

/-- Bytes as escaped text. -/
def encode (bytes : Bytes) : String :=
  String.ofList ((Utf8.cut brokenLength bytes).flatMap piece)

end WireFormat.Text.Escaped
