import WireFormat.Bytes

/-!
# Base64

Three bytes are four digits of six bits each, most significant first, in the standard alphabet. One
or two bytes left over at the end are two or three digits, and `=` fills them up to four.
-/

namespace WireFormat.Text.Base64

/-- The digit for a number below 64. -/
def digit (n : Nat) : Char :=
  if n < 26 then Char.ofNat ('A'.toNat + n)
  else if n < 52 then Char.ofNat ('a'.toNat + (n - 26))
  else if n < 62 then Char.ofNat ('0'.toNat + (n - 52))
  else if n = 62 then '+'
  else '/'

/-- The digits of some bytes. -/
def digits : Bytes → List Char
  | [] => []
  | [a] =>
    let n := a.toNat * 16
    [digit (n / 64), digit (n % 64), '=', '=']
  | [a, b] =>
    let n := (a.toNat * 256 + b.toNat) * 4
    [digit (n / 4096), digit (n / 64 % 64), digit (n % 64), '=']
  | a :: b :: c :: rest =>
    let n := (a.toNat * 256 + b.toNat) * 256 + c.toNat
    digit (n / 262144) :: digit (n / 4096 % 64) :: digit (n / 64 % 64) :: digit (n % 64) ::
      digits rest

/-- Bytes in base64. -/
def encode (bytes : Bytes) : String := String.ofList (digits bytes)

end WireFormat.Text.Base64
