/-!
# Bytes as text in the standard base 64 alphabet

Three bytes make four letters; the last group is filled up with `=`. Reading accepts
exactly what writing produces: the padding must be there, and the bits that a short
last group leaves over must be zero.
-/
namespace Wiring.Base64

def alphabet : List Char :=
  "ABCDEFGHIJKLMNOPQRSTUVWXYZabcdefghijklmnopqrstuvwxyz0123456789+/".toList

/-- The letter of a number below sixty-four. -/
def letter (n : Nat) : Char := alphabet.getD n 'A'

def value? (c : Char) : Option Nat := alphabet.findIdx? (· == c)

def encodeChars : List UInt8 → List Char
  | a :: b :: c :: rest =>
      let n := a.toNat * 65536 + b.toNat * 256 + c.toNat
      letter (n / 262144) :: letter (n / 4096 % 64) :: letter (n / 64 % 64) :: letter (n % 64) ::
        encodeChars rest
  | [a, b] =>
      let n := a.toNat * 256 + b.toNat
      [letter (n / 1024), letter (n / 16 % 64), letter (n * 4 % 64), '=']
  | [a] => [letter (a.toNat / 4), letter (a.toNat * 16 % 64), '=', '=']
  | [] => []

def encode (bytes : List UInt8) : String := String.ofList (encodeChars bytes)

/-- The bytes of four letters, none of them padding. -/
def group? (a b c d : Char) : Option (List UInt8) := do
  let n := ((← value? a) * 64 + (← value? b)) * 4096 + (← value? c) * 64 + (← value? d)
  return [UInt8.ofNat (n / 65536), UInt8.ofNat (n / 256 % 256), UInt8.ofNat (n % 256)]

/-- The bytes of the last four letters, which may end in padding. -/
def lastGroup? (a b c d : Char) : Option (List UInt8) := do
  if c = '=' ∧ d = '=' then
    let n := (← value? a) * 64 + (← value? b)
    if n % 16 = 0 then some [UInt8.ofNat (n / 16)] else none
  else if d = '=' then
    let n := ((← value? a) * 64 + (← value? b)) * 64 + (← value? c)
    if n % 4 = 0 then some [UInt8.ofNat (n / 1024), UInt8.ofNat (n / 4 % 256)] else none
  else group? a b c d

def decodeChars? : List Char → Option (List UInt8)
  | [] => some []
  | [a, b, c, d] => lastGroup? a b c d
  | a :: b :: c :: d :: rest => do return (← group? a b c d) ++ (← decodeChars? rest)
  | _ => none

def decode? (text : String) : Option (List UInt8) := decodeChars? text.toList

end Wiring.Base64
