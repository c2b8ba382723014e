import Wiring.Number.Word

/-!
# Binary floating point of 64 bits

A number is its bit pattern. Nothing here uses the machine's own floating point: a
finite magnitude is the natural number `scaled`, counted in units of the smallest
positive number `2 ^ (-1074)`, and `nearest` rounds an exact ratio of such counts,
ties to the even neighbour. The patterns of the magnitudes are ordered as the
magnitudes are, and the pattern of infinity follows the largest finite one, so
rounding past the largest number gives infinity by itself. Of the patterns that stand
for no number only one is kept, so there is one undefined value.
-/
namespace Wiring

/-- The pattern of positive infinity. -/
def Binary64.infinityBits : Nat := 2047 * power 2 52

/-- The one undefined pattern. -/
def Binary64.nanBits : UInt64 := 0x7ff8000000000000

/-- A bit pattern: one sign bit, eleven bits of exponent, fifty-two of fraction. -/
structure Binary64 where
  bits : UInt64
  oneNaN : Binary64.infinityBits < bits.toNat % negativeCount → bits = Binary64.nanBits
  deriving DecidableEq, Repr

namespace Binary64

/-- How many of the smallest positive number make one. -/
def smallestCount : Nat := power 2 1074

def nan : Binary64 := ⟨nanBits, fun _ => rfl⟩

/-- The number of a pattern; all undefined patterns give the same. -/
def ofBits (bits : UInt64) : Binary64 :=
  if h : infinityBits < bits.toNat % negativeCount then nan else ⟨bits, fun g => absurd g h⟩

instance : Inhabited Binary64 := ⟨ofBits 0⟩

/-- The pattern without its sign. -/
def magnitude (x : Binary64) : Nat := x.bits.toNat % negativeCount

def negative (x : Binary64) : Bool := negativeCount ≤ x.bits.toNat

def isNaN (x : Binary64) : Bool := infinityBits < x.magnitude

def isInfinite (x : Binary64) : Bool := x.magnitude == infinityBits

def isFinite (x : Binary64) : Bool := x.magnitude < infinityBits

def isZero (x : Binary64) : Bool := x.magnitude == 0

/-- The sign put in front of the pattern of a magnitude. -/
def ofMagnitude (negative : Bool) (magnitude : Nat) : Binary64 :=
  ofBits (UInt64.ofNat (magnitude + if negative then negativeCount else 0))

def infinity (negative : Bool) : Binary64 := ofMagnitude negative infinityBits

/-- The magnitude of a finite pattern in units of `2 ^ (-1074)`. -/
def scaledOf (magnitude : Nat) : Nat :=
  let exponent := magnitude / power 2 52
  let fraction := magnitude % power 2 52
  if exponent = 0 then fraction else (power 2 52 + fraction) * power 2 (exponent - 1)

/-- The magnitude of a finite number in units of `2 ^ (-1074)`. -/
def scaled (x : Binary64) : Nat := scaledOf x.magnitude

/-- A quotient rounded to the nearest integer, a half to the even neighbour. -/
def divideEven (a d : Nat) : Nat :=
  let q := a / d
  let r := a % d
  if d < 2 * r ∨ (d = 2 * r ∧ q % 2 = 1) then q + 1 else q

/-- The pattern of the magnitude nearest to `a / d` units of `2 ^ (-1074)`. Fifty-three
bits are kept; a carry out of them runs into the exponent, as it should. -/
def nearest (a d : Nat) : Nat :=
  let shift := Nat.log2 (a / d) - 52
  min infinityBits (shift * power 2 52 + divideEven a (d * power 2 shift))

/-- Equality of a number with itself is kept for the undefined ones: all of them are
one value here, and so are the two zeros. -/
def same (x y : Binary64) : Bool :=
  (x.isNaN && y.isNaN) || (!x.isNaN && (x.bits == y.bits || (x.isZero && y.isZero)))

/-- Numerical equality: an undefined number equals nothing. -/
def equal (x y : Binary64) : Bool := !x.isNaN && x.same y

/-- The product of two finite magnitudes, rounded once. -/
def times (x y : Binary64) : Binary64 :=
  ofMagnitude (x.negative != y.negative) (nearest (x.scaled * y.scaled) smallestCount)

/-- The quotient of two finite numbers, the second not zero, rounded once. -/
def dividedBy (x y : Binary64) : Binary64 :=
  ofMagnitude (x.negative != y.negative) (nearest (x.scaled * smallestCount) y.scaled)

/-- The number nearest to an integer. -/
def ofInt (i : Int) : Binary64 :=
  ofMagnitude (decide (i < 0)) (nearest (i.natAbs * smallestCount) 1)

end Binary64
end Wiring
