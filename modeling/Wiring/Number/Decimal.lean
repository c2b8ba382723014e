import Wiring.Number.Binary64

/-!
# Decimal texts of binary numbers

Writing: of the decimals that round to a number, `shortest` takes one with the fewest
digits and among those the nearest; how it is laid out is a `FloatStyle`. It is found
by trying the two neighbours of the number on the grids of one to seventeen digits,
and every neighbour tried is read again, so the digits chosen read back by
construction. A number none of them fits is written with all its digits.

Reading: `Decimal.toBinary64` rounds once and is exact; `Decimal.approximate` rounds
the coefficient, then scales it by a rounded power of ten, and so may miss the nearest
number by a little.
-/
namespace Wiring

/-- The number `coefficient * 10 ^ exponent`. -/
structure Decimal where
  coefficient : Nat
  exponent : Int
  deriving DecidableEq, Repr

open Binary64 (smallestCount)

namespace Decimal

/-- The digits of a natural number, the first one first. -/
def digits (n : Nat) : List Char := Nat.toDigits 10 n

/-- The pattern of the magnitude nearest to a decimal. A large exponent is not worked
out: above `10 ^ 310` everything is infinite, and far below the smallest number
everything is zero. -/
def nearest (d : Decimal) : Nat :=
  if d.coefficient = 0 then 0
  else if 310 < d.exponent then Binary64.infinityBits
  else if d.exponent < -(Nat.log2 d.coefficient + 400 : Int) then 0
  else if 0 ≤ d.exponent then
    Binary64.nearest (d.coefficient * power 10 d.exponent.toNat * smallestCount) 1
  else
    Binary64.nearest (d.coefficient * smallestCount) (power 10 (-d.exponent).toNat)

def toBinary64 (negative : Bool) (d : Decimal) : Binary64 :=
  .ofMagnitude negative d.nearest

/-- The coefficient without the zeros at its end. -/
def stripped : Nat → Decimal → Decimal
  | 0, d => d
  | fuel + 1, d =>
      if d.coefficient ≠ 0 ∧ d.coefficient % 10 = 0 then
        stripped fuel ⟨d.coefficient / 10, d.exponent + 1⟩
      else d

/-- The least `k` at or above a start with `a * 10 ^ k` not below the unit. -/
def leadingZeros (a unit : Nat) : Nat → Nat → Nat
  | 0, k => k
  | fuel + 1, k => if unit ≤ a * power 10 k then k else leadingZeros a unit fuel (k + 1)

/-- The number of digits before the point, zero or less for numbers below a tenth:
`10 ^ (k - 1) ≤ a / smallestCount < 10 ^ k`. -/
def position (a : Nat) : Int :=
  if smallestCount ≤ a then (digits (a / smallestCount)).length
  else 1 - (leadingZeros a smallestCount 330 0 : Int)

/-- What becomes of a number half way between its two neighbours on a grid. -/
inductive Tie where
  | up
  | even
  deriving DecidableEq, Repr

/-- The better of the two neighbours of `scaled a` on the grid of `10 ^ grid`, among
those that read back as the pattern. -/
def onGrid (tie : Tie) (pattern a : Nat) (grid : Int) : Option Decimal :=
  let num := if 0 ≤ grid then a else a * power 10 (-grid).toNat
  let den := if 0 ≤ grid then smallestCount * power 10 grid.toNat else smallestCount
  let lower : Decimal := ⟨num / den, grid⟩
  let upper : Decimal := ⟨num / den + 1, grid⟩
  match decide (lower.nearest = pattern), decide (upper.nearest = pattern) with
  | false, false => none
  | true, false => some lower
  | false, true => some upper
  | true, true =>
      let twice := 2 * (num % den)
      if twice < den then some lower
      else if den < twice then some upper
      else
        match tie with
        | .up => some upper
        | .even => some (if lower.coefficient % 2 = 0 then lower else upper)

/-- All digits of `a / smallestCount`, which is `a * 5 ^ 1074 / 10 ^ 1074`. -/
def exact (a : Nat) : Decimal := ⟨a * power 5 1074, -1074⟩

/-- The decimal with the fewest digits that reads back as a finite pattern. -/
def shortest (tie : Tie) (pattern : Nat) : Decimal :=
  let a := Binary64.scaledOf pattern
  let top := position a
  let found := (List.range 17).findSome? fun n => onGrid tie pattern a (top - (n + 1 : Nat))
  stripped 1100 (found.getD (exact a))

end Decimal

/-- How a finite number is laid out: numbers whose point falls before digit `low` or
after digit `high` are written with an exponent. -/
structure FloatStyle where
  tie : Decimal.Tie
  low : Int
  high : Int
  plus : Bool
  deriving DecidableEq, Repr

namespace FloatStyle

/-- The first digit, a point and the rest if there is one, then the exponent. -/
def scientific (style : FloatStyle) (digits : List Char) (position : Int) : List Char :=
  let power := position - 1
  let sign := if power < 0 then ['-'] else if style.plus then ['+'] else []
  let fraction := if digits.tail.isEmpty then [] else '.' :: digits.tail
  digits.take 1 ++ fraction ++ 'e' :: sign ++ Decimal.digits power.natAbs

/-- All digits around a point, filled up with zeros; there is a digit on both sides. -/
def positional (digits : List Char) (position : Int) : List Char :=
  if position ≤ 0 then
    '0' :: '.' :: List.replicate (-position).toNat '0' ++ digits
  else
    let whole := position.toNat
    if digits.length ≤ whole then
      digits ++ List.replicate (whole - digits.length) '0' ++ ['.', '0']
    else digits.take whole ++ '.' :: digits.drop whole

/-- The text of a finite pattern without its sign. -/
def magnitudeChars (style : FloatStyle) (magnitude : Nat) : List Char :=
  if magnitude = 0 then ['0', '.', '0']
  else
    let d := Decimal.shortest style.tie magnitude
    let digits := Decimal.digits d.coefficient
    let position := d.exponent + digits.length
    if style.low ≤ position ∧ position ≤ style.high then positional digits position
    else style.scientific digits position

/-- The text of a finite number. -/
def write (style : FloatStyle) (x : Binary64) : String :=
  String.ofList ((if x.negative then ['-'] else []) ++ style.magnitudeChars x.magnitude)

end FloatStyle

namespace Decimal

/-- The value of a run of digits. -/
def ofDigits (cs : List Char) : Nat :=
  cs.foldl (fun n c => 10 * n + (c.toNat - '0'.toNat)) 0

/-- The exponent after its letter: an optional sign and at least one digit. -/
def readExponent (cs : List Char) : Option Int :=
  let unsigned (cs : List Char) : Option Nat :=
    if cs.isEmpty || !cs.all Char.isDigit then none else some (ofDigits cs)
  match cs with
  | '-' :: rest => (unsigned rest).map fun n => -(n : Int)
  | '+' :: rest => (unsigned rest).map Int.ofNat
  | _ => (unsigned cs).map Int.ofNat

/-- Digits, optionally a point and digits, optionally an exponent; there is a digit
before or after the point. -/
def read? (cs : List Char) : Option Decimal :=
  let whole := cs.takeWhile Char.isDigit
  let rest := cs.dropWhile Char.isDigit
  let (fraction, rest) :=
    match rest with
    | '.' :: rest => (rest.takeWhile Char.isDigit, rest.dropWhile Char.isDigit)
    | _ => ([], rest)
  if whole.isEmpty && fraction.isEmpty then none
  else
    let coefficient := ofDigits (whole ++ fraction)
    match rest with
    | [] => some ⟨coefficient, -(fraction.length : Int)⟩
    | c :: rest =>
        if c = 'e' ∨ c = 'E' then
          (readExponent rest).map fun e => ⟨coefficient, e - fraction.length⟩
        else none

/-- Divides by `10 ^ 308` until the exponent is within the rounded powers of ten. -/
def scaleDown : Nat → Binary64 → Int → Binary64
  | 0, x, _ => x
  | fuel + 1, x, e =>
      if -308 ≤ e then x.dividedBy (toBinary64 false ⟨1, -e⟩)
      else if x.isZero then x
      else scaleDown fuel (x.dividedBy (toBinary64 false ⟨1, 308⟩)) (e + 308)

/-- The magnitude of a decimal in two roundings: the coefficient first, then the
product or quotient with the nearest power of ten. Nothing if the result is too large. -/
def approximate (d : Decimal) : Option Binary64 :=
  let x := Binary64.ofInt d.coefficient
  if 308 < d.exponent then if x.isZero then some x else none
  else if 0 ≤ d.exponent then
    let y := x.times (toBinary64 false ⟨1, d.exponent⟩)
    if y.isInfinite then none else some y
  else some (scaleDown 8 x d.exponent)

end Decimal
end Wiring
