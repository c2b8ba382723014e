import Wiring.Json.Basic

/-!
# Reading JSON texts

One value with blanks around it is the whole text. Control characters in texts must be
escaped. Containers nested more than 127 deep, surrogates that do not come in pairs and
numbers too large for floating point are read over and leave an unreadable part. The
reader takes a character list and returns what is left; `fuel` bounds its steps and is
set to more than the length of the text, of which each step takes a character.
-/
namespace Wiring.Json

/-- The deepest nesting of containers that is read, and one more. -/
def depthLimit : Nat := 128

def isBlank (c : Char) : Bool := c == ' ' || c == '\n' || c == '\t' || c == '\r'

def skipBlank (cs : List Char) : List Char := cs.dropWhile isBlank

/-- Digits are taken while the number they make stays below `2 ^ 64`; also says how
many were taken. -/
def absorb (taken n : Nat) : List Char → Nat × Nat
  | [] => (n, taken)
  | c :: rest =>
      let next := 10 * n + (c.toNat - '0'.toNat)
      if next < wordCount then absorb (taken + 1) next rest else (n, taken)

/-- A number that is not an integer in range: the digits beyond the first nineteen or
twenty only shift the point, and the value is the approximate one. -/
def readFloat (negative : Bool) (whole fraction : List Char) (exponent : Int) : Json :=
  let (n, wholeTaken) := absorb 0 0 whole
  let (n, fractionTaken) := absorb 0 n fraction
  let shift : Int := (whole.length - wholeTaken : Nat) - (fractionTaken : Int)
  match Decimal.approximate ⟨n, exponent + shift⟩ with
  | some x => float (Binary64.ofMagnitude negative x.magnitude)
  | none => unreadable

/-- An integer keeps its sign and range; minus zero and whatever does not fit in
sixty-four bits is floating point. -/
def readWhole (negative : Bool) (whole : List Char) : Json :=
  let n := Decimal.ofDigits whole
  if n < wordCount ∧ negative = false then int n
  else if 0 < n ∧ n ≤ negativeCount then int (-n)
  else readFloat negative whole [] 0

/-- The digits at the front as a number, with what is left; there must be some. -/
def takeDigits (cs : List Char) : Option (Nat × List Char) :=
  let digits := cs.takeWhile Char.isDigit
  if digits.isEmpty then none else some (Decimal.ofDigits digits, cs.dropWhile Char.isDigit)

/-- The exponent after its letter, with what is left. -/
def takeExponent : List Char → Option (Int × List Char)
  | '+' :: rest => (takeDigits rest).map fun (n, rest) => (Int.ofNat n, rest)
  | '-' :: rest => (takeDigits rest).map fun (n, rest) => (-(n : Int), rest)
  | cs => (takeDigits cs).map fun (n, rest) => (Int.ofNat n, rest)

/-- The digits after a point, if there is a point, with what is left. -/
def takeFraction : List Char → Option (List Char) × List Char
  | '.' :: rest => (some (rest.takeWhile Char.isDigit), rest.dropWhile Char.isDigit)
  | cs => (none, cs)

/-- A number without an exponent. -/
def readPlain (negative : Bool) (whole : List Char) : Option (List Char) → Json
  | some fraction => readFloat negative whole fraction 0
  | none => readWhole negative whole

/-- The number of these digits, with the exponent that may follow them. -/
def readScaled (negative : Bool) (whole : List Char) (fraction : Option (List Char)) :
    List Char → Option (Json × List Char)
  | [] => some (readPlain negative whole fraction, [])
  | c :: rest =>
      if c = 'e' ∨ c = 'E' then
        (takeExponent rest).map fun (exponent, rest) =>
          (readFloat negative whole (fraction.getD []) exponent, rest)
      else some (readPlain negative whole fraction, c :: rest)

def readNumber (cs : List Char) : Option (Json × List Char) :=
  let negative := cs.head? == some '-'
  let cs := if negative then cs.tail else cs
  let whole := cs.takeWhile Char.isDigit
  let (fraction, rest) := takeFraction (cs.dropWhile Char.isDigit)
  if whole.isEmpty || (whole.head? == some '0' && whole.length != 1) then none
  else if fraction == some [] then none
  else readScaled negative whole fraction rest

def hexValue? (c : Char) : Option Nat :=
  if c.isDigit then some (c.toNat - '0'.toNat)
  else if 'a' ≤ c ∧ c ≤ 'f' then some (c.toNat - 'a'.toNat + 10)
  else if 'A' ≤ c ∧ c ≤ 'F' then some (c.toNat - 'A'.toNat + 10)
  else none

/-- The four hexadecimal digits of an escaped code unit. -/
def unit? (a b c d : Char) : Option Nat := do
  return (((← hexValue? a) * 16 + (← hexValue? b)) * 16 + (← hexValue? c)) * 16 + (← hexValue? d)

/-- The character of an escape with a single letter. -/
def simpleEscape? : Char → Option Char
  | '"' => some '"'
  | '\\' => some '\\'
  | '/' => some '/'
  | 'b' => some '\x08'
  | 'f' => some '\x0c'
  | 'n' => some '\n'
  | 'r' => some '\r'
  | 't' => some '\t'
  | _ => none

/-- A piece of a text: a character, or half of a surrogate pair that is escaped. -/
inductive Piece where
  | char (c : Char)
  | high (unit : Nat)
  | low (unit : Nat)
  deriving DecidableEq, Repr

def Piece.ofUnit (unit : Nat) : Piece :=
  if unit < 0xd800 ∨ 0xdfff < unit then .char (Char.ofNat unit)
  else if unit < 0xdc00 then .high unit
  else .low unit

/-- The pieces of a text after its opening quote, with what follows its closing quote. -/
def readPieces : List Char → Option (List Piece × List Char)
  | [] => none
  | '"' :: rest => some ([], rest)
  | '\\' :: 'u' :: a :: b :: c :: d :: rest => do
      let unit ← unit? a b c d
      let (pieces, rest) ← readPieces rest
      return (.ofUnit unit :: pieces, rest)
  | '\\' :: c :: rest => do
      let c ← simpleEscape? c
      let (pieces, rest) ← readPieces rest
      return (.char c :: pieces, rest)
  | c :: rest =>
      if c.toNat < 32 ∨ c = '\\' then none
      else do
        let (pieces, rest) ← readPieces rest
        return (.char c :: pieces, rest)

/-- The characters of the pieces, unless half of a pair stands alone. -/
def joinPieces : List Piece → Option (List Char)
  | [] => some []
  | .char c :: rest => (joinPieces rest).map (c :: ·)
  | .high h :: .low l :: rest =>
      (joinPieces rest).map (Char.ofNat (0x10000 + (h - 0xd800) * 1024 + (l - 0xdc00)) :: ·)
  | _ => none

/-- A text after its opening quote, nothing if it has no characters of its own; with what
follows its closing quote. -/
def readText (cs : List Char) : Option (Option String × List Char) := do
  let (pieces, rest) ← readPieces cs
  return ((joinPieces pieces).map String.ofList, rest)

/-- A record of the fields, unreadable if one of the keys is. -/
def ofFields (fields : List (Option String × Json)) : Json :=
  match fields.mapM fun f => f.1.map (·, f.2) with
  | some fields => record fields
  | none => unreadable

/-- What is left after a fixed word. -/
def expect (word : List Char) (cs : List Char) : Option (List Char) :=
  if word.isPrefixOf cs then some (cs.drop word.length) else none

mutual

/-- A value at the front, blanks before it skipped. Containers may nest less than `depth`
deep. -/
def readValue : Nat → Nat → List Char → Option (Json × List Char)
  | 0, _, _ => none
  | fuel + 1, depth, cs =>
      match skipBlank cs with
      | 'n' :: rest => (expect ['u', 'l', 'l'] rest).map (null, ·)
      | 't' :: rest => (expect ['r', 'u', 'e'] rest).map (bool true, ·)
      | 'f' :: rest => (expect ['a', 'l', 's', 'e'] rest).map (bool false, ·)
      | '"' :: rest =>
          (readText rest).map fun (s, rest) => ((s.map text).getD unreadable, rest)
      | '[' :: rest => do
          let (items, rest) ←
            match skipBlank rest with
            | ']' :: rest => some ([], rest)
            | rest => readItems fuel (depth - 1) rest
          return (if depth ≤ 1 then unreadable else list items, rest)
      | '{' :: rest => do
          let (fields, rest) ←
            match skipBlank rest with
            | '}' :: rest => some ([], rest)
            | rest => readFields fuel (depth - 1) rest
          return (if depth ≤ 1 then unreadable else ofFields fields, rest)
      | rest => readNumber rest

/-- One item or more, up to the closing bracket. -/
def readItems : Nat → Nat → List Char → Option (List Json × List Char)
  | 0, _, _ => none
  | fuel + 1, depth, cs => do
      let (item, rest) ← readValue fuel depth cs
      match skipBlank rest with
      | ',' :: rest =>
          let (items, rest) ← readItems fuel depth rest
          return (item :: items, rest)
      | ']' :: rest => return ([item], rest)
      | _ => none

/-- One field or more, up to the closing brace. -/
def readFields : Nat → Nat → List Char → Option (List (Option String × Json) × List Char)
  | 0, _, _ => none
  | fuel + 1, depth, cs => do
      let '"' :: rest := skipBlank cs | none
      let (key, rest) ← readText rest
      let ':' :: rest := skipBlank rest | none
      let (value, rest) ← readValue fuel depth rest
      match skipBlank rest with
      | ',' :: rest =>
          let (fields, rest) ← readFields fuel depth rest
          return ((key, value) :: fields, rest)
      | '}' :: rest => return ([(key, value)], rest)
      | _ => none

end

/-- The one value that a text holds. -/
def read? (s : String) : Option Json := do
  let cs := s.toList
  let (value, rest) ← readValue (2 * cs.length + 2) depthLimit cs
  if (skipBlank rest).isEmpty then some value else none

end Wiring.Json
