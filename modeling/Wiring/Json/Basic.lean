import Wiring.Number.Decimal

/-!
# JSON trees and their texts

An object keeps its fields in order and may repeat a key: what a repetition means is
decided where a tree is decoded. Numbers without point and exponent are integers, all
others are binary floating point. `Json.compact` writes no blanks; `Json.pretty` puts
every item on a line of its own, indented by two spaces a level.

A text can be well formed and still say what no value here can hold: a number beyond
floating point, half of a surrogate pair, a container nested too deep. Such a part is
`unreadable`. It does no harm where nobody looks at it.
-/
namespace Wiring

inductive Json where
  | null
  | bool (b : Bool)
  | int (i : Int)
  | float (x : Binary64)
  | text (s : String)
  | list (items : List Json)
  | record (fields : List (String × Json))
  | unreadable
  deriving Repr, Inhabited

namespace Json

/-- Floating point numbers are positional from `0.00001` up to sixteen digits, carry a
sign in the exponent beyond, and take the even one of two equally near texts. -/
def floatStyle : FloatStyle := ⟨.even, -4, 16, true⟩

mutual

/-- Nothing in the tree is unreadable. -/
def isWhole : Json → Bool
  | null => true
  | bool _ => true
  | int _ => true
  | float _ => true
  | text _ => true
  | list items => areWhole items
  | record fields => fieldsAreWhole fields
  | unreadable => false

def areWhole : List Json → Bool
  | [] => true
  | item :: rest => isWhole item && areWhole rest

def fieldsAreWhole : List (String × Json) → Bool
  | [] => true
  | (_, value) :: rest => isWhole value && fieldsAreWhole rest

end

/-- A number without a decimal text is written as null. -/
def floatChars (x : Binary64) : List Char :=
  if x.isFinite then (floatStyle.write x).toList else ['n', 'u', 'l', 'l']

def hexDigit (n : Nat) : Char := "0123456789abcdef".toList.getD n '0'

/-- Quotes, backslashes and control characters are escaped, nothing else. -/
def escapeChar (c : Char) : List Char :=
  match c with
  | '"' => ['\\', '"']
  | '\\' => ['\\', '\\']
  | '\n' => ['\\', 'n']
  | '\r' => ['\\', 'r']
  | '\t' => ['\\', 't']
  | '\x08' => ['\\', 'b']
  | '\x0c' => ['\\', 'f']
  | c =>
      if c.toNat < 32 then
        ['\\', 'u', '0', '0', hexDigit (c.toNat / 16), hexDigit (c.toNat % 16)]
      else [c]

def textChars (s : String) : List Char := '"' :: s.toList.flatMap escapeChar ++ ['"']

/-- The items of a bracket, a separator between any two. -/
def join (separator : List Char) : List (List Char) → List Char
  | [] => []
  | [x] => x
  | x :: rest => x ++ separator ++ join separator rest

mutual

/-- What could not be read is written as null. -/
def compactChars : Json → List Char
  | null => "null".toList
  | bool b => (if b then "true" else "false").toList
  | int i => (toString i).toList
  | float x => floatChars x
  | text s => textChars s
  | list items => '[' :: join [','] (compactItems items) ++ [']']
  | record fields => '{' :: join [','] (compactFields fields) ++ ['}']
  | unreadable => "null".toList

def compactItems : List Json → List (List Char)
  | [] => []
  | item :: rest => compactChars item :: compactItems rest

def compactFields : List (String × Json) → List (List Char)
  | [] => []
  | (key, value) :: rest => (textChars key ++ ':' :: compactChars value) :: compactFields rest

end

def compact (j : Json) : String := String.ofList j.compactChars

/-- A fresh line at a level of indentation. -/
def newline (level : Nat) : List Char := '\n' :: List.replicate (2 * level) ' '

/-- A bracket around items on their own lines; an empty bracket stays closed. -/
def bracket (left right : Char) (level : Nat) (items : List (List Char)) : List Char :=
  if items.isEmpty then [left, right]
  else left :: newline (level + 1) ++ join (',' :: newline (level + 1)) items ++
    newline level ++ [right]

mutual

def prettyChars (level : Nat) : Json → List Char
  | list items => bracket '[' ']' level (prettyItems (level + 1) items)
  | record fields => bracket '{' '}' level (prettyFields (level + 1) fields)
  | null => compactChars null
  | bool b => compactChars (bool b)
  | int i => compactChars (int i)
  | float x => compactChars (float x)
  | text s => compactChars (text s)
  | unreadable => compactChars unreadable

def prettyItems (level : Nat) : List Json → List (List Char)
  | [] => []
  | item :: rest => prettyChars level item :: prettyItems level rest

def prettyFields (level : Nat) : List (String × Json) → List (List Char)
  | [] => []
  | (key, value) :: rest =>
      (textChars key ++ ':' :: ' ' :: prettyChars level value) :: prettyFields level rest

end

def pretty (j : Json) : String := String.ofList (j.prettyChars 0)

end Json
end Wiring
