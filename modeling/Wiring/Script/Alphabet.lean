/-!
# The characters of script text

Identifiers are made of letters, digits and underscores of the first 128 characters;
backslashes join them into class paths. Every control character but the first one is a
blank; no character beyond the space is.
-/
namespace Wiring.Script

def isBlank (c : Char) : Bool := c == ' ' || (c != '\x00' && decide (c < ' '))

def isDigit (c : Char) : Bool := decide ('0' ≤ c) && decide (c ≤ '9')

def isLetter (c : Char) : Bool :=
  (decide ('a' ≤ c) && decide (c ≤ 'z')) || (decide ('A' ≤ c) && decide (c ≤ 'Z'))

def isIdentifierStart (c : Char) : Bool := isLetter c || c == '_'

def isIdentifierPart (c : Char) : Bool := isIdentifierStart c || isDigit c || c == '\\'

/-- The length of a text in the bytes of its encoding. -/
def byteLength (cs : List Char) : Nat := cs.foldr (fun c n => c.utf8Size + n) 0

end Wiring.Script
