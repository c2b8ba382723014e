import Wiring.Script.Alphabet

/-!
# Tokens

A token covers a span of bytes of the text. Blanks and comments, which run from two
slashes to the end of the line, lie between the spans. A character that begins no token,
a quote that is never closed and a number that stops within its exponent each give an
error token, which carries a message in place of a text and ends the list.
-/
namespace Wiring.Script

inductive TokenKind where
  | character
  | identifier
  | keyword
  | text
  | operator
  | number
  | error
  deriving DecidableEq, Repr

structure Token where
  kind : TokenKind
  start : Nat
  stop : Nat
  text : String
  deriving DecidableEq, Repr

namespace Token

def isCharacter (t : Token) (c : Char) : Bool :=
  t.kind == .character && t.text == String.singleton c

def isKeyword (t : Token) (word : String) : Bool := t.kind == .keyword && t.text == word

def isOperator (t : Token) (symbol : String) : Bool := t.kind == .operator && t.text == symbol

/-- A name is an identifier or a keyword. -/
def isName (t : Token) : Bool := t.kind == .identifier || t.kind == .keyword

/-- Floating point numbers have a fraction or an exponent, integers have neither. -/
def isFloat (t : Token) : Bool :=
  t.kind == .number && t.text.toList.any fun c => c == '.' || c == 'e' || c == 'E'

end Token

def keywords : List String :=
  ["namespace", "new", "return", "null", "true", "false", "NAN", "INF"]

/-- Characters that are tokens by themselves. -/
def isPunctuation (c : Char) : Bool := ['(', ')', ',', ';', '[', ']', '.'].contains c

mutual

/-- The blanks and comments at the front and what is left. -/
def splitBlank : List Char → List Char × List Char
  | '/' :: '/' :: rest =>
      let (blank, left) := splitComment rest
      ('/' :: '/' :: blank, left)
  | c :: rest =>
      if isBlank c then
        let (blank, left) := splitBlank rest
        (c :: blank, left)
      else ([], c :: rest)
  | [] => ([], [])

/-- The rest of a comment with the blanks that follow it, and what is left. -/
def splitComment : List Char → List Char × List Char
  | c :: rest =>
      let (blank, left) := if c = '\n' then splitBlank rest else splitComment rest
      (c :: blank, left)
  | [] => ([], [])

end

/-- The characters of a number and what is left. A sign belongs to the number only right
after the letter of an exponent. -/
def splitNumber : List Char → List Char × List Char
  | [] => ([], [])
  | c :: rest =>
      if isDigit c || c == '.' then
        let (number, left) := splitNumber rest
        (c :: number, left)
      else if c == 'e' || c == 'E' then
        match rest with
        | s :: tail =>
            if s == '+' || s == '-' then
              let (number, left) := splitNumber tail
              (c :: s :: number, left)
            else
              let (number, left) := splitNumber (s :: tail)
              (c :: number, left)
        | [] => ([c], [])
      else ([], c :: rest)

/-- A number may not stop at the letter or the sign of an exponent. -/
def stopsInExponent (number : List Char) : Bool :=
  match number.getLast? with
  | some c => c == 'e' || c == 'E' || c == '+' || c == '-'
  | none => false

/-- The character that an escaped character stands for. -/
def unescape (c : Char) : Char :=
  match c with
  | 'n' => '\n'
  | 'r' => '\r'
  | 't' => '\t'
  | c => c

/-- A quoted text after its opening quote, up to the closing one and with it, and what is
left. -/
def splitQuoted : List Char → Option (List Char × List Char)
  | [] => none
  | '\'' :: rest => some (['\''], rest)
  | '\\' :: c :: rest => (splitQuoted rest).map fun (quoted, left) => ('\\' :: c :: quoted, left)
  | ['\\'] => none
  | c :: rest => (splitQuoted rest).map fun (quoted, left) => (c :: quoted, left)

/-- The characters that a quoted text stands for, its opening quote left out. -/
def unquote : List Char → List Char
  | [] => []
  | ['\''] => []
  | '\\' :: c :: rest => unescape c :: unquote rest
  | c :: rest => c :: unquote rest

/-- A token that is not placed in a text yet, with the characters it covers. -/
structure Lexeme where
  kind : TokenKind
  text : String
  covered : List Char
  deriving DecidableEq, Repr

namespace Lexeme

/-- A token whose text is what it covers. -/
def verbatim (kind : TokenKind) (covered : List Char) : Lexeme :=
  ⟨kind, String.ofList covered, covered⟩

def ofName (name : List Char) : Lexeme :=
  verbatim (if keywords.contains (String.ofList name) then .keyword else .identifier) name

def ofNumber (number : List Char) : Lexeme :=
  if stopsInExponent number then
    ⟨.error, "Invalid exponent in [" ++ String.ofList number ++ "]", number⟩
  else verbatim .number number

end Lexeme

/-- The token at the front and what is left. -/
def splitToken : List Char → Option (Lexeme × List Char)
  | [] => none
  | c :: rest =>
      if isIdentifierStart c || c == '\\' then
        some (.ofName (c :: rest.takeWhile isIdentifierPart), rest.dropWhile isIdentifierPart)
      else if isDigit c then
        let (number, left) := splitNumber (c :: rest)
        some (.ofNumber number, left)
      else if isPunctuation c then some (.verbatim .character [c], rest)
      else if c == '\'' then
        match splitQuoted rest with
        | some (quoted, left) => some (⟨.text, String.ofList (unquote quoted), c :: quoted⟩, left)
        | none => some (⟨.error, "Unterminated quote", c :: rest⟩, [])
      else if c == '-' then some (.verbatim .operator [c], rest)
      else if c == '=' then
        match rest with
        | '>' :: left => some (.verbatim .operator [c, '>'], left)
        | _ => some (.verbatim .character [c], rest)
      else some (⟨.error, "Unexpected character [" ++ String.singleton c ++ "]", [c]⟩, rest)

/-- The tokens of a text that starts so many bytes into the whole. Each takes a character,
so the length of the text is fuel enough. -/
def tokensFrom : Nat → Nat → List Char → List Token
  | 0, _, _ => []
  | fuel + 1, offset, cs =>
      let (blank, cs) := splitBlank cs
      match splitToken cs with
      | none => []
      | some (lexeme, left) =>
          let start := offset + byteLength blank
          let stop := start + byteLength lexeme.covered
          let token : Token := ⟨lexeme.kind, start, stop, lexeme.text⟩
          if lexeme.kind = .error then [token] else token :: tokensFrom fuel stop left

def tokenize (text : String) : List Token :=
  let cs := text.toList
  tokensFrom (cs.length + 1) 0 cs

end Wiring.Script
