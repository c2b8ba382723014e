import Wiring.Failure
import Wiring.Number.Decimal
import Wiring.Script.Syntax
import Wiring.Script.Token

/-!
# Reading script units

A recursive descent over the list of tokens; each function returns the tree and the
tokens that are left. A fault is placed at the start of a token or at the end of the
text. Reading a token that is an error fails with the message of the token. Every round
through the grammar takes a token, so `fuelFor` many steps are enough; to run out of them
would be a fault of its own.
-/
namespace Wiring.Script

/-- A fault and the byte at which it was found. -/
structure Located where
  offset : Nat
  fault : SyntaxFault
  deriving DecidableEq, Repr

/-- What a reader gives: a result, or a fault. -/
abbrev Reading := Except Located

/-- Steps enough to read a list of tokens. -/
def fuelFor (tokens : List Token) : Nat := 8 * tokens.length + 8

/-- The start of the next token, or the end of the text. -/
def offsetAt (stop : Nat) : List Token → Nat
  | [] => stop
  | t :: _ => t.start

def takeToken (stop : Nat) : List Token → Reading (Token × List Token)
  | [] => .error ⟨stop, .unexpectedEnd⟩
  | t :: rest => if t.kind = .error then .error ⟨t.start, .badToken t.text⟩ else .ok (t, rest)

def takeCharacter (stop : Nat) (c : Char) (tokens : List Token) : Reading (List Token) := do
  let (t, rest) ← takeToken stop tokens
  if t.isCharacter c then return rest
  else throw ⟨t.start, .characterExpected c t.text⟩

def takeName (stop : Nat) (tokens : List Token) : Reading (String × List Token) := do
  let (t, rest) ← takeToken stop tokens
  if t.isName then return (t.text, rest)
  else throw ⟨t.start, .identifierExpected t.text⟩

/-- The rest after a punctuation character, if it comes next. -/
def afterCharacter? (c : Char) : List Token → Option (List Token)
  | [] => none
  | t :: rest => if t.isCharacter c then some rest else none

/-- An integer in the range of sixty-four bits, or floating point if the token has a
point or an exponent. -/
def numberLiteral (t : Token) (negative : Bool) : Reading Expr :=
  let text := if negative then "-" ++ t.text else t.text
  let bad : Located := ⟨t.start, .badNumber text⟩
  if t.isFloat then
    match Decimal.read? t.text.toList with
    | some d => .ok (.literal (.float (d.toBinary64 negative)))
    | none => .error bad
  else
    let n := Decimal.ofDigits t.text.toList
    match int64? (if negative then -n else n) with
    | some i => .ok (.literal (.int i))
    | none => .error bad

/-- The key of an entry is an integer or text literal. -/
def arrayKey (offset : Nat) : Expr → Reading ArrayKey
  | .literal (.int i) => .ok (.int i)
  | .literal (.text s) => .ok (.text s)
  | _ => .error ⟨offset, .arrayKey⟩

/-- The words that are values by themselves. -/
def constant? (t : Token) : Option Literal :=
  if t.isKeyword "null" then some .null
  else if t.isKeyword "true" then some (.bool true)
  else if t.isKeyword "false" then some (.bool false)
  else if t.isKeyword "NAN" then some (.float .nan)
  else if t.isKeyword "INF" then some (.float (.infinity false))
  else none

/-- Only variables and properties can be assigned to. -/
def assignTo (offset : Nat) (value : Expr) : Expr → Reading Expr
  | .var name => .ok (.assign name value)
  | .prop receiver name => .ok (.setProp receiver name value)
  | _ => .error ⟨offset, .assignmentTarget⟩

mutual

/-- An expression, which may be an assignment. -/
def parseExpr (stop : Nat) : Nat → List Token → Reading (Expr × List Token)
  | 0, tokens => .error ⟨offsetAt stop tokens, .exhausted⟩
  | fuel + 1, tokens => do
      let (target, rest) ← parsePostfix stop fuel tokens
      match afterCharacter? '=' rest with
      | none => return (target, rest)
      | some rest =>
          let (value, rest) ← parseExpr stop fuel rest
          return (← assignTo (offsetAt stop tokens) value target, rest)

/-- A primary expression with the properties and calls that follow it. -/
def parsePostfix (stop : Nat) : Nat → List Token → Reading (Expr × List Token)
  | 0, tokens => .error ⟨offsetAt stop tokens, .exhausted⟩
  | fuel + 1, tokens => do
      let (e, rest) ← parsePrimary stop fuel tokens
      parseSuffixes stop fuel e rest

def parseSuffixes (stop : Nat) : Nat → Expr → List Token → Reading (Expr × List Token)
  | 0, _, tokens => .error ⟨offsetAt stop tokens, .exhausted⟩
  | fuel + 1, e, tokens =>
      match afterCharacter? '.' tokens with
      | some rest => do
          let (name, rest) ← takeName stop rest
          parseSuffixes stop fuel (.prop e name) rest
      | none =>
          match afterCharacter? '(' tokens with
          | some rest => do
              let (arguments, rest) ← parseArguments stop fuel rest
              parseSuffixes stop fuel (.call e arguments) rest
          | none => return (e, tokens)

/-- Arguments after the opening parenthesis, up to and with the closing one. -/
def parseArguments (stop : Nat) : Nat → List Token → Reading (List Expr × List Token)
  | 0, tokens => .error ⟨offsetAt stop tokens, .exhausted⟩
  | fuel + 1, tokens =>
      match afterCharacter? ')' tokens with
      | some rest => return ([], rest)
      | none => do
          let (items, rest) ← parseItems stop fuel tokens
          return (items, ← takeCharacter stop ')' rest)

/-- One expression or more, with commas between them. -/
def parseItems (stop : Nat) : Nat → List Token → Reading (List Expr × List Token)
  | 0, tokens => .error ⟨offsetAt stop tokens, .exhausted⟩
  | fuel + 1, tokens => do
      let (e, rest) ← parseExpr stop fuel tokens
      match afterCharacter? ',' rest with
      | none => return ([e], rest)
      | some rest =>
          let (items, rest) ← parseItems stop fuel rest
          return (e :: items, rest)

def parsePrimary (stop : Nat) : Nat → List Token → Reading (Expr × List Token)
  | 0, tokens => .error ⟨offsetAt stop tokens, .exhausted⟩
  | fuel + 1, tokens => do
      let (t, rest) ← takeToken stop tokens
      if let some value := constant? t then
        return (.literal value, rest)
      else if t.kind = .number then
        return (← numberLiteral t false, rest)
      else if t.isOperator "-" then
        let (operand, rest) ← takeToken stop rest
        if operand.isKeyword "INF" then return (.literal (.float (.infinity true)), rest)
        else if operand.kind = .number then return (← numberLiteral operand true, rest)
        else throw ⟨operand.start, .numberExpected⟩
      else if t.kind = .text then
        return (.text t.text, rest)
      else if t.isKeyword "new" then
        let (className, rest) ← takeName stop rest
        let rest ← takeCharacter stop '(' rest
        let (arguments, rest) ← parseArguments stop fuel rest
        return (.construct className arguments, rest)
      else if t.kind = .identifier then
        return (.var t.text, rest)
      else if t.isCharacter '[' then
        parseArray stop fuel rest
      else if t.isCharacter '(' then
        let (parts, rest) ← parseItems stop fuel rest
        let rest ← takeCharacter stop ')' rest
        match parts with
        | [e] => return (e, rest)
        | parts => return (.tuple parts, rest)
      else throw ⟨t.start, .unexpectedToken t.text⟩

/-- An array after its opening bracket; an arrow after the first expression makes it
one with keys. -/
def parseArray (stop : Nat) : Nat → List Token → Reading (Expr × List Token)
  | 0, tokens => .error ⟨offsetAt stop tokens, .exhausted⟩
  | fuel + 1, tokens =>
      match afterCharacter? ']' tokens with
      | some rest => return (.list [], rest)
      | none => do
          let (first, rest) ← parseExpr stop fuel tokens
          let isKeyed :=
            match rest with
            | t :: _ => t.isOperator "=>"
            | [] => false
          if isKeyed then
            let (entries, rest) ← parseEntries stop fuel first rest
            return (.keyed entries, ← takeCharacter stop ']' rest)
          else
            match afterCharacter? ',' rest with
            | none => return (.list [first], ← takeCharacter stop ']' rest)
            | some rest =>
                let (items, rest) ← parseItems stop fuel rest
                return (.list (first :: items), ← takeCharacter stop ']' rest)

/-- Entries with commas between them, the key of the first one already read. -/
def parseEntries (stop : Nat) : Nat → Expr → List Token → Reading (List (ArrayKey × Expr) × List Token)
  | 0, _, tokens => .error ⟨offsetAt stop tokens, .exhausted⟩
  | fuel + 1, keyExpr, tokens => do
      let (arrow, rest) ← takeToken stop tokens
      if arrow.isOperator "=>" then
        let key ← arrayKey arrow.start keyExpr
        let (value, rest) ← parseExpr stop fuel rest
        match afterCharacter? ',' rest with
        | none => return ([(key, value)], rest)
        | some rest =>
            let (keyExpr, rest) ← parseExpr stop fuel rest
            let (entries, rest) ← parseEntries stop fuel keyExpr rest
            return ((key, value) :: entries, rest)
      else throw ⟨arrow.start, .arrowExpected⟩

end

def parseStatement (stop fuel : Nat) (tokens : List Token) :
    Reading (Statement × List Token) := do
  match tokens with
  | t :: rest =>
      if t.isKeyword "namespace" then
        let (name, rest) ← takeName stop rest
        return (.namespaced name, ← takeCharacter stop ';' rest)
      else if t.isKeyword "return" then
        let (e, rest) ← parseExpr stop fuel rest
        return (.yield e, ← takeCharacter stop ';' rest)
      else
        let (e, rest) ← parseExpr stop fuel tokens
        return (.expr e, ← takeCharacter stop ';' rest)
  | [] => throw ⟨stop, .unexpectedEnd⟩

/-- Statements up to the end of the tokens; each takes at least one token and has `each`
steps. -/
def parseStatements (stop each : Nat) : Nat → List Token → Reading (List Statement)
  | _, [] => .ok []
  | 0, tokens => .error ⟨offsetAt stop tokens, .exhausted⟩
  | fuel + 1, tokens => do
      let (s, rest) ← parseStatement stop each tokens
      return s :: (← parseStatements stop each fuel rest)

/-- A located fault as the failure of a named file. -/
def failIn (file : String) (l : Located) : Failure := .badSyntax file l.offset l.fault

def parseUnit (file text : String) : Except Failure (List Statement) :=
  let tokens := tokenize text
  (parseStatements (byteLength text.toList) (fuelFor tokens) tokens.length tokens).mapError
    (failIn file)

/-- The name under which a lone expression is reported. -/
def expressionFile : String := "<expression>"

/-- The one expression that a text holds. -/
def parseExpression (text : String) : Except Failure Expr :=
  let tokens := tokenize text
  let parsed : Reading Expr := do
    let (e, rest) ← parseExpr (byteLength text.toList) (fuelFor tokens) tokens
    match rest with
    | [] => return e
    | t :: _ => throw ⟨t.start, .unexpectedToken t.text⟩
  parsed.mapError (failIn expressionFile)

end Wiring.Script
