import Wiring.Number.Decimal
import Wiring.Script.Syntax

/-!
# The text of script units

Each statement ends its line. Texts stand between single quotes; a quote, a backslash and
the characters that would break the line are escaped. Floating point numbers always have
a point or an exponent, so that they are not taken for integers.
-/
namespace Wiring.Script

def escapeChar (c : Char) : List Char :=
  match c with
  | '\n' => ['\\', 'n']
  | '\r' => ['\\', 'r']
  | '\t' => ['\\', 't']
  | '\'' => ['\\', '\'']
  | '\\' => ['\\', '\\']
  | c => [c]

def quotedChars (s : String) : List Char := '\'' :: s.toList.flatMap escapeChar ++ ['\'']

def quoted (s : String) : String := String.ofList (quotedChars s)

/-- Numbers are positional from `0.0001` up to sixteen digits, and the greater one of two
equally near texts is taken. -/
def floatStyle : FloatStyle := ⟨.up, -3, 16, false⟩

def floatText (x : Binary64) : String :=
  if x.isNaN then "NAN"
  else if x.isInfinite then if x.negative then "-INF" else "INF"
  else floatStyle.write x

def Literal.chars : Literal → List Char
  | null => "null".toList
  | bool b => (if b then "true" else "false").toList
  | int i => (toString i.toInt).toList
  | float x => (floatText x).toList
  | text s => quotedChars s

def keyChars : ArrayKey → List Char
  | .int i => (toString i.toInt).toList
  | .text s => quotedChars s

namespace Expr

mutual

def chars : Expr → List Char
  | var name => name.toList
  | assign name value => name.toList ++ " = ".toList ++ chars value
  | prop receiver name => chars receiver ++ '.' :: name.toList
  | setProp receiver name value =>
      chars receiver ++ '.' :: name.toList ++ " = ".toList ++ chars value
  | call callee arguments => chars callee ++ '(' :: allChars arguments ++ [')']
  | new className arguments =>
      "new ".toList ++ chars className ++ '(' :: allChars arguments ++ [')']
  | literal value => value.chars
  | list items => '[' :: allChars items ++ [']']
  | keyed entries => '[' :: entryChars entries ++ [']']
  | classRef name => name.toList
  | tuple parts => '(' :: allChars parts ++ [')']

/-- Expressions with a comma between any two. -/
def allChars : List Expr → List Char
  | [] => []
  | [e] => chars e
  | e :: rest => chars e ++ ',' :: ' ' :: allChars rest

/-- Entries with a comma between any two. -/
def entryChars : List (ArrayKey × Expr) → List Char
  | [] => []
  | [(key, e)] => keyChars key ++ " => ".toList ++ chars e
  | (key, e) :: rest => keyChars key ++ " => ".toList ++ chars e ++ ',' :: ' ' :: entryChars rest

end

def print (e : Expr) : String := String.ofList e.chars

end Expr

def Statement.chars : Statement → List Char
  | namespaced name => "namespace ".toList ++ name.toList ++ ";\n\n".toList
  | expr e => e.chars ++ ";\n".toList
  | yield e => "return ".toList ++ e.chars ++ ";\n".toList

def printUnit (statements : List Statement) : String :=
  String.ofList (statements.flatMap Statement.chars)

end Wiring.Script
