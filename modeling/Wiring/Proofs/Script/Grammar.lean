import Mathlib
import Wiring.Script.Parser

/-!
# The grammar of script units

Which tokens make up which phrase, without regard to how a reader finds it. Only the kind
and the text of a token count. An expression is a chain or an assignment to one; a chain
is a primary expression with properties and calls after it.
-/
namespace Wiring.Script

/-- What a run of tokens is read as. -/
inductive Phrase where
  | expr (e : Expr)
  | chain (e : Expr)
  | primary (e : Expr)
  | arguments (es : List Expr)
  | items (es : List Expr)
  | entries (es : List (ArrayKey × Expr))

/-- The words that are values by themselves. -/
inductive Constant : String → Literal → Prop where
  | null : Constant "null" .null
  | true : Constant "true" (.bool true)
  | false : Constant "false" (.bool false)
  | nan : Constant "NAN" (.float .nan)
  | infinity : Constant "INF" (.float (.infinity false))

/-- What tells the text of a floating point number from that of an integer. -/
def floatMarks : List Char := ['.','e','E']

/-- What the text of a number stands for, after a minus sign or not: an integer in the range of
sixty-four bits, or a floating point number if it has a point or an exponent. -/
inductive Numeral (text : String) (negative : Bool) : Literal → Prop where
  | int {i : Int64} (hPlain : ∀ c ∈ text.toList, c ∉ floatMarks)
      (h : i.toInt = if negative then -(Decimal.ofDigits text.toList : Int)
        else Decimal.ofDigits text.toList) : Numeral text negative (.int i)
  | float {d : Decimal} (hMarked : ∃ c ∈ text.toList, c ∈ floatMarks)
      (h : Decimal.read? text.toList = some d) :
      Numeral text negative (.float (d.toBinary64 negative))

/-- The expressions that can stand before an arrow, and the keys they are. -/
inductive KeyExpr : Expr → ArrayKey → Prop where
  | int (i : Int64) : KeyExpr (.literal (.int i)) (.int i)
  | text (s : String) : KeyExpr (.literal (.text s)) (.text s)

/-- The expressions that can be assigned to, and what the assignment is. -/
inductive Assigns : Expr → Expr → Expr → Prop where
  | var (name : String) (value : Expr) : Assigns (.var name) value (.assign name value)
  | prop (receiver : Expr) (name : String) (value : Expr) :
      Assigns (.prop receiver name) value (.setProp receiver name value)

inductive Derives : List Token → Phrase → Prop where
  | ofChain {ts : List Token} {e : Expr} (h : Derives ts (.chain e)) : Derives ts (.expr e)
  | assign {ts us : List Token} {t : Token} {target value e : Expr}
      (hTarget : Derives ts (.chain target)) (hEqual : t.isCharacter '=' = true)
      (hValue : Derives us (.expr value)) (hAssigns : Assigns target value e) :
      Derives (ts ++ t :: us) (.expr e)
  | ofPrimary {ts : List Token} {e : Expr} (h : Derives ts (.primary e)) :
      Derives ts (.chain e)
  | prop {ts : List Token} {point name : Token} {e : Expr} (h : Derives ts (.chain e))
      (hPoint : point.isCharacter '.' = true) (hName : name.isName = true) :
      Derives (ts ++ [point,name]) (.chain (.prop e name.text))
  | call {ts us : List Token} {left right : Token} {e : Expr} {es : List Expr}
      (h : Derives ts (.chain e)) (hLeft : left.isCharacter '(' = true)
      (hArguments : Derives us (.arguments es)) (hRight : right.isCharacter ')' = true) :
      Derives (ts ++ left :: (us ++ [right])) (.chain (.call e es))
  | noArguments : Derives [] (.arguments [])
  | ofItems {ts : List Token} {es : List Expr} (h : Derives ts (.items es)) :
      Derives ts (.arguments es)
  | item {ts : List Token} {e : Expr} (h : Derives ts (.expr e)) : Derives ts (.items [e])
  | items {ts us : List Token} {comma : Token} {e : Expr} {es : List Expr}
      (h : Derives ts (.expr e)) (hComma : comma.isCharacter ',' = true)
      (hItems : Derives us (.items es)) : Derives (ts ++ comma :: us) (.items (e :: es))
  | entry {ts us : List Token} {arrow : Token} {keyExpr e : Expr} {key : ArrayKey}
      (hKeyExpr : Derives ts (.expr keyExpr)) (hArrow : arrow.isOperator "=>" = true)
      (hKey : KeyExpr keyExpr key) (h : Derives us (.expr e)) :
      Derives (ts ++ arrow :: us) (.entries [(key,e)])
  | entries {ts us vs : List Token} {arrow comma : Token} {keyExpr e : Expr} {key : ArrayKey}
      {es : List (ArrayKey × Expr)} (hKeyExpr : Derives ts (.expr keyExpr))
      (hArrow : arrow.isOperator "=>" = true) (hKey : KeyExpr keyExpr key)
      (h : Derives us (.expr e)) (hComma : comma.isCharacter ',' = true)
      (hEntries : Derives vs (.entries es)) :
      Derives (ts ++ arrow :: (us ++ comma :: vs)) (.entries ((key,e) :: es))
  | constant {t : Token} {word : String} {value : Literal} (hWord : t.isKeyword word = true)
      (h : Constant word value) : Derives [t] (.primary (.literal value))
  | number {t : Token} {value : Literal} (hKind : t.kind = .number)
      (h : Numeral t.text false value) : Derives [t] (.primary (.literal value))
  | negative {minus t : Token} {value : Literal} (hMinus : minus.isOperator "-" = true)
      (hKind : t.kind = .number) (h : Numeral t.text true value) :
      Derives [minus,t] (.primary (.literal value))
  | negativeInfinity {minus t : Token} (hMinus : minus.isOperator "-" = true)
      (h : t.isKeyword "INF" = true) :
      Derives [minus,t] (.primary (.literal (.float (.infinity true))))
  | text {t : Token} (h : t.kind = .text) : Derives [t] (.primary (.text t.text))
  | new {ts : List Token} {word className left right : Token} {es : List Expr}
      (hWord : word.isKeyword "new" = true) (hName : className.isName = true)
      (hLeft : left.isCharacter '(' = true) (h : Derives ts (.arguments es))
      (hRight : right.isCharacter ')' = true) :
      Derives (word :: className :: left :: (ts ++ [right]))
        (.primary (.construct className.text es))
  | var {t : Token} (h : t.kind = .identifier) : Derives [t] (.primary (.var t.text))
  | noItems {left right : Token} (hLeft : left.isCharacter '[' = true)
      (hRight : right.isCharacter ']' = true) : Derives [left,right] (.primary (.list []))
  | list {ts : List Token} {left right : Token} {es : List Expr}
      (hLeft : left.isCharacter '[' = true) (h : Derives ts (.items es))
      (hRight : right.isCharacter ']' = true) :
      Derives (left :: (ts ++ [right])) (.primary (.list es))
  | keyed {ts : List Token} {left right : Token} {es : List (ArrayKey × Expr)}
      (hLeft : left.isCharacter '[' = true) (h : Derives ts (.entries es))
      (hRight : right.isCharacter ']' = true) :
      Derives (left :: (ts ++ [right])) (.primary (.keyed es))
  | group {ts : List Token} {left right : Token} {e : Expr}
      (hLeft : left.isCharacter '(' = true) (h : Derives ts (.expr e))
      (hRight : right.isCharacter ')' = true) : Derives (left :: (ts ++ [right])) (.primary e)
  | tuple {ts us : List Token} {left comma right : Token} {e : Expr} {es : List Expr}
      (hLeft : left.isCharacter '(' = true) (h : Derives ts (.expr e))
      (hComma : comma.isCharacter ',' = true) (hItems : Derives us (.items es))
      (hRight : right.isCharacter ')' = true) :
      Derives (left :: (ts ++ comma :: (us ++ [right]))) (.primary (.tuple (e :: es)))

/-- The statements of the grammar, each with its semicolon. -/
inductive DerivesStatement : List Token → Statement → Prop where
  | namespaced {word name semicolon : Token} (hWord : word.isKeyword "namespace" = true)
      (hName : name.isName = true) (hSemicolon : semicolon.isCharacter ';' = true) :
      DerivesStatement [word,name,semicolon] (.namespaced name.text)
  | yield {ts : List Token} {word semicolon : Token} {e : Expr}
      (hWord : word.isKeyword "return" = true) (h : Derives ts (.expr e))
      (hSemicolon : semicolon.isCharacter ';' = true) :
      DerivesStatement (word :: (ts ++ [semicolon])) (.yield e)
  | expr {ts : List Token} {semicolon : Token} {e : Expr} (h : Derives ts (.expr e))
      (hSemicolon : semicolon.isCharacter ';' = true) :
      DerivesStatement (ts ++ [semicolon]) (.expr e)

inductive DerivesUnit : List Token → List Statement → Prop where
  | nil : DerivesUnit [] []
  | cons {ts us : List Token} {s : Statement} {ss : List Statement}
      (h : DerivesStatement ts s) (hs : DerivesUnit us ss) : DerivesUnit (ts ++ us) (s :: ss)

namespace Token

theorem not_error_of_isCharacter {t : Token} {c : Char} (h : t.isCharacter c = true) :
    t.kind ≠ .error := by
  intro hk
  simp [isCharacter,hk] at h

theorem not_error_of_isOperator {t : Token} {s : String} (h : t.isOperator s = true) :
    t.kind ≠ .error := by
  intro hk
  simp [isOperator,hk] at h

theorem not_error_of_isKeyword {t : Token} {s : String} (h : t.isKeyword s = true) :
    t.kind ≠ .error := by
  intro hk
  simp [isKeyword,hk] at h

theorem not_error_of_isName {t : Token} (h : t.isName = true) : t.kind ≠ .error := by
  intro hk
  simp [isName,hk] at h

theorem isCharacter_unique {t : Token} {c d : Char} (h : t.isCharacter c = true) (hne : c ≠ d) :
    t.isCharacter d = false := by
  simp only [isCharacter,Bool.and_eq_true,beq_iff_eq,Bool.and_eq_false_iff,beq_eq_false_iff_ne] at h ⊢
  right
  rw [h.2]
  intro he
  exact hne (String.singleton_inj.mp he)

end Token
end Wiring.Script
