import Wiring.Number.Binary64
import Wiring.Value.Keyed

/-!
# Syntax trees of script units

A unit is a list of statements. Calls go to a function of the surroundings, named by a
variable, or to a method, named by a property; new objects name their class. Equality of
trees is equality of their parts, floating point numbers compared as numbers.
-/
namespace Wiring.Script

inductive Literal where
  | null
  | bool (b : Bool)
  | int (i : Int64)
  | float (x : Binary64)
  | text (s : String)
  deriving DecidableEq, Repr

inductive Expr where
  | var (name : String)
  | assign (name : String) (value : Expr)
  | prop (receiver : Expr) (name : String)
  | setProp (receiver : Expr) (name : String) (value : Expr)
  | call (callee : Expr) (arguments : List Expr)
  | new (className : Expr) (arguments : List Expr)
  | literal (value : Literal)
  | list (items : List Expr)
  | keyed (entries : List (ArrayKey × Expr))
  | classRef (name : String)
  | tuple (parts : List Expr)
  deriving Repr, Inhabited

inductive Statement where
  | namespaced (name : String)
  | expr (e : Expr)
  | yield (e : Expr)
  deriving Repr, Inhabited

namespace Expr

def text (s : String) : Expr := literal (.text s)

/-- A call of a function of the surroundings. -/
def callFunction (name : String) (arguments : List Expr) : Expr := call (var name) arguments

def callMethod (receiver : Expr) (name : String) (arguments : List Expr) : Expr :=
  call (prop receiver name) arguments

def construct (className : String) (arguments : List Expr) : Expr :=
  new (classRef className) arguments

end Expr

/-- Ends a unit with its instance and whether the instance is shared. -/
def Statement.yieldPair (instance_ : Expr) (shared : Bool) : Statement :=
  .yield (.tuple [instance_, .literal (.bool shared)])

def Literal.equal : Literal → Literal → Bool
  | float x, float y => x.equal y
  | a, b => a == b

namespace Expr

mutual

def equal : Expr → Expr → Bool
  | var a, var b => a == b
  | assign a x, assign b y => a == b && equal x y
  | prop x a, prop y b => equal x y && a == b
  | setProp x a v, setProp y b w => equal x y && a == b && equal v w
  | call f as, call g bs => equal f g && equalAll as bs
  | new c as, new d bs => equal c d && equalAll as bs
  | literal a, literal b => a.equal b
  | list as, list bs => equalAll as bs
  | keyed as, keyed bs => equalEntries as bs
  | classRef a, classRef b => a == b
  | tuple as, tuple bs => equalAll as bs
  | _, _ => false

def equalAll : List Expr → List Expr → Bool
  | [], [] => true
  | a :: as, b :: bs => equal a b && equalAll as bs
  | _, _ => false

def equalEntries : List (ArrayKey × Expr) → List (ArrayKey × Expr) → Bool
  | [], [] => true
  | (k, a) :: as, (l, b) :: bs => k == l && equal a b && equalEntries as bs
  | _, _ => false

end

end Expr

namespace Statement

def equal : Statement → Statement → Bool
  | namespaced a, namespaced b => a == b
  | expr a, expr b => a.equal b
  | yield a, yield b => a.equal b
  | _, _ => false

/-- Equality of units, statement by statement. -/
def equalAll : List Statement → List Statement → Bool
  | [], [] => true
  | a :: as, b :: bs => equal a b && equalAll as bs
  | _, _ => false

end Statement
end Wiring.Script
