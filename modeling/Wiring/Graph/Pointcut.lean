/-!
# Pointcuts

A pointcut selects classes and methods by a matcher each and names the interceptors that
go there.
-/
namespace Wiring

inductive Matcher where
  | any
  /-- The class itself and all that extend or implement it; no method. -/
  | subclassesOf (target : String)
  | startsWith (start : String)
  | named (name : String)
  deriving DecidableEq, Repr, Inhabited

structure Pointcut where
  classes : Matcher
  methods : Matcher
  interceptors : List String
  deriving DecidableEq, Repr, Inhabited

def startsWithText (start text : String) : Bool := start.toList.isPrefixOf text.toList

/-- Whether a method of this name is selected. -/
def Matcher.matchesMethod (m : Matcher) (method : String) : Bool :=
  match m with
  | any => true
  | subclassesOf _ => false
  | startsWith start => startsWithText start method
  | named name => method == name

end Wiring
