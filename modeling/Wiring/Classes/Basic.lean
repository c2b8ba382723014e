import Wiring.Graph.Pointcut
import Wiring.Value.Tree

/-!
# Classes

A class is declared ahead of time: what it extends and implements, which arguments its
constructor and setters take, and what its methods do. A method body is a list of
commands on the object itself; it may make objects, read the injection point it was
given, and ask an injector it was given. Without a command that yields, it gives null.
-/
namespace Wiring

/-- Which part of an injection point is read. -/
inductive PointPart where
  | className
  | method
  | parameter
  | qualifier
  deriving DecidableEq, Repr, Inhabited

/-- What a method body works out. -/
inductive Term where
  | fresh (tree : Tree)
  | argument (index : Nat)
  | property (name : String)
  | self
  | list (items : List Term)
  | object (className : String) (properties : List (String × Term))
  | point (of : Term) (part : PointPart)
  | ask (injector : Term) (interface name : String)
  deriving Repr, Inhabited

inductive Command where
  | set (property : String) (value : Term)
  | yield (value : Term)
  | fail (message : String)
  deriving Repr, Inhabited

abbrev Body := List Command

structure ParameterDecl where
  name : String
  type : Option String
  /-- The binding name to ask for. -/
  named : Option String
  fallback : Option Value
  qualifier : Option Value
  set : Option String
  deriving Repr, Inhabited

structure SetterDecl where
  method : String
  parameters : List ParameterDecl
  optional : Bool
  deriving Repr, Inhabited

inductive ClassKind where
  | concrete
  | abstract
  | interface
  deriving DecidableEq, Repr, Inhabited

structure ClassDecl where
  name : String
  kind : ClassKind := .concrete
  parent : Option String := none
  interfaces : List String := []
  shared : Bool := false
  parameters : List ParameterDecl := []
  setters : List SetterDecl := []
  postConstruct : Option String := none
  /-- The method names an interface declares. -/
  declared : List String := []
  methods : Table String Body := []
  deriving Repr, Inhabited

namespace ClassDecl

/-- The method that runs after the arguments of the constructor have been stored. -/
def constructorName : String := "__construct"

def isConcrete (c : ClassDecl) : Bool := c.kind == .concrete

def setter? (c : ClassDecl) (method : String) : Option SetterDecl :=
  c.setters.find? fun s => s.method == method

end ClassDecl

/-- What makes a native of one type from its bytes. -/
inductive Decoder where
  /-- The same bytes under another type. -/
  | rename (typeName : String)
  | fail (message : String)
  deriving DecidableEq, Repr, Inhabited

/-- The classes known so far, the decoders of native types, and the directories whose
generated classes may be loaded. -/
structure Registry where
  classes : Table String ClassDecl := []
  decoders : Table String Decoder := []
  scriptDirs : List String := []
  deriving Repr, Inhabited

namespace Registry

def register (r : Registry) (c : ClassDecl) : Registry :=
  { r with classes := r.classes.put c.name c }

def registerDecoder (r : Registry) (typeName : String) (d : Decoder) : Registry :=
  { r with decoders := r.decoders.put typeName d }

end Registry
end Wiring
