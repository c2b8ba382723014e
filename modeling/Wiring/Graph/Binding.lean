import Wiring.Graph.Key
import Wiring.Table

/-!
# Bindings

A binding says how the instance of a key comes about: it is a literal value, an object of
a class made by a plan, what a provider made by a plan hands out, or an object all of
whose methods do nothing. Bindings are kept over any type of values: over values of the
heap in a graph that runs, over trees in one that is saved.
-/
namespace Wiring

/-- One argument of a constructor or setter. -/
structure Argument (ν : Type) where
  key : Key
  parameter : Parameter
  /-- Stands in where the key cannot be resolved. -/
  fallback : Option ν
  /-- What a provider of the argument may read at its injection point. -/
  qualifier : Option ν
  /-- The interface whose map is supplied in place of the key. -/
  set : Option String
  deriving Repr, Inhabited

structure SetterCall (ν : Type) where
  method : String
  arguments : List (Argument ν)
  /-- An optional call is left out if an argument cannot be resolved. -/
  optional : Bool
  deriving Repr, Inhabited

/-- How to make an object of a class. -/
structure Plan (ν : Type) where
  className : String
  arguments : List (Argument ν)
  setters : List (SetterCall ν)
  postConstruct : Option String
  /-- One instance is shared by all who ask. -/
  shared : Bool
  /-- The interceptors of each method, filled in by weaving. -/
  advice : Table String (List String)
  deriving Repr, Inhabited

inductive Binding (ν : Type) where
  | literal (value : ν)
  | construction (plan : Plan ν)
  | provider (plan : Plan ν) (shared : Bool) (context : Option String)
  | nullObject (interface : String)
  deriving Repr, Inhabited

variable {ν μ : Type}

namespace Argument

def mapM {m : Type → Type} [Monad m] (f : ν → m μ) (a : Argument ν) : m (Argument μ) := do
  let fallback ← a.fallback.mapM f
  let qualifier ← a.qualifier.mapM f
  return { key := a.key, parameter := a.parameter, fallback, qualifier, set := a.set }

end Argument

namespace Plan

/-- The arguments of the constructor and of all setters, in order. -/
def allArguments (p : Plan ν) : List (Argument ν) :=
  p.arguments ++ p.setters.flatMap SetterCall.arguments

def mapM {m : Type → Type} [Monad m] (f : ν → m μ) (p : Plan ν) : m (Plan μ) := do
  let arguments ← p.arguments.mapM (Argument.mapM f)
  let setters ← p.setters.mapM fun s => do
    return { method := s.method, arguments := ← s.arguments.mapM (Argument.mapM f),
             optional := s.optional : SetterCall μ }
  return { className := p.className, arguments, setters, postConstruct := p.postConstruct,
           shared := p.shared, advice := p.advice }

end Plan

namespace Binding

def kind : Binding ν → String
  | literal _ => "instance"
  | construction _ => "class"
  | provider _ _ _ => "provider"
  | nullObject _ => "null_object"

def isShared : Binding ν → Bool
  | literal _ => false
  | construction plan => plan.shared
  | provider _ shared _ => shared
  | nullObject _ => false

/-- The binding with its instance shared; literals and null objects stay as they are. -/
def share : Binding ν → Binding ν
  | literal value => literal value
  | construction plan => construction { plan with shared := true }
  | provider plan _ context => provider plan true context
  | nullObject interface => nullObject interface

def mapM {m : Type → Type} [Monad m] (f : ν → m μ) : Binding ν → m (Binding μ)
  | literal value => literal <$> f value
  | construction plan => construction <$> plan.mapM f
  | provider plan shared context => (provider · shared context) <$> plan.mapM f
  | nullObject interface => pure (nullObject interface)

end Binding
end Wiring
