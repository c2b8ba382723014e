import Wiring.Compile.Source
import Wiring.Graph.Module
import Wiring.Script.Printer

/-!
# Compiling a binding into a unit

A unit makes the instance of one key: it constructs the object with its arguments, calls
the setters and the hook, records the interceptors, and returns the instance with its
scope. An argument is a literal, the injection point, a map of elements, a pull of its
key in the scope of the binding, or its default where nothing is known of the key. An
optional setter with an argument that cannot be resolved is left out as a whole.
-/
namespace Wiring

open Script (Expr Statement)

/-- What a provider's parameter says about itself. -/
abbrev Qualifier := Parameter × Value

/-- A compiled unit with its scope and the qualifiers to keep for it. -/
structure Code where
  statements : List Statement
  shared : Bool
  qualifiers : List Qualifier
  deriving Repr, Inhabited

def Code.source (c : Code) : String := Script.printUnit c.statements

/-- Tells whether the instances of a key outside the graph are shared. -/
abbrev ScopeOf := Key → Work Bool

namespace Compile

/-- The namespace that units of classes and providers are in. -/
def unitNamespace : String := "di\\compiled"

def instanceName : String := "instance"

/-- The variable that holds the instance while it is being made. -/
def instanceVar : Expr := .var instanceName

/-- The source of a value, as work. -/
def sourceOf (value : Value) : Work Expr := do
  match (← Work.heap).source value with
  | .ok e => return e
  | .error f => throw f

/-- The function that pulls in a scope. -/
def pullName (shared : Bool) : String := if shared then "singleton" else "prototype"

def pull (shared : Bool) (key : Key) : Expr := .callFunction (pullName shared) [.text key.text]

/-- A pull that tells the provider which parameter it supplies. -/
def pullAt (shared : Bool) (key : Key) (p : Parameter) : Expr :=
  .callFunction (pullName shared)
    [.text key.text, .list [.text p.className, .text p.method, .text p.name]]

/-- The element of a map: a literal, or a pull of its key. -/
def element (g : Graph) (key : Key) : Work Expr :=
  match g.get? key with
  | some (.literal value) => sourceOf value
  | some binding => return pull binding.isShared key
  | none => throw (.unbound key.text)

/-- The map of an interface, its elements in the order in which they were bound. -/
def mapOf (g : Graph) (interface : String) : Work Expr :=
  match g.map? interface with
  | none => throw (.setNotFound interface)
  | some m => do
      let entries ← m.elements.mapM fun e => do return (e.1, ← element g e.2)
      return .keyed entries

/-- The scope of a class that could be compiled when it is asked for. -/
def inferredScope (key : Key) : Work (Option Bool) := do
  if !key.isAny || key.interface == "" then return none
  else
    match ← Classes.find? key.interface with
    | some c => return if c.isConcrete then some c.shared else none
    | none => return none

/-- The scope of a key outside the graph. Where nothing was compiled for it yet, it is
inferred from its class; any other failure to tell it is final. -/
def scopeOutside (scope : Option ScopeOf) (key : Key) : Work (Option Bool) :=
  match scope with
  | none => inferredScope key
  | some scopeOf => do
      match ← Work.attempt (scopeOf key) with
      | .ok shared => return some shared
      | .error (.notCompiled _) => inferredScope key
      | .error f => throw f

/-- An argument whose key the graph does not bind. -/
def outside (scope : Option ScopeOf) (a : Argument Value) : Work Expr := do
  match ← scopeOutside scope a.key with
  | some shared => return pull shared a.key
  | none =>
      match a.fallback with
      | some value => sourceOf value
      | none => throw (.unbound a.key.text)

/-- The expression that supplies an argument, with the qualifier to keep for it. -/
def argument (g : Graph) (scope : Option ScopeOf) (a : Argument Value) :
    Work (Expr × List Qualifier) := do
  if a.key.interface == Key.pointInterface then
    return (.callFunction "injection_point" [], [])
  else
    match a.set with
    | some interface => return (← mapOf g interface, [])
    | none =>
        match g.get? a.key with
        | some (.literal value) => return (← sourceOf value, [])
        | some (.provider _ shared _) =>
            let kept := a.qualifier.toList.map fun q => (a.parameter, q)
            return (pullAt shared a.key a.parameter, kept)
        | some binding => return (pull binding.isShared a.key, [])
        | none => return (← outside scope a, [])

/-- The arguments of one call, from left to right. -/
def arguments (g : Graph) (scope : Option ScopeOf) :
    List (Argument Value) → Work (List Expr × List Qualifier)
  | [] => return ([], [])
  | a :: rest => do
      let (e, kept) ← argument g scope a
      let (es, more) ← arguments g scope rest
      return (e :: es, kept ++ more)

/-- The call of a setter, unless it is optional and cannot be made. -/
def setter (g : Graph) (scope : Option ScopeOf) (s : SetterCall Value) :
    Work (List Statement × List Qualifier) := do
  match ← Work.attempt (arguments g scope s.arguments) with
  | .ok (es, kept) => return ([.expr (.callMethod instanceVar s.method es)], kept)
  | .error f => if f.isUnbound && s.optional then return ([], []) else throw f

def setters (g : Graph) (scope : Option ScopeOf) :
    List (SetterCall Value) → Work (List Statement × List Qualifier)
  | [] => return ([], [])
  | s :: rest => do
      let (call, kept) ← setter g scope s
      let (calls, more) ← setters g scope rest
      return (call ++ calls, kept ++ more)

/-- The construction, the setters that can be called, and the hook. -/
def factory (g : Graph) (scope : Option ScopeOf) (plan : Plan Value) :
    Work (List Statement × List Qualifier) := do
  let (es, kept) ← arguments g scope plan.arguments
  let (calls, more) ← setters g scope plan.setters
  let hook := plan.postConstruct.toList.map fun method =>
    Statement.expr (.callMethod instanceVar method [])
  return (.expr (.assign instanceName (.construct plan.className es)) :: calls ++ hook, kept ++ more)

/-- The statement that records the interceptors of each method, shared instances all. -/
def advice (plan : Plan Value) : List Statement :=
  if plan.advice.isEmpty then []
  else
    let entries := plan.advice.map fun a =>
      (ArrayKey.text a.1, Expr.list (a.2.map fun interceptor => pull true (.any interceptor)))
    [.expr (.setProp instanceVar "bindings" (.keyed entries))]

/-- The unit of a binding. -/
def unitOf (g : Graph) (scope : Option ScopeOf) : Binding Value → Work Code
  | .literal value => do
      return ⟨[.yieldPair (← sourceOf value) false], false, []⟩
  | .construction plan => do
      let (made, kept) ← factory g scope plan
      return ⟨.namespaced unitNamespace :: made ++ advice plan ++
        [.yieldPair instanceVar plan.shared], plan.shared, kept⟩
  | .provider plan shared context => do
      let (made, kept) ← factory g scope plan
      let told := context.toList.map fun text =>
        Statement.expr (.callMethod instanceVar "setContext" [.text text])
      return ⟨.namespaced unitNamespace :: made ++ told ++
        [.yieldPair (.callMethod instanceVar "get" []) shared], shared, kept⟩
  | .nullObject _ => throw (.unsupportedBinding "null_object")

end Compile
end Wiring
