import Wiring.Graph.Module

/-!
# Weaving

Every method of a class that a pointcut selects gets the interceptors of the pointcut,
each once and in the order of the pointcuts.
-/
namespace Wiring.Weave

/-- The interceptors added to what is recorded for the methods, one after another. -/
def record (advice : Table String (List String)) (methods interceptors : List String) :
    Table String (List String) :=
  methods.foldl (fun advice method =>
    advice.put method (Classes.appendNew ((advice.find? method).getD []) interceptors)) advice

/-- What one pointcut adds to a plan whose class has these methods. -/
def apply (methods : List String) (plan : Plan Value) (p : Pointcut) : Work (Plan Value) := do
  if ← Classes.selects p.classes plan.className then
    let selected := methods.filter p.methods.matchesMethod
    return { plan with advice := record plan.advice selected p.interceptors }
  else return plan

def plan (pointcuts : List Pointcut) (plan : Plan Value) : Work (Plan Value) := do
  let methods ← Classes.methodNames plan.className
  pointcuts.foldlM (apply methods) plan

/-- The bindings with the plans of all classes woven, in order. A failure says how far
weaving came: the bindings before it are woven. -/
def bindings (pointcuts : List Pointcut) :
    Table Key (Binding Value) → Work (Table Key (Binding Value) × Option Failure)
  | [] => return ([], none)
  | (key, .construction p) :: rest => do
      match ← Work.attempt (plan pointcuts p) with
      | .ok p =>
          let (rest, failure) ← bindings pointcuts rest
          return ((key, .construction p) :: rest, failure)
      | .error failure => return ((key, .construction p) :: rest, some failure)
  | row :: rest => do
      let (rest, failure) ← bindings pointcuts rest
      return (row :: rest, failure)

/-- The graph woven as far as it goes, with the failure that ended it, if one did. -/
def graph (g : Graph) : Work (Graph × Option Failure) := do
  if g.pointcuts.isEmpty then return (g, none)
  else
    let (woven, failure) ← bindings g.pointcuts g.bindings
    return ({ g with bindings := woven }, failure)

end Wiring.Weave
