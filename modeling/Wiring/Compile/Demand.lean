import Wiring.Compile.Prepare
import Wiring.Compile.Save

/-!
# Compiling one key on demand

A key that the graph does not bind can still be compiled if it asks for a concrete class
under any name. The pointcuts are those saved with the first compile.
-/
namespace Wiring.Demand

/-- The plan of a concrete class asked for by its own name. -/
def infer (key : Key) : Work (Plan Value) := do
  let className := key.interface
  match ← Classes.find? className with
  | none => throw (.unboundBecause key.text (.classNotFound className))
  | some c =>
      if c.isConcrete && key.isAny then Plan.ofClass className else throw (.unbound key.text)

/-- The binding to compile for a key: its own, made whole, or an inferred one. -/
def bindingOf (dir : String) (g : Graph) (key : Key) : Work (Binding Value) := do
  match g.get? key with
  | some (.nullObject interface) => return .construction (← Prepare.nullObject dir interface)
  | some binding => return binding
  | none => return .construction (← infer key)

/-- The binding with the saved pointcuts woven in. -/
def weave (dir : String) : Binding Value → Work (Binding Value)
  | .construction plan => do
      match ← Save.pointcuts? dir with
      | some pointcuts => return .construction (← Weave.plan pointcuts plan)
      | none => return .construction plan
  | binding => return binding

def compile (dir : String) (g : Graph) (scope : Option ScopeOf) (key : Key) : Work Unit := do
  let binding ← weave dir (← bindingOf dir g key)
  let code ← Compile.unitOf g scope binding
  Save.unit dir key code

end Wiring.Demand
