import Wiring.Compile.Weave

/-!
# Preparing a graph

Before a graph is compiled or run as a whole, its null objects become classes of their
own, its pointcuts are woven in, and the injector and the script directory are bound. A
binding of the injector that a module made itself is kept; the script directory is always
the one in use.
-/
namespace Wiring.Prepare

/-- The generated null class of an interface, saved, registered and planned. -/
def nullObject (dir interface : String) : Work (Plan Value) := do
  let generated ← Classes.nullObject interface
  Work.onFiles (Files.write (Classes.classPath dir generated.name) generated.toJson.pretty)
  Work.modifyRegistry (·.register generated.toClass)
  Plan.ofClass generated.name

/-- The keys bound to null objects, with their interfaces. -/
def nullObjectsOf (g : Graph) : List (Key × String) :=
  g.bindings.filterMap fun b =>
    match b.2 with
    | .nullObject interface => some (b.1, interface)
    | _ => none

def nullObjects (dir : String) (g : Graph) : Work Graph :=
  (nullObjectsOf g).foldlM (fun g n => do
    return g.add n.1 (.construction (← nullObject dir n.2))) g

def bindInjector (g : Graph) : Graph :=
  let key := Key.any Key.injectorInterface
  if g.has key then g else g.add key (.literal (.injector none))

/-- The graph as it is compiled. -/
def graph (dir : String) (g : Graph) : Work Graph := do
  let g ← nullObjects dir g
  let (g, failure) ← Weave.graph g
  match failure with
  | some f => throw f
  | none => return (bindInjector g).add Key.scriptDir (.literal (.text dir))

end Wiring.Prepare
