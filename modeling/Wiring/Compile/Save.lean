import Wiring.Compile.Layout
import Wiring.Compile.Unit
import Wiring.Graph.Json

/-!
# Saving compiled units and graphs

A unit is saved with its scope and the qualifiers of its parameters, in this order. The
graph is saved once: one that is there already stays.
-/
namespace Wiring.Save

/-- The JSON text of a value of the heap. -/
def valueText (value : Value) : Work String := do
  let tree := (← Work.heap).unfold value
  return (← Work.orElse .malformed tree.toJson?).compact

def qualifier (dir : String) (q : Qualifier) : Work Unit := do
  let text ← valueText q.2
  Work.onFiles (Files.write (Layout.qualifierPath dir q.1) text)

def scopeToJson (shared : Bool) : Json := .record [("is_singleton", .bool shared)]

def scopeOfJson? (j : Json) : Option Bool := do
  let [shared] ← j.slots ["is_singleton"] | none
  shared.required Json.asBool

def unit (dir : String) (key : Key) (code : Code) : Work Unit := do
  Work.onFiles (Files.write (Layout.unitPath dir key) code.source)
  Work.onFiles (Files.write (Layout.metaPath dir key) (scopeToJson code.shared).compact)
  code.qualifiers.forM (qualifier dir)

/-- The scope saved for a key, if any was. -/
def scope? (dir : String) (key : Key) : Work (Option Bool) := do
  match ← Work.onFiles (Files.readIfExists (Layout.metaPath dir key)) with
  | none => return none
  | some text => return some (← Work.decode text scopeOfJson?)

/-- The qualifier saved for a parameter, if any was. -/
def qualifier? (dir : String) (p : Parameter) : Work (Option Value) := do
  match ← Work.onFiles (Files.readIfExists (Layout.qualifierPath dir p)) with
  | none => return none
  | some text => return some (← Work.build none (← Work.decode text (Tree.ofJson? .reading)))

def pointcuts (dir : String) (ps : List Pointcut) : Work Unit :=
  Work.onFiles (Files.write (Layout.pointcutsPath dir) (Json.list (ps.map Pointcut.toJson)).compact)

def pointcuts? (dir : String) : Work (Option (List Pointcut)) := do
  match ← Work.onFiles (Files.readIfExists (Layout.pointcutsPath dir)) with
  | none => return none
  | some text => return some (← Work.decode text (Json.asList Pointcut.ofJson?))

/-- The JSON text of a graph. -/
def graphText (g : Graph) : Work String := do
  let tree := g.unfold (← Work.heap)
  return (← Work.orElse .malformed tree.toJson?).compact

/-- Saves the graph unless one is there; says whether it did. -/
def graph (dir : String) (g : Graph) : Work Bool := do
  if (← get).files.exists? (Layout.modulePath dir) then return false
  else
    let text ← graphText g
    Work.onFiles (Files.write (Layout.modulePath dir) text)
    return true

/-- The graph that a text holds, with fresh values. -/
def readGraph (text : String) : Work Graph := do
  let tree ← Work.decode text Container.ofJson?
  Work.onHeap tree.build

/-- The graph saved in a directory, if any was. -/
def graph? (dir : String) : Work (Option Graph) := do
  match ← Work.onFiles (Files.readIfExists (Layout.modulePath dir)) with
  | none => return none
  | some text => return some (← readGraph text)

end Wiring.Save
