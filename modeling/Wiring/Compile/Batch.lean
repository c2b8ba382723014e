import Wiring.Compile.Prepare
import Wiring.Compile.Save

/-!
# Compiling a whole graph

The units of all keys are compiled in the order of the keys, and the log tells of each.
The first key whose binding does not compile ends the batch; the units before it stay.
-/
namespace Wiring

/-- A prepared graph and the directory it is compiled into. -/
structure Batch where
  dir : String
  graph : Graph
  deriving Repr, Inhabited

namespace Batch

/-- Prepares a graph for a directory, which is made. -/
def make (dir : String) (g : Graph) : Work Batch := do
  Work.onFiles (Files.ensureDirectory dir)
  return ⟨dir, ← Prepare.graph dir g⟩

def ofModule (dir : String) (statements : List ModuleStatement) : Work Batch := do
  make dir (← Graph.ofModule statements)

def log (b : Batch) (text : String) : Work Unit :=
  Work.onFiles (Files.append (Layout.logPath b.dir) text)

/-- Compiles and saves the unit of one bound key. -/
def compileKey (b : Batch) (key : Key) (binding : Binding Value) : Work Unit := do
  match ← Work.attempt (Compile.unitOf b.graph none binding) with
  | .ok code => Save.unit b.dir key code
  | .error f =>
      b.log ("\nError: " ++ key.text ++ "\nUnbound: " ++ f.message ++ "\n")
      throw f

/-- Compiles keys one after another, up to the first that fails. -/
def compileKeys (b : Batch) : List Key → Work Unit
  | [] => return
  | key :: rest => do
      b.log ("Compiled: " ++ key.text ++ "\n")
      match b.graph.get? key with
      | some binding => compileKey b key binding
      | none => pure ()
      compileKeys b rest

/-- Compiles every unit. -/
def compileUnits (b : Batch) : Work Unit := do
  b.log ""
  compileKeys b b.graph.sortedKeys

def savePointcuts (b : Batch) : Work Unit := Save.pointcuts b.dir b.graph.pointcuts

/-- Compiles every unit, then saves the pointcuts and, if that can be done, the graph. -/
def compile (b : Batch) : Work Unit := do
  b.compileUnits
  b.savePointcuts
  let _ ← Work.attempt (Save.graph b.dir b.graph)

end Batch
end Wiring
