import Wiring.Classes.Basic
import Wiring.Files
import Wiring.Json.Reader

/-!
# Where compiling takes place

Building and compiling a graph reads and changes three things: the heap of values, the
registry of classes and the files. Work on them may fail; what was done before a failure
stays done.
-/
namespace Wiring

structure Site where
  heap : Heap := {}
  registry : Registry := {}
  files : Files := {}
  deriving Repr, Inhabited

abbrev Work := ExceptT Failure (StateM Site)

namespace Work

variable {α : Type}

def onFiles (w : FileWork α) : Work α := fun site =>
  let (answer, files) := w.run site.files
  (answer, { site with files })

def onHeap (f : Heap → α × Heap) : Work α := fun site =>
  let (answer, heap) := f site.heap
  (.ok answer, { site with heap })

def heap : Work Heap := do return (← get).heap

def registry : Work Registry := do return (← get).registry

def modifyRegistry (f : Registry → Registry) : Work Unit :=
  modify fun site => { site with registry := f site.registry }

/-- The answer or the failure, as a value. -/
def attempt (w : Work α) : Work (Except Failure α) := ExceptT.lift w.run

/-- The value of an option, or a failure. -/
def orElse (failure : Failure) : Option α → Work α
  | some a => return a
  | none => throw failure

/-- The tree that a text holds, decoded; a text that is not of this form is malformed. -/
def decode (text : String) (decode : Json → Option α) : Work α :=
  orElse .malformed ((Json.read? text).bind decode)

/-- A fresh value of this shape. -/
def build (handle : Handle) (tree : Tree) : Work Value := onHeap (tree.build handle)

end Work
end Wiring
