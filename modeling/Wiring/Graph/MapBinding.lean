import Wiring.Graph.Key
import Wiring.Value.Keyed

/-!
# Maps of bindings

Several bindings of one interface collected under array keys. Each element is an ordinary
binding of the interface under a name made from its key, so it is compiled and resolved
like any other.
-/
namespace Wiring

structure MapBinding where
  elements : Table ArrayKey Key
  deriving DecidableEq, Repr, Inhabited

namespace MapBinding

def empty : MapBinding := ⟨[]⟩

/-- The binding name of the element under a key. -/
def elementName (key : ArrayKey) : String := "@" ++ key.label

def elementKey (interface : String) (key : ArrayKey) : Key := .of interface (elementName key)

/-- The greater one of two numbers, or the one there is. -/
def larger (best : Option Int64) (i : Int64) : Option Int64 :=
  match best with
  | some b => if b < i then some i else some b
  | none => some i

/-- The integer after the largest integer key, zero if there is none. -/
def nextIndex (m : MapBinding) : Int64 :=
  let after := m.elements.filterMap fun e =>
    match e.1 with
    | .int i => some (indexAfter i)
    | .text _ => none
  (after.foldl larger none).getD 0

def contains (m : MapBinding) (key : ArrayKey) : Bool := Table.has m.elements key

def insert (m : MapBinding) (key : ArrayKey) (element : Key) : MapBinding :=
  ⟨Table.put m.elements key element⟩

/-- The elements of the other map stored on top of these. -/
def override (m other : MapBinding) : MapBinding :=
  other.elements.foldl (fun m e => m.insert e.1 e.2) m

/-- The elements of the other map stored under keys that are free here. -/
def fill (m other : MapBinding) : MapBinding :=
  other.elements.foldl (fun m e => if m.contains e.1 then m else m.insert e.1 e.2) m

end MapBinding
end Wiring
