import Wiring.Classes.Basic
import Wiring.Json.Decode

/-!
# Generated classes

A null object of an interface belongs to a generated class: it implements the interface
with methods that do nothing. The description of a generated class is saved beside the
compiled units, from where a later run can load it.
-/
namespace Wiring

structure GeneratedClass where
  name : String
  interfaces : List String
  nullMethods : List String
  deriving DecidableEq, Repr, Inhabited

namespace GeneratedClass

def toJson (g : GeneratedClass) : Json :=
  .record [("name", .text g.name), ("interfaces", Json.texts g.interfaces),
    ("null_methods", Json.texts g.nullMethods)]

def ofJson? (j : Json) : Option GeneratedClass := do
  let [name, interfaces, nullMethods] ← j.slots ["name", "interfaces", "null_methods"] | none
  return { name := ← name.required Json.asText
           interfaces := ← interfaces.required (Json.asList Json.asText)
           nullMethods := ← nullMethods.required (Json.asList Json.asText) }

/-- The class described, every method of which gives null. -/
def toClass (g : GeneratedClass) : ClassDecl :=
  { name := g.name
    interfaces := g.interfaces
    methods := Table.ofRows (g.nullMethods.map fun m => (m, [])) }

end GeneratedClass
end Wiring
