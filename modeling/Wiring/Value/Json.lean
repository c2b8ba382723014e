import Wiring.Json.Decode
import Wiring.Text.Base64
import Wiring.Value.Tree

/-!
# The JSON form of values

Every value is an object of a type and a content; null and injectors have no content.
Entries and properties are lists of pairs, so their order is kept. A native is saved as
its bytes; one without bytes has no JSON form. What is read back is a tree whose
handles belong to no injector yet.
-/
namespace Wiring

namespace ArrayKey

def toJson : ArrayKey → Json
  | int i => .int i.toInt
  | text s => .text s

def ofJson? : Json → Option ArrayKey
  | .text s => some (.text s)
  | j => j.asInt64.map .int

end ArrayKey

namespace Tree

/-- A type and its content. -/
def tagged (type : String) (content : Json) : Json :=
  .record [("type", .text type), ("value", content)]

mutual

def toJson? : Tree → Option Json
  | null => some (.record [("type", .text "null")])
  | bool b => some (tagged "bool" (.bool b))
  | int i => some (tagged "int" (.int i.toInt))
  | float x => some (tagged "float" (.float x))
  | text s => some (tagged "string" (.text s))
  | array ⟨entries, _⟩ => (entriesToJson? entries).map fun items => tagged "array" (.list items)
  | object className properties =>
      (propertiesToJson? properties).map fun items =>
        tagged "object" (.record [("class", .text className), ("properties", .list items)])
  | blob typeName bytes =>
      some (tagged "native"
        (.record [("type_name", .text typeName), ("bytes", .text (Base64.encode bytes))]))
  | foreign _ _ => none
  | injector => some (.record [("type", .text "injector")])

def entriesToJson? : List (ArrayKey × Tree) → Option (List Json)
  | [] => some []
  | (key, tree) :: rest => do
      let item ← toJson? tree
      let items ← entriesToJson? rest
      return .list [key.toJson, item] :: items

def propertiesToJson? : List (String × Tree) → Option (List Json)
  | [] => some []
  | (name, tree) :: rest => do
      let item ← toJson? tree
      let items ← propertiesToJson? rest
      return .list [.text name, item] :: items

end

/-- A pair written as a list of two. -/
def pair? {κ α : Type} (key : Json → Option κ) (value : Json → Option α) : Json → Option (κ × α)
  | .list [k, v] => do return (← key k, ← value v)
  | _ => none

/-- The content of a type without content. -/
def noContent (slot : Json.Slot) (tree : Tree) : Option Tree :=
  match slot with
  | .given .null => some tree
  | .given _ => none
  | .absent => some tree
  | .beyond => none

/-- The types of values, in the order of their numbers. -/
def typeNames : List String :=
  ["null", "bool", "int", "float", "string", "array", "object", "native", "injector"]

/-- The tree of one level, given how the levels below are read. -/
def ofJsonWith (inner : Json.Timing → Json → Option Tree) (timing : Json.Timing) (j : Json) :
    Option Tree := do
  let ⟨type, content, timing⟩ ← j.variant timing typeNames
  match type with
  | "null" => noContent content .null
  | "bool" => (content.required Json.asBool).map .bool
  | "int" => (content.required Json.asInt64).map .int
  | "float" => (content.required Json.asBinary64).map .float
  | "string" => (content.required Json.asText).map .text
  | "array" =>
      let entries ← content.required (Json.asList (pair? ArrayKey.ofJson? (inner timing)))
      return .array (.ofEntries entries)
  | "object" =>
      let [className, properties] ← content.required (Json.fieldSlots ["class", "properties"]) | none
      let className ← className.required Json.asText
      let properties ← properties.required (Json.asList (pair? Json.asText (inner timing)))
      return .object className (Table.ofRows properties)
  | "native" =>
      let [typeName, bytes] ← content.required (Json.fieldSlots ["type_name", "bytes"]) | none
      let typeName ← typeName.required Json.asText
      let bytes ← bytes.required Json.asText
      return .blob typeName (← Base64.decode? bytes)
  | "injector" => noContent content .injector
  | _ => none

/-- The tree of a value nested at most so deep. -/
def ofJsonTo : Nat → Json.Timing → Json → Option Tree
  | 0, _, _ => none
  | depth + 1, timing, j => ofJsonWith (ofJsonTo depth) timing j

/-- Texts nest containers at most `Json.depthLimit` deep, so this reads all of them. -/
def ofJson? (timing : Json.Timing) (j : Json) : Option Tree :=
  ofJsonTo Json.depthLimit timing j

end Tree
end Wiring
