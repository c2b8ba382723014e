import Wiring.Graph.Container
import Wiring.Value.Json

/-!
# The JSON form of binding graphs

A graph of trees is saved with its bindings, pointcuts and maps in order. It has no JSON
form if one of its values has none. When it is read, pointcuts, maps, the interceptors of
a plan and the set of an argument may be left out. What belongs to a binding is kept until
its kind is known.
-/
namespace Wiring

open Json (Slot)

namespace Parameter

def toJson (p : Parameter) : Json :=
  .record [("class", .text p.className), ("method", .text p.method), ("parameter", .text p.name)]

def ofJson? (j : Json) : Option Parameter := do
  let [className, method, name] ← j.slots ["class", "method", "parameter"] | none
  return { className := ← className.required Json.asText
           method := ← method.required Json.asText
           name := ← name.required Json.asText }

end Parameter

def Key.ofJson? (j : Json) : Option Key := j.asText.map Key.mk

/-- A tree that may be missing; nothing is written as null. -/
def optionToJson? : Option Tree → Option Json
  | some tree => tree.toJson?
  | none => some .null

namespace Argument

def toJson? (a : Argument Tree) : Option Json := do
  return .record
    [("key", .text a.key.text), ("parameter", a.parameter.toJson),
     ("default", ← optionToJson? a.fallback), ("qualifier", ← optionToJson? a.qualifier),
     ("set", Json.ofOption .text a.set)]

def ofJson? (j : Json) : Option (Argument Tree) := do
  let [key, parameter, fallback, qualifier, set] ←
    j.slots ["key", "parameter", "default", "qualifier", "set"] | none
  return { key := ← key.required Key.ofJson?
           parameter := ← parameter.required Parameter.ofJson?
           fallback := ← fallback.optional (Tree.ofJson? .kept)
           qualifier := ← qualifier.optional (Tree.ofJson? .kept)
           set := ← match set with
             | .beyond => some none
             | set => set.optional Json.asText }

end Argument

namespace SetterCall

def toJson? (s : SetterCall Tree) : Option Json := do
  return .record
    [("method", .text s.method), ("arguments", .list (← s.arguments.mapM Argument.toJson?)),
     ("is_optional", .bool s.optional)]

def ofJson? (j : Json) : Option (SetterCall Tree) := do
  let [method, arguments, isOptional] ← j.slots ["method", "arguments", "is_optional"] | none
  return { method := ← method.required Json.asText
           arguments := ← arguments.required (Json.asList Argument.ofJson?)
           optional := ← isOptional.required Json.asBool }

end SetterCall

namespace Plan

/-- The fields of a plan: the construction itself, the hook, the scope and the advice. -/
def fields? (p : Plan Tree) : Option (List (String × Json)) := do
  let construction : Json := .record
    [("class", .text p.className), ("arguments", .list (← p.arguments.mapM Argument.toJson?)),
     ("setters", .list (← p.setters.mapM SetterCall.toJson?))]
  return [("new_instance", construction), ("post_construct", Json.ofOption .text p.postConstruct),
    ("is_singleton", .bool p.shared),
    ("bindings", .record (p.advice.map fun a => (a.1, Json.texts a.2)))]

def fieldNames : List String := ["new_instance", "post_construct", "is_singleton", "bindings"]

def ofSlots? : List Slot → Option (Plan Tree)
  | [construction, postConstruct, shared, advice] => do
      let [className, arguments, setters] ←
        construction.required (Json.slots ["class", "arguments", "setters"]) | none
      return { className := ← className.required Json.asText
               arguments := ← arguments.required (Json.asList Argument.ofJson?)
               setters := ← setters.required (Json.asList SetterCall.ofJson?)
               postConstruct := ← postConstruct.optional Json.asText
               shared := ← shared.required Json.asBool
               advice := ← advice.defaulted (Json.asTable (Json.asList Json.asText)) [] }
  | _ => none

def ofJson? (j : Json) : Option (Plan Tree) := do ofSlots? (← j.slots fieldNames)

end Plan

namespace Binding

/-- A kind and the fields that belong to it. -/
def kinded (kind : String) (fields : List (String × Json)) : Json :=
  .record (("kind", .text kind) :: fields)

def toJson? : Binding Tree → Option Json
  | literal value => do return kinded "instance" [("value", ← value.toJson?)]
  | construction plan => do return kinded "class" (← plan.fields?)
  | provider plan shared context => do
      return kinded "provider"
        [("dependency", .record (← plan.fields?)), ("is_singleton", .bool shared),
         ("context", Json.ofOption .text context)]
  | nullObject interface => some (kinded "null_object" [("interface", .text interface)])

/-- What is left of a record without its kind: the other fields, or the rest of a list. -/
def withoutKind : Json → Option (String × Json)
  | .record fields =>
      match Json.valuesAt fields "kind" with
      | [.text kind] => some (kind, .record (fields.filter fun f => f.1 != "kind"))
      | _ => none
  | .list (.text kind :: items) => some (kind, .list items)
  | _ => none

def ofJson? (j : Json) : Option (Binding Tree) := do
  let (kind, content) ← withoutKind j
  guard content.isWhole
  match kind with
  | "instance" =>
      let [value] ← content.slots ["value"] | none
      return literal (← value.required (Tree.ofJson? .kept))
  | "class" => return construction (← Plan.ofJson? content)
  | "provider" =>
      let [plan, shared, context] ←
        content.slots ["dependency", "is_singleton", "context"] | none
      return provider (← plan.required Plan.ofJson?) (← shared.required Json.asBool)
        (← context.optional Json.asText)
  | "null_object" =>
      let [interface] ← content.slots ["interface"] | none
      return nullObject (← interface.required Json.asText)
  | _ => none

end Binding

namespace Matcher

def toJson : Matcher → Json
  | any => .record [("type", .text "any")]
  | subclassesOf target => Tree.tagged "subclasses_of" (.text target)
  | startsWith start => Tree.tagged "starts_with" (.text start)
  | named name => Tree.tagged "named" (.text name)

/-- The forms of matchers, in the order of their numbers. -/
def typeNames : List String := ["any", "subclasses_of", "starts_with", "named"]

def ofJson? (j : Json) : Option Matcher := do
  let ⟨type, content, _⟩ ← j.variant .reading typeNames
  match type with
  | "any" =>
      match content with
      | .given .null => some any
      | .absent => some any
      | _ => none
  | "subclasses_of" => (content.required Json.asText).map subclassesOf
  | "starts_with" => (content.required Json.asText).map startsWith
  | "named" => (content.required Json.asText).map named
  | _ => none

end Matcher

namespace Pointcut

def toJson (p : Pointcut) : Json :=
  .record [("class_matcher", p.classes.toJson), ("method_matcher", p.methods.toJson),
    ("interceptors", Json.texts p.interceptors)]

def ofJson? (j : Json) : Option Pointcut := do
  let [classes, methods, interceptors] ←
    j.slots ["class_matcher", "method_matcher", "interceptors"] | none
  return { classes := ← classes.required Matcher.ofJson?
           methods := ← methods.required Matcher.ofJson?
           interceptors := ← interceptors.required (Json.asList Json.asText) }

end Pointcut

namespace MapBinding

def toJson (m : MapBinding) : Json :=
  .record [("elements", .list (m.elements.map fun e => .list [e.1.toJson, .text e.2.text]))]

/-- The elements are taken as they are written. -/
def ofJson? (j : Json) : Option MapBinding := do
  let [elements] ← j.slots ["elements"] | none
  return ⟨← elements.required (Json.asList (Tree.pair? ArrayKey.ofJson? Key.ofJson?))⟩

end MapBinding

namespace Container

def toJson? (c : Container Tree) : Option Json := do
  let bindings ← c.bindings.mapM fun b => do return (b.1.text, ← b.2.toJson?)
  return .record
    [("bindings", .record bindings), ("pointcuts", .list (c.pointcuts.map Pointcut.toJson)),
     ("multi_bindings", .record (c.maps.map fun m => (m.1, m.2.toJson)))]

def ofJson? (j : Json) : Option (Container Tree) := do
  let [bindings, pointcuts, maps] ← j.slots ["bindings", "pointcuts", "multi_bindings"] | none
  let bindings ← bindings.required (Json.asTable Binding.ofJson?)
  return { bindings := bindings.map fun b => (⟨b.1⟩, b.2)
           pointcuts := ← pointcuts.defaulted (Json.asList Pointcut.ofJson?) []
           maps := ← maps.defaulted (Json.asTable MapBinding.ofJson?) [] }

/-- The graph written out of the heap. -/
def unfold (h : Heap) (c : Container Value) : Container Tree :=
  Id.run (c.mapM fun v => pure (h.unfold v))

/-- The graph with fresh values in the heap. -/
def build (c : Container Tree) (h : Heap) : Container Value × Heap :=
  (c.mapM (m := StateM Heap) fun tree => modifyGet (tree.build none)).run h

end Container
end Wiring
