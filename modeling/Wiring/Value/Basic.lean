import Wiring.Graph.Key
import Wiring.Number.Binary64
import Wiring.Value.Keyed

/-!
# Values and the heap they point into

Scalars and arrays are values by themselves. Objects and natives live in a heap and are
reached through references, so that two values can share one object and see each other's
changes. A reference carries the name of the class or type, which never changes. An
injector is only ever held by a handle; a detached handle belongs to no injector.
-/
namespace Wiring

structure ObjectRef where
  index : Nat
  className : String
  deriving DecidableEq, Repr, Inhabited

structure NativeRef where
  index : Nat
  typeName : String
  deriving DecidableEq, Repr, Inhabited

/-- Injectors are numbered in the order in which they were made. -/
structure InjectorId where
  index : Nat
  deriving DecidableEq, Repr, Inhabited

/-- The injector a handle belongs to, nothing for a detached handle. -/
abbrev Handle := Option InjectorId

inductive Value where
  | null
  | bool (b : Bool)
  | int (i : Int64)
  | float (x : Binary64)
  | text (s : String)
  | array (items : Keyed Value)
  | object (ref : ObjectRef)
  | native (ref : NativeRef)
  | injector (handle : Handle)
  deriving Repr, Inhabited

/-- A value of a type that is not described by classes. -/
inductive Native where
  /-- Only the bytes of the value are known. -/
  | blob (bytes : List UInt8)
  /-- Nothing can be saved of the value, but it may be made again from a source. -/
  | foreign (source : Option Value)
  /-- The parameter that a provider is supplying, with what its qualifier says. -/
  | point (parameter : Parameter) (qualifier : Option Value)
  deriving Repr, Inhabited

/-- Objects as property tables and natives, both by number. -/
structure Heap where
  objects : Array (Table String Value) := #[]
  natives : Array Native := #[]
  deriving Repr, Inhabited

namespace Heap

def properties (h : Heap) (ref : ObjectRef) : Table String Value :=
  h.objects.getD ref.index []

def native? (h : Heap) (ref : NativeRef) : Option Native := h.natives[ref.index]?

def property? (h : Heap) (ref : ObjectRef) (name : String) : Option Value :=
  (h.properties ref).find? name

def setProperty (h : Heap) (ref : ObjectRef) (name : String) (value : Value) : Heap :=
  { h with objects := h.objects.setIfInBounds ref.index ((h.properties ref).put name value) }

def newObject (h : Heap) (className : String) (properties : Table String Value) :
    ObjectRef × Heap :=
  (⟨h.objects.size, className⟩, { h with objects := h.objects.push properties })

def newNative (h : Heap) (typeName : String) (native : Native) : NativeRef × Heap :=
  (⟨h.natives.size, typeName⟩, { h with natives := h.natives.push native })

/-- More than the longest chain of references in a heap without cycles. -/
def depth (h : Heap) : Nat := h.objects.size + h.natives.size + 1

end Heap

namespace Value

/-- The name of an injection point's type. -/
def pointType : String := "InjectionPoint"

def typeName : Value → String
  | null => "null"
  | bool _ => "bool"
  | int _ => "int"
  | float _ => "float"
  | text _ => "string"
  | array _ => "array"
  | object ref => ref.className
  | native ref => ref.typeName
  | injector _ => "injector"

def isNull : Value → Bool
  | null => true
  | _ => false

def asText? : Value → Option String
  | text s => some s
  | _ => none

def asArray? : Value → Option (Keyed Value)
  | array items => some items
  | _ => none

def asObject? : Value → Option ObjectRef
  | object ref => some ref
  | _ => none

def list (values : List Value) : Value := array (.ofValues values)

mutual

/-- Being the same thing: one object, native or injector, the same scalar, or arrays of
the same things under the same keys in the same order. -/
def same : Value → Value → Bool
  | null, null => true
  | bool a, bool b => a == b
  | int a, int b => a == b
  | float a, float b => a.same b
  | text a, text b => a == b
  | array ⟨a, _⟩, array ⟨b, _⟩ => sameEntries a b
  | object a, object b => a == b
  | native a, native b => a == b
  | injector a, injector b => a == b
  | _, _ => false

def sameEntries : List (ArrayKey × Value) → List (ArrayKey × Value) → Bool
  | [], [] => true
  | (k, a) :: as, (l, b) :: bs => k == l && a.same b && sameEntries as bs
  | _, _ => false

end

end Value
end Wiring
