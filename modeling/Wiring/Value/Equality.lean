import Wiring.Value.Basic

/-!
# Equality of values

Two values are equal if they have the same structure. The order of entries and properties
does not matter, all injector handles are equal, and NaN equals itself. One object equals
itself before anybody looks into it; two objects are equal if their classes are and their
properties agree. A native equals itself and every native of its type with the same bytes.
-/
namespace Wiring

namespace Value

mutual

/-- Equality of values, given when two objects and two natives are equal. -/
def equalWith (ofObjects : ObjectRef → ObjectRef → Bool) (ofNatives : NativeRef → NativeRef → Bool) :
    Value → Value → Bool
  | null, null => true
  | bool a, bool b => a == b
  | int a, int b => a == b
  | float a, float b => a.same b
  | text a, text b => a == b
  | array ⟨a, _⟩, array ⟨b, _⟩ =>
      a.length == b.length && equalEntriesWith ofObjects ofNatives a b
  | object a, object b => ofObjects a b
  | native a, native b => ofNatives a b
  | injector _, injector _ => true
  | _, _ => false

def equalEntriesWith (ofObjects : ObjectRef → ObjectRef → Bool)
    (ofNatives : NativeRef → NativeRef → Bool) :
    List (ArrayKey × Value) → List (ArrayKey × Value) → Bool
  | [], _ => true
  | (key, a) :: rest, other =>
      (match Table.find? other key with
        | some b => equalWith ofObjects ofNatives a b
        | none => false) && equalEntriesWith ofObjects ofNatives rest other

end

end Value

namespace Heap

def equalNatives (h : Heap) (a b : NativeRef) : Bool :=
  a == b ||
    match h.native? a, h.native? b with
    | some (.blob s), some (.blob t) => a.typeName == b.typeName && s == t
    | _, _ => false

/-- Equality of values, looking into so many objects one within the other; beyond them an
object equals only itself. -/
def equalTo (h : Heap) : Nat → Value → Value → Bool
  | 0 => Value.equalWith (fun a b => a == b) h.equalNatives
  | depth + 1 => Value.equalWith
      (fun a b => a == b || (a.className == b.className &&
        Table.agree (equalTo h depth) (h.properties a) (h.properties b)))
      h.equalNatives

def equal (h : Heap) (a b : Value) : Bool := h.equalTo h.depth a b

end Heap
end Wiring
