import Wiring.Value.Basic

/-!
# Handles given to an injector

A value that is read back holds handles of no injector. To attach it gives every handle in
it to one: the handles in its arrays, and through references those in the properties of
objects, which change where they are. Natives are left alone. Attaching looks through the
heap as often as the heap has cells, which is enough for every value that does not contain
itself.
-/
namespace Wiring

namespace Value

mutual

/-- A value with its handles replaced, given how an object is attached. -/
def attachWith (ofObject : ObjectRef → Heap → Heap) (handle : Handle) :
    Value → Heap → Value × Heap
  | array ⟨entries, next⟩, h =>
      let (entries, h) := attachEntries ofObject handle entries h
      (array ⟨entries, next⟩, h)
  | object ref, h => (object ref, ofObject ref h)
  | injector _, h => (injector handle, h)
  | null, h => (null, h)
  | bool b, h => (bool b, h)
  | int i, h => (int i, h)
  | float x, h => (float x, h)
  | text s, h => (text s, h)
  | native ref, h => (native ref, h)

def attachEntries (ofObject : ObjectRef → Heap → Heap) (handle : Handle) :
    List (ArrayKey × Value) → Heap → List (ArrayKey × Value) × Heap
  | [], h => ([], h)
  | (key, value) :: rest, h =>
      let (value, h) := attachWith ofObject handle value h
      let (rest, h) := attachEntries ofObject handle rest h
      ((key, value) :: rest, h)

end

end Value

namespace Heap

/-- Rows attached one after another, given how a value is attached. -/
def attachRows {κ : Type} (attach : Value → Heap → Value × Heap) :
    List (κ × Value) → Heap → List (κ × Value) × Heap
  | [], h => ([], h)
  | (key, value) :: rest, h =>
      let (value, h) := attach value h
      let (rest, h) := attachRows attach rest h
      ((key, value) :: rest, h)

/-- The properties of an object attached, given how a value is attached. -/
def attachObject (attach : Value → Heap → Value × Heap) (ref : ObjectRef) (h : Heap) : Heap :=
  let (rows, h) := attachRows attach (h.properties ref) h
  { h with objects := h.objects.setIfInBounds ref.index rows }

/-- Attaches a value, looking through so many references; objects beyond them stay as they
are. -/
def attachTo (handle : Handle) : Nat → Value → Heap → Value × Heap
  | 0 => Value.attachWith (fun _ h => h) handle
  | depth + 1 => Value.attachWith (attachObject (attachTo handle depth)) handle

def attach (h : Heap) (handle : Handle) (value : Value) : Value × Heap :=
  attachTo handle h.depth value h

end Heap
end Wiring
