import Wiring.Value.Basic

/-!
# Values unfolded out of the heap

A tree is a value with its objects and natives written out in place of the references.
It is what a value is saved as and built from. Unfolding looks through the heap as often
as the heap has cells, which is enough for every value that does not contain itself. All
injector handles are one tree: which injector they belong to is not part of what a value
is.
-/
namespace Wiring

inductive Tree where
  | null
  | bool (b : Bool)
  | int (i : Int64)
  | float (x : Binary64)
  | text (s : String)
  | array (items : Keyed Tree)
  | object (className : String) (properties : List (String × Tree))
  | blob (typeName : String) (bytes : List UInt8)
  | foreign (typeName : String) (source : Option Tree)
  | injector
  deriving Repr, Inhabited

namespace Value

mutual

/-- The tree of a value, given the trees of its references. -/
def unfoldWith (ofObject : ObjectRef → Tree) (ofNative : NativeRef → Tree) : Value → Tree
  | null => .null
  | bool b => .bool b
  | int i => .int i
  | float x => .float x
  | text s => .text s
  | array ⟨entries, next⟩ => .array ⟨unfoldEntries ofObject ofNative entries, next⟩
  | object ref => ofObject ref
  | native ref => ofNative ref
  | injector _ => .injector

def unfoldEntries (ofObject : ObjectRef → Tree) (ofNative : NativeRef → Tree) :
    List (ArrayKey × Value) → List (ArrayKey × Tree)
  | [] => []
  | (key, value) :: rest =>
      (key, unfoldWith ofObject ofNative value) :: unfoldEntries ofObject ofNative rest

end

end Value

namespace Heap

/-- The tree of a native, given the trees of the values it holds. -/
def unfoldNative (h : Heap) (ofValue : Value → Tree) (ref : NativeRef) : Tree :=
  match h.native? ref with
  | some (.blob bytes) => .blob ref.typeName bytes
  | some (.foreign source) => .foreign ref.typeName (source.map ofValue)
  | some (.point _ _) => .foreign ref.typeName none
  | none => .foreign ref.typeName none

/-- The tree of a value, looking through so many references; beyond them an object shows
no properties and a native no source. -/
def unfoldTo (h : Heap) : Nat → Value → Tree
  | 0 => Value.unfoldWith (fun ref => .object ref.className [])
      (h.unfoldNative fun _ => .null)
  | depth + 1 => Value.unfoldWith
      (fun ref => .object ref.className
        ((h.properties ref).map fun p => (p.1, unfoldTo h depth p.2)))
      (h.unfoldNative (unfoldTo h depth))

def unfold (h : Heap) (value : Value) : Tree := h.unfoldTo h.depth value

end Heap

namespace Tree

mutual

/-- A fresh value of this shape, all of whose handles are the given one. -/
def build (handle : Handle) : Tree → Heap → Value × Heap
  | null, h => (.null, h)
  | bool b, h => (.bool b, h)
  | int i, h => (.int i, h)
  | float x, h => (.float x, h)
  | text s, h => (.text s, h)
  | array ⟨entries, next⟩, h =>
      let (entries, h) := buildEntries handle entries h
      (.array ⟨entries, next⟩, h)
  | object className properties, h =>
      let (properties, h) := buildProperties handle properties h
      let (ref, h) := h.newObject className properties
      (.object ref, h)
  | blob typeName bytes, h =>
      let (ref, h) := h.newNative typeName (.blob bytes)
      (.native ref, h)
  | foreign typeName none, h =>
      let (ref, h) := h.newNative typeName (.foreign none)
      (.native ref, h)
  | foreign typeName (some source), h =>
      let (source, h) := build handle source h
      let (ref, h) := h.newNative typeName (.foreign (some source))
      (.native ref, h)
  | injector, h => (.injector handle, h)

def buildEntries (handle : Handle) :
    List (ArrayKey × Tree) → Heap → List (ArrayKey × Value) × Heap
  | [], h => ([], h)
  | (key, tree) :: rest, h =>
      let (value, h) := build handle tree h
      let (rest, h) := buildEntries handle rest h
      ((key, value) :: rest, h)

def buildProperties (handle : Handle) :
    List (String × Tree) → Heap → List (String × Value) × Heap
  | [], h => ([], h)
  | (name, tree) :: rest, h =>
      let (value, h) := build handle tree h
      let (rest, h) := buildProperties handle rest h
      ((name, value) :: rest, h)

end

end Tree

end Wiring
