import Wiring.Graph.Binding
import Wiring.Graph.MapBinding
import Wiring.Graph.Pointcut

/-!
# Binding graphs

A container holds the bindings of all keys in the order in which they were made, the
pointcuts to weave in, and the maps of elements by interface. Two containers are put
together in one of two ways: either the second one wins where both bind a key, or the
first one does.
-/
namespace Wiring

structure Container (ν : Type) where
  bindings : Table Key (Binding ν)
  pointcuts : List Pointcut
  maps : Table String MapBinding
  deriving Repr, Inhabited

namespace Container

variable {ν μ : Type}

def empty : Container ν := ⟨[], [], []⟩

def get? (c : Container ν) (key : Key) : Option (Binding ν) := c.bindings.find? key

def has (c : Container ν) (key : Key) : Bool := c.bindings.has key

def add (c : Container ν) (key : Key) (binding : Binding ν) : Container ν :=
  { c with bindings := c.bindings.put key binding }

/-- The binding of a key, if any, shared. -/
def share (c : Container ν) (key : Key) : Container ν :=
  match c.get? key with
  | some binding => c.add key binding.share
  | none => c

/-- The keys in the order in which they are compiled. -/
def sortedKeys (c : Container ν) : List Key := c.bindings.keys.mergeSort Key.before

def map? (c : Container ν) (interface : String) : Option MapBinding := c.maps.find? interface

/-- The map of an interface, empty if there is none yet. -/
def mapOf (c : Container ν) (interface : String) : MapBinding :=
  (c.map? interface).getD .empty

def setMap (c : Container ν) (interface : String) (m : MapBinding) : Container ν :=
  { c with maps := c.maps.put interface m }

/-- Put together so that the bindings and elements of the second one win. -/
def override (c other : Container ν) : Container ν :=
  { bindings := other.bindings.foldl (fun t b => t.put b.1 b.2) c.bindings
    pointcuts := c.pointcuts ++ other.pointcuts
    maps := other.maps.foldl (fun t m => t.put m.1 (((t.find? m.1).getD .empty).override m.2)) c.maps }

/-- Put together so that the bindings and elements of the first one win. -/
def fill (c other : Container ν) : Container ν :=
  { bindings := other.bindings.foldl (fun t b => t.putNew b.1 b.2) c.bindings
    pointcuts := c.pointcuts ++ other.pointcuts
    maps := other.maps.foldl (fun t m => t.put m.1 (((t.find? m.1).getD .empty).fill m.2)) c.maps }

def mapM {m : Type → Type} [Monad m] (f : ν → m μ) (c : Container ν) : m (Container μ) := do
  let bindings ← c.bindings.mapM fun b => do return (b.1, ← b.2.mapM f)
  return { bindings, pointcuts := c.pointcuts, maps := c.maps }

end Container
end Wiring
