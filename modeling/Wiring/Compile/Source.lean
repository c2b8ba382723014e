import Wiring.Failure
import Wiring.Script.Syntax
import Wiring.Text.Base64
import Wiring.Value.Tree

/-!
# Values as source

The expression that makes a value again when it runs: arrays are written out, with keys
if they are not lists; an object is restored from its properties, a native from its
bytes, and a native without bytes from its source. A native with neither has no source.
-/
namespace Wiring

open Script (Expr)

namespace Tree

mutual

def toExpr : Tree → Except Failure Expr
  | null => .ok (.literal .null)
  | bool b => .ok (.literal (.bool b))
  | int i => .ok (.literal (.int i))
  | float x => .ok (.literal (.float x))
  | text s => .ok (.text s)
  | array ⟨entries, _⟩ => do
      let items ← entriesToExpr entries
      return if Keyed.isListFrom 0 entries then .list (items.map Prod.snd) else .keyed items
  | object className properties => do
      let entries ← propertiesToExpr properties
      return .callFunction "restore" [.text className, .keyed entries]
  | blob typeName bytes =>
      .ok (.callFunction "unserialize" [.text typeName, .text (Base64.encode bytes)])
  | foreign typeName none => .error (.invalidInstance typeName)
  | foreign typeName (some source) => do return .construct typeName [← toExpr source]
  | injector => .ok (.callFunction "injector" [])

def entriesToExpr : List (ArrayKey × Tree) → Except Failure (List (ArrayKey × Expr))
  | [] => .ok []
  | (key, tree) :: rest => do
      let e ← toExpr tree
      let es ← entriesToExpr rest
      return (key, e) :: es

/-- The properties as entries under their names. -/
def propertiesToExpr : List (String × Tree) → Except Failure (List (ArrayKey × Expr))
  | [] => .ok []
  | (name, tree) :: rest => do
      let e ← toExpr tree
      let es ← propertiesToExpr rest
      return (.text name, e) :: es

end

end Tree

/-- The source of a value of the heap. -/
def Heap.source (h : Heap) (value : Value) : Except Failure Expr := (h.unfold value).toExpr

end Wiring
