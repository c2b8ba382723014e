import Wiring.Table

/-!
# Ordered arrays with integer and text keys

Entries keep the order in which their keys were first stored. Appending uses `next`,
the integer after the largest integer key stored so far; at the end of the range it
stays where it is.
-/
namespace Wiring

inductive ArrayKey where
  | int (i : Int64)
  | text (s : String)
  deriving DecidableEq, Repr, Inhabited

/-- The key as a text; an integer and a text may look alike. -/
def ArrayKey.label : ArrayKey → String
  | int i => toString i.toInt
  | text s => s

/-- The integer after this one, or the same at the end of the range. -/
def indexAfter (i : Int64) : Int64 := if i = Int64.maxValue then i else i + 1

structure Keyed (α : Type) where
  entries : List (ArrayKey × α)
  next : Int64
  deriving Repr, Inhabited

namespace Keyed

variable {α β : Type}

def empty : Keyed α := ⟨[], 0⟩

def insert (a : Keyed α) (key : ArrayKey) (value : α) : Keyed α :=
  { entries := Table.put a.entries key value
    next :=
      match key with
      | .int i => if a.next ≤ i then indexAfter i else a.next
      | .text _ => a.next }

def push (a : Keyed α) (value : α) : Keyed α := a.insert (.int a.next) value

def get? (a : Keyed α) (key : ArrayKey) : Option α := Table.find? a.entries key

def values (a : Keyed α) : List α := a.entries.map Prod.snd

/-- The values under the keys 0, 1, 2 and so on. -/
def ofValues (values : List α) : Keyed α := values.foldl push empty

/-- The entries stored one after another. -/
def ofEntries (entries : List (ArrayKey × α)) : Keyed α :=
  entries.foldl (fun a e => a.insert e.1 e.2) empty

/-- The keys are 0, 1, 2 and so on, in order. -/
def isListFrom (i : Nat) : List (ArrayKey × α) → Bool
  | [] => true
  | (.int k, _) :: rest => k.toInt == i && isListFrom (i + 1) rest
  | (.text _, _) :: _ => false

def isList (a : Keyed α) : Bool := isListFrom 0 a.entries

/-- Every value replaced under the same keys, one action for each entry, in their order. -/
def mapM {m : Type → Type} [Monad m] (f : α → m β) (a : Keyed α) : m (Keyed β) := do
  let entries ← a.entries.mapM fun e => do return (e.1, ← f e.2)
  return { entries, next := a.next }

end Keyed
end Wiring
