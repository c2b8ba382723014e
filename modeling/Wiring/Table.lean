/-!
# Tables in insertion order

A table is a list of rows. Looking a key up finds its first row; storing under a
present key replaces the value in place, and a new key goes to the end. So the
order of the rows is the order in which the keys were first stored, which is the
order every listing and every saved file of this library shows.
-/
namespace Wiring

universe u v w

/-- Rows in the order in which their keys were first stored. -/
abbrev Table (κ : Type u) (α : Type v) := List (κ × α)

namespace Table

variable {κ : Type u} {α : Type v} {β : Type w} [DecidableEq κ]

def find? : Table κ α → κ → Option α
  | [], _ => none
  | (k, a) :: rest, key => if k = key then some a else find? rest key

def has (t : Table κ α) (key : κ) : Bool := (t.find? key).isSome

/-- A present key keeps its place and takes the new value; a new key goes last. -/
def put : Table κ α → κ → α → Table κ α
  | [], key, value => [(key, value)]
  | (k, a) :: rest, key, value =>
      if k = key then (k, value) :: rest else (k, a) :: put rest key value

/-- Stores the row only if its key is new. -/
def putNew (t : Table κ α) (key : κ) (value : α) : Table κ α :=
  if t.has key then t else t ++ [(key, value)]

def erase : Table κ α → κ → Table κ α
  | [], _ => []
  | (k, a) :: rest, key => if k = key then erase rest key else (k, a) :: erase rest key

omit [DecidableEq κ] in
def keys (t : Table κ α) : List κ := t.map Prod.fst

/-- The rows stored one after another into an empty table. -/
def ofRows (rows : List (κ × α)) : Table κ α :=
  rows.foldl (fun t r => t.put r.1 r.2) []

/-- Every row has a row of the same key and a related value on the other side, and
the two tables are equally long; the order of the rows does not matter. -/
def agree (same : α → β → Bool) (s : Table κ α) (t : Table κ β) : Bool :=
  s.length == t.length &&
    s.all fun (k, a) =>
      match t.find? k with
      | some b => same a b
      | none => false

@[simp] theorem find?_nil (key : κ) : find? ([] : Table κ α) key = none := rfl

theorem find?_put_self (t : Table κ α) (key : κ) (value : α) :
    (t.put key value).find? key = some value := by
  induction t with
  | nil => simp [put, find?]
  | cons row rest ih =>
      by_cases h : row.1 = key
      · simp [put, find?, h]
      · simp [put, find?, h, ih]

theorem find?_put_of_ne (t : Table κ α) {key other : κ} (value : α) (h : other ≠ key) :
    (t.put key value).find? other = t.find? other := by
  induction t with
  | nil => simp [put, find?, Ne.symm h]
  | cons row rest ih =>
      by_cases hk : row.1 = key
      · simp [put, find?, hk, Ne.symm h]
      · simp [put, find?, hk, ih]

end Table
end Wiring
