import Mathlib
import Wiring.Proofs.Value.Keyed

/-!
# Appending to an array

The next index of an array is never negative and lies behind all of its integer keys; where the
largest integer is a key, it is that one. So to append a value adds one entry at the end and leaves
the others as they are, as long as the largest integer is not a key. If it is, then its value is
replaced.
-/
namespace Wiring

namespace Keyed

variable {α : Type} {a : Keyed α}

/-- Made from the empty array by storing values under keys and by appending. -/
inductive Made : Keyed α → Prop where
  | empty : Made empty
  | insert {a : Keyed α} (h : Made a) (key : ArrayKey) (value : α) : Made (a.insert key value)
  | push {a : Keyed α} (h : Made a) (value : α) : Made (a.push value)

theorem Made.wellFormed (h : a.Made) : a.WellFormed := by
  induction h with
  | empty => exact wellFormed_empty
  | insert _ key value ih => exact wellFormed_insert ih key value
  | push _ value ih => exact wellFormed_insert ih _ value

/-- The next index, told by the largest one so far, after another key is stored. -/
def behind (next : Int) : ArrayKey → Int
  | .int i => max next (min (i.toInt + 1) (2 ^ 63 - 1))
  | .text _ => next

theorem toInt_foldl_nextAfter (keys : List ArrayKey) (next : Int64) :
    (keys.foldl nextAfter next).toInt = keys.foldl behind next.toInt := by
  induction keys generalizing next with
  | nil => rfl
  | cons key rest ih =>
    have hkey : (nextAfter next key).toInt = behind next.toInt key := by
      cases key with
      | int i => exact toInt_nextAfter next i
      | text s => rfl
    rw [List.foldl_cons,List.foldl_cons,ih,hkey]

theorem le_foldl_behind (keys : List ArrayKey) (next : Int) : next ≤ keys.foldl behind next := by
  induction keys generalizing next with
  | nil => exact le_refl _
  | cons key rest ih =>
    refine le_trans ?_ (ih _)
    cases key with
    | int i => exact le_max_left _ _
    | text s => exact le_refl _

theorem behind_le_foldl {keys : List ArrayKey} {i : Int64} (h : .int i ∈ keys) (next : Int) :
    min (i.toInt + 1) (2 ^ 63 - 1) ≤ keys.foldl behind next := by
  induction keys generalizing next with
  | nil => cases h
  | cons key rest ih =>
    rcases List.mem_cons.mp h with rfl | h
    · exact le_trans (le_max_right _ _) (le_foldl_behind rest _)
    · exact ih h _

theorem WellFormed.toInt_next (h : a.WellFormed) :
    a.next.toInt = (a.entries.map Prod.fst).foldl behind 0 := by
  have hnext := congrArg Keyed.next h
  rw [ofEntries_eq] at hnext
  rw [← hnext,toInt_foldl_nextAfter]
  rfl

/-- The next index is free, unless it is the largest integer. -/
theorem WellFormed.next_free (h : a.WellFormed) (hnext : a.next ≠ Int64.maxValue) :
    .int a.next ∉ a.entries.map Prod.fst := by
  intro hmem
  have hle := behind_le_foldl hmem 0
  rw [← h.toInt_next] at hle
  have hlt := a.next.toInt_lt
  have hmax : Int64.maxValue.toInt = 2 ^ 63 - 1 := rfl
  have hne : a.next.toInt ≠ 2 ^ 63 - 1 := fun he => hnext (Int64.toInt_inj.mp (he.trans hmax.symm))
  omega

/-- Behind the largest integer there is no other, so it is the next index itself. -/
theorem WellFormed.next_eq_max (h : a.WellFormed)
    (hmem : .int Int64.maxValue ∈ a.entries.map Prod.fst) : a.next = Int64.maxValue := by
  have hle := behind_le_foldl hmem 0
  rw [← h.toInt_next] at hle
  have hlt := a.next.toInt_lt
  have hmax : Int64.maxValue.toInt = 2 ^ 63 - 1 := rfl
  refine Int64.toInt_inj.mp ?_
  omega

/-- To append a value to an array adds one entry, at the end and under an integer that was not a
key, and leaves all that was there as it is, unless the largest integer is a key. In that case no
entry is added: the value under the largest integer is replaced. -/
theorem push_appends (h : a.Made) (value : α) :
    (.int Int64.maxValue ∉ a.entries.map Prod.fst → .int a.next ∉ a.entries.map Prod.fst ∧
      (a.push value).entries = a.entries ++ [(.int a.next,value)]) ∧
    (.int Int64.maxValue ∈ a.entries.map Prod.fst →
      (a.push value).entries = Table.put a.entries (.int Int64.maxValue) value ∧
        (a.push value).entries.map Prod.fst = a.entries.map Prod.fst) := by
  constructor
  · intro hlast
    have hfree : .int a.next ∉ a.entries.map Prod.fst := by
      by_cases hnext : a.next = Int64.maxValue
      · rw [hnext]
        exact hlast
      · exact h.wellFormed.next_free hnext
    exact ⟨hfree,Table.put_new hfree⟩
  · intro hlast
    have hnext := h.wellFormed.next_eq_max hlast
    have hput : (a.push value).entries = Table.put a.entries (.int Int64.maxValue) value := by
      rw [push,insert_eq,hnext]
    refine ⟨hput,?_⟩
    rw [hput]
    exact Table.keys_put value hlast

/-- Of two values appended at the end of the range, the second one takes the place of the first. -/
example : ((((empty : Keyed Nat).insert (.int (Int64.maxValue - 1)) 0).push 1).push 2).entries =
    [(.int (Int64.maxValue - 1),0),(.int Int64.maxValue,2)] := by decide

end Keyed
end Wiring
