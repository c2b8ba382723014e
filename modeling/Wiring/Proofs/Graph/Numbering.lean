import Mathlib
import Wiring.Graph.MapBinding
import Wiring.Proofs.Value.Appending

/-!
# The numbers of unnamed elements

An element that is bound without a key gets the integer after the largest integer key of its map,
which is free unless that key is the last integer there is. An array of the same keys appends under
that integer as well, but never under a negative one: where all integer keys lie below minus one,
the map goes on from the largest of them and the array from zero.
-/
namespace Wiring

namespace MapBinding

/-- The integers after the integer keys of a map, in the order of its rows. -/
def afterKeys (keys : List ArrayKey) : List Int64 :=
  keys.filterMap fun
    | .int i => some (indexAfter i)
    | .text _ => none

theorem nextIndex_eq (m : MapBinding) :
    m.nextIndex = ((afterKeys (m.elements.map Prod.fst)).foldl larger none).getD 0 := by
  rw [nextIndex,afterKeys,List.filterMap_map]
  rfl

theorem max_foldl_larger (numbers : List Int64) (best : Option Int64) :
    max 0 ((numbers.foldl larger best).getD 0).toInt =
      numbers.foldl (fun n i => max n i.toInt) (max 0 (best.getD 0).toInt) := by
  induction numbers generalizing best with
  | nil => rfl
  | cons i rest ih =>
    have hstep : max 0 ((larger best i).getD 0).toInt = max (max 0 (best.getD 0).toInt) i.toInt := by
      have hzero : (0 : Int64).toInt = 0 := rfl
      cases best with
      | none =>
        rw [larger,Option.getD_some,Option.getD_none,hzero,max_self]
      | some b =>
        rw [larger]
        split
        next hlt =>
          have hlt' := Int64.lt_iff_toInt_lt.mp hlt
          rw [Option.getD_some,Option.getD_some]
          omega
        next hle =>
          have hle' : ¬b.toInt < i.toInt := fun hlt => hle (Int64.lt_iff_toInt_lt.mpr hlt)
          rw [Option.getD_some]
          omega
    rw [List.foldl_cons,List.foldl_cons,ih,hstep]

theorem foldl_afterKeys (keys : List ArrayKey) (n : Int) :
    (afterKeys keys).foldl (fun n i => max n i.toInt) n = keys.foldl Keyed.behind n := by
  induction keys generalizing n with
  | nil => rfl
  | cons key rest ih =>
    cases key with
    | int i =>
      have hkeys : afterKeys (.int i :: rest) = indexAfter i :: afterKeys rest := rfl
      rw [hkeys,List.foldl_cons,List.foldl_cons,ih,Keyed.toInt_indexAfter]
      rfl
    | text s => exact ih n

/-- The index is the one behind all integer keys, if that is not negative. -/
theorem max_nextIndex (m : MapBinding) :
    max 0 m.nextIndex.toInt = (m.elements.map Prod.fst).foldl Keyed.behind 0 := by
  rw [nextIndex_eq,max_foldl_larger,foldl_afterKeys]
  rfl

theorem le_foldl_larger {numbers : List Int64} {best : Option Int64} {i : Int64}
    (h : best = some i ∨ i ∈ numbers) : i ≤ (numbers.foldl larger best).getD 0 := by
  induction numbers generalizing best i with
  | nil =>
    obtain rfl := h.resolve_right List.not_mem_nil
    exact Int64.le_refl i
  | cons j rest ih =>
    rw [List.foldl_cons]
    rcases h with rfl | hmem
    · rw [larger]
      split
      next hlt => exact Int64.le_trans (Int64.le_of_lt hlt) (ih (.inl rfl))
      next => exact ih (.inl rfl)
    · rcases List.mem_cons.mp hmem with rfl | hmem
      · cases best with
        | none => exact ih (.inl rfl)
        | some b =>
          rw [larger]
          split
          next => exact ih (.inl rfl)
          next hle => exact Int64.le_trans (Int64.not_lt.mp hle) (ih (.inl rfl))
      · exact ih (.inr hmem)

/-- The index is free, unless it is the largest integer. -/
theorem nextIndex_free {m : MapBinding} (h : m.nextIndex ≠ Int64.maxValue) :
    .int m.nextIndex ∉ m.elements.map Prod.fst := by
  intro hmem
  have hafter : indexAfter m.nextIndex ∈ afterKeys (m.elements.map Prod.fst) :=
    List.mem_filterMap.mpr ⟨_,hmem,rfl⟩
  have hle : indexAfter m.nextIndex ≤ m.nextIndex := by
    have hle : indexAfter m.nextIndex ≤
        ((afterKeys (m.elements.map Prod.fst)).foldl larger none).getD 0 :=
      le_foldl_larger (.inr hafter)
    rwa [← nextIndex_eq] at hle
  have hle' := Int64.le_iff_toInt_le.mp hle
  rw [Keyed.toInt_indexAfter] at hle'
  have hlt := m.nextIndex.toInt_lt
  have hmax : Int64.maxValue.toInt = 2 ^ 63 - 1 := rfl
  have hne : m.nextIndex.toInt ≠ 2 ^ 63 - 1 := fun he => h (Int64.toInt_inj.mp (he.trans hmax.symm))
  omega

/-- The map of an interface after elements have been stored under some keys, one after another. -/
def ofKeys (interface : String) (keys : List ArrayKey) : MapBinding :=
  keys.foldl (fun m key => m.insert key (elementKey interface key)) empty

theorem keys_ofKeys {α : Type} (interface : String) (rows : List (ArrayKey × α)) :
    (ofKeys interface (rows.map Prod.fst)).elements.map Prod.fst =
      (Keyed.ofEntries rows).entries.map Prod.fst := by
  have hfold : ∀ (rows : List (ArrayKey × α)) (m : MapBinding) (a : Wiring.Keyed α),
      m.elements.map Prod.fst = a.entries.map Prod.fst →
      ((rows.map Prod.fst).foldl (fun m key => m.insert key (elementKey interface key))
        m).elements.map Prod.fst =
        (rows.foldl (fun a e => a.insert e.1 e.2) a).entries.map Prod.fst := by
    intro rows
    induction rows with
    | nil => exact fun _ _ h => h
    | cons row rest ih =>
      intro m a h
      rw [List.map_cons,List.foldl_cons,List.foldl_cons]
      refine ih _ _ ?_
      rw [Keyed.insert_eq]
      exact Table.keys_put_congr h _ _ _
  exact hfold rows empty Keyed.empty rfl

/-- A map and an array that the same keys were stored in, in the same order, go on with the same
integer as long as the one of the map is not negative; if it is, the array goes on with zero. -/
theorem next_eq_max_nextIndex {α : Type} (interface : String) (rows : List (ArrayKey × α)) :
    (Keyed.ofEntries rows).next.toInt =
        max 0 (ofKeys interface (rows.map Prod.fst)).nextIndex.toInt ∧
      ((Keyed.ofEntries rows).next = (ofKeys interface (rows.map Prod.fst)).nextIndex ↔
        0 ≤ (ofKeys interface (rows.map Prod.fst)).nextIndex.toInt) := by
  have hmax : (Keyed.ofEntries rows).next.toInt =
      max 0 (ofKeys interface (rows.map Prod.fst)).nextIndex.toInt := by
    rw [max_nextIndex,keys_ofKeys,← Keyed.WellFormed.toInt_next (Keyed.wellFormed_ofEntries rows)]
  refine ⟨hmax,fun h => ?_,fun h => Int64.toInt_inj.mp ?_⟩
  · rw [← h,hmax]
    exact le_max_left _ _
  · rw [hmax]
    exact max_eq_right h

/-- Below minus one, the map and the array go on with different integers. -/
example : (ofKeys "Wheel" [.int (-5)]).nextIndex = -4 ∧
    (Keyed.ofEntries [(ArrayKey.int (-5),())]).next = 0 := by decide

end MapBinding
end Wiring
