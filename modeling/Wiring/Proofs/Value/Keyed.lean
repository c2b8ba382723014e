import Mathlib
import Wiring.Proofs.Table
import Wiring.Value.Keyed

/-!
# Arrays made by storing entries

The next index of an array depends on the keys alone, so an array is known by its keys and
its values.
-/
namespace Wiring

namespace Keyed

variable {α β : Type}

/-- The next index after a key is stored. -/
def nextAfter (next : Int64) : ArrayKey → Int64
  | .int i => if next ≤ i then indexAfter i else next
  | .text _ => next

theorem insert_eq (a : Keyed α) (key : ArrayKey) (value : α) :
    a.insert key value = ⟨Table.put a.entries key value,nextAfter a.next key⟩ := by
  cases key with
  | int i => rfl
  | text s => rfl

theorem foldl_insert (entries : List (ArrayKey × α)) (a : Keyed α) :
    entries.foldl (fun a e => a.insert e.1 e.2) a =
      ⟨entries.foldl (fun t e => Table.put t e.1 e.2) a.entries,
        (entries.map Prod.fst).foldl nextAfter a.next⟩ := by
  induction entries generalizing a with
  | nil => rfl
  | cons e rest ih =>
    rw [List.foldl_cons,ih,insert_eq]
    rfl

theorem ofEntries_eq (entries : List (ArrayKey × α)) :
    ofEntries entries = ⟨Table.ofRows entries,(entries.map Prod.fst).foldl nextAfter 0⟩ :=
  foldl_insert entries empty

/-- The array is what storing its entries one after another gives. -/
def WellFormed (a : Keyed α) : Prop := ofEntries a.entries = a

theorem WellFormed.nodup {a : Keyed α} (h : a.WellFormed) : (a.entries.map Prod.fst).Nodup := by
  rw [← h,ofEntries_eq]
  exact Table.nodup_ofRows _

/-- Arrays with the same keys in the same order are well formed together. -/
theorem WellFormed.of_keys {entries : List (ArrayKey × α)} {others : List (ArrayKey × β)}
    {next : Int64} (h : (Keyed.mk entries next).WellFormed)
    (hk : others.map Prod.fst = entries.map Prod.fst) : ofEntries others = ⟨others,next⟩ := by
  have hnext := congrArg Keyed.next h
  have hnodup := h.nodup
  rw [ofEntries_eq] at hnext
  rw [ofEntries_eq,hk,Table.ofRows_nodup (by rw [hk]; exact hnodup)]
  exact congrArg (Keyed.mk others) hnext

theorem toInt_indexAfter (i : Int64) :
    (indexAfter i).toInt = min (i.toInt + 1) (2 ^ 63 - 1) := by
  have hlow := i.le_toInt
  have hhigh := i.toInt_lt
  have hmax : Int64.maxValue.toInt = 2 ^ 63 - 1 := rfl
  unfold indexAfter
  by_cases h : i = Int64.maxValue
  · rw [if_pos h,h,hmax]
    rfl
  · have hne : i.toInt ≠ 2 ^ 63 - 1 := by
      rw [← hmax]
      exact fun e => h (Int64.toInt_inj.mp e)
    have hone : (1 : Int64).toInt = 1 := rfl
    rw [if_neg h,Int64.toInt_add,hone,Int.bmod_eq_of_le (by omega) (by omega)]
    omega

/-- An integer key moves the next index behind itself, if that is possible. -/
theorem toInt_nextAfter (next i : Int64) :
    (nextAfter next (.int i)).toInt = max next.toInt (min (i.toInt + 1) (2 ^ 63 - 1)) := by
  have hnext := next.toInt_lt
  have heq : nextAfter next (.int i) = if next ≤ i then indexAfter i else next := rfl
  rw [heq]
  by_cases h : next ≤ i
  · have hle := Int64.le_iff_toInt_le.mp h
    rw [if_pos h,toInt_indexAfter]
    omega
  · have hlt : i.toInt < next.toInt := by
      rw [Int64.le_iff_toInt_le] at h
      omega
    rw [if_neg h]
    omega

/-- Storing under a present key does not move the next index. -/
theorem nextAfter_of_mem {keys : List ArrayKey} {key : ArrayKey} (h : key ∈ keys) (next : Int64) :
    nextAfter (keys.foldl nextAfter next) key = keys.foldl nextAfter next := by
  cases key with
  | text s => rfl
  | int i =>
    have hsettled : ∀ (keys : List ArrayKey) (next : Int64),
        min (i.toInt + 1) (2 ^ 63 - 1) ≤ next.toInt →
        min (i.toInt + 1) (2 ^ 63 - 1) ≤ (keys.foldl nextAfter next).toInt := by
      intro keys
      induction keys with
      | nil => exact fun _ h => h
      | cons k rest ih =>
        intro next hn
        refine ih _ ?_
        cases k with
        | text s => exact hn
        | int j =>
          rw [toInt_nextAfter]
          omega
    have hbound : min (i.toInt + 1) (2 ^ 63 - 1) ≤ (keys.foldl nextAfter next).toInt := by
      induction keys generalizing next with
      | nil => cases h
      | cons k rest ih =>
        rcases List.mem_cons.mp h with rfl | hm
        · refine hsettled rest _ ?_
          rw [toInt_nextAfter]
          omega
        · exact ih _ hm
    refine Int64.toInt_inj.mp ?_
    rw [toInt_nextAfter]
    omega

theorem wellFormed_empty : (empty : Keyed α).WellFormed := rfl

/-- Every array that is made by storing values is well formed. -/
theorem wellFormed_insert {a : Keyed α} (h : a.WellFormed) (key : ArrayKey) (value : α) :
    (a.insert key value).WellFormed := by
  have hnodup := Table.nodup_put key value h.nodup
  have hnext : a.next = (a.entries.map Prod.fst).foldl nextAfter 0 := by
    have hn := congrArg Keyed.next h
    rw [ofEntries_eq] at hn
    exact hn.symm
  unfold WellFormed
  rw [insert_eq,ofEntries_eq,Table.ofRows_nodup hnodup]
  congr 1
  by_cases hk : key ∈ a.entries.map Prod.fst
  · rw [Table.keys_put value hk,hnext,nextAfter_of_mem hk]
  · rw [Table.put_new hk,List.map_append,List.foldl_append,← hnext]
    rfl

theorem wellFormed_ofEntries (entries : List (ArrayKey × α)) : (ofEntries entries).WellFormed := by
  have hfold : ∀ (entries : List (ArrayKey × α)) (a : Keyed α), a.WellFormed →
      (entries.foldl (fun a e => a.insert e.1 e.2) a).WellFormed := by
    intro entries
    induction entries with
    | nil => exact fun _ h => h
    | cons e rest ih => exact fun a h => ih _ (wellFormed_insert h e.1 e.2)
  exact hfold entries empty wellFormed_empty

/-- Whether entries are a list shows in the keys alone. -/
theorem isListFrom_keys {entries : List (ArrayKey × α)} {others : List (ArrayKey × β)}
    (h : others.map Prod.fst = entries.map Prod.fst) (i : Nat) :
    isListFrom i entries = isListFrom i others := by
  induction entries generalizing others i with
  | nil =>
    obtain rfl := List.map_eq_nil_iff.mp h
    rfl
  | cons e rest ih =>
    obtain ⟨d,more,rfl,hkey,hrest⟩ := List.map_eq_cons_iff.mp h
    obtain ⟨key,value⟩ := e
    obtain ⟨other,v⟩ := d
    obtain rfl : other = key := hkey
    cases other with
    | int k => simp only [isListFrom,ih hrest]
    | text s => rfl

/-- The values of a list are stored under its keys, from an index on. -/
theorem foldl_push {entries : List (ArrayKey × α)} {i : Nat} {a : Keyed α}
    (h : isListFrom i entries = true) (ha : entries ≠ [] → a.next.toInt = i) :
    (entries.map Prod.snd).foldl push a = entries.foldl (fun a e => a.insert e.1 e.2) a := by
  induction entries generalizing i a with
  | nil => rfl
  | cons e rest ih =>
    obtain ⟨key,value⟩ := e
    cases key with
    | text s => cases h
    | int k =>
      simp only [isListFrom,Bool.and_eq_true,beq_iff_eq] at h
      obtain ⟨hk,hrest⟩ := h
      have hnext : a.next = k := by
        refine Int64.toInt_inj.mp ?_
        rw [ha (List.cons_ne_nil _ _),hk]
      rw [List.map_cons,List.foldl_cons,List.foldl_cons]
      have hpush : a.push value = a.insert (.int k) value := by rw [push,hnext]
      rw [hpush]
      refine ih hrest fun hne => ?_
      -- Another entry follows, so the index is not the last one.
      obtain ⟨d,more,rfl⟩ := List.exists_cons_of_ne_nil hne
      obtain ⟨dk,dv⟩ := d
      cases dk with
      | text s => cases hrest
      | int j =>
        simp only [isListFrom,Bool.and_eq_true,beq_iff_eq] at hrest
        have hj := j.toInt_lt
        rw [insert_eq,toInt_nextAfter,hnext,hk]
        omega

/-- A list is stored by storing its values. -/
theorem ofValues_of_isList {entries : List (ArrayKey × α)} (h : isListFrom 0 entries = true) :
    ofValues (entries.map Prod.snd) = ofEntries entries :=
  foldl_push h fun _ => rfl

end Keyed
end Wiring
