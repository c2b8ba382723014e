import Mathlib
import Wiring.Table

/-!
# What tables hold after rows are stored

Storing rows of distinct keys one after another keeps them as they are. What is found under a
key afterwards is the value stored last, or the value stored first where only new keys are
stored.
-/
namespace Wiring

section Duplicates

variable {α : Type} [BEq α] [LawfulBEq α]

theorem eraseDups_concat (as : List α) (a : α) :
    (as ++ [a]).eraseDups = if a ∈ as then as.eraseDups else as.eraseDups ++ [a] := by
  have hsingle : [a].eraseDups = [a] := rfl
  rw [List.eraseDups_append]
  by_cases ha : a ∈ as
  · simp [ha,List.removeAll]
  · simp [ha,List.removeAll,hsingle]

theorem nodup_eraseDups (as : List α) : as.eraseDups.Nodup := by
  induction as using List.reverseRecOn with
  | nil => exact List.nodup_nil
  | append_singleton as a ih =>
    rw [eraseDups_concat]
    split
    next => exact ih
    next ha =>
      rw [← List.concat_eq_append]
      apply ih.concat
      rwa [List.mem_eraseDups]

theorem eraseDups_of_nodup {as : List α} (h : as.Nodup) : as.eraseDups = as := by
  induction as using List.reverseRecOn with
  | nil => rfl
  | append_singleton as a ih =>
    obtain ⟨has,-,hnew⟩ := List.nodup_append.mp h
    have ha : a ∉ as := fun hmem => hnew a hmem a List.mem_cons_self rfl
    rw [eraseDups_concat,if_neg ha,ih has]

theorem length_eraseDups_le (as : List α) : as.eraseDups.length ≤ as.length := by
  induction as using List.reverseRecOn with
  | nil => exact le_refl _
  | append_singleton as a ih =>
    rw [eraseDups_concat,List.length_append,List.length_singleton]
    split
    · omega
    · rw [List.length_append,List.length_singleton]
      omega

theorem length_eraseDups_eq_iff {as : List α} : as.eraseDups.length = as.length ↔ as.Nodup := by
  refine ⟨fun h => ?_,fun h => congrArg List.length (eraseDups_of_nodup h)⟩
  induction as using List.reverseRecOn with
  | nil => exact List.nodup_nil
  | append_singleton as a ih =>
    have hle := length_eraseDups_le as
    rw [eraseDups_concat,List.length_append,List.length_singleton] at h
    by_cases ha : a ∈ as
    · rw [if_pos ha] at h
      omega
    · rw [if_neg ha,List.length_append,List.length_singleton] at h
      rw [← List.concat_eq_append]
      exact (ih (by omega)).concat ha

theorem eraseDups_append_eraseDups (as bs : List α) :
    (as.eraseDups ++ bs.eraseDups).eraseDups = (as ++ bs).eraseDups := by
  induction bs using List.reverseRecOn with
  | nil => rw [List.eraseDups_nil,List.append_nil,List.append_nil,
      eraseDups_of_nodup (nodup_eraseDups as)]
  | append_singleton bs b ih =>
    rw [eraseDups_concat bs b,← List.append_assoc,eraseDups_concat (as ++ bs) b,← ih]
    by_cases hb : b ∈ bs
    · rw [if_pos hb,if_pos (List.mem_append_right as hb)]
    · rw [if_neg hb,← List.append_assoc,eraseDups_concat]
      simp only [List.mem_append,List.mem_eraseDups]

theorem eraseDups_append_left (as bs : List α) :
    (as.eraseDups ++ bs).eraseDups = (as ++ bs).eraseDups := by
  rw [← eraseDups_append_eraseDups,eraseDups_of_nodup (nodup_eraseDups as),
    eraseDups_append_eraseDups]

end Duplicates

namespace Table

variable {κ α : Type} [DecidableEq κ]

theorem put_new {t : Table κ α} {key : κ} {value : α} (h : key ∉ t.map Prod.fst) :
    t.put key value = t ++ [(key,value)] := by
  induction t with
  | nil => rfl
  | cons row rest ih =>
    rw [List.map_cons,List.mem_cons,not_or] at h
    have hne : row.1 ≠ key := fun e => h.1 e.symm
    rw [put,if_neg hne,ih h.2]
    rfl

theorem keys_put {t : Table κ α} {key : κ} (value : α) (h : key ∈ t.map Prod.fst) :
    (t.put key value).map Prod.fst = t.map Prod.fst := by
  induction t with
  | nil => cases h
  | cons row rest ih =>
    obtain ⟨k,a⟩ := row
    by_cases hk : k = key
    · rw [put,if_pos hk]
      rfl
    · have hrest : key ∈ rest.map Prod.fst := by
        rcases List.mem_cons.mp h with h | h
        · exact absurd h.symm hk
        · exact h
      rw [put,if_neg hk,List.map_cons,List.map_cons,ih hrest]

/-- Which keys there are after another one is stored depends on the keys alone. -/
theorem keys_put_congr {β : Type} {t : Table κ α} {u : Table κ β}
    (h : t.map Prod.fst = u.map Prod.fst) (key : κ) (a : α) (b : β) :
    (t.put key a).map Prod.fst = (u.put key b).map Prod.fst := by
  by_cases hkey : key ∈ t.map Prod.fst
  · rw [keys_put a hkey,keys_put b (h ▸ hkey),h]
  · rw [put_new hkey,put_new (h ▸ hkey),List.map_append,List.map_append,h]
    rfl

/-- The keys are those that were stored, in the order in which they were stored first. -/
theorem keys_put_eraseDups {t : Table κ α} (h : (t.map Prod.fst).Nodup) (key : κ) (value : α) :
    (t.put key value).map Prod.fst = (t.map Prod.fst ++ [key]).eraseDups := by
  rw [eraseDups_concat,eraseDups_of_nodup h]
  by_cases hkey : key ∈ t.map Prod.fst
  · rw [if_pos hkey,keys_put value hkey]
  · rw [if_neg hkey,put_new hkey,List.map_append,List.map_singleton]

theorem length_le_put (t : Table κ α) (key : κ) (value : α) :
    t.length ≤ (t.put key value).length := by
  induction t with
  | nil => exact Nat.zero_le _
  | cons row rest ih =>
    rw [put]
    split
    · exact Nat.le_refl _
    · exact Nat.succ_le_succ ih

theorem nodup_put {t : Table κ α} (key : κ) (value : α) (h : (t.map Prod.fst).Nodup) :
    ((t.put key value).map Prod.fst).Nodup := by
  by_cases hk : key ∈ t.map Prod.fst
  · rwa [keys_put value hk]
  · rw [put_new hk,List.map_append,List.nodup_append]
    refine ⟨h,by simp,?_⟩
    intro a ha b hb hab
    obtain rfl : b = key := by simpa using hb
    exact hk (hab ▸ ha)

theorem foldl_put_new (rows t : Table κ α) (h : ((t ++ rows).map Prod.fst).Nodup) :
    rows.foldl (fun t r => t.put r.1 r.2) t = t ++ rows := by
  induction rows generalizing t with
  | nil => rw [List.foldl_nil,List.append_nil]
  | cons row rest ih =>
    have happend : t ++ row :: rest = t ++ [row] ++ rest := by simp
    have hnew : row.1 ∉ t.map Prod.fst := by
      rw [List.map_append,List.nodup_append] at h
      intro hm
      exact h.2.2 _ hm _ List.mem_cons_self rfl
    rw [List.foldl_cons,put_new hnew]
    rw [happend] at h ⊢
    exact ih _ h

/-- Rows of distinct keys are stored as they are. -/
theorem ofRows_nodup {rows : Table κ α} (h : (rows.map Prod.fst).Nodup) : ofRows rows = rows :=
  foldl_put_new rows [] h

theorem nodup_foldl_put (rows : Table κ α) {t : Table κ α} (h : (t.map Prod.fst).Nodup) :
    ((rows.foldl (fun t r => t.put r.1 r.2) t).map Prod.fst).Nodup := by
  induction rows generalizing t with
  | nil => exact h
  | cons row rest ih => exact ih (nodup_put row.1 row.2 h)

theorem nodup_ofRows (rows : List (κ × α)) : ((ofRows rows).map Prod.fst).Nodup :=
  nodup_foldl_put rows List.nodup_nil

theorem find?_of_mem {t : Table κ α} (h : (t.map Prod.fst).Nodup) {key : κ} {value : α}
    (hm : (key,value) ∈ t) : t.find? key = some value := by
  induction t with
  | nil => cases hm
  | cons row rest ih =>
    rw [List.map_cons,List.nodup_cons] at h
    rcases List.mem_cons.mp hm with rfl | hm
    · rw [find?,if_pos rfl]
    · have hne : row.1 ≠ key := by
        intro e
        exact h.1 (e ▸ List.mem_map_of_mem hm)
      rw [find?,if_neg hne,ih h.2 hm]

theorem mem_of_find? {t : Table κ α} {key : κ} {value : α} (h : t.find? key = some value) :
    (key,value) ∈ t := by
  induction t with
  | nil => cases h
  | cons row rest ih =>
    obtain ⟨k,a⟩ := row
    rw [find?] at h
    split at h
    next hk =>
      subst hk
      obtain rfl := Option.some.inj h
      exact List.mem_cons_self
    next => exact List.mem_cons_of_mem _ (ih h)

theorem mem_put_row {t : Table κ α} {key : κ} {value : α} {row : κ × α}
    (h : row ∈ t.put key value) : row ∈ t ∨ row = (key,value) := by
  induction t with
  | nil => exact .inr (List.mem_singleton.mp h)
  | cons first rest ih =>
    rw [put] at h
    split at h
    next hkey =>
      rcases List.mem_cons.mp h with hrow | h
      · exact .inr (by rw [hrow,hkey])
      · exact .inl (List.mem_cons_of_mem _ h)
    next =>
      rcases List.mem_cons.mp h with rfl | h
      · exact .inl List.mem_cons_self
      · exact (ih h).imp_left (List.mem_cons_of_mem _)

theorem mem_put {t : Table κ α} {key : κ} {value : α} {row : κ × α}
    (h : row ∈ t.put key value) : row ∈ t ∨ row.2 = value :=
  (mem_put_row h).imp_right fun hrow => by rw [hrow]

/-- Storing what is there already changes nothing. -/
theorem put_found {t : Table κ α} {key : κ} {value : α} (h : t.find? key = some value) :
    t.put key value = t := by
  induction t with
  | nil => cases h
  | cons row rest ih =>
    obtain ⟨k,a⟩ := row
    rw [find?] at h
    rw [put]
    split
    next hk =>
      rw [if_pos hk] at h
      rw [Option.some.inj h]
    next hk =>
      rw [if_neg hk] at h
      rw [ih h]

omit [DecidableEq κ] in
theorem keys_forall₂ {β : Type} {R : α → β → Prop} {t : Table κ α} {u : Table κ β}
    (h : List.Forall₂ (fun i j => j.1 = i.1 ∧ R i.2 j.2) t u) :
    u.map Prod.fst = t.map Prod.fst := by
  induction h with
  | nil => rfl
  | cons hrow _ ih => rw [List.map_cons,List.map_cons,hrow.1,ih]

/-- Tables with the same keys in the same order find related values. -/
theorem find?_forall₂ {β : Type} {R : α → β → Prop} {t : Table κ α} {u : Table κ β}
    (h : List.Forall₂ (fun i j => j.1 = i.1 ∧ R i.2 j.2) t u) {key : κ} {value : α}
    (hv : t.find? key = some value) : ∃ other, u.find? key = some other ∧ R value other := by
  induction h with
  | nil => cases hv
  | @cons i j _ _ hrow _ ih =>
    obtain ⟨hkey,hrel⟩ := hrow
    rw [find?] at hv ⊢
    rw [hkey]
    by_cases heq : i.1 = key
    · rw [if_pos heq] at hv ⊢
      exact ⟨j.2,rfl,Option.some.inj hv ▸ hrel⟩
    · rw [if_neg heq] at hv ⊢
      exact ih hv

theorem find?_append (s t : Table κ α) (key : κ) :
    find? (s ++ t) key = (s.find? key <|> t.find? key) := by
  induction s with
  | nil => rfl
  | cons row rest ih =>
    rw [List.cons_append,find?,find?]
    split
    · rfl
    · exact ih

theorem find?_putNew (t : Table κ α) (key other : κ) (value : α) :
    (t.putNew key value).find? other =
      (t.find? other <|> find? [(key,value)] other) := by
  unfold putNew
  split
  next hhas =>
    by_cases h : key = other
    · subst h
      obtain ⟨a,ha⟩ := Option.isSome_iff_exists.mp hhas
      rw [ha]
      rfl
    · rw [find?,if_neg h]
      cases t.find? other <;> rfl
  next => exact find?_append t _ other

theorem find?_foldl_putNew (rows t : Table κ α) (key : κ) :
    (rows.foldl (fun t r => t.putNew r.1 r.2) t).find? key =
      (t.find? key <|> rows.find? key) := by
  induction rows generalizing t with
  | nil =>
    rw [List.foldl_nil,find?_nil]
    cases t.find? key <;> rfl
  | cons row rest ih =>
    have hrow := find?_append [row] rest key
    rw [List.singleton_append] at hrow
    rw [List.foldl_cons,ih,find?_putNew,hrow]
    cases t.find? key <;> rfl

theorem find?_put (t : Table κ α) (key other : κ) (value : α) :
    (t.put key value).find? other = (find? [(key,value)] other <|> t.find? other) := by
  by_cases h : other = key
  · subst h
    rw [find?_put_self,find?,if_pos rfl]
    rfl
  · rw [find?_put_of_ne t value h,find?,if_neg fun e => h e.symm]
    rfl

/-- What holds of all rows that can be found still does after another one that it holds of. -/
theorem forall_find?_put {P : κ → α → Prop} {t : Table κ α} {key : κ} {value : α}
    (h : ∀ k a, t.find? k = some a → P k a) (hvalue : P key value) (k : κ) (a : α)
    (hfind : (t.put key value).find? k = some a) : P k a := by
  by_cases hk : k = key
  · subst hk
    rw [find?_put_self] at hfind
    exact Option.some.inj hfind ▸ hvalue
  · exact h k a ((find?_put_of_ne t value hk).symm.trans hfind)

theorem find?_none {t : Table κ α} {key : κ} (h : key ∉ t.map Prod.fst) : t.find? key = none := by
  induction t with
  | nil => rfl
  | cons row rest ih =>
    rw [List.map_cons,List.mem_cons,not_or] at h
    rw [find?,if_neg fun e => h.1 e.symm,ih h.2]

theorem find?_foldl_put {rows : Table κ α} (t : Table κ α) (key : κ)
    (h : (rows.map Prod.fst).Nodup) :
    (rows.foldl (fun t r => t.put r.1 r.2) t).find? key =
      (rows.find? key <|> t.find? key) := by
  induction rows generalizing t with
  | nil => rfl
  | cons row rest ih =>
    rw [List.map_cons,List.nodup_cons] at h
    rw [List.foldl_cons,ih _ h.2,find?_put]
    obtain ⟨k,a⟩ := row
    by_cases hk : k = key
    · subst hk
      simp [find?_none h.1,find?]
    · simp [find?,hk]

theorem has_of_mem_keys {t : Table κ α} {key : κ} (h : key ∈ t.map Prod.fst) :
    t.has key = true := by
  induction t with
  | nil => cases h
  | cons row rest ih =>
    rw [has,find?]
    split
    · rfl
    next hne =>
      rcases List.mem_cons.mp h with h | h
      · exact absurd h.symm hne
      · exact ih h

theorem nodup_foldl_putNew (rows : Table κ α) {t : Table κ α} (h : (t.map Prod.fst).Nodup) :
    ((rows.foldl (fun t r => t.putNew r.1 r.2) t).map Prod.fst).Nodup := by
  induction rows generalizing t with
  | nil => exact h
  | cons row rest ih =>
    refine ih ?_
    change ((t.putNew row.1 row.2).map Prod.fst).Nodup
    unfold putNew
    split
    · exact h
    next hfree =>
      rw [List.map_append,List.nodup_append]
      refine ⟨h,by simp,fun a ha b hb hab => hfree ?_⟩
      obtain rfl : b = row.1 := by simpa using hb
      exact has_of_mem_keys (hab ▸ ha)

theorem find?_erase_self (t : Table κ α) (key : κ) : (t.erase key).find? key = none := by
  induction t with
  | nil => rfl
  | cons row rest ih =>
    rw [erase]
    by_cases hk : row.1 = key
    · rw [if_pos hk]
      exact ih
    · rw [if_neg hk,find?,if_neg hk]
      exact ih

theorem find?_erase_of_ne (t : Table κ α) {key other : κ} (h : other ≠ key) :
    (t.erase key).find? other = t.find? other := by
  induction t with
  | nil => rfl
  | cons row rest ih =>
    rw [erase]
    split
    next hk =>
      rw [ih,find?,if_neg fun hrow => h (hrow.symm.trans hk)]
    next hk =>
      rw [find?,find?,ih]

theorem mem_keys_of_has {t : Table κ α} {key : κ} (h : t.has key = true) : key ∈ t.keys := by
  induction t with
  | nil => cases h
  | cons row rest ih =>
    rw [has,find?] at h
    split at h
    next hk => exact hk ▸ List.mem_cons_self
    next => exact List.mem_cons_of_mem _ (ih h)

end Table
end Wiring
