import Mathlib
import Wiring.Proofs.Value.Literal

/-!
# Laws of the comparison of values

Rows that are compared by a lawful test agree lawfully, whatever their order, as long as no key
comes twice; this carries the laws from what arrays and objects hold to themselves. So equality of
values is an equivalence that does not depend on the order of entries and properties, at any depth,
and it holds wherever two values are the same thing. In values without cycles it looks as far as
there is something to see.
-/
namespace Wiring

/-- On what the predicate allows, the test is reflexive, symmetric and transitive. -/
structure LawfulOn {α : Type} (p : α → Prop) (test : α → α → Bool) : Prop where
  refl : ∀ {a},p a → test a a = true
  symm : ∀ {a b},p a → p b → test a b = true → test b a = true
  trans : ∀ {a b c},p a → p b → p c → test a b = true → test b c = true → test a c = true

/-- What is alike on the left and on the right compares alike. -/
theorem LawfulOn.congr {α : Type} {p : α → Prop} {test : α → α → Bool} (h : LawfulOn p test)
    {a b c d : α} (ha : p a) (hb : p b) (hc : p c) (hd : p d) (hab : test a b = true)
    (hcd : test c d = true) : test b d = test a c := by
  apply Bool.eq_iff_iff.mpr
  constructor
  · intro hbd
    exact h.trans ha hb hc hab (h.trans hb hd hc hbd (h.symm hc hd hcd))
  · intro hac
    exact h.trans hb ha hd (h.symm ha hb hab) (h.trans ha hc hd hac hcd)

namespace Binary64

/-- No number is both undefined and zero. -/
theorem not_isZero {x : Binary64} (h : x.isNaN = true) : x.isZero = false := by
  have hlarge : infinityBits < x.magnitude := of_decide_eq_true h
  unfold isZero
  rw [beq_eq_false_iff_ne]
  exact (Nat.zero_lt_of_lt hlarge).ne'

theorem same_iff {x y : Binary64} : x.same y = true ↔
    (x.isNaN = true ∧ y.isNaN = true) ∨ x = y ∨ (x.isZero = true ∧ y.isZero = true) := by
  have hbits : x.bits = y.bits ↔ x = y := ⟨fun h => by cases x; cases y; cases h; rfl,congrArg _⟩
  unfold same
  cases hx : x.isNaN with
  | false => simp [hbits]
  | true =>
    have hzero := not_isZero hx
    simp only [hzero,Bool.true_and,Bool.not_true,Bool.false_and,Bool.or_false,true_and]
    constructor
    · exact .inl
    · rintro (hy | rfl | ⟨h,-⟩)
      · exact hy
      · exact hx
      · cases h

theorem same_lawful : LawfulOn (fun _ => True) same where
  refl _ := Heap.same_self _
  symm _ _ h := by
    rcases same_iff.mp h with ⟨hx,hy⟩ | rfl | ⟨hx,hy⟩
    · exact same_iff.mpr (.inl ⟨hy,hx⟩)
    · exact h
    · exact same_iff.mpr (.inr (.inr ⟨hy,hx⟩))
  trans _ _ _ hxy hyz := by
    rcases same_iff.mp hxy with ⟨hx,hy⟩ | rfl | ⟨hx,hy⟩
    · rcases same_iff.mp hyz with ⟨-,hz⟩ | rfl | ⟨hzero,-⟩
      · exact same_iff.mpr (.inl ⟨hx,hz⟩)
      · exact hxy
      · cases (not_isZero hy).symm.trans hzero
    · exact hyz
    · rcases same_iff.mp hyz with ⟨hnan,-⟩ | rfl | ⟨-,hz⟩
      · cases (not_isZero hnan).symm.trans hy
      · exact hxy
      · exact same_iff.mpr (.inr (.inr ⟨hx,hz⟩))

end Binary64

namespace Table

variable {κ α : Type} [DecidableEq κ] {test : α → α → Bool}

/-- The rows have distinct keys and values that the predicate allows. -/
structure Rows (p : α → Prop) (t : Table κ α) : Prop where
  nodup : (t.map Prod.fst).Nodup
  allowed : ∀ row ∈ t,p row.2

theorem agree_iff {s t : Table κ α} : agree test s t = true ↔
    s.length = t.length ∧ ∀ row ∈ s,∃ b,t.find? row.1 = some b ∧ test row.2 b = true := by
  unfold agree
  rw [Bool.and_eq_true,beq_iff_eq,List.all_eq_true]
  refine and_congr_right fun _ => forall₂_congr fun ⟨key,a⟩ _ => ?_
  dsimp only
  cases t.find? key <;> simp

theorem agree_refl {t : Table κ α} (hn : (t.map Prod.fst).Nodup)
    (h : ∀ row ∈ t,test row.2 row.2 = true) : agree test t t = true :=
  agree_iff.mpr ⟨rfl,fun row hrow => ⟨row.2,find?_of_mem hn hrow,h row hrow⟩⟩

/-- Tables that agree have the same keys. -/
theorem mem_keys_of_agree {s t : Table κ α} (hn : (s.map Prod.fst).Nodup)
    (h : agree test s t = true) {key : κ} (hkey : key ∈ t.map Prod.fst) :
    key ∈ s.map Prod.fst := by
  obtain ⟨hlength,hfound⟩ := agree_iff.mp h
  have hsub : s.map Prod.fst ⊆ t.map Prod.fst := by
    intro k hk
    obtain ⟨row,hrow,rfl⟩ := List.mem_map.mp hk
    obtain ⟨b,hb,-⟩ := hfound row hrow
    exact List.mem_map.mpr ⟨(row.1,b),mem_of_find? hb,rfl⟩
  have hperm := (hn.subperm hsub).perm_of_length_le (by simp [hlength])
  exact hperm.mem_iff.mpr hkey

theorem agree_symm {s t : Table κ α} (hs : (s.map Prod.fst).Nodup) (ht : (t.map Prod.fst).Nodup)
    (hsymm : ∀ a ∈ s,∀ b ∈ t,test a.2 b.2 = true → test b.2 a.2 = true)
    (h : agree test s t = true) : agree test t s = true := by
  obtain ⟨hlength,hfound⟩ := agree_iff.mp h
  refine agree_iff.mpr ⟨hlength.symm,fun row hrow => ?_⟩
  obtain ⟨⟨key,a⟩,ha,rfl⟩ := List.mem_map.mp (mem_keys_of_agree hs h (List.mem_map_of_mem hrow))
  obtain ⟨b,hb,hab⟩ := hfound _ ha
  obtain rfl : b = row.2 := Option.some.inj (hb.symm.trans (find?_of_mem ht hrow))
  exact ⟨a,find?_of_mem hs ha,hsymm _ ha row hrow hab⟩

theorem agree_trans {s t u : Table κ α}
    (htrans : ∀ a ∈ s,∀ b ∈ t,∀ c ∈ u,
      test a.2 b.2 = true → test b.2 c.2 = true → test a.2 c.2 = true)
    (hst : agree test s t = true) (htu : agree test t u = true) : agree test s u = true := by
  obtain ⟨hlength,hfound⟩ := agree_iff.mp hst
  obtain ⟨hlength',hfound'⟩ := agree_iff.mp htu
  refine agree_iff.mpr ⟨hlength.trans hlength',fun row hrow => ?_⟩
  obtain ⟨b,hb,hab⟩ := hfound row hrow
  have hbmem : (row.1,b) ∈ t := mem_of_find? hb
  obtain ⟨c,hc,hbc⟩ := hfound' _ hbmem
  exact ⟨c,hc,htrans row hrow _ hbmem _ (mem_of_find? hc) hab hbc⟩

theorem agree_lawful {p : α → Prop} (h : LawfulOn p test) :
    LawfulOn (Rows p) (agree test : Table κ α → Table κ α → Bool) where
  refl ht := agree_refl ht.nodup fun row hrow => h.refl (ht.allowed row hrow)
  symm hs ht := agree_symm hs.nodup ht.nodup fun a ha b hb =>
    h.symm (hs.allowed a ha) (ht.allowed b hb)
  trans hs ht hu := agree_trans fun a ha b hb c hc =>
    h.trans (hs.allowed a ha) (ht.allowed b hb) (hu.allowed c hc)

theorem agree_congr {other : α → α → Bool} {s t : Table κ α}
    (h : ∀ a ∈ s,∀ b ∈ t,test a.2 b.2 = other a.2 b.2) : agree test s t = agree other s t := by
  apply Bool.eq_iff_iff.mpr
  rw [agree_iff,agree_iff]
  refine and_congr_right fun _ => forall₂_congr fun row hrow => exists_congr fun b => ?_
  refine and_congr_right fun hb => ?_
  rw [h row hrow _ (mem_of_find? hb)]

omit [DecidableEq κ] in
/-- What is made of each row, in any order, has the keys of the rows. -/
theorem Rows.of_perm {p : α → Prop} {s t : Table κ α} {f : κ × α → α} (hn : (s.map Prod.fst).Nodup)
    (ht : t.Perm (s.map fun row => (row.1,f row))) (h : ∀ row ∈ s,p (f row)) : Rows p t := by
  have hkeys := ht.map Prod.fst
  rw [List.map_map] at hkeys
  refine ⟨hkeys.nodup_iff.mpr hn,fun made hmade => ?_⟩
  obtain ⟨row,hrow,rfl⟩ := List.mem_map.mp (ht.mem_iff.mp hmade)
  exact h row hrow

/-- Rows agree with what is made of each of them, in any order. -/
theorem agree_of_perm {s t : Table κ α} {f : κ × α → α} (hn : (s.map Prod.fst).Nodup)
    (ht : t.Perm (s.map fun row => (row.1,f row))) (h : ∀ row ∈ s,test row.2 (f row) = true) :
    agree test s t = true := by
  have hrows : Rows (fun _ => True) t := .of_perm hn ht fun _ _ => trivial
  refine agree_iff.mpr ⟨by simpa using ht.length_eq.symm,fun row hrow => ?_⟩
  have hmem : (row.1,f row) ∈ t := ht.mem_iff.mpr (List.mem_map_of_mem hrow)
  exact ⟨f row,find?_of_mem hrows.nodup hmem,h row hrow⟩

/-- Rows agree with rows of the same keys in the same order that compare one by one. -/
theorem agree_of_forall₂ {s t : Table κ α} (hn : (s.map Prod.fst).Nodup)
    (h : List.Forall₂ (fun a b => a.1 = b.1 ∧ test a.2 b.2 = true) s t) :
    agree test s t = true := by
  have hkeys : s.map Prod.fst = t.map Prod.fst := by
    rw [← List.forall₂_eq_eq_eq,List.forall₂_map_left_iff,List.forall₂_map_right_iff]
    exact h.imp fun a b hab => hab.1
  refine agree_iff.mpr ⟨h.length_eq,fun row hrow => ?_⟩
  obtain ⟨b,hb,hkey,htest⟩ : ∃ b ∈ t,row.1 = b.1 ∧ test row.2 b.2 = true := by
    clear hn hkeys
    induction h with
    | nil => cases hrow
    | cons hab _ ih =>
      rcases List.mem_cons.mp hrow with rfl | hrest
      · exact ⟨_,List.mem_cons_self,hab⟩
      · obtain ⟨b,hb,hab⟩ := ih hrest
        exact ⟨b,List.mem_cons_of_mem _ hb,hab⟩
  exact ⟨b.2,hkey ▸ find?_of_mem (hkeys ▸ hn) hb,htest⟩

end Table

/-- Pairs that match one after the other in both steps match in the whole. -/
theorem forall₂_trans {α : Type} {r s t : α → α → Prop} {as bs cs : List α}
    (h : ∀ a ∈ as,∀ b c,r a b → s b c → t a c) (hab : List.Forall₂ r as bs)
    (hbc : List.Forall₂ s bs cs) : List.Forall₂ t as cs := by
  induction hab generalizing cs with
  | nil =>
    cases hbc
    exact .nil
  | cons hr _ ih =>
    cases hbc with
    | cons hs hrest =>
      refine .cons (h _ List.mem_cons_self _ _ hr hs) (ih (fun a ha => ?_) hrest)
      exact h a (List.mem_cons_of_mem _ ha)

namespace Value

/-- No array in the value has a key twice. -/
inductive Distinct : Value → Prop where
  | plain {v : Value} (h : v.asArray? = none) : Distinct v
  | array {entries : List (ArrayKey × Value)} {next : Int64}
      (hn : (entries.map Prod.fst).Nodup) (h : ∀ e ∈ entries,Distinct e.2) :
      Distinct (.array ⟨entries,next⟩)

/-- Entries may have been put in another order, in arrays at any depth. -/
inductive Reordered : Value → Value → Prop where
  | refl (v : Value) : Reordered v v
  | array {entries others : List (ArrayKey × Value)} {next other : Int64}
      (f : ArrayKey × Value → Value) (h : ∀ e ∈ entries,Reordered e.2 (f e))
      (hp : others.Perm (entries.map fun e => (e.1,f e))) :
      Reordered (.array ⟨entries,next⟩) (.array ⟨others,other⟩)

theorem Distinct.rows {entries : List (ArrayKey × Value)} {next : Int64}
    (h : (Value.array ⟨entries,next⟩).Distinct) : Table.Rows Distinct entries := by
  cases h with
  | plain h => cases h
  | array hn h => exact ⟨hn,h⟩

theorem Reordered.distinct {v w : Value} (h : v.Reordered w) (hv : v.Distinct) : w.Distinct := by
  induction h with
  | refl v => exact hv
  | array f _ hp ih =>
    have hrows := hv.rows
    have hothers : Table.Rows Distinct _ := .of_perm hrows.nodup hp fun row hrow =>
      ih row hrow (hrows.allowed row hrow)
    exact .array hothers.nodup hothers.allowed

/-- What holds of scalars and references, and of an array as soon as it holds of its entries, holds
of every value. -/
theorem induction {motive : Value → Prop} (plain : ∀ v,v.asArray? = none → motive v)
    (array : ∀ entries next,(∀ e ∈ entries,motive e.2) → motive (array ⟨entries,next⟩)) (v : Value) :
    motive v := by
  cases v with
  | array items =>
    obtain ⟨entries,next⟩ := items
    refine array entries next fun e he => ?_
    have hsize : sizeOf e.2 < sizeOf (Value.array ⟨entries,next⟩) := Heap.sizeOf_entry he next
    exact induction plain array e.2
  | _ => exact plain _ rfl
termination_by sizeOf v
decreasing_by exact hsize

section Tests

variable {ofObjects : ObjectRef → ObjectRef → Bool} {ofNatives : NativeRef → NativeRef → Bool}

theorem equalWith_array (as bs : List (ArrayKey × Value)) (next other : Int64) :
    equalWith ofObjects ofNatives (.array ⟨as,next⟩) (.array ⟨bs,other⟩) =
      Table.agree (equalWith ofObjects ofNatives) as bs := by
  simp only [equalWith]
  exact Heap.equalEntriesWith_eq _ _ as bs

variable (ofObjects ofNatives) in
/-- What equal values look like. -/
inductive Matches : Value → Value → Prop where
  | null : Matches null null
  | bool (b : Bool) : Matches (bool b) (bool b)
  | int (i : Int64) : Matches (int i) (int i)
  | float {x y : Binary64} (h : x.same y = true) : Matches (float x) (float y)
  | text (s : String) : Matches (text s) (text s)
  | array {as bs : List (ArrayKey × Value)} {next other : Int64}
      (h : Table.agree (equalWith ofObjects ofNatives) as bs = true) :
      Matches (array ⟨as,next⟩) (array ⟨bs,other⟩)
  | object {a b : ObjectRef} (h : ofObjects a b = true) : Matches (object a) (object b)
  | native {a b : NativeRef} (h : ofNatives a b = true) : Matches (native a) (native b)
  | injector (i j : Handle) : Matches (injector i) (injector j)

theorem equalWith_iff {v w : Value} :
    equalWith ofObjects ofNatives v w = true ↔ Matches ofObjects ofNatives v w := by
  constructor
  · intro h
    cases v <;> cases w <;> simp only [equalWith,Bool.false_eq_true,beq_iff_eq] at h
    case null.null => exact .null
    case bool.bool => exact h ▸ .bool _
    case int.int => exact h ▸ .int _
    case float.float => exact .float h
    case text.text => exact h ▸ .text _
    case array.array as bs =>
      rw [Heap.equalEntriesWith_eq] at h
      exact .array h
    case object.object => exact .object h
    case native.native => exact .native h
    case injector.injector => exact .injector _ _
  · rintro (_ | _ | _ | h | _ | h | h | h | _)
    case array => exact (equalWith_array ..).trans h
    all_goals simp only [equalWith,beq_self_eq_true]
    all_goals exact h

theorem equalWith_lawful (ho : LawfulOn (fun _ => True) ofObjects)
    (hn : LawfulOn (fun _ => True) ofNatives) :
    LawfulOn Distinct (equalWith ofObjects ofNatives) where
  refl ha := by
    rw [equalWith_iff]
    induction ha with
    | @plain v h =>
      cases v with
      | array items => cases h
      | null => exact .null
      | bool b => exact .bool b
      | int i => exact .int i
      | float x => exact .float (Binary64.same_lawful.refl trivial)
      | text s => exact .text s
      | object r => exact .object (ho.refl trivial)
      | native r => exact .native (hn.refl trivial)
      | injector i => exact .injector i i
    | array hkeys _ ih => exact .array (Table.agree_refl hkeys fun e he => equalWith_iff.mpr (ih e he))
  symm {a b} ha hb hab := by
    rw [equalWith_iff] at hab ⊢
    induction a using Value.induction generalizing b with
    | plain a hplain =>
      cases hab with
      | null => exact .null
      | bool b => exact .bool b
      | int i => exact .int i
      | float h => exact .float (Binary64.same_lawful.symm trivial trivial h)
      | text s => exact .text s
      | array => cases hplain
      | object h => exact .object (ho.symm trivial trivial h)
      | native h => exact .native (hn.symm trivial trivial h)
      | injector i j => exact .injector j i
    | array entries next ih =>
      cases hab with
      | array h =>
        refine .array (Table.agree_symm ha.rows.nodup hb.rows.nodup (fun e he d hd hed => ?_) h)
        rw [equalWith_iff] at hed ⊢
        exact ih e he (ha.rows.allowed e he) (hb.rows.allowed d hd) hed
  trans {a b c} ha hb hc hab hbc := by
    rw [equalWith_iff] at hab hbc ⊢
    induction a using Value.induction generalizing b c with
    | plain a hplain =>
      cases hab with
      | null => exact hbc
      | bool b => exact hbc
      | int i => exact hbc
      | float h =>
        cases hbc with
        | float h' => exact .float (Binary64.same_lawful.trans trivial trivial trivial h h')
      | text s => exact hbc
      | array => cases hplain
      | object h =>
        cases hbc with
        | object h' => exact .object (ho.trans trivial trivial trivial h h')
      | native h =>
        cases hbc with
        | native h' => exact .native (hn.trans trivial trivial trivial h h')
      | injector i j =>
        cases hbc with
        | injector j k => exact .injector i k
    | array entries next ih =>
      cases hab with
      | array h =>
        cases hbc with
        | array h' =>
          refine .array (Table.agree_trans (fun x hx y hy z hz hxy hyz => ?_) h h')
          rw [equalWith_iff] at hxy hyz ⊢
          exact ih x hx (ha.rows.allowed x hx) (hb.rows.allowed y hy) (hc.rows.allowed z hz) hxy hyz

end Tests

/-- Values compare equal to what they are when their entries have been put in another order. -/
theorem Reordered.equalWith {v w : Value} (h : v.Reordered w) (hv : v.Distinct)
    (ho : LawfulOn (fun _ => True) ofObjects) (hn : LawfulOn (fun _ => True) ofNatives) :
    equalWith ofObjects ofNatives v w = true := by
  induction h with
  | refl v => exact (equalWith_lawful ho hn).refl hv
  | array f _ hp ih =>
    rw [equalWith_array]
    have hrows := hv.rows
    exact Table.agree_of_perm hrows.nodup hp fun e he => ih e he (hrows.allowed e he)

end Value

namespace Heap

variable {h h' : Heap}

/-- No array in the heap and no property table has a key twice. -/
def Distinct (h : Heap) : Prop := ∀ ref,Table.Rows Value.Distinct (h.properties ref)

/-- The heaps differ in the order of properties alone, and in that of the entries of arrays. -/
structure Reordered (h h' : Heap) : Prop where
  natives : h'.natives = h.natives
  size : h'.objects.size = h.objects.size
  properties : ∀ ref,∃ f : String × Value → Value,
    (∀ p ∈ h.properties ref,p.2.Reordered (f p)) ∧
      (h'.properties ref).Perm ((h.properties ref).map fun p => (p.1,f p))

theorem equalNatives_iff {a b : NativeRef} : h.equalNatives a b = true ↔
    a = b ∨ a.typeName = b.typeName ∧ ∃ bytes,
      h.native? a = some (.blob bytes) ∧ h.native? b = some (.blob bytes) := by
  unfold equalNatives
  rw [Bool.or_eq_true,beq_iff_eq]
  refine or_congr_right ?_
  cases h.native? a with
  | none => simp
  | some m =>
    cases h.native? b with
    | none => cases m <;> simp
    | some n =>
      cases m <;> cases n <;> simp
      exact fun _ => eq_comm

theorem equalNatives_lawful (h : Heap) : LawfulOn (fun _ => True) h.equalNatives where
  refl _ := equalNatives_iff.mpr (.inl rfl)
  symm _ _ hab := by
    rcases equalNatives_iff.mp hab with rfl | ⟨htype,bytes,ha,hb⟩
    · exact hab
    · exact equalNatives_iff.mpr (.inr ⟨htype.symm,bytes,hb,ha⟩)
  trans _ _ _ hab hbc := by
    rcases equalNatives_iff.mp hab with rfl | ⟨htype,bytes,ha,hb⟩
    · exact hbc
    rcases equalNatives_iff.mp hbc with rfl | ⟨htype',bytes',hb',hc⟩
    · exact hab
    obtain rfl : bytes = bytes' := by
      rw [hb] at hb'
      cases hb'
      rfl
    exact equalNatives_iff.mpr (.inr ⟨htype.trans htype',bytes,ha,hc⟩)

/-- Whether two objects are equal, given when the values that they hold are. -/
def equalObjects (h : Heap) (test : Value → Value → Bool) (a b : ObjectRef) : Bool :=
  a == b || (a.className == b.className && Table.agree test (h.properties a) (h.properties b))

theorem equalObjects_iff {test : Value → Value → Bool} {a b : ObjectRef} :
    h.equalObjects test a b = true ↔ a = b ∨ a.className = b.className ∧
      Table.agree test (h.properties a) (h.properties b) = true := by
  unfold equalObjects
  rw [Bool.or_eq_true,Bool.and_eq_true,beq_iff_eq,beq_iff_eq]

theorem equalObjects_lawful (hd : h.Distinct) {test : Value → Value → Bool}
    (ht : LawfulOn Value.Distinct test) : LawfulOn (fun _ => True) (h.equalObjects test) where
  refl _ := equalObjects_iff.mpr (.inl rfl)
  symm _ _ hab := by
    rcases equalObjects_iff.mp hab with rfl | ⟨hclass,hagree⟩
    · exact hab
    have hback := (Table.agree_lawful ht).symm (hd _) (hd _) hagree
    exact equalObjects_iff.mpr (.inr ⟨hclass.symm,hback⟩)
  trans _ _ _ hab hbc := by
    rcases equalObjects_iff.mp hab with rfl | ⟨hclass,hagree⟩
    · exact hbc
    rcases equalObjects_iff.mp hbc with rfl | ⟨hclass',hagree'⟩
    · exact hab
    have hwhole := (Table.agree_lawful ht).trans (hd _) (hd _) (hd _) hagree hagree'
    exact equalObjects_iff.mpr (.inr ⟨hclass.trans hclass',hwhole⟩)

theorem equalTo_succ (h : Heap) (n : Nat) :
    h.equalTo (n + 1) = Value.equalWith (h.equalObjects (h.equalTo n)) h.equalNatives := rfl

theorem beq_lawful {α : Type} [DecidableEq α] :
    LawfulOn (fun _ : α => True) fun a b => a == b where
  refl _ := beq_self_eq_true _
  symm _ _ hab := by rwa [beq_iff_eq,eq_comm,← beq_iff_eq]
  trans _ _ _ hab hbc := by
    rw [beq_iff_eq] at hab hbc ⊢
    exact hab.trans hbc

/-- However deep equality looks, it is lawful. -/
theorem equalTo_lawful (hd : h.Distinct) (n : Nat) : LawfulOn Value.Distinct (h.equalTo n) := by
  induction n with
  | zero => exact Value.equalWith_lawful beq_lawful h.equalNatives_lawful
  | succ n ih => exact Value.equalWith_lawful (equalObjects_lawful hd ih) h.equalNatives_lawful

theorem equalTo_reordered (hd : h.Distinct) {v w : Value} (hv : v.Distinct) (hr : v.Reordered w)
    (n : Nat) : h.equalTo n v w = true := by
  cases n with
  | zero => exact hr.equalWith hv beq_lawful h.equalNatives_lawful
  | succ n =>
    exact hr.equalWith hv (equalObjects_lawful hd (equalTo_lawful hd n)) h.equalNatives_lawful

theorem Reordered.distinct (hr : h.Reordered h') (hd : h.Distinct) : h'.Distinct := by
  intro ref
  obtain ⟨f,hf,hp⟩ := hr.properties ref
  exact .of_perm (hd ref).nodup hp fun row hrow =>
    (hf row hrow).distinct ((hd ref).allowed row hrow)

/-- Looking equally deep, values are equal in one heap where they are in the other. -/
theorem Reordered.equalTo (hr : h.Reordered h') (hd : h.Distinct) (n : Nat) :
    h'.equalTo n = h.equalTo n := by
  have hnatives : h'.equalNatives = h.equalNatives := by
    unfold equalNatives native?
    rw [hr.natives]
  induction n with
  | zero =>
    unfold Heap.equalTo
    rw [hnatives]
  | succ n ih =>
    rw [equalTo_succ,equalTo_succ,hnatives,ih]
    congr 1
    funext a b
    have hrows (ref : ObjectRef) : Table.agree (h.equalTo n) (h.properties ref)
        (h'.properties ref) = true := by
      obtain ⟨f,hf,hp⟩ := hr.properties ref
      refine Table.agree_of_perm (hd ref).nodup hp fun p hp' => ?_
      exact equalTo_reordered hd ((hd ref).allowed p hp') (hf p hp') n
    have hlawful : LawfulOn (Table.Rows Value.Distinct)
        (Table.agree (h.equalTo n) : Table String Value → Table String Value → Bool) :=
      Table.agree_lawful (equalTo_lawful hd n)
    have hd' := hr.distinct hd
    unfold equalObjects
    rw [hlawful.congr (hd a) (hd' a) (hd b) (hd' b) (hrows a) (hrows b)]

theorem Reordered.depth (hr : h.Reordered h') : h'.depth = h.depth := by
  unfold Heap.depth
  rw [hr.natives,hr.size]

theorem equal_lawful (hd : h.Distinct) : LawfulOn Value.Distinct h.equal :=
  equalTo_lawful hd h.depth

/-- In which order entries and properties stand makes no difference. -/
theorem Reordered.equal (hr : h.Reordered h') (hd : h.Distinct) {a a' b b' : Value}
    (ha : a.Distinct) (hb : b.Distinct) (hra : a.Reordered a') (hrb : b.Reordered b') :
    h'.equal a' b' = h.equal a b := by
  unfold Heap.equal
  rw [hr.depth,hr.equalTo hd]
  exact (equalTo_lawful hd h.depth).congr ha (hra.distinct ha) hb (hrb.distinct hb)
    (equalTo_reordered hd ha hra _) (equalTo_reordered hd hb hrb _)

section Depth

theorem equalWith_congr {f f' : ObjectRef → ObjectRef → Bool} {g : NativeRef → NativeRef → Bool}
    {v : Value} (hobject : ∀ r,v = .object r → ∀ s,f r s = f' r s)
    (hentry : ∀ entries next,v = .array ⟨entries,next⟩ → ∀ e ∈ entries,∀ w,
      Value.equalWith f g e.2 w = Value.equalWith f' g e.2 w) (w : Value) :
    Value.equalWith f g v w = Value.equalWith f' g v w := by
  cases v with
  | array items =>
    obtain ⟨entries,next⟩ := items
    cases w with
    | array others =>
      rw [Value.equalWith_array,Value.equalWith_array]
      exact Table.agree_congr fun e he d _ => hentry entries next rfl e he d.2
    | _ => simp only [Value.equalWith]
  | object r =>
    cases w with
    | object s =>
      simp only [Value.equalWith]
      exact hobject r rfl s
    | _ => simp only [Value.equalWith]
  | _ => cases w <;> simp only [Value.equalWith]

/-- Looking further than the longest chain finds no difference. -/
theorem Shallow.equalTo_succ {n : Nat} {v : Value} (hs : h.Shallow n v) (w : Value) :
    h.equalTo (n + 2) v w = h.equalTo (n + 1) v w := by
  refine Shallow.induction (motive := fun v => ∀ n,h.Shallow n v → ∀ w,
    h.equalTo (n + 2) v w = h.equalTo (n + 1) v w) (fun v ih n hs w => ?_) n v hs n hs w
  refine equalWith_congr ?_ ?_ w
  · rintro r rfl s
    have hagree : Table.agree (h.equalTo (n + 1)) (h.properties r) (h.properties s) =
        Table.agree (h.equalTo n) (h.properties r) (h.properties s) := by
      refine Table.agree_congr fun p hp q _ => ?_
      cases n with
      | zero => exact absurd hp (by simp [hs.no_properties])
      | succ n => exact ih p.2 (.property hp) n (hs.property hp) q.2
    rw [hagree]
  · rintro entries next rfl e he w
    exact ih e.2 (.entry he) n (hs.entry he) w

/-- Objects without cycles are equal if they are the same one, or of one class with properties that
are equal in turn. -/
theorem Acyclic.equal_object {r : ObjectRef} (ha : h.Acyclic (.object r)) (s : ObjectRef) :
    h.equal (.object r) (.object s) = h.equalObjects h.equal r s :=
  (ha.shallow.equalTo_succ (.object s)).symm

end Depth
end Heap

namespace Value

theorem sameEntries_iff {as bs : List (ArrayKey × Value)} : sameEntries as bs = true ↔
    List.Forall₂ (fun a b => a.1 = b.1 ∧ a.2.same b.2 = true) as bs := by
  induction as generalizing bs with
  | nil => cases bs <;> simp [sameEntries]
  | cons a as ih => cases bs <;> simp [sameEntries,ih]

/-- What the same things look like. -/
inductive Alike : Value → Value → Prop where
  | plain {v : Value} (h : v.asArray? = none) : Alike v v
  | float {x y : Binary64} (h : x.same y = true) : Alike (float x) (float y)
  | array {as bs : List (ArrayKey × Value)} {next other : Int64}
      (h : List.Forall₂ (fun a b => a.1 = b.1 ∧ a.2.same b.2 = true) as bs) :
      Alike (array ⟨as,next⟩) (array ⟨bs,other⟩)

theorem same_iff {v w : Value} : v.same w = true ↔ v.Alike w := by
  constructor
  · intro h
    cases v <;> cases w <;> simp only [same,Bool.false_eq_true,beq_iff_eq] at h
    case float.float => exact .float h
    case array.array => exact .array (sameEntries_iff.mp h)
    case null.null => exact .plain rfl
    all_goals exact h ▸ .plain rfl
  · rintro (hplain | h | h)
    · cases v with
      | array items => cases hplain
      | float x => simpa only [same] using Binary64.same_lawful.refl trivial
      | _ => simp [same]
    · simpa only [same] using h
    · simpa only [same] using sameEntries_iff.mpr h

/-- Being the same thing is an equivalence. -/
theorem same_lawful : LawfulOn (fun _ => True) same where
  refl {v} _ := by
    induction v using Value.induction with
    | plain v h => exact same_iff.mpr (.plain h)
    | array entries next ih =>
      exact same_iff.mpr (.array (List.forall₂_same.mpr fun e he => ⟨rfl,ih e he⟩))
  symm {v w} _ _ h := by
    rw [same_iff] at h ⊢
    induction v using Value.induction generalizing w with
    | plain v hplain =>
      cases h with
      | plain h => exact .plain h
      | float h => exact .float (Binary64.same_lawful.symm trivial trivial h)
      | array => cases hplain
    | array entries next ih =>
      cases h with
      | plain h => exact .plain h
      | array h =>
        have hback := (List.forall₂_and_left _ _).mpr ⟨ih,h⟩
        refine .array (List.Forall₂.flip (hback.imp fun a b ⟨hsymm,hkey,hsame⟩ => ?_))
        exact ⟨hkey.symm,same_iff.mpr (hsymm (same_iff.mp hsame))⟩
  trans {u v w} _ _ _ huv hvw := by
    rw [same_iff] at huv hvw ⊢
    induction u using Value.induction generalizing v w with
    | plain u hplain =>
      cases huv with
      | plain h => exact hvw
      | float h =>
        cases hvw with
        | plain _ => exact .float h
        | float h' => exact .float (Binary64.same_lawful.trans trivial trivial trivial h h')
      | array => cases hplain
    | array entries next ih =>
      cases huv with
      | plain h => exact hvw
      | array h =>
        cases hvw with
        | plain _ => exact .array h
        | array h' =>
          refine .array (forall₂_trans (fun a ha b c hab hbc => ?_) h h')
          exact ⟨hab.1.trans hbc.1,same_iff.mpr
            (ih a ha (same_iff.mp hab.2) (same_iff.mp hbc.2))⟩

/-- Two things that are the same are equal. -/
theorem equalWith_of_same {ofObjects : ObjectRef → ObjectRef → Bool}
    {ofNatives : NativeRef → NativeRef → Bool} (ho : LawfulOn (fun _ => True) ofObjects)
    (hn : LawfulOn (fun _ => True) ofNatives) {v w : Value} (hv : v.Distinct)
    (h : v.same w = true) : equalWith ofObjects ofNatives v w = true := by
  rw [same_iff] at h
  induction hv generalizing w with
  | @plain v hplain =>
    cases h with
    | plain h => exact (equalWith_lawful ho hn).refl (.plain h)
    | float h => exact equalWith_iff.mpr (.float h)
    | array => cases hplain
  | array hkeys hentries ih =>
    cases h with
    | plain h => cases h
    | array h =>
      refine equalWith_iff.mpr (.array (Table.agree_of_forall₂ hkeys ?_))
      have hequal := (List.forall₂_and_left _ _).mpr ⟨ih,h⟩
      exact hequal.imp fun a b ⟨hto,hkey,hsame⟩ => ⟨hkey,hto (same_iff.mp hsame)⟩

end Value

namespace Heap

variable {h : Heap}

theorem equal_of_same (hd : h.Distinct) {v w : Value} (hv : v.Distinct) (hsame : v.same w = true) :
    h.equal v w = true :=
  Value.equalWith_of_same (equalObjects_lawful hd (equalTo_lawful hd _)) h.equalNatives_lawful hv
    hsame

theorem distinct_of_objects (hrows : ∀ t ∈ h.objects,Table.Rows Value.Distinct t) :
    h.Distinct := by
  intro ref
  unfold properties
  rw [Array.getD_eq_getD_getElem?]
  cases ht : h.objects[ref.index]? with
  | none => exact ⟨List.nodup_nil,fun _ hrow => by cases hrow⟩
  | some t => exact hrows t (Array.mem_of_getElem? ht)

/-- Where no key comes twice, equality is an equivalence for which the order of entries and
properties makes no difference, so is being the same thing, and the same things are equal. Values
may hold cycles, but where they do not, two objects are equal just if they are one object or of one
class with equal properties. -/
theorem comparison_is_lawful (hd : h.Distinct) :
    (Equivalence fun a b : {v : Value // v.Distinct} => h.equal a b = true) ∧
      (∀ h' a a' b b',h.Reordered h' → a.Distinct → b.Distinct → a.Reordered a' →
        b.Reordered b' → h'.equal a' b' = h.equal a b) ∧
      (Equivalence fun a b : Value => a.same b = true) ∧
      (∀ a b,a.Distinct → a.same b = true → h.equal a b = true) ∧
      ∀ r s,h.Acyclic (.object r) →
        h.equal (.object r) (.object s) = h.equalObjects h.equal r s := by
  have hequal := equal_lawful hd
  refine ⟨⟨?_,?_,?_⟩,?_,⟨?_,?_,?_⟩,?_,?_⟩
  · exact fun a => hequal.refl a.2
  · exact fun {a b} hab => hequal.symm a.2 b.2 hab
  · exact fun {a b c} hab hbc => hequal.trans a.2 b.2 c.2 hab hbc
  · exact fun h' a a' b b' hr ha hb hra hrb => hr.equal hd ha hb hra hrb
  · exact fun a => Value.same_lawful.refl trivial
  · exact fun hab => Value.same_lawful.symm trivial trivial hab
  · exact fun hab hbc => Value.same_lawful.trans trivial trivial trivial hab hbc
  · exact fun a b ha hsame => equal_of_same hd ha hsame
  · exact fun r s hr => hr.equal_object s

/-- The heap with all properties the other way round. -/
def backwards (h : Heap) : Heap := { h with objects := h.objects.map List.reverse }

theorem reordered_backwards (h : Heap) : h.Reordered h.backwards where
  natives := rfl
  size := Array.size_map
  properties ref := by
    have hrows : h.backwards.properties ref = (h.properties ref).reverse := by
      unfold properties backwards
      rw [Array.getD_eq_getD_getElem?,Array.getD_eq_getD_getElem?,Array.getElem?_map]
      cases h.objects[ref.index]? <;> rfl
    refine ⟨Prod.snd,fun p _ => .refl p.2,?_⟩
    rw [hrows,List.map_id']
    exact List.reverse_perm _

/-- A cloth of one thread and a cloth of two, which have the same handle. No bytes of handles are
known, but of labels they are. -/
def clothHeap : Heap where
  objects :=
    #[[("slack",.float .nan),("ends",.int 2)],
      [("warp",.object ⟨0,"Thread"⟩),("weft",.object ⟨0,"Thread"⟩),("maker",.injector (some ⟨0⟩)),
        ("grip",.native ⟨0,"Handle"⟩)],
      [("ends",.int 2),("slack",.float .nan)],
      [("grip",.native ⟨0,"Handle"⟩),("maker",.injector none),("weft",.object ⟨2,"Thread"⟩),
        ("warp",.object ⟨0,"Thread"⟩)]]
  natives := #[.foreign none,.foreign none,.blob [7],.blob [7]]

/-- A cloth with a balance of the sign and a label of the number. -/
def bale (cloth label : Nat) (sign : Bool) : Value :=
  .array ⟨[(.text "balance",.float (.ofMagnitude sign 0)),(.text "cloth",.object ⟨cloth,"Cloth"⟩),
    (.text "label",.native ⟨label,"Label"⟩)],0⟩

theorem clothHeap_distinct : clothHeap.Distinct := by
  have hrows : ∀ t ∈ clothHeap.objects,(t.map Prod.fst).Nodup ∧
      ∀ row ∈ t,row.2.asArray?.isNone = true := by
    decide +kernel
  refine distinct_of_objects fun t ht => ⟨(hrows t ht).1,fun row hrow => ?_⟩
  exact .plain (Option.isNone_iff_eq_none.mp ((hrows t ht).2 row hrow))

theorem bale_distinct (cloth label : Nat) (sign : Bool) : (bale cloth label sign).Distinct := by
  have hkeys : [ArrayKey.text "balance",.text "cloth",.text "label"].Nodup := by decide
  refine .array hkeys fun e he => .plain ?_
  simp only [List.mem_cons,List.not_mem_nil,or_false] at he
  rcases he with rfl | rfl | rfl <;> rfl

theorem comparison_is_lawful_sample : clothHeap.Distinct ∧
    clothHeap.equal (bale 1 2 true) (bale 3 3 false) = true ∧
    clothHeap.equal (bale 3 3 false) (bale 1 2 true) = true ∧
    clothHeap.backwards.equal (bale 1 2 true) (bale 3 3 false) = true ∧
    (bale 1 2 true).same (bale 3 3 false) = false ∧
    clothHeap.equal (.native ⟨0,"Handle"⟩) (.native ⟨1,"Handle"⟩) = false := by
  have hequal : clothHeap.equal (bale 1 2 true) (bale 3 3 false) = true := by decide +kernel
  obtain ⟨⟨-,hsymm,-⟩,horder,-⟩ := comparison_is_lawful clothHeap_distinct
  have hfirst := bale_distinct 1 2 true
  have hsecond := bale_distinct 3 3 false
  have hback := hsymm (x := ⟨_,hfirst⟩) (y := ⟨_,hsecond⟩) hequal
  have hbackwards := horder _ _ _ _ _ clothHeap.reordered_backwards hfirst hsecond (.refl _) (.refl _)
  exact ⟨clothHeap_distinct,hequal,hback,hbackwards.trans hequal,by decide +kernel,by decide +kernel⟩

end Heap
end Wiring
