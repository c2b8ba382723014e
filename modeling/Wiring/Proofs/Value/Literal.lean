import Mathlib
import Wiring.Proofs.Value.Building

/-!
# Literal values

A literal is made of scalars, arrays, objects, natives whose bytes are known and injector
handles. Its arrays and property tables are such as storing rows one after another makes
them. Two literals that unfold to the same tree are equal, and what is built from the tree
of a literal equals it.
-/
namespace Wiring

/-- Trees without natives that have to be made again by their class. -/
inductive Tree.Literal : Tree → Prop where
  | null : Literal .null
  | bool (b : Bool) : Literal (.bool b)
  | int (i : Int64) : Literal (.int i)
  | float (x : Binary64) : Literal (.float x)
  | text (s : String) : Literal (.text s)
  | array {entries : List (ArrayKey × Tree)} {next : Int64}
      (hw : (Keyed.mk entries next).WellFormed) (h : ∀ e ∈ entries, Literal e.2) :
      Literal (.array ⟨entries,next⟩)
  | object {properties : List (String × Tree)} (className : String)
      (hn : (properties.map Prod.fst).Nodup) (h : ∀ p ∈ properties, Literal p.2) :
      Literal (.object className properties)
  | blob (typeName : String) (bytes : List UInt8) : Literal (.blob typeName bytes)
  | injector : Literal .injector

namespace Heap

/-- What a value that is reached in a literal is: an array or an object that was made by
storing rows, or a native of which the bytes are known. References lead into the heap. -/
def IsLiteral (h : Heap) : Value → Prop
  | .array items => items.WellFormed
  | .object ref => ref.index < h.objects.size ∧ ((h.properties ref).map Prod.fst).Nodup
  | .native ref => ∃ bytes, h.native? ref = some (.blob bytes)
  | _ => True

/-- A literal without cycles. -/
structure Literal (h : Heap) (v : Value) : Prop where
  acyclic : h.Acyclic v
  reached : ∀ u, h.Reaches v u → h.IsLiteral u

variable {h h' : Heap}

theorem Literal.of_holds {v u : Value} (hl : h.Literal v) (hh : h.Holds v u) : h.Literal u where
  acyclic := hl.acyclic.of_holds hh
  reached w hw := hl.reached w (hw.head hh)

theorem literal_of_held {v : Value} (hv : h.IsLiteral v) (hh : ∀ u, h.Holds v u → h.Literal u) :
    h.Literal v where
  acyclic := acyclic_of_held fun u hu => (hh u hu).acyclic
  reached u hu := by
    rcases Relation.ReflTransGen.cases_head hu with rfl | ⟨w,hw,hu⟩
    · exact hv
    · exact (hh w hw).reached u hu

/-- What can be shown of a literal from the same of all it holds, is true of every
literal. -/
theorem Literal.induction {motive : Value → Prop}
    (step : ∀ v, h.Literal v → (∀ u, h.Holds v u → motive u) → motive v) {v : Value}
    (hl : h.Literal v) : motive v := by
  have hall : h.Literal v → motive v :=
    hl.acyclic.induction (motive := fun v => h.Literal v → motive v)
      fun v _ ih hl => step v hl fun u hu => ih u hu (hl.of_holds hu)
  exact hall hl

theorem Literal.unfold {v : Value} (hl : h.Literal v) : (h.unfold v).Literal := by
  refine hl.induction (motive := fun v => (h.unfold v).Literal) fun v hl ih => ?_
  have hv := hl.reached v .refl
  cases v with
  | null => exact .null
  | bool b => exact .bool b
  | int i => exact .int i
  | float x => exact .float x
  | text s => exact .text s
  | injector i => exact .injector
  | array items =>
    obtain ⟨entries,next⟩ := items
    rw [unfold_array]
    refine .array (Keyed.WellFormed.of_keys hv ?_) fun e he => ?_
    · rw [List.map_map]
      rfl
    · obtain ⟨r,hr,rfl⟩ := List.mem_map.mp he
      exact ih r.2 (.entry hr)
  | object ref =>
    rw [hl.acyclic.unfold_object]
    refine .object _ ?_ fun p hp => ?_
    · rw [List.map_map]
      exact hv.2
    · obtain ⟨r,hr,rfl⟩ := List.mem_map.mp hp
      exact ih r.2 (.property hr)
  | native ref =>
    obtain ⟨bytes,hb⟩ := hv
    rw [hl.acyclic.unfold_native,unfoldNative,hb]
    exact .blob _ _

theorem unfoldNative_blob {ref : NativeRef} {bytes : List UInt8}
    (hb : h.native? ref = some (.blob bytes)) (ofValue : Value → Tree) :
    h.unfoldNative ofValue ref = .blob ref.typeName bytes := by
  rw [unfoldNative,hb]

/-- A literal looks the same in a heap that has grown. -/
theorem Literal.unfoldTo_grown {v : Value} (hl : h.Literal v) (hg : Grown h h') (n : Nat) :
    h'.unfoldTo n v = h.unfoldTo n v := by
  refine hl.induction (motive := fun v => ∀ n, h'.unfoldTo n v = h.unfoldTo n v)
    (fun v hl ih n => ?_) n
  have hv := hl.reached v .refl
  cases v with
  | array items =>
    obtain ⟨entries,next⟩ := items
    rw [unfoldTo_array,unfoldTo_array]
    have hmap : (entries.map fun e => (e.1,h'.unfoldTo n e.2)) =
        entries.map fun e => (e.1,h.unfoldTo n e.2) := by
      refine List.map_congr_left fun e he => ?_
      rw [ih e.2 (.entry he)]
    rw [hmap]
  | object ref =>
    cases n with
    | zero => rfl
    | succ n =>
      rw [unfoldTo_object,unfoldTo_object,hg.properties_eq hv.1]
      have hmap : ((h.properties ref).map fun p => (p.1,h'.unfoldTo n p.2)) =
          (h.properties ref).map fun p => (p.1,h.unfoldTo n p.2) := by
        refine List.map_congr_left fun p hp => ?_
        rw [ih p.2 (.property hp)]
      rw [hmap]
  | native ref =>
    obtain ⟨bytes,hb⟩ := hv
    have hb' := (hg.native_eq (lt_of_native hb)).trans hb
    cases n with
    | zero => exact (unfoldNative_blob hb' _).trans (unfoldNative_blob hb _).symm
    | succ n => exact (unfoldNative_blob hb' _).trans (unfoldNative_blob hb _).symm
  | null | bool | int | float | text | injector => cases n <;> rfl

section Equality

theorem equalEntriesWith_eq (f : ObjectRef → ObjectRef → Bool) (g : NativeRef → NativeRef → Bool)
    (as bs : List (ArrayKey × Value)) :
    (as.length == bs.length && Value.equalEntriesWith f g as bs) =
      Table.agree (Value.equalWith f g) as bs := by
  have hall : Value.equalEntriesWith f g as bs = as.all fun a =>
      (Table.find? bs a.1).any (Value.equalWith f g a.2) := by
    induction as with
    | nil => simp only [Value.equalEntriesWith,List.all_nil]
    | cons a rest ih =>
      cases hf : Table.find? bs a.1 <;> simp [Value.equalEntriesWith,hf,ih]
  rw [hall]
  unfold Table.agree
  congr 2

theorem equalTo_array (n : Nat) (as bs : List (ArrayKey × Value)) (next other : Int64) :
    h.equalTo n (.array ⟨as,next⟩) (.array ⟨bs,other⟩) = Table.agree (h.equalTo n) as bs := by
  cases n with
  | zero =>
    simp only [equalTo,Value.equalWith]
    exact equalEntriesWith_eq _ _ as bs
  | succ n =>
    simp only [equalTo,Value.equalWith]
    exact equalEntriesWith_eq _ _ as bs

/-- Rows that show the same trees under distinct keys agree. -/
theorem agree_of_rows {κ : Type} [DecidableEq κ] {f : Value → Tree} {same : Value → Value → Bool}
    {as bs : List (κ × Value)} {trees : List (κ × Tree)}
    (ha : (as.map fun r => (r.1,f r.2)) = trees) (hb : (bs.map fun r => (r.1,f r.2)) = trees)
    (hn : (trees.map Prod.fst).Nodup)
    (hsame : ∀ e ∈ trees, ∀ a b, f a = e.2 → f b = e.2 → same a b = true) :
    Table.agree same as bs = true := by
  have hlength : as.length = bs.length := by
    simpa using congrArg List.length (ha.trans hb.symm)
  have hkeys : bs.map Prod.fst = trees.map Prod.fst := by
    rw [← hb,List.map_map]
    rfl
  unfold Table.agree
  rw [Bool.and_eq_true,List.all_eq_true]
  refine ⟨by simpa using hlength,fun a hm => ?_⟩
  have hmem : (a.1,f a.2) ∈ trees := ha ▸ List.mem_map_of_mem hm
  obtain ⟨b,hbm,heq⟩ := List.mem_map.mp (hb ▸ hmem)
  obtain ⟨hk,hf⟩ : b.1 = a.1 ∧ f b.2 = f a.2 := by simpa using heq
  have hfind : Table.find? bs a.1 = some b.2 := by
    rw [← hk]
    exact Table.find?_of_mem (by rw [hkeys]; exact hn) hbm
  dsimp only
  rw [hfind]
  exact hsame _ hmem a.2 b.2 rfl hf

/-- What a value is, by the tree that it shows. -/
theorem shown_value (n : Nat) (v : Value) :
    match h.unfoldTo n v with
    | .null => v = .null
    | .bool b => v = .bool b
    | .int i => v = .int i
    | .float x => v = .float x
    | .text s => v = .text s
    | .array ⟨trees,next⟩ => ∃ rows, v = .array ⟨rows,next⟩ ∧
        (rows.map fun r => (r.1,h.unfoldTo n r.2)) = trees
    | .object className trees => ∃ ref, v = .object ref ∧ ref.className = className ∧
        ∀ k, n = k + 1 → ((h.properties ref).map fun p => (p.1,h.unfoldTo k p.2)) = trees
    | .blob typeName bytes => ∃ ref, v = .native ref ∧ ref.typeName = typeName ∧
        h.native? ref = some (.blob bytes)
    | .foreign _ _ => True
    | .injector => ∃ i, v = .injector i := by
  cases v with
  | array items =>
    obtain ⟨entries,next⟩ := items
    rw [unfoldTo_array]
    exact ⟨entries,rfl,rfl⟩
  | object ref =>
    cases n with
    | zero => exact ⟨ref,rfl,rfl,fun k hk => by cases hk⟩
    | succ n =>
      refine ⟨ref,rfl,rfl,fun k hk => ?_⟩
      obtain rfl : n = k := Nat.succ.inj hk
      rfl
  | native ref =>
    have hshow : ∃ ofValue, h.unfoldTo n (.native ref) = h.unfoldNative ofValue ref := by
      cases n with
      | zero => exact ⟨_,rfl⟩
      | succ n => exact ⟨_,rfl⟩
    obtain ⟨ofValue,hv⟩ := hshow
    rw [hv,unfoldNative]
    cases hn : h.native? ref with
    | none => trivial
    | some native =>
      cases native with
      | blob bytes => exact ⟨ref,rfl,rfl,hn⟩
      | foreign source => trivial
      | point p q => trivial
  | injector i => cases n <;> exact ⟨i,rfl⟩
  | null | bool | int | float | text => cases n <;> rfl

theorem same_self (x : Binary64) : x.same x = true := by
  unfold Binary64.same
  cases x.isNaN with
  | true => rfl
  | false => simp

/-- Values that show the tree of a literal, as deep as it is, are equal. -/
theorem equalTo_of_unfoldTo {t : Tree} (ht : t.Literal) : ∀ (n : Nat) (a b : Value),
    t.height ≤ n → h.unfoldTo n a = t → h.unfoldTo n b = t → h.equalTo n a b = true := by
  induction ht with
  | null | bool | int | text =>
    intro n a b _ ha hb
    have hva := shown_value (h := h) n a
    have hvb := shown_value (h := h) n b
    rw [ha] at hva
    rw [hb] at hvb
    subst hva hvb
    cases n <;> simp [equalTo,Value.equalWith]
  | float x =>
    intro n a b _ ha hb
    have hva := shown_value (h := h) n a
    have hvb := shown_value (h := h) n b
    rw [ha] at hva
    rw [hb] at hvb
    subst hva hvb
    cases n <;> simp [equalTo,Value.equalWith,same_self]
  | injector =>
    intro n a b _ ha hb
    have hva := shown_value (h := h) n a
    have hvb := shown_value (h := h) n b
    rw [ha] at hva
    rw [hb] at hvb
    obtain ⟨i,rfl⟩ := hva
    obtain ⟨j,rfl⟩ := hvb
    cases n <;> simp [equalTo,Value.equalWith]
  | array hw _ ih =>
    intro n a b hn ha hb
    have hva := shown_value (h := h) n a
    have hvb := shown_value (h := h) n b
    rw [ha] at hva
    rw [hb] at hvb
    obtain ⟨as,rfl,has⟩ := hva
    obtain ⟨bs,rfl,hbs⟩ := hvb
    rw [equalTo_array]
    refine agree_of_rows has hbs hw.nodup fun e he x y hx hy => ih e he n x y ?_ hx hy
    exact (Tree.height_le_of_entry he).trans hn
  | object className hnodup _ ih =>
    intro n a b hn ha hb
    have hva := shown_value (h := h) n a
    have hvb := shown_value (h := h) n b
    rw [ha] at hva
    rw [hb] at hvb
    obtain ⟨p,rfl,hpc,hps⟩ := hva
    obtain ⟨q,rfl,hqc,hqs⟩ := hvb
    obtain ⟨k,rfl⟩ : ∃ k, n = k + 1 := ⟨n - 1,by simp only [Tree.height] at hn; omega⟩
    have hagree : Table.agree (h.equalTo k) (h.properties p) (h.properties q) = true := by
      refine agree_of_rows (hps k rfl) (hqs k rfl) hnodup fun e he x y hx hy => ih e he k x y ?_ hx hy
      exact (Tree.height_le_of_property he).trans (by simpa [Tree.height] using hn)
    simp [equalTo,Value.equalWith,hagree,hpc,hqc]
  | blob typeName bytes =>
    intro n a b hn ha hb
    have hva := shown_value (h := h) n a
    have hvb := shown_value (h := h) n b
    rw [ha] at hva
    rw [hb] at hvb
    obtain ⟨p,rfl,hpt,hps⟩ := hva
    obtain ⟨q,rfl,hqt,hqs⟩ := hvb
    have hnatives : h.equalNatives p q = true := by
      unfold equalNatives
      simp [hps,hqs,hpt,hqt]
    cases n with
    | zero => simpa [equalTo,Value.equalWith] using hnatives
    | succ n => simpa [equalTo,Value.equalWith] using hnatives

/-- What is built from the tree of a literal equals it, wherever the heap has grown. -/
theorem Literal.equal_build {v w : Value} {handle : Handle} {base : Heap} (hl : h.Literal v)
    (hg : Grown h base) (hb : Tree.Built base h' handle w (h.unfold v)) : h'.equal w v = true := by
  have hGrown := hg.trans hb.grown
  have hcount := hb.count_le
  have hdepth : h.objects.size + h.natives.size ≤ h'.depth := by
    have ho := hGrown.objects_le
    have hn := hGrown.natives_le
    unfold depth
    omega
  have hheight : (h.unfold v).height ≤ h'.depth := by
    unfold count at hcount
    unfold depth
    omega
  refine equalTo_of_unfoldTo hl.unfold h'.depth w v hheight (hb.shows h' (.refl h') _ hheight) ?_
  rw [hl.unfoldTo_grown hGrown,hl.acyclic.unfoldTo_eq hdepth]

end Equality
end Heap
end Wiring
