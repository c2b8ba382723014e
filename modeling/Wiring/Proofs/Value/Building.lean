import Mathlib
import Wiring.Proofs.Value.Keyed
import Wiring.Proofs.Value.Reaching
import Wiring.Value.Equality

/-!
# Values built from trees

Building only adds cells to the heap, and what is built unfolds to its tree, there and in
every heap that has grown from it. It shares no cell with what was there before, and all
its handles are the one it was built with.
-/
namespace Wiring
namespace Heap

/-- The cells of the first heap are in the second, with what they held. -/
structure Grown (h h' : Heap) : Prop where
  objects_le : h.objects.size ≤ h'.objects.size
  natives_le : h.natives.size ≤ h'.natives.size
  objects : ∀ i < h.objects.size, h'.objects[i]? = h.objects[i]?
  natives : ∀ i < h.natives.size, h'.natives[i]? = h.natives[i]?

/-- The number of cells. -/
def count (h : Heap) : Nat := h.objects.size + h.natives.size

namespace Grown

theorem refl (h : Heap) : Grown h h := ⟨Nat.le_refl _,Nat.le_refl _,fun _ _ => rfl,fun _ _ => rfl⟩

theorem trans {h h' h'' : Heap} (a : Grown h h') (b : Grown h' h'') : Grown h h'' where
  objects_le := a.objects_le.trans b.objects_le
  natives_le := a.natives_le.trans b.natives_le
  objects i hi := (b.objects i (hi.trans_le a.objects_le)).trans (a.objects i hi)
  natives i hi := (b.natives i (hi.trans_le a.natives_le)).trans (a.natives i hi)

theorem newObject (h : Heap) (className : String) (properties : Table String Value) :
    Grown h (h.newObject className properties).2 where
  objects_le := by simp [Heap.newObject]
  natives_le := Nat.le_refl _
  objects i hi := by simp [Heap.newObject,Array.getElem?_push,Nat.ne_of_lt hi]
  natives _ _ := rfl

theorem newNative (h : Heap) (typeName : String) (native : Native) :
    Grown h (h.newNative typeName native).2 where
  objects_le := Nat.le_refl _
  natives_le := by simp [Heap.newNative]
  objects _ _ := rfl
  natives i hi := by simp [Heap.newNative,Array.getElem?_push,Nat.ne_of_lt hi]

variable {h h' : Heap}

theorem properties_eq (hg : Grown h h') {ref : ObjectRef} (hr : ref.index < h.objects.size) :
    h'.properties ref = h.properties ref := by
  have hsame := hg.objects ref.index hr
  unfold Heap.properties
  rw [Array.getD_eq_getD_getElem?,Array.getD_eq_getD_getElem?,hsame]

theorem native_eq (hg : Grown h h') {ref : NativeRef} (hr : ref.index < h.natives.size) :
    h'.native? ref = h.native? ref := hg.natives ref.index hr

end Grown

theorem properties_newObject (h : Heap) (className : String) (rows : Table String Value) :
    (h.newObject className rows).2.properties (h.newObject className rows).1 = rows := by
  simp [newObject,properties,Array.getD]

theorem native_newNative (h : Heap) (typeName : String) (native : Native) :
    (h.newNative typeName native).2.native? (h.newNative typeName native).1 = some native := by
  simp [newNative,native?]

end Heap

namespace Tree

mutual

/-- How many objects and natives of a tree lie within one another. -/
def height : Tree → Nat
  | null | bool _ | int _ | float _ | text _ | blob _ _ | injector | foreign _ none => 0
  | array ⟨entries,_⟩ => entriesHeight entries
  | object _ properties => propertiesHeight properties + 1
  | foreign _ (some source) => height source + 1

def entriesHeight : List (ArrayKey × Tree) → Nat
  | [] => 0
  | (_,tree) :: rest => max (height tree) (entriesHeight rest)

def propertiesHeight : List (String × Tree) → Nat
  | [] => 0
  | (_,tree) :: rest => max (height tree) (propertiesHeight rest)

end

theorem height_le_of_entry {entries : List (ArrayKey × Tree)} {e : ArrayKey × Tree}
    (hm : e ∈ entries) : e.2.height ≤ entriesHeight entries := by
  induction entries with
  | nil => cases hm
  | cons d rest ih =>
    simp only [entriesHeight]
    rcases List.mem_cons.mp hm with rfl | hm
    · exact Nat.le_max_left _ _
    · exact (ih hm).trans (Nat.le_max_right _ _)

theorem height_le_of_property {properties : List (String × Tree)} {p : String × Tree}
    (hm : p ∈ properties) : p.2.height ≤ propertiesHeight properties := by
  induction properties with
  | nil => cases hm
  | cons d rest ih =>
    simp only [propertiesHeight]
    rcases List.mem_cons.mp hm with rfl | hm
    · exact Nat.le_max_left _ _
    · exact (ih hm).trans (Nat.le_max_right _ _)

open Heap (Grown)

/-- A cell that was not there before, or an injector held by the handle, or a scalar. -/
def Made (h : Heap) (handle : Handle) : Value → Prop
  | .object ref => h.objects.size ≤ ref.index
  | .native ref => h.natives.size ≤ ref.index
  | .injector held => held = handle
  | _ => True

theorem Made.of_grown {h h' : Heap} {handle : Handle} {v : Value} (hm : Made h' handle v)
    (hg : Grown h h') : Made h handle v := by
  cases v with
  | object ref => exact hg.objects_le.trans hm
  | native ref => exact hg.natives_le.trans hm
  | _ => exact hm

/-- The value is built for the tree between two states of the heap, and stays what it is
however the heap grows. -/
structure Built (h h' : Heap) (handle : Handle) (v : Value) (t : Tree) : Prop where
  grown : Grown h h'
  count_le : h.count + t.height ≤ h'.count
  shows : ∀ h'', Grown h' h'' → ∀ n, t.height ≤ n → h''.unfoldTo n v = t
  made : ∀ h'', Grown h' h'' → ∀ u, h''.Reaches v u → Made h handle u

/-- The same for rows of an array or an object, one after another. -/
structure BuiltRows {κ : Type} (h h' : Heap) (handle : Handle) (rows : List (κ × Value))
    (trees : List (κ × Tree)) (height : Nat) : Prop where
  grown : Grown h h'
  count_le : h.count + height ≤ h'.count
  shows : ∀ h'', Grown h' h'' → ∀ n, height ≤ n →
    (rows.map fun r => (r.1,h''.unfoldTo n r.2)) = trees
  made : ∀ h'', Grown h' h'' → ∀ r ∈ rows, ∀ u, h''.Reaches r.2 u → Made h handle u

namespace BuiltRows

variable {κ : Type} {h h₁ h₂ : Heap} {handle : Handle} {rows : List (κ × Value)}
  {trees : List (κ × Tree)} {n : Nat}

theorem nil (h : Heap) : BuiltRows h h handle ([] : List (κ × Value)) [] 0 where
  grown := .refl h
  count_le := Nat.le_refl _
  shows _ _ _ _ := rfl
  made _ _ _ hr := by cases hr

theorem cons {v : Value} {t : Tree} (key : κ) (hv : Built h h₁ handle v t)
    (hr : BuiltRows h₁ h₂ handle rows trees n) :
    BuiltRows h h₂ handle ((key,v) :: rows) ((key,t) :: trees) (max t.height n) where
  grown := hv.grown.trans hr.grown
  count_le := by
    have hfirst := hv.count_le
    have hrest := hr.count_le
    omega
  shows h'' hg k hk := by
    have hfirst := hv.shows h'' (hr.grown.trans hg) k (by omega)
    have hrest := hr.shows h'' hg k (by omega)
    rw [List.map_cons,hfirst,hrest]
  made h'' hg r hm u hu := by
    rcases List.mem_cons.mp hm with rfl | hm
    · exact hv.made h'' (hr.grown.trans hg) u hu
    · exact (hr.made h'' hg r hm u hu).of_grown hv.grown

theorem keys (hr : BuiltRows h h₁ handle rows trees n) :
    rows.map Prod.fst = trees.map Prod.fst := by
  have hkeys := congrArg (List.map Prod.fst) (hr.shows h₁ (.refl h₁) n (Nat.le_refl n))
  rw [List.map_map] at hkeys
  exact hkeys

end BuiltRows

theorem Built.of_scalar {h : Heap} {handle : Handle} {v : Value} {t : Tree}
    (hheight : t.height = 0) (hshows : ∀ (h : Heap) n, h.unfoldTo n v = t)
    (hholds : ∀ (h : Heap) u, ¬h.Holds v u) (hmade : Made h handle v) : Built h h handle v t where
  grown := .refl h
  count_le := by omega
  shows h'' _ n _ := hshows h'' n
  made h'' _ u hu := by
    rcases Relation.ReflTransGen.cases_head hu with rfl | ⟨w,hw,_⟩
    · exact hmade
    · exact absurd hw (hholds h'' w)

theorem Built.of_array {h h' : Heap} {handle : Handle} {rows : List (ArrayKey × Value)}
    {entries : List (ArrayKey × Tree)} {next : Int64}
    (hr : BuiltRows h h' handle rows entries (entriesHeight entries)) :
    Built h h' handle (.array ⟨rows,next⟩) (.array ⟨entries,next⟩) where
  grown := hr.grown
  count_le := hr.count_le
  shows h'' hg n hn := by rw [Heap.unfoldTo_array,hr.shows h'' hg n hn]
  made h'' hg u hu := by
    rcases Relation.ReflTransGen.cases_head hu with rfl | ⟨w,hw,hu⟩
    · trivial
    · cases hw with
      | entry hm => exact hr.made h'' hg _ hm u hu

theorem Built.of_object {h h' : Heap} {handle : Handle} {rows : List (String × Value)}
    {properties : List (String × Tree)} (className : String)
    (hr : BuiltRows h h' handle rows properties (propertiesHeight properties)) :
    Built h (h'.newObject className rows).2 handle (.object (h'.newObject className rows).1)
      (.object className properties) where
  grown := hr.grown.trans (.newObject h' className rows)
  count_le := by
    have hrows := hr.count_le
    simp only [height,Heap.newObject,Heap.count,Array.size_push] at hrows ⊢
    omega
  shows h'' hg n hn := by
    have hin : (h'.newObject className rows).1.index <
        (h'.newObject className rows).2.objects.size := by simp [Heap.newObject]
    obtain ⟨k,rfl⟩ : ∃ k, n = k + 1 := ⟨n - 1,by simp only [height] at hn; omega⟩
    have hk : propertiesHeight properties ≤ k := by simpa [height] using hn
    rw [Heap.unfoldTo_object,hg.properties_eq hin,Heap.properties_newObject,
      hr.shows h'' ((Grown.newObject h' className rows).trans hg) k hk]
    rfl
  made h'' hg u hu := by
    have hin : (h'.newObject className rows).1.index <
        (h'.newObject className rows).2.objects.size := by simp [Heap.newObject]
    rcases Relation.ReflTransGen.cases_head hu with rfl | ⟨w,hw,hu⟩
    · exact hr.grown.objects_le
    · cases hw with
      | property hm =>
        rw [hg.properties_eq hin,Heap.properties_newObject] at hm
        exact hr.made h'' ((Grown.newObject h' className rows).trans hg) _ hm u hu

theorem Built.of_native {h h' : Heap} {handle : Handle} (typeName : String) (native : Native)
    {t : Tree} (hg : Grown h h') (hcount : h.count + t.height ≤ h'.count + 1)
    (hshows : ∀ h'', Grown (h'.newNative typeName native).2 h'' → ∀ n, t.height ≤ n →
      h''.unfoldTo n (.native (h'.newNative typeName native).1) = t)
    (hmade : ∀ h'', Grown (h'.newNative typeName native).2 h'' → ∀ v,
      native = .foreign (some v) → ∀ u, h''.Reaches v u → Made h handle u) :
    Built h (h'.newNative typeName native).2 handle (.native (h'.newNative typeName native).1) t where
  grown := hg.trans (.newNative h' typeName native)
  count_le := by
    simp only [Heap.newNative,Heap.count,Array.size_push] at hcount ⊢
    omega
  shows := hshows
  made h'' hgrown u hu := by
    have hin : (h'.newNative typeName native).1.index <
        (h'.newNative typeName native).2.natives.size := by simp [Heap.newNative]
    rcases Relation.ReflTransGen.cases_head hu with rfl | ⟨w,hw,hu⟩
    · exact hg.natives_le
    · cases hw with
      | source hs =>
        rw [hgrown.native_eq hin,Heap.native_newNative] at hs
        exact hmade h'' hgrown w (Option.some.inj hs) u hu

theorem unfoldNative_newNative {h h'' : Heap} {typeName : String} {native : Native}
    (hg : Grown (h.newNative typeName native).2 h'') (ofValue : Value → Tree) :
    h''.unfoldNative ofValue (h.newNative typeName native).1 =
      match native with
      | .blob bytes => .blob typeName bytes
      | .foreign source => .foreign typeName (source.map ofValue)
      | .point _ _ => .foreign typeName none := by
  have hin : (h.newNative typeName native).1.index <
      (h.newNative typeName native).2.natives.size := by simp [Heap.newNative]
  unfold Heap.unfoldNative
  rw [hg.native_eq hin,Heap.native_newNative]
  cases native with
  | blob => rfl
  | foreign => rfl
  | point => rfl

mutual

theorem built_build (handle : Handle) : ∀ (t : Tree) (h : Heap),
    Built h (build handle t h).2 handle (build handle t h).1 t
  | null, h | bool _, h | int _, h | float _, h | text _, h | injector, h => by
    refine .of_scalar rfl (fun h n => ?_) (fun h u hu => ?_) ?_
    · cases n <;> rfl
    · cases hu
    · trivial
  | array ⟨entries,next⟩, h => by
    simp only [build]
    exact .of_array (built_buildEntries handle entries h)
  | object className properties, h => by
    simp only [build]
    exact .of_object className (built_buildProperties handle properties h)
  | blob typeName bytes, h => by
    simp only [build]
    refine .of_native typeName _ (.refl h) (by simp [height]) (fun h'' hg n _ => ?_)
      fun _ _ v hv => by cases hv
    cases n <;> exact unfoldNative_newNative hg _
  | foreign typeName none, h => by
    simp only [build]
    refine .of_native typeName _ (.refl h) (by simp [height]) (fun h'' hg n _ => ?_)
      fun _ _ v hv => by cases hv
    cases n <;> exact unfoldNative_newNative hg _
  | foreign typeName (some source), h => by
    have hs := built_build handle source h
    have hcount := hs.count_le
    simp only [build]
    refine .of_native typeName _ hs.grown (by simp only [height]; omega) (fun h'' hg n hn => ?_)
      fun h'' hg v hv u hu => ?_
    · obtain ⟨k,rfl⟩ : ∃ k, n = k + 1 := ⟨n - 1,by simp only [height] at hn; omega⟩
      have hk : source.height ≤ k := by simpa [height] using hn
      have hshow := hs.shows h'' ((Grown.newNative _ typeName _).trans hg) k hk
      rw [Heap.unfoldTo_native,unfoldNative_newNative hg]
      simp only [Option.map_some,hshow]
    · obtain rfl : (build handle source h).1 = v := by simpa using hv
      exact hs.made h'' ((Grown.newNative _ typeName _).trans hg) u hu

theorem built_buildEntries (handle : Handle) : ∀ (entries : List (ArrayKey × Tree)) (h : Heap),
    BuiltRows h (buildEntries handle entries h).2 handle (buildEntries handle entries h).1 entries
      (entriesHeight entries)
  | [], h => by
    simp only [buildEntries,entriesHeight]
    exact .nil h
  | (key,t) :: rest, h => by
    simp only [buildEntries,entriesHeight]
    exact .cons key (built_build handle t h) (built_buildEntries handle rest _)

theorem built_buildProperties (handle : Handle) : ∀ (properties : List (String × Tree)) (h : Heap),
    BuiltRows h (buildProperties handle properties h).2 handle
      (buildProperties handle properties h).1 properties (propertiesHeight properties)
  | [], h => by
    simp only [buildProperties,propertiesHeight]
    exact .nil h
  | (name,t) :: rest, h => by
    simp only [buildProperties,propertiesHeight]
    exact .cons name (built_build handle t h) (built_buildProperties handle rest _)

end

end Tree
end Wiring
