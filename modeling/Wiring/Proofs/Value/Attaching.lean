import Mathlib
import Wiring.Proofs.Value.Literal
import Wiring.Value.Attach

/-!
# Attaching replaces handles and nothing else

What attaching makes of a value is told by its arrays alone, and what it makes of the heap by the
objects that the value leads to: the handles in them are the new one, all else is what it was. So
what is built detached from the tree of a literal and then attached is what would have been built
for the injector at once.
-/
namespace Wiring

open Heap (Grown)

namespace Value

mutual

/-- The value with the handles in its arrays replaced. -/
def attached (handle : Handle) : Value → Value
  | array ⟨entries,next⟩ => array ⟨attachedEntries handle entries,next⟩
  | injector _ => injector handle
  | null => null
  | bool b => bool b
  | int i => int i
  | float x => float x
  | text s => text s
  | object ref => object ref
  | native ref => native ref

def attachedEntries (handle : Handle) : List (ArrayKey × Value) → List (ArrayKey × Value)
  | [] => []
  | (key,value) :: rest => (key,attached handle value) :: attachedEntries handle rest

end

/-- The rows with the handles in their values replaced. -/
def attachedRows {κ : Type} (handle : Handle) (rows : List (κ × Value)) : List (κ × Value) :=
  rows.map fun r => (r.1,r.2.attached handle)

theorem attachedEntries_eq (handle : Handle) (entries : List (ArrayKey × Value)) :
    attachedEntries handle entries = attachedRows handle entries := by
  induction entries with
  | nil => rfl
  | cons e rest ih =>
    rw [attachedEntries,ih]
    rfl

theorem attached_array (handle : Handle) (entries : List (ArrayKey × Value)) (next : Int64) :
    (array ⟨entries,next⟩).attached handle = array ⟨attachedRows handle entries,next⟩ := by
  rw [attached,attachedEntries_eq]

mutual

/-- Only the last handle counts. -/
theorem attached_attached (a b : Handle) : ∀ v : Value,
    (v.attached a).attached b = v.attached b
  | array ⟨entries,next⟩ => by
    simp only [attached,attachedEntries_attachedEntries a b entries]
  | injector _ | null | bool _ | int _ | float _ | text _ | object _ | native _ => by
    simp only [attached]

theorem attachedEntries_attachedEntries (a b : Handle) : ∀ entries : List (ArrayKey × Value),
    attachedEntries b (attachedEntries a entries) = attachedEntries b entries
  | [] => rfl
  | (key,value) :: rest => by
    simp only [attachedEntries,attached_attached a b value,
      attachedEntries_attachedEntries a b rest]

end

theorem attachedRows_attachedRows {κ : Type} (a b : Handle) (rows : List (κ × Value)) :
    attachedRows b (attachedRows a rows) = attachedRows b rows := by
  unfold attachedRows
  rw [List.map_map]
  refine List.map_congr_left fun r _ => ?_
  exact congrArg (Prod.mk r.1) (attached_attached a b r.2)

end Value

namespace Heap

/-- The object of that number is led to through arrays and properties, within so many
references. -/
inductive Leads (h : Heap) : Nat → Value → Nat → Prop where
  | entry {n i : Nat} {entries : List (ArrayKey × Value)} {next : Int64} {key : ArrayKey}
      {value : Value} (hm : (key,value) ∈ entries) (hl : Leads h n value i) :
      Leads h n (.array ⟨entries,next⟩) i
  | here (n : Nat) (ref : ObjectRef) : Leads h (n + 1) (.object ref) ref.index
  | property {n i : Nat} {ref : ObjectRef} {name : String} {value : Value}
      (hm : (name,value) ∈ h.properties ref) (hl : Leads h n value i) :
      Leads h (n + 1) (.object ref) i

/-- The heap after these objects have been attached. -/
structure Attached (handle : Handle) (S : Nat → Prop) (h h' : Heap) : Prop where
  size : h'.objects.size = h.objects.size
  natives : h'.natives = h.natives
  inside : ∀ i, S i → h'.objects[i]? = h.objects[i]?.map (Value.attachedRows handle)
  outside : ∀ i, ¬S i → h'.objects[i]? = h.objects[i]?

variable {handle : Handle} {h h' h'' : Heap} {S T : Nat → Prop}

namespace Leads

/-- What is led to lies in an object that is reached. -/
theorem reaches {n i : Nat} {v : Value} (hl : h.Leads n v i) :
    ∃ ref, h.Reaches v (.object ref) ∧ ref.index = i := by
  induction hl with
  | entry hm _ ih =>
    obtain ⟨ref,hr,hi⟩ := ih
    exact ⟨ref,hr.head (.entry hm),hi⟩
  | here n ref => exact ⟨ref,.refl,rfl⟩
  | property hm _ ih =>
    obtain ⟨ref,hr,hi⟩ := ih
    exact ⟨ref,hr.head (.property hm),hi⟩

/-- Rows that differ in handles only have a partner for each row. -/
theorem partner {κ : Type} {rows rows' : List (κ × Value)}
    (hr : Value.attachedRows none rows = Value.attachedRows none rows') {r : κ × Value}
    (hm : r ∈ rows) : ∃ v, (r.1,v) ∈ rows' ∧ r.2.attached none = v.attached none := by
  have hmem : (r.1,r.2.attached none) ∈ Value.attachedRows none rows' := by
    rw [← hr]
    exact List.mem_map_of_mem hm
  obtain ⟨⟨key,v⟩,hr',heq⟩ := List.mem_map.mp hmem
  obtain ⟨rfl,hvalue⟩ := Prod.mk.inj heq
  exact ⟨v,hr',hvalue.symm⟩

/-- Handles lead nowhere, so values and heaps that differ in handles only lead to the same
objects. -/
theorem of_alike
    (hh : ∀ ref, Value.attachedRows none (h.properties ref) =
      Value.attachedRows none (h'.properties ref))
    {n i : Nat} {v v' : Value} (hl : h.Leads n v i) (hv : v.attached none = v'.attached none) :
    h'.Leads n v' i := by
  induction hl generalizing v' with
  | @entry n i entries next key value hm _ ih =>
    rw [Value.attached_array] at hv
    cases v' with
    | array items =>
      obtain ⟨entries',next'⟩ := items
      rw [Value.attached_array] at hv
      obtain ⟨hrows,_⟩ := Keyed.mk.inj (Value.array.inj hv)
      obtain ⟨value',hm',hvalue⟩ := partner hrows hm
      exact .entry hm' (ih hvalue)
    | _ => simp only [Value.attached,reduceCtorEq] at hv
  | here n ref =>
    cases v' with
    | object ref' =>
      simp only [Value.attached,Value.object.injEq] at hv
      subst hv
      exact .here n ref
    | array items => cases items; simp only [Value.attached,reduceCtorEq] at hv
    | _ => simp only [Value.attached,reduceCtorEq] at hv
  | @property n i ref name value hm _ ih =>
    cases v' with
    | object ref' =>
      simp only [Value.attached,Value.object.injEq] at hv
      subst hv
      obtain ⟨value',hm',hvalue⟩ := partner (hh ref) hm
      exact .property hm' (ih hvalue)
    | array items => cases items; simp only [Value.attached,reduceCtorEq] at hv
    | _ => simp only [Value.attached,reduceCtorEq] at hv

end Leads

namespace Attached

theorem none_led (handle : Handle) (h : Heap) (hS : ∀ i, ¬S i) : Attached handle S h h where
  size := rfl
  natives := rfl
  inside i hi := absurd hi (hS i)
  outside _ _ := rfl

/-- Objects that are attached twice are attached. -/
theorem union (ha : Attached handle S h h') (hb : Attached handle T h' h'') :
    Attached handle (fun i => S i ∨ T i) h h'' where
  size := hb.size.trans ha.size
  natives := hb.natives.trans ha.natives
  inside i hi := by
    by_cases hT : T i
    · rw [hb.inside i hT]
      by_cases hS : S i
      · rw [ha.inside i hS,Option.map_map]
        refine congrArg (fun f => Option.map f h.objects[i]?) ?_
        exact funext fun rows => Value.attachedRows_attachedRows handle handle rows
      · rw [ha.outside i hS]
    · have hS : S i := hi.resolve_right hT
      rw [hb.outside i hT,ha.inside i hS]
  outside i hi := by
    rw [not_or] at hi
    rw [hb.outside i hi.2,ha.outside i hi.1]

theorem congr (ha : Attached handle S h h') (hST : ∀ i, S i ↔ T i) : Attached handle T h h' := by
  obtain rfl : S = T := funext fun i => propext (hST i)
  exact ha

theorem rows (ha : Attached handle S h h') (ref : ObjectRef) :
    Value.attachedRows none (h.properties ref) = Value.attachedRows none (h'.properties ref) := by
  unfold properties
  rw [Array.getD_eq_getD_getElem?,Array.getD_eq_getD_getElem?]
  by_cases hS : S ref.index
  · rw [ha.inside _ hS]
    cases h.objects[ref.index]? with
    | none => rfl
    | some rows => exact (Value.attachedRows_attachedRows handle none rows).symm
  · rw [ha.outside _ hS]

/-- Attaching changes nothing about where values lead. -/
theorem leads (ha : Attached handle S h h') (n : Nat) (v : Value) (i : Nat) :
    h'.Leads n v i ↔ h.Leads n v i :=
  ⟨fun hl => hl.of_alike (fun ref => (ha.rows ref).symm) rfl,fun hl => hl.of_alike ha.rows rfl⟩

/-- An object whose attached rows are stored is attached. -/
theorem store (ha : Attached handle S h h') (ref : ObjectRef) :
    Attached handle (fun i => i = ref.index ∨ S i) h
      { h' with
        objects := h'.objects.setIfInBounds ref.index
          (Value.attachedRows handle (h.properties ref)) } where
  size := by rw [Array.size_setIfInBounds,ha.size]
  natives := ha.natives
  inside i hi := by
    rw [Array.getElem?_setIfInBounds]
    by_cases heq : ref.index = i
    · subst heq
      rw [if_pos rfl,ha.size,properties,Array.getD_eq_getD_getElem?]
      by_cases hin : ref.index < h.objects.size
      · rw [if_pos hin,Array.getElem?_eq_getElem hin]
        rfl
      · rw [if_neg hin,Array.getElem?_eq_none (Nat.le_of_not_lt hin)]
        rfl
    · rw [if_neg heq,ha.inside i (hi.resolve_left fun e => heq e.symm)]
  outside i hi := by
    rw [not_or] at hi
    rw [Array.getElem?_setIfInBounds,if_neg fun e => hi.1 e.symm,ha.outside i hi.2]

end Attached

/-- Attaching a value replaces its handles and those of all objects it leads to. -/
structure Attaches (handle : Handle) (n : Nat) (v : Value) (h : Heap) (out : Value × Heap) :
    Prop where
  value : out.1 = v.attached handle
  heap : Attached handle (h.Leads n v) h out.2

theorem attachEntries_eq (ofObject : ObjectRef → Heap → Heap)
    (entries : List (ArrayKey × Value)) (h : Heap) :
    Value.attachEntries ofObject handle entries h =
      attachRows (Value.attachWith ofObject handle) entries h := by
  induction entries generalizing h with
  | nil => rfl
  | cons e rest ih => simp only [Value.attachEntries,attachRows,ih]

theorem attachRows_spec {κ : Type} {n : Nat} {attach : Value → Heap → Value × Heap} :
    ∀ (rows : List (κ × Value)) (h : Heap),
      (∀ r ∈ rows, ∀ h, Attaches handle n r.2 h (attach r.2 h)) →
      (attachRows attach rows h).1 = Value.attachedRows handle rows ∧
        Attached handle (fun i => ∃ r ∈ rows, h.Leads n r.2 i) h (attachRows attach rows h).2
  | [], h, _ => ⟨rfl,.none_led handle h fun i hi => by simp at hi⟩
  | r :: rest, h, hv => by
    have hfirst := hv r List.mem_cons_self h
    obtain ⟨hrows,hrest⟩ := attachRows_spec rest (attach r.2 h).2
      fun d hd => hv d (List.mem_cons_of_mem _ hd)
    constructor
    · simp only [attachRows,hfirst.value,hrows]
      rfl
    · refine (hfirst.heap.union hrest).congr fun i => ?_
      simp only [hfirst.heap.leads,List.mem_cons,exists_eq_or_imp]

-- On the depth, and within an array on its size.
theorem attachTo_spec (handle : Handle) : ∀ (n : Nat) (v : Value) (h : Heap),
    Attaches handle n v h (attachTo handle n v h)
  | n, .array ⟨entries,next⟩, h => by
    have hstep : attachTo handle n (.array ⟨entries,next⟩) h =
        (.array ⟨(attachRows (attachTo handle n) entries h).1,next⟩,
          (attachRows (attachTo handle n) entries h).2) := by
      cases n <;> simp only [attachTo,Value.attachWith,attachEntries_eq]
    obtain ⟨hrows,hheap⟩ := attachRows_spec entries h fun e he h' => by
      have hsize := sizeOf_entry he next
      exact attachTo_spec handle n e.2 h'
    rw [hstep]
    refine ⟨?_,hheap.congr fun i => ⟨?_,?_⟩⟩
    · rw [hrows,Value.attached_array]
    · rintro ⟨e,he,hl⟩
      exact .entry he hl
    · intro hl
      cases hl with
      | entry he hl => exact ⟨_,he,hl⟩
  | 0, .object ref, h => ⟨rfl,.none_led handle h fun i hi => by cases hi⟩
  | n + 1, .object ref, h => by
    obtain ⟨hrows,hheap⟩ := attachRows_spec (h.properties ref) h fun p _ h' =>
      attachTo_spec handle n p.2 h'
    have hstored := hheap.store ref
    rw [← hrows] at hstored
    refine ⟨rfl,hstored.congr fun i => ⟨?_,?_⟩⟩
    · rintro (rfl | ⟨p,hp,hl⟩)
      · exact .here n ref
      · exact .property hp hl
    · intro hl
      cases hl with
      | here => exact .inl rfl
      | property hp hl => exact .inr ⟨_,hp,hl⟩
  | 0, .null, h | 0, .bool _, h | 0, .int _, h | 0, .float _, h | 0, .text _, h
  | 0, .native _, h | 0, .injector _, h
  | _ + 1, .null, h | _ + 1, .bool _, h | _ + 1, .int _, h | _ + 1, .float _, h
  | _ + 1, .text _, h | _ + 1, .native _, h | _ + 1, .injector _, h =>
    ⟨rfl,.none_led handle h fun i hi => by cases hi⟩
termination_by n v => (n,sizeOf v)
decreasing_by
  · exact Prod.Lex.right _ hsize
  · exact Prod.Lex.left _ _ (Nat.lt_succ_self _)

/-- Attaching replaces the handles in the arrays of the value and in the objects that it leads
to, and nothing else. -/
theorem attach_spec (h : Heap) (handle : Handle) (v : Value) :
    Attaches handle h.depth v h (h.attach handle v) := attachTo_spec handle h.depth v h

/-- Where new objects only are attached, the heap has grown. -/
theorem Attached.grown {base : Heap} (ha : Attached handle S h h') (hg : Grown base h)
    (hS : ∀ i, S i → base.objects.size ≤ i) : Grown base h' where
  objects_le := by
    rw [ha.size]
    exact hg.objects_le
  natives_le := by
    rw [ha.natives]
    exact hg.natives_le
  objects i hi := by
    rw [ha.outside i fun h => absurd (hS i h) (Nat.not_le_of_lt hi),hg.objects i hi]
  natives i hi := by rw [ha.natives,hg.natives i hi]

/-- The heap after attaching is told by the objects that there are. -/
theorem Attached.eq (ha : Attached handle S h h') (hb : Attached handle T h h'')
    (hST : ∀ i < h.objects.size, S i ↔ T i) : h' = h'' := by
  have hobjects : h'.objects = h''.objects := by
    refine Array.ext_getElem? fun i => ?_
    by_cases hi : i < h.objects.size
    · by_cases hS : S i
      · rw [ha.inside i hS,hb.inside i ((hST i hi).mp hS)]
      · rw [ha.outside i hS,hb.outside i fun hT => hS ((hST i hi).mpr hT)]
    · rw [Array.getElem?_eq_none (by rw [ha.size]; omega),
        Array.getElem?_eq_none (by rw [hb.size]; omega)]
  have hnatives : h'.natives = h''.natives := ha.natives.trans hb.natives.symm
  cases h'
  cases h''
  exact Heap.mk.injEq .. ▸ ⟨hobjects,hnatives⟩

/-- The same object made with detached handles and with those of an injector. -/
theorem Attached.newObject {k : Nat} (ha : Attached handle (k ≤ ·) h h') (hk : k ≤ h.objects.size)
    (className : String) (rows : Table String Value) :
    (h'.newObject className (Value.attachedRows handle rows)).1 = (h.newObject className rows).1 ∧
      Attached handle (k ≤ ·) (h.newObject className rows).2
        (h'.newObject className (Value.attachedRows handle rows)).2 := by
  constructor
  · simp only [Heap.newObject,ha.size]
  constructor
  · simp only [Heap.newObject,Array.size_push,ha.size]
  · exact ha.natives
  · intro i hi
    simp only [Heap.newObject,Array.getElem?_push,ha.size]
    split
    · rfl
    · exact ha.inside i hi
  · intro i hi
    have hne : i ≠ h.objects.size := fun h => hi (h ▸ hk)
    simp only [Heap.newObject,Array.getElem?_push,ha.size,if_neg hne]
    exact ha.outside i hi

end Heap

namespace Tree

open Heap (Attached)

variable {handle : Handle} {h : Heap}

/-- What is built detached leads to new objects only, so attaching it leaves the others alone. -/
theorem grown_attach_build (t : Tree) (h : Heap) (handle : Handle) :
    Grown h ((t.build none h).2.attach handle (t.build none h).1).2 := by
  have hb := built_build none t h
  refine (Heap.attach_spec _ handle _).heap.grown hb.grown fun i hi => ?_
  obtain ⟨ref,hr,rfl⟩ := hi.reaches
  exact hb.made _ (.refl _) _ hr

/-- A tree built with detached handles and with those of an injector, in heaps that differ in the
handles of the objects from a number on. -/
structure BuiltAlike (handle : Handle) (k : Nat) (detached direct : Value × Heap) : Prop where
  value : direct.1 = detached.1.attached handle
  heap : Attached handle (k ≤ ·) detached.2 direct.2

section Rows

variable {κ : Type} {buildRows : Handle → List (κ × Tree) → Heap → List (κ × Value) × Heap}

/-- Building rows one after another, of whatever they are the rows. -/
structure BuildsRows (buildRows : Handle → List (κ × Tree) → Heap → List (κ × Value) × Heap) :
    Prop where
  nil (handle : Handle) (h : Heap) : buildRows handle [] h = ([],h)
  cons (handle : Handle) (r : κ × Tree) (rest : List (κ × Tree)) (h : Heap) :
    buildRows handle (r :: rest) h =
      ((r.1,(r.2.build handle h).1) :: (buildRows handle rest (r.2.build handle h).2).1,
        (buildRows handle rest (r.2.build handle h).2).2)

theorem buildsRows_entries : BuildsRows buildEntries :=
  ⟨fun _ _ => by simp only [buildEntries],fun _ _ _ _ => by simp only [buildEntries]⟩

theorem buildsRows_properties : BuildsRows buildProperties :=
  ⟨fun _ _ => by simp only [buildProperties],fun _ _ _ _ => by simp only [buildProperties]⟩

namespace BuildsRows

theorem grown (hb : BuildsRows buildRows) (handle : Handle) (rows : List (κ × Tree)) (h : Heap) :
    Grown h (buildRows handle rows h).2 := by
  induction rows generalizing h with
  | nil =>
    rw [hb.nil]
    exact .refl h
  | cons r rest ih =>
    rw [hb.cons]
    exact (built_build handle r.2 h).grown.trans (ih _)

theorem alike (hb : BuildsRows buildRows) {k : Nat} {rows : List (κ × Tree)}
    (hr : ∀ r ∈ rows, ∀ {g g' : Heap}, Attached handle (k ≤ ·) g g' → k ≤ g.objects.size →
      BuiltAlike handle k (r.2.build none g) (r.2.build handle g')) {g g' : Heap}
    (ha : Attached handle (k ≤ ·) g g') (hk : k ≤ g.objects.size) :
    (buildRows handle rows g').1 = Value.attachedRows handle (buildRows none rows g).1 ∧
      Attached handle (k ≤ ·) (buildRows none rows g).2 (buildRows handle rows g').2 := by
  induction rows generalizing g g' with
  | nil =>
    rw [hb.nil,hb.nil]
    exact ⟨rfl,ha⟩
  | cons r rest ih =>
    have hfirst := hr r List.mem_cons_self ha hk
    have hk' := hk.trans (built_build none r.2 g).grown.objects_le
    obtain ⟨hvalues,hheap⟩ := ih (fun d hd => hr d (List.mem_cons_of_mem _ hd)) hfirst.heap hk'
    rw [hb.cons,hb.cons]
    refine ⟨?_,hheap⟩
    rw [hvalues,hfirst.value]
    rfl

/-- An object that is made for rows is led to by one of them. -/
theorem leads (hb : BuildsRows buildRows) {n i : Nat} {rows : List (κ × Tree)}
    (hr : ∀ r ∈ rows, ∀ {g h' : Heap}, Grown (r.2.build none g).2 h' → g.objects.size ≤ i →
      i < (r.2.build none g).2.objects.size → h'.Leads n (r.2.build none g).1 i) {g h' : Heap}
    (hg : Grown (buildRows none rows g).2 h') (hlow : g.objects.size ≤ i)
    (hhigh : i < (buildRows none rows g).2.objects.size) :
    ∃ r ∈ (buildRows none rows g).1, h'.Leads n r.2 i := by
  induction rows generalizing g with
  | nil =>
    rw [hb.nil] at hhigh
    exact absurd hhigh (Nat.not_lt_of_le hlow)
  | cons r rest ih =>
    rw [hb.cons] at hg hhigh ⊢
    by_cases hfirst : i < (r.2.build none g).2.objects.size
    · have hgrown := (hb.grown none rest (r.2.build none g).2).trans hg
      exact ⟨_,List.mem_cons_self,hr r List.mem_cons_self hgrown hlow hfirst⟩
    · obtain ⟨d,hd,hl⟩ := ih (fun d hd => hr d (List.mem_cons_of_mem _ hd)) hg
        (Nat.le_of_not_lt hfirst) hhigh
      exact ⟨d,List.mem_cons_of_mem _ hd,hl⟩

end BuildsRows

end Rows

/-- Only the handles of what is built for a literal depend on the handle. -/
theorem Literal.build_alike {t : Tree} (ht : t.Literal) {k : Nat} {g g' : Heap}
    (ha : Attached handle (k ≤ ·) g g') (hk : k ≤ g.objects.size) :
    BuiltAlike handle k (t.build none g) (t.build handle g') := by
  induction ht generalizing g g' with
  | null | bool | int | float | text | injector => exact ⟨rfl,ha⟩
  | array _ _ ih =>
    obtain ⟨hvalues,hheap⟩ := buildsRows_entries.alike ih ha hk
    simp only [build]
    refine ⟨?_,hheap⟩
    rw [hvalues,Value.attached_array]
  | @object properties className _ _ ih =>
    obtain ⟨hvalues,hheap⟩ := buildsRows_properties.alike ih ha hk
    have hk' := hk.trans (buildsRows_properties.grown none properties g).objects_le
    obtain ⟨href,hmade⟩ := hheap.newObject hk' className (buildProperties none properties g).1
    simp only [build,hvalues]
    exact ⟨congrArg Value.object href,hmade⟩
  | blob typeName bytes =>
    simp only [build,Heap.newNative,ha.natives]
    exact ⟨rfl,ha.size,rfl,ha.inside,ha.outside⟩

/-- A literal leads to all objects that are made for it. -/
theorem Literal.leads_build {t : Tree} (ht : t.Literal) {n i : Nat} {g h' : Heap}
    (hn : t.height ≤ n) (hg : Grown (t.build none g).2 h') (hlow : g.objects.size ≤ i)
    (hhigh : i < (t.build none g).2.objects.size) : h'.Leads n (t.build none g).1 i := by
  induction ht generalizing n g h' with
  | null | bool | int | float | text | injector | blob =>
    exact absurd hhigh (Nat.not_lt_of_le hlow)
  | array _ _ ih =>
    simp only [build] at hg hhigh ⊢
    obtain ⟨r,hr,hl⟩ := buildsRows_entries.leads (n := n)
      (fun e he _ _ hg hlow hhigh => ih e he ((height_le_of_entry he).trans hn) hg hlow hhigh)
      hg hlow hhigh
    exact .entry hr hl
  | @object properties className _ _ ih =>
    obtain ⟨n,rfl⟩ : ∃ m, n = m + 1 := ⟨n - 1,by simp only [height] at hn; omega⟩
    have hheight : propertiesHeight properties ≤ n := by
      simpa only [height,Nat.add_le_add_iff_right] using hn
    simp only [build] at hg hhigh ⊢
    have hin : (buildProperties none properties g).2.objects.size <
        ((buildProperties none properties g).2.newObject className
          (buildProperties none properties g).1).2.objects.size := by simp [Heap.newObject]
    by_cases hlast : i = (buildProperties none properties g).2.objects.size
    · subst hlast
      exact .here n _
    · have hbefore : i < (buildProperties none properties g).2.objects.size := by
        simp only [Heap.newObject,Array.size_push] at hhigh
        omega
      obtain ⟨r,hr,hl⟩ := buildsRows_properties.leads (n := n)
        (fun p hp _ _ hg hlow hhigh => ih p hp ((height_le_of_property hp).trans hheight)
          hg hlow hhigh) ((Grown.newObject _ className _).trans hg) hlow hbefore
      have hheld : (r.1,r.2) ∈ h'.properties ((buildProperties none properties g).2.newObject
          className (buildProperties none properties g).1).1 := by
        rw [hg.properties_eq hin,Heap.properties_newObject]
        exact hr
      exact .property hheld hl

/-- What is built detached for a literal and then attached to an injector is what is built for
the injector. -/
theorem Literal.attach_build {t : Tree} (ht : t.Literal) (handle : Handle) (h : Heap) :
    (t.build none h).2.attach handle (t.build none h).1 = t.build handle h := by
  have hattach := Heap.attach_spec (t.build none h).2 handle (t.build none h).1
  have hstart : Attached handle (h.objects.size ≤ ·) h h :=
    ⟨rfl,rfl,fun i hi => by rw [Array.getElem?_eq_none hi]; rfl,fun _ _ => rfl⟩
  have hbuild := ht.build_alike hstart (Nat.le_refl _)
  have hb := built_build none t h
  refine Prod.ext (hattach.value.trans hbuild.value.symm) ?_
  refine hattach.heap.eq hbuild.heap fun i hi => ⟨fun hl => ?_,fun hlow => ?_⟩
  · obtain ⟨ref,hr,rfl⟩ := hl.reaches
    exact hb.made _ (.refl _) _ hr
  · have hcount := hb.count_le
    have hheight : t.height ≤ (t.build none h).2.depth := by
      unfold Heap.count at hcount
      unfold Heap.depth
      omega
    exact ht.leads_build hheight (.refl _) hlow hi

end Tree
end Wiring
