import Mathlib
import Wiring.Value.Tree

/-!
# Values that do not contain themselves

A value holds the entries of an array, the properties of an object and the source of a
native, and reaches what they hold in turn. A chain of references from a value without
cycles passes no cell of the heap twice, so it is no longer than there are cells. That is
why unfolding to the depth of the heap shows such a value whole.
-/
namespace Wiring
namespace Heap

/-- What a value holds. -/
inductive Holds (h : Heap) : Value → Value → Prop where
  | entry {entries : List (ArrayKey × Value)} {next : Int64} {key : ArrayKey} {value : Value}
      (hm : (key,value) ∈ entries) : Holds h (.array ⟨entries,next⟩) value
  | property {ref : ObjectRef} {name : String} {value : Value}
      (hm : (name,value) ∈ h.properties ref) : Holds h (.object ref) value
  | source {ref : NativeRef} {value : Value}
      (hs : h.native? ref = some (.foreign (some value))) : Holds h (.native ref) value

def Reaches (h : Heap) : Value → Value → Prop := Relation.ReflTransGen h.Holds

/-- Nothing that the value reaches reaches itself again. -/
def Acyclic (h : Heap) (v : Value) : Prop :=
  ∀ u, h.Reaches v u → ¬Relation.TransGen h.Holds u u

theorem Acyclic.of_holds {h : Heap} {v u : Value} (ha : h.Acyclic v) (hh : h.Holds v u) :
    h.Acyclic u := fun w hw => ha w (hw.head hh)

theorem Acyclic.of_reaches {h : Heap} {v u : Value} (ha : h.Acyclic v) (hr : h.Reaches v u) :
    h.Acyclic u := fun w hw => ha w (hr.trans hw)

theorem acyclic_of_held {h : Heap} {v : Value} (hv : ∀ u, h.Holds v u → h.Acyclic u) :
    h.Acyclic v := by
  intro u hu hloop
  rcases Relation.ReflTransGen.cases_head hu with rfl | ⟨w,hw,hu⟩
  · obtain ⟨w,hw,hback⟩ := Relation.TransGen.head'_iff.mp hloop
    exact hv w hw v hback hloop
  · exact hv w hw u hu hloop

/-- A place of the heap. -/
inductive Cell where
  | object (index : Nat)
  | native (index : Nat)
  deriving DecidableEq

/-- The place that a reference leads to. -/
def cellOf : Value → Option Cell
  | .object ref => some (.object ref.index)
  | .native ref => some (.native ref.index)
  | _ => none

/-- Cells that are passed one after another on the way into a value. -/
inductive Passes (h : Heap) : Value → List Cell → Prop where
  | stop (v : Value) : Passes h v []
  | entry {entries : List (ArrayKey × Value)} {next : Int64} {key : ArrayKey} {value : Value}
      {cells : List Cell} (hm : (key,value) ∈ entries) (hp : Passes h value cells) :
      Passes h (.array ⟨entries,next⟩) cells
  | property {ref : ObjectRef} {name : String} {value : Value} {cells : List Cell}
      (hm : (name,value) ∈ h.properties ref) (hp : Passes h value cells) :
      Passes h (.object ref) (.object ref.index :: cells)
  | source {ref : NativeRef} {value : Value} {cells : List Cell}
      (hs : h.native? ref = some (.foreign (some value))) (hp : Passes h value cells) :
      Passes h (.native ref) (.native ref.index :: cells)

variable {h : Heap}

/-- What a cell holds does not depend on the name that a reference to it carries. -/
theorem Holds.of_cell {v w u : Value} {c : Cell} (hv : cellOf v = some c) (hw : cellOf w = some c)
    (hh : h.Holds v u) : h.Holds w u := by
  cases hh with
  | entry => cases hv
  | @property ref name value hm =>
    cases w with
    | object other =>
      have hi : ref.index = other.index := by
        rw [← hw] at hv
        simpa [cellOf] using hv
      have hm' : (name,u) ∈ h.properties other := by
        rw [properties,← hi]
        exact hm
      exact .property hm'
    | native other =>
      rw [← hw] at hv
      simp [cellOf] at hv
    | _ => cases hw
  | @source ref value hs =>
    cases w with
    | native other =>
      have hi : ref.index = other.index := by
        rw [← hw] at hv
        simpa [cellOf] using hv
      refine .source ?_
      rw [native?,← hi]
      exact hs
    | object other =>
      rw [← hw] at hv
      simp [cellOf] at hv
    | _ => cases hw

theorem Passes.reaches {v : Value} {cells : List Cell} (hp : h.Passes v cells) {c : Cell}
    (hc : c ∈ cells) : ∃ w, h.Reaches v w ∧ cellOf w = some c := by
  induction hp with
  | stop => cases hc
  | entry hm _ ih =>
    obtain ⟨w,hw,hcell⟩ := ih hc
    exact ⟨w,hw.head (.entry hm),hcell⟩
  | property hm _ ih =>
    rcases List.mem_cons.mp hc with rfl | hc
    · exact ⟨_,.refl,rfl⟩
    · obtain ⟨w,hw,hcell⟩ := ih hc
      exact ⟨w,hw.head (.property hm),hcell⟩
  | source hs _ ih =>
    rcases List.mem_cons.mp hc with rfl | hc
    · exact ⟨_,.refl,rfl⟩
    · obtain ⟨w,hw,hcell⟩ := ih hc
      exact ⟨w,hw.head (.source hs),hcell⟩

/-- A value that is reached from what a reference holds is not in the cell of the
reference. -/
theorem Acyclic.not_again {v u w : Value} {c : Cell} (ha : h.Acyclic v) (hh : h.Holds v u)
    (hu : h.Reaches u w) (hv : cellOf v = some c) : cellOf w ≠ some c := by
  intro hw
  have hloop : Relation.TransGen h.Holds w w := .head' (hh.of_cell hv hw) hu
  exact ha w (hu.head hh) hloop

theorem Passes.nodup {v : Value} {cells : List Cell} (hp : h.Passes v cells) (ha : h.Acyclic v) :
    cells.Nodup := by
  induction hp with
  | stop => exact List.nodup_nil
  | entry hm _ ih => exact ih (ha.of_holds (.entry hm))
  | @property ref name value cells hm hp ih =>
    refine List.nodup_cons.mpr ⟨fun hc => ?_,ih (ha.of_holds (.property hm))⟩
    obtain ⟨w,hw,hcell⟩ := hp.reaches hc
    exact ha.not_again (.property hm) hw rfl hcell
  | @source ref value cells hs hp ih =>
    refine List.nodup_cons.mpr ⟨fun hc => ?_,ih (ha.of_holds (.source hs))⟩
    obtain ⟨w,hw,hcell⟩ := hp.reaches hc
    exact ha.not_again (.source hs) hw rfl hcell

/-- The cell is one of the heap. -/
def InBounds (h : Heap) : Cell → Prop
  | .object i => i < h.objects.size
  | .native i => i < h.natives.size

theorem lt_of_property {ref : ObjectRef} {p : String × Value} (hm : p ∈ h.properties ref) :
    ref.index < h.objects.size := by
  refine Decidable.byContradiction fun hge => ?_
  have hnil : h.properties ref = [] := by simp [properties,Array.getD,hge]
  rw [hnil] at hm
  cases hm

theorem lt_of_native {ref : NativeRef} {n : Native} (hs : h.native? ref = some n) :
    ref.index < h.natives.size := by
  obtain ⟨hi,_⟩ := Array.getElem?_eq_some_iff.mp hs
  exact hi

theorem Passes.inBounds {v : Value} {cells : List Cell} (hp : h.Passes v cells) :
    ∀ c ∈ cells, h.InBounds c := by
  induction hp with
  | stop => exact fun _ hc => by cases hc
  | entry _ _ ih => exact ih
  | property hm _ ih =>
    intro c hc
    rcases List.mem_cons.mp hc with rfl | hc
    · exact lt_of_property hm
    · exact ih c hc
  | source hs _ ih =>
    intro c hc
    rcases List.mem_cons.mp hc with rfl | hc
    · exact lt_of_native hs
    · exact ih c hc

/-- The cells of the heap. -/
def cells (h : Heap) : Finset Cell :=
  (Finset.range h.objects.size).image .object ∪ (Finset.range h.natives.size).image .native

theorem card_cells (h : Heap) : h.cells.card ≤ h.objects.size + h.natives.size := by
  refine (Finset.card_union_le _ _).trans (Nat.add_le_add ?_ ?_)
  · exact Finset.card_image_le.trans (Finset.card_range _).le
  · exact Finset.card_image_le.trans (Finset.card_range _).le

theorem mem_cells {c : Cell} (hc : h.InBounds c) : c ∈ h.cells := by
  cases c with
  | object i =>
    exact Finset.mem_union_left _ (Finset.mem_image_of_mem _ (Finset.mem_range.mpr hc))
  | native i =>
    exact Finset.mem_union_right _ (Finset.mem_image_of_mem _ (Finset.mem_range.mpr hc))

/-- No chain of references into the value is longer. -/
def Shallow (h : Heap) (n : Nat) (v : Value) : Prop :=
  ∀ cells, h.Passes v cells → cells.length ≤ n

/-- Chains of references pass no cell twice. -/
theorem Acyclic.shallow {v : Value} (ha : h.Acyclic v) :
    h.Shallow (h.objects.size + h.natives.size) v := by
  intro cells hp
  have hsub : cells.toFinset ⊆ h.cells := by
    intro c hc
    exact mem_cells (hp.inBounds c (List.mem_toFinset.mp hc))
  calc cells.length = cells.toFinset.card := (List.toFinset_card_of_nodup (hp.nodup ha)).symm
    _ ≤ h.cells.card := Finset.card_le_card hsub
    _ ≤ h.objects.size + h.natives.size := h.card_cells

theorem Shallow.entry {n : Nat} {entries : List (ArrayKey × Value)} {next : Int64}
    (hs : h.Shallow n (.array ⟨entries,next⟩)) {e : ArrayKey × Value} (hm : e ∈ entries) :
    h.Shallow n e.2 := fun cells hp => hs cells (.entry hm hp)

theorem Shallow.property {n : Nat} {ref : ObjectRef} (hs : h.Shallow (n + 1) (.object ref))
    {p : String × Value} (hm : p ∈ h.properties ref) : h.Shallow n p.2 := by
  intro cells hp
  have hlong := hs _ (.property hm hp)
  rw [List.length_cons] at hlong
  omega

theorem Shallow.source {n : Nat} {ref : NativeRef} (hs : h.Shallow (n + 1) (.native ref))
    {value : Value} (hv : h.native? ref = some (.foreign (some value))) : h.Shallow n value := by
  intro cells hp
  have hlong := hs _ (.source hv hp)
  rw [List.length_cons] at hlong
  omega

theorem Shallow.no_properties {ref : ObjectRef} (hs : h.Shallow 0 (.object ref)) :
    h.properties ref = [] := by
  refine List.eq_nil_iff_forall_not_mem.mpr fun p hm => ?_
  exact absurd (hs _ (.property hm (.stop p.2))) (by simp)

theorem Shallow.no_source {ref : NativeRef} (hs : h.Shallow 0 (.native ref)) {value : Value} :
    h.native? ref ≠ some (.foreign (some value)) :=
  fun hv => absurd (hs _ (.source hv (.stop value))) (by simp)

theorem sizeOf_entry {entries : List (ArrayKey × Value)} {key : ArrayKey} {value : Value}
    (hm : (key,value) ∈ entries) (next : Int64) :
    sizeOf value < sizeOf (Value.array ⟨entries,next⟩) := by
  have hlist := List.sizeOf_lt_of_mem hm
  have hpair : sizeOf (key,value) = 1 + sizeOf key + sizeOf value := rfl
  rw [Value.array.sizeOf_spec,Keyed.mk.sizeOf_spec]
  omega

-- On the length of the chains, and within an array on its size.
theorem Shallow.induction {motive : Value → Prop}
    (step : ∀ v, (∀ u, h.Holds v u → motive u) → motive v) (n : Nat) (v : Value)
    (hs : h.Shallow n v) : motive v := by
  refine step v fun u hu => ?_
  cases hu with
  | @entry entries next key _ hm =>
    have hsize := sizeOf_entry hm next
    exact Shallow.induction step n u (hs.entry hm)
  | property hm =>
    cases n with
    | zero => exact absurd hm (by simp [hs.no_properties])
    | succ n => exact Shallow.induction step n u (hs.property hm)
  | source hv =>
    cases n with
    | zero => exact absurd hv hs.no_source
    | succ n => exact Shallow.induction step n u (hs.source hv)
termination_by (n,sizeOf v)

/-- What can be shown of a value from the same of all it holds, is true of every value
without cycles. -/
theorem Acyclic.induction {motive : Value → Prop}
    (step : ∀ v, h.Acyclic v → (∀ u, h.Holds v u → motive u) → motive v) {v : Value}
    (ha : h.Acyclic v) : motive v := by
  have hall : h.Acyclic v → motive v :=
    Shallow.induction (motive := fun v => h.Acyclic v → motive v)
      (fun v ih ha => step v ha fun u hu => ih u hu (ha.of_holds hu)) _ v ha.shallow
  exact hall ha

section Unfolding

theorem unfoldEntries_eq (f : ObjectRef → Tree) (g : NativeRef → Tree)
    (entries : List (ArrayKey × Value)) :
    Value.unfoldEntries f g entries = entries.map fun e => (e.1,Value.unfoldWith f g e.2) := by
  induction entries with
  | nil => simp only [Value.unfoldEntries,List.map_nil]
  | cons e rest ih => simp only [Value.unfoldEntries,List.map_cons,ih]

theorem unfoldTo_array (n : Nat) (entries : List (ArrayKey × Value)) (next : Int64) :
    h.unfoldTo n (.array ⟨entries,next⟩) =
      .array ⟨entries.map fun e => (e.1,h.unfoldTo n e.2),next⟩ := by
  cases n with
  | zero => simp only [unfoldTo,Value.unfoldWith,unfoldEntries_eq]
  | succ n => simp only [unfoldTo,Value.unfoldWith,unfoldEntries_eq]

theorem unfoldTo_object (n : Nat) (ref : ObjectRef) :
    h.unfoldTo (n + 1) (.object ref) =
      .object ref.className ((h.properties ref).map fun p => (p.1,h.unfoldTo n p.2)) := rfl

theorem unfoldTo_native (n : Nat) (ref : NativeRef) :
    h.unfoldTo (n + 1) (.native ref) = h.unfoldNative (h.unfoldTo n) ref := rfl

theorem unfoldNative_congr {f g : Value → Tree} {ref : NativeRef}
    (heq : ∀ value, h.native? ref = some (.foreign (some value)) → f value = g value) :
    h.unfoldNative f ref = h.unfoldNative g ref := by
  unfold unfoldNative
  cases hn : h.native? ref with
  | none => rfl
  | some native =>
    cases native with
    | blob bytes => rfl
    | point p q => rfl
    | foreign source =>
      cases source with
      | none => rfl
      | some value => simp only [Option.map_some,heq value hn]

-- On the length of the chains, and within an array on its size.
/-- Looking further than the longest chain shows nothing new. -/
theorem Shallow.unfoldTo_succ : ∀ (n : Nat) (v : Value), h.Shallow n v →
    h.unfoldTo (n + 1) v = h.unfoldTo n v
  | n, .array ⟨entries,next⟩, hs => by
    have hmap : (entries.map fun e => (e.1,h.unfoldTo (n + 1) e.2)) =
        entries.map fun e => (e.1,h.unfoldTo n e.2) := by
      refine List.map_congr_left fun e hm => ?_
      have hsize := sizeOf_entry hm next
      rw [Shallow.unfoldTo_succ n e.2 (hs.entry hm)]
    rw [unfoldTo_array,unfoldTo_array,hmap]
  | 0, .object ref, hs => by
    rw [unfoldTo_object,hs.no_properties]
    rfl
  | n + 1, .object ref, hs => by
    have hmap : ((h.properties ref).map fun p => (p.1,h.unfoldTo (n + 1) p.2)) =
        (h.properties ref).map fun p => (p.1,h.unfoldTo n p.2) := by
      refine List.map_congr_left fun p hm => ?_
      rw [Shallow.unfoldTo_succ n p.2 (hs.property hm)]
    rw [unfoldTo_object,unfoldTo_object,hmap]
  | 0, .native ref, hs => unfoldNative_congr fun _ hv => absurd hv hs.no_source
  | n + 1, .native ref, hs => by
    rw [unfoldTo_native,unfoldTo_native]
    refine unfoldNative_congr fun value hv => ?_
    rw [Shallow.unfoldTo_succ n value (hs.source hv)]
  | 0, .null, _ | 0, .bool _, _ | 0, .int _, _ | 0, .float _, _ | 0, .text _, _
  | 0, .injector _, _ => rfl
  | _ + 1, .null, _ | _ + 1, .bool _, _ | _ + 1, .int _, _ | _ + 1, .float _, _ | _ + 1, .text _, _
  | _ + 1, .injector _, _ => rfl
termination_by n v => (n,sizeOf v)
decreasing_by
  · exact Prod.Lex.right _ hsize
  · exact Prod.Lex.left _ _ (Nat.lt_succ_self _)
  · exact Prod.Lex.left _ _ (Nat.lt_succ_self _)

theorem Shallow.unfoldTo_add {n : Nat} {v : Value} (hs : h.Shallow n v) (k : Nat) :
    h.unfoldTo (n + k) v = h.unfoldTo n v := by
  induction k with
  | zero => rfl
  | succ k ih =>
    have hmore : h.Shallow (n + k) v := fun cells hp => (hs cells hp).trans (Nat.le_add_right n k)
    rw [← Nat.add_assoc,Shallow.unfoldTo_succ _ v hmore,ih]

/-- All that a value without cycles holds is shown by unfolding it. -/
theorem Acyclic.unfoldTo_eq {v : Value} (ha : h.Acyclic v) {n : Nat}
    (hn : h.objects.size + h.natives.size ≤ n) : h.unfoldTo n v = h.unfold v := by
  obtain ⟨k,rfl⟩ := Nat.exists_eq_add_of_le hn
  rw [ha.shallow.unfoldTo_add,unfold,depth,ha.shallow.unfoldTo_add]

theorem unfold_array (entries : List (ArrayKey × Value)) (next : Int64) :
    h.unfold (.array ⟨entries,next⟩) = .array ⟨entries.map fun e => (e.1,h.unfold e.2),next⟩ :=
  unfoldTo_array _ entries next

theorem Acyclic.unfold_object {ref : ObjectRef} (ha : h.Acyclic (.object ref)) :
    h.unfold (.object ref) =
      .object ref.className ((h.properties ref).map fun p => (p.1,h.unfold p.2)) := by
  have hmap : ((h.properties ref).map fun p =>
      (p.1,h.unfoldTo (h.objects.size + h.natives.size) p.2)) =
        (h.properties ref).map fun p => (p.1,h.unfold p.2) := by
    refine List.map_congr_left fun p hm => ?_
    rw [(ha.of_holds (.property hm)).unfoldTo_eq (Nat.le_refl _)]
  rw [← hmap]
  rfl

theorem Acyclic.unfold_native {ref : NativeRef} (ha : h.Acyclic (.native ref)) :
    h.unfold (.native ref) = h.unfoldNative h.unfold ref := by
  have hdepth : h.unfold (.native ref) =
      h.unfoldNative (h.unfoldTo (h.objects.size + h.natives.size)) ref := rfl
  rw [hdepth]
  refine unfoldNative_congr fun value hv => ?_
  exact (ha.of_holds (.source hv)).unfoldTo_eq (Nat.le_refl _)

end Unfolding
end Heap

namespace Tree

mutual

/-- A tree and all trees in it, depth first. -/
def nodes : Tree → List Tree
  | array ⟨entries,next⟩ => array ⟨entries,next⟩ :: entriesNodes entries
  | object className properties => object className properties :: propertiesNodes properties
  | foreign typeName (some source) => foreign typeName (some source) :: nodes source
  | t => [t]

def entriesNodes : List (ArrayKey × Tree) → List Tree
  | [] => []
  | (_,t) :: rest => nodes t ++ entriesNodes rest

def propertiesNodes : List (String × Tree) → List Tree
  | [] => []
  | (_,t) :: rest => nodes t ++ propertiesNodes rest

end

theorem mem_entriesNodes {entries : List (ArrayKey × Tree)} {t : Tree} :
    t ∈ entriesNodes entries ↔ ∃ e ∈ entries, t ∈ e.2.nodes := by
  induction entries with
  | nil => simp [entriesNodes]
  | cons e rest ih => simp [entriesNodes,ih]

theorem mem_propertiesNodes {properties : List (String × Tree)} {t : Tree} :
    t ∈ propertiesNodes properties ↔ ∃ p ∈ properties, t ∈ p.2.nodes := by
  induction properties with
  | nil => simp [propertiesNodes]
  | cons p rest ih => simp [propertiesNodes,ih]

end Tree

namespace Heap

variable {h : Heap}

/-- A tree that an unfolded value shows is the whole, or shown by what the value holds. -/
theorem Acyclic.mem_nodes_step {v : Value} (ha : h.Acyclic v) (t : Tree) :
    t ∈ (h.unfold v).nodes ↔ h.unfold v = t ∨ ∃ u, h.Holds v u ∧ t ∈ (h.unfold u).nodes := by
  have hnone (hno : ∀ u, ¬h.Holds v u) (hnodes : (h.unfold v).nodes = [h.unfold v]) :
      t ∈ (h.unfold v).nodes ↔ h.unfold v = t ∨ ∃ u, h.Holds v u ∧ t ∈ (h.unfold u).nodes := by
    rw [hnodes]
    constructor
    · exact fun hm => .inl (List.mem_singleton.mp hm).symm
    · rintro (hv | ⟨u,hu,_⟩)
      · exact List.mem_singleton.mpr hv.symm
      · exact absurd hu (hno u)
  cases v with
  | array items =>
    obtain ⟨entries,next⟩ := items
    rw [unfold_array]
    simp only [Tree.nodes,List.mem_cons,Tree.mem_entriesNodes,List.mem_map,eq_comm (a := t)]
    refine or_congr_right ⟨?_,?_⟩
    · rintro ⟨_,⟨e,he,rfl⟩,hm⟩
      exact ⟨e.2,.entry he,hm⟩
    · rintro ⟨u,hu,hm⟩
      cases hu with
      | entry he => exact ⟨_,⟨_,he,rfl⟩,hm⟩
  | object ref =>
    rw [ha.unfold_object]
    simp only [Tree.nodes,List.mem_cons,Tree.mem_propertiesNodes,List.mem_map,eq_comm (a := t)]
    refine or_congr_right ⟨?_,?_⟩
    · rintro ⟨_,⟨p,hp,rfl⟩,hm⟩
      exact ⟨p.2,.property hp,hm⟩
    · rintro ⟨u,hu,hm⟩
      cases hu with
      | property hp => exact ⟨_,⟨_,hp,rfl⟩,hm⟩
  | native ref =>
    have hholds : ∀ u, h.Holds (.native ref) u ↔ h.native? ref = some (.foreign (some u)) :=
      fun u => ⟨fun hu => by cases hu with | source hs => exact hs,.source⟩
    cases hn : h.native? ref with
    | none =>
      refine hnone (fun u hu => ?_) ?_
      · cases hn.symm.trans ((hholds u).mp hu)
      · rw [ha.unfold_native,unfoldNative,hn]
        rfl
    | some native =>
      cases native with
      | foreign source =>
        cases source with
        | none =>
          refine hnone (fun u hu => ?_) ?_
          · cases hn.symm.trans ((hholds u).mp hu)
          · rw [ha.unfold_native,unfoldNative,hn]
            rfl
        | some value =>
          simp only [hholds,hn,ha.unfold_native,unfoldNative,Option.map_some,Tree.nodes,
            List.mem_cons,eq_comm (a := t)]
          simp
      | blob bytes =>
        refine hnone (fun u hu => ?_) ?_
        · cases hn.symm.trans ((hholds u).mp hu)
        · rw [ha.unfold_native,unfoldNative,hn]
          rfl
      | point p q =>
        refine hnone (fun u hu => ?_) ?_
        · cases hn.symm.trans ((hholds u).mp hu)
        · rw [ha.unfold_native,unfoldNative,hn]
          rfl
  | null | bool | int | float | text | injector => exact hnone (fun u hu => by cases hu) rfl

/-- The trees that an unfolded value shows are those of the values it reaches. -/
theorem Acyclic.mem_nodes {v : Value} (ha : h.Acyclic v) (t : Tree) :
    t ∈ (h.unfold v).nodes ↔ ∃ u, h.Reaches v u ∧ h.unfold u = t := by
  refine ha.induction (motive := fun v => t ∈ (h.unfold v).nodes ↔
    ∃ u, h.Reaches v u ∧ h.unfold u = t) fun v ha ih => ?_
  rw [ha.mem_nodes_step]
  constructor
  · rintro (hv | ⟨u,hu,hm⟩)
    · exact ⟨v,.refl,hv⟩
    · obtain ⟨w,hw,ht⟩ := (ih u hu).mp hm
      exact ⟨w,hw.head hu,ht⟩
  · rintro ⟨w,hw,ht⟩
    rcases Relation.ReflTransGen.cases_head hw with rfl | ⟨u,hu,hw⟩
    · exact .inl ht
    · exact .inr ⟨u,hu,(ih u hu).mpr ⟨w,hw,ht⟩⟩

end Heap
end Wiring
