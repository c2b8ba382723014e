import Mathlib
import Wiring.Proofs.Json.Nesting
import Wiring.Proofs.Value.JsonForm

/-!
# Which values are saved, and what is read back of them

A value has no JSON form exactly if it reaches a native that is not known by its bytes. If it has
one, the text is read back as soon as the floating point numbers in it keep their value and it does
not nest too deep, and the value that is built from it is a copy: it shows what the first one shows
and is equal to it, and all its handles are those that it was built with.
-/
namespace Wiring

open Heap (Grown)
open Json (Fits FloatFits Timing intFits)

theorem intFits_toInt (i : Int64) : intFits i.toInt = true := by
  have hlow := i.le_toInt
  have hhigh := i.toInt_lt
  apply decide_eq_true
  constructor
  · omega
  · omega

theorem ArrayKey.exact_toJson (key : ArrayKey) : key.toJson.Exact := by
  cases key with
  | int i => exact .int (intFits_toInt i)
  | text s => exact .text s

namespace Tree

/-- Among the trees there is a native that is not known by its bytes. -/
def AnyForeign (nodes : List Tree) : Prop := ∃ typeName source, foreign typeName source ∈ nodes

theorem anyForeign_append (ts us : List Tree) :
    AnyForeign (ts ++ us) ↔ AnyForeign ts ∨ AnyForeign us := by
  simp only [AnyForeign,List.mem_append,exists_or]

theorem anyForeign_cons {t : Tree} (ht : ∀ typeName source, t ≠ foreign typeName source)
    (ts : List Tree) : AnyForeign (t :: ts) ↔ AnyForeign ts := by
  constructor
  · rintro ⟨typeName,source,hm⟩
    rcases List.mem_cons.mp hm with heq | hm
    · exact absurd heq.symm (ht typeName source)
    · exact ⟨typeName,source,hm⟩
  · rintro ⟨typeName,source,hm⟩
    exact ⟨typeName,source,List.mem_cons_of_mem _ hm⟩

theorem not_anyForeign_nil : ¬AnyForeign [] := by
  rintro ⟨_,_,hm⟩
  cases hm

/-- A row of a list has a JSON form if its tree and the rest have one. -/
theorem row_eq_none {head : Option Json} {rest : Option (List Json)} (row : Json → Json) :
    (do
      let item ← head
      let items ← rest
      return row item :: items) = none ↔ head = none ∨ rest = none := by
  cases head with
  | none => exact ⟨fun _ => .inl rfl,fun _ => rfl⟩
  | some item =>
    cases rest with
    | none => exact ⟨fun _ => .inr rfl,fun _ => rfl⟩
    | some items =>
      constructor
      · exact fun h => by cases h
      · rintro (h | h) <;> cases h

mutual

theorem toJson_eq_none : ∀ t : Tree, t.toJson? = none ↔ AnyForeign t.nodes
  | array ⟨entries,next⟩ => by
    rw [toJson?,Option.map_eq_none_iff,entriesToJson_eq_none entries,nodes,
      anyForeign_cons fun _ _ => by simp]
  | object className properties => by
    rw [toJson?,Option.map_eq_none_iff,propertiesToJson_eq_none properties,nodes,
      anyForeign_cons fun _ _ => by simp]
  | foreign typeName none => ⟨fun _ => ⟨typeName,none,List.mem_cons_self⟩,fun _ => rfl⟩
  | foreign typeName (some source) =>
    ⟨fun _ => ⟨typeName,some source,List.mem_cons_self⟩,fun _ => rfl⟩
  | null | bool _ | int _ | float _ | text _ | blob _ _ | injector => by
    rw [nodes,anyForeign_cons fun _ _ => by simp]
    · constructor
      · exact fun h => by cases h
      · exact fun h => absurd h not_anyForeign_nil
    all_goals simp

theorem entriesToJson_eq_none : ∀ entries : List (ArrayKey × Tree),
    entriesToJson? entries = none ↔ AnyForeign (entriesNodes entries)
  | [] => by
    constructor
    · exact fun h => by cases h
    · exact fun h => absurd h not_anyForeign_nil
  | (key,t) :: rest => by
    rw [entriesToJson?,entriesNodes,anyForeign_append,← toJson_eq_none t,
      ← entriesToJson_eq_none rest]
    exact row_eq_none fun item => .list [key.toJson,item]

theorem propertiesToJson_eq_none : ∀ properties : List (String × Tree),
    propertiesToJson? properties = none ↔ AnyForeign (propertiesNodes properties)
  | [] => by
    constructor
    · exact fun h => by cases h
    · exact fun h => absurd h not_anyForeign_nil
  | (name,t) :: rest => by
    rw [propertiesToJson?,propertiesNodes,anyForeign_append,← toJson_eq_none t,
      ← propertiesToJson_eq_none rest]
    exact row_eq_none fun item => .list [.text name,item]

end

/-- The floating point numbers among the trees keep their value in a text. -/
def FloatsFit (nodes : List Tree) : Prop := ∀ x, float x ∈ nodes → FloatFits x

theorem FloatsFit.tail {t : Tree} {ts : List Tree} (h : FloatsFit (t :: ts)) : FloatsFit ts :=
  fun x hx => h x (List.mem_cons_of_mem _ hx)

theorem FloatsFit.append {ts us : List Tree} (h : FloatsFit (ts ++ us)) :
    FloatsFit ts ∧ FloatsFit us :=
  ⟨fun x hx => h x (List.mem_append_left _ hx),fun x hx => h x (List.mem_append_right _ hx)⟩

theorem exact_tagged {content : Json} (type : String) (h : content.Exact) :
    (tagged type content).Exact := .record_cons (.text type) (.record_cons h .record_nil)

mutual

theorem exact_toJson : ∀ (t : Tree) (j : Json), t.toJson? = some j → FloatsFit t.nodes → j.Exact
  | null, j, hj, _ | injector, j, hj, _ => by
    obtain rfl := Option.some.inj hj
    exact .record_cons (.text _) .record_nil
  | bool b, j, hj, _ => by
    obtain rfl := Option.some.inj hj
    exact exact_tagged _ (.bool b)
  | int i, j, hj, _ => by
    obtain rfl := Option.some.inj hj
    exact exact_tagged _ (.int (intFits_toInt i))
  | float x, j, hj, hfloats => by
    obtain rfl := Option.some.inj hj
    exact exact_tagged _ (.float (hfloats x List.mem_cons_self))
  | text s, j, hj, _ => by
    obtain rfl := Option.some.inj hj
    exact exact_tagged _ (.text s)
  | array ⟨entries,next⟩, j, hj, hfloats => by
    obtain ⟨items,hitems,rfl⟩ := Option.map_eq_some_iff.mp hj
    exact exact_tagged _ (.list (exact_entriesToJson entries items hitems hfloats.tail))
  | object className properties, j, hj, hfloats => by
    obtain ⟨items,hitems,rfl⟩ := Option.map_eq_some_iff.mp hj
    have hlist := exact_propertiesToJson properties items hitems hfloats.tail
    exact exact_tagged _ (.record_cons (.text className) (.record_cons (.list hlist) .record_nil))
  | blob typeName bytes, j, hj, _ => by
    obtain rfl := Option.some.inj hj
    exact exact_tagged _ (.record_cons (.text typeName) (.record_cons (.text _) .record_nil))
  | foreign _ _, j, hj, _ => by cases hj

theorem exact_entriesToJson : ∀ (entries : List (ArrayKey × Tree)) (items : List Json),
    entriesToJson? entries = some items → FloatsFit (entriesNodes entries) →
    ∀ item ∈ items, item.Exact
  | [], items, hitems, _ => by
    obtain rfl := Option.some.inj hitems
    exact fun item hm => by cases hm
  | (key,t) :: rest, items, hitems, hfloats => by
    simp only [entriesToJson?,Option.bind_eq_bind,Option.bind_eq_some_iff,Option.pure_def,
      Option.some.injEq] at hitems
    obtain ⟨j,hj,more,hrest,rfl⟩ := hitems
    obtain ⟨hfirst,hmore⟩ := hfloats.append
    refine List.forall_mem_cons.mpr ⟨?_,exact_entriesToJson rest more hrest hmore⟩
    exact .list_cons key.exact_toJson (.list_cons (exact_toJson t j hj hfirst) .list_nil)

theorem exact_propertiesToJson : ∀ (properties : List (String × Tree)) (items : List Json),
    propertiesToJson? properties = some items → FloatsFit (propertiesNodes properties) →
    ∀ item ∈ items, item.Exact
  | [], items, hitems, _ => by
    obtain rfl := Option.some.inj hitems
    exact fun item hm => by cases hm
  | (name,t) :: rest, items, hitems, hfloats => by
    simp only [propertiesToJson?,Option.bind_eq_bind,Option.bind_eq_some_iff,Option.pure_def,
      Option.some.injEq] at hitems
    obtain ⟨j,hj,more,hrest,rfl⟩ := hitems
    obtain ⟨hfirst,hmore⟩ := hfloats.append
    refine List.forall_mem_cons.mpr ⟨?_,exact_propertiesToJson rest more hrest hmore⟩
    exact .list_cons (.text name) (.list_cons (exact_toJson t j hj hfirst) .list_nil)

end

/-- The JSON form of a literal tree is decoded to the tree, whether while a text is read or
later. -/
theorem Literal.ofJson_toJson {t : Tree} (ht : t.Literal) {j : Json} (hj : t.toJson? = some j)
    (hfits : j.Fits) (timing : Timing) : ofJson? timing j = some t :=
  ht.ofJsonTo_toJson hj hfits.legible _ timing (Nat.le_refl _)

/-- What is built between two states of a heap is built between any earlier and later ones. -/
theorem Built.widen {base h h' h'' : Heap} {handle : Handle} {v : Value} {t : Tree}
    (hb : Built h h' handle v t) (hbase : Grown base h) (hg : Grown h' h'') :
    Built base h'' handle v t where
  grown := (hbase.trans hb.grown).trans hg
  count_le := by
    have hcount := hb.count_le
    have hbefore := Nat.add_le_add hbase.objects_le hbase.natives_le
    have hafter := Nat.add_le_add hg.objects_le hg.natives_le
    unfold Heap.count at hcount ⊢
    omega
  shows h₂ hg₂ := hb.shows h₂ (hg.trans hg₂)
  made h₂ hg₂ u hu := (hb.made h₂ (hg.trans hg₂) u hu).of_grown hbase

end Tree

namespace Heap

variable {h base h' : Heap} {handle : Handle} {v v' : Value}

/-- What shows a native without bytes is one. -/
theorem Acyclic.unfold_eq_foreign (ha : h.Acyclic v) :
    (∃ typeName source, h.unfold v = .foreign typeName source) ↔
      ∃ ref, v = .native ref ∧ ∀ bytes, h.native? ref ≠ some (.blob bytes) := by
  cases v with
  | native ref =>
    rw [ha.unfold_native,unfoldNative]
    cases hn : h.native? ref with
    | none => simp [hn]
    | some native => cases native <;> simp [hn]
  | array items =>
    obtain ⟨entries,next⟩ := items
    rw [unfold_array]
    simp
  | object ref =>
    rw [ha.unfold_object]
    simp
  | null | bool | int | float | text | injector =>
    constructor
    · rintro ⟨_,_,heq⟩
      cases heq
    · rintro ⟨ref,heq,_⟩
      cases heq

/-- A value has no JSON form exactly if it reaches a native without bytes. -/
theorem Acyclic.toJson_eq_none (ha : h.Acyclic v) : (h.unfold v).toJson? = none ↔
    ∃ ref, h.Reaches v (.native ref) ∧ ∀ bytes, h.native? ref ≠ some (.blob bytes) := by
  rw [Tree.toJson_eq_none]
  constructor
  · rintro ⟨typeName,source,hm⟩
    obtain ⟨u,hu,heq⟩ := (ha.mem_nodes _).mp hm
    obtain ⟨ref,rfl,hbytes⟩ := (ha.of_reaches hu).unfold_eq_foreign.mp ⟨typeName,source,heq⟩
    exact ⟨ref,hu,hbytes⟩
  · rintro ⟨ref,hu,hbytes⟩
    obtain ⟨typeName,source,heq⟩ := (ha.of_reaches hu).unfold_eq_foreign.mpr ⟨ref,rfl,hbytes⟩
    exact ⟨typeName,source,(ha.mem_nodes _).mpr ⟨_,hu,heq⟩⟩

/-- A literal whose floating point numbers keep their value in a text. -/
structure Savable (h : Heap) (v : Value) : Prop where
  literal : h.Literal v
  floats : ∀ x, h.Reaches v (.float x) → FloatFits x

theorem Savable.floatsFit (hs : h.Savable v) : Tree.FloatsFit (h.unfold v).nodes := by
  intro x hx
  obtain ⟨u,hu,heq⟩ := (hs.literal.acyclic.mem_nodes _).mp hx
  have hshown := shown_value (h := h) h.depth u
  rw [← unfold,heq] at hshown
  exact hs.floats x (hshown ▸ hu)

theorem Literal.savable (hl : h.Literal v) (hf : Tree.FloatsFit (h.unfold v).nodes) :
    h.Savable v :=
  ⟨hl,fun x hx => hf x ((hl.acyclic.mem_nodes _).mpr ⟨.float x,hx,rfl⟩)⟩

theorem Savable.toJson (hs : h.Savable v) : ∃ j, (h.unfold v).toJson? = some j := by
  cases hj : (h.unfold v).toJson? with
  | some j => exact ⟨j,rfl⟩
  | none =>
    obtain ⟨ref,hr,hbytes⟩ := hs.literal.acyclic.toJson_eq_none.mp hj
    obtain ⟨bytes,hb⟩ := hs.literal.reached _ hr
    exact absurd hb (hbytes bytes)

/-- The second value is a copy of the first one, made between two states of a heap and held by the
injector of the handle. -/
structure Copied (handle : Handle) (h base h' : Heap) (v v' : Value) : Prop where
  shows : h'.unfold v' = h.unfold v
  made : ∀ u, h'.Reaches v' u → Tree.Made base handle u
  equal : Grown h base → h'.equal v' v = true

/-- What is built from the tree of a literal is a copy of it. -/
theorem Literal.copied (hl : h.Literal v) (hb : Tree.Built base h' handle v' (h.unfold v)) :
    Copied handle h base h' v v' where
  shows := by
    have hcount := hb.count_le
    refine hb.shows h' (.refl h') h'.depth ?_
    unfold count at hcount
    unfold depth
    omega
  made := hb.made h' (.refl h')
  equal hg := hl.equal_build hg hb

end Heap
end Wiring
