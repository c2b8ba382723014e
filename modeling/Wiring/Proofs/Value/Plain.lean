import Mathlib
import Wiring.Compile.Save
import Wiring.Proofs.Site
import Wiring.Proofs.Value.JsonForm

/-!
# Plain values

A plain value is made of scalars and arrays. It looks the same in every heap, and building
its tree gives the value itself and leaves the heap alone. So what is saved of it is read
back as the value, if its JSON form is legible.
-/
namespace Wiring

open Json (Legible)

inductive Value.Plain : Value → Prop where
  | null : Plain .null
  | bool (b : Bool) : Plain (.bool b)
  | int (i : Int64) : Plain (.int i)
  | float (x : Binary64) : Plain (.float x)
  | text (s : String) : Plain (.text s)
  | array {entries : List (ArrayKey × Value)} {next : Int64}
      (hw : (Keyed.mk entries next).WellFormed) (h : ∀ e ∈ entries, Plain e.2) :
      Plain (.array ⟨entries,next⟩)

namespace Value

/-- The tree is that of the value in every heap, and builds the value in every heap. -/
structure Shows (v : Value) (t : Tree) : Prop where
  literal : t.Literal
  unfold : ∀ (h : Heap) n, h.unfoldTo n v = t
  build : ∀ handle (h : Heap), t.build handle h = (v,h)
  toJson : ∃ j, t.toJson? = some j

theorem entries_shown {entries : List (ArrayKey × Value)}
    (h : ∀ e ∈ entries, ∃ t, Shows e.2 t) :
    ∃ trees : List (ArrayKey × Tree),
      List.Forall₂ (fun e t => e.1 = t.1 ∧ Shows e.2 t.2) entries trees := by
  induction entries with
  | nil => exact ⟨[],.nil⟩
  | cons e rest ih =>
    obtain ⟨t,ht⟩ := h e List.mem_cons_self
    obtain ⟨trees,htrees⟩ := ih fun e' he' => h e' (List.mem_cons_of_mem _ he')
    exact ⟨(e.1,t) :: trees,.cons ⟨rfl,ht⟩ htrees⟩

theorem shows_array {entries : List (ArrayKey × Value)} {trees : List (ArrayKey × Tree)}
    {next : Int64} (hw : (Keyed.mk entries next).WellFormed)
    (h : List.Forall₂ (fun e t => e.1 = t.1 ∧ Shows e.2 t.2) entries trees) :
    Shows (.array ⟨entries,next⟩) (.array ⟨trees,next⟩) := by
  have hkeys : entries.map Prod.fst = trees.map Prod.fst := by
    clear hw
    induction h with
    | nil => rfl
    | cons h _ ih => rw [List.map_cons,List.map_cons,h.1,ih]
  refine ⟨.array (hw.of_keys hkeys.symm) ?_,fun heap n => ?_,fun handle heap => ?_,?_⟩
  · clear hw hkeys
    induction h with
    | nil => exact fun t ht => by cases ht
    | cons h _ ih => exact List.forall_mem_cons.mpr ⟨h.2.literal,ih⟩
  · rw [Heap.unfoldTo_array]
    have hmap : (entries.map fun e => (e.1,heap.unfoldTo n e.2)) = trees := by
      clear hw hkeys
      induction h with
      | nil => rfl
      | cons h _ ih => rw [List.map_cons,ih,h.2.unfold,h.1]
    rw [hmap]
  · have hbuild : Tree.buildEntries handle trees heap = (entries,heap) := by
      clear hw hkeys
      induction h with
      | nil => rfl
      | @cons e t _ _ h _ ih =>
        obtain ⟨key,value⟩ := e
        obtain ⟨key',tree⟩ := t
        obtain rfl : key = key' := h.1
        rw [Tree.buildEntries,h.2.build]
        dsimp only
        rw [ih]
    rw [Tree.build,hbuild]
  · have hitems : ∃ items, Tree.entriesToJson? trees = some items := by
      clear hw hkeys
      induction h with
      | nil => exact ⟨[],rfl⟩
      | @cons e t _ _ h _ ih =>
        obtain ⟨items,hitems⟩ := ih
        obtain ⟨j,hj⟩ := h.2.toJson
        refine ⟨.list [t.1.toJson,j] :: items,?_⟩
        simp [Tree.entriesToJson?,hj,hitems]
    obtain ⟨items,hitems⟩ := hitems
    exact ⟨_,by rw [Tree.toJson?,hitems]; rfl⟩

theorem Plain.shown {v : Value} (hv : v.Plain) : ∃ t, Shows v t := by
  induction hv with
  | null => exact ⟨.null,.null,fun _ n => by cases n <;> rfl,fun _ _ => rfl,_,rfl⟩
  | bool b => exact ⟨.bool b,.bool b,fun _ n => by cases n <;> rfl,fun _ _ => rfl,_,rfl⟩
  | int i => exact ⟨.int i,.int i,fun _ n => by cases n <;> rfl,fun _ _ => rfl,_,rfl⟩
  | float x => exact ⟨.float x,.float x,fun _ n => by cases n <;> rfl,fun _ _ => rfl,_,rfl⟩
  | text s => exact ⟨.text s,.text s,fun _ n => by cases n <;> rfl,fun _ _ => rfl,_,rfl⟩
  | array hw _ ih =>
    obtain ⟨trees,htrees⟩ := entries_shown ih
    exact ⟨_,shows_array hw htrees⟩

/-- A plain value whose JSON form is read back. -/
structure Payload (v : Value) : Prop where
  plain : v.Plain
  legible : ∀ j, (({} : Heap).unfold v).toJson? = some j → Legible Json.depthLimit j

/-- What is saved of a payload is the same wherever it is saved, and is read back as the
payload. -/
theorem Payload.saved {v : Value} (hv : v.Payload) : ∃ text,
    (∀ site, Save.valueText v site = (.ok text,site)) ∧
      ∀ site, (do Work.build none (← Work.decode text (Tree.ofJson? .reading)) : Work Value) site =
        (.ok v,site) := by
  obtain ⟨t,ht⟩ := hv.plain.shown
  obtain ⟨j,hj⟩ := ht.toJson
  have hl : Legible Json.depthLimit j := by
    refine hv.legible j ?_
    rw [Heap.unfold,ht.unfold,hj]
  refine ⟨j.compact,fun site => ?_,fun site => ?_⟩
  · have htree : site.heap.unfold v = t := ht.unfold _ _
    have hheap : Work.heap site = (.ok site.heap,site) := rfl
    unfold Save.valueText
    rw [Work.run_bind hheap,htree,hj]
    rfl
  · have hdecode : Work.decode j.compact (Tree.ofJson? .reading) site = (.ok t,site) := by
      unfold Work.decode
      rw [ht.literal.read_toJson hj hl]
      rfl
    have hbuild : Work.build none t site = (.ok v,site) := by
      show (Except.ok (t.build none site.heap).1,{ site with heap := (t.build none site.heap).2 }) = _
      rw [ht.build]
    rw [Work.run_bind hdecode,hbuild]

end Value
end Wiring
