import Mathlib
import Wiring.Proofs.Compile.WatchedGraphs
import Wiring.Proofs.Graph.JsonForm
import Wiring.Proofs.Injector.Sharing

/-!
# Snapshots of script injectors

Where the module can be built again, a snapshot is taken without any work. Where it cannot, the
graph is had and saved first, and this is all that can fail; meanwhile values are only added to the
heap, so the instances are saved as they were. The JSON form of a snapshot is decoded to the
snapshot.
-/
namespace Wiring

open Heap (Grown)
open Json (Exact Fits Slot)
open Wiring.Tree (FloatsFit)

variable {α β : Type}

namespace Snapshot

/-- A snapshot has a JSON form exactly if all instances have one. -/
theorem toJson_isSome (s : Snapshot) :
    s.toJson?.isSome ↔ ∀ i ∈ s.singletons, i.2.toJson?.isSome := by
  have hform : s.toJson? = (s.singletons.mapM (keyRow? Tree.toJson?)).map fun rows => .record
      [("script_dir",.text s.dir),("singletons",.record rows),
        ("is_serializable_lazy",.bool s.lasting),("strict",.bool s.strict)] :=
    Option.map_eq_bind.symm
  rw [hform,Option.isSome_map,keyRows_isSome]

theorem toJson_eq_some {s : Snapshot} {j : Json} (hj : s.toJson? = some j) :
    ∃ rows, s.singletons.mapM (keyRow? Tree.toJson?) = some rows ∧
      j = .record [("script_dir",.text s.dir),("singletons",.record rows),
        ("is_serializable_lazy",.bool s.lasting),("strict",.bool s.strict)] := by
  obtain ⟨rows,hrows,heq⟩ := Option.bind_eq_some_iff.mp hj
  exact ⟨rows,hrows,(Option.some.inj heq).symm⟩

theorem exact_toJson {s : Snapshot} {j : Json} (hj : s.toJson? = some j)
    (h : ∀ i ∈ s.singletons, FloatsFit i.2.nodes) : j.Exact := by
  obtain ⟨rows,hrows,rfl⟩ := toJson_eq_some hj
  have hinstances : (Json.record rows).Exact :=
    exact_keyRows hrows fun i hi j hj => i.2.exact_toJson j hj (h i hi)
  apply Exact.record_cons (.text s.dir)
  apply Exact.record_cons hinstances
  exact .record_cons (.bool s.lasting) (.record_cons (.bool s.strict) .record_nil)

/-- A snapshot is decoded from its JSON form. -/
theorem ofJson_toJson {s : Snapshot} {j : Json} (hj : s.toJson? = some j)
    (hn : (s.singletons.map Prod.fst).Nodup) (h : ∀ i ∈ s.singletons, i.2.Literal)
    (hfits : j.Fits) : ofJson? j = some s := by
  obtain ⟨rows,hrows,rfl⟩ := toJson_eq_some hj
  have hinstances : Json.asTable (Tree.ofJson? .reading) (.record rows) =
      some (s.singletons.map fun i => (i.1.text,i.2)) :=
    asTable_keyRows hrows hn (hfits.nth 1 rfl) fun i hi _ hj hf =>
      (h i hi).ofJson_toJson hj hf .reading
  rw [ofJson?,Json.slots_record]
  · simp [-List.map_map,Slot.required,Slot.defaulted,Json.asText,Json.asBool,hinstances,keys_again]
  · rfl
  · decide

end Snapshot

/-- What a snapshot of the injector holds, its instances written out of the heap. -/
def ScriptInjector.snapshot (s : ScriptInjector) (h : Heap) : Snapshot where
  dir := s.dir
  singletons := s.singletons.map fun i => (i.1,h.unfold i.2)
  lasting := s.lasting
  strict := s.strict

/-- Values are only added to the heap. -/
def World.Grown (w w' : World) : Prop := Heap.Grown w.site.heap w'.site.heap

instance isPreorder_grown : IsPreorder World World.Grown where
  refl w := .refl w.site.heap
  trans _ _ _ := .trans

/-- Work that only adds values to the heap of a start. -/
def Work.Adds (w : Work α) (start : Heap) : Prop :=
  w.Maintains (fun site => Grown start site.heap) fun _ => True

theorem Work.Adds.of {w : Work α} {start : Heap}
    (h : ∀ site, Grown start site.heap → Grown start (w site).2.heap) : w.Adds start :=
  fun site hsite => ⟨h site hsite,fun _ _ => trivial⟩

namespace Work

variable {start : Heap}

theorem heap_adds : Work.heap.Adds start :=
  .of fun _ h => h

theorem onFiles_adds (w : FileWork α) : (Work.onFiles w).Adds start := by
  refine .of fun site h => ?_
  rw [onFiles_run]
  exact h

theorem orElse_adds (f : Failure) (o : Option α) : (Work.orElse f o).Adds start := by
  cases o with
  | none => exact .throw f
  | some a => exact .pure trivial

end Work

namespace Save

open Work (heap_adds onFiles_adds orElse_adds)

variable (start : Heap)

theorem graph?_adds (dir : String) : (Save.graph? dir).Adds start := by
  refine (onFiles_adds _).bind fun answer _ => ?_
  cases answer with
  | none => exact .pure trivial
  | some text =>
    have hbuild (c : Container Tree) : (Work.onHeap c.build).Adds start :=
      .of fun _ h => h.trans (c.build_grown _)
    have hread : (Save.readGraph text).Adds start :=
      (Compile.decode_maintains text _).bind fun c _ => hbuild c
    exact hread.bind fun _ _ => .pure trivial

theorem graph_adds (dir : String) (g : Graph) : (Save.graph dir g).Adds start := by
  have hget : (get : Work Site).Adds start := .of fun _ h => h
  refine hget.bind fun site _ => ?_
  split
  · exact .pure trivial
  · have htext : (Save.graphText g).Adds start :=
      heap_adds.bind fun _ _ => (orElse_adds _ _).bind fun _ _ => .pure trivial
    exact htext.bind fun _ _ => (onFiles_adds _).bind fun _ _ => .pure trivial

end Save

namespace Act

theorem onSite_grown {w : Work α} (h : ∀ start, w.Adds start) :
    (onSite w).Along World.Grown :=
  fun world => (h world.site.heap world.site (.refl _)).1

theorem graphOf_grown (id : InjectorId) : (Resolve.graphOf id).Along World.Grown := by
  apply Resolve.graphOf_along
  · intro m
    apply Along.buildModule
    · exact fun _ w => .refl w.site.heap
    · exact fun w => (Graph.runAll_accounts .empty m.statements w.site .start).1.grown
  · exact fun dir => onSite_grown fun start => Save.graph?_adds start dir
  · intro g w
    show Grown w.site.heap (w.withInjector id _).site.heap
    unfold World.withInjector
    cases w.injector? id <;> exact .refl _

/-- What is saved with a snapshot where the module cannot be built again. -/
def saveModule (id : InjectorId) (dir : String) : Act Bool := do
  let g ← Resolve.graphOf id
  onSite (Save.graph dir g)

theorem saveModule_grown (id : InjectorId) (dir : String) :
    (saveModule id dir).Along World.Grown :=
  (graphOf_grown id).bind fun g => onSite_grown fun start => Save.graph_adds start dir g

variable {w w' : World} {id : InjectorId} {s : ScriptInjector}

/-- Where the module can be built again, a snapshot is taken of the instances as they are. -/
theorem snapshot?_lasting (hs : w.injector? id = some (.script s)) (hl : s.lasting = true) :
    snapshot? id w = (.ok (some (s.snapshot w.site.heap)),w) := by
  have hnot : ¬(!s.lasting) = true := by simp [hl]
  rw [snapshot?,Work.run_bind (Resolve.injector_run hs)]
  dsimp only
  rw [if_neg hnot]
  rfl

/-- Where it cannot, the graph is saved first. -/
theorem snapshot?_saved (hs : w.injector? id = some (.script s)) (hl : s.lasting = false) :
    snapshot? id w = match saveModule id s.dir w with
      | (.ok _,w') => (.ok (some (s.snapshot w'.site.heap)),w')
      | (.error f,w') => (.error f,w') := by
  have hnot : (!s.lasting) = true := by simp [hl]
  have htake : snapshot? id w = (saveModule id s.dir >>= fun _ => do
      return some (s.snapshot (← heap)) : Act (Option Snapshot)) w := by
    rw [snapshot?,Work.run_bind (Resolve.injector_run hs)]
    dsimp only
    rw [if_pos hnot,saveModule,bind_assoc]
    rfl
  rw [htake]
  cases hsave : saveModule id s.dir w with
  | mk answer w' =>
    cases answer with
    | ok b => exact Work.run_bind hsave
    | error f => exact Work.run_bind_error _ hsave

/-- A snapshot that is taken holds the instances as they are afterwards, and nothing but new values
has been added. -/
theorem snapshot?_taken (hs : w.injector? id = some (.script s)) {taken : Option Snapshot}
    (h : snapshot? id w = (.ok taken,w')) :
    taken = some (s.snapshot w'.site.heap) ∧ World.Grown w w' := by
  cases hl : s.lasting with
  | true =>
    rw [snapshot?_lasting hs hl] at h
    obtain ⟨htaken,rfl⟩ := Prod.mk.inj h
    exact ⟨(Except.ok.inj htaken).symm,.refl _⟩
  | false =>
    have hgrown := saveModule_grown id s.dir w
    rw [snapshot?_saved hs hl] at h
    cases hsave : saveModule id s.dir w with
    | mk answer next =>
      rw [hsave] at h hgrown
      cases answer with
      | ok b =>
        obtain ⟨htaken,rfl⟩ := Prod.mk.inj h
        exact ⟨(Except.ok.inj htaken).symm,hgrown⟩
      | error f => cases congrArg Prod.fst h

/-- A snapshot fails exactly where a module that cannot be built again cannot be saved. -/
theorem snapshot?_fails (hs : w.injector? id = some (.script s)) :
    (∃ f, (snapshot? id w).1 = .error f) ↔
      s.lasting = false ∧ ∃ f, (saveModule id s.dir w).1 = .error f := by
  cases hl : s.lasting with
  | true =>
    rw [snapshot?_lasting hs hl]
    simp
  | false =>
    rw [snapshot?_saved hs hl]
    cases hsave : saveModule id s.dir w with
    | mk answer next => cases answer <;> simp

end Act
end Wiring
