import Mathlib
import Wiring.Injector.Factory
import Wiring.Proofs.Graph.ReadBack
import Wiring.Proofs.Injector.Snapshots
import Wiring.Proofs.Value.Apart

/-!
# Script injectors are brought back from their snapshots

An injector that is made from the text of a snapshot has the directory, the flags and the keys of
the one that the snapshot was taken of. Its instances are copies of the instances there: they show
the same, and every handle in them is its own. Each is a copy for itself: what one instance had in
common with another one is made once for either.
-/
namespace Wiring

open Heap (Grown Copied)

namespace ScriptInjector

/-- No key is kept twice, and the lazy flag is that of the module. -/
structure WellMade (s : ScriptInjector) : Prop where
  keys : (s.singletons.map Prod.fst).Nodup
  lasting : s.lasting = s.source.any LazyModule.lasting

/-- A well made injector that can be read back: its instances are savable, and the JSON form of its
snapshot does not nest too deep. -/
structure Savable (s : ScriptInjector) (h : Heap) : Prop extends s.WellMade where
  instances : ∀ i ∈ s.singletons, h.Savable i.2
  nesting : ∀ j, (s.snapshot h).toJson? = some j → j.nesting < Json.depthLimit

/-- The second injector, whose id is given, is the first one brought back between two states of a
heap. -/
structure Restored (id : InjectorId) (h base h' : Heap) (s r : ScriptInjector) : Prop where
  dir : r.dir = s.dir
  strict : r.strict = s.strict
  lasting : r.lasting = s.lasting
  source : r.source = if s.lasting then s.source else none
  singletons : List.Forall₂ (fun i j => j.1 = i.1 ∧ Copied (some id) h base h' i.2 j.2)
    s.singletons r.singletons

variable {s : ScriptInjector} {h h' : Heap}

/-- An injector stays well made while it comes to keep instances. -/
theorem WellMade.remember (hs : s.WellMade) (key : Key) (v : Value) :
    ({ s with singletons := s.singletons.put key v } : ScriptInjector).WellMade where
  keys := Table.nodup_put key v hs.keys
  lasting := hs.lasting

/-- An injector that is brought back is as well made, so snapshots may be taken of it as well. -/
theorem Restored.wellMade {id : InjectorId} {base : Heap} {r : ScriptInjector}
    (hr : s.Restored id h base h' r) (hs : s.WellMade) : r.WellMade where
  keys := by
    have hkeys : s.singletons.map Prod.fst = r.singletons.map Prod.fst := by
      rw [← List.forall₂_eq_eq_eq,List.forall₂_map_left_iff,List.forall₂_map_right_iff]
      exact hr.singletons.imp fun _ _ hrow => hrow.1.symm
    exact hkeys ▸ hs.keys
  lasting := by
    rw [hr.lasting,hr.source]
    cases hlasting : s.lasting with
    | true => exact hlasting.symm.trans hs.lasting
    | false => rfl

/-- What was kept for a key is kept as a copy. -/
theorem Restored.find? {id : InjectorId} {base : Heap} {r : ScriptInjector}
    (hr : s.Restored id h base h' r) {key : Key} {v : Value} (hv : s.singletons.find? key = some v) :
    ∃ v', r.singletons.find? key = some v' ∧ Copied (some id) h base h' v v' :=
  Table.find?_forall₂ hr.singletons hv

theorem Savable.literal (hs : s.Savable h) : ∀ i ∈ s.singletons, h.Literal i.2 :=
  fun i hi => (hs.instances i hi).literal

theorem Savable.snapshot_literal (hs : s.Savable h) :
    ∀ i ∈ (s.snapshot h).singletons, i.2.Literal := by
  intro i hi
  obtain ⟨kept,hkept,rfl⟩ := List.mem_map.mp hi
  exact (hs.literal kept hkept).unfold

/-- What is added to the heap does not show in a snapshot. -/
theorem Savable.snapshot_grown (hs : s.Savable h) (hg : Grown h h') :
    s.snapshot h' = s.snapshot h := by
  unfold snapshot
  congr 1
  refine List.map_congr_left fun i hi => Prod.ext rfl ?_
  have hl := hs.literal i hi
  have hcount : h.objects.size + h.natives.size ≤ h'.depth :=
    (Nat.add_le_add hg.objects_le hg.natives_le).trans (Nat.le_succ _)
  exact (hl.unfoldTo_grown hg h'.depth).trans (hl.acyclic.unfoldTo_eq hcount)

theorem Savable.toJson (hs : s.Savable h) : ∃ j, (s.snapshot h).toJson? = some j := by
  refine Option.isSome_iff_exists.mp ((Snapshot.toJson_isSome _).mpr fun i hi => ?_)
  obtain ⟨kept,hkept,rfl⟩ := List.mem_map.mp hi
  exact Option.isSome_iff_exists.mpr (hs.instances kept hkept).toJson

/-- The text of the snapshot is decoded to the snapshot. -/
theorem Savable.read (hs : s.Savable h) {j : Json} (hj : (s.snapshot h).toJson? = some j) :
    (Json.read? j.compact).bind Snapshot.ofJson? = some (s.snapshot h) := by
  have hexact : j.Exact := by
    refine Snapshot.exact_toJson hj fun i hi => ?_
    obtain ⟨kept,hkept,rfl⟩ := List.mem_map.mp hi
    exact (hs.instances kept hkept).floatsFit
  have hfits : j.Fits := ⟨hexact,hs.nesting j hj⟩
  have hkeys : (s.snapshot h).singletons.map Prod.fst = s.singletons.map Prod.fst := by
    unfold snapshot
    rw [List.map_map]
    rfl
  rw [hfits.read_compact,Option.bind_some]
  exact Snapshot.ofJson_toJson hj (hkeys ▸ hs.keys) hs.snapshot_literal hfits

end ScriptInjector

namespace Act

variable {α : Type}

/-- Instances that are built with the handle, one after another, between two states of a heap. -/
structure BuiltAll (base h : Heap) (handle : Handle) (trees : Table Key Tree)
    (values : Table Key Value) : Prop where
  grown : Grown base h
  rows : List.Forall₂ (fun t v => v.1 = t.1 ∧ Tree.Built base h handle v.2 t.2) trees values
  apart : values.Pairwise fun i j => h.Apart i.2 j.2

namespace BuiltAll

variable {base h : Heap} {handle : Handle} {trees : Table Key Tree} {values : Table Key Value}

theorem nil (h : Heap) : BuiltAll h h handle [] [] := ⟨.refl h,.nil,.nil⟩

theorem cons (key : Key) {t : Tree} (ht : t.Literal)
    (hr : BuiltAll (t.build handle base).2 h handle trees values) :
    BuiltAll base h handle ((key,t) :: trees) ((key,(t.build handle base).1) :: values) where
  grown := (Tree.built_build handle t base).grown.trans hr.grown
  rows := by
    have hb := Tree.built_build handle t base
    refine .cons ⟨rfl,hb.widen (.refl base) hr.grown⟩ (hr.rows.imp ?_)
    exact fun _ _ ⟨hkey,hv⟩ => ⟨hkey,hv.widen hb.grown (.refl h)⟩
  apart := by
    refine List.pairwise_cons.mpr ⟨fun i hi => ?_,hr.apart⟩
    obtain ⟨_,_,_,hv⟩ := mem_of_forall₂ hr.rows hi
    -- the first instance is whole before any other one is begun
    exact (ht.literal_build handle base).apart hr.grown (hv.made h (.refl h))

end BuiltAll

/-- A literal that is built and then attached is built with the handle. -/
theorem buildAttached_run {t : Tree} (ht : t.Literal) (handle : Handle) (site : Site) :
    (Work.build none t >>= fun v => Work.onHeap (·.attach handle v)) site =
      Work.build handle t site := by
  have hbuild : Work.build none t site =
      (.ok (t.build none site.heap).1,{ site with heap := (t.build none site.heap).2 }) := rfl
  rw [Work.run_bind hbuild]
  exact congrArg (fun b : Value × Heap => (Except.ok b.1,{ site with heap := b.2 }))
    (ht.attach_build handle site.heap)

/-- Shared instances are built as if the injector had been there from the start. -/
theorem buildSingletons_run (handle : Handle) : ∀ (trees : Table Key Tree) (site : Site),
    (∀ i ∈ trees, i.2.Literal) → ∃ values heap,
      buildSingletons handle trees site = (.ok values,{ site with heap }) ∧
      BuiltAll site.heap heap handle trees values
  | [], site, _ => ⟨[],site.heap,rfl,.nil site.heap⟩
  | (key,t) :: rest, site, hl => by
    obtain ⟨ht,hrest⟩ := List.forall_mem_cons.mp hl
    let next : Site := { site with heap := (t.build handle site.heap).2 }
    obtain ⟨values,heap,hrun,hvalues⟩ := buildSingletons_run handle rest next hrest
    have hbuild : (Work.build none t >>= fun v => Work.onHeap (·.attach handle v)) site =
        (.ok (t.build handle site.heap).1,next) := buildAttached_run ht handle site
    refine ⟨(key,(t.build handle site.heap).1) :: values,heap,?_,.cons key ht hvalues⟩
    rw [buildSingletons,← bind_assoc,Work.run_bind hbuild,Work.run_bind hrun]
    rfl

/-- Registering a directory changes the registry only. -/
theorem registerDir_run (dir : String) (site : Site) :
    ∃ added registry, Classes.registerDir dir site = (.ok added,{ site with registry }) := by
  have hget : Work.registry site = (.ok site.registry,site) := rfl
  unfold Classes.registerDir
  rw [Work.run_bind hget]
  split
  · exact ⟨false,site.registry,rfl⟩
  · exact ⟨true,_,rfl⟩

/-- A script injector is made under the next id, with instances built from the trees. The other
injectors and the files stay. -/
theorem openScript_run (dir : String) (source : Option LazyModule) (strict : Bool)
    {trees : Table Key Tree} (hl : ∀ i ∈ trees, i.2.Literal) (graph : Option Graph) {w : World}
    (hfree : w.injector? ⟨w.made⟩ = none) : ∃ after values,
      openScript dir source strict trees graph w = (.ok ⟨w.made⟩,after) ∧
      (∀ other, after.injector? other = if other = ⟨w.made⟩ then some (.script
        { dir, source, lasting := source.any LazyModule.lasting, strict,
          singletons := values, graph }) else w.injector? other) ∧
      BuiltAll w.site.heap after.site.heap (some ⟨w.made⟩) trees values ∧
      after.site.files = w.site.files := by
  obtain ⟨added,registry,hregister⟩ := registerDir_run dir w.site
  obtain ⟨values,heap,hbuild,hvalues⟩ :=
    buildSingletons_run (some ⟨w.made⟩) trees { w.site with registry } hl
  let script : ScriptInjector :=
    { dir, source, lasting := source.any LazyModule.lasting, strict, singletons := values, graph }
  let registered : World := { w with site := { w.site with registry } }
  let built : World := { w with site := { w.site with registry,heap } }
  let after : World :=
    { built with injectors := w.injectors ++ [(⟨w.made⟩,.script script)], made := w.made + 1 }
  -- the id is known before the instances are built, and nothing is built under it meanwhile
  refine ⟨after,values,?_,fun other => ?_,hvalues,rfl⟩
  · have hfirst : onSite (Classes.registerDir dir) w = (.ok added,registered) :=
      onSite_run w hregister
    have hget : (get : Act World) registered = (.ok registered,registered) := rfl
    have hsecond : onSite (buildSingletons (some ⟨w.made⟩) trees) registered = (.ok values,built) :=
      onSite_run registered hbuild
    rw [openScript,Work.run_bind hfirst,Work.run_bind hget,Work.run_bind hsecond]
    rfl
  · have hnone : Table.find? w.injectors ⟨w.made⟩ = none := hfree
    show Table.find? (w.injectors ++ [(⟨w.made⟩,.script script)]) other = _
    rw [Table.find?_append]
    by_cases hother : other = ⟨w.made⟩
    · rw [if_pos hother,hother,hnone]
      simp [Table.find?,script]
    · have hno : Table.find? [((⟨w.made⟩ : InjectorId),Injector.script script)] other = none := by
        simp [Table.find?,Ne.symm hother]
      rw [if_neg hother,hno,World.injector?]
      cases Table.find? w.injectors other <;> rfl

/-- A batch answers a request through an injector of its own, which keeps nothing when it is asked
and is gone with all it has come to keep when it has answered. A handle to it, such as the answer
may hold, leads nowhere. -/
theorem requestThrough_forgets {b : Batch} {w : World} {site : Site}
    (hbatch : b.compile w.site = (.ok (),site)) (hfree : w.injector? ⟨w.made⟩ = none)
    (interface name : String) : ∃ opened after,
      (∀ key, opened.kept ⟨w.made⟩ key = none) ∧
      requestThrough b interface name w =
        ((Resolve.request ⟨w.made⟩ interface name opened).1,after) ∧
      after.injector? ⟨w.made⟩ = none ∧
      ∀ ask key, Objects.askHandle ask (.injector (some ⟨w.made⟩)) key after =
        (.error (.running .injectorGone),after) := by
  obtain ⟨opened,values,hopen,hinjectors,hvalues,_⟩ :=
    openScript_run b.dir none false (nofun : ∀ i ∈ ([] : Table Key Tree), i.2.Literal) none
      (w := { w with site }) hfree
  obtain rfl := List.forall₂_nil_left_iff.mp hvalues.rows
  have hown := (hinjectors ⟨w.made⟩).trans (if_pos rfl)
  cases hrequest : Resolve.request ⟨w.made⟩ interface name opened with
  | mk answer asked =>
    let after : World := { asked with injectors := asked.injectors.erase ⟨w.made⟩ }
    have hgone : after.injector? ⟨w.made⟩ = none := Table.find?_erase_self _ _
    refine ⟨opened,after,fun key => ?_,?_,hgone,fun ask key => ?_⟩
    · rw [World.kept,hown]
      rfl
    · let forget : Act Unit :=
        modify fun world => { world with injectors := world.injectors.erase ⟨w.made⟩ }
      have hattempt : attempt (Resolve.request ⟨w.made⟩ interface name) opened =
          (.ok answer,asked) := by
        show (Except.ok (Resolve.request ⟨w.made⟩ interface name opened).1,
          (Resolve.request ⟨w.made⟩ interface name opened).2) = _
        rw [hrequest]
      have hforget : forget asked = (.ok (),after) := rfl
      rw [requestThrough,Work.run_bind (onSite_run w hbatch),Work.run_bind hopen,
        Work.run_bind hattempt,Work.run_bind hforget,hrequest]
      cases answer <;> rfl
    · have hdead : after.lives ⟨w.made⟩ = false := congrArg Option.isSome hgone
      have hget : (get : Act World) after = (.ok after,after) := rfl
      rw [Objects.askHandle,Work.run_bind hget,hdead]
      rfl

/-- A snapshot is restored under the next id, over the module if it needs one. -/
theorem restore_run {taken : Snapshot} (hl : ∀ i ∈ taken.singletons, i.2.Literal)
    {source : Option LazyModule}
    (hsource : taken.lasting = true → source.any LazyModule.lasting = true) {w : World}
    (hfree : w.injector? ⟨w.made⟩ = none) : ∃ after values,
      restore taken source w = (.ok ⟨w.made⟩,after) ∧
      after.injector? ⟨w.made⟩ = some (.script
        { dir := taken.dir, source := if taken.lasting then source else none
          lasting := taken.lasting, strict := taken.strict, singletons := values, graph := none }) ∧
      BuiltAll w.site.heap after.site.heap (some ⟨w.made⟩) taken.singletons values := by
  unfold restore
  cases hlasting : taken.lasting with
  | false =>
    obtain ⟨after,values,hrun,hinjectors,hvalues,_⟩ :=
      openScript_run taken.dir none taken.strict hl none hfree
    exact ⟨after,values,hrun,(hinjectors _).trans (if_pos rfl),hvalues⟩
  | true =>
    have hany := hsource hlasting
    cases source with
    | none => cases hany
    | some m =>
      obtain ⟨after,values,hrun,hinjectors,hvalues,_⟩ :=
        openScript_run taken.dir (some m) taken.strict hl none hfree
      rw [hany] at hinjectors
      exact ⟨after,values,hrun,(hinjectors _).trans (if_pos rfl),hvalues⟩

/-- An injector from the text of a snapshot. -/
def restoreText (text : String) (source : Option LazyModule) : Act InjectorId := do
  restore (← onSite (Work.decode text Snapshot.ofJson?)) source

variable {w w' : World} {id : InjectorId} {s : ScriptInjector} {h : Heap}

/-- The snapshot of an injector is restored as the injector brought back, its instances apart from
one another. -/
theorem restore_snapshot (hsavable : s.Savable h) {source : Option LazyModule}
    (hsource : s.lasting = true → source = s.source) (hfree : w.injector? ⟨w.made⟩ = none) :
    ∃ after r, restore (s.snapshot h) source w = (.ok ⟨w.made⟩,after) ∧
      after.injector? ⟨w.made⟩ = some (.script r) ∧ World.Grown w after ∧
      s.Restored ⟨w.made⟩ h w.site.heap after.site.heap r ∧
      r.singletons.Pairwise fun i j => after.site.heap.Apart i.2 j.2 := by
  have hlazy : s.lasting = true → source.any LazyModule.lasting = true := by
    intro hlasting
    rw [hsource hlasting,← hsavable.lasting]
    exact hlasting
  obtain ⟨after,values,hrun,hmade,hbuilt⟩ := restore_run hsavable.snapshot_literal hlazy hfree
  refine ⟨after,_,hrun,hmade,hbuilt.grown,?_,hbuilt.apart⟩
  have hrows := List.forall₂_map_left_iff.mp hbuilt.rows
  exact
    { dir := rfl
      strict := rfl
      lasting := rfl
      source := ite_congr rfl hsource fun _ => rfl
      singletons := ((List.forall₂_and_left _ _).mpr ⟨hsavable.literal,hrows⟩).imp
        fun _ _ ⟨hl,hkey,hv⟩ => ⟨hkey,hl.copied hv⟩ }

/-- The snapshot of an injector that is strict only over a module that can be built again is
restored as it is, over that module. -/
theorem restoreFor_eq {taken : Snapshot} (h : taken.strict = true → taken.lasting = true)
    (m : LazyModule) : restoreFor taken m = restore taken (if taken.lasting then some m else none) := by
  unfold restoreFor
  split
  next hstrict =>
    have hlasting := h hstrict
    have hsame : { taken with strict := true, lasting := true } = taken := by
      obtain ⟨dir,singletons,lasting,strict⟩ := taken
      exact congrArg₂ (Snapshot.mk dir singletons) hlasting.symm hstrict.symm
    rw [if_pos hlasting,restoreStrict,hsame]
  next => rfl

theorem decode_snapshot (hsavable : s.Savable h) {j : Json}
    (hj : (s.snapshot h).toJson? = some j) (w : World) :
    onSite (Work.decode j.compact Snapshot.ofJson?) w = (.ok (s.snapshot h),w) := by
  refine onSite_run w ?_
  rw [Work.decode,hsavable.read hj]
  rfl

/-- The text of the snapshot is there whenever the snapshot is. -/
theorem snapshotText?_run (hs : w.injector? id = some (.script s))
    (hsavable : s.Savable w.site.heap) {j : Json}
    (hj : (s.snapshot w.site.heap).toJson? = some j) : snapshotText? id w =
      match snapshot? id w with
      | (.ok _,w') => (.ok (some j.compact),w')
      | (.error f,w') => (.error f,w') := by
  unfold snapshotText?
  cases htaken : snapshot? id w with
  | mk answer w' =>
    cases answer with
    | error f => exact Work.run_bind_error _ htaken
    | ok taken =>
      obtain ⟨rfl,hgrown⟩ := snapshot?_taken hs htaken
      -- the heap of the snapshot may be a later one, but it shows the same instances
      have hform : (s.snapshot w'.site.heap).toJson? = some j := by
        rw [hsavable.snapshot_grown hgrown]
        exact hj
      have htext : onSite (Work.orElse .malformed (s.snapshot w'.site.heap).toJson?) w' =
          (.ok j,w') := by
        rw [hform]
        rfl
      rw [Work.run_bind htaken]
      exact Work.run_bind htext

theorem snapshotText?_ok (hs : w.injector? id = some (.script s))
    (hsavable : s.Savable w.site.heap) {j : Json}
    (hj : (s.snapshot w.site.heap).toJson? = some j) {answer : Option String}
    (h : snapshotText? id w = (.ok answer,w')) : answer = some j.compact := by
  rw [snapshotText?_run hs hsavable hj] at h
  cases hrun : snapshot? id w with
  | mk taken next =>
    rw [hrun] at h
    cases taken with
    | ok _ => exact (Except.ok.inj (congrArg Prod.fst h)).symm
    | error f => cases congrArg Prod.fst h

end Act

section Texts

variable {w : World} {id : InjectorId} {s : ScriptInjector}
  (hs : w.injector? id = some (.script s)) (hsavable : s.Savable w.site.heap)
include hs hsavable

/-- The text of a snapshot is there unless the module cannot be built again and cannot be saved.
Whenever the text is there, every later world in which the next id is free makes an injector of it,
over the same module where one is needed: the first one brought back. -/
theorem snapshots_are_restored :
    ((∃ f, (Act.snapshotText? id w).1 = .error f) ↔
      s.lasting = false ∧ ∃ f, (Act.saveModule id s.dir w).1 = .error f) ∧
    ∀ answer w', Act.snapshotText? id w = (.ok answer,w') → ∃ text, answer = some text ∧
      ∀ (later : World) (source : Option LazyModule), later.injector? ⟨later.made⟩ = none →
        (s.lasting = true → source = s.source) → ∃ after r,
          Act.restoreText text source later = (.ok ⟨later.made⟩,after) ∧
          after.injector? ⟨later.made⟩ = some (.script r) ∧ World.Grown later after ∧
          s.Restored ⟨later.made⟩ w.site.heap later.site.heap after.site.heap r := by
  obtain ⟨j,hj⟩ := hsavable.toJson
  constructor
  · rw [← Act.snapshot?_fails hs,Act.snapshotText?_run hs hsavable hj]
    cases htaken : Act.snapshot? id w with
    | mk answer w' => cases answer <;> simp
  · intro answer w' hanswer
    refine ⟨j.compact,Act.snapshotText?_ok hs hsavable hj hanswer,?_⟩
    intro later source hfree hsource
    obtain ⟨after,r,hrun,hr,hgrown,hrestored,_⟩ := Act.restore_snapshot hsavable hsource hfree
    refine ⟨after,r,?_,hr,hgrown,hrestored⟩
    rw [Act.restoreText,Work.run_bind (Act.decode_snapshot hsavable hj later)]
    exact hrun

/-- No two instances of an injector that is brought back have an object or a native in common,
whatever the instances of the first one had. -/
theorem restored_instances_are_apart {text : String} {w' : World}
    (htext : Act.snapshotText? id w = (.ok (some text),w')) {later after : World}
    (hfree : later.injector? ⟨later.made⟩ = none) {source : Option LazyModule}
    (hsource : s.lasting = true → source = s.source) {made : InjectorId} {r : ScriptInjector}
    (hrun : Act.restoreText text source later = (.ok made,after))
    (hr : after.injector? made = some (.script r)) :
    r.singletons.Pairwise fun i j => after.site.heap.Apart i.2 j.2 := by
  obtain ⟨j,hj⟩ := hsavable.toJson
  obtain rfl := Option.some.inj (Act.snapshotText?_ok hs hsavable hj htext)
  obtain ⟨after',r',hrun',hr',_,_,hapart⟩ := Act.restore_snapshot hsavable hsource hfree
  rw [Act.restoreText,Work.run_bind (Act.decode_snapshot hsavable hj later),hrun'] at hrun
  obtain ⟨hmade,rfl⟩ := Prod.mk.inj hrun
  obtain rfl := Except.ok.inj hmade
  obtain rfl := Injector.script.inj (Option.some.inj (hr'.symm.trans hr))
  exact hapart

/-- What a cache keeps of an injector gives it back: if the text of the snapshot is found in a cache,
an injector that is built over the cache and the same module is the first one brought back. It
gives a copy of what the first one kept for a key. -/
theorem cached_snapshots_are_restored {m : LazyModule} (hm : s.source = some m)
    (hstrict : s.strict = true → s.lasting = true) {text : String} {w' : World}
    (htext : Act.snapshotText? id w = (.ok (some text),w')) {later : World} {cache : CacheId}
    (hfetch : Act.fetch cache Act.snapshotEntry later = (.ok (some text),later))
    (hfree : later.injector? ⟨later.made⟩ = none) (dir : String) (saved : List String)
    (compiled : Bool) : ∃ after r,
      Act.buildCached cache m dir saved compiled later = (.ok ⟨later.made⟩,after) ∧
      after.injector? ⟨later.made⟩ = some (.script r) ∧
      s.Restored ⟨later.made⟩ w.site.heap later.site.heap after.site.heap r ∧
      ∀ key v, s.singletons.find? key = some v → ∃ v',
        Resolve.resolve (Resolve.runKey Resolve.depthLimit) ⟨later.made⟩ key after =
          (.ok v',after) ∧
        Copied (some ⟨later.made⟩) w.site.heap later.site.heap after.site.heap v v' := by
  obtain ⟨j,hj⟩ := hsavable.toJson
  obtain rfl := Option.some.inj (Act.snapshotText?_ok hs hsavable hj htext)
  have hsource : s.lasting = true → (if s.lasting then some m else none) = s.source := by
    intro hlasting
    rw [if_pos hlasting,hm]
  obtain ⟨after,r,hrun,hr,_,hrestored,_⟩ := Act.restore_snapshot hsavable hsource hfree
  refine ⟨after,r,?_,hr,hrestored,fun key v hv => ?_⟩
  · rw [Act.buildCached,Work.run_bind hfetch]
    dsimp only
    rw [Work.run_bind (Act.decode_snapshot hsavable hj later),Act.restoreFor_eq hstrict]
    exact hrun
  · obtain ⟨v',hfind,hcopied⟩ := hrestored.find? hv
    have hkept : after.kept ⟨later.made⟩ key = some v' := by
      rw [World.kept,hr]
      exact hfind
    exact ⟨v',Resolve.resolve_kept hkept,hcopied⟩

end Texts

/-- A strict injector with parts that hold its own handle. Its module can be built again. -/
def postOffice : ScriptInjector where
  dir := "post"
  source := some ⟨some "post",[],true⟩
  lasting := true
  strict := true
  singletons := [(⟨"-parts"⟩,mailParts),(⟨"Clock-*"⟩,.null)]
  graph := none

/-- An injector without instances, whose module has a native that is not known by its bytes. -/
def phoneOffice : ScriptInjector where
  dir := "phone"
  source := some ⟨none,[.bind "" (some "line") (.literal (.foreign "Socket" none)) true],false⟩
  lasting := false
  strict := false
  singletons := []
  graph := none

/-- The injector alone, under the id that the mail names. -/
def officeWorld (s : ScriptInjector) : World where
  site := { heap := mailHeap }
  injectors := [(⟨3⟩,.script s)]
  made := 4

theorem postOffice_nesting (j : Json) (hj : (postOffice.snapshot mailHeap).toJson? = some j) :
    j.nesting < Json.depthLimit := by
  have hform : ((postOffice.snapshot mailHeap).toJson?).all (·.nesting < Json.depthLimit) := by
    decide +kernel
  rw [hj] at hform
  simpa using hform

theorem postOffice_savable : postOffice.Savable mailHeap where
  keys := by decide
  lasting := rfl
  instances := by
    have hliteral : mailHeap.Literal .null := Heap.literal_of_held trivial fun u hu => by cases hu
    have hnull : mailHeap.Savable .null := hliteral.savable fun x hx => by
      cases List.mem_singleton.mp hx
    show ∀ i ∈ [(_,mailParts),(_,.null)],_
    simp only [List.forall_mem_cons]
    exact ⟨mailParts_savable,hnull,fun _ h => by cases h⟩
  nesting := postOffice_nesting

theorem snapshots_are_restored_sample : ∃ text,
    (Act.snapshotText? ⟨3⟩ (officeWorld postOffice)).1 = .ok (some text) ∧
      ∃ after r, Act.restoreText text postOffice.source {} = (.ok ⟨0⟩,after) ∧
        after.injector? ⟨0⟩ = some (.script r) ∧
        postOffice.Restored ⟨0⟩ mailHeap {} after.site.heap r := by
  have hthere : (officeWorld postOffice).injector? ⟨3⟩ = some (.script postOffice) := rfl
  obtain ⟨hfails,hrestores⟩ := snapshots_are_restored hthere postOffice_savable
  cases hrun : Act.snapshotText? ⟨3⟩ (officeWorld postOffice) with
  | mk answer w' =>
    cases answer with
    | error f =>
      obtain ⟨hlasting,_⟩ := hfails.mp ⟨f,by rw [hrun]⟩
      cases hlasting
    | ok answer =>
      obtain ⟨text,rfl,hrestore⟩ := hrestores answer w' hrun
      obtain ⟨after,r,hafter,hr,_,hrestored⟩ := hrestore {} postOffice.source rfl fun _ => rfl
      exact ⟨text,rfl,after,r,hafter,hr,hrestored⟩

/-- Where the module cannot be saved there is no snapshot, even of no instances. -/
theorem phoneOffice_has_no_snapshot :
    (officeWorld phoneOffice).injector? ⟨3⟩ = some (.script phoneOffice) ∧
    phoneOffice.Savable mailHeap ∧
    (Act.snapshotText? ⟨3⟩ (officeWorld phoneOffice)).1 = .error .malformed := by
  have hsavable : phoneOffice.Savable mailHeap :=
    { keys := by decide
      lasting := rfl
      instances := fun _ hi => by cases hi
      nesting := fun j hj => by
        obtain rfl := Option.some.inj hj
        decide }
  exact ⟨rfl,hsavable,rfl⟩

end Wiring
