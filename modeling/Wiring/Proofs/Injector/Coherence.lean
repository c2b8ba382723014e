import Mathlib
import Wiring.Proofs.Compile.Demand
import Wiring.Proofs.Injector.Returning

/-!
# Compiled directories are coherent

After a whole compile, the units, the scopes, the pointcuts and the graph of its directory describe
the graph that was compiled, if no other graph had been saved there before. So an injector without
a module, which reads its graph from the directory, compiles further keys as that graph would have
them compiled.
-/
namespace Wiring

open Heap (Grown)

/-- The graph has a JSON form that is read as it was written. -/
structure Container.Representable (g : Graph) (h : Heap) : Prop where
  tabled : g.Tabled
  savable : ∀ v ∈ g.values, h.Savable v
  shallow : ∀ j, (g.unfold h).toJson? = some j → j.nesting < Json.depthLimit

/-- Such a graph has one text wherever the heap is the given one, and is read from this text. -/
theorem Container.Representable.text {g : Graph} {h : Heap} (hg : g.Representable h) : ∃ text,
    (∀ site : Site, site.heap = h → Save.graphText g site = (.ok text,site)) ∧
      (Json.read? text).bind Container.ofJson? = some (g.unfold h) := by
  have hliteral : ∀ v ∈ g.values, h.Literal v := fun v hv => (hg.savable v hv).literal
  have hsome : (g.unfold h).toJson?.isSome := by
    rw [Container.toJson_isSome,Container.forall_values_unfold]
    intro v hv
    exact Option.isSome_iff_exists.mpr (hg.savable v hv).toJson
  obtain ⟨j,hj⟩ := Option.isSome_iff_exists.mp hsome
  have hexact : j.Exact := by
    refine Container.exact_toJson hj ?_
    rw [Container.forall_values_unfold]
    exact fun v hv => (hg.savable v hv).floatsFit
  have hfits : j.Fits := ⟨hexact,hg.shallow j hj⟩
  refine ⟨j.compact,?_,?_⟩
  · rintro site rfl
    rw [Save.graphText_run,hj]
  · rw [hfits.read_compact,Option.bind_some]
    refine Container.ofJson_toJson hj ?_ ?_ hfits
    · exact (g.alike_unfold h (P := fun _ => True) fun _ _ => trivial).tabled hg.tabled
    · rw [Container.forall_values_unfold]
      exact fun v hv => (hliteral v hv).unfold

/-- What is built of the graph shows the trees that the graph shows. -/
theorem Container.Representable.mirrors {g : Graph} {h : Heap} (hg : g.Representable h)
    (base : Heap) : g.Mirrors h ((g.unfold h).build base).1 ((g.unfold h).build base).2 :=
  (Container.alike_copies (fun v hv => (hg.savable v hv).literal) base).imp
    fun _ _ hv => hv.shows.symm

namespace Batch

variable {b : Batch} {start fin : Site}

/-- The directory holds no graph yet, or the very graph of the batch. -/
def Unclaimed (b : Batch) (site : Site) : Prop :=
  site.files.exists? (Layout.modulePath b.dir) = false ∨ ∃ text,
    Save.graphText b.graph site = (.ok text,site) ∧
      site.files.status (Layout.modulePath b.dir) = .file text

/-- An injector of the directory that has no module and compiles on demand, while the pointcuts
there are still those of the batch. It has read its graph before, and this mirrors the graph of the
batch; or it will read it, and the file of the graph is still the one that was left. -/
structure Follows (b : Batch) (start fin : Site) (id : InjectorId) (s : ScriptInjector)
    (w : World) : Prop where
  injector : w.injector? id = some (.script s)
  dir : s.dir = b.dir
  source : s.source = none
  strict : s.strict = false
  read : ∀ copy, s.graph = some copy → b.graph.Mirrors start.heap copy w.site.heap
  unread : s.graph = none → w.site.files.status (Layout.modulePath b.dir) =
    fin.files.status (Layout.modulePath b.dir)
  pointcuts : w.site.files.status (Layout.pointcutsPath b.dir) =
    fin.files.status (Layout.pointcutsPath b.dir)

/-- What the injector makes of a world when it compiles further keys, one after another. The files
of these lie in the directories that they are meant for. -/
inductive Onward (b : Batch) (id : InjectorId) (first : World) : World → Prop where
  | first : Onward b id first first
  | compiled {w w' : World} {g : Graph} {key : Key} (h : Onward b id first w)
      (hgraph : Resolve.graphOf id w = (.ok g,w')) (hkey : '/' ∉ key.stem.toList)
      (hplain : Demand.Plain b.dir g (some (Resolve.scopeIn b.dir g)) key w'.site) :
      Onward b id first (Resolve.compileMissing id key w).2

/-- Where a unit is missing, the injector compiles it as any graph is compiled that mirrors the one
of the batch, once it has such a graph at hand. -/
def CompilesLike (b : Batch) (h : Heap) (id : InjectorId) (w : World) : Prop :=
  ∃ copy w', Resolve.graphOf id w = (.ok copy,w') ∧ b.graph.Mirrors h copy w'.site.heap ∧
    World.Grown w w' ∧ w'.site.files = w.site.files ∧ w'.site.registry = w.site.registry ∧
    ∀ key g, b.graph.Mirrors h g w'.site.heap → Resolve.compileMissing id key w =
      Act.onSite (Demand.compile b.dir g (some (Resolve.scopeIn b.dir g)) key) w'

/-- The files that a whole compile left describe its graph, and so does what is compiled of them
from then on. -/
structure Coherent (b : Batch) (start fin : Site) : Prop where
  /-- The unit of each bound key is what its binding compiles to, and its scope is saved. -/
  units : ∀ key binding, b.graph.get? key = some binding → ∃ code site site',
    site.heap = start.heap ∧ Compile.unitOf b.graph none binding site = (.ok code,site') ∧
      fin.files.contents.find? (Path.ofText (Layout.unitPath b.dir key)) = some code.source ∧
      fin.files.savedScope? b.dir key = some binding.isShared
  /-- The pointcuts are read as they are. -/
  pointcuts : ∀ site : Site, site.files.status (Layout.pointcutsPath b.dir) =
      fin.files.status (Layout.pointcutsPath b.dir) →
    Save.pointcuts? b.dir site = (.ok (some b.graph.pointcuts),site)
  /-- The graph is read as one with the same bindings, pointcuts and maps, and values that show
  the same trees. -/
  graph : ∀ site : Site, site.files.status (Layout.modulePath b.dir) =
      fin.files.status (Layout.modulePath b.dir) → ∃ copy heap,
    Save.graph? b.dir site = (.ok (some copy),{ site with heap }) ∧ Grown site.heap heap ∧
      b.graph.Mirrors start.heap copy heap
  /-- An injector that goes on from here compiles all further keys of this graph. -/
  continued : ∀ id s w w', b.Follows start fin id s w → b.Onward id w w' →
    b.CompilesLike start.heap id w'

variable {id : InjectorId} {s : ScriptInjector} {w w' : World} {text : String}

theorem Unclaimed.module (h : b.Unclaimed start)
    (hsaved : Save.graphText b.graph start = (.ok text,start)) :
    start.files.exists? (Layout.modulePath b.dir) = false ∨
      start.files.status (Layout.modulePath b.dir) = .file text := by
  refine h.imp_right fun ⟨text',htext',hstatus⟩ => ?_
  rw [hstatus,← Except.ok.inj (congrArg Prod.fst (hsaved.symm.trans htext'))]

namespace Follows

/-- Once the graph is at hand, missing units are compiled of it on demand. -/
theorem compileMissing (hfiled : b.FiledAll start.heap text fin.files)
    (h : b.Follows start fin id s w) {copy : Graph}
    (hgraph : Resolve.graphOf id w = (.ok copy,w'))
    (hfollows : b.Follows start fin id { s with graph := some copy } w') (key : Key) :
    Resolve.compileMissing id key w =
      Act.onSite (Demand.compile b.dir copy (some (Resolve.scopeIn b.dir copy)) key) w' := by
  have hpointcuts := hfollows.pointcuts.trans hfiled.pointcuts
  rw [← h.dir] at hpointcuts
  have hthere : w'.site.files.exists? (Layout.pointcutsPath s.dir) = true := by
    rw [Files.exists?,hpointcuts]
  rw [Resolve.compileMissing_run key h.injector h.strict hgraph hthere,h.dir]

variable (hrep : b.graph.Representable start.heap)
  (htext : (Json.read? text).bind Container.ofJson? = some (b.graph.unfold start.heap))
  (hfiled : b.FiledAll start.heap text fin.files)

include hrep htext hfiled

/-- The graph is at hand, or it is read. -/
theorem graphOf (h : b.Follows start fin id s w) : ∃ copy w',
    Resolve.graphOf id w = (.ok copy,w') ∧
      b.Follows start fin id { s with graph := some copy } w' ∧ World.Grown w w' ∧
      w'.site.files = w.site.files ∧ w'.site.registry = w.site.registry := by
  cases hkept : s.graph with
  | some copy =>
    refine ⟨copy,w,Resolve.graphOf_kept h.injector hkept,?_,.refl _,rfl,rfl⟩
    rw [← hkept]
    exact h
  | none =>
    have hread := Save.graph?_run ((h.unread hkept).trans hfiled.graph) htext
    rw [← h.dir] at hread
    obtain ⟨w',hrun,hsite,hinjector⟩ := Resolve.graphOf_read h.injector hkept h.source hread
    refine ⟨_,w',hrun,⟨hinjector,h.dir,h.source,h.strict,?_,nofun,?_⟩,?_,?_,?_⟩
    · intro copy hcopy
      rw [← Option.some.inj hcopy,hsite]
      exact hrep.mirrors w.site.heap
    · rw [hsite]
      exact h.pointcuts
    · rw [World.Grown,hsite]
      exact ((b.graph.unfold start.heap).alike_build w.site.heap).1
    · rw [hsite]
    · rw [hsite]

theorem compilesLike (h : b.Follows start fin id s w) : b.CompilesLike start.heap id w := by
  obtain ⟨copy,w',hgraph,hfollows,hgrown,hfiles,hregistry⟩ := h.graphOf hrep htext hfiled
  refine ⟨copy,w',hgraph,hfollows.read copy rfl,hgrown,hfiles,hregistry,fun key g hg => ?_⟩
  have hcopy : copy.Mirrors w'.site.heap g w'.site.heap := (hfollows.read copy rfl).symm.trans hg
  rw [h.compileMissing hfiled hgraph hfollows key]
  cases hcompile : Demand.compile b.dir g (some (Resolve.scopeIn b.dir g)) key w'.site with
  | mk result site =>
    rw [Act.onSite_run w' hcompile,
      Act.onSite_run w' ((Demand.compile_mirrored hcopy).trans hcompile)]

/-- The injector follows on after each compile: the heap stays, and so do the pointcuts. -/
theorem onward (hnull : ∀ key interface, b.graph.get? key ≠ some (.nullObject interface))
    (h : b.Follows start fin id s w) (hw : b.Onward id w w') :
    ∃ s', b.Follows start fin id s' w' := by
  induction hw with
  | first => exact ⟨s,h⟩
  | @compiled mid read g key _ hgraph hkey hplain ih =>
    obtain ⟨s',hmid⟩ := ih
    obtain ⟨copy,read',hgraph',hfollows,_⟩ := hmid.graphOf hrep htext hfiled
    obtain ⟨hcopy,rfl⟩ := Prod.mk.inj (hgraph.symm.trans hgraph')
    obtain rfl := Except.ok.inj hcopy
    have hmirrors := hfollows.read g rfl
    have hnone : ∀ interface, g.get? key ≠ some (.nullObject interface) := by
      intro interface hg
      have hbinding := hmirrors.get? key
      rw [hg] at hbinding
      generalize hb : b.graph.get? key = b? at hbinding
      cases hbinding with
      | some hbinding =>
        cases hbinding with
        | nullObject => exact hnull key interface hb
    have hthere := hfollows.pointcuts.trans hfiled.pointcuts
    have hdir : read.site.files.Enters b.dir := by
      refine .of_canHold pointcutsName_ordinary ?_
      rw [← Layout.pointcutsPath,Files.canHold,hthere]
    have hheap := Demand.compile_heap b.dir key (hmirrors.symm.trans hmirrors)
    have hlaid := Demand.compile_laid (.inr rfl) hnone hdir hkey hplain
    rw [hmid.compileMissing hfiled hgraph hfollows key]
    refine ⟨{ s' with graph := some g },?_⟩
    refine ⟨hfollows.injector,hfollows.dir,hfollows.source,hfollows.strict,?_,?_,?_⟩
    · intro copy hcopy
      obtain rfl := Option.some.inj hcopy
      show b.graph.Mirrors start.heap g (Demand.compile b.dir g _ key read.site).2.heap
      rw [hheap]
      exact hmirrors
    · intro hunread
      cases hunread
    · refine Eq.trans ?_ hfollows.pointcuts
      exact hlaid.status hdir pointcutsName_ordinary (by decide)
        (not_ours pointcutsName_ordinary (by decide) (by decide))

end Follows
end Batch

/-- A whole compile succeeded whose graph has a JSON form, and stems tell its keys apart. -/
structure Batch.Succeeded (b : Batch) (start fin : Site) : Prop where
  run : b.compile start = (.ok (),fin)
  representable : b.graph.Representable start.heap
  stems : ∀ key ∈ b.graph.bindings.keys, ∀ key' ∈ b.graph.bindings.keys,
    key.stem = key'.stem → key = key'

theorem Batch.Succeeded.filedApart {b : Batch} {start fin : Site} (h : b.Succeeded start fin)
    (hslashless : b.graph.Slashless) : b.graph.FiledApart where
  bound _ hkey := hkey
  stems a ha a' ha' hstem := by
    obtain ⟨_,hb⟩ := Graph.get?_of_has ha
    obtain ⟨_,hb'⟩ := Graph.get?_of_has ha'
    exact h.stems a (Container.mem_keys_of_get? hb) a' (Container.mem_keys_of_get? hb') hstem
  slashless key hkey := by
    obtain ⟨_,hb⟩ := Graph.get?_of_has hkey
    exact hslashless.stems key (Container.mem_keys_of_get? hb)
  qualifiers := hslashless.qualifiers

/-- A directory is coherent after a whole compile, if no other graph had been saved there and the
files of keys and qualifiers are named without slashes. -/
theorem compiled_directories_are_coherent {b : Batch} {start fin : Site}
    (h : b.Succeeded start fin) (hslashless : b.graph.Slashless) (hunclaimed : b.Unclaimed start) :
    b.Coherent start fin := by
  obtain ⟨text,hsaved,hread⟩ := h.representable.text
  have hfiled := Batch.compile_filed (h.filedApart hslashless) h.run hsaved
    (hunclaimed.module (hsaved start rfl))
  refine ⟨fun key binding hb => ?_,fun site hsite => ?_,fun site hsite => ?_,
    fun id s w w' hw honward => ?_⟩
  · have htold := hfiled.told key (Graph.has_of_get? hb)
    obtain ⟨_,hunit,hdescribed⟩ := htold (.unit key) (.inl rfl)
    obtain ⟨_,hscope,hshared⟩ := htold (.scope key) (.inr rfl)
    cases hdescribed with
    | @unit _ b' code site site' hb' hheap hcode =>
    cases hshared with
    | @scope _ b'' hb'' =>
      obtain rfl := Option.some.inj (hb.symm.trans hb')
      obtain rfl := Option.some.inj (hb.symm.trans hb'')
      refine ⟨code,site,site',hheap,hcode,hunit,?_⟩
      rw [Part.path] at hscope
      rw [Files.savedScope?,hscope,Option.bind_some,Compile.read_scope]
  · exact Save.pointcuts?_run (hsite.trans hfiled.pointcuts)
  · exact ⟨_,_,Save.graph?_run (hsite.trans hfiled.graph) hread,
      ((b.graph.unfold start.heap).alike_build site.heap).1,h.representable.mirrors site.heap⟩
  · obtain ⟨s',hw'⟩ := hw.onward h.representable hread hfiled (Batch.compile_converted h.run) honward
    exact hw'.compilesLike h.representable hread hfiled

section Samples

/-- The value holds nothing, and is neither a float nor a native. -/
def Value.isScalar : Value → Bool
  | .null | .bool _ | .int _ | .text _ | .injector _ => true
  | _ => false

theorem Heap.savable_of_isScalar {v : Value} (hv : v.isScalar = true) (h : Heap) :
    h.Savable v := by
  cases v with
  | null | bool | int | text | injector =>
    refine Literal.savable ?_ fun x hx => by cases List.mem_singleton.mp hx
    exact literal_of_held trivial fun u hu => by cases hu
  | float | array | object | native => cases hv

theorem Container.representable_of_scalars {g : Graph} {h : Heap} (htabled : g.Tabled)
    (hscalars : g.values.all Value.isScalar = true)
    (hshallow : (g.unfold h).toJson?.all (·.nesting < Json.depthLimit) = true) :
    g.Representable h where
  tabled := htabled
  savable v hv := Heap.savable_of_isScalar (List.all_eq_true.mp hscalars v hv) h
  shallow j hj := by
    rw [hj] at hshallow
    simpa using hshallow

theorem carBatch_representable : carBatch.graph.Representable carPrepared.heap :=
  Container.representable_of_scalars ⟨by decide +kernel,by decide +kernel,by decide +kernel⟩
    (by decide +kernel) (by decide +kernel)

theorem carBatch_succeeded : carBatch.Succeeded carPrepared carFinished :=
  ⟨carBatch_compiled.1,carBatch_representable,carRerun_stands.separate.stems⟩

/-- An injector of the directory of the car that has just been made. -/
def carInjector : ScriptInjector where
  dir := "s"
  source := none
  lasting := false
  strict := false
  singletons := []
  graph := none

def carWorld : World where
  site := carFinished
  injectors := [(⟨0⟩,.script carInjector)]

theorem carInjector_follows :
    carBatch.Follows carPrepared carFinished ⟨0⟩ carInjector carWorld :=
  ⟨rfl,rfl,rfl,rfl,nofun,fun _ => rfl,rfl⟩

theorem compiled_directories_are_coherent_sample :
    (carBatch.Succeeded carPrepared carFinished ∧ carBatch.graph.Slashless ∧
        carBatch.Unclaimed carPrepared) ∧
      carBatch.Coherent carPrepared carFinished ∧
      carBatch.CompilesLike carPrepared.heap ⟨0⟩ carWorld := by
  have hunclaimed : carBatch.Unclaimed carPrepared := .inl (by decide +kernel)
  have hcoherent := compiled_directories_are_coherent carBatch_succeeded carBatch_slashless hunclaimed
  exact ⟨⟨carBatch_succeeded,carBatch_slashless,hunclaimed⟩,hcoherent,
    hcoherent.continued _ _ _ _ carInjector_follows .first⟩

/-- A graph that binds a count. -/
def countBatch (count : Int64) : Batch where
  dir := "s"
  graph :=
    { bindings :=
        [(Key.scriptDir,.literal (.text "s")),(.of "" "count",.literal (.int count)),
          (.any Key.injectorInterface,.literal (.injector none))]
      pointcuts := []
      maps := [] }

def countPrepared : Site := { files := { directories := [["s"]] } }

@[irreducible]
def counted : Site := ((countBatch 1).compileInOrder countPrepared).2

/-- Another count has been compiled into the same directory. -/
@[irreducible]
def recounted : Site := ((countBatch 2).compileInOrder counted).2

theorem countBatch_representable (count : Int64) (h : Heap)
    (hshallow : ((countBatch count).graph.unfold h).toJson?.all (·.nesting < Json.depthLimit) = true) :
    (countBatch count).graph.Representable h :=
  Container.representable_of_scalars
    ⟨(by decide : (countBatch 0).graph.bindings.keys.Nodup),List.nodup_nil,nofun⟩ rfl hshallow

theorem countBatch_prepared {site : Site} (count : Int64) (h : site.files.status "s" = .directory) :
    (countBatch count).Prepared site := by
  have hopen : Work.onFiles (Files.ensureDirectory "s") site = (.ok (),site) := by
    rw [Work.onFiles_run,Files.ensureDirectory_run,Files.makeDirectory_there h]
    rfl
  have hnull : Prepare.nullObjects "s" (countBatch count).graph site =
      (.ok (countBatch count).graph,site) := rfl
  refine .intro hopen hnull (fun row hrow p hp => ?_) ?_
  · have hkinds : ∀ row ∈ (countBatch count).graph.bindings, row.2.kind = "instance" := by
      simp [countBatch,Binding.kind]
    have hkind := hkinds row hrow
    rw [hp] at hkind
    simp [Binding.kind] at hkind
  · show Batch.make "s" (countBatch count).graph site = (.ok (countBatch count),site)
    rw [Batch.make,Work.run_bind hopen]
    rfl

theorem recounted_runs : ((countBatch 1).compileInOrder countPrepared).1 = .ok () ∧
    counted.files.status "s" = .directory ∧
    ((countBatch 2).graph.unfold counted.heap).toJson?.all (·.nesting < Json.depthLimit) = true ∧
    ((countBatch 2).compileInOrder counted).1 = .ok () ∧
    (Save.graphText (countBatch 1).graph countPrepared).1.map (.file ·) =
      .ok (recounted.files.status (Layout.modulePath "s")) := by
  decide +kernel

theorem countBatch_slashless (count : Int64) : (countBatch count).graph.Slashless :=
  ⟨(by decide : ∀ key ∈ (countBatch 0).graph.bindings.keys,'/' ∉ key.stem.toList),nofun⟩

/-- The graph of the first count stays, next to the units of the second one. -/
theorem countBatch_incoherent : (countBatch 1).compile countPrepared = (.ok (),counted) ∧
    (countBatch 2).Prepared counted ∧
    (countBatch 2).Succeeded counted recounted ∧ (countBatch 2).graph.Slashless ∧
    ¬(countBatch 2).Coherent counted recounted := by
  obtain ⟨hearlier,hdirectory,hshallow,hrun,hmodule⟩ := recounted_runs
  have hsorted : (countBatch 0).graph.bindings.keys.Pairwise fun a b => a.before b = true := by
    decide +kernel
  have hcompiledBefore : (countBatch 1).compile countPrepared = (.ok (),counted) := by
    unfold counted
    exact Batch.compile_ok_of_pairwise hsorted hearlier
  have hcompiled : (countBatch 2).compile counted = (.ok (),recounted) := by
    unfold recounted
    exact Batch.compile_ok_of_pairwise hsorted hrun
  refine ⟨hcompiledBefore,countBatch_prepared 2 hdirectory,
    ⟨hcompiled,countBatch_representable 2 _ hshallow,by decide +kernel⟩,countBatch_slashless 2,
    fun h => ?_⟩
  have hfirst : (countBatch 1).graph.Representable countPrepared.heap :=
    countBatch_representable 1 _ (by decide +kernel)
  obtain ⟨text,hsaved,htext⟩ := hfirst.text
  rw [hsaved countPrepared rfl] at hmodule
  have hread := Save.graph?_run (Except.ok.inj hmodule).symm htext
  obtain ⟨copy,heap,hagain,_,hmirrors⟩ := h.graph recounted rfl
  obtain ⟨hcopy,hheap⟩ := Prod.mk.inj (hread.symm.trans hagain)
  obtain rfl := Option.some.inj (Except.ok.inj hcopy)
  obtain rfl : _ = heap := congrArg Site.heap hheap
  have hsame : (countBatch 2).graph.Mirrors counted.heap (countBatch 1).graph {} :=
    hmirrors.trans (hfirst.mirrors recounted.heap).symm
  have hcount : Option.Rel
      (Binding.Alike fun v u => counted.heap.unfold v = Heap.unfold {} u)
      (some (.literal (.int 2))) (some (.literal (.int 1))) := hsame.get? (.of "" "count")
  cases hcount with
  | some hliteral =>
    cases hliteral with
    | literal hint =>
      have hint : Tree.int 2 = Tree.int 1 := hint
      cases hint

theorem aliasedBatch_incoherent : aliasedBatch.Prepared aliasedPrepared ∧
    aliasedBatch.Succeeded aliasedPrepared aliasedFinished ∧
    aliasedBatch.graph.qualifiers = [] ∧ aliasedBatch.Unclaimed aliasedPrepared ∧
    ¬aliasedBatch.Coherent aliasedPrepared aliasedFinished := by
  have hstands : aliasedRerun.Stands := aliasedRerun_not_repeated.1
  have hrepresentable : aliasedBatch.graph.Representable aliasedPrepared.heap :=
    Container.representable_of_scalars ⟨by decide,List.nodup_nil,nofun⟩ rfl (by decide +kernel)
  have hunit : aliasedFinished.files.contents.find?
      (Path.ofText (Layout.unitPath "s" (.of "./a" "x"))) = some "return (1, false);\n" := by
    decide +kernel
  refine ⟨hstands.prepared,⟨hstands.compiled,hrepresentable,hstands.separate.stems⟩,rfl,
    .inl (by decide +kernel),fun h => ?_⟩
  obtain ⟨code,site,site',_,hcode,hfind,_⟩ := h.units (.of "./a" "x") (.literal (.int 2)) rfl
  have hown : Compile.unitOf aliasedBatch.graph none (.literal (.int 2)) site =
      (.ok ⟨[.yieldPair (.literal (.int 2)) false],false,[]⟩,site) := rfl
  obtain rfl := Except.ok.inj (congrArg Prod.fst (hown.symm.trans hcode))
  have hsource : some "return (1, false);\n" = some "return (2, false);\n" := hunit.symm.trans hfind
  exact absurd hsource (by decide)

/-- The qualifier of a parameter lies where the scope of a key belongs. -/
def strayBatch : Batch where
  dir := "s"
  graph :=
    { bindings :=
        [(Key.scriptDir,.literal (.text "s")),
          (.of "Car" "__construct-p",.literal (.int 1)),
          (.any "Horn",.provider ⟨"HornMaker",[],[],none,false,[]⟩ true none),
          (.any Key.injectorInterface,.literal (.injector none)),
          (.any "Taxi",.construction ⟨"../meta/Car",
            [⟨.any "Horn",⟨"../meta/Car","__construct","p"⟩,none,some (.text "loud"),none⟩],
            [],none,false,[]⟩)]
      pointcuts := []
      maps := [] }

def strayStart : Site where
  registry := { classes := [("../meta/Car",{ name := "../meta/Car" })] }

def strayPrepared : Site := { strayStart with files := { directories := [["s"]] } }

@[irreducible]
def strayFinished : Site := (strayBatch.compileInOrder strayPrepared).2

theorem strayBatch_prepared : strayBatch.Prepared strayPrepared := by
  have hopen : Work.onFiles (Files.ensureDirectory "s") strayStart = (.ok (),strayPrepared) := rfl
  have hnull : Prepare.nullObjects "s" strayBatch.graph strayPrepared =
      (.ok strayBatch.graph,strayPrepared) := rfl
  have hclasses : ∀ row ∈ strayBatch.graph.bindings, ∀ p, row.2 = .construction p →
      p.className = "../meta/Car" := by
    simp [strayBatch]
  refine .intro hopen hnull (fun row hrow p hp => ?_) rfl
  rw [hclasses row hrow p hp]
  exact .intro (c := { name := "../meta/Car" }) rfl nofun nofun

theorem strayBatch_incoherent : strayBatch.Prepared strayPrepared ∧
    strayBatch.Succeeded strayPrepared strayFinished ∧
    (∀ key ∈ strayBatch.graph.bindings.keys, '/' ∉ key.stem.toList) ∧
    strayBatch.Unclaimed strayPrepared ∧ ¬strayBatch.Coherent strayPrepared strayFinished := by
  have hsorted : strayBatch.graph.bindings.keys.Pairwise fun a b => a.before b = true := by
    decide +kernel
  have hrepresentable : strayBatch.graph.Representable strayPrepared.heap :=
    Container.representable_of_scalars ⟨by decide,List.nodup_nil,by decide⟩ rfl (by decide +kernel)
  have hrun : (strayBatch.compileInOrder strayPrepared).1 = .ok () ∧
      strayFinished.files.savedScope? "s" (.of "Car" "__construct-p") = none := by
    decide +kernel
  have hcompiled : strayBatch.compile strayPrepared = (.ok (),strayFinished) := by
    unfold strayFinished
    exact Batch.compile_ok_of_pairwise hsorted hrun.1
  refine ⟨strayBatch_prepared,⟨hcompiled,hrepresentable,by decide +kernel⟩,by decide +kernel,
    .inl (by decide +kernel),fun h => ?_⟩
  obtain ⟨_,_,_,_,_,_,hscope⟩ := h.units (.of "Car" "__construct-p") (.literal (.int 1)) rfl
  cases hrun.2.symm.trans hscope

/-- Each condition is needed: a graph that was saved before stays where it is, and slashes lead
files of keys or qualifiers to those of other keys. -/
theorem directories_not_always_coherent :
    ((countBatch 1).compile countPrepared = (.ok (),counted) ∧ (countBatch 2).Prepared counted ∧
        (countBatch 2).Succeeded counted recounted ∧ (countBatch 2).graph.Slashless ∧
        ¬(countBatch 2).Coherent counted recounted) ∧
      (aliasedBatch.Prepared aliasedPrepared ∧
        aliasedBatch.Succeeded aliasedPrepared aliasedFinished ∧
        aliasedBatch.graph.qualifiers = [] ∧ aliasedBatch.Unclaimed aliasedPrepared ∧
        ¬aliasedBatch.Coherent aliasedPrepared aliasedFinished) ∧
      (strayBatch.Prepared strayPrepared ∧ strayBatch.Succeeded strayPrepared strayFinished ∧
        (∀ key ∈ strayBatch.graph.bindings.keys, '/' ∉ key.stem.toList) ∧
        strayBatch.Unclaimed strayPrepared ∧ ¬strayBatch.Coherent strayPrepared strayFinished) :=
  ⟨countBatch_incoherent,aliasedBatch_incoherent,strayBatch_incoherent⟩

end Samples
end Wiring
