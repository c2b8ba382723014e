import Mathlib
import Wiring.Compile.Demand
import Wiring.Proofs.Compile.Weaving
import Wiring.Proofs.Compile.Whole
import Wiring.Proofs.Graph.Pointcuts

/-!
# A key compiled on demand

A key of a prepared graph that is compiled on demand, in a directory that holds the pointcuts
of the whole compile and nothing else, gets the files that the whole compile made for it. The
plan that is woven once more from the saved pointcuts stays as it is, so both compile the same
binding; the unit depends on the heap and the registry alone, and the texts do not depend on
the directory they are saved in.
-/
namespace Wiring

open Work

/-- The batch was made of a graph whose bound classes are registered with all of their
ancestors, once null objects have become classes of their own. -/
inductive Batch.Prepared (b : Batch) : Site → Prop where
  | intro {g converted : Graph} {start opened named site : Site}
      (hopen : Work.onFiles (Files.ensureDirectory b.dir) start = (.ok (),opened))
      (hnull : Prepare.nullObjects b.dir g opened = (.ok converted,named))
      (hrooted : Weave.RootedRows named.registry converted.bindings)
      (hmake : Batch.make b.dir g start = (.ok b,site)) : Prepared b site

theorem Batch.Prepared.steady {b : Batch} {site : Site} (h : b.Prepared site) :
    ∀ row ∈ b.graph.bindings, Weave.Steady site.registry b.graph.pointcuts row.2 := by
  cases h with
  | intro hopen hnull hrooted hmake =>
    obtain ⟨P,hprepare,hsteady⟩ := Prepare.graph_steady hnull hrooted
    rw [Batch.make,run_bind hopen,run_bind hprepare] at hmake
    obtain ⟨hb,rfl⟩ := Prod.mk.inj hmake
    have hgraph : P = b.graph := congrArg Batch.graph (Except.ok.inj hb)
    rw [← hgraph]
    exact hsteady

namespace Demand

variable {dir : String} {g : Graph} {site : Site}

theorem pointcuts_run (hname : Path.Holdable "_aop.json")
    (honly : site.files.HoldsOnly dir "_aop.json" (Batch.pointcutsText g))
    (hroom : dir.utf8ByteSize + Files.namesRoom ≤ Path.longest) :
    Save.pointcuts? dir site = (.ok (some g.pointcuts),site) := by
  have hread : Work.onFiles (Files.readIfExists (Layout.pointcutsPath dir)) site =
      (.ok (some (Batch.pointcutsText g)),site) := by
    rw [onFiles_run,Layout.pointcutsPath,honly.read hname hroom]
  have hdecode : Work.decode (Batch.pointcutsText g) (Json.asList Pointcut.ofJson?) site =
      (.ok g.pointcuts,site) := by
    rw [Work.decode,Batch.pointcutsText,Pointcut.read_toJson]
    rfl
  rw [Save.pointcuts?,run_bind hread]
  dsimp only
  rw [run_bind hdecode]
  rfl

/-- A steady binding is what is compiled for its key. -/
theorem weave_run {b : Binding Value} (hb : Weave.Steady site.registry g.pointcuts b)
    (hread : Save.pointcuts? dir site = (.ok (some g.pointcuts),site)) :
    weave dir b site = (.ok b,site) := by
  cases b with
  | construction plan =>
    rw [weave,run_bind hread]
    dsimp only
    rw [run_bind (hb plan rfl site rfl)]
    rfl
  | literal v => rfl
  | provider plan shared context => rfl
  | nullObject interface => rfl

theorem bindingOf_run (dir : String) (site : Site) {key : Key} {b : Binding Value}
    (hb : g.get? key = some b)
    (hnull : ∀ interface, b ≠ .nullObject interface) :
    bindingOf dir g key site = (.ok b,site) := by
  unfold bindingOf
  rw [hb]
  cases b with
  | nullObject interface => exact absurd rfl (hnull interface)
  | literal v => rfl
  | construction plan => rfl
  | provider plan shared context => rfl

/-- Nothing is compiled to a unit whose path is no path. -/
theorem compile_speakable {scope : Option ScopeOf} {key : Key} {after : Site}
    (h : compile dir g scope key site = (.ok (),after)) :
    Path.unspeakable (Layout.unitPath dir key) = false := by
  rw [compile] at h
  obtain ⟨b,_,_,h⟩ := Work.run_bind_ok h
  obtain ⟨woven,_,_,h⟩ := Work.run_bind_ok h
  obtain ⟨code,_,_,h⟩ := Work.run_bind_ok h
  rw [Save.unit] at h
  obtain ⟨_,_,hwrite,_⟩ := Work.run_bind_ok h
  exact Files.speakable_of_canHold (Files.write_ok (Save.onFiles_ok hwrite).1).1.holds

/-- Compiling a key of a finished batch on demand writes the files that are due for it. -/
theorem compile_run {start fin there : Site} {dir' : String} {key : Key} {b : Binding Value}
    (hfinished : Batch.Finished dir g start fin) (hg : g.Separate start.heap) (hs : g.Slashless)
    (hsteady : ∀ row ∈ g.bindings, Weave.Steady start.registry g.pointcuts row.2)
    (hthere : Batch.Calm g start there) (hb : g.get? key = some b)
    (hready : there.files.Ready dir')
    (hread : Save.pointcuts? dir' there = (.ok (some g.pointcuts),there))
    (hroom : dir'.utf8ByteSize + Files.namesRoom ≤ Path.longest) : ∃ code files after,
      Compile.unitOf g none b start = (.ok code,start) ∧
        code.files? start.heap key = some files ∧
        compile dir' g none key there = (.ok (),after) ∧
        (∀ f ∈ files, after.files.contents.find? (Path.ofText (f.1.path dir')) = some f.2) ∧
        Files.Keeps there.files.contents after.files.contents fun path =>
          ∃ f ∈ files, path = Path.ofText (f.1.path dir') := by
  obtain ⟨code,files,hunit,hfiles⟩ := hfinished.units key b hb
  have hnull : ∀ interface, b ≠ .nullObject interface := by
    rintro interface rfl
    cases congrArg Prod.fst hunit
  have hdue : ∀ f ∈ files, Batch.Due g start key f := fun f hf =>
    ⟨b,code,files,hb,hunit,hfiles,hf⟩
  have hbinding := bindingOf_run dir' there hb hnull
  have hweave : weave dir' b there = (.ok b,there) := by
    refine weave_run ?_ hread
    rw [hthere.registry]
    exact hsteady (key,b) (Table.mem_of_find? hb)
  have hcode : Compile.unitOf g none b there = (.ok code,there) := by
    obtain ⟨answer,hanswer,hanswerStart⟩ := hthere.unitOf hfinished.calm hb
    rw [hunit] at hanswerStart
    rw [hanswer,(Prod.mk.inj hanswerStart).1]
  obtain ⟨after,hwrite⟩ := Save.writeAll_ready hready
    (fun f hf => (hfinished.files key f (hdue f hf)).1) hroom
  have hsave : Save.unit dir' key code there = (.ok (),{ there with files := after }) := by
    have hfilesThere : code.files? there.heap key = some files := by rw [hthere.heap,hfiles]
    rw [Save.unit_run hfilesThere,onFiles_run,hwrite]
  have hagree : ∀ a ∈ Save.placed dir' files, ∀ b ∈ Save.placed dir' files,
      Path.ofText a.1 = Path.ofText b.1 → a.2 = b.2 := by
    intro a ha b hb hpath
    obtain ⟨f,hf,rfl⟩ := List.mem_map.mp ha
    obtain ⟨f',hf',rfl⟩ := List.mem_map.mp hb
    exact (hdue f hf).agree hg hs (hdue f' hf') hpath
  obtain ⟨hfound,hkeeps⟩ := Files.writeAll_ok hagree hwrite
  refine ⟨code,files,{ there with files := after },hunit,hfiles,?_,fun f hf => ?_,?_⟩
  · rw [compile,run_bind hbinding,run_bind hweave,run_bind hcode]
    exact hsave
  · exact (hfound (f.1.path dir',f.2) (List.mem_map_of_mem hf)).2
  · refine hkeeps.imp fun path hp => ?_
    obtain ⟨a,ha,hpath⟩ := hp
    obtain ⟨f,hf,rfl⟩ := List.mem_map.mp ha
    exact ⟨f,hf,hpath⟩

end Demand

namespace Demand

/-- A key of a batch that is compiled on demand after the whole compile. -/
structure Rerun where
  batch : Batch
  /-- Where the batch was made. -/
  prepared : Site
  /-- Where the whole compile ended. -/
  finished : Site
  /-- Where the key is compiled on demand. -/
  there : Site
  dir : String
  key : Key

namespace Rerun

/-- The whole compile of the batch succeeded, with files of their own for its keys and
qualifiers. It left the heap and the registry to the compile on demand, whose directory holds
its pointcuts and nothing else. -/
structure Stands (r : Rerun) : Prop where
  prepared : r.batch.Prepared r.prepared
  separate : r.batch.graph.Separate r.prepared.heap
  compiled : r.batch.compile r.prepared = (.ok (),r.finished)
  bound : r.key ∈ r.batch.graph.bindings.keys
  heap : r.there.heap = r.finished.heap
  registry : r.there.registry = r.finished.registry
  alone : ∃ pointcuts,
    r.finished.files.contents.find? (Path.ofText (Layout.pointcutsPath r.batch.dir)) =
        some pointcuts ∧
      r.there.files.HoldsOnly r.dir "_aop.json" pointcuts

/-- No class that an argument asks for beyond the graph is read from a file. -/
def Unread (r : Rerun) : Prop := ∀ className ∈ r.batch.graph.outsiders,
  r.prepared.registry.Unread r.finished.files className ∧
    r.prepared.registry.Unread r.there.files className

/-- The directory leaves room for the names of files. -/
def Roomy (r : Rerun) : Prop := r.dir.utf8ByteSize + Files.namesRoom ≤ Path.longest

/-- The key is compiled to the unit of the whole compile; each of its files has the text that
it has there, and no other file is written. -/
def Repeats (r : Rerun) : Prop := ∃ binding code after,
  r.batch.graph.get? r.key = some binding ∧
    Compile.unitOf r.batch.graph none binding r.prepared = (.ok code,r.prepared) ∧
    compile r.dir r.batch.graph none r.key r.there = (.ok (),after) ∧
    (∀ part ∈ code.parts r.key, ∃ text,
      r.finished.files.contents.find? (Path.ofText (part.path r.batch.dir)) = some text ∧
        after.files.contents.find? (Path.ofText (part.path r.dir)) = some text) ∧
    Files.Keeps r.there.files.contents after.files.contents fun path =>
      ∃ part ∈ code.parts r.key, path = Path.ofText (part.path r.dir)

end Rerun
end Demand

/-- Compiling on demand does what the whole compile did, for every key of a graph that was
prepared with its classes rooted: where the files of the graph are named without slashes, the
directory leaves room for their names, and no class beyond the graph is read from a file. -/
theorem demand_repeats_the_whole_compile {r : Demand.Rerun} (h : r.Stands)
    (hslashless : r.batch.graph.Slashless) (hunread : r.Unread) (hroom : r.Roomy) :
    r.Repeats := by
  have hfinished : Batch.Finished r.batch.dir r.batch.graph r.prepared r.finished :=
    Batch.compile_run h.separate hslashless (fun className ha => (hunread className ha).1)
      h.compiled
  have hname : Path.Holdable "_aop.json" :=
    ⟨Batch.pointcutsName_ordinary,by decide,by decide⟩
  obtain ⟨pointcuts,hpointcuts,honly⟩ := h.alone
  obtain rfl := Option.some.inj (hfinished.pointcuts.symm.trans hpointcuts)
  obtain ⟨binding,hbinding⟩ := Option.isSome_iff_exists.mp (Table.has_of_mem_keys h.bound)
  have hthere : Batch.Calm r.batch.graph r.prepared r.there :=
    ⟨h.heap.trans hfinished.heap,h.registry.trans hfinished.registry,
      fun className ha => (hunread className ha).2⟩
  obtain ⟨code,files,after,hunit,hfiles,hrun,hfound,hkeeps⟩ := Demand.compile_run hfinished
    h.separate hslashless h.prepared.steady hthere hbinding (honly.ready (by decide))
    (Demand.pointcuts_run hname honly hroom) hroom
  refine ⟨binding,code,after,hbinding,hunit,hrun,fun part hpart => ?_,hkeeps.imp fun path hp => ?_⟩
  · rw [← Code.files_fst hfiles] at hpart
    obtain ⟨f,hf,rfl⟩ := List.mem_map.mp hpart
    have hdue : Batch.Due r.batch.graph r.prepared r.key f :=
      ⟨binding,code,files,hbinding,hunit,hfiles,hf⟩
    exact ⟨f.2,(hfinished.files r.key f hdue).2,hfound f hf⟩
  · obtain ⟨f,hf,hpath⟩ := hp
    rw [← Code.files_fst hfiles]
    exact ⟨f.1,List.mem_map_of_mem hf,hpath⟩

/-- A car asks for a horn, which a provider hands out for this parameter, and for an engine,
which nobody binds. -/
def carArguments : List (Argument Value) :=
  [⟨.any "Horn",⟨"Car","__construct","horn"⟩,none,some (.text "loud"),none⟩,
    ⟨.any "Engine",⟨"Car","__construct","engine"⟩,none,none,none⟩]

/-- The graph of the car, with the interceptors that its methods have. -/
def carGraph (advice : Table String (List String)) : Graph where
  bindings :=
    [(Key.scriptDir,.literal (.text "s")),
      (.any "Car",.construction ⟨"Car",carArguments,[],none,true,advice⟩),
      (.any "Horn",.provider ⟨"HornMaker",[],[],none,false,[]⟩ true none)]
  pointcuts := [⟨.any,.startsWith "dr",["Log"]⟩]
  maps := []

def carClasses : Site where
  registry := { classes :=
    [("Car",{ name := "Car", methods := [("drive",[])] }),("Engine",{ name := "Engine" })] }

def carPrepared : Site := { carClasses with files := { directories := [["s"]] } }

def carBatch : Batch where
  dir := "s"
  graph := (Prepare.bindInjector (carGraph [("drive",["Log"])])).add Key.scriptDir
    (.literal (.text "s"))

/-- The car after the whole compile, its keys being in order. -/
@[irreducible]
def carFinished : Site := (carBatch.compileInOrder carPrepared).2

/-- One more directory, with the pointcuts alone in it. -/
@[irreducible]
def carThere : Site := { carFinished with files := { carFinished.files with
  directories := carFinished.files.directories ++ [["t"]]
  contents := carFinished.files.contents ++
    [(["t","_aop.json"],Batch.pointcutsText carBatch.graph)] } }

theorem carBatch_prepared : carBatch.Prepared carPrepared := by
  have hopen : Work.onFiles (Files.ensureDirectory "s") carClasses = (.ok (),carPrepared) := rfl
  have hnull : Prepare.nullObjects "s" (carGraph []) carPrepared = (.ok (carGraph []),carPrepared) :=
    rfl
  have hweave : Weave.graph (carGraph []) carPrepared =
      (.ok (carGraph [("drive",["Log"])],none),carPrepared) := rfl
  refine .intro hopen hnull (fun row hrow p hp => ?_) ?_
  · rcases List.mem_cons.mp hrow with rfl | hrow
    · cases hp
    rcases List.mem_cons.mp hrow with rfl | hrow
    · obtain rfl := Binding.construction.inj hp
      exact .intro (c := { name := "Car", methods := [("drive",[])] }) rfl nofun nofun
    · obtain rfl := List.mem_singleton.mp hrow
      cases hp
  · show Batch.make "s" (carGraph []) carClasses = (.ok carBatch,carPrepared)
    rw [Batch.make,run_bind hopen,Prepare.graph,bind_assoc,run_bind hnull,bind_assoc,
      run_bind hweave]
    rfl

theorem carBatch_compiled : carBatch.compile carPrepared = (.ok (),carFinished) ∧
    carFinished.files.contents.find? (Path.ofText (Layout.pointcutsPath carBatch.dir)) =
      some (Batch.pointcutsText carBatch.graph) ∧
    carThere.files.HoldsOnly "t" "_aop.json" (Batch.pointcutsText carBatch.graph) := by
  have hsorted : carBatch.graph.bindings.keys.Pairwise fun a b => a.before b = true := by
    decide +kernel
  have hrun : (carBatch.compileInOrder carPrepared).1 = .ok () ∧
      carFinished.files.contents.find? (Path.ofText (Layout.pointcutsPath carBatch.dir)) =
        some (Batch.pointcutsText carBatch.graph) ∧
      carThere.files.holdsOnly "t" "_aop.json" (Batch.pointcutsText carBatch.graph) = true := by
    decide +kernel
  have hcompiled : carBatch.compile carPrepared = (.ok (),carFinished) := by
    unfold carFinished
    exact Batch.compile_ok_of_pairwise hsorted hrun.1
  exact ⟨hcompiled,hrun.2.1,.of_check hrun.2.2⟩

def carRerun : Demand.Rerun where
  batch := carBatch
  prepared := carPrepared
  finished := carFinished
  there := carThere
  dir := "t"
  key := .any "Car"

theorem carRerun_stands : carRerun.Stands := by
  have hone : carBatch.graph.qualifiers.length = 1 := by decide +kernel
  obtain ⟨q,hq⟩ := List.length_eq_one_iff.mp hone
  obtain ⟨hcompiled,hpointcuts,honly⟩ := carBatch_compiled
  have hbound : .any "Car" ∈ carBatch.graph.bindings.keys := by decide +kernel
  have hheap : carThere.heap = carFinished.heap := by rw [carThere]
  have hregistry : carThere.registry = carFinished.registry := by rw [carThere]
  unfold carRerun
  refine ⟨carBatch_prepared,⟨by decide +kernel,fun q₁ h₁ q₂ h₂ _ => ?_⟩,hcompiled,hbound,hheap,
    hregistry,_,hpointcuts,honly⟩
  have h₁ : q₁ ∈ [q] := hq ▸ h₁
  have h₂ : q₂ ∈ [q] := hq ▸ h₂
  rw [List.mem_singleton.mp h₁,List.mem_singleton.mp h₂]

theorem carRerun_unread (className : String) (h : className ∈ carBatch.graph.outsiders) :
    (carPrepared.registry.classes.find? className).isSome = true := by
  have hall : ∀ className ∈ carBatch.graph.outsiders,
      (carPrepared.registry.classes.find? className).isSome = true := by decide +kernel
  exact hall className h

theorem carBatch_slashless : carBatch.graph.Slashless := ⟨by decide +kernel,by decide +kernel⟩

theorem demand_repeats_the_whole_compile_sample :
    (carRerun.Stands ∧ carRerun.batch.graph.Slashless ∧ carRerun.Unread ∧ carRerun.Roomy) ∧
      carRerun.Repeats := by
  have hunread : carRerun.Unread := fun className h =>
    ⟨.inl (carRerun_unread className h),.inl (carRerun_unread className h)⟩
  have hroom : carRerun.Roomy := by unfold Demand.Rerun.Roomy; decide
  exact ⟨⟨carRerun_stands,carBatch_slashless,hunread,hroom⟩,
    demand_repeats_the_whole_compile carRerun_stands carBatch_slashless hunread hroom⟩

/-- Two keys with stems of their own whose units lie at one path. -/
def aliasedBatch : Batch where
  dir := "s"
  graph :=
    { bindings :=
        [(Key.scriptDir,.literal (.text "s")),(.of "./a" "x",.literal (.int 2)),
          (.any Key.injectorInterface,.literal (.injector none)),(.of "a" "x",.literal (.int 1))]
      pointcuts := []
      maps := [] }

def aliasedPrepared : Site := { files := { directories := [["s"]] } }

@[irreducible]
def aliasedFinished : Site := (aliasedBatch.compileInOrder aliasedPrepared).2

@[irreducible]
def aliasedThere : Site := { aliasedFinished with files := { aliasedFinished.files with
  directories := aliasedFinished.files.directories ++ [["t"]]
  contents := aliasedFinished.files.contents ++ [(["t","_aop.json"],"[]")] } }

def aliasedRerun : Demand.Rerun where
  batch := aliasedBatch
  prepared := aliasedPrepared
  finished := aliasedFinished
  there := aliasedThere
  dir := "t"
  key := .of "./a" "x"

@[irreducible]
def aliasedAfter : Site :=
  (Demand.compile "t" aliasedBatch.graph none (.of "./a" "x") aliasedThere).2

/-- The unit of the second key takes the place of the first one's in the whole compile, and
only there. -/
theorem aliasedRerun_not_repeated : aliasedRerun.Stands ∧ aliasedRerun.Unread ∧
    aliasedRerun.Roomy ∧ ¬aliasedRerun.Repeats := by
  have hsorted : aliasedBatch.graph.bindings.keys.Pairwise fun a b => a.before b = true := by
    decide +kernel
  have hprepared : aliasedBatch.Prepared aliasedPrepared := by
    have hopen : Work.onFiles (Files.ensureDirectory "s") {} = (.ok (),aliasedPrepared) := rfl
    have hnull : Prepare.nullObjects "s" aliasedBatch.graph aliasedPrepared =
        (.ok aliasedBatch.graph,aliasedPrepared) := rfl
    have hkinds : ∀ row ∈ aliasedBatch.graph.bindings, row.2.kind = "instance" := by decide
    refine .intro hopen hnull (fun row hrow p hp => ?_) rfl
    have hkind := hkinds row hrow
    rw [hp] at hkind
    simp [Binding.kind] at hkind
  have hnone : aliasedBatch.graph.qualifiers = [] := rfl
  have hbound : .of "./a" "x" ∈ aliasedBatch.graph.bindings.keys := by decide +kernel
  have hheap : aliasedThere.heap = aliasedFinished.heap := by rw [aliasedThere]
  have hregistry : aliasedThere.registry = aliasedFinished.registry := by rw [aliasedThere]
  have houtside : aliasedBatch.graph.outsiders = [] := by decide +kernel
  have hrun : (aliasedBatch.compileInOrder aliasedPrepared).1 = .ok () ∧
      aliasedFinished.files.contents.find? (Path.ofText (Layout.pointcutsPath "s")) = some "[]" ∧
      aliasedThere.files.holdsOnly "t" "_aop.json" "[]" = true ∧
      aliasedFinished.files.contents.find? (Path.ofText (Layout.unitPath "s" (.of "./a" "x"))) =
        some "return (1, false);\n" ∧
      aliasedAfter.files.contents.find? (Path.ofText (Layout.unitPath "t" (.of "./a" "x"))) =
        some "return (2, false);\n" := by
    decide +kernel
  obtain ⟨hcompiled,hpointcuts,honly,hfirst,hsecond⟩ := hrun
  unfold aliasedRerun
  refine ⟨⟨hprepared,⟨by decide +kernel,?_⟩,?_,hbound,hheap,hregistry,_,hpointcuts,.of_check honly⟩,?_,?_,?_⟩
  · show ∀ q ∈ aliasedBatch.graph.qualifiers, _
    rw [hnone]
    exact nofun
  · show aliasedBatch.compile aliasedPrepared = (.ok (),aliasedFinished)
    unfold aliasedFinished
    exact Batch.compile_ok_of_pairwise hsorted hcompiled
  · show ∀ className ∈ aliasedBatch.graph.outsiders, _
    rw [houtside]
    exact nofun
  · unfold Demand.Rerun.Roomy
    decide
  · rintro ⟨binding,code,after,_,_,hcompile,hparts,_⟩
    have hafter : after = aliasedAfter := by
      unfold aliasedAfter
      exact (congrArg Prod.snd hcompile).symm
    obtain ⟨text,hwhole,hdemand⟩ := hparts (.unit (.of "./a" "x")) List.mem_cons_self
    rw [hafter] at hdemand
    have hone : some text = some "return (1, false);\n" := hwhole.symm.trans hfirst
    have htwo : some text = some "return (2, false);\n" := hdemand.symm.trans hsecond
    exact absurd (hone.symm.trans htwo) (by decide)

/-- The scope of a key lies where a class would be read that an argument asks for. -/
def shadowBatch : Batch where
  dir := "s"
  graph :=
    { bindings :=
        [(Key.scriptDir,.literal (.text "s")),
          (.any "Car",.construction ⟨"Car",
            [⟨.any "i-n",⟨"Car","__construct","e"⟩,some (.int 7),none,none⟩],[],none,false,[]⟩),
          (.any Key.injectorInterface,.literal (.injector none)),
          (.of "i" "n.class",.literal (.int 1))]
      pointcuts := []
      maps := [] }

def shadowStart : Site where
  registry := { classes := [("Car",{ name := "Car" })], scriptDirs := ["s/meta"] }

def shadowPrepared : Site := { shadowStart with files := { directories := [["s"]] } }

@[irreducible]
def shadowFinished : Site := (shadowBatch.compileInOrder shadowPrepared).2

@[irreducible]
def shadowThere : Site := { shadowFinished with files := { shadowFinished.files with
  directories := shadowFinished.files.directories ++ [["t"]]
  contents := shadowFinished.files.contents ++ [(["t","_aop.json"],"[]")] } }

def shadowRerun : Demand.Rerun where
  batch := shadowBatch
  prepared := shadowPrepared
  finished := shadowFinished
  there := shadowThere
  dir := "t"
  key := .any "Car"

/-- The whole compile looks for the class before there is a file for it; on demand, the scope
is read in place of a class. -/
theorem shadowRerun_not_repeated : shadowRerun.Stands ∧ shadowRerun.batch.graph.Slashless ∧
    shadowRerun.Roomy ∧ ¬shadowRerun.Repeats := by
  have hsorted : shadowBatch.graph.bindings.keys.Pairwise fun a b => a.before b = true := by
    decide +kernel
  have hprepared : shadowBatch.Prepared shadowPrepared := by
    have hopen : Work.onFiles (Files.ensureDirectory "s") shadowStart = (.ok (),shadowPrepared) :=
      rfl
    have hnull : Prepare.nullObjects "s" shadowBatch.graph shadowPrepared =
        (.ok shadowBatch.graph,shadowPrepared) := rfl
    have hclasses : ∀ row ∈ shadowBatch.graph.bindings, ∀ p, row.2 = .construction p →
        p.className = "Car" := by
      simp [shadowBatch]
    refine .intro hopen hnull (fun row hrow p hp => ?_) rfl
    rw [hclasses row hrow p hp]
    exact .intro (c := { name := "Car" }) rfl nofun nofun
  have hnone : shadowBatch.graph.qualifiers = [] := rfl
  have hbound : .any "Car" ∈ shadowBatch.graph.bindings.keys := by decide +kernel
  have hheap : shadowThere.heap = shadowFinished.heap := by rw [shadowThere]
  have hregistry : shadowThere.registry = shadowFinished.registry := by rw [shadowThere]
  have hrun : (shadowBatch.compileInOrder shadowPrepared).1 = .ok () ∧
      shadowFinished.files.contents.find? (Path.ofText (Layout.pointcutsPath "s")) = some "[]" ∧
      shadowThere.files.holdsOnly "t" "_aop.json" "[]" = true ∧
      (Demand.compile "t" shadowBatch.graph none (.any "Car") shadowThere).1 ≠ .ok () := by
    decide +kernel
  obtain ⟨hcompiled,hpointcuts,honly,hfails⟩ := hrun
  unfold shadowRerun
  refine ⟨⟨hprepared,⟨by decide +kernel,?_⟩,?_,hbound,hheap,hregistry,_,hpointcuts,.of_check honly⟩,
    ⟨by decide +kernel,?_⟩,?_,?_⟩
  · show ∀ q ∈ shadowBatch.graph.qualifiers, _
    rw [hnone]
    exact nofun
  · show shadowBatch.compile shadowPrepared = (.ok (),shadowFinished)
    unfold shadowFinished
    exact Batch.compile_ok_of_pairwise hsorted hcompiled
  · show ∀ q ∈ shadowBatch.graph.qualifiers, _
    rw [hnone]
    exact nofun
  · unfold Demand.Rerun.Roomy
    decide
  · rintro ⟨binding,code,after,_,_,hcompile,_⟩
    exact hfails (congrArg Prod.fst hcompile)

/-- A long way to a directory that is near. -/
def roundabout : Nat → String
  | 0 => "t"
  | n + 1 => roundabout n ++ "/."

theorem size_roundabout (n : Nat) : (roundabout n).utf8ByteSize = 2*n+1 := by
  have hdot : "/.".utf8ByteSize = 2 := by decide
  induction n with
  | zero => decide
  | succ n ih =>
    rw [roundabout,String.utf8ByteSize_append,ih,hdot]
    omega

theorem speakable_roundabout {n : Nat} (hsize : 2*n+1 ≤ Path.longest) :
    Path.unspeakable (roundabout n) = false := by
  have hnone : '\x00' ∉ (roundabout n).toList := by
    clear hsize
    induction n with
    | zero => decide
    | succ n ih => simp [roundabout,ih]
  have hlong : ¬Path.longest < (roundabout n).utf8ByteSize := by rw [size_roundabout]; omega
  simp [Path.unspeakable,hnone,hlong]

theorem status_roundabout {fs : Files} (h : fs.status "t" = .directory) {n : Nat}
    (hsize : 2*n+1 ≤ Path.longest) :
    fs.status (roundabout n) = .directory ∧ Path.ofText (roundabout n) = Path.ofText "t" := by
  induction n with
  | zero => exact ⟨h,rfl⟩
  | succ n ih =>
    obtain ⟨hthere,hpath⟩ := ih (by omega)
    obtain ⟨hdot,hsame⟩ := Files.status_dot hthere (speakable_roundabout hsize)
    exact ⟨hdot,hsame.trans hpath⟩

def longRerun : Demand.Rerun := { carRerun with dir := roundabout 2047, key := Key.scriptDir }

/-- The way to the directory leaves no room for the name of a file. -/
theorem longRerun_not_repeated : longRerun.Stands ∧ longRerun.batch.graph.Slashless ∧
    longRerun.Unread ∧ ¬longRerun.Repeats := by
  obtain ⟨pointcuts,hpointcuts,honly⟩ := carRerun_stands.alone
  have hsize : 2*2047+1 ≤ Path.longest := by decide
  have hthere := (status_roundabout honly.there hsize).1
  have hpath := (status_roundabout honly.there hsize).2
  have hbound : Key.scriptDir ∈ carBatch.graph.bindings.keys := by decide +kernel
  refine ⟨⟨carRerun_stands.prepared,carRerun_stands.separate,carRerun_stands.compiled,hbound,
    carRerun_stands.heap,carRerun_stands.registry,pointcuts,hpointcuts,
    honly.of_path hthere hpath⟩,carBatch_slashless,fun className h =>
      ⟨.inl (carRerun_unread className h),.inl (carRerun_unread className h)⟩,?_⟩
  rintro ⟨binding,code,after,_,_,hcompile,_⟩
  have hspeak := Demand.compile_speakable hcompile
  have hname : '/' ∉ (Layout.unitName Key.scriptDir).toList := by decide
  have hlarge : Path.longest <
      (Path.join (roundabout 2047) (Layout.unitName Key.scriptDir)).utf8ByteSize := by
    have hsize := size_roundabout 2047
    have hsome : (Layout.unitName Key.scriptDir).utf8ByteSize = 13 := by decide
    have hlongest : Path.longest = 4095 := rfl
    rcases Path.join_cases (roundabout 2047) hname with h | h <;>
      rw [h] <;> simp only [String.utf8ByteSize_append] <;> omega
  simp only [Path.unspeakable,Bool.or_eq_false_iff,decide_eq_false_iff_not] at hspeak
  exact hspeak.2 hlarge

/-- Each of the three conditions is needed: a key is compiled on demand to something else, or
not at all, where all but one of them are met. -/
theorem demand_not_always_repeats :
    (aliasedRerun.Stands ∧ aliasedRerun.Unread ∧ aliasedRerun.Roomy ∧ ¬aliasedRerun.Repeats) ∧
      (shadowRerun.Stands ∧ shadowRerun.batch.graph.Slashless ∧ shadowRerun.Roomy ∧
        ¬shadowRerun.Repeats) ∧
      (longRerun.Stands ∧ longRerun.batch.graph.Slashless ∧ longRerun.Unread ∧
        ¬longRerun.Repeats) :=
  ⟨aliasedRerun_not_repeated,shadowRerun_not_repeated,longRerun_not_repeated⟩

end Wiring
