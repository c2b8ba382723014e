import Mathlib
import Wiring.Proofs.Injector.Settling

/-!
# Strict injectors compile once

The first unit that a strict injector misses makes it mark its directory and compile everything.
Whatever comes of that, the injector has settled then: what it is asked for afterwards, the first
request itself included, is answered from the units that are there.
-/
namespace Wiring

variable {w : World} {id : InjectorId} {s : ScriptInjector}

namespace Files

variable {fs : Files} {d : String}

/-- A directory with nothing in it. -/
structure Vacant (fs : Files) (d : String) : Prop where
  there : fs.status d = .directory
  nothing : ∀ x, Path.Ordinary x → fs.exists? (Path.join d x) = false

theorem Vacant.of_empty (hthere : fs.status d = .directory)
    (hempty : fs.empty (Path.ofText d) = fs) : fs.Vacant d :=
  ⟨hthere,fun _ hx => hempty ▸ exists?_emptied hx⟩

/-- No key has a unit in there, but a file name with slashes may lead elsewhere. -/
theorem Vacant.noUnit (h : fs.Vacant d) {key : Key} (hkey : (Part.unit key).Slashless) :
    fs.exists? (Layout.unitPath d key) = false := h.nothing _ hkey.ordinary

/-- A file that was written is there. -/
theorem exists?_written {x contents : String} (hx : Path.Ordinary x)
    (hwritten : (Files.write (Path.join d x) contents fs).1 = .ok ()) :
    (Files.write (Path.join d x) contents fs).2.exists? (Path.join d x) = true := by
  cases hrun : Files.write (Path.join d x) contents fs with
  | mk answer fs' =>
    rw [hrun] at hwritten
    obtain rfl : answer = .ok () := hwritten
    rw [exists?,write_status hx hrun]

end Files

/-- A strict injector that has not been asked for anything. The other injectors have settled. -/
structure World.Opened (w : World) (id : InjectorId) (s : ScriptInjector) : Prop where
  own : w.injector? id = some (.script s)
  strict : s.strict = true
  keepsNone : s.singletons = []
  readNone : s.units = []
  others : ∀ other i, other ≠ id → w.injector? other = some i → i.Settled w.site.files

/-- All injectors have settled, and this one has come by a graph at most. -/
structure World.Compiling (w : World) (id : InjectorId) (s : ScriptInjector) : Prop where
  own : ∃ graph, w.injector? id = some (.script { s with graph })
  injectors : ∀ other i, w.injector? other = some i → i.Settled w.site.files

/-- If the first world is like that, so is the second. -/
def World.Compiles (id : InjectorId) (s : ScriptInjector) (w w' : World) : Prop :=
  w.Compiling id s → w'.Compiling id s

instance isPreorder_compiles (id : InjectorId) (s : ScriptInjector) :
    IsPreorder World (World.Compiles id s) where
  refl _ h := h
  trans _ _ _ h h' := h' ∘ h

/-- With its directory marked, the injector has settled. -/
theorem World.Opened.compiling (h : w.Opened id s) {fs : Files}
    (hgrows : Files.Grows w.site.files fs)
    (hmarked : fs.exists? (Layout.sentinelPath s.dir) = true) :
    (w.withFiles fs).Compiling id s := by
  refine ⟨⟨s.graph,h.own⟩,fun other i hi => ?_⟩
  by_cases he : other = id
  · subst he
    obtain rfl := Option.some.inj (h.own.symm.trans hi)
    refine ⟨h.strict,hmarked,fun key hkey => ?_⟩
    rw [h.readNone] at hkey
    cases hkey
  · exact (h.others other i he hi).grows hgrows

theorem World.Compiling.holds (h : w.Compiling id s) :
    Settlement.Holds ⟨w.site.files,w.builds,id,s.dir⟩ w := by
  obtain ⟨graph,hi⟩ := h.own
  exact ⟨rfl,rfl,h.injectors,by rw [hi]; rfl⟩

theorem World.Opened.kept (h : w.Opened id s) (key : Key) : w.kept id key = none := by
  rw [World.kept,h.own]
  show s.singletons.find? key = none
  rw [h.keepsNone,Table.find?_nil]

/-- So it is with a strict injector that has just been made where all others have settled. -/
theorem Act.openScript_opened (dir : String) (m : LazyModule) {w : World}
    (hfree : w.injector? ⟨w.made⟩ = none)
    (hothers : ∀ other i, w.injector? other = some i → i.Settled w.site.files) : ∃ after,
      Act.openScript dir (some m) true [] none w = (.ok ⟨w.made⟩,after) ∧
      after.site.files = w.site.files ∧
      after.Opened ⟨w.made⟩
        { dir, source := some m, lasting := m.lasting, strict := true, singletons := []
          graph := none } := by
  obtain ⟨after,values,hrun,hinjectors,hvalues,hfiles⟩ := openScript_run dir (some m) true
    (nofun : ∀ i ∈ ([] : Table Key Tree), i.2.Literal) none hfree
  obtain rfl := List.forall₂_nil_left_iff.mp hvalues.rows
  refine ⟨after,hrun,hfiles,(hinjectors _).trans (if_pos rfl),rfl,rfl,rfl,?_⟩
  intro other i hother hi
  rw [hinjectors,if_neg hother] at hi
  exact hfiles ▸ hothers other i hi

namespace Act

variable {α : Type}

theorem onSite_compiling {v : Work α} (h : ∀ fs, v.Grows fs) :
    (onSite v).Along (World.Compiles id s) :=
  fun world hw => ⟨hw.own,fun other i hi =>
    (hw.injectors other i hi).grows (h world.site.files world.site (.refl _)).1⟩

theorem keepGraph_compiling (g : Graph) :
    (modifyScript id fun s => { s with graph := some g }).Along (World.Compiles id s) := by
  intro w hw
  obtain ⟨graph,hi⟩ := hw.own
  have hs : ({ s with graph } : ScriptInjector).Settled w.site.files := hw.injectors id _ hi
  rw [modifyScript,modifyInjector_run]
  have hfiles : ∀ f, (w.withInjector id f).site = w.site := fun f => by
    rw [World.withInjector,hi]
  refine ⟨⟨some g,?_⟩,fun other i hother => ?_⟩
  · rw [World.injector?_withInjector,if_pos rfl,hi]
    rfl
  · rw [hfiles]
    rw [World.injector?_withInjector] at hother
    split at hother
    next =>
      rw [hi] at hother
      obtain rfl := Option.some.inj hother
      exact ⟨hs.strict,hs.marked,hs.there⟩
    next => exact hw.injectors other i hother

end Act

namespace Resolve

open Act

/-- Compiling everything reads no unit and keeps no instance. -/
theorem compileAll_compiling (id : InjectorId) (s : ScriptInjector) :
    (compileAll id).Along (World.Compiles id s) := by
  have hbuild (m : LazyModule) : (buildModule m).Along (World.Compiles id s) :=
    .buildModule m (fun _ _ hw => ⟨hw.own,hw.injectors⟩)
      (onSite_compiling fun _ => Work.Leaves.grows fun _ => Graph.ofModule_leaves m.statements)
  have hread (dir : String) : (onSite (Save.graph? dir)).Along (World.Compiles id s) :=
    onSite_compiling fun _ => Work.Leaves.grows fun _ => Save.graph?_leaves dir
  refine (Along.scriptInjector id).bind fun s' => ?_
  refine (graphOf_along id hbuild hread keepGraph_compiling).bind fun g => ?_
  exact onSite_compiling fun _ =>
    (Batch.make_grows s'.dir g).bind fun b _ => Batch.compileUnits_grows b

theorem resolve_congr {run run' : RunKey} {key : Key} {w w' : World} {i i' : Injector}
    (hi : w.injector? id = some i) (hi' : w'.injector? id = some i')
    (hkept : w.kept id key = none) (hkept' : w'.kept id key = none)
    (h : run id key w = run' id key w') : resolve run id key w = resolve run' id key w' := by
  cases hrun : run' id key w' with
  | mk answer next =>
    rw [hrun] at h
    cases answer with
    | ok r => rw [resolve_ran hi hkept h,resolve_ran hi' hkept' hrun]
    | error f => rw [resolve_failed hi hkept h,resolve_failed hi' hkept' hrun]

/-- The world with a directory marked. -/
def marked (dir : String) (w : World) : World :=
  w.withFiles (Files.write (Layout.sentinelPath dir) "" w.site.files).2

section First

variable {key : Key}

/-- The directory is there and empty, it can be marked, and the key has no unit. -/
structure Blank (fs : Files) (dir : String) (key : Key) : Prop where
  vacant : fs.Vacant dir
  markable : (Files.write (Layout.sentinelPath dir) "" fs).1 = .ok ()
  noUnit : fs.exists? (Layout.unitPath dir key) = false

theorem sentinelName_ordinary : Path.Ordinary "compiled" := ⟨by decide,by decide,by decide⟩

theorem marked_run (hblank : Blank w.site.files s.dir key) :
    onSite (Work.onFiles (Files.write (Layout.sentinelPath s.dir) "")) w =
      (.ok (),marked s.dir w) := by
  rw [marked,onSite_onFiles,hblank.markable]

theorem marked_compiling (h : w.Opened id s) (hblank : Blank w.site.files s.dir key) :
    (marked s.dir w).Compiling id s := by
  have hmarkable := hblank.markable
  rw [Layout.sentinelPath] at hmarkable
  have hthere := Files.exists?_written sentinelName_ordinary hmarkable
  exact h.compiling (Files.write_grows _ _ _) hthere

variable {f : Failure} {answer : Except Failure Unit} {compiled : World}

/-- The one compile happens where the first unit is missing. -/
theorem compileMissing_first (h : w.Opened id s) (hblank : Blank w.site.files s.dir key) :
    compileMissing id key w = (do
      compileAll id
      if ← fileExists (Layout.unitPath s.dir key) then return
      else throw (.unbound key.text) : Act Unit) (marked s.dir w) := by
  have hunmarked : w.site.files.exists? (Layout.sentinelPath s.dir) = false :=
    hblank.vacant.nothing _ sentinelName_ordinary
  rw [compileMissing,Work.run_bind (scriptInjector_run h.own)]
  dsimp only
  rw [if_pos h.strict,compileOnce,Work.run_bind (fileExists_run _ _),hunmarked,if_neg (by simp),
    Work.run_bind (marked_run hblank)]

/-- If the one compile fails, so does reading the unit. -/
theorem loadUnit_failed (h : w.Opened id s) (hblank : Blank w.site.files s.dir key)
    (hbatch : compileAll id (marked s.dir w) = (.error f,compiled)) :
    loadUnit id key w = (.error f,compiled) := by
  have hmissing : compileMissing id key w = (.error f,compiled) := by
    rw [compileMissing_first h hblank,Work.run_bind_error _ hbatch]
  have hgo : (!false) = true := rfl
  rw [loadUnit,Work.run_bind (scriptInjector_run h.own),h.readNone]
  dsimp only [Table.find?_nil]
  rw [Work.run_bind (fileExists_run _ _),hblank.noUnit,if_pos hgo,Work.run_bind_error _ hmissing]

/-- If it comes to its end, the unit is taken as it lies there then. -/
theorem loadUnit_compiled (h : w.Opened id s) (hblank : Blank w.site.files s.dir key)
    (hbatch : compileAll id (marked s.dir w) = (.ok (),compiled)) :
    loadUnit id key w = storedUnit id key compiled := by
  have hcompiling := compileAll_compiling id s _ (marked_compiling h hblank)
  rw [hbatch] at hcompiling
  obtain ⟨graph,hown⟩ := hcompiling.own
  have hgo : (!false) = true := rfl
  have hstop : ¬(!true) = true := by simp
  rw [loadUnit,Work.run_bind (scriptInjector_run h.own),h.readNone,storedUnit,
    Work.run_bind (scriptInjector_run hown)]
  dsimp only
  rw [h.readNone]
  dsimp only [Table.find?_nil]
  rw [Work.run_bind (fileExists_run _ _),hblank.noUnit,if_pos hgo,
    Work.run_bind (fileExists_run _ compiled)]
  cases hthere : compiled.site.files.exists? (Layout.unitPath s.dir key) with
  | false =>
    have hmissing : compileMissing id key w = (.error (.unbound key.text),compiled) := by
      rw [compileMissing_first h hblank,Work.run_bind hbatch,Work.run_bind (fileExists_run _ _),
        hthere,if_neg (by simp)]
      rfl
    rw [if_pos hgo,Work.run_bind_error _ hmissing]
    rfl
  | true =>
    have hmissing : compileMissing id key w = (.ok (),compiled) := by
      rw [compileMissing_first h hblank,Work.run_bind hbatch,Work.run_bind (fileExists_run _ _),
        hthere,if_pos rfl]
      rfl
    rw [if_neg hstop,Work.run_bind hmissing,Work.run_bind (fileExists_run _ _),hthere,
      if_neg hstop]

/-- If the one compile fails, the first request is answered with its failure. -/
theorem request_failed {interface name : String} (h : w.Opened id s)
    (hblank : Blank w.site.files s.dir (.of interface name))
    (hbatch : compileAll id (marked s.dir w) = (.error f,compiled)) :
    request id interface name w = (.error f,compiled) := by
  have hrun : runKey depthLimit id (.of interface name) w = (.error f,compiled) := by
    rw [depthLimit,runKey,runWith,Work.run_bind (injector_run h.own)]
    exact Work.run_bind_error _ (loadUnit_failed h hblank hbatch)
  exact resolve_failed h.own (h.kept _) hrun

/-- If it comes to its end, the first request too is answered from what lies there then. -/
theorem request_compiled {interface name : String} (h : w.Opened id s)
    (hblank : Blank w.site.files s.dir (.of interface name))
    (hbatch : compileAll id (marked s.dir w) = (.ok (),compiled)) :
    request id interface name w = requestStored id interface name compiled := by
  have hcompiling := compileAll_compiling id s _ (marked_compiling h hblank)
  rw [hbatch] at hcompiling
  obtain ⟨graph,hown⟩ := hcompiling.own
  have hloaded := loadUnit_compiled h hblank hbatch
  have hnext := (loadUnit_settled id (.of interface name)).next hcompiling.holds
  have hrun : runKey depthLimit id (.of interface name) w =
      runStored depthLimit id (.of interface name) compiled := by
    rw [depthLimit,runKey,runStored,runWith,runStoredWith,Work.run_bind (injector_run h.own),
      Work.run_bind (injector_run hown)]
    exact Alike.bind_from hloaded hnext fun statements =>
      Script.runUnit_alike _ (surroundings_settled (runKey_settled 4095) id) statements
  have hkept : compiled.kept id (.of interface name) = none := by
    have hkept := h.kept (.of interface name)
    rw [World.kept,h.own] at hkept
    rw [World.kept,hown]
    exact hkept
  exact resolve_congr h.own hown (h.kept _) hkept hrun

end First

/-- Whatever becomes of the one compile of a strict injector over an empty directory, it happens in
the first request, which answers its failure or what the compiled units give. No request after that
changes a file or builds a module: each is answered from the units that lie there, and a key that
has none and is not kept is unbound. -/
theorem strict_injectors_compile_once (id : InjectorId) (s : ScriptInjector) (w : World)
    (h : w.Opened id s) (interface name : String)
    (hblank : Blank w.site.files s.dir (.of interface name)) : ∃ answer compiled,
      compileAll id (marked s.dir w) = (answer,compiled) ∧
      (∀ f, answer = .error f → request id interface name w = (.error f,compiled)) ∧
      (answer = .ok () →
        request id interface name w = requestStored id interface name compiled) ∧
      ∀ rs, let now := requests id rs (request id interface name w).2
        now.site.files = compiled.site.files ∧ now.builds = compiled.builds ∧
        ∀ i n, request id i n now = requestStored id i n now ∧
          (now.kept id (.of i n) = none →
            compiled.site.files.exists? (Layout.unitPath s.dir (.of i n)) = false →
            request id i n now = (.error (.unbound (Key.of i n).text),now)) := by
  have hcompiling := compileAll_compiling id s _ (marked_compiling h hblank)
  cases hbatch : compileAll id (marked s.dir w) with
  | mk answer compiled =>
    rw [hbatch] at hcompiling
    let S : Settlement := ⟨compiled.site.files,compiled.builds,id,s.dir⟩
    have hcompiled : S.Holds compiled := hcompiling.holds
    have hfirst : S.Holds (request id interface name w).2 := by
      cases answer with
      | error f =>
        rw [request_failed h hblank hbatch]
        exact hcompiled
      | ok _ =>
        rw [request_compiled h hblank hbatch]
        exact (request_settled id interface name).next hcompiled
    refine ⟨answer,compiled,rfl,?_,?_,fun rs => ?_⟩
    · rintro f rfl
      exact request_failed h hblank hbatch
    · rintro rfl
      exact request_compiled h hblank hbatch
    · have hnow := requests_settled id rs hfirst
      refine ⟨hnow.files,hnow.builds,fun i n => ⟨(request_settled id i n _ hnow).1,?_⟩⟩
      exact fun hkept hnone => request_unbound hnow hkept hnone

end Resolve

namespace Harbour

open Resolve

def cranes : LazyModule where
  label := some "cranes"
  statements := [.bind "Crane" none (.literal (.int 1)) true]
  lasting := true

/-- An empty directory, and one with a unit in it. -/
def files : Files where
  directories := [["s"],["t"]]
  contents := [(["t","x-*.di"],"return (1, false);")]

/-- A strict injector over the empty directory. -/
def world : World := (Act.openScript "s" (some cranes) true [] none { site := { files } }).2

theorem files_vacant : files.Vacant "s" := .of_empty (by decide +kernel) rfl

theorem files_markable : (Files.write (Layout.sentinelPath "s") "" files).1 = .ok () := by
  decide +kernel

theorem files_craneless : files.exists? (Layout.unitPath "s" (.of "Crane" "*")) = false :=
  files_vacant.noUnit (show '/' ∉ (Part.unit (.of "Crane" "*")).name.toList by decide)

theorem world_builds : (compileAll ⟨0⟩ (marked "s" world)).2.builds = [("cranes",1)] := by
  decide +kernel

theorem world_opened : world.site.files = files ∧ world.Opened ⟨0⟩
    { dir := "s", source := some cranes, lasting := true, strict := true, singletons := []
      graph := none } := by
  obtain ⟨after,hrun,hfiles,hopened⟩ :=
    Act.openScript_opened "s" cranes (w := { site := { files } }) rfl nofun
  have hafter : after = world := by rw [world,hrun]
  exact hafter ▸ ⟨hfiles,hopened⟩

/-- The cranes are built once, whatever is asked for after the first crane. -/
theorem strict_injectors_compile_once_sample : files.Vacant "s" ∧
    ∀ rs, (requests ⟨0⟩ rs (request ⟨0⟩ "Crane" "*" world).2).builds = [("cranes",1)] := by
  refine ⟨files_vacant,fun rs => ?_⟩
  obtain ⟨hfiles,hopened⟩ := world_opened
  have hblank : Blank world.site.files "s" (.of "Crane" "*") :=
    hfiles ▸ ⟨files_vacant,files_markable,files_craneless⟩
  obtain ⟨answer,compiled,hbatch,-,-,hlater⟩ :=
    strict_injectors_compile_once ⟨0⟩ _ world hopened "Crane" "*" hblank
  rw [(hlater rs).2.1,← world_builds,hbatch]

/-- A module that cannot be built, for there is no such class. -/
def ghosts : LazyModule where
  label := some "ghosts"
  statements := [.bind "Ghost" none (.to "Ghost") true]
  lasting := true

/-- A tug asks the injector that its pilot is for a crane, and the pilot is the first injector
unless another one is given. -/
def tug : ClassDecl where
  name := "Tug"
  parameters := [⟨"pilot",none,none,some (.injector (some ⟨0⟩)),none,none⟩]
  methods := [(ClassDecl.constructorName,[.set "crane" (.ask (.property "pilot") "Crane" "*")])]

def tugText : String := "return (new Tug(), false);"

/-- Two strict injectors; the directory of the first one is to lie in that of the second. -/
def shared : World := ((do
  let _ ← Act.openScript "s/u" (some ghosts) true [] none
  let _ ← Act.openScript "s" (some ghosts) true [] none : Act Unit)
  { site :=
      { registry := { classes := [("Tug",tug)] }
        files := { directories := [["s"],["t"]], contents := [(["t","x-*.di"],tugText)] } } }).2

/-- A key whose file name leads out of the empty directory, to a unit that is there, is answered
although nothing has been compiled. And where an object knows another injector that has not settled,
a later request may still add to the directory. -/
theorem strict_injectors_not_always_compile_once :
    (files.Vacant "s" ∧ (Files.write (Layout.sentinelPath "s") "" files).1 = .ok () ∧
      (compileAll ⟨0⟩ (marked "s" world)).2.builds = [("cranes",1)] ∧
      (request ⟨0⟩ "../t/x" "*" world).1.toBool = true ∧
      (request ⟨0⟩ "../t/x" "*" world).2.builds = [] ∧
      (request ⟨0⟩ "../t/x" "*" world).2.site.files.exists? (Layout.sentinelPath "s") = false) ∧
    shared.site.files.contents = [(["t","x-*.di"],tugText)] ∧
    (request ⟨1⟩ "Crane" "*" shared).2.site.files.contents =
      [(["t","x-*.di"],tugText),(["s","compiled"],"")] ∧
    (requests ⟨1⟩ [("../t/x","*")] (request ⟨1⟩ "Crane" "*" shared).2).site.files.contents =
      [(["t","x-*.di"],tugText),(["s","compiled"],""),(["s","u","compiled"],"")] := by
  refine ⟨⟨files_vacant,files_markable,world_builds,?_,?_,?_⟩,?_,?_,?_⟩
  · decide +kernel
  · decide +kernel
  · decide +kernel
  · decide +kernel
  · decide +kernel
  · decide +kernel

end Harbour
end Wiring
