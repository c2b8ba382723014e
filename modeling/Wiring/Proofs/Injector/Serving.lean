import Mathlib
import Wiring.Proofs.Compile.Defaults
import Wiring.Proofs.Compile.Serving
import Wiring.Proofs.Injector.Grounding
import Wiring.Proofs.Injector.Returning

/-!
# The unit that an injector runs

An injector runs for a key whatever unit it has at hand: one that lies in its directory, also if
another module has left it there, or one that is compiled when it is asked for. It is one of the
graph of a module if a whole compile of the graph has filed it and it has been left there, or if it
is missing in the directory and is compiled of this graph, or if the injector compiles in memory.
-/
namespace Wiring

open Script (Statement)

namespace World

open Resolve Compile

variable {w w' : World} {g : Graph} {shown : Value → Tree} {id : InjectorId} {key : Key}
  {b : Binding Value} {code : Code} {run : RunKey}

/-- What the injector runs for the key is a unit that was compiled of the binding in the graph,
while the literals of the graph showed these trees. A script injector has it as it is read back. -/
inductive Serves (w : World) (g : Graph) (shown : Value → Tree) (id : InjectorId) (key : Key)
    (b : Binding Value) : Prop where
  | script {s : ScriptInjector} (hi : w.injector? id = some (.script s))
      (h : ∀ statements w', loadUnit id key w = (.ok statements,w') →
        ∃ code, Yields g shown b code ∧ statements = code.statements.map Statement.reparsed) :
      Serves w g shown id key b
  | direct {d : DirectInjector} (hi : w.injector? id = some (.direct d))
      (h : ∀ code w', codeOf id d key w = (.ok code,w') → Yields g shown b code) :
      Serves w g shown id key b

theorem Serves.injector (h : w.Serves g shown id key b) : ∃ i, w.injector? id = some i := by
  cases h with
  | script hi => exact ⟨_,hi⟩
  | direct hi => exact ⟨_,hi⟩

/-- The unit is at hand, and then its statements run. -/
theorem Serves.runs (h : w.Serves g shown id key b) {r : Value × Bool}
    (hrun : runWith run id key w = (.ok r,w')) : ∃ w₀ code unit, Preserves [] w w₀ ∧
      Yields g shown b code ∧
        Script.runUnit (surroundings run id) unit code.statements w₀ = (.ok r,w') := by
  cases h with
  | @script s hi h =>
    rw [runWith,Work.run_bind (injector_run hi)] at hrun
    obtain ⟨statements,w₀,hload,hrun⟩ := Work.run_bind_ok hrun
    have hkept := loadUnit_steady id key w
    rw [hload] at hkept
    obtain ⟨code,hcode,rfl⟩ := h statements w₀ hload
    rw [Script.runUnit_reparsed] at hrun
    exact ⟨w₀,code,_,.of_steady hkept,hcode,hrun⟩
  | @direct d hi h =>
    rw [runWith,Work.run_bind (injector_run hi)] at hrun
    obtain ⟨code,w₀,hcode,hrun⟩ := Work.run_bind_ok hrun
    have hkept := codeOf_steady id d key w
    rw [hcode] at hkept
    exact ⟨w₀,code,_,.of_steady hkept,h code w₀ hcode,hrun⟩

/-- What is read from a file that is there is parsed from its text. -/
theorem parsed_of_readUnit {path text : String} {statements : List Statement}
    (hfile : w.site.files.status path = .file text)
    (h : readUnit id path key w = (.ok statements,w')) :
    Script.parseUnit path text = .ok statements := by
  have hread : Act.onSite (Work.onFiles (Files.read path)) w = (.ok text,w) :=
    Act.onSite_run w (by rw [Work.onFiles_run,Files.read_of_status hfile])
  rw [readUnit,Work.run_bind hread] at h
  obtain ⟨parsed,_,hparsed,h⟩ := Work.run_bind_ok h
  obtain ⟨_,_,_,hend⟩ := Work.run_bind_ok h
  obtain rfl := Except.ok.inj (congrArg Prod.fst hend)
  generalize Script.parseUnit path text = found at hparsed
  cases found with
  | error f => cases congrArg Prod.fst hparsed
  | ok found => exact congrArg Except.ok (Except.ok.inj (congrArg Prod.fst hparsed))

/-- A unit that lies in the directory of an injector which has not read it yet. -/
theorem serves_left {s : ScriptInjector} (hi : w.injector? id = some (.script s))
    (hunread : s.units.find? key = none)
    (hfile : w.site.files.status (Layout.unitPath s.dir key) = .file code.source)
    (hparsed : ∀ file, Script.parseUnit file code.source =
      .ok (code.statements.map Statement.reparsed))
    (hcode : Yields g shown b code) : w.Serves g shown id key b := by
  refine .script hi fun statements w' h => ⟨code,hcode,?_⟩
  have hthere : w.site.files.exists? (Layout.unitPath s.dir key) = true := by
    rw [Files.exists?,hfile]
  rw [loadUnit,Work.run_bind (scriptInjector_run hi),hunread] at h
  dsimp only at h
  rw [Work.run_bind (fileExists_run _ _),hthere,if_neg (by simp)] at h
  exact (Except.ok.inj ((hparsed _).symm.trans (parsed_of_readUnit hfile h))).symm

/-- A unit that is not there yet is compiled of the binding that is made for the key on demand. -/
theorem serves_on_demand {s : ScriptInjector} {built : World} {made : Site}
    (hi : w.injector? id = some (.script s)) (hunread : s.units.find? key = none)
    (hlazy : s.strict = false)
    (hmissing : w.site.files.exists? (Layout.unitPath s.dir key) = false)
    (hgraph : graphOf id w = (.ok g,built))
    (hpointcuts : built.site.files.exists? (Layout.pointcutsPath s.dir) = true)
    (hb : (Demand.bindingOf s.dir g key >>= Demand.weave s.dir) built.site = (.ok b,made))
    (hfit : ∀ code site, unitOf g (some (scopeIn s.dir g)) b made = (.ok code,site) →
      (∀ part ∈ code.parts key, part.Slashless) ∧
        ∀ name ∈ code.names, Script.isNameText name = true) :
    w.Serves g made.heap.unfold id key b := by
  refine .script hi fun statements w' h => ?_
  rw [loadUnit,Work.run_bind (scriptInjector_run hi),hunread] at h
  dsimp only at h
  rw [Work.run_bind (fileExists_run _ _),hmissing,if_pos (show (!false) = true from rfl)] at h
  obtain ⟨_,compiled,hcompile,h⟩ := Work.run_bind_ok h
  rw [compileMissing_run key hi hlazy hgraph hpointcuts] at hcompile
  have hsite := onSite_site hcompile
  rw [Demand.compile_eq] at hsite
  obtain ⟨code,coded,hcode,hsave⟩ := Work.run_bind_ok hsite
  rw [Demand.codeOf,← bind_assoc,Work.run_bind hb] at hcode
  obtain ⟨hparts,hnames⟩ := hfit code coded hcode
  have hfile := Save.unit_saved hparts hsave
  have hthere : compiled.site.files.exists? (Layout.unitPath s.dir key) = true := by
    rw [Files.exists?,hfile]
  rw [Work.run_bind (fileExists_run _ _),hthere,if_neg (by simp)] at h
  refine ⟨code,.of_unitOf (sparing_of_reads (scopeIn_site s.dir g)) hcode,?_⟩
  exact (Except.ok.inj
    ((unitOf_parsed hcode hnames _).symm.trans (parsed_of_readUnit hfile h))).symm

/-- A direct injector that has not compiled the key yet compiles what its graph binds, or what it
infers of the key. -/
theorem serves_directly {d : DirectInjector} {made : Site}
    (hi : w.injector? id = some (.direct d)) (hcodes : d.codes.find? key = none)
    (hb : directBinding d.graph key w.site = (.ok b,made)) :
    w.Serves d.graph made.heap.unfold id key b := by
  refine .direct hi fun code w' h => ?_
  rw [codeOf,hcodes] at h
  obtain ⟨code',w₁,hcompile,h⟩ := Work.run_bind_ok h
  obtain ⟨_,w₂,_,hend⟩ := Work.run_bind_ok h
  obtain rfl := Except.ok.inj (congrArg Prod.fst hend)
  have hsite := onSite_site hcompile
  rw [Work.run_bind hb] at hsite
  exact .of_unitOf (sparing_of_reads (directScope_site d.graph)) hsite

end World

open Compile in
/-- What a whole compile has filed for a key is what an injector of the directory runs for it, as
long as the file is there as it was left. -/
theorem Batch.serves {batch : Batch} {start fin : Site} (hg : batch.graph.FiledApart)
    (hrun : batch.compile start = (.ok (),fin)) {key : Key} {b : Binding Value}
    (hb : batch.graph.get? key = some b)
    (hnames : ∀ code site site', unitOf batch.graph none b site = (.ok code,site') →
      ∀ name ∈ code.names, Script.isNameText name = true)
    {w : World} {id : InjectorId} {s : ScriptInjector} (hi : w.injector? id = some (.script s))
    (hdir : s.dir = batch.dir) (hunread : s.units.find? key = none) {text : String}
    (hthere : w.site.files.status (Layout.unitPath batch.dir key) = .file text)
    (hleft : w.site.files.contents.find? (Path.ofText (Layout.unitPath batch.dir key)) =
      fin.files.contents.find? (Path.ofText (Layout.unitPath batch.dir key))) :
    w.Serves batch.graph start.heap.unfold id key b := by
  obtain ⟨text',hfiled,hdescribed⟩ :=
    compile_told hg hrun key (Graph.has_of_get? hb) (.unit key) (.inl rfl)
  obtain rfl : text = text' := Option.some.inj
    ((Files.find?_of_status hthere).symm.trans (hleft.trans hfiled))
  cases hdescribed with
  | @unit _ b' code site site' hb' hheap hunit =>
    obtain rfl := Option.some.inj (hb.symm.trans hb')
    rw [← hdir] at hthere
    have hyields := Yields.of_unitOf sparing_none hunit
    rw [hheap] at hyields
    exact World.serves_left hi hunread hthere (unitOf_parsed hunit (hnames code site site' hunit))
      hyields

end Wiring
