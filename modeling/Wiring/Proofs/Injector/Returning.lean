import Mathlib
import Wiring.Proofs.Compile.Filed
import Wiring.Proofs.Injector.Restoring

/-!
# What comes back from a directory

What was saved in a directory is read back from it as it was: pointcuts, the graph, qualifiers. A
unit that is there is run, whether or not all that belongs to it could be saved. After the directory
has been cleared, nothing comes back.
-/
namespace Wiring

theorem Tree.Built.unfold {h h' : Heap} {handle : Handle} {v : Value} {t : Tree}
    (hb : Tree.Built h h' handle v t) : h'.unfold v = t := by
  have hcount := hb.count_le
  refine hb.shows h' (.refl h') h'.depth ?_
  unfold Heap.count at hcount
  unfold Heap.depth
  omega

namespace Files

variable {fs : Files} {path text : String}

theorem read_of_status (h : fs.status path = .file text) : read path fs = (.ok text,fs) := by
  have hget : (get : FileWork Files) fs = (.ok fs,fs) := rfl
  rw [read,Work.run_bind hget,h]
  rfl

theorem readIfExists_of_status (h : fs.status path = .file text) :
    readIfExists path fs = (.ok (some text),fs) := by
  have hget : (get : FileWork Files) fs = (.ok fs,fs) := rfl
  have hexists : fs.exists? path = true := by rw [exists?,h]
  rw [readIfExists,Work.run_bind hget,if_pos hexists,Work.run_bind (read_of_status h)]
  rfl

theorem readIfExists_of_none (h : fs.exists? path = false) :
    readIfExists path fs = (.ok none,fs) := by
  have hget : (get : FileWork Files) fs = (.ok fs,fs) := rfl
  rw [readIfExists,Work.run_bind hget,if_neg (by simp [h])]
  rfl

theorem ne_root {x : String} (hx : Path.Ordinary x) : x ≠ "/" := by
  rintro rfl
  exact hx.noSlash (by decide)

theorem below_ordinary (above : Path) {x : String} (hx : Path.Ordinary x) :
    below above (above ++ [x]) = true := by
  simp [below,hx.notBack,ne_root hx]

/-- Nothing of an ordinary name is left in a directory that was emptied. -/
theorem exists?_emptied {d x : String} (hx : Path.Ordinary x) :
    (fs.empty (Path.ofText d)).exists? (Path.join d x) = false := by
  have hbelow := below_ordinary (Path.ofText d) hx
  cases hs : (fs.empty (Path.ofText d)).status (Path.join d x) with
  | missing => rw [exists?,hs]
  | blocked => rw [exists?,hs]
  | file contents =>
    have hfind := find?_of_status hs
    rw [Path.ofText_join d hx] at hfind
    have hmem := (List.mem_filter.mp (Table.mem_of_find? hfind)).2
    simp [hbelow] at hmem
  | directory =>
    have hdirectory := isDirectory_of_status hs
    rw [Path.ofText_join d hx] at hdirectory
    have houter : Path.isOuter (Path.ofText d ++ [x]) = false := by simp [Path.isOuter,hx.notBack]
    have hroot : Path.ofText d ++ [x] ≠ ["/"] := by
      intro h
      have hlast := congrArg List.getLast? h
      rw [List.getLast?_concat] at hlast
      exact ne_root hx (Option.some.inj hlast)
    simp [isDirectory,houter,hroot,empty,hbelow] at hdirectory

end Files

namespace Save

open Work

variable {dir : String} {site : Site}

theorem pointcuts?_run {ps : List Pointcut} (h : site.files.status (Layout.pointcutsPath dir) =
      .file (Json.list (ps.map Pointcut.toJson)).compact) :
    pointcuts? dir site = (.ok (some ps),site) := by
  have hread : Work.onFiles (Files.readIfExists (Layout.pointcutsPath dir)) site =
      (.ok (some (Json.list (ps.map Pointcut.toJson)).compact),site) := by
    rw [onFiles_run,Files.readIfExists_of_status h]
  have hdecode : Work.decode (Json.list (ps.map Pointcut.toJson)).compact
      (Json.asList Pointcut.ofJson?) site = (.ok ps,site) := by
    rw [Work.decode,Pointcut.read_toJson]
    rfl
  rw [pointcuts?,run_bind hread]
  dsimp only
  rw [run_bind hdecode]
  rfl

theorem graph?_missing (h : site.files.exists? (Layout.modulePath dir) = false) :
    graph? dir site = (.ok none,site) := by
  have hread : Work.onFiles (Files.readIfExists (Layout.modulePath dir)) site = (.ok none,site) := by
    rw [onFiles_run,Files.readIfExists_of_none h]
  rw [graph?,run_bind hread]
  rfl

theorem graph?_run {text : String} {c : Container Tree}
    (h : site.files.status (Layout.modulePath dir) = .file text)
    (hc : (Json.read? text).bind Container.ofJson? = some c) :
    graph? dir site = (.ok (some (c.build site.heap).1),
      { site with heap := (c.build site.heap).2 }) := by
  have hread : Work.onFiles (Files.readIfExists (Layout.modulePath dir)) site =
      (.ok (some text),site) := by
    rw [onFiles_run,Files.readIfExists_of_status h]
  rw [graph?,run_bind hread]
  dsimp only
  rw [run_bind (readGraph_run hc site)]
  rfl

/-- A qualifier comes back as it was saved; no decoder is asked. -/
theorem qualifier?_run {p : Parameter} {t : Tree} {j : Json} (ht : t.Literal)
    (hj : t.toJson? = some j) (hfits : j.Fits)
    (h : site.files.status (Layout.qualifierPath dir p) = .file j.compact) :
    qualifier? dir p site = (.ok (some (t.build none site.heap).1),
      { site with heap := (t.build none site.heap).2 }) := by
  have hread : Work.onFiles (Files.readIfExists (Layout.qualifierPath dir p)) site =
      (.ok (some j.compact),site) := by
    rw [onFiles_run,Files.readIfExists_of_status h]
  have hdecode : Work.decode j.compact (Tree.ofJson? .reading) site = (.ok t,site) := by
    rw [Work.decode,ht.read_toJson hj hfits.legible]
    rfl
  have hbuild : Work.build none t site = (.ok (t.build none site.heap).1,
      { site with heap := (t.build none site.heap).2 }) := rfl
  rw [qualifier?,run_bind hread]
  dsimp only
  rw [run_bind hdecode,run_bind hbuild]
  rfl

end Save

/-- The work gives a value that shows the tree, and changes nothing but the heap. -/
def Work.Brings (w : Work Value) (site : Site) (t : Tree) : Prop :=
  ∃ v heap, w site = (.ok v,{ site with heap }) ∧ heap.unfold v = t

theorem Work.build_brings (handle : Handle) (t : Tree) (site : Site) :
    (Work.build handle t).Brings site t :=
  ⟨_,_,rfl,(Tree.built_build handle t site.heap).unfold⟩

/-- A unit brings a native back as it was saved exactly if no decoder makes another one of it. -/
theorem Classes.decodeNative_brings (typeName : String) (bytes : List UInt8) (site : Site) :
    (Classes.decodeNative typeName bytes).Brings site (.blob typeName bytes) ↔
      ∀ d, site.registry.decoders.find? typeName = some d → d = .rename typeName := by
  have hregistry : Work.registry site = (.ok site.registry,site) := rfl
  unfold Work.Brings Classes.decodeNative
  rw [Work.run_bind hregistry]
  cases hd : site.registry.decoders.find? typeName with
  | none => exact ⟨fun _ => nofun,fun _ => Work.build_brings none _ site⟩
  | some d =>
    cases d with
    | fail message =>
      refine ⟨fun ⟨v,heap,hrun,_⟩ => ?_,fun h => ?_⟩
      · cases congrArg Prod.fst hrun
      · cases h _ rfl
    | rename other =>
      obtain ⟨v,heap,hbuild,hshows⟩ := Work.build_brings none (.blob other bytes) site
      refine ⟨fun ⟨u,heap',hrun,hu⟩ d' hd' => ?_,fun h => ?_⟩
      · obtain ⟨hvalue,hsite⟩ := Prod.mk.inj (hbuild.symm.trans hrun)
        obtain rfl := Except.ok.inj hvalue
        obtain rfl : heap = heap' := congrArg Site.heap hsite
        obtain ⟨rfl,_⟩ := Tree.blob.inj (hshows.symm.trans hu)
        exact (Option.some.inj hd').symm
      · obtain rfl := Decoder.rename.inj (h _ rfl)
        exact ⟨v,heap,hbuild,hshows⟩

namespace Resolve

open Work

variable {w : World} {id : InjectorId} {s : ScriptInjector}

theorem scriptInjector_run (h : w.injector? id = some (.script s)) :
    Act.scriptInjector id w = (.ok s,w) := by
  rw [Act.scriptInjector,run_bind (injector_run h)]
  rfl

theorem modifyScript_run (h : w.injector? id = some (.script s))
    (f : ScriptInjector → ScriptInjector) : ∃ w', Act.modifyScript id f w = (.ok (),w') ∧
      w'.site = w.site ∧ w'.injector? id = some (.script (f s)) := by
  rw [Act.modifyScript,Act.modifyInjector_run]
  refine ⟨_,rfl,?_,?_⟩
  · rw [World.withInjector,h]
  · rw [World.injector?_withInjector,if_pos rfl,h]
    rfl

/-- A graph that is at hand is taken. -/
theorem graphOf_kept (h : w.injector? id = some (.script s)) {g : Graph} (hg : s.graph = some g) :
    graphOf id w = (.ok g,w) := by
  rw [graphOf,run_bind (scriptInjector_run h),hg]
  rfl

/-- Without a module, the graph is read from the directory and kept; where there is none, it is the
empty one. -/
theorem graphOf_read (h : w.injector? id = some (.script s)) (hgraph : s.graph = none)
    (hsource : s.source = none) {saved : Option Graph} {site : Site}
    (hread : Save.graph? s.dir w.site = (.ok saved,site)) : ∃ w',
      graphOf id w = (.ok (saved.getD .empty),w') ∧ w'.site = site ∧
        w'.injector? id = some (.script { s with graph := some (saved.getD .empty) }) := by
  have hthere : { w with site }.injector? id = some (.script s) := h
  obtain ⟨kept,hkept,hsite,hinjector⟩ :=
    modifyScript_run hthere fun s => { s with graph := some (saved.getD .empty) }
  refine ⟨kept,?_,hsite,hinjector⟩
  rw [graphOf,run_bind (scriptInjector_run h),hgraph,hsource]
  dsimp only
  rw [run_bind (Act.onSite_run w hread),pure_bind]
  exact run_bind hkept

theorem fileExists_run (path : String) (w : World) :
    fileExists path w = (.ok (w.site.files.exists? path),w) := rfl

/-- Where pointcuts have been saved, a missing unit is compiled on demand, of the graph at hand. -/
theorem compileMissing_run {w' : World} {g : Graph} (key : Key)
    (h : w.injector? id = some (.script s)) (hstrict : s.strict = false)
    (hgraph : graphOf id w = (.ok g,w'))
    (hpointcuts : w'.site.files.exists? (Layout.pointcutsPath s.dir) = true) :
    compileMissing id key w =
      Act.onSite (Demand.compile s.dir g (some (scopeIn s.dir g)) key) w' := by
  rw [compileMissing,run_bind (scriptInjector_run h),hstrict]
  dsimp only
  rw [if_neg (by simp),run_bind hgraph,run_bind (fileExists_run _ _),hpointcuts]
  rfl

/-- A unit that is there is not compiled. -/
theorem loadUnit_there {key : Key} {text : String} (h : w.injector? id = some (.script s))
    (hunread : s.units.find? key = none)
    (hfile : w.site.files.status (Layout.unitPath s.dir key) = .file text) :
    loadUnit id key w = (do
      let statements ← Act.orThrow (Script.parseUnit (Layout.unitPath s.dir key) text)
      Act.modifyScript id fun s => { s with units := s.units.put key statements }
      return statements : Act (List Script.Statement)) w := by
  have hthere : w.site.files.exists? (Layout.unitPath s.dir key) = true := by
    rw [Files.exists?,hfile]
  have hread : Act.onSite (Work.onFiles (Files.read (Layout.unitPath s.dir key))) w =
      (.ok text,w) := by
    refine Act.onSite_run w ?_
    rw [onFiles_run,Files.read_of_status hfile]
  rw [loadUnit,run_bind (scriptInjector_run h),hunread]
  dsimp only
  rw [run_bind (fileExists_run _ _),hthere,if_neg (by simp),run_bind hread]

/-- When a unit could not be saved for want of a JSON form, an injector that has not read it yet
finds its text all the same, and takes it for compiled. -/
theorem loadUnit_left {key : Key} {code : Code} {fin : Site}
    (h : w.injector? id = some (.script s)) (hunread : s.units.find? key = none)
    (hparts : ∀ part ∈ code.parts key, part.Slashless)
    (hprintable : ∀ t ∈ code.statements, t.reparsed.printable = true)
    (hsave : Save.unit s.dir key code w.site = (.error .malformed,fin)) : ∃ w',
      loadUnit id key { w with site := fin } =
        (.ok (code.statements.map Script.Statement.reparsed),w') ∧ w'.site = fin := by
  have hleft := Save.unit_left hparts hsave
  have hthere : { w with site := fin }.injector? id = some (.script s) := h
  have hparsed : Act.orThrow (Script.parseUnit (Layout.unitPath s.dir key) code.source)
      { w with site := fin } =
        (.ok (code.statements.map Script.Statement.reparsed),{ w with site := fin }) := by
    rw [Code.source,Script.parseUnit_reparsed (Layout.unitPath s.dir key) hprintable]
    rfl
  obtain ⟨w',hkept,hsite,_⟩ := modifyScript_run hthere fun s =>
    { s with units := s.units.put key (code.statements.map Script.Statement.reparsed) }
  refine ⟨w',?_,hsite⟩
  rw [loadUnit_there hthere hunread hleft,run_bind hparsed,run_bind hkept]
  rfl

end Resolve

section Clearing

open Work

variable {w : World} {id : InjectorId} {s : ScriptInjector}

theorem Act.clear_run (h : w.injector? id = some (.script s))
    (hdir : w.site.files.status s.dir = .directory) : ∃ w', Act.clear id w = (.ok (),w') ∧
      w'.site = { w.site with files := w.site.files.empty (Path.ofText s.dir) } ∧
      w'.injector? id = some (.script { s with units := [] }) := by
  obtain ⟨forgot,hforgot,hsite,hinjector⟩ :=
    Resolve.modifyScript_run h fun s => { s with units := [] }
  have hclear : Work.onFiles (Files.clear s.dir) forgot.site =
      (.ok (),{ w.site with files := w.site.files.empty (Path.ofText s.dir) }) := by
    have hget : (get : FileWork Files) w.site.files = (.ok w.site.files,w.site.files) := rfl
    rw [hsite,onFiles_run,Files.clear,run_bind hget,hdir]
    rfl
  refine ⟨{ forgot with site := { w.site with files := w.site.files.empty (Path.ofText s.dir) } },
    ?_,rfl,hinjector⟩
  rw [Act.clear,run_bind (Resolve.scriptInjector_run h),run_bind hforgot]
  exact Act.onSite_run forgot hclear

/-- After the directory was cleared, an injector without a module goes on with the graph that it has
read before; one that has read none goes on with the empty graph, whatever had been saved. -/
theorem cleared_injectors_keep_what_they_read (h : w.injector? id = some (.script s))
    (hdir : w.site.files.status s.dir = .directory) (hsource : s.source = none) :
    ∃ cleared w', Act.clear id w = (.ok (),cleared) ∧
      Resolve.graphOf id cleared = (.ok (s.graph.getD .empty),w') ∧ w'.site = cleared.site ∧
      w'.injector? id = some (.script { s with units := [], graph := some (s.graph.getD .empty) }) := by
  obtain ⟨cleared,hclear,hsite,hinjector⟩ := Act.clear_run h hdir
  cases hgraph : s.graph with
  | some g =>
    refine ⟨cleared,cleared,hclear,Resolve.graphOf_kept hinjector hgraph,rfl,?_⟩
    rw [hinjector,Option.getD_some,← hgraph]
  | none =>
    have hnone : Save.graph? s.dir cleared.site = (.ok none,cleared.site) := by
      refine Save.graph?_missing ?_
      rw [hsite]
      exact Files.exists?_emptied Batch.moduleName_ordinary
    obtain ⟨w',hrun,hkept,hinjector'⟩ := Resolve.graphOf_read hinjector hgraph hsource hnone
    exact ⟨cleared,w',hclear,hrun,hkept,hinjector'⟩

end Clearing
end Wiring
