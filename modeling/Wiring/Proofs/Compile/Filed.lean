import Mathlib
import Wiring.Proofs.Compile.Copies
import Wiring.Proofs.Compile.Scopes
import Wiring.Proofs.Files.Laying

/-!
# What a whole compile files away

A whole compile that succeeds leaves four kinds of files: the unit and the scope of each bound key,
the pointcuts, and the graph. The first three are always written anew, so they describe the graph
that was compiled. The graph is saved only where none is yet; then it is there as well, for there is
room for it where there was room for the log and the pointcuts.
-/
namespace Wiring

open Files (Enters Laid Renews)

/-- What the file of a bound key tells: its unit is what its binding compiles to where the heap is
the given one, and its scope is that of its binding. -/
inductive Part.Describes (g : Graph) (h : Heap) : Part → String → Prop where
  | unit {key : Key} {b : Binding Value} {code : Code} {site site' : Site}
      (hb : g.get? key = some b) (hheap : site.heap = h)
      (hrun : Compile.unitOf g none b site = (.ok code,site')) :
      Describes g h (.unit key) code.source
  | scope {key : Key} {b : Binding Value} (hb : g.get? key = some b) :
      Describes g h (.scope key) (Save.scopeToJson b.isShared).compact

/-- The unit or the scope of a key that the graph binds. -/
def Part.Bound (g : Graph) (part : Part) : Prop :=
  ∃ key, g.has key = true ∧ (part = .unit key ∨ part = .scope key)

/-- The keys that the graph binds are filed apart. -/
abbrev Container.FiledApart (g : Graph) : Prop := g.Apart fun key => g.has key = true

theorem Part.Bound.slashless {g : Graph} (hg : g.FiledApart) {part : Part} (h : part.Bound g) :
    part.Slashless := by
  obtain ⟨key,hkey,rfl | rfl⟩ := h
  · exact Compile.slashless_unit hg hkey
  · exact Compile.slashless_scope hg hkey

/-- No other file of a unit lies where that of a bound key lies. -/
theorem Part.Bound.eq_of_path {g : Graph} (hg : g.FiledApart) {dir : String} {part other : Part}
    (h : part.Bound g) (hother : other.Bound g ∨ ∃ p, other = .qualifier p ∧ other.Slashless)
    (hpath : Path.ofText (part.path dir) = Path.ofText (other.path dir)) : part = other := by
  have hslashless := h.slashless hg
  obtain ⟨key,hkey,hpart⟩ := h
  rcases hother with ⟨key',hkey',hother⟩ | ⟨p,rfl,hp⟩
  · rcases hpart with rfl | rfl <;> rcases hother with rfl | rfl
    · rw [Compile.eq_of_unitPath hg hkey hkey' hpath]
    · exact absurd hpath (Compile.unitPath_ne_metaPath hg hkey hkey')
    · exact absurd hpath.symm (Compile.unitPath_ne_metaPath hg hkey' hkey)
    · rw [Compile.eq_of_metaPath hg hkey hkey' hpath]
  · have hwithin := (Part.name_of_path hslashless.ordinary hp.ordinary hpath).1
    rcases hpart with rfl | rfl <;> simp [Part.within] at hwithin

theorem Save.valueText_snd (v : Value) (site : Site) : (valueText v site).2 = site := by
  have hheap : Work.heap site = (.ok site.heap,site) := rfl
  rw [valueText,Work.run_bind hheap]
  cases (site.heap.unfold v).toJson? <;> rfl

/-- Compiling a binding leaves the heap alone. -/
theorem Compile.unitOf_heap (g : Graph) (b : Binding Value) (site : Site) :
    (unitOf g none b site).2.heap = site.heap := by
  have hpassed : Passed none site (unitOf g none b site).2 := (unitOf_delivers b site .start).1
  generalize (unitOf g none b site).2 = after at hpassed ⊢
  induction hpassed with
  | start => rfl
  | told key _ ih => exact (inferredScope_heap key _ ih).1

namespace Batch

open Work

variable {dir : String} {g : Graph} {start site mid fin : Site}

/-- The log, or a file of a unit. -/
def Ours (dir : String) (path : Path) : Prop :=
  path = Path.ofText (Layout.logPath dir) ∨
    ∃ part : Part, part.Slashless ∧ path = Path.ofText (part.path dir)

theorem not_ours {x : String} (hx : Path.Ordinary x) (hlast : x.toList.getLast? ≠ some 'i')
    (hlog : x ≠ "_compile.log") : ¬Ours dir (Path.ofText (Path.join dir x)) := by
  rintro (hpath | ⟨part,hpart,hpath⟩)
  · rw [Layout.logPath,Path.ofText_join _ hx,Path.ofText_join _ logName_ordinary] at hpath
    exact hlog (List.singleton_inj.mp (List.append_cancel_left hpath))
  · exact path_ne hx hlast hpart hpath

/-- While units are compiled the heap stays, files are laid into the directory, and those of bound
keys are as before or describe the graph. -/
structure Filed (dir : String) (g : Graph) (h : Heap) (old new : Site) : Prop where
  heap : new.heap = old.heap
  laid : Laid dir (Ours dir) old.files new.files
  told : ∀ part : Part, part.Bound g →
    Renews (Path.ofText (part.path dir)) (part.Describes g h) old.files new.files

/-- The files of a bound key are there and describe the graph. -/
def Told (dir : String) (g : Graph) (h : Heap) (fs : Files) (key : Key) : Prop :=
  ∀ part : Part, part = .unit key ∨ part = .scope key →
    ∃ text, fs.contents.find? (Path.ofText (part.path dir)) = some text ∧ part.Describes g h text

namespace Filed

variable {h : Heap}

theorem refl (site : Site) : Filed dir g h site site := ⟨rfl,.refl _,fun _ _ => .refl _⟩

theorem trans (hf : Filed dir g h site mid) (hf' : Filed dir g h mid fin) :
    Filed dir g h site fin :=
  ⟨hf'.heap.trans hf.heap,hf.laid.trans hf'.laid,
    fun part hpart => (hf.told part hpart).trans (hf'.told part hpart)⟩

theorem there (hf : Filed dir g h site fin) {key : Key} (hkey : g.has key = true)
    (hthere : Told dir g h site.files key) : Told dir g h fin.files key :=
  fun part hpart => (hf.told part ⟨key,hkey,hpart⟩).there (hthere part hpart)

/-- A file that belongs to no unit leaves those of the keys as they are. -/
theorem log {text : String} (hg : g.FiledApart) (hrun : log ⟨dir,g⟩ text site = (.ok (),fin)) :
    Filed dir g h site fin := by
  obtain ⟨happend,hsame⟩ := Save.onFiles_ok hrun
  have hlaid := Laid.append (d := dir) (Layout.logPath dir) text site.files
  rw [happend] at hlaid
  refine ⟨by rw [hsame],hlaid.imp fun _ => .inl,fun part hpart => ?_⟩
  exact .of_keeps (Files.ofText_not_temporary _) hlaid.keeps
    (path_ne logName_ordinary (by decide) (hpart.slashless hg)).symm

/-- A file of a unit is written, and describes the graph if it is that of a bound key. -/
theorem write (part : Part) {text : String} (hg : g.FiledApart) (hdir : site.files.Enters dir)
    (hpart : part.Bound g ∧ part.Describes g h text ∨ ∃ p, part = .qualifier p ∧ part.Slashless)
    (hrun : Work.onFiles (Files.write (part.path dir) text) site = (.ok (),fin)) :
    Filed dir g h site fin := by
  have hslashless : part.Slashless := hpart.elim (fun hp => hp.1.slashless hg) fun ⟨_,_,hp⟩ => hp
  obtain ⟨hwrite,hsame⟩ := Save.onFiles_ok hrun
  have hlaid := Laid.write_part hdir hslashless text
  rw [hwrite] at hlaid
  refine ⟨by rw [hsame],hlaid.imp fun _ hp => .inr ⟨part,hslashless,hp⟩,fun other hother => ?_⟩
  have hrenews := Files.write_renews (P := other.Describes g h) (part.path dir) text site.files
    (Files.ofText_not_temporary (other.path dir)) fun hpath => ?_
  · rw [hwrite] at hrenews
    exact hrenews
  · rcases hpart with ⟨hbound,htext⟩ | hqualifier
    · rw [hother.eq_of_path hg (.inl hbound) hpath]
      exact htext
    · obtain rfl := hother.eq_of_path hg (.inr hqualifier) hpath
      obtain ⟨p,rfl,_⟩ := hqualifier
      obtain ⟨_,_,hkey | hkey⟩ := hother <;> cases hkey

theorem qualifiers {qs : List Qualifier} (hg : g.FiledApart) (hdir : site.files.Enters dir)
    (hqs : ∀ q ∈ qs, '/' ∉ q.1.fileName.toList)
    (hrun : qs.forM (Save.qualifier dir) site = (.ok (),fin)) : Filed dir g h site fin := by
  induction qs generalizing site with
  | nil =>
    obtain rfl : site = fin := (Prod.mk.inj hrun).2
    exact .refl site
  | cons q rest ih =>
    obtain ⟨hq,hrest⟩ := List.forall_mem_cons.mp hqs
    rw [Save.qualifiers_cons] at hrun
    obtain ⟨_,mid,hfirst,hothers⟩ := Work.run_bind_ok hrun
    obtain ⟨text,_,htext,hwrite⟩ := Work.run_bind_ok hfirst
    obtain rfl := (Save.valueText_snd q.2 site).symm.trans (congrArg Prod.snd htext)
    have hpart : Part.Slashless (.qualifier q.1) := hq
    have hfiled : Filed dir g h site mid :=
      .write (.qualifier q.1) hg hdir (.inr ⟨q.1,rfl,hpart⟩) hwrite
    exact hfiled.trans (ih (hdir.grows hfiled.laid.grows) hrest hothers)

/-- A unit that is saved is there with its scope, and both describe the graph. -/
theorem saveUnit {key : Key} {b : Binding Value} {code : Code} {before after : Site}
    (hg : g.FiledApart) (hdir : site.files.Enters dir) (hb : g.get? key = some b)
    (hheap : before.heap = h) (hunit : Compile.unitOf g none b before = (.ok code,after))
    (hrun : Save.unit dir key code site = (.ok (),fin)) :
    Filed dir g h site fin ∧ Told dir g h fin.files key := by
  have hkey : g.has key = true := Graph.has_of_get? hb
  have hqs : ∀ q ∈ code.qualifiers, '/' ∉ q.1.fileName.toList := fun q hq =>
    hg.qualifiers q (Container.mem_qualifiers hb (Compile.unitOf_qualifiers b before code after
      hunit q hq))
  have hunitText : Part.Describes g h (.unit key) code.source := .unit hb hheap hunit
  have hscopeText : Part.Describes g h (.scope key) (Save.scopeToJson code.shared).compact := by
    rw [Compile.unitOf_shared b before code after hunit]
    exact .scope hb
  rw [Save.unit] at hrun
  obtain ⟨_,first,hfirst,hrest⟩ := Work.run_bind_ok hrun
  obtain ⟨_,second,hsecond,hrest⟩ := Work.run_bind_ok hrest
  have hfirstFiled : Filed dir g h site first :=
    .write (.unit key) hg hdir (.inl ⟨⟨key,hkey,.inl rfl⟩,hunitText⟩) hfirst
  have hsecondFiled : Filed dir g h first second :=
    .write (.scope key) hg (hdir.grows hfirstFiled.laid.grows)
      (.inl ⟨⟨key,hkey,.inr rfl⟩,hscopeText⟩) hsecond
  have hlast : Filed dir g h second fin :=
    .qualifiers hg (hdir.grows (hfirstFiled.trans hsecondFiled).laid.grows) hqs hrest
  refine ⟨(hfirstFiled.trans hsecondFiled).trans hlast,fun part hpart => ?_⟩
  rcases hpart with rfl | rfl
  · refine ((hsecondFiled.trans hlast).told _ ⟨key,hkey,.inl rfl⟩).there ⟨_,?_,hunitText⟩
    exact (Files.write_ok (Save.onFiles_ok hfirst).1).2.1
  · refine (hlast.told _ ⟨key,hkey,.inr rfl⟩).there ⟨_,?_,hscopeText⟩
    exact (Files.write_ok (Save.onFiles_ok hsecond).1).2.1

theorem compileKey {key : Key} {b : Binding Value} (hg : g.FiledApart)
    (hdir : site.files.Enters dir) (hb : g.get? key = some b)
    (hrun : compileKey ⟨dir,g⟩ key b site = (.ok (),fin)) :
    Filed dir g site.heap site fin ∧ Told dir g site.heap fin.files key := by
  obtain ⟨code,mid,hunit,hsave⟩ := compileKey_ok hrun
  have hheap := Compile.unitOf_heap g b site
  have hfiles := Compile.unitOf_files g b site
  rw [hunit] at hheap hfiles
  obtain ⟨hfiled,htold⟩ := saveUnit hg (hfiles ▸ hdir) hb rfl hunit hsave
  exact ⟨⟨hfiled.heap.trans hheap,hfiles ▸ hfiled.laid,hfiles ▸ hfiled.told⟩,htold⟩

/-- The induction is on the keys: the files of the first one stay or are written anew. -/
theorem compileKeys {keys : List Key} (hg : g.FiledApart) (hdir : site.files.Enters dir)
    (hrun : compileKeys ⟨dir,g⟩ keys site = (.ok (),fin)) :
    Filed dir g site.heap site fin ∧
      ∀ key ∈ keys, g.has key = true → Told dir g site.heap fin.files key := by
  induction keys generalizing site with
  | nil =>
    obtain rfl : site = fin := (Prod.mk.inj hrun).2
    exact ⟨.refl site,nofun⟩
  | cons key rest ih =>
    obtain ⟨logged,hlog,hrest⟩ := compileKeys_cons hrun
    have hlogged : Filed dir g site.heap site logged := .log hg hlog
    have hdirLogged := hdir.grows hlogged.laid.grows
    rcases hrest with ⟨hnone,hrest⟩ | ⟨b,saved,hb,hkey,hrest⟩
    · obtain ⟨hfiled,htold⟩ := ih hdirLogged hrest
      rw [hlogged.heap] at hfiled htold
      refine ⟨hlogged.trans hfiled,List.forall_mem_cons.mpr ⟨fun hhas => ?_,htold⟩⟩
      obtain ⟨b,hb⟩ := Graph.get?_of_has hhas
      cases hnone.symm.trans hb
    · obtain ⟨hsaved,hthere⟩ := compileKey hg hdirLogged hb hkey
      obtain ⟨hfiled,htold⟩ := ih (hdirLogged.grows hsaved.laid.grows) hrest
      rw [hsaved.heap] at hfiled htold
      rw [hlogged.heap] at hsaved hthere hfiled htold
      exact ⟨(hlogged.trans hsaved).trans hfiled,
        List.forall_mem_cons.mpr ⟨fun hhas => hfiled.there hhas hthere,htold⟩⟩

end Filed

theorem log_canHold {b : Batch} {text : String} (hrun : b.log text site = (.ok (),fin)) :
    site.files.canHold (Layout.logPath b.dir) = true := by
  have happend := (Save.onFiles_ok hrun).1
  have hget : (get : FileWork Files) site.files = (.ok site.files,site.files) := rfl
  rw [Files.append,run_bind hget] at happend
  by_contra hno
  rw [if_neg hno] at happend
  cases congrArg Prod.fst happend

/-- The graph is there after it was saved: it was there before, or there is room for it. -/
theorem saveGraph_there {text : String} (hdir : site.files.Enters dir)
    (hroom : (Path.parentText (Layout.modulePath dir)).utf8ByteSize + Files.temporaryExcess ≤
      Path.longest)
    (hspeak : Path.unspeakable (Layout.modulePath dir) = false)
    (hsaved : Save.graphText g site = (.ok text,site))
    (hmodule : site.files.exists? (Layout.modulePath dir) = false ∨
      site.files.status (Layout.modulePath dir) = .file text)
    (hrun : (Save.graph dir g site).2 = fin) :
    Laid dir (· = Path.ofText (Layout.modulePath dir)) site.files fin.files ∧
      fin.files.status (Layout.modulePath dir) = .file text := by
  have hget : (get : Work Site) site = (.ok site,site) := rfl
  rw [Save.graph,run_bind hget] at hrun
  cases hexists : site.files.exists? (Layout.modulePath dir) with
  | true =>
    rw [hexists] at hrun hmodule
    obtain rfl : site = fin := hrun
    exact ⟨.refl _,hmodule.resolve_left (by simp)⟩
  | false =>
    obtain ⟨fs,hwrite,_⟩ := (Files.writable_new hdir moduleName_ordinary hroom hspeak
      (by decide) hexists).write text
    have hon : Work.onFiles (Files.write (Layout.modulePath dir) text) site =
        (.ok (),{ site with files := fs }) := by
      rw [onFiles_run,Layout.modulePath,hwrite]
    have hlaid := Laid.write_join hdir moduleName_ordinary text
    rw [hexists,if_neg (by simp),run_bind hsaved,run_bind hon] at hrun
    rw [hwrite] at hlaid
    obtain rfl : { site with files := fs } = fin := hrun
    exact ⟨hlaid,Files.write_status moduleName_ordinary hwrite⟩

/-- A whole compile that succeeds leaves the files of all bound keys, if these are filed apart. -/
theorem compile_told {b : Batch} (hg : b.graph.FiledApart) (hrun : b.compile start = (.ok (),fin))
    (key : Key) (hkey : b.graph.has key = true) : Told b.dir b.graph start.heap fin.files key := by
  obtain ⟨logged,saved,woven,hlog,hkeys,hpointcuts,hgraph⟩ := compile_ok hrun
  have hdir := Enters.of_canHold logName_ordinary (log_canHold hlog)
  have hlogged : Filed b.dir b.graph start.heap start logged := .log hg hlog
  obtain ⟨-,htold⟩ := Filed.compileKeys hg (hdir.grows hlogged.laid.grows) hkeys
  rw [hlogged.heap] at htold
  have hwoven := (write_written (Layout.pointcutsPath b.dir) (pointcutsText b.graph) saved
    (.refl saved)).1
  have hfin := (saveGraph_written b.dir b.graph woven (.refl woven)).1
  rw [hpointcuts] at hwoven
  rw [hgraph] at hfin
  intro part hpart
  obtain ⟨binding,hb⟩ := Graph.get?_of_has hkey
  obtain ⟨text,hfind,hdescribes⟩ := htold key (mem_sortedKeys hb) hkey part hpart
  have hslashless := Part.Bound.slashless hg ⟨key,hkey,hpart⟩
  have htemporary := Files.ofText_not_temporary (part.path b.dir)
  refine ⟨text,?_,hdescribes⟩
  rw [hfin.keeps _ htemporary (path_ne moduleName_ordinary (by decide) hslashless).symm,
    hwoven.keeps _ htemporary (path_ne pointcutsName_ordinary (by decide) hslashless).symm]
  exact hfind

/-- What a whole compile has filed away: the files of each bound key, the pointcuts and the
graph. -/
structure FiledAll (b : Batch) (h : Heap) (text : String) (fs : Files) : Prop where
  told : ∀ key, b.graph.has key = true → Told b.dir b.graph h fs key
  pointcuts : fs.status (Layout.pointcutsPath b.dir) = .file (pointcutsText b.graph)
  graph : fs.status (Layout.modulePath b.dir) = .file text

theorem module_ne_pointcuts : Path.ofText (Path.join dir "_module.json") ≠
    Path.ofText (Layout.pointcutsPath dir) := by
  rw [Layout.pointcutsPath,Path.ofText_join _ moduleName_ordinary,
    Path.ofText_join _ pointcutsName_ordinary]
  simp

/-- A whole compile that succeeds files everything away, and the graph with it if it has a text and
no other graph was there. -/
theorem compile_filed {b : Batch} {text : String} (hg : b.graph.FiledApart)
    (hrun : b.compile start = (.ok (),fin))
    (hsaved : ∀ site : Site, site.heap = start.heap → Save.graphText b.graph site = (.ok text,site))
    (hmodule : start.files.exists? (Layout.modulePath b.dir) = false ∨
      start.files.status (Layout.modulePath b.dir) = .file text) :
    b.FiledAll start.heap text fin.files := by
  obtain ⟨logged,saved,woven,hlog,hkeys,hpointcuts,hgraph⟩ := compile_ok hrun
  have hholds := log_canHold hlog
  have hdir := Enters.of_canHold logName_ordinary hholds
  have hlogged : Filed b.dir b.graph start.heap start logged := .log hg hlog
  have hdirLogged := hdir.grows hlogged.laid.grows
  obtain ⟨hfiled,-⟩ := Filed.compileKeys hg hdirLogged hkeys
  rw [hlogged.heap] at hfiled
  have hunits := hlogged.trans hfiled
  have hdirSaved := hdir.grows hunits.laid.grows
  obtain ⟨hwrite,hwoven⟩ := Save.onFiles_ok hpointcuts
  have hpointcutsThere := Files.write_status pointcutsName_ordinary hwrite
  have hlaid := Laid.write_join hdirSaved pointcutsName_ordinary (pointcutsText b.graph)
  rw [← Layout.pointcutsPath,hwrite] at hlaid
  have hdirWoven := hdirSaved.grows hlaid.grows
  have hmoduleWoven : woven.files.status (Layout.modulePath b.dir) =
      start.files.status (Layout.modulePath b.dir) := by
    rw [Layout.modulePath,hlaid.status hdirSaved moduleName_ordinary (by decide) module_ne_pointcuts,
      hunits.laid.status hdir moduleName_ordinary (by decide)
        (not_ours moduleName_ordinary (by decide) (by decide))]
  have hheapWoven : woven.heap = start.heap := by rw [hwoven,hunits.heap]
  have hspeak : Path.unspeakable (Layout.modulePath b.dir) = false :=
    Files.speakable_join_shorter logName_ordinary moduleName_ordinary (by decide) (by decide)
      (Files.speakable_of_canHold hholds)
  have hroom : (Path.parentText (Layout.modulePath b.dir)).utf8ByteSize +
      Files.temporaryExcess ≤ Path.longest := by
    rw [Layout.modulePath,Files.parentText_join_eq b.dir moduleName_ordinary pointcutsName_ordinary]
    exact (Files.write_ok hwrite).1.fits
  have hmoduleWoven' : woven.files.exists? (Layout.modulePath b.dir) = false ∨
      woven.files.status (Layout.modulePath b.dir) = .file text := by
    rw [Files.exists?,hmoduleWoven,← Files.exists?]
    exact hmodule
  obtain ⟨hlast,hmoduleThere⟩ :=
    saveGraph_there hdirWoven hroom hspeak (hsaved woven hheapWoven) hmoduleWoven' hgraph
  refine ⟨compile_told hg hrun,?_,hmoduleThere⟩
  rw [← hpointcutsThere]
  exact hlast.status hdirWoven pointcutsName_ordinary (by decide) module_ne_pointcuts.symm

end Batch

namespace Save

variable {dir : String} {key : Key} {code : Code} {site : Site}

theorem qualifiers_maintains {I : Site → Prop} {qs : List Qualifier} (hwrite : ∀ q ∈ qs, ∀ text,
      (Work.onFiles (Files.write (Layout.qualifierPath dir q.1) text)).Maintains I fun _ => True) :
    (qs.forM (qualifier dir)).Maintains I fun _ => True := by
  induction qs with
  | nil => exact .pure trivial
  | cons q rest ih =>
    obtain ⟨hq,hrest⟩ := List.forall_mem_cons.mp hwrite
    have htext : (valueText q.2).Maintains I fun _ => True := fun site hsite =>
      ⟨(valueText_snd q.2 site).symm ▸ hsite,fun _ _ => trivial⟩
    have hfirst : (qualifier dir q).Maintains I fun _ => True := htext.bind fun text _ => hq text
    rw [qualifiers_cons]
    exact hfirst.bind fun _ _ => ih hrest

/-- A file of a unit may be written where its path may change. -/
theorem write_laid {fs : Files} {changed : Path → Prop} (hdir : fs.Enters dir) (part : Part)
    (hpart : part.Slashless) (hchanged : changed (Path.ofText (part.path dir))) (text : String) :
    (Work.onFiles (Files.write (part.path dir) text)).Maintains
      (fun after => Laid dir changed fs after.files) fun _ => True := by
  refine fun after hafter => ⟨hafter.trans ?_,fun _ _ => trivial⟩
  rw [Work.onFiles_run]
  refine (Laid.write_part (hdir.grows hafter.grows) hpart text).imp fun path hpath => ?_
  rw [hpath]
  exact hchanged

/-- What is saved besides the text of a unit. -/
def besides (dir : String) (key : Key) (code : Code) : Work Unit := do
  Work.onFiles (Files.write (Layout.metaPath dir key) (scopeToJson code.shared).compact)
  code.qualifiers.forM (qualifier dir)

theorem unit_eq (dir : String) (key : Key) (code : Code) : unit dir key code =
    (Work.onFiles (Files.write (Layout.unitPath dir key) code.source) >>= fun _ =>
      besides dir key code) := rfl

/-- Files are laid into the directory, even if one of them cannot be saved. -/
theorem besides_laid {fs : Files} {changed : Path → Prop} (hdir : fs.Enters dir)
    (hparts : ∀ part ∈ (code.parts key).tail,
      part.Slashless ∧ changed (Path.ofText (part.path dir))) :
    (besides dir key code).Maintains (fun after => Laid dir changed fs after.files)
      fun _ => True := by
  rw [Code.parts,List.tail_cons,List.forall_mem_cons] at hparts
  obtain ⟨⟨hscope,hscopePath⟩,hqualifiers⟩ := hparts
  have hwrite := write_laid hdir (.scope key) hscope hscopePath (scopeToJson code.shared).compact
  simp only [Part.path] at hwrite
  unfold besides
  refine hwrite.bind fun _ _ => qualifiers_maintains fun q hq text => ?_
  obtain ⟨hqualifier,hpath⟩ := hqualifiers (.qualifier q.1) (List.mem_map_of_mem hq)
  have hwrite := write_laid hdir (.qualifier q.1) hqualifier hpath text
  simp only [Part.path] at hwrite
  exact hwrite

/-- The path is that of a file of the unit. -/
def Own (dir : String) (key : Key) (code : Code) (path : Path) : Prop :=
  ∃ part ∈ code.parts key, path = Path.ofText (part.path dir)

/-- Saving a unit changes its own files alone, even if one of them cannot be saved. -/
theorem unit_lays (hdir : site.files.Enters dir) (hparts : ∀ part ∈ code.parts key, part.Slashless) :
    Laid dir (Own dir key code) site.files (unit dir key code site).2.files := by
  have hown {part : Part} (hpart : part ∈ code.parts key) :
      Own dir key code (Path.ofText (part.path dir)) := ⟨part,hpart,rfl⟩
  have hunit := hparts (.unit key) List.mem_cons_self
  have hwrite := write_laid hdir (.unit key) hunit (hown List.mem_cons_self) code.source
  simp only [Part.path] at hwrite
  have hbesides : (besides dir key code).Maintains
      (fun after => Laid dir (Own dir key code) site.files after.files) fun _ => True :=
    besides_laid hdir fun part hpart =>
      ⟨hparts part (List.mem_of_mem_tail hpart),hown (List.mem_of_mem_tail hpart)⟩
  rw [unit_eq]
  exact ((hwrite.bind fun _ _ => hbesides) site (.refl _)).1

theorem unit_laid (hdir : site.files.Enters dir) (hparts : ∀ part ∈ code.parts key, part.Slashless) :
    Laid dir (Batch.Ours dir) site.files (unit dir key code site).2.files :=
  (unit_lays hdir hparts).imp fun _ ⟨part,hpart,hpath⟩ => .inr ⟨part,hparts part hpart,hpath⟩

/-- Once the unit has been written, it stays as it is, whatever becomes of the rest. -/
theorem unit_filed {fs : Files} (hparts : ∀ part ∈ code.parts key, part.Slashless)
    (hwrite : Files.write (Layout.unitPath dir key) code.source site.files = (.ok (),fs)) :
    (unit dir key code site).2.files.status (Layout.unitPath dir key) = .file code.source := by
  have hunit := hparts (.unit key) List.mem_cons_self
  have hname : Path.Ordinary (Layout.unitName key) := hunit.ordinary
  have hfirst : Work.onFiles (Files.write (Layout.unitPath dir key) code.source) site =
      (.ok (),{ site with files := fs }) := by rw [Work.onFiles_run,hwrite]
  have hthere := Files.write_status hname hwrite
  have hdir : fs.Enters dir := .of_canHold hname (by rw [Files.canHold,hthere])
  have helsewhere : ∀ part ∈ (code.parts key).tail, part.Slashless ∧
      Path.ofText (part.path dir) ≠ Path.ofText (Layout.unitPath dir key) := by
    intro part hpart
    have hslashless := hparts part (List.mem_of_mem_tail hpart)
    refine ⟨hslashless,fun hpath => ?_⟩
    have hwithin := (Part.name_of_path hslashless.ordinary hunit.ordinary hpath).1
    rw [Code.parts,List.tail_cons,List.mem_cons,List.mem_map] at hpart
    rcases hpart with rfl | ⟨q,_,rfl⟩ <;> simp [Part.within] at hwithin
  have hbesides : (besides dir key code).Maintains
      (fun after => Laid dir (· ≠ Path.ofText (Layout.unitPath dir key)) fs after.files)
      fun _ => True := besides_laid hdir helsewhere
  have hlaid := (hbesides { site with files := fs } (.refl _)).1
  rw [unit_eq,Work.run_bind hfirst,← hthere]
  exact hlaid.status hdir hname (Part.unit_not_subdirectory key) fun h => h rfl

/-- A save that fails for want of a JSON form leaves the unit, which has been written first. -/
theorem unit_left {fin : Site} (hparts : ∀ part ∈ code.parts key, part.Slashless)
    (hrun : unit dir key code site = (.error .malformed,fin)) :
    fin.files.status (Layout.unitPath dir key) = .file code.source := by
  obtain ⟨fs,_,⟨_,⟨path,hwrite⟩,_⟩ | ⟨_,hwrite,_⟩⟩ :=
    Files.write_cases (Layout.unitPath dir key) code.source site.files
  · have hfirst : Work.onFiles (Files.write (Layout.unitPath dir key) code.source) site =
        (.error (.notWritable path),{ site with files := fs }) := by rw [Work.onFiles_run,hwrite]
    rw [unit_eq,Work.run_bind_error _ hfirst] at hrun
    cases congrArg Prod.fst hrun
  · have hthere := unit_filed hparts hwrite
    rwa [hrun] at hthere

/-- So does a save that succeeds. -/
theorem unit_saved {fin : Site} (hparts : ∀ part ∈ code.parts key, part.Slashless)
    (hrun : unit dir key code site = (.ok (),fin)) :
    fin.files.status (Layout.unitPath dir key) = .file code.source := by
  have hsteps := hrun
  rw [unit_eq] at hsteps
  obtain ⟨_,mid,hfirst,_⟩ := Work.run_bind_ok hsteps
  have hwrite : Files.write (Layout.unitPath dir key) code.source site.files = (.ok (),mid.files) :=
    (onFiles_ok hfirst).1
  have hthere := unit_filed hparts hwrite
  rwa [hrun] at hthere

end Save

namespace Demand

open Work Compile

variable {dir : String} {g : Graph} {scope : Option ScopeOf} {key : Key} {site : Site}

/-- A compile on demand lays files into the directory, even if it fails. -/
theorem compile_laid (hscope : Asks dir g scope)
    (hnull : ∀ interface, g.get? key ≠ some (.nullObject interface))
    (hdir : site.files.Enters dir) (hkey : '/' ∉ key.stem.toList)
    (hplain : Plain dir g scope key site) :
    Laid dir (Batch.Ours dir) site.files (compile dir g scope key site).2.files := by
  have hfiles := codeOf_files hscope hnull site
  rw [compile_eq]
  cases hcode : codeOf dir g scope key site with
  | mk answer mid =>
    rw [hcode] at hfiles
    cases answer with
    | error f =>
      rw [run_bind_error _ hcode,hfiles]
      exact .refl _
    | ok code =>
      dsimp only at hfiles
      rw [run_bind hcode,← hfiles]
      rw [← hfiles] at hdir
      refine Save.unit_laid hdir fun part hpart => ?_
      simp only [Code.parts,List.mem_cons,List.mem_map] at hpart
      rcases hpart with rfl | rfl | ⟨q,hq,rfl⟩
      · simpa [Part.Slashless,Part.name,Layout.unitName]
      · simpa [Part.Slashless,Part.name]
      · exact hplain code mid hcode q hq

end Demand
end Wiring
