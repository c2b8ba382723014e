import Mathlib
import Wiring.Compile.Batch
import Wiring.Proofs.Compile.Parts
import Wiring.Proofs.Compile.Repeating

/-!
# What a whole compile leaves behind

The units of a graph are saved one after another into one directory. Where keys have stems of
their own and qualifiers of one file name have one payload, files that are written under one
path have one text; so what is written for a key stays, whatever is compiled after it, and
all of it is there when the compile is over.
-/
namespace Wiring

namespace Compile

open Work

variable {g : Graph} {scope : Option ScopeOf}

section Qualifiers

/-- The qualifier is that of one of the arguments. -/
def QualifierOf (as : List (Argument Value)) (q : Qualifier) : Prop :=
  ∃ a ∈ as, a.parameter = q.1 ∧ a.qualifier = some q.2

theorem argument_qualifier (a : Argument Value) :
    (argument g scope a).Ensures fun r => ∀ q ∈ r.2, a.parameter = q.1 ∧ a.qualifier = some q.2 := by
  unfold argument
  split
  · exact .pure nofun
  · cases a.set with
    | some interface => exact (Ensures.any _).bind fun _ _ => .pure nofun
    | none =>
      cases g.get? a.key with
      | none => exact (Ensures.any _).bind fun _ _ => .pure nofun
      | some b =>
        cases b with
        | literal v => exact (Ensures.any _).bind fun _ _ => .pure nofun
        | provider plan shared context =>
          refine .pure fun q hq => ?_
          obtain ⟨v,hv,rfl⟩ := List.mem_map.mp hq
          exact ⟨rfl,Option.mem_toList.mp hv⟩
        | construction plan => exact .pure nofun
        | nullObject interface => exact .pure nofun

theorem arguments_qualifiers (as : List (Argument Value)) :
    (arguments g scope as).Ensures fun r => ∀ q ∈ r.2, QualifierOf as q := by
  induction as with
  | nil => exact .pure nofun
  | cons a rest ih =>
    unfold arguments
    refine (argument_qualifier a).bind fun r hr => ih.bind fun r' hr' => .pure fun q hq => ?_
    rcases List.mem_append.mp hq with hq | hq
    · exact ⟨a,List.mem_cons_self,hr q hq⟩
    · obtain ⟨a',ha',hq'⟩ := hr' q hq
      exact ⟨a',List.mem_cons_of_mem _ ha',hq'⟩

theorem setters_qualifiers (ss : List (SetterCall Value)) :
    (setters g scope ss).Ensures fun r =>
      ∀ q ∈ r.2, QualifierOf (ss.flatMap SetterCall.arguments) q := by
  induction ss with
  | nil => exact .pure nofun
  | cons s rest ih =>
    have hsetter : (setter g scope s).Ensures fun r => ∀ q ∈ r.2, QualifierOf s.arguments q := by
      unfold setter
      refine (arguments_qualifiers s.arguments).attempt.bind fun answer ha => ?_
      cases answer with
      | ok r => exact .pure (ha r rfl)
      | error f =>
        dsimp only
        split
        · exact .pure nofun
        · exact .throw f
    unfold setters
    refine hsetter.bind fun r hr => ih.bind fun r' hr' => .pure fun q hq => ?_
    rw [List.flatMap_cons]
    rcases List.mem_append.mp hq with hq | hq
    · obtain ⟨a,ha,hq⟩ := hr q hq
      exact ⟨a,List.mem_append_left _ ha,hq⟩
    · obtain ⟨a,ha,hq⟩ := hr' q hq
      exact ⟨a,List.mem_append_right _ ha,hq⟩

theorem factory_qualifiers (plan : Plan Value) :
    (factory g scope plan).Ensures fun r => ∀ q ∈ r.2, QualifierOf plan.allArguments q := by
  unfold factory
  refine (arguments_qualifiers plan.arguments).bind fun r hr => ?_
  refine (setters_qualifiers plan.setters).bind fun r' hr' => .pure fun q hq => ?_
  rcases List.mem_append.mp hq with hq | hq
  · obtain ⟨a,ha,hq⟩ := hr q hq
    exact ⟨a,List.mem_append_left _ ha,hq⟩
  · obtain ⟨a,ha,hq⟩ := hr' q hq
    exact ⟨a,List.mem_append_right _ ha,hq⟩

/-- The qualifiers kept for a unit are qualifiers of arguments in its plan. -/
theorem unitOf_qualifiers (b : Binding Value) :
    (unitOf g scope b).Ensures fun code => ∀ q ∈ code.qualifiers, QualifierOf b.allArguments q := by
  cases b with
  | literal v => exact (Ensures.any _).bind fun _ _ => .pure nofun
  | construction plan => exact (factory_qualifiers plan).bind fun r hr => .pure hr
  | provider plan shared context => exact (factory_qualifiers plan).bind fun r hr => .pure hr
  | nullObject interface => exact .throw _

end Qualifiers

end Compile

namespace Container

/-- The qualifiers given for parameters. -/
def qualifiers (g : Graph) : List Qualifier :=
  g.bindings.flatMap fun row => row.2.allArguments.filterMap fun a =>
    a.qualifier.map fun v => (a.parameter,v)

/-- The classes that are looked up for arguments whose keys the graph does not bind. -/
def outsiders (g : Graph) : List String :=
  g.bindings.flatMap fun row =>
    (row.2.allArguments.filter (Compile.looksUp g)).map fun a => a.key.interface

/-- Keys have stems of their own, and qualifiers of one file name have one payload. -/
structure Separate (g : Graph) (h : Heap) : Prop where
  stems : ∀ key ∈ g.bindings.keys, ∀ key' ∈ g.bindings.keys, key.stem = key'.stem → key = key'
  payloads : ∀ q ∈ g.qualifiers, ∀ q' ∈ g.qualifiers,
    q.1.fileName = q'.1.fileName → h.unfold q.2 = h.unfold q'.2

/-- The files are named in the directories that they are meant for: no name has a slash. -/
structure Slashless (g : Graph) : Prop where
  stems : ∀ key ∈ g.bindings.keys, '/' ∉ key.stem.toList
  qualifiers : ∀ q ∈ g.qualifiers, '/' ∉ q.1.fileName.toList

variable {g : Graph} {key : Key} {b : Binding Value}

theorem mem_keys_of_get? (hb : g.get? key = some b) : key ∈ g.bindings.keys :=
  List.mem_map_of_mem (f := Prod.fst) (Table.mem_of_find? hb)

theorem mem_qualifiers {q : Qualifier} (hb : g.get? key = some b)
    (hq : Compile.QualifierOf b.allArguments q) : q ∈ g.qualifiers := by
  obtain ⟨a,ha,hp,hv⟩ := hq
  refine List.mem_flatMap.mpr ⟨(key,b),Table.mem_of_find? hb,List.mem_filterMap.mpr ⟨a,ha,?_⟩⟩
  rw [hv,hp]
  rfl

theorem within_outsiders (hb : g.get? key = some b) :
    Compile.Within g (· ∈ g.outsiders) b.allArguments := fun a ha hlooks =>
  List.mem_flatMap.mpr ⟨(key,b),Table.mem_of_find? hb,
    List.mem_map.mpr ⟨a,List.mem_filter.mpr ⟨ha,hlooks⟩,rfl⟩⟩

end Container

namespace Batch

open Work

variable {dir : String} {g : Graph} {start : Site}

/-- The file is one of those that the unit of a key has, when it is compiled at the start. -/
def Due (g : Graph) (start : Site) (key : Key) (f : Part × String) : Prop :=
  ∃ b code files, g.get? key = some b ∧ Compile.unitOf g none b start = (.ok code,start) ∧
    code.files? start.heap key = some files ∧ f ∈ files

theorem mem_qualifiers_of_due {key : Key} {b : Binding Value} {code : Code} {q : Qualifier}
    (hb : g.get? key = some b) (hcode : Compile.unitOf g none b start = (.ok code,start))
    (hq : q ∈ code.qualifiers) : q ∈ g.qualifiers :=
  Container.mem_qualifiers hb (Compile.unitOf_qualifiers b start code start hcode q hq)

theorem Due.slashless (hs : g.Slashless) {key : Key} {f : Part × String}
    (h : Due g start key f) : f.1.Slashless := by
  obtain ⟨b,code,files,hb,hcode,hfiles,hf⟩ := h
  have hstem := hs.stems key (Container.mem_keys_of_get? hb)
  obtain ⟨part,text⟩ := f
  cases Code.holds_of_mem hfiles hf with
  | unit => simp [Part.Slashless,Part.name,Layout.unitName,hstem]
  | scope => simp [Part.Slashless,Part.name,hstem]
  | qualifier hq _ => exact hs.qualifiers _ (mem_qualifiers_of_due hb hcode hq)

/-- Files that are due under one path have one text. -/
theorem Due.agree (hg : g.Separate start.heap) (hs : g.Slashless) {key key' : Key}
    {f f' : Part × String} (h : Due g start key f) (h' : Due g start key' f')
    (hpath : Path.ofText (f.1.path dir) = Path.ofText (f'.1.path dir)) : f.2 = f'.2 := by
  obtain ⟨hwithin,hname⟩ := Part.name_of_path (h.slashless hs).ordinary
    (h'.slashless hs).ordinary hpath
  obtain ⟨b,code,files,hb,hcode,hfiles,hf⟩ := h
  obtain ⟨b',code',files',hb',hcode',hfiles',hf'⟩ := h'
  have hsame (hstem : key.stem = key'.stem) : code = code' := by
    obtain rfl := hg.stems key (Container.mem_keys_of_get? hb) key'
      (Container.mem_keys_of_get? hb') hstem
    obtain rfl := Option.some.inj (hb.symm.trans hb')
    exact Except.ok.inj (congrArg Prod.fst (hcode.symm.trans hcode'))
  have hf := Code.holds_of_mem hfiles hf
  have hf' := Code.holds_of_mem hfiles' hf'
  obtain ⟨part,text⟩ := f
  obtain ⟨part',text'⟩ := f'
  dsimp only at hf hf' hwithin hname ⊢
  cases hf with
  | unit =>
    cases hf' with
    | unit =>
      rw [hsame (String.append_left_inj _ |>.mp hname)]
    | scope => cases hwithin
    | qualifier _ _ => cases hwithin
  | scope =>
    cases hf' with
    | unit => cases hwithin
    | scope =>
      rw [hsame (String.append_left_inj _ |>.mp hname)]
    | qualifier _ _ => simp [Part.within] at hwithin
  | qualifier hq hj =>
    cases hf' with
    | unit => cases hwithin
    | scope => simp [Part.within] at hwithin
    | qualifier hq' hj' =>
      have hpayload := hg.payloads _ (mem_qualifiers_of_due hb hcode hq) _
        (mem_qualifiers_of_due hb' hcode' hq') hname
      rw [hpayload] at hj
      rw [Option.some.inj (hj.symm.trans hj')]

section Growing

variable {fs : Files} {b : Batch}

theorem onFiles_grows {w : FileWork Unit} (h : ∀ fs, Files.Grows fs (w fs).2) :
    (Work.onFiles w).Maintains (fun site => Files.Grows fs site.files) fun _ => True := by
  intro site hsite
  rw [onFiles_run]
  exact ⟨hsite.trans (h _),fun _ _ => trivial⟩

theorem heap_grows :
    Work.heap.Maintains (fun site => Files.Grows fs site.files) fun _ => True :=
  fun _ hsite => ⟨hsite,fun _ _ => trivial⟩

theorem orElse_maintains {α : Type} {I : Site → Prop} (f : Failure) (o : Option α) :
    (Work.orElse f o).Maintains I fun _ => True := by
  cases o with
  | none => exact .throw f
  | some a => exact .pure trivial

theorem saveUnit_grows (dir : String) (key : Key) (code : Code) :
    (Save.unit dir key code).Maintains (fun site => Files.Grows fs site.files) fun _ => True := by
  have hqualifiers (qs : List Qualifier) : (qs.forM (Save.qualifier dir)).Maintains
      (fun site => Files.Grows fs site.files) fun _ => True := by
    induction qs with
    | nil => exact .pure trivial
    | cons q rest ih =>
      have htext : (Save.valueText q.2).Maintains
          (fun site => Files.Grows fs site.files) fun _ => True := by
        unfold Save.valueText
        exact heap_grows.bind fun _ _ => (orElse_maintains _ _).bind fun _ _ => .pure trivial
      have hfirst : (Save.qualifier dir q).Maintains
          (fun site => Files.Grows fs site.files) fun _ => True :=
        htext.bind fun _ _ => onFiles_grows (Files.write_grows _ _)
      rw [Save.qualifiers_cons]
      exact hfirst.bind fun _ _ => ih
  unfold Save.unit
  refine (onFiles_grows (Files.write_grows _ _)).bind fun _ _ => ?_
  exact (onFiles_grows (Files.write_grows _ _)).bind fun _ _ => hqualifiers _

theorem log_grows (text : String) :
    (b.log text).Maintains (fun site => Files.Grows fs site.files) fun _ => True :=
  onFiles_grows fun fs => (Files.append_grows _ text fs).1

theorem compileKey_grows (key : Key) (binding : Binding Value) :
    (compileKey b key binding).Maintains (fun site => Files.Grows fs site.files)
      fun _ => True := by
  have hunit : (Compile.unitOf b.graph none binding).Maintains
      (fun site => Files.Grows fs site.files) fun _ => True := by
    refine fun site hsite => ⟨?_,fun _ _ => trivial⟩
    beta_reduce
    rw [Compile.unitOf_files]
    exact hsite
  unfold compileKey
  refine hunit.attempt.bind fun answer _ => ?_
  cases answer with
  | ok code => exact saveUnit_grows _ _ _
  | error f => exact (log_grows _).bind fun _ _ => .throw f

/-- Compiling keys takes no file away, even if one of them fails. -/
theorem compileKeys_grows (keys : List Key) :
    (compileKeys b keys).Maintains (fun site => Files.Grows fs site.files) fun _ => True := by
  induction keys with
  | nil => exact .pure trivial
  | cons key rest ih =>
    unfold compileKeys
    refine (log_grows _).bind fun _ _ => ?_
    cases b.graph.get? key with
    | none => exact ih
    | some binding => exact (compileKey_grows key binding).bind fun _ _ => ih

end Growing

section Running

variable {fs : Files}

/-- The heap and the registry are those of the start, and no class asked for is read. -/
def Calm (g : Graph) (start site : Site) : Prop :=
  Compile.Calm start.heap start.registry (· ∈ g.outsiders) site

theorem Calm.of_grows {site site' : Site} (h : Calm g start site') (hheap : site.heap = start.heap)
    (hregistry : site.registry = start.registry) (hgrows : Files.Grows site.files site'.files) :
    Calm g start site where
  heap := hheap
  registry := hregistry
  unread className hasked := (h.unread className hasked).imp_right fun hdirs dir hdir => by
    by_contra hno
    have hlater := hgrows.exists? (by simpa using hno)
    rw [hdirs dir hdir] at hlater
    cases hlater

/-- A unit is the same wherever it is calm. -/
theorem Calm.unitOf {key : Key} {b : Binding Value} {site site' : Site} (h : Calm g start site)
    (h' : Calm g start site') (hb : g.get? key = some b) :
    ∃ answer, Compile.unitOf g none b site = (answer,site) ∧
      Compile.unitOf g none b site' = (answer,site') := by
  have hfixed : (Compile.unitOf g none b).Fixed (Calm g start) :=
    Compile.unitOf_fixed (Container.within_outsiders hb)
  obtain ⟨answer,hall⟩ := hfixed
  exact ⟨answer,hall site h,hall site' h'⟩

/-- The text leads to none of the files of a unit. -/
theorem path_ne {x : String} (hx : Path.Ordinary x) (hlast : x.toList.getLast? ≠ some 'i')
    {part : Part} (hpart : part.Slashless) :
    Path.ofText (Path.join dir x) ≠ Path.ofText (part.path dir) := by
  intro h
  rw [Path.ofText_join dir hx,Part.ofText_path dir hpart.ordinary] at h
  have hrest := List.append_cancel_left h
  cases part with
  | unit key =>
    rw [Part.within,List.nil_append,Part.name,Layout.unitName] at hrest
    refine hlast ?_
    rw [List.singleton_inj.mp hrest,String.toList_append,List.getLast?_append]
    rfl
  | scope key => simp [Part.within] at hrest
  | qualifier p => simp [Part.within] at hrest

theorem logName_ordinary : Path.Ordinary "_compile.log" := ⟨by decide,by decide,by decide⟩

/-- What keys that are compiled one after another leave behind. -/
structure Compiled (dir : String) (g : Graph) (start : Site) (keys : List Key)
    (site fin : Site) : Prop where
  heap : fin.heap = site.heap
  registry : fin.registry = site.registry
  units : ∀ key ∈ keys, ∀ b, g.get? key = some b → ∃ code files,
    Compile.unitOf g none b start = (.ok code,start) ∧
      code.files? start.heap key = some files
  files : ∀ key ∈ keys, ∀ f, Due g start key f → Path.Holdable f.1.name ∧
    fin.files.contents.find? (Path.ofText (f.1.path dir)) = some f.2
  keeps : Files.Keeps site.files.contents fin.files.contents fun path =>
    path = Path.ofText (Layout.logPath dir) ∨
      ∃ key ∈ keys, ∃ f, Due g start key f ∧ path = Path.ofText (f.1.path dir)

theorem log_run {b : Batch} {text : String} {site site' : Site}
    (hrun : b.log text site = (.ok (),site')) : site' = { site with files := site'.files } ∧
      Files.Keeps site.files.contents site'.files.contents
        (· = Path.ofText (Layout.logPath b.dir)) := by
  obtain ⟨happend,hsame⟩ := Save.onFiles_ok hrun
  have hkeeps := (Files.append_grows (Layout.logPath b.dir) text site.files).2
  rw [happend] at hkeeps
  exact ⟨hsame,hkeeps⟩

/-- A key that compiles has its files written. -/
theorem compileKey_run {key : Key} {b : Binding Value} {site site' : Site}
    (hstart : Calm g start start) (hsite : Calm g start site) (hb : g.get? key = some b)
    (hrun : compileKey ⟨dir,g⟩ key b site = (.ok (),site')) : ∃ code files,
      Compile.unitOf g none b start = (.ok code,start) ∧
        code.files? start.heap key = some files ∧
        Files.writeAll (Save.placed dir files) site.files = (.ok (),site'.files) ∧
        site' = { site with files := site'.files } := by
  obtain ⟨answer,hunit,hunitStart⟩ := hsite.unitOf hstart hb
  have hattempt : Work.attempt (Compile.unitOf g none b) site = (.ok answer,site) := by
    rw [attempt_run,hunit]
  rw [compileKey,run_bind hattempt] at hrun
  cases answer with
  | error f =>
    obtain ⟨_,mid,_,hthrow⟩ := Work.run_bind_ok hrun
    cases congrArg Prod.fst hthrow
  | ok code =>
    obtain ⟨files,hfiles⟩ := Save.files_of_unit hrun
    dsimp only at hrun
    rw [Save.unit_run hfiles] at hrun
    rw [hsite.heap] at hfiles
    obtain ⟨hwrite,hsame⟩ := Save.onFiles_ok hrun
    exact ⟨code,files,hunitStart,hfiles,hwrite,hsame⟩

theorem compileKeys_cons {b : Batch} {key : Key} {rest : List Key} {site fin : Site}
    (hrun : compileKeys b (key :: rest) site = (.ok (),fin)) :
    ∃ logged, b.log ("Compiled: " ++ key.text ++ "\n") site = (.ok (),logged) ∧
      ((b.graph.get? key = none ∧ compileKeys b rest logged = (.ok (),fin)) ∨
        ∃ binding saved, b.graph.get? key = some binding ∧
          compileKey b key binding logged = (.ok (),saved) ∧
          compileKeys b rest saved = (.ok (),fin)) := by
  rw [compileKeys] at hrun
  obtain ⟨_,logged,hlog,hrest⟩ := Work.run_bind_ok hrun
  refine ⟨logged,hlog,?_⟩
  cases hb : b.graph.get? key with
  | none =>
    rw [hb] at hrest
    exact .inl ⟨rfl,hrest⟩
  | some binding =>
    rw [hb] at hrest
    obtain ⟨_,saved,hkey,hrest⟩ := Work.run_bind_ok hrest
    exact .inr ⟨binding,saved,rfl,hkey,hrest⟩

namespace Compiled

variable {key : Key} {keys : List Key} {site mid fin : Site}

theorem logged {text : String} (h : Compiled dir g start keys mid fin)
    (hlog : log ⟨dir,g⟩ text site = (.ok (),mid)) : Compiled dir g start keys site fin := by
  obtain ⟨hmid,hkeeps⟩ := log_run hlog
  refine ⟨by rw [h.heap,hmid],by rw [h.registry,hmid],h.units,h.files,?_⟩
  exact (hkeeps.imp fun _ => .inl).trans h.keeps

theorem keepsMore (h : Compiled dir g start keys site fin) (key : Key) :
    Files.Keeps site.files.contents fin.files.contents fun path =>
      path = Path.ofText (Layout.logPath dir) ∨
        ∃ key' ∈ key :: keys, ∃ f, Due g start key' f ∧ path = Path.ofText (f.1.path dir) :=
  h.keeps.imp fun _ hp => hp.imp_right fun ⟨key',hkey',hdue⟩ =>
    ⟨key',List.mem_cons_of_mem _ hkey',hdue⟩

theorem skip (h : Compiled dir g start keys site fin) (hnone : g.get? key = none) :
    Compiled dir g start (key :: keys) site fin := by
  refine ⟨h.heap,h.registry,List.forall_mem_cons.mpr ⟨fun b hb => ?_,h.units⟩,
    List.forall_mem_cons.mpr ⟨fun f hf => ?_,h.files⟩,h.keepsMore key⟩
  · cases hnone.symm.trans hb
  · obtain ⟨b,_,_,hb,_⟩ := hf
    cases hnone.symm.trans hb

/-- What is written for the first key stays, because files that are due under one path have
one text. -/
theorem cons (hg : g.Separate start.heap) (hs : g.Slashless)
    (h : Compiled dir g start keys mid fin) {b : Binding Value} {code : Code}
    {files : List (Part × String)} (hb : g.get? key = some b)
    (hunit : Compile.unitOf g none b start = (.ok code,start))
    (hfiles : code.files? start.heap key = some files)
    (hwrite : Files.writeAll (Save.placed dir files) site.files = (.ok (),mid.files))
    (hmid : mid = { site with files := mid.files }) :
    Compiled dir g start (key :: keys) site fin := by
  have hdue : ∀ f ∈ files, Due g start key f := fun f hf => ⟨b,code,files,hb,hunit,hfiles,hf⟩
  have honly : ∀ f, Due g start key f → f ∈ files := by
    rintro f ⟨b',code',files',hb',hunit',hfiles',hf⟩
    obtain rfl := Option.some.inj (hb.symm.trans hb')
    obtain rfl := Except.ok.inj (congrArg Prod.fst (hunit.symm.trans hunit'))
    obtain rfl := Option.some.inj (hfiles.symm.trans hfiles')
    exact hf
  have hagree : ∀ a ∈ Save.placed dir files, ∀ b ∈ Save.placed dir files,
      Path.ofText a.1 = Path.ofText b.1 → a.2 = b.2 := by
    intro a ha b hb hpath
    obtain ⟨f,hf,rfl⟩ := List.mem_map.mp ha
    obtain ⟨f',hf',rfl⟩ := List.mem_map.mp hb
    exact (hdue f hf).agree hg hs (hdue f' hf') hpath
  obtain ⟨hthere,hkeeps⟩ := Files.writeAll_ok hagree hwrite
  refine ⟨by rw [h.heap,hmid],by rw [h.registry,hmid],
    List.forall_mem_cons.mpr ⟨fun b' hb' => ?_,h.units⟩,
    List.forall_mem_cons.mpr ⟨fun f hf => ?_,h.files⟩,?_⟩
  · obtain rfl := Option.some.inj (hb.symm.trans hb')
    exact ⟨code,files,hunit,hfiles⟩
  · obtain ⟨⟨fs,hplace⟩,hfind⟩ := hthere (f.1.path dir,f.2) (List.mem_map_of_mem (honly f hf))
    refine ⟨Part.holdable (hf.slashless hs).ordinary hplace,?_⟩
    by_cases hagain : Path.ofText (f.1.path dir) = Path.ofText (Layout.logPath dir) ∨
        ∃ key' ∈ keys, ∃ f', Due g start key' f' ∧
          Path.ofText (f.1.path dir) = Path.ofText (f'.1.path dir)
    · rcases hagain with hlog | ⟨key',hkey',f',hf',hpath⟩
      · exact absurd hlog.symm (path_ne logName_ordinary (by decide) (hf.slashless hs))
      · rw [hpath,(h.files key' hkey' f' hf').2,hf.agree hg hs hf' hpath]
    · rw [h.keeps _ (Files.ofText_not_temporary _) hagain]
      exact hfind
  · refine Files.Keeps.trans (hkeeps.imp fun path hp => ?_) (h.keepsMore key)
    obtain ⟨a,ha,hpath⟩ := hp
    obtain ⟨f,hf,rfl⟩ := List.mem_map.mp ha
    exact .inr ⟨key,List.mem_cons_self,f,hdue f hf,hpath⟩

end Compiled

/-- All files of keys that are compiled one after another are there in the end. The induction
is on the keys. -/
theorem compileKeys_run (hg : g.Separate start.heap) (hs : g.Slashless)
    (hstart : Calm g start start) {last : Site} (hlast : Calm g start last) {keys : List Key}
    {site fin : Site} (hheap : site.heap = start.heap) (hregistry : site.registry = start.registry)
    (hrun : compileKeys ⟨dir,g⟩ keys site = (.ok (),fin))
    (hgrows : Files.Grows fin.files last.files) : Compiled dir g start keys site fin := by
  induction keys generalizing site with
  | nil =>
    obtain rfl : site = fin := (Prod.mk.inj hrun).2
    exact ⟨rfl,rfl,nofun,nofun,.refl _⟩
  | cons key rest ih =>
    obtain ⟨logged,hlog,hrest⟩ := compileKeys_cons hrun
    obtain ⟨hlogged,_⟩ := log_run hlog
    have hheap' : logged.heap = start.heap := by rw [hlogged,hheap]
    have hregistry' : logged.registry = start.registry := by rw [hlogged,hregistry]
    refine Compiled.logged ?_ hlog
    rcases hrest with ⟨hnone,hrest⟩ | ⟨b,saved,hb,hkey,hrest⟩
    · exact (ih hheap' hregistry' hrest).skip hnone
    · have hhead := compileKey_grows (b := ⟨dir,g⟩) key b logged (.refl logged.files)
      have htail := compileKeys_grows (b := ⟨dir,g⟩) rest saved (.refl saved.files)
      rw [hkey] at hhead
      rw [hrest] at htail
      have hcalm : Calm g start logged :=
        hlast.of_grows hheap' hregistry' ((hhead.1.trans htail.1).trans hgrows)
      obtain ⟨code,files,hunit,hfiles,hwrite,hsaved⟩ := compileKey_run hstart hcalm hb hkey
      have hdone := ih (by rw [hsaved,hheap']) (by rw [hsaved,hregistry']) hrest
      exact hdone.cons hg hs hb hunit hfiles hwrite hsaved

end Running

section Whole

variable {changed : Path → Prop}

/-- Files have been written at certain paths, and nothing else has changed. -/
structure Written (start : Site) (changed : Path → Prop) (site : Site) : Prop where
  heap : site.heap = start.heap
  registry : site.registry = start.registry
  grows : Files.Grows start.files site.files
  keeps : Files.Keeps start.files.contents site.files.contents changed

theorem Written.refl (site : Site) : Written site changed site :=
  ⟨rfl,rfl,.refl _,.refl _⟩

theorem write_written (text contents : String) :
    (Work.onFiles (Files.write text contents)).Maintains
      (Written start (· = Path.ofText text)) fun _ => True := by
  refine fun site hsite => ⟨?_,fun _ _ => trivial⟩
  have hgrows := Files.write_grows text contents site.files
  have hkeeps := Files.write_keeps text contents site.files
  rw [onFiles_run]
  generalize Files.write text contents site.files = after at hgrows hkeeps ⊢
  exact ⟨hsite.heap,hsite.registry,hsite.grows.trans hgrows,hsite.keeps.trans hkeeps⟩

/-- Saving the graph changes at most the file of the graph. -/
theorem saveGraph_written (dir : String) (g : Graph) : (Save.graph dir g).Maintains
    (Written start (· = Path.ofText (Layout.modulePath dir))) fun _ => True := by
  have hget : (get : Work Site).Maintains
      (Written start (· = Path.ofText (Layout.modulePath dir))) fun _ => True :=
    fun _ hsite => ⟨hsite,fun _ _ => trivial⟩
  have hheap : Work.heap.Maintains
      (Written start (· = Path.ofText (Layout.modulePath dir))) fun _ => True :=
    fun _ hsite => ⟨hsite,fun _ _ => trivial⟩
  have htext : (Save.graphText g).Maintains
      (Written start (· = Path.ofText (Layout.modulePath dir))) fun _ => True := by
    unfold Save.graphText
    exact hheap.bind fun _ _ => (orElse_maintains _ _).bind fun _ _ => .pure trivial
  unfold Save.graph
  refine hget.bind fun site _ => ?_
  split
  · exact .pure trivial
  · exact htext.bind fun text _ => (write_written _ text).bind fun _ _ => .pure trivial

theorem pointcutsName_ordinary : Path.Ordinary "_aop.json" := ⟨by decide,by decide,by decide⟩

theorem moduleName_ordinary : Path.Ordinary "_module.json" := ⟨by decide,by decide,by decide⟩

/-- The text that is saved of pointcuts. -/
def pointcutsText (g : Graph) : String := (Json.list (g.pointcuts.map Pointcut.toJson)).compact

/-- What is there when a whole compile is over: the files of every bound key, and the
pointcuts. -/
structure Finished (dir : String) (g : Graph) (start fin : Site) : Prop where
  calm : Calm g start start
  heap : fin.heap = start.heap
  registry : fin.registry = start.registry
  units : ∀ key b, g.get? key = some b → ∃ code files,
    Compile.unitOf g none b start = (.ok code,start) ∧ code.files? start.heap key = some files
  files : ∀ key f, Due g start key f → Path.Holdable f.1.name ∧
    fin.files.contents.find? (Path.ofText (f.1.path dir)) = some f.2
  pointcuts : fin.files.contents.find? (Path.ofText (Layout.pointcutsPath dir)) =
    some (pointcutsText g)

/-- The pointcuts and the graph are saved into files of their own, which no unit has. -/
theorem Compiled.finished {keys : List Key} {logged saved woven fin : Site}
    (hs : g.Slashless) (hstart : Calm g start start)
    (hkeys : ∀ key b, g.get? key = some b → key ∈ keys)
    (h : Compiled dir g start keys logged saved)
    (hheap : logged.heap = start.heap) (hregistry : logged.registry = start.registry)
    (hwoven : Written saved (· = Path.ofText (Layout.pointcutsPath dir)) woven)
    (hpointcuts : woven.files.contents.find? (Path.ofText (Layout.pointcutsPath dir)) =
      some (pointcutsText g))
    (hfin : Written woven (· = Path.ofText (Layout.modulePath dir)) fin) :
    Finished dir g start fin where
  calm := hstart
  heap := by rw [hfin.heap,hwoven.heap,h.heap,hheap]
  registry := by rw [hfin.registry,hwoven.registry,h.registry,hregistry]
  units key b hb := h.units key (hkeys key b hb) b hb
  files key f hf := by
    have hmem : key ∈ keys := by
      obtain ⟨b,_,_,hb,_⟩ := hf
      exact hkeys key b hb
    obtain ⟨hname,hfind⟩ := h.files key hmem f hf
    have hpart := hf.slashless hs
    have htemporary := Files.ofText_not_temporary (f.1.path dir)
    refine ⟨hname,?_⟩
    rw [hfin.keeps _ htemporary (path_ne moduleName_ordinary (by decide) hpart).symm,
      hwoven.keeps _ htemporary (path_ne pointcutsName_ordinary (by decide) hpart).symm]
    exact hfind
  pointcuts := by
    have hne : Path.ofText (Layout.pointcutsPath dir) ≠ Path.ofText (Layout.modulePath dir) := by
      rw [Layout.pointcutsPath,Layout.modulePath,Path.ofText_join dir pointcutsName_ordinary,
        Path.ofText_join dir moduleName_ordinary]
      simp
    rw [hfin.keeps _ (Files.ofText_not_temporary _) hne]
    exact hpointcuts

/-- The whole compile of keys in the order in which they are bound. -/
def compileInOrder (b : Batch) : Work Unit := do
  b.log ""
  b.compileKeys b.graph.bindings.keys
  b.savePointcuts
  let _ ← Work.attempt (Save.graph b.dir b.graph)

/-- The whole compile of keys in the order in which they are listed. -/
def compileListed (b : Batch) (keys : List Key) : Work Unit := do
  b.log ""
  b.compileKeys keys
  b.savePointcuts
  let _ ← Work.attempt (Save.graph b.dir b.graph)

/-- There is one order of the keys, whatever the order in which they are bound. -/
theorem sortedKeys_of_perm {keys : List Key} (hperm : keys.Perm g.bindings.keys)
    (h : keys.Pairwise fun a b => a.before b = true) : g.sortedKeys = keys := by
  have hsorted : g.sortedKeys.Pairwise fun a b => a.before b = true :=
    List.pairwise_mergeSort
      (fun a b c hab hbc => decide_eq_true ((of_decide_eq_true hab).trans (of_decide_eq_true hbc)))
      (fun a b => by
        rw [Bool.or_eq_true]
        exact (le_total a.text b.text).imp decide_eq_true decide_eq_true)
      g.bindings.keys
  have hsame (a b : Key) (hab : a.before b = true) (hba : b.before a = true) : a = b :=
    congrArg Key.mk (le_antisymm (of_decide_eq_true hab) (of_decide_eq_true hba))
  exact List.Perm.eq_of_pairwise (fun a b _ _ => hsame a b) hsorted h
    ((List.mergeSort_perm _ _).trans hperm.symm)

theorem compile_of_perm {b : Batch} {keys : List Key} (hperm : keys.Perm b.graph.bindings.keys)
    (h : keys.Pairwise fun a b => a.before b = true) : b.compile = b.compileListed keys := by
  rw [compile,compileUnits,sortedKeys_of_perm hperm h,bind_assoc]
  rfl

theorem compile_ok_of_perm {b : Batch} {keys : List Key} {site : Site}
    (hperm : keys.Perm b.graph.bindings.keys) (h : keys.Pairwise fun a b => a.before b = true)
    (hok : (b.compileListed keys site).1 = .ok ()) :
    b.compile site = (.ok (),(b.compileListed keys site).2) := by
  rw [compile_of_perm hperm h,← hok]
  rfl

theorem compile_ok_of_pairwise {b : Batch} {site : Site}
    (h : b.graph.bindings.keys.Pairwise fun a b => a.before b = true)
    (hok : (b.compileInOrder site).1 = .ok ()) :
    b.compile site = (.ok (),(b.compileInOrder site).2) := compile_ok_of_perm (.refl _) h hok

theorem mem_sortedKeys {key : Key} {b : Binding Value} (h : g.get? key = some b) :
    key ∈ g.sortedKeys := by
  rw [Container.sortedKeys,List.mem_mergeSort]
  exact Container.mem_keys_of_get? h

theorem compile_ok {b : Batch} {site fin : Site} (hrun : b.compile site = (.ok (),fin)) :
    ∃ logged saved woven, b.log "" site = (.ok (),logged) ∧
      compileKeys b b.graph.sortedKeys logged = (.ok (),saved) ∧
      Work.onFiles (Files.write (Layout.pointcutsPath b.dir) (pointcutsText b.graph)) saved =
        (.ok (),woven) ∧
      (Save.graph b.dir b.graph woven).2 = fin := by
  rw [compile] at hrun
  obtain ⟨_,saved,hunits,hrest⟩ := Work.run_bind_ok hrun
  obtain ⟨_,woven,hpointcuts,hrest⟩ := Work.run_bind_ok hrest
  obtain ⟨_,last,hgraph,hend⟩ := Work.run_bind_ok hrest
  rw [compileUnits] at hunits
  obtain ⟨_,logged,hlog,hkeys⟩ := Work.run_bind_ok hunits
  obtain rfl : last = fin := (Prod.mk.inj hend).2
  rw [attempt_run] at hgraph
  rw [savePointcuts,Save.pointcuts] at hpointcuts
  exact ⟨logged,saved,woven,hlog,hkeys,hpointcuts,(Prod.mk.inj hgraph).2⟩

/-- A whole compile that succeeds has left all files behind, if no class is read from a file
for it. -/
theorem compile_run (hg : g.Separate start.heap) (hs : g.Slashless) {fin : Site}
    (hunread : ∀ className ∈ g.outsiders, start.registry.Unread fin.files className)
    (hrun : compile ⟨dir,g⟩ start = (.ok (),fin)) : Finished dir g start fin := by
  obtain ⟨logged,saved,woven,hlog,hkeys,hpointcuts,hgraph⟩ := compile_ok hrun
  obtain ⟨hlogged,_⟩ := log_run hlog
  have hfin := (saveGraph_written dir g woven (.refl woven)).1
  have hwoven := (write_written (Layout.pointcutsPath dir) (pointcutsText g) saved (.refl saved)).1
  have hlogGrows := (log_grows (b := ⟨dir,g⟩) "" start (.refl start.files)).1
  have hkeysGrows := (compileKeys_grows (b := ⟨dir,g⟩) g.sortedKeys logged (.refl logged.files)).1
  rw [hgraph] at hfin
  rw [hpointcuts] at hwoven
  rw [hlog] at hlogGrows
  rw [hkeys] at hkeysGrows
  have hfound := (Files.write_ok (Save.onFiles_ok hpointcuts).1).2.1
  have hgrows : Files.Grows saved.files fin.files := hwoven.grows.trans hfin.grows
  have hlast : Calm g start { start with files := fin.files } :=
    ⟨rfl,rfl,hunread⟩
  have hstart : Calm g start start :=
    hlast.of_grows rfl rfl ((hlogGrows.trans hkeysGrows).trans hgrows)
  have hheap : logged.heap = start.heap := by rw [hlogged]
  have hregistry : logged.registry = start.registry := by rw [hlogged]
  have hdone := compileKeys_run hg hs hstart hlast hheap hregistry hkeys hgrows
  exact hdone.finished hs hstart (fun key b hb => mem_sortedKeys hb) hheap hregistry hwoven hfound
    hfin

end Whole

end Batch
end Wiring
