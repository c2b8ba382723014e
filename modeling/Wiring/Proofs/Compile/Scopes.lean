import Mathlib
import Wiring.Proofs.Compile.Renewing

/-!
# All that tell the scope of a key agree

The scope of a key is in its unit and in a file of its own, and in the units of all who pull
it. What one compile does to these, a whole compile does, and each compile on demand that
follows: the induction is on the keys and then on the compiles. What is known of classes is
carried along, for it holds of the site where the next unit is compiled.
-/
namespace Wiring

open Script (Statement)

theorem Registry.Fixed.of_grows {r : Registry} {fs fs' : Files} (h : r.Fixed fs')
    (hgrows : Files.Grows fs fs') : r.Fixed fs := by
  refine fun className => (h className).imp_right fun hdirs dir hdir => ?_
  by_contra hexists
  have hlater := hgrows.exists? (Bool.not_eq_false _ ▸ hexists)
  rw [hdirs dir hdir] at hlater
  cases hlater

namespace Batch

open Work Compile

variable {dir : String} {g : Graph} {r : Registry} {K : Key → Prop} {known : Prop}

/-- What is known of a site: where so much is known of classes, the registry, and that the
scopes saved for keys that are not bound fit. -/
structure Sound (dir : String) (g : Graph) (r : Registry) (K : Key → Prop) (known : Prop)
    (site : Site) : Prop where
  registry : known → site.registry = r
  settled : known → Settled dir g K (Fits g r K known) site.files

theorem Sound.stays {site : Site} (h : Sound dir g r K known site) :
    Stays r known site.files site := ⟨rfl,h.registry⟩

theorem Sound.rewritten {site after : Site} (h : Sound dir g r K known site)
    (hafter : Rewritten dir g K (Fits g r K known) site after) : Sound dir g r K known after :=
  ⟨fun hk => hafter.registry.trans (h.registry hk),fun hk => hafter.files.settled (h.settled hk)⟩

theorem Sound.looked {site after : Site} (h : Sound dir g r K known site)
    (hafter : Stays r known site.files after) : Sound dir g r K known after :=
  ⟨hafter.registry,fun hk => by rw [hafter.files]; exact h.settled hk⟩

theorem compileKey_ok {key : Key} {b : Binding Value} {site after : Site}
    (h : compileKey ⟨dir,g⟩ key b site = (.ok (),after)) : ∃ code mid,
      Compile.unitOf g none b site = (.ok code,mid) ∧ Save.unit dir key code mid = (.ok (),after) := by
  rw [compileKey] at h
  obtain ⟨answer,mid,hattempt,hrest⟩ := Work.run_bind_ok h
  rw [attempt_run] at hattempt
  obtain ⟨hanswer,rfl⟩ := Prod.mk.inj hattempt
  cases answer with
  | error f =>
    obtain ⟨_,_,_,hthrow⟩ := Work.run_bind_ok hrest
    cases congrArg Prod.fst hthrow
  | ok code => exact ⟨code,_,Prod.ext (Except.ok.inj hanswer) rfl,hrest⟩

theorem compileKeys_converted {keys : List Key} {site fin : Site}
    (hrun : compileKeys ⟨dir,g⟩ keys site = (.ok (),fin)) :
    ∀ key ∈ keys, ∀ interface, g.get? key ≠ some (.nullObject interface) := by
  induction keys generalizing site with
  | nil => exact nofun
  | cons key rest ih =>
    obtain ⟨logged,_,⟨hnone,hrest⟩ | ⟨b,saved,hb,hkey,hrest⟩⟩ := compileKeys_cons hrun
    · refine List.forall_mem_cons.mpr ⟨fun interface hnull => ?_,ih hrest⟩
      cases hnone.symm.trans hnull
    · refine List.forall_mem_cons.mpr ⟨fun interface hnull => ?_,ih hrest⟩
      obtain rfl := Option.some.inj (hb.symm.trans hnull)
      obtain ⟨_,_,hunit,_⟩ := compileKey_ok hkey
      cases congrArg Prod.fst hunit

/-- A graph that compiles has no null objects: they have become classes. -/
theorem compile_converted {start fin : Site} (hrun : compile ⟨dir,g⟩ start = (.ok (),fin))
    (key : Key) (interface : String) : g.get? key ≠ some (.nullObject interface) := by
  intro hnull
  obtain ⟨_,_,_,_,hkeys,_,_⟩ := compile_ok hrun
  exact compileKeys_converted hkeys key (mem_sortedKeys hnull) interface hnull

/-- A key that compiles has its files renewed. -/
theorem compileKey_tells (hK : g.Apart K) {key : Key} {b : Binding Value} {site after : Site}
    (hsite : Sound dir g r K known site) (hfixed : known → r.Fixed site.files)
    (hb : g.get? key = some b) (hrun : compileKey ⟨dir,g⟩ key b site = (.ok (),after)) :
    Sound dir g r K known after ∧ Renewed dir g K (Fits g r K known) site.files after.files ∧
      Tells dir g (Fits g r K known) after.files key := by
  obtain ⟨code,mid,hunit,hsave⟩ := compileKey_ok hrun
  have hfits : Fits g r K known key b.isShared := by
    refine ⟨fun b' hb' => ?_,fun _ _ hnone => ?_⟩
    · rw [Option.some.inj (hb.symm.trans hb')]
    · cases hb.symm.trans hnone
  obtain ⟨hmid,hagrees⟩ := unitOf_agrees hfixed (.inl rfl) hsite.settled
    (serves_own hb) hfits site hsite.stays
  rw [hunit] at hmid hagrees
  have hcode := hagrees code rfl
  have hkey : K key := hK.bound key (Graph.has_of_get? hb)
  have hqs : ∀ q ∈ code.qualifiers, '/' ∉ q.1.fileName.toList := fun q hq =>
    hK.qualifiers q (Container.mem_qualifiers hb (unitOf_qualifiers b site code mid hunit q hq))
  have hrewritten : Rewritten dir g K (Fits g r K known) mid (Save.unit dir key code mid).2 :=
    saveUnit_rewritten hK hkey hcode hqs mid
  have htells := saveUnit_tells hK hkey hcode hqs hsave
  rw [hsave] at hrewritten
  exact ⟨(hsite.looked hmid).rewritten hrewritten,hmid.files ▸ hrewritten.files,htells⟩

/-- The induction is on the keys: what is written for the first one stays or is written anew. -/
theorem compileKeys_tells (hK : g.Apart K) {keys : List Key} {site fin : Site}
    (hsite : Sound dir g r K known site) (hfixed : known → r.Fixed fin.files)
    (hrun : compileKeys ⟨dir,g⟩ keys site = (.ok (),fin)) :
    Sound dir g r K known fin ∧ Renewed dir g K (Fits g r K known) site.files fin.files ∧
      ∀ key ∈ keys, ∀ b, g.get? key = some b → Tells dir g (Fits g r K known) fin.files key := by
  induction keys generalizing site with
  | nil =>
    obtain rfl : site = fin := (Prod.mk.inj hrun).2
    exact ⟨hsite,.refl _,nofun⟩
  | cons key rest ih =>
    obtain ⟨logged,hlog,hrest⟩ := compileKeys_cons hrun
    obtain ⟨hlogged,hkeeps⟩ := log_run hlog
    have hloggedRenewed : Renewed dir g K (Fits g r K known) site.files logged.files :=
      .of_keeps hK hkeeps fun part hpart =>
        (path_ne logName_ordinary (by decide) hpart).symm
    have hloggedSound : Sound dir g r K known logged :=
      hsite.rewritten ⟨by rw [hlogged],hloggedRenewed⟩
    rcases hrest with ⟨hnone,hrest⟩ | ⟨b,saved,hb,hkey,hrest⟩
    · obtain ⟨hsound,hrenewed,htells⟩ := ih hloggedSound hrest
      refine ⟨hsound,hloggedRenewed.trans hrenewed,List.forall_mem_cons.mpr ⟨fun b hb => ?_,htells⟩⟩
      cases hnone.symm.trans hb
    · have hhead := (compileKey_grows (b := ⟨dir,g⟩) key b logged (.refl logged.files)).1
      have htail := (compileKeys_grows (b := ⟨dir,g⟩) rest saved (.refl saved.files)).1
      rw [hkey] at hhead
      rw [hrest] at htail
      obtain ⟨hsaved,hsavedRenewed,hthere⟩ := compileKey_tells hK hloggedSound
        (fun hk => (hfixed hk).of_grows (hhead.trans htail)) hb hkey
      obtain ⟨hsound,hrenewed,htells⟩ := ih hsaved hrest
      exact ⟨hsound,(hloggedRenewed.trans hsavedRenewed).trans hrenewed,List.forall_mem_cons.mpr
        ⟨fun _ _ => hrenewed.tells (hK.bound key (Graph.has_of_get? hb)) hthere,htells⟩⟩

/-- After a whole compile that succeeds, the files of all bound keys tell scopes that fit. -/
theorem compile_tells (hK : g.Apart K) {start fin : Site}
    (hstart : Sound dir g r K known start) (hfixed : known → r.Fixed fin.files)
    (hrun : compile ⟨dir,g⟩ start = (.ok (),fin)) :
    Sound dir g r K known fin ∧
      ∀ key b, g.get? key = some b → Tells dir g (Fits g r K known) fin.files key := by
  obtain ⟨logged,saved,woven,hlog,hkeys,hpointcuts,hgraph⟩ := compile_ok hrun
  obtain ⟨hlogged,hlogKeeps⟩ := log_run hlog
  have hwoven := (write_written (Layout.pointcutsPath dir) (pointcutsText g) saved (.refl saved)).1
  have hfin := (saveGraph_written dir g woven (.refl woven)).1
  rw [hpointcuts] at hwoven
  rw [hgraph] at hfin
  have hloggedSound : Sound dir g r K known logged := by
    refine hstart.rewritten ⟨by rw [hlogged],.of_keeps hK hlogKeeps fun part hpart => ?_⟩
    exact (path_ne logName_ordinary (by decide) hpart).symm
  obtain ⟨hsaved,_,htells⟩ := compileKeys_tells hK hloggedSound
    (fun hk => (hfixed hk).of_grows (hwoven.grows.trans hfin.grows)) hkeys
  have hlast : Rewritten dir g K (Fits g r K known) saved fin := by
    have hfirst : Renewed dir g K (Fits g r K known) saved.files woven.files :=
      .of_keeps hK hwoven.keeps fun part hpart =>
        (path_ne pointcutsName_ordinary (by decide) hpart).symm
    have hsecond : Renewed dir g K (Fits g r K known) woven.files fin.files :=
      .of_keeps hK hfin.keeps fun part hpart =>
        (path_ne moduleName_ordinary (by decide) hpart).symm
    exact ⟨hfin.registry.trans hwoven.registry,hfirst.trans hsecond⟩
  refine ⟨hsaved.rewritten hlast,fun key b hb => ?_⟩
  have hthere := htells key (mem_sortedKeys hb) b hb
  exact hlast.files.tells (hK.bound key (Graph.has_of_get? hb)) hthere

end Batch

namespace Demand

open Work Compile Batch

variable {dir : String} {g : Graph} {r : Registry} {K : Key → Prop} {known : Prop}
  {scope : Option ScopeOf} {key : Key}

/-- The qualifiers that are kept with the unit lie with the qualifiers. -/
def Plain (dir : String) (g : Graph) (scope : Option ScopeOf) (key : Key) (site : Site) : Prop :=
  ∀ code after, codeOf dir g scope key site = (.ok code,after) →
    ∀ q ∈ code.qualifiers, '/' ∉ q.1.fileName.toList

theorem codeOf_files (hscope : Asks dir g scope)
    (hnull : ∀ interface, g.get? key ≠ some (.nullObject interface)) (site : Site) :
    (codeOf dir g scope key site).2.files = site.files := by
  have hstays : Stays site.registry False site.files site := ⟨rfl,False.elim⟩
  exact (codeOf_agrees (K := fun _ => False) False.elim hscope False.elim hnull site hstays).1.files

theorem compile_grows (hscope : Asks dir g scope)
    (hnull : ∀ interface, g.get? key ≠ some (.nullObject interface)) (site : Site) :
    Files.Grows site.files (compile dir g scope key site).2.files := by
  have hcode : (codeOf dir g scope key).Maintains (fun after => Files.Grows site.files after.files)
      fun _ => True := by
    intro after hafter
    beta_reduce
    rw [codeOf_files hscope hnull]
    exact ⟨hafter,fun _ _ => trivial⟩
  rw [compile_eq]
  exact (hcode.bind (fun code _ => saveUnit_grows dir key code) site (.refl _)).1

/-- One compile on demand leaves all files telling scopes that fit, even if it fails. -/
theorem compile_tells (hK : g.Apart K) (hkey : K key) (hscope : Asks dir g scope)
    (hnull : ∀ interface, g.get? key ≠ some (.nullObject interface)) {site after : Site}
    {answer : Except Failure Unit} (hplain : Plain dir g scope key site)
    (hsite : Sound dir g r K known site) (hfixed : known → r.Fixed after.files)
    (hrun : compile dir g scope key site = (answer,after)) :
    Sound dir g r K known after ∧ Renewed dir g K (Fits g r K known) site.files after.files ∧
      (answer = .ok () → Tells dir g (Fits g r K known) after.files key) := by
  have hgrows := compile_grows hscope hnull site
  rw [hrun] at hgrows
  obtain ⟨hmid,hagrees⟩ := codeOf_agrees (fun hk => (hfixed hk).of_grows hgrows) hscope
    hsite.settled hnull site hsite.stays
  rw [compile_eq] at hrun
  cases hcode : codeOf dir g scope key site with
  | mk made mid =>
    rw [hcode] at hmid hagrees
    cases made with
    | error f =>
      rw [run_bind_error _ hcode] at hrun
      obtain ⟨rfl,rfl⟩ := Prod.mk.inj hrun
      exact ⟨hsite.looked hmid,hmid.files ▸ .refl _,nofun⟩
    | ok code =>
      rw [run_bind hcode] at hrun
      have hqs := hplain code mid hcode
      have hrewritten : Rewritten dir g K (Fits g r K known) mid (Save.unit dir key code mid).2 :=
        saveUnit_rewritten hK hkey (hagrees code rfl) hqs mid
      rw [hrun] at hrewritten
      refine ⟨(hsite.looked hmid).rewritten hrewritten,hmid.files ▸ hrewritten.files,?_⟩
      rintro rfl
      exact saveUnit_tells hK hkey (hagrees code rfl) hqs hrun

/-- What compiles on demand, one after another, make of a site, with the keys that compiled. In
between, values come and go in the heap. -/
inductive Later (dir : String) (g : Graph) (K : Key → Prop) (first : Site) :
    List Key → Site → Prop where
  | first : Later dir g K first [] first
  | moved {keys : List Key} {site : Site} (h : Later dir g K first keys site) (heap : Heap) :
      Later dir g K first keys { site with heap }
  | compiled {keys : List Key} {site after : Site} {scope : Option ScopeOf} {key : Key}
      (h : Later dir g K first keys site) (hkey : K key) (hscope : Asks dir g scope)
      (hplain : Plain dir g scope key site)
      (hrun : compile dir g scope key site = (.ok (),after)) :
      Later dir g K first (key :: keys) after
  | failed {keys : List Key} {site after : Site} {scope : Option ScopeOf} {key : Key}
      {f : Failure} (h : Later dir g K first keys site) (hkey : K key)
      (hscope : Asks dir g scope) (hplain : Plain dir g scope key site)
      (hrun : compile dir g scope key site = (.error f,after)) : Later dir g K first keys after

theorem Later.grows (hnull : ∀ key interface, g.get? key ≠ some (.nullObject interface))
    {first last : Site} {keys : List Key} (h : Later dir g K first keys last) :
    Files.Grows first.files last.files := by
  induction h with
  | first => exact .refl _
  | moved _ heap ih => exact ih
  | @compiled keys site after scope key _ _ hscope _ hrun ih =>
    have hgrows := compile_grows hscope (hnull key) site
    rw [hrun] at hgrows
    exact ih.trans hgrows
  | @failed keys site after scope key f _ _ hscope _ hrun ih =>
    have hgrows := compile_grows hscope (hnull key) site
    rw [hrun] at hgrows
    exact ih.trans hgrows

/-- The induction is on the compiles. -/
theorem Later.tells (hK : g.Apart K)
    (hnull : ∀ key interface, g.get? key ≠ some (.nullObject interface)) {first last : Site}
    {keys : List Key} (hfirst : Sound dir g r K known first) (h : Later dir g K first keys last)
    (hfixed : known → r.Fixed last.files) :
    Sound dir g r K known last ∧ Renewed dir g K (Fits g r K known) first.files last.files ∧
      ∀ key ∈ keys, Tells dir g (Fits g r K known) last.files key ∧ K key := by
  induction h with
  | first => exact ⟨hfirst,.refl _,nofun⟩
  | moved _ heap ih =>
    obtain ⟨hsound,hrenewed,htells⟩ := ih hfixed
    exact ⟨⟨hsound.registry,hsound.settled⟩,hrenewed,htells⟩
  | @compiled keys site after scope key _ hkey hscope hplain hrun ih =>
    have hgrows := compile_grows hscope (hnull key) site
    rw [hrun] at hgrows
    obtain ⟨hsite,hrenewed,htells⟩ := ih fun hk => (hfixed hk).of_grows hgrows
    obtain ⟨hafter,hmore,hthere⟩ := compile_tells hK hkey hscope (hnull key) hplain hsite hfixed hrun
    refine ⟨hafter,hrenewed.trans hmore,List.forall_mem_cons.mpr ⟨⟨hthere rfl,hkey⟩,?_⟩⟩
    exact fun other hother => ⟨hmore.tells (htells other hother).2 (htells other hother).1,
      (htells other hother).2⟩
  | @failed keys site after scope key f _ hkey hscope hplain hrun ih =>
    have hgrows := compile_grows hscope (hnull key) site
    rw [hrun] at hgrows
    obtain ⟨hsite,hrenewed,htells⟩ := ih fun hk => (hfixed hk).of_grows hgrows
    obtain ⟨hafter,hmore,_⟩ := compile_tells hK hkey hscope (hnull key) hplain hsite hfixed hrun
    refine ⟨hafter,hrenewed.trans hmore,fun other hother => ?_⟩
    exact ⟨hmore.tells (htells other hother).2 (htells other hother).1,(htells other hother).2⟩

end Demand
/-- The scope of a key: that of its binding, or of the class that it asks for. -/
def Container.scopeOf (g : Graph) (r : Registry) (key : Key) : Bool :=
  ((g.get? key).map Binding.isShared).getD
    (((r.classes.find? key.interface).map ClassDecl.shared).getD false)

theorem Compile.Fits.eq_scopeOf {g : Graph} {r : Registry} {K : Key → Prop} {known : Prop}
    {key : Key} {shared : Bool} (h : Fits g r K known key shared)
    (hkey : g.has key = true ∨ known ∧ K key) : shared = g.scopeOf r key := by
  unfold Container.scopeOf
  cases hb : g.get? key with
  | some b => exact h.bound b hb
  | none =>
    rcases hkey with hhas | ⟨hk,hkey⟩
    · obtain ⟨b,hb'⟩ := Graph.get?_of_has hhas
      cases hb.symm.trans hb'
    · obtain ⟨c,hc,_,rfl⟩ := h.outside hk hkey hb
      rw [hc]
      rfl

/-- Classes stay what they are: none is read from a file, and for no key that is not bound was
a scope saved before. -/
structure Batch.Undisturbed (b : Batch) (K : Key → Prop) (start last : Site) : Prop where
  fixed : start.registry.Fixed last.files
  unsaved : ∀ key, K key → b.graph.get? key = none →
    start.files.contents.find? (Path.ofText (Layout.metaPath b.dir key)) = none

/-- The scope that is saved for a key, if it can be read. -/
def Files.savedScope? (fs : Files) (dir : String) (key : Key) : Option Bool :=
  (fs.contents.find? (Path.ofText (Layout.metaPath dir key))).bind fun text =>
    (Json.read? text).bind Save.scopeOfJson?

/-- All that tell the scope of a key agree. After a whole compile of a graph and any compiles on
demand in its directory, the unit of a bound key returns the scope of its binding, which is also
the one that is saved, and all units pull the key in this scope. If classes stay what they are,
a key that is not bound has the scope of its class in all of these places. -/
theorem scopes_agree {b : Batch} {K : Key → Prop} {start fin last : Site} {keys : List Key}
    (hcompile : b.compile start = (.ok (),fin)) (hK : b.graph.Apart K)
    (hlater : Demand.Later b.dir b.graph K fin keys last) {key : Key}
    (hkey : b.graph.has key = true ∨ key ∈ keys) : ∃ (code : Code) (told : Bool),
      last.files.contents.find? (Path.ofText (Layout.unitPath b.dir key)) = some code.source ∧
      last.files.savedScope? b.dir key = some told ∧
      Compile.CompiledFor b.graph key code ∧ code.Returned ∧
      (b.graph.has key = true ∨ b.Undisturbed K start last →
        code.shared = b.graph.scopeOf start.registry key ∧
          told = b.graph.scopeOf start.registry key) ∧
      ∀ p ∈ code.supplied, b.graph.has p.key = true ∨ b.Undisturbed K start last ∧ K p.key →
        p.shared = b.graph.scopeOf start.registry p.key := by
  have hstart : Batch.Sound b.dir b.graph start.registry K (b.Undisturbed K start last) start := by
    refine ⟨fun _ => rfl,fun hk key hkey hnone text htext => ?_⟩
    cases (hk.unsaved key hkey hnone).symm.trans htext
  have hnull := Batch.compile_converted hcompile
  obtain ⟨hfin,hbound⟩ := Batch.compile_tells hK hstart
    (fun hk => hk.fixed.of_grows (hlater.grows hnull)) hcompile
  obtain ⟨_,hrenewed,htells⟩ := hlater.tells hK hnull hfin fun hk => hk.fixed
  have htold : Compile.Tells b.dir b.graph (Compile.Fits b.graph start.registry K
      (b.Undisturbed K start last)) last.files key ∧ K key := by
    rcases hkey with hhas | hmem
    · obtain ⟨binding,hb⟩ := Graph.get?_of_has hhas
      have hin : K key := hK.bound key hhas
      exact ⟨hrenewed.tells hin (hbound key binding hb),hin⟩
    · exact htells key hmem
  obtain ⟨⟨⟨_,hunit,code,rfl,hcode⟩,text,htext,told,htold,hfits⟩,hin⟩ := htold
  obtain ⟨_,_,_,_,_,hrun⟩ := hcode.compiled
  have hsaved : last.files.savedScope? b.dir key = some told := by
    rw [Files.savedScope?,htext,Option.bind_some,htold]
  refine ⟨code,told,hunit,hsaved,hcode.compiled,Compile.unitOf_returned hrun,fun hkey => ⟨?_,?_⟩,
    fun p hp hkey => (hcode.pulls p hp).eq_scopeOf hkey⟩
  · exact hcode.own.eq_scopeOf (hkey.imp_right fun hk => ⟨hk,hin⟩)
  · exact hfits.eq_scopeOf (hkey.imp_right fun hk => ⟨hk,hin⟩)

section Runs

variable {α β : Type} {w : Work α} {site : Site}

theorem Work.run_of_ok {a : α} (h : (w site).1 = .ok a) : w site = (.ok a,(w site).2) :=
  Prod.ext h rfl

theorem Work.run_of_map {f : α → β} {b : β} (h : (w site).1.map f = .ok b) :
    ∃ a, w site = (.ok a,(w site).2) ∧ f a = b := by
  cases hw : (w site).1 with
  | error e =>
    rw [hw] at h
    cases h
  | ok a =>
    rw [hw] at h
    exact ⟨a,Prod.ext hw rfl,Except.ok.inj h⟩

end Runs

/-- A class whose constructor asks for objects of other classes. -/
def asking (className : String) (asked : List String) (shared : Bool) : Binding Value :=
  .construction ⟨className,
    asked.map fun c => ⟨.any c,⟨className,"__construct",c⟩,some .null,none,none⟩,
    [],none,shared,[]⟩

/-- A loom asks for a thread, which is bound, and for a shuttle, which nobody binds. -/
def loomPrepared : Site where
  registry := { classes :=
    [("Loom",{ name := "Loom"
               parameters := [⟨"shuttle",some "Shuttle",none,none,none,none⟩,
                 ⟨"ghost",some "Ghost",none,some .null,none,none⟩] }),
      ("Shuttle",{ name := "Shuttle"
                   shared := true
                   parameters := [⟨"thread",some "Thread",none,none,none,none⟩] }),
      ("Thread",{ name := "Thread" })] }
  files := { directories := [["s"]] }

def loomBatch : Batch where
  dir := "s"
  graph :=
    { bindings :=
        [(Key.scriptDir,.literal (.text "s")),
          (.any Key.injectorInterface,.literal (.injector none)),
          (.any "Loom",asking "Loom" ["Thread","Shuttle"] false),
          (.any "Thread",asking "Thread" [] true)]
      pointcuts := []
      maps := [] }

/-- The keys of the loom, and its shuttle. -/
def loomKeys : List Key := .any "Shuttle" :: loomBatch.graph.bindings.keys

@[irreducible]
def loomFinished : Site := (loomBatch.compileInOrder loomPrepared).2

/-- The unit of a key that is compiled on demand for the loom. -/
def loomUnit (key : Key) : Work Code :=
  Demand.codeOf "s" loomBatch.graph (some (Resolve.scopeIn "s" loomBatch.graph)) key

/-- The loom after its shuttle was compiled on demand. -/
@[irreducible]
def loomLater : Site :=
  (Demand.compile "s" loomBatch.graph (some (Resolve.scopeIn "s" loomBatch.graph)) (.any "Shuttle")
    loomFinished).2

theorem loomBatch_compiled : loomBatch.compile loomPrepared = (.ok (),loomFinished) := by
  have hsorted : loomBatch.graph.bindings.keys.Pairwise fun a b => a.before b = true := by
    decide +kernel
  have hrun : (loomBatch.compileInOrder loomPrepared).1 = .ok () := by decide +kernel
  unfold loomFinished
  exact Batch.compile_ok_of_pairwise hsorted hrun

theorem loomBatch_apart : loomBatch.graph.Apart (· ∈ loomKeys) where
  bound key hkey := List.mem_cons_of_mem _ (Table.mem_keys_of_has hkey)
  stems := by decide +kernel
  slashless := by decide +kernel
  qualifiers := by
    have hnone : loomBatch.graph.qualifiers = [] := rfl
    rw [hnone]
    exact nofun

theorem loomLater_later : Demand.Later loomBatch.dir loomBatch.graph (· ∈ loomKeys) loomFinished
    [.any "Shuttle"] loomLater := by
  have hrun : (Demand.compile "s" loomBatch.graph (some (Resolve.scopeIn "s" loomBatch.graph))
        (.any "Shuttle") loomFinished).1 = .ok () ∧
      (loomUnit (.any "Shuttle") loomFinished).1.map (·.qualifiers.length) = .ok 0 := by
    decide +kernel
  refine .compiled .first List.mem_cons_self (.inr rfl) (fun code after hcode q hq => ?_)
    (Prod.ext hrun.1 ?_)
  · have hlength := hrun.2
    rw [show loomUnit (.any "Shuttle") loomFinished = (.ok code,after) from hcode] at hlength
    rw [List.length_eq_zero_iff.mp (Except.ok.inj hlength)] at hq
    cases hq
  · unfold loomLater
    rfl

theorem loomLater_undisturbed : loomBatch.Undisturbed (· ∈ loomKeys) loomPrepared loomLater where
  fixed _ := .inr nofun
  unsaved _ _ _ := rfl

/-- The loom is not shared. It pulls the shared thread, and the shuttle, whose unit is shared. -/
theorem scopes_agree_sample : ∃ loom shuttle : Code,
    loomLater.files.contents.find? (Path.ofText (Layout.unitPath "s" (.any "Loom"))) =
      some loom.source ∧
    loomLater.files.savedScope? "s" (.any "Loom") = some false ∧ loom.shared = false ∧
    (∀ p ∈ loom.supplied, p.key = .any "Thread" ∨ p.key = .any "Shuttle" → p.shared = true) ∧
    loomLater.files.contents.find? (Path.ofText (Layout.unitPath "s" (.any "Shuttle"))) =
      some shuttle.source ∧
    loomLater.files.savedScope? "s" (.any "Shuttle") = some true ∧ shuttle.shared = true := by
  have hloom : loomBatch.graph.has (.any "Loom") = true := by decide +kernel
  have hscopes : loomBatch.graph.scopeOf loomPrepared.registry (.any "Loom") = false ∧
      loomBatch.graph.scopeOf loomPrepared.registry (.any "Thread") = true ∧
      loomBatch.graph.scopeOf loomPrepared.registry (.any "Shuttle") = true := by
    decide +kernel
  obtain ⟨loom,told,hunit,hsaved,_,_,hown,hpulls⟩ :=
    scopes_agree loomBatch_compiled loomBatch_apart loomLater_later (.inl hloom)
  obtain ⟨shuttle,told',hunit',hsaved',_,_,hown',_⟩ := scopes_agree loomBatch_compiled
    loomBatch_apart loomLater_later (.inr (List.mem_singleton_self (Key.any "Shuttle")))
  obtain ⟨hcode,rfl⟩ := hown (.inl hloom)
  obtain ⟨hcode',rfl⟩ := hown' (.inr loomLater_undisturbed)
  refine ⟨loom,shuttle,hunit,hscopes.1 ▸ hsaved,hcode.trans hscopes.1,fun p hp hkey => ?_,
    hunit',hscopes.2.2 ▸ hsaved',hcode'.trans hscopes.2.2⟩
  have hin : p.key ∈ loomKeys := by
    rcases hkey with hkey | hkey <;> rw [hkey] <;> decide +kernel
  rw [hpulls p hp (.inr ⟨loomLater_undisturbed,hin⟩)]
  rcases hkey with hkey | hkey <;> rw [hkey]
  · exact hscopes.2.1
  · exact hscopes.2.2

/-- Two of those that tell the scope of the key differ, after a whole compile and compiles on
demand that are told the scopes of other keys like this. -/
inductive Batch.Differs (b : Batch) (start : Site) (scope : Option ScopeOf) (key : Key) :
    Prop where
  | saved {fin : Site} {binding : Binding Value} (hcompile : b.compile start = (.ok (),fin))
      (hb : b.graph.get? key = some binding)
      (h : fin.files.savedScope? b.dir key = some (!binding.isShared)) : Differs b start scope key
  | replaced {fin last : Site} {other : Key} {binding : Binding Value}
      (hcompile : b.compile start = (.ok (),fin))
      (hlast : Demand.compile b.dir b.graph scope other fin = (.ok (),last))
      (hb : b.graph.get? key = some binding)
      (h : last.files.savedScope? b.dir key = some (!binding.isShared)) : Differs b start scope key
  | pulled {fin mid after last : Site} {other : Key} {user code : Code}
      (hcompile : b.compile start = (.ok (),fin))
      (huser : Demand.codeOf b.dir b.graph scope other fin = (.ok user,after))
      (hmid : Demand.compile b.dir b.graph scope other fin = (.ok (),mid))
      (hcode : Demand.codeOf b.dir b.graph scope key mid = (.ok code,last))
      (h : ⟨!code.shared,key⟩ ∈ user.supplied) : Differs b start scope key
  | returned {fin after : Site} {binding : Binding Value} {code : Code}
      {statements : List Statement} (hcompile : b.compile start = (.ok (),fin))
      (hb : b.graph.get? key = some binding)
      (hunit : Compile.unitOf b.graph none binding start = (.ok code,after))
      (hparsed : ∀ file, Script.parseUnit file code.source = .ok statements)
      (hreturns : Script.Returns statements (!code.shared)) : Differs b start scope key

/-- After the whole compile another key is compiled on demand, which pulls the key in one scope,
and then the key itself, whose unit has the other scope. -/
def Batch.PullsOtherwise (b : Batch) (start : Site) (scope : Option ScopeOf) (other key : Key)
    (shared : Bool) : Prop :=
  (b.compileInOrder start).1 = .ok () ∧
    (Demand.codeOf b.dir b.graph scope other (b.compileInOrder start).2).1.map
      (·.supplied.contains ⟨!shared,key⟩) = .ok true ∧
    (Demand.compile b.dir b.graph scope other (b.compileInOrder start).2).1 = .ok () ∧
    (Demand.codeOf b.dir b.graph scope key (Demand.compile b.dir b.graph scope other
      (b.compileInOrder start).2).2).1.map (·.shared) = .ok shared
  deriving Decidable

theorem Batch.PullsOtherwise.differs {b : Batch} {start : Site} {scope : Option ScopeOf}
    {other key : Key} {shared : Bool} (h : b.PullsOtherwise start scope other key shared)
    (hsorted : b.graph.bindings.keys.Pairwise fun a b => a.before b = true) :
    b.Differs start scope key := by
  obtain ⟨hcompile,huser,hmid,hcode⟩ := h
  obtain ⟨user,huser',hpulled⟩ := Work.run_of_map huser
  obtain ⟨code,hcode',rfl⟩ := Work.run_of_map hcode
  exact .pulled (Batch.compile_ok_of_pairwise hsorted hcompile) huser' (Work.run_of_ok hmid) hcode'
    (List.contains_iff_mem.mp hpulled)

/-- A graph of these bindings, among them those that preparing it adds. -/
def preparedBatch (rows : Table Key (Binding Value)) : Batch := ⟨"s",⟨rows,[],[]⟩⟩

/-- Two keys with stems of their own whose files lie at one path. -/
def slashedBatch : Batch := preparedBatch
  [(Key.scriptDir,.literal (.text "s")),(.of "./a" "x",asking "Thread" [] true),
    (.any Key.injectorInterface,.literal (.injector none)),(.of "a" "x",asking "Thread" [] false)]

/-- The scope of the first key is replaced by that of the second one. -/
theorem slashedBatch_differs : slashedBatch.Differs loomPrepared none (.of "./a" "x") := by
  have hsorted : slashedBatch.graph.bindings.keys.Pairwise fun a b => a.before b = true := by
    decide +kernel
  have hrun : (slashedBatch.compileInOrder loomPrepared).1 = .ok () ∧
      (slashedBatch.compileInOrder loomPrepared).2.files.savedScope? "s" (.of "./a" "x") =
        some false := by
    decide +kernel
  have hb : slashedBatch.graph.get? (.of "./a" "x") = some (asking "Thread" [] true) := rfl
  exact .saved (Batch.compile_ok_of_pairwise hsorted hrun.1) hb hrun.2

/-- A bound key and a class that nobody binds, whose units have one name. -/
def crossedBatch : Batch := preparedBatch
  [(Key.scriptDir,.literal (.text "s")),(.any Key.injectorInterface,.literal (.injector none)),
    (.any "Mill\\Loom",asking "Thread" [] false)]

def crossedPrepared : Site := { loomPrepared with
  registry := loomPrepared.registry.register { name := "Mill_Loom", shared := true } }

/-- Compiling the class on demand replaces the scope of the bound key. -/
theorem crossedBatch_differs : crossedBatch.Differs crossedPrepared none (.any "Mill\\Loom") := by
  have hsorted : crossedBatch.graph.bindings.keys.Pairwise fun a b => a.before b = true := by
    decide +kernel
  have hrun : (crossedBatch.compileInOrder crossedPrepared).1 = .ok () ∧
      (Demand.compile crossedBatch.dir crossedBatch.graph none (.any "Mill_Loom")
        (crossedBatch.compileInOrder crossedPrepared).2).1 = .ok () ∧
      (Demand.compile crossedBatch.dir crossedBatch.graph none (.any "Mill_Loom")
        (crossedBatch.compileInOrder crossedPrepared).2).2.files.savedScope? crossedBatch.dir
          (.any "Mill\\Loom") = some true := by
    decide +kernel
  obtain ⟨hcompile,hlast,hsaved⟩ := hrun
  have hb : crossedBatch.graph.get? (.any "Mill\\Loom") = some (asking "Thread" [] false) := rfl
  exact .replaced (Batch.compile_ok_of_pairwise hsorted hcompile) (Work.run_of_ok hlast) hb hsaved

/-- A scope was saved for the shuttle before, and it is not that of its class. -/
def stalePrepared : Site := { loomPrepared with files :=
  { directories := [["s"],["s","meta"]]
    contents := [(["s","meta","Shuttle-*.json"],(Save.scopeToJson false).compact)] } }

theorem loomBatch_sorted :
    loomBatch.graph.bindings.keys.Pairwise fun a b => a.before b = true := by
  decide +kernel

/-- The loom pulls the shuttle in the scope that was saved. -/
theorem loomBatch_differs_stale : loomBatch.Differs stalePrepared
    (some (Resolve.scopeIn loomBatch.dir loomBatch.graph)) (.any "Shuttle") := by
  have hrun : loomBatch.PullsOtherwise stalePrepared
      (some (Resolve.scopeIn loomBatch.dir loomBatch.graph)) (.any "Loom") (.any "Shuttle") true := by
    decide +kernel
  exact hrun.differs loomBatch_sorted

/-- The loom pulls the shuttle in a scope that it is told. -/
theorem loomBatch_differs_told : loomBatch.Differs loomPrepared (some fun _ => pure false)
    (.any "Shuttle") := by
  have hrun : loomBatch.PullsOtherwise loomPrepared (some fun _ => pure false) (.any "Loom")
      (.any "Shuttle") true := by
    decide +kernel
  exact hrun.differs loomBatch_sorted

/-- A file in which the ghost would be looked for declares the shuttle once more. -/
def hauntedPrepared : Site := { loomPrepared with
  registry := { loomPrepared.registry with scriptDirs := ["s"] }
  files :=
    { directories := [["s"]]
      contents := [(["s","Ghost.class.json"],
        (GeneratedClass.toJson ⟨"Shuttle",[],[]⟩).pretty)] } }

/-- A thread, for a loom that nobody binds. -/
def threadBatch : Batch := preparedBatch
  [(Key.scriptDir,.literal (.text "s")),(.any Key.injectorInterface,.literal (.injector none)),
    (.any "Thread",asking "Thread" [] true)]

/-- The loom pulls the shuttle before the class of its ghost is looked for. -/
theorem threadBatch_differs : threadBatch.Differs hauntedPrepared none (.any "Shuttle") := by
  have hsorted : threadBatch.graph.bindings.keys.Pairwise fun a b => a.before b = true := by
    decide +kernel
  have hrun : threadBatch.PullsOtherwise hauntedPrepared none (.any "Loom") (.any "Shuttle")
      false := by
    decide +kernel
  exact hrun.differs hsorted

/-- The name of a class that is more than a name where the unit is read. -/
def forgedName : String := "A();\nreturn (instance, true);\ninstance = new A"

def forgedBatch : Batch := preparedBatch
  [(Key.scriptDir,.literal (.text "s")),(.any Key.injectorInterface,.literal (.injector none)),
    (.any "Loom",.construction ⟨forgedName,[],[],none,false,[]⟩)]

def forgedCode : Code where
  statements := [.namespaced Compile.unitNamespace,
    .expr (.assign Compile.instanceName (.construct forgedName [])),
    .yieldPair Compile.instanceVar false]
  shared := false
  qualifiers := []

/-- What is read in place of the unit. -/
def forgedStatements : List Statement :=
  .namespaced Compile.unitNamespace ::
    [.expr (.assign Compile.instanceName (.construct "A" []))] ++
    [.yieldPair Compile.instanceVar true,
      .expr (.assign Compile.instanceName (.construct "A" [])),.yieldPair Compile.instanceVar false]

theorem forgedStatements_returns : Script.Returns forgedStatements true := by
  have hmade : Assembly.Written ⟨"A",[],[],none⟩
      (.expr (.assign Compile.instanceName (.construct "A" [])) :: [] ++
        (none : Option String).toList.map (calls · [])) := .intro .nil .nil
  refine fun m _ _ s unit => ⟨(⟨"A",[],[],none⟩ : Assembly).perform s unit,?_⟩
  refine (hmade.runUnit _).trans ?_
  rw [map_eq_pure_bind]
  congr 1
  funext made
  have hvar : Acts (holding made) (Script.eval s unit Compile.instanceVar)
      (pure made) := instanceVar_acts made
  have hyield := steps_yield [.expr (.assign Compile.instanceName (.construct "A" [])),
    .yieldPair Compile.instanceVar false] true hvar
  rw [pure_bind] at hyield
  exact run'_acts hyield

/-- The unit returns another scope where it is read. -/
theorem forgedBatch_differs : forgedBatch.Differs loomPrepared none (.any "Loom") := by
  have hsorted : forgedBatch.graph.bindings.keys.Pairwise fun a b => a.before b = true := by
    decide +kernel
  have hcompile : (forgedBatch.compileInOrder loomPrepared).1 = .ok () := by decide +kernel
  have hb : forgedBatch.graph.get? (.any "Loom") =
      some (.construction ⟨forgedName,[],[],none,false,[]⟩) := rfl
  have hunit : Compile.unitOf forgedBatch.graph none
      (.construction ⟨forgedName,[],[],none,false,[]⟩) loomPrepared =
        (.ok forgedCode,loomPrepared) := rfl
  have htext : forgedCode.source = Script.printUnit forgedStatements := by decide +kernel
  have hprintable : ∀ t ∈ forgedStatements, t.printable = true := by decide
  refine .returned (Batch.compile_ok_of_pairwise hsorted hcompile) hb hunit (fun file => ?_)
    forgedStatements_returns
  rw [htext,Script.parseUnit_printUnit file hprintable]

/-- Two of those that tell the scope of the key differ though the batch is one that was prepared
at this site and no two of its keys have one stem. -/
structure Batch.Disagrees (b : Batch) (start : Site) (scope : Option ScopeOf) (key : Key) :
    Prop where
  prepared : Batch.make b.dir b.graph start = (.ok b,start)
  stems : (b.graph.bindings.keys.map Key.stem).Nodup
  differs : b.Differs start scope key

/-- Each condition is needed: for one of the keys the scopes differ where all but one are met. -/
theorem scopes_not_always_agree :
    slashedBatch.Disagrees loomPrepared none (.of "./a" "x") ∧
      crossedBatch.Disagrees crossedPrepared none (.any "Mill\\Loom") ∧
      forgedBatch.Disagrees loomPrepared none (.any "Loom") ∧
      loomBatch.Disagrees loomPrepared (some fun _ => pure false) (.any "Shuttle") ∧
      loomBatch.Disagrees stalePrepared (some (Resolve.scopeIn loomBatch.dir loomBatch.graph))
        (.any "Shuttle") ∧
      threadBatch.Disagrees hauntedPrepared none (.any "Shuttle") := by
  have hslashed : (slashedBatch.graph.bindings.keys.map Key.stem).Nodup := by decide +kernel
  have hcrossed : (crossedBatch.graph.bindings.keys.map Key.stem).Nodup := by decide +kernel
  have hforged : (forgedBatch.graph.bindings.keys.map Key.stem).Nodup := by decide +kernel
  have hloom : (loomBatch.graph.bindings.keys.map Key.stem).Nodup := by decide +kernel
  have hthread : (threadBatch.graph.bindings.keys.map Key.stem).Nodup := by decide +kernel
  exact ⟨⟨rfl,hslashed,slashedBatch_differs⟩,⟨rfl,hcrossed,crossedBatch_differs⟩,
    ⟨rfl,hforged,forgedBatch_differs⟩,⟨rfl,hloom,loomBatch_differs_told⟩,
    ⟨rfl,hloom,loomBatch_differs_stale⟩,⟨rfl,hthread,threadBatch_differs⟩⟩

end Wiring
