import Mathlib
import Wiring.Proofs.Compile.Inference
import Wiring.Proofs.Compile.Weaving
import Wiring.Proofs.Compile.Whole
import Wiring.Proofs.Graph.Module

/-!
# A whole compile is complete

What the units of a module pull is bound, and has a unit of its own. The graph of the module
is closed: the concrete classes that its bindings ask for are bound in it. Preparing the graph
takes no key away, and brings in no arguments and no interceptors but those of the pointcuts.
A unit pulls keys that are bound, keys of concrete classes that its arguments ask for, and
interceptors.
-/
namespace Wiring

namespace Weave

open Work

variable {I : String → Prop} {advice : Table String (List String)}

/-- All interceptors that are recorded have the property. -/
def Among (I : String → Prop) (advice : Table String (List String)) : Prop :=
  ∀ row ∈ advice, ∀ i ∈ row.2, I i

theorem mem_appendNew {names more : List String} {n : String}
    (h : n ∈ Classes.appendNew names more) : n ∈ names ∨ n ∈ more := by
  induction more generalizing names with
  | nil => exact .inl h
  | cons first rest ih =>
    rcases ih h with hnames | hrest
    · dsimp only at hnames
      split at hnames
      · exact .inl hnames
      · rcases List.mem_append.mp hnames with hnames | hfirst
        · exact .inl hnames
        · rw [List.mem_singleton.mp hfirst]
          exact .inr List.mem_cons_self
    · exact .inr (List.mem_cons_of_mem _ hrest)

theorem Among.record {interceptors : List String} (h : Among I advice)
    (hi : ∀ i ∈ interceptors, I i) (methods : List String) :
    Among I (record advice methods interceptors) := by
  induction methods generalizing advice with
  | nil => exact h
  | cons method rest ih =>
    refine ih fun row hrow i hmem => ?_
    rcases Table.mem_put hrow with hrow | hvalue
    · exact h row hrow i hmem
    · rw [hvalue] at hmem
      rcases mem_appendNew hmem with hold | hnew
      · cases hfind : advice.find? method with
        | none =>
          rw [hfind] at hold
          cases hold
        | some l =>
          rw [hfind] at hold
          exact h (method,l) (Table.mem_of_find? hfind) i hold
      · exact hi i hnew

theorem plan_among {pointcuts : List Pointcut} (hp : ∀ p ∈ pointcuts, ∀ i ∈ p.interceptors, I i)
    {plan : Plan Value} (h : Among I plan.advice) : (Weave.plan pointcuts plan).Ensures
      fun woven => woven.allArguments = plan.allArguments ∧ Among I woven.advice := by
  refine (Ensures.any _).bind fun methods _ => .foldlM ⟨rfl,h⟩ fun p hmem woven ⟨hsame,hwoven⟩ => ?_
  refine (Ensures.any _).bind fun selected _ => ?_
  split
  · exact .pure ⟨hsame,hwoven.record (hp p hmem) _⟩
  · exact .pure ⟨hsame,hwoven⟩

end Weave

/-- The arguments and the recorded interceptors of the binding have these properties. -/
structure Binding.Draws (A : Argument Value → Prop) (I : String → Prop) (b : Binding Value) :
    Prop where
  arguments : ∀ a ∈ b.allArguments, A a
  advice : ∀ plan, b = .construction plan → Weave.Among I plan.advice

section Preparing

open Work

variable {A : Argument Value → Prop} {I : String → Prop} {g g' : Graph}

theorem Binding.draws_literal (v : Value) : Binding.Draws A I (.literal v) := ⟨nofun,nofun⟩

theorem Binding.draws_construction {plan : Plan Value} (ha : ∀ a ∈ plan.allArguments, A a)
    (hi : Weave.Among I plan.advice) : Binding.Draws A I (.construction plan) := by
  refine ⟨ha,?_⟩
  rintro _ ⟨⟩
  exact hi

theorem Binding.Draws.intercepted {b : Binding Value} (h : b.Draws A I) :
    ∀ p ∈ b.intercepted, ∃ i, I i ∧ p.key = .any i := by
  intro p hp
  cases b with
  | construction plan =>
    obtain ⟨row,hrow,hp⟩ := List.mem_flatMap.mp hp
    obtain ⟨i,hmem,rfl⟩ := List.mem_map.mp hp
    exact ⟨i,h.advice plan rfl row hrow i hmem,rfl⟩
  | literal v => cases hp
  | provider plan shared context => cases hp
  | nullObject interface => cases hp

/-- A graph on the way from the first one to the prepared one. -/
structure Prepare.Holds (A : Argument Value → Prop) (I : String → Prop) (g g' : Graph) :
    Prop where
  pointcuts : g'.pointcuts = g.pointcuts
  bound : ∀ key, g.has key = true → g'.has key = true
  draws : ∀ row ∈ g'.bindings, row.2.Draws A I

namespace Prepare

theorem Holds.add (h : Holds A I g g') (key : Key) {b : Binding Value} (hb : b.Draws A I) :
    Holds A I g (g'.add key b) where
  pointcuts := h.pointcuts
  bound other hhas := Graph.has_add b (h.bound other hhas)
  draws row hrow := by
    rcases Table.mem_put hrow with hrow | hvalue
    · exact h.draws row hrow
    · rw [hvalue]
      exact hb

theorem Holds.bindInjector (h : Holds A I g g') : Holds A I g (bindInjector g') := by
  unfold Prepare.bindInjector
  dsimp only
  split
  · exact h
  · exact h.add _ (Binding.draws_literal _)

/-- The plan of a generated null class asks for nothing. -/
theorem nullObject_draws (dir interface : String) :
    (nullObject dir interface).Ensures fun plan => Binding.Draws A I (.construction plan) := by
  refine (Ensures.any _).bind fun generated _ => (Ensures.any _).bind fun _ _ => ?_
  intro site plan site' hrun
  have hregister : Work.modifyRegistry (·.register generated.toClass) site =
      (.ok (),{ site with registry := site.registry.register generated.toClass }) := rfl
  have hfound : (site.registry.register generated.toClass).classes.find? generated.name =
      some generated.toClass := Table.find?_put_self ..
  rw [run_bind hregister,Plan.ofClass,run_bind (Classes.find_registered hfound)] at hrun
  obtain rfl := Except.ok.inj (Prod.mk.inj hrun).1
  exact Binding.draws_construction nofun nofun

theorem nullObjects_holds (dir : String) (h : Holds A I g g) :
    (nullObjects dir g).Ensures (Holds A I g) :=
  .foldlM h fun n _ _ hg' => (nullObject_draws dir n.2).bind fun _ hplan => .pure (hg'.add n.1 hplan)

/-- Weaving adds no interceptors but those of the pointcuts. -/
theorem plan_draws {pointcuts : List Pointcut} (hp : ∀ p ∈ pointcuts, ∀ i ∈ p.interceptors, I i)
    {plan : Plan Value} (h : Binding.Draws A I (.construction plan)) :
    (Weave.plan pointcuts plan).Ensures fun woven => Binding.Draws A I (.construction woven) := by
  refine fun site woven site' hrun => ?_
  obtain ⟨hsame,hwoven⟩ := Weave.plan_among hp (h.advice plan rfl) site woven site' hrun
  refine Binding.draws_construction ?_ hwoven
  rw [hsame]
  exact h.arguments

theorem has_of_keys {rows : Table Key (Binding Value)} {key : Key}
    (h : rows.map Prod.fst = g.bindings.map Prod.fst) (hhas : g.has key = true) :
    Table.has rows key = true := by
  refine Table.has_of_mem_keys ?_
  rw [h]
  exact Table.mem_keys_of_has hhas

/-- Preparing a graph takes no key away, and the bindings draw on no arguments and no
interceptors but those of the graph. -/
theorem graph_holds (dir : String) (hg : ∀ row ∈ g.bindings, row.2.Draws A I)
    (hp : ∀ p ∈ g.pointcuts, ∀ i ∈ p.interceptors, I i) :
    (Prepare.graph dir g).Ensures (Holds A I g) := by
  have hweave {g' : Graph} (h : Holds A I g g') :
      (Weave.graph g').Ensures fun woven => Holds A I g woven.1 := by
    have hgraph := Weave.graph_maintains (R := fun _ b => b.Draws A I) h.draws
      fun row hrow plan hb => .of_ensures (plan_draws (h.pointcuts ▸ hp) (hb ▸ h.draws row hrow))
    refine (hgraph.imp ?_).ensures
    rintro ⟨_,failure⟩ ⟨rows,rfl,hrows⟩
    refine ⟨h.pointcuts,fun key hhas => ?_,fun row hrow => ?_⟩
    · have hkeys := Table.keys_forall₂ (R := fun _ b : Binding Value => b.Draws A I) hrows
      exact has_of_keys hkeys (h.bound key hhas)
    · obtain ⟨_,_,_,hdraws⟩ := mem_of_forall₂ hrows hrow
      exact hdraws
  refine (nullObjects_holds dir ⟨rfl,fun _ h => h,hg⟩).bind fun g' hg' => ?_
  refine (hweave hg').bind fun woven hwoven => ?_
  obtain ⟨woven,failure⟩ := woven
  cases failure with
  | none => exact .pure (hwoven.bindInjector.add _ (Binding.draws_literal _))
  | some f => exact .throw f

end Prepare
end Preparing

section Modules

open Work

variable {statements : List ModuleStatement} {g : Graph} {r : Registry} {site site' : Site}

/-- What is bound by a statement of its own is bound in the end, though another binding may
have taken its place. -/
theorem Graph.has_of_explicit (h : Graph.ofModule statements site = (.ok g,site')) {key : Key}
    {origin : Origin} (hkey : (Ledger.explicit statements).origins key = some origin) :
    g.has key = true := by
  obtain ⟨l,hl,hg⟩ := (Graph.runAll_accounts .empty statements site .start).2 g
    (congrArg Prod.fst h)
  have hbound : ∃ origin, l.origins key = some origin := by
    rcases (hl.resembles (.refl _)).2 key with hsame | ⟨c,_,himplied⟩
    · exact ⟨origin,hsame.trans hkey⟩
    · exact ⟨_,himplied⟩
  obtain ⟨_,horigin⟩ := hbound
  obtain ⟨b,hb,_⟩ := hg.found horigin
  exact Graph.has_of_get? hb

/-- Where an argument asks for a concrete class under any name, its key is bound. -/
def Graph.Answers (r : Registry) (g : Graph) (a : Argument Value) : Prop :=
  a.key.isAny = true → a.key.interface ≠ "" → r.Concrete a.key.interface → g.has a.key = true

theorem Graph.Complete.answers {b : Binding Value} (h : Graph.Complete r g b) :
    ∀ a ∈ b.allArguments, Graph.Answers r g a := by
  intro a ha hany hne hconcrete
  have hcandidate (plan : Plan Value) (ha : a ∈ plan.allArguments) :
      a.key.interface ∈ plan.candidates :=
    List.mem_filterMap.mpr ⟨a,ha,by simp [hany,hne]⟩
  rw [← Key.any_interface hany]
  refine h.bound _ ?_ hconcrete
  cases b with
  | construction plan => exact hcandidate plan ha
  | provider plan shared context => exact hcandidate plan ha
  | literal v => cases ha
  | nullObject interface => cases ha

theorem Graph.Closed.draws (h : Graph.Closed r g) (I : String → Prop) :
    ∀ row ∈ g.bindings, row.2.Draws (Graph.Answers r g) I := by
  intro row hrow
  have hcomplete := h.complete row.1 row.2 (Table.find?_of_mem h.nodup hrow)
  refine ⟨hcomplete.answers,fun plan hplan => ?_⟩
  have hunwoven := hcomplete.unwoven
  rw [hplan] at hunwoven
  rw [show plan.advice = [] from hunwoven]
  exact nofun

end Modules

namespace Batch

open Work

variable {b : Batch} {dir : String} {g : Graph} {start site fin : Site}

theorem compile_grows {fs : Files} :
    b.compile.Maintains (fun site => Files.Grows fs site.files) fun _ => True := by
  have hgraph : (Save.graph b.dir b.graph).Maintains (fun site => Files.Grows fs site.files)
      fun _ => True := fun site hsite =>
    ⟨hsite.trans (saveGraph_written b.dir b.graph site (.refl site)).1.grows,fun _ _ => trivial⟩
  have hpointcuts : b.savePointcuts.Maintains (fun site => Files.Grows fs site.files)
      fun _ => True := by
    unfold savePointcuts Save.pointcuts
    exact onFiles_grows (Files.write_grows _ _)
  unfold compile compileUnits
  refine ((log_grows _).bind fun _ _ => compileKeys_grows _).bind fun _ _ => ?_
  exact hpointcuts.bind fun _ _ => hgraph.attempt.bind fun _ _ => .pure trivial

/-- The binding of the key compiles at the start, and the key has a unit file now. -/
structure HasUnit (dir : String) (g : Graph) (start site : Site) (key : Key)
    (binding : Binding Value) : Prop where
  compiles : ∃ code, Compile.unitOf g none binding start = (.ok code,start)
  file : (site.files.contents.find? (Path.ofText (Layout.unitPath dir key))).isSome = true

theorem HasUnit.of_grows {key : Key} {binding : Binding Value}
    (h : HasUnit dir g start site key binding) (hgrows : Files.Grows site.files fin.files) :
    HasUnit dir g start fin key binding :=
  ⟨h.compiles,hgrows.contents _ (Files.ofText_not_temporary _) h.file⟩

/-- The induction is on the keys: a file that is there stays there, and no class is read. -/
theorem compileKeys_units (hstart : Calm g start start) {last : Site}
    (hlast : Calm g start last) {keys : List Key} (hheap : site.heap = start.heap)
    (hregistry : site.registry = start.registry)
    (hrun : compileKeys ⟨dir,g⟩ keys site = (.ok (),fin))
    (hgrows : Files.Grows fin.files last.files) :
    ∀ key ∈ keys, ∀ binding, g.get? key = some binding → HasUnit dir g start fin key binding := by
  induction keys generalizing site with
  | nil => exact nofun
  | cons key rest ih =>
    obtain ⟨logged,hlog,hrest⟩ := compileKeys_cons hrun
    obtain ⟨hlogged,_⟩ := log_run hlog
    have hheap' : logged.heap = start.heap := by rw [hlogged,hheap]
    have hregistry' : logged.registry = start.registry := by rw [hlogged,hregistry]
    rcases hrest with ⟨hnone,hrest⟩ | ⟨binding,saved,hb,hkey,hrest⟩
    · refine List.forall_mem_cons.mpr ⟨fun binding hb => ?_,ih hheap' hregistry' hrest⟩
      cases hnone.symm.trans hb
    · have hhead := compileKey_grows (b := ⟨dir,g⟩) key binding logged (.refl logged.files)
      have htail := compileKeys_grows (b := ⟨dir,g⟩) rest saved (.refl saved.files)
      rw [hkey] at hhead
      rw [hrest] at htail
      have hcalm : Calm g start logged :=
        hlast.of_grows hheap' hregistry' ((hhead.1.trans htail.1).trans hgrows)
      obtain ⟨code,files,hunit,hfiles,hwrite,hsaved⟩ := compileKey_run hstart hcalm hb hkey
      have hthere : HasUnit dir g start saved key binding := by
        obtain ⟨kept,_,hparts⟩ := Code.files?_eq_some.mp hfiles
        have hunitFile : (Layout.unitPath dir key,code.source) ∈ Save.placed dir files := by
          rw [hparts]
          exact List.mem_cons_self
        have hfile := Files.writeAll_there hwrite _ hunitFile
        exact ⟨⟨code,hunit⟩,hfile⟩
      refine List.forall_mem_cons.mpr ⟨fun binding' hb' => ?_,
        ih (by rw [hsaved,hheap']) (by rw [hsaved,hregistry']) hrest⟩
      obtain rfl := Option.some.inj (hb.symm.trans hb')
      exact hthere.of_grows htail.1

/-- Every bound key has a unit after a whole compile that succeeds. -/
theorem compile_units (hlast : Calm g start { start with files := fin.files })
    (hrun : compile ⟨dir,g⟩ start = (.ok (),fin)) :
    Calm g start start ∧ ∀ key binding, g.get? key = some binding →
      HasUnit dir g start fin key binding := by
  have hall := (compile_grows (b := ⟨dir,g⟩) start (.refl start.files)).1
  rw [hrun] at hall
  have hstart : Calm g start start := hlast.of_grows rfl rfl hall
  obtain ⟨logged,saved,woven,hlog,hkeys,hpointcuts,hgraph⟩ := compile_ok hrun
  obtain ⟨hlogged,_⟩ := log_run hlog
  have hwoven := (write_written (Layout.pointcutsPath dir) (pointcutsText g) saved (.refl saved)).1
  have hfin := (saveGraph_written dir g woven (.refl woven)).1
  rw [hpointcuts] at hwoven
  rw [hgraph] at hfin
  have hgrows : Files.Grows saved.files fin.files := hwoven.grows.trans hfin.grows
  refine ⟨hstart,fun key binding hb => ?_⟩
  exact (compileKeys_units hstart hlast (by rw [hlogged]) (by rw [hlogged]) hkeys hgrows key
    (mem_sortedKeys hb) binding hb).of_grows hgrows

/-- No generated class stands behind the name: preparing the graph has registered none under
it, and no file describes one when the compile is over. -/
structure Ungenerated (start prepared fin : Site) (className : String) : Prop where
  registered : prepared.registry.classes.find? className = start.registry.classes.find? className
  unread : prepared.registry.Unread fin.files className

end Batch

/-- What can be pulled by a unit of a prepared graph is bound, if the graph it is prepared from
is closed. -/
theorem Prepare.Holds.pulled {start prepared : Site} {g P : Graph}
    (h : Prepare.Holds (Graph.Answers start.registry g) (fun i => g.has (.any i) = true) g P)
    {key : Key} {binding : Binding Value} (hb : P.get? key = some binding)
    (hknown : ∀ a ∈ binding.allArguments, prepared.registry.classes.find? a.key.interface =
      start.registry.classes.find? a.key.interface) :
    (∀ p, Compile.Sourced prepared.registry P binding.allArguments p → P.has p.key = true) ∧
      ∀ p ∈ binding.intercepted, P.has p.key = true := by
  have hdraws := h.draws (key,binding) (Table.mem_of_find? hb)
  refine ⟨fun p hp => ?_,fun p hp => ?_⟩
  · cases hp with
    | bound hb' => exact Graph.has_of_get? hb'
    | inferred ha _ hinfers =>
      obtain ⟨c,hc,hconcrete,_⟩ := hinfers.found
      rw [hknown _ ha] at hc
      exact h.bound _ (hdraws.arguments _ ha hinfers.isAny hinfers.named ⟨c,hc,hconcrete⟩)
  · obtain ⟨i,hi,hkey⟩ := hdraws.intercepted p hp
    rw [hkey]
    exact h.bound _ hi

open Work in
/-- The units of a module are linked completely. If the interceptors are bound explicitly or
are registered concrete classes, and no parameter is typed with a generated class, then every
bound key has a compiled unit, and whatever it pulls is bound and has a unit file. -/
theorem compiled_pulls_are_linked {dir : String} {statements : List ModuleStatement}
    {start prepared fin : Site} {b : Batch}
    (hfixed : start.registry.Fixed start.files)
    (hmodule : Batch.ofModule dir statements start = (.ok b,prepared))
    (hcompile : b.compile prepared = (.ok (),fin))
    (hinterceptors : ∀ p ∈ b.graph.pointcuts, ∀ i ∈ p.interceptors,
      (∃ origin, (Ledger.explicit statements).origins (.any i) = some origin) ∨
        start.registry.Concrete i)
    (hparameters : ∀ row ∈ b.graph.bindings, ∀ a ∈ row.2.allArguments,
      Batch.Ungenerated start prepared fin a.key.interface) :
    ∀ key binding, b.graph.get? key = some binding →
      ∃ code, Compile.unitOf b.graph none binding prepared = (.ok code,prepared) ∧
        ∀ p ∈ code.pulls, b.graph.has p.key = true ∧
          (fin.files.contents.find? (Path.ofText (Layout.unitPath b.dir p.key))).isSome = true := by
  rw [Batch.ofModule] at hmodule
  obtain ⟨g,mid,hg,hmake⟩ := Work.run_bind_ok hmodule
  rw [Batch.make] at hmake
  obtain ⟨_,opened,_,hmake⟩ := Work.run_bind_ok hmake
  obtain ⟨P,after,hprepare,hend⟩ := Work.run_bind_ok hmake
  obtain ⟨hanswer,rfl⟩ := Prod.mk.inj hend
  obtain rfl := Except.ok.inj hanswer
  dsimp only at hcompile hinterceptors hparameters ⊢
  have hclosed : Graph.Closed start.registry g :=
    (Graph.ofModule_closed hfixed statements start ⟨rfl,rfl⟩).2 g (congrArg Prod.fst hg)
  have hpointcuts : P.pointcuts = g.pointcuts :=
    (Prepare.graph_holds dir (hclosed.draws fun _ => True) (fun _ _ _ _ => trivial) opened P after
      hprepare).pointcuts
  have hholds : Prepare.Holds (Graph.Answers start.registry g) (fun i => g.has (.any i) = true)
      g P := by
    refine Prepare.graph_holds dir (hclosed.draws _) (fun p hp i hi => ?_) opened P after hprepare
    rcases hinterceptors p (hpointcuts ▸ hp) i hi with ⟨origin,horigin⟩ | hconcrete
    · exact Graph.has_of_explicit hg horigin
    · exact hclosed.interceptors p hp i hi hconcrete
  have hlast : Batch.Calm P after { after with files := fin.files } := by
    refine ⟨rfl,rfl,fun className hasked => ?_⟩
    obtain ⟨row,hrow,hasked⟩ := List.mem_flatMap.mp hasked
    obtain ⟨a,ha,rfl⟩ := List.mem_map.mp hasked
    exact (hparameters row hrow a (List.mem_filter.mp ha).1).unread
  obtain ⟨hcalm,hunits⟩ := Batch.compile_units hlast hcompile
  intro key binding hb
  obtain ⟨code,hcode⟩ := (hunits key binding hb).compiles
  obtain ⟨hsupplied,hpulls⟩ := Compile.unitOf_sourced hcalm (Container.within_outsiders hb) hcode
  obtain ⟨hsourced,hintercepted⟩ := hholds.pulled hb fun a ha =>
    (hparameters (key,binding) (Table.mem_of_find? hb) a ha).registered
  refine ⟨code,hcode,fun p hp => ?_⟩
  have hbound : P.has p.key = true := by
    rw [hpulls] at hp
    exact (List.mem_append.mp hp).elim (fun hp => hsourced p (hsupplied p hp)) (hintercepted p)
  obtain ⟨other,hother⟩ := Graph.get?_of_has hbound
  exact ⟨hbound,(hunits p.key other hother).file⟩

/-- A mill asks for a stone, and is watched while it grinds. -/
def millClasses : Site where
  registry := { classes :=
    [("Mill",{ name := "Mill"
               parameters := [⟨"stone",some "Stone",none,none,none,none⟩]
               methods := [("grind",[])] }),
      ("Stone",{ name := "Stone" }),("Watch",{ name := "Watch" })] }

def millPointcut : Pointcut := ⟨.any,.startsWith "gr",["Watch"]⟩

def millStatements : List ModuleStatement :=
  [.bind "" (some "ScriptDir") (.literal (.text "s")) false,
    .bind Key.injectorInterface none (.literal .injector) false,
    .bind "Mill" none .untargeted true,.intercept millPointcut]

/-- The graph of the mill, with the interceptors that its methods have. -/
def millGraph (advice : Table String (List String)) : Graph where
  bindings :=
    [(Key.scriptDir,.literal (.text "s")),
      (.any Key.injectorInterface,.literal (.injector none)),
      (.any "Mill",.construction ⟨"Mill",
        [⟨.any "Stone",⟨"Mill","__construct","stone"⟩,none,none,none⟩],[],none,true,advice⟩),
      (.any "Stone",.construction ⟨"Stone",[],[],none,false,[]⟩),
      (.any "Watch",.construction ⟨"Watch",[],[],none,false,[]⟩)]
  pointcuts := [millPointcut]
  maps := []

def millPrepared : Site := { millClasses with files := { directories := [["s"]] } }

def millBatch : Batch := ⟨"s",millGraph [("grind",["Watch"])]⟩

@[irreducible]
def millFinished : Site := (millBatch.compileInOrder millPrepared).2

open Work in
theorem millBatch_made :
    Batch.ofModule "s" millStatements millClasses = (.ok millBatch,millPrepared) := by
  have hmodule : Graph.ofModule millStatements millClasses = (.ok (millGraph []),millClasses) := rfl
  have hopen : Work.onFiles (Files.ensureDirectory "s") millClasses = (.ok (),millPrepared) := rfl
  have hnull : Prepare.nullObjects "s" (millGraph []) millPrepared =
      (.ok (millGraph []),millPrepared) := rfl
  have hweave : Weave.graph (millGraph []) millPrepared =
      (.ok (millGraph [("grind",["Watch"])],none),millPrepared) := rfl
  rw [Batch.ofModule,run_bind hmodule,Batch.make,run_bind hopen,Prepare.graph,bind_assoc,
    run_bind hnull,bind_assoc,run_bind hweave]
  rfl

theorem millBatch_compiled : millBatch.compile millPrepared = (.ok (),millFinished) := by
  have hsorted : millBatch.graph.bindings.keys.Pairwise fun a b => a.before b = true := by
    decide +kernel
  have hrun : (millBatch.compileInOrder millPrepared).1 = .ok () := by decide +kernel
  unfold millFinished
  exact Batch.compile_ok_of_pairwise hsorted hrun

/-- The mill pulls its stone and the shared watch. -/
theorem compiled_pulls_are_linked_sample : ∃ binding code,
    millBatch.graph.get? (.any "Mill") = some binding ∧
      Compile.unitOf millBatch.graph none binding millPrepared = (.ok code,millPrepared) ∧
      code.pulls = [⟨false,.any "Stone"⟩,⟨true,.any "Watch"⟩] ∧
      ∀ p ∈ code.pulls, millBatch.graph.has p.key = true ∧
        (millFinished.files.contents.find?
          (Path.ofText (Layout.unitPath millBatch.dir p.key))).isSome = true := by
  have hconcrete : millClasses.registry.Concrete "Watch" := ⟨_,rfl,rfl⟩
  have hstone : ∀ row ∈ millBatch.graph.bindings, ∀ a ∈ row.2.allArguments,
      a.key.interface = "Stone" := by decide +kernel
  have hlinked := compiled_pulls_are_linked millClasses.registry.fixed_empty millBatch_made
    millBatch_compiled
    (fun p hp i hi => by
      obtain rfl := List.mem_singleton.mp hp
      obtain rfl := List.mem_singleton.mp hi
      exact .inr hconcrete)
    (fun row hrow a ha => by
      rw [hstone row hrow a ha]
      exact ⟨rfl,.inl rfl⟩)
  obtain ⟨binding,hb⟩ : ∃ binding, millBatch.graph.get? (.any "Mill") = some binding := ⟨_,rfl⟩
  obtain ⟨code,hcode,hall⟩ := hlinked (.any "Mill") binding hb
  refine ⟨binding,code,hb,hcode,?_,hall⟩
  have hpulls : (Compile.unitOf millBatch.graph none
      ((millBatch.graph.get? (.any "Mill")).getD default) millPrepared).1.map Code.pulls =
      .ok [⟨false,.any "Stone"⟩,⟨true,.any "Watch"⟩] := rfl
  rw [hb,Option.getD_some,hcode] at hpulls
  exact Except.ok.inj hpulls

end Wiring
