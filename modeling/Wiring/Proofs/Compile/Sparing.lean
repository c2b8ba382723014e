import Mathlib
import Wiring.Proofs.Compile.Filing
import Wiring.Proofs.Compile.Growing

/-!
# Where units come to lie

Whatever is done to compile units, concrete classes stay what they are, and a file that ends like
a unit is written only as the unit of a key that is compiled: one that the graph binds, one of the
two that every prepared graph binds, or one that asks for a concrete class.
-/
namespace Wiring

open Work
open Wiring.Path (EndsIn ofText)

namespace Layout

/-- Where the unit of a key lies. -/
def unitPlace (dir : String) (key : Key) : Path := ofText (unitPath dir key)

/-- The unit of this key lies where none of those lies. -/
def Elsewhere (free : String → Key → Prop) (dir : String) (key : Key) : Prop :=
  ∀ dir' key', free dir' key' → unitPlace dir' key' ≠ unitPlace dir key

end Layout

open Layout (unitPlace Elsewhere)

/-- Classes of these names are concrete, and no unit lies where those of these keys would. -/
structure Site.Spares (known : String → Prop) (free : String → Key → Prop) (site : Site) :
    Prop where
  known : ∀ name, known name → site.registry.Concrete name
  free : ∀ dir key, free dir key → site.files.contents.find? (unitPlace dir key) = none

/-- None of the units that a batch compiles is one of those. -/
def Batch.Spares (free : String → Key → Prop) (batch : Batch) : Prop :=
  ∀ key, batch.graph.has key = true → Elsewhere free batch.dir key

/-- The keys that every prepared graph binds, and any other graph may lack. -/
def Prepare.own : List Key := [Key.scriptDir,.any Key.injectorInterface]

namespace Prepare

variable {g g' : Graph}

theorem has_add_iff (g : Graph) (key other : Key) (b : Binding Value) :
    (g.add key b).has other = true ↔ g.has other = true ∨ other = key := by
  by_cases he : other = key
  · subst he
    simp [Graph.has_of_get? (Graph.get?_add_self g other b)]
  · rw [Container.has,Container.has,Table.has,Table.has]
    rw [show (g.add key b).bindings.find? other = g.bindings.find? other from
      Graph.get?_add_of_ne g b he]
    simp [he]

theorem bindInjector_has (g : Graph) (key : Key) : (bindInjector g).has key = true ↔
    g.has key = true ∨ key = .any Key.injectorInterface := by
  unfold bindInjector
  dsimp only
  split
  next hhas => exact ⟨.inl,fun h => h.elim id fun he => he ▸ hhas⟩
  next => exact has_add_iff ..

theorem mem_nullObjectsOf {n : Key × String} (hn : n ∈ nullObjectsOf g) : g.has n.1 = true :=
  Table.has_of_mem_keys (List.mem_map_of_mem (mem_nullObjectsOf_iff.mp hn))

theorem nullObjects_has (dir : String) (g : Graph) : (nullObjects dir g).Ensures fun g' =>
    ∀ key, g'.has key = true ↔ g.has key = true := by
  refine .foldlM (fun _ => .rfl) fun n hn g' hg' => (Ensures.any _).bind fun plan _ => ?_
  refine .pure fun key => (has_add_iff ..).trans ⟨fun h => ?_,fun h => .inl ((hg' key).mpr h)⟩
  exact h.elim (hg' key).mp fun he => he ▸ mem_nullObjectsOf hn

theorem has_of_sameKeys {rows : Table Key (Binding Value)}
    (h : rows.map Prod.fst = g.bindings.map Prod.fst) (key : Key) :
    Table.has rows key = true ↔ g.has key = true :=
  ⟨fun hr => Table.has_of_mem_keys (h ▸ Table.mem_keys_of_has hr),has_of_keys h⟩

theorem weave_has (g : Graph) : (Weave.graph g).Ensures fun woven =>
    ∀ key, woven.1.has key = true ↔ g.has key = true := by
  have hweave := Weave.graph_maintains (g := g) (R := fun _ _ => True) (fun _ _ => trivial)
    fun _ _ plan _ => .of_ensures (Ensures.any _)
  refine (hweave.imp ?_).ensures
  rintro ⟨_,failure⟩ ⟨rows,rfl,hrows⟩
  exact has_of_sameKeys (Table.keys_forall₂ (R := fun _ _ => True) hrows)

/-- A prepared graph binds what it did, and two keys besides. -/
theorem graph_has (dir : String) (g : Graph) : (Prepare.graph dir g).Ensures fun g' =>
    ∀ key, g'.has key = true ↔ g.has key = true ∨ key ∈ own := by
  refine (nullObjects_has dir g).bind fun g' hg' => (weave_has g').bind fun woven hwoven => ?_
  obtain ⟨woven,failure⟩ := woven
  cases failure with
  | some f => exact .throw f
  | none =>
    refine .pure fun key => ?_
    rw [has_add_iff,bindInjector_has,hwoven key,hg' key,own,List.mem_cons,List.mem_singleton]
    tauto

end Prepare

/-- A class that is found is registered then. -/
theorem Classes.find?_found {className : String} {c : ClassDecl} {site site' : Site}
    (h : Classes.find? className site = (.ok (some c),site')) :
    site'.registry.classes.find? className = some c := by
  have hregistry : Work.registry site = (.ok site.registry,site) := rfl
  unfold Classes.find? at h
  rw [run_bind hregistry] at h
  cases hc : site.registry.classes.find? className with
  | some d =>
    rw [hc] at h
    obtain ⟨hd,rfl⟩ := Prod.mk.inj h
    exact hc.trans (Except.ok.inj hd)
  | none =>
    rw [hc] at h
    dsimp only at h
    cases hload : Classes.load className site.registry.scriptDirs site with
    | mk answer loaded =>
      cases answer with
      | error f =>
        rw [run_bind_error _ hload] at h
        cases congrArg Prod.fst h
      | ok found =>
        rw [run_bind hload] at h
        cases found with
        | none => cases congrArg Prod.fst h
        | some d =>
          have hmodify : Work.modifyRegistry (·.register d) loaded =
              (.ok (),{ loaded with registry := loaded.registry.register d }) := rfl
          dsimp only at h
          rw [run_bind hmodify] at h
          obtain ⟨hd,rfl⟩ := Prod.mk.inj h
          exact Except.ok.inj hd

/-- What is inferred for a key is a concrete class that is known then. -/
theorem Demand.infer_concrete {key : Key} {site site' : Site} {plan : Plan Value}
    (h : Demand.infer key site = (.ok plan,site')) :
    key.isAny = true ∧ site'.registry.Concrete key.interface := by
  unfold infer at h
  cases hfind : Classes.find? key.interface site with
  | mk answer looked =>
    cases answer with
    | error f =>
      rw [run_bind_error _ hfind] at h
      cases congrArg Prod.fst h
    | ok found =>
      rw [run_bind hfind] at h
      cases found with
      | none => cases congrArg Prod.fst h
      | some c =>
        have hc := Classes.find?_found hfind
        dsimp only at h
        split at h
        next hcond =>
          rw [Bool.and_eq_true] at hcond
          rw [Plan.ofClass,run_bind (Classes.find_registered hc)] at h
          obtain ⟨_,rfl⟩ := Prod.mk.inj h
          exact ⟨hcond.2,c,hc,hcond.1⟩
        next => cases congrArg Prod.fst h

/-- The class is a concrete one still after more work of this kind. -/
theorem Demand.infer_lasts {α : Type} {key : Key} {site inferred : Site} {plan : Plan Value}
    {onward : Work α} (h : Demand.infer key site = (.ok plan,inferred))
    (honward : onward.Maintains (Site.Spares (· = key.interface) fun _ _ => False) fun _ => True) :
    key.isAny = true ∧ (onward inferred).2.registry.Concrete key.interface := by
  obtain ⟨hany,hconcrete⟩ := infer_concrete h
  exact ⟨hany,(honward inferred ⟨fun _ he => he ▸ hconcrete,nofun⟩).1.known _ rfl⟩

namespace Demand

variable {dir : String} {g : Graph} {scope : Option ScopeOf} {key : Key}

/-- What is left to be done once it is known how the key is bound. -/
def finish (dir : String) (g : Graph) (scope : Option ScopeOf) (key : Key) (b : Binding Value) :
    Work Unit := do
  let code ← Compile.unitOf g scope (← weave dir b)
  Save.unit dir key code

theorem compile_eq_finish :
    compile dir g scope key = bindingOf dir g key >>= finish dir g scope key := rfl

theorem compile_eq_infer (hbound : g.get? key = none) : compile dir g scope key =
    infer key >>= fun plan => finish dir g scope key (.construction plan) := by
  rw [compile_eq_finish,bindingOf,hbound]
  simp only [bind_assoc,pure_bind]

end Demand

namespace Site.Spares

variable {known : String → Prop} {free : String → Key → Prop} {α : Type} {dir : String} {key : Key}

section Files

theorem onFiles {v : FileWork α} (h : ∀ fs dir key, free dir key →
      fs.contents.find? (unitPlace dir key) = none →
      (v fs).2.contents.find? (unitPlace dir key) = none) :
    (Work.onFiles v).Maintains (Spares known free) fun _ => True := fun _ hsite =>
  ⟨⟨hsite.known,fun dir key hd => h _ dir key hd (hsite.free dir key hd)⟩,fun _ _ => trivial⟩

theorem leaves {v : FileWork α} (h : ∀ fs, (v fs).2 = fs) :
    (Work.onFiles v).Maintains (Spares known free) fun _ => True :=
  onFiles fun fs _ _ _ hfs => by rwa [h fs]

theorem ensureDirectory (text : String) :
    (Work.onFiles (Files.ensureDirectory text)).Maintains (Spares known free) fun _ => True := by
  refine onFiles fun fs dir key _ hfs => ?_
  rw [Files.ensureDirectory_run,(Files.makeDirectory_roomier text fs).contents]
  exact hfs

/-- Anything may be written where no such unit lies. -/
theorem write {text : String} (h : ∀ dir key, free dir key → unitPlace dir key ≠ ofText text)
    (contents : String) :
    (Work.onFiles (Files.write text contents)).Maintains (Spares known free) fun _ => True :=
  onFiles fun fs dir key hd hfs => (Files.write_keeps text contents fs _
    (Files.ofText_not_temporary _) (h dir key hd)).trans hfs

theorem append {text : String} (h : ∀ dir key, free dir key → unitPlace dir key ≠ ofText text)
    (contents : String) :
    (Work.onFiles (Files.append text contents)).Maintains (Spares known free) fun _ => True :=
  onFiles fun fs dir key hd hfs => ((Files.append_grows text contents fs).2 _
    (Files.ofText_not_temporary _) (h dir key hd)).trans hfs

/-- A file with another ending is not a unit. -/
theorem foreign {text : String} {ext : List Char} (h : EndsIn (ofText text) ext)
    (hext : Watch.clash ".di".toList ext = false) (dir : String) (key : Key) :
    unitPlace dir key ≠ ofText text := Watch.apart (Layout.unitPath_endsIn dir key) h hext

theorem clear (text : String) :
    (Work.onFiles (Files.clear text)).Maintains (Spares known free) fun _ => True := by
  refine onFiles fun fs dir key _ hfs => ?_
  have hget : (get : FileWork Files) fs = (.ok fs,fs) := rfl
  rw [Files.clear,run_bind hget]
  cases fs.status text with
  | file contents => exact hfs
  | missing => exact hfs
  | blocked => exact hfs
  | directory =>
    have hempty : ((modify (·.empty (ofText text)) : FileWork Unit) fs).2.contents =
        fs.contents.filter fun f => !Files.below (ofText text) f.1 := rfl
    rw [hempty]
    refine Table.find?_none fun hmem => ?_
    obtain ⟨row,hrow,hpath⟩ := List.mem_map.mp hmem
    have hhas := Table.has_of_mem_keys (List.mem_map_of_mem (List.mem_of_mem_filter hrow))
    rw [Table.has,hpath,hfs] at hhas
    cases hhas

end Files

section Classes

theorem look {look : Site → α} :
    (do return look (← get) : Work α).Maintains (Spares known free) fun _ => True :=
  fun _ hsite => ⟨hsite,fun _ _ => trivial⟩

theorem onHeap (f : Heap → α × Heap) :
    (Work.onHeap f).Maintains (Spares known free) fun _ => True :=
  fun _ hsite => ⟨⟨hsite.known,hsite.free⟩,fun _ _ => trivial⟩

/-- A concrete class may be registered, also in the place of another one. -/
theorem register {c : ClassDecl} (hc : c.isConcrete = true) :
    (Work.modifyRegistry (·.register c)).Maintains (Spares known free) fun _ => True := by
  refine fun site hsite => ⟨⟨fun name hname => ?_,hsite.free⟩,fun _ _ => trivial⟩
  obtain ⟨d,hd,hconcrete⟩ := hsite.known name hname
  by_cases he : name = c.name
  · exact ⟨c,by rw [he]; exact Table.find?_put_self ..,hc⟩
  · exact ⟨d,(Table.find?_put_of_ne _ _ he).trans hd,hconcrete⟩

theorem registerDir (dir : String) :
    (Classes.registerDir dir).Maintains (Spares known free) fun _ => True := by
  have hmodify : (Work.modifyRegistry fun r =>
      { r with scriptDirs := r.scriptDirs ++ [dir] }).Maintains (Spares known free) fun _ => True :=
    fun _ hsite => ⟨⟨hsite.known,hsite.free⟩,fun _ _ => trivial⟩
  unfold Classes.registerDir
  refine look.bind fun r _ => ?_
  split
  · exact .pure trivial
  · exact hmodify.bind fun _ _ => .pure trivial

/-- What is loaded is a generated class, which is concrete. -/
theorem load (className : String) (dirs : List String) :
    (Classes.load className dirs).Maintains (Spares known free)
      fun c => ∀ found, c = some found → found.isConcrete = true := by
  induction dirs with
  | nil => exact .pure (by simp)
  | cons dir rest ih =>
    unfold Classes.load
    refine (leaves (Classes.readIfExists_files _)).bind fun answer _ => ?_
    cases answer with
    | none => exact ih
    | some text =>
      refine (Compile.decode_maintains text GeneratedClass.ofJson?).bind fun c _ => .pure ?_
      rintro _ ⟨⟩
      rfl

theorem keep : Classes.Keep (Spares known free) := by
  intro className
  have hregistry : Work.registry.Maintains (Spares known free) fun _ => True := look
  unfold Classes.find?
  refine hregistry.bind fun r _ => ?_
  cases r.classes.find? className with
  | some c => exact .pure trivial
  | none =>
    refine (load className r.scriptDirs).bind fun c hc => ?_
    cases c with
    | none => exact .pure trivial
    | some c => exact (register (hc c rfl)).bind fun _ _ => hregistry.bind fun _ _ => .pure trivial

theorem ofClass (className : String) :
    (Plan.ofClass className).Maintains (Spares known free) fun _ => True :=
  (keep.find className).bind fun _ _ => .pure trivial

theorem body? (c : ClassDecl) (method : String) :
    (Classes.body? c method).Maintains (Spares known free) fun _ => True :=
  Classes.Keep.walkFuel.bind fun fuel _ => keep.bodyTo method fuel c

theorem setter? (c : ClassDecl) (method : String) :
    (Classes.setter? c method).Maintains (Spares known free) fun _ => True :=
  Classes.Keep.walkFuel.bind fun fuel _ => keep.setterTo method fuel c

theorem decodeNative (typeName : String) (bytes : List UInt8) :
    (Classes.decodeNative typeName bytes).Maintains (Spares known free) fun _ => True := by
  have hregistry : Work.registry.Maintains (Spares known free) fun _ => True := look
  unfold Classes.decodeNative
  refine hregistry.bind fun r _ => ?_
  dsimp only
  split
  · exact onHeap _
  · exact .throw _
  · exact onHeap _

theorem infer (key : Key) : (Demand.infer key).Maintains (Spares known free) fun _ => True := by
  unfold Demand.infer
  refine (keep key.interface).bind fun c _ => ?_
  cases c with
  | none => exact .throw _
  | some c =>
    dsimp only
    split
    · exact ofClass _
    · exact .throw _

/-- The class of a null object is saved and registered. -/
theorem nullObject (dir interface : String) :
    (Prepare.nullObject dir interface).Maintains (Spares known free) fun _ => True := by
  have hgenerated : (Classes.nullObject interface).Maintains (Spares known free) fun _ => True :=
    (Classes.Keep.walkFuel.bind fun fuel _ => keep.declaredTo fuel interface []).bind
      fun _ _ => .pure trivial
  unfold Prepare.nullObject
  refine hgenerated.bind fun c _ => ?_
  refine (write (fun dir' key' _ => ?_) _).bind fun _ _ => ?_
  · exact foreign (Layout.classPath_endsIn dir c.name) (by decide) dir' key'
  · exact (register (c := c.toClass) rfl).bind fun _ _ => ofClass c.name

end Classes

section Graphs

theorem prepare (dir : String) (g : Graph) :
    (Prepare.graph dir g).Maintains (Spares known free) fun _ => True := by
  have hobjects : (Prepare.nullObjects dir g).Maintains (Spares known free) fun _ => True :=
    .foldlM trivial fun n _ _ _ => (nullObject dir n.2).bind fun _ _ => .pure trivial
  refine hobjects.bind fun g' _ => ?_
  refine (Weave.graph_keeps keep g').bind fun woven _ => ?_
  obtain ⟨woven,failure⟩ := woven
  cases failure with
  | some f => exact .throw f
  | none => exact .pure trivial

/-- Building a module looks classes up and makes values. -/
theorem ofModule (statements : List ModuleStatement) :
    (Graph.ofModule statements).Maintains (Spares known free) fun _ => True := by
  refine fun site hsite => ⟨?_,fun _ _ => trivial⟩
  have hreached : Reached site (Graph.ofModule statements site).2 :=
    (Graph.runAll_accounts .empty statements site .start).1
  generalize (Graph.ofModule statements site).2 = after at hreached ⊢
  induction hreached with
  | start => exact hsite
  | looked className _ ih => exact (keep className _ ih).1
  | built tree _ ih => exact ((onHeap _) _ ih).1

end Graphs

section Units

variable {g : Graph} {scope : Option ScopeOf}

theorem inferredScope (key : Key) :
    (Compile.inferredScope key).Maintains (Spares known free) fun _ => True := by
  unfold Compile.inferredScope
  split
  · exact .pure trivial
  · refine (keep key.interface).bind fun c _ => ?_
    cases c with
    | none => exact .pure trivial
    | some c => exact .pure trivial

theorem scopeIn (dir : String) (g : Graph) (key : Key) :
    (Resolve.scopeIn dir g key).Maintains (Spares known free) fun _ => True := by
  unfold Resolve.scopeIn
  cases g.get? key with
  | some b => exact .pure trivial
  | none =>
    have hsaved : (Save.scope? dir key).Maintains (Spares known free) fun _ => True := by
      unfold Save.scope?
      refine (leaves (Classes.readIfExists_files _)).bind fun text _ => ?_
      cases text with
      | none => exact .pure trivial
      | some text => exact (Compile.decode_maintains _ _).bind fun _ _ => .pure trivial
    refine hsaved.bind fun shared _ => ?_
    cases shared with
    | none => exact .throw _
    | some shared => exact .pure trivial

theorem directScope (g : Graph) (key : Key) :
    (Resolve.directScope g key).Maintains (Spares known free) fun _ => True := by
  unfold Resolve.directScope
  cases g.get? key with
  | some b => exact .pure trivial
  | none => exact .throw _

/-- Compiling a binding writes nothing, and spares what telling scopes does. -/
theorem unitOf (hscope : ∀ scopeOf, scope = some scopeOf → ∀ key,
      (scopeOf key).Maintains (Spares known free) fun _ => True) (b : Binding Value) :
    (Compile.unitOf g scope b).Maintains (Spares known free) fun _ => True := by
  refine fun site hsite => ⟨?_,fun _ _ => trivial⟩
  have hpassed : Compile.Passed scope site (Compile.unitOf g scope b site).2 :=
    (Compile.unitOf_delivers b site .start).1
  have houtside (key : Key) :
      (Compile.scopeOutside scope key).Maintains (Spares known free) fun _ => True := by
    cases scope with
    | none => exact inferredScope key
    | some scopeOf =>
      refine (Maintains.attempt (hscope scopeOf rfl key)).bind fun answer _ => ?_
      split
      · exact .pure trivial
      · exact inferredScope key
      · exact .throw _
  generalize (Compile.unitOf g scope b site).2 = after at hpassed ⊢
  induction hpassed with
  | start => exact hsite
  | told key _ ih => exact (houtside key _ ih).1

theorem valueText (v : Value) :
    (Save.valueText v).Maintains (Spares known free) fun _ => True := by
  have hheap : Work.heap.Maintains (Spares known free) fun _ => True := look
  unfold Save.valueText
  exact hheap.bind fun _ _ => (Batch.orElse_maintains _ _).bind fun _ _ => .pure trivial

/-- A unit is saved where no other one lies that is spared. -/
theorem saveUnit (hkey : Elsewhere free dir key) (code : Code) :
    (Save.unit dir key code).Maintains (Spares known free) fun _ => True := by
  have hqualifiers (qs : List Qualifier) :
      (qs.forM (Save.qualifier dir)).Maintains (Spares known free) fun _ => True := by
    induction qs with
    | nil => exact .pure trivial
    | cons q rest ih =>
      have hends : EndsIn (ofText (Layout.qualifierPath dir q.1)) ".json".toList :=
        Path.join_endsIn (Path.join dir "qualifier") _ (by decide) (by decide)
      have hfirst : (Save.qualifier dir q).Maintains (Spares known free) fun _ => True :=
        (valueText q.2).bind fun text _ => write (fun dir' key' _ =>
          foreign hends (by decide) dir' key') text
      rw [Save.qualifiers_cons]
      exact hfirst.bind fun _ _ => ih
  unfold Save.unit
  refine (write hkey _).bind fun _ _ => ?_
  refine (write (fun dir' key' _ => ?_) _).bind fun _ _ => hqualifiers code.qualifiers
  exact foreign (Layout.metaPath_endsIn dir key) (by decide) dir' key'

theorem saveGraph (dir : String) (g : Graph) :
    (Save.graph dir g).Maintains (Spares known free) fun _ => True := by
  have hget : (get : Work Site).Maintains (Spares known free) fun _ => True := look
  have hheap : Work.heap.Maintains (Spares known free) fun _ => True := look
  have htext : (Save.graphText g).Maintains (Spares known free) fun _ => True := by
    unfold Save.graphText
    exact hheap.bind fun _ _ => (Batch.orElse_maintains _ _).bind fun _ _ => .pure trivial
  unfold Save.graph
  refine hget.bind fun site _ => ?_
  split
  · exact .pure trivial
  · refine htext.bind fun text _ => (write (fun dir' key' _ => ?_) text).bind fun _ _ =>
      .pure trivial
    exact foreign (Layout.modulePath_endsIn dir) (by decide) dir' key'

theorem readGraph (dir : String) :
    (Save.graph? dir).Maintains (Spares known free) fun _ => True := by
  unfold Save.graph?
  refine (leaves (Classes.readIfExists_files _)).bind fun text _ => ?_
  cases text with
  | none => exact .pure trivial
  | some text =>
    have hread : (Save.readGraph text).Maintains (Spares known free) fun _ => True :=
      (Compile.decode_maintains _ _).bind fun _ _ => onHeap _
    exact hread.bind fun _ _ => .pure trivial

theorem qualifier? (dir : String) (p : Parameter) :
    (Save.qualifier? dir p).Maintains (Spares known free) fun _ => True := by
  unfold Save.qualifier?
  refine (leaves (Classes.readIfExists_files _)).bind fun text _ => ?_
  cases text with
  | none => exact .pure trivial
  | some text =>
    refine (Compile.decode_maintains _ _).bind fun _ _ => ?_
    exact (onHeap _).bind fun _ _ => .pure trivial

end Units

section Batches

variable {batch : Batch}

theorem log (batch : Batch) (text : String) :
    (batch.log text).Maintains (Spares known free) fun _ => True :=
  append (fun dir key _ => foreign (Layout.logPath_endsIn batch.dir) (by decide) dir key) text

theorem compileKeys (h : batch.Spares free) (keys : List Key) :
    (batch.compileKeys keys).Maintains (Spares known free) fun _ => True := by
  induction keys with
  | nil => exact .pure trivial
  | cons key rest ih =>
    rw [Batch.compileKeys]
    refine (log batch _).bind fun _ _ => ?_
    cases hb : batch.graph.get? key with
    | none => exact ih
    | some b =>
      have hkey : (batch.compileKey key b).Maintains (Spares known free) fun _ => True := by
        have hunit : (Compile.unitOf batch.graph none b).Maintains (Spares known free)
            fun _ => True := by
          refine unitOf (fun scopeOf hscope => ?_) b
          cases hscope
        unfold Batch.compileKey
        refine (Maintains.attempt hunit).bind fun answer _ => ?_
        cases answer with
        | ok code => exact saveUnit (h key (Graph.has_of_get? hb)) code
        | error f => exact (log batch _).bind fun _ _ => .throw f
      exact hkey.bind fun _ _ => ih

theorem compileUnits (h : batch.Spares free) :
    batch.compileUnits.Maintains (Spares known free) fun _ => True :=
  (log batch "").bind fun _ _ => compileKeys h _

theorem savePointcuts (batch : Batch) :
    batch.savePointcuts.Maintains (Spares known free) fun _ => True := by
  unfold Batch.savePointcuts Save.pointcuts
  exact write (fun dir key _ =>
    foreign (Layout.pointcutsPath_endsIn batch.dir) (by decide) dir key) _

theorem compile (h : batch.Spares free) :
    batch.compile.Maintains (Spares known free) fun _ => True := by
  unfold Batch.compile
  refine (compileUnits h).bind fun _ _ => (savePointcuts batch).bind fun _ _ => ?_
  exact (Maintains.attempt (saveGraph batch.dir batch.graph)).bind fun _ _ => .pure trivial

/-- The units of a graph lie elsewhere, and so do those that it gets when it is prepared. -/
theorem make (g : Graph)
    (h : ∀ key, g.has key = true ∨ key ∈ Prepare.own → Elsewhere free dir key) :
    (Batch.make dir g).Maintains (Spares known free) (Batch.Spares free) := by
  refine (ensureDirectory dir).bind fun _ _ => ?_
  refine ((prepare dir g).ensured (Prepare.graph_has dir g)).bind fun g' ⟨_,hg'⟩ => .pure ?_
  exact fun key hkey => h key ((hg' key).mp hkey)

end Batches

section Single

variable {g : Graph}

theorem weave (dir : String) (b : Binding Value) :
    (Demand.weave dir b).Maintains (Spares known free) fun _ => True := by
  cases b with
  | construction plan =>
    have hread : (Save.pointcuts? dir).Maintains (Spares known free) fun _ => True := by
      unfold Save.pointcuts?
      refine (leaves (Classes.readIfExists_files _)).bind fun text _ => ?_
      cases text with
      | none => exact .pure trivial
      | some text => exact (Compile.decode_maintains _ _).bind fun _ _ => .pure trivial
    unfold Demand.weave
    refine hread.bind fun pointcuts _ => ?_
    cases pointcuts with
    | none => exact .pure trivial
    | some pointcuts => exact (keep.weave pointcuts plan).bind fun _ _ => .pure trivial
  | literal v => exact .pure trivial
  | provider plan shared context => exact .pure trivial
  | nullObject interface => exact .pure trivial

variable {scope : Option ScopeOf}

theorem finish (hscope : ∀ scopeOf, scope = some scopeOf → ∀ key,
      (scopeOf key).Maintains (Spares known free) fun _ => True)
    (hkey : Elsewhere free dir key) (b : Binding Value) :
    (Demand.finish dir g scope key b).Maintains (Spares known free) fun _ => True :=
  (weave dir b).bind fun woven _ => (unitOf hscope woven).bind fun code _ => saveUnit hkey code

/-- A compile on demand saves the unit of its key, which the graph binds, or which asks for a class
that is a concrete one in the end. -/
theorem demand (hscope : ∀ {known free} scopeOf, scope = some scopeOf → ∀ key,
      (scopeOf key).Maintains (Spares known free) fun _ => True)
    (hbound : ∀ key, g.has key = true → Elsewhere free dir key) {site : Site}
    (hclass : key.isAny = true →
      (Demand.compile dir g scope key site).2.registry.Concrete key.interface →
        Elsewhere free dir key) (h : Spares known free site) :
    Spares known free (Demand.compile dir g scope key site).2 := by
  cases hb : g.get? key with
  | some b =>
    have hbinding : (Demand.bindingOf dir g key).Maintains (Spares known free) fun _ => True := by
      unfold Demand.bindingOf
      rw [hb]
      cases b with
      | nullObject interface => exact (nullObject dir interface).bind fun _ _ => .pure trivial
      | literal v => exact .pure trivial
      | construction plan => exact .pure trivial
      | provider plan shared context => exact .pure trivial
    have hkey := hbound key (Graph.has_of_get? hb)
    rw [Demand.compile_eq_finish]
    exact (hbinding.bind (fun b _ => finish hscope hkey b) site h).1
  | none =>
    rw [Demand.compile_eq_infer hb] at hclass ⊢
    have hinferred : Spares known free (Demand.infer key site).2 := (infer key site h).1
    cases hinfer : Demand.infer key site with
    | mk answer inferred =>
      rw [hinfer] at hinferred
      cases answer with
      | error f =>
        rw [run_bind_error _ hinfer]
        exact hinferred
      | ok plan =>
        rw [run_bind hinfer] at hclass ⊢
        obtain ⟨hany,hstays⟩ := Demand.infer_lasts hinfer
          (finish hscope (fun _ _ hfree => hfree.elim) (.construction plan))
        have hkey := hclass hany hstays
        exact (finish hscope hkey (.construction plan) inferred hinferred).1

/-- The code of a direct injector is compiled in memory. -/
theorem directCode (g : Graph) (key : Key) : (do
    let binding ← Resolve.directBinding g key
    Compile.unitOf g (some (Resolve.directScope g)) binding : Work Code).Maintains
      (Spares known free) fun _ => True := by
  have hbinding : (Resolve.directBinding g key).Maintains (Spares known free) fun _ => True := by
    unfold Resolve.directBinding
    cases g.get? key with
    | some b => exact .pure trivial
    | none =>
      exact (infer key).bind fun plan _ => (keep.weave g.pointcuts plan).bind fun _ _ =>
        .pure trivial
  refine hbinding.bind fun b _ => unitOf (fun scopeOf hscope key => ?_) b
  obtain rfl := Option.some.inj hscope
  exact directScope g key

end Single
end Site.Spares
end Wiring
