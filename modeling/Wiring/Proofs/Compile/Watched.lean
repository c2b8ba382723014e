import Mathlib
import Wiring.Proofs.Compile.Filing
import Wiring.Proofs.Compile.Repeating
import Wiring.Proofs.Compile.Weaving

/-!
# Compiling under watch

At a site that is sound the classes and the files fit the key that is watched, and the values
of graphs are sealed. Whatever is done to compile units leaves the site sound, also where it
fails; and the units fit.
-/
namespace Wiring

open Heap (Grown)

namespace Watch

open Work Wiring.Path

variable (W : Watch) (σ : Seal)

/-- The classes and the files fit. Objects that units have made are not sealed. -/
structure Sound (made : List Nat) (site : Site) : Prop where
  sealed : σ.Holds site.heap
  made : ∀ i ∈ made, i < site.heap.objects.size ∧ ¬σ.objects i
  classes : ∀ name c, site.registry.classes.find? name = some c → W.ClassFits σ name c
  files : ∀ path text, ¬Files.Temporary path → site.files.contents.find? path = some text →
    W.FileFits path text
  /-- The graph is there where it may be read. -/
  recorded : W.recorded → ∀ dir, W.dir? = some dir →
    site.files.exists? (Layout.modulePath dir) = true

variable {W σ} {made : List Nat}

section Files

variable {α : Type}

theorem Sound.of_files {site : Site} (h : W.Sound σ made site) {fs : Files}
    (hgrows : Files.Grows site.files fs)
    (hfs : ∀ path text, ¬Files.Temporary path → fs.contents.find? path = some text →
      W.FileFits path text) : W.Sound σ made { site with files := fs } where
  sealed := h.sealed
  made := h.made
  classes := h.classes
  files := hfs
  recorded hrecorded dir hdir := hgrows.exists? (h.recorded hrecorded dir hdir)

theorem ensureDirectory_sound (dir : String) :
    (Work.onFiles (Files.ensureDirectory dir)).Maintains (W.Sound σ made) fun _ => True := by
  intro site hsite
  have hroomier := Files.makeDirectory_roomier dir site.files
  rw [onFiles_run,Files.ensureDirectory_run]
  refine ⟨hsite.of_files hroomier.grows fun path text hpath hfind => ?_,fun _ _ => trivial⟩
  rw [hroomier.contents] at hfind
  exact hsite.files path text hpath hfind

theorem read_sound (text : String) : (Work.onFiles (Files.read text)).Maintains (W.Sound σ made)
    fun contents => W.FileFits (ofText text) contents := by
  intro site hsite
  rw [onFiles_run,Files.read_files]
  refine ⟨hsite,fun contents hread => ?_⟩
  refine hsite.files _ contents (Files.ofText_not_temporary text) (Files.find?_of_status ?_)
  have hget : (get : FileWork Files) site.files = (.ok site.files,site.files) := rfl
  rw [Files.read,run_bind hget] at hread
  cases hs : site.files.status text with
  | file found =>
    rw [hs] at hread
    rw [Except.ok.inj hread]
  | missing | directory | blocked =>
    rw [hs] at hread
    cases hread

theorem readIfExists_sound (text : String) :
    (Work.onFiles (Files.readIfExists text)).Maintains (W.Sound σ made)
      fun answer => ∀ contents, answer = some contents → W.FileFits (ofText text) contents := by
  intro site hsite
  rw [onFiles_run,Classes.readIfExists_files]
  refine ⟨hsite,fun answer hread contents hanswer => ?_⟩
  subst hanswer
  refine hsite.files _ contents (Files.ofText_not_temporary text) ?_
  exact Files.find?_of_readIfExists (Prod.ext hread rfl)

/-- A file may be written if its text fits; a write that fails leaves it as it was. -/
theorem write_sound {text contents : String} (h : W.FileFits (ofText text) contents) :
    (Work.onFiles (Files.write text contents)).Maintains (W.Sound σ made) fun _ => True := by
  intro site hsite
  rw [onFiles_run]
  refine ⟨hsite.of_files (Files.write_grows text contents _) fun path found hpath hfind => ?_,
    fun _ _ => trivial⟩
  obtain ⟨fs,_,hfailed | ⟨_,hrun,hthere,hkeeps⟩⟩ := Files.write_cases text contents site.files
  · obtain ⟨_,⟨_,hrun⟩,hkeeps⟩ := hfailed
    rw [hrun,hkeeps path hpath id] at hfind
    exact hsite.files path found hpath hfind
  · rw [hrun] at hfind
    by_cases hp : path = ofText text
    · subst hp
      rw [Option.some.inj (hfind.symm.trans hthere)]
      exact h
    · rw [hkeeps path hpath hp] at hfind
      exact hsite.files path found hpath hfind

/-- Any text may be added to a file that may say anything. -/
theorem append_sound {text : String} (contents : String)
    (h : ∀ all, W.FileFits (ofText text) all) :
    (Work.onFiles (Files.append text contents)).Maintains (W.Sound σ made) fun _ => True := by
  intro site hsite
  have hgrows := Files.append_grows text contents site.files
  rw [onFiles_run]
  refine ⟨hsite.of_files hgrows.1 fun path found hpath hfind => ?_,fun _ _ => trivial⟩
  by_cases hp : path = ofText text
  · subst hp
    exact h found
  · rw [hgrows.2 path hpath hp] at hfind
    exact hsite.files path found hpath hfind

theorem onHeap_sound {f : Heap → α × Heap} (h : ∀ heap, Grown heap (f heap).2) :
    (Work.onHeap f).Maintains (W.Sound σ made) fun _ => True := by
  refine fun site hsite =>
    ⟨⟨?_,fun i hi => ?_,hsite.classes,hsite.files,hsite.recorded⟩,fun _ _ => trivial⟩
  · exact hsite.sealed.of_grown (h _)
  · obtain ⟨hlt,hfree⟩ := hsite.made i hi
    exact ⟨hlt.trans_le (h _).objects_le,hfree⟩

theorem build_sound (handle : Handle) (t : Tree) :
    (Work.build handle t).Maintains (W.Sound σ made) fun _ => True :=
  onHeap_sound fun heap => (Tree.built_build handle t heap).grown

/-- A native may be made from its bytes, whatever decoder there is for its type. -/
theorem decodeNative_sound (typeName : String) (bytes : List UInt8) :
    (Classes.decodeNative typeName bytes).Maintains (W.Sound σ made) fun _ => True := by
  have hlook : Work.registry.Maintains (W.Sound σ made) fun _ => True :=
    fun _ hsite => ⟨hsite,fun _ _ => trivial⟩
  unfold Classes.decodeNative
  refine hlook.bind fun r _ => ?_
  split
  · exact build_sound none _
  · exact .throw _
  · exact build_sound none _

/-- What is decoded is what the text says. -/
theorem decode_reads {I : Site → Prop} (text : String) (decode : Json → Option α) :
    (Work.decode text decode).Maintains I fun a => (Json.read? text).bind decode = some a :=
  fun site hsite => ⟨(Compile.decode_maintains text decode site hsite).1,
    fun _ ha => Compile.decode_ok (Prod.ext ha rfl)⟩

/-- Reading the state of the site changes nothing. -/
theorem look_sound {look : Site → α} {P : α → Prop}
    (h : ∀ site, W.Sound σ made site → P (look site)) :
    (do return look (← get) : Work α).Maintains (W.Sound σ made) P := by
  refine fun site hsite => ⟨hsite,fun a ha => ?_⟩
  rw [← Except.ok.inj ha]
  exact h site hsite

end Files

section Classes

theorem classFits_toClass {c : GeneratedClass} (h : W.generated c.name) :
    W.ClassFits σ c.name c.toClass where
  declared := W.toClass c h
  plan :=
    { names := fun name hname => by
        rw [List.mem_singleton.mp hname]
        exact W.named c.name _ (W.toClass c h)
      arguments := fun _ ha => by cases ha }

theorem register_sound {c : ClassDecl} (h : W.ClassFits σ c.name c) :
    (Work.modifyRegistry (·.register c)).Maintains (W.Sound σ made) fun _ => True := by
  refine fun site hsite => ⟨⟨hsite.sealed,hsite.made,?_,hsite.files,hsite.recorded⟩,
    fun _ _ => trivial⟩
  exact Table.forall_find?_put hsite.classes h

/-- Generated classes may be looked for in another directory. -/
theorem registerDir_sound (dir : String) :
    (Classes.registerDir dir).Maintains (W.Sound σ made) fun _ => True := by
  have hlook : Work.registry.Maintains (W.Sound σ made) fun _ => True :=
    fun _ hsite => ⟨hsite,fun _ _ => trivial⟩
  have hmodify : (Work.modifyRegistry fun r =>
      { r with scriptDirs := r.scriptDirs ++ [dir] }).Maintains (W.Sound σ made) fun _ => True :=
    fun _ hsite => ⟨⟨hsite.sealed,hsite.made,hsite.classes,hsite.files,hsite.recorded⟩,
      fun _ _ => trivial⟩
  unfold Classes.registerDir
  refine hlook.bind fun r _ => ?_
  split
  · exact .pure trivial
  · exact hmodify.bind fun _ _ => .pure trivial

theorem load_sound (className : String) (dirs : List String) :
    (Classes.load className dirs).Maintains (W.Sound σ made)
      fun c => ∀ found, c = some found → W.ClassFits σ found.name found := by
  induction dirs with
  | nil => exact .pure (by simp)
  | cons dir rest ih =>
    unfold Classes.load
    refine (readIfExists_sound _).bind fun answer hanswer => ?_
    cases answer with
    | none => exact ih
    | some text =>
      refine (decode_reads text GeneratedClass.ofJson?).bind fun c hc => .pure fun found hfound => ?_
      rw [← Option.some.inj hfound]
      have hends := Layout.classPath_endsIn dir className
      exact classFits_toClass ((hanswer text rfl).generated hends c hc)

theorem find?_sound (className : String) : (Classes.find? className).Maintains (W.Sound σ made)
    fun c => ∀ found, c = some found → W.ClassFits σ className found := by
  have hlook : Work.registry.Maintains (W.Sound σ made)
      fun r => ∀ c, r.classes.find? className = some c → W.ClassFits σ className c :=
    look_sound fun site hsite => hsite.classes className
  unfold Classes.find?
  refine hlook.bind fun r hr => ?_
  cases hc : r.classes.find? className with
  | some c => exact .pure fun found hfound => hr found (hc.trans hfound)
  | none =>
    refine (load_sound className r.scriptDirs).bind fun c hc => ?_
    cases c with
    | none => exact .pure (by simp)
    | some c =>
      refine (register_sound (hc c rfl)).bind fun _ _ => ?_
      exact hlook.bind fun r hr => .pure hr

theorem keep_sound : Classes.Keep (W.Sound σ made) :=
  fun className => (find?_sound className).imp fun _ _ => trivial

theorem find_sound (className : String) :
    (Classes.find className).Maintains (W.Sound σ made) (W.ClassFits σ className) := by
  unfold Classes.find
  refine (find?_sound className).bind fun c hc => ?_
  cases c with
  | none => exact .throw _
  | some c => exact .pure (hc c rfl)

theorem ofClass_sound (className : String) : (Plan.ofClass className).Maintains (W.Sound σ made)
    fun plan => ∃ c, plan = .ofDecl className c ∧ W.ClassFits σ className c :=
  (find_sound className).bind fun c hc => .pure ⟨c,rfl,hc⟩

theorem infer_sound (key : Key) : (Demand.infer key).Maintains (W.Sound σ made)
    fun plan => key.isAny = true ∧
      ∃ c, plan = .ofDecl key.interface c ∧ W.ClassFits σ key.interface c := by
  unfold Demand.infer
  refine (find?_sound key.interface).bind fun c _ => ?_
  cases c with
  | none => exact .throw _
  | some c =>
    dsimp only
    split
    next hconcrete =>
      rw [Bool.and_eq_true] at hconcrete
      exact (ofClass_sound key.interface).imp fun plan hplan => ⟨hconcrete.2,hplan⟩
    next => exact .throw _

/-- The class of a null object is generated and registered. -/
theorem nullObject_sound {dir interface : String} (h : W.generated (interface ++ "Null")) :
    (Prepare.nullObject dir interface).Maintains (W.Sound σ made)
      fun plan => W.PlanFits σ plan ∧ plan.advice = [] := by
  have hgenerated : (Classes.nullObject interface).Maintains (W.Sound σ made)
      fun c => c.name = interface ++ "Null" :=
    (Classes.Keep.walkFuel.bind fun fuel _ => keep_sound.declaredTo fuel interface []).bind
      fun _ _ => .pure rfl
  unfold Prepare.nullObject
  refine hgenerated.bind fun c hc => ?_
  have hname : W.generated c.name := hc ▸ h
  refine (write_sound (.classPath hname dir)).bind fun _ _ => ?_
  refine (register_sound (classFits_toClass hname)).bind fun _ _ => ?_
  refine (ofClass_sound c.name).imp fun plan ⟨d,hplan,hd⟩ => ?_
  subst hplan
  exact ⟨hd.plan,rfl⟩

end Classes

section Graphs

variable {g : Graph} {key : Key} {b : Binding Value}

theorem spares_nil : W.Spares [] := fun _ hrow => by cases hrow

theorem fits_unwoven {plan : Plan Value} (h : W.PlanFits σ plan) (ha : plan.advice = []) :
    W.BindingFits σ (.construction plan) := .construction h (by rw [ha]; exact spares_nil)

theorem fits_literal {v : Value} {t : Tree} (ht : t.sourceTypes = [])
    (hv : ∀ h : Heap, h.unfold v = t) : W.BindingFits σ (.literal v) :=
  .literal (plain_of_tree ht hv)

theorem GraphFits.add (h : W.GraphFits σ g) (hb : W.BindingFits σ b) (hused : W.used key)
    (hown : key = W.key → Anew b) : W.GraphFits σ (g.add key b) where
  rows row hrow := by
    rcases Table.mem_put_row hrow with hrow | rfl
    · exact h.rows row hrow
    · exact hb
  interceptors := h.interceptors
  bound hbound := Graph.has_add b (h.bound hbound)
  own row hrow := by
    rcases Table.mem_put_row hrow with hrow | rfl
    · exact h.own row hrow
    · exact hown
  used other hother := by
    by_cases hkey : other = key
    · exact hkey ▸ hused
    · obtain ⟨b',hb'⟩ := Graph.get?_of_has hother
      rw [Graph.get?_add_of_ne g b hkey] at hb'
      exact h.used other (Graph.has_of_get? hb')

theorem GraphFits.bindInjector (h : W.GraphFits σ g) : W.GraphFits σ (Prepare.bindInjector g) := by
  unfold Prepare.bindInjector
  dsimp only
  split
  next => exact h
  next hnot =>
    refine h.add (fits_literal (t := .injector) rfl fun _ => rfl) W.injector fun hkey => ?_
    rcases W.notInjector with hbound | hne
    · exact absurd (hkey ▸ h.bound hbound) hnot
    · exact absurd hkey.symm hne

theorem nullObjects_sound (dir : String) (h : W.GraphFits σ g) :
    (Prepare.nullObjects dir g).Maintains (W.Sound σ made) (W.GraphFits σ) := by
  refine .foldlM h fun n hn g' hg' => ?_
  have hrow := Prepare.mem_nullObjectsOf_iff.mp hn
  have hname : W.generated (n.2 ++ "Null") := by
    cases h.rows _ hrow with
    | nullObject hname => exact hname
  refine (nullObject_sound hname).bind fun plan ⟨hfits,hunwoven⟩ => .pure ?_
  refine hg'.add (fits_unwoven hfits hunwoven) ?_ fun hkey => ?_
  · exact h.used n.1 (Table.has_of_mem_keys (List.mem_map_of_mem hrow))
  · obtain ⟨_,hnull,_⟩ := h.own _ hrow hkey
    cases hnull

/-- Weaving keeps the keys, and changes nothing of the bindings but their interceptors. -/
def Rewoven (rows woven : Table Key (Binding Value)) : Prop :=
  List.Forall₂ (fun r w => w.1 = r.1 ∧ ∃ advice, w.2 = r.2.rewoven advice) rows woven

theorem Rewoven.refl (rows : Table Key (Binding Value)) : Rewoven rows rows :=
  List.forall₂_same.mpr fun row _ => ⟨rfl,row.2.exists_rewoven⟩

theorem Rewoven.keys {rows woven : Table Key (Binding Value)} (h : Rewoven rows woven) :
    woven.map Prod.fst = rows.map Prod.fst :=
  Table.keys_forall₂ (R := fun b w : Binding Value => ∃ advice, w = b.rewoven advice) h

theorem Anew.rewoven (h : Anew b) (advice : Table String (List String)) :
    Anew (b.rewoven advice) := by
  obtain ⟨plan,rfl,hshared⟩ := h
  exact ⟨{ plan with advice },rfl,hshared⟩

theorem PlanFits.rewoven {plan : Plan Value} (h : W.PlanFits σ plan)
    (advice : Table String (List String)) : W.PlanFits σ { plan with advice } :=
  ⟨h.names,h.arguments⟩

/-- Weaving in pointcuts that do not make instances of the key. -/
theorem plan_sound {pointcuts : List Pointcut}
    (hp : ∀ p ∈ pointcuts, ∀ i ∈ p.interceptors, Key.any i ≠ W.key) {plan : Plan Value}
    (h : W.PlanFits σ plan) (ha : W.Spares plan.advice) :
    (Weave.plan pointcuts plan).Maintains (W.Sound σ made) fun woven =>
      ∃ advice, woven = { plan with advice } ∧ W.BindingFits σ (.construction woven) := by
  refine ((keep_sound.weave pointcuts plan).ensured (Weave.plan_among hp ha)).imp ?_
  rintro _ ⟨⟨advice,rfl⟩,_,hspares⟩
  exact ⟨advice,rfl,.construction (h.rewoven advice) hspares⟩

theorem GraphFits.rewoven (h : W.GraphFits σ g) {woven : Table Key (Binding Value)}
    (hwoven : Rewoven g.bindings woven) (hfits : ∀ row ∈ woven, W.BindingFits σ row.2) :
    W.GraphFits σ { g with bindings := woven } where
  rows := hfits
  interceptors := h.interceptors
  bound hbound := Prepare.has_of_keys hwoven.keys (h.bound hbound)
  own row hrow hkey := by
    obtain ⟨old,hold,hsame,advice,hb⟩ := forall₂_left hwoven hrow
    rw [hb]
    exact (h.own old hold (hsame ▸ hkey)).rewoven advice
  used key hkey := by
    refine h.used key (Table.has_of_mem_keys ?_)
    rw [← hwoven.keys]
    exact Table.mem_keys_of_has hkey

theorem weave_sound (h : W.GraphFits σ g) :
    (Weave.graph g).Maintains (W.Sound σ made) fun woven => W.GraphFits σ woven.1 := by
  have hgraph : (Weave.graph g).Maintains (W.Sound σ made) fun woven =>
      ∃ rows, woven.1 = { g with bindings := rows } ∧ List.Forall₂ (fun r w => w.1 = r.1 ∧
        ((∃ advice, w.2 = r.2.rewoven advice) ∧ W.BindingFits σ w.2)) g.bindings rows := by
    refine Weave.graph_maintains
      (R := fun b w => (∃ advice, w = b.rewoven advice) ∧ W.BindingFits σ w)
      (fun row hrow => ⟨row.2.exists_rewoven,h.rows row hrow⟩) fun row hrow plan hb => ?_
    rw [hb]
    have hfits := h.rows row hrow
    rw [hb] at hfits
    cases hfits with
    | construction hplan hadvice =>
      refine (plan_sound h.interceptors hplan hadvice).imp ?_
      rintro _ ⟨advice,rfl,hwoven⟩
      exact ⟨⟨advice,rfl⟩,hwoven⟩
  refine hgraph.imp ?_
  rintro ⟨_,failure⟩ ⟨rows,rfl,hrows⟩
  refine h.rewoven (hrows.imp fun _ _ hrow => ⟨hrow.1,hrow.2.1⟩) fun row hrow => ?_
  obtain ⟨_,_,_,_,hfits⟩ := mem_of_forall₂ hrows hrow
  exact hfits

/-- A graph that fits can be prepared, and fits then as well. -/
theorem prepare_sound (dir : String) (h : W.GraphFits σ g) :
    (Prepare.graph dir g).Maintains (W.Sound σ made) (W.GraphFits σ) := by
  refine (nullObjects_sound dir h).bind fun g' hg' => ?_
  refine (weave_sound hg').bind fun woven hwoven => ?_
  obtain ⟨woven,failure⟩ := woven
  cases failure with
  | some f => exact .throw f
  | none =>
    have htext : W.BindingFits σ (.literal (.text dir)) :=
      fits_literal (t := .text dir) rfl fun _ => rfl
    refine .pure (hwoven.bindInjector.add htext W.scriptDir fun hkey => ?_)
    exact absurd hkey.symm W.notScriptDir

end Graphs
end Watch
end Wiring
