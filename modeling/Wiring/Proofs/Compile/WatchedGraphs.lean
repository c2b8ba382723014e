import Mathlib
import Wiring.Proofs.Compile.WatchedUnits

/-!
# Graphs built under watch

A graph is built from a module, or from what was saved of it. Either way cells are only added to
the heap. From then on those that were added are sealed as well, with the values of the graph
among them.
-/
namespace Wiring

open Heap (Grown)

variable {α β : Type}

namespace Heap

/-- Wherever it starts, the computation only adds cells. -/
def Grows (x : StateM Heap α) : Prop := ∀ h, Grown h (x.run h).2

namespace Grows

theorem pure (a : α) : Grows (Pure.pure a : StateM Heap α) := fun h => .refl h

theorem bind {x : StateM Heap α} {f : α → StateM Heap β} (hx : Grows x) (hf : ∀ a, Grows (f a)) :
    Grows (x >>= f) := fun h => (hx h).trans (hf _ _)

theorem map {x : StateM Heap α} (f : α → β) (hx : Grows x) : Grows (f <$> x) := fun h => hx h

theorem mapM {f : α → StateM Heap β} (hf : ∀ a, Grows (f a)) (as : List α) :
    Grows (as.mapM f) := by
  induction as with
  | nil =>
    rw [List.mapM_nil]
    exact pure _
  | cons a rest ih =>
    rw [List.mapM_cons]
    exact (hf a).bind fun b => ih.bind fun bs => pure _

theorem option {f : α → StateM Heap β} (hf : ∀ a, Grows (f a)) (a? : Option α) :
    Grows (a?.mapM f) := by
  cases a? with
  | none => exact pure none
  | some a => exact (hf a).map some

variable {f : Tree → StateM Heap Value} (hf : ∀ t, Grows (f t))
include hf

theorem argument (a : Argument Tree) : Grows (a.mapM f) :=
  (option hf a.fallback).bind fun _ => (option hf a.qualifier).bind fun _ => pure _

theorem plan (p : Plan Tree) : Grows (p.mapM f) :=
  (mapM (argument hf) p.arguments).bind fun _ =>
    (mapM (fun s => (mapM (argument hf) s.arguments).bind fun _ => pure _) p.setters).bind
      fun _ => pure _

theorem binding (b : Binding Tree) : Grows (b.mapM f) := by
  cases b with
  | literal t => exact (hf t).map _
  | construction p => exact (plan hf p).map _
  | provider p shared context => exact (plan hf p).map _
  | nullObject interface => exact pure _

end Grows
end Heap

/-- To build a graph from what was saved of it only adds cells. -/
theorem Container.build_grown (c : Container Tree) (h : Heap) : Grown h (c.build h).2 := by
  have hrow (b : Key × Binding Tree) : Heap.Grows (do
      return (b.1,← b.2.mapM fun tree => modifyGet (tree.build none)) : StateM Heap _) :=
    (Heap.Grows.binding (fun t h => (Tree.built_build none t h).grown) b.2).bind fun _ => .pure _
  exact (Heap.Grows.mapM hrow c.bindings).bind (fun _ => .pure _) h

/-- Looking a class up leaves the heap alone. -/
theorem Classes.find?_heap (className : String) (site : Site) :
    (Classes.find? className site).2.heap = site.heap := by
  have hfiles {γ : Type} (w : FileWork γ) :
      (Work.onFiles w).Maintains (·.heap = site.heap) fun _ => True :=
    fun _ h => ⟨h,fun _ _ => trivial⟩
  have hregistry : Work.registry.Maintains (·.heap = site.heap) fun _ => True :=
    fun _ h => ⟨h,fun _ _ => trivial⟩
  have hload (dirs : List String) :
      (Classes.load className dirs).Maintains (·.heap = site.heap) fun _ => True := by
    induction dirs with
    | nil => exact .pure trivial
    | cons dir rest ih =>
      unfold Classes.load
      refine (hfiles _).bind fun answer _ => ?_
      cases answer with
      | none => exact ih
      | some text => exact (Compile.decode_maintains text _).bind fun _ _ => .pure trivial
  have hfind : (Classes.find? className).Maintains (·.heap = site.heap) fun _ => True := by
    unfold Classes.find?
    refine hregistry.bind fun r _ => ?_
    cases r.classes.find? className with
    | some c => exact .pure trivial
    | none =>
      refine (hload r.scriptDirs).bind fun c _ => ?_
      cases c with
      | none => exact .pure trivial
      | some c =>
        have hregister : (Work.modifyRegistry (·.register c)).Maintains (·.heap = site.heap)
            fun _ => True := fun _ h => ⟨h,fun _ _ => trivial⟩
        exact hregister.bind fun _ _ => hregistry.bind fun _ _ => .pure trivial
  exact (hfind site rfl).1

/-- While a module is built, cells are only added to the heap. -/
theorem Reached.grown {start site : Site} (h : Reached start site) :
    Grown start.heap site.heap := by
  induction h with
  | start => exact .refl _
  | looked className _ ih =>
    rw [Classes.find?_heap]
    exact ih
  | built tree _ ih => exact ih.trans (Tree.built_build none tree _).grown

namespace Watch

open Work

variable {W : Watch} {σ : Seal} {made : List Nat}

/-- What has been added to the heap is sealed from now on. -/
theorem Sound.widen {site site' : Site} (h : W.Sound σ made site) (h' : W.Sound σ made site')
    (hg : Grown site.heap site'.heap) : W.Sound (σ.widen site.heap site'.heap) made site' where
  sealed := Seal.holds_widen h.sealed hg
  made i hi := by
    obtain ⟨hlt,hfree⟩ := h.made i hi
    refine ⟨(h'.made i hi).1,fun hsealed => ?_⟩
    rcases hsealed with hold | ⟨hnew,_⟩
    · exact hfree hold
    · exact absurd hlt (Nat.not_lt.mpr hnew)
  classes name c hc := (h'.classes name c hc).within (Seal.within_widen h.sealed hg)
  files := h'.files
  recorded := h'.recorded

theorem Sound.mono {fewer : List Nat} {site : Site} (h : W.Sound σ made site)
    (hsub : fewer ⊆ made) : W.Sound σ fewer site :=
  ⟨h.sealed,fun i hi => h.made i (hsub hi),h.classes,h.files,h.recorded⟩

/-- Wherever the module is built at a sound site, its graph fits. -/
def Builds (W : Watch) (statements : List ModuleStatement) : Prop :=
  ∀ (σ : Seal) (site site' : Site) (g : Graph), W.Sound σ [] site →
    Graph.ofModule statements site = (.ok g,site') →
      W.GraphFits (σ.widen site.heap site'.heap) g

/-- What has come about while a module is built is sound, and nothing is gone from the heap. -/
theorem reached_sound {start site : Site} (hstart : W.Sound σ made start)
    (h : Reached start site) : W.Sound σ made site ∧ Grown start.heap site.heap := by
  refine ⟨?_,h.grown⟩
  induction h with
  | start => exact hstart
  | @looked site className _ ih => exact (find?_sound className site ih).1
  | @built site tree _ ih => exact (build_sound none tree site ih).1

/-- The work leaves the site sound under a seal that lets less happen, and its answer has the
property under that seal. -/
def Widens (W : Watch) (σ : Seal) (made : List Nat) (w : Work α) (P : Seal → α → Prop) : Prop :=
  ∀ site, W.Sound σ made site → ∃ τ, σ.Within τ ∧ W.Sound τ made (w site).2 ∧
    ∀ a, (w site).1 = .ok a → P τ a

theorem ofModule_widens {statements : List ModuleStatement} (h : W.Builds statements) :
    W.Widens σ made (Graph.ofModule statements) W.GraphFits := by
  intro site hsite
  have hreached : Reached site (Graph.ofModule statements site).2 :=
    (Graph.runAll_accounts .empty statements site .start).1
  obtain ⟨hsound,hgrown⟩ := reached_sound hsite hreached
  refine ⟨_,Seal.within_widen hsite.sealed hgrown,hsite.widen hsound hgrown,fun g hg => ?_⟩
  exact h σ site _ g (hsite.mono (List.nil_subset _)) (Prod.ext hg rfl)

theorem Widens.of_maintains {w : Work α} {P : α → Prop} (h : w.Maintains (W.Sound σ made) P) :
    W.Widens σ made w fun _ => P :=
  fun site hsite => ⟨σ,fun _ hh => hh,h site hsite⟩

theorem Widens.pure {a : α} {P : Seal → α → Prop} (h : P σ a) :
    W.Widens σ made (Pure.pure a) P :=
  fun _ hsite => ⟨σ,fun _ hh => hh,hsite,fun _ hb => Except.ok.inj hb ▸ h⟩

theorem Widens.bind {w : Work α} {P : Seal → α → Prop} {f : α → Work β} {Q : Seal → β → Prop}
    (h : W.Widens σ made w P) (hf : ∀ τ a, P τ a → W.Widens τ made (f a) Q) :
    W.Widens σ made (w >>= f) Q := by
  intro site hsite
  obtain ⟨τ,hwithin,hnext,hanswer⟩ := h site hsite
  cases hw : w site with
  | mk answer next =>
    rw [hw] at hnext hanswer
    cases answer with
    | ok a =>
      rw [run_bind hw]
      obtain ⟨υ,hfurther,hlast⟩ := hf τ a (hanswer a rfl) next hnext
      exact ⟨υ,fun heap hh => hwithin heap (hfurther heap hh),hlast⟩
    | error e =>
      rw [run_bind_error f hw]
      exact ⟨τ,hwithin,hnext,fun b hb => by cases hb⟩

/-- Where the graph may be read, its file is there. -/
theorem recorded_sound {dir : String} (hdir : W.dir? = some dir) (hrecorded : W.recorded) :
    (onFiles (Files.readIfExists (Layout.modulePath dir))).Maintains (W.Sound σ made)
      fun answer => ∃ text, answer = some text ∧
        W.FileFits (Path.ofText (Layout.modulePath dir)) text := by
  intro site hsite
  obtain ⟨hnext,hanswer⟩ := readIfExists_sound (Layout.modulePath dir) site hsite
  refine ⟨hnext,fun answer hread => ?_⟩
  have hfits := hanswer answer hread
  cases answer with
  | some text => exact ⟨text,rfl,hfits text rfl⟩
  | none =>
    have hget : (get : FileWork Files) site.files = (.ok site.files,site.files) := rfl
    have hthere := hsite.recorded hrecorded dir hdir
    rw [onFiles_run,Files.readIfExists,run_bind hget,if_pos hthere] at hread
    cases hfile : Files.read (Layout.modulePath dir) site.files with
    | mk answer files =>
      cases answer with
      | ok text =>
        rw [run_bind hfile] at hread
        cases hread
      | error f =>
        rw [run_bind_error _ hfile] at hread
        cases hread

/-- A graph that has been saved is there, and fits. -/
theorem graph?_widens {dir : String} (hdir : W.dir? = some dir) (hrecorded : W.recorded) :
    W.Widens σ made (Save.graph? dir) fun τ answer => ∃ g, answer = some g ∧ W.GraphFits τ g := by
  unfold Save.graph?
  refine .bind (.of_maintains (recorded_sound hdir hrecorded)) fun τ answer hanswer => ?_
  obtain ⟨text,rfl,hfits⟩ := hanswer
  have hread : W.Widens τ made (Save.readGraph text) W.GraphFits := by
    refine .bind (.of_maintains (decode_reads text Container.ofJson?)) fun υ tree htree site hsite => ?_
    have hgrown := tree.build_grown site.heap
    have hbuilt := (onHeap_sound (f := tree.build) tree.build_grown site hsite).1
    refine ⟨_,Seal.within_widen hsite.sealed hgrown,hsite.widen hbuilt hgrown,fun g hg => ?_⟩
    rw [← Except.ok.inj hg]
    exact hfits.graph hrecorded dir hdir rfl tree htree υ site.heap hsite.sealed
  exact hread.bind fun υ g hg => .pure ⟨g,rfl,hg⟩

section Modules

variable {g : Graph}

/-- A graph that binds nothing fits where the key need not be bound. -/
theorem empty_fits (h : ¬W.bound) : W.GraphFits σ .empty where
  rows _ hrow := by cases hrow
  interceptors _ hp := by cases hp
  bound hbound := absurd hbound h
  own _ hrow := by cases hrow
  used key hkey := by cases hkey

/-- A class that would be bound to the key by its own name is not shared. -/
def Unshared (W : Watch) : Prop :=
  ∀ name c, W.declared name c → Key.any name = W.key → c.shared = false

/-- To bind classes to themselves, as far as they are asked for, leaves the graph fitting. -/
theorem untarget_sound (hw : W.Unshared) (fuel : Nat) (className : String) (hg : W.GraphFits σ g) :
    (Graph.untarget fuel g className).Maintains (W.Sound σ made) (W.GraphFits σ) := by
  induction fuel generalizing g className with
  | zero => exact .throw _
  | succ fuel ih =>
    rw [Graph.untarget]
    split
    · exact .pure hg
    refine (find?_sound className).bind fun c hc => ?_
    cases c with
    | none => exact .pure hg
    | some c =>
      have hfits := hc c rfl
      dsimp only
      split
      · refine .foldlM ?_ fun other _ g' hg' => ih other hg'
        refine hg.add (fits_unwoven hfits.plan rfl) (W.inferred _ c hfits.declared) fun hkey => ?_
        exact ⟨_,rfl,hw className c hfits.declared hkey⟩
      · exact .pure hg

theorem untargetAll_sound (hw : W.Unshared) (classNames : List String) (hg : W.GraphFits σ g) :
    (do classNames.foldlM (Graph.untarget (← Classes.walkFuel)) g : Work Graph).Maintains
      (W.Sound σ made) (W.GraphFits σ) :=
  Classes.Keep.walkFuel.bind fun fuel _ =>
    .foldlM hg fun className _ _ hg' => untarget_sound hw fuel className hg'

theorem BindingFits.share {b : Binding Value} (h : W.BindingFits σ b) : W.BindingFits σ b.share := by
  cases h with
  | literal hv => exact .literal hv
  | construction hplan ha => exact .construction ⟨hplan.names,hplan.arguments⟩ ha
  | provider hplan shared context => exact .provider hplan true context
  | nullObject hname => exact .nullObject hname

/-- Other keys may be shared than the watched one. -/
theorem GraphFits.share (hg : W.GraphFits σ g) {key : Key} (hkey : key ≠ W.key) :
    W.GraphFits σ (g.share key) := by
  unfold Container.share
  cases hb : g.get? key with
  | none => exact hg
  | some b =>
    exact hg.add (hg.get hb).share (hg.used key (Graph.has_of_get? hb)) fun he => absurd he hkey

/-- A binding that fits may be made, together with those of the classes that it asks for. -/
theorem bindTarget_sound (hw : W.Unshared) {interface name : String} {target : Target}
    {shared : Bool} (hused : W.used (.of interface name))
    (hbinding : (Graph.bindingOf interface target).Maintains (W.Sound σ made) fun b? =>
      ∀ b, b? = some b → W.BindingFits σ b ∧ (.of interface name = W.key → Anew b))
    (hshared : .of interface name = W.key → shared = false) (hg : W.GraphFits σ g) :
    (Graph.bindTarget g interface name target shared).Maintains (W.Sound σ made)
      (W.GraphFits σ) := by
  unfold Graph.bindTarget
  refine hbinding.bind fun b? hb? => ?_
  cases b? with
  | none => exact .pure hg
  | some b =>
    obtain ⟨hb,hown⟩ := hb? b rfl
    refine (untargetAll_sound hw b.candidates (hg.add hb hused hown)).bind fun g' hg' => .pure ?_
    split
    next hshare => exact hg'.share fun hkey => by simp [hshared hkey] at hshare
    next => exact hg'

/-- A class may be bound to the watched key if it is not shared. -/
theorem classBinding_sound (interface : String) {className : String} {own : Prop}
    (h : own → ∀ c, W.declared className c → c.shared = false) :
    (Graph.bindingOf interface (.to className)).Maintains (W.Sound σ made) fun b? =>
      ∀ b, b? = some b → W.BindingFits σ b ∧ (own → Anew b) := by
  refine (ofClass_sound className).bind fun plan ⟨c,hplan,hc⟩ => .pure fun b hb => ?_
  subst hplan
  rw [← Option.some.inj hb]
  exact ⟨fits_unwoven hc.plan rfl,fun hown => ⟨_,rfl,h hown c hc.declared⟩⟩

theorem intercept_sound (hw : W.Unshared) {p : Pointcut}
    (hp : ∀ i ∈ p.interceptors, Key.any i ≠ W.key) (hg : W.GraphFits σ g) :
    (Graph.intercept g p).Maintains (W.Sound σ made) (W.GraphFits σ) := by
  refine (untargetAll_sound hw p.interceptors hg).bind fun g' hg' => .pure ?_
  refine { hg' with interceptors := fun q hq => ?_ }
  rcases List.mem_append.mp hq with hq | hq
  · exact hg'.interceptors q hq
  · exact List.mem_singleton.mp hq ▸ hp

/-- A module fits if its graph does under any seal under which it is built. -/
theorem builds_of_sound {statements : List ModuleStatement}
    (h : ∀ σ, (Graph.ofModule statements).Maintains (W.Sound σ []) (W.GraphFits σ)) :
    W.Builds statements := by
  intro σ site site' g hsite hrun
  have hreached : Reached site (Graph.ofModule statements site).2 :=
    (Graph.runAll_accounts .empty statements site .start).1
  have hfits := (h σ site hsite).2 g (congrArg Prod.fst hrun)
  rw [hrun] at hreached
  exact hfits.within (Seal.within_widen hsite.sealed (reached_sound hsite hreached).2)

end Modules
end Watch
end Wiring
