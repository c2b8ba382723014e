import Mathlib
import Wiring.Proofs.Classes.Ancestry
import Wiring.Proofs.Compile.Filing
import Wiring.Proofs.Injector.Steady

/-!
# What null objects answer

The generated class of an interface has the methods that the interface declares, and those of the
interfaces that it lists, and that they list in turn, each once and no other. A call of one of them
answers null, whether the class is still registered from when it was generated or is read from the
file that was saved of it. What an interface has from a parent is not among them, though by the
parent it is a subclass. Where no interface has a parent, to be a subclass is to be reached by lists.
-/
namespace Wiring

open Work Relation

namespace Registry

/-- The first interface lists the second one. -/
def Lists (r : Registry) (interface above : String) : Prop :=
  ∃ c,r.classes.find? interface = some c ∧ above ∈ c.interfaces

/-- The interface declares the method, or one does that it lists, or that those list in turn. -/
def Promises (r : Registry) (interface method : String) : Prop :=
  ∃ above c,ReflTransGen r.Lists interface above ∧ r.classes.find? above = some c ∧
    method ∈ c.declared

variable {r : Registry} {interface method : String} {c : ClassDecl}

theorem promises_iff (hc : r.classes.find? interface = some c) : r.Promises interface method ↔
    (∃ i ∈ c.interfaces,r.Promises i method) ∨ method ∈ c.declared := by
  constructor
  · rintro ⟨above,d,hway,hd,hm⟩
    rcases hway.cases_head with rfl | ⟨i,⟨own,hown,hi⟩,hrest⟩
    · obtain rfl := Option.some.inj (hc.symm.trans hd)
      exact .inr hm
    · obtain rfl := Option.some.inj (hc.symm.trans hown)
      exact .inl ⟨i,hi,above,d,hrest,hd,hm⟩
  · rintro (⟨i,hi,above,d,hway,hd,hm⟩ | hm)
    · exact ⟨above,d,.head ⟨c,hc,hi⟩ hway,hd,hm⟩
    · exact ⟨interface,c,.refl,hc,hm⟩

/-- Neither the interface nor one that is listed above it has a parent. -/
def Flat (r : Registry) (interface : String) : Prop :=
  ∀ above c,ReflTransGen r.Lists interface above → r.classes.find? above = some c → c.parent = none

theorem Flat.lists {site : Site} (hflat : site.registry.Flat interface)
    (h : site.registry.Rooted interface) {above : String}
    (ha : ReflTransGen site.Extends interface above) :
    ReflTransGen site.registry.Lists interface above := by
  induction ha with
  | refl => exact .refl
  | @tail next above hway hstep ih =>
    obtain ⟨c,hc⟩ := (h.up hway).registered
    obtain ⟨d,hd,hlisted | hparent⟩ := hstep.ancestor hc
    · exact ih.tail ⟨d,hd,hlisted⟩
    · cases (hflat next d ih hd).symm.trans hparent

end Registry

namespace Classes

variable {r : Registry} {interface method : String} {names more : List String}

/-- What the interfaces of a list promise is added to the names. The induction is on the interfaces
that are listed; the fuel lasts for each of them, as none of them leads back. -/
theorem declaredTo_rooted (h : r.Rooted interface) {way : List String} {fuel : Nat}
    (hroom : r.Room way interface fuel) {site : Site} (hsite : site.registry = r)
    (hnames : names.Nodup) : ∃ more,declaredTo fuel interface names site = (.ok more,site) ∧
      more.Nodup ∧ ∀ m,m ∈ more ↔ m ∈ names ∨ r.Promises interface m := by
  have hr := h
  induction h generalizing way fuel names with
  | @intro interface c hc hi _ ihi _ =>
    obtain ⟨fuel,rfl,hnext⟩ := hroom.step hr
    have hlisted (is : List String) (his : is ⊆ c.interfaces) {names : List String}
        (hnames : names.Nodup) : ∃ more,
          is.foldlM (fun names i => declaredTo fuel i names) names site = (.ok more,site) ∧
          more.Nodup ∧ ∀ m,m ∈ more ↔ m ∈ names ∨ ∃ i ∈ is,r.Promises i m := by
      induction is generalizing names with
      | nil => exact ⟨names,rfl,hnames,by simp⟩
      | cons i rest ih =>
        obtain ⟨hmem,hrest⟩ := List.cons_subset.mp his
        obtain ⟨next,hrun,hnext,hmore⟩ := ihi i hmem (hnext i ⟨c,hc,.inl hmem⟩) hnames (hi i hmem)
        obtain ⟨last,hlast,hnodup,hall⟩ := ih hrest hnext
        refine ⟨last,?_,hnodup,fun m => ?_⟩
        · rw [List.foldlM_cons,run_bind hrun]
          exact hlast
        · rw [hall,hmore,List.exists_mem_cons_iff,or_assoc]
    obtain ⟨more,hrun,hnodup,hmore⟩ := hlisted c.interfaces (List.Subset.refl _) hnames
    subst hsite
    refine ⟨appendNew more c.declared,?_,nodup_appendNew hnodup,fun m => ?_⟩
    · rw [declaredTo,run_bind (find_registered hc),run_bind hrun]
      rfl
    · rw [mem_appendNew,hmore,Registry.promises_iff hc,or_assoc]

theorem nullObject_rooted {site : Site} (h : site.registry.Rooted interface) :
    ∃ generated,nullObject interface site = (.ok generated,site) ∧
      generated.name = interface ++ "Null" ∧ generated.interfaces = [interface] ∧
      generated.nullMethods.Nodup ∧
      ∀ m,m ∈ generated.nullMethods ↔ site.registry.Promises interface m := by
  obtain ⟨names,hrun,hnodup,hnames⟩ := declaredTo_rooted h (room_start site) rfl List.nodup_nil
  refine ⟨⟨interface ++ "Null",[interface],names⟩,?_,rfl,rfl,hnodup,fun m => ?_⟩
  · rw [nullObject,run_bind (walkFuel_run site),run_bind hrun]
    rfl
  · rw [hnames,or_iff_right List.not_mem_nil]

open Classical in
/-- Without parents, an interface promises the methods of all that it is a subclass of. -/
theorem promises_of_isSubclassOf {site : Site} (h : site.registry.Rooted interface)
    (hflat : site.registry.Flat interface) {above : String} {c : ClassDecl}
    (hsub : (isSubclassOf interface above site).1 = .ok true)
    (hc : site.registry.classes.find? above = some c) (hm : method ∈ c.declared) :
    site.registry.Promises interface method := by
  obtain ⟨site',hrun,-⟩ := selects_comes (.subclassesOf above) h.charted site (.refl site)
  rw [selects] at hrun
  rw [hrun] at hsub
  have hreach := of_decide_eq_true (Except.ok.inj hsub)
  exact ⟨above,c,hflat.lists h hreach,hc,hm⟩

end Classes

namespace GeneratedClass

variable {generated : GeneratedClass} {method : String}

/-- Objects of the class can be called: it is registered, or its file is the first that a lookup of
its name would read. -/
inductive Known (generated : GeneratedClass) (site : Site) : Prop where
  | registered (h : site.registry.classes.find? generated.name = some generated.toClass)
  | filed {dir : String} {rest : List String}
      (hnew : site.registry.classes.find? generated.name = none)
      (hdirs : site.registry.scriptDirs = dir :: rest)
      (hfile : site.files.status (Classes.classPath dir generated.name) =
        .file generated.toJson.pretty)

theorem Known.find {site : Site} (h : generated.Known site) :
    ∃ site',Classes.find generated.name site = (.ok generated.toClass,site') := by
  cases h with
  | registered h => exact ⟨site,Classes.find_registered h⟩
  | @filed dir rest hnew hdirs hfile =>
    have hdescribed : Classes.described site.files (Classes.classPath dir generated.name) =
        .ok (some generated.toClass) := by
      unfold Classes.described
      rw [hfile]
      dsimp only
      rw [read_toJson]
    have hloaded : Classes.loaded site.files generated.name site.registry.scriptDirs =
        .ok (some generated.toClass) := by
      rw [hdirs]
      unfold Classes.loaded
      rw [hdescribed]
    have hanswer : (Classes.find? generated.name site).1 = .ok (some generated.toClass) := by
      rw [Classes.find?_answer,Classes.answer,hnew,hloaded]
      exact congrArg Except.ok (if_pos (decide_eq_true rfl))
    have hfind := run_bind (f := orElse (.classNotFound generated.name))
      (Prod.ext hanswer rfl : Classes.find? generated.name site =
        (.ok (some generated.toClass),(Classes.find? generated.name site).2))
    exact ⟨_,hfind⟩

theorem find?_toClass (hnodup : generated.nullMethods.Nodup) (method : String) :
    generated.toClass.methods.find? method =
      if method ∈ generated.nullMethods then some [] else none := by
  have hkeys : (generated.nullMethods.map fun m => (m,([] : Body))).map Prod.fst =
      generated.nullMethods := by
    rw [List.map_map]
    exact List.map_id _
  unfold toClass
  rw [Table.ofRows_nodup (by rwa [hkeys])]
  split
  next hm =>
    apply Table.find?_of_mem
    · rwa [hkeys]
    · exact List.mem_map_of_mem hm
  next hm =>
    apply Table.find?_none
    rwa [hkeys]

end GeneratedClass

namespace Objects

variable {generated : GeneratedClass}

/-- A generated class has null bodies and nothing else that answers a call. -/
theorem invoke_generated (hnodup : generated.nullMethods.Nodup) (ask : Ask) (world : World)
    (index : Nat) (method : String) (arguments : List Value) (hknown : generated.Known world.site) :
    (invoke ask ⟨index,generated.name⟩ method arguments world).1 =
      if method ∈ generated.nullMethods then .ok .null
      else .error (.methodNotFound generated.name method) := by
  obtain ⟨found,hfind⟩ := hknown.find
  have hbody : Classes.body? generated.toClass method found =
      (.ok (if method ∈ generated.nullMethods then some [] else none),found) := by
    rw [Classes.body?,run_bind (Classes.walkFuel_run found),Classes.bodyTo,
      GeneratedClass.find?_toClass hnodup]
    split <;> rfl
  rw [invoke,run_bind (Act.onSite_run _ hfind),run_bind (Act.onSite_run _ hbody)]
  split
  next => rfl
  next =>
    have hsetter : Classes.setter? generated.toClass method found = (.ok none,found) := rfl
    dsimp only
    rw [run_bind (Act.onSite_run _ hsetter)]
    rfl

end Objects

/-- A null object answers null to whatever the interface promises, be its class registered or read
from its file, and it has no other method. -/
theorem null_objects_answer {interface : String} {site : Site}
    (h : site.registry.Rooted interface) : ∃ generated,
      Classes.nullObject interface site = (.ok generated,site) ∧
      generated.name = interface ++ "Null" ∧ generated.interfaces = [interface] ∧
      generated.nullMethods.Nodup ∧ (∀ method,method ∈ generated.nullMethods ↔
        site.registry.Promises interface method) ∧
      ∀ (ask : Objects.Ask) (world : World) (index : Nat) (method : String)
        (arguments : List Value),generated.Known world.site →
        (Objects.invoke ask ⟨index,generated.name⟩ method arguments world).1 =
          if method ∈ generated.nullMethods then .ok .null
          else .error (.methodNotFound generated.name method) := by
  obtain ⟨generated,hrun,hname,hinterfaces,hnodup,hmethods⟩ := Classes.nullObject_rooted h
  exact ⟨generated,hrun,hname,hinterfaces,hnodup,hmethods,Objects.invoke_generated hnodup⟩

end Wiring
