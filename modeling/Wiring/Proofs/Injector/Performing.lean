import Mathlib
import Wiring.Proofs.Injector.Delivering
import Wiring.Proofs.Injector.Holding

/-!
# Objects made under watch

An object that a unit makes is one that no unit has made before, and only such objects are
written to. So while a unit hands out what it stands for, the world stays held, provided that the
surroundings keep it so. A unit that makes an object gives it new each time.
-/
namespace Wiring

open Heap (Grown)
open Script (Surroundings fault pulled)

namespace Watch

open Act

variable {α : Type} (W : Watch) (made : List Nat)

/-- If the first world is held, so is the second. -/
def Follows (w w' : World) : Prop := W.Held made w → W.Held made w'

instance isPreorder_follows : IsPreorder World (W.Follows made) where
  refl _ := id
  trans _ _ _ h h' := h' ∘ h

/-- Wherever the world is held, the action leaves it held. -/
abbrev Keeps (a : Act α) : Prop := a.Along (W.Follows made)

/-- The value is an object that units had not made before. -/
def Fresh (v : Value) (w : World) : Prop :=
  ∃ ref : ObjectRef, (W.Held (ref.index :: made) w ∧ ref.index ∉ made) ∧ v = .object ref

/-- Whatever the injectors are asked for, the world stays held. -/
def Asks (ask : Objects.Ask) : Prop := ∀ made id key, W.Keeps made (ask id key)

variable {W made} {σ : Seal}

section Following

theorem Fresh.held {v : Value} {w : World} (h : W.Fresh made v w) : W.Held made w := by
  obtain ⟨ref,⟨hheld,_⟩,_⟩ := h
  exact hheld.mono (List.subset_cons_self _ _)

/-- What keeps the world held with more objects made does so in particular for fewer of them. -/
theorem safe_of_more {fewer : List Nat} {a : Act α} (h : W.Keeps made a)
    (hsub : fewer ⊆ made) : W.Safe fewer (W.Held made) a fun _ => W.Held made := by
  refine ⟨fun w hw => ?_⟩
  have hnext := h w hw
  cases ha : a w with
  | mk answer next =>
    rw [ha] at hnext
    cases answer with
    | ok x => exact hnext
    | error f => exact hnext.mono hsub

theorem safe_of_along {a : Act α} (h : W.Keeps made a) :
    W.Safe made (W.Held made) a fun _ => W.Held made := safe_of_more h (List.Subset.refl _)

/-- Once a unit has made an object, it goes on with that one besides. -/
theorem safe_beside {i : Nat} {a : Act α} (h : W.Keeps (i :: made) a) :
    W.Safe made (W.Held (i :: made)) a fun _ => W.Held (i :: made) :=
  safe_of_more h (List.subset_cons_self _ _)

theorem along_of_safe {a : Act α} {post : α → World → Prop}
    (h : W.Safe made (W.Held made) a post) (hpost : ∀ x w, post x w → W.Held made w) :
    W.Keeps made a := by
  intro w hw
  have hends := h.ends w hw
  cases ha : a w with
  | mk answer next =>
    rw [ha] at hends
    cases answer with
    | ok x => exact hpost x next hends
    | error f => exact hends

theorem onSite_along {w : Work α} {P : Seal → α → Prop}
    (h : ∀ σ, w.Maintains (W.Sound σ made) (P σ)) : W.Keeps made (onSite w) :=
  fun world ⟨σ,hworld⟩ => ⟨σ,(h σ world.site hworld.site).1,hworld.injectors⟩

end Following

namespace Held

variable {ask : Objects.Ask}

/-- An object that has been added to the heap may be counted among those that units made. -/
theorem newObject_safe (className : String) (properties : Table String Value) :
    W.Safe made (W.Held made) (Objects.newObject className properties)
      fun ref w => W.Held (ref.index :: made) w ∧ ref.index ∉ made := by
  refine ⟨fun w ⟨σ,hw⟩ => ?_⟩
  have hgrown := Grown.newObject w.site.heap className properties
  have hsound := (onHeap_sound (f := (·.newObject className properties))
    (fun heap => .newObject heap className properties) w.site hw.site).1
  refine ⟨⟨σ,⟨hsound.sealed,fun i hi => ?_,hsound.classes,hsound.files,hsound.recorded⟩,
    hw.injectors⟩,fun hmade => ?_⟩
  · rcases List.mem_cons.mp hi with rfl | hi
    · refine ⟨by simp,fun hsealed => ?_⟩
      obtain ⟨hlt,_⟩ := hw.site.sealed.objects _ hsealed
      exact Nat.lt_irrefl _ (hlt.trans_le hw.site.sealed.objects_le)
    · exact hsound.made i hi
  · exact Nat.lt_irrefl _ (hw.site.made _ hmade).1

/-- What units made may be written to. -/
theorem setProperty_along {ref : ObjectRef} (hmade : ref.index ∈ made) (name : String)
    (value : Value) : W.Keeps made (Objects.setProperty ref name value) := by
  rintro w ⟨σ,hw⟩
  have hfree := (hw.site.made _ hmade).2
  refine ⟨σ,⟨hw.site.sealed.setProperty hfree name value,fun i hi => ?_,hw.site.classes,
    hw.site.files,hw.site.recorded⟩,hw.injectors⟩
  obtain ⟨hlt,hnot⟩ := hw.site.made i hi
  refine ⟨?_,hnot⟩
  exact hlt.trans_eq (Seal.size_setProperty w.site.heap ref name value).symm

theorem follow (hask : W.Asks ask) : Objects.Follow (W.Follows made) ask where
  find className := onSite_along fun _ => find_sound className
  body c method := onSite_along fun _ =>
    Classes.Keep.walkFuel.bind fun fuel _ => keep_sound.bodyTo method fuel c
  setter c method := onSite_along fun _ =>
    Classes.Keep.walkFuel.bind fun fuel _ => keep_sound.setterTo method fuel c
  build tree := onSite_along fun _ => build_sound none tree
  newObject className properties := along_of_safe (newObject_safe className properties)
    fun _ _ hw => hw.1.mono (List.subset_cons_self _ _)
  ask := hask made

theorem invoke_along (hask : W.Asks ask) {ref : ObjectRef} (hmade : ref.index ∈ made)
    (method : String) (arguments : List Value) :
    W.Keeps made (Objects.invoke ask ref method arguments) :=
  Objects.invoke_along arguments (follow hask) (setProperty_along hmade) method

/-- What is constructed is new, and its own method may write to it. -/
theorem construct_safe (hask : W.Asks ask) (className : String) (arguments : List Value) :
    W.Safe made (W.Held made) (Objects.construct ask className arguments)
      fun ref w => W.Held (ref.index :: made) w ∧ ref.index ∉ made := by
  unfold Objects.construct
  refine (safe_of_along ((follow hask).find className)).bind fun c => ?_
  split
  · refine (newObject_safe className _).bind fun ref => .given fun hnew => ?_
    refine (safe_beside ((follow hask).body c _)).bind fun body => ?_
    cases body with
    | none => exact .pure fun _ hw => ⟨hw,hnew⟩
    | some body =>
      have hrun := Objects.runBody_along arguments (follow hask)
        (setProperty_along (List.mem_cons_self (a := ref.index) (l := made))) body
      exact (safe_beside hrun).bind fun _ => .pure fun _ hw => ⟨hw,hnew⟩
  · exact .throw _ fun _ hw => hw

end Held

/-- What a unit may ask for keeps the world held, unless the instance of the key itself is pulled
to be shared. Only objects that units made are written to. -/
structure Hosts (W : Watch) (s : Surroundings (StateM World)) : Prop where
  prototype : ∀ made key point, W.Keeps made (s.prototype key point)
  singleton : ∀ made key point, key ≠ W.key → W.Keeps made (s.singleton key point)
  injectionPoint : ∀ made, W.Keeps made s.injectionPoint
  injector : ∀ made, W.Keeps made s.injector
  construct : ∀ made className arguments,
    W.Safe made (W.Held made) (s.construct className arguments) (W.Fresh made)
  invoke : ∀ made, ∀ ref : ObjectRef, ref.index ∈ made → ∀ method arguments,
    W.Keeps made (s.invoke ref method arguments)
  setProperty : ∀ made, ∀ ref : ObjectRef, ref.index ∈ made → ∀ name value,
    W.Keeps made (s.setProperty ref name value)
  restore : ∀ made className properties, W.Keeps made (s.restore className properties)
  decode : ∀ made typeName bytes, W.Keeps made (s.decode typeName bytes)

namespace Hosts

variable {s : Surroundings (StateM World)}

/-- Values are made as on any other way along which the injector, objects and natives are made. -/
theorem builds (hs : W.Hosts s) : s.Builds (W.Follows made) where
  injector := hs.injector made
  construct className arguments :=
    along_of_safe (hs.construct made className arguments) fun _ _ hw => hw.held
  restore := hs.restore made
  decode := hs.decode made

variable (hs : W.Hosts s)
include hs

theorem pulled_along {shared : Bool} {key : Key} (h : (⟨shared,key⟩ : Pull) ≠ ⟨true,W.key⟩)
    (point : Option Parameter) : W.Keeps made (pulled s shared key point) := by
  cases shared with
  | true => exact hs.singleton _ _ _ fun hkey => h (by rw [hkey])
  | false => exact hs.prototype _ _ _

theorem element_along {e : Element} (h : ∀ p ∈ e.pulls, p ≠ ⟨true,W.key⟩) :
    W.Keeps made (e.perform s) := by
  cases e with
  | literal tree => exact tree.remake_along hs.builds
  | pull shared key => exact pulled_along hs (h _ (List.mem_singleton_self _)) _

theorem supply_along {x : Supply} (h : ∀ p ∈ x.pulls, p ≠ ⟨true,W.key⟩) :
    W.Keeps made (x.perform s) := by
  cases x with
  | literal tree => exact tree.remake_along hs.builds
  | point => exact hs.injectionPoint _
  | map elements =>
    refine Along.bind (.mapM fun e he => ?_) fun _ => .pure _
    refine (element_along hs fun p hp => h p ?_).bind fun _ => .pure _
    exact List.mem_flatMap.mpr ⟨e,he,hp⟩
  | pull shared key parameter => exact pulled_along hs (h _ (List.mem_singleton_self _)) _

theorem supplied_along {supplies : List Supply}
    (h : ∀ p ∈ supplies.flatMap Supply.pulls, p ≠ ⟨true,W.key⟩) :
    W.Keeps made (supplied s supplies) :=
  .mapM fun x hx => supply_along hs fun p hp => h p (List.mem_flatMap.mpr ⟨x,hx,hp⟩)

theorem called_along {ref : ObjectRef} (hmade : ref.index ∈ made) (unit : String)
    {calls : List (String × List Supply)}
    (h : ∀ p ∈ calls.flatMap (·.2.flatMap Supply.pulls), p ≠ ⟨true,W.key⟩) :
    W.Keeps made (called s unit (.object ref) calls) := by
  refine .forM fun call hcall => ?_
  have hpulls : ∀ p ∈ call.2.flatMap Supply.pulls, p ≠ ⟨true,W.key⟩ := fun p hp =>
    h p (List.mem_flatMap.mpr ⟨call,hcall,hp⟩)
  exact (supplied_along hs hpulls).bind fun _ => (hs.invoke _ ref hmade _ _).bind fun _ => .pure _

theorem interceptors_along {classNames : List String} (h : ∀ c ∈ classNames, Key.any c ≠ W.key) :
    W.Keeps made (interceptors s classNames) :=
  Along.bind (.mapM fun c hc => hs.singleton _ _ _ (h c hc)) fun _ => .pure _

theorem advise_along {ref : ObjectRef} (hmade : ref.index ∈ made) (unit : String)
    {advice : Table String (List String)} (h : ∀ p ∈ advicePulls advice, p ≠ ⟨true,W.key⟩) :
    W.Keeps made (advise s unit (.object ref) advice) := by
  refine Along.bind (.mapM fun row hrow => ?_) fun _ => hs.setProperty _ ref hmade _ _
  refine (interceptors_along hs fun c hc hkey => ?_).bind fun _ => .pure _
  refine h ⟨true,.any c⟩ ?_ (by rw [hkey])
  exact List.mem_flatMap.mpr ⟨row,hrow,List.mem_map.mpr ⟨c,hc,rfl⟩⟩

/-- What is assembled is the object that was constructed, which is new. -/
theorem assembly_safe (unit : String) {a : Assembly} (h : ∀ p ∈ a.pulls, p ≠ ⟨true,W.key⟩) :
    W.Safe made (W.Held made) (a.perform s unit) (W.Fresh made) := by
  have harguments : ∀ p ∈ a.arguments.flatMap Supply.pulls, p ≠ ⟨true,W.key⟩ := fun p hp =>
    h p (List.mem_append_left _ hp)
  have hsetters : ∀ p ∈ a.setters.flatMap (·.2.flatMap Supply.pulls), p ≠ ⟨true,W.key⟩ :=
    fun p hp => h p (List.mem_append_right _ hp)
  have hhook : ∀ p ∈ (a.hook.toList.map fun method => (method,([] : List Supply))).flatMap
      (·.2.flatMap Supply.pulls), p ≠ ⟨true,W.key⟩ := by
    intro p hp
    simp [List.flatMap_map] at hp
  refine (safe_of_along (supplied_along hs harguments)).bind fun values => ?_
  refine (hs.construct made a.className values).bind fun v => ?_
  refine .any fun ref => .given fun hv => .given fun hnew => ?_
  subst hv
  have hmade : ref.index ∈ ref.index :: made := List.mem_cons_self
  refine (safe_beside (called_along hs hmade unit hsetters)).bind fun _ => ?_
  refine (safe_beside (called_along hs hmade unit hhook)).bind fun _ => ?_
  exact .pure fun w hw => ⟨ref,⟨hw,hnew⟩,rfl⟩

/-- An object that is delivered as one that is not shared is new. -/
theorem made_safe (unit : String) {assembly : Assembly} {advice : Table String (List String)}
    {shared : Bool} (h : ∀ p ∈ assembly.pulls ++ advicePulls advice, p ≠ ⟨true,W.key⟩) :
    W.Safe made (W.Held made) (Delivery.perform s unit (.made assembly advice shared))
      fun r w => W.Fresh made r.1 w ∧ r.2 = shared := by
  have hassembly : ∀ p ∈ assembly.pulls, p ≠ ⟨true,W.key⟩ := fun p hp =>
    h p (List.mem_append_left _ hp)
  have hadvice : ∀ p ∈ advicePulls advice, p ≠ ⟨true,W.key⟩ := fun p hp =>
    h p (List.mem_append_right _ hp)
  refine (assembly_safe hs unit hassembly).bind fun v => ?_
  refine .any fun ref => .given fun hv => .given fun hnew => ?_
  subst hv
  have hpure : W.Safe made (W.Held (ref.index :: made))
      (pure (Value.object ref,shared) : Act (Value × Bool))
      fun r w => W.Fresh made r.1 w ∧ r.2 = shared :=
    .pure fun w hw => ⟨⟨ref,⟨hw,hnew⟩,rfl⟩,rfl⟩
  have hadvise := advise_along hs (List.mem_cons_self (a := ref.index) (l := made)) unit hadvice
  split
  · exact (safe_beside hadvise).bind fun _ => hpure
  · exact hpure

/-- Whatever is delivered leaves the world held if the instance of the key is not pulled to be
shared. -/
theorem delivery_along (unit : String) {d : Delivery}
    (h : ∀ p ∈ d.supplied ++ d.intercepted, p ≠ ⟨true,W.key⟩) :
    W.Keeps made (d.perform s unit) := by
  cases d with
  | literal tree => exact (tree.remake_along hs.builds).bind fun _ => .pure _
  | made assembly advice shared => exact along_of_safe (made_safe hs unit h) fun _ _ hw => hw.1.held
  | provided assembly context shared =>
    have hassembly : ∀ p ∈ assembly.pulls, p ≠ ⟨true,W.key⟩ := fun p hp =>
      h p (List.mem_append_left _ hp)
    have hcontext : ∀ p ∈ (context.toList.map fun text =>
        ("setContext",[Supply.literal (.text text)])).flatMap (·.2.flatMap Supply.pulls),
        p ≠ ⟨true,W.key⟩ := by
      intro p hp
      simp [List.flatMap_map,Supply.pulls] at hp
    have hprovided : W.Safe made (W.Held made)
        (Delivery.perform s unit (.provided assembly context shared)) fun _ => W.Held made := by
      refine (assembly_safe hs unit hassembly).bind fun v => ?_
      refine .any fun ref => .given fun hv => .given fun _ => ?_
      subst hv
      have hmade : ref.index ∈ ref.index :: made := List.mem_cons_self
      refine (safe_beside (called_along hs hmade unit hcontext)).bind fun _ => ?_
      refine (safe_beside (hs.invoke _ ref hmade "get" [])).bind fun _ => ?_
      exact .pure fun _ hw => hw.mono (List.subset_cons_self _ _)
    exact along_of_safe hprovided fun _ _ hw => hw

end Hosts
end Watch
end Wiring
