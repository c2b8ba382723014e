import Mathlib
import Wiring.Proofs.Injector.Performing

/-!
# Prototypes are new each time

The instances of a prototype do not depend on what has been asked for before. As long as the world
is held under watch for its key, whatever is asked of injectors leaves it held, and the instance
that is given for the key is an object that no unit had made before. The induction is on the depth
of runs.
-/
namespace Wiring

open Heap (Grown)

namespace Watch

open Act Resolve

variable {W : Watch} {made : List Nat} {σ : Seal} {run : RunKey}

/-- What is given for a key leaves the world held, and is new if it is given for the watched one. -/
structure Gives (W : Watch) (made : List Nat) (key : Key) (v : Value) (w : World) : Prop where
  held : W.Held made w
  fresh : key = W.key → W.Fresh made v w

/-- A unit of the key gives an instance that is new and not to be kept. -/
def RunsWell (W : Watch) (run : RunKey) : Prop :=
  ∀ made id key, W.Safe made (W.Held made) (run id key)
    fun r w => W.Gives made key r.1 w ∧ (key = W.key → r.2 = false)

section Keeping

theorem RunsWell.keeps (h : W.RunsWell run) (id : InjectorId) (key : Key) :
    W.Keeps made (run id key) := along_of_safe (h made id key) fun _ _ hw => hw.1.held

/-- An instance of another key may be kept. -/
theorem Held.remember {w : World} (h : W.Held made w) {key : Key} (hkey : key ≠ W.key)
    (id : InjectorId) (v : Value) : W.Held made (w.remember id key v) := by
  obtain ⟨σ,hσ⟩ := h
  exact ⟨σ,hσ.withInjector id fun i hi => hi.remember hkey v⟩

/-- No injector keeps an instance of the key. -/
theorem Held.free {w : World} (h : W.Held made w) (id : InjectorId) : w.kept id W.key = none := by
  obtain ⟨σ,hσ⟩ := h
  rw [World.kept]
  cases hi : w.injector? id with
  | none => rfl
  | some i => exact (hσ.injectors id i hi).free

theorem setPoint_keeps (id : InjectorId) (point : Option Parameter) :
    W.Keeps made (modifyInjector id (·.setPoint point)) := by
  rintro w ⟨σ,hσ⟩
  exact ⟨σ,hσ.withInjector id fun i hi => hi.setPoint point⟩

theorem resolve_safe (h : W.RunsWell run) (id : InjectorId) (key : Key) :
    W.Safe made (W.Held made) (resolve run id key) (W.Gives made key) := by
  refine ⟨fun w hw => ?_⟩
  cases hi : w.injector? id with
  | none =>
    rw [resolve,Work.run_bind_error _ (injector_gone hi)]
    exact hw
  | some i =>
    cases hkept : w.kept id key with
    | some v =>
      rw [resolve_kept hkept]
      refine ⟨hw,fun hkey => ?_⟩
      subst hkey
      cases (hw.free id).symm.trans hkept
    | none =>
      have hends := (h made id key).ends w hw
      cases hrun : run id key w with
      | mk answer after =>
        rw [hrun] at hends
        cases answer with
        | error f =>
          rw [resolve_failed hi hkept hrun]
          exact hends
        | ok r =>
          obtain ⟨hgives,hshared⟩ := hends
          rw [resolve_ran hi hkept hrun]
          split
          next hkeep =>
            have hkey : key ≠ W.key := fun he => by
              rw [hshared he] at hkeep
              cases hkeep
            exact ⟨hgives.held.remember hkey id r.1,fun he => absurd he hkey⟩
          next => exact hgives

theorem asks (h : W.RunsWell run) : W.Asks (resolve run) := fun _ id key =>
  along_of_safe (resolve_safe h id key) fun _ _ hw => hw.held

theorem singleton_keeps (h : W.RunsWell run) (id : InjectorId) {key : Key} (hkey : key ≠ W.key)
    (point : Option Parameter) : W.Keeps made (Resolve.singleton run id key point) := by
  intro w hw
  cases hi : w.injector? id with
  | none =>
    rw [Resolve.singleton,Work.run_bind_error _ (injector_gone hi)]
    exact hw
  | some i =>
    cases hkept : w.kept id key with
    | some v =>
      rw [singleton_kept point hkept]
      exact hw
    | none =>
      have hnext := withPoint_along id (setPoint_keeps id) point (h.keeps id key) w hw
      cases hrun : withPoint id point (run id key) w with
      | mk answer after =>
        rw [hrun] at hnext
        cases answer with
        | error f =>
          rw [singleton_failed hi hkept hrun]
          exact hnext
        | ok r =>
          rw [singleton_ran hi hkept hrun]
          exact Held.remember hnext hkey id r.1

theorem injectionPoint_keeps (id : InjectorId) : W.Keeps made (injectionPoint id) := by
  refine (Along.injector id).bind fun i => ?_
  cases i.point with
  | none => exact .throw _
  | some p =>
    have hnew (q : Option Value) : W.Keeps made (newPoint p q) := by
      refine (onSite_along fun _ => onHeap_sound fun heap => ?_).bind fun _ => .pure _
      exact Grown.newNative heap _ _
    cases i with
    | script s => exact (onSite_along fun _ => qualifier?_sound s.dir p).bind hnew
    | direct d => exact (Along.pure _).bind hnew

theorem surroundings_hosts (h : W.RunsWell run) (id : InjectorId) :
    W.Hosts (surroundings run id) where
  prototype _ key point := withPoint_along id (setPoint_keeps id) point (asks h _ id key)
  singleton _ _ point hkey := singleton_keeps h id hkey point
  injectionPoint _ := injectionPoint_keeps id
  injector _ := .pure _
  construct _ className arguments :=
    (Held.construct_safe (asks h) className arguments).bind fun ref =>
      .pure fun _ hw => ⟨ref,hw,rfl⟩
  invoke _ _ hmade method arguments := Held.invoke_along (asks h) hmade method arguments
  setProperty _ _ hmade name value := Held.setProperty_along hmade name value
  restore _ className properties :=
    ((Held.follow (asks h)).newObject className properties).bind fun _ => .pure _
  decode _ typeName bytes := onSite_along fun _ => decodeNative_sound typeName bytes

end Keeping

section Running

/-- A unit that fits delivers what it should: nothing but new instances of the key. -/
theorem unit_safe {key : Key} {statements : List Script.Statement}
    (hruns : W.Runs (key = W.key) statements) {s : Script.Surroundings (StateM World)}
    (hs : W.Hosts s) (unit : String) :
    W.Safe made (W.Held made) (Script.runUnit s unit statements)
      fun r w => W.Gives made key r.1 w ∧ (key = W.key → r.2 = false) := by
  obtain ⟨d,hd,hpulls,hown⟩ := hruns
  rw [hd s unit]
  by_cases hkey : key = W.key
  · obtain ⟨assembly,advice,rfl⟩ := hown hkey
    refine (Hosts.made_safe hs unit hpulls).imp fun r w ⟨hfresh,hshared⟩ => ?_
    exact ⟨⟨hfresh.held,fun _ => hfresh⟩,fun _ => hshared⟩
  · have hkeeps : W.Safe made (W.Held made) (d.perform s unit) fun _ => W.Held made :=
      safe_of_along (hs.delivery_along unit hpulls)
    refine hkeeps.imp fun r w hw => ?_
    exact ⟨⟨hw,fun he => absurd he hkey⟩,fun he => absurd he hkey⟩

theorem runWith_well (h : W.RunsWell run) : W.RunsWell (runWith run) := by
  intro made id key
  have hs := surroundings_hosts h id
  unfold runWith
  refine .any fun σ => (injector_safe id).bind fun i => .given fun hi => ?_
  cases i with
  | script s =>
    refine (at_seal (loadUnit_safe id key)).bind fun statements => .given fun hruns => ?_
    exact unit_safe hruns hs _
  | direct d =>
    refine (codeOf_safe id hi key).bind fun code => .given fun hruns => ?_
    exact unit_safe hruns hs _

/-- Runs nested to any depth; what is too deep fails. -/
theorem runKey_well (depth : Nat) : W.RunsWell (runKey depth) := by
  induction depth with
  | zero => exact fun made id key => .throw _ fun _ hw => hw
  | succ depth ih => exact runWith_well ih

theorem request_safe (id : InjectorId) (interface name : String) :
    W.Safe made (W.Held made) (request id interface name) (W.Gives made (.of interface name)) :=
  resolve_safe (runKey_well depthLimit) id _

end Running

end Watch

/-- What goes on around the requests for a key. -/
inductive Event where
  /-- A module is compiled as a whole. -/
  | batch (m : LazyModule) (dir : String)
  /-- A direct injector is made for a module. -/
  | direct (m : LazyModule) (dir : String)
  /-- A script injector is made over a directory, with instances kept in an earlier run. -/
  | script (dir : String) (source : Option LazyModule) (strict : Bool) (kept : Table Key Tree)
  /-- A script injector compiles all of its units. -/
  | compile (id : InjectorId)
  | request (id : InjectorId) (interface name : String)

namespace Event

def act : Event → Act Unit
  | batch m dir => Act.onSite do (← Batch.ofModule dir m.statements).compile
  | direct m dir => do
      let _ ← Act.openDirect dir (← Act.buildModule m)
  | script dir source strict kept => do
      let _ ← Act.openScript dir source strict kept none
  | compile id => Resolve.compileAll id
  | request id interface name => do
      let _ ← Resolve.request id interface name

/-- Modules that are compiled, or injectors made for, fit, and no instance of the key is kept
from before. -/
def Fits (W : Watch) : Event → Prop
  | batch m dir => W.dir? = some dir ∧ W.Builds m.statements
  | direct m _ => W.Builds m.statements
  | script dir source _ kept =>
      W.dir? = some dir ∧ (∀ m, source = some m → W.Builds m.statements) ∧
        (source = none → W.recorded) ∧ kept.find? W.key = none
  | compile _ => True
  | request _ _ _ => True

/-- The world after some events, whatever becomes of each. -/
def after (events : List Event) (w : World) : World := events.foldl (fun w e => (e.act w).2) w

variable {W : Watch} {made : List Nat}

theorem act_safe {e : Event} (h : e.Fits W) :
    W.Safe made (W.Held made) e.act fun _ => W.Held made := by
  cases e with
  | batch m dir => exact Watch.batch_safe h.1 h.2
  | direct m dir =>
    refine .any fun σ => (Watch.buildModule_safe h).bind fun g => ?_
    exact (Watch.openDirect_safe dir g).bind fun _ => .pure fun _ hw => hw
  | script dir source strict kept =>
    obtain ⟨hdir,hsource,hrecorded,hfree⟩ := h
    refine (Watch.openScript_safe hdir hsource hrecorded strict hfree).bind fun _ => ?_
    exact .pure fun _ hw => hw
  | compile id => exact Watch.compileAll_safe id
  | request id interface name =>
    exact (Watch.request_safe id interface name).bind fun _ => .pure fun _ hw => hw.held

theorem after_held {events : List Event} (h : ∀ e ∈ events, e.Fits W) {w : World}
    (hw : W.Held made w) : W.Held made (after events w) := by
  induction events generalizing w with
  | nil => exact hw
  | cons e rest ih =>
    obtain ⟨he,hrest⟩ := List.forall_mem_cons.mp h
    exact ih hrest (Watch.along_of_safe (act_safe he) (fun _ _ hnext => hnext) w hw)

end Event

/-- Prototypes do not depend on history. Whatever injectors are made and asked for, in whatever
order, two instances that are given for the key are distinct objects. The key is that of a class
that is not shared, bound or inferred, and not the one under which an interceptor is pulled. -/
theorem prototypes_are_new_each_time {W : Watch} {w : World} (hw : W.Held [] w)
    {earlier later : List Event} (hearlier : ∀ e ∈ earlier, e.Fits W)
    (hlater : ∀ e ∈ later, e.Fits W) {interface name : String} (hkey : .of interface name = W.key)
    {id id' : InjectorId} {v v' : Value} {w₁ w₂ : World}
    (h : Resolve.request id interface name (Event.after earlier w) = (.ok v,w₁))
    (h' : Resolve.request id' interface name (Event.after later w₁) = (.ok v',w₂)) :
    ∃ ref ref' : ObjectRef, v = .object ref ∧ v' = .object ref' ∧ ref.index ≠ ref'.index := by
  have hfirst := (Watch.request_safe id interface name).ends _ (Event.after_held hearlier hw)
  rw [h] at hfirst
  obtain ⟨ref,⟨hheld,_⟩,rfl⟩ := hfirst.fresh hkey
  have hsecond := (Watch.request_safe id' interface name).ends _ (Event.after_held hlater hheld)
  rw [h'] at hsecond
  obtain ⟨ref',⟨_,hnew⟩,rfl⟩ := hsecond.fresh hkey
  refine ⟨ref,ref',rfl,rfl,fun he => hnew ?_⟩
  rw [← he]
  exact List.mem_cons_self

/-- The object that an answer is. -/
def objectOf : Except Failure Value → Option ObjectRef
  | .ok (.object ref) => some ref
  | _ => none

theorem answer_of_objectOf {asked : Act Value} {w : World} {ref : ObjectRef}
    (h : objectOf (asked w).1 = some ref) : asked w = (.ok (.object ref),(asked w).2) := by
  refine Prod.ext ?_ rfl
  unfold objectOf at h
  split at h
  next he => rw [he,Option.some.inj h]
  next => cases h

namespace Showroom

/-- The methods of cars are logged. -/
def logging : Pointcut := ⟨.named "Car",.any,["Log"]⟩

def cars : LazyModule where
  label := none
  statements := [.bind "Car" none (.to "Car") false,.intercept logging]
  lasting := false

def classes : Table String ClassDecl :=
  [("Car",{ name := "Car", methods := [("drive",[])] }),("Log",{ name := "Log" })]

/-- The directory holds the pointcuts of an earlier compile. -/
def world : World where
  site :=
    { registry := { classes := classes }
      files :=
        { directories := [["s"]]
          contents := [(["s","_aop.json"],(Json.list ([logging].map Pointcut.toJson)).compact)] } }

/-- The keys of the two classes, and those that are always bound. -/
def keys : List Key := [.any "Car",.any "Log",.any Key.injectorInterface,Key.scriptDir]

/-- None of the classes is shared or asks for anything. -/
theorem of_classes {name : String} {c : ClassDecl} (h : (name,c) ∈ classes) :
    Script.isNameText name = true ∧ .any name ∈ keys ∧ c = { name, methods := c.methods } := by
  rcases List.mem_cons.mp h with h | h
  · obtain ⟨rfl,rfl⟩ := Prod.mk.inj h
    exact ⟨by decide,by decide,rfl⟩
  · obtain ⟨rfl,rfl⟩ := Prod.mk.inj (List.mem_singleton.mp h)
    exact ⟨by decide,by decide,rfl⟩

def watch : Watch where
  key := .any "Car"
  bound := False
  dir? := some "s"
  declared name c := (name,c) ∈ classes
  generated _ := False
  used key := key ∈ keys
  recorded := False
  toClass _ h := h.elim
  unshared := .inr fun c hc => by rw [(of_classes hc).2.2]
  named name c hc _ := (of_classes hc).1
  inferred name c hc := (of_classes hc).2.1
  injector := by decide
  scriptDir := by decide
  notScriptDir := by decide
  notInjector := .inr (by decide)
  isAny := .inr (by decide)
  alone dir hdir := by
    rw [← Option.some.inj hdir]
    decide +kernel
  scopeAlone := .inr fun dir hdir => by
    rw [← Option.some.inj hdir]
    decide +kernel

theorem showroom_held : watch.Held [] world := by
  refine Watch.held_of_new rfl (fun name c hc => ?_) (fun path text _ hfind => ?_)
    fun h => h.elim
  · have hdeclared : (name,c) ∈ classes := Table.mem_of_find? hc
    obtain ⟨hname,_,hplain⟩ := of_classes hdeclared
    refine ⟨hdeclared,?_,?_⟩
    · rw [hplain]
      exact fun n hn _ => by rwa [List.mem_singleton.mp hn]
    · rw [hplain]
      exact fun _ ha => by cases ha
  · obtain ⟨rfl,rfl⟩ := Prod.mk.inj (List.mem_singleton.mp (Table.mem_of_find? hfind))
    have hspared : ∀ p ∈ [logging], ∀ i ∈ p.interceptors, Key.any i ≠ watch.key := by decide
    exact Watch.FileFits.pointcutsPath "s" hspared

theorem cars_build : watch.Builds cars.statements := by
  have hunshared : watch.Unshared := fun name c hc _ => by rw [(of_classes hc).2.2]
  refine Watch.builds_of_sound fun σ => ?_
  have hbinding : (Graph.bindingOf "Car" (.to "Car")).Maintains (watch.Sound σ []) fun b? =>
      ∀ b, b? = some b → watch.BindingFits σ b ∧
        (.of "Car" Key.anyName = watch.key → Watch.Anew b) :=
    Watch.classBinding_sound "Car" fun _ c hc => by rw [(of_classes hc).2.2]
  have hcar := Watch.bindTarget_sound hunshared (show Key.of "Car" Key.anyName ∈ keys by decide)
    hbinding (fun _ => rfl) (Watch.empty_fits id)
  exact hcar.bind fun g hg =>
    (Watch.intercept_sound hunshared (p := logging) (by decide) hg).bind fun _ hg' => .pure hg'

/-- Both injectors are made over cars, and asked for a car and a logger. -/
def opening : List Event :=
  [.direct cars "s",.script "s" (some cars) false [],.request ⟨0⟩ "Car" "*",
    .request ⟨1⟩ "Log" "*"]

theorem opening_fits : ∀ e ∈ opening, e.Fits watch := by
  intro e he
  simp only [opening,List.mem_cons,List.not_mem_nil,or_false] at he
  obtain rfl | rfl | rfl | rfl := he
  · exact cars_build
  · refine ⟨rfl,fun m hm => ?_,fun h => ?_,rfl⟩
    · exact Option.some.inj hm ▸ cars_build
    · cases h
  · trivial
  · trivial

/-- Two cars of the script injector, and a logger in between. -/
theorem prototypes_are_new_each_time_sample :
    ∃ (v v' : Value) (w₁ w₂ : World),
      Resolve.request ⟨1⟩ "Car" "*" (Event.after opening world) = (.ok v,w₁) ∧
      Resolve.request ⟨1⟩ "Car" "*" (Event.after [.request ⟨1⟩ "Log" "*"] w₁) = (.ok v',w₂) ∧
      ∃ ref ref' : ObjectRef, v = .object ref ∧ v' = .object ref' ∧ ref.index ≠ ref'.index := by
  obtain ⟨h,h'⟩ :
      objectOf (Resolve.request ⟨1⟩ "Car" "*" (Event.after opening world)).1 =
        some ⟨3,"Car"⟩ ∧
      objectOf (Resolve.request ⟨1⟩ "Car" "*" (Event.after [.request ⟨1⟩ "Log" "*"]
        (Resolve.request ⟨1⟩ "Car" "*" (Event.after opening world)).2)).1 =
        some ⟨5,"Car"⟩ := by decide +kernel
  have hlater : ∀ e ∈ [Event.request ⟨1⟩ "Log" "*"], e.Fits watch := by
    intro e he
    rw [List.mem_singleton.mp he]
    trivial
  exact ⟨_,_,_,_,answer_of_objectOf h,answer_of_objectOf h',
    prototypes_are_new_each_time showroom_held opening_fits hlater rfl (answer_of_objectOf h)
      (answer_of_objectOf h')⟩

/-- Whether the graph of the injector binds the key to a class that is not shared. -/
def bindsPrototype (id : InjectorId) (key : Key) (w : World) : Bool :=
  match w.injector? id with
  | some (.direct d) =>
      match d.graph.get? key with
      | some (.construction plan) => !plan.shared
      | _ => false
  | _ => false

/-- Not so under the key of an interceptor. Once a car has been given, the logger that was made
for it is given again and again, although its class is not shared. -/
theorem interceptors_are_kept :
    bindsPrototype ⟨0⟩ (.any "Log")
      (Event.after [.direct cars "s",.request ⟨0⟩ "Car" "*"] world) = true ∧
    ∃ (log : ObjectRef) (w₁ w₂ : World),
      Resolve.request ⟨0⟩ "Log" "*"
        (Event.after [.direct cars "s",.request ⟨0⟩ "Car" "*"] world) = (.ok (.object log),w₁) ∧
      Resolve.request ⟨0⟩ "Log" "*" w₁ = (.ok (.object log),w₂) := by
  refine ⟨by decide +kernel,⟨1,"Log"⟩,_,_,answer_of_objectOf ?_,answer_of_objectOf ?_⟩
  · decide +kernel
  · decide +kernel

end Showroom
end Wiring
