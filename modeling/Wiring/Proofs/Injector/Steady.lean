import Mathlib
import Wiring.Proofs.Injector.Following

/-!
# What compiling and reading leave alone

An injector has its shared instances, and the parameter that it supplies just now. Neither
changes while graphs are built, units are compiled, written and read, and qualifiers are looked
up: all of that only adds to what the injector has at hand.
-/
namespace Wiring

/-- The world after an injector has changed. -/
def World.withInjector (w : World) (id : InjectorId) (f : Injector → Injector) : World :=
  match w.injector? id with
  | some i => { w with injectors := w.injectors.put id (f i) }
  | none => w

theorem World.injector?_withInjector (w : World) (id other : InjectorId) (f : Injector → Injector) :
    (w.withInjector id f).injector? other =
      if other = id then (w.injector? id).map f else w.injector? other := by
  unfold World.withInjector
  by_cases he : other = id
  · subst he
    rw [if_pos rfl]
    cases h : w.injector? other with
    | none => exact h
    | some i => exact Table.find?_put_self ..
  · rw [if_neg he]
    cases w.injector? id with
    | none => rfl
    | some i => exact Table.find?_put_of_ne _ _ he

/-- What an injector is judged by: the instances it keeps and the parameter it supplies. -/
def Injector.standing (i : Injector) : Table Key Value × Option Parameter := (i.singletons,i.point)

/-- All injectors are where they were, with the same instances and the same parameters. -/
def Steady (w w' : World) : Prop :=
  ∀ id, (w'.injector? id).map Injector.standing = (w.injector? id).map Injector.standing

instance isPreorder_steady : IsPreorder World Steady where
  refl _ _ := rfl
  trans _ _ _ h h' id := (h' id).trans (h id)

variable {α : Type} {w w' : World}

namespace Steady

theorem of_injectors (h : w'.injectors = w.injectors) : Steady w w' := fun id => by
  rw [World.injector?,World.injector?,h]

theorem singletons (h : Steady w w') (id : InjectorId) :
    (w'.injector? id).map Injector.singletons = (w.injector? id).map Injector.singletons := by
  have hfst := congrArg (Option.map Prod.fst) (h id)
  rw [Option.map_map,Option.map_map] at hfst
  exact hfst

theorem point (h : Steady w w') (id : InjectorId) :
    (w'.injector? id).map Injector.point = (w.injector? id).map Injector.point := by
  have hsnd := congrArg (Option.map Prod.snd) (h id)
  rw [Option.map_map,Option.map_map] at hsnd
  exact hsnd

end Steady

namespace Act

theorem modifyInjector_run (id : InjectorId) (f : Injector → Injector) (w : World) :
    modifyInjector id f w = (.ok (),w.withInjector id f) := rfl

/-- An injector may change in anything that the relation does not look at. -/
theorem modifyInjector_same {β : Type} (view : Injector → β) (id : InjectorId)
    {f : Injector → Injector} (h : ∀ i, view (f i) = view i) (w : World) (other : InjectorId) :
    (((modifyInjector id f) w).2.injector? other).map view = (w.injector? other).map view := by
  rw [modifyInjector_run,World.injector?_withInjector]
  split
  next he =>
    subst he
    rw [Option.map_map]
    exact congrArg (fun g => Option.map g _) (funext h)
  next => rfl

theorem onSite_run {v : Work α} (world : World) {answer : Except Failure α} {site : Site}
    (h : v world.site = (answer,site)) : onSite v world = (answer,{ world with site }) := by
  show ((v world.site).1,{ world with site := (v world.site).2 }) = _
  rw [h]

theorem onSite_steady (w : Work α) : (onSite w).Along Steady := fun _ => .of_injectors rfl

theorem modifyScript_steady (id : InjectorId) {f : ScriptInjector → ScriptInjector}
    (h : ∀ s, (Injector.script (f s)).standing = (Injector.script s).standing) :
    (modifyScript id f).Along Steady := by
  refine modifyInjector_same Injector.standing id fun i => ?_
  cases i with
  | script s => exact h s
  | direct d => rfl

theorem modifyDirect_steady (id : InjectorId) {f : DirectInjector → DirectInjector}
    (h : ∀ d, (Injector.direct (f d)).standing = (Injector.direct d).standing) :
    (modifyDirect id f).Along Steady := by
  refine modifyInjector_same Injector.standing id fun i => ?_
  cases i with
  | script s => rfl
  | direct d => exact h d

theorem buildModule_steady (m : LazyModule) : (buildModule m).Along Steady :=
  Along.buildModule m (fun _ _ => .of_injectors rfl) (onSite_steady _)

end Act

namespace Resolve

open Act

theorem qualifier?_steady (i : Injector) (p : Parameter) : (qualifier? i p).Along Steady := by
  unfold qualifier?
  cases i with
  | script s => exact onSite_steady _
  | direct d => exact .pure _

theorem newPoint_steady (p : Parameter) (qualifier : Option Value) :
    (newPoint p qualifier).Along Steady := by
  unfold newPoint
  exact (onSite_steady _).bind fun _ => .pure _

theorem injectionPoint_steady (id : InjectorId) : (injectionPoint id).Along Steady := by
  refine (Along.injector id).bind fun i => ?_
  cases i.point with
  | none => exact .throw _
  | some p => exact (qualifier?_steady i p).bind fun _ => newPoint_steady p _

theorem graphOf_steady (id : InjectorId) : (graphOf id).Along Steady :=
  graphOf_along id buildModule_steady (fun _ => onSite_steady _) fun _ =>
    modifyScript_steady id fun _ => by rfl

theorem compileAll_steady (id : InjectorId) : (compileAll id).Along Steady :=
  (Along.scriptInjector id).bind fun _ => (graphOf_steady id).bind fun _ => onSite_steady _

theorem fileExists_steady (path : String) : (fileExists path).Along Steady :=
  Along.get.bind fun _ => .pure _

theorem compileOnce_steady (id : InjectorId) (dir : String) (key : Key) :
    (compileOnce id dir key).Along Steady := by
  refine (fileExists_steady _).bind fun there => ?_
  split
  · exact .throw _
  · refine (onSite_steady _).bind fun _ => (compileAll_steady id).bind fun _ => ?_
    refine (fileExists_steady _).bind fun there => ?_
    split
    · exact .pure _
    · exact .throw _

theorem compileMissing_steady (id : InjectorId) (key : Key) :
    (compileMissing id key).Along Steady := by
  refine (Along.scriptInjector id).bind fun s => ?_
  split
  · exact compileOnce_steady id s.dir key
  · refine (graphOf_steady id).bind fun g => (fileExists_steady _).bind fun first => ?_
    have hrest : (do
        let there ← fileExists (Layout.unitPath s.dir key)
        if !first && there then return
        else onSite (Demand.compile s.dir g (some (scopeIn s.dir g)) key) : Act Unit).Along
          Steady := by
      refine (fileExists_steady _).bind fun there => ?_
      split
      · exact .pure _
      · exact onSite_steady _
    dsimp only
    split
    · exact (onSite_steady _).bind fun _ => hrest
    · exact hrest

theorem loadUnit_steady (id : InjectorId) (key : Key) : (loadUnit id key).Along Steady := by
  refine (Along.scriptInjector id).bind fun s => ?_
  cases s.units.find? key with
  | some statements => exact .pure _
  | none =>
    have hread : (do
        let text ← onSite (Work.onFiles (Files.read (Layout.unitPath s.dir key)))
        let statements ← orThrow (Script.parseUnit (Layout.unitPath s.dir key) text)
        modifyScript id fun s => { s with units := s.units.put key statements }
        return statements : Act (List Script.Statement)).Along Steady :=
      (onSite_steady _).bind fun _ => (Along.orThrow _).bind fun _ =>
        (modifyScript_steady id fun _ => by rfl).bind fun _ => .pure _
    dsimp only
    refine (fileExists_steady _).bind fun there => ?_
    split
    · refine (compileMissing_steady id key).bind fun _ => (fileExists_steady _).bind fun there => ?_
      split
      · exact (Along.throw _).bind fun _ => hread
      · exact hread
    · exact hread

theorem codeOf_steady (id : InjectorId) (d : DirectInjector) (key : Key) :
    (codeOf id d key).Along Steady := by
  unfold codeOf
  cases d.codes.find? key with
  | some code => exact .pure _
  | none =>
    dsimp only
    exact (onSite_steady _).bind fun _ =>
      (modifyDirect_steady id fun _ => by rfl).bind fun _ => .pure _

end Resolve
end Wiring
