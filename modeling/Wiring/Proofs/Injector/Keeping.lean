import Mathlib
import Wiring.Injector.Snapshot
import Wiring.Proofs.Injector.Steady

/-!
# What running leaves alone

The shared instances of an injector change in one place only, where an instance is kept for
the first time. Everything else that goes on while units run, compiling and the methods of
objects included, leaves the instances of all injectors as they are. So whatever is run keeps
them, provided that the runs below it do. The keys whose units are running count as well: none
of them comes to be kept by what goes on meanwhile.
-/
namespace Wiring

/-- The shared instance that an injector keeps for a key. -/
def World.kept (w : World) (id : InjectorId) (key : Key) : Option Value :=
  (w.injector? id).bind fun i => i.singletons.find? key

/-- The keys whose units are running, each with the injector that runs it. -/
abbrev Running := List (InjectorId × Key)

variable {running : Running} {w w' w'' : World} {α β : Type}

/-- All injectors and all instances they keep stay, and no key that is running comes to be
kept. -/
structure Preserves (running : Running) (w w' : World) : Prop where
  lives : ∀ id, w.lives id = true → w'.lives id = true
  kept : ∀ id key v, w.kept id key = some v → w'.kept id key = some v
  free : ∀ id key, (id,key) ∈ running → w.kept id key = none → w'.kept id key = none

namespace Preserves

theorem refl (w : World) : Preserves running w w := ⟨fun _ h => h,fun _ _ _ h => h,fun _ _ _ h => h⟩

theorem trans (h : Preserves running w w') (h' : Preserves running w' w'') :
    Preserves running w w'' where
  lives id hw := h'.lives id (h.lives id hw)
  kept id key v hw := h'.kept id key v (h.kept id key v hw)
  free id key hm hw := h'.free id key hm (h.free id key hm hw)

theorem mono {more : Running} (h : Preserves more w w') (hsub : running ⊆ more) :
    Preserves running w w' := ⟨h.lives,h.kept,fun id key hm => h.free id key (hsub hm)⟩

/-- Where the instances of all injectors are the same, everything is preserved. -/
theorem of_same (h : ∀ id, (w'.injector? id).map Injector.singletons =
    (w.injector? id).map Injector.singletons) : Preserves running w w' := by
  have hkept (id : InjectorId) (key : Key) : w'.kept id key = w.kept id key := by
    have hbind (w : World) : w.kept id key =
        ((w.injector? id).map Injector.singletons).bind fun t => t.find? key := by
      rw [World.kept,Option.bind_map]
      rfl
    rw [hbind,hbind,h id]
  refine ⟨fun id hw => ?_,fun id key v hw => (hkept id key).trans hw,
    fun id key _ hw => (hkept id key).trans hw⟩
  have hsome := congrArg Option.isSome (h id)
  rw [Option.isSome_map,Option.isSome_map] at hsome
  exact hsome.trans hw

theorem of_steady (h : Steady w w') : Preserves running w w' := of_same h.singletons

end Preserves

/-- The world with other files. -/
def World.withFiles (w : World) (fs : Files) : World :=
  { w with site := { w.site with files := fs } }

theorem Act.onSite_onFiles (v : FileWork α) (w : World) : Act.onSite (Work.onFiles v) w =
    ((v w.site.files).1,w.withFiles (v w.site.files).2) := rfl

instance isPreorder_preserves (running : Running) : IsPreorder World (Preserves running) where
  refl := .refl
  trans _ _ _ := .trans

namespace Act

/-- What is there before is preserved, whether the action fails or not. -/
def Keeps (running : Running) (a : Act α) : Prop := ∀ w, Preserves running w (a w).2

namespace Keeps

theorem pure (a : α) : (Pure.pure a : Act α).Keeps running := Along.pure a

theorem throw (f : Failure) : (MonadExcept.throw f : Act α).Keeps running := Along.throw f

theorem get : (MonadState.get : Act World).Keeps running := Along.get

theorem bind {a : Act α} {f : α → Act β} (h : a.Keeps running) (hf : ∀ x, (f x).Keeps running) :
    (a >>= f).Keeps running := Along.bind h hf

theorem alike {a : Act α} (h : a.Keeps running) (w : World) :
    a.Alike (Preserves running w) a := Along.alike h w

/-- Whatever leaves the instances and the parameters of injectors alone. -/
theorem of_steady {a : Act α} (h : a.Along Steady) : a.Keeps running :=
  fun w => .of_steady (h w)

theorem onSite (w : Work α) : (Act.onSite w).Keeps running := .of_steady (onSite_steady w)

theorem heap : Act.heap.Keeps running := Along.heap

theorem injector (id : InjectorId) : (Act.injector id).Keeps running := Along.injector id

theorem scriptInjector (id : InjectorId) : (Act.scriptInjector id).Keeps running :=
  Along.scriptInjector id

theorem modifyInjector (id : InjectorId) {f : Injector → Injector}
    (h : ∀ i, (f i).singletons = i.singletons) : (Act.modifyInjector id f).Keeps running :=
  fun w => .of_same (modifyInjector_same Injector.singletons id h w)

end Keeps
end Act

namespace Objects

variable {ask : Ask} (arguments : List Value)

theorem follow_keeps (hask : ∀ id key, (ask id key).Keeps running) :
    Follow (Preserves running) ask where
  find _ := Act.Keeps.onSite _
  body _ _ := Act.Keeps.onSite _
  setter _ _ := Act.Keeps.onSite _
  build _ := Act.Keeps.onSite _
  newObject _ _ := Act.Keeps.onSite _
  ask := hask

theorem construct_keeps (hask : ∀ id key, (ask id key).Keeps running) (className : String) :
    (construct ask className arguments).Keeps running :=
  Act.Along.of_alike fun w => construct_alike arguments ((follow_keeps hask).alike w)
    (fun _ _ _ => Act.Keeps.alike (.onSite _) w) className

theorem invoke_keeps (hask : ∀ id key, (ask id key).Keeps running) (self : ObjectRef)
    (method : String) : (invoke ask self method arguments).Keeps running :=
  invoke_along arguments (follow_keeps hask) (fun _ _ => Act.Keeps.onSite _) method

end Objects

namespace Script

open Act

/-- Whatever a unit asks for is answered without a change of what is kept. -/
structure Surroundings.Keep (running : Running) (s : Surroundings (StateM World)) : Prop where
  prototype : ∀ key point, Act.Keeps running (s.prototype key point)
  singleton : ∀ key point, Act.Keeps running (s.singleton key point)
  injectionPoint : Act.Keeps running s.injectionPoint
  injector : Act.Keeps running s.injector
  construct : ∀ className arguments, Act.Keeps running (s.construct className arguments)
  invoke : ∀ self method arguments, Act.Keeps running (s.invoke self method arguments)
  property : ∀ self name, Act.Keeps running (s.property self name)
  setProperty : ∀ self name value, Act.Keeps running (s.setProperty self name value)
  restore : ∀ className properties, Act.Keeps running (s.restore className properties)
  decode : ∀ typeName bytes, Act.Keeps running (s.decode typeName bytes)

variable {s : Surroundings (StateM World)} (unit : String)

theorem Surroundings.Keep.alike (hs : s.Keep running) (w : World) :
    s.Alike (Preserves running w) s where
  prototype key point := Act.Keeps.alike (hs.prototype key point) w
  singleton key point := Act.Keeps.alike (hs.singleton key point) w
  injectionPoint := Act.Keeps.alike hs.injectionPoint w
  injector := Act.Keeps.alike hs.injector w
  construct className arguments := Act.Keeps.alike (hs.construct className arguments) w
  invoke self method arguments := Act.Keeps.alike (hs.invoke self method arguments) w
  property self name := Act.Keeps.alike (hs.property self name) w
  setProperty self name value := Act.Keeps.alike (hs.setProperty self name value) w
  restore className properties := Act.Keeps.alike (hs.restore className properties) w
  decode typeName bytes := Act.Keeps.alike (hs.decode typeName bytes) w

/-- A unit keeps what its surroundings keep. -/
theorem runUnit_keeps (hs : s.Keep running) (statements : List Statement) :
    Act.Keeps running (runUnit s unit statements) :=
  Along.of_alike fun w => runUnit_alike unit (hs.alike w) statements

end Script

namespace Resolve

open Act

theorem withPoint_keeps (id : InjectorId) (point : Option Parameter) {a : Act α}
    (h : a.Keeps running) : (withPoint id point a).Keeps running :=
  withPoint_along id (fun _ => Keeps.modifyInjector id fun i => by cases i <;> rfl) point h

end Resolve
end Wiring
