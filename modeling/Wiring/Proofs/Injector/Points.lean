import Mathlib
import Wiring.Proofs.Injector.Sharing
import Wiring.Proofs.Value.Building

/-!
# The parameter that is being supplied

A pull tells its injector which parameter it supplies and restores the former one afterwards,
whether it fails or not. Whatever else goes on changes the parameter of no injector, so runs
restore it at every depth. Hence all of a unit that a pull runs goes on while the injector
supplies the parameter of that pull, and the unit is told of this one alone.
-/
namespace Wiring

/-- The parameter that an injector supplies, or none, if there is such an injector. -/
def World.point? (w : World) (id : InjectorId) : Option (Option Parameter) :=
  (w.injector? id).map Injector.point

/-- All injectors supply what they supplied before. -/
def SamePoints (w w' : World) : Prop := ∀ id, w'.point? id = w.point? id

instance isPreorder_samePoints : IsPreorder World SamePoints where
  refl _ _ := rfl
  trans _ _ _ h h' id := (h' id).trans (h id)

variable {α : Type} {w : World} {id : InjectorId}

namespace Act

/-- Whatever an action does, all injectors supply afterwards what they supplied before. -/
def Restores (a : Act α) : Prop := a.Along SamePoints

theorem Restores.of_steady {a : Act α} (h : a.Along Steady) : a.Restores := fun w => (h w).point

end Act

namespace Resolve

open Act

variable {run : RunKey}

section Told

/-- What a unit is told that a pull runs for a parameter: that parameter and its qualifier, or
that there is none. The parameter that the injector supplies plays no part. -/
def told (id : InjectorId) : Option Parameter → Act Value
  | none => throw (.running .outsideProvider)
  | some p => do newPoint p (← qualifier? (← Act.injector id) p)

/-- An injector supplies a parameter, or none. -/
def Supplying (id : InjectorId) (point : Option Parameter) (w : World) : Prop :=
  w.point? id = some point

variable {point : Option Parameter}

theorem Supplying.alike {a : Act α} (h : a.Restores) : a.Alike (Supplying id point) a :=
  .of_keeps fun w hw => (h w id).trans hw

end Told

end Resolve
end Wiring
