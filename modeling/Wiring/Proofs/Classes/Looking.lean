import Mathlib
import Wiring.Compile.Weave
import Wiring.Proofs.Site

/-!
# Work that looks classes up

Walks along ancestors, matchers and weaving touch the registry and the files only by looking
classes up. So they keep every invariant of the site that a lookup keeps.
-/
namespace Wiring

open Work

/-- Looking up a class keeps the invariant, whether it is found or not. -/
def Classes.Keep (I : Site → Prop) : Prop :=
  ∀ className, (Classes.find? className).Maintains I fun _ => True

namespace Classes.Keep

variable {I : Site → Prop}

theorem find (h : Keep I) (className : String) :
    (Classes.find className).Maintains I fun _ => True := by
  unfold Classes.find
  refine (h className).bind fun c _ => ?_
  cases c with
  | none => exact .throw _
  | some c => exact .pure trivial

theorem findQuietly? (h : Keep I) (className : String) :
    (Classes.findQuietly? className).Maintains I fun _ => True := by
  unfold Classes.findQuietly?
  refine (Maintains.attempt (h className)).bind fun answer _ => ?_
  cases answer with
  | ok c => exact .pure trivial
  | error f => exact .pure trivial

theorem anyOf {α : Type} {test : α → Work Bool} (items : List α)
    (htest : ∀ a, (test a).Maintains I fun _ => True) :
    (Classes.anyOf test items).Maintains I fun _ => True := by
  induction items with
  | nil => exact .pure trivial
  | cons a rest ih =>
    unfold Classes.anyOf
    refine (htest a).bind fun passes _ => ?_
    split
    · exact .pure trivial
    · exact ih

/-- The induction is on the fuel: a walk looks up one class and goes on from its parents. -/
theorem reaches (h : Keep I) (target : String) (fuel : Nat) (className : String) :
    (Classes.reaches target fuel className).Maintains I fun _ => True := by
  induction fuel generalizing className with
  | zero => exact .throw _
  | succ fuel ih =>
    unfold Classes.reaches
    split
    · exact .pure trivial
    refine (h.findQuietly? className).bind fun c _ => ?_
    cases c with
    | none => exact .pure trivial
    | some c =>
      have hinterface (i : String) : (if i = target then return true else
          Classes.reaches target fuel i : Work Bool).Maintains I fun _ => True := by
        split
        · exact .pure trivial
        · exact ih i
      refine (anyOf c.interfaces hinterface).bind fun reached _ => ?_
      split
      · exact .pure trivial
      · cases c.parent with
        | none => exact .pure trivial
        | some parent => exact ih parent

theorem walkFuel : Classes.walkFuel.Maintains I fun _ => True :=
  fun _ hsite => ⟨hsite,fun _ _ => trivial⟩

theorem methodNamesTo (h : Keep I) (fuel : Nat) (className : String) :
    (Classes.methodNamesTo fuel className).Maintains I fun _ => True := by
  induction fuel generalizing className with
  | zero => exact .throw _
  | succ fuel ih =>
    unfold Classes.methodNamesTo
    refine (h.find className).bind fun c _ => ?_
    cases c.parent with
    | none => exact .pure trivial
    | some parent => exact (ih parent).bind fun _ _ => .pure trivial

theorem bodyTo (h : Keep I) (method : String) (fuel : Nat) (c : ClassDecl) :
    (Classes.bodyTo method fuel c).Maintains I fun _ => True := by
  induction fuel generalizing c with
  | zero => exact .throw _
  | succ fuel ih =>
    unfold Classes.bodyTo
    cases c.methods.find? method with
    | some body => exact .pure trivial
    | none =>
      cases c.parent with
      | none => exact .pure trivial
      | some parent => exact (h.find parent).bind fun above _ => ih above

theorem setterTo (h : Keep I) (method : String) (fuel : Nat) (c : ClassDecl) :
    (Classes.setterTo method fuel c).Maintains I fun _ => True := by
  induction fuel generalizing c with
  | zero => exact .throw _
  | succ fuel ih =>
    unfold Classes.setterTo
    cases c.setter? method with
    | some setter => exact .pure trivial
    | none =>
      cases c.parent with
      | none => exact .pure trivial
      | some parent => exact (h.find parent).bind fun above _ => ih above

theorem declaredTo (h : Keep I) (fuel : Nat) (interface : String) (names : List String) :
    (Classes.declaredTo fuel interface names).Maintains I fun _ => True := by
  induction fuel generalizing interface names with
  | zero => exact .throw _
  | succ fuel ih =>
    unfold Classes.declaredTo
    refine (h.find interface).bind fun c _ => ?_
    exact (Maintains.foldlM trivial fun i _ names _ => ih i names).bind fun _ _ => .pure trivial

theorem selects (h : Keep I) (m : Matcher) (className : String) :
    (Classes.selects m className).Maintains I fun _ => True := by
  cases m with
  | any => exact .pure trivial
  | subclassesOf target => exact walkFuel.bind fun fuel _ => h.reaches target fuel className
  | startsWith start => exact .pure trivial
  | named name => exact .pure trivial

/-- Weaving looks classes up, and changes nothing of a plan but its interceptors. -/
theorem weave (h : Keep I) (pointcuts : List Pointcut) (plan : Plan Value) :
    (Weave.plan pointcuts plan).Maintains I fun woven => ∃ advice, woven = { plan with advice } := by
  unfold Weave.plan Classes.methodNames
  refine (walkFuel.bind fun fuel _ => h.methodNamesTo fuel plan.className).bind fun methods _ => ?_
  refine .foldlM ⟨plan.advice,rfl⟩ fun p _ woven hwoven => ?_
  unfold Weave.apply
  refine (h.selects p.classes woven.className).bind fun selected _ => ?_
  obtain ⟨advice,rfl⟩ := hwoven
  split
  · exact .pure ⟨_,rfl⟩
  · exact .pure ⟨_,rfl⟩

end Classes.Keep
end Wiring
