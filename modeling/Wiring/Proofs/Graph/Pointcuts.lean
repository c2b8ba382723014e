import Mathlib
import Wiring.Graph.Json
import Wiring.Proofs.Results
import Wiring.Proofs.Value.JsonForm

/-!
# Saved pointcuts are read back

The table of pointcuts that is saved with a whole compile has no numbers in it and is only a
few levels deep, so the pointcuts are read back as they were, in order.
-/
namespace Wiring

open Json (Legible)

theorem texts_legible (depth : Nat) (names : List String) :
    Legible (depth + 2) (Json.texts names) := by
  refine .list fun item hitem => ?_
  obtain ⟨name,_,rfl⟩ := List.mem_map.mp hitem
  exact .text _ _

theorem asList_texts (names : List String) :
    Json.asList Json.asText (Json.texts names) = some names := by
  refine mapM_eq_some.mpr ?_
  rw [List.forall₂_map_left_iff,List.forall₂_same]
  exact fun _ _ => rfl

namespace Matcher

theorem legible (m : Matcher) (depth : Nat) : Legible (depth + 2) m.toJson := by
  cases m with
  | any => exact .record (List.forall_mem_cons.mpr ⟨.text _ _,fun _ h => by cases h⟩)
  | subclassesOf | startsWith | named =>
    refine .record (List.forall_mem_cons.mpr ⟨.text _ _,?_⟩)
    exact List.forall_mem_cons.mpr ⟨.text _ _,fun _ h => by cases h⟩

theorem ofJson_toJson (m : Matcher) : Matcher.ofJson? m.toJson = some m := by
  cases m with
  | any =>
    rw [Matcher.ofJson?,toJson,Tree.variant_bare]
    rfl
  | subclassesOf | startsWith | named =>
    rw [Matcher.ofJson?,toJson,Tree.variant_tagged]
    rfl

end Matcher

namespace Pointcut

theorem legible (p : Pointcut) (depth : Nat) : Legible (depth + 3) p.toJson := by
  refine .record (List.forall_mem_cons.mpr ⟨p.classes.legible depth,?_⟩)
  refine List.forall_mem_cons.mpr ⟨p.methods.legible depth,?_⟩
  exact List.forall_mem_cons.mpr ⟨texts_legible depth _,fun _ h => by cases h⟩

theorem ofJson_toJson (p : Pointcut) : Pointcut.ofJson? p.toJson = some p := by
  have hslots : p.toJson.slots ["class_matcher","method_matcher","interceptors"] =
      some [.given p.classes.toJson,.given p.methods.toJson,.given (Json.texts p.interceptors)] := by
    simp [toJson,Json.slots,Json.fieldSlots,Json.valuesAt]
  simp [Pointcut.ofJson?,hslots,Json.Slot.required,Matcher.ofJson_toJson,asList_texts]

/-- Pointcuts are read back from the text that is saved of them. -/
theorem read_toJson (ps : List Pointcut) :
    (Json.read? (Json.list (ps.map toJson)).compact).bind (Json.asList Pointcut.ofJson?) =
      some ps := by
  have hlegible : Legible Json.depthLimit (.list (ps.map toJson)) := by
    refine .list fun item hitem => ?_
    obtain ⟨p,_,rfl⟩ := List.mem_map.mp hitem
    exact p.legible _
  rw [Json.read_compact hlegible,Option.bind_some]
  refine mapM_eq_some.mpr ?_
  rw [List.forall₂_map_left_iff,List.forall₂_same]
  exact fun p _ => p.ofJson_toJson

end Pointcut
end Wiring
