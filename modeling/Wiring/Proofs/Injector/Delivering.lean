import Mathlib
import Wiring.Proofs.Compile.Delivery
import Wiring.Proofs.Injector.Sharing

/-!
# Where deliveries lead

A delivery is one ask of the surroundings after another, so it follows every relation between
worlds that all of these asks follow. One such relation is that what is kept stays: an injector
gives the instance that it keeps for a key without running the unit of the key, so whatever runs,
and however deep, keeps all that was kept before. This holds of keys that are asked for inside their
own runs as well.
-/
namespace Wiring

open Script (Surroundings pulled)

variable {R : World → World → Prop} {α β : Type}

namespace Script.Surroundings

/-- What values are made by follows the relation. -/
structure Builds (R : World → World → Prop) (s : Surroundings (StateM World)) : Prop where
  injector : Act.Along R s.injector
  construct : ∀ className arguments, Act.Along R (s.construct className arguments)
  restore : ∀ className properties, Act.Along R (s.restore className properties)
  decode : ∀ typeName bytes, Act.Along R (s.decode typeName bytes)

/-- Whatever a delivery asks for follows the relation. -/
structure Follow (R : World → World → Prop) (s : Surroundings (StateM World)) : Prop
    extends Builds R s where
  prototype : ∀ key point, Act.Along R (s.prototype key point)
  singleton : ∀ key point, Act.Along R (s.singleton key point)
  injectionPoint : Act.Along R s.injectionPoint
  invoke : ∀ self method arguments, Act.Along R (s.invoke self method arguments)
  setProperty : ∀ self name value, Act.Along R (s.setProperty self name value)

theorem Keep.follow {running : Running} {s : Surroundings (StateM World)} (hs : s.Keep running) :
    s.Follow (Preserves running) :=
  { hs with }

end Script.Surroundings

variable [IsPreorder World R] {s : Surroundings (StateM World)}

namespace Tree

mutual

/-- A value is remade along the relation. -/
theorem remake_along (hs : s.Builds R) : ∀ t : Tree, Act.Along R (t.remake s)
  | .null | .bool _ | .int _ | .float _ | .text _ => by
      rw [remake]
      exact .pure _
  | .array ⟨entries,_⟩ => by
      rw [remake]
      exact (remakeEntries_along hs entries).bind fun _ => .pure _
  | .object className properties => by
      rw [remake]
      exact (remakeProperties_along hs properties).bind fun _ => hs.restore _ _
  | .blob typeName bytes => by
      rw [remake]
      exact hs.decode _ _
  | .foreign typeName none => by
      rw [remake]
      exact .throw _
  | .foreign typeName (some source) => by
      rw [remake]
      exact (remake_along hs source).bind fun _ => hs.construct _ _
  | .injector => by
      rw [remake]
      exact hs.injector

theorem remakeEntries_along (hs : s.Builds R) : ∀ entries : List (ArrayKey × Tree),
    Act.Along R (remakeEntries s entries)
  | [] => by
      rw [remakeEntries]
      exact .pure _
  | (key,tree) :: rest => by
      rw [remakeEntries]
      exact (remake_along hs tree).bind fun _ => (remakeEntries_along hs rest).bind fun _ => .pure _

theorem remakeProperties_along (hs : s.Builds R) : ∀ properties : List (String × Tree),
    Act.Along R (remakeProperties s properties)
  | [] => by
      rw [remakeProperties]
      exact .pure _
  | (name,tree) :: rest => by
      rw [remakeProperties]
      refine (remake_along hs tree).bind fun _ => ?_
      exact (remakeProperties_along hs rest).bind fun _ => .pure _

end

end Tree

namespace Script.Surroundings.Follow

open Act

variable (hs : s.Follow R)
include hs

omit [IsPreorder World R] in
theorem pulled (shared : Bool) (key : Key) (point : Option Parameter) :
    Along R (pulled s shared key point) := by
  cases shared with
  | true => exact hs.singleton _ _
  | false => exact hs.prototype _ _

theorem element (e : Element) : Along R (e.perform s) := by
  cases e with
  | literal tree => exact tree.remake_along hs.toBuilds
  | pull shared key => exact hs.pulled _ _ _

theorem supply (x : Supply) : Along R (x.perform s) := by
  cases x with
  | literal tree => exact tree.remake_along hs.toBuilds
  | point => exact hs.injectionPoint
  | map elements =>
    exact Along.bind (.mapM fun e _ => (hs.element e.2).bind fun _ => .pure _) fun _ => .pure _
  | pull shared key parameter => exact hs.pulled _ _ _

theorem supplied (xs : List Supply) : Along R (supplied s xs) := .mapM fun x _ => hs.supply x

theorem invoked (unit : String) (made : Value) (method : String) (values : List Value) :
    Along R (invoked s unit made method values) := by
  cases made with
  | object ref => exact hs.invoke ref method values
  | _ => exact .throw _

theorem called (unit : String) (made : Value) (calls : List (String × List Supply)) :
    Along R (called s unit made calls) :=
  .forM fun call _ => (hs.supplied call.2).bind fun _ =>
    (hs.invoked unit made call.1 _).bind fun _ => .pure _

theorem advise (unit : String) (made : Value) (advice : Table String (List String)) :
    Along R (advise s unit made advice) := by
  refine Along.bind (.mapM fun row _ => ?_) fun entries => ?_
  · have hlist : Along R (interceptors s row.2) :=
      Along.bind (.mapM fun _ _ => hs.singleton _ _) fun _ => .pure _
    exact hlist.bind fun _ => .pure _
  · cases made with
    | object ref => exact hs.setProperty ref "bindings" _
    | _ => exact .throw _

end Script.Surroundings.Follow

namespace Resolve

open Act

/-- What a unit asks for keeps all that is kept, if the runs below it do. -/
theorem surroundings_last {run : RunKey} (h : ∀ id key, (run id key).Keeps []) (id : InjectorId) :
    (surroundings run id).Keep [] :=
  surroundings_keep_of (fun id key => resolve_keeps_of (h id key) nofun)
    (fun id key => singleton_keeps_of (h id key) nofun) id

/-- The induction is on the depth to which runs nest. -/
theorem runKey_lasts (depth : Nat) (id : InjectorId) (key : Key) : (runKey depth id key).Keeps [] := by
  induction depth generalizing id key with
  | zero => exact .throw _
  | succ depth ih => exact runWith_keeps_of (surroundings_last ih id) key

end Resolve
end Wiring
