import Mathlib
import Wiring.Proofs.Injector.Comparing

/-!
# Where actions lead

An action follows a relation between worlds if it leads from each world to one that is related
to it, whether it fails or not. Where the relation is reflexive and transitive, an action follows
it if all its parts do. So the methods of objects follow what the injectors that they ask follow,
provided that classes may be looked up and the object may be written to.
-/
namespace Wiring

variable {R : World → World → Prop} [IsPreorder World R] {α β : Type}

namespace Act

/-- Wherever the action starts, it leads along the relation. -/
def Along (R : World → World → Prop) (a : Act α) : Prop := ∀ w, R w (a w).2

namespace Along

theorem pure (a : α) : (Pure.pure a : Act α).Along R := fun w => refl_of R w

theorem throw (f : Failure) : (MonadExcept.throw f : Act α).Along R := fun w => refl_of R w

theorem get : (MonadState.get : Act World).Along R := fun w => refl_of R w

theorem bind {a : Act α} {f : α → Act β} (h : a.Along R) (hf : ∀ x, (f x).Along R) :
    (a >>= f).Along R := by
  intro w
  have hw := h w
  cases ha : a w with
  | mk answer next =>
    rw [ha] at hw
    cases answer with
    | ok x =>
      rw [Work.run_bind ha]
      exact trans_of R hw (hf x next)
    | error e =>
      rw [Work.run_bind_error f ha]
      exact hw

omit [IsPreorder World R] in
theorem attempt {a : Act α} (h : a.Along R) : (Act.attempt a).Along R := h

theorem orThrow (answer : Except Failure α) : (Act.orThrow answer).Along R := by
  cases answer with
  | ok a => exact pure a
  | error f => exact throw f

/-- To follow the relation is to keep being related to wherever one has started. -/
theorem alike {a : Act α} (h : a.Along R) (w : World) : a.Alike (R w) a :=
  .of_keeps fun w' hw => trans_of R hw (h w')

theorem of_alike {a : Act α} (h : ∀ w, a.Alike (R w) a) : a.Along R :=
  fun w => (h w w (refl_of R w)).2

theorem heap : Act.heap.Along R := get.bind fun _ => pure _

theorem injector (id : InjectorId) : (Act.injector id).Along R := by
  refine get.bind fun w => ?_
  cases w.injector? id with
  | some i => exact pure i
  | none => exact throw _

theorem scriptInjector (id : InjectorId) : (Act.scriptInjector id).Along R := by
  refine (injector id).bind fun i => ?_
  cases i with
  | script s => exact pure s
  | direct d => exact throw _

/-- Building a module counts the build and runs the statements. -/
theorem buildModule (m : LazyModule)
    (hcount : ∀ builds : World → Table String Nat,
      (modify fun w => { w with builds := builds w } : Act Unit).Along R)
    (hrun : (onSite (Graph.ofModule m.statements)).Along R) : (Act.buildModule m).Along R := by
  unfold Act.buildModule
  cases m.label with
  | some label => exact (hcount _).bind fun _ => hrun
  | none => exact hrun

theorem mapM {f : α → Act β} {as : List α} (h : ∀ a ∈ as, (f a).Along R) :
    (as.mapM f).Along R := by
  induction as with
  | nil =>
    rw [List.mapM_nil]
    exact pure _
  | cons a rest ih =>
    rw [List.mapM_cons]
    refine (h a List.mem_cons_self).bind fun b => ?_
    exact (ih fun a ha => h a (List.mem_cons_of_mem _ ha)).bind fun bs => pure _

theorem forM {f : α → Act PUnit} {as : List α} (h : ∀ a ∈ as, (f a).Along R) :
    (ForM.forM as f).Along R := by
  induction as with
  | nil =>
    rw [List.forM_nil]
    exact pure _
  | cons a rest ih =>
    rw [List.forM_cons]
    exact (h a List.mem_cons_self).bind fun _ => ih fun a ha => h a (List.mem_cons_of_mem _ ha)

end Along
end Act

namespace Objects

open Act

/-- What goes on in methods follows the relation: classes are looked up, values are made and
injectors are asked. -/
structure Follow (R : World → World → Prop) (ask : Ask) : Prop where
  find : ∀ className, (onSite (Classes.find className)).Along R
  body : ∀ c method, (onSite (Classes.body? c method)).Along R
  setter : ∀ c method, (onSite (Classes.setter? c method)).Along R
  build : ∀ tree, (onSite (Work.build none tree)).Along R
  newObject : ∀ className properties, (newObject className properties).Along R
  ask : ∀ id key, (ask id key).Along R

variable {ask : Ask}

theorem Follow.alike (h : Follow R ask) (w : World) : Match (R w) ask ask where
  find className := (h.find className).alike w
  body c method := (h.body c method).alike w
  setter c method := (h.setter c method).alike w
  build tree := (h.build tree).alike w
  newObject className properties := (h.newObject className properties).alike w
  ask id key := (h.ask id key).alike w

variable {self : ObjectRef} (arguments : List Value)

theorem runBody_along (h : Follow R ask)
    (hset : ∀ name value, (setProperty self name value).Along R) (body : Body) :
    (runBody ask self arguments body).Along R :=
  .of_alike fun w =>
    runBody_alike arguments (h.alike w) (fun name value => (hset name value).alike w) body

theorem invoke_along (h : Follow R ask)
    (hset : ∀ name value, (setProperty self name value).Along R) (method : String) :
    (invoke ask self method arguments).Along R :=
  .of_alike fun w =>
    invoke_alike arguments (h.alike w) (fun name value => (hset name value).alike w) method

end Objects

namespace Resolve

open Act

theorem withPoint_along (id : InjectorId)
    (hpoint : ∀ point, (modifyInjector id (·.setPoint point)).Along R) (point : Option Parameter)
    {a : Act α} (h : a.Along R) : (withPoint id point a).Along R :=
  .of_alike fun w => withPoint_alike id (fun point => (hpoint point).alike w) point (h.alike w)

/-- The graph of an injector is at hand, or it is built or read, and kept then. -/
theorem graphOf_along (id : InjectorId) (hbuild : ∀ m, (buildModule m).Along R)
    (hread : ∀ dir, (onSite (Save.graph? dir)).Along R)
    (hkeep : ∀ g, (modifyScript id fun s => { s with graph := some g }).Along R) :
    (graphOf id).Along R := by
  have hdone (g : Graph) : (do modifyScript id fun s => { s with graph := some g }
                               return g : Act Graph).Along R :=
    (hkeep g).bind fun _ => .pure g
  refine (Along.scriptInjector id).bind fun s => ?_
  cases s.graph with
  | some g => exact .pure g
  | none =>
    dsimp only
    cases s.source with
    | some m => exact (hbuild m).bind hdone
    | none => exact (hread s.dir).bind fun _ => (Along.pure _).bind hdone

end Resolve
end Wiring
