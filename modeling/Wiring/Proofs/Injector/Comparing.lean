import Mathlib
import Wiring.Injector.Resolve
import Wiring.Proofs.Site

/-!
# Actions that do the same

Two actions are alike under an invariant if they do the same wherever it holds, and it holds
afterwards, whether they fail or not. What is made of actions that are alike is alike again: the
methods of objects if the injectors they ask are, and the run of a unit if what its surroundings do
is. An action that is like itself only keeps the invariant.
-/
namespace Wiring

variable {I : World → Prop} {α β : Type}

namespace Act

/-- Where the invariant holds, the actions do the same, and it holds afterwards. -/
def Alike (I : World → Prop) (a b : Act α) : Prop := ∀ w, I w → a w = b w ∧ I (a w).2

namespace Alike

theorem of_keeps {a : Act α} (h : ∀ w, I w → I (a w).2) : a.Alike I a :=
  fun w hw => ⟨rfl,h w hw⟩

theorem pure (x : α) : (Pure.pure x : Act α).Alike I (Pure.pure x) := .of_keeps fun _ hw => hw

theorem throw (f : Failure) :
    (MonadExcept.throw f : Act α).Alike I (MonadExcept.throw f) := .of_keeps fun _ hw => hw

theorem get : (MonadState.get : Act World).Alike I MonadState.get := .of_keeps fun _ hw => hw

theorem bind {a b : Act α} {f g : α → Act β} (h : a.Alike I b)
    (hfg : ∀ x, (f x).Alike I (g x)) : (a >>= f).Alike I (b >>= g) := by
  intro w hw
  obtain ⟨hsame,hnext⟩ := h w hw
  cases ha : a w with
  | mk answer next =>
    rw [ha] at hsame hnext
    cases answer with
    | ok x =>
      rw [Work.run_bind ha,Work.run_bind hsame.symm]
      exact hfg x next hnext
    | error e =>
      rw [Work.run_bind_error f ha,Work.run_bind_error g hsame.symm]
      exact ⟨rfl,hnext⟩

/-- The actions begin with what has the same outcome, from whichever worlds it has come. -/
theorem bind_from {a b : Act α} {f g : α → Act β} {w w' : World} (h : a w = b w')
    (hnext : I (b w').2) (hfg : ∀ x, (f x).Alike I (g x)) : (a >>= f) w = (b >>= g) w' := by
  cases hb : b w' with
  | mk answer next =>
    rw [hb] at h hnext
    cases answer with
    | ok x =>
      rw [Work.run_bind h,Work.run_bind hb]
      exact (hfg x next hnext).1
    | error e => rw [Work.run_bind_error f h,Work.run_bind_error g hb]

/-- The invariant holds after the second action too. -/
theorem next {a b : Act α} (h : a.Alike I b) {w : World} (hw : I w) : I (b w).2 :=
  (h w hw).1 ▸ (h w hw).2

theorem attempt {a b : Act α} (h : a.Alike I b) : (Act.attempt a).Alike I (Act.attempt b) := by
  intro w hw
  obtain ⟨hsame,hnext⟩ := h w hw
  refine ⟨?_,hnext⟩
  show (Except.ok (a w).1,(a w).2) = (Except.ok (b w).1,(b w).2)
  rw [hsame]

theorem orThrow (answer : Except Failure α) :
    (Act.orThrow answer).Alike I (Act.orThrow answer) := .of_keeps fun w hw => by
  cases answer with
  | ok x => exact hw
  | error f => exact hw

theorem heap : Act.heap.Alike I Act.heap := get.bind fun _ => pure _

theorem injector (id : InjectorId) : (Act.injector id).Alike I (Act.injector id) := by
  refine get.bind fun w => ?_
  cases w.injector? id with
  | some i => exact pure i
  | none => exact throw _

end Alike
end Act

namespace Objects

open Act

/-- Methods that look up classes, make values and ask injectors keep the invariant, and two ways to
ask are alike. -/
structure Match (I : World → Prop) (ask ask' : Ask) : Prop where
  find : ∀ className, (onSite (Classes.find className)).Alike I (onSite (Classes.find className))
  body : ∀ c method, (onSite (Classes.body? c method)).Alike I (onSite (Classes.body? c method))
  setter : ∀ c method,
    (onSite (Classes.setter? c method)).Alike I (onSite (Classes.setter? c method))
  build : ∀ tree, (onSite (Work.build none tree)).Alike I (onSite (Work.build none tree))
  newObject : ∀ className properties,
    (newObject className properties).Alike I (newObject className properties)
  ask : ∀ id key, (ask id key).Alike I (ask' id key)

variable {ask ask' : Ask}

theorem pointPart_alike (value : Value) (part : PointPart) :
    (pointPart value part).Alike I (pointPart value part) := by
  refine Alike.heap.bind fun heap => ?_
  dsimp only
  split
  · exact .pure _
  · exact .throw _

theorem askHandle_alike (h : Match I ask ask') (value : Value) (key : Key) :
    (askHandle ask value key).Alike I (askHandle ask' value key) := by
  unfold askHandle
  split
  · refine Alike.get.bind fun w => ?_
    split
    · exact h.ask _ _
    · exact .throw _
  · exact .throw _
  · exact .throw _

section Terms

variable (self : ObjectRef) (arguments : List Value)

mutual

theorem evalTerm_alike (h : Match I ask ask') : ∀ t : Term,
    (evalTerm ask self arguments t).Alike I (evalTerm ask' self arguments t)
  | .fresh tree => by
      simp only [evalTerm]
      exact h.build tree
  | .argument index => by
      simp only [evalTerm]
      exact .pure _
  | .property name => by
      simp only [evalTerm]
      exact (Alike.heap.bind fun _ => .pure _).bind fun _ => .pure _
  | .self => by
      simp only [evalTerm]
      exact .pure _
  | .list items => by
      simp only [evalTerm]
      exact (evalTerms_alike h items).bind fun _ => .pure _
  | .object className properties => by
      simp only [evalTerm]
      exact (evalRows_alike h properties).bind fun _ => (h.newObject _ _).bind fun _ => .pure _
  | .point term part => by
      simp only [evalTerm]
      exact (evalTerm_alike h term).bind fun _ => pointPart_alike _ _
  | .ask term interface name => by
      simp only [evalTerm]
      exact (evalTerm_alike h term).bind fun _ => askHandle_alike h _ _

theorem evalTerms_alike (h : Match I ask ask') : ∀ ts : List Term,
    (evalTerms ask self arguments ts).Alike I (evalTerms ask' self arguments ts)
  | [] => by
      simp only [evalTerms]
      exact .pure _
  | term :: rest => by
      simp only [evalTerms]
      exact (evalTerm_alike h term).bind fun _ => (evalTerms_alike h rest).bind fun _ => .pure _

theorem evalRows_alike (h : Match I ask ask') : ∀ rows : List (String × Term),
    (evalRows ask self arguments rows).Alike I (evalRows ask' self arguments rows)
  | [] => by
      simp only [evalRows]
      exact .pure _
  | (name,term) :: rest => by
      simp only [evalRows]
      exact (evalTerm_alike h term).bind fun _ => (evalRows_alike h rest).bind fun _ => .pure _

end

end Terms

section Methods

variable {self : ObjectRef} (arguments : List Value)

theorem runBody_alike (h : Match I ask ask')
    (hset : ∀ name value, (setProperty self name value).Alike I (setProperty self name value))
    (body : Body) :
    (runBody ask self arguments body).Alike I (runBody ask' self arguments body) := by
  induction body with
  | nil => exact .pure _
  | cons command rest ih =>
    cases command with
    | set name term =>
      simp only [runBody]
      exact (evalTerm_alike self arguments h term).bind fun _ => (hset _ _).bind fun _ => ih
    | yield term =>
      simp only [runBody]
      exact evalTerm_alike self arguments h term
    | fail message =>
      simp only [runBody]
      exact .throw _

theorem assign_alike
    (hset : ∀ name value, (setProperty self name value).Alike I (setProperty self name value))
    (ps : List ParameterDecl) (values : List Value) :
    (assign self ps values).Alike I (assign self ps values) := by
  induction ps generalizing values with
  | nil => exact .pure _
  | cons p ps ih =>
    cases values with
    | nil => exact .pure _
    | cons value values => exact (hset _ _).bind fun _ => ih values

theorem invoke_alike (h : Match I ask ask')
    (hset : ∀ name value, (setProperty self name value).Alike I (setProperty self name value))
    (method : String) :
    (invoke ask self method arguments).Alike I (invoke ask' self method arguments) := by
  refine (h.find _).bind fun c => (h.body c method).bind fun body => ?_
  cases body with
  | some body => exact runBody_alike arguments h hset body
  | none =>
    refine (h.setter c method).bind fun setter => ?_
    cases setter with
    | some setter => exact (assign_alike hset _ _).bind fun _ => .pure _
    | none =>
      dsimp only
      split
      · exact .pure _
      · exact .throw _

theorem construct_alike (h : Match I ask ask')
    (hset : ∀ self name value, (setProperty self name value).Alike I (setProperty self name value))
    (className : String) :
    (construct ask className arguments).Alike I (construct ask' className arguments) := by
  refine (h.find _).bind fun c => ?_
  split
  · refine (h.newObject _ _).bind fun ref => (h.body c _).bind fun body => ?_
    cases body with
    | some body => exact (runBody_alike arguments h (hset ref) body).bind fun _ => .pure _
    | none => exact .pure _
  · exact .throw _

end Methods
end Objects

namespace Script

/-- The same of runs that have variables. -/
def Run.Alike (I : World → Prop) (r r' : Run (StateM World) α) : Prop :=
  ∀ l : Locals, Act.Alike I (r l) (r' l)

namespace Run.Alike

theorem pure (x : α) : (Pure.pure x : Run (StateM World) α).Alike I (Pure.pure x) :=
  fun l => Act.Alike.pure (x,l)

theorem get : (MonadState.get : Run (StateM World) Locals).Alike I MonadState.get :=
  fun l => Act.Alike.pure (l,l)

theorem modify (f : Locals → Locals) :
    (modifyGet fun l => ((),f l) : Run (StateM World) Unit).Alike I
      (modifyGet fun l => ((),f l)) :=
  fun l => Act.Alike.pure ((),f l)

theorem lift {a b : Act α} (h : a.Alike I b) :
    Run.Alike I (StateT.lift a) (StateT.lift b) :=
  fun l => h.bind fun x => .pure (x,l)

theorem throw (f : Failure) :
    (MonadExcept.throw f : Run (StateM World) α).Alike I (MonadExcept.throw f) :=
  lift (Act.Alike.throw f)

theorem bind {r r' : Run (StateM World) α} {f g : α → Run (StateM World) β}
    (h : r.Alike I r') (hfg : ∀ x, (f x).Alike I (g x)) : (r >>= f).Alike I (r' >>= g) :=
  fun l => Act.Alike.bind (h l) fun answer => hfg answer.1 answer.2

end Run.Alike

/-- Whatever a unit asks for, both surroundings do the same. -/
structure Surroundings.Alike (I : World → Prop) (s s' : Surroundings (StateM World)) : Prop where
  prototype : ∀ key point, Act.Alike I (s.prototype key point) (s'.prototype key point)
  singleton : ∀ key point, Act.Alike I (s.singleton key point) (s'.singleton key point)
  injectionPoint : Act.Alike I s.injectionPoint s'.injectionPoint
  injector : Act.Alike I s.injector s'.injector
  construct : ∀ className arguments,
    Act.Alike I (s.construct className arguments) (s'.construct className arguments)
  invoke : ∀ self method arguments,
    Act.Alike I (s.invoke self method arguments) (s'.invoke self method arguments)
  property : ∀ self name, Act.Alike I (s.property self name) (s'.property self name)
  setProperty : ∀ self name value,
    Act.Alike I (s.setProperty self name value) (s'.setProperty self name value)
  restore : ∀ className properties,
    Act.Alike I (s.restore className properties) (s'.restore className properties)
  decode : ∀ typeName bytes, Act.Alike I (s.decode typeName bytes) (s'.decode typeName bytes)

variable {s s' : Surroundings (StateM World)} (unit : String)

theorem orFail_alike (answer : Except Failure α) :
    Act.Alike I (orFail answer) (orFail answer) := .of_keeps fun _ hw => hw

theorem callFunction_alike (hs : s.Alike I s') (name : String) (arguments : List Value) :
    Act.Alike I (callFunction s unit name arguments) (callFunction s' unit name arguments) := by
  unfold callFunction
  split
  · exact (orFail_alike _).bind fun _ => (orFail_alike _).bind fun _ => hs.prototype _ _
  · exact (orFail_alike _).bind fun _ => (orFail_alike _).bind fun _ => hs.singleton _ _
  · exact hs.injectionPoint
  · exact hs.injector
  · exact (orFail_alike _).bind fun _ => hs.restore _ _
  · refine (orFail_alike _).bind fun _ => (orFail_alike _).bind fun encoded => ?_
    split
    · exact hs.decode _ _
    · exact .throw _
  · exact .throw _

mutual

theorem eval_alike (hs : s.Alike I s') : ∀ e : Expr, (eval s unit e).Alike I (eval s' unit e)
  | .var name => by
    simp only [eval]
    refine Run.Alike.get.bind fun l => ?_
    split
    · exact .pure _
    · exact .throw _
  | .assign name value => by
    simp only [eval]
    exact (eval_alike hs value).bind fun v => (Run.Alike.modify _).bind fun _ => .pure v
  | .prop receiver name => by
    simp only [eval]
    refine (eval_alike hs receiver).bind fun target => ?_
    split
    · exact (Run.Alike.lift (hs.property _ _)).bind fun value => .pure _
    · exact .throw _
  | .setProp receiver name value => by
    simp only [eval]
    refine (eval_alike hs receiver).bind fun target => (eval_alike hs value).bind fun v => ?_
    split
    · exact (Run.Alike.lift (hs.setProperty _ _ _)).bind fun _ => .pure v
    · exact .throw _
  | .call (.var name) arguments => by
    simp only [eval]
    exact (evalAll_alike hs arguments).bind fun values =>
      .lift (callFunction_alike unit hs name values)
  | .call (.prop receiver method) arguments => by
    simp only [eval]
    refine (eval_alike hs receiver).bind fun target =>
      (evalAll_alike hs arguments).bind fun values => ?_
    split
    · exact .lift (hs.invoke _ _ _)
    · exact .throw _
  | .call (.keyed _) _ | .call (.assign _ _) _ | .call (.setProp _ _ _) _ | .call (.call _ _) _
  | .call (.new _ _) _ | .call (.literal _) _ | .call (.list _) _ | .call (.classRef _) _
  | .call (.tuple _) _ => by
    simp only [eval]
    exact .throw _
  | .new (.classRef className) arguments => by
    simp only [eval]
    exact (evalAll_alike hs arguments).bind fun values => .lift (hs.construct _ _)
  | .new (.keyed _) _ | .new (.assign _ _) _ | .new (.setProp _ _ _) _ | .new (.call _ _) _
  | .new (.new _ _) _ | .new (.literal _) _ | .new (.list _) _ | .new (.var _) _
  | .new (.prop _ _) _ | .new (.tuple _) _ => by
    simp only [eval]
    exact .throw _
  | .literal value => by
    simp only [eval]
    exact .pure _
  | .list items => by
    simp only [eval]
    exact (evalAll_alike hs items).bind fun values => .pure _
  | .keyed entries => by
    simp only [eval]
    exact (evalEntries_alike hs entries).bind fun rows => .pure _
  | .classRef name => by
    simp only [eval]
    exact .pure _
  | .tuple parts => by
    simp only [eval]
    exact (evalAll_alike hs parts).bind fun values => .pure _

theorem evalAll_alike (hs : s.Alike I s') : ∀ es : List Expr,
    (evalAll s unit es).Alike I (evalAll s' unit es)
  | [] => by
    simp only [evalAll]
    exact .pure _
  | e :: es => by
    simp only [evalAll]
    exact (eval_alike hs e).bind fun value => (evalAll_alike hs es).bind fun values => .pure _

theorem evalEntries_alike (hs : s.Alike I s') : ∀ es : List (ArrayKey × Expr),
    (evalEntries s unit es).Alike I (evalEntries s' unit es)
  | [] => by
    simp only [evalEntries]
    exact .pure _
  | (key,e) :: es => by
    simp only [evalEntries]
    exact (eval_alike hs e).bind fun value => (evalEntries_alike hs es).bind fun rows => .pure _

end

theorem step_alike (hs : s.Alike I s') (statement : Statement) :
    (step s unit statement).Alike I (step s' unit statement) := by
  unfold step
  split
  · exact .pure _
  · exact (eval_alike unit hs _).bind fun _ => .pure _
  · refine (eval_alike unit hs _).bind fun value => (eval_alike unit hs _).bind fun flag => ?_
    split
    · exact .pure _
    · exact .throw _
  · exact .throw _

theorem steps_alike (hs : s.Alike I s') (statements : List Statement) :
    (steps s unit statements).Alike I (steps s' unit statements) := by
  induction statements with
  | nil => exact .throw _
  | cons statement rest ih =>
    simp only [steps]
    refine (step_alike unit hs statement).bind fun result => ?_
    split
    · exact .pure _
    · exact ih

/-- A unit does the same in surroundings that do. -/
theorem runUnit_alike (hs : s.Alike I s') (statements : List Statement) :
    Act.Alike I (runUnit s unit statements) (runUnit s' unit statements) :=
  Act.Alike.bind (steps_alike unit hs statements []) fun answer => .pure answer.1

end Script

namespace Resolve

open Act

theorem withPoint_alike (id : InjectorId)
    (hpoint : ∀ point, (modifyInjector id (·.setPoint point)).Alike I
      (modifyInjector id (·.setPoint point))) (point : Option Parameter) {a b : Act α}
    (h : a.Alike I b) : (withPoint id point a).Alike I (withPoint id point b) := by
  refine (Alike.injector id).bind fun i => (hpoint _).bind fun _ => ?_
  exact h.attempt.bind fun answer => (hpoint _).bind fun _ => .orThrow answer

end Resolve
end Wiring
