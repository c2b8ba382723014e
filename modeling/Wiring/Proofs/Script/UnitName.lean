import Mathlib
import Wiring.Script.Run

/-!
# Runs under different names

A unit has a name only for the faults that it reports itself. What a run asks of its
surroundings, what it answers and whether it fails does not depend on the name.
-/
namespace Wiring.Script

variable {m : Type → Type} [Monad m] {α β : Type}

/-- A failure once the name of the unit is known: one of the surroundings is told as it
is, one of the unit itself under its name. -/
def told (unit : String) : Failure ⊕ UnitFault → Failure := Sum.elim id (fault unit)

/-- Only the faults of a run are told under the name of its unit. -/
def NameBlind (run : String → ExceptT Failure m α) : Prop :=
  ∃ outcome : ExceptT (Failure ⊕ UnitFault) m α, ∀ unit, run unit = outcome.adapt (told unit)

theorem run_adapt {ε δ : Type} (g : ε → δ) (x : ExceptT ε m α) :
    (x.adapt g).run = Except.mapError g <$> x.run := rfl

section Lawful

variable [LawfulMonad m]

theorem adapt_bind {ε δ : Type} (g : ε → δ) (x : ExceptT ε m α) (k : α → ExceptT ε m β) :
    (x >>= k).adapt g = x.adapt g >>= fun a => (k a).adapt g := by
  apply ExceptT.ext
  simp only [run_adapt,ExceptT.run_bind,map_bind,bind_map_left]
  congr 1
  funext answer
  cases answer with
  | ok a => rfl
  | error e => simp [Except.mapError]

namespace NameBlind

theorem pure (a : α) : NameBlind fun _ => (Pure.pure a : ExceptT Failure m α) := by
  refine ⟨Pure.pure a,fun unit => ?_⟩
  apply ExceptT.ext
  simp [Except.mapError]

theorem fault (f : UnitFault) :
    NameBlind fun unit => (throw (Script.fault unit f) : ExceptT Failure m α) := by
  refine ⟨throw (.inr f),fun unit => ?_⟩
  apply ExceptT.ext
  simp [Except.mapError,told]

theorem const (x : ExceptT Failure m α) : NameBlind fun _ => x := by
  refine ⟨x.adapt Sum.inl,fun unit => ?_⟩
  have hid : (fun answer : Except Failure α =>
      (answer.mapError Sum.inl).mapError (told unit)) = id := by
    funext answer
    cases answer <;> rfl
  apply ExceptT.ext
  simp only [run_adapt,Functor.map_map,hid,id_map]

theorem bind {x : String → ExceptT Failure m α} {k : String → α → ExceptT Failure m β}
    (hx : NameBlind x) (hk : ∀ a, NameBlind fun unit => k unit a) :
    NameBlind fun unit => x unit >>= k unit := by
  obtain ⟨outcome,hx⟩ := hx
  choose next hk using hk
  refine ⟨outcome >>= next,fun unit => ?_⟩
  show x unit >>= k unit = _
  rw [adapt_bind,hx unit]
  congr 1
  funext a
  exact hk a unit

end NameBlind

/-- The same of a run that has variables. -/
def Blind (run : String → Run m α) : Prop := ∀ l, NameBlind fun unit => run unit l

namespace Blind

theorem pure (a : α) : Blind fun _ => (Pure.pure a : Run m α) := fun l => NameBlind.pure (a,l)

theorem get : Blind fun _ => (MonadState.get : Run m Locals) := fun l => NameBlind.pure (l,l)

theorem modify (f : Locals → Locals) :
    Blind fun _ => (modifyGet fun l => ((),f l) : Run m Unit) :=
  fun l => NameBlind.pure ((),f l)

theorem bind {x : String → Run m α} {k : String → α → Run m β} (hx : Blind x)
    (hk : ∀ a, Blind fun unit => k unit a) : Blind fun unit => x unit >>= k unit :=
  fun l => (hx l).bind fun answer => hk answer.1 answer.2

theorem lift {x : String → ExceptT Failure m α} (hx : NameBlind x) :
    Blind fun unit => (StateT.lift (x unit) : Run m α) :=
  fun l => hx.bind fun a => NameBlind.pure (a,l)

theorem fault (f : UnitFault) : Blind fun unit => (throw (Script.fault unit f) : Run m α) :=
  lift (NameBlind.fault f)

end Blind

variable (s : Surroundings m)

theorem textArgument_blind (function : String) (arguments : List Value) (index : Nat) :
    NameBlind fun unit => (orFail (textArgument unit function arguments index) :
      ExceptT Failure m String) := by
  unfold textArgument
  split
  · exact .pure _
  · exact .fault _

theorem pointArgument_blind (function : String) (arguments : List Value) :
    NameBlind fun unit => (orFail (pointArgument unit function arguments) :
      ExceptT Failure m (Option Parameter)) := by
  unfold pointArgument
  split
  · exact .pure _
  · dsimp only
    split
    · exact .pure _
    · exact .fault _

theorem callFunction_blind (name : String) (arguments : List Value) :
    NameBlind fun unit => callFunction s unit name arguments := by
  unfold callFunction
  split
  · exact (textArgument_blind _ _ _).bind fun key => (pointArgument_blind _ _).bind fun point =>
      .const _
  · exact (textArgument_blind _ _ _).bind fun key => (pointArgument_blind _ _).bind fun point =>
      .const _
  · exact .const _
  · exact .const _
  · exact (textArgument_blind _ _ _).bind fun className => .const _
  · refine (textArgument_blind _ _ _).bind fun typeName => (textArgument_blind _ _ _).bind
      fun encoded => ?_
    split
    · exact .const _
    · exact .fault _
  · exact .fault _

mutual

theorem eval_blind : ∀ e : Expr, Blind fun unit => eval s unit e
  | .var name => by
    simp only [eval]
    refine Blind.get.bind fun l => ?_
    split
    · exact .pure _
    · exact .fault _
  | .assign name value => by
    simp only [eval]
    exact (eval_blind value).bind fun v => (Blind.modify _).bind fun _ => .pure v
  | .prop receiver name => by
    simp only [eval]
    refine (eval_blind receiver).bind fun target => ?_
    split
    · exact (Blind.lift (.const _)).bind fun value => .pure _
    · exact .fault _
  | .setProp receiver name value => by
    simp only [eval]
    refine (eval_blind receiver).bind fun target => (eval_blind value).bind fun v => ?_
    split
    · exact (Blind.lift (.const _)).bind fun _ => .pure v
    · exact .fault _
  | .call (.var name) arguments => by
    simp only [eval]
    exact (evalAll_blind arguments).bind fun values => .lift (callFunction_blind s name values)
  | .call (.prop receiver method) arguments => by
    simp only [eval]
    refine (eval_blind receiver).bind fun target => (evalAll_blind arguments).bind fun values => ?_
    split
    · exact .lift (.const _)
    · exact .fault _
  | .call (.keyed _) _ | .call (.assign _ _) _ | .call (.setProp _ _ _) _ | .call (.call _ _) _
  | .call (.new _ _) _ | .call (.literal _) _ | .call (.list _) _ | .call (.classRef _) _
  | .call (.tuple _) _ => by
    simp only [eval]
    exact .fault _
  | .new (.classRef className) arguments => by
    simp only [eval]
    exact (evalAll_blind arguments).bind fun values => .lift (.const _)
  | .new (.keyed _) _ | .new (.assign _ _) _ | .new (.setProp _ _ _) _ | .new (.call _ _) _
  | .new (.new _ _) _ | .new (.literal _) _ | .new (.list _) _ | .new (.var _) _
  | .new (.prop _ _) _ | .new (.tuple _) _ => by
    simp only [eval]
    exact .fault _
  | .literal value => by
    simp only [eval]
    exact .pure _
  | .list items => by
    simp only [eval]
    exact (evalAll_blind items).bind fun values => .pure _
  | .keyed entries => by
    simp only [eval]
    exact (evalEntries_blind entries).bind fun rows => .pure _
  | .classRef name => by
    simp only [eval]
    exact .pure _
  | .tuple parts => by
    simp only [eval]
    exact (evalAll_blind parts).bind fun values => .pure _

theorem evalAll_blind : ∀ es : List Expr, Blind fun unit => evalAll s unit es
  | [] => by
    simp only [evalAll]
    exact .pure _
  | e :: es => by
    simp only [evalAll]
    exact (eval_blind e).bind fun value => (evalAll_blind es).bind fun values => .pure _

theorem evalEntries_blind : ∀ es : List (ArrayKey × Expr), Blind fun unit => evalEntries s unit es
  | [] => by
    simp only [evalEntries]
    exact .pure _
  | (key,e) :: es => by
    simp only [evalEntries]
    exact (eval_blind e).bind fun value => (evalEntries_blind es).bind fun rows => .pure _

end

theorem step_blind (statement : Statement) : Blind fun unit => step s unit statement := by
  unfold step
  split
  · exact .pure _
  · exact (eval_blind s _).bind fun _ => .pure _
  · refine (eval_blind s _).bind fun value => (eval_blind s _).bind fun flag => ?_
    split
    · exact .pure _
    · exact .fault _
  · exact .fault _

theorem steps_blind (statements : List Statement) : Blind fun unit => steps s unit statements := by
  induction statements with
  | nil => exact .fault _
  | cons statement rest ih =>
    simp only [steps]
    refine (step_blind s statement).bind fun result => ?_
    split
    · exact .pure _
    · exact ih

theorem runUnit_blind (statements : List Statement) :
    NameBlind fun unit => runUnit s unit statements :=
  NameBlind.bind (steps_blind s statements []) fun answer => .pure answer.1

end Lawful
end Wiring.Script
