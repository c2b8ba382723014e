import Wiring.Failure
import Wiring.Script.Syntax
import Wiring.Text.Base64
import Wiring.Value.Basic

/-!
# Running script units

A unit asks its surroundings for everything that is not a computation on scalars and
arrays: pulls of other keys, the point it is supplied at, the injector, objects and their
properties. The surroundings are a record of actions in a monad of their own, so what a
unit does is the same sequence of asks whatever answers them. Variables live as long as
one run.
-/
namespace Wiring.Script

/-- What a running unit may ask for. -/
structure Surroundings (m : Type → Type) where
  /-- A fresh instance, unless the unit of the key declares it shared. -/
  prototype : Key → Option Parameter → ExceptT Failure m Value
  /-- The shared instance. -/
  singleton : Key → Option Parameter → ExceptT Failure m Value
  /-- The parameter that is being supplied. -/
  injectionPoint : ExceptT Failure m Value
  /-- The injector that runs the unit. -/
  injector : ExceptT Failure m Value
  construct : String → List Value → ExceptT Failure m Value
  invoke : ObjectRef → String → List Value → ExceptT Failure m Value
  property : ObjectRef → String → ExceptT Failure m (Option Value)
  setProperty : ObjectRef → String → Value → ExceptT Failure m Unit
  /-- An object with these properties, made without its class. -/
  restore : String → Table String Value → ExceptT Failure m Value
  /-- A native made from its bytes. -/
  decode : String → List UInt8 → ExceptT Failure m Value

/-- The variables of one run. -/
abbrev Locals := Table String Value

variable {m : Type → Type} [Monad m]

/-- A run of a unit in surroundings that act in the monad. -/
abbrev Run (m : Type → Type) := StateT Locals (ExceptT Failure m)

/-- A fault of the named unit. -/
def fault (unit : String) (f : UnitFault) : Failure := .running (.inUnit unit f)

def Literal.value : Literal → Value
  | null => .null
  | bool b => .bool b
  | int i => .int i
  | float x => .float x
  | text s => .text s

/-- The text given for an argument of a function, counted from zero. -/
def textArgument (unit function : String) (arguments : List Value) (index : Nat) :
    Except Failure String :=
  match arguments[index]? with
  | some (.text s) => .ok s
  | _ => .error (fault unit (.textArgumentExpected function (index + 1)))

/-- The class, method and parameter given as the second argument of a pull, if any is. -/
def pointArgument (unit function : String) (arguments : List Value) :
    Except Failure (Option Parameter) :=
  match arguments[1]? with
  | none => .ok none
  | some value =>
      let texts := (value.asArray?.map Keyed.values).getD []
      match texts.filterMap Value.asText? with
      | [className, method, name] => .ok (some ⟨className, method, name⟩)
      | _ => .error (fault unit (.pointExpected function))

/-- The entries of an array as properties, keys as their texts. -/
def propertiesOf (value : Option Value) : Table String Value :=
  match value with
  | some (.array items) => Table.ofRows (items.entries.map fun e => (e.1.label, e.2))
  | _ => []

/-- Either an answer or a failure, as an action. -/
def orFail {α : Type} (answer : Except Failure α) : ExceptT Failure m α := ExceptT.mk (pure answer)

/-- The functions a unit can call. -/
def callFunction (s : Surroundings m) (unit name : String) (arguments : List Value) :
    ExceptT Failure m Value := do
  match name with
  | "prototype" =>
      let key ← orFail (textArgument unit name arguments 0)
      let point ← orFail (pointArgument unit name arguments)
      s.prototype ⟨key⟩ point
  | "singleton" =>
      let key ← orFail (textArgument unit name arguments 0)
      let point ← orFail (pointArgument unit name arguments)
      s.singleton ⟨key⟩ point
  | "injection_point" => s.injectionPoint
  | "injector" => s.injector
  | "restore" =>
      let className ← orFail (textArgument unit name arguments 0)
      s.restore className (propertiesOf arguments[1]?)
  | "unserialize" =>
      let typeName ← orFail (textArgument unit name arguments 0)
      let encoded ← orFail (textArgument unit name arguments 1)
      match Base64.decode? encoded with
      | some bytes => s.decode typeName bytes
      | none => throw (fault unit (.badSnapshot typeName))
  | name => throw (fault unit (.undefinedFunction name))

mutual

/-- The value of an expression; parts are worked out from left to right. -/
def eval (s : Surroundings m) (unit : String) : Expr → Run m Value
  | .var name => do
      match (← get).find? name with
      | some value => return value
      | none => throw (fault unit (.undefinedVariable name))
  | .assign name e => do
      let value ← eval s unit e
      modify (·.put name value)
      return value
  | .prop receiver name => do
      match ← eval s unit receiver with
      | .object ref => return (← s.property ref name).getD .null
      | other => throw (fault unit (.readOfNonObject name other.typeName))
  | .setProp receiver name e => do
      let target ← eval s unit receiver
      let value ← eval s unit e
      match target with
      | .object ref =>
          s.setProperty ref name value
          return value
      | other => throw (fault unit (.writeToNonObject name other.typeName))
  | .call (.var name) arguments => do
      let values ← evalAll s unit arguments
      callFunction s unit name values
  | .call (.prop receiver method) arguments => do
      let target ← eval s unit receiver
      let values ← evalAll s unit arguments
      match target with
      | .object ref => s.invoke ref method values
      | other => throw (fault unit (.callOnNonObject method other.typeName))
  | .call _ _ => throw (fault unit .notCallable)
  | .new (.classRef className) arguments => do
      let values ← evalAll s unit arguments
      s.construct className values
  | .new _ _ => throw (fault unit .classNameExpected)
  | .literal value => return value.value
  | .list items => return .list (← evalAll s unit items)
  | .keyed entries => return .array (.ofEntries (← evalEntries s unit entries))
  | .classRef name => return .text name
  | .tuple parts => return .list (← evalAll s unit parts)

def evalAll (s : Surroundings m) (unit : String) : List Expr → Run m (List Value)
  | [] => return []
  | e :: rest => do
      let value ← eval s unit e
      let values ← evalAll s unit rest
      return value :: values

def evalEntries (s : Surroundings m) (unit : String) :
    List (ArrayKey × Expr) → Run m (List (ArrayKey × Value))
  | [] => return []
  | (key, e) :: rest => do
      let value ← eval s unit e
      let values ← evalEntries s unit rest
      return (key, value) :: values

end

/-- What a statement returns: nothing, or the instance and whether it is shared. -/
def step (s : Surroundings m) (unit : String) : Statement → Run m (Option (Value × Bool))
  | .namespaced _ => return none
  | .expr e => do
      let _ ← eval s unit e
      return none
  | .yield (.tuple [instance_, shared]) => do
      let value ← eval s unit instance_
      match ← eval s unit shared with
      | .bool b => return some (value, b)
      | other => throw (fault unit (.badScopeFlag other.typeName))
  | .yield _ => throw (fault unit .pairExpected)

/-- The statements up to the first that returns. -/
def steps (s : Surroundings m) (unit : String) : List Statement → Run m (Value × Bool)
  | [] => throw (fault unit .noReturn)
  | statement :: rest => do
      match ← step s unit statement with
      | some result => return result
      | none => steps s unit rest

/-- The instance a unit makes and whether it is shared. -/
def runUnit (s : Surroundings m) (unit : String) (statements : List Statement) :
    ExceptT Failure m (Value × Bool) :=
  (steps s unit statements).run' []

/-- The value of a lone expression. -/
def evaluate (s : Surroundings m) (e : Expr) : ExceptT Failure m Value :=
  (eval s "<expression>" e).run' []

end Wiring.Script
