import Wiring.Compile.Batch
import Wiring.Compile.Demand
import Wiring.Injector.Objects
import Wiring.Script.Parser
import Wiring.Script.Run

/-!
# Resolving keys

A request gives the shared instance of its key if there is one; otherwise the unit of the
key runs, and its instance is kept if the unit says that it is shared. A singleton pull
keeps the instance whatever the unit says. The unit of a script injector is read from its
directory, and compiled first if it is not there; a direct injector compiles its units in
memory.

Units pull other keys, and methods ask injectors, so running a key may run others. All of
that goes through `runKey`, whose fuel is the depth to which runs may nest; every other
definition takes the runs below it as an argument.
-/
namespace Wiring

/-- Runs the unit of a key: its instance and whether the unit declares it shared. -/
abbrev RunKey := InjectorId → Key → Act (Value × Bool)

namespace Act

/-- A script injector. -/
def scriptInjector (id : InjectorId) : Act ScriptInjector := do
  match ← injector id with
  | .script s => return s
  | .direct _ => throw (.running .injectorGone)

def modifyScript (id : InjectorId) (f : ScriptInjector → ScriptInjector) : Act Unit :=
  modifyInjector id fun
    | .script s => .script (f s)
    | other => other

def modifyDirect (id : InjectorId) (f : DirectInjector → DirectInjector) : Act Unit :=
  modifyInjector id fun
    | .direct d => .direct (f d)
    | other => other

end Act

namespace Resolve

/-- An action while another parameter is being supplied; afterwards the former one is
again, whether the action failed or not. -/
def withPoint {α : Type} (id : InjectorId) (point : Option Parameter) (a : Act α) : Act α := do
  let former := (← Act.injector id).point
  Act.modifyInjector id (·.setPoint point)
  let answer ← Act.attempt a
  Act.modifyInjector id (·.setPoint former)
  Act.orThrow answer

/-- What an injector gives for a key. -/
def resolve (run : RunKey) (id : InjectorId) (key : Key) : Act Value := do
  match (← Act.injector id).singletons.find? key with
  | some value => return value
  | none =>
      let (value, shared) ← run id key
      if shared then Act.modifyInjector id (·.remember key value)
      return value

def prototype (run : RunKey) (id : InjectorId) (key : Key) (point : Option Parameter) :
    Act Value :=
  withPoint id point (resolve run id key)

def singleton (run : RunKey) (id : InjectorId) (key : Key) (point : Option Parameter) :
    Act Value := do
  match (← Act.injector id).singletons.find? key with
  | some value => return value
  | none =>
      let (value, _) ← withPoint id point (run id key)
      Act.modifyInjector id (·.remember key value)
      return value

/-- The qualifier of a parameter as the injector knows it. -/
def qualifier? (i : Injector) (p : Parameter) : Act (Option Value) :=
  match i with
  | .script s => Act.onSite (Save.qualifier? s.dir p)
  | .direct d => return d.qualifiers.find? p

/-- A point as a native of its own. -/
def newPoint (p : Parameter) (qualifier : Option Value) : Act Value := do
  let ref ← Act.onSite (Work.onHeap (·.newNative Value.pointType (.point p qualifier)))
  return .native ref

/-- The point of a parameter, with the qualifier saved in a directory. -/
def savedPoint (dir : String) (p : Parameter) : Act Value := do
  newPoint p (← Act.onSite (Save.qualifier? dir p))

/-- The parameter that is being supplied, with its qualifier. -/
def injectionPoint (id : InjectorId) : Act Value := do
  let i ← Act.injector id
  match i.point with
  | none => throw (.running .outsideProvider)
  | some p => newPoint p (← qualifier? i p)

/-- What a unit run by an injector may ask for. -/
def surroundings (run : RunKey) (id : InjectorId) : Script.Surroundings (StateM World) where
  prototype := prototype run id
  singleton := singleton run id
  injectionPoint := injectionPoint id
  injector := pure (.injector (some id))
  construct className arguments := do
    return .object (← Objects.construct (resolve run) className arguments)
  invoke := Objects.invoke (resolve run)
  property := Objects.property
  setProperty := Objects.setProperty
  restore className properties := do return .object (← Objects.newObject className properties)
  decode typeName bytes := Act.onSite (Classes.decodeNative typeName bytes)

/-- The graph of a script injector: built from its module, or the one saved. -/
def graphOf (id : InjectorId) : Act Graph := do
  let s ← Act.scriptInjector id
  match s.graph with
  | some g => return g
  | none =>
      let g ←
        match s.source with
        | some m => Act.buildModule m
        | none => do pure ((← Act.onSite (Save.graph? s.dir)).getD .empty)
      Act.modifyScript id fun s => { s with graph := some g }
      return g

/-- The scope of a key: its binding decides, then what was saved with its unit. -/
def scopeIn (dir : String) (g : Graph) : ScopeOf := fun key => do
  match g.get? key with
  | some binding => return binding.isShared
  | none =>
      match ← Save.scope? dir key with
      | some shared => return shared
      | none => throw (.notCompiled key.text)

/-- The scope of a key as an injector tells it. -/
def isShared (id : InjectorId) (key : Key) : Act Bool := do
  match ← Act.injector id with
  | .script s => do
      let g ← graphOf id
      Act.onSite (scopeIn s.dir g key)
  | .direct d =>
      match d.graph.get? key with
      | some binding => return binding.isShared
      | none => throw (.notCompiled key.text)

/-- Compiles every unit of a script injector's graph. -/
def compileAll (id : InjectorId) : Act Unit := do
  let s ← Act.scriptInjector id
  let g ← graphOf id
  Act.onSite do
    let batch ← Batch.make s.dir g
    batch.compileUnits

def fileExists (path : String) : Act Bool := do return (← get).site.files.exists? path

/-- The one compile of a strict injector; a key without a unit after it is unbound. -/
def compileOnce (id : InjectorId) (dir : String) (key : Key) : Act Unit := do
  if ← fileExists (Layout.sentinelPath dir) then throw (.unbound key.text)
  else
    Act.onSite (Work.onFiles (Files.write (Layout.sentinelPath dir) ""))
    compileAll id
    if ← fileExists (Layout.unitPath dir key) then return
    else throw (.unbound key.text)

/-- Compiles the missing unit of a key. The first time the whole graph is compiled; the
pointcuts are saved before that, for single compiles need them even if it fails. -/
def compileMissing (id : InjectorId) (key : Key) : Act Unit := do
  let s ← Act.scriptInjector id
  if s.strict then compileOnce id s.dir key
  else
    let g ← graphOf id
    let first := !(← fileExists (Layout.pointcutsPath s.dir))
    if first then
      Act.onSite do
        let batch ← Batch.make s.dir g
        batch.savePointcuts
        batch.compile
    if first && (← fileExists (Layout.unitPath s.dir key)) then return
    else Act.onSite (Demand.compile s.dir g (some (scopeIn s.dir g)) key)

/-- The unit of a key, read from its file unless it was read before. -/
def loadUnit (id : InjectorId) (key : Key) : Act (List Script.Statement) := do
  let s ← Act.scriptInjector id
  match s.units.find? key with
  | some statements => return statements
  | none =>
      let path := Layout.unitPath s.dir key
      if !(← fileExists path) then
        compileMissing id key
        if !(← fileExists path) then throw (.unbound key.text)
      let text ← Act.onSite (Work.onFiles (Files.read path))
      let statements ← Act.orThrow (Script.parseUnit path text)
      Act.modifyScript id fun s => { s with units := s.units.put key statements }
      return statements

/-- The binding a direct injector compiles for a key: bound, or inferred and woven. -/
def directBinding (g : Graph) (key : Key) : Work (Binding Value) := do
  match g.get? key with
  | some binding => return binding
  | none => return .construction (← Weave.plan g.pointcuts (← Demand.infer key))

/-- The scope of a key that is not in the graph of a direct injector is not known. -/
def directScope (g : Graph) : ScopeOf := fun key => do
  match g.get? key with
  | some binding => return binding.isShared
  | none => throw (.notCompiled key.text)

/-- The code of a key, compiled unless it was before. -/
def codeOf (id : InjectorId) (d : DirectInjector) (key : Key) : Act Code := do
  match d.codes.find? key with
  | some code => return code
  | none =>
      let code ← Act.onSite do
        let binding ← directBinding d.graph key
        Compile.unitOf d.graph (some (directScope d.graph)) binding
      Act.modifyDirect id fun d =>
        { d with
          qualifiers := code.qualifiers.foldl (fun t q => t.put q.1 q.2) d.qualifiers
          codes := d.codes.put key code }
      return code

/-- Runs the unit of a key, given the runs below it. -/
def runWith (run : RunKey) (id : InjectorId) (key : Key) : Act (Value × Bool) := do
  match ← Act.injector id with
  | .script _ =>
      let statements ← loadUnit id key
      Script.runUnit (surroundings run id) (Layout.unitName key) statements
  | .direct d =>
      let code ← codeOf id d key
      Script.runUnit (surroundings run id) key.text code.statements

/-- Runs the unit of a key, with runs nested to a depth. -/
def runKey : Nat → RunKey
  | 0, _, _ => throw .exhausted
  | depth + 1, id, key => runWith (runKey depth) id key

/-- How deep the runs of one request may nest. -/
def depthLimit : Nat := 4096

/-- What an injector gives for an interface under a name. -/
def request (id : InjectorId) (interface name : String) : Act Value :=
  resolve (runKey depthLimit) id (.of interface name)

/-- The value of an expression evaluated by an injector. -/
def evaluate (id : InjectorId) (e : Script.Expr) : Act Value :=
  Script.evaluate (surroundings (runKey depthLimit) id) e

/-- The result of statements run by an injector as a unit of some name. -/
def runStatements (id : InjectorId) (unit : String) (statements : List Script.Statement) :
    Act (Value × Bool) :=
  Script.runUnit (surroundings (runKey depthLimit) id) unit statements

end Resolve
end Wiring
