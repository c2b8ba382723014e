import Wiring.Classes.Lookup
import Wiring.Graph.Container

/-!
# Modules

A module is a list of statements that build a graph. Binding a class also binds, to
themselves, the concrete classes that its arguments ask for under any name, and theirs in
turn, unless the key is bound already. Installing a module keeps what is bound here;
overriding with one takes what is bound there.
-/
namespace Wiring

/-- What a statement binds its key to. -/
inductive Target where
  | to (className : String)
  | untargeted
  | literal (tree : Tree)
  | provider (className : String) (context : Option String)
  | nullObject
  /-- The key is named but nothing is bound to it. -/
  | unfinished
  deriving Repr, Inhabited

inductive ModuleStatement where
  | bind (interface : String) (name : Option String) (target : Target) (shared : Bool)
  /-- An element of the map of an interface, under a key or the next index. -/
  | element (interface : String) (key : Option ArrayKey) (name : Option String)
      (target : Target) (shared : Bool)
  | install (statements : List ModuleStatement)
  | override (statements : List ModuleStatement)
  | intercept (pointcut : Pointcut)
  deriving Repr, Inhabited

/-- A graph over values of the heap. -/
abbrev Graph := Container Value

namespace Argument

def ofDecl (className method : String) (p : ParameterDecl) : Argument Value :=
  { key := .of (p.type.getD "") (p.named.getD Key.anyName)
    parameter := ⟨className, method, p.name⟩
    fallback := p.fallback
    qualifier := p.qualifier
    set := p.set }

end Argument

namespace Plan

/-- How an object of a declared class is made. -/
def ofDecl (className : String) (c : ClassDecl) : Plan Value :=
  { className
    arguments := c.parameters.map (Argument.ofDecl className ClassDecl.constructorName)
    setters := c.setters.map fun s =>
      { method := s.method
        arguments := s.parameters.map (Argument.ofDecl className s.method)
        optional := s.optional }
    postConstruct := c.postConstruct
    shared := c.shared
    advice := [] }

def ofClass (className : String) : Work (Plan Value) := do
  return .ofDecl className (← Classes.find className)

/-- The interfaces asked for under any name. -/
def candidates (p : Plan Value) : List String :=
  p.allArguments.filterMap fun a =>
    if a.key.isAny && a.key.interface != "" then some a.key.interface else none

end Plan

namespace Binding

def candidates : Binding Value → List String
  | literal _ => []
  | construction plan => plan.candidates
  | provider plan _ _ => plan.candidates
  | nullObject _ => []

end Binding

namespace Graph

/-- Binds a concrete class to itself unless its key is bound already, and then the
classes its arguments ask for. Each round binds another class, so the fuel is enough
if it exceeds the number of classes. -/
def untarget : Nat → Graph → String → Work Graph
  | 0, _, _ => throw .exhausted
  | fuel + 1, g, className => do
      let key := Key.any className
      if g.has key then return g
      else
        match ← Classes.find? className with
        | none => return g
        | some c =>
            if c.isConcrete then
              let binding := Binding.construction (.ofDecl className c)
              binding.candidates.foldlM (untarget fuel) (g.add key binding)
            else return g

/-- Binds a key, and the concrete classes that its binding asks for. -/
def bind (g : Graph) (key : Key) (binding : Binding Value) : Work Graph := do
  binding.candidates.foldlM (untarget (← Classes.walkFuel)) (g.add key binding)

/-- The binding that a target describes for an interface, if it describes one. -/
def bindingOf (interface : String) : Target → Work (Option (Binding Value))
  | .to className => do return some (.construction (← Plan.ofClass className))
  | .untargeted => do return some (.construction (← Plan.ofClass interface))
  | .literal tree => do return some (.literal (← Work.build none tree))
  | .provider className context => do
      return some (.provider (← Plan.ofClass className) false context)
  | .nullObject => return some (.nullObject interface)
  | .unfinished => return none

/-- Binds an interface under a name to a target. -/
def bindTarget (g : Graph) (interface name : String) (target : Target) (shared : Bool) :
    Work Graph := do
  match ← bindingOf interface target with
  | none => return g
  | some binding =>
      let key := Key.of interface name
      let g ← g.bind key binding
      return if shared then g.share key else g

/-- Binds the interceptors that can be made without a module, and records the pointcut. -/
def intercept (g : Graph) (p : Pointcut) : Work Graph := do
  let g ← p.interceptors.foldlM (untarget (← Classes.walkFuel)) g
  return { g with pointcuts := g.pointcuts ++ [p] }

mutual

/-- Runs one statement on a graph. -/
def runStatement (g : Graph) : ModuleStatement → Work Graph
  | .bind interface name target shared =>
      bindTarget g interface (name.getD Key.anyName) target shared
  | .element interface key name target shared =>
      let elements := g.mapOf interface
      let key := key.getD (.int elements.nextIndex)
      let g := g.setMap interface (elements.insert key (MapBinding.elementKey interface key))
      bindTarget g interface (name.getD (MapBinding.elementName key)) target shared
  | .install statements => do return Container.fill g (← runAll .empty statements)
  | .override statements => do return Container.override g (← runAll .empty statements)
  | .intercept pointcut => intercept g pointcut

/-- Runs statements one after another; the first failure ends the run. -/
def runAll (g : Graph) : List ModuleStatement → Work Graph
  | [] => return g
  | statement :: rest => do runAll (← runStatement g statement) rest

end

/-- The graph that the statements of a module build. -/
def ofModule (statements : List ModuleStatement) : Work Graph := runAll .empty statements

end Graph

/-- A module that is built when it is needed, under the name its builds are counted by. -/
structure LazyModule where
  label : Option String
  statements : List ModuleStatement
  /-- A later run can build the module again by itself. -/
  lasting : Bool
  deriving Repr, Inhabited

/-- The same module with the statements of another one on top. -/
def LazyModule.overriddenBy (m : LazyModule) (statements : List ModuleStatement) : LazyModule :=
  { m with statements := m.statements ++ [.override statements] }

end Wiring
