import Wiring.Compile.Unit

/-!
# Injectors and the world they live in

A script injector runs the units of its directory and compiles what is missing; a direct
one compiles in memory. Either keeps the shared instances it has made and the parameter
it is supplying just now. An injector lives while somebody holds it; a handle to one that
is gone leads nowhere.
-/
namespace Wiring

structure ScriptInjector where
  dir : String
  source : Option LazyModule
  /-- The module can be built again by a later run. -/
  lasting : Bool
  /-- Compiles everything once, and nothing on demand. -/
  strict : Bool
  singletons : Table Key Value
  point : Option Parameter := none
  /-- Units read so far. -/
  units : Table Key (List Script.Statement) := []
  graph : Option Graph
  deriving Repr, Inhabited

structure DirectInjector where
  graph : Graph
  singletons : Table Key Value := []
  point : Option Parameter := none
  /-- Units compiled so far. -/
  codes : Table Key Code := []
  qualifiers : Table Parameter Value := []
  deriving Repr, Inhabited

inductive Injector where
  | script (s : ScriptInjector)
  | direct (d : DirectInjector)
  deriving Repr, Inhabited

namespace Injector

def singletons : Injector → Table Key Value
  | script s => s.singletons
  | direct d => d.singletons

def point : Injector → Option Parameter
  | script s => s.point
  | direct d => d.point

def setPoint (point : Option Parameter) : Injector → Injector
  | script s => script { s with point }
  | direct d => direct { d with point }

/-- The instance kept as the shared one of its key. -/
def remember (key : Key) (value : Value) : Injector → Injector
  | script s => script { s with singletons := s.singletons.put key value }
  | direct d => direct { d with singletons := d.singletons.put key value }

end Injector

structure CacheId where
  index : Nat
  deriving DecidableEq, Repr, Inhabited

/-- Where a cache keeps its entries: in memory, or in files below a directory. -/
inductive CacheStore where
  | memory (entries : Table String String)
  | directory (dir : String)
  deriving Repr, Inhabited

structure Cache where
  space : String
  store : CacheStore
  deriving Repr, Inhabited

/-- The injectors made for each id so far, and the cache each id uses. -/
structure Factory where
  injectors : Table String InjectorId := []
  caches : Table String CacheId := []
  deriving Repr, Inhabited

structure World where
  site : Site := {}
  injectors : Table InjectorId Injector := []
  /-- How many injectors have been made. -/
  made : Nat := 0
  caches : Array Cache := #[]
  factories : Table String Factory := []
  /-- How often each lazy module has been built. -/
  builds : Table String Nat := []
  deriving Repr, Inhabited

abbrev Act := ExceptT Failure (StateM World)

namespace Act

variable {α : Type}

def onSite (w : Work α) : Act α := fun world =>
  let (answer, site) := w.run world.site
  (answer, { world with site })

/-- The answer or the failure, as a value. -/
def attempt (a : Act α) : Act (Except Failure α) := ExceptT.lift a.run

def orThrow : Except Failure α → Act α
  | .ok a => return a
  | .error f => throw f

def heap : Act Heap := do return (← get).site.heap

end Act

namespace World

def injector? (w : World) (id : InjectorId) : Option Injector := w.injectors.find? id

def lives (w : World) (id : InjectorId) : Bool := w.injectors.has id

/-- Only the injectors in the list and those of the factories are kept. -/
def release (held : List InjectorId) (w : World) : World :=
  let kept := held ++ w.factories.flatMap fun f => f.2.injectors.map Prod.snd
  { w with injectors := w.injectors.filter fun i => kept.contains i.1 }

end World

namespace Act

/-- A living injector. -/
def injector (id : InjectorId) : Act Injector := do
  match (← get).injector? id with
  | some i => return i
  | none => throw (.running .injectorGone)

def modifyInjector (id : InjectorId) (f : Injector → Injector) : Act Unit :=
  modify fun w =>
    match w.injector? id with
    | some i => { w with injectors := w.injectors.put id (f i) }
    | none => w

/-- A new injector that knows its own id. -/
def makeInjector (make : InjectorId → Injector) : Act InjectorId := do
  let w ← get
  let id : InjectorId := ⟨w.made⟩
  set { w with injectors := w.injectors ++ [(id, make id)], made := w.made + 1 }
  return id

/-- The graph of a lazy module, built once more. -/
def buildModule (m : LazyModule) : Act Graph := do
  match m.label with
  | some label =>
      modify fun w =>
        { w with builds := w.builds.put label ((w.builds.find? label).getD 0 + 1) }
  | none => pure ()
  onSite (Graph.ofModule m.statements)

end Act
end Wiring
