import Wiring.Injector.Cache
import Wiring.Injector.Snapshot

/-!
# Choosing and keeping injectors

A module gets a direct injector unless it is compiled: because it binds the compile
switch to true, or because the caller says so. A compiled module that a later run can
build by itself gets a strict injector.

A factory keeps one injector for each id. For a new id the cache is asked first: a
snapshot in it is restored, otherwise the injector is made, some of its keys are resolved
in advance, and its snapshot is cached if it has one.
-/
namespace Wiring

/-- What a configuration file says. -/
structure Config where
  dir : String
  compile : Bool
  saved : List String
  space : Option String
  deriving DecidableEq, Repr, Inhabited

namespace Config

/-- The configuration of a directory alone: it is compiled. -/
def ofDir (dir : String) : Config := ⟨dir, true, [], none⟩

/-- The name space, or the directory where none is given. -/
def injectorId (c : Config) : String := c.space.getD c.dir

def toJson (c : Config) : Json :=
  .record [("scriptDir", .text c.dir), ("compile", .bool c.compile),
    ("savedSingletons", Json.texts c.saved), ("namespace", Json.ofOption .text c.space)]

def ofJson? (j : Json) : Option Config := do
  let [dir, compile, saved, space] ←
    j.slots ["scriptDir", "compile", "savedSingletons", "namespace"] | none
  return { dir := ← dir.required Json.asText
           compile := ← compile.defaulted Json.asBool false
           saved := ← saved.defaulted (Json.asList Json.asText) []
           space := ← space.optional Json.asText }

/-- The configuration that a file holds. -/
def load (path : String) : Work Config := do
  Work.decode (← Work.onFiles (Files.read path)) ofJson?

end Config

namespace Graph

/-- The compile switch is bound to true. -/
def isCompiled (g : Graph) : Bool :=
  match g.get? Key.compileSwitch with
  | some (.literal (.bool b)) => b
  | _ => false

end Graph

namespace Act

/-- The entry of a cache that holds the snapshot of its injector. -/
def snapshotEntry : String := "InjectorInterface"

/-- The injector of the right kind for a module. -/
def create (m : LazyModule) (dir : String) (compiled : Bool) : Act InjectorId := do
  onSite (Work.onFiles (Files.ensureDirectory dir))
  let g ← buildModule m
  if compiled || g.isCompiled then openScript dir (some m) m.lasting [] (some g)
  else openDirect dir g

/-- Resolves interfaces in advance. -/
def saveSingletons (id : InjectorId) (interfaces : List String) : Act Unit :=
  interfaces.forM fun interface => do
    let _ ← Resolve.request id interface Key.anyName

/-- An injector from a cached snapshot, over the module if that is needed. -/
def restoreFor (s : Snapshot) (m : LazyModule) : Act InjectorId :=
  if s.strict then restoreStrict s m
  else restore s (if s.lasting then some m else none)

def saveSnapshot (cache : CacheId) (id : InjectorId) : Act Unit := do
  match ← snapshotText? id with
  | some text => store cache snapshotEntry text
  | none => return

def factory (name : String) : Act Factory := do
  return ((← get).factories.find? name).getD {}

def setFactory (name : String) (f : Factory) : Act Unit :=
  modify fun w => { w with factories := w.factories.put name f }

/-- The cache that an id uses in a factory: the one it used first. -/
def cacheFor (name id : String) (given : Option CacheId) : Act CacheId := do
  let f ← factory name
  match f.caches.find? id with
  | some cache => return cache
  | none =>
      let cache ←
        match given with
        | some cache => pure cache
        | none => makeCache (.memory [])
      setFactory name { f with caches := f.caches.put id cache }
      return cache

/-- The injector of an id that has none yet. A snapshot that cannot be cached is no
failure. -/
def buildCached (cache : CacheId) (m : LazyModule) (dir : String) (saved : List String)
    (compiled : Bool) : Act InjectorId := do
  match ← fetch cache snapshotEntry with
  | some text => restoreFor (← onSite (Work.decode text Snapshot.ofJson?)) m
  | none =>
      let made ← create m dir compiled
      saveSingletons made saved
      let _ ← attempt (saveSnapshot cache made)
      return made

/-- The injector that a factory keeps for an id. -/
def cached (name id : String) (m : LazyModule) (dir : String) (given : Option CacheId)
    (saved : List String) (compiled : Bool) : Act InjectorId := do
  match (← factory name).injectors.find? id with
  | some kept => return kept
  | none =>
      let cache ← cacheFor name id given
      setSpace cache id
      let made ← buildCached cache m dir saved compiled
      let f ← factory name
      setFactory name { f with injectors := f.injectors.put id made }
      return made

/-- The injector that a configuration describes. -/
def cachedFor (name : String) (c : Config) (m : LazyModule) (given : Option CacheId) :
    Act InjectorId :=
  cached name c.injectorId m c.dir given c.saved c.compile

/-- A fresh injector for a module with another one on top; no factory keeps it. -/
def overridden (m : LazyModule) (statements : List ModuleStatement) (dir : String)
    (saved : List String) : Act InjectorId := do
  let made ← create (m.overriddenBy statements) dir false
  saveSingletons made saved
  return made

end Act
end Wiring
