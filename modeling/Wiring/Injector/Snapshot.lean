import Wiring.Injector.Resolve
import Wiring.Value.Attach

/-!
# Making injectors, and bringing them back

A snapshot is what a script injector leaves to a later run: its directory and its shared
instances. Where the module cannot be built again, the graph is saved with it. An
injector made from a snapshot has the same instances, with every handle in them its own.
-/
namespace Wiring

structure Snapshot where
  dir : String
  singletons : Table Key Tree
  lasting : Bool
  strict : Bool
  deriving Repr, Inhabited

namespace Snapshot

def toJson? (s : Snapshot) : Option Json := do
  let singletons ← s.singletons.mapM fun i => do return (i.1.text, ← i.2.toJson?)
  return .record
    [("script_dir", .text s.dir), ("singletons", .record singletons),
     ("is_serializable_lazy", .bool s.lasting), ("strict", .bool s.strict)]

def ofJson? (j : Json) : Option Snapshot := do
  let [dir, singletons, lasting, strict] ←
    j.slots ["script_dir", "singletons", "is_serializable_lazy", "strict"] | none
  let singletons ← singletons.required (Json.asTable (Tree.ofJson? .reading))
  return { dir := ← dir.required Json.asText
           singletons := singletons.map fun i => (⟨i.1⟩, i.2)
           lasting := ← lasting.required Json.asBool
           strict := ← strict.defaulted Json.asBool false }

end Snapshot

namespace Act

/-- Shared instances built in the heap and attached to the injector. -/
def buildSingletons (handle : Handle) : Table Key Tree → Work (Table Key Value)
  | [] => return []
  | (key, tree) :: rest => do
      let value ← Work.build none tree
      let value ← Work.onHeap (·.attach handle value)
      let values ← buildSingletons handle rest
      return (key, value) :: values

/-- A script injector over a directory, whose generated classes may be loaded from now on. -/
def openScript (dir : String) (source : Option LazyModule) (strict : Bool)
    (singletons : Table Key Tree) (graph : Option Graph) : Act InjectorId := do
  let _ ← onSite (Classes.registerDir dir)
  let id : InjectorId := ⟨(← get).made⟩
  let singletons ← onSite (buildSingletons (some id) singletons)
  let lasting := source.any LazyModule.lasting
  makeInjector fun _ => .script { dir, source, lasting, strict, singletons, graph }

/-- A direct injector over a graph; the directory receives generated classes only. -/
def openDirect (dir : String) (g : Graph) : Act InjectorId := do
  let graph ← onSite (Prepare.graph dir g)
  makeInjector fun _ => .direct { graph }

/-- The snapshot of a script injector; a direct one has none. -/
def snapshot? (id : InjectorId) : Act (Option Snapshot) := do
  match ← injector id with
  | .direct _ => return none
  | .script s =>
      if !s.lasting then
        let g ← Resolve.graphOf id
        let _ ← onSite (Save.graph s.dir g)
      let heap ← Act.heap
      return some
        { dir := s.dir
          singletons := s.singletons.map fun i => (i.1, heap.unfold i.2)
          lasting := s.lasting
          strict := s.strict }

/-- The JSON text of the snapshot of an injector, if it has one. -/
def snapshotText? (id : InjectorId) : Act (Option String) := do
  match ← snapshot? id with
  | none => return none
  | some s =>
      let j ← onSite (Work.orElse .malformed s.toJson?)
      return some j.compact

/-- A script injector from a snapshot. Its module is needed if it could be built again. -/
def restore (s : Snapshot) (source : Option LazyModule) : Act InjectorId := do
  if s.lasting then
    match source with
    | some m => openScript s.dir (some m) s.strict s.singletons none
    | none => throw (.running .moduleMissing)
  else openScript s.dir none s.strict s.singletons none

/-- A strict injector from a snapshot, over the given module. -/
def restoreStrict (s : Snapshot) (m : LazyModule) : Act InjectorId :=
  restore { s with strict := true, lasting := true } (some m)

/-- Forgets the units read and empties the directory of a script injector. -/
def clear (id : InjectorId) : Act Unit := do
  let s ← scriptInjector id
  modifyScript id fun s => { s with units := [] }
  onSite (Work.onFiles (Files.clear s.dir))

/-- Compiles a batch, then resolves through an injector of the directory, which is gone
afterwards. -/
def requestThrough (b : Batch) (interface name : String) : Act Value := do
  onSite b.compile
  let id ← openScript b.dir none false [] none
  let answer ← attempt (Resolve.request id interface name)
  modify fun w => { w with injectors := w.injectors.erase id }
  orThrow answer

end Act
end Wiring
