import Wiring.Injector.World

/-!
# Caches

A cache keeps texts by id within a name space that is set before use. In memory the name
space and the id make one key; in files each name space is a directory and each id a
file, under names in which everything but letters, digits and hyphens is an underscore.
-/
namespace Wiring

namespace Cache

def memoryKey (space id : String) : String := space ++ "[" ++ id ++ "]"

/-- A name that is safe as a file name; different names may become the same. -/
def fileName (name : String) : String :=
  if name.toList.isEmpty then "_"
  else String.ofList (name.toList.map fun c => if c.isAlphanum || c == '-' then c else '_')

def path (dir space id : String) : String :=
  Path.join (Path.join dir (fileName space)) (fileName id ++ ".json")

end Cache

namespace Act

def makeCache (store : CacheStore) : Act CacheId := do
  let w ← get
  set { w with caches := w.caches.push ⟨"", store⟩ }
  return ⟨w.caches.size⟩

def cache (id : CacheId) : Act Cache := do
  return (← get).caches.getD id.index ⟨"", .memory []⟩

def modifyCache (id : CacheId) (f : Cache → Cache) : Act Unit :=
  modify fun w => { w with caches := w.caches.modify id.index f }

def setSpace (id : CacheId) (space : String) : Act Unit := modifyCache id ({ · with space })

def fetch (id : CacheId) (entry : String) : Act (Option String) := do
  let c ← cache id
  match c.store with
  | .memory entries => return entries.find? (Cache.memoryKey c.space entry)
  | .directory dir => onSite (Work.onFiles (Files.readIfPresent (Cache.path dir c.space entry)))

def store (id : CacheId) (entry text : String) : Act Unit := do
  let c ← cache id
  match c.store with
  | .memory entries =>
      modifyCache id
        ({ · with store := .memory (entries.put (Cache.memoryKey c.space entry) text) })
  | .directory dir => onSite (Work.onFiles (Files.write (Cache.path dir c.space entry) text))

end Act
end Wiring
