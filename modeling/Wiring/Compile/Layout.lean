import Wiring.Files
import Wiring.Graph.Key

/-!
# The layout of a script directory

A unit lies under the stem of its key. Its scope, the qualifiers of parameters and the
two tables of a whole compile are JSON files of their own; the log grows with each
compile, and an empty file marks the one compile of a strict injector.
-/
namespace Wiring.Layout

def unitName (key : Key) : String := key.stem ++ ".di"

def unitPath (dir : String) (key : Key) : String := Path.join dir (unitName key)

def metaPath (dir : String) (key : Key) : String :=
  Path.join (Path.join dir "meta") (key.stem ++ ".json")

def qualifierPath (dir : String) (p : Parameter) : String :=
  Path.join (Path.join dir "qualifier") p.fileName

/-- The pointcuts of the first compile, whose presence tells that there was one. -/
def pointcutsPath (dir : String) : String := Path.join dir "_aop.json"

/-- The graph, for later runs without its module. -/
def modulePath (dir : String) : String := Path.join dir "_module.json"

def sentinelPath (dir : String) : String := Path.join dir "compiled"

def logPath (dir : String) : String := Path.join dir "_compile.log"

end Wiring.Layout
