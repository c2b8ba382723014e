import Wiring.Classes.Generated
import Wiring.Site

/-!
# Looking classes up

A class that is not registered may have been generated into one of the registered script
directories; it is registered when it is found there. Walks along parents and interfaces
have as many steps as there can be classes, which is enough where no class is its own
ancestor; a walk that goes round in circles runs out of them.
-/
namespace Wiring.Classes

/-- The file that describes a generated class. -/
def classPath (dir className : String) : String :=
  Path.join dir (fileStem className ++ ".class.json")

/-- The generated class of this name in the first of the directories that has one. -/
def load (className : String) : List String → Work (Option ClassDecl)
  | [] => return none
  | dir :: rest => do
      match ← Work.onFiles (Files.readIfExists (classPath dir className)) with
      | none => load className rest
      | some text => return some (← Work.decode text GeneratedClass.ofJson?).toClass

def find? (className : String) : Work (Option ClassDecl) := do
  let registry ← Work.registry
  match registry.classes.find? className with
  | some c => return some c
  | none =>
      match ← load className registry.scriptDirs with
      | none => return none
      | some c =>
          Work.modifyRegistry (·.register c)
          return (← Work.registry).classes.find? className

def find (className : String) : Work ClassDecl := do
  Work.orElse (.classNotFound className) (← find? className)

/-- The class, or nothing if it cannot be found or read. -/
def findQuietly? (className : String) : Work (Option ClassDecl) := do
  match ← Work.attempt (find? className) with
  | .ok c => return c
  | .error _ => return none

def exists? (className : String) : Work Bool := do return (← findQuietly? className).isSome

/-- The path is that of a file of a generated class. -/
def isClassPath (path : Path) : Bool :=
  match path.getLast? with
  | some name => ".class.json".toList.isSuffixOf name.toList
  | none => false

/-- More steps than a walk along distinct classes can take: each of them is registered or
has a file. -/
def walkFuel : Work Nat := do
  let site ← get
  return site.registry.classes.length + site.files.contents.countP (isClassPath ·.1) + 2

/-- Whether some item passes; items after the first that does are not tried. -/
def anyOf {α : Type} (test : α → Work Bool) : List α → Work Bool
  | [] => return false
  | a :: rest => do if ← test a then return true else anyOf test rest

/-- Whether the target is reached by steps to a parent or a listed interface. -/
def reaches (target : String) : Nat → String → Work Bool
  | 0, _ => throw .exhausted
  | fuel + 1, className => do
      if className = target then return true
      else
        match ← findQuietly? className with
        | none => return false
        | some c =>
            let reached ← anyOf (fun i => if i = target then return true else reaches target fuel i)
              c.interfaces
            if reached then return true
            else
              match c.parent with
              | none => return false
              | some parent => reaches target fuel parent

def isSubclassOf (className target : String) : Work Bool := do
  reaches target (← walkFuel) className

/-- New names at the end, in order. -/
def appendNew (names more : List String) : List String :=
  more.foldl (fun names n => if names.contains n then names else names ++ [n]) names

/-- The names of the methods of a class, those of its ancestors first. -/
def methodNamesTo : Nat → String → Work (List String)
  | 0, _ => throw .exhausted
  | fuel + 1, className => do
      let c ← find className
      let inherited ←
        match c.parent with
        | some parent => methodNamesTo fuel parent
        | none => pure []
      return appendNew inherited
        (c.methods.keys.filter fun m => m != ClassDecl.constructorName)

def methodNames (className : String) : Work (List String) := do
  methodNamesTo (← walkFuel) className

/-- The body of a method, the class's own or the nearest ancestor's. -/
def bodyTo (method : String) : Nat → ClassDecl → Work (Option Body)
  | 0, _ => throw .exhausted
  | fuel + 1, c => do
      match c.methods.find? method with
      | some body => return some body
      | none =>
          match c.parent with
          | some parent => bodyTo method fuel (← find parent)
          | none => return none

def body? (c : ClassDecl) (method : String) : Work (Option Body) := do
  bodyTo method (← walkFuel) c

def setterTo (method : String) : Nat → ClassDecl → Work (Option SetterDecl)
  | 0, _ => throw .exhausted
  | fuel + 1, c => do
      match c.setter? method with
      | some setter => return some setter
      | none =>
          match c.parent with
          | some parent => setterTo method fuel (← find parent)
          | none => return none

def setter? (c : ClassDecl) (method : String) : Work (Option SetterDecl) := do
  setterTo method (← walkFuel) c

/-- The names an interface and those it extends declare, the extended ones first. -/
def declaredTo : Nat → String → List String → Work (List String)
  | 0, _, _ => throw .exhausted
  | fuel + 1, interface, names => do
      let c ← find interface
      let names ← c.interfaces.foldlM (fun names i => declaredTo fuel i names) names
      return appendNew names c.declared

/-- The description of the null object class of an interface. -/
def nullObject (interface : String) : Work GeneratedClass := do
  let nullMethods ← declaredTo (← walkFuel) interface []
  return { name := interface ++ "Null", interfaces := [interface], nullMethods }

/-- Whether a matcher selects a class. -/
def selects (m : Matcher) (className : String) : Work Bool :=
  match m with
  | .any => return true
  | .subclassesOf target => isSubclassOf className target
  | .startsWith start => return startsWithText start className
  | .named name => return className == name

/-- Adds a script directory; false if it was there already. -/
def registerDir (dir : String) : Work Bool := do
  if (← Work.registry).scriptDirs.any (Path.sameText dir) then return false
  else
    Work.modifyRegistry fun r => { r with scriptDirs := r.scriptDirs ++ [dir] }
    return true

/-- The native that bytes of a type stand for. -/
def decodeNative (typeName : String) (bytes : List UInt8) : Work Value := do
  let made (typeName : String) : Work Value := Work.build none (.blob typeName bytes)
  match (← Work.registry).decoders.find? typeName with
  | some (.rename other) => made other
  | some (.fail message) => throw (.running (.raised message))
  | none => made typeName

end Wiring.Classes
