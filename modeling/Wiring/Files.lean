import Wiring.Failure
import Wiring.Table

/-!
# Files

The files that compiling leaves behind, as one table by path. A path is a list of names
from the working directory on; two dots at its head lead out of it. A text with slashes is followed name by name, so what stands
on the way matters: two dots lead back only out of a directory that is there, and a slash
after the name of a file leads nowhere. A file is written by staging: its contents go to
a temporary file in the same directory, which then takes the place of the target, so
nobody sees half a file. No text leads to a temporary file. What stands in the way of a write is a regular file where a
directory is needed, a directory where the file is to be, or a name that no directory can
hold.
-/
namespace Wiring

/-- A path from the working directory, outermost name first. -/
abbrev Path := List String

namespace Path

/-- The parts of a text between slashes. -/
def split : List Char → List (List Char)
  | [] => [[]]
  | c :: rest =>
      if c = '/' then [] :: split rest
      else
        match split rest with
        | [] => [[c]]
        | part :: parts => (c :: part) :: parts

/-- The names between slashes, as they are written. -/
def names (text : String) : List String := (split text.toList).map String.ofList

def isAbsolute (text : String) : Bool := text.toList.head? == some '/'

/-- Where following a text begins. -/
def start (text : String) : Path := if isAbsolute text then ["/"] else []

/-- A name that stays where it is. -/
def staysPut (name : String) : Bool := name == "" || name == "."

/-- The working directory or one that it lies in. -/
def isOuter (path : Path) : Bool := path.all (· == "..")

/-- The directory around a path; the outermost of all lies in itself. -/
def back (path : Path) : Path :=
  if path == ["/"] then path
  else if isOuter path then path ++ [".."]
  else path.dropLast

/-- One more name: two dots lead back, one dot or nothing stays. -/
def step (path : Path) (name : String) : Path :=
  if staysPut name then path
  else if name = ".." then back path
  else path ++ [name]

/-- Where a text leads if all directories on the way are there. -/
def ofText (text : String) : Path := (names text).foldl step (start text)

/-- A name appended to a text with a slash; an absolute name replaces the text. -/
def join (text name : String) : String :=
  if isAbsolute name ∨ text = "" then name
  else if text.toList.getLast? = some '/' then text ++ name
  else text ++ "/" ++ name

/-- The names, last one first, without those that stay put; the outermost is kept. -/
def trimReversed : List String → List String
  | name :: rest => if staysPut name && !rest.isEmpty then trimReversed rest else name :: rest
  | [] => []

/-- The text of the directory a path lies in, a dot for the working directory. -/
def parentText (text : String) : String :=
  match (trimReversed ((trimReversed (names text).reverse).drop 1)).reverse with
  | [] => "."
  | [""] => "/"
  | kept => "/".intercalate kept

/-- The text ends in a name that a file can have. -/
def endsInName (text : String) : Bool :=
  match (names text).getLast? with
  | some name => !staysPut name && name != ".."
  | none => false

/-- Two texts that name one directory in the same words: slashes and single dots that
make no difference are left out of the comparison. -/
def sameText (a b : String) : Bool :=
  let parts (text : String) : Bool × List String :=
    let all := names text
    (isAbsolute text, all.take 1 ++ (all.drop 1).filter fun name => !staysPut name)
  (parts a).1 == (parts b).1 && (parts a).2.filter (· != "") == (parts b).2.filter (· != "")

/-- The most bytes that a path can have. -/
def longest : Nat := 4095

/-- A text that names nothing: it holds a character that no name may hold, or is longer
than any path. -/
def unspeakable (text : String) : Bool :=
  text.toList.contains '\x00' || decide (longest < text.utf8ByteSize)

/-- A name longer than a directory can hold. -/
def tooLong (name : String) : Bool := decide (255 < name.utf8ByteSize)

end Path

structure Files where
  directories : List Path := []
  contents : Table Path String := []
  /-- How many temporary files have been made. -/
  staged : Nat := 0
  deriving Repr, Inhabited

/-- What is found at a path; it is blocked if a file or a name that cannot be stands in
the way. -/
inductive Status where
  | missing
  | file (text : String)
  | directory
  | blocked
  deriving DecidableEq, Repr

/-- A temporary file and the target whose place it is to take. -/
structure Staged where
  temporary : Path
  target : String
  deriving DecidableEq, Repr

/-- Work on the files alone. -/
abbrev FileWork := ExceptT Failure (StateM Files)

namespace Files

def isDirectory (fs : Files) (path : Path) : Bool :=
  Path.isOuter path || path == ["/"] || fs.directories.contains path

/-- What is found by following names from a directory. -/
def statusFrom (fs : Files) (above : Path) : List String → Status
  | [] => .directory
  | name :: rest =>
      let here := Path.step above name
      if fs.isDirectory here then statusFrom fs here rest
      else if Path.tooLong name then .blocked
      else
        match fs.contents.find? here with
        | some text => if rest.isEmpty then .file text else .blocked
        | none => .missing

/-- What a text leads to; an empty one leads nowhere. -/
def status (fs : Files) (text : String) : Status :=
  if text = "" then .missing
  else if Path.unspeakable text then .blocked
  else fs.statusFrom (Path.start text) (Path.names text)

def exists? (fs : Files) (text : String) : Bool :=
  match fs.status text with
  | .file _ => true
  | .directory => true
  | _ => false

/-- What comes of making one directory. -/
inductive Making where
  | made (fs : Files)
  /-- A directory on the way is not there. -/
  | wayMissing
  /-- It is there already, or cannot be. -/
  | refused

/-- One directory made in one that is there. Slashes after its name do not matter. -/
def makeOne (fs : Files) (text : String) : Making :=
  match (Path.names text).reverse.dropWhile (· == "") with
  | [] => .refused
  | name :: way =>
      if Path.unspeakable text then .refused
      else
        match fs.statusFrom (Path.start text) way.reverse with
        | .directory =>
            let here := way.reverse.foldl Path.step (Path.start text) ++ [name]
            if name = "." ∨ name = ".." ∨ Path.tooLong name ∨ fs.isDirectory here ∨
                fs.contents.has here then .refused
            else .made { fs with directories := fs.directories ++ [here] }
        | .missing => .wayMissing
        | _ => .refused

/-- A directory made, and first the one that it lies in if that is what is missing; says
whether there is one in the end. -/
def makeWithin : Nat → String → Files → Bool × Files
  | 0, _, fs => (false, fs)
  | fuel + 1, text, fs =>
      match fs.makeOne text with
      | .made fs => (true, fs)
      | .refused => (fs.status text == .directory, fs)
      | .wayMissing =>
          match makeWithin fuel (Path.parentText text) fs with
          | (false, fs) => (false, fs)
          | (true, fs) =>
              match fs.makeOne text with
              | .made fs => (true, fs)
              | _ => (fs.status text == .directory, fs)

/-- Each step back loses a name, so there is fuel for all of them. An empty text is the
working directory. -/
def makeDirectory (text : String) (fs : Files) : Bool × Files :=
  if text = "" then (true, fs) else makeWithin ((Path.names text).length + 1) text fs

/-- All that lies below a path, to which no path that leads out of it belongs. -/
def below (path : Path) (other : Path) : Bool :=
  path.isPrefixOf other &&
    match other.drop path.length with
    | [] => false
    | name :: _ => name != ".." && name != "/"

/-- Everything below a path is gone. -/
def empty (fs : Files) (path : Path) : Files :=
  { fs with
    directories := fs.directories.filter fun d => !below path d
    contents := fs.contents.filter fun f => !below path f.1 }

/-- The names below a path with slashes between them, directories with a slash at the
end, in the order of their characters; files come with their contents. -/
def listing (fs : Files) (text : String) : List (String × Option String) :=
  let path := Path.ofText text
  let shown (p : Path) : String := (p.drop path.length).foldl Path.join text
  let directories := (fs.directories.filter (below path)).map fun d => (shown d ++ "/", none)
  let files := (fs.contents.filter fun f => below path f.1).map fun f => (shown f.1, some f.2)
  (directories ++ files).mergeSort fun a b => decide (a.1 ≤ b.1)

/-- The contents of a file. -/
def read (text : String) : FileWork String := do
  match (← get).status text with
  | .file contents => return contents
  | _ => throw (.unreadable text)

/-- The contents of a file, nothing if there is none. -/
def readIfPresent (text : String) : FileWork (Option String) := do
  match (← get).status text with
  | .file contents => return some contents
  | .missing => return none
  | _ => throw (.unreadable text)

/-- The contents of whatever exists at a path, which may be no file. -/
def readIfExists (text : String) : FileWork (Option String) := do
  if (← get).exists? text then return some (← read text) else return none

def ensureDirectory (text : String) : FileWork Unit := do
  let (made, fs) := (← get).makeDirectory text
  set fs
  if !made then throw (.notWritable text)

/-- The name of a temporary file; it has a slash, so no text leads to it. -/
def temporaryName (fs : Files) : String := "new/" ++ toString fs.staged

/-- A temporary file is named from the outermost directory on; its path is by so many
bytes longer than the text of the directory it lies in. -/
def temporaryExcess : Nat := 27

/-- The contents in a temporary file next to the target. -/
def stage (text contents : String) : FileWork Staged := do
  ensureDirectory (Path.parentText text)
  if Path.longest < (Path.parentText text).utf8ByteSize + temporaryExcess then
    throw (.notWritable text)
  let fs ← get
  let temporary := Path.ofText (Path.parentText text) ++ [fs.temporaryName]
  set { fs with contents := fs.contents.put temporary contents, staged := fs.staged + 1 }
  return ⟨temporary, text⟩

/-- The temporary file is gone and the target as it was. -/
def abandon (s : Staged) : FileWork Unit :=
  modify fun fs => { fs with contents := fs.contents.erase s.temporary }

/-- A file of this name is there, or can be made in a directory that is there. -/
def canHold (fs : Files) (text : String) : Bool :=
  match fs.status text with
  | .file _ => true
  | .missing => Path.endsInName text && fs.status (Path.parentText text) == .directory
  | _ => false

/-- The temporary file takes the place of the target, or is gone if it cannot. -/
def commit (s : Staged) : FileWork Unit := do
  let fs ← get
  abandon s
  match fs.contents.find? s.temporary with
  | some contents =>
      if fs.canHold s.target then
        modify fun fs => { fs with contents := fs.contents.put (Path.ofText s.target) contents }
      else throw (.notWritable s.target)
  | none => throw (.notWritable s.target)

/-- The whole contents of a file, old or new. -/
def write (text contents : String) : FileWork Unit := do commit (← stage text contents)

/-- Contents added at the end of a file in a directory that is there. -/
def append (text contents : String) : FileWork Unit := do
  let path := Path.ofText text
  let fs ← get
  if fs.canHold text then
    let old := (fs.contents.find? path).getD ""
    set { fs with contents := fs.contents.put path (old ++ contents) }
  else throw (.unreadable text)

/-- One file is gone. -/
def remove (text : String) : FileWork Unit := do
  match (← get).status text with
  | .file _ => modify fun fs => { fs with contents := fs.contents.erase (Path.ofText text) }
  | _ => throw (.unreadable text)

/-- Everything in a directory is gone; a missing directory is empty already. -/
def clear (text : String) : FileWork Unit := do
  match (← get).status text with
  | .directory => modify (·.empty (Path.ofText text))
  | .missing => return
  | _ => throw (.unreadable text)

/-- The listing of a directory. -/
def list (text : String) : FileWork (List (String × Option String)) := do
  let fs ← get
  match fs.status text with
  | .directory => return fs.listing text
  | _ => throw (.unreadable text)

end Files
end Wiring
