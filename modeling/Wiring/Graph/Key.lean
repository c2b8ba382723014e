/-!
# Dependency keys and parameters

A key names what is asked for: an interface and a binding name, joined by a hyphen.
Both parts may hold hyphens themselves, so a key is its text; it is taken apart at the
last hyphen. A parameter names who asks: the class, method and parameter that an
argument is supplied to.
-/
namespace Wiring

/-- The text before and after the last occurrence of a character. -/
def splitLast (mark : Char) : List Char → Option (List Char × List Char)
  | [] => none
  | c :: rest =>
      match splitLast mark rest with
      | some (before, after) => some (c :: before, after)
      | none => if c = mark then some ([], rest) else none

/-- A name as part of a file name: namespace separators become underscores. -/
def fileStem (name : String) : String :=
  String.ofList (name.toList.map fun c => if c = '\\' then '_' else c)

structure Key where
  text : String
  deriving DecidableEq, Repr, Inhabited

namespace Key

/-- The binding name that stands for any name. -/
def anyName : String := "*"

/-- Parameters of this interface receive the point they are supplied at. -/
def pointInterface : String := "InjectionPointInterface"

/-- The interface under which an injector hands out itself. -/
def injectorInterface : String := "InjectorInterface"

def of (interface name : String) : Key := ⟨interface ++ "-" ++ name⟩

def any (interface : String) : Key := of interface anyName

/-- The literal that holds the script directory. -/
def scriptDir : Key := of "" "ScriptDir"

/-- The literal that switches to compiled scripts. -/
def compileSwitch : Key := of "" "Compile"

/-- Everything before the last hyphen, or all of the text if it has none. -/
def interface (key : Key) : String :=
  match splitLast '-' key.text.toList with
  | some (before, _) => String.ofList before
  | none => key.text

/-- Everything after the last hyphen. -/
def name (key : Key) : String :=
  match splitLast '-' key.text.toList with
  | some (_, after) => String.ofList after
  | none => ""

def isAny (key : Key) : Bool := key.name == anyName

def stem (key : Key) : String := fileStem key.text

/-- Keys in the order of their characters. -/
def before (a b : Key) : Bool := decide (a.text ≤ b.text)

end Key

structure Parameter where
  className : String
  method : String
  name : String
  deriving DecidableEq, Repr, Inhabited

namespace Parameter

def display (p : Parameter) : String :=
  p.className ++ "::" ++ p.method ++ "($" ++ p.name ++ ")"

/-- The name of the file that holds the qualifier of the parameter. -/
def fileName (p : Parameter) : String :=
  fileStem p.className ++ "-" ++ p.method ++ "-" ++ p.name ++ ".json"

end Parameter
end Wiring
