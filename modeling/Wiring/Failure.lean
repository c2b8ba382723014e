/-!
# What can go wrong

A failure is a cause with the names it concerns; `Failure.message` words it. Two causes
have no words of their own here: a text that is not the JSON it should be, and running
out of fuel, which only requests that go round in circles can do.
-/
namespace Wiring

/-- Why a text is not a script. -/
inductive SyntaxFault where
  | unexpectedEnd
  | badToken (message : String)
  | unexpectedToken (text : String)
  | characterExpected (c : Char) (found : String)
  | identifierExpected (found : String)
  | assignmentTarget
  | numberExpected
  | badNumber (text : String)
  | arrowExpected
  | arrayKey
  /-- The parser has run out of steps, which no text makes it do. -/
  | exhausted
  deriving DecidableEq, Repr

def SyntaxFault.message : SyntaxFault → String
  | unexpectedEnd => "Unexpected end of input"
  | badToken message => message
  | unexpectedToken text => "Unexpected token '" ++ text ++ "'"
  | characterExpected c found =>
      "Missing expected " ++ c.toString ++ " but found '" ++ found ++ "'"
  | identifierExpected found => "Expected identifier but found '" ++ found ++ "'"
  | assignmentTarget => "Invalid assignment target"
  | numberExpected => "Expected number after '-'"
  | badNumber text => "Invalid number '" ++ text ++ "'"
  | arrowExpected => "Expected '=>'"
  | arrayKey => "Array keys must be integer or string literals"
  | exhausted => "out of steps"

/-- Why a unit cannot go on. -/
inductive UnitFault where
  | undefinedVariable (name : String)
  | readOfNonObject (property type : String)
  | writeToNonObject (property type : String)
  | callOnNonObject (method type : String)
  | notCallable
  | undefinedFunction (name : String)
  | classNameExpected
  | textArgumentExpected (function : String) (position : Nat)
  | pointExpected (function : String)
  | badSnapshot (type : String)
  | noReturn
  | pairExpected
  | badScopeFlag (type : String)
  deriving DecidableEq, Repr

def UnitFault.message : UnitFault → String
  | undefinedVariable name => "undefined variable " ++ name
  | readOfNonObject property type => "property " ++ property ++ " read on non-object " ++ type
  | writeToNonObject property type => "property " ++ property ++ " written on non-object " ++ type
  | callOnNonObject method type => "method " ++ method ++ "() called on non-object " ++ type
  | notCallable => "expression is not callable"
  | undefinedFunction name => "call to undefined function " ++ name ++ "()"
  | classNameExpected => "new expects a class name"
  | textArgumentExpected function position =>
      function ++ "() expects a string argument #" ++ toString position
  | pointExpected function => function ++ "() expects an injection point triple"
  | badSnapshot type => "invalid snapshot of " ++ type ++ ": Invalid base 64 text"
  | noReturn => "unit has no return statement"
  | pairExpected => "unit must return (instance, is_singleton)"
  | badScopeFlag type => "scope flag must be a bool, got " ++ type

/-- Why a running program cannot go on. -/
inductive RunFault where
  | inUnit (unit : String) (fault : UnitFault)
  | notConcrete (className : String)
  | outsideProvider
  | moduleMissing
  | notPoint
  | notInjector
  | injectorGone
  | raised (message : String)
  deriving DecidableEq, Repr

def RunFault.message : RunFault → String
  | inUnit unit fault => unit ++ ": " ++ fault.message
  | notConcrete className => "Cannot instantiate abstract class or interface " ++ className
  | outsideProvider => "injection_point() called outside of a provider pull"
  | moduleMissing => "snapshot was taken with a lazy module, none given"
  | notPoint => "no injection point"
  | notInjector => "not an injector"
  | injectorGone => "injector gone"
  | raised message => message

inductive Failure where
  /-- Nothing is bound under the key and nothing can stand in for it. -/
  | unbound (key : String)
  | unboundBecause (key : String) (cause : Failure)
  /-- The key was never compiled, so its scope cannot be told. -/
  | notCompiled (key : String)
  | invalidInstance (type : String)
  | unsupportedBinding (kind : String)
  | notWritable (path : String)
  | setNotFound (interface : String)
  | classNotFound (className : String)
  | methodNotFound (className method : String)
  | badSyntax (file : String) (offset : Nat) (fault : SyntaxFault)
  | running (fault : RunFault)
  | unreadable (path : String)
  | malformed
  | exhausted
  deriving DecidableEq, Repr

namespace Failure

def message : Failure → String
  | unbound key => "Unbound: " ++ key
  | unboundBecause key _ => "Unbound: " ++ key
  | notCompiled key => "Not compiled: " ++ key
  | invalidInstance type =>
      "Invalid instance: " ++ type ++ " cannot be represented in compiled code"
  | unsupportedBinding kind => "Unsupported binding: " ++ kind
  | notWritable path => "File not writable: " ++ path
  | setNotFound interface => "Set not found: " ++ interface
  | classNotFound className => "Class not found: " ++ className
  | methodNotFound className method => "Method not found: " ++ className ++ "::" ++ method ++ "()"
  | badSyntax file offset fault =>
      "Syntax error in " ++ file ++ " at offset " ++ toString offset ++ ": " ++ fault.message
  | running fault => "Runtime error: " ++ fault.message
  | unreadable path => "I/O error on " ++ path
  | malformed => "malformed JSON"
  | exhausted => "out of fuel"

/-- A default may stand in, or an optional setter be left out, only for these. -/
def isUnbound : Failure → Bool
  | unbound _ => true
  | unboundBecause _ _ => true
  | notCompiled _ => true
  | _ => false

end Failure
end Wiring
