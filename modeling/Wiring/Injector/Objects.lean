import Wiring.Injector.World

/-!
# Objects and their methods

A new object holds the arguments of its constructor as properties of the same names; a
missing argument is the default of its parameter or null. Then the constructor's own
method runs, if the class or an ancestor has one. A method without a body may still be a
declared setter, which stores its arguments, or the hook, which does nothing.
-/
namespace Wiring.Objects

/-- Answers what an injector gives for a key. -/
abbrev Ask := InjectorId → Key → Act Value

def property (ref : ObjectRef) (name : String) : Act (Option Value) := do
  return (← Act.heap).property? ref name

def setProperty (ref : ObjectRef) (name : String) (value : Value) : Act Unit :=
  Act.onSite (Work.onHeap fun h => ((), h.setProperty ref name value))

def newObject (className : String) (properties : Table String Value) : Act ObjectRef :=
  Act.onSite (Work.onHeap (·.newObject className properties))

/-- One part of an injection point; a point without a qualifier has null there. -/
def pointPart (value : Value) (part : PointPart) : Act Value := do
  let heap ← Act.heap
  let native :=
    match value with
    | .native ref => heap.native? ref
    | _ => none
  match native with
  | some (.point p qualifier) =>
      return match part with
        | .className => .text p.className
        | .method => .text p.method
        | .parameter => .text p.name
        | .qualifier => qualifier.getD .null
  | _ => throw (.running .notPoint)

/-- What the injector behind a handle gives for a key. -/
def askHandle (ask : Ask) (value : Value) (key : Key) : Act Value := do
  match value with
  | .injector (some id) =>
      if (← get).lives id then ask id key else throw (.running .injectorGone)
  | .injector none => throw (.running .injectorGone)
  | _ => throw (.running .notInjector)

mutual

/-- What a term gives in a method of an object called with some arguments. -/
def evalTerm (ask : Ask) (self : ObjectRef) (arguments : List Value) : Term → Act Value
  | .fresh tree => Act.onSite (Work.build none tree)
  | .argument index => return (arguments[index]?).getD .null
  | .property name => do return (← property self name).getD .null
  | .self => return .object self
  | .list items => do return .list (← evalTerms ask self arguments items)
  | .object className properties => do
      let rows ← evalRows ask self arguments properties
      return .object (← newObject className (Table.ofRows rows))
  | .point term part => do pointPart (← evalTerm ask self arguments term) part
  | .ask term interface name => do
      askHandle ask (← evalTerm ask self arguments term) (.of interface name)

def evalTerms (ask : Ask) (self : ObjectRef) (arguments : List Value) :
    List Term → Act (List Value)
  | [] => return []
  | term :: rest => do
      let value ← evalTerm ask self arguments term
      let values ← evalTerms ask self arguments rest
      return value :: values

def evalRows (ask : Ask) (self : ObjectRef) (arguments : List Value) :
    List (String × Term) → Act (List (String × Value))
  | [] => return []
  | (name, term) :: rest => do
      let value ← evalTerm ask self arguments term
      let rows ← evalRows ask self arguments rest
      return (name, value) :: rows

end

/-- Runs commands up to the first that yields; none gives null. -/
def runBody (ask : Ask) (self : ObjectRef) (arguments : List Value) : Body → Act Value
  | [] => return .null
  | .set name term :: rest => do
      setProperty self name (← evalTerm ask self arguments term)
      runBody ask self arguments rest
  | .yield term :: _ => evalTerm ask self arguments term
  | .fail message :: _ => throw (.running (.raised message))

/-- The properties a constructor call stores. -/
def storedArguments (parameters : List ParameterDecl) (arguments : List Value) :
    Table String Value :=
  Table.ofRows (parameters.mapIdx fun i p =>
    (p.name, (arguments[i]?).getD (p.fallback.getD .null)))

def construct (ask : Ask) (className : String) (arguments : List Value) : Act ObjectRef := do
  let c ← Act.onSite (Classes.find className)
  if c.isConcrete then
    let ref ← newObject className (storedArguments c.parameters arguments)
    match ← Act.onSite (Classes.body? c ClassDecl.constructorName) with
    | some body =>
        let _ ← runBody ask ref arguments body
        return ref
    | none => return ref
  else throw (.running (.notConcrete className))

/-- Stores the arguments of a setter, as many as there are on both sides. -/
def assign (self : ObjectRef) : List ParameterDecl → List Value → Act Unit
  | p :: ps, value :: values => do
      setProperty self p.name value
      assign self ps values
  | _, _ => return

def invoke (ask : Ask) (self : ObjectRef) (method : String) (arguments : List Value) :
    Act Value := do
  let c ← Act.onSite (Classes.find self.className)
  match ← Act.onSite (Classes.body? c method) with
  | some body => runBody ask self arguments body
  | none =>
      match ← Act.onSite (Classes.setter? c method) with
      | some setter =>
          assign self setter.parameters arguments
          return .null
      | none =>
          if c.postConstruct = some method then return .null
          else throw (.methodNotFound self.className method)

end Wiring.Objects
