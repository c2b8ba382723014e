import Mathlib
import Wiring.Compile.Unit
import Wiring.Proofs.Script.Calls

/-!
# Deliveries

What a unit stands for, without source or variables: the values that are supplied, the
object they are supplied to, the calls on it and what is handed out in the end, each an
ask of the surroundings in its turn. A unit is written for a delivery if its statements are
the source of these parts.
-/
namespace Wiring

open Script (Expr Statement Surroundings fault pulled)

/-- An element of a map. -/
inductive Element where
  | literal (tree : Tree)
  | pull (shared : Bool) (key : Key)

/-- Where the value of an argument comes from. -/
inductive Supply where
  | literal (tree : Tree)
  | point
  | map (elements : List (ArrayKey × Element))
  /-- The instance of a key; a provider is told the parameter it supplies. -/
  | pull (shared : Bool) (key : Key) (parameter : Option Parameter)

/-- An object, what its constructor and its setters are supplied with, and the hook that is
called on it. -/
structure Assembly where
  className : String
  arguments : List Supply
  setters : List (String × List Supply)
  hook : Option String

/-- What the unit of a binding hands out. -/
inductive Delivery where
  | literal (tree : Tree)
  | made (assembly : Assembly) (advice : Table String (List String)) (shared : Bool)
  | provided (assembly : Assembly) (context : Option String) (shared : Bool)

section Performing

variable {m : Type → Type} [Monad m]

namespace Tree

mutual

/-- A value of this shape. Scalars and arrays are there by themselves, everything else is
made by the surroundings. -/
def remake (s : Surroundings m) : Tree → ExceptT Failure m Value
  | null => return .null
  | bool b => return .bool b
  | int i => return .int i
  | float x => return .float x
  | text t => return .text t
  | array ⟨entries,_⟩ => do return .array (.ofEntries (← remakeEntries s entries))
  | object className properties => do
      s.restore className (.ofRows (← remakeProperties s properties))
  | blob typeName bytes => s.decode typeName bytes
  | foreign typeName none => throw (.invalidInstance typeName)
  | foreign typeName (some source) => do s.construct typeName [← remake s source]
  | injector => s.injector

def remakeEntries (s : Surroundings m) :
    List (ArrayKey × Tree) → ExceptT Failure m (List (ArrayKey × Value))
  | [] => return []
  | (key,tree) :: rest => do
      let value ← remake s tree
      let values ← remakeEntries s rest
      return (key,value) :: values

def remakeProperties (s : Surroundings m) :
    List (String × Tree) → ExceptT Failure m (List (String × Value))
  | [] => return []
  | (name,tree) :: rest => do
      let value ← remake s tree
      let values ← remakeProperties s rest
      return (name,value) :: values

end

end Tree

def Element.perform (s : Surroundings m) : Element → ExceptT Failure m Value
  | literal tree => tree.remake s
  | pull shared key => pulled s shared key none

def Supply.perform (s : Surroundings m) : Supply → ExceptT Failure m Value
  | literal tree => tree.remake s
  | point => s.injectionPoint
  | map elements => do
      let entries ← elements.mapM fun e => do return (e.1,← e.2.perform s)
      return .array (.ofEntries entries)
  | pull shared key parameter => pulled s shared key parameter

/-- A call on what was constructed, which is a fault of the unit unless that is an object. -/
def invoked (s : Surroundings m) (unit : String) (made : Value) (method : String)
    (values : List Value) : ExceptT Failure m Value :=
  match made with
  | .object ref => s.invoke ref method values
  | other => throw (fault unit (.callOnNonObject method other.typeName))

def supplied (s : Surroundings m) (supplies : List Supply) : ExceptT Failure m (List Value) :=
  supplies.mapM (·.perform s)

/-- Calls on what was constructed, each supplied with its arguments first. -/
def called (s : Surroundings m) (unit : String) (made : Value)
    (calls : List (String × List Supply)) : ExceptT Failure m Unit :=
  forM calls fun call => do
    let _ ← invoked s unit made call.1 (← supplied s call.2)

def Assembly.perform (s : Surroundings m) (unit : String) (a : Assembly) :
    ExceptT Failure m Value := do
  let made ← s.construct a.className (← supplied s a.arguments)
  called s unit made a.setters
  called s unit made (a.hook.toList.map fun method => (method,[]))
  return made

/-- The shared instances of interceptors. -/
def interceptors (s : Surroundings m) (classNames : List String) : ExceptT Failure m Value := do
  return .list (← classNames.mapM fun c => s.singleton (.any c) none)

def stored (s : Surroundings m) (unit : String) (made : Value) (property : String)
    (value : Value) : ExceptT Failure m Unit :=
  match made with
  | .object ref => s.setProperty ref property value
  | other => throw (fault unit (.writeToNonObject property other.typeName))

/-- The interceptors are pulled method by method and then stored under one property. -/
def advise (s : Surroundings m) (unit : String) (made : Value)
    (advice : Table String (List String)) : ExceptT Failure m Unit := do
  let entries ← advice.mapM fun a => do return (ArrayKey.text a.1,← interceptors s a.2)
  stored s unit made "bindings" (.array (.ofEntries entries))

def Delivery.perform (s : Surroundings m) (unit : String) :
    Delivery → ExceptT Failure m (Value × Bool)
  | literal tree => do return (← tree.remake s,false)
  | made assembly advice shared => do
      let made ← assembly.perform s unit
      if !advice.isEmpty then advise s unit made advice
      return (made,shared)
  | provided assembly context shared => do
      let provider ← assembly.perform s unit
      called s unit provider (context.toList.map fun text => ("setContext",[.literal (.text text)]))
      return (← invoked s unit provider "get" [],shared)

end Performing

/-- The expression is the source of the element. -/
inductive Element.Written : Element → Expr → Prop where
  | literal {tree : Tree} {e : Expr} (h : tree.toExpr = .ok e) : Written (.literal tree) e
  | pull (shared : Bool) (key : Key) : Written (.pull shared key) (Compile.pull shared key)

/-- The expression is the source of what is supplied. -/
inductive Supply.Written : Supply → Expr → Prop where
  | literal {tree : Tree} {e : Expr} (h : tree.toExpr = .ok e) : Written (.literal tree) e
  | point : Written .point (.callFunction "injection_point" [])
  | map {elements : List (ArrayKey × Element)} {entries : List (ArrayKey × Expr)}
      (h : List.Forall₂ (fun x e => e.1 = x.1 ∧ x.2.Written e.2) elements entries) :
      Written (.map elements) (.keyed entries)
  | pull (shared : Bool) (key : Key) : Written (.pull shared key none) (Compile.pull shared key)
  | pullAt (shared : Bool) (key : Key) (p : Parameter) :
      Written (.pull shared key (some p)) (Compile.pullAt shared key p)

/-- A statement that calls a method on the instance. -/
def calls (method : String) (es : List Expr) : Statement :=
  .expr (.callMethod Compile.instanceVar method es)

/-- The statement calls the setter with what is supplied to it. -/
def CallWritten (call : String × List Supply) (statement : Statement) : Prop :=
  ∃ es, List.Forall₂ Supply.Written call.2 es ∧ statement = calls call.1 es

/-- The statements make the object, call its setters and its hook. -/
inductive Assembly.Written (a : Assembly) : List Statement → Prop where
  | intro {es : List Expr} {setters : List Statement}
      (hes : List.Forall₂ Supply.Written a.arguments es)
      (hsetters : List.Forall₂ CallWritten a.setters setters) :
      Written a (.expr (.assign Compile.instanceName (.construct a.className es)) ::
        setters ++ a.hook.toList.map (calls · []))

/-- The statement stores the interceptors of each method. -/
def adviceStatement (advice : Table String (List String)) : Statement :=
  .expr (.setProp Compile.instanceVar "bindings"
    (.keyed (advice.map fun a => (.text a.1,.list (a.2.map fun c => Compile.pull true (.any c))))))

/-- The statements are a unit that hands out the delivery. -/
inductive Delivery.Written : Delivery → List Statement → Prop where
  | literal {tree : Tree} {e : Expr} (h : tree.toExpr = .ok e) :
      Written (.literal tree) [.yieldPair e false]
  | made {assembly : Assembly} {statements : List Statement}
      (h : assembly.Written statements) (advice : Table String (List String)) (shared : Bool) :
      Written (.made assembly advice shared) (.namespaced Compile.unitNamespace :: statements ++
        (if advice.isEmpty then [] else [adviceStatement advice]) ++
        [.yieldPair Compile.instanceVar shared])
  | provided {assembly : Assembly} {statements : List Statement}
      (h : assembly.Written statements) (context : Option String) (shared : Bool) :
      Written (.provided assembly context shared) (.namespaced Compile.unitNamespace :: statements ++
        context.toList.map (fun text => calls "setContext" [.text text]) ++
        [.yieldPair (.callMethod Compile.instanceVar "get" []) shared])

end Wiring
