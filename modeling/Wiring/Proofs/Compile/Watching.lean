import Mathlib
import Wiring.Proofs.Compile.Linking
import Wiring.Proofs.Compile.Naming
import Wiring.Proofs.Files.Endings
import Wiring.Proofs.Value.Sealing

/-!
# A key that is watched

The instances of a prototype are distinct as long as none of them is kept. An instance is kept
if a unit of the key says that it is shared, or if some unit pulls the key as a singleton. So
what is written of units, scopes and pointcuts must not say so, and neither must graphs and
classes. What this comes to is a property of each binding, class and file, which is shown of
what is there in the beginning and kept from then on.
-/
namespace Wiring

open Script (isNameText)

/-- A key that is watched, and what there may be around it. -/
structure Watch where
  key : Key
  /-- The graphs bind the key. -/
  bound : Prop
  /-- The directory in which units are saved, if they are. -/
  dir? : Option String
  /-- How classes may be declared, generated ones included. -/
  declared : String → ClassDecl → Prop
  /-- The classes that may be generated. -/
  generated : String → Prop
  /-- The keys that may get a unit. -/
  used : Key → Prop
  /-- A graph has been saved in the directory, and may be read from there. -/
  recorded : Prop
  toClass : ∀ c : GeneratedClass, generated c.name → declared c.name c.toClass
  unshared : bound ∨ ∀ c, declared key.interface c → c.shared = false
  named : ∀ name c, declared name c → dir?.isSome = true → isNameText name = true
  inferred : ∀ name c, declared name c → used (.any name)
  injector : used (.any Key.injectorInterface)
  scriptDir : used Key.scriptDir
  notScriptDir : key ≠ Key.scriptDir
  notInjector : bound ∨ key ≠ .any Key.injectorInterface
  /-- A key that is not bound can only get a unit if it asks for any name. -/
  isAny : bound ∨ key = .any key.interface
  /-- No other key shares the file of its unit. -/
  alone : ∀ dir, dir? = some dir → ∀ other, used other →
    Path.ofText (Layout.unitPath dir other) = Path.ofText (Layout.unitPath dir key) → other = key
  /-- Nor that of its scope, which is only read where the key is not bound. -/
  scopeAlone : bound ∨ ∀ dir, dir? = some dir → ∀ other, used other →
    Path.ofText (Layout.metaPath dir other) = Path.ofText (Layout.metaPath dir key) → other = key

namespace Watch

variable (W : Watch) (σ : Seal)

section Fitting

/-- Where units are saved, this reads as one name in their text. -/
def Named (name : String) : Prop := W.dir?.isSome = true → isNameText name = true

/-- The names in the value are such names, as long as what is sealed stays as it is. -/
def Plain (v : Value) : Prop := ∀ h, σ.Holds h → (h.unfold v).Mentions W.Named

/-- No interceptor is an instance of the key. -/
def Spares (advice : Table String (List String)) : Prop :=
  Weave.Among (fun i => Key.any i ≠ W.key) advice

structure ArgumentFits (a : Argument Value) : Prop where
  parameter : W.Named a.parameter.name
  fallback : ∀ v, a.fallback = some v → W.Plain σ v

structure PlanFits (plan : Plan Value) : Prop where
  names : ∀ name ∈ plan.names, W.Named name
  arguments : ∀ a ∈ plan.allArguments, W.ArgumentFits σ a

inductive BindingFits : Binding Value → Prop where
  | literal {v : Value} (h : W.Plain σ v) : BindingFits (.literal v)
  | construction {plan : Plan Value} (h : W.PlanFits σ plan) (ha : W.Spares plan.advice) :
      BindingFits (.construction plan)
  | provider {plan : Plan Value} (h : W.PlanFits σ plan) (shared : Bool)
      (context : Option String) : BindingFits (.provider plan shared context)
  | nullObject {interface : String} (h : W.generated (interface ++ "Null")) :
      BindingFits (.nullObject interface)

/-- A class is constructed for each instance of the key. -/
def Anew (b : Binding Value) : Prop := ∃ plan, b = .construction plan ∧ plan.shared = false

structure GraphFits (g : Graph) : Prop where
  rows : ∀ row ∈ g.bindings, W.BindingFits σ row.2
  interceptors : ∀ p ∈ g.pointcuts, ∀ i ∈ p.interceptors, Key.any i ≠ W.key
  bound : W.bound → g.has W.key = true
  own : ∀ row ∈ g.bindings, row.1 = W.key → Anew row.2
  used : ∀ key, g.has key = true → W.used key

structure ClassFits (name : String) (c : ClassDecl) : Prop where
  declared : W.declared name c
  plan : W.PlanFits σ (.ofDecl name c)

end Fitting

section Units

/-- The statements run as a delivery that does not pull the key as a singleton. If they are
those of the key, an object is made that is not shared. -/
def Runs (own : Prop) (statements : List Script.Statement) : Prop :=
  ∃ d : Delivery,
    (∀ (s : Script.Surroundings (StateM World)) (unit : String),
      Script.runUnit s unit statements = d.perform s unit) ∧
    (∀ p ∈ d.supplied ++ d.intercepted, p ≠ ⟨true,W.key⟩) ∧
    (own → ∃ assembly advice, d = .made assembly advice false)

structure CodeFits (own : Prop) (code : Code) : Prop where
  runs : W.Runs own code.statements
  text : W.dir?.isSome = true → ∀ file statements,
    Script.parseUnit file code.source = .ok statements → W.Runs own statements
  shared : own → code.shared = false
  qualifiers : ∀ q ∈ code.qualifiers, W.Named q.1.name

/-- Wherever the graph is read from its saved form, it fits. Its values are sealed then. -/
def Restores (tree : Container Tree) : Prop :=
  ∀ (σ : Seal) (h : Heap), σ.Holds h →
    W.GraphFits (σ.widen h (tree.build h).2) (tree.build h).1

open Wiring.Path (EndsIn ofText) in
/-- What the text of a file may say; of other files than these it may say anything. -/
structure FileFits (path : Path) (text : String) : Prop where
  generated : EndsIn path ".class.json".toList → ∀ c,
    (Json.read? text).bind GeneratedClass.ofJson? = some c → W.generated c.name
  unit : EndsIn path ".di".toList → ∀ dir, W.dir? = some dir → ∀ file statements,
    Script.parseUnit file text = .ok statements →
      W.Runs (path = ofText (Layout.unitPath dir W.key)) statements
  scope : ¬W.bound → ∀ dir, W.dir? = some dir → path = ofText (Layout.metaPath dir W.key) →
    (Json.read? text).bind Save.scopeOfJson? ≠ some true
  pointcuts : ∀ dir, W.dir? = some dir → path = ofText (Layout.pointcutsPath dir) → ∀ ps,
    (Json.read? text).bind (Json.asList Pointcut.ofJson?) = some ps →
      ∀ p ∈ ps, ∀ i ∈ p.interceptors, Key.any i ≠ W.key
  graph : W.recorded → ∀ dir, W.dir? = some dir → path = ofText (Layout.modulePath dir) →
    ∀ tree, (Json.read? text).bind Container.ofJson? = some tree → W.Restores tree

variable {W} {own other : Prop} {statements : List Script.Statement}

theorem Runs.mono (h : W.Runs own statements) (himp : other → own) : W.Runs other statements := by
  obtain ⟨d,hruns,hpulls,hown⟩ := h
  exact ⟨d,hruns,hpulls,fun h => hown (himp h)⟩

end Units

section Sealing

variable {W} {σ τ : Seal}

theorem Plain.within {v : Value} (h : W.Plain σ v) (hw : σ.Within τ) : W.Plain τ v :=
  fun heap hτ => h heap (hw heap hτ)

theorem ArgumentFits.within {a : Argument Value} (h : W.ArgumentFits σ a) (hw : σ.Within τ) :
    W.ArgumentFits τ a := ⟨h.parameter,fun v hv => (h.fallback v hv).within hw⟩

theorem PlanFits.within {plan : Plan Value} (h : W.PlanFits σ plan) (hw : σ.Within τ) :
    W.PlanFits τ plan := ⟨h.names,fun a ha => (h.arguments a ha).within hw⟩

theorem BindingFits.within {b : Binding Value} (h : W.BindingFits σ b) (hw : σ.Within τ) :
    W.BindingFits τ b := by
  cases h with
  | literal h => exact .literal (h.within hw)
  | construction h ha => exact .construction (h.within hw) ha
  | provider h shared context => exact .provider (h.within hw) shared context
  | nullObject h => exact .nullObject h

theorem GraphFits.within {g : Graph} (h : W.GraphFits σ g) (hw : σ.Within τ) :
    W.GraphFits τ g where
  rows row hrow := (h.rows row hrow).within hw
  interceptors := h.interceptors
  bound := h.bound
  own := h.own
  used := h.used

theorem ClassFits.within {name : String} {c : ClassDecl} (h : W.ClassFits σ name c)
    (hw : σ.Within τ) : W.ClassFits τ name c := ⟨h.declared,h.plan.within hw⟩

theorem GraphFits.get {g : Graph} (h : W.GraphFits σ g) {key : Key} {b : Binding Value}
    (hb : g.get? key = some b) : W.BindingFits σ b := h.rows _ (Table.mem_of_find? hb)

theorem GraphFits.get_own {g : Graph} (h : W.GraphFits σ g) {b : Binding Value}
    (hb : g.get? W.key = some b) : Anew b := h.own _ (Table.mem_of_find? hb) rfl

/-- A value whose tree has no natives in it is plain. -/
theorem plain_of_tree {v : Value} {t : Tree} (ht : t.sourceTypes = [])
    (hv : ∀ h : Heap, h.unfold v = t) : W.Plain σ v := by
  intro h _ name hname
  rw [hv h,ht] at hname
  cases hname

end Sealing
end Watch
end Wiring
