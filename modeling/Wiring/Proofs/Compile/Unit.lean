import Mathlib
import Wiring.Compile.Unit
import Wiring.Proofs.Compile.Source
import Wiring.Proofs.Graph.Values
import Wiring.Proofs.Script.UnitName
import Wiring.Proofs.Site

/-!
# Saved units run like compiled ones

A unit mentions the names of its class, of the methods it calls and of the native types
that it makes from a source. If these are names, then the text of the unit is read back up
to empty arrays with keys, so a run of what is read asks the same and answers the same.
-/
namespace Wiring

open Script (Expr Statement isNameText NameBlind told)

namespace Script

namespace Expr

mutual

/-- The properties, methods and classes that an expression mentions. -/
def names : Expr → List String
  | var _ | literal _ => []
  | assign _ value => names value
  | prop receiver name => names receiver ++ [name]
  | setProp receiver name value => names receiver ++ name :: names value
  | call callee arguments => names callee ++ allNames arguments
  | new className arguments => names className ++ allNames arguments
  | list items => allNames items
  | keyed entries => entriesNames entries
  | classRef name => [name]
  | tuple parts => allNames parts

def allNames : List Expr → List String
  | [] => []
  | e :: rest => names e ++ allNames rest

def entriesNames : List (ArrayKey × Expr) → List String
  | [] => []
  | (_,e) :: rest => names e ++ entriesNames rest

end

theorem mem_allNames {es : List Expr} {name : String} :
    name ∈ allNames es ↔ ∃ e ∈ es, name ∈ e.names := by
  induction es with
  | nil => simp [allNames]
  | cons e rest ih => simp [allNames,ih]

theorem mem_entriesNames {es : List (ArrayKey × Expr)} {name : String} :
    name ∈ entriesNames es ↔ ∃ e ∈ es, name ∈ e.2.names := by
  induction es with
  | nil => simp [entriesNames]
  | cons e rest ih => simp [entriesNames,ih]

theorem allNames_snd (es : List (ArrayKey × Expr)) :
    allNames (es.map Prod.snd) = entriesNames es := by
  induction es with
  | nil => rfl
  | cons e rest ih => simp only [List.map_cons,allNames,entriesNames,ih]

end Expr

/-- The names that a statement mentions, its namespace left out. -/
def Statement.names : Statement → List String
  | namespaced _ => []
  | expr e => e.names
  | yield e => e.names

end Script

/-- The names of the class, of the setters and of the hook. -/
def Plan.names {ν : Type} (p : Plan ν) : List String :=
  p.className :: (p.setters.map SetterCall.method ++ p.postConstruct.toList)

namespace Binding

variable {ν : Type}

/-- The names that the unit of a binding mentions, but for those in values. -/
def names : Binding ν → List String
  | construction plan => "bindings" :: plan.names
  | provider plan _ _ => "setContext" :: "get" :: plan.names
  | _ => []

end Binding

def Code.names (c : Code) : List String := c.statements.flatMap Statement.names

namespace Tree

/-- The types of the natives that are made again from a source, depth first. -/
def sourceTypes (t : Tree) : List String := t.nodes.filterMap sourceType?

mutual

/-- The source of a tree mentions the types of the natives it makes, and nothing else. -/
theorem names_toExpr : ∀ (t : Tree) (e : Expr), t.toExpr = .ok e → e.names = t.sourceTypes
  | null, e, h | bool _, e, h | int _, e, h | float _, e, h | text _, e, h | injector, e, h
  | blob _ _, e, h => by
    simp only [toExpr,Except.ok.injEq] at h
    subst h
    rfl
  | array ⟨entries,next⟩, e, h => by
    simp only [toExpr] at h
    obtain ⟨items,hitems,h⟩ := bind_eq_ok.mp h
    have hn := names_entriesToExpr entries items hitems
    simp only [pure_ok,Except.ok.injEq] at h
    subst h
    split
    · simp only [Expr.names,Expr.allNames_snd,hn,sourceTypes,nodes]
      rfl
    · simp only [Expr.names,hn,sourceTypes,nodes]
      rfl
  | object className properties, e, h => by
    simp only [toExpr] at h
    obtain ⟨items,hitems,h⟩ := bind_eq_ok.mp h
    have hn := names_propertiesToExpr properties items hitems
    simp only [pure_ok,Except.ok.injEq] at h
    subst h
    simp only [Expr.callFunction,Expr.text,Expr.names,Expr.allNames,hn,sourceTypes,nodes,
      List.nil_append,List.append_nil]
    rfl
  | foreign typeName none, e, h => by
    simp only [toExpr] at h
    cases h
  | foreign typeName (some source), e, h => by
    simp only [toExpr] at h
    obtain ⟨argument,hargument,h⟩ := bind_eq_ok.mp h
    have hn := names_toExpr source argument hargument
    simp only [pure_ok,Except.ok.injEq] at h
    subst h
    simp only [Expr.construct,Expr.names,Expr.allNames,hn,sourceTypes,nodes,List.append_nil]
    rfl

theorem names_entriesToExpr : ∀ (entries : List (ArrayKey × Tree)) (es : List (ArrayKey × Expr)),
    entriesToExpr entries = .ok es →
    Expr.entriesNames es = (entriesNodes entries).filterMap sourceType?
  | [], es, h => by
    simp only [entriesToExpr,Except.ok.injEq] at h
    subst h
    rfl
  | (key,t) :: rest, es, h => by
    simp only [entriesToExpr] at h
    obtain ⟨first,hfirst,h⟩ := bind_eq_ok.mp h
    obtain ⟨more,hmore,h⟩ := bind_eq_ok.mp h
    simp only [pure_ok,Except.ok.injEq] at h
    subst h
    simp only [Expr.entriesNames,entriesNodes,List.filterMap_append,
      names_entriesToExpr rest more hmore,names_toExpr t first hfirst]
    rfl

theorem names_propertiesToExpr : ∀ (properties : List (String × Tree))
    (es : List (ArrayKey × Expr)), propertiesToExpr properties = .ok es →
    Expr.entriesNames es = (propertiesNodes properties).filterMap sourceType?
  | [], es, h => by
    simp only [propertiesToExpr,Except.ok.injEq] at h
    subst h
    rfl
  | (name,t) :: rest, es, h => by
    simp only [propertiesToExpr] at h
    obtain ⟨first,hfirst,h⟩ := bind_eq_ok.mp h
    obtain ⟨more,hmore,h⟩ := bind_eq_ok.mp h
    simp only [pure_ok,Except.ok.injEq] at h
    subst h
    simp only [Expr.entriesNames,propertiesNodes,List.filterMap_append,
      names_propertiesToExpr rest more hmore,names_toExpr t first hfirst]
    rfl

end
end Tree

theorem Tree.sourcesNamed_of_sourceTypes {t : Tree}
    (h : ∀ name ∈ t.sourceTypes, isNameText name = true) : SourcesNamed t.nodes :=
  fun u hu name hname => h name (List.mem_filterMap.mpr ⟨u,hu,hname⟩)

namespace Script.Expr

/-- All names that an expression mentions are of some origin, and if they are names, its
text is read back up to empty arrays with keys. -/
structure Saved (origin : String → Prop) (e : Expr) : Prop where
  names : ∀ name ∈ e.names, origin name
  printable : (∀ name ∈ e.names, isNameText name = true) → e.reparsed.printable = true

namespace Saved

variable {origin other : String → Prop} {e : Expr} {es : List Expr} {name : String}

theorem imp (h : e.Saved origin) (ho : ∀ name, origin name → other name) : e.Saved other where
  names name hname := ho name (h.names name hname)
  printable := h.printable

theorem var (h : isVariableText name = true) : (Expr.var name).Saved origin where
  names _ hname := by cases hname
  printable _ := h

theorem text (s : String) : (Expr.text s).Saved origin where
  names _ hname := by cases hname
  printable _ := rfl

/-- What is shown of every part holds of all parts. -/
theorem all_printable (h : ∀ e ∈ es, e.Saved origin)
    (hn : ∀ name ∈ allNames es, isNameText name = true) : ∀ e ∈ es, e.reparsed.printable = true :=
  fun e he => (h e he).printable fun name hname => hn name (mem_allNames.mpr ⟨e,he,hname⟩)

theorem all_names (h : ∀ e ∈ es, e.Saved origin) : ∀ name ∈ allNames es, origin name := by
  intro name hname
  obtain ⟨e,he,hname⟩ := mem_allNames.mp hname
  exact (h e he).names name hname

theorem list (h : ∀ e ∈ es, e.Saved origin) : (Expr.list es).Saved origin where
  names := all_names h
  printable hn := list_reparsed_printable (all_printable h hn)

theorem keyed {entries : List (ArrayKey × Expr)} (h : ∀ e ∈ entries, e.2.Saved origin) :
    (Expr.keyed entries).Saved origin where
  names name hname := by
    obtain ⟨e,he,hname⟩ := mem_entriesNames.mp hname
    exact (h e he).names name hname
  printable hn := keyed_reparsed_printable fun e he =>
    (h e he).printable fun name hname => hn name (mem_entriesNames.mpr ⟨e,he,hname⟩)

theorem callFunction (hname : isVariableText name = true) (h : ∀ e ∈ es, e.Saved origin) :
    (Expr.callFunction name es).Saved origin where
  names := all_names h
  printable hn := callFunction_reparsed_printable hname (all_printable h hn)

theorem construct (hname : origin name) (h : ∀ e ∈ es, e.Saved origin) :
    (Expr.construct name es).Saved origin where
  names := List.forall_mem_append.mpr ⟨List.forall_mem_singleton.mpr hname,all_names h⟩
  printable hn := by
    obtain ⟨hclass,harguments⟩ := List.forall_mem_append.mp hn
    exact construct_reparsed_printable (hclass name List.mem_cons_self) (all_printable h harguments)

/-- A call of a method of a variable. -/
theorem callMethod {variableName : String} (hv : isVariableText variableName = true)
    (hname : origin name) (h : ∀ e ∈ es, e.Saved origin) :
    (Expr.callMethod (.var variableName) name es).Saved origin where
  names := List.forall_mem_append.mpr ⟨List.forall_mem_singleton.mpr hname,all_names h⟩
  printable hn := by
    obtain ⟨hmethod,harguments⟩ := List.forall_mem_append.mp hn
    have hm := hmethod name List.mem_cons_self
    simp only [Expr.callMethod,reparsed,Expr.printable,isAssignment,endsInDigit,hv,hm,
      allPrintable_reparsed (all_printable h harguments),Bool.not_false,Bool.and_self]

theorem assign (hname : isVariableText name = true) (h : e.Saved origin) :
    (Expr.assign name e).Saved origin where
  names := h.names
  printable hn := by
    simp only [reparsed,Expr.printable,hname,h.printable hn,Bool.and_self]

theorem setProp {variableName : String} (hv : isVariableText variableName = true)
    (hname : origin name) (h : e.Saved origin) :
    (Expr.setProp (.var variableName) name e).Saved origin where
  names := List.forall_mem_cons.mpr ⟨hname,h.names⟩
  printable hn := by
    obtain ⟨hproperty,hvalue⟩ := List.forall_mem_cons.mp hn
    simp only [reparsed,Expr.printable,isAssignment,endsInDigit,hv,hproperty,h.printable hvalue,
      Bool.not_false,Bool.and_self]

end Saved
end Script.Expr

namespace Script.Statement

/-- The same of a statement. -/
structure Saved (origin : String → Prop) (s : Statement) : Prop where
  names : ∀ name ∈ s.names, origin name
  printable : (∀ name ∈ s.names, isNameText name = true) → s.reparsed.printable = true

namespace Saved

variable {origin other : String → Prop} {e : Expr}

theorem imp {s : Statement} (h : s.Saved origin) (ho : ∀ name, origin name → other name) :
    s.Saved other where
  names name hname := ho name (h.names name hname)
  printable := h.printable

theorem expr (h : e.Saved origin) : (Statement.expr e).Saved origin := ⟨h.names,h.printable⟩

theorem namespaced {name : String} (h : isNameText name = true) :
    (Statement.namespaced name).Saved origin where
  names _ hname := by cases hname
  printable _ := h

theorem yieldPair (h : e.Saved origin) (shared : Bool) :
    (Statement.yieldPair e shared).Saved origin where
  names name hname := by
    simp only [Statement.yieldPair,Statement.names,Expr.names,Expr.allNames,List.append_nil] at hname
    exact h.names name hname
  printable hn := by
    simp only [Statement.yieldPair,Statement.names,Expr.names,Expr.allNames,List.append_nil] at hn
    simp only [Statement.yieldPair,reparsed,Expr.reparsed,Expr.reparsedAll,Statement.printable,
      Expr.printable,Expr.allPrintable,h.printable hn]
    rfl

end Saved
end Script.Statement

namespace Compile

/-- The type of a native in one of the values, made again from a source. -/
def SourceType (values : Value → Prop) (name : String) : Prop :=
  ∃ h v, values v ∧ name ∈ (Heap.unfold h v).sourceTypes

section Values

variable {values : Value → Prop} {g : Graph} {scope : Option ScopeOf}

theorem sourceOf_saved {v : Value} (hv : values v) :
    (sourceOf v).Ensures fun e => e.Saved (SourceType values) := by
  refine (Work.Ensures.any _).bind fun h _ => ?_
  cases hs : h.source v with
  | error f => exact .throw f
  | ok e =>
    have hnames := Tree.names_toExpr _ e hs
    refine .pure ⟨fun name hname => ⟨h,v,hv,hnames ▸ hname⟩,fun hn => ?_⟩
    exact Tree.toExpr_printable _ e hs (Tree.sourcesNamed_of_sourceTypes (hnames ▸ hn))

theorem isVariableText_pullName (shared : Bool) : Script.isVariableText (pullName shared) = true := by
  cases shared <;> decide

theorem pull_saved (shared : Bool) (key : Key) {origin : String → Prop} :
    (pull shared key).Saved origin :=
  .callFunction (isVariableText_pullName shared) (List.forall_mem_singleton.mpr (.text _))

theorem pullAt_saved (shared : Bool) (key : Key) (p : Parameter) {origin : String → Prop} :
    (pullAt shared key p).Saved origin := by
  refine .callFunction (isVariableText_pullName shared) fun e he => ?_
  rcases List.mem_cons.mp he with rfl | he
  · exact .text _
  · obtain rfl := List.mem_singleton.mp he
    refine .list fun e he => ?_
    simp only [List.mem_cons,List.not_mem_nil,or_false] at he
    rcases he with rfl | rfl | rfl <;> exact .text _

theorem element_saved (hg : ∀ key v, g.get? key = some (.literal v) → values v) (key : Key) :
    (element g key).Ensures fun e => e.Saved (SourceType values) := by
  unfold element
  split
  next v h => exact sourceOf_saved (hg key v h)
  next => exact .pure (pull_saved _ _)
  next => exact .throw _

theorem mapOf_saved (hg : ∀ key v, g.get? key = some (.literal v) → values v) (interface : String) :
    (mapOf g interface).Ensures fun e => e.Saved (SourceType values) := by
  unfold mapOf
  split
  · exact .throw _
  · refine (Work.Ensures.mapM fun e _ => ?_).bind fun entries h => .pure (.keyed h)
    exact (element_saved hg e.2).bind fun saved h => .pure h

theorem outside_saved {a : Argument Value} (ha : ∀ v, a.fallback = some v → values v) :
    (outside scope a).Ensures fun e => e.Saved (SourceType values) := by
  refine (Work.Ensures.any _).bind fun shared _ => ?_
  split
  · exact .pure (pull_saved _ _)
  · split
    next v h => exact sourceOf_saved (ha v h)
    next => exact .throw _

theorem argument_saved (hg : ∀ key v, g.get? key = some (.literal v) → values v)
    {a : Argument Value} (ha : ∀ v, a.fallback = some v → values v) :
    (argument g scope a).Ensures fun answer => answer.1.Saved (SourceType values) := by
  unfold argument
  split
  · exact .pure (.callFunction (by decide) fun e he => by cases he)
  · split
    next interface h => exact (mapOf_saved hg interface).bind fun e he => .pure he
    next =>
      split
      next v h => exact (sourceOf_saved (hg _ v h)).bind fun e he => .pure he
      next => exact .pure (pullAt_saved _ _ _)
      next => exact .pure (pull_saved _ _)
      next => exact (outside_saved ha).bind fun e he => .pure he

theorem arguments_saved (hg : ∀ key v, g.get? key = some (.literal v) → values v)
    {as : List (Argument Value)} (ha : ∀ a ∈ as, ∀ v, a.fallback = some v → values v) :
    (arguments g scope as).Ensures fun answer => ∀ e ∈ answer.1, e.Saved (SourceType values) := by
  induction as with
  | nil => exact .pure fun e he => by cases he
  | cons a rest ih =>
    refine (argument_saved hg (ha a List.mem_cons_self)).bind fun first hfirst => ?_
    refine (ih fun a hm => ha a (List.mem_cons_of_mem _ hm)).bind fun more hmore => ?_
    exact .pure (List.forall_mem_cons.mpr ⟨hfirst,hmore⟩)

variable {origin : String → Prop}

theorem setter_saved (scope : Option ScopeOf) (hg : ∀ key v, g.get? key = some (.literal v) → values v)
    (ho : ∀ name, SourceType values name → origin name) {s : SetterCall Value}
    (hs : origin s.method) (ha : ∀ a ∈ s.arguments, ∀ v, a.fallback = some v → values v) :
    (setter g scope s).Ensures fun answer => ∀ t ∈ answer.1, t.Saved origin := by
  refine (arguments_saved hg ha).attempt.bind fun answer hanswer => ?_
  split
  next es kept =>
    refine .pure fun t ht => ?_
    obtain rfl := List.mem_singleton.mp ht
    exact .expr (.callMethod (by decide) hs fun e he => (hanswer _ rfl e he).imp ho)
  next =>
    split
    · exact .pure fun t ht => by cases ht
    · exact .throw _

theorem setters_saved (scope : Option ScopeOf) (hg : ∀ key v, g.get? key = some (.literal v) → values v)
    (ho : ∀ name, SourceType values name → origin name) (ss : List (SetterCall Value))
    (hs : ∀ s ∈ ss, origin s.method)
    (ha : ∀ s ∈ ss, ∀ a ∈ s.arguments, ∀ v, a.fallback = some v → values v) :
    (setters g scope ss).Ensures fun answer => ∀ t ∈ answer.1, t.Saved origin := by
  induction ss with
  | nil => exact .pure fun t ht => by cases ht
  | cons s rest ih =>
    have hfirst := setter_saved scope hg ho (hs s List.mem_cons_self)
      (ha s List.mem_cons_self)
    have hrest := ih (fun s hm => hs s (List.mem_cons_of_mem _ hm))
      fun s hm => ha s (List.mem_cons_of_mem _ hm)
    refine hfirst.bind fun call hcall => hrest.bind fun calls hcalls => .pure ?_
    exact List.forall_mem_append.mpr ⟨hcall,hcalls⟩

theorem factory_saved (scope : Option ScopeOf) (hg : ∀ key v, g.get? key = some (.literal v) → values v)
    (ho : ∀ name, SourceType values name → origin name) {plan : Plan Value}
    (hp : ∀ name ∈ plan.names, origin name)
    (ha : ∀ a ∈ plan.allArguments, ∀ v, a.fallback = some v → values v) :
    (factory g scope plan).Ensures fun answer => ∀ t ∈ answer.1, t.Saved origin := by
  obtain ⟨hclass,hp⟩ := List.forall_mem_cons.mp hp
  obtain ⟨hmethods,hhook⟩ := List.forall_mem_append.mp hp
  obtain ⟨hown,hsetters⟩ := List.forall_mem_append.mp ha
  refine (arguments_saved hg hown).bind fun made hmade => ?_
  have hcalls := setters_saved scope hg ho plan.setters
    (fun s hs => hmethods _ (List.mem_map_of_mem hs))
    fun s hs a hm => hsetters a (List.mem_flatMap.mpr ⟨s,hs,hm⟩)
  refine hcalls.bind fun calls hcalls => .pure ?_
  refine List.forall_mem_append.mpr ⟨List.forall_mem_cons.mpr ⟨?_,hcalls⟩,fun t ht => ?_⟩
  · exact .expr (.assign (by decide) (.construct hclass fun e he => (hmade e he).imp ho))
  · obtain ⟨method,hm,rfl⟩ := List.mem_map.mp ht
    exact .expr (.callMethod (by decide) (hhook method hm) fun e he => by cases he)

theorem advice_saved (plan : Plan Value) (hb : origin "bindings") :
    ∀ t ∈ advice plan, t.Saved origin := by
  intro t ht
  unfold advice at ht
  split at ht
  · cases ht
  · obtain rfl := List.mem_singleton.mp ht
    refine .expr (.setProp (by decide) hb (.keyed fun e he => ?_))
    obtain ⟨row,_,rfl⟩ := List.mem_map.mp he
    refine .list fun e he => ?_
    obtain ⟨interceptor,_,rfl⟩ := List.mem_map.mp he
    exact pull_saved _ _

end Values

/-- A value that the unit of a binding may hold: its own literal, a literal of the graph,
or the default of an argument. -/
inductive Holds (g : Graph) : Binding Value → Value → Prop where
  | own (v : Value) : Holds g (.literal v) v
  | bound {b : Binding Value} {key : Key} {v : Value} (h : g.get? key = some (.literal v)) :
      Holds g b v
  | fallback {b : Binding Value} {plan : Plan Value} {a : Argument Value} {v : Value}
      (hb : b.plan? = some plan) (ha : a ∈ plan.allArguments) (h : a.fallback = some v) : Holds g b v

/-- A name that the unit of a binding may mention. -/
def Mentions (g : Graph) (b : Binding Value) (name : String) : Prop :=
  name ∈ b.names ∨ SourceType (Holds g b) name

theorem unitOf_saved (g : Graph) (scope : Option ScopeOf) (b : Binding Value) :
    (unitOf g scope b).Ensures fun code => ∀ t ∈ code.statements, t.Saved (Mentions g b) := by
  have hg : ∀ key v, g.get? key = some (.literal v) → Holds g b v := fun key v h => .bound h
  have ho : ∀ name, SourceType (Holds g b) name → Mentions g b name := fun name h => .inr h
  cases b with
  | literal v =>
    have hsource := sourceOf_saved (Holds.own (g := g) v)
    refine hsource.bind fun e he => .pure fun t ht => ?_
    obtain rfl := List.mem_singleton.mp ht
    exact .yieldPair (he.imp ho) _
  | construction plan =>
    obtain ⟨hbindings,hplan⟩ := List.forall_mem_cons.mp
      (fun name h => Or.inl h : ∀ name ∈ (Binding.construction plan).names, Mentions g _ name)
    have hmade := factory_saved scope hg ho hplan fun a ha v h => .fallback rfl ha h
    refine hmade.bind fun made hmade => .pure ?_
    refine List.forall_mem_append.mpr ⟨List.forall_mem_append.mpr
      ⟨List.forall_mem_cons.mpr ⟨.namespaced (by decide),hmade⟩,advice_saved plan hbindings⟩,?_⟩
    exact List.forall_mem_singleton.mpr (.yieldPair (.var (by decide)) _)
  | provider plan shared context =>
    obtain ⟨hcontext,hnames⟩ := List.forall_mem_cons.mp
      (fun name h => Or.inl h : ∀ name ∈ (Binding.provider plan shared context).names,
        Mentions g _ name)
    obtain ⟨hget,hplan⟩ := List.forall_mem_cons.mp hnames
    have hmade := factory_saved scope hg ho hplan fun a ha v h => .fallback rfl ha h
    refine hmade.bind fun made hmade => .pure ?_
    refine List.forall_mem_append.mpr ⟨List.forall_mem_append.mpr
      ⟨List.forall_mem_cons.mpr ⟨.namespaced (by decide),hmade⟩,fun t ht => ?_⟩,?_⟩
    · obtain ⟨text,_,rfl⟩ := List.mem_map.mp ht
      exact .expr (.callMethod (by decide) hcontext (List.forall_mem_singleton.mpr (.text _)))
    · refine List.forall_mem_singleton.mpr (.yieldPair (.callMethod (by decide) hget ?_) _)
      exact fun e he => by cases he
  | nullObject interface => exact .throw _

end Compile

/-- The saved text of a unit runs like the unit that was compiled. If the names in the
unit are names, its text is read back, and in every surroundings the two runs are the same
sequence of asks with one outcome; the name a unit runs under only appears in the faults
it reports itself. The names are those of the binding and of the natives with sources
among its values. -/
theorem saved_unit_runs_alike {g : Graph} {scope : Option ScopeOf} {b : Binding Value}
    {site site' : Site} {code : Code} (hc : Compile.unitOf g scope b site = (.ok code,site')) :
    (∀ name ∈ code.names, Compile.Mentions g b name) ∧
      ((∀ name ∈ code.names, isNameText name = true) →
        ∃ parsed, (∀ file, Script.parseUnit file code.source = .ok parsed) ∧
          ∀ (m : Type → Type) [Monad m] [LawfulMonad m] (s : Script.Surroundings m),
            ∃ outcome : ExceptT (Failure ⊕ UnitFault) m (Value × Bool), ∀ unit,
              Script.runUnit s unit parsed = outcome.adapt (told unit) ∧
                Script.runUnit s unit code.statements = outcome.adapt (told unit)) := by
  have hsaved := Compile.unitOf_saved g scope b site code site' hc
  constructor
  · intro name hname
    obtain ⟨t,ht,hname⟩ := List.mem_flatMap.mp hname
    exact (hsaved t ht).names name hname
  · intro hn
    have hprintable : ∀ t ∈ code.statements, t.reparsed.printable = true := fun t ht =>
      (hsaved t ht).printable fun name hname => hn name (List.mem_flatMap.mpr ⟨t,ht,hname⟩)
    refine ⟨code.statements.map Statement.reparsed,
      fun file => Script.parseUnit_reparsed file hprintable,fun m _ _ s => ?_⟩
    obtain ⟨outcome,houtcome⟩ := Script.runUnit_blind s code.statements
    refine ⟨outcome,fun unit => ⟨?_,houtcome unit⟩⟩
    exact (Script.runUnit_reparsed s unit code.statements).trans (houtcome unit)

/-- A map without elements, which is printed as an empty list, for the constructor. -/
def samplePlan : Plan Value where
  className := "App\\Mailer"
  arguments := [⟨.any "Handler",⟨"App\\Mailer","__construct","handlers"⟩,none,none,some "Handler"⟩]
  setters := [⟨"new",[],false⟩]
  postConstruct := some "init"
  shared := true
  advice := [("send",["Log"])]

def sampleCode : Code where
  statements := [.namespaced "di\\compiled",
    .expr (.assign "instance" (.construct "App\\Mailer" [.keyed []])),
    .expr (.callMethod (.var "instance") "new" []),
    .expr (.callMethod (.var "instance") "init" []),
    .expr (.setProp (.var "instance") "bindings"
      (.keyed [(.text "send",.list [.callFunction "singleton" [.text "Log-*"]])])),
    .yieldPair (.var "instance") true]
  shared := true
  qualifiers := []

theorem saved_unit_runs_alike_sample :
    Compile.unitOf ⟨[],[],[("Handler",.empty)]⟩ none (.construction samplePlan) {} =
        (.ok sampleCode,{}) ∧
      (∀ name ∈ sampleCode.names, isNameText name = true) ∧
      ∃ parsed, (∀ file, Script.parseUnit file sampleCode.source = .ok parsed) ∧
        ∀ s : Script.Surroundings (StateM World),
          Script.runUnit s "App_Mailer-.di" parsed =
            Script.runUnit s "App_Mailer-.di" sampleCode.statements := by
  have hc : Compile.unitOf ⟨[],[],[("Handler",.empty)]⟩ none (.construction samplePlan) {} =
      (.ok sampleCode,{}) := rfl
  have hn : ∀ name ∈ sampleCode.names, isNameText name = true := by decide
  obtain ⟨parsed,hparsed,hrun⟩ := (saved_unit_runs_alike hc).2 hn
  refine ⟨hc,hn,parsed,hparsed,fun s => ?_⟩
  obtain ⟨outcome,houtcome⟩ := hrun (StateM World) s
  obtain ⟨hread,hcompiled⟩ := houtcome "App_Mailer-.di"
  exact hread.trans hcompiled.symm

end Wiring
