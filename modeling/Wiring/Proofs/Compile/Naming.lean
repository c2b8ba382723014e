import Mathlib
import Wiring.Proofs.Compile.Pulls
import Wiring.Proofs.Compile.Unit

/-!
# The names that a unit mentions

A unit mentions the names in the delivery it is written for: of the class, of the methods that
are called on its object, and of the natives in its values that are made from a source. These
values are what the graph and the arguments hold while the unit is compiled.
-/
namespace Wiring

open Script (Expr Statement)

section Deliveries

variable {N : String → Prop}

/-- The natives in the tree that are made from a source have such names. -/
def Tree.Mentions (N : String → Prop) (t : Tree) : Prop := ∀ name ∈ t.sourceTypes, N name

def Element.Mentions (N : String → Prop) : Element → Prop
  | literal tree => tree.Mentions N
  | pull _ _ => True

def Supply.Mentions (N : String → Prop) : Supply → Prop
  | literal tree => tree.Mentions N
  | map elements => ∀ e ∈ elements, e.2.Mentions N
  | point | pull _ _ _ => True

structure Assembly.Mentions (N : String → Prop) (a : Assembly) : Prop where
  className : N a.className
  arguments : ∀ x ∈ a.arguments, x.Mentions N
  setters : ∀ call ∈ a.setters, N call.1 ∧ ∀ x ∈ call.2, x.Mentions N
  hook : ∀ method ∈ a.hook, N method

/-- All names that the unit of the delivery mentions are of this kind. -/
inductive Delivery.Mentions (N : String → Prop) : Delivery → Prop where
  | literal {tree : Tree} (h : tree.Mentions N) : Mentions N (.literal tree)
  | made {a : Assembly} (h : a.Mentions N) (hb : N "bindings") (advice : Table String (List String))
      (shared : Bool) : Mentions N (.made a advice shared)
  | provided {a : Assembly} (h : a.Mentions N) (hg : N "get") (hs : N "setContext")
      (context : Option String) (shared : Bool) : Mentions N (.provided a context shared)

theorem Tree.Mentions.names {t : Tree} {e : Expr} (ht : t.Mentions N) (h : t.toExpr = .ok e) :
    ∀ name ∈ e.names, N name := by
  rw [names_toExpr t e h]
  exact ht

theorem pull_names (shared : Bool) (key : Key) : (Compile.pull shared key).names = [] := by
  cases shared <;> rfl

theorem pullAt_names (shared : Bool) (key : Key) (p : Parameter) :
    (Compile.pullAt shared key p).names = [] := by
  cases shared <;> rfl

theorem Element.Written.names {x : Element} {e : Expr} (h : x.Written e) (hx : x.Mentions N) :
    ∀ name ∈ e.names, N name := by
  cases h with
  | literal h => exact Tree.Mentions.names hx h
  | pull shared key => simp [pull_names]

theorem Supply.Written.names {x : Supply} {e : Expr} (h : x.Written e) (hx : x.Mentions N) :
    ∀ name ∈ e.names, N name := by
  cases h with
  | literal h => exact Tree.Mentions.names hx h
  | point => simp [Expr.callFunction,Expr.names,Expr.allNames]
  | map h =>
    intro name hname
    rw [Expr.names] at hname
    obtain ⟨entry,hentry,hname⟩ := Expr.mem_entriesNames.mp hname
    obtain ⟨element,helement,_,hwritten⟩ := forall₂_left h hentry
    exact hwritten.names (hx element helement) name hname
  | pull shared key => simp [pull_names]
  | pullAt shared key p => simp [pullAt_names]

theorem supplies_names {xs : List Supply} {es : List Expr} (h : List.Forall₂ Supply.Written xs es)
    (hxs : ∀ x ∈ xs, x.Mentions N) : ∀ name ∈ Expr.allNames es, N name := by
  intro name hname
  obtain ⟨e,he,hname⟩ := Expr.mem_allNames.mp hname
  obtain ⟨x,hx,hwritten⟩ := forall₂_left h he
  exact hwritten.names (hxs x hx) name hname

/-- A call on the instance mentions the method and what its arguments do. -/
theorem calls_names {method : String} {es : List Expr} (hm : N method)
    (hes : ∀ name ∈ Expr.allNames es, N name) : ∀ name ∈ (calls method es).names, N name := by
  intro name hname
  simp only [calls,Statement.names,Expr.callMethod,Expr.names,Compile.instanceVar,List.nil_append,
    List.singleton_append,List.mem_cons] at hname
  rcases hname with rfl | hname
  · exact hm
  · exact hes name hname

theorem Assembly.Written.names {a : Assembly} {statements : List Statement}
    (h : a.Written statements) (ha : a.Mentions N) : ∀ t ∈ statements, ∀ name ∈ t.names, N name := by
  cases h with
  | @intro es setters hes hsetters =>
    refine List.forall_mem_append.mpr ⟨List.forall_mem_cons.mpr ⟨?_,fun t ht => ?_⟩,fun t ht => ?_⟩
    · intro name hname
      simp only [Statement.names,Expr.construct,Expr.names,List.singleton_append,
        List.mem_cons] at hname
      rcases hname with rfl | hname
      · exact ha.className
      · exact supplies_names hes ha.arguments name hname
    · obtain ⟨call,hcall,es,hes,rfl⟩ := forall₂_left hsetters ht
      obtain ⟨hmethod,hsupplies⟩ := ha.setters call hcall
      exact calls_names hmethod (supplies_names hes hsupplies)
    · obtain ⟨method,hmethod,rfl⟩ := List.mem_map.mp ht
      exact calls_names (ha.hook method (Option.mem_toList.mp hmethod)) (by simp [Expr.allNames])

theorem adviceStatement_names (advice : Table String (List String)) (hb : N "bindings") :
    ∀ name ∈ (adviceStatement advice).names, N name := by
  intro name hname
  simp only [adviceStatement,Statement.names,Expr.names,Compile.instanceVar,List.nil_append,
    List.mem_cons] at hname
  rcases hname with rfl | hname
  · exact hb
  · obtain ⟨entry,hentry,hname⟩ := Expr.mem_entriesNames.mp hname
    obtain ⟨row,_,rfl⟩ := List.mem_map.mp hentry
    rw [Expr.names] at hname
    obtain ⟨e,he,hname⟩ := Expr.mem_allNames.mp hname
    obtain ⟨interceptor,_,rfl⟩ := List.mem_map.mp he
    simp [pull_names] at hname

/-- The statements mention the names of their delivery. -/
theorem Delivery.Written.names {d : Delivery} {statements : List Statement}
    (h : d.Written statements) (hd : d.Mentions N) : ∀ t ∈ statements, ∀ name ∈ t.names, N name := by
  cases h with
  | @literal tree e h =>
    cases hd with | literal ht =>
    refine List.forall_mem_singleton.mpr fun name hname => ?_
    simp only [Statement.yieldPair,Statement.names,Expr.names,Expr.allNames,List.append_nil] at hname
    exact ht.names h name hname
  | @made assembly statements h advice shared =>
    cases hd with | made ha hb =>
    refine List.forall_mem_append.mpr ⟨List.forall_mem_append.mpr
      ⟨List.forall_mem_cons.mpr ⟨by simp [Statement.names],h.names ha⟩,fun t ht => ?_⟩,?_⟩
    · split at ht
      · cases ht
      · rw [List.mem_singleton.mp ht]
        exact adviceStatement_names advice hb
    · refine List.forall_mem_singleton.mpr ?_
      simp [Statement.yieldPair,Statement.names,Expr.names,Expr.allNames,Compile.instanceVar]
  | @provided assembly statements h context shared =>
    cases hd with | provided ha hg hs =>
    refine List.forall_mem_append.mpr ⟨List.forall_mem_append.mpr
      ⟨List.forall_mem_cons.mpr ⟨by simp [Statement.names],h.names ha⟩,fun t ht => ?_⟩,?_⟩
    · obtain ⟨text,_,rfl⟩ := List.mem_map.mp ht
      exact calls_names hs (by simp [Expr.allNames,Expr.text,Expr.names])
    · refine List.forall_mem_singleton.mpr fun name hname => ?_
      simp only [Statement.yieldPair,Statement.names,Expr.callMethod,Expr.names,Expr.allNames,
        Compile.instanceVar,List.append_nil,List.nil_append,List.mem_singleton] at hname
      exact hname ▸ hg

end Deliveries

namespace Compile

variable {g : Graph} {scope : Option ScopeOf} {start : Site} {N : String → Prop}

/-- All values of this kind show such names only, while the unit is compiled. -/
def Legible (scope : Option ScopeOf) (start : Site) (N : String → Prop) (values : Value → Prop) :
    Prop :=
  ∀ v, values v → ∀ site, Passed scope start site → (site.heap.unfold v).Mentions N

variable {b : Binding Value}

theorem Shows.mentions {v : Value} {t : Tree} (hv : Legible scope start N (Holds g b))
    (h : Shows scope start v t) (hb : Holds g b v) : t.Mentions N := by
  obtain ⟨site,hsite,rfl⟩ := h
  exact hv v hb site hsite

theorem ElementOf.mentions {key : Key} {x : Element} (hv : Legible scope start N (Holds g b))
    (h : ElementOf g scope start key x) : x.Mentions N := by
  cases h with
  | literal hb ht => exact ht.mentions hv (.bound hb)
  | pull _ _ => exact trivial

theorem Supplies.mentions {a : Argument Value} {x : Supply} {plan : Plan Value}
    (hv : Legible scope start N (Holds g b)) (hplan : b.plan? = some plan)
    (ha : a ∈ plan.allArguments) (h : Supplies g scope start a x) : x.Mentions N := by
  cases h with
  | literal _ _ hb ht => exact ht.mentions hv (.bound hb)
  | fallback _ _ _ _ _ hf ht => exact ht.mentions hv (.fallback hplan ha hf)
  | map _ _ _ he =>
    intro element helement
    obtain ⟨_,_,_,hx⟩ := forall₂_left he helement
    exact hx.mentions hv
  | _ => exact trivial

theorem supplies_mentions {as : List (Argument Value)} {xs : List Supply} {plan : Plan Value}
    (hv : Legible scope start N (Holds g b)) (hplan : b.plan? = some plan)
    (has : ∀ a ∈ as, a ∈ plan.allArguments) (h : List.Forall₂ (Supplies g scope start) as xs) :
    ∀ x ∈ xs, x.Mentions N := by
  intro x hx
  obtain ⟨a,ha,hsupplies⟩ := forall₂_left h hx
  exact hsupplies.mentions hv hplan (has a ha)

/-- The setters that are kept are among those of the plan. -/
theorem Kept.mentions {ss : List (SetterCall Value)} {kept : List (String × List Supply)}
    {plan : Plan Value} (hv : Legible scope start N (Holds g b)) (hplan : b.plan? = some plan)
    (hss : ∀ s ∈ ss, N s.method ∧ ∀ a ∈ s.arguments, a ∈ plan.allArguments)
    (h : Kept g scope start ss kept) : ∀ call ∈ kept, N call.1 ∧ ∀ x ∈ call.2, x.Mentions N := by
  induction h with
  | nil => simp
  | call hs _ ih =>
    obtain ⟨⟨hmethod,harguments⟩,hrest⟩ := List.forall_mem_cons.mp hss
    exact List.forall_mem_cons.mpr
      ⟨⟨hmethod,supplies_mentions hv hplan harguments hs⟩,ih hrest⟩
  | left _ _ _ _ _ ih => exact ih (List.forall_mem_cons.mp hss).2

theorem Assembles.mentions {plan : Plan Value} {a : Assembly}
    (hv : Legible scope start N (Holds g b)) (hplan : b.plan? = some plan)
    (hn : ∀ name ∈ plan.names, N name) (h : Assembles g scope start plan a) : a.Mentions N := by
  obtain ⟨hclass,hn⟩ := List.forall_mem_cons.mp hn
  obtain ⟨hmethods,hhook⟩ := List.forall_mem_append.mp hn
  cases h with
  | intro hxs hcalls =>
    refine ⟨hclass,?_,?_,fun method hm => hhook method (Option.mem_toList.mpr hm)⟩
    · exact supplies_mentions hv hplan (fun a ha => List.mem_append_left _ ha) hxs
    · refine Kept.mentions hv hplan (fun s hs => ⟨hmethods _ (List.mem_map_of_mem hs),?_⟩) hcalls
      exact fun a ha => List.mem_append_right _ (List.mem_flatMap.mpr ⟨s,hs,ha⟩)

theorem Delivers.mentions {d : Delivery} (hv : Legible scope start N (Holds g b))
    (hn : ∀ name ∈ b.names, N name) (h : Delivers g scope start b d) : d.Mentions N := by
  cases h with
  | literal ht => exact .literal (ht.mentions hv (.own _))
  | construction ha =>
    obtain ⟨hb,hplan⟩ := List.forall_mem_cons.mp hn
    exact .made (ha.mentions hv rfl hplan) hb _ _
  | provider ha shared context =>
    obtain ⟨hs,hn⟩ := List.forall_mem_cons.mp hn
    obtain ⟨hg,hplan⟩ := List.forall_mem_cons.mp hn
    exact .provided (ha.mentions hv rfl hplan) hg hs context shared

/-- The names that a compiled unit mentions are those of its binding and of the natives in its
values. -/
theorem unitOf_names {site' : Site} {code : Code} (hv : Legible scope start N (Holds g b))
    (hn : ∀ name ∈ b.names, N name) (h : unitOf g scope b start = (.ok code,site')) :
    ∀ name ∈ code.names, N name := by
  obtain ⟨d,hd,hwritten⟩ := (unitOf_delivers b start .start).2 code (congrArg Prod.fst h)
  intro name hname
  obtain ⟨t,ht,hname⟩ := List.mem_flatMap.mp hname
  exact hwritten.names (hd.mentions hv hn) t ht name hname

end Compile
end Wiring
