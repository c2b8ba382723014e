import Mathlib
import Wiring.Proofs.Compile.Correct
import Wiring.Proofs.Compile.Repeating

/-!
# What a unit pulls

A unit pulls a key by calling a function that tells the scope as well. The source of a value
pulls nothing, so the pulls of a compiled unit are those of the delivery it is written for:
first what its arguments are supplied with, then its interceptors. What an argument is
supplied with is a key that the graph binds, in the scope of the binding, or the key of the
argument itself in the scope that is told for it.
-/
namespace Wiring

open Script (Expr Statement)

/-- A key that is asked for, and whether its shared instance is. -/
structure Pull where
  shared : Bool
  key : Key
  deriving DecidableEq, Repr

namespace Script

namespace Expr

/-- The pull that a call of a function is, where its key is written out. -/
def pulled? (function : String) : List Expr → Option Pull
  | .literal (.text key) :: _ =>
      if function = Compile.pullName true then some ⟨true,⟨key⟩⟩
      else if function = Compile.pullName false then some ⟨false,⟨key⟩⟩
      else none
  | _ => none

mutual

/-- The pulls in an expression, from left to right. -/
def pulls : Expr → List Pull
  | var _ | literal _ | classRef _ => []
  | assign _ value => pulls value
  | prop receiver _ => pulls receiver
  | setProp receiver _ value => pulls receiver ++ pulls value
  | call (var function) arguments => (pulled? function arguments).toList ++ allPulls arguments
  | call callee arguments => pulls callee ++ allPulls arguments
  | new className arguments => pulls className ++ allPulls arguments
  | list items => allPulls items
  | keyed entries => entriesPulls entries
  | tuple parts => allPulls parts

def allPulls : List Expr → List Pull
  | [] => []
  | e :: rest => pulls e ++ allPulls rest

def entriesPulls : List (ArrayKey × Expr) → List Pull
  | [] => []
  | (_,e) :: rest => pulls e ++ entriesPulls rest

end

theorem allPulls_eq (es : List Expr) : allPulls es = es.flatMap pulls := by
  induction es with
  | nil => rfl
  | cons e rest ih => rw [allPulls,ih,List.flatMap_cons]

theorem entriesPulls_eq (es : List (ArrayKey × Expr)) :
    entriesPulls es = es.flatMap fun e => e.2.pulls := by
  induction es with
  | nil => rfl
  | cons e rest ih => rw [entriesPulls,ih,List.flatMap_cons]

theorem allPulls_snd (es : List (ArrayKey × Expr)) :
    allPulls (es.map Prod.snd) = entriesPulls es := by
  rw [allPulls_eq,entriesPulls_eq,List.flatMap_map]

end Expr

namespace Statement

def pulls : Statement → List Pull
  | namespaced _ => []
  | expr e => e.pulls
  | yield e => e.pulls

/-- The statement stores a property. -/
def stores : Statement → Bool
  | expr (.setProp _ _ _) => true
  | _ => false

end Statement
end Script

namespace Code

/-- All pulls of a unit. -/
def pulls (c : Code) : List Pull := c.statements.flatMap Statement.pulls

/-- The pulls that supply arguments: those of interceptors are in a statement that stores a
property. -/
def supplied (c : Code) : List Pull :=
  (c.statements.filter fun t => !t.stores).flatMap Statement.pulls

end Code

namespace Tree

mutual

/-- The source of a tree pulls nothing. -/
theorem pulls_toExpr : ∀ (t : Tree) (e : Expr), t.toExpr = .ok e → e.pulls = []
  | null, e, h | bool _, e, h | int _, e, h | float _, e, h | text _, e, h | injector, e, h
  | blob _ _, e, h => by
    simp only [toExpr,Except.ok.injEq] at h
    subst h
    rfl
  | array ⟨entries,next⟩, e, h => by
    simp only [toExpr] at h
    obtain ⟨items,hitems,h⟩ := bind_eq_ok.mp h
    have hnone := pulls_entriesToExpr entries items hitems
    simp only [pure_ok,Except.ok.injEq] at h
    subst h
    split
    · rw [Expr.pulls,Expr.allPulls_snd,hnone]
    · rw [Expr.pulls,hnone]
  | object className properties, e, h => by
    simp only [toExpr] at h
    obtain ⟨items,hitems,h⟩ := bind_eq_ok.mp h
    have hnone := pulls_propertiesToExpr properties items hitems
    simp only [pure_ok,Except.ok.injEq] at h
    subst h
    simp only [Expr.callFunction,Expr.text,Expr.pulls,Expr.allPulls,hnone,List.append_nil]
    rfl
  | foreign typeName none, e, h => by
    simp only [toExpr] at h
    cases h
  | foreign typeName (some source), e, h => by
    simp only [toExpr] at h
    obtain ⟨argument,hargument,h⟩ := bind_eq_ok.mp h
    have hnone := pulls_toExpr source argument hargument
    simp only [pure_ok,Except.ok.injEq] at h
    subst h
    simp only [Expr.construct,Expr.pulls,Expr.allPulls,hnone,List.append_nil]

theorem pulls_entriesToExpr : ∀ (entries : List (ArrayKey × Tree)) (es : List (ArrayKey × Expr)),
    entriesToExpr entries = .ok es → Expr.entriesPulls es = []
  | [], es, h => by
    simp only [entriesToExpr,Except.ok.injEq] at h
    subst h
    rfl
  | (key,t) :: rest, es, h => by
    simp only [entriesToExpr] at h
    obtain ⟨first,hfirst,h⟩ := bind_eq_ok.mp h
    obtain ⟨more,hmore,h⟩ := bind_eq_ok.mp h
    simp only [pure_ok,Except.ok.injEq] at h
    subst h
    rw [Expr.entriesPulls,pulls_entriesToExpr rest more hmore,pulls_toExpr t first hfirst]
    rfl

theorem pulls_propertiesToExpr : ∀ (properties : List (String × Tree))
    (es : List (ArrayKey × Expr)), propertiesToExpr properties = .ok es →
    Expr.entriesPulls es = []
  | [], es, h => by
    simp only [propertiesToExpr,Except.ok.injEq] at h
    subst h
    rfl
  | (name,t) :: rest, es, h => by
    simp only [propertiesToExpr] at h
    obtain ⟨first,hfirst,h⟩ := bind_eq_ok.mp h
    obtain ⟨more,hmore,h⟩ := bind_eq_ok.mp h
    simp only [pure_ok,Except.ok.injEq] at h
    subst h
    rw [Expr.entriesPulls,pulls_propertiesToExpr rest more hmore,pulls_toExpr t first hfirst]
    rfl

end
end Tree

section Deliveries

def Element.pulls : Element → List Pull
  | literal _ => []
  | pull shared key => [⟨shared,key⟩]

def Supply.pulls : Supply → List Pull
  | literal _ => []
  | point => []
  | map elements => elements.flatMap fun e => e.2.pulls
  | pull shared key _ => [⟨shared,key⟩]

def Assembly.pulls (a : Assembly) : List Pull :=
  a.arguments.flatMap Supply.pulls ++ a.setters.flatMap fun call => call.2.flatMap Supply.pulls

/-- The pulls of the arguments. -/
def Delivery.supplied : Delivery → List Pull
  | literal _ => []
  | made assembly _ _ => assembly.pulls
  | provided assembly _ _ => assembly.pulls

/-- The pulls of the interceptors recorded for methods, shared instances all. -/
def advicePulls (advice : Table String (List String)) : List Pull :=
  advice.flatMap fun a => a.2.map fun c => ⟨true,.any c⟩

def Delivery.intercepted : Delivery → List Pull
  | made _ advice _ => advicePulls advice
  | _ => []

theorem pull_pulls (shared : Bool) (key : Key) :
    (Compile.pull shared key).pulls = [⟨shared,key⟩] := by
  cases shared <;> rfl

theorem pullAt_pulls (shared : Bool) (key : Key) (p : Parameter) :
    (Compile.pullAt shared key p).pulls = [⟨shared,key⟩] := by
  cases shared <;> rfl

theorem flatMap_forall₂ {α β γ : Type} {R : α → β → Prop} {f : α → List γ} {g : β → List γ}
    (hfg : ∀ a b, R a b → g b = f a) {as : List α} {bs : List β} (h : List.Forall₂ R as bs) :
    bs.flatMap g = as.flatMap f := by
  induction h with
  | nil => rfl
  | cons hab _ ih => rw [List.flatMap_cons,List.flatMap_cons,ih,hfg _ _ hab]

theorem forall₂_left {α β : Type} {R : α → β → Prop} {as : List α} {bs : List β}
    (h : List.Forall₂ R as bs) {b : β} (hb : b ∈ bs) : ∃ a ∈ as, R a b := by
  induction h with
  | nil => cases hb
  | cons hab _ ih =>
    rcases List.mem_cons.mp hb with rfl | hb
    · exact ⟨_,List.mem_cons_self,hab⟩
    · obtain ⟨a,ha,hr⟩ := ih hb
      exact ⟨a,List.mem_cons_of_mem _ ha,hr⟩

theorem Element.Written.pulls {x : Element} {e : Expr} (h : x.Written e) : e.pulls = x.pulls := by
  cases h with
  | literal h => exact Tree.pulls_toExpr _ e h
  | pull shared key => exact pull_pulls shared key

theorem Supply.Written.pulls {x : Supply} {e : Expr} (h : x.Written e) : e.pulls = x.pulls := by
  cases h with
  | literal h => exact Tree.pulls_toExpr _ e h
  | point => rfl
  | map h =>
    rw [Expr.pulls,Expr.entriesPulls_eq,Supply.pulls]
    exact flatMap_forall₂ (fun _ _ hx => hx.2.pulls) h
  | pull shared key => exact pull_pulls shared key
  | pullAt shared key p => exact pullAt_pulls shared key p

theorem supplies_pulls {xs : List Supply} {es : List Expr} (h : List.Forall₂ Supply.Written xs es) :
    Expr.allPulls es = xs.flatMap Supply.pulls := by
  rw [Expr.allPulls_eq]
  exact flatMap_forall₂ (fun _ _ hx => hx.pulls) h

/-- A call on the instance pulls what it is supplied with. -/
theorem calls_pulls (method : String) (es : List Expr) :
    (calls method es).pulls = Expr.allPulls es := by
  simp [calls,Statement.pulls,Expr.callMethod,Expr.pulls,Compile.instanceVar]

theorem CallWritten.pulls {call : String × List Supply} {t : Statement} (h : CallWritten call t) :
    t.pulls = call.2.flatMap Supply.pulls := by
  obtain ⟨es,hes,rfl⟩ := h
  rw [calls_pulls,supplies_pulls hes]

theorem CallWritten.stores {call : String × List Supply} {t : Statement} (h : CallWritten call t) :
    t.stores = false := by
  obtain ⟨es,_,rfl⟩ := h
  rfl

/-- Calls that are supplied with nothing, as hooks are. -/
theorem bareCalls_pulls (methods : List String) :
    (methods.map (calls · [])).flatMap Statement.pulls = [] := by
  simp [List.flatMap_eq_nil_iff,calls_pulls,Expr.allPulls]

theorem contextCalls_pulls (texts : List String) :
    (texts.map fun text => calls "setContext" [.text text]).flatMap Statement.pulls = [] := by
  simp [List.flatMap_eq_nil_iff,calls_pulls,Expr.allPulls,Expr.text,Expr.pulls]

theorem Assembly.Written.pulls {a : Assembly} {statements : List Statement}
    (h : a.Written statements) : statements.flatMap Statement.pulls = a.pulls := by
  cases h with
  | intro hes hsetters =>
    have hcalls := flatMap_forall₂ (fun _ _ hc => CallWritten.pulls hc) hsetters
    rw [List.flatMap_append,List.flatMap_cons,bareCalls_pulls,hcalls,Statement.pulls,Expr.pulls,
      Expr.construct,Expr.pulls,supplies_pulls hes,List.append_nil,Assembly.pulls]
    rfl

theorem Assembly.Written.stores {a : Assembly} {statements : List Statement}
    (h : a.Written statements) : ∀ t ∈ statements, t.stores = false := by
  cases h with
  | intro hes hsetters =>
    intro t ht
    rcases List.mem_append.mp ht with ht | ht
    · rcases List.mem_cons.mp ht with rfl | ht
      · rfl
      · obtain ⟨call,_,hcall⟩ := forall₂_left hsetters ht
        exact hcall.stores
    · obtain ⟨method,_,rfl⟩ := List.mem_map.mp ht
      rfl

theorem adviceStatement_pulls (advice : Table String (List String)) :
    (adviceStatement advice).pulls = advicePulls advice := by
  have hlist (cs : List String) : (Expr.list (cs.map fun c => Compile.pull true (.any c))).pulls =
      cs.map fun c => ⟨true,.any c⟩ := by
    rw [Expr.pulls,Expr.allPulls_eq,List.flatMap_map,List.map_eq_flatMap]
    simp only [pull_pulls]
  rw [adviceStatement,Statement.pulls,Expr.pulls,Expr.pulls,Expr.entriesPulls_eq,
    List.flatMap_map,advicePulls]
  simp only [hlist]
  rfl

theorem Delivery.Written.pulls {d : Delivery} {statements : List Statement}
    (h : d.Written statements) :
    statements.flatMap Statement.pulls = d.supplied ++ d.intercepted := by
  cases h with
  | literal h =>
    simp only [List.flatMap_cons,List.flatMap_nil,Statement.yieldPair,Statement.pulls,Expr.pulls,
      Expr.allPulls,Tree.pulls_toExpr _ _ h]
    rfl
  | @made assembly made hmade advice shared =>
    have hadvice : (if advice.isEmpty then [] else [adviceStatement advice]).flatMap
        Statement.pulls = advicePulls advice := by
      cases advice with
      | nil => rfl
      | cons first rest => exact List.flatMap_singleton .. |>.trans (adviceStatement_pulls _)
    rw [List.flatMap_append,List.flatMap_append,List.flatMap_cons,hmade.pulls,hadvice]
    simp [Statement.pulls,Statement.yieldPair,Expr.pulls,Expr.allPulls,Compile.instanceVar,
      Delivery.supplied,Delivery.intercepted]
  | @provided assembly made hmade context shared =>
    rw [List.flatMap_append,List.flatMap_append,List.flatMap_cons,hmade.pulls,contextCalls_pulls]
    simp [Statement.pulls,Statement.yieldPair,Expr.callMethod,Expr.pulls,Expr.allPulls,
      Compile.instanceVar,Delivery.supplied,Delivery.intercepted]

/-- The statements that store no property pull for the arguments. -/
theorem Delivery.Written.supplied {d : Delivery} {statements : List Statement}
    (h : d.Written statements) :
    (statements.filter fun t => !t.stores).flatMap Statement.pulls = d.supplied := by
  have hkept {ts : List Statement} (hts : ∀ t ∈ ts, t.stores = false) :
      ts.filter (fun t => !t.stores) = ts :=
    List.filter_eq_self.mpr fun t ht => by rw [hts t ht]; rfl
  cases h with
  | literal h =>
    exact (Delivery.Written.literal h).pulls
  | @made assembly made hmade advice shared =>
    have hadvice : (if advice.isEmpty then [] else [adviceStatement advice]).filter
        (fun t => !t.stores) = [] := by
      cases advice <;> rfl
    rw [List.filter_append,List.filter_append,List.filter_cons_of_pos rfl,hkept hmade.stores,
      hadvice,List.append_nil,List.flatMap_append,List.flatMap_cons,hmade.pulls]
    exact List.append_nil _
  | @provided assembly made hmade context shared =>
    have hcontext : ∀ t ∈ context.toList.map fun text => calls "setContext" [.text text],
        t.stores = false := by
      intro t ht
      obtain ⟨text,_,rfl⟩ := List.mem_map.mp ht
      rfl
    rw [List.filter_append,List.filter_append,List.filter_cons_of_pos rfl,hkept hmade.stores,
      hkept hcontext,List.flatMap_append,List.flatMap_append,List.flatMap_cons,hmade.pulls,
      contextCalls_pulls,List.append_nil]
    exact List.append_nil _

/-- The interceptors that are recorded for a class. -/
def Binding.intercepted : Binding Value → List Pull
  | .construction plan => advicePulls plan.advice
  | _ => []

end Deliveries

namespace Compile

variable {g : Graph} {scope : Option ScopeOf} {start : Site}

/-- A pull of a bound key in the scope of its binding, or of the key of an argument that is not
bound, in the scope that was told for it. -/
inductive Justified (g : Graph) (scope : Option ScopeOf) (start : Site)
    (as : List (Argument Value)) : Pull → Prop where
  | bound {key : Key} {b : Binding Value} (hb : g.get? key = some b) :
      Justified g scope start as ⟨b.isShared,key⟩
  | outside {a : Argument Value} {shared : Bool} {site site' : Site} (ha : a ∈ as)
      (hb : g.get? a.key = none) (ht : Passed scope start site)
      (h : scopeOutside scope a.key site = (.ok (some shared),site')) :
      Justified g scope start as ⟨shared,a.key⟩

theorem Justified.mono {as bs : List (Argument Value)} {p : Pull} (h : as ⊆ bs)
    (hp : Justified g scope start as p) : Justified g scope start bs p := by
  cases hp with
  | bound hb => exact .bound hb
  | outside ha hb ht hs => exact .outside (h ha) hb ht hs

theorem ElementOf.justified {key : Key} {x : Element} (h : ElementOf g scope start key x)
    (as : List (Argument Value)) : ∀ p ∈ x.pulls, Justified g scope start as p := by
  cases h with
  | literal hb hv => exact nofun
  | pull hb hl =>
    intro p hp
    rw [List.mem_singleton.mp hp]
    exact .bound hb

theorem Supplies.justified {a : Argument Value} {x : Supply} (h : Supplies g scope start a x)
    {as : List (Argument Value)} (ha : a ∈ as) :
    ∀ p ∈ x.pulls, Justified g scope start as p := by
  intro p hp
  cases h with
  | point _ => cases hp
  | literal _ _ _ _ => cases hp
  | fallback _ _ _ _ _ _ _ => cases hp
  | map _ _ _ he =>
    obtain ⟨element,helement,hp⟩ := List.mem_flatMap.mp hp
    obtain ⟨_,_,hx⟩ := forall₂_left he helement
    exact hx.2.justified as p hp
  | provider _ _ hb =>
    rw [List.mem_singleton.mp hp]
    exact .bound hb
  | bound _ _ hb _ _ =>
    rw [List.mem_singleton.mp hp]
    exact .bound hb
  | outside _ _ hb ht hs =>
    rw [List.mem_singleton.mp hp]
    exact .outside ha hb ht hs

theorem supplies_justified {as : List (Argument Value)} {xs : List Supply}
    (h : List.Forall₂ (Supplies g scope start) as xs) :
    ∀ p ∈ xs.flatMap Supply.pulls, Justified g scope start as p := by
  intro p hp
  obtain ⟨x,hx,hp⟩ := List.mem_flatMap.mp hp
  obtain ⟨a,ha,hax⟩ := forall₂_left h hx
  exact hax.justified ha p hp

theorem Kept.justified {ss : List (SetterCall Value)} {calls : List (String × List Supply)}
    (h : Kept g scope start ss calls) : ∀ p ∈ calls.flatMap fun c => c.2.flatMap Supply.pulls,
      Justified g scope start (ss.flatMap SetterCall.arguments) p := by
  induction h with
  | nil => exact nofun
  | call hs _ ih =>
    intro p hp
    rw [List.flatMap_cons] at hp ⊢
    rcases List.mem_append.mp hp with hp | hp
    · exact (supplies_justified hs p hp).mono (List.subset_append_left _ _)
    · exact (ih p hp).mono (List.subset_append_right _ _)
  | left _ _ _ _ _ ih =>
    intro p hp
    exact (ih p hp).mono (List.subset_append_right _ _)

theorem Assembles.justified {plan : Plan Value} {a : Assembly}
    (h : Assembles g scope start plan a) :
    ∀ p ∈ a.pulls, Justified g scope start plan.allArguments p := by
  cases h with
  | intro hxs hcalls =>
    intro p hp
    rcases List.mem_append.mp hp with hp | hp
    · exact (supplies_justified hxs p hp).mono (List.subset_append_left _ _)
    · exact (hcalls.justified p hp).mono (List.subset_append_right _ _)

/-- Every pull of an argument is justified, and all other pulls are of interceptors. -/
theorem unitOf_pulls {b : Binding Value} {site' : Site} {code : Code}
    (h : unitOf g scope b start = (.ok code,site')) :
    (∀ p ∈ code.supplied, Justified g scope start b.allArguments p) ∧
      code.pulls = code.supplied ++ b.intercepted := by
  obtain ⟨d,hd,hwritten⟩ := (unitOf_delivers b start .start).2 code (congrArg Prod.fst h)
  rw [Code.supplied,hwritten.supplied,Code.pulls,hwritten.pulls]
  cases hd with
  | literal _ => exact ⟨nofun,rfl⟩
  | construction ha => exact ⟨ha.justified,rfl⟩
  | provider ha shared context => exact ⟨ha.justified,rfl⟩

theorem unitOf_shared (b : Binding Value) :
    (unitOf g scope b).Ensures fun code => code.shared = b.isShared := by
  cases b with
  | literal v => exact (Work.Ensures.any _).bind fun e _ => .pure rfl
  | construction plan => exact (Work.Ensures.any _).bind fun made _ => .pure rfl
  | provider plan shared context => exact (Work.Ensures.any _).bind fun made _ => .pure rfl
  | nullObject interface => exact .throw _

end Compile
end Wiring
