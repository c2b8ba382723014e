import Mathlib
import Wiring.Injector.World
import Wiring.Proofs.Compile.Injection
import Wiring.Proofs.Site

/-!
# A compiled unit injects directly

What the compiler reads off a graph is a delivery: for each argument where its value comes
from, for each setter whether it is called, then the hook, the interceptors and the scope.
The unit it writes runs as that delivery is performed.
-/
namespace Wiring.Compile

open Work Script

variable {g : Graph} {scope : Option ScopeOf} {start : Site}

/-- A site that comes about while a unit is compiled: scopes of keys outside the graph have
been told since the start. -/
inductive Passed (scope : Option ScopeOf) (start : Site) : Site → Prop where
  | start : Passed scope start start
  | told {site : Site} (key : Key) (h : Passed scope start site) :
      Passed scope start (scopeOutside scope key site).2

/-- The tree of a value while the unit is compiled. -/
def Shows (scope : Option ScopeOf) (start : Site) (v : Value) (t : Tree) : Prop :=
  ∃ site, Passed scope start site ∧ site.heap.unfold v = t

/-- Where the element of a map comes from. -/
inductive ElementOf (g : Graph) (scope : Option ScopeOf) (start : Site) (key : Key) :
    Element → Prop where
  | literal {v : Value} {t : Tree} (hb : g.get? key = some (.literal v))
      (hv : Shows scope start v t) : ElementOf g scope start key (.literal t)
  | pull {b : Binding Value} (hb : g.get? key = some b) (hl : ∀ v, b ≠ .literal v) :
      ElementOf g scope start key (.pull b.isShared key)

/-- Where the value of an argument comes from. The point comes before the map, the map
before the key; only a provider is told the parameter. -/
inductive Supplies (g : Graph) (scope : Option ScopeOf) (start : Site) (a : Argument Value) :
    Supply → Prop where
  | point (hp : a.key.interface = Key.pointInterface) : Supplies g scope start a .point
  | map {interface : String} {m : MapBinding} {elements : List (ArrayKey × Element)}
      (hp : a.key.interface ≠ Key.pointInterface) (hs : a.set = some interface)
      (hm : g.map? interface = some m)
      (he : List.Forall₂ (fun e x => x.1 = e.1 ∧ ElementOf g scope start e.2 x.2)
        m.elements elements) : Supplies g scope start a (.map elements)
  | literal {v : Value} {t : Tree} (hp : a.key.interface ≠ Key.pointInterface)
      (hs : a.set = none) (hb : g.get? a.key = some (.literal v)) (hv : Shows scope start v t) :
      Supplies g scope start a (.literal t)
  | provider {plan : Plan Value} {shared : Bool} {context : Option String}
      (hp : a.key.interface ≠ Key.pointInterface) (hs : a.set = none)
      (hb : g.get? a.key = some (.provider plan shared context)) :
      Supplies g scope start a (.pull shared a.key (some a.parameter))
  | bound {b : Binding Value} (hp : a.key.interface ≠ Key.pointInterface) (hs : a.set = none)
      (hb : g.get? a.key = some b) (hl : ∀ v, b ≠ .literal v)
      (hq : ∀ plan shared context, b ≠ .provider plan shared context) :
      Supplies g scope start a (.pull b.isShared a.key none)
  | outside {shared : Bool} {site site' : Site} (hp : a.key.interface ≠ Key.pointInterface)
      (hs : a.set = none) (hb : g.get? a.key = none) (ht : Passed scope start site)
      (h : scopeOutside scope a.key site = (.ok (some shared),site')) :
      Supplies g scope start a (.pull shared a.key none)
  | fallback {v : Value} {t : Tree} {site site' : Site}
      (hp : a.key.interface ≠ Key.pointInterface) (hs : a.set = none)
      (hb : g.get? a.key = none) (ht : Passed scope start site)
      (h : scopeOutside scope a.key site = (.ok none,site')) (hf : a.fallback = some v)
      (hv : Shows scope start v t) : Supplies g scope start a (.literal t)

/-- The setters that are called, in order. Only an optional one with an argument that cannot
be resolved is left out. -/
inductive Kept (g : Graph) (scope : Option ScopeOf) (start : Site) :
    List (SetterCall Value) → List (String × List Supply) → Prop where
  | nil : Kept g scope start [] []
  | call {s : SetterCall Value} {rest : List (SetterCall Value)} {xs : List Supply}
      {calls : List (String × List Supply)}
      (h : List.Forall₂ (Supplies g scope start) s.arguments xs)
      (hrest : Kept g scope start rest calls) :
      Kept g scope start (s :: rest) ((s.method,xs) :: calls)
  | left {s : SetterCall Value} {rest : List (SetterCall Value)}
      {calls : List (String × List Supply)} {f : Failure} {site site' : Site}
      (ho : s.optional = true) (ht : Passed scope start site)
      (h : arguments g scope s.arguments site = (.error f,site')) (hu : f.isUnbound = true)
      (hrest : Kept g scope start rest calls) : Kept g scope start (s :: rest) calls

inductive Assembles (g : Graph) (scope : Option ScopeOf) (start : Site) (plan : Plan Value) :
    Assembly → Prop where
  | intro {xs : List Supply} {calls : List (String × List Supply)}
      (hxs : List.Forall₂ (Supplies g scope start) plan.arguments xs)
      (hcalls : Kept g scope start plan.setters calls) :
      Assembles g scope start plan ⟨plan.className,xs,calls,plan.postConstruct⟩

/-- What a binding hands out. -/
inductive Delivers (g : Graph) (scope : Option ScopeOf) (start : Site) :
    Binding Value → Delivery → Prop where
  | literal {v : Value} {t : Tree} (h : Shows scope start v t) :
      Delivers g scope start (.literal v) (.literal t)
  | construction {plan : Plan Value} {a : Assembly} (h : Assembles g scope start plan a) :
      Delivers g scope start (.construction plan) (.made a plan.advice plan.shared)
  | provider {plan : Plan Value} {a : Assembly} (h : Assembles g scope start plan a)
      (shared : Bool) (context : Option String) :
      Delivers g scope start (.provider plan shared context) (.provided a context shared)

theorem sourceOf_shows (v : Value) : (sourceOf v).Maintains (Passed scope start)
    fun e => ∃ t, Shows scope start v t ∧ t.toExpr = .ok e := by
  intro site hsite
  have hrun : sourceOf v site = ((site.heap.unfold v).toExpr,site) := by
    have hheap : Work.heap site = (.ok site.heap,site) := rfl
    unfold sourceOf
    rw [Work.run_bind hheap]
    unfold Heap.source
    cases (site.heap.unfold v).toExpr <;> rfl
  rw [hrun]
  exact ⟨hsite,fun e he => ⟨_,⟨site,hsite,rfl⟩,he⟩⟩

theorem element_of (key : Key) : (element g key).Maintains (Passed scope start)
    fun e => ∃ x, ElementOf g scope start key x ∧ x.Written e := by
  unfold element
  cases hb : g.get? key with
  | none => exact .throw _
  | some b =>
    cases b with
    | literal v => exact (sourceOf_shows v).imp fun e ⟨t,ht,he⟩ => ⟨_,.literal hb ht,.literal he⟩
    | construction plan => exact .pure ⟨_,.pull hb (by simp),.pull _ _⟩
    | provider plan shared context => exact .pure ⟨_,.pull hb (by simp),.pull _ _⟩
    | nullObject interface => exact .pure ⟨_,.pull hb (by simp),.pull _ _⟩

theorem forall₂_comp {α β γ : Type} {R : α → β → Prop} {S : β → γ → Prop} {as : List α}
    {cs : List γ} (h : List.Forall₂ (fun a c => ∃ b, R a b ∧ S b c) as cs) :
    ∃ bs, List.Forall₂ R as bs ∧ List.Forall₂ S bs cs := by
  induction h with
  | nil => exact ⟨[],.nil,.nil⟩
  | cons hb _ ih =>
    obtain ⟨b,hr,hs⟩ := hb
    obtain ⟨bs,hrs,hss⟩ := ih
    exact ⟨b :: bs,.cons hr hrs,.cons hs hss⟩

theorem mapOf_supplies (interface : String) : (mapOf g interface).Maintains (Passed scope start)
    fun e => ∃ m elements, g.map? interface = some m ∧
      List.Forall₂ (fun e x => x.1 = e.1 ∧ ElementOf g scope start e.2 x.2) m.elements elements ∧
      (Supply.map elements).Written e := by
  unfold mapOf
  cases hm : g.map? interface with
  | none => exact .throw _
  | some m =>
    have hentries : (m.elements.mapM fun e => do
        return (e.1,← element g e.2) : Work (List (ArrayKey × Expr))).Maintains
        (Passed scope start) (List.Forall₂ (fun e p => ∃ x : ArrayKey × Element,
          (x.1 = e.1 ∧ ElementOf g scope start e.2 x.2) ∧ p.1 = x.1 ∧ x.2.Written p.2)
          m.elements) :=
      .mapM fun e _ => (element_of e.2).bind fun e' ⟨x,hx,he'⟩ =>
        .pure ⟨(e.1,x),⟨rfl,hx⟩,rfl,he'⟩
    refine hentries.bind fun entries hentries => .pure ?_
    obtain ⟨elements,helements,hwritten⟩ := forall₂_comp hentries
    exact ⟨m,elements,rfl,helements,.map hwritten⟩

theorem outside_supplies {a : Argument Value} (hp : a.key.interface ≠ Key.pointInterface)
    (hs : a.set = none) (hb : g.get? a.key = none) :
    (outside scope a).Maintains (Passed scope start)
      fun e => ∃ x, Supplies g scope start a x ∧ x.Written e := by
  have htold : (scopeOutside scope a.key).Maintains (Passed scope start) fun answer =>
      ∃ site site', Passed scope start site ∧ scopeOutside scope a.key site = (.ok answer,site') :=
    .seen fun _ h => h.told a.key
  refine htold.bind fun answer ⟨site,site',hsite,hanswer⟩ => ?_
  cases answer with
  | some shared => exact .pure ⟨_,.outside hp hs hb hsite hanswer,.pull _ _⟩
  | none =>
    dsimp only
    cases hf : a.fallback with
    | none => exact .throw _
    | some v =>
      exact (sourceOf_shows v).imp fun e ⟨t,ht,he⟩ =>
        ⟨_,.fallback hp hs hb hsite hanswer hf ht,.literal he⟩

theorem argument_supplies (a : Argument Value) :
    (argument g scope a).Maintains (Passed scope start)
      fun r => ∃ x, Supplies g scope start a x ∧ x.Written r.1 := by
  unfold argument
  split
  next hp => exact .pure ⟨_,.point (by simpa using hp),.point⟩
  next hp =>
    replace hp : a.key.interface ≠ Key.pointInterface := by simpa using hp
    cases hs : a.set with
    | some interface =>
      exact (mapOf_supplies interface).bind fun e ⟨m,elements,hm,he,hw⟩ =>
        .pure ⟨_,.map hp hs hm he,hw⟩
    | none =>
      dsimp only
      cases hb : g.get? a.key with
      | none =>
        exact (outside_supplies hp hs hb).bind fun e ⟨x,hx,he⟩ => .pure ⟨x,hx,he⟩
      | some b =>
        cases b with
        | literal v =>
          exact (sourceOf_shows v).bind fun e ⟨t,ht,he⟩ =>
            .pure ⟨_,.literal hp hs hb ht,.literal he⟩
        | provider plan shared context => exact .pure ⟨_,.provider hp hs hb,.pullAt _ _ _⟩
        | construction plan =>
          exact .pure ⟨_,.bound hp hs hb (by simp) (by simp),.pull _ _⟩
        | nullObject interface =>
          exact .pure ⟨_,.bound hp hs hb (by simp) (by simp),.pull _ _⟩

theorem arguments_supplies (as : List (Argument Value)) :
    (arguments g scope as).Maintains (Passed scope start) fun r =>
      ∃ xs, List.Forall₂ (Supplies g scope start) as xs ∧ List.Forall₂ Supply.Written xs r.1 := by
  induction as with
  | nil => exact .pure ⟨[],.nil,.nil⟩
  | cons a rest ih =>
    refine (argument_supplies a).bind fun ⟨e,kept⟩ ⟨x,hx,he⟩ => ?_
    refine ih.bind fun ⟨es,more⟩ ⟨xs,hxs,hes⟩ => ?_
    exact .pure ⟨x :: xs,.cons hx hxs,.cons he hes⟩

theorem setters_kept (ss : List (SetterCall Value)) :
    (setters g scope ss).Maintains (Passed scope start) fun r =>
      ∃ calls, Kept g scope start ss calls ∧ List.Forall₂ CallWritten calls r.1 := by
  induction ss with
  | nil => exact .pure ⟨[],.nil,.nil⟩
  | cons s rest ih =>
    have hsetter : (setter g scope s).Maintains (Passed scope start) fun r =>
        (∃ xs, List.Forall₂ (Supplies g scope start) s.arguments xs ∧
          List.Forall₂ CallWritten [(s.method,xs)] r.1) ∨
        (r.1 = [] ∧ s.optional = true ∧ ∃ f site site', Passed scope start site ∧
          arguments g scope s.arguments site = (.error f,site') ∧ f.isUnbound = true) := by
      refine (Maintains.attempt (arguments_supplies s.arguments)).bind fun answer hanswer => ?_
      cases answer with
      | ok r =>
        obtain ⟨xs,hxs,hes⟩ := hanswer
        exact .pure (.inl ⟨xs,hxs,.cons ⟨_,hes,rfl⟩ .nil⟩)
      | error f =>
        obtain ⟨site,site',hsite,hf⟩ := hanswer
        dsimp only
        split
        next hcond =>
          rw [Bool.and_eq_true] at hcond
          exact .pure (.inr ⟨rfl,hcond.2,f,site,site',hsite,hf,hcond.1⟩)
        next => exact .throw _
    refine hsetter.bind fun ⟨call,kept⟩ hcall => ih.bind fun ⟨more,others⟩ ⟨calls,hcalls,hmore⟩ => ?_
    rcases hcall with ⟨xs,hxs,hcall⟩ | ⟨hnone,ho,f,site,site',hsite,hf,hu⟩
    · exact .pure ⟨_,.call hxs hcalls,List.rel_append hcall hmore⟩
    · obtain rfl : call = [] := hnone
      exact .pure ⟨calls,.left ho hsite hf hu hcalls,hmore⟩

theorem factory_assembles (plan : Plan Value) :
    (factory g scope plan).Maintains (Passed scope start) fun r =>
      ∃ a, Assembles g scope start plan a ∧ a.Written r.1 := by
  refine (arguments_supplies plan.arguments).bind fun ⟨es,kept⟩ ⟨xs,hxs,hes⟩ => ?_
  refine (setters_kept plan.setters).bind fun ⟨statements,more⟩ ⟨calls,hcalls,hstatements⟩ => ?_
  exact .pure ⟨_,.intro hxs hcalls,.intro hes hstatements⟩

theorem unitOf_delivers (b : Binding Value) :
    (unitOf g scope b).Maintains (Passed scope start) fun code =>
      ∃ d, Delivers g scope start b d ∧ d.Written code.statements := by
  cases b with
  | literal v =>
    exact (sourceOf_shows v).bind fun e ⟨t,ht,he⟩ => .pure ⟨_,.literal ht,.literal he⟩
  | construction plan =>
    refine (factory_assembles plan).bind fun ⟨made,kept⟩ ⟨a,ha,hmade⟩ => .pure ?_
    exact ⟨_,.construction ha,.made hmade plan.advice plan.shared⟩
  | provider plan shared context =>
    refine (factory_assembles plan).bind fun ⟨made,kept⟩ ⟨a,ha,hmade⟩ => .pure ?_
    exact ⟨_,.provider ha shared context,.provided hmade context shared⟩
  | nullObject interface => exact .throw _

end Wiring.Compile

namespace Wiring

open Script (Surroundings)

/-- A compiled unit does what direct injection does. Whatever the surroundings answer and
wherever they fail, running the statements asks for the arguments of the constructor from
left to right, constructs the object, supplies and calls the setters that were kept in
their order, calls the hook, stores the interceptors or asks the provider, and returns the
instance with the scope of the binding, one ask after another and no other. -/
theorem compiled_unit_injects_directly {g : Graph} {scope : Option ScopeOf} {b : Binding Value}
    {site site' : Site} {code : Code} (hc : Compile.unitOf g scope b site = (.ok code,site')) :
    ∃ d, Compile.Delivers g scope site b d ∧
      ∀ (m : Type → Type) [Monad m] [LawfulMonad m] (s : Surroundings m) (unit : String),
        Script.runUnit s unit code.statements = d.perform s unit := by
  obtain ⟨d,hd,hwritten⟩ := (Compile.unitOf_delivers b site .start).2 code (congrArg Prod.fst hc)
  exact ⟨d,hd,fun m _ _ s unit => hwritten.run⟩

/-- A horn from a provider, an engine that is made anew each time, and two wheels. -/
def workshop : Graph where
  bindings :=
    [(.any "Horn",.provider ⟨"HornMaker",[],[],none,false,[]⟩ true none),
      (.any "Engine",.construction ⟨"Engine",[],[],none,false,[]⟩),
      (.of "Wheel" "@0",.literal (.text "front")),
      (.of "Wheel" "@1",.construction ⟨"Wheel",[],[],none,true,[]⟩)]
  pointcuts := []
  maps := [("Wheel",⟨[(.int 0,.of "Wheel" "@0"),(.int 1,.of "Wheel" "@1")]⟩)]

/-- A car with an optional setter that asks for what nobody knows. -/
def carPlan : Plan Value where
  className := "Car"
  arguments :=
    [⟨.any "Engine",⟨"Car","__construct","engine"⟩,none,none,none⟩,
      ⟨.any "",⟨"Car","__construct","wheels"⟩,none,none,some "Wheel"⟩]
  setters :=
    [⟨"setHorn",[⟨.any "Horn",⟨"Car","setHorn","horn"⟩,none,none,none⟩],false⟩,
      ⟨"setRadio",[⟨.any "Radio",⟨"Car","setRadio","radio"⟩,none,none,none⟩],true⟩]
  postConstruct := some "init"
  shared := true
  advice := [("drive",["Log"])]

theorem compiled_unit_injects_directly_sample :
    ∃ code, Compile.unitOf workshop none (.construction carPlan) {} = (.ok code,{}) ∧
      ∃ d, Compile.Delivers workshop none {} (.construction carPlan) d ∧
        ∀ (s : Surroundings (StateM World)) (unit : String),
          Script.runUnit s unit code.statements = d.perform s unit := by
  have hc : ∃ code, Compile.unitOf workshop none (.construction carPlan) {} = (.ok code,{}) :=
    ⟨_,rfl⟩
  obtain ⟨code,hc⟩ := hc
  obtain ⟨d,hd,hrun⟩ := compiled_unit_injects_directly hc
  exact ⟨code,hc,d,hd,fun s unit => hrun (StateM World) s unit⟩

end Wiring
