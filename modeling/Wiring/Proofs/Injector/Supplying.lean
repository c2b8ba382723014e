import Mathlib
import Wiring.Proofs.Compile.Serving
import Wiring.Proofs.Injector.Delivering
import Wiring.Proofs.Injector.Returning

/-!
# What units are supplied with

While the unit of a key runs, an injector supplies the arguments of the constructor and of the
setters one after another. An argument that takes a set is supplied with an array under the keys of
its map. Each of its entries is what the key of the element comes to just then: a value made of the
tree of a literal, the shared instance, which is kept from then on, or what the unit of the element
returns when it is run anew.
-/
namespace Wiring

open Script (pulled)

namespace Resolve

open Act

variable {run : RunKey} {id : InjectorId} {key : Key} {w w' : World} {v : Value}
  {point : Option Parameter}

/-- A singleton pull leaves its instance kept. -/
theorem singleton_remembers (hrun : (run id key).Keeps [])
    (h : singleton run id key point w = (.ok v,w')) : w'.kept id key = some v := by
  cases hi : w.injector? id with
  | none =>
    rw [singleton,Work.run_bind_error _ (injector_gone hi)] at h
    cases congrArg Prod.fst h
  | some i =>
    cases hkept : w.kept id key with
    | some u =>
      rw [singleton_kept point hkept] at h
      obtain ⟨hu,rfl⟩ := Prod.mk.inj h
      rw [hkept,Except.ok.inj hu]
    | none =>
      have hkeeps := withPoint_keeps id point hrun w
      cases hran : withPoint id point (run id key) w with
      | mk answer after =>
        rw [hran] at hkeeps
        cases answer with
        | error f =>
          rw [singleton_failed hi hkept hran] at h
          cases congrArg Prod.fst h
        | ok r =>
          rw [singleton_ran hi hkept hran] at h
          obtain ⟨hv,rfl⟩ := Prod.mk.inj h
          rw [← Except.ok.inj hv]
          exact World.kept_remember_self (hkeeps.lives id (congrArg Option.isSome hi))

/-- A prototype pull gives the instance that is kept, or it runs the unit anew. -/
theorem prototype_runs (h : prototype run id key point w = (.ok v,w')) :
    w.kept id key = some v ∨ w.kept id key = none ∧ ∃ shared after,
      run id key (w.withInjector id (·.setPoint point)) = (.ok (v,shared),after) := by
  cases hi : w.injector? id with
  | none =>
    rw [prototype,withPoint_gone point _ hi] at h
    cases congrArg Prod.fst h
  | some i =>
    rw [prototype,withPoint_run point _ hi] at h
    have hok := congrArg Prod.fst h
    have hi' : (w.withInjector id (·.setPoint point)).injector? id = some (i.setPoint point) := by
      rw [World.injector?_withInjector,if_pos rfl,hi]
      rfl
    have hsame : (w.withInjector id (·.setPoint point)).kept id key = w.kept id key := by
      rw [World.kept,World.kept,hi',hi]
      cases i <;> rfl
    rw [← hsame]
    dsimp only at hok
    generalize w.withInjector id (·.setPoint point) = before at hok hi' ⊢
    cases hkept : before.kept id key with
    | some u =>
      rw [resolve_kept hkept] at hok
      exact .inl (congrArg some (Except.ok.inj hok))
    | none =>
      cases hran : run id key before with
      | mk answer after =>
        cases answer with
        | error f =>
          rw [resolve_failed hi' hkept hran] at hok
          cases hok
        | ok r =>
          rw [resolve_ran hi' hkept hran] at hok
          exact .inr ⟨rfl,r.2,after,by rw [← Except.ok.inj hok]⟩

/-- What is made of the tree of a literal shows this tree. -/
theorem remake_shows {t : Tree} (ht : t.Literal)
    (hd : Tree.Undecoded w.site.registry.decoders t.nodes)
    (h : t.remake (surroundings run id) w = (.ok v,w')) : w'.site.heap.unfold v = t := by
  have houtcome := Tree.toExpr_outcome t
  rw [ht.bareNatives_eq] at houtcome
  obtain ⟨e,he⟩ := houtcome
  have hrebuilds : Script.Rebuilds (surroundings run id) "" (some id) t :=
    Script.rebuilds (Script.surroundings_makesValues run id) ht
  have hmakes := hrebuilds e he w hd []
  have hremakes : Acts [] (Script.eval (surroundings run id) "" e) (t.remake (surroundings run id)) :=
    remake_acts t e he
  have hacts := congrFun hremakes w
  have hrun : (t.remake (surroundings run id) >>= fun a => pure (a,[])) w =
      ((.ok (v,[]),w') : Except Failure (Value × Script.Locals) × World) := Work.run_bind h
  obtain ⟨hv,hw⟩ := Prod.mk.inj (hmakes.symm.trans (hacts.trans hrun))
  rw [← hw,← (Prod.mk.inj (Except.ok.inj hv)).1]
  exact (Tree.built_build (some id) t w.site.heap).unfold

end Resolve

/-- An injector that runs a unit, with the runs below it. The unit was compiled of the graph while
the literals of this showed these trees. The last world is the one in which the unit has run. -/
structure Supplier where
  graph : Graph
  shown : Value → Tree
  run : RunKey
  id : InjectorId
  last : World

namespace Supplier

variable (σ : Supplier)

/-- What the unit may ask for. -/
abbrev surroundings : Script.Surroundings (StateM World) := Resolve.surroundings σ.run σ.id

/-- What an element of a map comes to between two worlds. A literal is made anew of its tree. An
instance that is shared is the one that the injector keeps for the key from then on. Any other one
is kept already, or it is what the unit of the element returns when it is run. -/
inductive GivesElement (key : Key) (v : Value) (u u' : World) : Prop where
  | literal {x : Value} (hb : σ.graph.get? key = some (.literal x))
      (h : (σ.shown x).remake σ.surroundings u = (.ok v,u'))
      (hsame : (σ.shown x).Literal →
        Tree.Undecoded u.site.registry.decoders (σ.shown x).nodes →
          u'.site.heap.unfold v = σ.shown x)
  | shared {b : Binding Value} (hb : σ.graph.get? key = some b) (hl : ∀ x, b ≠ .literal x)
      (hs : b.isShared = true) (h : Resolve.singleton σ.run σ.id key none u = (.ok v,u'))
      (hkept : σ.last.kept σ.id key = some v)
  | unshared {b : Binding Value} (hb : σ.graph.get? key = some b) (hl : ∀ x, b ≠ .literal x)
      (hs : b.isShared = false) (h : Resolve.prototype σ.run σ.id key none u = (.ok v,u'))
      (hrun : u.kept σ.id key = some v ∨ u.kept σ.id key = none ∧ ∃ shared after,
        σ.run σ.id key (u.withInjector σ.id (·.setPoint none)) = (.ok (v,shared),after))

/-- The entries of an array, one after another. -/
inductive GivesEntries : List (ArrayKey × Key) → List (ArrayKey × Value) → World → World → Prop where
  | nil (u : World) : GivesEntries [] [] u u
  | cons {key : ArrayKey} {element : Key} {v : Value} {rest : List (ArrayKey × Key)}
      {entries : List (ArrayKey × Value)} {u mid u' : World} (h : σ.GivesElement element v u mid)
      (hrest : GivesEntries rest entries mid u') :
      GivesEntries ((key,element) :: rest) ((key,v) :: entries) u u'

/-- The array of a map, which is under the keys of the map and in their order. Its entries are what
the keys of the elements come to. -/
inductive GivesSet (interface : String) : Value → World → World → Prop where
  | intro {m : MapBinding} {a : Keyed Value} {u u' : World}
      (hm : σ.graph.map? interface = some m)
      (hkeys : a.entries.map Prod.fst = m.elements.map Prod.fst)
      (helements : m.elements = (m.elements.map Prod.fst).map fun key =>
        (key,MapBinding.elementKey interface key))
      (h : σ.GivesEntries m.elements a.entries u u') : GivesSet interface (.array a) u u'

/-- The value of one argument. The injection point comes before the set. -/
inductive GivesArgument (a : Argument Value) (v : Value) (u u' : World) : Prop where
  | set {interface : String} (hs : a.set = some interface)
      (hp : a.key.interface ≠ Key.pointInterface) (h : σ.GivesSet interface v u u')
  | other {x : Supply} (ha : a.set = none ∨ a.key.interface = Key.pointInterface)
      (h : x.perform σ.surroundings u = (.ok v,u'))

inductive GivesArguments : List (Argument Value) → List Value → World → World → Prop where
  | nil (u : World) : GivesArguments [] [] u u
  | cons {a : Argument Value} {v : Value} {rest : List (Argument Value)} {values : List Value}
      {u mid u' : World} (h : σ.GivesArgument a v u mid) (hrest : GivesArguments rest values mid u') :
      GivesArguments (a :: rest) (v :: values) u u'

/-- The setters that are called on an object. An optional one may be left out. -/
inductive CallsSetters (ref : ObjectRef) : List (SetterCall Value) → World → World → Prop where
  | nil (u : World) : CallsSetters ref [] u u
  | call {s : SetterCall Value} {rest : List (SetterCall Value)} {values : List Value} {r : Value}
      {u mid mid' u' : World} (hargs : σ.GivesArguments s.arguments values u mid)
      (h : Objects.invoke (Resolve.resolve σ.run) ref s.method values mid = (.ok r,mid'))
      (hrest : CallsSetters ref rest mid' u') : CallsSetters ref (s :: rest) u u'
  | left {s : SetterCall Value} {rest : List (SetterCall Value)} {u u' : World}
      (ho : s.optional = true) (hrest : CallsSetters ref rest u u') :
      CallsSetters ref (s :: rest) u u'

/-- An object is constructed of the values of its arguments, and its setters are called. -/
inductive Makes (plan : Plan Value) (ref : ObjectRef) (u u' : World) : Prop where
  | intro {values : List Value} {mid mid' : World}
      (hargs : σ.GivesArguments plan.arguments values u mid)
      (h : Objects.construct (Resolve.resolve σ.run) plan.className values mid = (.ok ref,mid'))
      (hsetters : σ.CallsSetters ref plan.setters mid' u') : Makes plan ref u u'

variable {σ}

theorem GivesEntries.keys {rows : List (ArrayKey × Key)} {entries : List (ArrayKey × Value)}
    {u u' : World} (h : σ.GivesEntries rows entries u u') :
    entries.map Prod.fst = rows.map Prod.fst := by
  induction h with
  | nil => rfl
  | cons _ _ ih => rw [List.map_cons,List.map_cons,ih]

section Supplies

open Compile

variable {scope : Option ScopeOf} {start : Site} {u u' : World} {v : Value}
  (hrun : ∀ id key, (σ.run id key).Keeps [])
  (hshown : ∀ key x t, σ.graph.get? key = some (.literal x) → Shows scope start x t → t = σ.shown x)

include hrun in
theorem follow : σ.surroundings.Follow (Preserves []) := (Resolve.surroundings_last hrun σ.id).follow

include hrun hshown

theorem element_gives {key : Key} {x : Element} (hx : ElementOf σ.graph scope start key x)
    (h : x.perform σ.surroundings u = (.ok v,u')) (hlast : Preserves [] u' σ.last) :
    σ.GivesElement key v u u' := by
  cases hx with
  | @literal x t hb ht =>
    obtain rfl := hshown key x t hb ht
    exact .literal hb h fun hliteral hdecoders => Resolve.remake_shows hliteral hdecoders h
  | @pull b hb hl =>
    cases hs : b.isShared with
    | true =>
      rw [hs] at h
      exact .shared hb hl hs h (hlast.kept _ _ _ (Resolve.singleton_remembers (hrun σ.id key) h))
    | false =>
      rw [hs] at h
      exact .unshared hb hl hs h (Resolve.prototype_runs h)

/-- The induction is on the elements: what is kept for the first one stays while the others are
supplied. -/
theorem entries_give {rows : List (ArrayKey × Key)} {elements : List (ArrayKey × Element)}
    {entries : List (ArrayKey × Value)}
    (hx : List.Forall₂ (fun e x => x.1 = e.1 ∧ ElementOf σ.graph scope start e.2 x.2) rows elements)
    (h : (elements.mapM fun e => do return (e.1,← e.2.perform σ.surroundings) :
      Act (List (ArrayKey × Value))) u = (.ok entries,u')) (hlast : Preserves [] u' σ.last) :
    σ.GivesEntries rows entries u u' := by
  induction hx generalizing u entries with
  | nil =>
    rw [List.mapM_nil] at h
    obtain ⟨hentries,rfl⟩ := Prod.mk.inj h
    rw [← Except.ok.inj hentries]
    exact .nil u
  | @cons row x rows elements hx _ ih =>
    obtain ⟨key,element⟩ := row
    obtain ⟨key',x⟩ := x
    obtain ⟨rfl,hx⟩ := hx
    rw [List.mapM_cons,bind_assoc] at h
    obtain ⟨v,mid,hv,h⟩ := Work.run_bind_ok h
    rw [pure_bind] at h
    obtain ⟨more,last,hmore,hend⟩ := Work.run_bind_ok h
    obtain ⟨hentries,rfl⟩ := Prod.mk.inj hend
    rw [← Except.ok.inj hentries]
    have hfollow : (elements.mapM fun e => do return (e.1,← e.2.perform σ.surroundings) :
        Act (List (ArrayKey × Value))).Along (Preserves []) :=
      Act.Along.mapM fun e _ => ((follow hrun).element e.2).bind fun _ => .pure _
    have hrest := hfollow mid
    rw [hmore] at hrest
    exact .cons (element_gives hrun hshown hx hv (hrest.trans hlast)) (ih hmore)

theorem argument_gives (hmodule : ∀ interface m, σ.graph.map? interface = some m → m.Keyed ∧
      ∀ e ∈ m.elements, e.2 = MapBinding.elementKey interface e.1)
    {a : Argument Value} {x : Supply} (hx : Supplies σ.graph scope start a x)
    (h : x.perform σ.surroundings u = (.ok v,u')) (hlast : Preserves [] u' σ.last) :
    σ.GivesArgument a v u u' := by
  cases hx with
  | @map interface m elements hp hs hm he =>
    obtain ⟨entries,last,hentries,hend⟩ := Work.run_bind_ok h
    obtain ⟨hv,rfl⟩ := Prod.mk.inj hend
    obtain rfl := Except.ok.inj hv
    obtain ⟨hkeyed,hnamed⟩ := hmodule interface m hm
    have hgives := entries_give hrun hshown he hentries hlast
    have hstored : (Keyed.ofEntries entries).entries = entries := by
      rw [Keyed.ofEntries_eq]
      exact Table.ofRows_nodup (hgives.keys ▸ hkeyed)
    refine .set hs hp (.intro hm ?_ ?_ ?_)
    · rw [hstored]
      exact hgives.keys
    · rw [List.map_map]
      exact (List.map_id _).symm.trans (List.map_congr_left fun row hrow =>
        Prod.ext rfl (hnamed row hrow))
    · rw [hstored]
      exact hgives
  | point hp => exact .other (.inr hp) h
  | literal hp hs hb hv => exact .other (.inl hs) h
  | provider hp hs hb => exact .other (.inl hs) h
  | bound hp hs hb hl hq => exact .other (.inl hs) h
  | outside hp hs hb ht hscope => exact .other (.inl hs) h
  | fallback hp hs hb ht hscope hf hv => exact .other (.inl hs) h

variable (hmodule : ∀ interface m, σ.graph.map? interface = some m → m.Keyed ∧
  ∀ e ∈ m.elements, e.2 = MapBinding.elementKey interface e.1)

include hmodule

theorem arguments_give {as : List (Argument Value)} {xs : List Supply} {values : List Value}
    (hx : List.Forall₂ (Supplies σ.graph scope start) as xs)
    (h : supplied σ.surroundings xs u = (.ok values,u')) (hlast : Preserves [] u' σ.last) :
    σ.GivesArguments as values u u' := by
  induction hx generalizing u values with
  | nil =>
    rw [supplied,List.mapM_nil] at h
    obtain ⟨hvalues,rfl⟩ := Prod.mk.inj h
    rw [← Except.ok.inj hvalues]
    exact .nil u
  | @cons a x as xs hx _ ih =>
    rw [supplied,List.mapM_cons] at h
    obtain ⟨v,mid,hv,h⟩ := Work.run_bind_ok h
    obtain ⟨more,last,hmore,hend⟩ := Work.run_bind_ok h
    obtain ⟨hvalues,rfl⟩ := Prod.mk.inj hend
    rw [← Except.ok.inj hvalues]
    have hrest := (follow hrun).supplied xs mid
    rw [supplied,hmore] at hrest
    exact .cons (argument_gives hrun hshown hmodule hx hv (hrest.trans hlast)) (ih hmore)

theorem setters_called {ref : ObjectRef} {unit : String} {ss : List (SetterCall Value)}
    {calls : List (String × List Supply)} (hkept : Kept σ.graph scope start ss calls)
    (h : called σ.surroundings unit (.object ref) calls u = (.ok (),u'))
    (hlast : Preserves [] u' σ.last) : σ.CallsSetters ref ss u u' := by
  induction hkept generalizing u with
  | nil =>
    obtain ⟨-,rfl⟩ := Prod.mk.inj h
    exact .nil u
  | @call s rest xs calls hx _ ih =>
    rw [called,List.forM_cons,bind_assoc] at h
    obtain ⟨values,mid,hvalues,h⟩ := Work.run_bind_ok h
    rw [bind_assoc] at h
    obtain ⟨r,mid',hr,h⟩ := Work.run_bind_ok h
    rw [pure_bind] at h
    have hrest := (follow hrun).called unit (.object ref) calls mid'
    rw [called,h] at hrest
    have hinvoked := (follow hrun).invoked unit (.object ref) s.method values mid
    rw [hr] at hinvoked
    exact .call (arguments_give hrun hshown hmodule hx hvalues
      ((hinvoked.trans hrest).trans hlast)) hr (ih h)
  | left ho _ _ _ _ ih => exact .left ho (ih h)

/-- An object is made of its plan; the hook and what comes after it leave what is kept. -/
theorem assembly_makes {plan : Plan Value} {a : Assembly} {unit : String} {made : Value}
    (ha : Assembles σ.graph scope start plan a)
    (h : a.perform σ.surroundings unit u = (.ok made,u')) (hlast : Preserves [] u' σ.last) :
    ∃ ref mid, made = .object ref ∧ σ.Makes plan ref u mid := by
  cases ha with
  | @intro xs calls hxs hcalls =>
    obtain ⟨values,given,hvalues,h⟩ := Work.run_bind_ok h
    obtain ⟨made',built,hbuilt,h⟩ := Work.run_bind_ok h
    obtain ⟨_,set,hset,h⟩ := Work.run_bind_ok h
    obtain ⟨_,hooked,hhook,hend⟩ := Work.run_bind_ok h
    obtain ⟨hmade,rfl⟩ := Prod.mk.inj hend
    obtain rfl := Except.ok.inj hmade
    obtain ⟨ref,built',hconstruct,hend⟩ := Work.run_bind_ok hbuilt
    obtain ⟨hmade,rfl⟩ := Prod.mk.inj hend
    obtain rfl := Except.ok.inj hmade
    have hafterSetters := (follow hrun).called unit (.object ref)
      (plan.postConstruct.toList.map fun method => (method,[])) set
    rw [hhook] at hafterSetters
    have hsetLasts := hafterSetters.trans hlast
    have hafterBuilt := (follow hrun).called unit (.object ref) calls built'
    rw [hset] at hafterBuilt
    have hafterGiven := (follow hrun).construct plan.className values given
    rw [hbuilt] at hafterGiven
    refine ⟨ref,set,rfl,.intro (arguments_give hrun hshown hmodule hxs hvalues ?_) hconstruct
      (setters_called hrun hshown hmodule hcalls hset hsetLasts)⟩
    exact (hafterGiven.trans hafterBuilt).trans hsetLasts

end Supplies

end Supplier
end Wiring
