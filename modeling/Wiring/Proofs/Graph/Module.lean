import Mathlib
import Wiring.Proofs.Graph.Ledger
import Wiring.Proofs.Graph.Merging
import Wiring.Proofs.Site

/-!
# What a module binds in the end

A ledger is kept beside the graph while the statements of a module run, one entry for each
binding. The ledger that is there in the end settles the statements, so it can be compared
with what explicit statements alone bind.
-/
namespace Wiring

variable {start : Site}

/-- A site that comes about while a module is built: classes have been looked up and
literals have been built since the start. -/
inductive Reached (start : Site) : Site → Prop where
  | start : Reached start start
  | looked {site : Site} (className : String) (h : Reached start site) :
      Reached start (Classes.find? className site).2
  | built {site : Site} (tree : Tree) (h : Reached start site) :
      Reached start (Work.build none tree site).2

/-- What a key is bound to if it came to be bound in this way. -/
inductive Describes (start : Site) : Origin → Binding Value → Prop where
  | stated {interface : String} {target : Target} {b : Binding Value} {site site' : Site}
      (shared : Bool) (hs : Reached start site)
      (h : Graph.bindingOf interface target site = (.ok (some b),site')) :
      Describes start (.stated interface target shared) (if shared then b.share else b)
  | implied {className : String} {c : ClassDecl} {site site' : Site} (hs : Reached start site)
      (h : Classes.find? className site = (.ok (some c),site')) (hc : c.isConcrete = true) :
      Describes start (.implied className) (.construction (.ofDecl className c))

theorem rel_orElse {α β : Type} {r : α → β → Prop} {a a' : Option α} {b b' : Option β}
    (h : Option.Rel r a b) (h' : Option.Rel r a' b') :
    Option.Rel r (a <|> a') (b <|> b') := by
  cases h with
  | none => exact h'
  | some hb => exact .some hb

theorem rel_some {α β : Type} {r : α → β → Prop} {a : α} {b : Option β}
    (h : Option.Rel r (some a) b) : ∃ x, b = some x ∧ r a x := by
  cases h with
  | some hx => exact ⟨_,rfl,hx⟩

/-- Each binding of the graph is the one its entry describes. -/
structure Accounts (start : Site) (l : Ledger) (g : Graph) : Prop where
  maps : g.maps = l.maps
  nodup : (g.bindings.map Prod.fst).Nodup
  bound : ∀ key, Option.Rel (Describes start) (l.origins key) (g.get? key)

namespace Accounts

variable {l l' : Ledger} {g g' : Graph}

theorem empty : Accounts start .empty Container.empty := ⟨rfl,List.nodup_nil,fun _ => .none⟩

theorem add (h : Accounts start l g) (key : Key) {origin : Origin} {b : Binding Value}
    (hb : Describes start origin b) : Accounts start (l.put key origin) (g.add key b) where
  maps := h.maps
  nodup := Table.nodup_put key b h.nodup
  bound k := by
    rw [Container.get?,Container.add]
    by_cases hk : k = key
    · subst hk
      rw [Ledger.put_self,Table.find?_put_self]
      exact .some hb
    · rw [Ledger.put_of_ne l _ hk,Table.find?_put_of_ne _ _ hk]
      exact h.bound k

theorem collect (h : Accounts start l g) (interface : String) (key : ArrayKey) :
    Accounts start (l.collect interface key) (g.setMap interface
      ((l.elements interface).insert key (MapBinding.elementKey interface key))) where
  maps := by rw [Container.setMap,Ledger.collect,h.maps]
  nodup := h.nodup
  bound := h.bound

theorem mapOf (h : Accounts start l g) (interface : String) :
    g.mapOf interface = l.elements interface := by
  rw [Container.mapOf,Container.map?,Ledger.elements,h.maps]

theorem fill (h : Accounts start l g) (h' : Accounts start l' g') :
    Accounts start (l.fill l') (g.fill g') where
  maps := by rw [Container.fill,Ledger.fill,h.maps,h'.maps]
  nodup := Table.nodup_foldl_putNew _ h.nodup
  bound key := by
    rw [Container.get?_fill]
    exact rel_orElse (h.bound key) (h'.bound key)

theorem override (h : Accounts start l g) (h' : Accounts start l' g') :
    Accounts start (l.override l') (g.override g') where
  maps := by rw [Container.override,Ledger.override,h.maps,h'.maps]
  nodup := Table.nodup_foldl_put _ h.nodup
  bound key := by
    rw [Container.get?_override _ _ _ h'.nodup]
    exact rel_orElse (h'.bound key) (h.bound key)

theorem free (h : Accounts start l g) {key : Key} (hg : g.has key = false) :
    l.origins key = none := by
  cases hl : l.origins key with
  | none => rfl
  | some origin =>
    have hbound := h.bound key
    rw [hl] at hbound
    obtain ⟨b,hb,_⟩ := rel_some hbound
    rw [Container.has,Table.has,← Container.get?,hb] at hg
    cases hg

theorem found (h : Accounts start l g) {key : Key} {origin : Origin}
    (hl : l.origins key = some origin) : ∃ b, g.get? key = some b ∧ Describes start origin b := by
  have hbound := h.bound key
  rw [hl] at hbound
  exact rel_some hbound

end Accounts

namespace Graph

open Work

variable {l : Ledger} {g : Graph}

theorem find?_reached (className : String) : (Classes.find? className).Maintains (Reached start)
    fun c => ∃ site site', Reached start site ∧ Classes.find? className site = (.ok c,site') :=
  .seen fun _ h => h.looked className

theorem walkFuel_reached : Classes.walkFuel.Maintains (Reached start) fun _ => True :=
  fun _ h => ⟨h,fun _ _ => trivial⟩

/-- Binding a class to itself, and the classes it asks for, only adds implied entries. -/
theorem untarget_accounts (fuel : Nat) (className : String) (h : Accounts start l g) :
    (untarget fuel g className).Maintains (Reached start)
      fun g' => ∃ l', l.Implies l' ∧ Accounts start l' g' := by
  induction fuel generalizing l g className with
  | zero => exact .throw _
  | succ fuel ih =>
    rw [untarget]
    split
    next => exact .pure ⟨l,.refl l,h⟩
    next hfree =>
      refine (find?_reached className).bind fun c hc => ?_
      obtain ⟨site,site',hsite,hfind⟩ := hc
      cases c with
      | none => exact .pure ⟨l,.refl l,h⟩
      | some c =>
        dsimp only
        split
        next hconcrete =>
          have hnone := h.free (Bool.not_eq_true _ ▸ hfree)
          refine .foldlM ?_ fun other _ g' ⟨l',hl',hg'⟩ => ?_
          · exact ⟨_,Ledger.implies_put hnone,h.add _ (.implied hsite hfind hconcrete)⟩
          · exact (ih other hg').imp fun g'' ⟨l'',hl'',hg''⟩ => ⟨l'',hl'.trans hl'',hg''⟩
        next => exact .pure ⟨l,.refl l,h⟩

theorem untargetAll_accounts (classNames : List String) (h : Accounts start l g) :
    (do classNames.foldlM (untarget (← Classes.walkFuel)) g : Work Graph).Maintains (Reached start)
      fun g' => ∃ l', l.Implies l' ∧ Accounts start l' g' := by
  refine walkFuel_reached.bind fun fuel _ => .foldlM ⟨l,.refl l,h⟩ fun className _ g' hg' => ?_
  obtain ⟨l',hl',hg'⟩ := hg'
  exact (untarget_accounts fuel className hg').imp
    fun g'' ⟨l'',hl'',hg''⟩ => ⟨l'',hl'.trans hl'',hg''⟩

theorem ofClass_reached (className : String) :
    (Plan.ofClass className).Maintains (Reached start) fun _ => True := by
  unfold Plan.ofClass Classes.find
  refine Maintains.bind (P := fun _ => True) ?_ fun c _ => .pure trivial
  refine (find?_reached className).bind fun c _ => ?_
  cases c with
  | none => exact .throw _
  | some c => exact .pure trivial

theorem bindingOf_reached (interface : String) (target : Target) :
    (bindingOf interface target).Maintains (Reached start) fun b => ∃ site site',
      Reached start site ∧ bindingOf interface target site = (.ok b,site') := by
  have hkeep : (bindingOf interface target).Maintains (Reached start) fun _ => True := by
    cases target with
    | «to» className => exact (ofClass_reached className).bind fun _ _ => .pure trivial
    | untargeted => exact (ofClass_reached interface).bind fun _ _ => .pure trivial
    | literal tree =>
      have hbuild : (Work.build none tree).Maintains (Reached start) fun _ => True :=
        fun site h => ⟨h.built tree,fun _ _ => trivial⟩
      exact hbuild.bind fun _ _ => .pure trivial
    | provider className context => exact (ofClass_reached className).bind fun _ _ => .pure trivial
    | nullObject => exact .pure trivial
    | unfinished => exact .pure trivial
  exact .seen fun site h => (hkeep site h).1

theorem bindingOf_class (interface className : String) :
    (bindingOf interface (.to className)).Ensures
      fun b => ∃ c, b = some (.construction (.ofDecl className c)) := by
  have hclass : (Plan.ofClass className).Ensures fun plan => ∃ c, plan = .ofDecl className c :=
    (Ensures.any _).bind fun c _ => .pure ⟨c,rfl⟩
  exact hclass.bind fun plan ⟨c,hc⟩ => .pure ⟨c,by rw [hc]⟩

/-- Only an unfinished statement describes no binding. -/
theorem bindingOf_isSome (interface : String) (target : Target) :
    (bindingOf interface target).Ensures fun b => b.isSome = true ∨ target = .unfinished := by
  cases target with
  | «to» className => exact (Ensures.any _).bind fun _ _ => .pure (.inl rfl)
  | untargeted => exact (Ensures.any _).bind fun _ _ => .pure (.inl rfl)
  | literal tree => exact (Ensures.any _).bind fun _ _ => .pure (.inl rfl)
  | provider className context => exact (Ensures.any _).bind fun _ _ => .pure (.inl rfl)
  | nullObject => exact .pure (.inl rfl)
  | unfinished => exact .pure (.inr rfl)

theorem enter_finished {interface name : String} {target : Target} {shared : Bool}
    {b : Binding Value} {site site' : Site}
    (h : bindingOf interface target site = (.ok (some b),site')) :
    l.enter interface name target shared =
      l.put (.of interface name) (.stated interface target shared) := by
  cases target with
  | unfinished => cases h
  | _ => rfl

theorem bindTarget_accounts (interface name : String) (target : Target) (shared : Bool)
    (h : Accounts start l g) :
    (bindTarget g interface name target shared).Maintains (Reached start)
      fun g' => ∃ l', (l.enter interface name target shared).Implies l' ∧ Accounts start l' g' := by
  unfold bindTarget
  refine (bindingOf_reached interface target).bind fun b hb => ?_
  obtain ⟨site,site',hsite,hb⟩ := hb
  cases b with
  | none =>
    refine .pure ⟨l,?_,h⟩
    rcases bindingOf_isSome interface target site _ site' hb with hsome | rfl
    · cases hsome
    · exact .refl l
  | some b =>
    have hstated : Describes start (.stated interface target false) b :=
      .stated false hsite hb
    rw [enter_finished hb]
    dsimp only
    refine (untargetAll_accounts b.candidates
      (h.add (.of interface name) hstated)).bind fun g' ⟨l',hl',hg'⟩ => .pure ?_
    cases shared with
    | false => exact ⟨l',hl',hg'⟩
    | true =>
      -- The statement is entered unshared, and again after its classes have been bound.
      refine ⟨l'.put (.of interface name) (.stated interface target true),hl'.put_other _,?_⟩
      obtain ⟨b',hb',hdescribes⟩ := hg'.found (hl'.stands (Ledger.put_self ..))
      rw [if_pos rfl,Container.share,hb']
      refine hg'.add _ ?_
      cases hdescribes with
      | stated _ hsite' hb'' => exact .stated true hsite' hb''

theorem intercept_accounts (p : Pointcut) (h : Accounts start l g) :
    (intercept g p).Maintains (Reached start)
      fun g' => ∃ l', l.Implies l' ∧ Accounts start l' g' :=
  (untargetAll_accounts p.interceptors h).bind fun _ ⟨l',hl',hg'⟩ =>
    .pure ⟨l',hl',⟨hg'.maps,hg'.nodup,hg'.bound⟩⟩

mutual

/-- One statement takes a graph and its ledger to a graph and a ledger that settles it. -/
theorem runStatement_accounts {l : Ledger} {g : Graph} (h : Accounts start l g) :
    (statement : ModuleStatement) → (runStatement g statement).Maintains (Reached start)
      fun g' => ∃ l', l.Settles statement l' ∧ Accounts start l' g'
  | .bind interface name target shared => by
      rw [runStatement]
      exact (bindTarget_accounts _ _ _ _ h).imp fun g' ⟨l',hl',hg'⟩ =>
        ⟨l',by rwa [Ledger.Settles],hg'⟩
  | .element interface key name target shared => by
      rw [runStatement]
      rw [h.mapOf]
      refine (bindTarget_accounts _ _ _ _ (h.collect _ _)).imp fun g' ⟨l',hl',hg'⟩ =>
        ⟨l',?_,hg'⟩
      rwa [Ledger.Settles]
  | .install statements => by
      rw [runStatement]
      refine (runAll_accounts .empty statements).bind fun g' ⟨l',hl',hg'⟩ => .pure ?_
      exact ⟨_,by rw [Ledger.Settles]; exact ⟨l',hl',rfl⟩,h.fill hg'⟩
  | .override statements => by
      rw [runStatement]
      refine (runAll_accounts .empty statements).bind fun g' ⟨l',hl',hg'⟩ => .pure ?_
      exact ⟨_,by rw [Ledger.Settles]; exact ⟨l',hl',rfl⟩,h.override hg'⟩
  | .intercept pointcut => by
      rw [runStatement]
      exact (intercept_accounts pointcut h).imp fun g' ⟨l',hl',hg'⟩ =>
        ⟨l',by rwa [Ledger.Settles],hg'⟩

theorem runAll_accounts {l : Ledger} {g : Graph} (h : Accounts start l g) :
    (statements : List ModuleStatement) → (runAll g statements).Maintains (Reached start)
      fun g' => ∃ l', l.SettlesAll statements l' ∧ Accounts start l' g'
  | [] => by
      rw [runAll]
      exact .pure ⟨l,by rw [Ledger.SettlesAll],h⟩
  | statement :: rest => by
      rw [runAll]
      refine (runStatement_accounts h statement).bind fun g' ⟨l',hl',hg'⟩ => ?_
      refine (runAll_accounts hg' rest).imp fun g'' ⟨l'',hl'',hg''⟩ => ⟨l'',?_,hg''⟩
      rw [Ledger.SettlesAll]
      exact ⟨l',hl',hl''⟩

end

end Graph

theorem Describes.class {interface className : String} {b : Binding Value}
    (h : Describes start (.stated interface (.to className) false) b) :
    ∃ c, b = .construction (.ofDecl className c) := by
  cases h with
  | stated _ _ hb =>
    obtain ⟨c,hc⟩ := Graph.bindingOf_class _ _ _ _ _ hb
    exact ⟨c,Option.some.inj hc⟩

/-- An implied binding counts as a binding of the module it was made in. The graph of a
module that builds has a ledger that settles the statements: in one module explicit
bindings win over implied ones and later explicit ones over earlier ones, and where modules
are put together every binding ranks with the module it comes from. A key holds what
explicit statements alone bind it to, or a class bound to itself. Without installed and
overriding modules the explicit binding always stands. -/
theorem implied_bindings_rank_with_their_module {statements : List ModuleStatement}
    {site site' : Site} {g : Graph} (h : Graph.ofModule statements site = (.ok g,site')) :
    ∃ l, Ledger.empty.SettlesAll statements l ∧
      (∀ key, Option.Rel (Describes site) (l.origins key) (g.get? key)) ∧
      (Ledger.explicit statements).Resembles l ∧
      ((∀ s ∈ statements, s.merges = false) → (Ledger.explicit statements).Within l) := by
  have hrun := (Graph.runAll_accounts .empty statements site .start).2 g
    (congrArg Prod.fst h)
  obtain ⟨l,hl,hg⟩ := hrun
  exact ⟨l,hl,hg.bound,hl.resembles (.refl _),hl.within (.refl _) (.refl _)⟩

/-- A car that asks for a piston, and a piston that nothing asks for. -/
def garage : Site where
  registry :=
    { classes :=
        [("Piston",{ name := "Piston" }),("TurboPiston",{ name := "TurboPiston" }),
          ("Car",{ name := "Car",
                   parameters := [⟨"piston",some "Piston",none,none,none,none⟩] })] }

def bindCar : ModuleStatement := .bind "Car" none .untargeted false

def bindTurbo : ModuleStatement := .bind "Piston" none (.to "TurboPiston") false

/-- The statement that binds the piston, as its origin. -/
def turbo : Origin := .stated "Piston" (.to "TurboPiston") false

/-- In one module the explicit binding takes the place of the implied one. -/
theorem implied_bindings_rank_with_their_module_sample :
    (∃ g, Graph.ofModule [bindCar,bindTurbo] garage = (.ok g,garage) ∧
      ∃ b, g.get? (.any "Piston") = some b ∧ Describes garage turbo b) ∧
    ∀ s ∈ [bindCar,bindTurbo], s.merges = false := by
  have hflat : ∀ s ∈ [bindCar,bindTurbo], s.merges = false := by
    intro s hs
    rcases List.mem_pair.mp hs with rfl | rfl <;> rfl
  have hrun : ∃ g, Graph.ofModule [bindCar,bindTurbo] garage = (.ok g,garage) := ⟨_,rfl⟩
  obtain ⟨g,hrun⟩ := hrun
  obtain ⟨l,-,hbound,-,hwithin⟩ := implied_bindings_rank_with_their_module hrun
  have hturbo : l.origins (.any "Piston") = some turbo := hwithin hflat _ _ rfl
  have hpiston := hbound (.any "Piston")
  rw [hturbo] at hpiston
  exact ⟨⟨g,hrun,rel_some hpiston⟩,hflat⟩

/-- An installed module that binds the piston comes too late once the car is bound: the
piston of the car stays the implied one. -/
theorem explicit_binding_displaced :
    ∃ g, Graph.ofModule [bindCar,.install [bindTurbo]] garage = (.ok g,garage) ∧
      (Ledger.explicit [bindCar,.install [bindTurbo]]).origins (.any "Piston") = some turbo ∧
      ∃ b, g.get? (.any "Piston") = some b ∧ ¬Describes garage turbo b := by
  refine ⟨_,rfl,rfl,_,rfl,fun h => ?_⟩
  obtain ⟨c,hc⟩ := h.class
  have hname : "Piston" = "TurboPiston" := congrArg Plan.className (Binding.construction.inj hc)
  exact absurd hname (by decide)

end Wiring
