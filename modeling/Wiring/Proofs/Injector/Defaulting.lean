import Mathlib
import Wiring.Proofs.Injector.Unbinding

/-!
# Defaults shadow nothing

Where a unit is compiled with the default of a parameter, nothing is known of the key that the
parameter asks for. As long as nothing but the unit of that key itself could lie at its place, there
is no ground for anything of the key later on, so a request for it ends in telling that it is not
bound. Only a whole compile that the request has to make first may fail before that.
-/
namespace Wiring

open Layout (unitPlace)
open World (Has Grounds Grounded Accounts)

namespace Injector

/-- How an injector comes to compile units, and how the scopes of other keys are told then: in a
whole compile, on demand, or in memory. -/
inductive Compiles (i : Injector) : Graph → Option ScopeOf → Prop where
  | whole {s : ScriptInjector} {g g' : Graph} {site site' : Site} (hi : i = script s)
      (hg : s.graph = some g) (h : Prepare.graph s.dir g site = (.ok g',site')) :
      Compiles i g' none
  | single {s : ScriptInjector} {g : Graph} (hi : i = script s) (hg : s.graph = some g) :
      Compiles i g (some (Resolve.scopeIn s.dir g))
  | memory {d : DirectInjector} (hi : i = direct d) :
      Compiles i d.graph (some (Resolve.directScope d.graph))

namespace Compiles

variable {i : Injector} {g : Graph} {scope : Option ScopeOf} {scopeOf : ScopeOf} {key : Key}

theorem reads (h : i.Compiles g scope) (hscope : scope = some scopeOf) (key : Key) (site : Site) :
    (scopeOf key site).2 = site := by
  cases h with
  | whole hi hg h => cases hscope
  | @single s g hi hg =>
    obtain rfl := Option.some.inj hscope
    exact Resolve.scopeIn_site s.dir g key site
  | @memory d hi =>
    obtain rfl := Option.some.inj hscope
    exact Resolve.directScope_site d.graph key site

theorem fails (h : i.Compiles g scope) (hscope : scope = some scopeOf) {site : Site} {f : Failure}
    (hf : (scopeOf key site).1 = .error f) : f = .notCompiled key.text ∨ f.isUnbound = false := by
  cases h with
  | whole hi hg h => cases hscope
  | single hi hg =>
    obtain rfl := Option.some.inj hscope
    exact Resolve.scopeIn_fails hf
  | memory hi =>
    obtain rfl := Option.some.inj hscope
    exact .inl (Resolve.directScope_fails hf)

/-- The injector has its graph, all of which is in the one that is compiled. -/
theorem graph (h : i.Compiles g scope) :
    ∃ own, i.graph? = some own ∧ ∀ key, own.has key = true → g.has key = true := by
  cases h with
  | @whole s own g site site' hi hg h =>
    subst hi
    exact ⟨own,hg,fun key hkey => (Prepare.graph_has s.dir own site g site' h key).mpr (.inl hkey)⟩
  | single hi hg =>
    subst hi
    exact ⟨_,hg,fun _ hkey => hkey⟩
  | memory hi =>
    subst hi
    exact ⟨_,rfl,fun _ hkey => hkey⟩

end Compiles

end Injector

/-- A key is asked of an injector, after other things have been asked of injectors. -/
structure Inquiry where
  start : World
  before : List (InjectorId × Operation)
  id : InjectorId
  interface : String
  name : String

namespace Inquiry

def key (q : Inquiry) : Key := .of q.interface q.name

/-- The world in which the key is asked for. -/
def now (q : Inquiry) : World := q.start.having q.before

def outcome (q : Inquiry) : Except Failure Value × World :=
  Resolve.request q.id q.interface q.name q.now

def last (q : Inquiry) : World := q.outcome.2

/-- All begins where there is nothing of the key. Its class, if it has one, is looked up alike at the
site, when the key is asked for and in the end, and no concrete class is without a name. Nothing
else comes to lie where the unit of the key would. -/
structure Undisturbed (q : Inquiry) (site : Site) : Prop where
  fresh : ¬q.start.Has q.id q.key
  looked : ∃ found, (Classes.find? q.key.interface site).1 = .ok found ∧
    (Classes.find? q.key.interface q.now.site).1 = .ok found ∧
    (Classes.find? q.key.interface q.last.site).1 = .ok found
  named : ¬q.last.site.registry.Concrete ""
  alone : ∀ i j dir dir' other key, q.last.injector? q.id = some i → i.dir? = some dir →
    q.last.injector? other = some j → j.dir? = some dir' → j.Supports q.last.site.registry key →
      unitPlace dir q.key = unitPlace dir' key → other = q.id ∧ key = q.key
  noDirectory : ∀ i dir, q.last.injector? q.id = some i → i.dir? = some dir →
    q.last.site.files.status (Layout.unitPath dir q.key) ≠ .directory

/-- The pointcuts of a first compile are there when the key is asked for, but nothing of the key. -/
structure Later (q : Inquiry) (s : ScriptInjector) : Prop where
  compiled : q.now.site.files.exists? (Layout.pointcutsPath s.dir) = true
  noUnit : q.now.site.files.exists? (Layout.unitPath s.dir q.key) = false
  nothing : ¬q.now.Has q.id q.key

end Inquiry

namespace Inquiry

open Act Resolve

variable {q : Inquiry} {i : Injector} {g : Graph} {scope : Option ScopeOf} {a : Argument Value}
  {site : Site}

theorem last_grounded (q : Inquiry) : q.now.Grounded q.last :=
  request_grounded q.id q.interface q.name q.now

/-- The default stands in for the key, which no class can be inferred for. -/
theorem Undisturbed.abstract (h : q.Undisturbed site) (hcompiles : i.Compiles g scope)
    (hdefault : Compile.ByDefault g scope a site) (ha : a.key = q.key) (hany : q.key.isAny = true)
    (hname : q.key.interface ≠ "") : ∃ found,
      (Classes.find? q.key.interface q.now.site).1 = .ok found ∧
      (Classes.find? q.key.interface q.last.site).1 = .ok found ∧
        ∀ c, found = some c → c.isConcrete = false := by
  have hnone := Compile.inferredScope_of_untold
    (fun scopeOf hscope => hcompiles.reads hscope) hdefault.untold
  rw [ha] at hnone
  obtain ⟨found,hfound,habstract⟩ := Compile.find?_of_inferredScope hnone hany hname
  obtain ⟨found',hbefore,hnow,hafter⟩ := h.looked
  obtain rfl := Except.ok.inj (hfound.symm.trans hbefore)
  exact ⟨found,hnow,hafter,habstract⟩

theorem Undisturbed.not_concrete (h : q.Undisturbed site) (hcompiles : i.Compiles g scope)
    (hdefault : Compile.ByDefault g scope a site) (ha : a.key = q.key) (hany : q.key.isAny = true) :
    ¬q.last.site.registry.Concrete q.key.interface := by
  rintro hconcrete
  have hname : q.key.interface ≠ "" := fun he => h.named (he ▸ hconcrete)
  obtain ⟨found,-,hafter,habstract⟩ := h.abstract hcompiles hdefault ha hany hname
  obtain ⟨c,hc,hmade⟩ := hconcrete
  rw [Classes.find?_unread _ (.inl (by rw [hc]; rfl)),hc] at hafter
  rw [habstract c (Except.ok.inj hafter).symm] at hmade
  cases hmade

/-- The injector can compile nothing of the key in the end. -/
theorem Undisturbed.unsupported (h : q.Undisturbed site) (hi : q.now.injector? q.id = some i)
    (hcompiles : i.Compiles g scope) (hdefault : Compile.ByDefault g scope a site)
    (ha : a.key = q.key) (hown : ∀ dir, i.dir? = some dir → q.key ∉ Prepare.own) {j : Injector}
    (hj : q.last.injector? q.id = some j) : ¬j.Supports q.last.site.registry q.key := by
  obtain ⟨j',hj',hbecomes⟩ := q.last_grounded.injectors q.id i hi
  obtain rfl := Option.some.inj (hj.symm.trans hj')
  rintro (⟨hg,hb⟩ | ⟨hdir,hkey⟩ | ⟨hany,hconcrete⟩)
  · obtain ⟨own,hgraph,hall⟩ := hcompiles.graph
    obtain rfl := Option.some.inj (hg.symm.trans (hbecomes.graph own hgraph))
    obtain ⟨b,hbound⟩ := Graph.get?_of_has (hall _ hb)
    rw [← ha,hdefault.outside.unbound] at hbound
    cases hbound
  · exact hown _ (hbecomes.dir.symm.trans hdir) hkey
  · exact h.not_concrete hcompiles hdefault ha hany hconcrete

/-- So there is no ground for it, and there never was anything of it. -/
theorem Undisturbed.nothing (h : q.Undisturbed site) (hi : q.now.injector? q.id = some i)
    (hcompiles : i.Compiles g scope) (hdefault : Compile.ByDefault g scope a site)
    (ha : a.key = q.key) (hown : ∀ dir, i.dir? = some dir → q.key ∉ Prepare.own) :
    ¬q.last.Grounds q.id q.key ∧ ¬q.now.Has q.id q.key ∧ ¬q.last.Has q.id q.key := by
  have hground : ¬q.last.Grounds q.id q.key := by
    rintro (⟨hj,hsupports⟩ | ⟨hi',hdir,hj,hdir',hsupports,hplace⟩)
    · exact h.unsupported hi hcompiles hdefault ha hown hj hsupports
    · obtain ⟨rfl,rfl⟩ := h.alone _ _ _ _ _ _ hi' hdir hj hdir' hsupports hplace
      exact h.unsupported hi hcompiles hdefault ha hown hj hsupports
  have hnow : ¬q.now.Has q.id q.key := fun hhas =>
    ((World.having_grounded q.before q.start).has _ _ hhas).elim h.fresh
      fun hnow => hground (hnow.mono q.last_grounded.toFurther)
  exact ⟨hground,hnow,fun hhas => (q.last_grounded.has _ _ hhas).elim hnow hground⟩

end Inquiry

namespace Depot

open Compile Resolve

/-- A car asks for a radio, and does with none. -/
def radio : Argument Value := ⟨.any "Radio",⟨"Car","__construct","radio"⟩,some .null,none,none⟩

def carPlan : Plan Value := ⟨"Car",[radio],[],none,false,[]⟩

/-- The car is bound, and more. -/
def graph (rows : Table Key (Binding Value)) : Graph :=
  ⟨rows ++ [(.any "Car",.construction carPlan)],[],[]⟩

def injector (rows : Table Key (Binding Value)) (singletons : Table Key Value) :
    ScriptInjector where
  dir := "s"
  source := none
  lasting := false
  strict := false
  singletons := singletons
  graph := some (graph rows)

/-- There are pointcuts in the directory, and files besides. -/
def site (files : Table Path String) : Site where
  registry := { classes := [("Car",{ name := "Car" })] }
  files :=
    { directories := [["s"],["s","meta"]], contents := (["s","_aop.json"],"[]") :: files }

def world (rows : Table Key (Binding Value)) (singletons : Table Key Value) : World where
  site := site []
  injectors := [(⟨0⟩,.script (injector rows singletons))]
  made := 1

/-- A truck asks for what nobody binds. The keys are in order. -/
def fleet : Graph where
  bindings :=
    [(Key.scriptDir,.literal (.text "s")),(.any "Car",.construction carPlan),
      (.any Key.injectorInterface,.literal (.injector none)),
      (.any "Truck",.construction ⟨"Truck",
        [⟨.of "" "gone",⟨"Truck","__construct","crane"⟩,none,none,none⟩],[],none,false,[]⟩)]
  pointcuts := []
  maps := []

def fleetInjector : ScriptInjector := { injector [] [] with graph := some fleet }

/-- A new injector, before there is a directory. -/
def yard : World where
  site := { registry := { classes := [("Car",{ name := "Car" }),("Truck",{ name := "Truck" })] } }
  injectors := [(⟨0⟩,.script fleetInjector)]
  made := 1

end Depot

end Wiring
