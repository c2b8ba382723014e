import Mathlib
import Wiring.Proofs.Compile.Agreeing
import Wiring.Proofs.Compile.Filed
import Wiring.Proofs.Compile.Reweaving
import Wiring.Proofs.Graph.Installing

/-!
# Units of a module

The units of a module are compiled of the graph that its statements build, or of that graph after it
has been prepared. Both have the same maps, the elements of which are bound under the keys that are
made of their own. Wherever a batch has filed the unit of a key, it is one that was compiled of the
prepared graph.
-/
namespace Wiring

open Work

namespace Prepare

theorem nullObjects_maps (dir : String) (g : Graph) :
    (nullObjects dir g).Ensures fun g' => g'.maps = g.maps :=
  .foldlM rfl fun _ _ _ hg => (Ensures.any _).bind fun _ _ => .pure hg

theorem weave_maps (g : Graph) : (Weave.graph g).Ensures fun woven => woven.1.maps = g.maps := by
  intro site woven site' hrun
  obtain ⟨rows,hrows,-⟩ := Weave.graph_rewoven g site woven site' hrun
  rw [hrows]

theorem maps_bindInjector (g : Graph) : (bindInjector g).maps = g.maps := by
  unfold bindInjector
  dsimp only
  split <;> rfl

/-- Preparing a graph leaves its maps alone. -/
theorem graph_maps (dir : String) (g : Graph) :
    (Prepare.graph dir g).Ensures fun g' => g'.maps = g.maps := by
  refine (nullObjects_maps dir g).bind fun converted hconverted => ?_
  refine (weave_maps converted).bind fun ⟨woven,failure⟩ hwoven => ?_
  cases failure with
  | some f => exact .throw f
  | none => exact .pure ((maps_bindInjector woven).trans (hwoven.trans hconverted))

end Prepare

namespace Graph

/-- The graph that a module builds, or that graph prepared for a directory. -/
inductive Of (statements : List ModuleStatement) : Graph → Prop where
  | built {g : Graph} {site site' : Site} (h : Graph.ofModule statements site = (.ok g,site')) :
      Of statements g
  | prepared {g g' : Graph} {dir : String} {site site' start made : Site}
      (h : Graph.ofModule statements site = (.ok g,site'))
      (hmade : Prepare.graph dir g start = (.ok g',made)) : Of statements g'

variable {statements : List ModuleStatement} {g : Graph} {interface : String} {m : MapBinding}

theorem elements_ofModule {site site' : Site} (h : Graph.ofModule statements site = (.ok g,site'))
    (hm : g.map? interface = some m) : m.Keyed ∧
      ∀ e ∈ m.elements, e.2 = MapBinding.elementKey interface e.1 := by
  obtain ⟨l,hl,hg⟩ := (Graph.runAll_accounts .empty statements site .start).2 g
    (congrArg Prod.fst h)
  have htidy := Ledger.tidy_empty.stateAll statements
  have hmap : m = (Ledger.empty.stateAll statements).elements interface := by
    rw [← (hl.resembles (.refl _)).elements interface,← hg.mapOf,Container.mapOf,hm]
    rfl
  rw [hmap]
  exact ⟨Ledger.elements_keyed htidy.keyed interface,htidy.named interface⟩

/-- The keys of a map are different ones, and its elements are bound under the keys that are made of
them. -/
theorem Of.elements (h : Of statements g) (hm : g.map? interface = some m) : m.Keyed ∧
    ∀ e ∈ m.elements, e.2 = MapBinding.elementKey interface e.1 := by
  cases h with
  | built h => exact elements_ofModule h hm
  | prepared h hmade =>
    rw [Container.map?,Prepare.graph_maps _ _ _ _ _ hmade] at hm
    exact elements_ofModule h hm

end Graph

namespace Compile

variable {g : Graph} {scope : Option ScopeOf} {start site : Site} {b : Binding Value} {code : Code}

/-- The code was compiled of the binding in the graph, while the literals of the graph showed these
trees. -/
inductive Yields (g : Graph) (shown : Value → Tree) (b : Binding Value) (code : Code) : Prop where
  | intro {scope : Option ScopeOf} {site site' : Site}
      (hshown : ∀ key v t, g.get? key = some (.literal v) → Shows scope site v t → t = shown v)
      (h : unitOf g scope b site = (.ok code,site')) : Yields g shown b code

/-- What is told of keys outside the graph is told without making values. -/
def Sparing (scope : Option ScopeOf) : Prop :=
  ∀ key site, (scopeOutside scope key site).2.heap = site.heap

theorem sparing_none : Sparing none := fun key site => (inferredScope_heap key site rfl).1

/-- Nor are there any made by asking for the scope in a way that changes nothing. -/
theorem sparing_of_reads {scopeOf : ScopeOf} (h : ∀ key site, (scopeOf key site).2 = site) :
    Sparing (some scopeOf) := by
  intro key site
  have hattempt : Work.attempt (scopeOf key) site = (.ok (scopeOf key site).1,site) := by
    rw [Work.attempt_run,h]
  unfold scopeOutside
  dsimp only
  rw [Work.run_bind hattempt]
  cases (scopeOf key site).1 with
  | ok shared => rfl
  | error f =>
    cases f with
    | notCompiled _ => exact (inferredScope_heap key site rfl).1
    | _ => rfl

theorem Passed.heap (hscope : Sparing scope) (h : Passed scope start site) :
    site.heap = start.heap := by
  induction h with
  | start => rfl
  | told key _ ih => exact (hscope key _).trans ih

theorem Yields.of_unitOf (hscope : Sparing scope) {site' : Site}
    (h : unitOf g scope b site = (.ok code,site')) : Yields g site.heap.unfold b code := by
  refine .intro (fun key v t _ ⟨mid,hmid,hv⟩ => ?_) h
  rw [← hv,hmid.heap hscope]

end Compile

end Wiring
