import Mathlib
import Wiring.Proofs.Injector.Serving
import Wiring.Proofs.Injector.Supplying

/-!
# Injected maps

If what an injector runs for the consumer of a set is a unit of the graph of a module, the consumer
is supplied with the map that the module builds, element by element. Where there is no map for a set
that is required, nothing is compiled, and the unit of the consumer never comes to an end. A unit
that an earlier module has left in the directory is run as it is, with the map of that module.
-/
namespace Wiring

/-- The arguments of the constructor and of the setters that have to be called. -/
def Plan.requiredArguments {ν : Type} (p : Plan ν) : List (Argument ν) :=
  p.arguments ++ (p.setters.filter fun s => !s.optional).flatMap SetterCall.arguments

namespace Supplier

variable {σ : Supplier} {u u' : World} {a : Argument Value}

theorem GivesArguments.mem {as : List (Argument Value)} {values : List Value}
    (h : σ.GivesArguments as values u u') (ha : a ∈ as) :
    ∃ v mid mid', σ.GivesArgument a v mid mid' := by
  induction h with
  | nil => cases ha
  | cons hfirst _ ih =>
    rcases List.mem_cons.mp ha with rfl | ha
    · exact ⟨_,_,_,hfirst⟩
    · exact ih ha

theorem CallsSetters.mem {ref : ObjectRef} {ss : List (SetterCall Value)}
    (h : σ.CallsSetters ref ss u u') {s : SetterCall Value} (hs : s ∈ ss)
    (ho : s.optional = false) (ha : a ∈ s.arguments) :
    ∃ v mid mid', σ.GivesArgument a v mid mid' := by
  induction h with
  | nil => cases hs
  | call hargs _ _ ih =>
    rcases List.mem_cons.mp hs with rfl | hs
    · exact hargs.mem ha
    · exact ih hs
  | left hleft _ ih =>
    rcases List.mem_cons.mp hs with rfl | hs
    · cases hleft.symm.trans ho
    · exact ih hs

/-- All that is required has been supplied. -/
theorem Makes.mem {plan : Plan Value} {ref : ObjectRef} (h : σ.Makes plan ref u u')
    (ha : a ∈ plan.requiredArguments) : ∃ v mid mid', σ.GivesArgument a v mid mid' := by
  cases h with
  | intro hargs _ hsetters =>
    rcases List.mem_append.mp ha with ha | ha
    · exact hargs.mem ha
    · obtain ⟨s,hs,ha⟩ := List.mem_flatMap.mp ha
      obtain ⟨hs,ho⟩ := List.mem_filter.mp hs
      exact hsetters.mem hs (by simpa using ho) ha

theorem GivesArgument.mapped {v : Value} (h : σ.GivesArgument a v u u') {interface : String}
    (hs : a.set = some interface) (hp : a.key.interface ≠ Key.pointInterface) :
    σ.graph.map? interface ≠ none := by
  intro hnone
  cases h with
  | set hs' _ hset =>
    obtain rfl := Option.some.inj (hs.symm.trans hs')
    cases hset with
    | intro hm => cases hnone.symm.trans hm
  | other ha =>
    rcases ha with ha | ha
    · cases hs.symm.trans ha
    · exact hp ha

end Supplier

namespace World

open Resolve Compile

variable {w w' : World} {g : Graph} {shown : Value → Tree} {id : InjectorId} {key : Key}
  {b : Binding Value} {run : RunKey}

/-- The unit of a literal returns a value that is made of its tree, and that is not shared. -/
theorem Serves.remakes {x v : Value} {shared : Bool} (h : w.Serves g shown id key (.literal x))
    (hb : g.get? key = some (.literal x)) (hrun : runWith run id key w = (.ok (v,shared),w')) :
    shared = false ∧ ∃ w₀, (shown x).remake (surroundings run id) w₀ = (.ok v,w') := by
  obtain ⟨w₀,code,unit,-,⟨hshown,hcode⟩,hrun⟩ := h.runs hrun
  obtain ⟨d,hd,hwritten⟩ := (unitOf_delivers _ _ .start).2 code (congrArg Prod.fst hcode)
  rw [hwritten.run] at hrun
  cases hd with
  | @literal x t ht =>
    obtain rfl := hshown key x t hb ht
    obtain ⟨v',mid,hmade,hend⟩ := Work.run_bind_ok hrun
    obtain ⟨hpair,rfl⟩ := Prod.mk.inj hend
    obtain ⟨rfl,rfl⟩ := Prod.mk.inj (Except.ok.inj hpair)
    exact ⟨rfl,w₀,hmade⟩

/-- The unit of a class or of a provider makes an object of its plan first. -/
theorem Serves.makes (σ : Supplier) {plan : Plan Value} {v : Value} {shared : Bool}
    (h : w.Serves σ.graph σ.shown σ.id key b) (hplan : b.plan? = some plan)
    (hkeeps : ∀ id key, (σ.run id key).Keeps [])
    (hmodule : ∀ interface m, σ.graph.map? interface = some m → m.Keyed ∧
      ∀ e ∈ m.elements, e.2 = MapBinding.elementKey interface e.1)
    (hrun : runWith σ.run σ.id key w = (.ok (v,shared),σ.last)) :
    ∃ ref w₀ w₁, Preserves [] w w₀ ∧ σ.Makes plan ref w₀ w₁ ∧
      (b = .construction plan → v = .object ref) := by
  obtain ⟨w₀,code,unit,hw₀,⟨hshown,hcode⟩,hrun⟩ := h.runs hrun
  obtain ⟨d,hd,hwritten⟩ := (unitOf_delivers b _ .start).2 code (congrArg Prod.fst hcode)
  rw [hwritten.run] at hrun
  have hfollow := Supplier.follow hkeeps
  cases hd with
  | literal ht => cases hplan
  | @construction plan' a ha =>
    obtain rfl := Option.some.inj hplan
    obtain ⟨made,mid,hmade,hrest⟩ := Work.run_bind_ok hrun
    have hdone : v = made ∧ Preserves [] mid σ.last := by
      split at hrest
      · obtain ⟨_,advised,hadvise,hend⟩ := Work.run_bind_ok hrest
        obtain ⟨hpair,rfl⟩ := Prod.mk.inj hend
        have hkept := hfollow.advise unit made plan'.advice mid
        rw [hadvise] at hkept
        exact ⟨(Prod.mk.inj (Except.ok.inj hpair)).1.symm,hkept⟩
      · obtain ⟨hpair,rfl⟩ := Prod.mk.inj hrest
        exact ⟨(Prod.mk.inj (Except.ok.inj hpair)).1.symm,.refl _⟩
    obtain ⟨rfl,hkept⟩ := hdone
    obtain ⟨ref,w₁,rfl,hmakes⟩ :=
      Supplier.assembly_makes hkeeps hshown hmodule ha hmade hkept
    exact ⟨ref,w₀,w₁,hw₀,hmakes,fun _ => rfl⟩
  | @provider plan' a ha flag context =>
    obtain rfl := Option.some.inj hplan
    obtain ⟨made,mid,hmade,hrest⟩ := Work.run_bind_ok hrun
    obtain ⟨_,told,htold,hrest⟩ := Work.run_bind_ok hrest
    obtain ⟨v',got,hgot,hend⟩ := Work.run_bind_ok hrest
    obtain ⟨-,rfl⟩ := Prod.mk.inj hend
    have hcalled := hfollow.called unit made
      (context.toList.map fun text => ("setContext",[.literal (.text text)])) mid
    rw [htold] at hcalled
    have hinvoked := hfollow.invoked unit made "get" [] told
    rw [hgot] at hinvoked
    obtain ⟨ref,w₁,-,hmakes⟩ :=
      Supplier.assembly_makes hkeeps hshown hmodule ha hmade (hcalled.trans hinvoked)
    exact ⟨ref,w₀,w₁,hw₀,hmakes,nofun⟩

end World

namespace Resolve

variable {run : RunKey} {id : InjectorId} {key : Key} {w w' : World} {v : Value} {shared : Bool}

/-- A request that runs the unit leaves kept what was kept when the unit had run, other than the
instance of the key itself. -/
theorem resolve_leaves (h : run id key w = (.ok (v,shared),w')) {i : Injector}
    (hi : w.injector? id = some i) (hfree : w.kept id key = none) :
    ∃ last, resolve run id key w = (.ok v,last) ∧
      ∀ other u, other ≠ key → w'.kept id other = some u → last.kept id other = some u := by
  refine ⟨_,resolve_ran hi hfree h,fun other u hother hu => ?_⟩
  dsimp only
  split
  · have hne : (id,other) ≠ (id,key) := fun he => hother (Prod.mk.inj he).2
    rw [World.kept_remember_of_ne hne]
    exact hu
  · exact hu

end Resolve

open Resolve in
/-- Injected maps reflect their elements. Let an injector run for a key a unit of the graph of a
module. If the unit comes to an end, its object was made of what was supplied one after another: for
a set, an array under the keys of its map and in their order, each entry being what the key of the
element came to just then. For every set that is required there is a map. The unit of a literal makes
its value of the tree of which the entries for the literal are made. A request for the key leaves
kept what was kept when the unit had run, so that later requests for the elements that are shared
give the same instances. -/
theorem injected_maps_reflect_their_elements {statements : List ModuleStatement} {g : Graph}
    (hg : Graph.Of statements g) {shown : Value → Tree} {id : InjectorId} {key : Key}
    {b : Binding Value} {w : World} (hserves : w.Serves g shown id key b) {depth : Nat} {v : Value}
    {shared : Bool} {w' : World} (h : runKey (depth + 1) id key w = (.ok (v,shared),w')) :
    (∀ plan, b.plan? = some plan →
      (∃ ref w₀ w₁, Preserves [] w w₀ ∧
        (⟨g,shown,runKey depth,id,w'⟩ : Supplier).Makes plan ref w₀ w₁ ∧
          (b = .construction plan → v = .object ref)) ∧
      ∀ a ∈ plan.requiredArguments, ∀ interface, a.set = some interface →
        a.key.interface ≠ Key.pointInterface → g.map? interface ≠ none) ∧
    (∀ x, b = .literal x → g.get? key = some b → shared = false ∧ ∃ w₀,
      (shown x).remake (surroundings (runKey depth) id) w₀ = (.ok v,w') ∧
        ((shown x).Literal → Tree.Undecoded w₀.site.registry.decoders (shown x).nodes →
          w'.site.heap.unfold v = shown x)) ∧
    (w.kept id key = none → ∃ last, resolve (runKey (depth + 1)) id key w = (.ok v,last) ∧
      ∀ other u, other ≠ key → w'.kept id other = some u →
        ∀ run, resolve run id other last = (.ok u,last)) := by
  refine ⟨fun plan hplan => ?_,fun x hx hb => ?_,fun hfree => ?_⟩
  · obtain ⟨ref,w₀,w₁,hw₀,hmakes,hv⟩ := World.Serves.makes ⟨g,shown,runKey depth,id,w'⟩ hserves
      hplan (runKey_lasts depth) (fun _ _ hm => hg.elements hm) h
    refine ⟨⟨ref,w₀,w₁,hw₀,hmakes,hv⟩,fun a ha interface hs hp => ?_⟩
    obtain ⟨_,_,_,hgives⟩ := hmakes.mem ha
    exact hgives.mapped hs hp
  · subst hx
    obtain ⟨hshared,w₀,hmade⟩ := hserves.remakes hb h
    exact ⟨hshared,w₀,hmade,fun hl hd => remake_shows hl hd hmade⟩
  · obtain ⟨i,hi⟩ := hserves.injector
    obtain ⟨last,hlast,hleaves⟩ := resolve_leaves h hi hfree
    exact ⟨last,hlast,fun other u hother hu run => resolve_kept (hleaves other u hother hu)⟩

namespace Errands

def classes : Table String ClassDecl :=
  [("Round",{ name := "Round", parameters := [⟨"stops",none,none,none,none,some "Stop"⟩] }),
    ("Depot",{ name := "Depot" }),("Kiosk",{ name := "Kiosk" })]

def site : Site := { registry := { classes } }

/-- A round takes its stops as they are. -/
def plan : Plan Value :=
  ⟨"Round",[⟨.any "",⟨"Round","__construct","stops"⟩,none,none,some "Stop"⟩],[],none,false,[]⟩

/-- A literal, a depot that is shared and a kiosk that is not. -/
def stops : List ModuleStatement :=
  [.element "Stop" none none (.literal (.text "home")) false,
    .element "Stop" (some (.text "depot")) none (.to "Depot") true,
    .element "Stop" none none (.to "Kiosk") false,.bind "Round" none .untargeted false]

def graph : Graph where
  bindings :=
    [(.of "Stop" "@0",.literal (.text "home")),
      (.of "Stop" "@depot",.construction ⟨"Depot",[],[],none,true,[]⟩),
      (.of "Stop" "@1",.construction ⟨"Kiosk",[],[],none,false,[]⟩),
      (.any "Round",.construction plan)]
  pointcuts := []
  maps :=
    [("Stop",⟨[(.int 0,.of "Stop" "@0"),(.text "depot",.of "Stop" "@depot"),
      (.int 1,.of "Stop" "@1")]⟩)]

def world : World where
  site := site
  injectors := [(⟨0⟩,.direct { graph })]
  made := 1

theorem stops_build : Graph.Of stops graph :=
  .built (show Graph.ofModule stops site = (.ok graph,site) from rfl)

theorem world_serves :
    world.Serves graph world.site.heap.unfold ⟨0⟩ (.any "Round") (.construction plan) :=
  World.serves_directly (d := { graph }) rfl rfl rfl

theorem round_runs : ∃ v shared w',
    Resolve.runKey 2 ⟨0⟩ (.any "Round") world = (.ok (v,shared),w') := by
  have hok : (Resolve.runKey 2 ⟨0⟩ (.any "Round") world).1.toBool = true := by decide +kernel
  cases hrun : Resolve.runKey 2 ⟨0⟩ (.any "Round") world with
  | mk answer w' =>
    rw [hrun] at hok
    cases answer with
    | error f => cases hok
    | ok r => exact ⟨r.1,r.2,w',rfl⟩

/-- A round is made by an injector that compiles in memory. -/
theorem injected_maps_reflect_their_elements_sample : Graph.Of stops graph ∧
    world.Serves graph world.site.heap.unfold ⟨0⟩ (.any "Round") (.construction plan) ∧
    ∃ v shared w', Resolve.runKey 2 ⟨0⟩ (.any "Round") world = (.ok (v,shared),w') ∧
      (∃ ref w₀ w₁, Preserves [] world w₀ ∧
        (⟨graph,world.site.heap.unfold,Resolve.runKey 1,⟨0⟩,w'⟩ : Supplier).Makes plan ref w₀ w₁ ∧
          v = .object ref) ∧
      ∃ last, Resolve.resolve (Resolve.runKey 2) ⟨0⟩ (.any "Round") world = (.ok v,last) ∧
        ∀ other u, other ≠ .any "Round" → w'.kept ⟨0⟩ other = some u →
          ∀ run, Resolve.resolve run ⟨0⟩ other last = (.ok u,last) := by
  obtain ⟨v,shared,w',hrun⟩ := round_runs
  obtain ⟨hmade,-,hleft⟩ :=
    injected_maps_reflect_their_elements stops_build world_serves hrun
  obtain ⟨⟨ref,w₀,w₁,hw₀,hmakes,hv⟩,-⟩ := hmade plan rfl
  exact ⟨stops_build,world_serves,v,shared,w',hrun,⟨ref,w₀,w₁,hw₀,hmakes,hv rfl⟩,hleft rfl⟩

/-- An earlier module binds the round, with one stop. -/
def earlier : List ModuleStatement :=
  [.bind "Round" none .untargeted false,.element "Stop" none none (.literal (.text "home")) false]

/-- A later one has two stops, and does not bind the round. -/
def later : LazyModule where
  label := none
  statements :=
    [.element "Stop" none none (.literal (.text "home")) false,
      .element "Stop" none none (.literal (.text "shop")) false]
  lasting := false

def earlierBatch : Batch where
  dir := "s"
  graph :=
    { bindings :=
        [(.any "Round",.construction plan),(.of "Stop" "@0",.literal (.text "home")),
          (.any Key.injectorInterface,.literal (.injector none)),
          (Key.scriptDir,.literal (.text "s"))]
      pointcuts := []
      maps := [("Stop",⟨[(.int 0,.of "Stop" "@0")]⟩)] }

def laterBatch : Batch where
  dir := "s"
  graph :=
    { bindings :=
        [(.of "Stop" "@0",.literal (.text "home")),(.of "Stop" "@1",.literal (.text "shop")),
          (.any Key.injectorInterface,.literal (.injector none)),
          (Key.scriptDir,.literal (.text "s"))]
      pointcuts := []
      maps := [("Stop",⟨[(.int 0,.of "Stop" "@0"),(.int 1,.of "Stop" "@1")]⟩)] }

def opened : Site := { site with files := { directories := [["s"]] } }

def earlierKeys : List Key :=
  [Key.scriptDir,.any Key.injectorInterface,.any "Round",.of "Stop" "@0"]

def laterKeys : List Key :=
  [Key.scriptDir,.any Key.injectorInterface,.of "Stop" "@0",.of "Stop" "@1"]

/-- Where the compile of the earlier module ends. -/
@[irreducible]
def left : Site := (earlierBatch.compileListed earlierKeys opened).2

/-- Where that of the later module ends. -/
@[irreducible]
def finished : Site := (laterBatch.compileListed laterKeys left).2

theorem keys_in_order :
    (earlierKeys.Perm earlierBatch.graph.bindings.keys ∧
        earlierKeys.Pairwise fun a b => a.before b = true) ∧
      laterKeys.Perm laterBatch.graph.bindings.keys ∧
        laterKeys.Pairwise fun a b => a.before b = true := by
  decide +kernel

theorem modules_compile :
    (do (← Batch.ofModule "s" earlier).compile) site = (.ok (),left) ∧
    Batch.ofModule "s" later.statements left = (.ok laterBatch,left) ∧
    laterBatch.compile left = (.ok (),finished) := by
  obtain ⟨⟨hearlierKeys,hearlierSorted⟩,hlaterKeys,hlaterSorted⟩ := keys_in_order
  have hruns : (earlierBatch.compileListed earlierKeys opened).1 = .ok () ∧
      left.files.status "s" = .directory ∧
        (laterBatch.compileListed laterKeys left).1 = .ok () := by
    decide +kernel
  obtain ⟨hearlierRun,hdirectory,hlaterRun⟩ := hruns
  have hfirst : earlierBatch.compile opened = (.ok (),left) := by
    unfold left
    exact Batch.compile_ok_of_perm hearlierKeys hearlierSorted hearlierRun
  have hsecond : laterBatch.compile left = (.ok (),finished) := by
    unfold finished
    exact Batch.compile_ok_of_perm hlaterKeys hlaterSorted hlaterRun
  refine ⟨?_,?_,hsecond⟩
  · have hmade : Batch.ofModule "s" earlier site = (.ok earlierBatch,opened) := rfl
    exact (Work.run_bind hmade).trans hfirst
  · have hbuilt : Graph.ofModule later.statements left =
        (.ok { laterBatch.graph with bindings := laterBatch.graph.bindings.take 2 },left) := rfl
    have hopen : Work.onFiles (Files.ensureDirectory "s") left = (.ok (),left) := by
      rw [Work.onFiles_run,Files.ensureDirectory_run,Files.makeDirectory_there hdirectory]
      rfl
    rw [Batch.ofModule,Work.run_bind hbuilt,Batch.make,Work.run_bind hopen]
    rfl

/-- The keys of the array that the object of an answer holds under a name. -/
def keysIn (name : String) : Except Failure Value × World → Option (List ArrayKey)
  | (.ok (.object ref),w) =>
      ((w.site.heap.property? ref name).bind Value.asArray?).map fun a => a.entries.map Prod.fst
  | _ => none

/-- A unit that an earlier module has left is run as it is. Both modules have been compiled as a whole
into one directory, the later one has two stops, and an injector of the later one delivers the one
stop of the earlier one. -/
theorem maps_of_earlier_modules_are_injected :
    (do (← Batch.ofModule "s" earlier).compile) site = (.ok (),left) ∧
    Batch.ofModule "s" later.statements left = (.ok laterBatch,left) ∧
    laterBatch.compile left = (.ok (),finished) ∧
    (laterBatch.graph.map? "Stop").map (fun m => m.elements.map Prod.fst) =
      some [.int 0,.int 1] ∧
    keysIn "stops" (Resolve.request ⟨0⟩ "Round" "*"
      (Act.openScript "s" (some later) false [] none { site := finished }).2) = some [.int 0] := by
  obtain ⟨hearlier,hmade,hlater⟩ := modules_compile
  exact ⟨hearlier,hmade,hlater,by decide +kernel,by decide +kernel⟩

end Errands
end Wiring
