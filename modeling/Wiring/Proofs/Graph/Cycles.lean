import Mathlib
import Wiring.Proofs.Classes.Loading
import Wiring.Proofs.Compile.Repeating
import Wiring.Proofs.Graph.Closure

/-!
# Modules whose classes ask for each other

Classes may ask for each other in circles. Building a module comes to an end even so: whatever
class files are read on the way, only registered classes and those that files describe are found,
and there is a round for each of them. What is concrete from the start stays so, since every
described class is concrete. So whenever a module builds, its graph binds what its bindings ask
for.
-/
namespace Wiring

/-- The names of the classes that are registered or described by files. -/
def Site.classNames (site : Site) : Finset String :=
  (site.registry.classes.keys ++ site.files.describes).toFinset

/-- Classes may have been registered since the start, by reading files of generated classes. -/
structure Browsed (start site : Site) : Prop where
  files : site.files = start.files
  names : ∀ className, (site.registry.classes.find? className).isSome = true →
    className ∈ start.classNames
  larger : start.registry.classes.length ≤ site.registry.classes.length
  concrete : ∀ className, start.registry.Concrete className → site.registry.Concrete className

namespace Browsed

variable {start site : Site} {c : ClassDecl}

theorem refl (start : Site) : Browsed start start where
  files := rfl
  names _ hc := List.mem_toFinset.mpr (List.mem_append_left _ (Table.mem_keys_of_has hc))
  larger := Nat.le_refl _
  concrete _ hc := hc

theorem register (h : Browsed start site) (hname : c.name ∈ start.classNames)
    (hconcrete : c.isConcrete = true) :
    Browsed start { site with registry := site.registry.register c } where
  files := h.files
  names className hc := by
    by_cases hn : className = c.name
    · exact hn ▸ hname
    · rw [Registry.register,Table.find?_put_of_ne _ _ hn] at hc
      exact h.names className hc
  larger := h.larger.trans (Table.length_le_put _ _ _)
  concrete className hc := by
    by_cases hn : className = c.name
    · subst hn
      exact ⟨c,Table.find?_put_self ..,hconcrete⟩
    · obtain ⟨d,hd,hconcrete⟩ := h.concrete className hc
      exact ⟨d,(Table.find?_put_of_ne _ _ hn).trans hd,hconcrete⟩

theorem found (h : Browsed start site) {className : String} {found : Option ClassDecl}
    (hfound : site.registry.classes.find? className = found) :
    (found.isSome = true → className ∈ start.classNames) ∧
      (start.registry.Concrete className → ∃ d, found = some d ∧ d.isConcrete = true) := by
  subst hfound
  exact ⟨h.names className,h.concrete className⟩

theorem find? (start : Site) (className : String) :
    (Classes.find? className).Finishes (Browsed start) fun c =>
      (c.isSome = true → className ∈ start.classNames) ∧
        (start.registry.Concrete className → ∃ d, c = some d ∧ d.isConcrete = true) := by
  have hread {site : Site} {c : ClassDecl} (hsite : Browsed start site)
      (h : Classes.loaded site.files className site.registry.scriptDirs = .ok (some c)) :
      Browsed start { site with registry := site.registry.register c } := by
    obtain ⟨hname,hconcrete⟩ := Classes.loaded_described h
    rw [hsite.files] at hname
    exact hsite.register (List.mem_toFinset.mpr (List.mem_append_right _ hname)) hconcrete
  constructor
  · intro site hsite
    have hlooks := Classes.find?_looks className site
    generalize Classes.find? className site = result at hlooks ⊢
    cases hlooks with
    | registered hc =>
      refine ⟨hsite,fun c hc' => ?_⟩
      exact hsite.found (hc.trans (Except.ok.inj hc'))
    | unreadable hc h => exact ⟨hsite,nofun⟩
    | absent hc h =>
      refine ⟨hsite,fun c hc' => ?_⟩
      exact hsite.found (hc.trans (Except.ok.inj hc'))
    | read hc h =>
      refine ⟨hread hsite h,fun c hc' => ?_⟩
      exact (hread hsite h).found (Except.ok.inj hc')
  · intro site hsite
    have hlooks := Classes.find?_looks className site
    generalize Classes.find? className site = result at hlooks ⊢
    cases hlooks with
    | registered hc => exact nofun
    | unreadable hc h => exact fun he => Classes.loaded_ends (h.trans he)
    | absent hc h => exact nofun
    | read hc h => exact nofun

/-- Whatever class files are read while a module is built, there are enough rounds. -/
theorem surveyed (start : Site) : Surveyed start.registry start.classNames (Browsed start) where
  find? := find? start
  walkFuel := by
    refine ⟨fun site hsite => ?_,fun site _ hrun => by cases hrun⟩
    rw [Classes.walkFuel_run]
    refine ⟨hsite,fun fuel hfuel => ?_⟩
    obtain rfl := Except.ok.inj hfuel
    have hcard := List.toFinset_card_le (start.registry.classes.keys ++ start.files.describes)
    have hkeys : start.registry.classes.keys.length = start.registry.classes.length :=
      List.length_map _
    have hdescribes := start.files.length_describes_le
    have hlarger := hsite.larger
    rw [List.length_append] at hcard
    rw [hsite.files]
    unfold Site.classNames
    omega
  build tree := ⟨fun site hsite =>
    ⟨⟨hsite.files,hsite.names,hsite.larger,hsite.concrete⟩,fun _ _ => trivial⟩,
    fun site _ hrun => by cases hrun⟩

end Browsed

theorem Binding.mem_candidates {b : Binding Value} {a : Argument Value} (ha : a ∈ b.allArguments)
    (hany : a.key.isAny = true) (hinterface : a.key.interface ≠ "") :
    a.key.interface ∈ b.candidates := by
  have hplan (plan : Plan Value) (ha : a ∈ plan.allArguments) :
      a.key.interface ∈ plan.candidates := by
    refine List.mem_filterMap.mpr ⟨a,ha,?_⟩
    rw [hany,Bool.true_and,if_pos (bne_iff_ne.mpr hinterface)]
  cases b with
  | literal value => cases ha
  | construction plan => exact hplan plan ha
  | provider plan shared context => exact hplan plan ha
  | nullObject interface => cases ha

/-- Building a module never runs out of rounds, whichever classes ask for each other. In the
graph, every concrete class that an argument of a class or provider asks for under any name is
bound, and so is every concrete interceptor. -/
theorem asked_classes_are_bound (statements : List ModuleStatement) (site : Site) :
    (Graph.ofModule statements site).1 ≠ .error .exhausted ∧
      ∀ g site', Graph.ofModule statements site = (.ok g,site') →
        (∀ key b, g.get? key = some b → ∀ a ∈ b.allArguments, a.key.isAny = true →
          a.key.interface ≠ "" → site.registry.Concrete a.key.interface → g.has a.key = true) ∧
        ∀ p ∈ g.pointcuts, ∀ i ∈ p.interceptors, site.registry.Concrete i →
          g.has (.any i) = true := by
  have hrun : (Graph.ofModule statements).Finishes (Browsed site) (Graph.Closed site.registry) :=
    Graph.runAll_closed (Browsed.surveyed site) .empty statements
  refine ⟨hrun.ends site (.refl site),fun g site' hg => ?_⟩
  have hclosed := (hrun.maintains site (.refl site)).2 g (congrArg Prod.fst hg)
  refine ⟨fun key b hb a ha hany hinterface hconcrete => ?_,hclosed.interceptors⟩
  have hbound := (hclosed.complete key b hb).bound _ (Binding.mem_candidates ha hany hinterface)
    hconcrete
  rwa [Key.any_interface hany] at hbound

/-- A hen and an egg ask for each other, and who watches the hen asks for the egg. -/
def henhouse : Site where
  registry :=
    { classes :=
        [("Hen",{ name := "Hen", parameters := [⟨"egg",some "Egg",none,none,none,none⟩] }),
          ("Egg",{ name := "Egg", parameters := [⟨"hen",some "Hen",none,none,none,none⟩] }),
          ("Watch",{ name := "Watch"
                     setters := [⟨"guard",[⟨"egg",some "Egg",none,none,none,none⟩],false⟩] })] }

def henStatements : List ModuleStatement :=
  [.bind "Hen" none .untargeted true,.intercept ⟨.any,.any,["Watch"]⟩]

def henGraph : Graph where
  bindings :=
    [(.any "Hen",.construction ⟨"Hen",[⟨.any "Egg",⟨"Hen","__construct","egg"⟩,none,none,none⟩],
        [],none,true,[]⟩),
      (.any "Egg",.construction ⟨"Egg",[⟨.any "Hen",⟨"Egg","__construct","hen"⟩,none,none,none⟩],
        [],none,false,[]⟩),
      (.any "Watch",.construction ⟨"Watch",[],
        [⟨"guard",[⟨.any "Egg",⟨"Watch","guard","egg"⟩,none,none,none⟩],false⟩],
        none,false,[]⟩)]
  pointcuts := [⟨.any,.any,["Watch"]⟩]
  maps := []

/-- The egg and the hen, asked for by each other, are bound, and so is the watch. -/
theorem asked_classes_are_bound_sample :
    Graph.ofModule henStatements henhouse = (.ok henGraph,henhouse) ∧
      henGraph.has (.any "Egg") = true ∧ henGraph.has (.any "Hen") = true ∧
      henGraph.has (.any "Watch") = true := by
  have hrun : Graph.ofModule henStatements henhouse = (.ok henGraph,henhouse) := rfl
  obtain ⟨hasked,hinterceptors⟩ := (asked_classes_are_bound henStatements henhouse).2 _ _ hrun
  refine ⟨hrun,?_,?_,?_⟩
  · exact hasked (.any "Hen") _ rfl _ List.mem_cons_self (by decide) (by decide) ⟨_,rfl,rfl⟩
  · exact hasked (.any "Egg") _ rfl _ List.mem_cons_self (by decide) (by decide) ⟨_,rfl,rfl⟩
  · exact hinterceptors _ List.mem_cons_self _ List.mem_cons_self ⟨_,rfl,rfl⟩

end Wiring
