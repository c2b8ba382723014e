import Mathlib
import Wiring.Proofs.Classes.Ancestry

/-!
# Asking whether a class descends from another one

The test is a walk up, in which classes that are not registered may be read from the files of
script directories. Where a lookup never replaces a class and nothing descends from itself, the
walk finds just the names that are reached by steps to a parent or a listed interface, whether
they are registered or not. Where there are no such files to read, the steps are those of
registered classes alone.
-/
namespace Wiring

open Work Relation

namespace Site

variable {site : Site} {name above : String}

/-- A file of a script directory describes the class of the name, which is not registered, and
lists the other one there. -/
def Lists (site : Site) (name above : String) : Prop :=
  site.registry.classes.find? name = none ∧ ∃ c,
    Classes.loaded site.files name site.registry.scriptDirs = .ok (some c) ∧
      c.name = name ∧ above ∈ c.interfaces

/-- What a step up from the name leads to. -/
def ups (site : Site) (name : String) : List String :=
  match site.finds name with
  | none => []
  | some c => c.interfaces ++ c.parent.toList

theorem extends_iff_mem_ups : site.Extends name above ↔ above ∈ site.ups name := by
  unfold Extends ups
  cases site.finds name with
  | none => simp
  | some c =>
    rw [List.mem_append,Option.mem_toList]
    constructor
    · rintro ⟨d,hd,h⟩
      obtain rfl := Option.some.inj hd
      exact h
    · exact fun h => ⟨c,rfl,h⟩

end Site

theorem Classes.loaded_parent {fs : Files} {name : String} {dirs : List String} {c : ClassDecl}
    (h : loaded fs name dirs = .ok (some c)) : c.parent = none := by
  rcases loaded_eq fs name dirs with hnone | ⟨dir,-,hdir⟩
  · cases hnone.symm.trans h
  · obtain ⟨_,_,_,_,rfl⟩ := described_some (hdir.symm.trans h)
    rfl

namespace Site

variable {site : Site} {name above : String}

theorem finds_of_loaded {c : ClassDecl} (hname : site.registry.classes.find? name = none)
    (hload : Classes.loaded site.files name site.registry.scriptDirs = .ok (some c))
    (hc : c.name = name) : site.finds name = some c := by
  unfold finds Classes.answer
  rw [hname,hload]
  exact if_pos (decide_eq_true hc)

/-- A class that is found is registered, or it is read and has the name that was looked up. -/
theorem loaded_of_finds {c : ClassDecl} (hname : site.registry.classes.find? name = none)
    (h : site.finds name = some c) :
    Classes.loaded site.files name site.registry.scriptDirs = .ok (some c) ∧ c.name = name := by
  unfold finds Classes.answer at h
  rw [hname] at h
  cases hload : Classes.loaded site.files name site.registry.scriptDirs with
  | error e => rw [hload] at h; cases h
  | ok found =>
    rw [hload] at h
    obtain ⟨hfound,hc⟩ := Option.filter_eq_some_iff.mp h
    exact ⟨congrArg Except.ok hfound,of_decide_eq_true hc⟩

/-- Steps up are those of registered classes, and those to what a file lists. -/
theorem extends_iff : site.Extends name above ↔
    site.registry.Ancestor above name ∨ site.Lists name above := by
  constructor
  · intro h
    cases hname : site.registry.classes.find? name with
    | some c => exact .inl (h.ancestor hname)
    | none =>
      obtain ⟨c,hc,hup⟩ := h
      obtain ⟨hload,hown⟩ := loaded_of_finds hname hc
      rw [Classes.loaded_parent hload] at hup
      exact .inr ⟨hname,c,hload,hown,hup.resolve_right nofun⟩
  · rintro (⟨c,hc,hup⟩ | ⟨hname,c,hload,hown,hup⟩)
    · exact ⟨c,finds_of_registered hc,hup⟩
    · exact ⟨c,finds_of_loaded hname hload hown,.inl hup⟩

/-- Names among which each step up leads to a smaller one are traced. -/
theorem traced_of_rank {names : List String} (rank : String → Nat)
    (hfaithful : ∀ n ∈ names,site.Faithful n)
    (hups : ∀ n ∈ names,∀ above ∈ site.ups n,above ∈ names ∧ rank above < rank n)
    (hname : name ∈ names) : site.Traced name := by
  have hmem : ∀ n ∈ names,∀ above,ReflTransGen site.Extends n above → above ∈ names := by
    intro n hn above h
    induction h with
    | refl => exact hn
    | tail _ hstep ih => exact (hups _ ih _ (extends_iff_mem_ups.mp hstep)).1
  have hrank : ∀ n ∈ names,∀ above,TransGen site.Extends n above → rank above < rank n := by
    intro n hn above h
    induction h with
    | single hstep => exact (hups n hn _ (extends_iff_mem_ups.mp hstep)).2
    | tail hway hstep ih =>
      have hmiddle := hmem n hn _ hway.to_reflTransGen
      exact (hups _ hmiddle _ (extends_iff_mem_ups.mp hstep)).2.trans ih
  constructor
  · exact fun above h => hfaithful above (hmem name hname above h)
  · exact fun above h hcycle => (hrank above (hmem name hname above h) above hcycle).false

end Site

/-- Nothing is its own ancestor where classes are ranked above their parents and interfaces. -/
theorem Registry.acyclic_of_rank {r : Registry} (rank : String → Nat)
    (h : ∀ row ∈ r.classes,∀ a ∈ row.2.interfaces ++ row.2.parent.toList,rank a < rank row.1)
    (n : String) : ¬TransGen r.Ancestor n n := by
  intro hcycle
  have hstep (a below : String) (ha : r.Ancestor a below) : rank a < rank below := by
    obtain ⟨c,hc,hup⟩ := ha
    apply h (below,c) (Table.mem_of_find? hc)
    rwa [List.mem_append,Option.mem_toList]
  have hless := hcycle.lift rank hstep
  rw [transGen_eq_self] at hless
  exact Nat.lt_irrefl _ hless

namespace Classes

variable {site : Site} {name : String}

theorem loaded_of_unread (h : site.registry.Unread site.files name)
    (hname : site.registry.classes.find? name = none) :
    loaded site.files name site.registry.scriptDirs = .ok none := by
  rcases h with hsome | hdirs
  · rw [hname] at hsome
    cases hsome
  · have hload := load_run name site.registry.scriptDirs site
    rw [load_none hdirs] at hload
    exact (congrArg Prod.fst hload).symm

theorem not_lists_of_unread (h : site.registry.Unread site.files name) (above : String) :
    ¬site.Lists name above := by
  rintro ⟨hname,c,hload,-⟩
  cases (loaded_of_unread h hname).symm.trans hload

theorem extends_iff_of_unread (h : site.registry.Unread site.files name) {above : String} :
    site.Extends name above ↔ site.registry.Ancestor above name :=
  Site.extends_iff.trans (or_iff_left (not_lists_of_unread h above))

/-- Where no file is read, names are traced as soon as no class is an ancestor of itself. -/
theorem traced_of_unread (hunread : ∀ n,site.registry.Unread site.files n)
    (hacyclic : ∀ n,¬TransGen site.registry.Ancestor n n) (name : String) : site.Traced name := by
  constructor
  · intro above _ hnone c hload
    cases (loaded_of_unread (hunread above) hnone).symm.trans hload
  · intro above _ hcycle
    apply hacyclic above
    rw [← transGen_swap]
    exact TransGen.mono (fun n up hstep => (extends_iff_of_unread (hunread n)).mp hstep) _ _ hcycle

theorem isSubclassOf_self (name : String) (site : Site) :
    isSubclassOf name name site = (.ok true,site) := by
  unfold isSubclassOf
  rw [run_bind (walkFuel_run site)]
  unfold reaches
  exact congrArg (fun w : Work Bool => w site) (if_pos rfl)

open Classical in
/-- The test tells whether the target is reached by steps up, whatever was looked up before. -/
theorem isSubclassOf_iff (htraced : site.Traced name) (target : String) {later : Site}
    (hlater : Looked site later) : ∃ b after,isSubclassOf name target later = (.ok b,after) ∧
      Looked site after ∧ (b = true ↔ ReflTransGen site.Extends name target) := by
  obtain ⟨after,hrun,hafter⟩ := isSubclassOf_comes htraced target later hlater
  exact ⟨_,after,hrun,hafter,decide_eq_true_iff⟩

/-- Where no file is read, the steps are those of registered classes. -/
theorem isSubclassOf_iff_of_unread (hunread : ∀ n,site.registry.Unread site.files n)
    (hacyclic : ∀ n,¬TransGen site.registry.Ancestor n n) (name target : String) :
    ∃ b after,isSubclassOf name target site = (.ok b,after) ∧
      (b = true ↔ ReflTransGen site.registry.Ancestor target name) := by
  have htraced := traced_of_unread hunread hacyclic name
  obtain ⟨b,after,hrun,-,hb⟩ := isSubclassOf_iff htraced target (.refl site)
  refine ⟨b,after,hrun,hb.trans ?_⟩
  have hsteps : Function.swap site.Extends = site.registry.Ancestor :=
    funext fun up => funext fun n => propext (extends_iff_of_unread (hunread n))
  rw [← reflTransGen_swap,hsteps]

theorem isSubclassOf_trans (htraced : site.Traced name) {middle target : String}
    {first second third : Site} (hfirst : Looked site first) (hsecond : Looked site second)
    (hthird : Looked site third) (hmiddle : (isSubclassOf name middle first).1 = .ok true)
    (htarget : (isSubclassOf middle target second).1 = .ok true) :
    (isSubclassOf name target third).1 = .ok true := by
  obtain ⟨b,_,hb,-,hup⟩ := isSubclassOf_iff htraced middle hfirst
  rw [hb] at hmiddle
  have hway := hup.mp (Except.ok.inj hmiddle)
  obtain ⟨b',_,hb',-,hup'⟩ := isSubclassOf_iff (htraced.up hway) target hsecond
  rw [hb'] at htarget
  obtain ⟨b'',_,hb'',-,hup''⟩ := isSubclassOf_iff htraced target hthird
  rw [hb'']
  exact congrArg Except.ok (hup''.mpr (hway.trans (hup'.mp (Except.ok.inj htarget))))

/-- Where the ancestors of a name are looked up faithfully and none of them descends from itself, the
test answers whether the target is reached by steps up, whatever was looked up before. A step is that
of a registered class or of a class that a file describes under its own name; of the latter there is
none where no file is read. The test is reflexive and transitive. -/
theorem subclass_test_decides_reachability (htraced : site.Traced name) :
    (∀ target later,Looked site later → ∃ b after,
      isSubclassOf name target later = (.ok b,after) ∧ Looked site after ∧
        (b = true ↔ ReflTransGen site.Extends name target)) ∧
      (∀ below above,site.Extends below above ↔
        site.registry.Ancestor above below ∨ site.Lists below above) ∧
      (∀ below,site.registry.Unread site.files below → ∀ above,¬site.Lists below above) ∧
      (∀ other later,isSubclassOf other other later = (.ok true,later)) ∧
      ∀ middle target first second third,Looked site first → Looked site second →
        Looked site third → (isSubclassOf name middle first).1 = .ok true →
          (isSubclassOf middle target second).1 = .ok true →
            (isSubclassOf name target third).1 = .ok true := by
  refine ⟨?_,?_,?_,isSubclassOf_self,?_⟩
  · exact fun target later hlater => isSubclassOf_iff htraced target hlater
  · exact fun below above => Site.extends_iff
  · exact fun below hunread above => not_lists_of_unread hunread above
  · intro middle target first second third hfirst hsecond hthird
    exact isSubclassOf_trans htraced hfirst hsecond hthird

/-- A shuttle is a frame. The class of empty looms that it lists lies in a file. -/
def shuttleSite : Site where
  registry :=
    { classes :=
        [("Device",{ name := "Device", kind := .interface }),
          ("Mill\\Loom",{ name := "Mill\\Loom", kind := .interface, interfaces := ["Device"] }),
          ("Frame",{ name := "Frame" }),
          ("Shuttle",
            { name := "Shuttle", parent := some "Frame", interfaces := ["Mill\\LoomNull"] })]
      scriptDirs := ["s"] }
  files :=
    { directories := [["s"]]
      contents := [(["s","Mill_LoomNull.class.json"],
        (GeneratedClass.toJson ⟨"Mill\\LoomNull",["Mill\\Loom"],[]⟩).pretty)] }

theorem shuttle_traced : shuttleSite.Traced "Shuttle" := by
  let names := ["Device","Mill\\Loom","Frame","Mill\\LoomNull","Shuttle"]
  have hups : ∀ n ∈ names,∀ above ∈ shuttleSite.ups n,
      above ∈ names ∧ names.idxOf above < names.idxOf n := by
    decide +kernel
  have hhonest : ∀ n ∈ names,((loaded shuttleSite.files n ["s"]).toOption.join.all
      fun c => c.name = n) = true := by
    decide +kernel
  refine Site.traced_of_rank names.idxOf (fun n hn => Site.Honest.faithful ?_) hups (by decide)
  intro _ c hload
  have hn := hhonest n hn
  rw [show loaded shuttleSite.files n ["s"] = .ok (some c) from hload] at hn
  exact of_decide_eq_true hn

theorem subclass_test_decides_reachability_sample : ∃ first second,
    shuttleSite.Traced "Shuttle" ∧
      isSubclassOf "Shuttle" "Device" shuttleSite = (.ok true,first) ∧
      isSubclassOf "Shuttle" "Thread" first = (.ok false,second) ∧
      ReflTransGen shuttleSite.Extends "Shuttle" "Device" ∧
      ¬ReflTransGen shuttleSite.Extends "Shuttle" "Thread" := by
  have hrun : (isSubclassOf "Shuttle" "Device" shuttleSite).1.toOption = some true := by
    decide +kernel
  have hagain : (isSubclassOf "Shuttle" "Thread"
      (isSubclassOf "Shuttle" "Device" shuttleSite).2).1.toOption = some false := by
    decide +kernel
  have htest := (subclass_test_decides_reachability shuttle_traced).1
  obtain ⟨b,first,hfirst,hlooked,hup⟩ := htest "Device" shuttleSite (.refl _)
  rw [hfirst] at hrun hagain
  obtain rfl : b = true := Option.some.inj hrun
  obtain ⟨b,second,hsecond,-,hnot⟩ := htest "Thread" first hlooked
  rw [hsecond] at hagain
  obtain rfl : b = false := Option.some.inj hagain
  refine ⟨first,second,shuttle_traced,hfirst,hsecond,hup.mp rfl,fun h => ?_⟩
  cases hnot.mpr h

/-- The class of empty looms lies in a file, and so does another one of a class that is
registered, under the name of a class that is not. -/
def replacedSite : Site where
  registry :=
    { classes :=
        [("Loom",{ name := "Loom", kind := .interface }),
          ("Mill\\Loom",{ name := "Mill\\Loom", kind := .interface }),
          ("Mill\\LoomNull",{ name := "Mill\\LoomNull", interfaces := ["Mill\\Loom"] }),
          ("Thread",
            { name := "Thread", interfaces := ["Mill_LoomNull","Mill\\LoomNull"] })]
      scriptDirs := ["s"] }
  files :=
    { directories := [["s"]]
      contents :=
        [(["s","LoomNull.class.json"],(GeneratedClass.toJson ⟨"LoomNull",["Loom"],[]⟩).pretty),
          (["s","Mill_LoomNull.class.json"],
            (GeneratedClass.toJson ⟨"Mill\\LoomNull",[],[]⟩).pretty)] }

/-- Steps of registered classes alone do not tell what the test answers: it reads the class of
empty looms, and loses what the thread descends from when it reads the other one. -/
theorem subclass_test_reads_files :
    (∀ n,¬TransGen replacedSite.registry.Ancestor n n) ∧
      (isSubclassOf "LoomNull" "Loom" replacedSite).1 = .ok true ∧
      ¬ReflTransGen replacedSite.registry.Ancestor "Loom" "LoomNull" ∧
      (isSubclassOf "Thread" "Mill\\Loom" replacedSite).1 = .ok false ∧
      ReflTransGen replacedSite.registry.Ancestor "Mill\\Loom" "Thread" := by
  let names := ["Loom","Mill\\Loom","Mill_LoomNull","Mill\\LoomNull","Thread"]
  have hrank : ∀ row ∈ replacedSite.registry.classes,
      ∀ a ∈ row.2.interfaces ++ row.2.parent.toList,names.idxOf a < names.idxOf row.1 := by
    decide +kernel
  refine ⟨Registry.acyclic_of_rank names.idxOf hrank,by decide +kernel,?_,by decide +kernel,?_⟩
  · intro h
    rcases ReflTransGen.cases_tail h with hself | ⟨above,-,c,hc,-⟩
    · exact absurd hself (by decide)
    · cases hc
  · have hnull : replacedSite.registry.Ancestor "Mill\\LoomNull" "Thread" :=
      ⟨_,rfl,.inl (by decide)⟩
    have hloom : replacedSite.registry.Ancestor "Mill\\Loom" "Mill\\LoomNull" :=
      ⟨_,rfl,.inl (by decide)⟩
    exact .head hloom (.single hnull)

end Classes
end Wiring
