import Mathlib
import Wiring.Proofs.Classes.Ancestry
import Wiring.Proofs.Classes.Lineage
import Wiring.Proofs.Compile.Weaving

/-!
# What weaving records

Each pointcut in turn adds its interceptors to the methods that it selects. So in the end a method
has the interceptors of all pointcuts that select it, in their order and each once, and the
methods stand in the order in which pointcuts came to them. Which class a pointcut selects does not
depend on what has been looked up before, so to weave once more finds everything recorded.
-/
namespace Wiring

open Work Relation

/-- The pointcut selects the method of the class. -/
def Pointcut.Matches (site : Site) (className method : String) (q : Pointcut) : Prop :=
  q.classes.Covers site className ∧ q.methods.matchesMethod method = true

/-- A call of the method on an object of the class runs a body. -/
def Classes.Dispatches (site : Site) (className method : String) : Prop :=
  ∃ c body,Classes.find className site = (.ok c,site) ∧
    Classes.body? c method site = (.ok (some body),site)

namespace Weave

open Classes

variable {advice : Table String (List String)} {methods interceptors : List String}
  {selected : Pointcut → Bool} {method : String}

section Record

theorem keys_record (advice : Table String (List String)) (methods interceptors : List String) :
    (record advice methods interceptors).keys = appendNew advice.keys methods := by
  induction methods generalizing advice with
  | nil => rfl
  | cons first rest ih =>
    have hput (l : List String) : (advice.put first l).keys =
        if advice.keys.contains first then advice.keys else advice.keys ++ [first] := by
      split
      next hkey => exact Table.keys_put l (List.contains_iff_mem.mp hkey)
      next hnew =>
        have hnew : first ∉ advice.map Prod.fst := fun h => hnew (List.contains_iff_mem.mpr h)
        rw [Table.put_new hnew,Table.keys,List.map_append]
        rfl
    rw [Weave.record,List.foldl_cons]
    apply (ih _).trans
    rw [hput]
    rfl

theorem find?_record_of_not_mem (interceptors : List String) (hm : method ∉ methods) :
    (record advice methods interceptors).find? method = advice.find? method := by
  induction methods generalizing advice with
  | nil => rfl
  | cons first rest ih =>
    rw [List.mem_cons,not_or] at hm
    apply (ih hm.2).trans
    exact Table.find?_put_of_ne _ _ hm.1

theorem find?_record_of_mem (interceptors : List String) (hmethods : methods.Nodup)
    (hm : method ∈ methods) : (record advice methods interceptors).find? method =
      some (appendNew ((advice.find? method).getD []) interceptors) := by
  induction methods generalizing advice with
  | nil => cases hm
  | cons first rest ih =>
    obtain ⟨hfirst,hrest⟩ := List.nodup_cons.mp hmethods
    rcases List.mem_cons.mp hm with rfl | hlater
    · apply (find?_record_of_not_mem interceptors hfirst).trans
      exact Table.find?_put_self ..
    · have hne : method ≠ first := by
        rintro rfl
        exact hfirst hlater
      apply (ih hrest hlater).trans
      rw [Table.find?_put_of_ne _ _ hne]

end Record

section Laid

/-- The last pointcut adds to what those before it have added. -/
theorem laid_concat (selected : Pointcut → Bool) (methods : List String)
    (advice : Table String (List String)) (ps : List Pointcut) (q : Pointcut) :
    laid selected methods advice (ps ++ [q]) =
      if selected q then record (laid selected methods advice ps)
        (methods.filter q.methods.matchesMethod) q.interceptors
      else laid selected methods advice ps := by
  unfold laid
  rw [List.foldl_append]
  rfl

/-- The methods stand in the order of the first pointcuts that select them. -/
theorem keys_laid (selected : Pointcut → Bool) (methods : List String) (ps : List Pointcut) :
    (laid selected methods [] ps).keys =
      ((ps.filter selected).flatMap fun q => methods.filter q.methods.matchesMethod).eraseDups := by
  induction ps using List.reverseRecOn with
  | nil => rfl
  | append_singleton ps q ih =>
    rw [laid_concat,List.filter_append,List.flatMap_append]
    cases hq : selected q with
    | true =>
      rw [if_pos rfl,keys_record,ih,appendNew_eraseDups,List.filter_cons_of_pos hq]
      simp
    | false =>
      rw [if_neg (by simp),ih,List.filter_cons_of_neg (by simp [hq])]
      simp

/-- A method has the interceptors of all pointcuts that select it. -/
theorem find?_laid (selected : Pointcut → Bool) (ps : List Pointcut) (hmethods : methods.Nodup)
    (hm : method ∈ methods) : ((laid selected methods [] ps).find? method).getD [] =
      ((ps.filter fun q => selected q && q.methods.matchesMethod method).flatMap
        Pointcut.interceptors).eraseDups := by
  induction ps using List.reverseRecOn with
  | nil => rfl
  | append_singleton ps q ih =>
    rw [laid_concat,List.filter_append,List.flatMap_append]
    by_cases hq : selected q = true ∧ q.methods.matchesMethod method = true
    · have hmem : method ∈ methods.filter q.methods.matchesMethod :=
        List.mem_filter.mpr ⟨hm,hq.2⟩
      rw [if_pos hq.1,find?_record_of_mem _ (hmethods.filter _) hmem,Option.getD_some,ih,
        appendNew_eraseDups]
      simp [hq.1,hq.2]
    · have hsame : ((if selected q = true then record (laid selected methods [] ps)
          (methods.filter q.methods.matchesMethod) q.interceptors
          else laid selected methods [] ps).find? method) =
          (laid selected methods [] ps).find? method := by
        split
        next hs =>
          apply find?_record_of_not_mem
          intro hmem
          exact hq ⟨hs,(List.mem_filter.mp hmem).2⟩
        next => rfl
      rw [hsame,ih]
      rw [← Bool.and_eq_true] at hq
      simp [hq]

end Laid

section Plans

variable {start : Site} {className : String}

theorem foldlM_comes (methods : List String)
    (hselects : ∀ q : Pointcut,(selects q.classes className).Comes start (selected q))
    (ps : List Pointcut) {p : Plan Value} (hp : p.className = className) :
    (ps.foldlM (apply methods) p).Comes start
      { p with advice := laid selected methods p.advice ps } := by
  induction ps generalizing p with
  | nil => exact .pure p
  | cons q rest ih =>
    have happly : (apply methods p q).Comes start { p with advice :=
        (if selected q then record p.advice (methods.filter q.methods.matchesMethod) q.interceptors
        else p.advice) } := by
      subst hp
      apply (hselects q).bind
      cases selected q with
      | true => exact .pure _
      | false => exact .pure p
    rw [List.foldlM_cons]
    apply happly.bind
    exact ih hp

open Classical in
/-- The advice of a class with what the pointcuts add that cover it. -/
noncomputable def advised (site : Site) (ps : List Pointcut) (className : String)
    (line : List (String × ClassDecl)) (advice : Table String (List String)) :
    Table String (List String) :=
  laid (fun q => decide (q.classes.Covers site className)) (methodsOf line) advice ps

theorem advised_advised (site : Site) (ps : List Pointcut) (className : String)
    (line : List (String × ClassDecl)) (advice : Table String (List String)) :
    advised site ps className line (advised site ps className line advice) =
      advised site ps className line advice := laid_laid

/-- The plan of a class comes to the same advice, whatever was looked up before. -/
theorem plan_comes {line : List (String × ClassDecl)} (ps : List Pointcut) {p : Plan Value}
    (hcharted : start.Charted p.className) (hline : start.registry.Line p.className line) :
    (plan ps p).Comes start
      { p with advice := advised start ps p.className line p.advice } := by
  unfold plan
  refine Comes.bind (a := methodsOf line) ?_ (foldlM_comes _ (fun q => ?_) ps rfl)
  · intro site hsite
    exact ⟨site,methodNames_line (hline.mono hsite.kept),hsite⟩
  · exact selects_comes q.classes hcharted

end Plans

section Advice

variable {site : Site} {className : String} {line : List (String × ClassDecl)}

open Classical in
/-- The advice of a class is what the pointcuts say that match the class and the method. -/
structure Advises (site : Site) (ps : List Pointcut) (className : String)
    (line : List (String × ClassDecl)) (advice : Table String (List String)) : Prop where
  /-- The methods that can be called and are matched have an entry each. -/
  entries : ∀ method,method ∈ advice.keys ↔ method ≠ ClassDecl.constructorName ∧
    Dispatches site className method ∧ ∃ q ∈ ps,q.Matches site className method
  /-- An entry lists the interceptors of all that match, each once. -/
  lists : ∀ method l,(method,l) ∈ advice →
    l = ((ps.filter fun q => q.Matches site className method).flatMap
      Pointcut.interceptors).eraseDups
  /-- The entries stand in the order of the pointcuts, then of the methods. -/
  order : advice.keys = ((ps.filter fun q => q.classes.Covers site className).flatMap
    fun q => (methodsOf line).filter q.methods.matchesMethod).eraseDups

theorem dispatches_line (h : site.registry.Line className line) :
    Dispatches site className method ↔ (bodyIn method line).isSome = true := by
  obtain ⟨c,hc⟩ := h.found
  have hfind := find_registered hc
  have hbody := body?_line method h hc
  constructor
  · rintro ⟨d,body,hd,hrun⟩
    obtain rfl := Except.ok.inj (congrArg Prod.fst (hfind.symm.trans hd))
    rw [Except.ok.inj (congrArg Prod.fst (hbody.symm.trans hrun))]
    rfl
  · intro hsome
    obtain ⟨body,hfound⟩ := Option.isSome_iff_exists.mp hsome
    rw [hfound] at hbody
    exact ⟨c,body,hfind,hbody⟩

open Classical in
theorem advised_advises (ps : List Pointcut) (h : site.registry.Line className line) :
    Advises site ps className line (advised site ps className line []) := by
  have horder : (advised site ps className line []).keys = _ :=
    keys_laid (fun q => decide (q.classes.Covers site className)) (methodsOf line) ps
  have hmethods : (methodsOf line).Nodup := nodup_eraseDups _
  have hmem (method : String) : method ∈ (advised site ps className line []).keys ↔
      method ∈ methodsOf line ∧ ∃ q ∈ ps,q.Matches site className method := by
    rw [horder,List.mem_eraseDups,List.mem_flatMap]
    simp only [List.mem_filter,decide_eq_true_iff]
    constructor
    · rintro ⟨q,⟨hq,hcovers⟩,hm,hmatches⟩
      exact ⟨hm,q,hq,hcovers,hmatches⟩
    · rintro ⟨hm,q,hq,hcovers,hmatches⟩
      exact ⟨q,⟨hq,hcovers⟩,hm,hmatches⟩
  have hnodup : (advised site ps className line []).keys.Nodup := horder ▸ nodup_eraseDups _
  constructor
  · intro method
    rw [hmem,mem_methodsOf,dispatches_line h,and_assoc]
  · intro method l hl
    have hm := (hmem method).mp (List.mem_map_of_mem (f := Prod.fst) hl)
    have hfound := find?_laid (fun q => decide (q.classes.Covers site className)) ps hmethods hm.1
    have hrow := Table.find?_of_mem hnodup hl
    rw [advised] at hrow
    rw [hrow,Option.getD_some] at hfound
    rw [hfound]
    congr 2
    apply List.filter_congr
    intro q _
    rw [Pointcut.Matches,Bool.decide_and,Bool.decide_eq_true]
  · exact horder

/-- Weaving a class that has no advice yet gives it the advice of all pointcuts that match, and
weaving it again changes nothing. The class is registered with its parents; an interface may be
unknown, or lie in a file that describes it. Where all ancestors are registered and none descends
from itself, `Registry.Rooted.charted` and `Registry.Line.of_rooted` give what is asked here. -/
theorem plan_records_matching_advice (ps : List Pointcut) {p : Plan Value} (hnone : p.advice = [])
    (hcharted : site.Charted p.className) (hline : site.registry.Line p.className line) :
    ∃ advice site',plan ps p site = (.ok { p with advice },site') ∧
      Advises site ps p.className line advice ∧
      ∃ last,plan ps { p with advice } site' = (.ok { p with advice },last) := by
  have hcomes := plan_comes ps hcharted hline
  have hagain := plan_comes ps
    (p := { p with advice := advised site ps p.className line [] }) hcharted hline
  rw [hnone] at hcomes
  rw [advised_advised] at hagain
  obtain ⟨site',hplan,hlooked⟩ := hcomes site (.refl site)
  obtain ⟨last,hlast,-⟩ := hagain site' hlooked
  exact ⟨_,site',hplan,advised_advises ps hline,last,hlast⟩

/-- A loom is a frame and, being a machine, a device. -/
def loomSite : Site where
  registry :=
    { classes :=
        [("Device",{ name := "Device", kind := .interface }),
          ("Machine",{ name := "Machine", kind := .interface, interfaces := ["Device"] }),
          ("Frame",
            { name := "Frame", methods := [("__construct",[]),("brace",[]),("run",[])] }),
          ("Loom",
            { name := "Loom", parent := some "Frame", interfaces := ["Machine"],
              methods := [("run",[]),("weave",[])] })] }

def loomPointcuts : List Pointcut :=
  [⟨.subclassesOf "Device",.startsWith "r",["Guard","Log"]⟩,⟨.any,.any,["Log","Trace"]⟩,
    ⟨.named "Frame",.any,["Never"]⟩,⟨.startsWith "Lo",.named "run",[]⟩]

def loomPlan : Plan Value := ⟨"Loom",[],[],none,false,[]⟩

def loomAdvice : Table String (List String) :=
  [("run",["Guard","Log","Trace"]),("brace",["Log","Trace"]),("weave",["Log","Trace"])]

theorem loom_rooted : loomSite.registry.Rooted "Loom" := by
  have hdevice : loomSite.registry.Rooted "Device" :=
    .intro rfl (fun _ hi => by cases hi) fun _ hp => by cases hp
  have hmachine : loomSite.registry.Rooted "Machine" :=
    .intro rfl (fun i hi => List.mem_singleton.mp hi ▸ hdevice) fun _ hp => by cases hp
  have hframe : loomSite.registry.Rooted "Frame" :=
    .intro rfl (fun _ hi => by cases hi) fun _ hp => by cases hp
  exact .intro rfl (fun i hi => List.mem_singleton.mp hi ▸ hmachine)
    fun p hp => Option.some.inj hp ▸ hframe

theorem plan_records_matching_advice_sample : ∃ line site last,
    plan loomPointcuts loomPlan loomSite = (.ok { loomPlan with advice := loomAdvice },site) ∧
      Advises loomSite loomPointcuts "Loom" line loomAdvice ∧
      plan loomPointcuts { loomPlan with advice := loomAdvice } site =
        (.ok { loomPlan with advice := loomAdvice },last) := by
  have hrun : (plan loomPointcuts loomPlan loomSite).1.toOption.map Plan.advice =
      some loomAdvice := by
    decide +kernel
  obtain ⟨line,hline⟩ := Registry.Line.of_rooted loom_rooted
  obtain ⟨advice,site,hplan,hadvises,last,hagain⟩ :=
    plan_records_matching_advice loomPointcuts (p := loomPlan) rfl loom_rooted.charted hline
  rw [hplan] at hrun
  obtain rfl : advice = loomAdvice := Option.some.inj hrun
  exact ⟨line,site,last,hplan,hadvises,hagain⟩

end Advice
end Weave
end Wiring
