import Mathlib
import Wiring.Compile.Prepare
import Wiring.Proofs.Classes.Looking
import Wiring.Proofs.Classes.Rooted

/-!
# Weaving again changes nothing

A pointcut covers the methods that it selects once it is woven in: each of them has a list
that holds its interceptors. What is woven in later only adds to the lists, so in the end all
pointcuts cover their methods, and to weave them in once more changes neither a list nor the
order of the rows. The classes of a graph need only be known with their ancestors for this;
then weaving reads no file and leaves everything else as it was. In any case weaving goes row by
row, and keeps what it keeps to weave one plan.
-/
namespace Wiring

namespace Classes

variable {names more : List String} {name : String}

theorem appendNew_cons (names rest : List String) (n : String) : appendNew names (n :: rest) =
    appendNew (if names.contains n then names else names ++ [n]) rest := rfl

theorem mem_appendNew : name ∈ appendNew names more ↔ name ∈ names ∨ name ∈ more := by
  induction more generalizing names with
  | nil => simp [appendNew]
  | cons n rest ih =>
    rw [appendNew_cons,ih,List.mem_cons]
    split
    next hn =>
      rw [List.contains_iff_mem] at hn
      constructor
      · exact Or.imp_right .inr
      · rintro (h | rfl | h)
        · exact .inl h
        · exact .inl hn
        · exact .inr h
    next => rw [List.mem_append,List.mem_singleton,or_assoc]

theorem nodup_appendNew (h : names.Nodup) : (appendNew names more).Nodup := by
  induction more generalizing names with
  | nil => exact h
  | cons n rest ih =>
    rw [appendNew_cons]
    apply ih
    split
    next => exact h
    next hn =>
      rw [← List.concat_eq_append]
      exact h.concat fun hmem => hn (List.contains_iff_mem.mpr hmem)

theorem subset_appendNew (names more : List String) :
    names ⊆ appendNew names more ∧ more ⊆ appendNew names more :=
  ⟨fun _ h => mem_appendNew.mpr (.inl h),fun _ h => mem_appendNew.mpr (.inr h)⟩

theorem appendNew_of_subset {names more : List String} (h : more ⊆ names) :
    appendNew names more = names := by
  induction more with
  | nil => rfl
  | cons n rest ih =>
    obtain ⟨hn,hrest⟩ := List.cons_subset.mp h
    have hcontains : names.contains n = true := List.contains_iff_mem.mpr hn
    rw [appendNew_cons,if_pos hcontains]
    exact ih hrest

end Classes

namespace Weave

open Classes Work

variable {advice : Table String (List String)} {methods interceptors : List String}

section Record

/-- Each of the methods has a list that holds the interceptors. -/
def Covers (advice : Table String (List String)) (methods interceptors : List String) : Prop :=
  ∀ method ∈ methods, ∃ l, advice.find? method = some l ∧ interceptors ⊆ l

/-- A list stays where it is and is only added to. -/
theorem find?_record (methods more : List String) {method : String} {l : List String}
    (h : advice.find? method = some l) :
    ∃ l', (record advice methods more).find? method = some l' ∧ l ⊆ l' := by
  induction methods generalizing advice l with
  | nil => exact ⟨l,h,fun _ hm => hm⟩
  | cons first rest ih =>
    by_cases hm : method = first
    · subst hm
      have hput : (advice.put method (appendNew ((advice.find? method).getD []) more)).find? method =
          some (appendNew l more) := by
        rw [Table.find?_put_self,h]
        rfl
      obtain ⟨l',hl',hsub⟩ := ih hput
      exact ⟨l',hl',List.Subset.trans (subset_appendNew l more).1 hsub⟩
    · exact ih ((Table.find?_put_of_ne _ _ hm).trans h)

theorem Covers.record {others : List String} (h : Covers advice methods interceptors)
    (more : List String) : Covers (record advice others more) methods interceptors := by
  intro method hm
  obtain ⟨l,hl,hsub⟩ := h method hm
  obtain ⟨l',hl',hsub'⟩ := find?_record others more hl
  exact ⟨l',hl',List.Subset.trans hsub hsub'⟩

theorem record_covers : Covers (record advice methods interceptors) methods interceptors := by
  induction methods generalizing advice with
  | nil => exact fun _ h => by cases h
  | cons first rest ih =>
    refine List.forall_mem_cons.mpr ⟨?_,ih⟩
    have hput := Table.find?_put_self advice first
      (appendNew ((advice.find? first).getD []) interceptors)
    obtain ⟨l,hl,hsub⟩ := find?_record rest interceptors hput
    exact ⟨l,hl,List.Subset.trans (subset_appendNew _ interceptors).2 hsub⟩

/-- Recording what is covered changes nothing, not even the order. -/
theorem Covers.record_eq (h : Covers advice methods interceptors) :
    Weave.record advice methods interceptors = advice := by
  induction methods with
  | nil => rfl
  | cons first rest ih =>
    obtain ⟨⟨l,hl,hsub⟩,hrest⟩ := List.forall_mem_cons.mp h
    have hput : advice.put first (appendNew ((advice.find? first).getD []) interceptors) =
        advice := by
      rw [hl,Option.getD_some,appendNew_of_subset hsub]
      exact Table.put_found hl
    rw [Weave.record,List.foldl_cons,hput]
    exact ih hrest

end Record

section Plans

variable {selected : Pointcut → Bool} {ps : List Pointcut}

/-- What the pointcuts add one after another for a class of which it is known which of them
select it. -/
def laid (selected : Pointcut → Bool) (methods : List String)
    (advice : Table String (List String)) (ps : List Pointcut) : Table String (List String) :=
  ps.foldl (fun advice p =>
    if selected p then record advice (methods.filter p.methods.matchesMethod) p.interceptors
    else advice) advice

theorem Covers.laid {others : List String} (h : Covers advice others interceptors) :
    Covers (laid selected methods advice ps) others interceptors := by
  induction ps generalizing advice with
  | nil => exact h
  | cons p rest ih =>
    refine ih ?_
    beta_reduce
    split
    · exact h.record _
    · exact h

theorem laid_covers {p : Pointcut} (hp : p ∈ ps) (hs : selected p = true) :
    Covers (laid selected methods advice ps) (methods.filter p.methods.matchesMethod)
      p.interceptors := by
  induction ps generalizing advice with
  | nil => cases hp
  | cons first rest ih =>
    rcases List.mem_cons.mp hp with rfl | hp
    · rw [Weave.laid,List.foldl_cons,if_pos hs]
      exact record_covers.laid
    · exact ih hp

theorem laid_of_covers (h : ∀ p ∈ ps, selected p = true →
    Covers advice (methods.filter p.methods.matchesMethod) p.interceptors) :
    laid selected methods advice ps = advice := by
  induction ps with
  | nil => rfl
  | cons p rest ih =>
    obtain ⟨hp,hrest⟩ := List.forall_mem_cons.mp h
    have hfirst : (if selected p then
        record advice (methods.filter p.methods.matchesMethod) p.interceptors else advice) =
        advice := by
      split
      next hs => exact (hp hs).record_eq
      next => rfl
    rw [Weave.laid,List.foldl_cons,hfirst]
    exact ih hrest

theorem laid_laid : laid selected methods (laid selected methods advice ps) ps =
    laid selected methods advice ps :=
  laid_of_covers fun _ hp hs => laid_covers hp hs

theorem foldlM_apply (methods : List String) (ps : List Pointcut) {site : Site} (p : Plan Value)
    (h : ∀ q, selects q.classes p.className site = (.ok (selected q),site)) :
    ps.foldlM (apply methods) p site =
      (.ok { p with advice := laid selected methods p.advice ps },site) := by
  induction ps generalizing p with
  | nil => rfl
  | cons q rest ih =>
    have happly : apply methods p q site = (.ok { p with advice :=
        (if selected q then record p.advice (methods.filter q.methods.matchesMethod) q.interceptors
        else p.advice) },site) := by
      rw [apply,run_bind (h q)]
      cases selected q <;> rfl
    rw [List.foldlM_cons,run_bind happly,ih]
    · rfl
    · exact h

/-- The plan of a rooted class is woven the same wherever the registry is the same, and weaving
it again gives the plan that is there. -/
theorem plan_rooted {r : Registry} (ps : List Pointcut) (p : Plan Value)
    (h : r.Rooted p.className) : ∃ advice,
      (∀ site, site.registry = r → plan ps p site = (.ok { p with advice },site)) ∧
        ∀ site, site.registry = r →
          plan ps { p with advice } site = (.ok { p with advice },site) := by
  obtain ⟨methods,hmethods⟩ := methodNames_rooted h
  choose selected hselected using fun q : Pointcut => selects_rooted q.classes h
  refine ⟨laid selected methods p.advice ps,fun site hsite => ?_,fun site hsite => ?_⟩
  · rw [plan,run_bind (hmethods site hsite)]
    exact foldlM_apply methods ps p fun q => hselected q site hsite
  · rw [plan,run_bind (hmethods site hsite)]
    have hagain := foldlM_apply methods ps
      { p with advice := laid selected methods p.advice ps } fun q => hselected q site hsite
    rw [laid_laid] at hagain
    exact hagain

end Plans

section Graphs

variable {r : Registry} {ps : List Pointcut}

/-- Weaving the pointcuts into the plan of the binding, if it has one, changes nothing. -/
def Steady (r : Registry) (ps : List Pointcut) (b : Binding Value) : Prop :=
  ∀ p, b = .construction p → ∀ site, site.registry = r → plan ps p site = (.ok p,site)

/-- The classes bound in the rows are known with their ancestors. -/
def RootedRows (r : Registry) (rows : Table Key (Binding Value)) : Prop :=
  ∀ row ∈ rows, ∀ p, row.2 = .construction p → r.Rooted p.className

theorem steady_literal (v : Value) : Steady r ps (.literal v) := fun _ hp => by cases hp

theorem bindings_other {rows : Table Key (Binding Value)} (key : Key) {b : Binding Value}
    (hb : ∀ p, b ≠ .construction p) : bindings ps ((key,b) :: rows) =
      bindings ps rows >>= fun woven => pure ((key,b) :: woven.1,woven.2) := by
  rw [bindings]
  exact fun _ p hp => hb p (congrArg Prod.snd hp)

/-- Weaving keeps what it keeps to weave the plans one by one. Each row keeps its place and its key;
its binding is as it was, or that of the woven plan. -/
theorem bindings_maintains {I : Site → Prop} {R : Binding Value → Binding Value → Prop}
    {rows : Table Key (Binding Value)} (hsame : ∀ row ∈ rows, R row.2 row.2)
    (hplan : ∀ row ∈ rows, ∀ p, row.2 = .construction p →
      (plan ps p).Maintains I fun q => R row.2 (.construction q)) :
    (bindings ps rows).Maintains I fun woven =>
      List.Forall₂ (fun r w => w.1 = r.1 ∧ R r.2 w.2) rows woven.1 := by
  induction rows with
  | nil => exact .pure .nil
  | cons row rest ih =>
    obtain ⟨hrow,hrows⟩ := List.forall_mem_cons.mp hsame
    obtain ⟨hfirst,hrest⟩ := List.forall_mem_cons.mp hplan
    obtain ⟨key,b⟩ := row
    by_cases hb : ∃ p, b = .construction p
    · obtain ⟨p,rfl⟩ := hb
      rw [bindings]
      refine (hfirst p rfl).attempt.bind fun answer hanswer => ?_
      cases answer with
      | ok q =>
        exact (ih hrows hrest).bind fun woven hwoven => .pure (.cons ⟨rfl,hanswer⟩ hwoven)
      | error f =>
        exact .pure (.cons ⟨rfl,hrow⟩ (List.forall₂_same.mpr fun r hr => ⟨rfl,hrows r hr⟩))
    · rw [bindings_other key (not_exists.mp hb)]
      exact (ih hrows hrest).bind fun woven hwoven => .pure (.cons ⟨rfl,hrow⟩ hwoven)

theorem graph_maintains {I : Site → Prop} {R : Binding Value → Binding Value → Prop} {g : Graph}
    (hsame : ∀ row ∈ g.bindings, R row.2 row.2)
    (hplan : ∀ row ∈ g.bindings, ∀ p, row.2 = .construction p →
      (plan g.pointcuts p).Maintains I fun q => R row.2 (.construction q)) :
    (graph g).Maintains I fun woven => ∃ rows, woven.1 = { g with bindings := rows } ∧
      List.Forall₂ (fun r w => w.1 = r.1 ∧ R r.2 w.2) g.bindings rows := by
  unfold graph
  split
  · exact .pure ⟨g.bindings,rfl,List.forall₂_same.mpr fun row hrow => ⟨rfl,hsame row hrow⟩⟩
  · exact (bindings_maintains hsame hplan).bind fun woven hwoven => .pure ⟨woven.1,rfl,hwoven⟩

theorem graph_keeps {I : Site → Prop} (h : Classes.Keep I) (g : Graph) :
    (graph g).Maintains I fun _ => True :=
  (graph_maintains (R := fun _ _ => True) (fun _ _ => trivial) fun _ _ p _ =>
    (h.weave g.pointcuts p).imp fun _ _ => trivial).imp fun _ _ => trivial

/-- The rows of rooted classes are woven to the end, and stay as they are from then on. -/
theorem bindings_rooted (ps : List Pointcut) {rows : Table Key (Binding Value)}
    (h : RootedRows r rows) :
    ∃ woven, (∀ site, site.registry = r → bindings ps rows site = (.ok (woven,none),site)) ∧
      ∀ row ∈ woven, Steady r ps row.2 := by
  induction rows with
  | nil => exact ⟨[],fun _ _ => rfl,fun _ h => by cases h⟩
  | cons row rest ih =>
    obtain ⟨hrow,hrest⟩ := List.forall_mem_cons.mp h
    obtain ⟨woven,hwoven,hsteady⟩ := ih hrest
    obtain ⟨key,b⟩ := row
    by_cases hb : ∃ p, b = .construction p
    · obtain ⟨p,rfl⟩ := hb
      obtain ⟨advice,hplan,hagain⟩ := plan_rooted ps p (hrow p rfl)
      refine ⟨(key,.construction { p with advice }) :: woven,fun site hsite => ?_,
        List.forall_mem_cons.mpr ⟨?_,hsteady⟩⟩
      · have hattempt : Work.attempt (plan ps p) site = (.ok (.ok { p with advice }),site) := by
          rw [attempt_run,hplan site hsite]
        rw [bindings,run_bind hattempt]
        dsimp only
        rw [run_bind (hwoven site hsite)]
        rfl
      · intro q hq
        obtain rfl := Binding.construction.inj hq
        exact hagain
    · refine ⟨(key,b) :: woven,fun site hsite => ?_,List.forall_mem_cons.mpr ⟨?_,hsteady⟩⟩
      · rw [bindings_other key (not_exists.mp hb),run_bind (hwoven site hsite)]
        rfl
      · exact fun p hp => absurd ⟨p,hp⟩ hb

theorem graph_rooted {g : Graph} {site : Site} (h : RootedRows site.registry g.bindings) :
    ∃ woven, graph g site = (.ok ({ g with bindings := woven },none),site) ∧
      ∀ row ∈ woven, Steady site.registry g.pointcuts row.2 := by
  unfold graph
  by_cases hempty : g.pointcuts.isEmpty = true
  · rw [if_pos hempty]
    refine ⟨g.bindings,rfl,fun row hrow p hp site' hsite => ?_⟩
    have hnil : g.pointcuts = [] := List.isEmpty_iff.mp hempty
    obtain ⟨methods,hmethods⟩ := methodNames_rooted (h row hrow p hp)
    rw [hnil,plan,run_bind (hmethods site' hsite)]
    rfl
  · obtain ⟨woven,hwoven,hsteady⟩ := bindings_rooted g.pointcuts h
    rw [if_neg hempty,run_bind (hwoven site rfl)]
    exact ⟨woven,rfl,hsteady⟩

end Graphs
end Weave

namespace Prepare

open Weave Work

theorem mem_nullObjectsOf_iff {g : Graph} {key : Key} {interface : String} :
    (key,interface) ∈ nullObjectsOf g ↔ (key,Binding.nullObject interface) ∈ g.bindings := by
  unfold nullObjectsOf
  rw [List.mem_filterMap]
  constructor
  · rintro ⟨⟨other,b⟩,hrow,hsome⟩
    cases b with
    | nullObject i =>
      obtain ⟨rfl,rfl⟩ := Prod.mk.inj (Option.some.inj hsome)
      exact hrow
    | literal v => cases hsome
    | construction plan => cases hsome
    | provider plan shared context => cases hsome
  · exact fun hrow => ⟨_,hrow,rfl⟩

/-- A graph whose classes are rooted once its null objects have been made is prepared, and its
bindings are steady under its own pointcuts. -/
theorem graph_steady {dir : String} {g converted : Graph} {start named : Site}
    (hnull : nullObjects dir g start = (.ok converted,named))
    (h : RootedRows named.registry converted.bindings) :
    ∃ P, Prepare.graph dir g start = (.ok P,named) ∧
      ∀ row ∈ P.bindings, Steady named.registry P.pointcuts row.2 := by
  obtain ⟨woven,hwoven,hsteady⟩ := graph_rooted h
  have hinjector : ∀ row ∈ (bindInjector { converted with bindings := woven }).bindings,
      Steady named.registry converted.pointcuts row.2 := by
    unfold bindInjector
    dsimp only
    split
    · exact hsteady
    · intro row hrow
      rcases Table.mem_put hrow with hrow | hvalue
      · exact hsteady row hrow
      · rw [hvalue]
        exact steady_literal _
  have hpointcuts : (bindInjector { converted with bindings := woven }).pointcuts =
      converted.pointcuts := by
    unfold bindInjector
    dsimp only
    split <;> rfl
  refine ⟨(bindInjector { converted with bindings := woven }).add Key.scriptDir
    (.literal (.text dir)),?_,?_⟩
  · rw [Prepare.graph,run_bind hnull,run_bind hwoven]
    rfl
  · unfold Container.add
    dsimp only
    rw [hpointcuts]
    intro row hrow
    rcases Table.mem_put hrow with hrow | hvalue
    · exact hinjector row hrow
    · rw [hvalue]
      exact steady_literal _

end Prepare
end Wiring
