import Mathlib
import Wiring.Proofs.Classes.Recurring
import Wiring.Proofs.Compile.Watched
import Wiring.Proofs.Compile.Weaving

/-!
# Weaving where lookups settle

A plan that is woven has the interceptors of all pointcuts that select its class and its methods.
Where lookups are sincere, walks along ancestors come to what they came to before, whatever was
looked up in between; so weaving again selects the same and finds every interceptor in its place.
In any case weaving leaves the keys and all else of the bindings as they were.
-/
namespace Wiring

open Work

variable {start : Site} {size : Nat}

namespace Weave

section Plans

variable {methods : List String}

/-- The first plan takes the advice that it has to the advice of the second one by way of some of
the pointcuts, and from then on so does every plan of the class. -/
structure Lays (start : Site) (site : Site) (methods : List String)
    (weave : Plan Value → Work (Plan Value)) (p woven : Plan Value) (chosen : List Pointcut) :
    Prop where
  settled : SameAnswers start site
  woven : woven = { p with advice := laid (fun _ => true) methods p.advice chosen }
  recurs : ∀ q : Plan Value, q.className = p.className → (weave q).Recurs start site.size
    { q with advice := laid (fun _ => true) methods q.advice chosen }

theorem apply_lays {p woven : Plan Value} {pointcut : Pointcut} {site site' : Site}
    (hsite : SameAnswers start site) (hrun : apply methods p pointcut site = (.ok woven,site')) :
    site.size ≤ site'.size ∧
      ∃ chosen, Lays start site' methods (apply methods · pointcut) p woven chosen := by
  obtain ⟨selected,next,hselects,hend⟩ := Work.run_bind_ok hrun
  have hrepeats : Work.Repeats start _ _ :=
    Classes.selects_repeats pointcut.classes p.className
  have hgathers := hrepeats.first site hsite
  have hrecurs := hrepeats.recurs hsite hselects
  rw [hselects] at hgathers
  cases selected with
  | true =>
    obtain ⟨hwoven,rfl⟩ := Prod.mk.inj hend
    obtain rfl := Except.ok.inj hwoven
    refine ⟨hgathers.2,[pointcut],hgathers.1,rfl,fun q hq => ?_⟩
    rw [← hq] at hrecurs
    exact hrecurs.bind (.pure _)
  | false =>
    obtain ⟨hwoven,rfl⟩ := Prod.mk.inj hend
    obtain rfl := Except.ok.inj hwoven
    refine ⟨hgathers.2,[],hgathers.1,rfl,fun q hq => ?_⟩
    rw [← hq] at hrecurs
    exact hrecurs.bind (.pure _)

theorem foldlM_lays {pointcuts : List Pointcut} {p woven : Plan Value} {site site' : Site}
    (hsite : SameAnswers start site)
    (hrun : pointcuts.foldlM (apply methods) p site = (.ok woven,site')) :
    site.size ≤ site'.size ∧ ∃ chosen,
      Lays start site' methods (fun q => pointcuts.foldlM (apply methods) q) p woven chosen := by
  induction pointcuts generalizing p site with
  | nil =>
    obtain ⟨hwoven,rfl⟩ := Prod.mk.inj hrun
    obtain rfl := Except.ok.inj hwoven
    exact ⟨Nat.le_refl _,[],hsite,rfl,fun q _ => .pure q⟩
  | cons first rest ih =>
    rw [List.foldlM_cons] at hrun
    obtain ⟨mid,next,hfirst,hrest⟩ := Work.run_bind_ok hrun
    obtain ⟨hgrown,chosen,hlays⟩ := apply_lays hsite hfirst
    obtain ⟨hmore,others,hothers⟩ := ih hlays.settled hrest
    have happend (advice : Table String (List String)) :
        laid (fun _ => true) methods (laid (fun _ => true) methods advice chosen) others =
          laid (fun _ => true) methods advice (chosen ++ others) := List.foldl_append.symm
    obtain rfl := hlays.woven
    refine ⟨hgrown.trans hmore,chosen ++ others,hothers.settled,?_,fun q hq => ?_⟩
    · rw [hothers.woven]
      dsimp only
      rw [happend]
    · rw [List.foldlM_cons]
      refine ((hlays.recurs q hq).mono hmore).bind ?_
      have hlast := hothers.recurs
        { q with advice := laid (fun _ => true) methods q.advice chosen } hq
      dsimp only at hlast
      rwa [happend] at hlast

/-- The plan is woven the same from then on: it has the interceptors of all pointcuts. -/
theorem plan_recurs {pointcuts : List Pointcut} {p woven : Plan Value} {site site' : Site}
    (hsite : SameAnswers start site) (hrun : plan pointcuts p site = (.ok woven,site')) :
    SameAnswers start site' ∧ site.size ≤ site'.size ∧
      (plan pointcuts woven).Recurs start site'.size woven := by
  obtain ⟨methods,next,hmethods,hfold⟩ := Work.run_bind_ok hrun
  have hrepeats : Work.Repeats start _ _ := Classes.methodNames_repeats p.className
  have hgathers := hrepeats.first site hsite
  have hrecurs := hrepeats.recurs hsite hmethods
  rw [hmethods] at hgathers
  obtain ⟨hgrown,chosen,hlays⟩ := foldlM_lays hgathers.1 hfold
  have hagain := hlays.recurs woven (by rw [hlays.woven])
  obtain rfl := hlays.woven
  dsimp only at hagain
  rw [laid_laid] at hagain
  exact ⟨hlays.settled,hgathers.2.trans hgrown,(hrecurs.mono hgrown).bind hagain⟩

end Plans

section Graphs

variable {pointcuts : List Pointcut} {g : Graph}

/-- The plan of the binding, if it is that of a class, is woven to itself from then on. -/
def Persists (start : Site) (size : Nat) (pointcuts : List Pointcut) (b : Binding Value) : Prop :=
  ∀ p, b = .construction p → (plan pointcuts p).Recurs start size p

theorem Persists.mono {more : Nat} {b : Binding Value} (h : Persists start size pointcuts b)
    (hsize : size ≤ more) : Persists start more pointcuts b :=
  fun p hp => (h p hp).mono hsize

/-- Rows that weaving got through stay as they are from then on. -/
theorem bindings_stay {rows woven : Table Key (Binding Value)} {site site' : Site}
    (hsite : SameAnswers start site)
    (hrun : bindings pointcuts rows site = (.ok (woven,none),site')) :
    SameAnswers start site' ∧ site.size ≤ site'.size ∧
      ∀ row ∈ woven, Persists start site'.size pointcuts row.2 := by
  induction rows generalizing woven site with
  | nil =>
    obtain ⟨hwoven,rfl⟩ := Prod.mk.inj hrun
    obtain ⟨rfl,-⟩ := Prod.mk.inj (Except.ok.inj hwoven)
    exact ⟨hsite,Nat.le_refl _,List.forall_mem_nil _⟩
  | cons row rest ih =>
    obtain ⟨key,b⟩ := row
    by_cases hb : ∃ p, b = .construction p
    · obtain ⟨p,rfl⟩ := hb
      rw [bindings] at hrun
      obtain ⟨answer,next,hplan,hend⟩ := Work.run_bind_ok hrun
      rw [attempt_run] at hplan
      obtain ⟨hanswer,hnext⟩ := Prod.mk.inj hplan
      obtain rfl := Except.ok.inj hanswer
      cases hp : (plan pointcuts p site).1 with
      | error f =>
        rw [hp] at hend
        cases congrArg Prod.fst hend
      | ok q =>
        rw [hp] at hend
        obtain ⟨hmid,hsize,hrecurs⟩ := plan_recurs hsite (Prod.ext hp hnext)
        obtain ⟨⟨more,failure⟩,last,hrest,hend⟩ := Work.run_bind_ok hend
        obtain ⟨hanswer,rfl⟩ := Prod.mk.inj hend
        obtain ⟨rfl,rfl⟩ := Prod.mk.inj (Except.ok.inj hanswer)
        obtain ⟨hlast,hgrown,hstay⟩ := ih hmid hrest
        refine ⟨hlast,hsize.trans hgrown,List.forall_mem_cons.mpr ⟨fun p hp => ?_,hstay⟩⟩
        obtain rfl := Binding.construction.inj hp
        exact hrecurs.mono hgrown
    · rw [bindings_other key (not_exists.mp hb)] at hrun
      obtain ⟨⟨more,failure⟩,next,hrest,hend⟩ := Work.run_bind_ok hrun
      obtain ⟨hanswer,rfl⟩ := Prod.mk.inj hend
      obtain ⟨rfl,rfl⟩ := Prod.mk.inj (Except.ok.inj hanswer)
      obtain ⟨hnext,hgrown,hstay⟩ := ih hsite hrest
      exact ⟨hnext,hgrown,List.forall_mem_cons.mpr ⟨fun p hp => absurd ⟨p,hp⟩ hb,hstay⟩⟩

theorem bindings_recur {rows : Table Key (Binding Value)}
    (h : ∀ row ∈ rows, Persists start size pointcuts row.2) :
    (bindings pointcuts rows).Recurs start size (rows,none) := by
  induction rows with
  | nil => exact .pure _
  | cons row rest ih =>
    obtain ⟨hrow,hrest⟩ := List.forall_mem_cons.mp h
    obtain ⟨key,b⟩ := row
    by_cases hb : ∃ p, b = .construction p
    · obtain ⟨p,rfl⟩ := hb
      rw [bindings]
      refine (hrow p rfl).attempt.bind ?_
      exact (ih hrest).bind (.pure _)
    · rw [bindings_other key (not_exists.mp hb)]
      exact (ih hrest).bind (.pure _)

/-- A graph whose bindings stay is woven to itself; without pointcuts every graph is. -/
theorem graph_recurs
    (h : g.pointcuts ≠ [] → ∀ row ∈ g.bindings, Persists start size g.pointcuts row.2) :
    (graph g).Recurs start size (g,none) := by
  unfold graph
  by_cases hnone : g.pointcuts.isEmpty = true
  · rw [if_pos hnone]
    exact .pure _
  · rw [if_neg hnone]
    exact (bindings_recur (h fun he => hnone (he ▸ rfl))).bind (.pure _)

theorem graph_stays {woven : Graph} {site site' : Site} (hsite : SameAnswers start site)
    (hrun : graph g site = (.ok (woven,none),site')) :
    SameAnswers start site' ∧ (woven.pointcuts ≠ [] → ∀ row ∈ woven.bindings,
      Persists start site'.size woven.pointcuts row.2) := by
  unfold graph at hrun
  split at hrun
  next hnone =>
    obtain ⟨hanswer,rfl⟩ := Prod.mk.inj hrun
    obtain ⟨rfl,-⟩ := Prod.mk.inj (Except.ok.inj hanswer)
    exact ⟨hsite,fun he => absurd (List.isEmpty_iff.mp hnone) he⟩
  next =>
    obtain ⟨⟨rows,failure⟩,next,hrows,hend⟩ := Work.run_bind_ok hrun
    obtain ⟨hanswer,rfl⟩ := Prod.mk.inj hend
    obtain ⟨rfl,rfl⟩ := Prod.mk.inj (Except.ok.inj hanswer)
    obtain ⟨hnext,_,hstay⟩ := bindings_stay hsite hrows
    exact ⟨hnext,fun _ => hstay⟩

end Graphs

section Rewoven

open Watch (Rewoven)

variable {rows woven : Table Key (Binding Value)} {g : Graph}

theorem find?_rewoven (h : Rewoven rows woven) (key : Key) :
    ∃ advice, woven.find? key = (rows.find? key).map (Binding.rewoven advice) := by
  cases hfind : rows.find? key with
  | none =>
    refine ⟨[],Table.find?_none ?_⟩
    rw [h.keys]
    intro hmem
    have hhas := Table.has_of_mem_keys hmem
    rw [Table.has,hfind] at hhas
    cases hhas
  | some b =>
    obtain ⟨other,hother,advice,rfl⟩ := Table.find?_forall₂
      (R := fun b w : Binding Value => ∃ advice, w = b.rewoven advice) h hfind
    exact ⟨advice,hother⟩

/-- Weaving, as far as it goes, changes nothing but interceptors. -/
theorem graph_rewoven (g : Graph) : (graph g).Ensures fun woven =>
    ∃ rows, woven.1 = { g with bindings := rows } ∧ Rewoven g.bindings rows := by
  have hkeep : Classes.Keep fun _ => True := fun _ _ _ => ⟨trivial,fun _ _ => trivial⟩
  refine (graph_maintains (R := fun b w => ∃ advice, w = Binding.rewoven advice b)
    (fun row _ => row.2.exists_rewoven) fun row _ p hb => ?_).ensures
  refine (hkeep.weave g.pointcuts p).imp ?_
  rintro _ ⟨advice,rfl⟩
  exact ⟨advice,hb ▸ rfl⟩

end Rewoven
end Weave

end Wiring
