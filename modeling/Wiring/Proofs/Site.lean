import Mathlib
import Wiring.Site

/-!
# What work ensures

A property of the answers that a piece of work can give, wherever it is done. Work that
fails ensures everything. An invariant of the site is kept by work that fails as well.
-/
namespace Wiring.Work

variable {α β : Type} {P : α → Prop} {Q : β → Prop}

section

variable {σ : Type} {w : ExceptT Failure (StateM σ) α} {s s' : σ}

theorem run_bind {f : α → ExceptT Failure (StateM σ) β} {a : α} (h : w s = (.ok a,s')) :
    (w >>= f) s = f a s' := by
  simp only [Bind.bind,ExceptT.bind,ExceptT.mk,StateT.bind,h]
  rfl

theorem run_bind_error (f : α → ExceptT Failure (StateM σ) β) {e : Failure}
    (h : w s = (.error e,s')) : (w >>= f) s = (.error e,s') := by
  simp only [Bind.bind,ExceptT.bind,ExceptT.mk,StateT.bind,h]
  rfl

/-- Work that succeeds has come to an answer before each of its steps. -/
theorem run_bind_ok {f : α → ExceptT Failure (StateM σ) β} {b : β}
    (h : (w >>= f) s = (.ok b,s')) : ∃ a mid, w s = (.ok a,mid) ∧ f a mid = (.ok b,s') := by
  cases hw : w s with
  | mk answer mid =>
    cases answer with
    | ok a =>
      rw [run_bind hw] at h
      exact ⟨a,mid,rfl,h⟩
    | error e =>
      rw [run_bind_error f hw] at h
      cases congrArg Prod.fst h

end

theorem onFiles_run (w : FileWork α) (site : Site) : Work.onFiles w site =
    ((w site.files).1,{ site with files := (w site.files).2 }) := rfl

theorem attempt_run (w : Work α) (site : Site) :
    Work.attempt w site = (.ok (w site).1,(w site).2) := rfl

/-- Whatever the work answers has the property. -/
def Ensures (w : Work α) (P : α → Prop) : Prop :=
  ∀ site a site', w site = (.ok a,site') → P a

namespace Ensures

theorem pure {a : α} (h : P a) : (Pure.pure a : Work α).Ensures P := by
  intro site b site' hrun
  obtain rfl : a = b := Except.ok.inj (congrArg Prod.fst hrun)
  exact h

theorem throw (f : Failure) : (MonadExcept.throw f : Work α).Ensures P := by
  intro site a site' hrun
  cases congrArg Prod.fst hrun

theorem any (w : Work α) : w.Ensures fun _ => True := fun _ _ _ _ => trivial

theorem bind {w : Work α} {f : α → Work β} (h : w.Ensures P) (hf : ∀ a, P a → (f a).Ensures Q) :
    (w >>= f).Ensures Q := by
  intro site b site' hrun
  cases hw : w site with
  | mk answer next =>
    cases answer with
    | ok a =>
      rw [run_bind hw] at hrun
      exact hf a (h site a next hw) next b site' hrun
    | error e =>
      rw [run_bind_error f hw] at hrun
      cases congrArg Prod.fst hrun

theorem attempt {w : Work α} (h : w.Ensures P) :
    (Work.attempt w).Ensures fun answer => ∀ a, answer = .ok a → P a := by
  intro site answer site' hrun a ha
  subst ha
  rw [attempt_run] at hrun
  obtain ⟨hanswer,hnext⟩ := Prod.mk.inj hrun
  exact h site a site' (Prod.ext (Except.ok.inj hanswer) hnext)

theorem foldlM {f : β → α → Work β} {as : List α} {b : β} (hb : Q b)
    (h : ∀ a ∈ as, ∀ b, Q b → (f b a).Ensures Q) : (as.foldlM f b).Ensures Q := by
  induction as generalizing b with
  | nil => exact pure hb
  | cons a rest ih =>
    rw [List.foldlM_cons]
    refine (h a List.mem_cons_self b hb).bind fun b' hb' => ?_
    exact ih hb' fun a ha => h a (List.mem_cons_of_mem _ ha)

theorem mapM {f : α → Work β} {as : List α} (h : ∀ a ∈ as, (f a).Ensures Q) :
    (as.mapM f).Ensures fun bs => ∀ b ∈ bs, Q b := by
  induction as with
  | nil =>
    rw [List.mapM_nil]
    exact pure fun b hb => by cases hb
  | cons a rest ih =>
    rw [List.mapM_cons]
    refine (h a List.mem_cons_self).bind fun b hb => ?_
    refine (ih fun a ha => h a (List.mem_cons_of_mem _ ha)).bind fun bs hbs => ?_
    exact pure (List.forall_mem_cons.mpr ⟨hb,hbs⟩)

end Ensures

/-- Where the invariant holds, the work leaves it holding, also when it fails, and what it
answers has the property. -/
def Maintains (w : Work α) (I : Site → Prop) (P : α → Prop) : Prop :=
  ∀ site, I site → I (w site).2 ∧ ∀ a, (w site).1 = .ok a → P a

namespace Maintains

variable {I : Site → Prop}

theorem pure {a : α} (h : P a) : (Pure.pure a : Work α).Maintains I P := by
  refine fun site hsite => ⟨hsite,fun b hb => ?_⟩
  obtain rfl : a = b := Except.ok.inj hb
  exact h

theorem throw (f : Failure) : (MonadExcept.throw f : Work α).Maintains I P :=
  fun _ hsite => ⟨hsite,fun a ha => by cases ha⟩

/-- Work that keeps the invariant answers what it answers at some site where it holds. -/
theorem seen {w : Work α} (h : ∀ site, I site → I (w site).2) :
    w.Maintains I fun a => ∃ site site', I site ∧ w site = (.ok a,site') :=
  fun site hsite => ⟨h site hsite,fun _ ha => ⟨site,_,hsite,Prod.ext ha rfl⟩⟩

theorem imp {w : Work α} {R : α → Prop} (h : w.Maintains I P) (hR : ∀ a, P a → R a) :
    w.Maintains I R :=
  fun site hsite => ⟨(h site hsite).1,fun a ha => hR a ((h site hsite).2 a ha)⟩

/-- What the work ensures anyhow holds of its answer as well. -/
theorem ensured {w : Work α} {R : α → Prop} (h : w.Maintains I P) (hR : w.Ensures R) :
    w.Maintains I fun a => P a ∧ R a :=
  fun site hsite => ⟨(h site hsite).1,fun a ha =>
    ⟨(h site hsite).2 a ha,hR site a _ (Prod.ext ha rfl)⟩⟩

/-- What is answered has the property wherever the work is done, if nothing is asked of the site. -/
theorem ensures {w : Work α} (h : w.Maintains (fun _ => True) P) : w.Ensures P :=
  fun site a _ hrun => (h site trivial).2 a (congrArg Prod.fst hrun)

theorem of_ensures {w : Work α} (h : w.Ensures P) : w.Maintains (fun _ => True) P :=
  fun site _ => ⟨trivial,fun a ha => h site a _ (Prod.ext ha rfl)⟩

theorem bind {w : Work α} {f : α → Work β} (h : w.Maintains I P)
    (hf : ∀ a, P a → (f a).Maintains I Q) : (w >>= f).Maintains I Q := by
  intro site hsite
  obtain ⟨hnext,hanswer⟩ := h site hsite
  cases hw : w site with
  | mk answer next =>
    rw [hw] at hnext hanswer
    cases answer with
    | ok a =>
      rw [run_bind hw]
      exact hf a (hanswer a rfl) next hnext
    | error e =>
      rw [run_bind_error f hw]
      exact ⟨hnext,fun b hb => by cases hb⟩

theorem foldlM {f : β → α → Work β} {as : List α} {b : β} (hb : Q b)
    (h : ∀ a ∈ as, ∀ b, Q b → (f b a).Maintains I Q) : (as.foldlM f b).Maintains I Q := by
  induction as generalizing b with
  | nil => exact pure hb
  | cons a rest ih =>
    rw [List.foldlM_cons]
    refine (h a List.mem_cons_self b hb).bind fun b' hb' => ?_
    exact ih hb' fun a ha => h a (List.mem_cons_of_mem _ ha)

theorem mapM {f : α → Work β} {as : List α} {R : α → β → Prop}
    (h : ∀ a ∈ as, (f a).Maintains I (R a)) : (as.mapM f).Maintains I (List.Forall₂ R as) := by
  induction as with
  | nil =>
    rw [List.mapM_nil]
    exact pure .nil
  | cons a rest ih =>
    rw [List.mapM_cons]
    refine (h a List.mem_cons_self).bind fun b hb => ?_
    refine (ih fun a ha => h a (List.mem_cons_of_mem _ ha)).bind fun bs hbs => ?_
    exact pure (.cons hb hbs)

/-- Work that is only tried gives its answer, or a failure of the work at some site. -/
theorem attempt {w : Work α} (h : w.Maintains I P) : (Work.attempt w).Maintains I fun answer =>
    match answer with
    | .ok a => P a
    | .error f => ∃ site site', I site ∧ w site = (.error f,site') := by
  intro site hsite
  obtain ⟨hnext,hanswer⟩ := h site hsite
  rw [attempt_run]
  refine ⟨hnext,fun answer ha => ?_⟩
  obtain rfl := Except.ok.inj ha
  cases hw : (w site).1 with
  | ok a => exact hanswer a hw
  | error f => exact ⟨site,_,hsite,Prod.ext hw rfl⟩

end Maintains

/-- The work maintains the invariant, and if it fails, it is not for want of steps. -/
structure Finishes (w : Work α) (I : Site → Prop) (P : α → Prop) : Prop where
  maintains : w.Maintains I P
  ends : ∀ site, I site → (w site).1 ≠ .error .exhausted

namespace Finishes

variable {I : Site → Prop}

theorem pure {a : α} (h : P a) : (Pure.pure a : Work α).Finishes I P where
  maintains := .pure h
  ends _ _ hrun := by cases hrun

theorem throw {f : Failure} (hf : f ≠ .exhausted) :
    (MonadExcept.throw f : Work α).Finishes I P where
  maintains := .throw f
  ends _ _ hrun := hf (Except.error.inj hrun)

theorem imp {w : Work α} {R : α → Prop} (h : w.Finishes I P) (hR : ∀ a, P a → R a) :
    w.Finishes I R := ⟨h.maintains.imp hR,h.ends⟩

theorem bind {w : Work α} {f : α → Work β} (h : w.Finishes I P)
    (hf : ∀ a, P a → (f a).Finishes I Q) : (w >>= f).Finishes I Q where
  maintains := h.maintains.bind fun a ha => (hf a ha).maintains
  ends site hsite := by
    obtain ⟨hnext,hanswer⟩ := h.maintains site hsite
    have hends := h.ends site hsite
    cases hw : w site with
    | mk answer next =>
      rw [hw] at hnext hanswer hends
      cases answer with
      | ok a =>
        rw [run_bind hw]
        exact (hf a (hanswer a rfl)).ends next hnext
      | error e =>
        rw [run_bind_error f hw]
        exact fun he => hends (congrArg Except.error (Except.error.inj he))

theorem foldlM {f : β → α → Work β} {as : List α} {b : β} (hb : Q b)
    (h : ∀ a ∈ as, ∀ b, Q b → (f b a).Finishes I Q) : (as.foldlM f b).Finishes I Q := by
  induction as generalizing b with
  | nil => exact pure hb
  | cons a rest ih =>
    rw [List.foldlM_cons]
    refine (h a List.mem_cons_self b hb).bind fun b' hb' => ?_
    exact ih hb' fun a ha => h a (List.mem_cons_of_mem _ ha)

end Finishes

/-- Wherever the invariant holds, the work answers the same or fails the same, and it leaves
the site alone. -/
def Fixed (w : Work α) (I : Site → Prop) : Prop :=
  ∃ answer, ∀ site, I site → w site = (answer,site)

namespace Fixed

variable {I : Site → Prop}

theorem pure (a : α) : (Pure.pure a : Work α).Fixed I := ⟨_,fun _ _ => rfl⟩

theorem throw (f : Failure) : (MonadExcept.throw f : Work α).Fixed I := ⟨_,fun _ _ => rfl⟩

theorem bind {w : Work α} {f : α → Work β} (h : w.Fixed I) (hf : ∀ a, (f a).Fixed I) :
    (w >>= f).Fixed I := by
  obtain ⟨answer,hw⟩ := h
  cases answer with
  | error e => exact ⟨_,fun site hsite => run_bind_error f (hw site hsite)⟩
  | ok a =>
    obtain ⟨next,hnext⟩ := hf a
    exact ⟨next,fun site hsite => (run_bind (hw site hsite)).trans (hnext site hsite)⟩

theorem attempt {w : Work α} (h : w.Fixed I) : (Work.attempt w).Fixed I := by
  obtain ⟨answer,hw⟩ := h
  exact ⟨.ok answer,fun site hsite => by rw [attempt_run,hw site hsite]⟩

theorem mapM {f : α → Work β} {as : List α} (h : ∀ a ∈ as, (f a).Fixed I) :
    (as.mapM f).Fixed I := by
  induction as with
  | nil =>
    rw [List.mapM_nil]
    exact pure _
  | cons a rest ih =>
    rw [List.mapM_cons]
    refine (h a List.mem_cons_self).bind fun b => ?_
    exact (ih fun a ha => h a (List.mem_cons_of_mem _ ha)).bind fun bs => pure _

end Fixed
end Wiring.Work
