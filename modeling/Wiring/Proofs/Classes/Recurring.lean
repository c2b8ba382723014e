import Mathlib
import Wiring.Proofs.Classes.Loading
import Wiring.Proofs.Classes.Looking

/-!
# Lookups that answer the same again

A lookup may register the class that a file describes, under whatever name is written there.
Where this is always the class that the name written there gives anyhow, no lookup changes what
others answer. Then a walk along ancestors that has come to its end answers the same later on:
it meets the same classes, and as no class is taken away, it has as many steps or more.
-/
namespace Wiring

open Work

/-- How many classes are registered. -/
def Site.size (site : Site) : Nat := site.registry.classes.length

/-- Whatever class a lookup of some name would read is the one that its own name gives. -/
def Site.Sincere (site : Site) : Prop :=
  ∀ className c, site.registry.classes.find? className = none →
    Classes.loaded site.files className site.registry.scriptDirs = .ok (some c) →
    (Classes.find? c.name site).1 = .ok (some c)

namespace Classes

variable {className : String} {site : Site} {c : ClassDecl}

/-- What looking a class up answers: a registered class, or the class that a file describes
under the name that was looked up. -/
def answer (r : Registry) (fs : Files) (className : String) : Except Failure (Option ClassDecl) :=
  match r.classes.find? className with
  | some c => .ok (some c)
  | none => (loaded fs className r.scriptDirs).map (·.filter fun c => c.name = className)

theorem find?_answer (className : String) (site : Site) :
    (find? className site).1 = answer site.registry site.files className := by
  have hlooks := find?_looks className site
  generalize find? className site = result at hlooks ⊢
  unfold answer
  cases hlooks with
  | registered hc => rw [hc]
  | unreadable hc h => rw [hc,h]; rfl
  | absent hc h => rw [hc,h]; rfl
  | @read c hc h =>
    rw [hc,h]
    refine congrArg Except.ok ?_
    by_cases hname : c.name = className
    · subst hname
      rw [Registry.register,Table.find?_put_self]
      exact (if_pos (decide_eq_true rfl)).symm
    · rw [Registry.register,Table.find?_put_of_ne _ _ (Ne.symm hname),hc]
      exact (if_neg (by simpa using hname)).symm

/-- To register the class that a name gives changes no answer. -/
theorem find?_register (h : (find? c.name site).1 = .ok (some c)) (className : String) :
    (find? className { site with registry := site.registry.register c }).1 =
      (find? className site).1 := by
  by_cases hname : className = c.name
  · subst hname
    have hfound : (site.registry.register c).classes.find? c.name = some c :=
      Table.find?_put_self ..
    rw [h,find?_answer,answer,hfound]
  · have hsame : (site.registry.register c).classes.find? className =
        site.registry.classes.find? className := Table.find?_put_of_ne _ _ hname
    rw [find?_answer,find?_answer,answer,answer,hsame]
    rfl

end Classes

/-- Classes have been looked up since the start, which has changed no answer of a lookup. -/
structure SameAnswers (start site : Site) : Prop where
  heap : site.heap = start.heap
  files : site.files = start.files
  sincere : site.Sincere
  answers : ∀ className, (Classes.find? className site).1 = (Classes.find? className start).1

namespace SameAnswers

variable {start site : Site}

theorem refl (h : start.Sincere) : SameAnswers start start := ⟨rfl,rfl,h,fun _ => rfl⟩

theorem register (h : SameAnswers start site) {c : ClassDecl}
    (hc : (Classes.find? c.name site).1 = .ok (some c)) :
    SameAnswers start { site with registry := site.registry.register c } where
  heap := h.heap
  files := h.files
  sincere className d hnone hload := by
    have hname : className ≠ c.name := by
      rintro rfl
      have hfound : (site.registry.register c).classes.find? c.name = some c :=
        Table.find?_put_self ..
      cases hfound.symm.trans hnone
    rw [Classes.find?_register hc]
    exact h.sincere className d ((Table.find?_put_of_ne _ _ hname).symm.trans hnone) hload
  answers className := (Classes.find?_register hc className).trans (h.answers className)

end SameAnswers

/-- The work keeps what lookups answer and takes no class away. -/
def Work.Gathers {α : Type} (start : Site) (w : Work α) : Prop :=
  ∀ site, SameAnswers start site → SameAnswers start (w site).2 ∧ site.size ≤ (w site).2.size

variable {start : Site}

theorem Work.Gathers.of {α : Type} {w : Work α}
    (h : ∀ n, w.Maintains (fun site => SameAnswers start site ∧ n ≤ site.size) fun _ => True) :
    w.Gathers start :=
  fun site hsite => (h site.size site ⟨hsite,Nat.le_refl _⟩).1

theorem Classes.find?_gathers (className : String) : (Classes.find? className).Gathers start := by
  intro site hsite
  have hlooks := Classes.find?_looks className site
  generalize Classes.find? className site = result at hlooks ⊢
  cases hlooks with
  | registered hc => exact ⟨hsite,Nat.le_refl _⟩
  | unreadable hc h => exact ⟨hsite,Nat.le_refl _⟩
  | absent hc h => exact ⟨hsite,Nat.le_refl _⟩
  | read hc h => exact ⟨hsite.register (hsite.sincere _ _ hc h),Table.length_le_put _ _ _⟩

theorem Classes.keep_answers (n : Nat) :
    Classes.Keep fun site => SameAnswers start site ∧ n ≤ site.size := by
  intro className site hsite
  obtain ⟨hnext,hsize⟩ := Classes.find?_gathers className site hsite.1
  exact ⟨⟨hnext,hsite.2.trans hsize⟩,fun _ _ => trivial⟩

/-- Where the first piece of work has come to an answer, the second one comes to the same answer
from then on. -/
structure Work.Repeats {α : Type} (start : Site) (w v : Work α) : Prop where
  first : w.Gathers start
  second : v.Gathers start
  same : ∀ site site' a, SameAnswers start site → SameAnswers start site' →
    (w site).2.size ≤ site'.size → (w site).1 = .ok a → (v site').1 = .ok a

namespace Work.Repeats

variable {α β : Type} {w v : Work α}

theorem pure (a : α) : (Pure.pure a : Work α).Repeats start (Pure.pure a) where
  first _ hsite := ⟨hsite,Nat.le_refl _⟩
  second _ hsite := ⟨hsite,Nat.le_refl _⟩
  same _ _ _ _ _ _ h := h

theorem throw (f : Failure) (hv : v.Gathers start) :
    (MonadExcept.throw f : Work α).Repeats start v where
  first _ hsite := ⟨hsite,Nat.le_refl _⟩
  second := hv
  same _ _ _ _ _ _ h := by cases h

theorem gathers_bind {f : α → Work β} (h : w.Gathers start) (hf : ∀ a, (f a).Gathers start) :
    (w >>= f).Gathers start := by
  intro site hsite
  obtain ⟨hnext,hsize⟩ := h site hsite
  cases hw : w site with
  | mk answer next =>
    rw [hw] at hnext hsize
    cases answer with
    | ok a =>
      rw [run_bind hw]
      obtain ⟨hlast,hmore⟩ := hf a next hnext
      exact ⟨hlast,hsize.trans hmore⟩
    | error e =>
      rw [run_bind_error f hw]
      exact ⟨hnext,hsize⟩

theorem bind {f g : α → Work β} (h : w.Repeats start v) (hf : ∀ a, (f a).Repeats start (g a)) :
    (w >>= f).Repeats start (v >>= g) where
  first := gathers_bind h.first fun a => (hf a).first
  second := gathers_bind h.second fun a => (hf a).second
  same site site' b hsite hsite' hsize hb := by
    cases hw : w site with
    | mk answer next =>
      cases answer with
      | error e =>
        rw [run_bind_error f hw] at hb
        cases hb
      | ok a =>
        rw [run_bind hw] at hb hsize
        have hnext := (h.first site hsite).1
        have hv := h.same site site' a hsite hsite'
        rw [hw] at hnext hv
        have hv := hv (((hf a).first next hnext).2.trans hsize) rfl
        obtain ⟨hlater,hmore⟩ := h.second site' hsite'
        rw [run_bind (Prod.ext hv rfl)]
        exact (hf a).same next _ b hnext hlater (hsize.trans hmore) hb

end Work.Repeats

namespace Classes

open Work

theorem attempt_find?_repeats (className : String) :
    (Work.attempt (find? className)).Repeats start (Work.attempt (find? className)) where
  first := find?_gathers className
  second := find?_gathers className
  same site site' answer hsite hsite' _ h := by
    rw [attempt_run] at h ⊢
    rw [← h,hsite.answers,hsite'.answers]

theorem find?_repeats (className : String) :
    (find? className).Repeats start (find? className) where
  first := find?_gathers className
  second := find?_gathers className
  same site site' answer hsite hsite' _ h := by
    rw [← h,hsite.answers,hsite'.answers]

theorem findQuietly?_repeats (className : String) :
    (findQuietly? className).Repeats start (findQuietly? className) := by
  unfold findQuietly?
  refine (attempt_find?_repeats className).bind fun answer => ?_
  cases answer with
  | ok c => exact .pure _
  | error f => exact .pure _

theorem find_repeats (className : String) : (find className).Repeats start (find className) := by
  unfold find
  refine (find?_repeats className).bind fun c => ?_
  cases c with
  | none => exact .throw _ fun _ hsite => ⟨hsite,Nat.le_refl _⟩
  | some c => exact .pure _

theorem anyOf_repeats {α : Type} {test later : α → Work Bool} (items : List α)
    (h : ∀ a, (test a).Repeats start (later a)) :
    (anyOf test items).Repeats start (anyOf later items) := by
  induction items with
  | nil => exact .pure _
  | cons a rest ih =>
    unfold anyOf
    refine (h a).bind fun passes => ?_
    split
    · exact .pure _
    · exact ih

section Walks

variable {fuel later : Nat}

theorem methodNamesTo_repeats (hfuel : fuel ≤ later) (className : String) :
    (methodNamesTo fuel className).Repeats start (methodNamesTo later className) := by
  induction fuel generalizing later className with
  | zero =>
    exact .throw _ (.of fun n => (keep_answers n).methodNamesTo later className)
  | succ fuel ih =>
    obtain ⟨later,rfl⟩ : ∃ n, later = n + 1 := ⟨later - 1,by omega⟩
    unfold methodNamesTo
    refine (find_repeats className).bind fun c => ?_
    cases c.parent with
    | none => exact .pure _
    | some parent => exact (ih (Nat.succ_le_succ_iff.mp hfuel) parent).bind fun _ => .pure _

theorem reaches_repeats (target : String) (hfuel : fuel ≤ later) (className : String) :
    (reaches target fuel className).Repeats start (reaches target later className) := by
  induction fuel generalizing later className with
  | zero => exact .throw _ (.of fun n => (keep_answers n).reaches target later className)
  | succ fuel ih =>
    obtain ⟨later,rfl⟩ : ∃ n, later = n + 1 := ⟨later - 1,by omega⟩
    have hfuel := Nat.succ_le_succ_iff.mp hfuel
    unfold reaches
    split
    · exact .pure _
    refine (findQuietly?_repeats className).bind fun c => ?_
    cases c with
    | none => exact .pure _
    | some c =>
      have hinterface (i : String) : (if i = target then return true else
          reaches target fuel i : Work Bool).Repeats start
          (if i = target then return true else reaches target later i) := by
        split
        · exact .pure _
        · exact ih hfuel i
      refine (anyOf_repeats c.interfaces hinterface).bind fun reached => ?_
      split
      · exact .pure _
      · cases c.parent with
        | none => exact .pure _
        | some parent => exact ih hfuel parent

/-- A walk has at least as many steps later on. -/
theorem walk_repeats {α : Type} {walk : Nat → Work α}
    (h : ∀ fuel later, fuel ≤ later → (walk fuel).Repeats start (walk later)) :
    (walkFuel >>= walk).Repeats start (walkFuel >>= walk) where
  first site hsite := by
    rw [run_bind (walkFuel_run site)]
    exact (h _ _ (Nat.le_refl _)).first site hsite
  second site hsite := by
    rw [run_bind (walkFuel_run site)]
    exact (h _ _ (Nat.le_refl _)).second site hsite
  same site site' a hsite hsite' hsize ha := by
    rw [run_bind (walkFuel_run site)] at ha hsize
    rw [run_bind (walkFuel_run site')]
    have hgrown := ((h _ _ (Nat.le_refl _)).first site hsite).2.trans hsize
    refine (h _ _ ?_).same site site' a hsite hsite' hsize ha
    unfold Site.size at hgrown
    rw [hsite.files,hsite'.files]
    omega

end Walks

theorem methodNames_repeats (className : String) :
    (methodNames className).Repeats start (methodNames className) :=
  walk_repeats fun _ _ hfuel => methodNamesTo_repeats hfuel className

theorem selects_repeats (m : Matcher) (className : String) :
    (selects m className).Repeats start (selects m className) := by
  cases m with
  | any => exact .pure _
  | subclassesOf target =>
    exact walk_repeats fun _ _ hfuel => reaches_repeats target hfuel className
  | startsWith start => exact .pure _
  | named name => exact .pure _

end Classes

/-- Wherever so many classes are registered, the work comes to this answer, keeps what lookups
answer and takes no class away. -/
def Work.Recurs {α : Type} (start : Site) (size : Nat) (w : Work α) (a : α) : Prop :=
  ∀ site, SameAnswers start site → size ≤ site.size →
    ∃ site', w site = (.ok a,site') ∧ SameAnswers start site' ∧ site.size ≤ site'.size

namespace Work.Recurs

variable {α β : Type} {w : Work α} {a : α} {size more : Nat}

theorem pure (a : α) : (Pure.pure a : Work α).Recurs start size a :=
  fun site hsite _ => ⟨site,rfl,hsite,Nat.le_refl _⟩

theorem mono (h : w.Recurs start size a) (hsize : size ≤ more) : w.Recurs start more a :=
  fun site hsite hmore => h site hsite (hsize.trans hmore)

theorem bind {f : α → Work β} {b : β} (h : w.Recurs start size a)
    (hf : (f a).Recurs start size b) : (w >>= f).Recurs start size b := by
  intro site hsite hsize
  obtain ⟨next,hw,hnext,hgrown⟩ := h site hsite hsize
  obtain ⟨last,hlast,hsettled,hmore⟩ := hf next hnext (hsize.trans hgrown)
  exact ⟨last,(run_bind hw).trans hlast,hsettled,hgrown.trans hmore⟩

theorem attempt (h : w.Recurs start size a) : (Work.attempt w).Recurs start size (.ok a) := by
  intro site hsite hsize
  obtain ⟨next,hw,hnext,hgrown⟩ := h site hsite hsize
  exact ⟨next,by rw [attempt_run,hw],hnext,hgrown⟩

end Work.Recurs

/-- Work that repeats itself and has come to an answer comes to it from then on. -/
theorem Work.Repeats.recurs {α : Type} {w v : Work α} {a : α} {site site' : Site}
    (h : w.Repeats start v) (hsite : SameAnswers start site) (hrun : w site = (.ok a,site')) :
    v.Recurs start site'.size a := by
  intro later hlater hsize
  have hsame := h.same site later a hsite hlater (by rwa [hrun]) (by rw [hrun])
  obtain ⟨hnext,hgrown⟩ := h.second later hlater
  exact ⟨_,Prod.ext hsame rfl,hnext,hgrown⟩

end Wiring
