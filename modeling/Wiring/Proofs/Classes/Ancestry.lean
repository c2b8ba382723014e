import Mathlib
import Wiring.Proofs.Classes.Recurring

/-!
# What a class descends from

A class extends its parent and the interfaces that it lists. Whether a name descends from another
one is asked by walking up: a name of which no class is known leads nowhere. Looking a class up
that is not registered may register it, but where that is always the class that its own name gives
anyhow, no lookup changes what the others answer. So where no name descends from itself, a walk
up comes to its end, whatever was looked up before, and tells just what the name descends from.
-/
namespace Wiring

open Work Relation

/-- The class that a lookup of the name finds. -/
def Site.finds (site : Site) (name : String) : Option ClassDecl :=
  (Classes.answer site.registry site.files name).toOption.join

/-- The class of the name has the other one for its parent or lists it. -/
def Site.Extends (site : Site) (name above : String) : Prop :=
  ∃ c,site.finds name = some c ∧ (above ∈ c.interfaces ∨ c.parent = some above)

/-- Looking the name up registers no class of another name. -/
def Site.Honest (site : Site) (name : String) : Prop :=
  site.registry.classes.find? name = none →
    ∀ c,Classes.loaded site.files name site.registry.scriptDirs = .ok (some c) → c.name = name

/-- If looking the name up registers a class, it is the one that its own name gives anyhow. -/
def Site.Faithful (site : Site) (name : String) : Prop :=
  site.registry.classes.find? name = none →
    ∀ c,Classes.loaded site.files name site.registry.scriptDirs = .ok (some c) →
      site.finds c.name = some c

/-- All that the name descends from can be looked up honestly, and none of it descends from
itself. -/
structure Site.Charted (site : Site) (name : String) : Prop where
  honest : ∀ above,ReflTransGen site.Extends name above → site.Honest above
  acyclic : ∀ above,ReflTransGen site.Extends name above → ¬TransGen site.Extends above above

/-- All that the name descends from can be looked up faithfully, and none of it descends from
itself. -/
structure Site.Traced (site : Site) (name : String) : Prop where
  faithful : ∀ above,ReflTransGen site.Extends name above → site.Faithful above
  acyclic : ∀ above,ReflTransGen site.Extends name above → ¬TransGen site.Extends above above

/-- What a matcher for classes means. -/
def Matcher.Covers (site : Site) (className : String) : Matcher → Prop
  | any => True
  | subclassesOf target => ReflTransGen site.Extends className target
  | startsWith start => start.toList <+: className.toList
  | named name => className = name

/-- Classes have been looked up since the start, which has changed no answer of a lookup. -/
structure Looked (start site : Site) : Prop where
  heap : site.heap = start.heap
  files : site.files = start.files
  dirs : site.registry.scriptDirs = start.registry.scriptDirs
  kept : ∀ name c,start.registry.classes.find? name = some c →
    site.registry.classes.find? name = some c
  answers : ∀ name,Classes.answer site.registry site.files name =
    Classes.answer start.registry start.files name
  larger : start.size ≤ site.size

namespace Site

variable {site : Site} {name : String} {c : ClassDecl}

theorem finds_of_registered (hc : site.registry.classes.find? name = some c) :
    site.finds name = some c := by
  unfold finds Classes.answer
  rw [hc]
  rfl

theorem answer_of_finds (h : site.finds name = some c) :
    Classes.answer site.registry site.files name = .ok (some c) := by
  unfold finds at h
  cases hanswer : Classes.answer site.registry site.files name with
  | error e => rw [hanswer] at h; cases h
  | ok found =>
    rw [hanswer] at h
    exact congrArg Except.ok h

theorem Honest.faithful (h : site.Honest name) : site.Faithful name := by
  intro hc c hload
  obtain rfl := h hc c hload
  unfold finds Classes.answer
  rw [hc,hload]
  exact if_pos (decide_eq_true rfl)

theorem Charted.traced (h : site.Charted name) : site.Traced name :=
  ⟨fun above ha => (h.honest above ha).faithful,h.acyclic⟩

end Site

namespace Looked

variable {start site : Site} {name : String} {c : ClassDecl}

theorem refl (start : Site) : Looked start start :=
  ⟨rfl,rfl,rfl,fun _ _ h => h,fun _ => rfl,Nat.le_refl _⟩

theorem unregistered (h : Looked start site) (hc : site.registry.classes.find? name = none) :
    start.registry.classes.find? name = none := by
  cases hstart : start.registry.classes.find? name with
  | none => rfl
  | some c => rw [h.kept name c hstart] at hc; cases hc

theorem finds (h : Looked start site) (name : String) : site.finds name = start.finds name := by
  unfold Site.finds
  rw [h.answers]

/-- A class that its own name gives anyhow may be registered. -/
theorem register (h : Looked start site) (hc : site.finds c.name = some c) :
    Looked start { site with registry := site.registry.register c } := by
  have hput : (site.registry.register c).classes.find? c.name = some c := Table.find?_put_self ..
  constructor
  · exact h.heap
  · exact h.files
  · exact h.dirs
  · intro other d hd
    have hkept := h.kept other d hd
    by_cases hother : other = c.name
    · subst hother
      rwa [Option.some.inj ((Site.finds_of_registered hkept).symm.trans hc)]
    · exact (Table.find?_put_of_ne _ _ hother).trans hkept
  · intro other
    rw [← h.answers other]
    by_cases hother : other = c.name
    · subst hother
      rw [Classes.answer,hput,Site.answer_of_finds hc]
    · have hput : (site.registry.register c).classes.find? other =
          site.registry.classes.find? other := Table.find?_put_of_ne _ _ hother
      rw [Classes.answer,Classes.answer,hput]
      rfl
  · exact h.larger.trans (Table.length_le_put ..)

end Looked

/-- Whatever has been looked up since the start, the work comes to this answer. -/
def Work.Comes {α : Type} (start : Site) (w : Work α) (a : α) : Prop :=
  ∀ site,Looked start site → ∃ site',w site = (.ok a,site') ∧ Looked start site'

variable {start : Site}

namespace Work.Comes

variable {α β : Type} {w : Work α} {a : α}

theorem pure (a : α) : (Pure.pure a : Work α).Comes start a :=
  fun site hsite => ⟨site,rfl,hsite⟩

theorem bind {f : α → Work β} {b : β} (h : w.Comes start a) (hf : (f a).Comes start b) :
    (w >>= f).Comes start b := by
  intro site hsite
  obtain ⟨next,hw,hnext⟩ := h site hsite
  obtain ⟨last,hlast,hend⟩ := hf next hnext
  exact ⟨last,(run_bind hw).trans hlast,hend⟩

end Work.Comes

namespace Site

/-- The names that a way up has led through, with fuel for those that it has not. -/
structure Room (start : Site) (way : List String) (name : String) (fuel : Nat) : Prop where
  nodup : way.Nodup
  found : ∀ d ∈ way,(start.finds d).isSome = true
  below : ∀ d ∈ way,TransGen start.Extends d name
  enough : start.size + start.files.describes.length < way.length + fuel

variable {name : String} {c : ClassDecl}

/-- A name that is found is that of a registered class, or a file describes it. -/
theorem mem_of_finds (h : (start.finds name).isSome = true) :
    name ∈ start.registry.classes.keys ++ start.files.describes := by
  unfold finds Classes.answer at h
  apply List.mem_append.mpr
  cases hc : start.registry.classes.find? name with
  | some c =>
    left
    apply Table.mem_keys_of_has
    rw [Table.has,hc]
    rfl
  | none =>
    right
    rw [hc] at h
    cases hload : Classes.loaded start.files name start.registry.scriptDirs with
    | error e => rw [hload] at h; cases h
    | ok found =>
      rw [hload] at h
      cases found with
      | none => cases h
      | some c =>
        have hname : c.name = name := by
          by_contra hne
          simp [Except.map,Except.toOption,hne] at h
        exact hname ▸ (Classes.loaded_described hload).1

theorem Room.length_le {way : List String} {fuel : Nat} (h : start.Room way name fuel) :
    way.length ≤ start.size + start.files.describes.length := by
  have hsub : way ⊆ start.registry.classes.keys ++ start.files.describes :=
    fun d hd => mem_of_finds (h.found d hd)
  have hle := (h.nodup.subperm hsub).length_le
  rwa [List.length_append,Table.keys,List.length_map] at hle

/-- A walk has fuel for one more step, and for the steps after it. -/
theorem Room.step {way : List String} {fuel : Nat} (htraced : start.Traced name)
    (h : start.Room way name (fuel + 1)) {above : String} (ha : start.Extends name above) :
    start.Room (name :: way) above fuel := by
  constructor
  · apply List.nodup_cons.mpr
    constructor
    · intro hm
      exact htraced.acyclic name .refl (h.below name hm)
    · exact h.nodup
  · refine List.forall_mem_cons.mpr ⟨?_,h.found⟩
    obtain ⟨c,hc,-⟩ := ha
    rw [hc]
    rfl
  · exact List.forall_mem_cons.mpr ⟨.single ha,fun d hd => (h.below d hd).tail ha⟩
  · have henough := h.enough
    rw [List.length_cons]
    omega

theorem room_start (name : String) {fuel : Nat}
    (h : start.size + start.files.describes.length < fuel) : start.Room [] name fuel where
  nodup := List.nodup_nil
  found _ hd := by cases hd
  below _ hd := by cases hd
  enough := by rwa [List.length_nil,Nat.zero_add]

theorem Traced.up (h : start.Traced name) {above : String}
    (ha : ReflTransGen start.Extends name above) : start.Traced above :=
  ⟨fun other hother => h.faithful other (ha.trans hother),
    fun other hother => h.acyclic other (ha.trans hother)⟩

theorem Extends.ancestor {above : String} (h : start.Extends name above)
    (hc : start.registry.classes.find? name = some c) : start.registry.Ancestor above name := by
  obtain ⟨d,hd,ha⟩ := h
  obtain rfl := Option.some.inj ((finds_of_registered hc).symm.trans hd)
  exact ⟨c,hc,ha⟩

end Site

namespace Registry.Rooted

variable {name above : String}

theorem registered (h : start.registry.Rooted name) :
    ∃ c,start.registry.classes.find? name = some c := by
  cases h with
  | intro hc _ _ => exact ⟨_,hc⟩

theorem step (h : start.registry.Rooted name) (ha : start.Extends name above) :
    start.registry.Rooted above := by
  obtain ⟨c,hc⟩ := h.registered
  obtain ⟨d,hd,hup⟩ := ha.ancestor hc
  cases h with
  | intro hown hi hp =>
    obtain rfl := Option.some.inj (hown.symm.trans hd)
    rcases hup with hlisted | hparent
    · exact hi above hlisted
    · exact hp above hparent

theorem up (h : start.registry.Rooted name) (ha : ReflTransGen start.Extends name above) :
    start.registry.Rooted above := by
  induction ha with
  | refl => exact h
  | tail _ hstep ih => exact ih.step hstep

theorem ancestor (h : start.registry.Rooted name) (ha : TransGen start.Extends name above) :
    TransGen start.registry.Ancestor above name := by
  induction ha with
  | single hstep =>
    obtain ⟨c,hc⟩ := h.registered
    exact .single (hstep.ancestor hc)
  | tail hway hstep ih =>
    obtain ⟨c,hc⟩ := (h.up hway.to_reflTransGen).registered
    exact .head (hstep.ancestor hc) ih

/-- Where a class and its ancestors are registered, no lookup reads a file. -/
theorem charted (h : start.registry.Rooted name) : start.Charted name := by
  constructor
  · intro above ha hnone
    obtain ⟨c,hc⟩ := (h.up ha).registered
    cases hnone.symm.trans hc
  · intro above ha hcycle
    have habove := h.up ha
    exact habove.not_own_ancestor (habove.ancestor hcycle)

end Registry.Rooted

namespace Classes

variable {name target : String}

theorem find?_comes (h : start.Faithful name) {site : Site} (hsite : Looked start site) :
    ∃ site',find? name site = (answer start.registry start.files name,site') ∧
      Looked start site' := by
  refine ⟨(find? name site).2,Prod.ext ((find?_answer name site).trans (hsite.answers name)) rfl,?_⟩
  have hlooks := find?_looks name site
  generalize find? name site = result at hlooks ⊢
  cases hlooks with
  | registered hc => exact hsite
  | unreadable hc hload => exact hsite
  | absent hc hload => exact hsite
  | @read c hc hload =>
    have hown : start.finds c.name = some c := by
      apply h (hsite.unregistered hc)
      rw [← hsite.files,← hsite.dirs]
      exact hload
    exact hsite.register ((hsite.finds c.name).trans hown)

theorem findQuietly?_comes (h : start.Faithful name) :
    (findQuietly? name).Comes start (start.finds name) := by
  intro site hsite
  obtain ⟨next,hfind,hnext⟩ := find?_comes h hsite
  have hattempt : Work.attempt (find? name) site =
      (.ok (answer start.registry start.files name),next) := by
    rw [attempt_run,hfind]
  refine ⟨next,?_,hnext⟩
  unfold findQuietly? Site.finds
  rw [run_bind hattempt]
  cases answer start.registry start.files name <;> rfl

theorem anyOf_comes {α : Type} {test : α → Work Bool} {passes : α → Bool} {items : List α}
    (h : ∀ a ∈ items,(test a).Comes start (passes a)) :
    (anyOf test items).Comes start (items.any passes) := by
  induction items with
  | nil => exact .pure false
  | cons a rest ih =>
    obtain ⟨hfirst,hrest⟩ := List.forall_mem_cons.mp h
    unfold anyOf
    rw [List.any_cons]
    apply hfirst.bind
    cases passes a with
    | true => exact .pure true
    | false => exact ih hrest

open Classical in
/-- A walk up finds the target just where the name descends from it. -/
theorem reaches_comes {way : List String} {fuel : Nat}
    (htraced : start.Traced name) (hroom : start.Room way name fuel) :
    (reaches target fuel name).Comes start (decide (ReflTransGen start.Extends name target)) := by
  induction fuel generalizing way name with
  | zero =>
    have hlength := hroom.length_le
    have henough := hroom.enough
    omega
  | succ fuel ih =>
    unfold reaches
    by_cases hself : name = target
    · rw [if_pos hself,decide_eq_true (hself ▸ .refl)]
      exact .pure true
    rw [if_neg hself]
    apply (findQuietly?_comes (htraced.faithful name .refl)).bind
    have hsteps : ReflTransGen start.Extends name target ↔
        ∃ above,start.Extends name above ∧ ReflTransGen start.Extends above target := by
      rw [ReflTransGen.cases_head_iff,or_iff_right hself]
    cases hfind : start.finds name with
    | none =>
      have hnone : ¬ReflTransGen start.Extends name target := by
        rw [hsteps]
        rintro ⟨above,⟨c,hc,-⟩,-⟩
        cases hfind.symm.trans hc
      rw [decide_eq_false hnone]
      exact .pure false
    | some c =>
      have hup (above : String) (ha : above ∈ c.interfaces ∨ c.parent = some above) :
          (reaches target fuel above).Comes start
            (decide (ReflTransGen start.Extends above target)) := by
        have hstep : start.Extends name above := ⟨c,hfind,ha⟩
        exact ih (htraced.up (.single hstep)) (hroom.step htraced hstep)
      have hlisted : (anyOf (fun i => if i = target then return true else reaches target fuel i)
          c.interfaces).Comes start
          (c.interfaces.any fun i => decide (ReflTransGen start.Extends i target)) := by
        apply anyOf_comes
        intro i hi
        split
        next heq =>
          rw [decide_eq_true (heq ▸ .refl)]
          exact .pure true
        next => exact hup i (.inl hi)
      apply hlisted.bind
      cases hany : c.interfaces.any fun i => decide (ReflTransGen start.Extends i target) with
      | true =>
        obtain ⟨i,hi,hreach⟩ := List.any_eq_true.mp hany
        rw [decide_eq_true (hsteps.mpr ⟨i,⟨c,hfind,.inl hi⟩,of_decide_eq_true hreach⟩)]
        exact .pure true
      | false =>
        have hparent : ReflTransGen start.Extends name target ↔
            ∃ p,c.parent = some p ∧ ReflTransGen start.Extends p target := by
          rw [hsteps]
          constructor
          · rintro ⟨above,⟨d,hd,hi | hp⟩,hreach⟩
            · obtain rfl : c = d := Option.some.inj (hfind.symm.trans hd)
              have hnot := List.any_eq_false.mp hany above hi
              exact absurd (decide_eq_true hreach) hnot
            · obtain rfl : c = d := Option.some.inj (hfind.symm.trans hd)
              exact ⟨above,hp,hreach⟩
          · rintro ⟨p,hp,hreach⟩
            exact ⟨p,⟨c,hfind,.inr hp⟩,hreach⟩
        cases hp : c.parent with
        | none =>
          rw [decide_eq_false (by rw [hparent,hp]; simp)]
          exact .pure false
        | some p =>
          have hsame : ReflTransGen start.Extends name target ↔
              ReflTransGen start.Extends p target := by
            rw [hparent,hp]
            simp
          rw [decide_eq_decide.mpr hsame]
          exact hup p (.inr hp)

/-- Walks have more steps than there are names to be found. -/
theorem walkFuel_comes {α : Type} {walk : Nat → Work α} {a : α}
    (h : ∀ fuel,start.size + start.files.describes.length < fuel → (walk fuel).Comes start a) :
    (walkFuel >>= walk).Comes start a := by
  intro site hsite
  rw [run_bind (walkFuel_run site)]
  apply h
  · have hdescribes := start.files.length_describes_le
    have hlarger := hsite.larger
    rw [hsite.files]
    unfold Site.size at hlarger ⊢
    omega
  · exact hsite

open Classical in
theorem isSubclassOf_comes (htraced : start.Traced name) (target : String) :
    (isSubclassOf name target).Comes start (decide (ReflTransGen start.Extends name target)) :=
  walkFuel_comes fun _ hfuel => reaches_comes htraced (Site.room_start name hfuel)

open Classical in
theorem selects_comes (m : Matcher) (hcharted : start.Charted name) :
    (selects m name).Comes start (decide (m.Covers start name)) := by
  cases m with
  | any =>
    rw [decide_eq_true (show Matcher.Covers start name .any from trivial)]
    exact .pure true
  | subclassesOf target => exact isSubclassOf_comes hcharted.traced target
  | startsWith text =>
    have hsame : decide (Matcher.Covers start name (.startsWith text)) =
        startsWithText text name := by
      apply Bool.eq_iff_iff.mpr
      exact decide_eq_true_iff.trans List.isPrefixOf_iff_prefix.symm
    rw [hsame]
    exact .pure _
  | named other =>
    have hsame : decide (Matcher.Covers start name (.named other)) = (name == other) := by
      apply Bool.eq_iff_iff.mpr
      exact decide_eq_true_iff.trans beq_iff_eq.symm
    rw [hsame]
    exact .pure _

end Classes
end Wiring
