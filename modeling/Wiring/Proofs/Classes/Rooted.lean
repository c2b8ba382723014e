import Mathlib
import Wiring.Classes.Lookup
import Wiring.Proofs.Site
import Wiring.Proofs.Table

/-!
# Classes that are known with their ancestors

Looking up a class that is registered reads no file. If its ancestors are registered as well
and none of them descends from it, then walks along them do not run out of fuel, so what
they find depends on the registry alone and not on how many files there are.
-/
namespace Wiring

namespace Registry

variable {r : Registry} {className : String}

/-- The class is registered, and so are its ancestors, none of which descends from it. -/
inductive Rooted (r : Registry) : String → Prop where
  | intro {className : String} {c : ClassDecl} (hc : r.classes.find? className = some c)
      (hi : ∀ i ∈ c.interfaces, Rooted r i) (hp : ∀ p, c.parent = some p → Rooted r p) :
      Rooted r className

/-- Looking the class up reads no file: it is registered, or no script directory has a file
for it. -/
def Unread (r : Registry) (fs : Files) (className : String) : Prop :=
  (r.classes.find? className).isSome = true ∨
    ∀ dir ∈ r.scriptDirs, fs.exists? (Classes.classPath dir className) = false

/-- The first class is the parent or a listed interface of the second one. -/
def Ancestor (r : Registry) (a className : String) : Prop :=
  ∃ c, r.classes.find? className = some c ∧ (a ∈ c.interfaces ∨ c.parent = some a)

theorem Rooted.acc (h : r.Rooted className) : Acc r.Ancestor className := by
  induction h with
  | intro hc hi hp ihi ihp =>
    refine ⟨_,fun a ⟨c,hc',ha⟩ => ?_⟩
    obtain rfl : _ = c := Option.some.inj (hc.symm.trans hc')
    rcases ha with ha | ha
    · exact ihi a ha
    · exact ihp a ha

theorem Rooted.not_own_ancestor (h : r.Rooted className) :
    ¬Relation.TransGen r.Ancestor className className := by
  have hacc := h.acc.transGen
  clear h
  induction hacc with
  | intro x _ ih => exact fun hx => ih x hx hx

/-- There is fuel for a class at the end of a way up from its descendants. -/
structure Room (r : Registry) (way : List String) (className : String) (fuel : Nat) : Prop where
  nodup : way.Nodup
  registered : ∀ d ∈ way, (r.classes.find? d).isSome = true
  above : ∀ d ∈ way, Relation.TransGen r.Ancestor className d
  enough : r.classes.length < way.length + fuel

/-- A walk has fuel for one more step, and for the steps after it. -/
theorem Room.step {way : List String} {fuel : Nat} (h : r.Room way className fuel)
    (hr : r.Rooted className) : ∃ fuel', fuel = fuel' + 1 ∧
      ∀ a, r.Ancestor a className → r.Room (className :: way) a fuel' := by
  have hnew : className ∉ way := fun hm => hr.not_own_ancestor (h.above _ hm)
  have hnodup : (className :: way).Nodup := List.nodup_cons.mpr ⟨hnew,h.nodup⟩
  have hregistered : ∀ d ∈ className :: way, (r.classes.find? d).isSome = true := by
    refine List.forall_mem_cons.mpr ⟨?_,h.registered⟩
    cases hr with
    | intro hc => rw [hc]; rfl
  have hlength : way.length + 1 ≤ r.classes.length := by
    have hsub : className :: way ⊆ r.classes.keys := fun d hd =>
      Table.mem_keys_of_has (hregistered d hd)
    have hle := (hnodup.subperm hsub).length_le
    rwa [List.length_cons,Table.keys,List.length_map] at hle
  have henough := h.enough
  obtain ⟨fuel',rfl⟩ : ∃ fuel', fuel = fuel' + 1 := ⟨fuel - 1,by omega⟩
  refine ⟨fuel',rfl,fun a ha => ⟨hnodup,hregistered,?_,?_⟩⟩
  · refine List.forall_mem_cons.mpr ⟨.single ha,fun d hd => ?_⟩
    exact .trans (.single ha) (h.above d hd)
  · rw [List.length_cons]
    omega

end Registry

namespace Classes

open Registry Work

variable {r : Registry} {className : String}

theorem load_none {dirs : List String} {site : Site}
    (h : ∀ dir ∈ dirs, site.files.exists? (classPath dir className) = false) :
    load className dirs site = (.ok none,site) := by
  induction dirs with
  | nil => rfl
  | cons dir rest ih =>
    obtain ⟨hdir,hrest⟩ := List.forall_mem_cons.mp h
    have hread : Work.onFiles (Files.readIfExists (classPath dir className)) site =
        (.ok none,site) := by
      have hrun : Files.readIfExists (classPath dir className) site.files =
          (.ok none,site.files) := by
        have hget : (get : FileWork Files) site.files = (.ok site.files,site.files) := rfl
        unfold Files.readIfExists
        rw [run_bind hget,hdir]
        rfl
      rw [onFiles_run,hrun]
    rw [load,run_bind hread]
    exact ih hrest

/-- Looking up a class of which no file would be read answers from the registry. -/
theorem find?_unread (site : Site) (h : site.registry.Unread site.files className) :
    find? className site = (.ok (site.registry.classes.find? className),site) := by
  have hregistry : Work.registry site = (.ok site.registry,site) := rfl
  unfold find?
  rw [run_bind hregistry]
  cases hc : site.registry.classes.find? className with
  | some c => rfl
  | none =>
    rcases h with hsome | hdirs
    · rw [hc] at hsome
      cases hsome
    · dsimp only
      rw [run_bind (load_none hdirs)]
      rfl

theorem find_registered {site : Site} {c : ClassDecl}
    (hc : site.registry.classes.find? className = some c) :
    find className site = (.ok c,site) := by
  have hfind := find?_unread site (.inl (by rw [hc]; rfl))
  unfold find
  rw [run_bind hfind,hc]
  rfl

theorem findQuietly?_registered {site : Site} {c : ClassDecl}
    (hc : site.registry.classes.find? className = some c) :
    findQuietly? className site = (.ok (some c),site) := by
  have hfind := find?_unread site (.inl (by rw [hc]; rfl))
  have hattempt : Work.attempt (find? className) site = (.ok (.ok (some c)),site) := by
    rw [attempt_run,hfind,hc]
  unfold findQuietly?
  rw [run_bind hattempt]
  rfl

theorem methodNamesTo_rooted (h : r.Rooted className) : ∃ names, ∀ way fuel site,
    r.Room way className fuel → site.registry = r →
      methodNamesTo fuel className site = (.ok names,site) := by
  have hr := h
  induction h with
  | @intro className c hc hi hp ihi ihp =>
    cases hparent : c.parent with
    | none =>
      refine ⟨appendNew [] (c.methods.keys.filter fun m => m != ClassDecl.constructorName),
        fun way fuel site hroom hregistry => ?_⟩
      obtain ⟨fuel,rfl,_⟩ := hroom.step hr
      subst hregistry
      rw [methodNamesTo,run_bind (find_registered hc),hparent]
      rfl
    | some p =>
      obtain ⟨inherited,hinherited⟩ := ihp p hparent (hp p hparent)
      refine ⟨appendNew inherited (c.methods.keys.filter fun m => m != ClassDecl.constructorName),
        fun way fuel site hroom hregistry => ?_⟩
      obtain ⟨fuel,rfl,hnext⟩ := hroom.step hr
      have hstep := hinherited _ fuel site (hnext p ⟨c,hc,.inr hparent⟩) hregistry
      subst hregistry
      rw [methodNamesTo,run_bind (find_registered hc),hparent]
      dsimp only
      rw [run_bind hstep]
      rfl

theorem anyOf_fixed {α β : Type} {Q : β → Site → Prop} {t : β → α → Work Bool} {l : List α}
    (h : ∀ a ∈ l, ∃ b, ∀ x site, Q x site → t x a site = (.ok b,site)) :
    ∃ b, ∀ x site, Q x site → anyOf (t x) l site = (.ok b,site) := by
  induction l with
  | nil => exact ⟨false,fun _ _ _ => rfl⟩
  | cons a rest ih =>
    obtain ⟨hfirst,hrest⟩ := List.forall_mem_cons.mp h
    obtain ⟨b,hb⟩ := hfirst
    obtain ⟨more,hmore⟩ := ih hrest
    refine ⟨b || more,fun x site hx => ?_⟩
    rw [anyOf,run_bind (hb x site hx)]
    cases b with
    | true => rfl
    | false => exact hmore x site hx

theorem reaches_rooted (target : String) (h : r.Rooted className) : ∃ b, ∀ way fuel site,
    r.Room way className fuel → site.registry = r →
      reaches target fuel className site = (.ok b,site) := by
  have hr := h
  induction h with
  | @intro className c hc hi hp ihi ihp =>
    by_cases hself : className = target
    · refine ⟨true,fun way fuel site hroom _ => ?_⟩
      obtain ⟨fuel,rfl,_⟩ := hroom.step hr
      rw [reaches,if_pos hself]
      rfl
    obtain ⟨listed,hlisted⟩ := anyOf_fixed (l := c.interfaces)
      (Q := fun fuel site => site.registry = r ∧
        ∃ way, ∀ a, r.Ancestor a className → r.Room way a fuel)
      (t := fun fuel i => if i = target then return true else reaches target fuel i) (by
        intro i hm
        obtain ⟨b,hb⟩ := ihi i hm (hi i hm)
        by_cases hi : i = target
        · refine ⟨true,fun fuel site _ => ?_⟩
          rw [if_pos hi]
          rfl
        · refine ⟨b,fun fuel site ⟨hregistry,way,hway⟩ => ?_⟩
          rw [if_neg hi]
          exact hb way fuel site (hway i ⟨c,hc,.inl hm⟩) hregistry)
    obtain ⟨inherited,hinherited⟩ : ∃ b, ∀ way fuel site, site.registry = r →
        (∀ a, r.Ancestor a className → r.Room way a fuel) →
        c.parent.elim (return false : Work Bool) (reaches target fuel) site = (.ok b,site) := by
      cases hparent : c.parent with
      | none => exact ⟨false,fun _ _ _ _ _ => rfl⟩
      | some p =>
        obtain ⟨b,hb⟩ := ihp p hparent (hp p hparent)
        exact ⟨b,fun way fuel site hregistry hway =>
          hb way fuel site (hway p ⟨c,hc,.inr hparent⟩) hregistry⟩
    refine ⟨listed || inherited,fun way fuel site hroom hregistry => ?_⟩
    obtain ⟨fuel,rfl,hnext⟩ := hroom.step hr
    have hparent := hinherited _ fuel site hregistry hnext
    have hany := hlisted fuel site ⟨hregistry,_,hnext⟩
    subst hregistry
    rw [reaches,if_neg hself,run_bind (findQuietly?_registered hc)]
    dsimp only
    rw [run_bind hany]
    cases listed with
    | true => rfl
    | false =>
      cases hnext : c.parent with
      | none =>
        rw [hnext] at hparent
        exact hparent
      | some p =>
        rw [hnext] at hparent
        exact hparent

theorem walkFuel_run (site : Site) : walkFuel site =
    (.ok (site.registry.classes.length + site.files.contents.countP (isClassPath ·.1) + 2),site) :=
  rfl

theorem room_start (site : Site) : site.registry.Room [] className
    (site.registry.classes.length + site.files.contents.countP (isClassPath ·.1) + 2) where
  nodup := List.nodup_nil
  registered := fun _ h => by cases h
  above := fun _ h => by cases h
  enough := by
    rw [List.length_nil]
    omega

/-- The methods of a rooted class are the same wherever the registry is the same. -/
theorem methodNames_rooted (h : r.Rooted className) : ∃ names, ∀ site, site.registry = r →
    methodNames className site = (.ok names,site) := by
  obtain ⟨names,hnames⟩ := methodNamesTo_rooted h
  refine ⟨names,fun site hregistry => ?_⟩
  rw [methodNames,run_bind (walkFuel_run site)]
  exact hnames [] _ site (hregistry ▸ room_start site) hregistry

/-- So is whether a matcher selects it. -/
theorem selects_rooted (m : Matcher) (h : r.Rooted className) : ∃ b, ∀ site, site.registry = r →
    selects m className site = (.ok b,site) := by
  cases m with
  | any => exact ⟨true,fun _ _ => rfl⟩
  | startsWith start => exact ⟨_,fun _ _ => rfl⟩
  | named name => exact ⟨_,fun _ _ => rfl⟩
  | subclassesOf target =>
    obtain ⟨b,hb⟩ := reaches_rooted target h
    refine ⟨b,fun site hregistry => ?_⟩
    rw [selects,isSubclassOf,run_bind (walkFuel_run site)]
    exact hb [] _ site (hregistry ▸ room_start site) hregistry

end Classes
end Wiring
