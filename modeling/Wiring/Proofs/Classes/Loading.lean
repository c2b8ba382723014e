import Mathlib
import Wiring.Proofs.Classes.Rooted
import Wiring.Proofs.Files.Endings
import Wiring.Proofs.Files.Status

/-!
# What looking a class up does

A class that is registered is found as it is. For any other name the first script directory that
has a file for it is asked; the class described there is registered under its own name, whatever
the name was that was looked up. Which class that is depends on the files alone. So lookups find
finitely many names, those of the registered classes and those that files describe.
-/
namespace Wiring

/-- What reading a file that may be missing comes to. -/
theorem Files.readIfExists_run (text : String) (fs : Files) : Files.readIfExists text fs =
    (match fs.status text with
      | .file contents => .ok (some contents)
      | .directory => .error (.unreadable text)
      | _ => .ok none,fs) := by
  have hget : (get : FileWork Files) fs = (.ok fs,fs) := rfl
  unfold Files.readIfExists Files.read Files.exists?
  rw [Work.run_bind hget]
  cases hs : fs.status text with
  | missing => rfl
  | blocked => rfl
  | directory =>
    rw [if_pos rfl,Work.run_bind_error]
    rw [Work.run_bind hget,hs]
    rfl
  | file contents =>
    rw [if_pos rfl,Work.run_bind (a := contents)]
    · rfl
    · rw [Work.run_bind hget,hs]
      rfl

/-- The classes that the files of generated classes describe, by their names. -/
def Files.describes (fs : Files) : List String :=
  (fs.contents.filter fun f => Classes.isClassPath f.1).filterMap fun f =>
    ((Json.read? f.2).bind GeneratedClass.ofJson?).map GeneratedClass.name

theorem Files.mem_describes {fs : Files} {path : Path} {text : String} {generated : GeneratedClass}
    (hfile : (path,text) ∈ fs.contents) (hpath : Classes.isClassPath path = true)
    (h : (Json.read? text).bind GeneratedClass.ofJson? = some generated) :
    generated.name ∈ fs.describes := by
  refine List.mem_filterMap.mpr ⟨_,List.mem_filter.mpr ⟨hfile,hpath⟩,?_⟩
  rw [h]
  rfl

theorem Files.length_describes_le (fs : Files) :
    fs.describes.length ≤ fs.contents.countP (Classes.isClassPath ·.1) := by
  rw [List.countP_eq_length_filter]
  exact List.length_filterMap_le _ _

namespace Classes

open Work

variable {className : String} {dirs : List String} {site : Site} {fs : Files} {c : ClassDecl}

/-- The class that the file of this path describes, if there is one. -/
def described (fs : Files) (path : String) : Except Failure (Option ClassDecl) :=
  match fs.status path with
  | .file text =>
      match (Json.read? text).bind GeneratedClass.ofJson? with
      | some generated => .ok (some generated.toClass)
      | none => .error .malformed
  | .directory => .error (.unreadable path)
  | _ => .ok none

theorem described_some {path : String} (h : described fs path = .ok (some c)) :
    ∃ text generated, fs.status path = .file text ∧
      (Json.read? text).bind GeneratedClass.ofJson? = some generated ∧ generated.toClass = c := by
  unfold described at h
  split at h
  next text hstatus =>
    split at h
    next generated hgenerated =>
      exact ⟨text,generated,hstatus,hgenerated,Option.some.inj (Except.ok.inj h)⟩
    next => cases h
  next => cases h
  next => cases h

theorem described_ends (fs : Files) (path : String) : described fs path ≠ .error .exhausted := by
  unfold described
  split
  · split <;> exact nofun
  · exact nofun
  · exact nofun

/-- The class described in the first of the directories that has a file for the name. -/
def loaded (fs : Files) (className : String) : List String → Except Failure (Option ClassDecl)
  | [] => .ok none
  | dir :: rest =>
      match described fs (classPath dir className) with
      | .ok none => loaded fs className rest
      | answer => answer

theorem loaded_eq (fs : Files) (className : String) (dirs : List String) :
    loaded fs className dirs = .ok none ∨
      ∃ dir ∈ dirs, loaded fs className dirs = described fs (classPath dir className) := by
  induction dirs with
  | nil => exact .inl rfl
  | cons dir rest ih =>
    unfold loaded
    split
    next =>
      refine ih.imp_right fun ⟨other,hother,h⟩ => ⟨other,List.mem_cons_of_mem _ hother,h⟩
    next => exact .inr ⟨dir,List.mem_cons_self,rfl⟩

/-- What is loaded depends on the files alone, and loading changes nothing. -/
theorem load_run (className : String) (dirs : List String) (site : Site) :
    load className dirs site = (loaded site.files className dirs,site) := by
  induction dirs with
  | nil => rfl
  | cons dir rest ih =>
    rw [load]
    unfold loaded described
    cases hstatus : site.files.status (classPath dir className) with
    | missing =>
      rw [run_bind (a := none) (by rw [onFiles_run,Files.readIfExists_run,hstatus])]
      exact ih
    | blocked =>
      rw [run_bind (a := none) (by rw [onFiles_run,Files.readIfExists_run,hstatus])]
      exact ih
    | directory =>
      rw [run_bind_error]
      rw [onFiles_run,Files.readIfExists_run,hstatus]
    | file text =>
      rw [run_bind (a := some text) (by rw [onFiles_run,Files.readIfExists_run,hstatus])]
      unfold Work.decode
      dsimp only
      cases (Json.read? text).bind GeneratedClass.ofJson? with
      | none => rfl
      | some generated => rfl

theorem isClassPath_classPath (dir className : String) :
    isClassPath (Path.ofText (classPath dir className)) = true := by
  have hends := Layout.classPath_endsIn dir className
  have ⟨above,last,hpath⟩ := hends
  rw [hpath] at hends
  rw [isClassPath,hpath,List.getLast?_concat]
  exact List.isSuffixOf_iff_suffix.mpr hends.suffix

/-- A class that is loaded is described by a file, and it is concrete. -/
theorem loaded_described (h : loaded fs className dirs = .ok (some c)) :
    c.name ∈ fs.describes ∧ c.isConcrete = true := by
  rcases loaded_eq fs className dirs with hnone | ⟨dir,_,hdir⟩
  · cases hnone.symm.trans h
  · obtain ⟨text,generated,hstatus,hgenerated,rfl⟩ := described_some (hdir.symm.trans h)
    have hfile := Table.mem_of_find? (Files.find?_of_status hstatus)
    exact ⟨Files.mem_describes hfile (isClassPath_classPath dir className) hgenerated,rfl⟩

theorem loaded_ends : loaded fs className dirs ≠ .error .exhausted := by
  rcases loaded_eq fs className dirs with hnone | ⟨dir,_,hdir⟩
  · rw [hnone]
    exact nofun
  · rw [hdir]
    exact described_ends fs _

/-- The ways in which a lookup can go. -/
inductive Looks (site : Site) (className : String) :
    Except Failure (Option ClassDecl) × Site → Prop where
  | registered {c : ClassDecl} (hc : site.registry.classes.find? className = some c) :
      Looks site className (.ok (some c),site)
  | unreadable {e : Failure} (hc : site.registry.classes.find? className = none)
      (h : loaded site.files className site.registry.scriptDirs = .error e) :
      Looks site className (.error e,site)
  | absent (hc : site.registry.classes.find? className = none)
      (h : loaded site.files className site.registry.scriptDirs = .ok none) :
      Looks site className (.ok none,site)
  | read {c : ClassDecl} (hc : site.registry.classes.find? className = none)
      (h : loaded site.files className site.registry.scriptDirs = .ok (some c)) :
      Looks site className (.ok ((site.registry.register c).classes.find? className),
        { site with registry := site.registry.register c })

theorem find?_looks (className : String) (site : Site) :
    Looks site className (find? className site) := by
  have hregistry : Work.registry site = (.ok site.registry,site) := rfl
  unfold find?
  rw [run_bind hregistry]
  cases hc : site.registry.classes.find? className with
  | some c => exact .registered hc
  | none =>
    dsimp only
    have hload := load_run className site.registry.scriptDirs site
    cases h : loaded site.files className site.registry.scriptDirs with
    | error e =>
      rw [h] at hload
      rw [run_bind_error _ hload]
      exact .unreadable hc h
    | ok found =>
      rw [h] at hload
      rw [run_bind hload]
      cases found with
      | none => exact .absent hc h
      | some c => exact .read hc h

end Classes
end Wiring
