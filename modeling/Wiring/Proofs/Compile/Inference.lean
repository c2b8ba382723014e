import Mathlib
import Wiring.Proofs.Compile.Pulls
import Wiring.Proofs.Files.Status
import Wiring.Proofs.Graph.Closure

/-!
# Pulls in a scope that is inferred

Where nothing tells the scope of a key outside the graph, it is that of the concrete class
the key asks for. A unit that is compiled without reading a file is the same as if there were
no files at all, and then no class can be read while it is compiled; so each of its pulls is
of a bound key, or of a class that was registered when compiling began.
-/
namespace Wiring

namespace Files

open Wiring.Path

theorem statusFrom_empty (above : Path) (l : List String) (text : String) :
    statusFrom {} above l ≠ .file text := by
  induction l generalizing above with
  | nil => simp [statusFrom]
  | cons name rest ih =>
    rw [statusFrom]
    split
    · exact ih _
    · split <;> simp

/-- Without files and directories, only a way that leads out of the working directory or to
the outermost one leads to anything. -/
theorem exists?_empty {text : String} (h : Files.exists? {} text = true) :
    isOuter (ofText text) = true ∨ ofText text = ["/"] := by
  rw [exists?] at h
  cases hs : status {} text with
  | missing =>
    rw [hs] at h
    cases h
  | blocked =>
    rw [hs] at h
    cases h
  | file contents =>
    rw [status] at hs
    split at hs
    · cases hs
    · split at hs
      · cases hs
      · exact absurd hs (statusFrom_empty _ _ _)
  | directory => simpa [isDirectory] using isDirectory_of_status hs

end Files

namespace Classes

open Wiring.Path

theorem classPath_ends (dir className : String) :
    ∃ before, classPath dir className = before ++ ".class.json" := by
  unfold classPath join
  split
  · exact ⟨_,rfl⟩
  · split
    · exact ⟨_,(String.append_assoc ..).symm⟩
    · exact ⟨_,(String.append_assoc ..).symm⟩

/-- The file of a class has an ordinary name, whatever the name of the class is. -/
theorem classPath_name (dir className : String) :
    ∃ above name, ofText (classPath dir className) = above ++ [name] ∧ Ordinary name := by
  obtain ⟨before,hbefore⟩ := classPath_ends dir className
  have hext : '/' ∉ ".class.json".toList := by decide
  obtain ⟨parts,last,_,hsplit⟩ := split_append_of_no_slash before.toList hext
  have hnames : names (classPath dir className) =
      parts.map String.ofList ++ [String.ofList (last ++ ".class.json".toList)] := by
    rw [hbefore,names,String.toList_append,hsplit,List.map_append,List.map_singleton]
  have hmem : String.ofList (last ++ ".class.json".toList) ∈ names (classPath dir className) := by
    rw [hnames]
    exact List.mem_append_right _ List.mem_cons_self
  have hlong (short : String) (hshort : short.toList.length < 11) :
      String.ofList (last ++ ".class.json".toList) ≠ short := by
    intro he
    have hlength := congrArg (fun text => text.toList.length) he
    simp only [String.toList_ofList,List.length_append] at hlength
    have hext : ".class.json".toList.length = 11 := by decide
    omega
  have hmoves : staysPut (String.ofList (last ++ ".class.json".toList)) = false := by
    rw [staysPut,Bool.or_eq_false_iff,beq_eq_false_iff_ne,beq_eq_false_iff_ne]
    exact ⟨hlong "" (by decide),hlong "." (by decide)⟩
  have hordinary : Ordinary (String.ofList (last ++ ".class.json".toList)) :=
    ⟨noSlash_of_mem_names hmem,hmoves,hlong ".." (by decide)⟩
  exact ⟨_,_,by rw [ofText,hnames,List.foldl_append]; exact hordinary.step _,hordinary⟩

end Classes

/-- Where there are no files, no class is read from one. -/
theorem Registry.fixed_empty (r : Registry) : r.Fixed {} := by
  refine fun className => .inr fun dir _ => ?_
  obtain ⟨above,name,hpath,hname⟩ := Classes.classPath_name dir className
  by_contra hexists
  rcases Files.exists?_empty (Bool.not_eq_false _ ▸ hexists) with houter | hroot
  · rw [hpath,Path.isOuter,List.all_append,Bool.and_eq_true] at houter
    have hback : name = ".." := by simpa using houter.2
    exact hname.notBack hback
  · rw [hpath] at hroot
    have hlast := congrArg List.getLast? hroot
    rw [List.getLast?_concat] at hlast
    obtain rfl : name = "/" := Option.some.inj hlast
    exact hname.noSlash (by decide)

namespace Compile

open Work

variable {g : Graph} {start : Site}

/-- A key that a scope is inferred for asks for a concrete class, whose scope it is. -/
structure Infers (r : Registry) (key : Key) (shared : Bool) : Prop where
  isAny : key.isAny = true
  named : key.interface ≠ ""
  found : ∃ c, r.classes.find? key.interface = some c ∧ c.isConcrete = true ∧ c.shared = shared

theorem inferredScope_fixedRun {site site' : Site} {key : Key} {scope : Option Bool}
    (hfixed : site.registry.Fixed site.files) (h : inferredScope key site = (.ok scope,site')) :
    site' = site ∧ ∀ shared, scope = some shared → Infers site.registry key shared := by
  unfold inferredScope at h
  split at h
  · obtain ⟨hnone,rfl⟩ := Prod.mk.inj h
    exact ⟨rfl,fun shared hs => by rw [← Except.ok.inj hnone] at hs; cases hs⟩
  next hkey =>
    simp only [Bool.or_eq_true,Bool.not_eq_true',beq_iff_eq,not_or,Bool.not_eq_false] at hkey
    rw [run_bind (Classes.find?_unread site (hfixed key.interface))] at h
    cases hc : site.registry.classes.find? key.interface with
    | none =>
      rw [hc] at h
      obtain ⟨hnone,rfl⟩ := Prod.mk.inj h
      exact ⟨rfl,fun shared hs => by rw [← Except.ok.inj hnone] at hs; cases hs⟩
    | some c =>
      rw [hc] at h
      obtain ⟨hanswer,rfl⟩ := Prod.mk.inj h
      refine ⟨rfl,fun shared hs => ⟨hkey.1,hkey.2,⟨c,hc,?_⟩⟩⟩
      rw [← Except.ok.inj hanswer] at hs
      split at hs
      next hconcrete => exact ⟨hconcrete,Option.some.inj hs⟩
      next => cases hs

/-- While no class is read from a file, telling scopes changes nothing. -/
theorem Passed.fixed {site : Site} (hfixed : start.registry.Fixed start.files)
    (h : Passed none start site) : site = start := by
  induction h with
  | start => rfl
  | told key _ ih =>
    subst ih
    rw [scopeOutside]
    unfold inferredScope
    split
    · rfl
    · rw [run_bind (Classes.find?_unread _ (hfixed key.interface))]
      cases _ : Table.find? _ key.interface with
      | none => rfl
      | some c => rfl

/-- A pull of a bound key in the scope of its binding, or of a key of an argument in the scope
that is inferred for it. -/
inductive Sourced (r : Registry) (g : Graph) (as : List (Argument Value)) : Pull → Prop where
  | bound {key : Key} {b : Binding Value} (hb : g.get? key = some b) :
      Sourced r g as ⟨b.isShared,key⟩
  | inferred {a : Argument Value} {shared : Bool} (ha : a ∈ as) (hb : g.get? a.key = none)
      (h : Infers r a.key shared) : Sourced r g as ⟨shared,a.key⟩

/-- The site without its files. -/
def bare (site : Site) : Site := { site with files := {} }

/-- What the arguments of a unit pull, if no class was read from a file for it. -/
theorem unitOf_sourced {asked : String → Prop} {b : Binding Value} {code : Code}
    (hcalm : Calm start.heap start.registry asked start) (hb : Within g asked b.allArguments)
    (h : unitOf g none b start = (.ok code,start)) :
    (∀ p ∈ code.supplied, Sourced start.registry g b.allArguments p) ∧
      code.pulls = code.supplied ++ b.intercepted := by
  have hempty : (bare start).registry.Fixed (bare start).files := start.registry.fixed_empty
  have hbare : Calm start.heap start.registry asked (bare start) :=
    ⟨rfl,rfl,fun className _ => hempty className⟩
  have hunit : unitOf g none b (bare start) = (.ok code,bare start) := by
    obtain ⟨answer,hall⟩ := unitOf_fixed hb
    rw [hall _ hcalm] at h
    rw [hall _ hbare,(Prod.mk.inj h).1]
  obtain ⟨hsupplied,hpulls⟩ := unitOf_pulls hunit
  refine ⟨fun p hp => ?_,hpulls⟩
  cases hsupplied p hp with
  | bound hb => exact .bound hb
  | outside ha hb ht hs =>
    obtain rfl := ht.fixed hempty
    exact .inferred ha hb ((inferredScope_fixedRun hempty hs).2 _ rfl)

end Compile
end Wiring
