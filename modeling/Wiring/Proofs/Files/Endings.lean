import Mathlib
import Wiring.Classes.Lookup
import Wiring.Compile.Layout
import Wiring.Proofs.Files.Paths

/-!
# How paths end

A text that ends in an extension leads to a path whose last name ends in it, through whatever
directories the text goes. So files of different kinds lie at different paths even where their
names have slashes.
-/
namespace Wiring

namespace Path

/-- The last name of the path ends in these characters. -/
def EndsIn (path : Path) (ext : List Char) : Prop :=
  ∃ above last, path = above ++ [String.ofList (last ++ ext)]

namespace EndsIn

variable {path : Path} {xs ys : List Char}

theorem of_append (h : EndsIn path (xs ++ ys)) : EndsIn path ys := by
  obtain ⟨above,last,rfl⟩ := h
  exact ⟨above,last ++ xs,by rw [List.append_assoc]⟩

theorem suffix {above : Path} {name : String} (h : EndsIn (above ++ [name]) xs) :
    xs <:+ name.toList := by
  obtain ⟨above',last,hpath⟩ := h
  obtain ⟨_,hlast⟩ := List.append_inj' hpath rfl
  rw [List.singleton_inj.mp hlast,String.toList_ofList]
  exact List.suffix_append last xs

/-- Of two endings of a path one ends in the other. -/
theorem compare (hx : EndsIn path xs) (hy : EndsIn path ys) : xs <:+ ys ∨ ys <:+ xs := by
  obtain ⟨above,last,rfl⟩ := hx
  have hys := hy.suffix
  rw [String.toList_ofList] at hys
  have hxs : xs <:+ last ++ xs := List.suffix_append last xs
  rcases Nat.le_total xs.length ys.length with hle | hle
  · exact .inl (List.suffix_of_suffix_length_le hxs hys hle)
  · exact .inr (List.suffix_of_suffix_length_le hys hxs hle)

end EndsIn

/-- A text leads to the last one of its names, if that is a name with an extension. -/
theorem ofText_endsIn (before : String) {ext : String} (hslash : '/' ∉ ext.toList)
    (hlong : 3 ≤ ext.toList.length) : EndsIn (ofText (before ++ ext)) ext.toList := by
  obtain ⟨parts,last,_,hsplit⟩ := split_append_of_no_slash before.toList hslash
  have hnames : names (before ++ ext) =
      parts.map String.ofList ++ [String.ofList (last ++ ext.toList)] := by
    rw [names,String.toList_append,hsplit,List.map_append,List.map_singleton]
  have hne (short : String) (hshort : short.toList.length < 3) :
      String.ofList (last ++ ext.toList) ≠ short := by
    intro he
    have hlength := congrArg (fun text => text.toList.length) he
    simp only [String.toList_ofList,List.length_append] at hlength
    omega
  have hmem : String.ofList (last ++ ext.toList) ∈ names (before ++ ext) := by
    rw [hnames]
    exact List.mem_append_right _ List.mem_cons_self
  have hmoves : staysPut (String.ofList (last ++ ext.toList)) = false := by
    rw [staysPut,Bool.or_eq_false_iff,beq_eq_false_iff_ne,beq_eq_false_iff_ne]
    exact ⟨hne "" (by decide),hne "." (by decide)⟩
  have hordinary : Ordinary (String.ofList (last ++ ext.toList)) :=
    ⟨noSlash_of_mem_names hmem,hmoves,hne ".." (by decide)⟩
  refine ⟨(parts.map String.ofList).foldl step (start (before ++ ext)),last,?_⟩
  rw [ofText,hnames,List.foldl_append]
  exact hordinary.step _

theorem join_append (dir before ext : String) : ∃ front, join dir (before ++ ext) = front ++ ext := by
  unfold join
  split
  · exact ⟨before,rfl⟩
  · split
    · exact ⟨dir ++ before,(String.append_assoc ..).symm⟩
    · exact ⟨dir ++ "/" ++ before,(String.append_assoc ..).symm⟩

theorem join_endsIn (dir before : String) {ext : String} (hslash : '/' ∉ ext.toList)
    (hlong : 3 ≤ ext.toList.length) : EndsIn (ofText (join dir (before ++ ext))) ext.toList := by
  obtain ⟨front,hfront⟩ := join_append dir before ext
  rw [hfront]
  exact ofText_endsIn front hslash hlong

theorem join_endsIn_self (dir : String) {name : String} (hslash : '/' ∉ name.toList)
    (hlong : 3 ≤ name.toList.length) : EndsIn (ofText (join dir name)) name.toList := by
  have hends := join_endsIn dir "" hslash hlong
  rwa [String.empty_append] at hends

end Path

namespace Layout

open Wiring.Path

variable (dir : String)

theorem unitPath_endsIn (key : Key) : EndsIn (ofText (unitPath dir key)) ".di".toList :=
  join_endsIn dir key.stem (by decide) (by decide)

theorem metaPath_endsIn (key : Key) : EndsIn (ofText (metaPath dir key)) ".json".toList :=
  join_endsIn (join dir "meta") key.stem (by decide) (by decide)

/-- The scope of a key that asks for any name lies in a file that is named with a star. -/
theorem metaPath_any_endsIn (interface : String) :
    EndsIn (ofText (metaPath dir (.any interface))) "*.json".toList := by
  have hstem : (Key.any interface).stem ++ ".json" = fileStem (interface ++ "-") ++ "*.json" := by
    apply String.toList_injective
    simp [Key.stem,Key.any,Key.of,Key.anyName,fileStem]
  unfold metaPath
  rw [hstem]
  exact join_endsIn (join dir "meta") _ (by decide) (by decide)

theorem qualifierPath_endsIn (p : Parameter) (hname : '/' ∉ p.name.toList) :
    EndsIn (ofText (qualifierPath dir p)) ('-' :: p.name.toList ++ ".json".toList) := by
  have hfile : p.fileName =
      (fileStem p.className ++ "-" ++ p.method) ++ ("-" ++ p.name ++ ".json") := by
    apply String.toList_injective
    simp [Parameter.fileName]
  have hext : ("-" ++ p.name ++ ".json").toList = '-' :: p.name.toList ++ ".json".toList := by simp
  unfold qualifierPath
  rw [hfile,← hext]
  refine join_endsIn (join dir "qualifier") _ ?_ ?_
  · rw [hext]
    simpa using hname
  · rw [hext]
    simp

theorem classPath_endsIn (className : String) :
    EndsIn (ofText (Classes.classPath dir className)) ".class.json".toList :=
  join_endsIn dir (fileStem className) (by decide) (by decide)

theorem modulePath_name : ∃ above, ofText (modulePath dir) = above ++ ["_module.json"] := by
  have hordinary : Ordinary "_module.json" := ⟨by decide,by decide,by decide⟩
  exact ⟨_,ofText_join dir hordinary⟩

theorem modulePath_endsIn : EndsIn (ofText (modulePath dir)) "_module.json".toList := by
  obtain ⟨above,hpath⟩ := modulePath_name dir
  exact ⟨above,[],hpath⟩

theorem sentinelPath_endsIn : EndsIn (ofText (sentinelPath dir)) "compiled".toList :=
  join_endsIn_self dir (by decide) (by decide)

theorem logPath_endsIn : EndsIn (ofText (logPath dir)) "_compile.log".toList :=
  join_endsIn_self dir (by decide) (by decide)

theorem pointcutsPath_name : ∃ above, ofText (pointcutsPath dir) = above ++ ["_aop.json"] := by
  have hordinary : Ordinary "_aop.json" := ⟨by decide,by decide,by decide⟩
  exact ⟨_,ofText_join dir hordinary⟩

theorem pointcutsPath_endsIn : EndsIn (ofText (pointcutsPath dir)) "_aop.json".toList := by
  obtain ⟨above,hpath⟩ := pointcutsPath_name dir
  exact ⟨above,[],hpath⟩

end Layout
end Wiring
