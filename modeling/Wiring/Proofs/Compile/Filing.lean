import Mathlib
import Wiring.Proofs.Compile.Agreeing
import Wiring.Proofs.Compile.Watching
import Wiring.Proofs.Graph.Pointcuts

/-!
# What may be filed

Each kind of file that compiling leaves behind may say what it does. The kinds are told apart
by the endings of their names, except that a scope can come to lie where a class or the
pointcuts are looked for; there it is not read as either.
-/
namespace Wiring

namespace GeneratedClass

/-- A generated class is read back from the text that is saved of it. -/
theorem read_toJson (c : GeneratedClass) :
    (Json.read? c.toJson.pretty).bind GeneratedClass.ofJson? = some c := by
  have hlegible : Json.Legible Json.depthLimit c.toJson := by
    refine .record (List.forall_mem_cons.mpr ⟨.text _ _,?_⟩)
    refine List.forall_mem_cons.mpr ⟨texts_legible _ _,?_⟩
    exact List.forall_mem_cons.mpr ⟨texts_legible _ _,fun _ h => by cases h⟩
  have hslots : c.toJson.slots ["name","interfaces","null_methods"] =
      some [.given (.text c.name),.given (Json.texts c.interfaces),
        .given (Json.texts c.nullMethods)] := by
    simp [toJson,Json.slots,Json.fieldSlots,Json.valuesAt]
  rw [Json.read_pretty hlegible,Option.bind_some]
  simp [GeneratedClass.ofJson?,hslots,Json.Slot.required,asList_texts,Json.asText]

end GeneratedClass

namespace Save

theorem read_scopeToJson (shared : Bool) :
    Json.read? (scopeToJson shared).compact = some (scopeToJson shared) := by
  refine Json.read_compact (.record (List.forall_mem_cons.mpr ⟨.bool _ shared,fun _ h => ?_⟩))
  cases h

/-- A scope is not read as a class. -/
theorem scope_not_class (shared : Bool) :
    (Json.read? (scopeToJson shared).compact).bind GeneratedClass.ofJson? = none := by
  rw [read_scopeToJson]
  cases shared <;> rfl

/-- Nor as pointcuts. -/
theorem scope_not_pointcuts (shared : Bool) :
    (Json.read? (scopeToJson shared).compact).bind (Json.asList Pointcut.ofJson?) = none := by
  rw [read_scopeToJson]
  rfl

/-- Nor as a graph. -/
theorem scope_not_graph (shared : Bool) :
    (Json.read? (scopeToJson shared).compact).bind Container.ofJson? = none := by
  rw [read_scopeToJson]
  cases shared <;> rfl

end Save

namespace Watch

open Wiring.Path (EndsIn ofText)
open Layout (modulePath_endsIn pointcutsPath_endsIn unitPath_endsIn classPath_endsIn)
open Script (isNameText)

variable {W : Watch} {path : Path} {text : String}

section Kinds

/-- One of the endings ends in the other. -/
def clash (xs ys : List Char) : Bool := xs.isSuffixOf ys || ys.isSuffixOf xs

/-- The endings of the files that are read. -/
def endings : List (List Char) :=
  [".class.json".toList,".di".toList,"*.json".toList,"_aop.json".toList,"_module.json".toList]

/-- No name with this ending has one of the endings as well. -/
def Foreign (ext : List Char) : Prop := ∀ e ∈ endings, clash ext e = false
  deriving Decidable

theorem not_endsIn {xs ys : List Char} (hx : EndsIn path xs) (hy : EndsIn path ys)
    (h : clash xs ys = false) : False := by
  rw [clash,Bool.or_eq_false_iff,Bool.eq_false_iff,Bool.eq_false_iff,ne_eq,ne_eq,
    List.isSuffixOf_iff_suffix,List.isSuffixOf_iff_suffix] at h
  exact (hx.compare hy).elim h.1 h.2

/-- Paths with endings that do not go together are different. -/
theorem apart {other : Path} {xs ys : List Char} (hx : EndsIn path xs) (hy : EndsIn other ys)
    (h : clash xs ys = false) : path ≠ other := fun he => not_endsIn hx (he ▸ hy) h

/-- The scope of the key lies in a file named with a star, where it is read at all. -/
theorem metaPath_endsIn (hunbound : ¬W.bound) (dir : String) :
    EndsIn (ofText (Layout.metaPath dir W.key)) "*.json".toList := by
  rw [W.isAny.resolve_left hunbound]
  exact Layout.metaPath_any_endsIn dir _

/-- Files of other endings may say anything. -/
theorem FileFits.of_foreign {ext : List Char} (h : EndsIn path ext) (hext : Foreign ext)
    (text : String) : W.FileFits path text where
  generated hclass := (not_endsIn h hclass (hext _ (by simp [endings]))).elim
  unit hunit := (not_endsIn h hunit (hext _ (by simp [endings]))).elim
  scope hunbound dir _ hpath :=
    absurd hpath (apart h (metaPath_endsIn hunbound dir) (hext _ (by simp [endings])))
  pointcuts dir _ hpath :=
    absurd hpath (apart h (pointcutsPath_endsIn dir) (hext _ (by simp [endings])))
  graph _ dir _ hpath :=
    absurd hpath (apart h (modulePath_endsIn dir) (hext _ (by simp [endings])))

end Kinds

variable {dir : String} {key : Key}

/-- Where no graph is read, a saved one may say anything. -/
theorem FileFits.modulePath (hnot : ¬W.recorded) (dir text : String) :
    W.FileFits (ofText (Layout.modulePath dir)) text where
  generated hclass := (not_endsIn (modulePath_endsIn dir) hclass (by decide)).elim
  unit hunit := (not_endsIn (modulePath_endsIn dir) hunit (by decide)).elim
  scope hunbound dir' _ hpath :=
    absurd hpath (apart (modulePath_endsIn dir) (metaPath_endsIn hunbound dir') (by decide))
  pointcuts dir' _ hpath :=
    absurd hpath (apart (modulePath_endsIn dir) (pointcutsPath_endsIn dir') (by decide))
  graph hrecorded := absurd hrecorded hnot

theorem FileFits.sentinelPath (dir text : String) :
    W.FileFits (ofText (Layout.sentinelPath dir)) text :=
  .of_foreign (Layout.sentinelPath_endsIn dir) (by decide) text

theorem FileFits.logPath (dir text : String) : W.FileFits (ofText (Layout.logPath dir)) text :=
  .of_foreign (Layout.logPath_endsIn dir) (by decide) text

/-- The characters of a name are letters, digits, underscores and backslashes. -/
theorem mark_not_mem {name : String} (hname : isNameText name = true) {c : Char}
    (hc : (Script.isIdentifierPart c || c == '\\') = false) : c ∉ name.toList := by
  obtain ⟨first,rest,hchars,hfirst,hrest⟩ := Script.chars_of_isNameText hname
  rw [Bool.or_eq_false_iff] at hc
  rw [hchars]
  intro hmem
  rcases List.mem_cons.mp hmem with rfl | hmem
  · rw [Bool.or_eq_true] at hfirst
    rcases hfirst with hfirst | hfirst
    · rw [Script.isIdentifierPart,hfirst] at hc
      cases hc.1
    · rw [hfirst] at hc
      cases hc.2
  · rw [hrest c hmem] at hc
    cases hc.1

/-- No ending that a name can be put before is that of a class or of a scope that is read. -/
theorem clash_qualifier {name : List Char} (mark : Char) (rest : List Char) (hmark : mark ≠ '-')
    (hname : mark ∉ name) (hrest : '-' ∉ rest) :
    clash ('-' :: name ++ ".json".toList) (mark :: rest ++ ".json".toList) = false := by
  rw [clash,Bool.or_eq_false_iff,Bool.eq_false_iff,Bool.eq_false_iff,ne_eq,ne_eq,
    List.isSuffixOf_iff_suffix,List.isSuffixOf_iff_suffix,List.suffix_append_self_iff,
    List.suffix_append_self_iff]
  refine ⟨fun h => ?_,fun h => ?_⟩
  · rcases List.mem_cons.mp (h.subset List.mem_cons_self) with he | hm
    · exact hmark he.symm
    · exact hrest hm
  · rcases List.mem_cons.mp (h.subset List.mem_cons_self) with he | hm
    · exact hmark he
    · exact hname hm

/-- The qualifiers of parameters may say anything, if the names of parameters are names. -/
theorem FileFits.qualifierPath {p : Parameter} (hdir : W.dir? = some dir) (hname : W.Named p.name)
    (text : String) : W.FileFits (ofText (Layout.qualifierPath dir p)) text := by
  have hname : isNameText p.name = true := hname (by rw [hdir]; rfl)
  have hpath := Layout.qualifierPath_endsIn dir p (mark_not_mem hname (by decide))
  refine ⟨fun hclass => ?_,fun hunit => ?_,fun hunbound dir' _ he => ?_,fun dir' _ he => ?_,
    fun _ dir' _ he => ?_⟩
  · have hclash := clash_qualifier '.' "class".toList (by decide)
      (mark_not_mem hname (by decide)) (by decide)
    exact (not_endsIn hpath hclass hclash).elim
  · have hjson : EndsIn (ofText (Layout.qualifierPath dir p)) ".json".toList := hpath.of_append
    exact (not_endsIn hjson hunit (by decide)).elim
  · have hmeta := metaPath_endsIn hunbound dir'
    rw [← he] at hmeta
    have hclash := clash_qualifier '*' [] (by decide)
      (mark_not_mem hname (by decide)) (by decide)
    exact (not_endsIn hpath hmeta hclash).elim
  · -- A name can end like that of the pointcuts, but there is a hyphen before it.
    obtain ⟨above,hpointcuts⟩ := Layout.pointcutsPath_name dir'
    rw [he,hpointcuts] at hpath
    have hmem : '-' ∈ "_aop.json".toList := hpath.suffix.subset List.mem_cons_self
    exact absurd hmem (by decide)
  · obtain ⟨above,hmodule⟩ := Layout.modulePath_name dir'
    rw [he,hmodule] at hpath
    have hmem : '-' ∈ "_module.json".toList := hpath.suffix.subset List.mem_cons_self
    exact absurd hmem (by decide)

theorem FileFits.classPath {c : GeneratedClass} (hname : W.generated c.name) (dir : String) :
    W.FileFits (ofText (Classes.classPath dir c.name)) c.toJson.pretty where
  generated _ found hfound := by
    rw [GeneratedClass.read_toJson] at hfound
    rw [← Option.some.inj hfound]
    exact hname
  unit hunit := (not_endsIn (classPath_endsIn dir c.name) hunit (by decide)).elim
  scope hunbound dir' _ hpath :=
    absurd hpath (apart (classPath_endsIn dir c.name) (metaPath_endsIn hunbound dir') (by decide))
  pointcuts dir' _ hpath :=
    absurd hpath (apart (classPath_endsIn dir c.name) (pointcutsPath_endsIn dir') (by decide))
  graph _ dir' _ hpath :=
    absurd hpath (apart (classPath_endsIn dir c.name) (modulePath_endsIn dir') (by decide))

theorem FileFits.pointcutsPath (dir : String) {ps : List Pointcut}
    (hps : ∀ p ∈ ps, ∀ i ∈ p.interceptors, Key.any i ≠ W.key) :
    W.FileFits (ofText (Layout.pointcutsPath dir)) (Json.list (ps.map Pointcut.toJson)).compact where
  generated hclass := (not_endsIn (pointcutsPath_endsIn dir) hclass (by decide)).elim
  unit hunit := (not_endsIn (pointcutsPath_endsIn dir) hunit (by decide)).elim
  scope hunbound dir' _ hpath :=
    absurd hpath (apart (pointcutsPath_endsIn dir) (metaPath_endsIn hunbound dir') (by decide))
  pointcuts _ _ _ found hfound := by
    rw [Pointcut.read_toJson] at hfound
    rw [← Option.some.inj hfound]
    exact hps
  graph _ dir' _ hpath :=
    absurd hpath (apart (pointcutsPath_endsIn dir) (modulePath_endsIn dir') (by decide))

/-- The scope of another key lies in another file than that of the watched one. -/
theorem FileFits.metaPath (hdir : W.dir? = some dir) (hused : W.used key) {shared : Bool}
    (hshared : key = W.key → shared = false) :
    W.FileFits (ofText (Layout.metaPath dir key)) (Save.scopeToJson shared).compact where
  generated _ c hc := by
    rw [Save.scope_not_class] at hc
    cases hc
  unit hunit := (not_endsIn (Layout.metaPath_endsIn dir key) hunit (by decide)).elim
  scope hunbound dir' hdir' hpath := by
    obtain rfl := Option.some.inj (hdir.symm.trans hdir')
    have hkey := W.scopeAlone.resolve_left hunbound dir hdir key hused hpath
    rw [Compile.read_scope,hshared hkey]
    simp
  pointcuts _ _ _ ps hps := by
    rw [Save.scope_not_pointcuts] at hps
    cases hps
  graph _ _ _ _ tree htree := by
    rw [Save.scope_not_graph] at htree
    cases htree

/-- The unit of another key lies in another file than that of the watched one. -/
theorem FileFits.unitPath (hdir : W.dir? = some dir) (hused : W.used key) {code : Code}
    (hcode : W.CodeFits (key = W.key) code) :
    W.FileFits (ofText (Layout.unitPath dir key)) code.source where
  generated hclass := (not_endsIn (unitPath_endsIn dir key) hclass (by decide)).elim
  unit _ dir' hdir' file statements hparsed := by
    obtain rfl := Option.some.inj (hdir.symm.trans hdir')
    have hruns := hcode.text (by rw [hdir]; rfl) file statements hparsed
    exact hruns.mono (W.alone dir hdir key hused)
  scope hunbound dir' _ hpath :=
    absurd hpath (apart (unitPath_endsIn dir key) (metaPath_endsIn hunbound dir') (by decide))
  pointcuts dir' _ hpath :=
    absurd hpath (apart (unitPath_endsIn dir key) (pointcutsPath_endsIn dir') (by decide))
  graph _ dir' _ hpath :=
    absurd hpath (apart (unitPath_endsIn dir key) (modulePath_endsIn dir') (by decide))

end Watch
end Wiring
