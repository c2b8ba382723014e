import Mathlib
import Wiring.Compile.Save
import Wiring.Proofs.Files.Storing
import Wiring.Proofs.Results

/-!
# The files of a compiled unit

A unit is kept in a file of its own, its scope in another one, and each qualifier of a
parameter in one more. Which texts these are depends on the unit and on the heap, not on the
directory they are saved in; saving the unit is writing them one after another.
-/
namespace Wiring

open Wiring.Path (Ordinary Holdable)

/-- A file of a compiled unit. -/
inductive Part where
  | unit (key : Key)
  | scope (key : Key)
  | qualifier (p : Parameter)
  deriving DecidableEq, Repr

namespace Part

/-- The text that leads to the file from a script directory. -/
def path (dir : String) : Part → String
  | unit key => Layout.unitPath dir key
  | scope key => Layout.metaPath dir key
  | qualifier p => Layout.qualifierPath dir p

/-- The name of the file. -/
def name : Part → String
  | unit key => Layout.unitName key
  | scope key => key.stem ++ ".json"
  | qualifier p => p.fileName

/-- The subdirectory that the file is in, if it is in one. -/
def within : Part → List String
  | unit _ => []
  | scope _ => ["meta"]
  | qualifier _ => ["qualifier"]

theorem ordinary_append {s t : String} (hs : '/' ∉ s.toList) (ht : '/' ∉ t.toList)
    (hsize : 3 ≤ t.utf8ByteSize) : Ordinary (s ++ t) := by
  have hlong : 3 ≤ (s ++ t).utf8ByteSize := by
    rw [String.utf8ByteSize_append]
    omega
  have hne : ∀ short : String, short.utf8ByteSize < 3 → s ++ t ≠ short := by
    rintro short hshort rfl
    omega
  refine ⟨by simp [hs,ht],?_,hne ".." (by decide)⟩
  simp [Path.staysPut,hne "" (by decide),hne "." (by decide)]

/-- A file whose name has no slash in it. -/
def Slashless (part : Part) : Prop := '/' ∉ part.name.toList

theorem Slashless.ordinary {part : Part} (h : part.Slashless) : Ordinary part.name := by
  have happend {s t : String} (hst : '/' ∉ (s ++ t).toList) (hsize : 3 ≤ t.utf8ByteSize) :
      Ordinary (s ++ t) := by
    rw [String.toList_append,List.mem_append,not_or] at hst
    exact ordinary_append hst.1 hst.2 hsize
  unfold Slashless at h
  cases part with
  | unit key =>
    rw [name,Layout.unitName] at h ⊢
    exact happend h (by decide)
  | scope key =>
    rw [name] at h ⊢
    exact happend h (by decide)
  | qualifier p =>
    rw [name,Parameter.fileName] at h ⊢
    exact happend h (by decide)

theorem ofText_path (dir : String) {part : Part} (h : Ordinary part.name) :
    Path.ofText (part.path dir) = Path.ofText dir ++ (part.within ++ [part.name]) := by
  have hmeta : Ordinary "meta" := (Files.holdable_of_subdirectory (by decide)).1.toOrdinary
  have hqualifier : Ordinary "qualifier" := (Files.holdable_of_subdirectory (by decide)).1.toOrdinary
  cases part with
  | unit key =>
    rw [name] at h
    rw [path,Layout.unitPath,Path.ofText_join dir h,within,name,List.nil_append]
  | scope key =>
    rw [name] at h
    rw [path,Layout.metaPath,Path.ofText_join _ h,Path.ofText_join dir hmeta,within,name,
      List.append_assoc]
  | qualifier p =>
    rw [name] at h
    rw [path,Layout.qualifierPath,Path.ofText_join _ h,Path.ofText_join dir hqualifier,within,name,
      List.append_assoc]

/-- Files at one path are of one kind and have one name. -/
theorem name_of_path {dir : String} {a b : Part} (ha : Ordinary a.name) (hb : Ordinary b.name)
    (h : Path.ofText (a.path dir) = Path.ofText (b.path dir)) :
    a.within = b.within ∧ a.name = b.name := by
  rw [ofText_path dir ha,ofText_path dir hb] at h
  obtain ⟨hwithin,hname⟩ := List.append_inj' (List.append_cancel_left h) rfl
  exact ⟨hwithin,List.singleton_inj.mp hname⟩

theorem unit_not_subdirectory (key : Key) : (unit key).name ∉ Files.subdirectories := by
  intro h
  have hlast : (unit key).name.toList.getLast? = some 'i' := by
    rw [name,Layout.unitName,String.toList_append,List.getLast?_append]
    rfl
  have hall : ∀ s ∈ Files.subdirectories, s.toList.getLast? ≠ some 'i' := by decide
  exact hall _ h hlast

/-- A directory that is ready takes the file. -/
theorem write_ready {fs : Files} {dir : String} (h : fs.Ready dir) {part : Part}
    (hname : Holdable part.name) (hroom : dir.utf8ByteSize + Files.namesRoom ≤ Path.longest)
    (contents : String) : ∃ fs', Files.write (part.path dir) contents fs = (.ok (),fs') ∧
      fs'.Ready dir ∧ fs'.contents.find? (Path.ofText (part.path dir)) = some contents ∧
      Files.Keeps fs.contents fs'.contents (· = Path.ofText (part.path dir)) := by
  cases part with
  | unit key =>
    have hnot := unit_not_subdirectory key
    simp only [name,path,Layout.unitPath] at hname hnot ⊢
    exact h.write_join hname hnot hroom contents
  | scope key =>
    simp only [name,path,Layout.metaPath] at hname ⊢
    exact h.write_below (by decide) hname hroom contents
  | qualifier p =>
    simp only [name,path,Layout.qualifierPath] at hname ⊢
    exact h.write_below (by decide) hname hroom contents

/-- Only files with names that can be held are written. -/
theorem holdable {fs : Files} {dir : String} {part : Part} (hname : Ordinary part.name)
    (h : fs.Writable (part.path dir)) : Holdable part.name := by
  cases part with
  | unit key =>
    simp only [name,path,Layout.unitPath] at hname h ⊢
    exact h.holdable hname
  | scope key =>
    simp only [name,path,Layout.metaPath] at hname h ⊢
    exact h.holdable hname
  | qualifier p =>
    simp only [name,path,Layout.qualifierPath] at hname h ⊢
    exact h.holdable hname

end Part

namespace Code

/-- The files of a unit that is compiled for a key. -/
def parts (key : Key) (code : Code) : List Part :=
  .unit key :: .scope key :: code.qualifiers.map fun q => .qualifier q.1

/-- The file of a qualifier with its text. -/
def qualifierFile (h : Heap) (q : Qualifier) : Option (Part × String) := do
  return (.qualifier q.1,(← (h.unfold q.2).toJson?).compact)

/-- The files of a unit with their texts, if all of its qualifiers have a JSON form. -/
def files? (h : Heap) (key : Key) (code : Code) : Option (List (Part × String)) := do
  let kept ← code.qualifiers.mapM (qualifierFile h)
  return (.unit key,code.source) :: (.scope key,(Save.scopeToJson code.shared).compact) :: kept

variable {h : Heap} {key : Key} {code : Code} {files : List (Part × String)}

theorem qualifierFile_eq_some {q : Qualifier} {f : Part × String} :
    qualifierFile h q = some f ↔
      ∃ j, (h.unfold q.2).toJson? = some j ∧ f = (.qualifier q.1,j.compact) := by
  simp only [qualifierFile,Option.bind_eq_bind,Option.bind_eq_some_iff,Option.pure_def,
    Option.some.injEq,eq_comm (a := f)]

theorem files?_eq_some : code.files? h key = some files ↔ ∃ kept,
    List.Forall₂ (fun q f => qualifierFile h q = some f) code.qualifiers kept ∧
      files = (.unit key,code.source) ::
        (.scope key,(Save.scopeToJson code.shared).compact) :: kept := by
  simp only [files?,Option.bind_eq_bind,Option.bind_eq_some_iff,Option.pure_def,
    Option.some.injEq,mapM_eq_some,eq_comm (a := files)]

theorem files_fst (hf : code.files? h key = some files) : files.map Prod.fst = code.parts key := by
  obtain ⟨kept,hkept,rfl⟩ := files?_eq_some.mp hf
  have hfst : kept.map Prod.fst = code.qualifiers.map fun q => .qualifier q.1 := by
    clear hf
    generalize code.qualifiers = qs at hkept ⊢
    induction hkept with
    | nil => rfl
    | cons hq _ ih =>
      obtain ⟨j,_,rfl⟩ := qualifierFile_eq_some.mp hq
      rw [List.map_cons,List.map_cons,ih]
  rw [List.map_cons,List.map_cons,hfst,parts]

/-- Which text a file has. -/
inductive Holds (h : Heap) (key : Key) (code : Code) : Part → String → Prop where
  | unit : Holds h key code (.unit key) code.source
  | scope : Holds h key code (.scope key) (Save.scopeToJson code.shared).compact
  | qualifier {q : Qualifier} {j : Json} (hq : q ∈ code.qualifiers)
      (hj : (h.unfold q.2).toJson? = some j) : Holds h key code (.qualifier q.1) j.compact

theorem holds_of_mem {f : Part × String} (hf : code.files? h key = some files) (hm : f ∈ files) :
    code.Holds h key f.1 f.2 := by
  obtain ⟨kept,hkept,rfl⟩ := files?_eq_some.mp hf
  rcases List.mem_cons.mp hm with rfl | hm
  · exact .unit
  rcases List.mem_cons.mp hm with rfl | hm
  · exact .scope
  obtain ⟨q,hq,hfile⟩ := mem_of_forall₂ hkept hm
  obtain ⟨j,hj,rfl⟩ := qualifierFile_eq_some.mp hfile
  exact .qualifier hq hj

end Code

namespace Save

open Work

variable {dir : String} {h : Heap}

/-- The files where they lie in a directory. -/
def placed (dir : String) (files : List (Part × String)) : List (String × String) :=
  files.map fun f => (f.1.path dir,f.2)

theorem onFiles_then {α β : Type} {w : FileWork α} {v : FileWork β} {next : Work β} {site : Site}
    (hnext : ∀ files, next { site with files } = Work.onFiles v { site with files }) :
    (Work.onFiles w >>= fun _ => next) site = Work.onFiles (w >>= fun _ => v) site := by
  cases hw : w site.files with
  | mk answer files =>
    have hon : Work.onFiles w site = (answer,{ site with files }) := by rw [onFiles_run,hw]
    cases answer with
    | ok a =>
      have hthen : (w >>= fun _ => v) site.files = v files := run_bind hw
      rw [run_bind hon,hnext,onFiles_run,onFiles_run,hthen]
    | error e =>
      have hthen : (w >>= fun _ => v) site.files = (.error e,files) := run_bind_error _ hw
      rw [run_bind_error _ hon,onFiles_run,hthen]

theorem valueText_run (v : Value) {site : Site} {j : Json}
    (hj : (site.heap.unfold v).toJson? = some j) : valueText v site = (.ok j.compact,site) := by
  have hheap : Work.heap site = (.ok site.heap,site) := rfl
  rw [valueText,run_bind hheap,hj]
  rfl

theorem qualifiers_cons (q : Qualifier) (qs : List Qualifier) :
    (q :: qs).forM (qualifier dir) = (qualifier dir q >>= fun _ => qs.forM (qualifier dir)) := rfl

theorem qualifiers_run {qs : List Qualifier} {kept : List (Part × String)} {site : Site}
    (hkept : List.Forall₂ (fun q f => Code.qualifierFile site.heap q = some f) qs kept) :
    qs.forM (qualifier dir) site = Work.onFiles (Files.writeAll (placed dir kept)) site := by
  induction qs generalizing kept site with
  | nil =>
    cases hkept
    rfl
  | cons q rest ih =>
    cases hkept with
    | cons hq hrest =>
      obtain ⟨j,hj,rfl⟩ := Code.qualifierFile_eq_some.mp hq
      rw [qualifiers_cons,placed,List.map_cons,Files.writeAll_cons,qualifier,bind_assoc,
        run_bind (valueText_run q.2 hj)]
      dsimp only [Part.path]
      exact onFiles_then fun _ => ih hrest

/-- Saving a unit is writing its files. -/
theorem unit_run {key : Key} {code : Code} {site : Site} {files : List (Part × String)}
    (hf : code.files? site.heap key = some files) :
    unit dir key code site = Work.onFiles (Files.writeAll (placed dir files)) site := by
  obtain ⟨kept,hkept,rfl⟩ := Code.files?_eq_some.mp hf
  rw [unit,placed,List.map_cons,List.map_cons,Files.writeAll_cons,Files.writeAll_cons]
  dsimp only [Part.path]
  exact onFiles_then fun _ => onFiles_then fun _ => qualifiers_run hkept

theorem onFiles_ok {α : Type} {w : FileWork α} {site site' : Site} {a : α}
    (hrun : Work.onFiles w site = (.ok a,site')) :
    w site.files = (.ok a,site'.files) ∧ site' = { site with files := site'.files } := by
  rw [onFiles_run] at hrun
  obtain ⟨ha,rfl⟩ := Prod.mk.inj hrun
  exact ⟨Prod.ext ha rfl,rfl⟩

theorem qualifiers_ok {qs : List Qualifier} {site site' : Site}
    (hrun : qs.forM (qualifier dir) site = (.ok (),site')) :
    ∃ kept, List.Forall₂ (fun q f => Code.qualifierFile site.heap q = some f) qs kept := by
  induction qs generalizing site with
  | nil => exact ⟨[],.nil⟩
  | cons q rest ih =>
    rw [qualifiers_cons] at hrun
    obtain ⟨_,mid,hfirst,hrest⟩ := run_bind_ok hrun
    cases hj : (site.heap.unfold q.2).toJson? with
    | none =>
      have hheap : Work.heap site = (.ok site.heap,site) := rfl
      have hfail : valueText q.2 site = (.error .malformed,site) := by
        rw [valueText,run_bind hheap,hj]
        rfl
      rw [qualifier,run_bind_error _ hfail] at hfirst
      cases congrArg Prod.fst hfirst
    | some j =>
      rw [qualifier,run_bind (valueText_run q.2 hj)] at hfirst
      have hmid : mid.heap = site.heap := by rw [(onFiles_ok hfirst).2]
      obtain ⟨kept,hkept⟩ := ih hrest
      rw [hmid] at hkept
      exact ⟨_,.cons (Code.qualifierFile_eq_some.mpr ⟨j,hj,rfl⟩) hkept⟩

/-- A unit that is saved has a text for each of its files. -/
theorem files_of_unit {key : Key} {code : Code} {site site' : Site}
    (hrun : unit dir key code site = (.ok (),site')) :
    ∃ files, code.files? site.heap key = some files := by
  rw [unit] at hrun
  obtain ⟨_,first,hfirst,hrest⟩ := run_bind_ok hrun
  obtain ⟨_,second,hsecond,hkept⟩ := run_bind_ok hrest
  obtain ⟨kept,hkept⟩ := qualifiers_ok hkept
  have hheap : second.heap = site.heap := by rw [(onFiles_ok hsecond).2,(onFiles_ok hfirst).2]
  rw [hheap] at hkept
  exact ⟨_,Code.files?_eq_some.mpr ⟨kept,hkept,rfl⟩⟩

/-- A directory that is ready takes all files of the unit, and nothing else in it changes. -/
theorem writeAll_ready {fs : Files} {files : List (Part × String)} (h : fs.Ready dir)
    (hnames : ∀ f ∈ files, Holdable f.1.name)
    (hroom : dir.utf8ByteSize + Files.namesRoom ≤ Path.longest) :
    ∃ fs', Files.writeAll (placed dir files) fs = (.ok (),fs') := by
  induction files generalizing fs with
  | nil => exact ⟨fs,rfl⟩
  | cons f rest ih =>
    obtain ⟨hfirst,hrest⟩ := List.forall_mem_cons.mp hnames
    obtain ⟨mid,hwrite,hready,_⟩ := Part.write_ready h hfirst hroom f.2
    obtain ⟨fs',hall⟩ := ih hready hrest
    refine ⟨fs',?_⟩
    rw [placed,List.map_cons,Files.writeAll_cons,run_bind hwrite]
    exact hall

end Save
end Wiring
