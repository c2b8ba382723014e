import Mathlib
import Wiring.Proofs.Compile.Agreeing
import Wiring.Proofs.Compile.Whole

/-!
# Files that are written anew

Saving a unit writes the two files of its key anew, and touches those of no other key, as long as
keys have stems of their own and no file name leads into another directory. What lies at other
paths may change. So if the scopes in a unit fit, the files of all keys go on telling scopes
that fit.
-/
namespace Wiring

namespace Files

variable {path : Path} {P : String → Prop} {old new next : Files}

/-- What lies at a path is as before, or it was written since and has a property. -/
def Renews (path : Path) (P : String → Prop) (old new : Files) : Prop :=
  new.contents.find? path = old.contents.find? path ∨
    ∃ text, new.contents.find? path = some text ∧ P text

namespace Renews

theorem refl (fs : Files) : Renews path P fs fs := .inl rfl

theorem trans (h : Renews path P old new) (h' : Renews path P new next) :
    Renews path P old next := by
  rcases h' with hsame | hwritten
  · rw [Renews,hsame]
    exact h
  · exact .inr hwritten

theorem there (h : Renews path P old new)
    (hold : ∃ text, old.contents.find? path = some text ∧ P text) :
    ∃ text, new.contents.find? path = some text ∧ P text := by
  rcases h with hsame | hwritten
  · rw [hsame]
    exact hold
  · exact hwritten

theorem all (h : Renews path P old new)
    (hold : ∀ text, old.contents.find? path = some text → P text) :
    ∀ text, new.contents.find? path = some text → P text := by
  rcases h with hsame | ⟨text,htext,hp⟩
  · rw [hsame]
    exact hold
  · intro text' htext'
    rw [← Option.some.inj (htext.symm.trans htext')]
    exact hp

theorem of_keeps {changed : Path → Prop} (htemporary : ¬Temporary path)
    (h : Keeps old.contents new.contents changed) (hpath : ¬changed path) :
    Renews path P old new := .inl (h path htemporary hpath)

end Renews

/-- A write renews what lies at a path, even if it fails. -/
theorem write_renews (text contents : String) (fs : Files) (htemporary : ¬Temporary path)
    (h : path = Path.ofText text → P contents) : Renews path P fs (write text contents fs).2 := by
  obtain ⟨fs',_,⟨_,⟨_,hrun⟩,hkeeps⟩ | ⟨_,hrun,hfind,hkeeps⟩⟩ := write_cases text contents fs
  · rw [hrun]
    exact .of_keeps htemporary hkeeps id
  · rw [hrun]
    by_cases hpath : path = Path.ofText text
    · exact .inr ⟨contents,by rw [hpath,hfind],h hpath⟩
    · exact .of_keeps htemporary hkeeps hpath

end Files

/-- Keys, the bound ones among them, whose files are named apart: stems tell keys from each
other, and no name of a file leads into another directory. -/
structure Container.Apart (g : Graph) (K : Key → Prop) : Prop where
  bound : ∀ key, g.has key = true → K key
  stems : ∀ a, K a → ∀ b, K b → a.stem = b.stem → a = b
  slashless : ∀ key, K key → '/' ∉ key.stem.toList
  qualifiers : ∀ q ∈ g.qualifiers, '/' ∉ q.1.fileName.toList

namespace Compile

open Work

variable {dir : String} {g : Graph} {K : Key → Prop} {S : Key → Bool → Prop} {key other : Key}
  {old new next : Files}

/-- A text that is the source of a unit whose scopes fit. -/
def TellsUnit (g : Graph) (S : Key → Bool → Prop) (key : Key) (text : String) : Prop :=
  ∃ code, text = code.source ∧ Agrees g S key code

/-- The files of keys are as before, or were written since and tell scopes that fit. -/
structure Renewed (dir : String) (g : Graph) (K : Key → Prop) (S : Key → Bool → Prop)
    (old new : Files) : Prop where
  unit : ∀ key, K key →
    Files.Renews (Path.ofText (Layout.unitPath dir key)) (TellsUnit g S key) old new
  scope : ∀ key, K key →
    Files.Renews (Path.ofText (Layout.metaPath dir key)) (TellsScope S key) old new

/-- The files of a key are there and tell scopes that fit. -/
structure Tells (dir : String) (g : Graph) (S : Key → Bool → Prop) (fs : Files) (key : Key) :
    Prop where
  unit : ∃ text, fs.contents.find? (Path.ofText (Layout.unitPath dir key)) = some text ∧
    TellsUnit g S key text
  scope : ∃ text, fs.contents.find? (Path.ofText (Layout.metaPath dir key)) = some text ∧
    TellsScope S key text

namespace Renewed

theorem refl (fs : Files) : Renewed dir g K S fs fs := ⟨fun _ _ => .refl fs,fun _ _ => .refl fs⟩

theorem trans (h : Renewed dir g K S old new) (h' : Renewed dir g K S new next) :
    Renewed dir g K S old next :=
  ⟨fun key hkey => (h.unit key hkey).trans (h'.unit key hkey),
    fun key hkey => (h.scope key hkey).trans (h'.scope key hkey)⟩

theorem tells (h : Renewed dir g K S old new) (hkey : K key) (hold : Tells dir g S old key) :
    Tells dir g S new key :=
  ⟨(h.unit key hkey).there hold.unit,(h.scope key hkey).there hold.scope⟩

theorem settled (h : Renewed dir g K S old new) (hold : Settled dir g K S old) :
    Settled dir g K S new :=
  fun key hkey hnone => (h.scope key hkey).all (hold key hkey hnone)

end Renewed

section Parts

variable (hK : g.Apart K)

include hK

theorem slashless_unit (hkey : K key) : (Part.unit key).Slashless := by
  simp [Part.Slashless,Part.name,Layout.unitName,hK.slashless key hkey]

theorem slashless_scope (hkey : K key) : (Part.scope key).Slashless := by
  simp [Part.Slashless,Part.name,hK.slashless key hkey]

theorem eq_of_unitPath (hkey : K key) (hother : K other)
    (h : Path.ofText (Layout.unitPath dir key) = Path.ofText (Layout.unitPath dir other)) :
    key = other := by
  have hname := (Part.name_of_path (slashless_unit hK hkey).ordinary
    (slashless_unit hK hother).ordinary h).2
  exact hK.stems key hkey other hother (String.append_left_inj _ |>.mp hname)

theorem eq_of_metaPath (hkey : K key) (hother : K other)
    (h : Path.ofText (Layout.metaPath dir key) = Path.ofText (Layout.metaPath dir other)) :
    key = other := by
  have hname := (Part.name_of_path (slashless_scope hK hkey).ordinary
    (slashless_scope hK hother).ordinary h).2
  exact hK.stems key hkey other hother (String.append_left_inj _ |>.mp hname)

theorem unitPath_ne_metaPath (hkey : K key) (hother : K other) :
    Path.ofText (Layout.unitPath dir key) ≠ Path.ofText (Layout.metaPath dir other) := by
  intro h
  have hwithin := (Part.name_of_path (slashless_unit hK hkey).ordinary
    (slashless_scope hK hother).ordinary h).1
  cases hwithin

end Parts
section Writing

/-- Files at other paths may change. -/
theorem Renewed.of_keeps {changed : Path → Prop} (hK : g.Apart K)
    (h : Files.Keeps old.contents new.contents changed)
    (hother : ∀ part : Part, part.Slashless → ¬changed (Path.ofText (part.path dir))) :
    Renewed dir g K S old new := by
  refine ⟨fun key hkey => ?_,fun key hkey => ?_⟩
  · have hunit := hother (.unit key) (slashless_unit hK hkey)
    rw [Part.path] at hunit
    exact .of_keeps (Files.ofText_not_temporary _) h hunit
  · have hscope := hother (.scope key) (slashless_scope hK hkey)
    rw [Part.path] at hscope
    exact .of_keeps (Files.ofText_not_temporary _) h hscope

theorem write_renewed {text contents : String} (fs : Files)
    (hunit : ∀ key, K key → Path.ofText (Layout.unitPath dir key) = Path.ofText text →
      TellsUnit g S key contents)
    (hscope : ∀ key, K key → Path.ofText (Layout.metaPath dir key) = Path.ofText text →
      TellsScope S key contents) :
    Renewed dir g K S fs (Files.write text contents fs).2 :=
  ⟨fun key hkey => Files.write_renews _ _ fs (Files.ofText_not_temporary _) (hunit key hkey),
    fun key hkey => Files.write_renews _ _ fs (Files.ofText_not_temporary _) (hscope key hkey)⟩

theorem writeUnit_renewed (hK : g.Apart K) (hkey : K key) {code : Code}
    (hcode : Agrees g S key code) (fs : Files) :
    Renewed dir g K S fs (Files.write (Layout.unitPath dir key) code.source fs).2 := by
  refine write_renewed fs (fun other hother hpath => ?_) fun other hother hpath => ?_
  · obtain rfl := eq_of_unitPath hK hother hkey hpath
    exact ⟨code,rfl,hcode⟩
  · exact absurd hpath.symm (unitPath_ne_metaPath hK hkey hother)

theorem writeScope_renewed (hK : g.Apart K) (hkey : K key) {code : Code}
    (hcode : Agrees g S key code) (fs : Files) : Renewed dir g K S fs
      (Files.write (Layout.metaPath dir key) (Save.scopeToJson code.shared).compact fs).2 := by
  refine write_renewed fs (fun other hother hpath => ?_) fun other hother hpath => ?_
  · exact absurd hpath (unitPath_ne_metaPath hK hother hkey)
  · obtain rfl := eq_of_metaPath hK hother hkey hpath
    exact ⟨code.shared,read_scope code.shared,hcode.own⟩

/-- A qualifier lies with the qualifiers. -/
theorem writeQualifier_renewed (hK : g.Apart K) {p : Parameter} (hp : '/' ∉ p.fileName.toList)
    (contents : String) (fs : Files) :
    Renewed dir g K S fs (Files.write (Layout.qualifierPath dir p) contents fs).2 := by
  have hqualifier : (Part.qualifier p).Slashless := hp
  refine write_renewed fs (fun other hother hpath => ?_) fun other hother hpath => ?_
  · have hwithin := (Part.name_of_path (slashless_unit hK hother).ordinary hqualifier.ordinary
      hpath).1
    cases hwithin
  · have hwithin := (Part.name_of_path (slashless_scope hK hother).ordinary hqualifier.ordinary
      hpath).1
    simp [Part.within] at hwithin

/-- Only files have changed, and those of keys tell scopes that fit. -/
structure Rewritten (dir : String) (g : Graph) (K : Key → Prop) (S : Key → Bool → Prop)
    (start site : Site) : Prop where
  registry : site.registry = start.registry
  files : Renewed dir g K S start.files site.files

theorem Rewritten.refl (site : Site) : Rewritten dir g K S site site := ⟨rfl,.refl _⟩

theorem onFiles_rewritten {start : Site} {w : FileWork Unit}
    (h : ∀ fs, Renewed dir g K S fs (w fs).2) :
    (Work.onFiles w).Maintains (Rewritten dir g K S start) fun _ => True := by
  intro site hsite
  rw [onFiles_run]
  exact ⟨⟨hsite.registry,hsite.files.trans (h _)⟩,fun _ _ => trivial⟩

theorem qualifiers_rewritten (hK : g.Apart K) {start : Site} {qs : List Qualifier}
    (hqs : ∀ q ∈ qs, '/' ∉ q.1.fileName.toList) :
    (qs.forM (Save.qualifier dir)).Maintains (Rewritten dir g K S start) fun _ => True := by
  induction qs with
  | nil => exact .pure trivial
  | cons q rest ih =>
    obtain ⟨hq,hrest⟩ := List.forall_mem_cons.mp hqs
    have hheap : Work.heap.Maintains (Rewritten dir g K S start) fun _ => True :=
      fun _ hsite => ⟨hsite,fun _ _ => trivial⟩
    have htext : (Save.valueText q.2).Maintains (Rewritten dir g K S start) fun _ => True := by
      unfold Save.valueText
      exact hheap.bind fun _ _ => (Batch.orElse_maintains _ _).bind fun _ _ => .pure trivial
    rw [Save.qualifiers_cons]
    refine Maintains.bind (P := fun _ => True) ?_ fun _ _ => ih hrest
    exact htext.bind fun text _ => onFiles_rewritten (writeQualifier_renewed hK hq text)

/-- Saving a unit whose scopes fit renews the files of its key, and those of no other key. -/
theorem saveUnit_rewritten (hK : g.Apart K) (hkey : K key) {code : Code}
    (hcode : Agrees g S key code) (hqs : ∀ q ∈ code.qualifiers, '/' ∉ q.1.fileName.toList)
    (site : Site) : Rewritten dir g K S site (Save.unit dir key code site).2 := by
  have hall : (Save.unit dir key code).Maintains (Rewritten dir g K S site) fun _ => True := by
    unfold Save.unit
    refine (onFiles_rewritten (writeUnit_renewed hK hkey hcode)).bind fun _ _ => ?_
    refine (onFiles_rewritten (writeScope_renewed hK hkey hcode)).bind fun _ _ => ?_
    exact qualifiers_rewritten hK hqs
  exact (hall site (.refl _)).1

/-- A unit that is saved is there, with its scope. -/
theorem saveUnit_tells (hK : g.Apart K) (hkey : K key) {code : Code}
    (hcode : Agrees g S key code) (hqs : ∀ q ∈ code.qualifiers, '/' ∉ q.1.fileName.toList)
    {site after : Site} (hrun : Save.unit dir key code site = (.ok (),after)) :
    Tells dir g S after.files key := by
  rw [Save.unit] at hrun
  obtain ⟨_,first,hfirst,hrest⟩ := Work.run_bind_ok hrun
  obtain ⟨_,second,hsecond,hrest⟩ := Work.run_bind_ok hrest
  have hunit := (Files.write_ok (Save.onFiles_ok hfirst).1).2.1
  have hscope := (Files.write_ok (Save.onFiles_ok hsecond).1).2.1
  have hsecondRenewed : Renewed dir g K S first.files
      (Files.write (Layout.metaPath dir key) (Save.scopeToJson code.shared).compact first.files).2 :=
    writeScope_renewed hK hkey hcode first.files
  rw [(Save.onFiles_ok hsecond).1] at hsecondRenewed
  have hqualifiers : (code.qualifiers.forM (Save.qualifier dir)).Maintains
      (Rewritten dir g K S second) fun _ => True :=
    qualifiers_rewritten hK hqs
  have hrestRenewed := (hqualifiers second (.refl _)).1.files
  rw [hrest] at hrestRenewed
  refine ⟨?_,?_⟩
  · exact ((hsecondRenewed.trans hrestRenewed).unit key hkey).there
      ⟨_,hunit,code,rfl,hcode⟩
  · exact (hrestRenewed.scope key hkey).there
      ⟨_,hscope,code.shared,read_scope code.shared,hcode.own⟩

end Writing
end Compile
end Wiring
