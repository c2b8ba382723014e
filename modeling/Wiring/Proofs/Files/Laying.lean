import Mathlib
import Wiring.Proofs.Compile.Parts

/-!
# Files laid into a directory

The files of units are laid into a directory and its two subdirectories. If the directory is there,
this makes no other directory, so whatever else lies in it is found as before.
-/
namespace Wiring.Files

open Wiring.Path

variable {fs fs' : Files} {d x y : String}

/-- The text leads into a directory that is there. The empty one leads into the working directory. -/
def Enters (fs : Files) (d : String) : Prop := d = "" ∨ fs.status d = .directory

theorem parentText_join_empty (hx : Ordinary x) : parentText (join "" x) = "." := by
  have hjoin : join "" x = x := by simp [join]
  simp [hjoin,parentText,names_of_noSlash hx.noSlash,trimReversed,hx.moves]

namespace Enters

theorem grows (h : fs.Enters d) (hg : Grows fs fs') : fs'.Enters d :=
  h.imp_right hg.status_directory

/-- The way to an ordinary name is there. -/
theorem way (h : fs.Enters d) (hx : Ordinary x) : ∃ l, names (join d x) = l ++ [x] ∧
    start (join d x) = start d ∧ l.foldl step (start d) = ofText d ∧
      fs.statusFrom (start d) l = .directory := by
  obtain ⟨l,hnames,hstart,hfold,⟨rfl,rfl⟩ | ⟨hd,hne,hl⟩⟩ := way_join d hx
  · exact ⟨[],hnames,hstart,hfold,rfl⟩
  · obtain ⟨_,_,hway⟩ := status_directory (h.resolve_left hd)
    exact ⟨l,hnames,hstart,hfold,(statusFrom_names hl hne).mp hway⟩

theorem join_ne_empty (hx : Ordinary x) : join d x ≠ "" := by
  obtain ⟨l,hnames,_⟩ := way_join d hx
  intro hempty
  have hlast := congrArg List.getLast? hnames
  rw [hempty,List.getLast?_concat] at hlast
  exact hx.ne_empty (Option.some.inj hlast).symm

theorem status (h : fs.Enters d) (hx : Ordinary x) : fs.status (join d x) =
    if unspeakable (join d x) then .blocked else fs.found (ofText d ++ [x]) x := by
  obtain ⟨l,hnames,hstart,hfold,hway⟩ := h.way hx
  rw [Files.status,if_neg (join_ne_empty hx),hnames,hstart,statusFrom_append _ hway,
    statusFrom_ordinary hx,hfold]

theorem parentText (h : fs.Enters d) (hx : Ordinary x) :
    fs.status (parentText (join d x)) = .directory := by
  rcases h with rfl | h
  · rw [parentText_join_empty hx]
    rfl
  · exact status_parentText h hx

/-- A directory that takes a file is there. -/
theorem of_canHold (hx : Ordinary x) (h : fs.canHold (join d x) = true) : fs.Enters d := by
  obtain ⟨l,hnames,hstart,_,hcase⟩ := way_join d hx
  rcases hcase with ⟨hd,_⟩ | ⟨hd,hne,hl⟩
  · exact .inl hd
  have hspeak := speakable_of_canHold h
  have hway : fs.statusFrom (start d) l = .directory := by
    by_contra hno
    rw [canHold,Files.status,if_neg (join_ne_empty hx),if_neg (by simp [hspeak]),hnames,hstart] at h
    rcases statusFrom_stops (m := [x]) (by simp) hno with h' | h'
    · rw [h',Bool.and_eq_true] at h
      exact hno (statusFrom_of_parentText hx hnames (by simpa using h.2))
    · rw [h'] at h
      cases h
  have hbefore : d.toList <+: (join d x).toList := by
    rcases join_cases d hx.noSlash with hj | hj <;> rw [hj]
    · exact ⟨_,(String.toList_append ..).symm⟩
    · rw [String.append_assoc]
      exact ⟨_,(String.toList_append ..).symm⟩
  have hspeak' := speakable_of_prefix hbefore hspeak
  refine .inr ?_
  rw [Files.status,if_neg hd,if_neg (by simp [hspeak'])]
  exact (statusFrom_names hl hne).mpr hway

/-- To make a directory of an ordinary name makes this directory or none. -/
theorem makeDirectory (h : fs.Enters d) (hx : Ordinary x) :
    (fs.makeDirectory (join d x)).2.directories = fs.directories ∨
      (fs.makeDirectory (join d x)).2.directories = fs.directories ++ [ofText d ++ [x]] := by
  obtain ⟨l,hnames,hstart,hfold,hway⟩ := h.way hx
  have hreverse : (names (join d x)).reverse.dropWhile (· == "") = x :: l.reverse := by
    rw [hnames]
    simp [hx.ne_empty]
  rw [Files.makeDirectory,if_neg (join_ne_empty hx),makeWithin,makeOne,hreverse]
  dsimp only
  rw [List.reverse_reverse,hstart,hway,hfold]
  dsimp only
  by_cases hspeak : unspeakable (join d x) = true
  · rw [if_pos hspeak]
    exact .inl rfl
  rw [if_neg hspeak]
  split
  next hmade =>
    split at hmade
    · cases hmade
    · cases hmade
      exact .inr rfl
  next => exact .inl rfl
  next hmade => split at hmade <;> cases hmade

end Enters

/-- The directories that there are after a write were there or have been made on the way. -/
theorem isDirectory_of_write {text contents : String} {made : List Path}
    (h : (fs.way text).directories = fs.directories ++ made) {p : Path}
    (hp : (write text contents fs).2.isDirectory p = true) : fs.isDirectory p = true ∨ p ∈ made := by
  have hsame : (write text contents fs).2.directories = (fs.way text).directories := by
    obtain ⟨fs',hdirs,⟨_,⟨_,hrun⟩,_⟩ | ⟨_,hrun,_⟩⟩ := write_cases text contents fs <;>
      rw [hrun] <;> exact hdirs
  rw [isDirectory,hsame,h] at hp
  simp only [isDirectory,Bool.or_eq_true,List.contains_iff_mem,List.mem_append] at hp ⊢
  rcases hp with hp | hp | hp
  · exact .inl (.inl hp)
  · exact .inl (.inr hp)
  · exact .inr hp

/-- Files have been laid into a directory. Nothing is gone, at most certain paths have changed, and
of all directories at most the subdirectories have been made. -/
structure Laid (d : String) (changed : Path → Prop) (old new : Files) : Prop where
  grows : Grows old new
  keeps : Keeps old.contents new.contents changed
  directories : ∀ p, new.isDirectory p = true →
    old.isDirectory p = true ∨ ∃ s ∈ subdirectories, p = ofText d ++ [s]

namespace Laid

variable {changed other : Path → Prop} {old mid new : Files}

theorem refl (fs : Files) : Laid d changed fs fs := ⟨.refl fs,.refl _,fun _ hp => .inl hp⟩

theorem trans (h : Laid d changed old mid) (h' : Laid d changed mid new) :
    Laid d changed old new where
  grows := h.grows.trans h'.grows
  keeps := h.keeps.trans h'.keeps
  directories p hp := (h'.directories p hp).elim (h.directories p) .inr

theorem imp (h : Laid d changed old new) (hc : ∀ path, changed path → other path) :
    Laid d other old new := ⟨h.grows,h.keeps.imp hc,h.directories⟩

/-- What lies in the directory, and is neither a subdirectory nor changed, is found as before. -/
theorem status (h : Laid d changed old new) (hd : old.Enters d) (hx : Ordinary x)
    (hnot : x ∉ subdirectories) (hkept : ¬changed (ofText (join d x))) :
    new.status (join d x) = old.status (join d x) := by
  have hfile := h.keeps _ (ofText_not_temporary _) hkept
  rw [ofText_join d hx] at hfile
  have hdirectory : new.isDirectory (ofText d ++ [x]) = old.isDirectory (ofText d ++ [x]) := by
    rw [Bool.eq_iff_iff]
    refine ⟨fun hp => (h.directories _ hp).resolve_right ?_,h.grows.directories _⟩
    rintro ⟨s,hs,he⟩
    obtain rfl : x = s := List.singleton_inj.mp (List.append_cancel_left he)
    exact hnot hs
  rw [(hd.grows h.grows).status hx,hd.status hx,found,found,hfile,hdirectory]

/-- A file is appended to without directories being made. -/
theorem append (text contents : String) (fs : Files) :
    Laid d (· = ofText text) fs (append text contents fs).2 := by
  obtain ⟨hgrows,hkeeps⟩ := append_grows text contents fs
  refine ⟨hgrows,hkeeps,fun p hp => .inl ?_⟩
  have hsame : (Files.append text contents fs).2.directories = fs.directories := by
    have hget : (get : FileWork Files) fs = (.ok fs,fs) := rfl
    unfold Files.append
    rw [Work.run_bind hget]
    by_cases hhold : fs.canHold text = true
    · rw [if_pos hhold]
      rfl
    · rw [if_neg hhold]
      rfl
  rw [isDirectory,hsame] at hp
  exact hp

theorem of_write {text : String} (contents : String)
    (h : (fs.way text).directories = fs.directories ∨
      ∃ s ∈ subdirectories, (fs.way text).directories = fs.directories ++ [ofText d ++ [s]]) :
    Laid d (· = ofText text) fs (write text contents fs).2 := by
  refine ⟨write_grows text contents fs,write_keeps text contents fs,fun p hp => ?_⟩
  rcases h with h | ⟨s,hs,h⟩
  · rw [← List.append_nil fs.directories] at h
    exact .inl ((isDirectory_of_write h hp).resolve_right List.not_mem_nil)
  · exact (isDirectory_of_write h hp).imp_right fun he => ⟨s,hs,List.mem_singleton.mp he⟩

theorem write_join (hd : fs.Enters d) (hx : Ordinary x) (contents : String) :
    Laid d (· = ofText (join d x)) fs (write (join d x) contents fs).2 := by
  refine .of_write contents (.inl ?_)
  rw [way,makeDirectory_there (hd.parentText hx)]

theorem write_below (hd : fs.Enters d) {s : String} (hs : s ∈ subdirectories) (hx : Ordinary x)
    (contents : String) :
    Laid d (· = ofText (join (join d s) x)) fs (write (join (join d s) x) contents fs).2 := by
  have hs' := (holdable_of_subdirectory hs).1.toOrdinary
  refine .of_write contents ?_
  rw [way,parentText_join_join hs' hx]
  exact (hd.makeDirectory hs').imp_right fun h => ⟨s,hs,h⟩

/-- The file of a unit is laid into the directory or a subdirectory. -/
theorem write_part (hd : fs.Enters d) {part : Part} (hpart : part.Slashless) (contents : String) :
    Laid d (· = ofText (part.path d)) fs (write (part.path d) contents fs).2 := by
  have hname := hpart.ordinary
  cases part with
  | unit key =>
    simp only [Part.name,Part.path,Layout.unitPath] at hname ⊢
    exact write_join hd hname contents
  | scope key =>
    simp only [Part.name,Part.path,Layout.metaPath] at hname ⊢
    exact write_below hd (by decide) hname contents
  | qualifier p =>
    simp only [Part.name,Part.path,Layout.qualifierPath] at hname ⊢
    exact write_below hd (by decide) hname contents

end Laid

section Written

variable {contents : String}

/-- A file that was written is found. -/
theorem write_status (hx : Ordinary x) (h : write (join d x) contents fs = (.ok (),fs')) :
    fs'.status (join d x) = .file contents := by
  obtain ⟨hplace,hfind,hkeeps⟩ := write_ok h
  obtain ⟨hspeak,hshort⟩ := name_of_canHold hx hplace.holds
  have hd := Enters.of_canHold hx hplace.holds
  obtain ⟨new,hrun,hdirs,_⟩ := hplace.write contents
  rw [h] at hrun
  obtain rfl : fs' = new := (Prod.mk.inj hrun).2
  have hsame (p : Path) : fs'.isDirectory p = (fs.way (join d x)).isDirectory p := by
    rw [isDirectory,hdirs,isDirectory]
  have hgrows : Grows (fs.way (join d x)) fs' := by
    refine ⟨fun p hp => (hsame p).trans hp,fun p ht hp => ?_⟩
    rw [way,(makeDirectory_roomier _ fs).contents] at hp
    by_cases hpath : p = ofText (join d x)
    · rw [hpath,hfind]
      rfl
    · rwa [hkeeps p ht hpath]
  have hfree : (fs.way (join d x)).isDirectory (ofText d ++ [x]) = false := by
    by_contra hno
    have hholds := hplace.holds
    rw [canHold,hd.status hx,if_neg (by simp [hspeak]),found,if_pos (by simpa using hno)] at hholds
    cases hholds
  rw [ofText_join d hx] at hfind
  rw [(hd.grows hgrows).status hx,if_neg (by simp [hspeak]),found,hsame,if_neg (by simp [hfree]),
    if_neg (by simp [hshort]),hfind]
  rfl

/-- Names of the same directory that are no longer are speakable too. -/
theorem speakable_join_shorter (hx : Ordinary x) (hy : Ordinary y) (hnull : '\x00' ∉ y.toList)
    (hsize : y.utf8ByteSize ≤ x.utf8ByteSize) (h : unspeakable (join d x) = false) :
    unspeakable (join d y) = false := by
  have hjoin : ∃ before, join d x = before ++ x ∧ join d y = before ++ y := by
    unfold join
    rw [isAbsolute_of_noSlash hx.noSlash,isAbsolute_of_noSlash hy.noSlash]
    by_cases hd : d = ""
    · exact ⟨"",by simp [hd]⟩
    by_cases hslash : d.toList.getLast? = some '/'
    · exact ⟨d,by simp [hd,hslash]⟩
    · exact ⟨d ++ "/",by simp [hd,hslash]⟩
  obtain ⟨before,hjx,hjy⟩ := hjoin
  rw [hjx] at h
  rw [hjy]
  simp only [unspeakable,Bool.or_eq_false_iff,List.contains_eq_mem,decide_eq_false_iff_not,
    String.toList_append,List.mem_append,not_or,String.utf8ByteSize_append] at h ⊢
  exact ⟨⟨h.1.1,hnull⟩,by omega⟩

/-- The text of the directory around a name does not depend on the name. -/
theorem parentText_join_eq (d : String) (hx : Ordinary x) (hy : Ordinary y) :
    parentText (join d x) = parentText (join d y) := by
  by_cases hd : d = ""
  · rw [hd,parentText_join_empty hx,parentText_join_empty hy]
  have htrim {z : String} (hz : Ordinary z) :
      trimReversed ((trimReversed (names (join d z)).reverse).drop 1) =
        trimReversed (names d).reverse := by
    obtain ⟨l,hl,hne,hnames,_⟩ := names_join hd hz.noSlash
    have hlast : trimReversed (z :: l.reverse) = z :: l.reverse := by simp [trimReversed,hz.moves]
    rw [hnames,List.reverse_append,List.reverse_singleton,List.singleton_append,hlast,
      List.drop_succ_cons,List.drop_zero]
    rcases hl with hl | hl
    · rw [hl]
    · have hempty : trimReversed ("" :: l.reverse) = trimReversed l.reverse := by
        simp [trimReversed,staysPut,hne]
      rw [hl,List.reverse_append,List.reverse_singleton,List.singleton_append,hempty]
  rw [parentText,parentText,htrim hx,htrim hy]

/-- A file can be written into the directory if nothing of its name is there. -/
theorem writable_new (hd : fs.Enters d) (hy : Ordinary y)
    (hfits : (parentText (join d y)).utf8ByteSize + temporaryExcess ≤ longest)
    (hspeak : unspeakable (join d y) = false) (hshort : tooLong y = false)
    (hnone : fs.exists? (join d y) = false) : fs.Writable (join d y) := by
  have hparent := hd.parentText hy
  have hmade := makeDirectory_there hparent
  have hway : fs.way (join d y) = fs := by rw [Files.way,hmade]
  have hstatus := hd.status hy
  rw [if_neg (by simp [hspeak]),found] at hstatus
  refine ⟨by rw [hmade],hfits,?_⟩
  rw [hway,canHold]
  cases hs : fs.status (join d y) with
  | missing => simp [endsInName_join d hy,hparent]
  | file text => simp [exists?,hs] at hnone
  | directory => simp [exists?,hs] at hnone
  | blocked =>
    rw [hs] at hstatus
    split at hstatus
    · cases hstatus
    · rw [if_neg (by simp [hshort])] at hstatus
      cases hf : fs.contents.find? (ofText d ++ [y]) <;> rw [hf] at hstatus <;> cases hstatus

end Written

end Wiring.Files
