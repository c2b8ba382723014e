import Mathlib
import Wiring.Proofs.Files.Writing

/-!
# A directory that takes files

A directory with nothing in the way takes a file of every holdable name, and so do its
subdirectories, which are made with the first file. How often this is done does not matter:
the directory stays as ready as it was.
-/
namespace Wiring

namespace Path

variable {d x : String}

/-- A name that every directory can hold a file under. -/
structure Holdable (name : String) : Prop extends Ordinary name where
  speakable : '\x00' ∉ name.toList
  short : tooLong name = false

theorem join_cases (d : String) {x : String} (hx : '/' ∉ x.toList) :
    join d x = d ++ x ∨ join d x = d ++ "/" ++ x := by
  unfold join
  split
  next h =>
    rcases h with h | h
    · rw [isAbsolute_of_noSlash hx] at h
      cases h
    · exact .inl (by rw [h,String.empty_append])
  · split
    · exact .inl rfl
    · exact .inr rfl

theorem size_join (d : String) (hx : '/' ∉ x.toList) :
    (join d x).utf8ByteSize ≤ d.utf8ByteSize + 1 + x.utf8ByteSize := by
  have hslash : "/".utf8ByteSize = 1 := by decide
  rcases join_cases d hx with h | h <;> rw [h] <;> simp only [String.utf8ByteSize_append] <;> omega

/-- A joined text is speakable if its parts are and it is not too long. -/
theorem speakable_join (hd : unspeakable d = false) (hx : Holdable x) {n : Nat}
    (hsize : d.utf8ByteSize + 1 + n ≤ longest) (hn : x.utf8ByteSize ≤ n) :
    unspeakable (join d x) = false := by
  have hjoin := size_join d hx.noSlash
  have hlong : ¬longest < (join d x).utf8ByteSize := by omega
  have hno : '\x00' ∉ d.toList := by
    simp only [unspeakable,Bool.or_eq_false_iff,List.contains_eq_mem,decide_eq_false_iff_not] at hd
    exact hd.1
  have hnone : '\x00' ∉ (join d x).toList := by
    rcases join_cases d hx.noSlash with h | h <;> rw [h] <;> simp [hno,hx.speakable]
  simp [unspeakable,hnone,hlong]

theorem Holdable.size (hx : Holdable x) : x.utf8ByteSize ≤ 255 := by
  have hshort := hx.short
  simp only [tooLong,decide_eq_false_iff_not] at hshort
  omega

theorem size_of_prefix {t : String} (h : t.toList <+: d.toList) :
    t.utf8ByteSize ≤ d.utf8ByteSize := by
  obtain ⟨more,hmore⟩ := h
  have htext : d = t ++ String.ofList more := by
    apply String.toList_inj.mp
    rw [String.toList_append,String.toList_ofList,hmore]
  rw [htext,String.utf8ByteSize_append]
  omega

theorem size_parentText (hd : d ≠ "") (hx : Ordinary x) :
    (parentText (join d x)).utf8ByteSize ≤ d.utf8ByteSize := by
  obtain ⟨_,_,_,_,_,_,_,⟨_,hroot⟩ | ⟨_,_,_,hbefore⟩⟩ := parentText_way hd hx
  · have hslash : "/".utf8ByteSize = 1 := by decide
    have hsome : d.utf8ByteSize ≠ 0 := fun h => hd (String.utf8ByteSize_eq_zero_iff.mp h)
    rw [hroot]
    omega
  · exact size_of_prefix hbefore

theorem endsInName_join (d : String) (hx : Ordinary x) : endsInName (join d x) = true := by
  obtain ⟨l,hnames,_⟩ := way_join d hx
  rw [endsInName,hnames,List.getLast?_concat]
  simp [hx.moves,hx.notBack]

end Path

namespace Files

open Wiring.Path

variable {fs fs' : Files} {d x : String}

/-- Only names that can be held are written under. -/
theorem Writable.holdable (h : fs.Writable (join d x)) (hx : Ordinary x) : Holdable x := by
  obtain ⟨hspeak,hshort⟩ := name_of_canHold hx h.holds
  refine ⟨hx,fun hno => ?_,hshort⟩
  simp only [unspeakable,Bool.or_eq_false_iff,List.contains_eq_mem,decide_eq_false_iff_not] at hspeak
  refine hspeak.1 ?_
  rcases join_cases d hx.noSlash with h | h <;> rw [h] <;> simp [hno]

theorem canHold_join (hd : fs.status d = .directory) (hx : Holdable x)
    (hspeak : unspeakable (join d x) = false) (hdir : fs.isDirectory (ofText d ++ [x]) = false) :
    fs.canHold (join d x) = true := by
  have hstatus : fs.status (join d x) =
      (fs.contents.find? (ofText d ++ [x])).elim .missing .file := by
    rw [status_join hd hx.toOrdinary,if_neg (by simp [hspeak]),found,if_neg (by simp [hdir]),
      if_neg (by simp [hx.short])]
  rw [canHold,hstatus]
  cases fs.contents.find? (ofText d ++ [x]) with
  | some contents => rfl
  | none => simp [endsInName_join d hx.toOrdinary,status_parentText hd hx.toOrdinary]

/-- The subdirectories that files are put into. -/
def subdirectories : List String := ["meta","qualifier"]

theorem holdable_of_subdirectory {s : String} (hs : s ∈ subdirectories) :
    Holdable s ∧ s.utf8ByteSize ≤ 9 := by
  have hall : ∀ s ∈ subdirectories, ('/' ∉ s.toList ∧ staysPut s = false ∧ s ≠ "..") ∧
      '\x00' ∉ s.toList ∧ tooLong s = false ∧ s.utf8ByteSize ≤ 9 := by decide
  obtain ⟨⟨hslash,hmoves,hback⟩,hnone,hshort,hsize⟩ := hall s hs
  exact ⟨⟨⟨hslash,hmoves,hback⟩,hnone,hshort⟩,hsize⟩

/-- A directory with no directory where a file may go, and no file where a subdirectory is to
be. -/
structure Ready (fs : Files) (d : String) : Prop where
  there : fs.status d = .directory
  flat : ∀ x, Ordinary x → x ∉ subdirectories → fs.isDirectory (ofText d ++ [x]) = false
  free : ∀ s ∈ subdirectories, fs.contents.find? (ofText d ++ [s]) = none
  below : ∀ s ∈ subdirectories, ∀ x, Ordinary x → fs.isDirectory (ofText d ++ [s,x]) = false

/-- The room that the names of files and subdirectories need beyond the text of the
directory. -/
def namesRoom : Nat := 266

theorem Ready.next {path : Path} (h : fs.Ready d) (hg : Grows fs fs')
    (hdirs : ∀ p, fs'.isDirectory p = true →
      fs.isDirectory p = true ∨ ∃ s ∈ subdirectories, p = ofText d ++ [s])
    (hkeeps : Keeps fs.contents fs'.contents (· = path))
    (hpath : ∀ s ∈ subdirectories, path ≠ ofText d ++ [s]) : fs'.Ready d where
  there := hg.status_directory h.there
  flat x hx hnot := by
    by_contra hno
    rcases hdirs _ (by simpa using hno) with hdir | ⟨s,hs,hp⟩
    · rw [h.flat x hx hnot] at hdir
      cases hdir
    · obtain rfl : x = s := by simpa using hp
      exact hnot hs
  free s hs := by
    have hnot : ¬Temporary (ofText d ++ [s]) := by
      rw [← ofText_join d (holdable_of_subdirectory hs).1.toOrdinary]
      exact ofText_not_temporary _
    rw [hkeeps _ hnot (hpath s hs).symm]
    exact h.free s hs
  below s hs x hx := by
    by_contra hno
    rcases hdirs _ (by simpa using hno) with hdir | ⟨s',_,hp⟩
    · rw [h.below s hs x hx] at hdir
      cases hdir
    · simp at hp

/-- A write to a directory that is there, or that making the directory around the text makes. -/
theorem writable_join {made : Files} (hmade : fs.makeDirectory (parentText (join d x)) = (true,made))
    (hfits : (parentText (join d x)).utf8ByteSize + temporaryExcess ≤ longest)
    (hd : made.status d = .directory) (hx : Holdable x) (hspeak : unspeakable (join d x) = false)
    (hdir : made.isDirectory (ofText d ++ [x]) = false) : fs.Writable (join d x) where
  made := by rw [hmade]
  fits := hfits
  holds := by
    have hway : fs.way (join d x) = made := by rw [way,hmade]
    rw [hway]
    exact canHold_join hd hx hspeak hdir

theorem Ready.write_join (h : fs.Ready d) (hx : Holdable x) (hnot : x ∉ subdirectories)
    (hroom : d.utf8ByteSize + namesRoom ≤ longest) (contents : String) :
    ∃ fs', write (join d x) contents fs = (.ok (),fs') ∧ fs'.Ready d ∧
      fs'.contents.find? (ofText (join d x)) = some contents ∧
      Keeps fs.contents fs'.contents (· = ofText (join d x)) := by
  obtain ⟨hne,hspeak,_⟩ := status_directory h.there
  rw [namesRoom] at hroom
  have hmade := makeDirectory_there (status_parentText h.there hx.toOrdinary)
  have hsize := size_parentText hne hx.toOrdinary
  have hexcess : temporaryExcess = 27 := rfl
  have hplace := writable_join hmade (by omega) h.there hx
    (speakable_join hspeak hx (by omega) hx.size) (h.flat x hx.toOrdinary hnot)
  obtain ⟨fs',hrun,hdirs,hfind,hkeeps⟩ := hplace.write contents
  have hgrows := write_grows (join d x) contents fs
  rw [hrun] at hgrows
  refine ⟨fs',hrun,h.next hgrows (fun p hp => .inl ?_) hkeeps fun s hs he => ?_,hfind,hkeeps⟩
  · have hway : fs.way (join d x) = fs := by rw [way,hmade]
    rw [hway] at hdirs
    rw [isDirectory,hdirs] at hp
    exact hp
  · rw [ofText_join d hx.toOrdinary] at he
    obtain rfl : x = s := by simpa using he
    exact hnot hs

theorem Ready.write_below (h : fs.Ready d) {s : String} (hs : s ∈ subdirectories)
    (hx : Holdable x) (hroom : d.utf8ByteSize + namesRoom ≤ longest) (contents : String) :
    ∃ fs', write (join (join d s) x) contents fs = (.ok (),fs') ∧ fs'.Ready d ∧
      fs'.contents.find? (ofText (join (join d s) x)) = some contents ∧
      Keeps fs.contents fs'.contents (· = ofText (join (join d s) x)) := by
  obtain ⟨hne,hspeak,_⟩ := status_directory h.there
  obtain ⟨hholds,hnine⟩ := holdable_of_subdirectory hs
  rw [namesRoom] at hroom
  have hspeakBelow := speakable_join hspeak hholds (n := 9) (by omega) hnine
  have hsize := size_join d hholds.noSlash
  have hparent := parentText_join_join (d := d) hholds.toOrdinary hx.toOrdinary
  have hexcess : temporaryExcess = 27 := rfl
  have hpath : ofText (join d s) = ofText d ++ [s] := ofText_join d hholds.toOrdinary
  have hspeakFile := speakable_join hspeakBelow hx (n := 255) (by omega) hx.size
  obtain ⟨made,hmade,hdirs,hthere⟩ : ∃ made, fs.makeDirectory (join d s) = (true,made) ∧
      (made.directories = fs.directories ∨
        made.directories = fs.directories ++ [ofText d ++ [s]]) ∧
      made.status (join d s) = .directory := by
    by_cases hdir : fs.isDirectory (ofText d ++ [s]) = true
    · have hstatus : fs.status (join d s) = .directory := by
        rw [status_join h.there hholds.toOrdinary,if_neg (by simp [hspeakBelow]),found,if_pos hdir]
      exact ⟨fs,makeDirectory_there hstatus,.inl rfl,hstatus⟩
    · refine ⟨_,makeDirectory_new h.there hholds.toOrdinary hspeakBelow hholds.short
        (by simpa using hdir) (h.free s hs),.inr rfl,?_⟩
      have hgrows : Grows fs { fs with directories := fs.directories ++ [ofText d ++ [s]] } :=
        ⟨fun _ => isDirectory_mono fun _ => List.mem_append_left _,fun _ _ hp => hp⟩
      have hhere : isDirectory { fs with directories := fs.directories ++ [ofText d ++ [s]] }
          (ofText d ++ [s]) = true := by simp [isDirectory]
      rw [status_join (hgrows.status_directory h.there) hholds.toOrdinary,
        if_neg (by simp [hspeakBelow]),found,if_pos hhere]
  have hdirsMade : ∀ p, made.isDirectory p = true →
      fs.isDirectory p = true ∨ p = ofText d ++ [s] := by
    intro p hp
    rcases hdirs with hdirs | hdirs
    · rw [isDirectory,hdirs] at hp
      exact .inl hp
    · simp only [isDirectory,hdirs,Bool.or_eq_true,List.contains_iff_mem,List.mem_append,
        List.mem_singleton] at hp ⊢
      rcases hp with hp | hp | hp
      · exact .inl (.inl hp)
      · exact .inl (.inr hp)
      · exact .inr hp
  have hfree : made.isDirectory (ofText (join d s) ++ [x]) = false := by
    rw [hpath,List.append_assoc]
    by_contra hno
    rcases hdirsMade _ (by simpa using hno) with hdir | hp
    · exact absurd hdir (by simp [h.below s hs x hx.toOrdinary])
    · simp at hp
  have hplace := writable_join (hparent ▸ hmade) (by rw [hparent]; omega) hthere hx hspeakFile hfree
  obtain ⟨fs',hrun,hdirs',hfind,hkeeps⟩ := hplace.write contents
  have hgrows := write_grows (join (join d s) x) contents fs
  rw [hrun] at hgrows
  refine ⟨fs',hrun,h.next hgrows (fun p hp => ?_) hkeeps fun s' _ he => ?_,hfind,hkeeps⟩
  · have hway : fs.way (join (join d s) x) = made := by rw [way,hparent,hmade]
    rw [hway] at hdirs'
    rw [isDirectory,hdirs'] at hp
    exact (hdirsMade p hp).imp_right fun hp => ⟨s,hs,hp⟩
  · rw [ofText_join _ hx.toOrdinary,hpath] at he
    simp at he

section All

/-- Files written one after another. -/
def writeAll (l : List (String × String)) : FileWork Unit := l.forM fun f => write f.1 f.2

variable {l : List (String × String)}

theorem writeAll_cons (f : String × String) (l : List (String × String)) :
    writeAll (f :: l) = (write f.1 f.2 >>= fun _ => writeAll l) := rfl

theorem writeAll_cons_ok {f : String × String} (h : writeAll (f :: l) fs = (.ok (),fs')) :
    ∃ mid, write f.1 f.2 fs = (.ok (),mid) ∧ writeAll l mid = (.ok (),fs') := by
  rw [writeAll_cons] at h
  cases hw : write f.1 f.2 fs with
  | mk answer mid =>
    cases answer with
    | ok u =>
      rw [Work.run_bind hw] at h
      exact ⟨mid,rfl,h⟩
    | error e =>
      rw [Work.run_bind_error _ hw] at h
      cases congrArg Prod.fst h

/-- All files that were written are there in the end, if those at one path have one text. -/
theorem writeAll_ok (hagree : ∀ a ∈ l, ∀ b ∈ l, ofText a.1 = ofText b.1 → a.2 = b.2)
    (h : writeAll l fs = (.ok (),fs')) :
    (∀ a ∈ l, (∃ fs, Writable fs a.1) ∧ fs'.contents.find? (ofText a.1) = some a.2) ∧
      Keeps fs.contents fs'.contents fun path => ∃ a ∈ l, path = ofText a.1 := by
  induction l generalizing fs with
  | nil =>
    obtain rfl : fs = fs' := (Prod.mk.inj h).2
    exact ⟨nofun,.refl _⟩
  | cons f rest ih =>
    obtain ⟨mid,hfirst,hrest⟩ := writeAll_cons_ok h
    obtain ⟨hplace,hfind,hkeeps⟩ := write_ok hfirst
    obtain ⟨hthere,hothers⟩ := ih (fun a ha b hb => hagree a (List.mem_cons_of_mem _ ha) b
      (List.mem_cons_of_mem _ hb)) hrest
    refine ⟨List.forall_mem_cons.mpr ⟨⟨⟨fs,hplace⟩,?_⟩,hthere⟩,?_⟩
    · by_cases hagain : ∃ a ∈ rest, ofText f.1 = ofText a.1
      · obtain ⟨a,ha,he⟩ := hagain
        rw [he,(hthere a ha).2,hagree f List.mem_cons_self a (List.mem_cons_of_mem _ ha) he]
      · rw [hothers _ (ofText_not_temporary _) hagain,hfind]
    · refine (hkeeps.imp ?_).trans (hothers.imp ?_)
      · exact fun path he => ⟨f,List.mem_cons_self,he⟩
      · exact fun path ⟨a,ha,he⟩ => ⟨a,List.mem_cons_of_mem _ ha,he⟩

theorem writeAll_grows (l : List (String × String)) (fs : Files) :
    Grows fs (writeAll l fs).2 := by
  induction l generalizing fs with
  | nil => exact .refl fs
  | cons f rest ih =>
    have hfirst := write_grows f.1 f.2 fs
    rw [writeAll_cons]
    cases hw : write f.1 f.2 fs with
    | mk answer mid =>
      rw [hw] at hfirst
      cases answer with
      | ok u =>
        rw [Work.run_bind hw]
        exact hfirst.trans (ih mid)
      | error e =>
        rw [Work.run_bind_error _ hw]
        exact hfirst

/-- Whatever is written is there in the end, under its path if not with its contents. -/
theorem writeAll_there (h : writeAll l fs = (.ok (),fs')) :
    ∀ a ∈ l, (fs'.contents.find? (ofText a.1)).isSome = true := by
  induction l generalizing fs with
  | nil => exact nofun
  | cons f rest ih =>
    obtain ⟨mid,hfirst,hrest⟩ := writeAll_cons_ok h
    have hgrows := writeAll_grows rest mid
    rw [hrest] at hgrows
    refine List.forall_mem_cons.mpr ⟨?_,ih hrest⟩
    refine hgrows.contents _ (ofText_not_temporary _) ?_
    rw [(write_ok hfirst).2.1]
    rfl

end All

section Only

/-- The directory is there, and one file is all that lies in it. -/
structure HoldsOnly (fs : Files) (d name contents : String) : Prop where
  there : fs.status d = .directory
  file : fs.contents.find? (ofText d ++ [name]) = some contents
  noDirectory : ∀ path, Files.below (ofText d) path = true → path ∉ fs.directories
  noOther : ∀ path, Files.below (ofText d) path = true → path ≠ ofText d ++ [name] →
    fs.contents.find? path = none

/-- Whether one file is all that lies in a directory, as it is checked on the tables. -/
def holdsOnly (fs : Files) (d name contents : String) : Bool :=
  fs.status d == .directory && fs.contents.find? (ofText d ++ [name]) == some contents &&
    (fs.directories.all fun path => !below (ofText d) path) &&
    fs.contents.keys.all fun path =>
      !below (ofText d) path || path == ofText d ++ [name]

theorem HoldsOnly.of_check {name contents : String} (h : fs.holdsOnly d name contents = true) :
    fs.HoldsOnly d name contents := by
  simp only [holdsOnly,Bool.and_eq_true,beq_iff_eq,List.all_eq_true,Bool.not_eq_true',
    Bool.or_eq_true] at h
  obtain ⟨⟨⟨hthere,hfile⟩,hdirs⟩,hfiles⟩ := h
  refine ⟨hthere,hfile,fun path hbelow hm => ?_,fun path hbelow hne => Table.find?_none fun hm => ?_⟩
  · rw [hdirs path hm] at hbelow
    cases hbelow
  · rcases hfiles path hm with h | h
    · rw [h] at hbelow
      cases hbelow
    · exact hne h

theorem HoldsOnly.of_path {d' name contents : String} (h : fs.HoldsOnly d name contents)
    (hthere : fs.status d' = .directory) (hpath : ofText d' = ofText d) :
    fs.HoldsOnly d' name contents := by
  refine ⟨hthere,?_,?_,?_⟩ <;> rw [hpath]
  · exact h.file
  · exact h.noDirectory
  · exact h.noOther

theorem below_append (path : Path) {x : String} (hx : Ordinary x) (rest : List String) :
    below path (path ++ x :: rest) = true := by
  have hroot : x ≠ "/" := by
    rintro rfl
    exact hx.noSlash (by decide)
  simp [below,hx.notBack,hroot]

theorem HoldsOnly.isDirectory {name contents : String} (h : fs.HoldsOnly d name contents)
    {x : String} (hx : Ordinary x) (rest : List String) :
    fs.isDirectory (ofText d ++ x :: rest) = false := by
  have hroot : x ≠ "/" := by
    rintro rfl
    exact hx.noSlash (by decide)
  have houter : isOuter (ofText d ++ x :: rest) = false := by
    simp [isOuter,hx.notBack]
  have hnotRoot : (ofText d ++ x :: rest == ["/"]) = false := by
    rw [beq_eq_false_iff_ne]
    intro he
    rcases List.append_eq_singleton_iff.mp he with ⟨_,he⟩ | ⟨_,he⟩
    · exact hroot (List.cons.inj he).1
    · cases he
  have hno := h.noDirectory _ (below_append (ofText d) hx rest)
  simp [Files.isDirectory,houter,hnotRoot,hno]

theorem HoldsOnly.ready {name contents : String} (h : fs.HoldsOnly d name contents)
    (hname : name ∉ subdirectories) : fs.Ready d where
  there := h.there
  flat x hx _ := h.isDirectory hx []
  free s hs := by
    have hordinary := (holdable_of_subdirectory hs).1.toOrdinary
    refine h.noOther _ (below_append (ofText d) hordinary []) fun he => hname ?_
    obtain rfl : s = name := List.singleton_inj.mp (List.append_cancel_left he)
    exact hs
  below s hs x _ := h.isDirectory (holdable_of_subdirectory hs).1.toOrdinary [x]

/-- The one file is read. -/
theorem HoldsOnly.read {name contents : String} (h : fs.HoldsOnly d name contents)
    (hname : Holdable name) (hroom : d.utf8ByteSize + namesRoom ≤ longest) :
    readIfExists (join d name) fs = (.ok (some contents),fs) := by
  obtain ⟨_,hspeak,_⟩ := status_directory h.there
  rw [namesRoom] at hroom
  have hjoin := speakable_join hspeak hname (n := 255) (by omega) hname.size
  have hstatus : fs.status (join d name) = .file contents := by
    rw [status_join h.there hname.toOrdinary,if_neg (by simp [hjoin]),found,
      if_neg (by simp [h.isDirectory hname.toOrdinary []]),if_neg (by simp [hname.short]),h.file]
    rfl
  have hexists : fs.exists? (join d name) = true := by rw [exists?,hstatus]
  have hget : (get : FileWork Files) fs = (.ok fs,fs) := rfl
  have hread : Files.read (join d name) fs = (.ok contents,fs) := by
    rw [Files.read,Work.run_bind hget,hstatus]
    rfl
  rw [readIfExists,Work.run_bind hget,if_pos hexists,Work.run_bind hread]
  rfl

end Only
end Files
end Wiring
