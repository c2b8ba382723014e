import Mathlib
import Wiring.Proofs.Files.Status
import Wiring.Proofs.Site
import Wiring.Proofs.Table

/-!
# What a write changes

A write fails for want of a place to write to, or stores its contents under the path of its
text. Either way nothing else can be found to have changed: the directories on the way may
have been made, and the temporary file is gone.
-/
namespace Wiring.Files

open Wiring.Path

/-- Nothing has changed but what is found at certain paths. -/
def Keeps (old new : Table Path String) (changed : Path → Prop) : Prop :=
  ∀ path, ¬Temporary path → ¬changed path → new.find? path = old.find? path

namespace Keeps

variable {t t' t'' : Table Path String} {changed other : Path → Prop} {path : Path}

theorem refl (t : Table Path String) : Keeps t t changed := fun _ _ _ => rfl

theorem trans (h : Keeps t t' changed) (h' : Keeps t' t'' changed) : Keeps t t'' changed :=
  fun path ht hc => (h' path ht hc).trans (h path ht hc)

theorem imp (h : Keeps t t' changed) (hc : ∀ path, changed path → other path) :
    Keeps t t' other :=
  fun path ht ho => h path ht fun hp => ho (hc path hp)

theorem put (t : Table Path String) (path : Path) (text : String) :
    Keeps t (t.put path text) (· = path) :=
  fun _ _ ho => Table.find?_put_of_ne _ _ ho

/-- A temporary file that was there for a while has changed nothing. -/
theorem staged (t : Table Path String) (h : Temporary path) (text : String) :
    Keeps t ((t.put path text).erase path) changed := by
  intro other ht _
  have hne : other ≠ path := fun he => ht (he ▸ h)
  rw [Table.find?_erase_of_ne _ hne,Table.find?_put_of_ne _ _ hne]

end Keeps

variable {fs : Files}

section Directories

variable {text : String} {fs' : Files}

/-- Making directories changes no file and takes no directory away. -/
structure Roomier (old new : Files) : Prop where
  contents : new.contents = old.contents
  directories : ∀ path ∈ old.directories, path ∈ new.directories

theorem Roomier.refl (fs : Files) : Roomier fs fs := ⟨rfl,fun _ h => h⟩

theorem Roomier.trans {old new next : Files} (h : Roomier old new) (h' : Roomier new next) :
    Roomier old next :=
  ⟨h'.contents.trans h.contents,fun path hp => h'.directories path (h.directories path hp)⟩

theorem makeOne_roomier (h : fs.makeOne text = .made fs') : Roomier fs fs' := by
  unfold makeOne at h
  split at h
  · cases h
  · split at h
    · cases h
    · split at h
      · dsimp only at h
        split at h
        · cases h
        · cases h
          exact ⟨rfl,fun _ hp => List.mem_append_left _ hp⟩
      · cases h
      · cases h

theorem makeWithin_roomier (n : Nat) (text : String) (fs : Files) :
    Roomier fs (makeWithin n text fs).2 := by
  induction n generalizing text fs with
  | zero => exact .refl fs
  | succ n ih =>
    rw [makeWithin]
    split
    next h => exact makeOne_roomier h
    · exact .refl fs
    · have hback := ih (parentText text) fs
      split
      next hn =>
        rw [hn] at hback
        exact hback
      next hn =>
        rw [hn] at hback
        split
        next h => exact hback.trans (makeOne_roomier h)
        · exact hback

theorem makeDirectory_roomier (text : String) (fs : Files) :
    Roomier fs (fs.makeDirectory text).2 := by
  unfold makeDirectory
  split
  · exact .refl fs
  · exact makeWithin_roomier _ _ _

theorem isDirectory_mono {old new : Files}
    (h : ∀ path ∈ old.directories, path ∈ new.directories) {path : Path}
    (hp : old.isDirectory path = true) : new.isDirectory path = true := by
  simp only [isDirectory,Bool.or_eq_true,List.contains_iff_mem] at hp ⊢
  exact hp.imp_right (h path)

theorem Roomier.grows {old new : Files} (h : Roomier old new) : Grows old new :=
  ⟨fun _ => isDirectory_mono h.directories,fun _ _ hp => by rwa [h.contents]⟩

/-- The names of a text up to the last one that is not empty. -/
theorem names_trailing {name : String} {before : List String}
    (h : (names text).reverse.dropWhile (· == "") = name :: before) :
    name ≠ "" ∧ ∃ trailing, names text = before.reverse ++ name :: trailing ∧
      ∀ more ∈ trailing, staysPut more = true := by
  constructor
  · have hfirst := List.head_dropWhile_not (· == "") (l := (names text).reverse) (by simp [h])
    simpa [h] using hfirst
  · refine ⟨((names text).reverse.takeWhile (· == "")).reverse,?_,fun more hmore => ?_⟩
    · have hsplit := List.takeWhile_append_dropWhile (p := (· == "")) (l := (names text).reverse)
      rw [h] at hsplit
      have hback := congrArg List.reverse hsplit
      simpa using hback.symm
    · have hempty := List.mem_takeWhile_imp (List.mem_reverse.mp hmore)
      rw [staysPut,hempty,Bool.true_or]

theorem makeOne_there (h : fs.status text = .directory) :
    fs.makeOne text = .refused := by
  obtain ⟨_,hspeak,hway⟩ := status_directory h
  unfold makeOne
  split
  · rfl
  next name way hnames =>
    obtain ⟨hname,trailing,htrailing,_⟩ := names_trailing hnames
    rw [htrailing] at hway
    have hpath : fs.statusFrom (start text) way.reverse = .directory := by
      by_contra hno
      rcases statusFrom_stops (m := name :: trailing) (by simp) hno with h' | h' <;>
        rw [h'] at hway <;> cases hway
    rw [if_neg (by simp [hspeak]),hpath]
    dsimp only
    refine if_pos ?_
    by_cases hdot : name = "."
    · exact .inl hdot
    by_cases hback : name = ".."
    · exact .inr (.inl hback)
    have hstep : step (way.reverse.foldl step (start text)) name =
        way.reverse.foldl step (start text) ++ [name] := by
      rw [step,if_neg (by simp [staysPut,hname,hdot]),if_neg hback]
    rw [statusFrom_append _ hpath,statusFrom,hstep] at hway
    refine .inr (.inr (.inr (.inl ?_)))
    by_contra hno
    rw [if_neg hno] at hway
    split at hway
    · cases hway
    · split at hway
      · split at hway <;> cases hway
      · cases hway

theorem makeOne_made (h : fs.makeOne text = .made fs') : fs'.status text = .directory := by
  have hgrows := (makeOne_roomier h).grows
  unfold makeOne at h
  split at h
  · cases h
  next name way hnames =>
    obtain ⟨hname,trailing,htrailing,hstays⟩ := names_trailing hnames
    split at h
    · cases h
    next hspeak =>
      cases hpath : fs.statusFrom (start text) way.reverse with
      | missing =>
        rw [hpath] at h
        cases h
      | blocked =>
        rw [hpath] at h
        cases h
      | file contents =>
        rw [hpath] at h
        cases h
      | directory =>
        rw [hpath] at h
        dsimp only at h
        split at h
        · cases h
        next hfree =>
          obtain rfl := Making.made.inj h
          have hne : text ≠ "" := by
            rintro rfl
            cases hnames
          have hway := (hgrows.statusFrom (spoken_start text) fun more hmore =>
            noSlash_of_mem_names (htrailing ▸ List.mem_append_left _ hmore)).1 hpath
          have hdot : name ≠ "." := fun he => hfree (.inl he)
          have hback : name ≠ ".." := fun he => hfree (.inr (.inl he))
          have hstep : step (way.reverse.foldl step (start text)) name =
              way.reverse.foldl step (start text) ++ [name] := by
            rw [step,if_neg (by simp [staysPut,hname,hdot]),if_neg hback]
          have hhere : isDirectory { fs with directories := fs.directories ++
              [way.reverse.foldl step (start text) ++ [name]] }
              (way.reverse.foldl step (start text) ++ [name]) = true := by
            simp [isDirectory]
          rw [status,if_neg hne,if_neg hspeak,htrailing,statusFrom_append _ hway,statusFrom,hstep,
            if_pos hhere]
          exact statusFrom_staysPut hhere hstays

theorem makeWithin_made {n : Nat} (h : makeWithin n text fs = (true,fs')) :
    fs'.status text = .directory := by
  cases n with
  | zero => cases h
  | succ n =>
    have hstatus {new : Files} (h : (new.status text == .directory,new) = (true,fs')) :
        fs'.status text = .directory := by
      obtain ⟨hthere,rfl⟩ := Prod.mk.inj h
      simpa using hthere
    rw [makeWithin] at h
    split at h
    next hmade =>
      obtain rfl := (Prod.mk.inj h).2
      exact makeOne_made hmade
    · exact hstatus h
    · split at h
      · cases h
      · split at h
        next hmade =>
          obtain rfl := (Prod.mk.inj h).2
          exact makeOne_made hmade
        · exact hstatus h

/-- A directory that has been made is there; an empty text names none. -/
theorem makeDirectory_made (h : fs.makeDirectory text = (true,fs')) :
    text = "" ∨ fs'.status text = .directory := by
  unfold makeDirectory at h
  split at h
  next hempty => exact .inl hempty
  · exact .inr (makeWithin_made h)

/-- A directory that is there need not be made. -/
theorem makeDirectory_there (h : fs.status text = .directory) :
    fs.makeDirectory text = (true,fs) := by
  rw [makeDirectory,if_neg (status_directory h).1,makeWithin,makeOne_there h]
  simp [h]

/-- A directory of an ordinary name can be made in a directory where nothing of this name is. -/
theorem makeDirectory_new {d x : String} (hd : fs.status d = .directory) (hx : Ordinary x)
    (hspeak : unspeakable (join d x) = false) (hshort : tooLong x = false)
    (hdir : fs.isDirectory (ofText d ++ [x]) = false)
    (hfile : fs.contents.find? (ofText d ++ [x]) = none) :
    fs.makeDirectory (join d x) =
      (true,{ fs with directories := fs.directories ++ [ofText d ++ [x]] }) := by
  obtain ⟨l,hnames,hstart,hfold,hcase⟩ := way_join d hx
  obtain ⟨hne,_,hway⟩ := status_directory hd
  have hwayThere : fs.statusFrom (start d) l = .directory := by
    rcases hcase with ⟨he,_⟩ | ⟨_,hl,hl'⟩
    · exact absurd he hne
    · exact (statusFrom_names hl' hl).mp hway
  have hjoin : join d x ≠ "" := by
    intro hempty
    have hlast := congrArg List.getLast? hnames
    rw [hempty,List.getLast?_concat] at hlast
    exact hx.ne_empty (Option.some.inj hlast).symm
  have hmake : fs.makeOne (join d x) =
      .made { fs with directories := fs.directories ++ [ofText d ++ [x]] } := by
    have hreverse : (names (join d x)).reverse.dropWhile (· == "") = x :: l.reverse := by
      rw [hnames]
      simp [hx.ne_empty]
    have hmoves : x ≠ "." := by
      rintro rfl
      cases hx.moves
    unfold makeOne
    rw [hreverse]
    dsimp only
    rw [if_neg (by simp [hspeak]),List.reverse_reverse,hstart,hwayThere,hfold]
    dsimp only
    rw [if_neg (by simp [hmoves,hx.notBack,hshort,hdir,Table.has,hfile])]
  rw [makeDirectory,if_neg hjoin,makeWithin,hmake]

end Directories

/-- The directory around a text and the ones around it. -/
def way (fs : Files) (text : String) : Files := (fs.makeDirectory (parentText text)).2

/-- The temporary file that would be made next. -/
def nextTemporary (fs : Files) (text : String) : Path :=
  ofText (parentText text) ++ [fs.temporaryName]

/-- The temporary file is made. -/
def staging (fs : Files) (temporary : Path) (contents : String) : Files :=
  { fs with
    contents := fs.contents.put temporary contents
    staged := fs.staged + 1 }

/-- There is a place to write to: the directory is there or can be made, a temporary file fits
into it, and it can hold the file. -/
structure Writable (fs : Files) (text : String) : Prop where
  made : (fs.makeDirectory (parentText text)).1 = true
  fits : (parentText text).utf8ByteSize + temporaryExcess ≤ longest
  holds : (fs.way text).canHold text = true

theorem temporary_next (fs : Files) (text : String) : Temporary (fs.nextTemporary text) :=
  ⟨fs.staged,by rw [nextTemporary,List.getLast?_concat,temporaryName]⟩

theorem canHold_staging {temporary : Path} (h : Temporary temporary) (contents text : String) :
    (fs.staging temporary contents).canHold text = fs.canHold text := by
  have hdirs : ∀ path, (fs.staging temporary contents).isDirectory path = fs.isDirectory path :=
    fun _ => rfl
  have hfiles : ∀ path, ¬Temporary path →
      (fs.staging temporary contents).contents.find? path = fs.contents.find? path :=
    fun _ ht => Table.find?_put_of_ne _ _ fun he => ht (he ▸ h)
  exact canHold_congr hdirs hfiles text

theorem ensureDirectory_run (text : String) (fs : Files) :
    ensureDirectory text fs =
      (if (fs.makeDirectory text).1 then .ok () else .error (.notWritable text),
        (fs.makeDirectory text).2) := by
  have hrun : ensureDirectory text fs =
      (if !(fs.makeDirectory text).1 then throw (.notWritable text) else pure () : FileWork Unit)
        (fs.makeDirectory text).2 := rfl
  rw [hrun]
  cases (fs.makeDirectory text).1 <;> rfl

theorem stage_run (contents : String) {text : String}
    (hmade : (fs.makeDirectory (parentText text)).1 = true)
    (hfits : (parentText text).utf8ByteSize + temporaryExcess ≤ longest) :
    stage text contents fs = (.ok ⟨(fs.way text).nextTemporary text,text⟩,
      (fs.way text).staging ((fs.way text).nextTemporary text) contents) := by
  have hensure := ensureDirectory_run (parentText text) fs
  have hget : (get : FileWork Files) (fs.way text) = (.ok (fs.way text),fs.way text) := rfl
  rw [hmade] at hensure
  unfold stage
  rw [Work.run_bind hensure,if_neg (by omega),← way]
  beta_reduce
  rw [Work.run_bind hget]
  rfl

theorem stage_fails (contents : String) {text : String}
    (h : ¬((fs.makeDirectory (parentText text)).1 = true ∧
      (parentText text).utf8ByteSize + temporaryExcess ≤ longest)) :
    ∃ path, stage text contents fs = (.error (.notWritable path),fs.way text) := by
  have hensure := ensureDirectory_run (parentText text) fs
  unfold stage
  cases hmade : (fs.makeDirectory (parentText text)).1 with
  | false =>
    rw [hmade] at hensure
    exact ⟨_,Work.run_bind_error _ hensure⟩
  | true =>
    have hthrow : (throw (.notWritable text) : FileWork PUnit) (fs.way text) =
        (.error (.notWritable text),fs.way text) := rfl
    have hlong : longest < (parentText text).utf8ByteSize + temporaryExcess := by
      by_contra hno
      exact h ⟨hmade,by omega⟩
    rw [hmade] at hensure
    rw [Work.run_bind hensure,if_pos hlong]
    exact ⟨text,Work.run_bind_error _ hthrow⟩

/-- The temporary file takes the place of the target if there is a place, and is gone. -/
theorem commit_run (s : Staged) {fs : Files} {contents : String}
    (h : fs.contents.find? s.temporary = some contents) :
    commit s fs =
      if fs.canHold s.target then
        (.ok (),{ fs with
          contents := (fs.contents.erase s.temporary).put (ofText s.target) contents })
      else (.error (.notWritable s.target),{ fs with contents := fs.contents.erase s.temporary }) := by
  have hget : (get : FileWork Files) fs = (.ok fs,fs) := rfl
  have habandon : abandon s fs = (.ok (),{ fs with contents := fs.contents.erase s.temporary }) := rfl
  unfold commit
  rw [Work.run_bind hget,Work.run_bind habandon,h]
  dsimp only
  by_cases hhold : fs.canHold s.target = true
  · rw [if_pos hhold,if_pos hhold]
    rfl
  · rw [if_neg hhold,if_neg hhold]
    rfl

/-- What comes of a write: it stores its contents exactly where there is a place, and nothing
else changes but the directories on the way. -/
theorem write_cases (text contents : String) (fs : Files) : ∃ fs',
    fs'.directories = (fs.way text).directories ∧
      ((¬fs.Writable text ∧ (∃ path, write text contents fs = (.error (.notWritable path),fs')) ∧
          Keeps fs.contents fs'.contents fun _ => False) ∨
        (fs.Writable text ∧ write text contents fs = (.ok (),fs') ∧
          fs'.contents.find? (ofText text) = some contents ∧
          Keeps fs.contents fs'.contents (· = ofText text))) := by
  have hway : (fs.way text).contents = fs.contents := (makeDirectory_roomier _ _).contents
  unfold write
  by_cases hstaged : (fs.makeDirectory (parentText text)).1 = true ∧
      (parentText text).utf8ByteSize + temporaryExcess ≤ longest
  · have hstage := stage_run contents hstaged.1 hstaged.2
    have htemporary := temporary_next (fs.way text) text
    have hplace : fs.Writable text ↔ (fs.way text).canHold text = true :=
      ⟨fun h => h.holds,fun h => ⟨hstaged.1,hstaged.2,h⟩⟩
    rw [hplace]
    generalize (fs.way text).nextTemporary text = temporary at htemporary hstage
    generalize fs.way text = made at hway hstage
    have hfind : (made.staging temporary contents).contents.find? temporary = some contents :=
      Table.find?_put_self _ _ _
    have hkeeps (changed : Path → Prop) : Keeps fs.contents
        ((made.staging temporary contents).contents.erase temporary) changed := by
      rw [← hway]
      exact .staged _ htemporary contents
    rw [Work.run_bind hstage,commit_run ⟨temporary,text⟩ hfind,canHold_staging htemporary]
    by_cases hhold : made.canHold text = true
    · rw [if_pos hhold]
      refine ⟨_,?_,.inr ⟨hhold,rfl,Table.find?_put_self _ _ _,?_⟩⟩
      · rfl
      · exact (hkeeps _).trans (.put _ (ofText text) contents)
    · rw [if_neg hhold]
      refine ⟨_,?_,.inl ⟨hhold,⟨_,rfl⟩,hkeeps _⟩⟩
      rfl
  · obtain ⟨path,hstage⟩ := stage_fails contents hstaged
    refine ⟨fs.way text,rfl,.inl ⟨fun h => hstaged ⟨h.made,h.fits⟩,?_,?_⟩⟩
    · exact ⟨path,Work.run_bind_error _ hstage⟩
    · rw [hway]
      exact .refl fs.contents

/-- A write that succeeds has a place, and stores its contents there. -/
theorem write_ok {text contents : String} {fs' : Files}
    (h : write text contents fs = (.ok (),fs')) :
    fs.Writable text ∧ fs'.contents.find? (ofText text) = some contents ∧
      Keeps fs.contents fs'.contents (· = ofText text) := by
  obtain ⟨new,_,⟨_,⟨path,hrun⟩,_⟩ | ⟨hplace,hrun,hfind,hkeeps⟩⟩ := write_cases text contents fs
  · rw [h] at hrun
    cases congrArg Prod.fst hrun
  · rw [h] at hrun
    obtain rfl := (Prod.mk.inj hrun).2
    exact ⟨hplace,hfind,hkeeps⟩

theorem Writable.write {text : String} (h : fs.Writable text) (contents : String) :
    ∃ fs', write text contents fs = (.ok (),fs') ∧
      fs'.directories = (fs.way text).directories ∧
      fs'.contents.find? (ofText text) = some contents ∧
      Keeps fs.contents fs'.contents (· = ofText text) := by
  obtain ⟨new,hdirs,⟨hno,_⟩ | ⟨_,hrun,hfind,hkeeps⟩⟩ := write_cases text contents fs
  · exact absurd h hno
  · exact ⟨new,hrun,hdirs,hfind,hkeeps⟩

/-- Whatever comes of it, a write takes nothing away. -/
theorem write_grows (text contents : String) (fs : Files) :
    Grows fs (write text contents fs).2 := by
  obtain ⟨new,hdirs,hcase⟩ := write_cases text contents fs
  have hmore : ∀ path ∈ fs.directories, path ∈ new.directories := by
    rw [hdirs]
    exact (makeDirectory_roomier (parentText text) fs).directories
  rcases hcase with ⟨_,⟨path,hrun⟩,hkeeps⟩ | ⟨_,hrun,hfind,hkeeps⟩
  · rw [hrun]
    exact ⟨fun _ => isDirectory_mono hmore,fun path ht hp => by rwa [hkeeps path ht id]⟩
  · rw [hrun]
    refine ⟨fun _ => isDirectory_mono hmore,fun path ht hp => ?_⟩
    by_cases hpath : path = ofText text
    · rw [hpath,hfind]
      rfl
    · rwa [hkeeps path ht hpath]

theorem write_keeps (text contents : String) (fs : Files) :
    Keeps fs.contents (write text contents fs).2.contents (· = ofText text) := by
  obtain ⟨new,_,⟨_,⟨path,hrun⟩,hkeeps⟩ | ⟨_,hrun,_,hkeeps⟩⟩ := write_cases text contents fs
  · rw [hrun]
    exact hkeeps.imp fun _ => False.elim
  · rw [hrun]
    exact hkeeps

theorem append_grows (text contents : String) (fs : Files) :
    Grows fs (append text contents fs).2 ∧
      Keeps fs.contents (append text contents fs).2.contents (· = ofText text) := by
  have hget : (get : FileWork Files) fs = (.ok fs,fs) := rfl
  unfold append
  rw [Work.run_bind hget]
  by_cases hhold : fs.canHold text = true
  · rw [if_pos hhold]
    refine ⟨⟨fun _ h => h,fun path _ hp => ?_⟩,Keeps.put _ _ _⟩
    by_cases hpath : path = ofText text
    · subst hpath
      exact congrArg Option.isSome (Table.find?_put_self _ _ _)
    · rw [← hp]
      exact congrArg Option.isSome (Table.find?_put_of_ne _ _ hpath)
  · rw [if_neg hhold]
    exact ⟨.refl fs,.refl _⟩

end Wiring.Files
