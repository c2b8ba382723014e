import Mathlib
import Wiring.Proofs.Files.Paths

/-!
# What is found in a directory

An ordinary name joined to the text of a directory leads to what the directory holds under
this name. Joined to any other text it leads nowhere.
-/
namespace Wiring.Files

open Wiring.Path

variable {fs : Files} {above : Path} {l m : List String} {d x : String}

/-- What is found under a name at a path, if all directories on the way are there. -/
def found (fs : Files) (path : Path) (name : String) : Status :=
  if fs.isDirectory path then .directory
  else if tooLong name then .blocked
  else (fs.contents.find? path).elim .missing .file

theorem statusFrom_append (m : List String) (h : fs.statusFrom above l = .directory) :
    fs.statusFrom above (l ++ m) = fs.statusFrom (l.foldl step above) m := by
  induction l generalizing above with
  | nil => rfl
  | cons name rest ih =>
    rw [statusFrom] at h
    rw [List.cons_append,statusFrom,List.foldl_cons]
    split at h
    next hdir =>
      rw [if_pos hdir]
      exact ih h
    next =>
      split at h
      · cases h
      · split at h
        · split at h <;> cases h
        · cases h

theorem statusFrom_stops (hm : m ≠ []) (h : fs.statusFrom above l ≠ .directory) :
    fs.statusFrom above (l ++ m) = .missing ∨ fs.statusFrom above (l ++ m) = .blocked := by
  induction l generalizing above with
  | nil => exact absurd rfl h
  | cons name rest ih =>
    rw [statusFrom] at h
    rw [List.cons_append,statusFrom]
    split at h
    next hdir =>
      rw [if_pos hdir]
      exact ih h
    next hdir =>
      rw [if_neg hdir]
      split
      · exact .inr rfl
      · split
        · rw [if_neg (by simp [hm])]
          exact .inr rfl
        · exact .inl rfl

theorem isDirectory_of_statusFrom (hl : l ≠ []) (h : fs.statusFrom above l = .directory) :
    fs.isDirectory (l.foldl step above) = true := by
  induction l generalizing above with
  | nil => exact absurd rfl hl
  | cons name rest ih =>
    rw [statusFrom] at h
    split at h
    next hdir =>
      by_cases hrest : rest = []
      · subst hrest
        exact hdir
      · exact ih hrest h
    next =>
      split at h
      · cases h
      · split at h
        · split at h <;> cases h
        · cases h

theorem statusFrom_ordinary (hx : Ordinary x) (above : Path) :
    fs.statusFrom above [x] = fs.found (above ++ [x]) x := by
  rw [statusFrom,hx.step,found]
  cases fs.contents.find? (above ++ [x]) <;> rfl

theorem status_directory (h : fs.status d = .directory) :
    d ≠ "" ∧ unspeakable d = false ∧ fs.statusFrom (start d) (names d) = .directory := by
  unfold status at h
  split at h
  · cases h
  next hd =>
    split at h
    · cases h
    next hs => exact ⟨hd,by simpa using hs,h⟩

theorem isDirectory_of_status (h : fs.status d = .directory) : fs.isDirectory (ofText d) = true :=
  isDirectory_of_statusFrom (names_ne_nil d) (status_directory h).2.2

theorem find?_of_statusFrom {contents : String} (h : fs.statusFrom above l = .file contents) :
    fs.contents.find? (l.foldl step above) = some contents := by
  induction l generalizing above with
  | nil => cases h
  | cons name rest ih =>
    rw [statusFrom] at h
    split at h
    · exact ih h
    split at h
    · cases h
    cases hfind : fs.contents.find? (step above name) with
    | none =>
      rw [hfind] at h
      cases h
    | some text =>
      rw [hfind] at h
      cases rest with
      | nil =>
        obtain rfl : text = contents := Status.file.inj h
        exact hfind
      | cons next more => cases h

/-- The contents of a file are those kept under its path. -/
theorem find?_of_status {text contents : String} (h : fs.status text = .file contents) :
    fs.contents.find? (ofText text) = some contents := by
  rw [status] at h
  split at h
  · cases h
  split at h
  · cases h
  exact find?_of_statusFrom h

/-- A slash at the end does not matter. -/
theorem statusFrom_names (hl : names d = l ∨ names d = l ++ [""]) (hne : l ≠ []) :
    fs.statusFrom above (names d) = .directory ↔ fs.statusFrom above l = .directory := by
  rcases hl with hl | hl
  · rw [hl]
  · rw [hl]
    constructor
    · intro h
      by_contra hno
      rcases statusFrom_stops (m := [""]) (by simp) hno with h' | h' <;> rw [h'] at h <;> cases h
    · intro h
      have hdir := isDirectory_of_statusFrom hne h
      have hstep : step (l.foldl step above) "" = l.foldl step above := rfl
      rw [statusFrom_append _ h,statusFrom,hstep,if_pos hdir]
      rfl

theorem foldl_names (hl : names d = l ∨ names d = l ++ [""]) (above : Path) :
    (names d).foldl step above = l.foldl step above := by
  rcases hl with hl | hl
  · rw [hl]
  · rw [hl,foldl_step_empty]

theorem status_join (h : fs.status d = .directory) (hx : Ordinary x) :
    fs.status (join d x) =
      if unspeakable (join d x) then .blocked else fs.found (ofText d ++ [x]) x := by
  obtain ⟨hd,_,hnames⟩ := status_directory h
  obtain ⟨l,hl,hne,hjoin,hstart⟩ := names_join hd hx.noSlash
  have hway := (statusFrom_names hl hne).mp hnames
  have hjne : join d x ≠ "" := by
    intro hempty
    have hlast := congrArg List.getLast? hjoin
    rw [hempty,List.getLast?_concat] at hlast
    exact hx.ne_empty (Option.some.inj hlast).symm
  rw [status,if_neg hjne,hjoin,hstart,statusFrom_append _ hway,statusFrom_ordinary hx,ofText,
    foldl_names hl]

theorem statusFrom_staysPut (habove : fs.isDirectory above = true)
    (hl : ∀ name ∈ l, staysPut name = true) : fs.statusFrom above l = .directory := by
  induction l with
  | nil => rfl
  | cons name rest ih =>
    obtain ⟨hname,hrest⟩ := List.forall_mem_cons.mp hl
    have hstep : step above name = above := by rw [step,if_pos hname]
    rw [statusFrom,hstep,if_pos habove]
    exact ih hrest

/-- A dot after a directory leads to the directory. -/
theorem status_dot (h : fs.status d = .directory) (hspeak : unspeakable (d ++ "/.") = false) :
    fs.status (d ++ "/.") = .directory ∧ ofText (d ++ "/.") = ofText d := by
  obtain ⟨hd,_,hway⟩ := status_directory h
  have htext : (d ++ "/.").toList = d.toList ++ '/' :: ['.'] := by
    rw [String.toList_append]
    rfl
  have hne : d ++ "/." ≠ "" := by
    intro hempty
    rw [hempty] at htext
    simp at htext
  have hnames : names (d ++ "/.") = names d ++ ["."] := by
    rw [names,htext,split_append_slash,List.map_append,← names]
    rfl
  have hstart : start (d ++ "/.") = start d := by
    rw [start,start,isAbsolute,isAbsolute,htext,List.head?_append_of_ne_nil _ (toList_ne_nil hd)]
  have hdir := isDirectory_of_status h
  constructor
  · rw [status,if_neg hne,if_neg (by simp [hspeak]),hnames,hstart,statusFrom_append _ hway]
    exact statusFrom_staysPut hdir (by decide)
  · rw [ofText,hnames,hstart,List.foldl_append]
    rfl

theorem status_root (fs : Files) : fs.status "/" = .directory := by
  have hspeak : unspeakable "/" = false := by decide
  rw [status,if_neg (by decide),hspeak]
  have hnames : names "/" = ["",""] := by decide
  have hstart : start "/" = ["/"] := by decide
  rw [if_neg (by decide),hnames,hstart]
  exact statusFrom_staysPut rfl (by decide)

/-- The text of the directory around a name in a directory leads to this directory. -/
theorem status_parentText (h : fs.status d = .directory) (hx : Ordinary x) :
    fs.status (parentText (join d x)) = .directory := by
  obtain ⟨hd,hspeak,hnames⟩ := status_directory h
  obtain ⟨kept,dropped,l,hl,hkept,hne,_,hparent⟩ := parentText_way hd hx
  have hlne : l ≠ [] := by simp [hkept,hne]
  have hway := (statusFrom_names hl hlne).mp hnames
  rw [hkept] at hway
  rcases hparent with ⟨_,hroot⟩ | ⟨hback,hstart,hempty,hbefore⟩
  · rw [hroot]
    exact status_root fs
  · have hkeptWay : fs.statusFrom (start d) kept = .directory := by
      by_cases hnil : dropped = []
      · rw [hnil,List.append_nil] at hway
        exact hway
      · by_contra hno
        rcases statusFrom_stops hnil hno with h' | h' <;> rw [h'] at hway <;> cases hway
    have hspeak' := speakable_of_prefix hbefore hspeak
    rw [status,if_neg hempty,if_neg (by simp [hspeak']),hback,hstart]
    exact hkeptWay

/-- So the way to a name is there if the text of the directory around it leads to one. -/
theorem statusFrom_of_parentText (hx : Ordinary x) (hn : names (join d x) = l ++ [x])
    (h : fs.status (parentText (join d x)) = .directory) :
    fs.statusFrom (start d) l = .directory := by
  obtain ⟨l',hn',_,_,hd⟩ := way_join d hx
  obtain rfl : l' = l := List.append_cancel_right (hn'.symm.trans hn)
  rcases hd with ⟨rfl,rfl⟩ | ⟨hd,hne,hl⟩
  · rfl
  obtain ⟨kept,dropped,l,hkl,hkept,hkne,hdropped,hparent⟩ := parentText_way hd hx
  have hlne : l ≠ [] := by simp [hkept,hkne]
  refine (statusFrom_names hl hne).mp ((statusFrom_names hkl hlne).mpr ?_)
  rw [hkept]
  rcases hparent with ⟨hroot,_⟩ | ⟨hback,hstart,_,_⟩
  · have hstart : fs.isDirectory (start d) = true := by
      unfold start
      split <;> rfl
    refine statusFrom_staysPut hstart ?_
    rw [hroot]
    exact List.forall_mem_cons.mpr ⟨rfl,hdropped⟩
  · obtain ⟨_,_,hway⟩ := status_directory h
    rw [hback,hstart] at hway
    rw [statusFrom_append _ hway]
    exact statusFrom_staysPut (isDirectory_of_statusFrom hkne hway) hdropped

/-- No file is held under a text that names nothing. -/
theorem speakable_of_canHold {text : String} (h : fs.canHold text = true) :
    unspeakable text = false := by
  by_contra hno
  by_cases hempty : text = ""
  · rw [hempty] at hno
    exact hno (by decide)
  · rw [canHold,status,if_neg hempty,if_pos (by simpa using hno)] at h
    cases h

/-- A directory that can hold a file under a joined name has a name for it that is neither too
long nor unspeakable. -/
theorem name_of_canHold (hx : Ordinary x) (h : fs.canHold (join d x) = true) :
    unspeakable (join d x) = false ∧ tooLong x = false := by
  obtain ⟨l,hnames,hstart,_,_⟩ := way_join d hx
  have hne : join d x ≠ "" := by
    intro hempty
    have hlast := congrArg List.getLast? hnames
    rw [hempty,List.getLast?_concat] at hlast
    exact hx.ne_empty (Option.some.inj hlast).symm
  have hspeak := speakable_of_canHold h
  refine ⟨hspeak,?_⟩
  by_contra hlong
  have hstatus : fs.status (join d x) = fs.statusFrom (start d) (l ++ [x]) := by
    rw [status,if_neg hne,if_neg (by simp [hspeak]),hnames,hstart]
  rw [canHold,hstatus] at h
  by_cases hway : fs.statusFrom (start d) l = .directory
  · rw [statusFrom_append _ hway,statusFrom_ordinary hx,found] at h
    by_cases hdir : fs.isDirectory (l.foldl step (start d) ++ [x]) = true
    · rw [if_pos hdir] at h
      cases h
    · rw [if_neg hdir,if_pos (by simpa using hlong)] at h
      cases h
  · rcases statusFrom_stops (m := [x]) (by simp) hway with h' | h'
    · rw [h',Bool.and_eq_true] at h
      exact hway (statusFrom_of_parentText hx hnames (by simpa using h.2))
    · rw [h'] at h
      cases h

section Spoken

/-- The last name of the path is that of a temporary file. -/
def Temporary (path : Path) : Prop := ∃ n : Nat, path.getLast? = some ("new/" ++ toString n)

/-- The names of the path are names as texts have them. -/
def Spoken (path : Path) : Prop := ∀ name ∈ path, name = "/" ∨ '/' ∉ name.toList

theorem Spoken.step {name : String} (h : Spoken above) (hname : '/' ∉ name.toList) :
    Spoken (step above name) := by
  unfold Path.step
  split
  · exact h
  · split
    · unfold back
      split
      · exact h
      · split
        · exact List.forall_mem_append.mpr ⟨h,by simp⟩
        · exact fun name hm => h name (List.dropLast_subset _ hm)
    · exact List.forall_mem_append.mpr ⟨h,by simp [hname]⟩

theorem Spoken.foldl (h : Spoken above) (hl : ∀ name ∈ l, '/' ∉ name.toList) :
    Spoken (l.foldl Path.step above) := by
  induction l generalizing above with
  | nil => exact h
  | cons name rest ih =>
    obtain ⟨hname,hrest⟩ := List.forall_mem_cons.mp hl
    exact ih (h.step hname) hrest

theorem spoken_start (text : String) : Spoken (start text) := by
  unfold start
  split
  · exact fun name hm => .inl (List.mem_singleton.mp hm)
  · exact fun name hm => by cases hm

/-- No text leads to a temporary file. -/
theorem Spoken.not_temporary (h : Spoken above) : ¬Temporary above := by
  rintro ⟨n,hn⟩
  rcases h _ (List.mem_of_getLast? hn) with he | hno
  · have hsize := congrArg String.utf8ByteSize he
    rw [String.utf8ByteSize_append] at hsize
    have hnew : "new/".utf8ByteSize = 4 := by decide
    have hroot : "/".utf8ByteSize = 1 := by decide
    omega
  · exact hno (by simp)

theorem ofText_not_temporary (text : String) : ¬Temporary (ofText text) :=
  ((spoken_start text).foldl fun _ => noSlash_of_mem_names).not_temporary

variable {new : Files}

/-- What texts lead to depends on the directories and on the files that are not temporary. -/
theorem statusFrom_congr (hdirs : ∀ path, new.isDirectory path = fs.isDirectory path)
    (hfiles : ∀ path, ¬Temporary path → new.contents.find? path = fs.contents.find? path)
    (habove : Spoken above) (hl : ∀ name ∈ l, '/' ∉ name.toList) :
    new.statusFrom above l = fs.statusFrom above l := by
  induction l generalizing above with
  | nil => rfl
  | cons name rest ih =>
    obtain ⟨hname,hrest⟩ := List.forall_mem_cons.mp hl
    have hhere := habove.step hname
    rw [statusFrom,statusFrom,hdirs,hfiles _ hhere.not_temporary,ih hhere hrest]

theorem status_congr (hdirs : ∀ path, new.isDirectory path = fs.isDirectory path)
    (hfiles : ∀ path, ¬Temporary path → new.contents.find? path = fs.contents.find? path)
    (text : String) : new.status text = fs.status text := by
  rw [status,status,statusFrom_congr hdirs hfiles (spoken_start text) fun _ => noSlash_of_mem_names]

theorem canHold_congr (hdirs : ∀ path, new.isDirectory path = fs.isDirectory path)
    (hfiles : ∀ path, ¬Temporary path → new.contents.find? path = fs.contents.find? path)
    (text : String) : new.canHold text = fs.canHold text := by
  rw [canHold,canHold,status_congr hdirs hfiles,status_congr hdirs hfiles]

end Spoken

section Growing

/-- What was there is still there; what stands at a path may have changed. -/
structure Grows (old new : Files) : Prop where
  directories : ∀ path, old.isDirectory path = true → new.isDirectory path = true
  contents : ∀ path, ¬Temporary path → (old.contents.find? path).isSome = true →
    (new.contents.find? path).isSome = true

variable {old new next : Files}

theorem Grows.refl (fs : Files) : Grows fs fs := ⟨fun _ h => h,fun _ _ h => h⟩

theorem Grows.trans (h : Grows old new) (h' : Grows new next) : Grows old next where
  directories path hp := h'.directories path (h.directories path hp)
  contents path ht hp := h'.contents path ht (h.contents path ht hp)

theorem Grows.statusFrom (h : Grows old new) (habove : Spoken above)
    (hl : ∀ name ∈ l, '/' ∉ name.toList) :
    (old.statusFrom above l = .directory → new.statusFrom above l = .directory) ∧
      ∀ text, old.statusFrom above l = .file text →
        new.statusFrom above l = .directory ∨ ∃ text', new.statusFrom above l = .file text' := by
  induction l generalizing above with
  | nil => exact ⟨fun _ => rfl,fun _ h => by cases h⟩
  | cons name rest ih =>
    obtain ⟨hname,hrest⟩ := List.forall_mem_cons.mp hl
    have hhere := habove.step hname
    rw [Files.statusFrom,Files.statusFrom]
    by_cases hdir : old.isDirectory (Path.step above name) = true
    · rw [if_pos hdir,if_pos (h.directories _ hdir)]
      exact ih hhere hrest
    rw [if_neg hdir]
    by_cases hlong : tooLong name = true
    · rw [if_pos hlong]
      exact ⟨nofun,nofun⟩
    rw [if_neg hlong]
    cases hold : old.contents.find? (Path.step above name) with
    | none => exact ⟨nofun,nofun⟩
    | some text =>
      by_cases hempty : rest.isEmpty = true
      · obtain rfl := List.isEmpty_iff.mp hempty
        obtain ⟨text',htext'⟩ := Option.isSome_iff_exists.mp
          (h.contents _ hhere.not_temporary (by rw [hold]; rfl))
        refine ⟨nofun,fun _ _ => ?_⟩
        split
        · exact .inl rfl
        · exact .inr ⟨text',by rw [htext']⟩
      · dsimp only
        rw [if_neg hempty]
        exact ⟨nofun,nofun⟩

theorem Grows.status_directory (h : Grows old new) {text : String}
    (hold : old.status text = .directory) : new.status text = .directory := by
  obtain ⟨hne,hspeak,hway⟩ := Files.status_directory hold
  rw [status,if_neg hne,if_neg (by simp [hspeak])]
  exact (h.statusFrom (spoken_start text) fun _ => noSlash_of_mem_names).1 hway

theorem Grows.status_file (h : Grows old new) {text contents : String}
    (hold : old.status text = .file contents) :
    new.status text = .directory ∨ ∃ contents', new.status text = .file contents' := by
  rw [status] at hold ⊢
  split at hold
  · cases hold
  next hne =>
    split at hold
    · cases hold
    next hspeak =>
      rw [if_neg hne,if_neg hspeak]
      exact (h.statusFrom (spoken_start text) fun _ => noSlash_of_mem_names).2 contents hold

/-- What exists goes on to exist. -/
theorem Grows.exists? (h : Grows old new) {text : String} (hold : old.exists? text = true) :
    new.exists? text = true := by
  rw [Files.exists?] at hold ⊢
  cases hs : old.status text with
  | directory => rw [h.status_directory hs]
  | file contents => rcases h.status_file hs with h' | ⟨contents',h'⟩ <;> rw [h']
  | missing =>
    rw [hs] at hold
    cases hold
  | blocked =>
    rw [hs] at hold
    cases hold

end Growing
end Wiring.Files
