import Mathlib
import Wiring.Proofs.Compile.Filed

/-!
# What the log tells of a whole compile

Keys are visited in their order, and the log has a line of each before anything else is done for
it. The compile ends at the first key whose binding does not compile or whose unit cannot be saved.
Of the former the log tells with the failure, of the latter it has the line of the visit alone.
Either way the units of the keys before are there, and at most the files of keys that were visited
have changed.
-/
namespace Wiring

namespace Files

open Wiring.Path

variable {fs : Files} {d x text : String}

/-- What a file holds, nothing if there is none. -/
def held (fs : Files) (text : String) : String :=
  match fs.status text with
  | .file contents => contents
  | _ => ""

theorem append_refused (h : fs.canHold text = false) (contents : String) :
    append text contents fs = (.error (.unreadable text),fs) := by
  have hget : (get : FileWork Files) fs = (.ok fs,fs) := rfl
  unfold append
  rw [Work.run_bind hget,if_neg (by simp [h])]
  rfl

/-- Where there is a place for a file, contents come after what it holds. -/
theorem append_status (hx : Ordinary x) (h : fs.canHold (join d x) = true) (contents : String) :
    ∃ fs', append (join d x) contents fs = (.ok (),fs') ∧
      fs'.status (join d x) = .file (fs.held (join d x) ++ contents) := by
  have hd := Enters.of_canHold hx h
  obtain ⟨hspeak,hshort⟩ := name_of_canHold hx h
  have hfree : fs.isDirectory (ofText d ++ [x]) = false := by
    by_contra hno
    rw [canHold,hd.status hx,if_neg (by simp [hspeak]),found,if_pos (by simpa using hno)] at h
    cases h
  have hheld : fs.held (join d x) = (fs.contents.find? (ofText (join d x))).getD "" := by
    unfold held
    rw [hd.status hx,if_neg (by simp [hspeak]),found,if_neg (by simp [hfree]),
      if_neg (by simp [hshort]),ofText_join d hx]
    cases fs.contents.find? (ofText d ++ [x]) <;> rfl
  have hget : (get : FileWork Files) fs = (.ok fs,fs) := rfl
  have hrun : append (join d x) contents fs = (.ok (),{ fs with
      contents := fs.contents.put (ofText (join d x)) (fs.held (join d x) ++ contents) }) := by
    unfold append
    rw [Work.run_bind hget,if_pos h,hheld]
    rfl
  have hgrows := (append_grows (join d x) contents fs).1
  rw [hrun] at hgrows
  have hfree' : isDirectory { fs with
      contents := fs.contents.put (ofText (join d x)) (fs.held (join d x) ++ contents) }
      (ofText d ++ [x]) = false := hfree
  refine ⟨_,hrun,?_⟩
  rw [(hd.grows hgrows).status hx,if_neg (by simp [hspeak]),found,hfree',if_neg (by simp),
    if_neg (by simp [hshort]),← ofText_join d hx,Table.find?_put_self]
  rfl

end Files

open Files (Laid Enters Keeps)

/-- A file of the key: its unit, its scope, or that of a qualifier in its binding. -/
def Part.BelongsTo (g : Graph) (key : Key) (part : Part) : Prop :=
  part = .unit key ∨ part = .scope key ∨
    ∃ b q, g.get? key = some b ∧ Compile.QualifierOf b.allArguments q ∧ part = .qualifier q.1

namespace Part.BelongsTo

variable {g : Graph} {key other : Key} {part file : Part}

theorem slashless (hg : g.FiledApart) (hkey : g.has key = true) (h : part.BelongsTo g key) :
    part.Slashless := by
  rcases h with rfl | rfl | ⟨b,q,hb,hq,rfl⟩
  · exact Compile.slashless_unit hg hkey
  · exact Compile.slashless_scope hg hkey
  · exact hg.qualifiers q (Container.mem_qualifiers hb hq)

/-- The unit and the scope of a key lie where no file of another key lies. -/
theorem key_eq (hg : g.FiledApart) (hkey : g.has key = true) (h : part.BelongsTo g key)
    (hother : g.has other = true) (hfile : file = .unit other ∨ file = .scope other) {dir : String}
    (hpath : Path.ofText (file.path dir) = Path.ofText (part.path dir)) : other = key := by
  have hslashless := h.slashless hg hkey
  have hbound : file.Bound g := ⟨other,hother,hfile⟩
  rcases h with rfl | rfl | ⟨b,q,hb,hq,rfl⟩
  · obtain rfl := hbound.eq_of_path hg (.inl ⟨key,hkey,.inl rfl⟩) hpath
    simpa [eq_comm] using hfile
  · obtain rfl := hbound.eq_of_path hg (.inl ⟨key,hkey,.inr rfl⟩) hpath
    simpa [eq_comm] using hfile
  · obtain rfl := hbound.eq_of_path hg (.inr ⟨q.1,rfl,hslashless⟩) hpath
    simp at hfile

end Part.BelongsTo

theorem Save.unit_heap (dir : String) (key : Key) (code : Code) (site : Site) :
    (unit dir key code site).2.heap = site.heap := by
  have hqualifiers : (code.qualifiers.forM (qualifier dir)).Maintains (·.heap = site.heap)
      fun _ => True := qualifiers_maintains fun _ _ _ => onFiles_heap _
  have hbesides : (besides dir key code).Maintains (·.heap = site.heap) fun _ => True :=
    (onFiles_heap _).bind fun _ _ => hqualifiers
  rw [unit_eq]
  exact (((onFiles_heap _).bind fun _ _ => hbesides) site rfl).1

namespace Batch

open Work

variable {b : Batch} {start site fin : Site} {done changed : List Key} {key : Key} {text : String}

/-- The line of the log for a key that is visited. -/
def visitLine (key : Key) : String := "Compiled: " ++ key.text ++ "\n"

/-- The lines for keys that are visited one after another. -/
def visitLines : List Key → String
  | [] => ""
  | key :: rest => visitLine key ++ visitLines rest

/-- What the log tells of a key whose binding does not compile. -/
def refusal (key : Key) (f : Failure) : String :=
  "\nError: " ++ key.text ++ "\nUnbound: " ++ f.message ++ "\n"

theorem has_of_mem_sortedKeys {g : Graph} (h : key ∈ g.sortedKeys) : g.has key = true := by
  rw [Container.sortedKeys,List.mem_mergeSort] at h
  exact Table.has_of_mem_keys h

theorem nodup_sortedKeys {g : Graph} (h : g.bindings.keys.Nodup) : g.sortedKeys.Nodup :=
  (List.mergeSort_perm g.bindings.keys Key.before).nodup_iff.mpr h

theorem visitLines_concat (keys : List Key) (key : Key) :
    visitLines (keys ++ [key]) = visitLines keys ++ visitLine key := by
  induction keys with
  | nil => simp [visitLines]
  | cons first rest ih => rw [List.cons_append,visitLines,visitLines,ih,String.append_assoc]

/-- The path is that of the log or of a file of one of the keys. -/
def Touched (b : Batch) (keys : List Key) (path : Path) : Prop :=
  path = Path.ofText (Layout.logPath b.dir) ∨ ∃ key ∈ keys, ∃ part : Part,
    part.BelongsTo b.graph key ∧ path = Path.ofText (part.path b.dir)

/-- Since the start the log has been continued by the text, the units and scopes of the keys that
are done have been saved, and at most files of the changed keys have changed besides. -/
structure Visited (b : Batch) (start : Site) (done changed : List Key) (text : String)
    (site : Site) : Prop where
  heap : site.heap = start.heap
  log : site.files.status (Layout.logPath b.dir) =
    .file (start.files.held (Layout.logPath b.dir) ++ text)
  told : ∀ key ∈ done, b.graph.has key = true → Told b.dir b.graph start.heap site.files key
  laid : Laid b.dir (b.Touched changed) start.files site.files

/-- A log with a place in the directory takes what is noted, and no other file changes. -/
theorem log_noted (h : site.files.canHold (Layout.logPath b.dir) = true) (text : String) :
    ∃ noted, b.log text site = (.ok (),noted) ∧ noted.heap = site.heap ∧
      noted.files.status (Layout.logPath b.dir) =
        .file (site.files.held (Layout.logPath b.dir) ++ text) ∧
      Laid b.dir (· = Path.ofText (Layout.logPath b.dir)) site.files noted.files := by
  obtain ⟨fs,hrun,hstatus⟩ := Files.append_status logName_ordinary h text
  have hlaid := Laid.append (d := b.dir) (Layout.logPath b.dir) text site.files
  rw [← Layout.logPath] at hrun hstatus
  rw [hrun] at hlaid
  refine ⟨{ site with files := fs },?_,rfl,hstatus,hlaid⟩
  rw [log,onFiles_run,hrun]

theorem Touched.mono {more : List Key} {path : Path} (h : b.Touched changed path)
    (hsub : changed ⊆ more) : b.Touched more path :=
  h.imp_right fun ⟨key,hkey,hpart⟩ => ⟨key,hsub hkey,hpart⟩

theorem Told.keeps {dir : String} {g : Graph} {h : Heap} {old new : Files} {p : Path → Prop}
    (hold : Told dir g h old key) (hkeeps : Keeps old.contents new.contents p)
    (hnot : ∀ part : Part, part = .unit key ∨ part = .scope key →
      ¬p (Path.ofText (part.path dir))) : Told dir g h new key := by
  intro part hpart
  obtain ⟨text,hfind,hdescribes⟩ := hold part hpart
  refine ⟨text,?_,hdescribes⟩
  rw [hkeeps _ (Files.ofText_not_temporary _) (hnot part hpart)]
  exact hfind

namespace Visited

theorem canHold (h : b.Visited start done changed text site) :
    site.files.canHold (Layout.logPath b.dir) = true := by
  rw [Files.canHold,h.log]

theorem enters (h : b.Visited start done changed text site) : site.files.Enters b.dir :=
  Enters.of_canHold logName_ordinary h.canHold

/-- The heap and the files alone matter. -/
theorem congr (h : b.Visited start done changed text site) (hheap : fin.heap = site.heap)
    (hfiles : fin.files = site.files) : b.Visited start done changed text fin where
  heap := hheap.trans h.heap
  log := hfiles ▸ h.log
  told := hfiles ▸ h.told
  laid := hfiles ▸ h.laid

/-- A log that is opened holds what it held before. -/
theorem opened (h : start.files.canHold (Layout.logPath b.dir) = true) :
    ∃ noted, b.log "" start = (.ok (),noted) ∧ b.Visited start [] [] "" noted := by
  obtain ⟨noted,hrun,hheap,hstatus,hlaid⟩ := log_noted h ""
  exact ⟨noted,hrun,hheap,hstatus,nofun,hlaid.imp fun _ => .inl⟩

/-- What is noted in the log comes after what it holds, and changes no other file. -/
theorem note (hg : b.graph.FiledApart) (h : b.Visited start done changed text site)
    (more : String) : ∃ noted, b.log more site = (.ok (),noted) ∧
      b.Visited start done changed (text ++ more) noted := by
  obtain ⟨noted,hrun,hheap,hstatus,hlaid⟩ := log_noted h.canHold more
  have hheld : site.files.held (Layout.logPath b.dir) =
      start.files.held (Layout.logPath b.dir) ++ text := by
    rw [Files.held,h.log]
  rw [hheld,String.append_assoc] at hstatus
  refine ⟨noted,hrun,hheap.trans h.heap,hstatus,?_,h.laid.trans (hlaid.imp fun _ => .inl)⟩
  intro key hkey hhas
  apply (h.told key hkey hhas).keeps hlaid.keeps
  intro part hpart hpath
  exact path_ne logName_ordinary (by decide) (Part.Bound.slashless hg ⟨key,hhas,hpart⟩) hpath.symm

/-- Whether it succeeds or not, saving the unit of a key changes files of this key alone. -/
theorem save (hg : b.graph.FiledApart) {binding : Binding Value} {code : Code} {before after : Site}
    (hb : b.graph.get? key = some binding)
    (hunit : Compile.unitOf b.graph none binding before = (.ok code,after)) (hnew : key ∉ done)
    (h : b.Visited start done changed text site) :
    b.Visited start done (changed ++ [key]) text (Save.unit b.dir key code site).2 := by
  have hkey : b.graph.has key = true := Graph.has_of_get? hb
  have hqualifiers := Compile.unitOf_qualifiers binding before code after hunit
  have hbelongs : ∀ part ∈ code.parts key, part.BelongsTo b.graph key := by
    intro part hpart
    simp only [Code.parts,List.mem_cons,List.mem_map] at hpart
    rcases hpart with rfl | rfl | ⟨q,hq,rfl⟩
    · exact .inl rfl
    · exact .inr (.inl rfl)
    · exact .inr (.inr ⟨binding,q,hb,hqualifiers q hq,rfl⟩)
  have hlaid := Save.unit_lays h.enters fun part hpart => (hbelongs part hpart).slashless hg hkey
  have hlog : ¬Save.Own b.dir key code (Path.ofText (Layout.logPath b.dir)) := by
    rintro ⟨part,hpart,hpath⟩
    exact path_ne logName_ordinary (by decide) ((hbelongs part hpart).slashless hg hkey) hpath
  constructor
  · exact (Save.unit_heap b.dir key code site).trans h.heap
  · rw [← h.log]
    exact hlaid.status h.enters logName_ordinary (by decide) hlog
  · intro other hother hhas
    apply (h.told other hother hhas).keeps hlaid.keeps
    rintro file hfile ⟨part,hpart,hpath⟩
    exact hnew ((hbelongs part hpart).key_eq hg hkey hhas hfile hpath ▸ hother)
  · have hbefore := h.laid.imp fun path hpath => hpath.mono (List.subset_append_left changed [key])
    refine hbefore.trans (hlaid.imp ?_)
    rintro path ⟨part,hpart,hpath⟩
    exact .inr ⟨key,List.mem_append_right _ (List.mem_singleton_self key),part,hbelongs part hpart,
      hpath⟩

/-- A unit that has been saved is there with its scope. -/
theorem saved (hg : b.graph.FiledApart) {binding : Binding Value} {code : Code}
    {before after : Site} (hb : b.graph.get? key = some binding) (hheap : before.heap = start.heap)
    (hunit : Compile.unitOf b.graph none binding before = (.ok code,after)) (hnew : key ∉ done)
    (hrun : Save.unit b.dir key code site = (.ok (),fin))
    (h : b.Visited start done changed text site) :
    b.Visited start (done ++ [key]) (changed ++ [key]) text fin := by
  have hsave := h.save hg hb hunit hnew
  rw [hrun] at hsave
  obtain ⟨-,htold⟩ := Filed.saveUnit hg h.enters hb hheap hunit hrun
  refine ⟨hsave.heap,hsave.log,fun other hother hhas => ?_,hsave.laid⟩
  rcases List.mem_append.mp hother with hdone | hlast
  · exact hsave.told other hdone hhas
  · rw [List.mem_singleton.mp hlast]
    exact htold

/-- Units and scopes of keys that were not visited are as they were. -/
theorem untouched (hg : b.graph.FiledApart) (h : b.Visited start done changed text site)
    (hchanged : ∀ other ∈ changed, b.graph.has other = true) (hkey : b.graph.has key = true)
    (hnot : key ∉ changed) {part : Part} (hpart : part = .unit key ∨ part = .scope key) :
    site.files.contents.find? (Path.ofText (part.path b.dir)) =
      start.files.contents.find? (Path.ofText (part.path b.dir)) := by
  apply h.laid.keeps _ (Files.ofText_not_temporary _)
  rintro (hpath | ⟨other,hother,file,hfile,hpath⟩)
  · exact path_ne logName_ordinary (by decide) (Part.Bound.slashless hg ⟨key,hkey,hpart⟩) hpath.symm
  · exact hnot (hfile.key_eq hg (hchanged other hother) hkey hpart hpath ▸ hother)

/-- Where the visits stop at a key, those before it are told of and those after it untouched. -/
theorem stopped (hg : b.graph.FiledApart) {rest : List Key} (hn : (done ++ key :: rest).Nodup)
    (hbound : ∀ other ∈ done ++ key :: rest, b.graph.has other = true)
    (hchanged : changed ⊆ done ++ [key]) (h : b.Visited start done changed text site) :
    (∀ other ∈ done, Told b.dir b.graph start.heap site.files other) ∧
      ∀ other ∈ rest, ∀ part : Part, part = .unit other ∨ part = .scope other →
        site.files.contents.find? (Path.ofText (part.path b.dir)) =
          start.files.contents.find? (Path.ofText (part.path b.dir)) := by
  rw [List.append_cons] at hn hbound
  have happart := (List.nodup_append.mp hn).2.2
  constructor
  · exact fun other hother => h.told other hother (hbound other (by simp [hother]))
  · intro other hother part hpart
    have hvisited : ∀ visited ∈ changed, b.graph.has visited = true := fun visited hmem =>
      hbound visited (List.mem_append_left _ (hchanged hmem))
    apply h.untouched hg hvisited (hbound other (List.mem_append_right _ hother)) ?_ hpart
    exact fun hmem => happart other (hchanged hmem) other hother rfl

end Visited

/-- The binding of the key does not compile where the heap is the given one. -/
def Refuses (b : Batch) (h : Heap) (key : Key) (f : Failure) : Prop :=
  ∃ binding site, b.graph.get? key = some binding ∧ site.heap = h ∧
    (Compile.unitOf b.graph none binding site).1 = .error f

/-- The binding of the key compiles, but what it compiles to cannot be saved. -/
def Loses (b : Batch) (h : Heap) (key : Key) (f : Failure) (fin : Site) : Prop :=
  ∃ binding code site after, b.graph.get? key = some binding ∧ site.heap = h ∧
    Compile.unitOf b.graph none binding site = (.ok code,after) ∧
    Save.unit b.dir key code after = (.error f,fin)

/-- How the compile of keys ends that starts with them: with all of them, or with the first of which
the binding does not compile or the unit cannot be saved. -/
inductive Ended (b : Batch) (start : Site) (keys : List Key) (fin : Site) :
    Except Failure Unit → Prop where
  | whole (h : b.Visited start keys keys (visitLines keys) fin) : Ended b start keys fin (.ok ())
  | refused {done rest : List Key} {key : Key} {f : Failure} (hkeys : keys = done ++ key :: rest)
      (hrefuses : b.Refuses start.heap key f)
      (h : b.Visited start done done (visitLines (done ++ [key]) ++ refusal key f) fin) :
      Ended b start keys fin (.error f)
  | unsaved {done rest : List Key} {key : Key} {f : Failure} (hkeys : keys = done ++ key :: rest)
      (hloses : b.Loses start.heap key f fin)
      (h : b.Visited start done (done ++ [key]) (visitLines (done ++ [key])) fin) :
      Ended b start keys fin (.error f)

/-- The induction is on the keys that are left, with what the visits so far have come to. -/
theorem compileKeys_ends (hg : b.graph.FiledApart) {keys : List Key} (hn : (done ++ keys).Nodup)
    (hbound : ∀ key ∈ keys, b.graph.has key = true)
    (h : b.Visited start done done (visitLines done) site) :
    b.Ended start (done ++ keys) (b.compileKeys keys site).2 (b.compileKeys keys site).1 := by
  induction keys generalizing done site with
  | nil =>
    rw [List.append_nil]
    exact .whole h
  | cons key rest ih =>
    obtain ⟨hkey,hrest⟩ := List.forall_mem_cons.mp hbound
    obtain ⟨binding,hb⟩ := Graph.get?_of_has hkey
    have hnew : key ∉ done := fun hdone =>
      (List.nodup_append.mp hn).2.2 key hdone key List.mem_cons_self rfl
    obtain ⟨noted,hnote,hnoted⟩ := h.note hg (visitLine key)
    rw [← visitLines_concat] at hnoted
    have hcompiled : b.Visited start done done (visitLines (done ++ [key]))
        (Compile.unitOf b.graph none binding noted).2 :=
      hnoted.congr (Compile.unitOf_heap b.graph binding noted)
        (Compile.unitOf_files b.graph binding noted)
    have hstep : b.compileKeys (key :: rest) site =
        (b.compileKey key binding >>= fun _ => b.compileKeys rest) noted := by
      rw [compileKeys,hb]
      exact run_bind hnote
    have hattempt := attempt_run (Compile.unitOf b.graph none binding) noted
    rw [hstep]
    cases hunit : Compile.unitOf b.graph none binding noted with
    | mk answer after =>
      rw [hunit] at hattempt hcompiled
      cases answer with
      | error f =>
        obtain ⟨last,hrefuse,hlast⟩ := hcompiled.note hg (refusal key f)
        have hrun : b.compileKey key binding noted = (.error f,last) := by
          rw [compileKey,run_bind hattempt]
          exact run_bind hrefuse
        rw [run_bind_error _ hrun]
        exact .refused rfl ⟨binding,noted,hb,hnoted.heap,congrArg Prod.fst hunit⟩ hlast
      | ok code =>
        have hrun : b.compileKey key binding noted = Save.unit b.dir key code after := by
          rw [compileKey,run_bind hattempt]
        cases hsave : Save.unit b.dir key code after with
        | mk outcome last =>
          rw [hsave] at hrun
          cases outcome with
          | error f =>
            have hlast := hcompiled.save hg hb hunit hnew
            rw [hsave] at hlast
            rw [run_bind_error _ hrun]
            exact .unsaved rfl ⟨binding,code,noted,after,hb,hnoted.heap,hunit,hsave⟩ hlast
          | ok _ =>
            have hlast := hcompiled.saved hg hb hnoted.heap hunit hnew hsave
            have hleft : (done ++ [key] ++ rest).Nodup := by simpa using hn
            have hends := ih hleft hrest hlast
            rw [run_bind hrun]
            simpa using hends

/-- A whole compile that cannot open the log does nothing. Otherwise it visits the keys in their
order, and ends with all of them or with the first one that is refused or not saved. -/
theorem compileUnits_ends (hg : b.graph.FiledApart) (hn : b.graph.bindings.keys.Nodup)
    (start : Site) : if start.files.canHold (Layout.logPath b.dir) = true then
      b.Ended start b.graph.sortedKeys (b.compileUnits start).2 (b.compileUnits start).1
    else b.compileUnits start = (.error (.unreadable (Layout.logPath b.dir)),start) := by
  split
  next hopen =>
    obtain ⟨noted,hlog,hnoted⟩ := Visited.opened hopen
    have hends := compileKeys_ends hg (nodup_sortedKeys hn) (fun _ => has_of_mem_sortedKeys) hnoted
    rw [compileUnits,run_bind hlog]
    exact hends
  next hshut =>
    have hrefused : Files.append (Layout.logPath b.dir) "" start.files =
        (.error (.unreadable (Layout.logPath b.dir)),start.files) :=
      Files.append_refused (by simpa using hshut) ""
    have hlog : b.log "" start = (.error (.unreadable (Layout.logPath b.dir)),start) := by
      rw [log,onFiles_run,hrefused]
    rw [compileUnits,run_bind_error _ hlog]

/-- A compile that fails stops at a key: the units and scopes of the keys before it are there, those
of the keys after it are as they were, and the log ends with the visit of the key or, just if its
binding does not compile, with the failure. -/
theorem compileUnits_stops (hg : b.graph.FiledApart) (hn : b.graph.bindings.keys.Nodup)
    (hopen : start.files.canHold (Layout.logPath b.dir) = true) {f : Failure}
    (hrun : b.compileUnits start = (.error f,fin)) : ∃ done key rest record,
      b.graph.sortedKeys = done ++ key :: rest ∧
      (record = refusal key f ∧ b.Refuses start.heap key f ∨
        record = "" ∧ b.Loses start.heap key f fin) ∧
      fin.files.status (Layout.logPath b.dir) =
        .file (start.files.held (Layout.logPath b.dir) ++ (visitLines (done ++ [key]) ++ record)) ∧
      (∀ other ∈ done, Told b.dir b.graph start.heap fin.files other) ∧
      ∀ other ∈ rest, ∀ part : Part, part = .unit other ∨ part = .scope other →
        fin.files.contents.find? (Path.ofText (part.path b.dir)) =
          start.files.contents.find? (Path.ofText (part.path b.dir)) := by
  have hends := compileUnits_ends hg hn start
  rw [if_pos hopen,hrun] at hends
  have hbound : ∀ key ∈ b.graph.sortedKeys, b.graph.has key = true := fun _ => has_of_mem_sortedKeys
  have hnodup := nodup_sortedKeys hn
  cases hends with
  | @refused done rest key f hkeys hrefuses h =>
    rw [hkeys] at hbound hnodup
    exact ⟨done,key,rest,refusal key f,hkeys,.inl ⟨rfl,hrefuses⟩,h.log,
      h.stopped hg hnodup hbound (List.subset_append_left done [key])⟩
  | @unsaved done rest key f hkeys hloses h =>
    rw [hkeys] at hbound hnodup
    refine ⟨done,key,rest,"",hkeys,.inr ⟨rfl,hloses⟩,?_,
      h.stopped hg hnodup hbound (List.Subset.refl _)⟩
    rw [String.append_empty]
    exact h.log

/-- A directory lies where the unit of a car is to be saved, so the log calls it compiled. -/
example :
    let graph : Graph :=
      { bindings := [(.any "Car",.construction ⟨"Car",[],[],none,false,[]⟩)]
        pointcuts := []
        maps := [] }
    let run := compileKeys ⟨"s",graph⟩ [.any "Car"]
      { files := { directories := [["s"],["s","Car-*.di"]] } }
    run.1 = .error (.notWritable "s/Car-*.di") ∧
      run.2.files.held (Layout.logPath "s") = "Compiled: Car-*\n" := by
  decide +kernel

end Batch
end Wiring
