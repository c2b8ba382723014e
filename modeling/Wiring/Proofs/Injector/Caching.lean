import Mathlib
import Wiring.Injector.Cache
import Wiring.Proofs.Files.Laying
import Wiring.Proofs.Injector.Keeping

/-!
# What caches give back

A cache keeps the text of an id under an entry, whose name it makes of the name space and the id.
What was saved last under an entry it gives back. Not all names give entries of their own: in
memory they do where name spaces have no opening bracket, in files where all names consist of
letters, digits and hyphens. A cache that tells the names it is used with apart keeps them apart.
-/
namespace Wiring

open Wiring.Path (Ordinary)

namespace Cache

section Names

/-- A name that a file can have as it is. -/
def Plain (name : String) : Prop :=
  name ≠ "" ∧ ∀ c ∈ name.toList, (c.isAlphanum || c == '-') = true

theorem fileName_of_plain {name : String} (h : Plain name) : fileName name = name := by
  obtain ⟨hne,hall⟩ := h
  have hsome : ¬name.toList.isEmpty = true := by simpa using hne
  have hsame : name.toList.map (fun c => if c.isAlphanum || c == '-' then c else '_') =
      name.toList := by
    conv_rhs => rw [← List.map_id name.toList]
    exact List.map_congr_left fun c hc => if_pos (hall c hc)
  rw [fileName,if_neg hsome,hsame,String.ofList_toList]

theorem mem_fileName {name : String} {c : Char} (h : c ∈ (fileName name).toList) :
    (c.isAlphanum || c == '-') = true ∨ c = '_' := by
  unfold fileName at h
  split at h
  · exact .inr (List.mem_singleton.mp h)
  · rw [String.toList_ofList,List.mem_map] at h
    obtain ⟨d,_,rfl⟩ := h
    split
    next hgood => exact .inl hgood
    next => exact .inr rfl

theorem not_mem_fileName (name : String) {c : Char} (hc : (c.isAlphanum || c == '-') = false)
    (hline : c ≠ '_') : c ∉ (fileName name).toList := fun h => by
  rcases mem_fileName h with hgood | he
  · rw [hc] at hgood
    cases hgood
  · exact hline he

theorem fileName_ne_empty (name : String) : fileName name ≠ "" := by
  intro h
  have hempty := congrArg String.toList h
  unfold fileName at hempty
  split at hempty
  next => cases hempty
  next hsome =>
    rw [String.toList_ofList] at hempty
    exact hsome (by simpa using hempty)

theorem fileName_ordinary (name : String) : Ordinary (fileName name) := by
  have hdot : '.' ∉ (fileName name).toList := not_mem_fileName name (by decide) (by decide)
  refine ⟨not_mem_fileName name (by decide) (by decide),?_,fun h => hdot (by rw [h]; decide)⟩
  have hne : fileName name ≠ "." := fun h => hdot (by rw [h]; decide)
  simp [Path.staysPut,fileName_ne_empty,hne]

theorem entryName_ordinary (id : String) : Ordinary (fileName id ++ ".json") :=
  Part.ordinary_append (fileName_ordinary id).noSlash (by decide) (by decide)

theorem ofText_path (dir space id : String) : Path.ofText (path dir space id) =
    Path.ofText dir ++ [fileName space,fileName id ++ ".json"] := by
  rw [path,Path.ofText_join _ (entryName_ordinary id),Path.ofText_join _ (fileName_ordinary space),
    List.append_assoc]
  rfl

theorem fileNames_of_path {dir space id space' id' : String}
    (h : Path.ofText (path dir space id) = Path.ofText (path dir space' id')) :
    fileName space = fileName space' ∧ fileName id = fileName id' := by
  rw [ofText_path,ofText_path] at h
  obtain ⟨hspace,hid⟩ := List.cons_eq_cons.mp (List.append_cancel_left h)
  have hchars := congrArg String.toList (List.singleton_inj.mp hid)
  rw [String.toList_append,String.toList_append] at hchars
  exact ⟨hspace,String.toList_inj.mp (List.append_cancel_right hchars)⟩

/-- What comes before the first mark is the same, and what comes after it. -/
theorem cut_at_mark {α : Type} {mark : α} {xs ys xs' ys' : List α} (hxs : mark ∉ xs)
    (hxs' : mark ∉ xs') (h : xs ++ mark :: ys = xs' ++ mark :: ys') : xs = xs' ∧ ys = ys' := by
  induction xs generalizing xs' with
  | nil =>
    cases xs' with
    | nil => exact ⟨rfl,(List.cons_eq_cons.mp h).2⟩
    | cons x rest => exact absurd ((List.cons_eq_cons.mp h).1 ▸ List.mem_cons_self) hxs'
  | cons x rest ih =>
    cases xs' with
    | nil => exact absurd ((List.cons_eq_cons.mp h).1 ▸ List.mem_cons_self) hxs
    | cons x' rest' =>
      obtain ⟨rfl,hrest⟩ := List.cons_eq_cons.mp h
      obtain ⟨rfl,hys⟩ :=
        ih (fun hm => hxs (.tail _ hm)) (fun hm => hxs' (.tail _ hm)) hrest
      exact ⟨rfl,hys⟩

theorem memoryKey_inj {space id space' id' : String} (hspace : '[' ∉ space.toList)
    (hspace' : '[' ∉ space'.toList) (h : memoryKey space id = memoryKey space' id') :
    space = space' ∧ id = id' := by
  have hchars := congrArg String.toList h
  simp only [memoryKey,String.toList_append,List.append_assoc] at hchars
  obtain ⟨hs,hrest⟩ := cut_at_mark hspace hspace' hchars
  exact ⟨String.toList_inj.mp hs,String.toList_inj.mp (List.append_cancel_right hrest)⟩

end Names

end Cache

namespace Files

variable {fs fs' : Files} {d x text : String}

/-- A file is found as before if nothing has been done to it. -/
theorem status_file_kept (hgrows : Grows fs fs') (hx : Ordinary x)
    (hdirectory : fs'.isDirectory (Path.ofText d ++ [x]) = true →
      fs.isDirectory (Path.ofText d ++ [x]) = true)
    (hkept : fs'.contents.find? (Path.ofText d ++ [x]) = fs.contents.find? (Path.ofText d ++ [x]))
    (h : fs.status (Path.join d x) = .file text) : fs'.status (Path.join d x) = .file text := by
  have hholds : fs.canHold (Path.join d x) = true := by rw [canHold,h]
  have hd := Enters.of_canHold hx hholds
  have hsame : fs'.isDirectory (Path.ofText d ++ [x]) = fs.isDirectory (Path.ofText d ++ [x]) :=
    Bool.eq_iff_iff.mpr ⟨hdirectory,hgrows.directories _⟩
  rw [← h,(hd.grows hgrows).status hx,hd.status hx,found,found,hsame,hkept]

end Files

namespace CacheStore

variable {fs : Files} {names : String → Prop} {space id text : String}

/-- The name of the entry for an id under a name space. -/
def entry : CacheStore → String → String → String
  | memory _, space, id => Cache.memoryKey space id
  | directory dir, space, id => Cache.path dir space id

/-- The entries of different pairs of these names are different. -/
def TellsApart (store : CacheStore) (names : String → Prop) : Prop :=
  ∀ space id space' id', names space → names id → names space' → names id' →
    store.entry space id = store.entry space' id' → (space,id) = (space',id')

theorem memory_tellsApart (entries : Table String String)
    (h : ∀ name, names name → '[' ∉ name.toList) : (memory entries).TellsApart names := by
  intro space id space' id' hspace _ hspace' _ he
  obtain ⟨rfl,rfl⟩ := Cache.memoryKey_inj (h space hspace) (h space' hspace') he
  rfl

example : Cache.memoryKey "a" "x[y" = Cache.memoryKey "a[x" "y" := by decide

theorem directory_tellsApart (dir : String) (h : ∀ name, names name → Cache.Plain name) :
    (directory dir).TellsApart names := by
  intro space id space' id' hspace hid hspace' hid' he
  obtain ⟨hs,hi⟩ := Cache.fileNames_of_path (congrArg Path.ofText he)
  rw [Cache.fileName_of_plain (h space hspace),Cache.fileName_of_plain (h space' hspace')] at hs
  rw [Cache.fileName_of_plain (h id hid),Cache.fileName_of_plain (h id' hid')] at hi
  rw [hs,hi]

example : Cache.fileName "app/a" = Cache.fileName "app_a" := by decide

/-- The directory is there. -/
def Usable (fs : Files) : CacheStore → Prop
  | memory _ => True
  | directory dir => fs.Enters dir

/-- In the entry lies this text, or nothing. -/
def Recalls (fs : Files) (space id : String) : CacheStore → Option String → Prop
  | memory entries, text? => entries.find? (Cache.memoryKey space id) = text?
  | directory dir, some text => fs.status (Cache.path dir space id) = .file text
  | directory dir, none => fs.contents.find? (Path.ofText (Cache.path dir space id)) = none

section Directory

variable {fs' : Files} {dir : String}

theorem recalls_kept {space' : String} (hgrows : Files.Grows fs fs')
    (hdirs : ∀ p, fs'.isDirectory p = true →
      fs.isDirectory p = true ∨ p = Path.ofText dir ++ [Cache.fileName space'])
    (hkept : fs'.contents.find? (Path.ofText (Cache.path dir space id)) =
      fs.contents.find? (Path.ofText (Cache.path dir space id)))
    {text? : Option String} (h : (directory dir).Recalls fs space id text?) :
    (directory dir).Recalls fs' space id text? := by
  cases text? with
  | none => exact hkept.trans h
  | some text =>
    have hname := Cache.entryName_ordinary id
    rw [Cache.path,Path.ofText_join _ hname] at hkept
    refine Files.status_file_kept hgrows hname (fun hp => ?_) hkept h
    refine (hdirs _ hp).resolve_right fun he => ?_
    rw [Path.ofText_join dir (Cache.fileName_ordinary space)] at he
    simpa using congrArg List.length he

/-- A write into an entry leaves the other entries alone. If it fails it leaves them all alone. -/
theorem directory_written (hd : fs.Enters dir) (space id text : String) :
    ∃ answer fs', Files.write (Cache.path dir space id) text fs = (answer,fs') ∧ fs'.Enters dir ∧
      (answer = .ok () → (directory dir).Recalls fs' space id (some text)) ∧
      ∀ space' id' text?, (answer = .ok () →
          Path.ofText (Cache.path dir space' id') ≠ Path.ofText (Cache.path dir space id)) →
        (directory dir).Recalls fs space' id' text? →
        (directory dir).Recalls fs' space' id' text? := by
  have hspace := Cache.fileName_ordinary space
  have hname := Cache.entryName_ordinary id
  have hgrows := Files.write_grows (Cache.path dir space id) text fs
  have hmade : ∀ p, (Files.write (Cache.path dir space id) text fs).2.isDirectory p = true →
      fs.isDirectory p = true ∨ p = Path.ofText dir ++ [Cache.fileName space] := by
    intro p hp
    have hway : (fs.way (Cache.path dir space id)) =
        (fs.makeDirectory (Path.join dir (Cache.fileName space))).2 := by
      rw [Cache.path,Files.way,Path.parentText_join_join hspace hname]
    rcases hd.makeDirectory hspace with hnone | hone
    · rw [← hway,← List.append_nil fs.directories] at hnone
      exact .inl ((Files.isDirectory_of_write hnone hp).resolve_right List.not_mem_nil)
    · rw [← hway] at hone
      exact (Files.isDirectory_of_write hone hp).imp_right List.mem_singleton.mp
  obtain ⟨fs',_,⟨_,⟨path,hrun⟩,hkeeps⟩ | ⟨_,hrun,_,hkeeps⟩⟩ :=
    Files.write_cases (Cache.path dir space id) text fs
  · rw [hrun] at hgrows hmade
    refine ⟨_,fs',hrun,hd.grows hgrows,fun he => ?_,fun space' id' text? _ h => ?_⟩
    · cases he
    · exact recalls_kept hgrows hmade (hkeeps _ (Files.ofText_not_temporary _) not_false) h
  · rw [hrun] at hgrows hmade
    refine ⟨_,fs',hrun,hd.grows hgrows,fun _ => ?_,fun space' id' text? hne h => ?_⟩
    · exact Files.write_status hname hrun
    · exact recalls_kept hgrows hmade (hkeeps _ (Files.ofText_not_temporary _) (hne rfl)) h

end Directory

end CacheStore

namespace Cache

/-- One use of a cache: another name space is set, or a text is saved or fetched. -/
inductive Access where
  | turn (space : String)
  | save (id text : String)
  | fetch (id : String)
  deriving Repr

/-- The name space that is set, and the texts that were saved last under name spaces and ids. -/
structure Notes where
  space : String
  texts : Table (String × String) String := []

namespace Access

def perform (cache : CacheId) : Access → Act Unit
  | turn space => Act.setSpace cache space
  | save id text => Act.store cache id text
  | fetch id => do let _ ← Act.fetch cache id

/-- The names that are used are among these. -/
def Within (names : String → Prop) : Access → Prop
  | turn space => names space
  | save id _ => names id
  | fetch _ => True

/-- A save is noted if it has succeeded. -/
def noted (done : Bool) (n : Notes) : Access → Notes
  | turn space => { n with space }
  | save id text => if done then { n with texts := n.texts.put (n.space,id) text } else n
  | fetch _ => n

/-- A cache is used again and again, whatever comes of each time. -/
def performAll (cache : CacheId) : List Access → World → Notes → World × Notes
  | [], w, n => (w,n)
  | a :: rest, w, n =>
      performAll cache rest (a.perform cache w).2 (a.noted (a.perform cache w).1.toBool n)

end Access

/-- The cache recalls what the notes say. -/
structure Knows (names : String → Prop) (fs : Files) (n : Notes) (c : Cache) : Prop where
  space : c.space = n.space
  named : names n.space
  usable : c.store.Usable fs
  apart : c.store.TellsApart names
  recalls : ∀ space id, names space → names id →
    c.store.Recalls fs space id (n.texts.find? (space,id))

end Cache

/-- The world has this cache, which recalls what the notes say. -/
def World.Knows (names : String → Prop) (cache : CacheId) (n : Cache.Notes) (w : World) : Prop :=
  ∃ c, w.caches[cache.index]? = some c ∧ c.Knows names w.site.files n

namespace Cache

variable {names : String → Prop} {cache : CacheId} {n : Notes} {w : World} {c : Cache}

theorem cache_run (hc : w.caches[cache.index]? = some c) : Act.cache cache w = (.ok c,w) := by
  show (Except.ok (w.caches.getD cache.index ⟨"",.memory []⟩),w) = _
  rw [Array.getD_eq_getD_getElem?,hc]
  rfl

theorem getElem?_modifyCache (hc : w.caches[cache.index]? = some c) (f : Cache → Cache) :
    (Act.modifyCache cache f w).2.caches[cache.index]? = some (f c) := by
  show (w.caches.modify cache.index f)[cache.index]? = _
  rw [Array.getElem?_modify,if_pos rfl,hc]
  rfl

theorem turn_knows (h : w.Knows names cache n) {space : String} (hspace : names space) :
    (Act.setSpace cache space w).2.Knows names cache { n with space } := by
  obtain ⟨c,hc,hknown⟩ := h
  exact ⟨{ c with space },getElem?_modifyCache hc _,
    rfl,hspace,hknown.usable,hknown.apart,hknown.recalls⟩

section Saving

variable {id : String}

/-- The notes of other entries are about other entries. -/
theorem Knows.other {fs : Files} (h : c.Knows names fs n) (hid : names id) {space' id' : String}
    (hspace' : names space') (hid' : names id') (hne : (space',id') ≠ (n.space,id)) :
    c.store.entry space' id' ≠ c.store.entry n.space id :=
  fun he => hne (h.apart _ _ _ _ hspace' hid' h.named hid he)

theorem Knows.saved_memory {fs : Files} {entries : Table String String}
    (h : Knows names fs n ⟨n.space,.memory entries⟩) (hid : names id) (text : String) :
    Knows names fs { n with texts := n.texts.put (n.space,id) text }
      ⟨n.space,.memory (entries.put (memoryKey n.space id) text)⟩ := by
  refine ⟨rfl,h.named,trivial,h.apart,fun space' id' hspace' hid' => ?_⟩
  show Table.find? (entries.put (memoryKey n.space id) text) (memoryKey space' id') =
    Table.find? (n.texts.put (n.space,id) text) (space',id')
  by_cases hsame : (space',id') = (n.space,id)
  · obtain ⟨rfl,rfl⟩ := Prod.mk.inj hsame
    rw [Table.find?_put_self,Table.find?_put_self]
  · have hentry : memoryKey space' id' ≠ memoryKey n.space id := h.other hid hspace' hid' hsame
    rw [Table.find?_put_of_ne _ _ hsame,Table.find?_put_of_ne _ _ hentry]
    exact h.recalls space' id' hspace' hid'

theorem Knows.saved_directory {fs : Files} {dir : String}
    (h : Knows names fs n ⟨n.space,.directory dir⟩) (hid : names id) (text : String) :
    ∃ answer fs', Files.write (path dir n.space id) text fs = (answer,fs') ∧
      Knows names fs' ((Access.save id text).noted answer.toBool n) ⟨n.space,.directory dir⟩ := by
  obtain ⟨answer,fs',hwrite,hdir,hdone,hkept⟩ :=
    CacheStore.directory_written h.usable n.space id text
  refine ⟨answer,fs',hwrite,?_⟩
  cases answer with
  | error f =>
    exact ⟨rfl,h.named,hdir,h.apart,fun space' id' hspace' hid' =>
      hkept _ _ _ nofun (h.recalls space' id' hspace' hid')⟩
  | ok _ =>
    refine ⟨rfl,h.named,hdir,h.apart,fun space' id' hspace' hid' => ?_⟩
    show (CacheStore.directory dir).Recalls fs' space' id'
      (Table.find? (n.texts.put (n.space,id) text) (space',id'))
    by_cases hsame : (space',id') = (n.space,id)
    · obtain ⟨rfl,rfl⟩ := Prod.mk.inj hsame
      rw [Table.find?_put_self]
      exact hdone rfl
    · have hentry : path dir space' id' ≠ path dir n.space id := h.other hid hspace' hid' hsame
      rw [Table.find?_put_of_ne _ _ hsame]
      refine hkept _ _ _ (fun _ he => hentry ?_) (h.recalls space' id' hspace' hid')
      obtain ⟨hs,hi⟩ := fileNames_of_path he
      rw [path,path,hs,hi]

theorem save_knows (h : w.Knows names cache n) (hid : names id) (text : String) :
    (Act.store cache id text w).2.Knows names cache
      ((Access.save id text).noted (Act.store cache id text w).1.toBool n) := by
  obtain ⟨⟨space,store⟩,hc,hknown⟩ := h
  obtain rfl : space = n.space := hknown.space
  cases store with
  | memory entries =>
    have hrun : Act.store cache id text w = Act.modifyCache cache
        ({ · with store := .memory (entries.put (memoryKey n.space id) text) }) w := by
      rw [Act.store,Work.run_bind (cache_run hc)]
    rw [hrun]
    exact ⟨_,getElem?_modifyCache hc _,hknown.saved_memory hid text⟩
  | directory dir =>
    obtain ⟨answer,fs',hwrite,hsaved⟩ := hknown.saved_directory hid text
    have hrun : Act.store cache id text w = (answer,w.withFiles fs') := by
      rw [Act.store,Work.run_bind (cache_run hc)]
      dsimp only
      rw [Act.onSite_onFiles,hwrite]
    rw [hrun]
    exact ⟨_,hc,hsaved⟩

end Saving

section Fetching

variable {id : String}

theorem readIfPresent_files (text : String) (fs : Files) :
    (Files.readIfPresent text fs).2 = fs := by
  have hget : (get : FileWork Files) fs = (.ok fs,fs) := rfl
  rw [Files.readIfPresent,Work.run_bind hget]
  cases fs.status text <;> rfl

/-- To fetch changes nothing. -/
theorem fetch_world (h : w.Knows names cache n) (id : String) : (Act.fetch cache id w).2 = w := by
  obtain ⟨⟨space,store⟩,hc,_⟩ := h
  rw [Act.fetch,Work.run_bind (cache_run hc)]
  cases store with
  | memory entries => rfl
  | directory dir =>
    dsimp only
    rw [Act.onSite_onFiles,readIfPresent_files]
    rfl

/-- What was saved last is fetched. -/
theorem fetch_noted (h : w.Knows names cache n) (hid : names id) {text : String}
    (hnoted : n.texts.find? (n.space,id) = some text) :
    (Act.fetch cache id w).1 = .ok (some text) := by
  obtain ⟨⟨space,store⟩,hc,hknown⟩ := h
  obtain rfl : space = n.space := hknown.space
  have hrecalled := hknown.recalls n.space id hknown.named hid
  rw [hnoted] at hrecalled
  rw [Act.fetch,Work.run_bind (cache_run hc)]
  cases store with
  | memory entries => exact congrArg Except.ok hrecalled
  | directory dir =>
    have hfile : w.site.files.status (path dir n.space id) = .file text := hrecalled
    have hget : (get : FileWork Files) w.site.files = (.ok w.site.files,w.site.files) := rfl
    dsimp only
    rw [Act.onSite_onFiles,Files.readIfPresent,Work.run_bind hget,hfile]
    rfl

/-- Where nothing was saved, nothing is fetched. -/
theorem fetch_unnoted (h : w.Knows names cache n) (hid : names id)
    (hnoted : n.texts.find? (n.space,id) = none) (text : String) :
    (Act.fetch cache id w).1 ≠ .ok (some text) := by
  obtain ⟨⟨space,store⟩,hc,hknown⟩ := h
  obtain rfl : space = n.space := hknown.space
  have hrecalled := hknown.recalls n.space id hknown.named hid
  rw [hnoted] at hrecalled
  rw [Act.fetch,Work.run_bind (cache_run hc)]
  cases store with
  | memory entries =>
    have hnone : (pure (entries.find? (memoryKey n.space id)) : Act (Option String)) w =
        (.ok none,w) := congrArg (fun o => (Except.ok o,w)) hrecalled
    dsimp only
    rw [hnone]
    exact nofun
  | directory dir =>
    have hnone : w.site.files.contents.find? (Path.ofText (path dir n.space id)) = none := hrecalled
    have hget : (get : FileWork Files) w.site.files = (.ok w.site.files,w.site.files) := rfl
    dsimp only
    rw [Act.onSite_onFiles,Files.readIfPresent,Work.run_bind hget]
    cases hstatus : w.site.files.status (path dir n.space id) with
    | file text =>
      rw [Files.find?_of_status hstatus] at hnone
      cases hnone
    | missing => exact nofun
    | directory => exact nofun
    | blocked => exact nofun

end Fetching

section Using

theorem perform_knows (h : w.Knows names cache n) {a : Access} (ha : a.Within names) :
    (a.perform cache w).2.Knows names cache (a.noted (a.perform cache w).1.toBool n) := by
  cases a with
  | turn space => exact turn_knows h ha
  | save id text => exact save_knows h ha text
  | fetch id =>
    have hsame : ((Access.fetch id).perform cache w).2 = w := by
      have hworld := fetch_world h id
      cases hrun : Act.fetch cache id w with
      | mk answer next =>
        rw [hrun] at hworld
        obtain rfl : next = w := hworld
        cases answer with
        | ok text => rw [Access.perform,Work.run_bind hrun]; rfl
        | error f => rw [Access.perform,Work.run_bind_error _ hrun]
    rw [hsame]
    exact h

/-- However a cache is used, it goes on to recall what the notes say. -/
theorem performAll_knows (h : w.Knows names cache n) (accesses : List Access)
    (hwithin : ∀ a ∈ accesses, a.Within names) :
    (Access.performAll cache accesses w n).1.Knows names cache
      (Access.performAll cache accesses w n).2 := by
  induction accesses generalizing w n with
  | nil => exact h
  | cons a rest ih =>
    obtain ⟨ha,hrest⟩ := List.forall_mem_cons.mp hwithin
    exact ih (perform_knows h ha) hrest

theorem new_memory_knows {space : String} (hc : w.caches[cache.index]? = some ⟨space,.memory []⟩)
    (hspace : names space) (hnames : ∀ name, names name → '[' ∉ name.toList) :
    w.Knows names cache ⟨space,[]⟩ :=
  ⟨_,hc,rfl,hspace,trivial,CacheStore.memory_tellsApart [] hnames,fun _ _ _ _ => rfl⟩

theorem empty_directory_knows {space dir : String}
    (hc : w.caches[cache.index]? = some ⟨space,.directory dir⟩) (hspace : names space)
    (hnames : ∀ name, names name → Plain name) (hdir : w.site.files.Enters dir)
    (hempty : ∀ a b, w.site.files.contents.find? (Path.ofText dir ++ [a,b]) = none) :
    w.Knows names cache ⟨space,[]⟩ := by
  refine ⟨_,hc,rfl,hspace,hdir,CacheStore.directory_tellsApart dir hnames,fun _ _ _ _ => ?_⟩
  show w.site.files.contents.find? (Path.ofText (path dir _ _)) = none
  rw [ofText_path]
  exact hempty _ _

/-- A cache that tells the names apart gives back, under each of them, what was saved last under the
name space that is set and the same id, and nothing else. -/
theorem caches_keep_names_apart (h : w.Knows names cache n) (accesses : List Access)
    (hwithin : ∀ a ∈ accesses, a.Within names) (id : String) (hid : names id) :
    let (now,notes) := Access.performAll cache accesses w n
    (∀ text, notes.texts.find? (notes.space,id) = some text →
        Act.fetch cache id now = (.ok (some text),now)) ∧
      (notes.texts.find? (notes.space,id) = none → ∀ text,
        (Act.fetch cache id now).1 ≠ .ok (some text)) := by
  have hnow := performAll_knows h accesses hwithin
  refine ⟨fun text hnoted => ?_,fun hnoted => fetch_unnoted hnow hid hnoted⟩
  exact Prod.ext (fetch_noted hnow hid hnoted) (fetch_world hnow id)

end Using

end Cache
end Wiring
