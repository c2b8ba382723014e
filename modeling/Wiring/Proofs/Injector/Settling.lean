import Mathlib
import Wiring.Proofs.Compile.Growing
import Wiring.Proofs.Injector.Returning

/-!
# Injectors that have settled

A strict injector compiles nothing where its directory is marked. While all script injectors that
live are strict and find their directories marked, units are only read: an injector does what it
would do if it could not compile at all. No file changes then, no module is built, and a key without
a unit is unbound.
-/
namespace Wiring

variable {fs : Files} {w : World} {α : Type}

/-- A script injector that compiles nothing any more. The units it has read are there. -/
structure ScriptInjector.Settled (fs : Files) (s : ScriptInjector) : Prop where
  strict : s.strict = true
  marked : fs.exists? (Layout.sentinelPath s.dir) = true
  there : ∀ key, (s.units.find? key).isSome = true →
    fs.exists? (Layout.unitPath s.dir key) = true

namespace Injector

/-- A direct injector compiles in memory only. -/
def Settled (fs : Files) : Injector → Prop
  | script s => s.Settled fs
  | direct _ => True

def dir? : Injector → Option String
  | script s => some s.dir
  | direct _ => none

theorem Settled.setPoint {i : Injector} (h : i.Settled fs) (point : Option Parameter) :
    (i.setPoint point).Settled fs := by
  cases i with
  | script s => exact ⟨h.strict,h.marked,h.there⟩
  | direct d => trivial

theorem Settled.remember {i : Injector} (h : i.Settled fs) (key : Key) (v : Value) :
    (i.remember key v).Settled fs := by
  cases i with
  | script s => exact ⟨h.strict,h.marked,h.there⟩
  | direct d => trivial

theorem Settled.grows {i : Injector} {fs' : Files} (h : i.Settled fs) (hg : Files.Grows fs fs') :
    i.Settled fs' := by
  cases i with
  | script s => exact ⟨h.strict,hg.exists? h.marked,fun key hk => hg.exists? (h.there key hk)⟩
  | direct d => trivial

end Injector

/-- What does not change any more: the files, how often modules have been built, and where an
injector looks for its units. -/
structure Settlement where
  files : Files
  builds : Table String Nat
  id : InjectorId
  dir : String

/-- All that live are settled. -/
structure Settlement.Holds (S : Settlement) (w : World) : Prop where
  files : w.site.files = S.files
  builds : w.builds = S.builds
  injectors : ∀ id i, w.injector? id = some i → i.Settled S.files
  own : (w.injector? S.id).bind Injector.dir? = some S.dir

variable {S : Settlement}

namespace Settlement.Holds

theorem withInjector (h : S.Holds w) {id : InjectorId} {f : Injector → Injector}
    (hf : ∀ i, w.injector? id = some i → (f i).Settled S.files ∧ (f i).dir? = i.dir?) :
    S.Holds (w.withInjector id f) where
  files := by
    rw [← h.files,World.withInjector]
    cases w.injector? id <;> rfl
  builds := by
    rw [← h.builds,World.withInjector]
    cases w.injector? id <;> rfl
  injectors other i hi := by
    rw [World.injector?_withInjector] at hi
    split at hi
    next =>
      obtain ⟨j,hj,rfl⟩ := Option.map_eq_some_iff.mp hi
      exact (hf j hj).1
    next => exact h.injectors other i hi
  own := by
    rw [World.injector?_withInjector]
    split
    next he =>
      have hown := h.own
      rw [he] at hown
      cases hi : w.injector? id with
      | none =>
        rw [hi] at hown
        exact hown
      | some i =>
        rw [hi] at hown
        exact (hf i hi).2.trans hown
    next => exact h.own

theorem script {id : InjectorId} {s : ScriptInjector} (h : S.Holds w)
    (hi : w.injector? id = some (.script s)) : s.Settled S.files := h.injectors id _ hi

/-- The injector looks for its units where it always did. -/
theorem own_script (h : S.Holds w) :
    ∃ s, w.injector? S.id = some (.script s) ∧ s.dir = S.dir := by
  obtain ⟨i,hi,hdir⟩ := Option.bind_eq_some_iff.mp h.own
  cases i with
  | script s => exact ⟨s,hi,Option.some.inj hdir⟩
  | direct d => cases hdir

end Settlement.Holds

namespace Act

theorem onSite_settled {v : Work α} (h : v.Leaves S.files) :
    (onSite v).Alike S.Holds (onSite v) :=
  .of_keeps fun world hw => ⟨(h world.site hw.files).1,hw.builds,hw.injectors,hw.own⟩

theorem modifyInjector_settled (id : InjectorId) {f : Injector → Injector}
    (hf : ∀ i, i.Settled S.files → (f i).Settled S.files) (hdir : ∀ i, (f i).dir? = i.dir?) :
    (modifyInjector id f).Alike S.Holds (modifyInjector id f) :=
  .of_keeps fun _ hw => hw.withInjector fun i hi => ⟨hf i (hw.injectors id i hi),hdir i⟩

theorem setPoint_settled (id : InjectorId) (point : Option Parameter) :
    (modifyInjector id (·.setPoint point)).Alike S.Holds (modifyInjector id (·.setPoint point)) :=
  modifyInjector_settled id (fun _ hi => hi.setPoint point) fun i => by cases i <;> rfl

theorem remember_settled (id : InjectorId) (key : Key) (v : Value) :
    (modifyInjector id (·.remember key v)).Alike S.Holds (modifyInjector id (·.remember key v)) :=
  modifyInjector_settled id (fun _ hi => hi.remember key v) fun i => by cases i <;> rfl

/-- Nothing that a direct injector keeps matters. -/
theorem modifyDirect_settled (id : InjectorId) (f : DirectInjector → DirectInjector) :
    (modifyDirect id f).Alike S.Holds (modifyDirect id f) := by
  refine modifyInjector_settled id (fun i hi => ?_) fun i => ?_
  · cases i with
    | script s => exact hi
    | direct d => trivial
  · cases i <;> rfl

end Act

namespace Objects

theorem match_settled {ask ask' : Ask}
    (h : ∀ id key, (ask id key).Alike S.Holds (ask' id key)) : Match S.Holds ask ask' where
  find className := Act.onSite_settled (Classes.find_leaves className)
  body c method := Act.onSite_settled (Classes.body?_leaves c method)
  setter c method := Act.onSite_settled (Classes.setter?_leaves c method)
  build tree := Act.onSite_settled (Work.build_leaves none tree)
  newObject _ _ := Act.onSite_settled (Work.onHeap_leaves _)
  ask := h

theorem setProperty_settled (self : ObjectRef) (name : String) (value : Value) :
    (setProperty self name value).Alike S.Holds (setProperty self name value) :=
  Act.onSite_settled (Work.onHeap_leaves _)

end Objects

namespace Resolve

open Act

/-- The unit of a key as it lies in the directory; nothing is compiled. -/
def storedUnit (id : InjectorId) (key : Key) : Act (List Script.Statement) := do
  let s ← scriptInjector id
  match s.units.find? key with
  | some statements => return statements
  | none =>
      let path := Layout.unitPath s.dir key
      if !(← fileExists path) then throw (.unbound key.text)
      let text ← onSite (Work.onFiles (Files.read path))
      let statements ← orThrow (Script.parseUnit path text)
      modifyScript id fun s => { s with units := s.units.put key statements }
      return statements

/-- Runs the unit of a key as it lies in the directory. -/
def runStoredWith (run : RunKey) (id : InjectorId) (key : Key) : Act (Value × Bool) := do
  match ← injector id with
  | .script _ =>
      let statements ← storedUnit id key
      Script.runUnit (surroundings run id) (Layout.unitName key) statements
  | .direct d =>
      let code ← codeOf id d key
      Script.runUnit (surroundings run id) key.text code.statements

/-- Runs units as they lie in their directories, nested to a depth. -/
def runStored : Nat → RunKey
  | 0, _, _ => throw .exhausted
  | depth + 1, id, key => runStoredWith (runStored depth) id key

/-- What an injector gives if it cannot compile. -/
def requestStored (id : InjectorId) (interface name : String) : Act Value :=
  resolve (runStored depthLimit) id (.of interface name)

section Units

variable {id : InjectorId} {s : ScriptInjector} {key : Key}

theorem scriptInjector_gone (h : w.injector? id = none) :
    scriptInjector id w = (.error (.running .injectorGone),w) := by
  rw [scriptInjector]
  exact Work.run_bind_error _ (injector_gone h)

theorem scriptInjector_direct {d : DirectInjector} (h : w.injector? id = some (.direct d)) :
    scriptInjector id w = (.error (.running .injectorGone),w) := by
  rw [scriptInjector,Work.run_bind (injector_run h)]
  rfl

/-- Where the directory is marked, a missing unit is not compiled. -/
theorem compileMissing_marked (hi : w.injector? id = some (.script s)) (hstrict : s.strict = true)
    (hmarked : w.site.files.exists? (Layout.sentinelPath s.dir) = true) (key : Key) :
    compileMissing id key w = (.error (.unbound key.text),w) := by
  rw [compileMissing,Work.run_bind (scriptInjector_run hi)]
  dsimp only
  rw [if_pos hstrict,compileOnce,Work.run_bind (fileExists_run _ _),if_pos hmarked]
  rfl

theorem keepUnit_settled (hw : S.Holds w) (hi : w.injector? id = some (.script s))
    (hthere : S.files.exists? (Layout.unitPath s.dir key) = true)
    (statements : List Script.Statement) :
    S.Holds (modifyScript id (fun s => { s with units := s.units.put key statements }) w).2 := by
  have hs := hw.script hi
  rw [modifyScript,modifyInjector_run]
  refine hw.withInjector fun i hi' => ?_
  obtain rfl := Option.some.inj (hi.symm.trans hi')
  have hunits : ∀ other, ((s.units.put key statements).find? other).isSome = true →
      S.files.exists? (Layout.unitPath s.dir other) = true := by
    intro other hother
    by_cases he : other = key
    · exact he ▸ hthere
    · rw [Table.find?_put_of_ne _ _ he] at hother
      exact hs.there other hother
  exact ⟨⟨hs.strict,hs.marked,hunits⟩,rfl⟩

/-- Reading a unit that is there keeps it with the injector. -/
theorem readUnit_settled (hw : S.Holds w) (hi : w.injector? id = some (.script s))
    (hthere : S.files.exists? (Layout.unitPath s.dir key) = true) :
    S.Holds ((do
      let text ← onSite (Work.onFiles (Files.read (Layout.unitPath s.dir key)))
      let statements ← orThrow (Script.parseUnit (Layout.unitPath s.dir key) text)
      modifyScript id fun s => { s with units := s.units.put key statements }
      return statements : Act (List Script.Statement)) w).2 := by
  have hsame : (onSite (Work.onFiles (Files.read (Layout.unitPath s.dir key))) w).2 = w := by
    rw [onSite_onFiles,Files.read_files,World.withFiles]
  cases hread : onSite (Work.onFiles (Files.read (Layout.unitPath s.dir key))) w with
  | mk answer next =>
    rw [hread] at hsame
    obtain rfl : next = w := hsame
    cases answer with
    | error f =>
      rw [Work.run_bind_error _ hread]
      exact hw
    | ok text =>
      rw [Work.run_bind hread]
      generalize Script.parseUnit (Layout.unitPath s.dir key) text = parsed
      cases parsed with
      | error f =>
        have hthrow : orThrow (.error f : Except Failure (List Script.Statement)) next =
            (.error f,next) := rfl
        rw [Work.run_bind_error _ hthrow]
        exact hw
      | ok statements =>
        have hparsed : orThrow (.ok statements : Except Failure (List Script.Statement)) next =
            (.ok statements,next) := rfl
        have hkept := keepUnit_settled hw hi hthere statements
        rw [modifyScript,modifyInjector_run] at hkept
        rw [Work.run_bind hparsed,modifyScript,Work.run_bind (modifyInjector_run id _ next)]
        exact hkept

/-- A settled injector takes units as they lie in its directory. -/
theorem loadUnit_settled (id : InjectorId) (key : Key) :
    (loadUnit id key).Alike S.Holds (storedUnit id key) := by
  intro w hw
  cases hi : w.injector? id with
  | none =>
    rw [loadUnit,storedUnit,Work.run_bind_error _ (scriptInjector_gone hi),
      Work.run_bind_error _ (scriptInjector_gone hi)]
    exact ⟨rfl,hw⟩
  | some i =>
    cases i with
    | direct d =>
      rw [loadUnit,storedUnit,Work.run_bind_error _ (scriptInjector_direct hi),
        Work.run_bind_error _ (scriptInjector_direct hi)]
      exact ⟨rfl,hw⟩
    | script s =>
      have hs := hw.script hi
      rw [loadUnit,storedUnit,Work.run_bind (scriptInjector_run hi),
        Work.run_bind (scriptInjector_run hi)]
      cases s.units.find? key with
      | some statements => exact ⟨rfl,hw⟩
      | none =>
        dsimp only
        rw [Work.run_bind (fileExists_run _ _),Work.run_bind (fileExists_run _ _)]
        cases hthere : w.site.files.exists? (Layout.unitPath s.dir key) with
        | true =>
          have hstop : ¬(!true) = true := by simp
          rw [if_neg hstop,if_neg hstop]
          exact ⟨rfl,readUnit_settled hw hi (hw.files ▸ hthere)⟩
        | false =>
          have hmissing := compileMissing_marked hi hs.strict (hw.files ▸ hs.marked) key
          have hgo : (!false) = true := rfl
          rw [if_pos hgo,if_pos hgo,Work.run_bind_error _ hmissing]
          exact ⟨rfl,hw⟩

end Units

section Requests

theorem codeOf_settled (id : InjectorId) (d : DirectInjector) (key : Key) :
    (codeOf id d key).Alike S.Holds (codeOf id d key) := by
  unfold codeOf
  cases d.codes.find? key with
  | some code => exact .pure _
  | none =>
    refine (onSite_settled (directCode_leaves key)).bind fun code => ?_
    exact (modifyDirect_settled id _).bind fun _ => .pure code

theorem qualifier?_settled (i : Injector) (p : Parameter) :
    (qualifier? i p).Alike S.Holds (qualifier? i p) := by
  unfold qualifier?
  cases i with
  | script s => exact onSite_settled (Save.qualifier?_leaves s.dir p)
  | direct d => exact .pure _

theorem newPoint_settled (p : Parameter) (qualifier : Option Value) :
    (newPoint p qualifier).Alike S.Holds (newPoint p qualifier) := by
  unfold newPoint
  exact (onSite_settled (Work.onHeap_leaves _)).bind fun _ => .pure _

theorem injectionPoint_settled (id : InjectorId) :
    (injectionPoint id).Alike S.Holds (injectionPoint id) := by
  refine (Alike.injector id).bind fun i => ?_
  cases i.point with
  | none => exact .throw _
  | some p =>
    exact (qualifier?_settled i p).bind fun qualifier => newPoint_settled p qualifier

variable {run run' : RunKey}

theorem resolve_settled (h : ∀ id key, (run id key).Alike S.Holds (run' id key))
    (id : InjectorId) (key : Key) : (resolve run id key).Alike S.Holds (resolve run' id key) := by
  refine (Alike.injector id).bind fun i => ?_
  cases i.singletons.find? key with
  | some value => exact .pure value
  | none =>
    refine (h id key).bind fun r => ?_
    obtain ⟨value,shared⟩ := r
    cases shared with
    | true => exact (remember_settled id key value).bind fun _ => .pure value
    | false => exact .pure value

theorem singleton_settled (h : ∀ id key, (run id key).Alike S.Holds (run' id key))
    (id : InjectorId) (key : Key) (point : Option Parameter) :
    (singleton run id key point).Alike S.Holds (singleton run' id key point) := by
  refine (Alike.injector id).bind fun i => ?_
  cases i.singletons.find? key with
  | some value => exact .pure value
  | none =>
    refine (withPoint_alike id (setPoint_settled id) point (h id key)).bind fun r => ?_
    exact (remember_settled id key r.1).bind fun _ => .pure r.1

/-- Units ask settled injectors for nothing that would be compiled. -/
theorem surroundings_settled (h : ∀ id key, (run id key).Alike S.Holds (run' id key))
    (id : InjectorId) : (surroundings run id).Alike S.Holds (surroundings run' id) where
  prototype key point := withPoint_alike id (setPoint_settled id) point (resolve_settled h id key)
  singleton key point := singleton_settled h id key point
  injectionPoint := injectionPoint_settled id
  injector := .pure _
  construct className arguments :=
    (Objects.construct_alike arguments (Objects.match_settled (resolve_settled h))
      Objects.setProperty_settled className).bind fun _ => .pure _
  invoke self method arguments :=
    Objects.invoke_alike arguments (Objects.match_settled (resolve_settled h))
      (Objects.setProperty_settled self) method
  property _ _ := Alike.heap.bind fun _ => .pure _
  setProperty self name value := Objects.setProperty_settled self name value
  restore _ _ := (onSite_settled (Work.onHeap_leaves _)).bind fun _ => .pure _
  decode typeName bytes := onSite_settled (Classes.decodeNative_leaves typeName bytes)

theorem runWith_settled (h : ∀ id key, (run id key).Alike S.Holds (run' id key))
    (id : InjectorId) (key : Key) :
    (runWith run id key).Alike S.Holds (runStoredWith run' id key) := by
  refine (Alike.injector id).bind fun i => ?_
  cases i with
  | script s =>
    exact (loadUnit_settled id key).bind fun statements =>
      Script.runUnit_alike _ (surroundings_settled h id) statements
  | direct d =>
    exact (codeOf_settled id d key).bind fun code =>
      Script.runUnit_alike _ (surroundings_settled h id) code.statements

/-- The induction is on the depth to which runs are nested. -/
theorem runKey_settled (depth : Nat) (id : InjectorId) (key : Key) :
    (runKey depth id key).Alike S.Holds (runStored depth id key) := by
  induction depth generalizing id key with
  | zero => exact .throw _
  | succ depth ih => exact runWith_settled ih id key

/-- A request to a settled injector is answered as if it could not compile. -/
theorem request_settled (id : InjectorId) (interface name : String) :
    (request id interface name).Alike S.Holds (requestStored id interface name) :=
  resolve_settled (runKey_settled depthLimit) id _

/-- A key that is not kept and has no unit is unbound, and nothing else happens. -/
theorem request_unbound (hw : S.Holds w) {interface name : String}
    (hkept : w.kept S.id (.of interface name) = none)
    (hnone : S.files.exists? (Layout.unitPath S.dir (.of interface name)) = false) :
    request S.id interface name w = (.error (.unbound (Key.of interface name).text),w) := by
  obtain ⟨s,hi,hdir⟩ := hw.own_script
  have hs := hw.script hi
  have hunread : s.units.find? (.of interface name) = none := by
    by_contra hno
    have hthere := hs.there _ (Option.isSome_iff_ne_none.mpr hno)
    rw [hdir,hnone] at hthere
    cases hthere
  have hload : loadUnit S.id (.of interface name) w =
      (.error (.unbound (Key.of interface name).text),w) := by
    rw [loadUnit,Work.run_bind (scriptInjector_run hi),hunread]
    dsimp only
    have hgo : (!false) = true := rfl
    rw [Work.run_bind (fileExists_run _ _),hw.files,hdir,hnone,if_pos hgo]
    exact Work.run_bind_error _
      (compileMissing_marked hi hs.strict (hw.files ▸ hs.marked) (.of interface name))
  have hrun : runKey depthLimit S.id (.of interface name) w =
      (.error (.unbound (Key.of interface name).text),w) := by
    rw [depthLimit,runKey,runWith,Work.run_bind (injector_run hi)]
    exact Work.run_bind_error _ hload
  exact resolve_failed hi hkept hrun

/-- Requests that are made one after another, whatever becomes of each. -/
def requests (id : InjectorId) (rs : List (String × String)) (w : World) : World :=
  rs.foldl (fun w r => (request id r.1 r.2 w).2) w

theorem requests_settled (id : InjectorId) (rs : List (String × String)) (hw : S.Holds w) :
    S.Holds (requests id rs w) := by
  induction rs generalizing w with
  | nil => exact hw
  | cons r rest ih => exact ih (request_settled id r.1 r.2 w hw).2

end Requests
end Resolve
end Wiring
