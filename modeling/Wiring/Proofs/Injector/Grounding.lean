import Mathlib
import Wiring.Proofs.Injector.Grounds
import Wiring.Proofs.Injector.Points

/-!
# What is of a key has a ground

A unit is loaded, and code is compiled, only of a key that there was something of or that there is
a ground for. So the same holds of runs at any depth, and of all that is asked of injectors: where
there is nothing of a key in the beginning, and no ground for anything in the end, there is nothing
of it in the end either, and its unit never ran.
-/
namespace Wiring

open Layout (unitPlace)
open World (Has Grounds Grounded Further)

variable {w w' w'' : World} {id : InjectorId} {key : Key} {α β : Type}

/-- What has become of work on a key: it has led along, and where it has given anything, there was
something of the key, or there is a ground for it. -/
structure World.Accounts (w : World) (id : InjectorId) (key : Key)
    (r : Except Failure α × World) : Prop where
  grounded : w.Grounded r.2
  backed : ∀ x, r.1 = .ok x → w.Has id key ∨ r.2.Grounds id key

namespace World.Accounts

variable {r : Except Failure α × World}

theorem error (h : w.Grounded w') (f : Failure) :
    w.Accounts id key ((.error f,w') : Except Failure α × World) :=
  ⟨h,fun x hx => by cases hx⟩

theorem of_ground (h : w.Grounded r.2) (hkey : w.Grounds id key) : w.Accounts id key r :=
  ⟨h,fun _ _ => .inr (hkey.mono h.toFurther)⟩

theorem after (h : w'.Accounts id key r) (hw : w.Grounded w') : w.Accounts id key r where
  grounded := hw.trans h.grounded
  backed x hx := (h.backed x hx).elim
    (fun hkey => (hw.has id key hkey).imp_right (·.mono h.grounded.toFurther)) .inr

theorem further {answer : Except Failure β} (h : w.Accounts id key r) (hr : r.2.Grounded w')
    (hok : ∀ y, answer = .ok y → ∃ x, r.1 = .ok x) : w.Accounts id key (answer,w') where
  grounded := h.grounded.trans hr
  backed y hy := by
    obtain ⟨x,hx⟩ := hok y hy
    exact (h.backed x hx).imp_right (·.mono hr.toFurther)

end World.Accounts

open World (Accounts)

namespace Act

variable {a : Act α} {f : α → Act β}

/-- The rest of the action is what gives something of the key. -/
theorem accounts_bind (ha : w.Grounded (a w).2)
    (hf : ∀ x w', a w = (.ok x,w') → w.Grounded w' → w'.Accounts id key (f x w')) :
    w.Accounts id key ((a >>= f) w) := by
  cases hrun : a w with
  | mk answer next =>
    rw [hrun] at ha
    cases answer with
    | ok x =>
      rw [Work.run_bind hrun]
      exact (hf x next hrun ha).after ha
    | error e =>
      rw [Work.run_bind_error f hrun]
      exact .error ha e

/-- The first part of the action is what gives something of the key. -/
theorem accounts_first (ha : w.Accounts id key (a w)) (hf : ∀ x, (f x).Along Grounded) :
    w.Accounts id key ((a >>= f) w) := by
  cases hrun : a w with
  | mk answer next =>
    rw [hrun] at ha
    cases answer with
    | ok x =>
      rw [Work.run_bind hrun]
      exact ha.further (hf x next) fun _ _ => ⟨x,rfl⟩
    | error e =>
      rw [Work.run_bind_error f hrun]
      exact .error ha.grounded e

end Act

theorem Files.read_found {fs fs' : Files} {path text : String}
    (h : Files.read path fs = (.ok text,fs')) :
    fs.contents.find? (Path.ofText path) = some text := by
  have hget : (get : FileWork Files) fs = (.ok fs,fs) := rfl
  rw [Files.read,Work.run_bind hget] at h
  cases hstatus : fs.status path with
  | file contents =>
    rw [hstatus] at h
    obtain rfl := Except.ok.inj (congrArg Prod.fst h)
    exact Files.find?_of_status hstatus
  | directory => rw [hstatus] at h; cases congrArg Prod.fst h
  | missing => rw [hstatus] at h; cases congrArg Prod.fst h
  | blocked => rw [hstatus] at h; cases congrArg Prod.fst h

namespace Resolve

open Act

variable {s : ScriptInjector} {d : DirectInjector}

section Units

/-- What is left to be done for a unit that is there. -/
def readUnit (id : InjectorId) (path : String) (key : Key) : Act (List Script.Statement) := do
  let text ← onSite (Work.onFiles (Files.read path))
  let statements ← orThrow (Script.parseUnit path text)
  modifyScript id fun s => { s with units := s.units.put key statements }
  return statements

/-- A unit that is there is read and kept, or all stays as it is. -/
theorem readUnit_cases (id : InjectorId) (path : String) (key : Key) (w : World) :
    (∃ f, readUnit id path key w = (.error f,w)) ∨ ∃ text statements,
      w.site.files.contents.find? (Path.ofText path) = some text ∧
        readUnit id path key w = (.ok statements,(modifyScript id (fun s =>
          { s with units := s.units.put key statements }) w).2) := by
  unfold readUnit
  have hsame : (onSite (Work.onFiles (Files.read path)) w).2 = w := by
    rw [onSite_onFiles,Files.read_files,World.withFiles]
  cases hread : onSite (Work.onFiles (Files.read path)) w with
  | mk answer next =>
    rw [hread] at hsame
    obtain rfl : next = w := hsame
    cases answer with
    | error f => exact .inl ⟨f,Work.run_bind_error _ hread⟩
    | ok text =>
      have hfound : Files.read path next.site.files = (.ok text,next.site.files) := by
        rw [onSite_onFiles] at hread
        exact Prod.ext (congrArg Prod.fst hread :) (Files.read_files _ _)
      rw [Work.run_bind hread]
      generalize Script.parseUnit path text = parsed
      cases parsed with
      | error f => exact .inl ⟨f,rfl⟩
      | ok statements => exact .inr ⟨text,statements,Files.read_found hfound,rfl⟩

/-- What is read was there. -/
theorem readUnit_accounts (hi : w.injector? id = some (.script s)) (key : Key) :
    w.Accounts id key (readUnit id (Layout.unitPath s.dir key) key w) := by
  obtain ⟨f,hfails⟩ | ⟨text,statements,hfound,hreads⟩ :=
    readUnit_cases id (Layout.unitPath s.dir key) key w
  · rw [hfails]
    exact .error (refl_of Grounded w) f
  · have hhas : w.Has id key := .filed hi rfl hfound
    rw [hreads]
    refine ⟨(refl_of Grounded w).gain (.inl hhas) fun i hi' => ?_,fun _ _ => .inl hhas⟩
    obtain rfl := Option.some.inj (hi.symm.trans hi')
    exact Injector.gains_unit s key statements

theorem loadUnit_accounts (id : InjectorId) (key : Key) (w : World) :
    w.Accounts id key (loadUnit id key w) := by
  refine accounts_bind (Along.scriptInjector id w) fun s w₀ hs _ => ?_
  obtain ⟨rfl,hi⟩ := scriptInjector_ok hs
  cases hunit : s.units.find? key with
  | some statements =>
    exact ⟨refl_of Grounded w₀,fun _ _ => .inl (.held hi (.inr (congrArg Option.isSome hunit)))⟩
  | none =>
    dsimp only
    -- The unit is read in the same directory, also after it has been compiled.
    have hread (next : World) (hnext : w₀.Grounded next) :
        next.Accounts id key (readUnit id (Layout.unitPath s.dir key) key next) := by
      obtain ⟨s',hi',hdir,-⟩ := script_further hnext.toFurther hi
      rw [← hdir]
      exact readUnit_accounts hi' key
    refine accounts_bind (fileExists_grounded _ w₀) fun there w₁ _ h₁ => ?_
    split
    · refine accounts_bind (compileMissing_grounded id key w₁) fun _ w₂ _ h₂ => ?_
      refine accounts_bind (fileExists_grounded _ w₂) fun there w₃ _ h₃ => ?_
      split
      · exact accounts_bind (Along.throw _ w₃) fun _ _ hthrow _ => by
          cases congrArg Prod.fst hthrow
      · exact hread w₃ ((h₁.trans h₂).trans h₃)
    · exact hread w₁ h₁

/-- The code of a key that is not bound begins with inferring a class for it. -/
theorem directCode_infers {g : Graph} (hb : g.get? key = none) : ∃ onward : Plan Value → Work Code,
    (do
      let binding ← directBinding g key
      Compile.unitOf g (some (directScope g)) binding : Work Code) = Demand.infer key >>= onward ∧
    ∀ plan {known free}, (onward plan).Maintains (Site.Spares known free) fun _ => True := by
  refine ⟨fun plan => do
    Compile.unitOf g (some (directScope g)) (.construction (← Weave.plan g.pointcuts plan)),?_,
    fun plan _ _ => ?_⟩
  · unfold directBinding
    rw [hb]
    simp only [bind_assoc,pure_bind]
  · refine (Site.Spares.keep.weave _ plan).bind fun _ _ => Site.Spares.unitOf ?_ _
    intro scopeOf hscope other
    obtain rfl := Option.some.inj hscope
    exact Site.Spares.directScope _ other

theorem onSite_site {α : Type} {v : Work α} {answer : Except Failure α}
    (h : onSite v w = (answer,w')) : v w.site = (answer,w'.site) :=
  Prod.ext (congrArg Prod.fst h :) (congrArg (·.2.site) h :)

/-- A direct injector compiles code of what its graph binds, and of concrete classes. -/
theorem directCode_supports {site site' : Site} {code : Code} (h : (do
      let binding ← directBinding d.graph key
      Compile.unitOf d.graph (some (directScope d.graph)) binding : Work Code) site =
        (.ok code,site')) : (Injector.direct d).Supports site'.registry key := by
  cases hb : d.graph.get? key with
  | some b => exact .bound rfl (Graph.has_of_get? hb)
  | none =>
    obtain ⟨onward,hrun,honward⟩ := directCode_infers hb
    rw [hrun] at h
    cases hinfer : Demand.infer key site with
    | mk answer inferred =>
      cases answer with
      | error f =>
        rw [Work.run_bind_error _ hinfer] at h
        cases congrArg Prod.fst h
      | ok plan =>
        rw [Work.run_bind hinfer] at h
        obtain ⟨hany,hlasts⟩ := Demand.infer_lasts hinfer (honward plan)
        rw [h] at hlasts
        exact .class hany hlasts

theorem codeOf_accounts (hi : w.injector? id = some (.direct d)) (key : Key) :
    w.Accounts id key (codeOf id d key w) := by
  unfold codeOf
  cases hcode : d.codes.find? key with
  | some code =>
    exact ⟨refl_of Grounded w,fun _ _ => .inl (.held hi (.inr (congrArg Option.isSome hcode)))⟩
  | none =>
    dsimp only
    have hsite := onSite_grounded (Site.Spares.directCode d.graph key) w
    refine accounts_bind hsite fun code w₁ hrun _ => ?_
    have hi₁ : w₁.injector? id = some (.direct d) :=
      (congrArg (fun r => r.2.injector? id) hrun).symm.trans hi
    have hground : w₁.Grounds id key := .own hi₁ (directCode_supports (onSite_site hrun))
    rw [modifyDirect,Work.run_bind (modifyInjector_run id _ w₁)]
    refine .of_ground ((refl_of Grounded w₁).gain (.inr hground) fun i hi' => ?_) hground
    obtain rfl := Option.some.inj (hi₁.symm.trans hi')
    exact Injector.gains_code d key code _

end Units

section Requests

variable {run : RunKey}

/-- All runs account for what they give. -/
def Accounted (run : RunKey) : Prop := ∀ id key (w : World), w.Accounts id key (run id key w)

theorem qualifier?_grounded (i : Injector) (p : Parameter) :
    (qualifier? i p).Along Grounded := by
  unfold qualifier?
  cases i with
  | script s => exact onSite_grounded (Site.Spares.qualifier? s.dir p)
  | direct d => exact .pure _

theorem newPoint_grounded (p : Parameter) (qualifier : Option Value) :
    (newPoint p qualifier).Along Grounded := by
  unfold newPoint
  exact (onSite_grounded (Site.Spares.onHeap _)).bind fun _ => .pure _

theorem injectionPoint_grounded (id : InjectorId) : (injectionPoint id).Along Grounded := by
  refine (Along.injector id).bind fun i => ?_
  cases i.point with
  | none => exact .throw _
  | some p => exact (qualifier?_grounded i p).bind fun _ => newPoint_grounded p _

/-- Work accounts for what it gives also while a parameter is supplied. -/
theorem withPoint_accounts (point : Option Parameter) {a : Act α}
    (h : ∀ w : World, w.Accounts id key (a w)) (w : World) :
    w.Accounts id key (withPoint id point a w) := by
  cases hi : w.injector? id with
  | none =>
    rw [withPoint_gone point a hi]
    exact .error (refl_of Grounded w) _
  | some i =>
    rw [withPoint_run point a hi]
    have hwork := (h _).after (setPoint_grounded id point w)
    exact hwork.further (setPoint_grounded id i.point _) fun y hy => ⟨y,hy⟩

theorem resolve_grounded (h : Accounted run) (id : InjectorId) (key : Key) :
    (resolve run id key).Along Grounded := by
  intro w
  cases hi : w.injector? id with
  | none =>
    rw [resolve,Work.run_bind_error _ (injector_gone hi)]
    exact refl_of Grounded w
  | some i =>
    cases hkept : w.kept id key with
    | some v =>
      rw [resolve_kept hkept]
      exact refl_of Grounded w
    | none =>
      have hrun := h id key w
      cases hanswer : run id key w with
      | mk answer after =>
        rw [hanswer] at hrun
        cases answer with
        | error f =>
          rw [resolve_failed hi hkept hanswer]
          exact hrun.grounded
        | ok r =>
          rw [resolve_ran hi hkept hanswer]
          dsimp only
          split
          · exact remember_grounded hrun.grounded (hrun.backed r rfl) _
          · exact hrun.grounded

theorem singleton_grounded (h : Accounted run) (id : InjectorId) (key : Key)
    (point : Option Parameter) : (singleton run id key point).Along Grounded := by
  intro w
  cases hi : w.injector? id with
  | none =>
    rw [singleton,Work.run_bind_error _ (injector_gone hi)]
    exact refl_of Grounded w
  | some i =>
    cases hkept : w.kept id key with
    | some v =>
      rw [singleton_kept point hkept]
      exact refl_of Grounded w
    | none =>
      have hrun := withPoint_accounts point (h id key) w
      cases hanswer : withPoint id point (run id key) w with
      | mk answer after =>
        rw [hanswer] at hrun
        cases answer with
        | error f =>
          rw [singleton_failed hi hkept hanswer]
          exact hrun.grounded
        | ok r =>
          rw [singleton_ran hi hkept hanswer]
          exact remember_grounded hrun.grounded (hrun.backed r rfl) _

theorem follow_grounded {ask : Objects.Ask} (h : ∀ id key, (ask id key).Along Grounded) :
    Objects.Follow Grounded ask where
  find _ := onSite_grounded (Site.Spares.keep.find _)
  body _ _ := onSite_grounded (Site.Spares.body? _ _)
  setter _ _ := onSite_grounded (Site.Spares.setter? _ _)
  build _ := onSite_grounded (Site.Spares.onHeap _)
  newObject _ _ := onSite_grounded (Site.Spares.onHeap _)
  ask := h

/-- What a unit asks for leads along, from wherever it is asked. -/
theorem surroundings_grounded (h : Accounted run) (id : InjectorId) (w : World) :
    (surroundings run id).Alike w.Grounded (surroundings run id) where
  prototype key point :=
    (withPoint_along id (setPoint_grounded id) point (resolve_grounded h id key)).alike w
  singleton key point := (singleton_grounded h id key point).alike w
  injectionPoint := (injectionPoint_grounded id).alike w
  injector := .pure _
  construct className arguments :=
    (Objects.construct_alike arguments ((follow_grounded (resolve_grounded h)).alike w)
      (fun _ _ _ => (onSite_grounded (Site.Spares.onHeap _)).alike w) className).bind fun _ =>
        .pure _
  invoke _ method arguments :=
    (Objects.invoke_along arguments (follow_grounded (resolve_grounded h))
      (fun _ _ => onSite_grounded (Site.Spares.onHeap _)) method).alike w
  property _ _ := Alike.heap.bind fun _ => .pure _
  setProperty _ name value := Along.alike (a := Objects.setProperty _ name value)
    (onSite_grounded (Site.Spares.onHeap _)) w
  restore _ _ := ((onSite_grounded (Site.Spares.onHeap _)).alike w).bind fun _ => .pure _
  decode _ _ := (onSite_grounded (Site.Spares.decodeNative _ _)).alike w

theorem runUnit_grounded (h : Accounted run) (id : InjectorId) (unit : String)
    (statements : List Script.Statement) :
    Act.Along Grounded (Script.runUnit (surroundings run id) unit statements) :=
  .of_alike fun w => Script.runUnit_alike unit (surroundings_grounded h id w) statements

/-- A unit that runs has been loaded, or compiled. -/
theorem runWith_accounts (h : Accounted run) : Accounted (runWith run) := by
  intro id key w
  refine accounts_bind (Along.injector id w) fun i w₀ hfound _ => ?_
  cases hi : w.injector? id with
  | none =>
    rw [injector_gone hi] at hfound
    cases congrArg Prod.fst hfound
  | some j =>
    rw [injector_run hi] at hfound
    cases hfound
    cases i with
    | script s =>
      exact accounts_first (loadUnit_accounts id key w) fun statements =>
        runUnit_grounded h id _ statements
    | direct d =>
      exact accounts_first (codeOf_accounts hi key) fun code =>
        runUnit_grounded h id _ code.statements

/-- The induction is on the depth to which runs nest. -/
theorem runKey_accounts (depth : Nat) : Accounted (runKey depth) := by
  induction depth with
  | zero => exact fun id key w => Accounts.error (refl_of Grounded w) _
  | succ depth ih => exact runWith_accounts ih

theorem request_grounded (id : InjectorId) (interface name : String) :
    (request id interface name).Along Grounded :=
  resolve_grounded (runKey_accounts depthLimit) id _

end Requests

end Resolve

namespace Operation

open Act Resolve

theorem clear_grounded (id : InjectorId) : (Act.clear id).Along Grounded := by
  have hforget : (modifyScript id fun s => { s with units := [] }).Along Grounded := by
    refine modifyInjector_grounded id (fun i => ?_) fun i key hheld => ?_
    · cases i <;> exact ⟨rfl,fun _ h => h⟩
    · cases i with
      | script s => exact hheld.imp_right nofun
      | direct d => exact hheld
  exact (Along.scriptInjector id).bind fun s => hforget.bind fun _ =>
    onSite_grounded (Site.Spares.clear s.dir)

theorem snapshot?_grounded (id : InjectorId) : (Act.snapshot? id).Along Grounded := by
  refine (Along.injector id).bind fun i => ?_
  cases i with
  | direct d => exact .pure _
  | script s =>
    have hgraph : (graphOf id).Along Grounded := fun w => (graphOf_grounded id w).1
    dsimp only
    split
    · exact hgraph.bind fun g => (onSite_grounded (Site.Spares.saveGraph s.dir g)).bind fun _ =>
        Along.heap.bind fun _ => .pure _
    · exact Along.heap.bind fun _ => .pure _

/-- Whatever is asked of an injector leads along. -/
theorem act_grounded (op : Operation) (id : InjectorId) : (op.act id).Along Grounded := by
  cases op with
  | get interface name => exact (request_grounded id interface name).bind fun _ => .pure _
  | compile => exact compileAll_grounded id
  | clear => exact clear_grounded id
  | snapshot => exact (snapshot?_grounded id).bind fun _ => .pure _

end Operation

/-- The world after operations have been asked of injectors, whatever became of each. -/
def World.having (asked : List (InjectorId × Operation)) (w : World) : World :=
  asked.foldl (fun w ask => (ask.2.act ask.1 w).2) w

theorem World.having_grounded (asked : List (InjectorId × Operation)) (w : World) :
    w.Grounded (w.having asked) := by
  induction asked generalizing w with
  | nil => exact refl_of Grounded w
  | cons ask rest ih => exact (ask.2.act_grounded ask.1 w).trans (ih _)

end Wiring
