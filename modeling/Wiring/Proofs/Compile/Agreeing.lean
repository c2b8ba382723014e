import Mathlib
import Wiring.Compile.Demand
import Wiring.Injector.Resolve
import Wiring.Proofs.Classes.Looking
import Wiring.Proofs.Compile.Inference
import Wiring.Proofs.Compile.Injection
import Wiring.Proofs.Compile.Parts
import Wiring.Proofs.Compile.Unit
import Wiring.Proofs.Json.ReadBack

/-!
# The scope that a unit tells

A unit tells the scope of its own key when it returns, and the scopes of other keys by the
functions that it pulls them with. The scope of a bound key is that of its binding. The scope
of a concrete class that is not bound is saved with its unit once it has one, and inferred from
the class before; both are the scope of the class, as long as no class is read from a file and
the scopes that were saved are those of classes.
-/
namespace Wiring

open Script (Statement)

section Returning

/-- Whatever the statements run in, they return a value with this scope if they return one. -/
def Script.Returns (statements : List Statement) (shared : Bool) : Prop :=
  ∀ (m : Type → Type) [Monad m] [LawfulMonad m] (s : Script.Surroundings m) (unit : String),
    ∃ made : ExceptT Failure m Value, Script.runUnit s unit statements = (·,shared) <$> made

/-- The scope that a delivery is handed out with. -/
def Delivery.shared : Delivery → Bool
  | literal _ => false
  | made _ _ shared => shared
  | provided _ _ shared => shared

theorem Delivery.perform_shared {m : Type → Type} [Monad m] [LawfulMonad m]
    (s : Script.Surroundings m) (unit : String) (d : Delivery) :
    ∃ made : ExceptT Failure m Value, d.perform s unit = (·,d.shared) <$> made := by
  cases d with
  | literal tree => exact ⟨tree.remake s,rfl⟩
  | made assembly advice shared =>
    refine ⟨do
      let made ← assembly.perform s unit
      if !advice.isEmpty then advise s unit made advice
      return made,?_⟩
    simp only [perform,Delivery.shared,map_bind]
    congr 1
    funext made
    split <;> simp only [map_pure,map_bind]
  | provided assembly context shared =>
    refine ⟨do
      let provider ← assembly.perform s unit
      called s unit provider (context.toList.map fun text => ("setContext",[.literal (.text text)]))
      invoked s unit provider "get" [],?_⟩
    simp only [perform,Delivery.shared,map_eq_pure_bind,bind_assoc]

theorem Compile.Delivers.shared {g : Graph} {scope : Option ScopeOf} {start : Site}
    {b : Binding Value} {d : Delivery} (h : Compile.Delivers g scope start b d) :
    d.shared = b.isShared := by
  cases h <;> rfl

/-- The scope that a unit is compiled with is returned by its statements, and by those that are
read from its text if the names in it are names. -/
structure Code.Returned (code : Code) : Prop where
  compiled : Script.Returns code.statements code.shared
  saved : (∀ name ∈ code.names, Script.isNameText name = true) → ∃ parsed,
    (∀ file, Script.parseUnit file code.source = .ok parsed) ∧ Script.Returns parsed code.shared

/-- A unit is read back from its text if the names in it are names. -/
theorem Compile.unitOf_parsed {g : Graph} {scope : Option ScopeOf} {b : Binding Value}
    {site site' : Site} {code : Code} (h : Compile.unitOf g scope b site = (.ok code,site'))
    (hnames : ∀ name ∈ code.names, Script.isNameText name = true) (file : String) :
    Script.parseUnit file code.source = .ok (code.statements.map Statement.reparsed) := by
  have hsaved := unitOf_saved g scope b site code site' h
  exact Script.parseUnit_reparsed file fun t ht =>
    (hsaved t ht).printable fun name hname => hnames name (List.mem_flatMap.mpr ⟨t,ht,hname⟩)

theorem Compile.unitOf_returned {g : Graph} {scope : Option ScopeOf} {b : Binding Value}
    {site site' : Site} {code : Code} (h : Compile.unitOf g scope b site = (.ok code,site')) :
    code.Returned := by
  obtain ⟨d,hd,hwritten⟩ := (unitOf_delivers b site .start).2 code (congrArg Prod.fst h)
  have hshared : d.shared = code.shared := hd.shared.trans (unitOf_shared b site code site' h).symm
  have hreturns : Script.Returns code.statements code.shared := by
    intro m _ _ s unit
    rw [hwritten.run,← hshared]
    exact d.perform_shared s unit
  refine ⟨hreturns,fun hnames => ⟨_,fun file => unitOf_parsed h hnames file,fun m _ _ s unit => ?_⟩⟩
  rw [Script.runUnit_reparsed]
  exact hreturns m s unit

end Returning

/-- What is read from a file is what is kept under its path. -/
theorem Files.find?_of_readIfExists {fs fs' : Files} {text contents : String}
    (h : readIfExists text fs = (.ok (some contents),fs')) :
    fs.contents.find? (Path.ofText text) = some contents := by
  have hget : (get : FileWork Files) fs = (.ok fs,fs) := rfl
  rw [readIfExists,Work.run_bind hget] at h
  by_cases hexists : fs.exists? text = true
  · rw [if_pos hexists] at h
    cases hs : fs.status text with
    | file found =>
      have hread : read text fs = (.ok found,fs) := by
        rw [read,Work.run_bind hget,hs]
        rfl
      rw [Work.run_bind hread] at h
      obtain rfl : found = contents := Option.some.inj (Except.ok.inj (congrArg Prod.fst h))
      exact find?_of_status hs
    | directory =>
      have hread : read text fs = (.error (.unreadable text),fs) := by
        rw [read,Work.run_bind hget,hs]
        rfl
      rw [Work.run_bind_error _ hread] at h
      cases congrArg Prod.fst h
    | missing => simp [exists?,hs] at hexists
    | blocked => simp [exists?,hs] at hexists
  · rw [if_neg hexists] at h
    cases congrArg Prod.fst h

/-- A concrete class of this name is registered, and this is its scope. -/
def Registry.Declares (r : Registry) (className : String) (shared : Bool) : Prop :=
  ∃ c, r.classes.find? className = some c ∧ c.isConcrete = true ∧ c.shared = shared

namespace Binding

/-- The binding with other interceptors recorded for its class. -/
def rewoven (advice : Table String (List String)) : Binding Value → Binding Value
  | construction plan => construction { plan with advice }
  | other => other

theorem isShared_rewoven (advice : Table String (List String)) (b : Binding Value) :
    (b.rewoven advice).isShared = b.isShared := by
  cases b <;> rfl

theorem exists_rewoven (b : Binding Value) : ∃ advice, b = b.rewoven advice := by
  cases b with
  | construction plan => exact ⟨plan.advice,rfl⟩
  | literal v => exact ⟨[],rfl⟩
  | provider plan shared context => exact ⟨[],rfl⟩
  | nullObject interface => exact ⟨[],rfl⟩

theorem rewoven_rewoven (advice more : Table String (List String)) (b : Binding Value) :
    (b.rewoven advice).rewoven more = b.rewoven more := by
  cases b <;> rfl

end Binding

namespace Compile

open Work

/-- The binding may be compiled for the key: if the key is bound, it is its own, up to
interceptors. -/
def Serves (g : Graph) (key : Key) (b : Binding Value) : Prop :=
  ∀ own, g.get? key = some own → ∃ advice, b = own.rewoven advice

theorem serves_own {g : Graph} {key : Key} {b : Binding Value} (hb : g.get? key = some b) :
    Serves g key b := by
  intro own hown
  rw [← Option.some.inj (hb.symm.trans hown)]
  exact b.exists_rewoven

/-- The scope is right for the key: it is that of the binding of the key. Among certain keys it
is also right for those that are not bound, if that much is known of classes: it is that of the
concrete class that the key asks for. -/
structure Fits (g : Graph) (r : Registry) (K : Key → Prop) (known : Prop) (key : Key)
    (shared : Bool) : Prop where
  bound : ∀ b, g.get? key = some b → shared = b.isShared
  outside : known → K key → g.get? key = none → r.Declares key.interface shared

/-- The unit comes of compiling a binding for the key. -/
def CompiledFor (g : Graph) (key : Key) (code : Code) : Prop :=
  ∃ scope b site site', Serves g key b ∧ unitOf g scope b site = (.ok code,site')

/-- The unit was compiled for the key; its own scope and those of its pulls fit. -/
structure Agrees (g : Graph) (S : Key → Bool → Prop) (key : Key) (code : Code) : Prop where
  compiled : CompiledFor g key code
  own : S key code.shared
  pulls : ∀ p ∈ code.supplied, S p.key p.shared

/-- A text that tells a scope that fits. -/
def TellsScope (S : Key → Bool → Prop) (key : Key) (text : String) : Prop :=
  ∃ shared, (Json.read? text).bind Save.scopeOfJson? = some shared ∧ S key shared

theorem read_scope (shared : Bool) :
    (Json.read? (Save.scopeToJson shared).compact).bind Save.scopeOfJson? = some shared := by
  have hlegible : Json.Legible Json.depthLimit (Save.scopeToJson shared) :=
    .record (List.forall_mem_cons.mpr ⟨.bool _ shared,nofun⟩)
  rw [Json.read_compact hlegible]
  cases shared <;> rfl

/-- The files are these, and where so much is known of classes, the registry is this one. -/
structure Stays (r : Registry) (known : Prop) (fs : Files) (site : Site) : Prop where
  files : site.files = fs
  registry : known → site.registry = r

variable {dir : String} {g : Graph} {r : Registry} {K : Key → Prop} {known : Prop} {fs : Files}
  {scope : Option ScopeOf}

theorem Stays.keep (hfixed : known → r.Fixed fs) : Classes.Keep (Stays r known fs) := by
  refine fun className site hsite => ⟨⟨?_,fun hk => ?_⟩,fun _ _ => trivial⟩
  · exact (Classes.find?_files className site hsite.files).1
  · have hstanding : Standing r fs site := ⟨hsite.registry hk,hsite.files⟩
    exact (Graph.find?_standing (hfixed hk) className site hstanding).1.registry

theorem Stays.readIfExists (text : String) : (Work.onFiles (Files.readIfExists text)).Maintains
    (Stays r known fs) fun _ => True := by
  intro site hsite
  rw [onFiles_run,Classes.readIfExists_files]
  exact ⟨⟨hsite.files,hsite.registry⟩,fun _ _ => trivial⟩

theorem decode_maintains {α : Type} {I : Site → Prop} (text : String) (decode : Json → Option α) :
    (Work.decode text decode).Maintains I fun _ => True := by
  unfold Work.decode
  cases (Json.read? text).bind decode with
  | none => exact .throw _
  | some a => exact .pure trivial

theorem decode_ok {α : Type} {text : String} {decode : Json → Option α} {a : α}
    {site site' : Site} (h : Work.decode text decode site = (.ok a,site')) :
    (Json.read? text).bind decode = some a := by
  unfold Work.decode at h
  generalize (Json.read? text).bind decode = decoded at h ⊢
  cases decoded with
  | none => cases congrArg Prod.fst h
  | some b => rw [Except.ok.inj (congrArg Prod.fst h)]

section Scopes

/-- Keys outside the graph are asked of nobody, or of the script injector of the directory. -/
def Asks (dir : String) (g : Graph) (scope : Option ScopeOf) : Prop :=
  scope = none ∨ scope = some (Resolve.scopeIn dir g)

theorem scopeIn_stays (dir : String) (g : Graph) (key : Key) :
    (Resolve.scopeIn dir g key).Maintains (Stays r known fs) fun _ => True := by
  unfold Resolve.scopeIn
  cases g.get? key with
  | some b => exact .pure trivial
  | none =>
    have hsaved : (Save.scope? dir key).Maintains (Stays r known fs) fun _ => True := by
      unfold Save.scope?
      refine (Stays.readIfExists _).bind fun text _ => ?_
      cases text with
      | none => exact .pure trivial
      | some text => exact (decode_maintains _ _).bind fun _ _ => .pure trivial
    refine hsaved.bind fun shared _ => ?_
    cases shared with
    | none => exact .throw _
    | some shared => exact .pure trivial

theorem inferredScope_stays (hfixed : known → r.Fixed fs) (key : Key) :
    (inferredScope key).Maintains (Stays r known fs) fun _ => True := by
  unfold inferredScope
  split
  · exact .pure trivial
  · refine (Stays.keep hfixed key.interface).bind fun c _ => ?_
    cases c with
    | none => exact .pure trivial
    | some c => exact .pure trivial

theorem scopeOutside_stays (hfixed : known → r.Fixed fs) (hscope : Asks dir g scope) (key : Key) :
    (scopeOutside scope key).Maintains (Stays r known fs) fun _ => True := by
  rcases hscope with rfl | rfl
  · exact inferredScope_stays hfixed key
  · unfold scopeOutside
    refine (scopeIn_stays dir g key).attempt.bind fun answer _ => ?_
    split
    · exact .pure trivial
    · exact inferredScope_stays hfixed key
    · exact .throw _

theorem Passed.stays {start site : Site} (hfixed : known → r.Fixed fs) (hscope : Asks dir g scope)
    (hstart : Stays r known fs start) (h : Passed scope start site) : Stays r known fs site := by
  induction h with
  | start => exact hstart
  | told key _ ih => exact (scopeOutside_stays hfixed hscope key _ ih).1

/-- A scope that is told of a key was saved for it. -/
theorem scopeIn_saved {key : Key} {site site' : Site} {shared : Bool} (hnone : g.get? key = none)
    (h : Resolve.scopeIn dir g key site = (.ok shared,site')) :
    ∃ text, site.files.contents.find? (Path.ofText (Layout.metaPath dir key)) = some text ∧
      (Json.read? text).bind Save.scopeOfJson? = some shared := by
  unfold Resolve.scopeIn at h
  rw [hnone] at h
  obtain ⟨saved,_,hsaved,hend⟩ := Work.run_bind_ok h
  obtain rfl : saved = some shared := by
    cases saved with
    | none => cases congrArg Prod.fst hend
    | some shared' => rw [Except.ok.inj (congrArg Prod.fst hend)]
  rw [Save.scope?] at hsaved
  obtain ⟨read,mid,hread,hend⟩ := Work.run_bind_ok hsaved
  cases read with
  | none => cases congrArg Prod.fst hend
  | some text =>
    obtain ⟨decoded,_,hdecode,hend⟩ := Work.run_bind_ok hend
    obtain rfl : decoded = shared := Option.some.inj (Except.ok.inj (congrArg Prod.fst hend))
    exact ⟨text,Files.find?_of_readIfExists (Save.onFiles_ok hread).1,decode_ok hdecode⟩

/-- The scopes saved for keys that are not bound fit. -/
def Settled (dir : String) (g : Graph) (K : Key → Prop) (S : Key → Bool → Prop) (fs : Files) :
    Prop :=
  ∀ key, K key → g.get? key = none → ∀ text,
    fs.contents.find? (Path.ofText (Layout.metaPath dir key)) = some text → TellsScope S key text

theorem inferredScope_declares {key : Key} {site site' : Site} {shared : Bool} (hk : known)
    (hfixed : r.Fixed fs) (hsite : Stays r known fs site)
    (h : inferredScope key site = (.ok (some shared),site')) : r.Declares key.interface shared := by
  have hfixed : site.registry.Fixed site.files := by
    rw [hsite.registry hk,hsite.files]
    exact hfixed
  have hinfers := (inferredScope_fixedRun hfixed h).2 shared rfl
  rw [hsite.registry hk] at hinfers
  exact hinfers.found

/-- The scope of a key that is not bound is that of its class, whether it was saved or has to be
inferred. -/
theorem scopeOutside_declares {key : Key} {site site' : Site} {shared : Bool} (hk : known)
    (hfixed : r.Fixed fs) (hscope : Asks dir g scope)
    (hsettled : Settled dir g K (Fits g r K known) fs) (hsite : Stays r known fs site)
    (hkey : K key) (hnone : g.get? key = none)
    (h : scopeOutside scope key site = (.ok (some shared),site')) :
    r.Declares key.interface shared := by
  rcases hscope with rfl | rfl
  · exact inferredScope_declares hk hfixed hsite h
  have hmid : Stays r known fs (Resolve.scopeIn dir g key site).2 :=
    (scopeIn_stays dir g key site hsite).1
  unfold scopeOutside at h
  dsimp only at h
  cases hs : Resolve.scopeIn dir g key site with
  | mk answer mid =>
    rw [hs] at hmid
    have hattempt : Work.attempt (Resolve.scopeIn dir g key) site = (.ok answer,mid) := by
      rw [attempt_run,hs]
    rw [run_bind hattempt] at h
    cases answer with
    | ok told =>
      obtain rfl : told = shared := Option.some.inj (Except.ok.inj (congrArg Prod.fst h))
      obtain ⟨text,hfind,hread⟩ := scopeIn_saved hnone hs
      rw [hsite.files] at hfind
      obtain ⟨saved,hsaved,hfits⟩ := hsettled key hkey hnone text hfind
      obtain rfl : told = saved := Option.some.inj (hread.symm.trans hsaved)
      exact hfits.outside hk hkey hnone
    | error f =>
      cases f with
      | notCompiled _ => exact inferredScope_declares hk hfixed hmid h
      | _ => cases congrArg Prod.fst h

end Scopes

section Units

variable {S : Key → Bool → Prop}

/-- The pulls of a unit are in scopes that fit, and so is its own scope if that of its binding
fits. -/
theorem unitOf_agrees {key : Key} {b : Binding Value} (hfixed : known → r.Fixed fs)
    (hscope : Asks dir g scope) (hsettled : known → Settled dir g K (Fits g r K known) fs)
    (hserves : Serves g key b) (hb : Fits g r K known key b.isShared) :
    (unitOf g scope b).Maintains (Stays r known fs) (Agrees g (Fits g r K known) key) := by
  intro site hsite
  have hpassed : Passed scope site (unitOf g scope b site).2 := (unitOf_delivers b site .start).1
  refine ⟨hpassed.stays hfixed hscope hsite,fun code hcode => ?_⟩
  have hrun : unitOf g scope b site = (.ok code,(unitOf g scope b site).2) := Prod.ext hcode rfl
  refine ⟨⟨scope,b,site,_,hserves,hrun⟩,?_,fun p hp => ?_⟩
  · rw [unitOf_shared b site code _ hrun]
    exact hb
  cases (unitOf_pulls hrun).1 p hp with
  | bound hbound =>
    refine ⟨fun b' hb' => ?_,fun _ _ hnone => ?_⟩
    · rw [Option.some.inj (hbound.symm.trans hb')]
    · cases hbound.symm.trans hnone
  | outside _ hnone ht hs =>
    refine ⟨fun b' hb' => ?_,fun hk hkey _ => ?_⟩
    · cases hnone.symm.trans hb'
    · exact scopeOutside_declares hk (hfixed hk) hscope (hsettled hk)
        (ht.stays hfixed hscope hsite) hkey hnone hs

end Units
end Compile

namespace Demand

open Work Compile

variable {dir : String} {g : Graph} {r : Registry} {K : Key → Prop} {known : Prop} {fs : Files}
  {scope : Option ScopeOf} {key : Key}

/-- The unit that is compiled for a key on demand. -/
def codeOf (dir : String) (g : Graph) (scope : Option ScopeOf) (key : Key) : Work Code := do
  let binding ← weave dir (← bindingOf dir g key)
  Compile.unitOf g scope binding

theorem compile_eq (dir : String) (g : Graph) (scope : Option ScopeOf) (key : Key) :
    compile dir g scope key = codeOf dir g scope key >>= fun code => Save.unit dir key code := by
  simp only [compile,codeOf,bind_assoc]

theorem find?_known (hfixed : known → r.Fixed fs) (className : String) :
    (Classes.find? className).Maintains (Stays r known fs)
      fun c => known → c = r.classes.find? className := by
  intro site hsite
  refine ⟨(Stays.keep hfixed className site hsite).1,fun c hc hk => ?_⟩
  have hstanding : Standing r fs site := ⟨hsite.registry hk,hsite.files⟩
  exact (Graph.find?_standing (hfixed hk) className site hstanding).2 c hc

theorem ofClass_known (hfixed : known → r.Fixed fs) (className : String) :
    (Plan.ofClass className).Maintains (Stays r known fs) fun plan =>
      known → ∃ c, r.classes.find? className = some c ∧ plan.shared = c.shared := by
  unfold Plan.ofClass Classes.find
  have hfind : ((Classes.find? className) >>= Work.orElse (.classNotFound className)).Maintains
      (Stays r known fs) fun c => known → r.classes.find? className = some c := by
    refine (find?_known hfixed className).bind fun c hc => ?_
    cases c with
    | none => exact .throw _
    | some c => exact .pure fun hk => (hc hk).symm
  exact hfind.bind fun c hc => .pure fun hk => ⟨c,hc hk,rfl⟩

/-- An inferred plan has the scope of the concrete class that the key asks for. -/
theorem infer_declares (hfixed : known → r.Fixed fs) (key : Key) :
    (infer key).Maintains (Stays r known fs) fun plan =>
      known → r.Declares key.interface plan.shared := by
  unfold infer
  refine (find?_known hfixed key.interface).bind fun c hc => ?_
  cases c with
  | none => exact .throw _
  | some c =>
    dsimp only
    split
    next hconcrete =>
      rw [Bool.and_eq_true] at hconcrete
      refine (ofClass_known hfixed key.interface).imp fun plan hplan hk => ?_
      obtain ⟨c',hc',hshared⟩ := hplan hk
      obtain rfl := Option.some.inj ((hc hk).trans hc')
      exact ⟨c,hc',hconcrete.1,hshared.symm⟩
    next => exact .throw _

theorem bindingOf_fits (hfixed : known → r.Fixed fs)
    (hnull : ∀ interface, g.get? key ≠ some (.nullObject interface)) :
    (bindingOf dir g key).Maintains (Stays r known fs) fun b =>
      Serves g key b ∧ Fits g r K known key b.isShared := by
  unfold bindingOf
  cases hb : g.get? key with
  | none =>
    refine (infer_declares hfixed key).bind fun plan hplan => .pure ⟨fun own hown => ?_,?_,?_⟩
    · cases hb.symm.trans hown
    · exact fun b hb' => nomatch hb.symm.trans hb'
    · exact fun hk _ _ => hplan hk
  | some b =>
    have hfits : Serves g key b ∧ Fits g r K known key b.isShared := by
      refine ⟨serves_own hb,fun b' hb' => ?_,fun _ _ hnone => ?_⟩
      · rw [Option.some.inj (hb.symm.trans hb')]
      · cases hb.symm.trans hnone
    cases b with
    | nullObject interface => exact absurd hb (hnull interface)
    | literal v => exact .pure hfits
    | construction plan => exact .pure hfits
    | provider plan shared context => exact .pure hfits

theorem weave_rewoven (hfixed : known → r.Fixed fs) (dir : String) (b : Binding Value) :
    (weave dir b).Maintains (Stays r known fs) fun woven => ∃ advice, woven = b.rewoven advice := by
  cases b with
  | construction plan =>
    have hread : (Save.pointcuts? dir).Maintains (Stays r known fs) fun _ => True := by
      unfold Save.pointcuts?
      refine (Stays.readIfExists _).bind fun text _ => ?_
      cases text with
      | none => exact .pure trivial
      | some text => exact (decode_maintains _ _).bind fun _ _ => .pure trivial
    unfold weave
    refine hread.bind fun pointcuts _ => ?_
    cases pointcuts with
    | none => exact .pure ⟨plan.advice,rfl⟩
    | some pointcuts =>
      refine ((Stays.keep hfixed).weave pointcuts plan).bind fun woven hwoven => .pure ?_
      obtain ⟨advice,rfl⟩ := hwoven
      exact ⟨advice,rfl⟩
  | literal v => exact .pure ⟨[],rfl⟩
  | provider plan shared context => exact .pure ⟨[],rfl⟩
  | nullObject interface => exact .pure ⟨[],rfl⟩

/-- The scopes that a unit compiled on demand tells fit. -/
theorem codeOf_agrees (hfixed : known → r.Fixed fs) (hscope : Asks dir g scope)
    (hsettled : known → Settled dir g K (Fits g r K known) fs)
    (hnull : ∀ interface, g.get? key ≠ some (.nullObject interface)) :
    (codeOf dir g scope key).Maintains (Stays r known fs) (Agrees g (Fits g r K known) key) := by
  unfold codeOf
  refine (bindingOf_fits (K := K) hfixed hnull).bind fun b ⟨hserves,hfits⟩ => ?_
  refine (weave_rewoven hfixed dir b).bind fun woven ⟨advice,hwoven⟩ => ?_
  subst hwoven
  refine unitOf_agrees hfixed hscope hsettled (fun own hown => ?_) ?_
  · obtain ⟨first,rfl⟩ := hserves own hown
    exact ⟨advice,own.rewoven_rewoven ..⟩
  · rw [b.isShared_rewoven]
    exact hfits

end Demand
end Wiring
