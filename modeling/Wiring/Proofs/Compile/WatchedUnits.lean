import Mathlib
import Wiring.Proofs.Compile.Watched

/-!
# Units compiled under watch

A unit that is compiled at a sound site for a binding that fits pulls no instance of the key
that is watched as a singleton, and says that it is shared only if it is not that of the key.
The same holds of the unit that its text is read back as. So units may be saved, and the site
stays sound through whole compiles and compiles on demand.
-/
namespace Wiring.Watch

open Work Wiring.Path
open Script (isNameText)

variable {W : Watch} {σ : Seal} {made : List Nat} {g : Graph} {scope : Option ScopeOf} {key : Key}
  {b : Binding Value} {own : Prop}

section Scopes

/-- Asked for a scope, the resolver leaves the site sound; it never says that the key is shared. -/
def Tells (W : Watch) (σ : Seal) (made : List Nat) (scope : Option ScopeOf) : Prop :=
  ∀ scopeOf, scope = some scopeOf → ∀ key, (scopeOf key).Maintains (W.Sound σ made)
    fun shared => key = W.key → shared = false

theorem tells_none : W.Tells σ made none := fun _ h => by cases h

theorem isShared_of_anew (h : Anew b) : b.isShared = false := by
  obtain ⟨plan,rfl,hshared⟩ := h
  exact hshared

theorem GraphFits.unbound (h : W.GraphFits σ g) (hnone : g.get? W.key = none) : ¬W.bound := by
  intro hbound
  obtain ⟨b,hb⟩ := Graph.get?_of_has (h.bound hbound)
  cases hnone.symm.trans hb

theorem pointcuts_sound {dir : String} (hdir : W.dir? = some dir) :
    (Save.pointcuts? dir).Maintains (W.Sound σ made) fun answer =>
      ∀ ps, answer = some ps → ∀ p ∈ ps, ∀ i ∈ p.interceptors, Key.any i ≠ W.key := by
  unfold Save.pointcuts?
  refine (readIfExists_sound _).bind fun answer hanswer => ?_
  cases answer with
  | none => exact .pure (by simp)
  | some text =>
    refine (decode_reads text (Json.asList Pointcut.ofJson?)).bind fun ps hps => ?_
    refine .pure fun found hfound => ?_
    rw [← Option.some.inj hfound]
    exact (hanswer text rfl).pointcuts dir hdir rfl ps hps

theorem saved_sound {dir : String} (hdir : W.dir? = some dir) (key : Key) :
    (Save.scope? dir key).Maintains (W.Sound σ made)
      fun answer => ¬W.bound → key = W.key → answer ≠ some true := by
  unfold Save.scope?
  refine (readIfExists_sound _).bind fun answer hanswer => ?_
  cases answer with
  | none => exact .pure (by simp)
  | some text =>
    refine (decode_reads text Save.scopeOfJson?).bind fun shared hshared => ?_
    refine .pure fun hunbound hkey htrue => ?_
    subst hkey
    obtain rfl := Option.some.inj htrue
    exact (hanswer text rfl).scope hunbound dir hdir rfl hshared

theorem scopeIn_tells {dir : String} (hdir : W.dir? = some dir) (hg : W.GraphFits σ g) :
    W.Tells σ made (some (Resolve.scopeIn dir g)) := by
  rintro _ ⟨⟩ key
  unfold Resolve.scopeIn
  cases hb : g.get? key with
  | some b => exact .pure fun hkey => isShared_of_anew (hg.get_own (hkey ▸ hb))
  | none =>
    refine (saved_sound hdir key).bind fun answer hanswer => ?_
    cases answer with
    | none => exact .throw _
    | some shared =>
      refine .pure fun hkey => ?_
      subst hkey
      simpa using hanswer (hg.unbound hb) rfl

theorem directScope_tells (hg : W.GraphFits σ g) :
    W.Tells σ made (some (Resolve.directScope g)) := by
  rintro _ ⟨⟩ key
  unfold Resolve.directScope
  cases hb : g.get? key with
  | some b => exact .pure fun hkey => isShared_of_anew (hg.get_own (hkey ▸ hb))
  | none => exact .throw _

theorem inferredScope_sound (key : Key) :
    (Compile.inferredScope key).Maintains (W.Sound σ made)
      fun answer => ¬W.bound → key = W.key → answer ≠ some true := by
  unfold Compile.inferredScope
  split
  · exact .pure (by simp)
  · refine (find?_sound key.interface).bind fun c hc => ?_
    cases c with
    | none => exact .pure (by simp)
    | some c =>
      refine .pure fun hunbound hkey => ?_
      have hfits := hc c rfl
      rw [hkey] at hfits
      have hshared := W.unshared.resolve_left hunbound c hfits.declared
      split
      · simp [hshared]
      · simp

theorem scopeOutside_sound (hscope : W.Tells σ made scope) (key : Key) :
    (Compile.scopeOutside scope key).Maintains (W.Sound σ made)
      fun answer => ¬W.bound → key = W.key → answer ≠ some true := by
  unfold Compile.scopeOutside
  cases scope with
  | none => exact inferredScope_sound key
  | some scopeOf =>
    dsimp only
    refine (hscope scopeOf rfl key).attempt.bind fun answer hanswer => ?_
    split
    next shared => exact .pure fun _ hkey => by simp [hanswer hkey]
    next => exact inferredScope_sound key
    next => exact .throw _

theorem passed_sound (hscope : W.Tells σ made scope) {start site : Site}
    (hstart : W.Sound σ made start) (h : Compile.Passed scope start site) : W.Sound σ made site := by
  induction h with
  | start => exact hstart
  | told key _ ih => exact (scopeOutside_sound hscope key _ ih).1

end Scopes

section Units

theorem BindingFits.plan {plan : Plan Value} (h : W.BindingFits σ b) (hplan : b.plan? = some plan) :
    W.PlanFits σ plan := by
  cases h with
  | construction h => exact Option.some.inj hplan ▸ h
  | provider h => exact Option.some.inj hplan ▸ h
  | literal => cases hplan
  | nullObject => cases hplan

theorem BindingFits.names (h : W.BindingFits σ b) : ∀ name ∈ b.names, W.Named name := by
  cases h with
  | construction h => exact List.forall_mem_cons.mpr ⟨fun _ => by decide,h.names⟩
  | provider h =>
    exact List.forall_mem_cons.mpr ⟨fun _ => by decide,
      List.forall_mem_cons.mpr ⟨fun _ => by decide,h.names⟩⟩
  | literal => exact fun _ hname => by cases hname
  | nullObject => exact fun _ hname => by cases hname

/-- All values that the unit of the binding can show are plain. -/
theorem BindingFits.plain (h : W.BindingFits σ b) (hg : W.GraphFits σ g) {v : Value}
    (hv : Compile.Holds g b v) : W.Plain σ v := by
  cases hv with
  | own => cases h with | literal h => exact h
  | bound hb => cases hg.get hb with | literal h => exact h
  | fallback hplan ha hv => exact ((h.plan hplan).arguments _ ha).fallback v hv

theorem BindingFits.intercepted (h : W.BindingFits σ b) :
    ∀ p ∈ b.intercepted, p ≠ ⟨true,W.key⟩ := by
  cases h with
  | construction _ ha =>
    intro p hp he
    obtain ⟨row,hrow,hp⟩ := List.mem_flatMap.mp hp
    obtain ⟨i,hi,rfl⟩ := List.mem_map.mp hp
    exact ha row hrow i hi (Pull.mk.inj he).2
  | literal => exact fun _ hp => by cases hp
  | provider => exact fun _ hp => by cases hp
  | nullObject => exact fun _ hp => by cases hp

/-- A pull that the graph and the scopes justify is not one of the key as a singleton. -/
theorem justified_fits (hg : W.GraphFits σ g) (hscope : W.Tells σ made scope) {start : Site}
    (hstart : W.Sound σ made start) {as : List (Argument Value)} {p : Pull}
    (h : Compile.Justified g scope start as p) : p ≠ ⟨true,W.key⟩ := by
  intro he
  cases h with
  | bound hb =>
    obtain ⟨hshared,hkey⟩ := Pull.mk.inj he
    rw [isShared_of_anew (hg.get_own (hkey ▸ hb))] at hshared
    cases hshared
  | @outside a shared site site' _ hnone hpassed htold =>
    obtain ⟨rfl,hkey⟩ := Pull.mk.inj he
    have hsound := scopeOutside_sound hscope a.key site (passed_sound hscope hstart hpassed)
    rw [htold] at hsound
    exact hsound.2 _ rfl (hg.unbound (hkey ▸ hnone)) hkey rfl

/-- A unit whose names are names is read back from its text as one that runs alike. -/
theorem parsed_runs {code : Code} {site site' : Site}
    (h : Compile.unitOf g scope b site = (.ok code,site'))
    (hnames : ∀ name ∈ code.names, isNameText name = true) (hruns : W.Runs own code.statements)
    {file : String} {statements : List Script.Statement}
    (hparsed : Script.parseUnit file code.source = .ok statements) : W.Runs own statements := by
  have hsaved := Compile.unitOf_saved g scope b site code site' h
  have hprintable : ∀ t ∈ code.statements, t.reparsed.printable = true := fun t ht =>
    (hsaved t ht).printable fun name hname => hnames name (List.mem_flatMap.mpr ⟨t,ht,hname⟩)
  have hback := Script.parseUnit_reparsed file hprintable
  rw [← Except.ok.inj (hback.symm.trans hparsed)]
  obtain ⟨d,hd,hpulls,hown⟩ := hruns
  refine ⟨d,fun s unit => ?_,hpulls,hown⟩
  rw [Script.runUnit_reparsed]
  exact hd s unit

theorem unitOf_fits (hg : W.GraphFits σ g) (hb : W.BindingFits σ b) (hown : own → Anew b)
    (hscope : W.Tells σ made scope) :
    (Compile.unitOf g scope b).Maintains (W.Sound σ made) (W.CodeFits own) := by
  intro site hsite
  have hpassed : Compile.Passed scope site (Compile.unitOf g scope b site).2 :=
    (Compile.unitOf_delivers b site .start).1
  refine ⟨passed_sound hscope hsite hpassed,fun code hcode => ?_⟩
  have hrun : Compile.unitOf g scope b site = (.ok code,(Compile.unitOf g scope b site).2) :=
    Prod.ext hcode rfl
  obtain ⟨d,hd,hwritten⟩ := (Compile.unitOf_delivers b site .start).2 code hcode
  have hpulls : ∀ p ∈ d.supplied ++ d.intercepted, p ≠ ⟨true,W.key⟩ := by
    obtain ⟨hsupplied,hall⟩ := Compile.unitOf_pulls hrun
    rw [← hwritten.pulls,show code.statements.flatMap Script.Statement.pulls = _ from hall]
    refine List.forall_mem_append.mpr ⟨fun p hp => ?_,hb.intercepted⟩
    exact justified_fits hg hscope hsite (hsupplied p hp)
  have hruns : W.Runs own code.statements := by
    refine ⟨d,fun s unit => hwritten.run,hpulls,fun h => ?_⟩
    obtain ⟨plan,rfl,hshared⟩ := hown h
    cases hd with
    | construction => exact ⟨_,_,by rw [hshared]⟩
  refine ⟨hruns,fun hdir file statements hparsed => ?_,fun h => ?_,fun q hq => ?_⟩
  · refine parsed_runs hrun (fun name hname => ?_) hruns hparsed
    have hlegible : Compile.Legible scope site W.Named (Compile.Holds g b) := fun v hv later hl =>
      hb.plain hg hv later.heap (passed_sound hscope hsite hl).sealed
    exact Compile.unitOf_names hlegible hb.names hrun name hname hdir
  · rw [Compile.unitOf_shared b site code _ hrun]
    exact isShared_of_anew (hown h)
  · obtain ⟨a,ha,hparameter,_⟩ := Compile.unitOf_qualifiers b site code _ hrun q hq
    rw [← hparameter]
    cases hb with
    | construction hplan => exact (hplan.arguments a ha).parameter
    | provider hplan => exact (hplan.arguments a ha).parameter
    | literal => cases ha
    | nullObject => cases ha

end Units

section Saving

variable {dir : String}

theorem valueText_sound (v : Value) :
    (Save.valueText v).Maintains (W.Sound σ made) fun _ => True := by
  have hheap : Work.heap.Maintains (W.Sound σ made) fun _ => True := look_sound fun _ _ => trivial
  unfold Save.valueText
  exact hheap.bind fun _ _ => (Batch.orElse_maintains _ _).bind fun _ _ => .pure trivial

theorem saveUnit_sound (hdir : W.dir? = some dir) (hused : W.used key) {code : Code}
    (hcode : W.CodeFits (key = W.key) code) :
    (Save.unit dir key code).Maintains (W.Sound σ made) fun _ => True := by
  have hqualifiers (qs : List Qualifier) (hqs : ∀ q ∈ qs, W.Named q.1.name) :
      (qs.forM (Save.qualifier dir)).Maintains (W.Sound σ made) fun _ => True := by
    induction qs with
    | nil => exact .pure trivial
    | cons q rest ih =>
      obtain ⟨hq,hrest⟩ := List.forall_mem_cons.mp hqs
      have hfirst : (Save.qualifier dir q).Maintains (W.Sound σ made) fun _ => True :=
        (valueText_sound q.2).bind fun text _ => write_sound (.qualifierPath hdir hq text)
      rw [Save.qualifiers_cons]
      exact hfirst.bind fun _ _ => ih hrest
  unfold Save.unit
  refine (write_sound (.unitPath hdir hused hcode)).bind fun _ _ => ?_
  refine (write_sound (.metaPath hdir hused hcode.shared)).bind fun _ _ => ?_
  exact hqualifiers code.qualifiers hcode.qualifiers

/-- A graph is not saved where one has to be there already. -/
theorem saveGraph_sound (hdir : W.dir? = some dir) (g : Graph) :
    (Save.graph dir g).Maintains (W.Sound σ made) fun _ => True := by
  have hget : (get : Work Site).Maintains (W.Sound σ made) (W.Sound σ made) :=
    fun site hsite => ⟨hsite,fun a ha => Except.ok.inj ha ▸ hsite⟩
  have hheap : Work.heap.Maintains (W.Sound σ made) fun _ => True := look_sound fun _ _ => trivial
  have htext : (Save.graphText g).Maintains (W.Sound σ made) fun _ => True := by
    unfold Save.graphText
    exact hheap.bind fun _ _ => (Batch.orElse_maintains _ _).bind fun _ _ => .pure trivial
  unfold Save.graph
  refine hget.bind fun site hsite => ?_
  split
  next => exact .pure trivial
  next hmissing =>
    have hnot : ¬W.recorded := fun hrecorded => hmissing (hsite.recorded hrecorded dir hdir)
    refine htext.bind fun text _ => ?_
    exact (write_sound (.modulePath hnot dir text)).bind fun _ _ => .pure trivial

theorem qualifier?_sound (dir : String) (p : Parameter) :
    (Save.qualifier? dir p).Maintains (W.Sound σ made) fun _ => True := by
  unfold Save.qualifier?
  refine (readIfExists_sound _).bind fun answer _ => ?_
  cases answer with
  | none => exact .pure trivial
  | some text =>
    exact (decode_reads text _).bind fun t _ => (build_sound none t).bind fun _ _ => .pure trivial

end Saving

section Compiling

variable {dir : String}

theorem log_sound (batch : Batch) (text : String) :
    (batch.log text).Maintains (W.Sound σ made) fun _ => True :=
  append_sound text fun all => .logPath batch.dir all

theorem make_sound (dir : String) (hg : W.GraphFits σ g) :
    (Batch.make dir g).Maintains (W.Sound σ made)
      fun batch => batch.dir = dir ∧ W.GraphFits σ batch.graph :=
  (ensureDirectory_sound dir).bind fun _ _ =>
    (prepare_sound dir hg).bind fun _ hprepared => .pure ⟨rfl,hprepared⟩

variable {batch : Batch}

theorem compileKey_sound (hdir : W.dir? = some batch.dir) (hg : W.GraphFits σ batch.graph)
    (hb : batch.graph.get? key = some b) :
    (batch.compileKey key b).Maintains (W.Sound σ made) fun _ => True := by
  unfold Batch.compileKey
  have hunit : (Compile.unitOf batch.graph none b).Maintains (W.Sound σ made)
      (W.CodeFits (key = W.key)) :=
    unitOf_fits hg (hg.get hb) (fun hkey => hg.get_own (hkey ▸ hb)) tells_none
  refine hunit.attempt.bind fun answer hanswer => ?_
  cases answer with
  | ok code => exact saveUnit_sound hdir (hg.used key (Graph.has_of_get? hb)) hanswer
  | error f => exact (log_sound batch _).bind fun _ _ => .throw f

/-- The induction is on the keys that are left to compile. -/
theorem compileKeys_sound (hdir : W.dir? = some batch.dir) (hg : W.GraphFits σ batch.graph)
    (keys : List Key) : (batch.compileKeys keys).Maintains (W.Sound σ made) fun _ => True := by
  induction keys with
  | nil => exact .pure trivial
  | cons key rest ih =>
    rw [Batch.compileKeys]
    refine (log_sound batch _).bind fun _ _ => ?_
    cases hb : batch.graph.get? key with
    | none => exact ih
    | some b => exact (compileKey_sound hdir hg hb).bind fun _ _ => ih

theorem compileUnits_sound (hdir : W.dir? = some batch.dir) (hg : W.GraphFits σ batch.graph) :
    batch.compileUnits.Maintains (W.Sound σ made) fun _ => True :=
  (log_sound batch "").bind fun _ _ => compileKeys_sound hdir hg _

theorem savePointcuts_sound (hg : W.GraphFits σ batch.graph) :
    batch.savePointcuts.Maintains (W.Sound σ made) fun _ => True := by
  unfold Batch.savePointcuts Save.pointcuts
  exact write_sound (.pointcutsPath batch.dir hg.interceptors)

/-- A whole compile leaves the site sound, however far it comes. -/
theorem compile_sound (hdir : W.dir? = some batch.dir) (hg : W.GraphFits σ batch.graph) :
    batch.compile.Maintains (W.Sound σ made) fun _ => True := by
  unfold Batch.compile
  refine (compileUnits_sound hdir hg).bind fun _ _ => (savePointcuts_sound hg).bind fun _ _ => ?_
  exact (saveGraph_sound hdir batch.graph).attempt.bind fun _ _ => .pure trivial

/-- The binding that is compiled on demand is that of the graph, or inferred for a key that may
get a unit. -/
theorem bindingOf_sound (hg : W.GraphFits σ g) (dir : String) (key : Key) :
    (Demand.bindingOf dir g key).Maintains (W.Sound σ made)
      fun b => W.BindingFits σ b ∧ W.used key ∧ (key = W.key → Anew b) := by
  unfold Demand.bindingOf
  cases hb : g.get? key with
  | none =>
    refine (infer_sound key).bind fun plan ⟨hany,c,hplan,hc⟩ => ?_
    subst hplan
    refine .pure ⟨fits_unwoven hc.plan rfl,?_,fun hkey => ?_⟩
    · rw [← Key.any_interface hany]
      exact W.inferred _ c hc.declared
    · subst hkey
      exact ⟨_,rfl,W.unshared.resolve_left (hg.unbound hb) c hc.declared⟩
  | some b =>
    have hfits := hg.get hb
    have hused := hg.used key (Graph.has_of_get? hb)
    have hown : key = W.key → Anew b := fun hkey => hg.get_own (hkey ▸ hb)
    cases hfits with
    | nullObject hname =>
      refine (nullObject_sound hname).bind fun plan ⟨hplan,hunwoven⟩ => .pure ⟨?_,hused,?_⟩
      · exact fits_unwoven hplan hunwoven
      · intro hkey
        obtain ⟨_,hnull,_⟩ := hown hkey
        cases hnull
    | literal hv => exact .pure ⟨.literal hv,hused,hown⟩
    | construction hplan ha => exact .pure ⟨.construction hplan ha,hused,hown⟩
    | provider hplan shared context => exact .pure ⟨.provider hplan shared context,hused,hown⟩

theorem demandWeave_sound (hdir : W.dir? = some dir) (hb : W.BindingFits σ b) :
    (Demand.weave dir b).Maintains (W.Sound σ made)
      fun woven => W.BindingFits σ woven ∧ (Anew b → Anew woven) := by
  cases hb with
  | @construction plan hplan ha =>
    unfold Demand.weave
    refine (pointcuts_sound hdir).bind fun answer hanswer => ?_
    cases answer with
    | none => exact .pure ⟨.construction hplan ha,id⟩
    | some ps =>
      refine (plan_sound (hanswer ps rfl) hplan ha).bind fun woven ⟨advice,hwoven,hfits⟩ => ?_
      subst hwoven
      exact .pure ⟨hfits,fun h => h.rewoven advice⟩
  | literal hv => exact .pure ⟨.literal hv,id⟩
  | provider hplan shared context => exact .pure ⟨.provider hplan shared context,id⟩
  | nullObject hname => exact .pure ⟨.nullObject hname,id⟩

/-- A compile on demand leaves the site sound. -/
theorem demand_sound (hdir : W.dir? = some dir) (hg : W.GraphFits σ g)
    (hscope : W.Tells σ made scope) (key : Key) :
    (Demand.compile dir g scope key).Maintains (W.Sound σ made) fun _ => True := by
  unfold Demand.compile
  refine (bindingOf_sound hg dir key).bind fun b ⟨hb,hused,hown⟩ => ?_
  refine (demandWeave_sound hdir hb).bind fun woven ⟨hwoven,hanew⟩ => ?_
  refine (unitOf_fits hg hwoven (fun hkey => hanew (hown hkey)) hscope).bind fun code hcode => ?_
  exact saveUnit_sound hdir hused hcode

/-- The code that a direct injector compiles for a key. -/
theorem directCode_sound (hg : W.GraphFits σ g) (key : Key) :
    (do Compile.unitOf g (some (Resolve.directScope g)) (← Resolve.directBinding g key) :
      Work Code).Maintains (W.Sound σ made) (W.CodeFits (key = W.key)) := by
  have hbinding : (Resolve.directBinding g key).Maintains (W.Sound σ made)
      fun b => W.BindingFits σ b ∧ (key = W.key → Anew b) := by
    unfold Resolve.directBinding
    cases hb : g.get? key with
    | some b => exact .pure ⟨hg.get hb,fun hkey => hg.get_own (hkey ▸ hb)⟩
    | none =>
      refine (infer_sound key).bind fun plan ⟨_,c,hplan,hc⟩ => ?_
      subst hplan
      refine (plan_sound hg.interceptors hc.plan spares_nil).bind fun woven ⟨advice,he,hfits⟩ => ?_
      subst he
      refine .pure ⟨hfits,fun hkey => ?_⟩
      subst hkey
      exact ⟨_,rfl,W.unshared.resolve_left (hg.unbound hb) c hc.declared⟩
  exact hbinding.bind fun b ⟨hb,hown⟩ => unitOf_fits hg hb hown (directScope_tells hg)

end Compiling
end Wiring.Watch
