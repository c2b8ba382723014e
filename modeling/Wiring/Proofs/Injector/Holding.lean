import Mathlib
import Wiring.Proofs.Compile.WatchedGraphs
import Wiring.Proofs.Injector.Sharing
import Wiring.Proofs.Value.Attaching

/-!
# Injectors under watch

A world is held under watch if its site is sound and all its injectors fit: none of them keeps
an instance of the key, their graphs fit, and so do the units they have read or compiled. To get
at a unit leaves the world held, whether the unit is there, or has to be compiled first, or cannot
be compiled at all. And the unit that is got fits.
-/
namespace Wiring

variable {α β : Type}

namespace Act

/-- An answer comes with the one property of the world, a failure with the other. -/
def Ends (post : α → World → Prop) (fails : World → Prop) : Except Failure α × World → Prop
  | (.ok a,w) => post a w
  | (.error _,w) => fails w

/-- Started where the first property holds, the action ends with the others. -/
structure Leads (pre : World → Prop) (a : Act α) (post : α → World → Prop) (fails : World → Prop) :
    Prop where
  ends : ∀ w, pre w → Ends post fails (a w)

namespace Leads

variable {pre fails : World → Prop} {a : Act α} {post : α → World → Prop} {more : β → World → Prop}

theorem pure {x : α} (h : ∀ w, pre w → post x w) : Leads pre (Pure.pure x) post fails :=
  ⟨fun w hw => h w hw⟩

theorem throw (f : Failure) (h : ∀ w, pre w → fails w) :
    Leads pre (MonadExcept.throw f : Act α) post fails := ⟨fun w hw => h w hw⟩

theorem bind {f : α → Act β} (h : Leads pre a post fails)
    (hf : ∀ x, Leads (post x) (f x) more fails) : Leads pre (a >>= f) more fails := by
  refine ⟨fun w hw => ?_⟩
  have hends := h.ends w hw
  cases ha : a w with
  | mk answer next =>
    rw [ha] at hends
    cases answer with
    | ok x =>
      rw [Work.run_bind ha]
      exact (hf x).ends next hends
    | error e =>
      rw [Work.run_bind_error f ha]
      exact hends

theorem imp {post' : α → World → Prop} (h : Leads pre a post fails)
    (hpost : ∀ x w, post x w → post' x w) : Leads pre a post' fails := by
  refine ⟨fun w hw => ?_⟩
  have hends := h.ends w hw
  cases ha : a w with
  | mk answer next =>
    rw [ha] at hends
    cases answer with
    | ok x => exact hpost x next hends
    | error e => exact hends

theorem before {pre' : World → Prop} (h : Leads pre a post fails) (hpre : ∀ w, pre' w → pre w) :
    Leads pre' a post fails := ⟨fun w hw => h.ends w (hpre w hw)⟩

theorem orThrow (answer : Except Failure α) (h : ∀ w, pre w → fails w) :
    Leads pre (Act.orThrow answer) (fun x w => pre w ∧ answer = .ok x) fails := by
  cases answer with
  | ok x => exact pure fun _ hw => ⟨hw,rfl⟩
  | error f => exact throw f h

/-- A fact that comes with the start may be used. -/
theorem given {p : Prop} (h : p → Leads pre a post fails) :
    Leads (fun w => pre w ∧ p) a post fails := ⟨fun w hw => (h hw.2).ends w hw.1⟩

theorem any {ι : Type} {start : ι → World → Prop} (h : ∀ i, Leads (start i) a post fails) :
    Leads (fun w => ∃ i, start i w) a post fails := ⟨fun w ⟨i,hw⟩ => (h i).ends w hw⟩

end Leads
end Act

namespace Watch

open Act
open Script (Statement)

variable (W : Watch) (σ : Seal) (made : List Nat)

structure ScriptFits (s : ScriptInjector) : Prop where
  dir : W.dir? = some s.dir
  free : s.singletons.find? W.key = none
  units : ∀ key statements, s.units.find? key = some statements → W.Runs (key = W.key) statements
  graph : ∀ g, s.graph = some g → W.GraphFits σ g
  source : s.graph = none → ∀ m, s.source = some m → W.Builds m.statements
  recorded : s.graph = none → s.source = none → W.recorded

structure DirectFits (d : DirectInjector) : Prop where
  free : d.singletons.find? W.key = none
  graph : W.GraphFits σ d.graph
  codes : ∀ key code, d.codes.find? key = some code → W.Runs (key = W.key) code.statements

/-- The injector keeps no instance of the key, and nothing that it knows says that it should. -/
def InjectorFits : Injector → Prop
  | .script s => W.ScriptFits σ s
  | .direct d => W.DirectFits σ d

/-- The world is held under watch, with these objects made by units and the others sealed. -/
structure HeldAt (w : World) : Prop where
  site : W.Sound σ made w.site
  injectors : ∀ id i, w.injector? id = some i → W.InjectorFits σ i

def Held (w : World) : Prop := ∃ σ, W.HeldAt σ made w

/-- The action ends with the world held, and an answer with the property. -/
abbrev Safe (pre : World → Prop) (a : Act α) (post : α → World → Prop) : Prop :=
  Leads pre a post (W.Held made)

variable {W σ made}

section Injectors

theorem InjectorFits.within {τ : Seal} {i : Injector} (h : W.InjectorFits σ i) (hw : σ.Within τ) :
    W.InjectorFits τ i := by
  cases i with
  | script s => exact { h with graph := fun g hg => (h.graph g hg).within hw }
  | direct d => exact { h with graph := h.graph.within hw }

theorem InjectorFits.free {i : Injector} (h : W.InjectorFits σ i) :
    i.singletons.find? W.key = none := by
  cases i with
  | script s => exact ScriptFits.free h
  | direct d => exact DirectFits.free h

theorem InjectorFits.setPoint {i : Injector} (h : W.InjectorFits σ i) (point : Option Parameter) :
    W.InjectorFits σ (i.setPoint point) := by
  cases i with
  | script s => exact { h with }
  | direct d => exact { h with }

/-- Instances of other keys may be kept. -/
theorem InjectorFits.remember {i : Injector} (h : W.InjectorFits σ i) {key : Key}
    (hkey : key ≠ W.key) (v : Value) : W.InjectorFits σ (i.remember key v) := by
  have hfree (t : Table Key Value) (ht : t.find? W.key = none) :
      (t.put key v).find? W.key = none :=
    (Table.find?_put_of_ne t v (Ne.symm hkey)).trans ht
  cases i with
  | script s => exact { h with free := hfree _ (ScriptFits.free h) }
  | direct d => exact { h with free := hfree _ (DirectFits.free h) }

theorem HeldAt.held {w : World} (h : W.HeldAt σ made w) : W.Held made w := ⟨σ,h⟩

theorem HeldAt.withInjector {w : World} (h : W.HeldAt σ made w) (id : InjectorId)
    {f : Injector → Injector} (hf : ∀ i, W.InjectorFits σ i → W.InjectorFits σ (f i)) :
    W.HeldAt σ made (w.withInjector id f) where
  site := by
    unfold World.withInjector
    cases w.injector? id <;> exact h.site
  injectors other i hi := by
    rw [World.injector?_withInjector] at hi
    split at hi
    next =>
      obtain ⟨j,hj,hij⟩ := Option.map_eq_some_iff.mp hi
      rw [← hij]
      exact hf j (h.injectors id j hj)
    next => exact h.injectors other i hi

theorem Held.mono {fewer : List Nat} {w : World} (h : W.Held made w) (hsub : fewer ⊆ made) :
    W.Held fewer w := by
  obtain ⟨σ,hσ⟩ := h
  exact ⟨σ,hσ.site.mono hsub,hσ.injectors⟩

end Injectors

section Steps

variable {id : InjectorId} {key : Key}

/-- Work at the site that leaves it sound. -/
theorem onSite_safe {w : Work α} {P : α → Prop} (h : w.Maintains (W.Sound σ made) P) :
    W.Safe made (W.HeldAt σ made) (onSite w) fun a w => W.HeldAt σ made w ∧ P a := by
  refine ⟨fun world hworld => ?_⟩
  obtain ⟨hsite,hanswer⟩ := h world.site hworld.site
  have hrun : onSite w world =
      ((w world.site).1,{ world with site := (w world.site).2 }) := rfl
  have hnext : W.HeldAt σ made { world with site := (w world.site).2 } :=
    ⟨hsite,hworld.injectors⟩
  rw [hrun]
  cases ha : (w world.site).1 with
  | ok a => exact ⟨hnext,hanswer a ha⟩
  | error f => exact hnext.held

theorem widens_safe {w : Work α} {P : Seal → α → Prop} (h : W.Widens σ made w P) :
    W.Safe made (W.HeldAt σ made) (onSite w) fun a w => ∃ τ, W.HeldAt τ made w ∧ P τ a := by
  refine ⟨fun world hworld => ?_⟩
  obtain ⟨τ,hwithin,hsite,hanswer⟩ := h world.site hworld.site
  have hrun : onSite w world =
      ((w world.site).1,{ world with site := (w world.site).2 }) := rfl
  have hnext : W.HeldAt τ made { world with site := (w world.site).2 } :=
    ⟨hsite,fun id i hi => (hworld.injectors id i hi).within hwithin⟩
  rw [hrun]
  cases ha : (w world.site).1 with
  | ok a => exact ⟨τ,hnext,hanswer a ha⟩
  | error f => exact hnext.held

theorem onSite_held {w : Work α} {P : α → Prop} (h : w.Maintains (W.Sound σ made) P) :
    W.Safe made (W.HeldAt σ made) (onSite w) fun _ => W.Held made :=
  (onSite_safe h).imp fun _ _ hw => hw.1.held

/-- What is safe wherever the world is held is so under any seal. -/
theorem at_seal {a : Act α} {post : α → World → Prop} (h : W.Safe made (W.Held made) a post) :
    W.Safe made (W.HeldAt σ made) a post := h.before fun _ hw => hw.held

theorem fileExists_safe (path : String) : W.Safe made (W.HeldAt σ made)
    (Resolve.fileExists path) fun _ => W.HeldAt σ made := ⟨fun _ hw => hw⟩

theorem injector_safe (id : InjectorId) : W.Safe made (W.HeldAt σ made) (Act.injector id)
    fun i w => W.HeldAt σ made w ∧ W.InjectorFits σ i := by
  refine ⟨fun w hw => ?_⟩
  cases hi : w.injector? id with
  | some i =>
    rw [Resolve.injector_run hi]
    exact ⟨hw,hw.injectors id i hi⟩
  | none =>
    rw [Resolve.injector_gone hi]
    exact hw.held

theorem scriptInjector_safe (id : InjectorId) : W.Safe made (W.HeldAt σ made)
    (scriptInjector id) fun s w => W.HeldAt σ made w ∧ W.ScriptFits σ s := by
  refine (injector_safe id).bind fun i => ?_
  cases i with
  | script s => exact .pure fun _ hw => hw
  | direct d => exact .throw _ fun _ hw => hw.1.held

theorem modifyInjector_safe {f : Injector → Injector}
    (h : ∀ i, W.InjectorFits σ i → W.InjectorFits σ (f i)) :
    W.Safe made (W.HeldAt σ made) (modifyInjector id f) fun _ => W.HeldAt σ made :=
  ⟨fun _ hw => hw.withInjector id h⟩

theorem modifyScript_safe {f : ScriptInjector → ScriptInjector}
    (h : ∀ s, W.ScriptFits σ s → W.ScriptFits σ (f s)) :
    W.Safe made (W.HeldAt σ made) (modifyScript id f) fun _ => W.HeldAt σ made := by
  refine modifyInjector_safe fun i hi => ?_
  cases i with
  | script s => exact h s hi
  | direct d => exact hi

theorem modifyDirect_safe {f : DirectInjector → DirectInjector}
    (h : ∀ d, W.DirectFits σ d → W.DirectFits σ (f d)) :
    W.Safe made (W.HeldAt σ made) (modifyDirect id f) fun _ => W.HeldAt σ made := by
  refine modifyInjector_safe fun i hi => ?_
  cases i with
  | script s => exact hi
  | direct d => exact h d hi

end Steps

section Units

open Resolve

variable {id : InjectorId} {key : Key}

/-- A graph comes with a seal under which it fits. -/
abbrev Fitted (W : Watch) (made : List Nat) (g : Graph) (w : World) : Prop :=
  ∃ τ, W.HeldAt τ made w ∧ W.GraphFits τ g

theorem buildModule_safe {m : LazyModule} (h : W.Builds m.statements) :
    W.Safe made (W.HeldAt σ made) (buildModule m) (W.Fitted made) := by
  have hcount (f : World → World) (hsite : ∀ w, (f w).site = w.site)
      (hinjectors : ∀ w, (f w).injectors = w.injectors) :
      W.Safe made (W.HeldAt σ made) (modify f : Act Unit) fun _ => W.HeldAt σ made := by
    refine ⟨fun w hw => ⟨?_,fun other i hi => hw.injectors other i ?_⟩⟩
    · rw [hsite]
      exact hw.site
    · rw [World.injector?,hinjectors] at hi
      exact hi
  unfold buildModule
  cases m.label with
  | some label =>
    dsimp only
    exact (hcount _ (fun _ => by rfl) fun _ => by rfl).bind fun _ => widens_safe (ofModule_widens h)
  | none => exact widens_safe (ofModule_widens h)

/-- The graph of an injector fits, whether it is known, is built now or was saved before. -/
theorem graphOf_safe (id : InjectorId) :
    W.Safe made (W.Held made) (graphOf id) (W.Fitted made) := by
  have hkeep (g : Graph) : W.Safe made (W.Fitted made g)
      (do modifyScript id fun s => { s with graph := some g }
          return g : Act Graph) (W.Fitted made) := by
    refine .any fun τ => .given fun hg => ?_
    have hfits (s : ScriptInjector) (hs : W.ScriptFits τ s) :
        W.ScriptFits τ { s with graph := some g } :=
      { hs with
        graph := fun g' hg' => Option.some.inj hg' ▸ hg
        source := fun h => by cases h
        recorded := fun h => by cases h }
    exact (modifyScript_safe hfits).bind fun _ => .pure fun _ hw => ⟨τ,hw,hg⟩
  unfold graphOf
  refine .any fun σ => (scriptInjector_safe id).bind fun s => .given fun hs => ?_
  cases hgraph : s.graph with
  | some g => exact .pure fun _ hw => ⟨σ,hw,hs.graph g hgraph⟩
  | none =>
    dsimp only
    cases hsource : s.source with
    | some m => exact (buildModule_safe (hs.source hgraph m hsource)).bind hkeep
    | none =>
      have hrecorded := hs.recorded hgraph hsource
      refine (widens_safe (graph?_widens hs.dir hrecorded)).bind fun answer => ?_
      have hthere (w : World)
          (hw : ∃ τ, W.HeldAt τ made w ∧ ∃ g, answer = some g ∧ W.GraphFits τ g) :
          W.Fitted made (answer.getD .empty) w := by
        obtain ⟨τ,hτ,g,rfl,hg⟩ := hw
        exact ⟨τ,hτ,hg⟩
      exact .bind (.pure hthere) hkeep

theorem compileAll_safe (id : InjectorId) :
    W.Safe made (W.Held made) (compileAll id) fun _ => W.Held made := by
  unfold compileAll
  refine .any fun σ => (scriptInjector_safe id).bind fun s => .given fun hs => ?_
  refine (at_seal (graphOf_safe id)).bind fun g => .any fun τ => .given fun hg => ?_
  exact onSite_held <| (make_sound s.dir hg).bind fun batch ⟨hdir,hbatch⟩ =>
    compileUnits_sound (hdir ▸ hs.dir) hbatch

/-- The compile of a strict injector leaves the world held, whether the unit is there or not. -/
theorem compileOnce_safe {dir : String} (id : InjectorId) (key : Key) :
    W.Safe made (W.HeldAt σ made) (compileOnce id dir key) fun _ => W.Held made := by
  have hthere : W.Safe made (W.Held made) (do
      if ← fileExists (Layout.unitPath dir key) then return
      else throw (.unbound key.text) : Act Unit) fun _ => W.Held made := by
    refine .any fun τ => (fileExists_safe _).bind fun there => ?_
    split
    · exact .pure fun _ hw => hw.held
    · exact .throw _ fun _ hw => hw.held
  unfold compileOnce
  refine (fileExists_safe _).bind fun there => ?_
  split
  · exact .throw _ fun _ hw => hw.held
  · have hwrite : (Work.onFiles (Files.write (Layout.sentinelPath dir) "")).Maintains
        (W.Sound σ made) fun _ => True := write_sound (FileFits.sentinelPath dir "")
    refine (onSite_safe hwrite).bind fun _ => ?_
    exact .given fun _ => (at_seal (compileAll_safe id)).bind fun _ => hthere

/-- To compile a missing unit leaves the world held, also where it fails. -/
theorem compileMissing_safe (id : InjectorId) (key : Key) :
    W.Safe made (W.Held made) (compileMissing id key) fun _ => W.Held made := by
  unfold compileMissing
  refine .any fun σ => (scriptInjector_safe id).bind fun s => .given fun hs => ?_
  split
  · exact compileOnce_safe id key
  refine (at_seal (graphOf_safe id)).bind fun g => .any fun τ => .given fun hg => ?_
  have hdemand : W.Safe made (W.HeldAt τ made)
      (onSite (Demand.compile s.dir g (some (scopeIn s.dir g)) key)) fun _ => W.Held made :=
    onSite_held (demand_sound hs.dir hg (scopeIn_tells hs.dir hg) key)
  refine (fileExists_safe _).bind fun pointcuts => ?_
  have hrest : W.Safe made (W.HeldAt τ made) (do
      let there ← fileExists (Layout.unitPath s.dir key)
      if !pointcuts && there then return
      else onSite (Demand.compile s.dir g (some (scopeIn s.dir g)) key) : Act Unit)
      fun _ => W.Held made := by
    refine (fileExists_safe _).bind fun there => ?_
    split
    · exact .pure fun _ hw => hw.held
    · exact hdemand
  have hbatch : (do
      let batch ← Batch.make s.dir g
      batch.savePointcuts
      batch.compile : Work Unit).Maintains (W.Sound τ made) fun _ => True :=
    (make_sound s.dir hg).bind fun batch ⟨hdir,hbatch⟩ =>
      (savePointcuts_sound hbatch).bind fun _ _ => compile_sound (hdir ▸ hs.dir) hbatch
  dsimp only
  split
  · exact (onSite_safe hbatch).bind fun _ => .given fun _ => hrest
  · exact hrest

/-- The unit of a script injector is read before, or read now from what was compiled. -/
theorem loadUnit_safe (id : InjectorId) (key : Key) : W.Safe made (W.Held made) (loadUnit id key)
    fun statements w => W.Held made w ∧ W.Runs (key = W.key) statements := by
  unfold loadUnit
  refine .any fun σ => (scriptInjector_safe id).bind fun s => .given fun hs => ?_
  cases hunit : s.units.find? key with
  | some statements => exact .pure fun _ hw => ⟨hw.held,hs.units key statements hunit⟩
  | none =>
    have hread : W.Safe made (W.Held made) (do
        let text ← onSite (Work.onFiles (Files.read (Layout.unitPath s.dir key)))
        let statements ← orThrow (Script.parseUnit (Layout.unitPath s.dir key) text)
        modifyScript id fun s => { s with units := s.units.put key statements }
        return statements : Act (List Statement))
        fun statements w => W.Held made w ∧ W.Runs (key = W.key) statements := by
      refine .any fun τ => (onSite_safe (read_sound _)).bind fun text => .given fun htext => ?_
      refine (Leads.orThrow _ fun _ hw => hw.held).bind fun statements => .given fun hparsed => ?_
      have hruns : W.Runs (key = W.key) statements :=
        (htext.unit (Layout.unitPath_endsIn s.dir key) s.dir hs.dir _ _ hparsed).mono
          fun hkey => by rw [hkey]
      have hfits (t : ScriptInjector) (ht : W.ScriptFits τ t) :
          W.ScriptFits τ { t with units := t.units.put key statements } :=
        { ht with units := Table.forall_find?_put ht.units hruns }
      exact (modifyScript_safe hfits).bind fun _ => .pure fun _ hw => ⟨hw.held,hruns⟩
    dsimp only
    refine (fileExists_safe _).bind fun there => ?_
    split
    · refine (at_seal (compileMissing_safe id key)).bind fun _ => ?_
      refine .any fun τ => (fileExists_safe _).bind fun there => ?_
      split
      · exact .bind (.throw _ fun _ (hw : W.HeldAt τ made _) => hw.held) fun _ => hread
      · exact at_seal hread
    · exact at_seal hread

/-- The code of a direct injector is compiled before or now. -/
theorem codeOf_safe (id : InjectorId) {d : DirectInjector} (hd : W.DirectFits σ d) (key : Key) :
    W.Safe made (W.HeldAt σ made) (codeOf id d key)
      fun code w => W.Held made w ∧ W.Runs (key = W.key) code.statements := by
  unfold codeOf
  cases hcode : d.codes.find? key with
  | some code => exact .pure fun _ hw => ⟨hw.held,hd.codes key code hcode⟩
  | none =>
    dsimp only
    refine (onSite_safe (directCode_sound hd.graph key)).bind fun code => .given fun hfits => ?_
    have hnew (e : DirectInjector) (he : W.DirectFits σ e) : W.DirectFits σ
        { e with
          qualifiers := code.qualifiers.foldl (fun t q => t.put q.1 q.2) e.qualifiers
          codes := e.codes.put key code } :=
      { he with codes := Table.forall_find?_put he.codes hfits.runs }
    exact (modifyDirect_safe hnew).bind fun _ => .pure fun _ hw => ⟨hw.held,hfits.runs⟩

end Units

section Opening

/-- Nothing is sealed as long as there are no injectors. -/
theorem held_of_new {w : World} (hinjectors : w.injectors = [])
    (hclasses : ∀ name c, w.site.registry.classes.find? name = some c →
      W.ClassFits ⟨fun _ => False,w.site.heap⟩ name c)
    (hfiles : ∀ path text, ¬Files.Temporary path →
      w.site.files.contents.find? path = some text → W.FileFits path text)
    (hrecorded : W.recorded → ∀ dir, W.dir? = some dir →
      w.site.files.exists? (Layout.modulePath dir) = true) : W.Held [] w := by
  refine ⟨⟨fun _ => False,w.site.heap⟩,⟨⟨Nat.le_refl _,Nat.le_refl _,fun _ h => h.elim,
    fun _ _ => rfl⟩,fun _ hi => ?_,hclasses,hfiles,hrecorded⟩,fun id i hi => ?_⟩
  · cases hi
  · rw [World.injector?,hinjectors] at hi
    cases hi

/-- A new injector that fits joins the others. -/
theorem makeInjector_safe {i : Injector} (h : W.InjectorFits σ i) :
    W.Safe made (W.HeldAt σ made) (makeInjector fun _ => i) fun _ => W.Held made := by
  refine ⟨fun w hw => ⟨σ,hw.site,fun id j hj => ?_⟩⟩
  have hfind : Table.find? (w.injectors ++ [(⟨w.made⟩,i)]) id = some j := hj
  rw [Table.find?_append] at hfind
  cases hold : w.injectors.find? id with
  | some k =>
    rw [hold] at hfind
    exact Option.some.inj hfind ▸ hw.injectors id k hold
  | none =>
    rw [hold] at hfind
    obtain ⟨_,hi⟩ := List.mem_singleton.mp (Table.mem_of_find? hfind) |> Prod.mk.inj
    exact hi ▸ h

/-- A direct injector may be made over a graph that fits. -/
theorem openDirect_safe (dir : String) (g : Graph) :
    W.Safe made (W.Fitted made g) (openDirect dir g) fun _ => W.Held made := by
  refine .any fun τ => .given fun hg => ?_
  refine (onSite_safe (prepare_sound dir hg)).bind fun graph => .given fun hgraph => ?_
  exact makeInjector_safe (i := .direct { graph })
    { free := rfl, graph := hgraph, codes := fun _ _ hfind => by cases hfind }

/-- What is built for an injector and attached to it is new. -/
theorem buildAttached_sound (handle : Handle) (t : Tree) :
    (do
      let value ← Work.build none t
      Work.onHeap (·.attach handle value)).Maintains (W.Sound σ made) fun _ => True :=
  onHeap_sound (f := fun h => (t.build none h).2.attach handle (t.build none h).1)
    fun h => Tree.grown_attach_build t h handle

theorem buildSingletons_sound (handle : Handle) {trees : Table Key Tree}
    (h : trees.find? W.key = none) : (buildSingletons handle trees).Maintains (W.Sound σ made)
      fun values => values.find? W.key = none := by
  induction trees with
  | nil => exact .pure rfl
  | cons row rest ih =>
    obtain ⟨key,tree⟩ := row
    by_cases hkey : key = W.key
    · simp [Table.find?,hkey] at h
    · have hrest : Table.find? rest W.key = none := by simpa [Table.find?,hkey] using h
      rw [buildSingletons,← bind_assoc]
      refine (buildAttached_sound handle tree).bind fun value _ =>
        (ih hrest).bind fun values hvalues => ?_
      exact .pure (by simpa [Table.find?,hkey] using hvalues)

/-- A script injector may be made over the directory, with instances of other keys. -/
theorem openScript_safe {dir : String} (hdir : W.dir? = some dir) {source : Option LazyModule}
    (hsource : ∀ m, source = some m → W.Builds m.statements)
    (hrecorded : source = none → W.recorded) (strict : Bool) {singletons : Table Key Tree}
    (hfree : singletons.find? W.key = none) :
    W.Safe made (W.Held made) (openScript dir source strict singletons none)
      fun _ => W.Held made := by
  unfold openScript
  refine .any fun σ => (onSite_safe (registerDir_sound dir)).bind fun _ => .given fun _ => ?_
  have hget : W.Safe made (W.HeldAt σ made) (get : Act World) fun _ => W.HeldAt σ made :=
    ⟨fun _ hw => hw⟩
  refine hget.bind fun w => ?_
  refine (onSite_safe (buildSingletons_sound _ hfree)).bind fun values => .given fun hvalues => ?_
  have hfits : W.ScriptFits σ
      { dir, source, lasting := source.any LazyModule.lasting, strict, singletons := values,
        graph := none } :=
    { dir := hdir
      free := hvalues
      units := fun _ _ hfind => by cases hfind
      graph := fun _ hg => by cases hg
      source := fun _ => hsource
      recorded := fun _ => hrecorded }
  exact makeInjector_safe hfits

/-- A module is compiled as a whole into the directory. -/
theorem batch_safe {dir : String} (hdir : W.dir? = some dir) {statements : List ModuleStatement}
    (h : W.Builds statements) : W.Safe made (W.Held made)
      (onSite do (← Batch.ofModule dir statements).compile) fun _ => W.Held made := by
  refine .any fun σ => ?_
  have hmake : W.Widens σ made (Batch.ofModule dir statements) fun τ batch =>
      batch.dir = dir ∧ W.GraphFits τ batch.graph :=
    (ofModule_widens h).bind fun τ g hg site hsite =>
      ⟨τ,fun _ hh => hh,make_sound dir hg site hsite⟩
  have hcompile : W.Widens σ made (do (← Batch.ofModule dir statements).compile)
      fun _ _ => True :=
    hmake.bind fun τ batch ⟨hthere,hbatch⟩ =>
      .of_maintains (compile_sound (hthere ▸ hdir) hbatch)
  exact (widens_safe hcompile).imp fun _ _ ⟨τ,hw,_⟩ => hw.held

end Opening
end Watch
end Wiring
