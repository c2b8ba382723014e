import Mathlib
import Wiring.Proofs.Compile.Sparing
import Wiring.Proofs.Injector.Settling

/-!
# Where there is nothing of a key

An injector comes by an instance of a key, by its unit or by a file that it reads as its unit only
where there is a ground for it: the graph binds the key, or it asks for a concrete class, or the
unit of another key of that kind comes to lie at the same place. Grounds stay, since graphs and
classes do. So where there is nothing of a key, and no ground for anything in the end, there has
been nothing at any time in between, whatever was requested, compiled and cleared.
-/
namespace Wiring

open Layout (unitPlace Elsewhere)

namespace Injector

/-- The graph that the injector compiles, once it has one. -/
def graph? : Injector → Option Graph
  | script s => s.graph
  | direct d => some d.graph

/-- The injector has read or compiled the unit of the key. -/
def Got (key : Key) : Injector → Prop
  | script s => (s.units.find? key).isSome = true
  | direct d => (d.codes.find? key).isSome = true

/-- The injector keeps an instance of the key, or has got its unit. -/
def Holds (key : Key) (i : Injector) : Prop :=
  (i.singletons.find? key).isSome = true ∨ i.Got key

/-- The keys that an injector can compile units for, given the classes that are known. -/
inductive Supports (i : Injector) (r : Registry) : Key → Prop where
  | bound {g : Graph} {key : Key} (hg : i.graph? = some g) (hb : g.has key = true) :
      Supports i r key
  /-- A whole compile compiles these two besides. -/
  | own {dir : String} {key : Key} (hdir : i.dir? = some dir) (hkey : key ∈ Prepare.own) :
      Supports i r key
  | class {key : Key} (hany : key.isAny = true) (h : r.Concrete key.interface) : Supports i r key

/-- The injector has at most come by a graph. -/
structure Becomes (i i' : Injector) : Prop where
  dir : i'.dir? = i.dir?
  graph : ∀ g, i.graph? = some g → i'.graph? = some g

variable {i i' : Injector} {r r' : Registry} {key : Key}

theorem Supports.mono (h : i.Supports r key) (hi : i.Becomes i')
    (hr : ∀ name, r.Concrete name → r'.Concrete name) : i'.Supports r' key := by
  cases h with
  | bound hg hb => exact .bound (hi.graph _ hg) hb
  | own hdir hkey => exact .own (hi.dir.trans hdir) hkey
  | «class» hany h => exact .class hany (hr _ h)

theorem becomes_setPoint (i : Injector) (point : Option Parameter) :
    i.Becomes (i.setPoint point) := by
  cases i <;> exact ⟨rfl,fun _ h => h⟩

theorem holds_setPoint (key : Key) (i : Injector) (point : Option Parameter) :
    (i.setPoint point).Holds key ↔ i.Holds key := by
  cases i <;> exact .rfl

/-- The injector has at most come by what it holds of one key. -/
structure Gains (key : Key) (i i' : Injector) : Prop extends Becomes i i' where
  holds : ∀ other, i'.Holds other → other = key ∨ i.Holds other

theorem gains_remember (i : Injector) (key : Key) (v : Value) : i.Gains key (i.remember key v) where
  dir := by cases i <;> rfl
  graph g hg := by cases i <;> exact hg
  holds other hother := by
    by_cases he : other = key
    · exact .inl he
    · refine .inr (hother.imp (fun hkept => ?_) fun hgot => ?_)
      · rwa [i.singletons_remember,Table.find?_put_of_ne _ _ he] at hkept
      · cases i <;> exact hgot

theorem gains_unit (s : ScriptInjector) (key : Key) (statements : List Script.Statement) :
    (script s).Gains key (script { s with units := s.units.put key statements }) where
  dir := rfl
  graph g hg := hg
  holds other hother := by
    by_cases he : other = key
    · exact .inl he
    · refine .inr (hother.imp_right fun hread => ?_)
      rwa [Got,Table.find?_put_of_ne _ _ he] at hread

theorem gains_code (d : DirectInjector) (key : Key) (code : Code)
    (qualifiers : Table Parameter Value) :
    (direct d).Gains key
      (direct { d with qualifiers := qualifiers, codes := d.codes.put key code }) where
  dir := rfl
  graph g hg := hg
  holds other hother := by
    by_cases he : other = key
    · exact .inl he
    · refine .inr (hother.imp_right fun hcompiled => ?_)
      rwa [Got,Table.find?_put_of_ne _ _ he] at hcompiled

end Injector

namespace World

/-- Something is there of a key: the injector holds it, or finds a file at the place of its unit. -/
inductive Has (w : World) (id : InjectorId) (key : Key) : Prop where
  | held {i : Injector} (hi : w.injector? id = some i) (h : i.Holds key)
  | filed {i : Injector} {dir text : String} (hi : w.injector? id = some i)
      (hdir : i.dir? = some dir) (h : w.site.files.contents.find? (unitPlace dir key) = some text)

/-- There is a ground for a unit of the key: the injector can compile it, or some injector can
compile a unit that comes to lie at the same place. -/
inductive Grounds (w : World) (id : InjectorId) (key : Key) : Prop where
  | own {i : Injector} (hi : w.injector? id = some i) (h : i.Supports w.site.registry key)
  | shared {i j : Injector} {dir dir' : String} {other : InjectorId} {key' : Key}
      (hi : w.injector? id = some i) (hdir : i.dir? = some dir)
      (hj : w.injector? other = some j) (hdir' : j.dir? = some dir')
      (h : j.Supports w.site.registry key') (hplace : unitPlace dir key = unitPlace dir' key')

/-- Concrete classes stay what they are, and injectors keep their graphs and directories. -/
structure Further (w w' : World) : Prop where
  classes : ∀ name, w.site.registry.Concrete name → w'.site.registry.Concrete name
  injectors : ∀ id i, w.injector? id = some i → ∃ i', w'.injector? id = some i' ∧ i.Becomes i'

variable {w w' w'' : World} {id : InjectorId} {key : Key}

theorem Grounds.mono (h : w.Grounds id key) (hw : w.Further w') : w'.Grounds id key := by
  cases h with
  | own hi h =>
    obtain ⟨i',hi',hbecomes⟩ := hw.injectors _ _ hi
    exact .own hi' (h.mono hbecomes hw.classes)
  | shared hi hdir hj hdir' h hplace =>
    obtain ⟨i',hi',hi⟩ := hw.injectors _ _ hi
    obtain ⟨j',hj',hj⟩ := hw.injectors _ _ hj
    exact .shared hi' (hi.dir.trans hdir) hj' (hj.dir.trans hdir') (h.mono hj hw.classes) hplace

theorem Further.refl (w : World) : w.Further w :=
  ⟨fun _ h => h,fun _ i hi => ⟨i,hi,rfl,fun _ h => h⟩⟩

theorem Further.trans (h : w.Further w') (h' : w'.Further w'') : w.Further w'' where
  classes name hname := h'.classes name (h.classes name hname)
  injectors id i hi := by
    obtain ⟨i',hi',hb⟩ := h.injectors id i hi
    obtain ⟨i'',hi'',hb'⟩ := h'.injectors id i' hi'
    exact ⟨i'',hi'',hb'.dir.trans hb.dir,fun g hg => hb'.graph g (hb.graph g hg)⟩

/-- What is there of a key was there before, or there is a ground for it. -/
structure Grounded (w w' : World) : Prop extends Further w w' where
  has : ∀ id key, w'.Has id key → w.Has id key ∨ w'.Grounds id key

theorem Grounded.trans (h : w.Grounded w') (h' : w'.Grounded w'') : w.Grounded w'' where
  toFurther := h.toFurther.trans h'.toFurther
  has id key hkey := by
    rcases h'.has id key hkey with hkey | hkey
    · exact (h.has id key hkey).imp_right (·.mono h'.toFurther)
    · exact .inr hkey

end World

open World (Has Grounds Grounded Further)

instance isPreorder_grounded : IsPreorder World Grounded where
  refl w := ⟨.refl w,fun _ _ => .inl⟩
  trans _ _ _ := .trans

/-- All that while, the injectors themselves stay as they are. -/
structure World.Aside (w w' : World) : Prop extends Grounded w w' where
  same : w'.injectors = w.injectors

open World (Aside)

instance isPreorder_aside : IsPreorder World Aside where
  refl w := ⟨refl_of Grounded w,rfl⟩
  trans _ _ _ h h' := ⟨h.toGrounded.trans h'.toGrounded,h'.same.trans h.same⟩

variable {w w' : World} {id : InjectorId} {key : Key} {α β : Type}

theorem World.site_withInjector (w : World) (id : InjectorId) (f : Injector → Injector) :
    (w.withInjector id f).site = w.site := by
  unfold World.withInjector
  cases w.injector? id <;> rfl

theorem World.further_withInjector (w : World) (id : InjectorId) {f : Injector → Injector}
    (hf : ∀ i, w.injector? id = some i → i.Becomes (f i)) : w.Further (w.withInjector id f) where
  classes name hname := by rwa [World.site_withInjector]
  injectors other i hi := by
    rw [World.injector?_withInjector]
    split
    next he =>
      subst he
      exact ⟨f i,by rw [hi]; rfl,hf i hi⟩
    next => exact ⟨i,hi,rfl,fun _ h => h⟩

/-- An injector may change: what it holds then has to be there already, or there is a ground. -/
theorem World.Grounded.change (h : w.Grounded w') (id : InjectorId) {f : Injector → Injector}
    (hf : ∀ i, w'.injector? id = some i → i.Becomes (f i))
    (hholds : ∀ i key, w'.injector? id = some i → (f i).Holds key →
      i.Holds key ∨ w.Has id key ∨ w'.Grounds id key) : w.Grounded (w'.withInjector id f) := by
  have hfurther := w'.further_withInjector id hf
  refine ⟨h.toFurther.trans hfurther,fun other key hkey => ?_⟩
  have hback (h' : w'.Has other key) :
      w.Has other key ∨ (w'.withInjector id f).Grounds other key :=
    (h.has other key h').imp_right (·.mono hfurther)
  cases hkey with
  | held hi hheld =>
    rw [World.injector?_withInjector] at hi
    split at hi
    next he =>
      subst he
      obtain ⟨j,hj,rfl⟩ := Option.map_eq_some_iff.mp hi
      rcases hholds j key hj hheld with hheld | hkey | hkey
      · exact hback (.held hj hheld)
      · exact .inl hkey
      · exact .inr (hkey.mono hfurther)
    next => exact hback (.held hi hheld)
  | filed hi hdir hfile =>
    rw [World.site_withInjector] at hfile
    rw [World.injector?_withInjector] at hi
    split at hi
    next he =>
      subst he
      obtain ⟨j,hj,rfl⟩ := Option.map_eq_some_iff.mp hi
      exact hback (.filed hj ((hf j hj).dir.symm.trans hdir) hfile)
    next => exact hback (.filed hi hdir hfile)

/-- What the injector comes by has to be there already, or there is a ground for it. -/
theorem World.Grounded.gain (h : w.Grounded w') (hkey : w.Has id key ∨ w'.Grounds id key)
    {f : Injector → Injector} (hf : ∀ i, w'.injector? id = some i → i.Gains key (f i)) :
    w.Grounded (w'.withInjector id f) := by
  refine h.change id (fun i hi => (hf i hi).toBecomes) fun i other hi hother => ?_
  rcases (hf i hi).holds other hother with rfl | hother
  · exact .inr hkey
  · exact .inl hother

namespace Act

/-- An action leads along a relation if its first part does from here, and the rest from where that
leads. -/
theorem Along.bind_at {R : World → World → Prop} [IsPreorder World R] {a : Act α} {f : α → Act β}
    (ha : R w (a w).2) (hf : ∀ x w', a w = (.ok x,w') → R w w' → R w' (f x w').2) :
    R w ((a >>= f) w).2 := by
  cases hrun : a w with
  | mk answer next =>
    rw [hrun] at ha
    cases answer with
    | ok x =>
      rw [Work.run_bind hrun]
      exact trans_of R ha (hf x next hrun ha)
    | error e =>
      rw [Work.run_bind_error f hrun]
      exact ha

/-- Work that spares the units of all keys but those that injectors can compile. -/
theorem onSite_grounded_at {v : Work α} (h : ∀ known free, (∀ other j dir key,
      w.injector? other = some j → j.dir? = some dir → j.Supports (v w.site).2.registry key →
        Elsewhere free dir key) → w.site.Spares known free → (v w.site).2.Spares known free) :
    w.Grounded (onSite v w).2 := by
  have hfurther : w.Further (onSite v w).2 := by
    refine ⟨fun name hname => ?_,fun _ i hi => ⟨i,hi,rfl,fun _ h => h⟩⟩
    have hsite := h (· = name) (fun _ _ => False) (fun _ _ _ _ _ _ _ => nofun)
      ⟨fun _ he => he ▸ hname,nofun⟩
    exact hsite.known name rfl
  refine ⟨hfurther,fun id key hkey => ?_⟩
  by_contra hnot
  obtain ⟨hno,hground⟩ := not_or.mp hnot
  cases hkey with
  | held hi hheld => exact hno (.held hi hheld)
  | @filed i dir text hi hdir hfile =>
    have hfree : w.site.files.contents.find? (unitPlace dir key) = none := by
      cases hfind : w.site.files.contents.find? (unitPlace dir key) with
      | none => rfl
      | some text => exact absurd (.filed hi hdir hfind) hno
    have hsite := h (fun _ => False) (fun d k => d = dir ∧ k = key) ?_
      ⟨nofun,fun d k ⟨hd,hk⟩ => by rw [hd,hk]; exact hfree⟩
    · cases hfile.symm.trans (hsite.free dir key ⟨rfl,rfl⟩)
    · rintro other j dir' key' hj hdir' hsupports d k ⟨rfl,rfl⟩ hplace
      exact hground (.shared hi hdir hj hdir' hsupports hplace)

theorem onSite_grounded {v : Work α}
    (h : ∀ {known free}, v.Maintains (Site.Spares known free) fun _ => True) :
    (onSite v).Along Grounded :=
  fun w => onSite_grounded_at fun _ _ _ hsite => (h w.site hsite).1

theorem onSite_aside {v : Work α}
    (h : ∀ {known free}, v.Maintains (Site.Spares known free) fun _ => True) :
    (onSite v).Along Aside := fun w => ⟨onSite_grounded h w,rfl⟩

theorem modifyInjector_grounded (id : InjectorId) {f : Injector → Injector}
    (hf : ∀ i : Injector, i.Becomes (f i))
    (hholds : ∀ (i : Injector) key, (f i).Holds key → i.Holds key) :
    (modifyInjector id f).Along Grounded :=
  fun w => (refl_of Grounded w).change id (fun i _ => hf i) fun i key _ h => .inl (hholds i key h)

theorem setPoint_grounded (id : InjectorId) (point : Option Parameter) :
    (modifyInjector id (·.setPoint point)).Along Grounded :=
  modifyInjector_grounded id (fun i => i.becomes_setPoint point)
    fun i key h => (i.holds_setPoint key point).mp h

/-- An instance may be kept of a key that there was something of, or that there is a ground for. -/
theorem remember_grounded (h : w.Grounded w') (hkey : w.Has id key ∨ w'.Grounds id key)
    (v : Value) : w.Grounded (w'.remember id key v) :=
  h.gain hkey fun i _ => i.gains_remember key v

/-- Building a module leaves the injectors themselves alone. -/
theorem buildModule_aside (m : LazyModule) : (buildModule m).Along Aside := by
  refine Along.buildModule m (fun builds w => ⟨⟨?_,fun id key hkey => .inl ?_⟩,rfl⟩)
    (onSite_aside (Site.Spares.ofModule _))
  · exact ⟨fun _ h => h,fun _ i hi => ⟨i,hi,rfl,fun _ h => h⟩⟩
  · cases hkey with
    | held hi h => exact .held hi h
    | filed hi hdir h => exact .filed hi hdir h

end Act

namespace Resolve

open Act

variable {s : ScriptInjector}

theorem scriptInjector_ok (h : scriptInjector id w = (.ok s,w')) :
    w' = w ∧ w.injector? id = some (.script s) := by
  cases hi : w.injector? id with
  | none =>
    rw [scriptInjector_gone hi] at h
    cases congrArg Prod.fst h
  | some i =>
    cases i with
    | direct d =>
      rw [scriptInjector_direct hi] at h
      cases congrArg Prod.fst h
    | script s' =>
      rw [scriptInjector_run hi] at h
      cases h
      exact ⟨rfl,rfl⟩

/-- An injector that reads scripts goes on to do so in the same directory. -/
theorem script_further (h : w.Further w') (hi : w.injector? id = some (.script s)) :
    ∃ s', w'.injector? id = some (.script s') ∧ s'.dir = s.dir ∧
      ∀ g, s.graph = some g → s'.graph = some g := by
  obtain ⟨i',hi',hdir,hgraph⟩ := h.injectors id _ hi
  cases i' with
  | script s' => exact ⟨s',hi',Option.some.inj hdir,hgraph⟩
  | direct d => cases hdir

/-- The injector has the graph from now on. -/
def Keeps (id : InjectorId) (r : Except Failure Graph × World) : Prop :=
  ∀ g, r.1 = .ok g → ∃ s, r.2.injector? id = some (.script s) ∧ s.graph = some g

/-- A graph that has been got at is kept where there was none. -/
theorem newGraph_grounded {new : Act Graph} (hnew : new.Along Aside)
    (hi : w.injector? id = some (.script s)) (hgraph : s.graph = none) :
    w.Grounded ((new >>= fun g => do
      modifyScript id fun s => { s with graph := some g }
      return g) w).2 ∧ Keeps id ((new >>= fun g => do
      modifyScript id fun s => { s with graph := some g }
      return g) w) := by
  have haside := hnew w
  cases hrun : new w with
  | mk answer built =>
    rw [hrun] at haside
    cases answer with
    | error f =>
      rw [Work.run_bind_error _ hrun]
      exact ⟨haside.toGrounded,fun g hg => by cases hg⟩
    | ok g =>
      have hib : built.injector? id = some (.script s) := by
        rw [World.injector?,haside.same]
        exact hi
      obtain ⟨kept,hkept,_,hthere⟩ := modifyScript_run hib fun s => { s with graph := some g }
      rw [Work.run_bind hrun,Work.run_bind hkept]
      refine ⟨?_,fun g' hg' => ⟨_,hthere,congrArg some (Except.ok.inj hg')⟩⟩
      obtain rfl : kept = _ := (congrArg Prod.snd hkept).symm
      refine haside.toGrounded.change id (fun i hi' => ?_) fun i key hi' hheld => .inl ?_
      · obtain rfl := Option.some.inj (hib.symm.trans hi')
        exact ⟨rfl,fun g' hg' => by cases hgraph.symm.trans hg'⟩
      · obtain rfl := Option.some.inj (hib.symm.trans hi')
        exact hheld

theorem graphOf_grounded (id : InjectorId) (w : World) :
    w.Grounded (graphOf id w).2 ∧ Keeps id (graphOf id w) := by
  have hstart := Along.scriptInjector (R := Grounded) id w
  cases hs : scriptInjector id w with
  | mk answer next =>
    cases answer with
    | error f =>
      rw [hs] at hstart
      rw [graphOf,Work.run_bind_error _ hs]
      exact ⟨hstart,fun g hg => by cases hg⟩
    | ok s =>
      obtain ⟨rfl,hi⟩ := scriptInjector_ok hs
      cases hgraph : s.graph with
      | some g =>
        rw [graphOf_kept hi hgraph]
        exact ⟨refl_of Grounded next,fun g' hg' => ⟨s,hi,Except.ok.inj hg' ▸ hgraph⟩⟩
      | none =>
        rw [graphOf,Work.run_bind hs,hgraph]
        dsimp only
        cases s.source with
        | some m => exact newGraph_grounded (buildModule_aside m) hi hgraph
        | none =>
          have hread : (onSite (Save.graph? s.dir)).Along Aside :=
            onSite_aside (Site.Spares.readGraph s.dir)
          have hnew := newGraph_grounded (hread.bind fun g => .pure (g.getD .empty)) hi hgraph
          rwa [bind_assoc] at hnew

theorem graphOf_keeps {g : Graph} (h : graphOf id w = (.ok g,w'))
    (hi : w.injector? id = some (.script s)) :
    ∃ s', w'.injector? id = some (.script s') ∧ s'.dir = s.dir ∧ s'.graph = some g := by
  have hgraph := graphOf_grounded id w
  rw [h] at hgraph
  obtain ⟨kept,hkept,hg⟩ := hgraph.2 g rfl
  obtain ⟨s',hi',hdir,-⟩ := script_further hgraph.1.toFurther hi
  obtain rfl : s' = kept := by cases hi'.symm.trans hkept; rfl
  exact ⟨s',hi',hdir,hg⟩

/-- With its graph at hand, an injector compiles the units that this graph and every prepared one
bind. -/
theorem batch_grounded {g : Graph} (hi : w.injector? id = some (.script s))
    (hgraph : s.graph = some g) {f : Batch → Work Unit}
    (hf : ∀ {known free} (batch : Batch), batch.Spares free →
      (f batch).Maintains (Site.Spares known free) fun _ => True) :
    w.Grounded (onSite (do f (← Batch.make s.dir g)) w).2 := by
  refine onSite_grounded_at fun known free helse hsite => ?_
  refine ((Site.Spares.make g fun key hkey => ?_).bind (fun batch h => hf batch h) w.site hsite).1
  refine helse id _ s.dir key hi rfl ?_
  exact hkey.elim (.bound hgraph) (.own rfl)

theorem compileAll_grounded (id : InjectorId) : (compileAll id).Along Grounded := by
  intro w
  refine Along.bind_at (Along.scriptInjector id w) fun s w₀ hs _ => ?_
  obtain ⟨rfl,hi⟩ := scriptInjector_ok hs
  refine Along.bind_at (graphOf_grounded id w₀).1 fun g w₁ hg _ => ?_
  obtain ⟨s₁,hi₁,hdir,hgraph⟩ := graphOf_keeps hg hi
  rw [← hdir]
  exact batch_grounded hi₁ hgraph fun batch h => Site.Spares.compileUnits h

theorem fileExists_grounded (path : String) : (fileExists path).Along Grounded :=
  Along.get.bind fun _ => .pure _

theorem compileOnce_grounded (id : InjectorId) (dir : String) (key : Key) :
    (compileOnce id dir key).Along Grounded := by
  have hmark : (onSite (Work.onFiles (Files.write (Layout.sentinelPath dir) ""))).Along Grounded :=
    onSite_grounded (Site.Spares.write (fun dir' key' _ =>
      Site.Spares.foreign (Layout.sentinelPath_endsIn dir) (by decide) dir' key') "")
  refine (fileExists_grounded _).bind fun there => ?_
  split
  · exact .throw _
  · refine hmark.bind fun _ => (compileAll_grounded id).bind fun _ => ?_
    refine (fileExists_grounded _).bind fun there => ?_
    split
    · exact .pure _
    · exact .throw _

theorem demand_grounded {g : Graph} (hi : w.injector? id = some (.script s))
    (hgraph : s.graph = some g) (key : Key) :
    w.Grounded (onSite (Demand.compile s.dir g (some (scopeIn s.dir g)) key) w).2 := by
  refine onSite_grounded_at fun known free helse hsite => ?_
  refine Site.Spares.demand (fun scopeOf hscope key => ?_) (fun key hkey => ?_)
    (fun hany hclass => ?_) hsite
  · obtain rfl := Option.some.inj hscope
    exact Site.Spares.scopeIn s.dir g key
  · exact helse id _ s.dir key hi rfl (.bound hgraph hkey)
  · exact helse id _ s.dir key hi rfl (.class hany hclass)

theorem compileMissing_grounded (id : InjectorId) (key : Key) :
    (compileMissing id key).Along Grounded := by
  intro w
  refine Along.bind_at (Along.scriptInjector id w) fun s w₀ hs _ => ?_
  obtain ⟨rfl,hi⟩ := scriptInjector_ok hs
  split
  · exact compileOnce_grounded id s.dir key w₀
  refine Along.bind_at (graphOf_grounded id w₀).1 fun g w₁ hg _ => ?_
  obtain ⟨s₁,hi₁,hdir,hgraph⟩ := graphOf_keeps hg hi
  rw [← hdir]
  refine Along.bind_at (fileExists_grounded _ w₁) fun there w₂ hthere _ => ?_
  cases hthere
  -- The graph is at hand from here on, also when the batch has been compiled.
  have hrest (next : World) (hnext : next.injector? id = some (.script s₁)) (first : Bool) :
      next.Grounded ((do
        let there ← fileExists (Layout.unitPath s₁.dir key)
        if first && there then return
        else onSite (Demand.compile s₁.dir g (some (scopeIn s₁.dir g)) key) : Act Unit) next).2 := by
    refine Along.bind_at (fileExists_grounded _ next) fun there w₃ hthere _ => ?_
    cases hthere
    split
    · exact refl_of Grounded _
    · exact demand_grounded hnext hgraph key
  dsimp only
  split
  · refine Along.bind_at (batch_grounded hi₁ hgraph fun batch h => ?_) fun _ w₃ hbatch _ => ?_
    · exact (Site.Spares.savePointcuts batch).bind fun _ _ => Site.Spares.compile h
    · exact hrest w₃ ((congrArg (fun r => r.2.injector? id) hbatch).symm.trans hi₁) _
  · exact hrest _ hi₁ _

end Resolve
end Wiring
