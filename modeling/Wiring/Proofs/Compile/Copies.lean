import Mathlib
import Wiring.Injector.Resolve
import Wiring.Proofs.Classes.Looking
import Wiring.Proofs.Compile.Parts
import Wiring.Proofs.Compile.WatchedGraphs
import Wiring.Proofs.Graph.ReadBack

/-!
# Copies of a graph compile alike

What is compiled of a graph depends on the trees of its values, not on where the values are. So
two graphs with the same bindings, the values of which show the same trees, give the same unit for
a key; to compile the key on demand leaves the same files, whichever of the two it is compiled of.
-/
namespace Wiring

open Script (Expr Statement)

namespace Work

variable {α β γ δ : Type} {h : Heap} {R : α → β → Prop} {S : γ → δ → Prop}

/-- Answers that are related, or one failure. -/
inductive Answers (R : α → β → Prop) : Except Failure α → Except Failure β → Prop where
  | ok {a : α} {b : β} (h : R a b) : Answers R (.ok a) (.ok b)
  | error (f : Failure) : Answers R (.error f) (.error f)

/-- Wherever the heap is the given one, both do the same to the site, leave the heap alone, and
give related answers or fail alike. -/
def Twins (h : Heap) (R : α → β → Prop) (w : Work α) (v : Work β) : Prop :=
  ∀ site, site.heap = h →
    (v site).2 = (w site).2 ∧ (w site).2.heap = h ∧ Answers R (w site).1 (v site).1

namespace Twins

theorem pure {a : α} {b : β} (hab : R a b) : Twins h R (Pure.pure a) (Pure.pure b) :=
  fun _ hsite => ⟨rfl,hsite,.ok hab⟩

theorem throw (f : Failure) : Twins h R (MonadExcept.throw f) (MonadExcept.throw f) :=
  fun _ hsite => ⟨rfl,hsite,.error f⟩

/-- Work that leaves the heap alone is its own twin. -/
theorem same {w : Work α} {P : α → Prop} (hw : w.Maintains (·.heap = h) P) : Twins h Eq w w := by
  refine fun site hsite => ⟨rfl,(hw site hsite).1,?_⟩
  cases (w site).1 with
  | ok a => exact .ok rfl
  | error f => exact .error f

theorem bind {w : Work α} {v : Work β} {f : α → Work γ} {g : β → Work δ} (hwv : Twins h R w v)
    (hfg : ∀ a b, R a b → Twins h S (f a) (g b)) : Twins h S (w >>= f) (v >>= g) := by
  intro site hsite
  obtain ⟨hnext,hheap,hanswers⟩ := hwv site hsite
  cases hw : w site with
  | mk answer next =>
    cases hv : v site with
    | mk other next' =>
      rw [hw,hv] at hnext hanswers
      rw [hw] at hheap
      obtain rfl : next' = next := hnext
      cases hanswers with
      | ok hab =>
        rw [run_bind hw,run_bind hv]
        exact hfg _ _ hab next' hheap
      | error e =>
        rw [run_bind_error f hw,run_bind_error g hv]
        exact ⟨rfl,hheap,.error e⟩

theorem attempt {w : Work α} {v : Work β} (hwv : Twins h R w v) :
    Twins h (Answers R) (Work.attempt w) (Work.attempt v) := by
  intro site hsite
  obtain ⟨hnext,hheap,hanswers⟩ := hwv site hsite
  rw [attempt_run,attempt_run]
  exact ⟨hnext,hheap,.ok hanswers⟩

theorem mapM {f : α → Work γ} {g : β → Work δ} {as : List α} {bs : List β}
    (hab : List.Forall₂ (fun a b => Twins h S (f a) (g b)) as bs) :
    Twins h (List.Forall₂ S) (as.mapM f) (bs.mapM g) := by
  induction hab with
  | nil =>
    rw [List.mapM_nil,List.mapM_nil]
    exact pure .nil
  | cons hhead _ ih =>
    rw [List.mapM_cons,List.mapM_cons]
    exact hhead.bind fun c d hcd => ih.bind fun cs ds hrest => pure (.cons hcd hrest)

theorem foldlM {f : α → γ → Work α} {g : β → γ → Work β} (cs : List γ) {a : α} {b : β}
    (hab : R a b) (hfg : ∀ c a b, R a b → Twins h R (f a c) (g b c)) :
    Twins h R (cs.foldlM f a) (cs.foldlM g b) := by
  induction cs generalizing a b with
  | nil => exact pure hab
  | cons c rest ih =>
    rw [List.foldlM_cons,List.foldlM_cons]
    exact (hfg c a b hab).bind fun a' b' hab' => ih hab'

/-- Twins with one answer are interchangeable. -/
theorem run_eq {w v : Work α} (hwv : Twins h Eq w v) {site : Site} (hsite : site.heap = h) :
    w site = v site := by
  obtain ⟨hnext,_,hanswers⟩ := hwv site hsite
  refine Prod.ext ?_ hnext.symm
  generalize (w site).1 = answer,(v site).1 = answer' at hanswers
  cases hanswers with
  | ok hab => rw [hab]
  | error f => rfl

end Twins
end Work

/-- Both values show one tree. -/
def Heap.Matches (h : Heap) (v u : Value) : Prop := h.unfold v = h.unfold u

/-- The graphs have the same bindings, pointcuts and maps in the same order, and in the same places
values that show the same trees, each in its heap. -/
def Container.Mirrors (g : Graph) (h : Heap) (g' : Graph) (h' : Heap) : Prop :=
  g.Alike (fun v u => h.unfold v = h'.unfold u) g'

/-- Both keep a value for the same parameter, and the values show one tree. -/
def Qualifier.Matches (h : Heap) (p q : Qualifier) : Prop := p.1 = q.1 ∧ h.Matches p.2 q.2

/-- The same is made on both sides, and qualifiers that match are kept for it. -/
def Kept.Matches {τ : Type} (h : Heap) (x y : τ × List Qualifier) : Prop :=
  x.1 = y.1 ∧ List.Forall₂ (Qualifier.Matches h) x.2 y.2

/-- The units have the same statements and scope, and qualifiers that match. -/
structure Code.Matches (h : Heap) (c d : Code) : Prop where
  statements : c.statements = d.statements
  shared : c.shared = d.shared
  qualifiers : List.Forall₂ (Qualifier.Matches h) c.qualifiers d.qualifiers

section Flipped

variable {ν μ : Type} {R : ν → μ → Prop}

theorem optionRel_flip {a? : Option ν} {b? : Option μ} (h : Option.Rel R a? b?) :
    Option.Rel (fun u v => R v u) b? a? := by
  cases h with
  | none => exact .none
  | some h => exact .some h

theorem Argument.Alike.flip {a : Argument ν} {b : Argument μ} (h : a.Alike R b) :
    b.Alike (fun u v => R v u) a :=
  ⟨h.key.symm,h.parameter.symm,optionRel_flip h.fallback,optionRel_flip h.qualifier,h.set.symm⟩

theorem Argument.flip_all {as : List (Argument ν)} {bs : List (Argument μ)}
    (h : List.Forall₂ (Argument.Alike R) as bs) :
    List.Forall₂ (Argument.Alike (fun u v => R v u)) bs as :=
  (h.imp fun _ _ ha => ha.flip).flip

theorem SetterCall.Alike.flip {s : SetterCall ν} {t : SetterCall μ} (h : s.Alike R t) :
    t.Alike (fun u v => R v u) s :=
  ⟨h.method.symm,Argument.flip_all h.arguments,h.optional.symm⟩

theorem Plan.Alike.flip {p : Plan ν} {q : Plan μ} (h : p.Alike R q) : q.Alike (fun u v => R v u) p where
  className := h.className.symm
  arguments := Argument.flip_all h.arguments
  setters := (h.setters.imp fun _ _ hs => hs.flip).flip
  postConstruct := h.postConstruct.symm
  shared := h.shared.symm
  advice := h.advice.symm

theorem Binding.Alike.flip {a : Binding ν} {b : Binding μ} (h : a.Alike R b) :
    b.Alike (fun u v => R v u) a := by
  cases h with
  | literal h => exact .literal h
  | construction h => exact .construction h.flip
  | provider shared context h => exact .provider shared context h.flip
  | nullObject interface => exact .nullObject interface

theorem Container.Alike.flip {c : Container ν} {d : Container μ} (h : c.Alike R d) :
    d.Alike (fun u v => R v u) c where
  bindings := (h.bindings.imp fun _ _ hb => (⟨hb.1.symm,hb.2.flip⟩ : _ ∧ _)).flip
  pointcuts := h.pointcuts.symm
  maps := h.maps.symm

theorem Container.Alike.imp {S : ν → μ → Prop} {c : Container ν} {d : Container μ}
    (h : c.Alike R d) (hRS : ∀ v u, R v u → S v u) : c.Alike S d :=
  ⟨h.bindings.imp fun _ _ hb => ⟨hb.1,hb.2.imp hRS⟩,h.pointcuts,h.maps⟩

end Flipped

section Alike

variable {ν μ : Type} {R : ν → μ → Prop}

/-- Graphs that are alike bind a key alike, or neither binds it. -/
theorem Container.Alike.get? {c : Container ν} {d : Container μ} (h : c.Alike R d) (key : Key) :
    Option.Rel (Binding.Alike R) (c.get? key) (d.get? key) := by
  have hbindings := h.bindings
  unfold Container.get?
  generalize c.bindings = rows,d.bindings = rows' at hbindings ⊢
  induction hbindings with
  | nil => exact .none
  | @cons i j _ _ hrow _ ih =>
    rw [Table.find?,Table.find?,← hrow.1]
    split
    · exact .some hrow.2
    · exact ih

theorem Binding.Alike.isShared {a : Binding ν} {b : Binding μ} (h : a.Alike R b) :
    a.isShared = b.isShared := by
  cases h with
  | literal h => rfl
  | construction h => exact h.shared
  | provider shared context h => rfl
  | nullObject interface => rfl

end Alike

namespace Compile

open Work

variable {h : Heap} {g g' : Graph} {scope scope' : Option ScopeOf}

/-- Both tell the scopes of keys, and tell the same. -/
def ScopesMatch (h : Heap) : Option ScopeOf → Option ScopeOf → Prop :=
  Option.Rel fun s t => ∀ key, Twins h Eq (s key) (t key)

theorem sourceOf_run (v : Value) (site : Site) :
    sourceOf v site = (site.heap.source v,site) := by
  have hheap : Work.heap site = (.ok site.heap,site) := rfl
  rw [sourceOf,run_bind hheap]
  cases site.heap.source v <;> rfl

theorem sourceOf_twins {v u : Value} (hvu : h.Matches v u) :
    Twins h Eq (sourceOf v) (sourceOf u) := by
  rintro site rfl
  have hsource : site.heap.source v = site.heap.source u := by rw [Heap.source,Heap.source,hvu]
  rw [sourceOf_run,sourceOf_run,hsource]
  refine ⟨rfl,rfl,?_⟩
  cases site.heap.source u with
  | ok e => exact .ok rfl
  | error f => exact .error f

theorem find?_heap_maintains (className : String) :
    (Classes.find? className).Maintains (·.heap = h) fun _ => True :=
  fun site hsite => ⟨(Classes.find?_heap className site).trans hsite,fun _ _ => trivial⟩

theorem inferredScope_heap (key : Key) :
    (inferredScope key).Maintains (·.heap = h) fun _ => True := by
  unfold inferredScope
  split
  · exact .pure trivial
  · refine (find?_heap_maintains key.interface).bind fun c _ => ?_
    cases c with
    | none => exact .pure trivial
    | some c => exact .pure trivial

theorem scopeOutside_twins (hscope : ScopesMatch h scope scope') (key : Key) :
    Twins h Eq (scopeOutside scope key) (scopeOutside scope' key) := by
  cases hscope with
  | none => exact .same (inferredScope_heap key)
  | some htold =>
    refine (htold key).attempt.bind fun answer answer' hanswers => ?_
    cases hanswers with
    | ok hshared => exact .pure (congrArg some hshared)
    | error f =>
      cases f with
      | notCompiled text => exact .same (inferredScope_heap key)
      | _ => exact .throw _

theorem outside_twins (hscope : ScopesMatch h scope scope') {a a' : Argument Value}
    (ha : a.Alike h.Matches a') : Twins h Eq (outside scope a) (outside scope' a') := by
  unfold outside
  rw [← ha.key]
  refine (scopeOutside_twins hscope a.key).bind fun shared shared' hshared => ?_
  subst hshared
  cases shared with
  | some shared => exact .pure rfl
  | none =>
    have hfallback := ha.fallback
    generalize a.fallback = v?,a'.fallback = u? at hfallback ⊢
    cases hfallback with
    | none => exact .throw _
    | some hv => exact sourceOf_twins hv

variable (hg : g.Alike h.Matches g')
include hg

theorem element_twins (key : Key) : Twins h Eq (element g key) (element g' key) := by
  have hb := hg.get? key
  unfold element
  generalize g.get? key = b?,g'.get? key = b'? at hb ⊢
  cases hb with
  | none => exact .throw _
  | some hb =>
    cases hb with
    | literal hv => exact sourceOf_twins hv
    | construction hp =>
      refine .pure ?_
      rw [Binding.isShared,Binding.isShared,hp.shared]
    | provider shared context hp => exact .pure rfl
    | nullObject interface => exact .pure rfl

theorem mapOf_twins (interface : String) : Twins h Eq (mapOf g interface) (mapOf g' interface) := by
  unfold mapOf Container.map?
  rw [hg.maps]
  cases g'.maps.find? interface with
  | none => exact .throw _
  | some m =>
    refine Twins.bind (R := List.Forall₂ Eq) (.mapM ?_) fun es es' hes => .pure ?_
    · refine List.forall₂_same.mpr fun e _ => ?_
      exact (element_twins hg e.2).bind fun x x' hx => .pure (congrArg (e.1,·) hx)
    · rw [List.forall₂_eq_eq_eq] at hes
      rw [hes]

theorem argument_twins (hscope : ScopesMatch h scope scope') {a a' : Argument Value}
    (ha : a.Alike h.Matches a') :
    Twins h (Kept.Matches h) (argument g scope a) (argument g' scope' a') := by
  unfold argument
  rw [← ha.key,← ha.parameter,← ha.set]
  split
  · exact .pure ⟨rfl,.nil⟩
  cases a.set with
  | some interface => exact (mapOf_twins hg interface).bind fun e e' he => .pure ⟨he,.nil⟩
  | none =>
    have hb := hg.get? a.key
    generalize g.get? a.key = b?,g'.get? a.key = b'? at hb ⊢
    cases hb with
    | none => exact (outside_twins hscope ha).bind fun e e' he => .pure ⟨he,.nil⟩
    | some hb =>
      cases hb with
      | literal hv => exact (sourceOf_twins hv).bind fun e e' he => .pure ⟨he,.nil⟩
      | construction hp =>
        refine .pure ⟨?_,.nil⟩
        rw [Binding.isShared,Binding.isShared,hp.shared]
      | provider plan shared context =>
        refine .pure ⟨rfl,?_⟩
        have hqualifier := ha.qualifier
        generalize a.qualifier = q?,a'.qualifier = q'? at hqualifier ⊢
        cases hqualifier with
        | none => exact .nil
        | some hq => exact .cons ⟨rfl,hq⟩ .nil
      | nullObject interface => exact .pure ⟨rfl,.nil⟩

theorem arguments_twins (hscope : ScopesMatch h scope scope') {as as' : List (Argument Value)}
    (ha : List.Forall₂ (Argument.Alike h.Matches) as as') :
    Twins h (Kept.Matches h) (arguments g scope as) (arguments g' scope' as') := by
  induction ha with
  | nil => exact .pure ⟨rfl,.nil⟩
  | cons hhead _ ih =>
    refine (argument_twins hg hscope hhead).bind fun x x' hx => ?_
    refine ih.bind fun xs xs' hxs => .pure ⟨?_,List.rel_append hx.2 hxs.2⟩
    dsimp only
    rw [hx.1,hxs.1]

theorem setter_twins (hscope : ScopesMatch h scope scope') {s s' : SetterCall Value}
    (hs : s.Alike h.Matches s') :
    Twins h (Kept.Matches h) (setter g scope s) (setter g' scope' s') := by
  unfold setter
  rw [← hs.method,← hs.optional]
  refine (arguments_twins hg hscope hs.arguments).attempt.bind fun answer answer' hanswers => ?_
  cases hanswers with
  | ok hx =>
    refine .pure ⟨?_,hx.2⟩
    rw [hx.1]
  | error f =>
    dsimp only
    split
    · exact .pure ⟨rfl,.nil⟩
    · exact .throw f

theorem setters_twins (hscope : ScopesMatch h scope scope') {ss ss' : List (SetterCall Value)}
    (hs : List.Forall₂ (SetterCall.Alike h.Matches) ss ss') :
    Twins h (Kept.Matches h) (setters g scope ss) (setters g' scope' ss') := by
  induction hs with
  | nil => exact .pure ⟨rfl,.nil⟩
  | cons hhead _ ih =>
    refine (setter_twins hg hscope hhead).bind fun x x' hx => ?_
    refine ih.bind fun xs xs' hxs => .pure ⟨?_,List.rel_append hx.2 hxs.2⟩
    dsimp only
    rw [hx.1,hxs.1]

theorem factory_twins (hscope : ScopesMatch h scope scope') {p p' : Plan Value}
    (hp : p.Alike h.Matches p') :
    Twins h (Kept.Matches h) (factory g scope p) (factory g' scope' p') := by
  unfold factory
  rw [← hp.className,← hp.postConstruct]
  refine (arguments_twins hg hscope hp.arguments).bind fun x x' hx => ?_
  refine (setters_twins hg hscope hp.setters).bind fun xs xs' hxs => ?_
  refine .pure ⟨?_,List.rel_append hx.2 hxs.2⟩
  dsimp only
  rw [hx.1,hxs.1]

/-- The units of bindings that are alike have the same statements. -/
theorem unitOf_twins (hscope : ScopesMatch h scope scope') {b b' : Binding Value}
    (hb : b.Alike h.Matches b') :
    Twins h (Code.Matches h) (unitOf g scope b) (unitOf g' scope' b') := by
  cases hb with
  | literal hv =>
    refine (sourceOf_twins hv).bind fun e e' he => .pure ⟨?_,rfl,.nil⟩
    rw [he]
  | @construction p p' hp =>
    have hadvice : advice p = advice p' := by rw [advice,advice,hp.advice]
    refine (factory_twins hg hscope hp).bind fun x x' hx => .pure ⟨?_,hp.shared,hx.2⟩
    dsimp only
    rw [hx.1,hadvice,hp.shared]
  | provider shared context hp =>
    refine (factory_twins hg hscope hp).bind fun x x' hx => .pure ⟨?_,rfl,hx.2⟩
    dsimp only
    rw [hx.1]
  | nullObject interface => exact .throw _

end Compile

section Mirrors

variable {g g' g'' : Graph} {h h' h'' : Heap}

theorem Container.Mirrors.symm (hg : g.Mirrors h g' h') : g'.Mirrors h' g h :=
  hg.flip.imp fun _ _ hv => hv.symm

theorem Container.Mirrors.trans (hg : g.Mirrors h g' h') (hg' : g'.Mirrors h' g'' h'') :
    g.Mirrors h g'' h'' :=
  hg.comp (fun _ _ _ hv hu => hv.trans hu) hg'

/-- The plan has the same values as itself. -/
theorem Plan.alike_self (p : Plan Value) (h : Heap) : p.Alike h.Matches p := by
  have htrees : p.Alike (fun v t => h.unfold v = t) (Id.run (p.mapM fun v => pure (h.unfold v))) :=
    Judgment.relates_plan (J := .plain) (T := fun _ v t => h.unfold v = t)
      (fun _ _ _ _ _ hv => hv) (w := ()) (fun _ _ _ _ => rfl) () trivial
  exact htrees.comp (fun _ _ _ hv hu => hv.trans hu.symm) htrees.flip

end Mirrors

namespace Save

open Work

variable {dir : String} {h : Heap}

theorem onFiles_heap {α : Type} (w : FileWork α) :
    (Work.onFiles w).Maintains (·.heap = h) fun _ => True :=
  fun _ hsite => ⟨hsite,fun _ _ => trivial⟩

theorem valueText_twins {v u : Value} (hvu : h.Matches v u) :
    Twins h Eq (valueText v) (valueText u) := by
  rintro site rfl
  have hheap : Work.heap site = (.ok site.heap,site) := rfl
  rw [valueText,valueText,run_bind hheap,run_bind hheap,hvu]
  cases (site.heap.unfold u).toJson? with
  | none => exact ⟨rfl,rfl,.error _⟩
  | some j => exact ⟨rfl,rfl,.ok rfl⟩

theorem qualifier_twins {p q : Qualifier} (hpq : p.Matches h q) :
    Twins h Eq (qualifier dir p) (qualifier dir q) := by
  unfold qualifier
  rw [hpq.1]
  refine (valueText_twins hpq.2).bind fun text text' htext => ?_
  subst htext
  exact .same (onFiles_heap _)

/-- Units that match have the same files. -/
theorem unit_twins {key : Key} {c d : Code} (hcd : c.Matches h d) :
    Twins h Eq (unit dir key c) (unit dir key d) := by
  unfold unit
  rw [Code.source,Code.source,hcd.statements,hcd.shared]
  refine (Twins.same (onFiles_heap _)).bind fun _ _ _ => ?_
  refine (Twins.same (onFiles_heap _)).bind fun _ _ _ => ?_
  have hall := hcd.qualifiers
  generalize c.qualifiers = ps,d.qualifiers = qs at hall ⊢
  induction hall with
  | nil => exact .pure rfl
  | cons hhead _ ih =>
    rw [qualifiers_cons,qualifiers_cons]
    exact (qualifier_twins hhead).bind fun _ _ _ => ih

theorem pointcuts?_heap (dir : String) :
    (pointcuts? dir).Maintains (·.heap = h) fun _ => True := by
  unfold pointcuts?
  refine (onFiles_heap _).bind fun text _ => ?_
  cases text with
  | none => exact .pure trivial
  | some text => exact (Compile.decode_maintains text _).bind fun _ _ => .pure trivial

theorem scope?_heap (dir : String) (key : Key) :
    (scope? dir key).Maintains (·.heap = h) fun _ => True := by
  unfold scope?
  refine (onFiles_heap _).bind fun text _ => ?_
  cases text with
  | none => exact .pure trivial
  | some text => exact (Compile.decode_maintains text _).bind fun _ _ => .pure trivial

end Save

namespace Demand

open Work Compile

variable {dir : String} {h : Heap} {g g' : Graph} {key : Key}

/-- Classes are found with the heap left alone. -/
theorem classes_heap : Classes.Keep (·.heap = h) := find?_heap_maintains

theorem ofClass_heap (className : String) :
    (Plan.ofClass className).Maintains (·.heap = h) fun _ => True :=
  (classes_heap.find className).bind fun _ _ => .pure trivial

theorem infer_heap (key : Key) : (infer key).Maintains (·.heap = h) fun _ => True := by
  unfold infer
  refine (find?_heap_maintains key.interface).bind fun c _ => ?_
  cases c with
  | none => exact .throw _
  | some c =>
    dsimp only
    split
    · exact ofClass_heap key.interface
    · exact .throw _

theorem nullObject_heap (dir interface : String) :
    (Prepare.nullObject dir interface).Maintains (·.heap = h) fun _ => True := by
  have hregister (c : ClassDecl) : (Work.modifyRegistry (·.register c)).Maintains (·.heap = h)
      fun _ => True := fun _ hsite => ⟨hsite,fun _ _ => trivial⟩
  have hnames : (Classes.nullObject interface).Maintains (·.heap = h) fun _ => True :=
    Classes.Keep.walkFuel.bind fun fuel _ =>
      (classes_heap.declaredTo fuel interface []).bind fun _ _ => .pure trivial
  unfold Prepare.nullObject
  refine hnames.bind fun generated _ => (Save.onFiles_heap _).bind fun _ _ => ?_
  exact (hregister _).bind fun _ _ => ofClass_heap generated.name

theorem bindingOf_twins (hg : g.Alike h.Matches g') :
    Twins h (Binding.Alike h.Matches) (bindingOf dir g key) (bindingOf dir g' key) := by
  have hplan {w : Work (Plan Value)} (hw : w.Maintains (·.heap = h) fun _ => True) :
      Twins h (Binding.Alike h.Matches) (do return .construction (← w))
        (do return .construction (← w)) := by
    refine (Twins.same hw).bind fun p p' hp => .pure (.construction ?_)
    rw [← hp]
    exact p.alike_self h
  have hb := hg.get? key
  unfold bindingOf
  generalize g.get? key = b?,g'.get? key = b'? at hb ⊢
  cases hb with
  | none => exact hplan (infer_heap key)
  | some hb =>
    cases hb with
    | literal hv => exact .pure (.literal hv)
    | construction hp => exact .pure (.construction hp)
    | provider shared context hp => exact .pure (.provider shared context hp)
    | nullObject interface => exact hplan (nullObject_heap dir interface)

theorem weavePlan_twins (pointcuts : List Pointcut) {p p' : Plan Value}
    (hp : p.Alike h.Matches p') :
    Twins h (Plan.Alike h.Matches) (Weave.plan pointcuts p) (Weave.plan pointcuts p') := by
  have hnames (className : String) :
      (Classes.methodNames className).Maintains (·.heap = h) fun _ => True :=
    Classes.Keep.walkFuel.bind fun fuel _ => classes_heap.methodNamesTo fuel className
  unfold Weave.plan
  rw [← hp.className]
  refine (Twins.same (hnames p.className)).bind fun methods methods' hmethods => ?_
  subst hmethods
  refine .foldlM pointcuts hp fun c q q' hq => ?_
  unfold Weave.apply
  rw [← hq.className]
  refine (Twins.same (classes_heap.selects c.classes q.className)).bind fun selected _ hs => ?_
  subst hs
  dsimp only
  split
  · refine .pure ⟨rfl,hq.arguments,hq.setters,hq.postConstruct,hq.shared,?_⟩
    dsimp only
    rw [hq.advice]
  · exact .pure hq

theorem weave_twins {b b' : Binding Value} (hb : b.Alike h.Matches b') :
    Twins h (Binding.Alike h.Matches) (weave dir b) (weave dir b') := by
  cases hb with
  | literal hv => exact .pure (.literal hv)
  | construction hp =>
    refine (Twins.same (Save.pointcuts?_heap dir)).bind fun pointcuts _ hpointcuts => ?_
    subst hpointcuts
    cases pointcuts with
    | none => exact .pure (.construction hp)
    | some pointcuts =>
      exact (weavePlan_twins pointcuts hp).bind fun q q' hq => .pure (.construction hq)
  | provider shared context hp => exact .pure (.provider shared context hp)
  | nullObject interface => exact .pure (.nullObject interface)

/-- The graph tells the scopes of its keys, files those of others. -/
theorem scopeIn_match (hg : g.Alike h.Matches g') :
    ScopesMatch h (some (Resolve.scopeIn dir g)) (some (Resolve.scopeIn dir g')) := by
  refine .some fun key => ?_
  have hb := hg.get? key
  unfold Resolve.scopeIn
  generalize g.get? key = b?,g'.get? key = b'? at hb ⊢
  cases hb with
  | some hb => exact .pure hb.isShared
  | none =>
    refine (Twins.same (Save.scope?_heap dir key)).bind fun shared _ hshared => ?_
    subst hshared
    cases shared with
    | none => exact .throw _
    | some shared => exact .pure rfl

theorem compile_twins {scope scope' : Option ScopeOf} (hg : g.Alike h.Matches g')
    (hscope : ScopesMatch h scope scope') :
    Twins h Eq (compile dir g scope key) (compile dir g' scope' key) := by
  unfold compile
  refine (bindingOf_twins hg).bind fun b b' hb => ?_
  refine (weave_twins hb).bind fun b b' hb => ?_
  exact (unitOf_twins hg hscope hb).bind fun c d hcd => Save.unit_twins hcd

/-- To compile a key on demand is the same work for graphs that mirror each other. -/
theorem compile_mirrored {site : Site} (hg : g.Mirrors site.heap g' site.heap) :
    compile dir g (some (Resolve.scopeIn dir g)) key site =
      compile dir g' (some (Resolve.scopeIn dir g')) key site :=
  (compile_twins hg (scopeIn_match hg)).run_eq rfl

theorem compile_heap (dir : String) (key : Key) {site : Site} (hg : g.Mirrors site.heap g' site.heap) :
    (compile dir g (some (Resolve.scopeIn dir g)) key site).2.heap = site.heap :=
  (compile_twins hg (scopeIn_match hg) site rfl).2.1

end Demand
end Wiring
