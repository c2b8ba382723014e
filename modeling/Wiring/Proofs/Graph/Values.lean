import Mathlib
import Wiring.Graph.Container
import Wiring.Proofs.Results

/-!
# Graphs that differ in their values

The values of a graph are its literals and the fallbacks and qualifiers of its arguments. Two
graphs over values of any types are alike if they have the same bindings, pointcuts and maps in the
same order, and related values in the same places. To compute a value for each value of a graph
gives a graph that is alike, whatever the computation does besides.
-/
namespace Wiring

variable {ν μ : Type} {R S : ν → μ → Prop}

section Values

def Argument.values (a : Argument ν) : List ν := a.fallback.toList ++ a.qualifier.toList

def SetterCall.values (s : SetterCall ν) : List ν := s.arguments.flatMap Argument.values

def Plan.values (p : Plan ν) : List ν :=
  p.arguments.flatMap Argument.values ++ p.setters.flatMap SetterCall.values

def Binding.values : Binding ν → List ν
  | literal value => [value]
  | construction plan => plan.values
  | provider plan _ _ => plan.values
  | nullObject _ => []

def Container.values (c : Container ν) : List ν := c.bindings.flatMap fun b => b.2.values

/-- The plan of a binding, if it has one. -/
def Binding.plan? : Binding ν → Option (Plan ν)
  | construction plan => some plan
  | provider plan _ _ => some plan
  | _ => none

end Values

section Alike

structure Argument.Alike (R : ν → μ → Prop) (a : Argument ν) (b : Argument μ) : Prop where
  key : a.key = b.key
  parameter : a.parameter = b.parameter
  fallback : Option.Rel R a.fallback b.fallback
  qualifier : Option.Rel R a.qualifier b.qualifier
  set : a.set = b.set

structure SetterCall.Alike (R : ν → μ → Prop) (s : SetterCall ν) (t : SetterCall μ) : Prop where
  method : s.method = t.method
  arguments : List.Forall₂ (Argument.Alike R) s.arguments t.arguments
  optional : s.optional = t.optional

structure Plan.Alike (R : ν → μ → Prop) (p : Plan ν) (q : Plan μ) : Prop where
  className : p.className = q.className
  arguments : List.Forall₂ (Argument.Alike R) p.arguments q.arguments
  setters : List.Forall₂ (SetterCall.Alike R) p.setters q.setters
  postConstruct : p.postConstruct = q.postConstruct
  shared : p.shared = q.shared
  advice : p.advice = q.advice

inductive Binding.Alike (R : ν → μ → Prop) : Binding ν → Binding μ → Prop where
  | literal {v : ν} {u : μ} (h : R v u) : Alike R (.literal v) (.literal u)
  | construction {p : Plan ν} {q : Plan μ} (h : p.Alike R q) :
      Alike R (.construction p) (.construction q)
  | provider {p : Plan ν} {q : Plan μ} (shared : Bool) (context : Option String)
      (h : p.Alike R q) : Alike R (.provider p shared context) (.provider q shared context)
  | nullObject (interface : String) : Alike R (.nullObject interface) (.nullObject interface)

/-- The graphs have the same bindings, pointcuts and maps in the same order, and related values
in the same places. -/
structure Container.Alike (R : ν → μ → Prop) (c : Container ν) (d : Container μ) : Prop where
  bindings : List.Forall₂ (fun a b => a.1 = b.1 ∧ a.2.Alike R b.2) c.bindings d.bindings
  pointcuts : c.pointcuts = d.pointcuts
  maps : c.maps = d.maps

variable (hRS : ∀ v u, R v u → S v u)
include hRS

theorem optionRel_imp {a? : Option ν} {b? : Option μ} (h : Option.Rel R a? b?) :
    Option.Rel S a? b? := by
  cases h with
  | none => exact .none
  | some h => exact .some (hRS _ _ h)

theorem Argument.Alike.imp {a : Argument ν} {b : Argument μ} (h : a.Alike R b) : a.Alike S b :=
  ⟨h.key,h.parameter,optionRel_imp hRS h.fallback,optionRel_imp hRS h.qualifier,h.set⟩

theorem SetterCall.Alike.imp {s : SetterCall ν} {t : SetterCall μ} (h : s.Alike R t) :
    s.Alike S t :=
  ⟨h.method,h.arguments.imp fun _ _ ha => ha.imp hRS,h.optional⟩

theorem Plan.Alike.imp {p : Plan ν} {q : Plan μ} (h : p.Alike R q) : p.Alike S q where
  className := h.className
  arguments := h.arguments.imp fun _ _ ha => ha.imp hRS
  setters := h.setters.imp fun _ _ hs => hs.imp hRS
  postConstruct := h.postConstruct
  shared := h.shared
  advice := h.advice

theorem Binding.Alike.imp {a : Binding ν} {b : Binding μ} (h : a.Alike R b) : a.Alike S b := by
  cases h with
  | literal h => exact .literal (hRS _ _ h)
  | construction h => exact .construction (h.imp hRS)
  | provider shared context h => exact .provider shared context (h.imp hRS)
  | nullObject interface => exact .nullObject interface

end Alike

section Comp

variable {ξ : Type} {U : μ → ξ → Prop} {Q : ν → ξ → Prop} (hQ : ∀ v u x, R v u → U u x → Q v x)
include hQ

theorem optionRel_comp {a? : Option ν} {b? : Option μ} {c? : Option ξ} (h : Option.Rel R a? b?)
    (h' : Option.Rel U b? c?) : Option.Rel Q a? c? := by
  cases h with
  | none =>
    cases h' with
    | none => exact .none
  | some h =>
    cases h' with
    | some h' => exact .some (hQ _ _ _ h h')

theorem forall₂_comp {as : List ν} {bs : List μ} {cs : List ξ} (h : List.Forall₂ R as bs)
    (h' : List.Forall₂ U bs cs) : List.Forall₂ Q as cs := by
  induction h generalizing cs with
  | nil =>
    cases h' with
    | nil => exact .nil
  | cons hr _ ih =>
    cases h' with
    | cons hs h' => exact .cons (hQ _ _ _ hr hs) (ih h')

theorem Argument.Alike.comp {a : Argument ν} {b : Argument μ} {c : Argument ξ} (h : a.Alike R b)
    (h' : b.Alike U c) : a.Alike Q c where
  key := h.key.trans h'.key
  parameter := h.parameter.trans h'.parameter
  fallback := optionRel_comp hQ h.fallback h'.fallback
  qualifier := optionRel_comp hQ h.qualifier h'.qualifier
  set := h.set.trans h'.set

theorem SetterCall.Alike.comp {a : SetterCall ν} {b : SetterCall μ} {c : SetterCall ξ}
    (h : a.Alike R b) (h' : b.Alike U c) : a.Alike Q c where
  method := h.method.trans h'.method
  arguments := forall₂_comp (fun _ _ _ ha ha' => ha.comp hQ ha') h.arguments h'.arguments
  optional := h.optional.trans h'.optional

theorem Plan.Alike.comp {a : Plan ν} {b : Plan μ} {c : Plan ξ} (h : a.Alike R b)
    (h' : b.Alike U c) : a.Alike Q c where
  className := h.className.trans h'.className
  arguments := forall₂_comp (fun _ _ _ ha ha' => ha.comp hQ ha') h.arguments h'.arguments
  setters := forall₂_comp (fun _ _ _ hs hs' => hs.comp hQ hs') h.setters h'.setters
  postConstruct := h.postConstruct.trans h'.postConstruct
  shared := h.shared.trans h'.shared
  advice := h.advice.trans h'.advice

theorem Binding.Alike.comp {a : Binding ν} {b : Binding μ} {c : Binding ξ} (h : a.Alike R b)
    (h' : b.Alike U c) : a.Alike Q c := by
  cases h with
  | literal h =>
    cases h' with
    | literal h' => exact .literal (hQ _ _ _ h h')
  | construction h =>
    cases h' with
    | construction h' => exact .construction (h.comp hQ h')
  | provider shared context h =>
    cases h' with
    | provider _ _ h' => exact .provider shared context (h.comp hQ h')
  | nullObject interface =>
    cases h' with
    | nullObject => exact .nullObject interface

theorem Container.Alike.comp {a : Container ν} {b : Container μ} {c : Container ξ}
    (h : a.Alike R b) (h' : b.Alike U c) : a.Alike Q c where
  bindings := forall₂_comp (fun _ _ _ hb hb' => ⟨hb.1.trans hb'.1,hb.2.comp hQ hb'.2⟩)
    h.bindings h'.bindings
  pointcuts := h.pointcuts.trans h'.pointcuts
  maps := h.maps.trans h'.maps

end Comp

section Paired

theorem optionRel_toList {a? : Option ν} {b? : Option μ} (h : Option.Rel R a? b?) :
    List.Forall₂ R a?.toList b?.toList := by
  cases h with
  | none => exact .nil
  | some h => exact .cons h .nil

theorem Argument.Alike.values {a : Argument ν} {b : Argument μ} (h : a.Alike R b) :
    List.Forall₂ R a.values b.values :=
  List.rel_append (optionRel_toList h.fallback) (optionRel_toList h.qualifier)

theorem SetterCall.Alike.values {s : SetterCall ν} {t : SetterCall μ} (h : s.Alike R t) :
    List.Forall₂ R s.values t.values :=
  List.rel_flatMap h.arguments fun _ _ ha => ha.values

theorem Plan.Alike.values {p : Plan ν} {q : Plan μ} (h : p.Alike R q) :
    List.Forall₂ R p.values q.values := by
  apply List.rel_append
  · exact List.rel_flatMap h.arguments fun _ _ ha => ha.values
  · exact List.rel_flatMap h.setters fun _ _ hs => hs.values

theorem Binding.Alike.values {a : Binding ν} {b : Binding μ} (h : a.Alike R b) :
    List.Forall₂ R a.values b.values := by
  cases h with
  | literal h => exact .cons h .nil
  | construction h => exact h.values
  | provider _ _ h => exact h.values
  | nullObject => exact .nil

/-- Graphs that are alike have related values, one by one. -/
theorem Container.Alike.values {c : Container ν} {d : Container μ} (h : c.Alike R d) :
    List.Forall₂ R c.values d.values :=
  List.rel_flatMap h.bindings fun _ _ hb => hb.2.values

end Paired

section Tabled

/-- The tables of the graph have distinct keys. -/
structure Container.Tabled (c : Container ν) : Prop where
  bindings : (c.bindings.map Prod.fst).Nodup
  maps : (c.maps.map Prod.fst).Nodup
  advice : ∀ b ∈ c.bindings, ∀ p, b.2.plan? = some p → (p.advice.map Prod.fst).Nodup

theorem Binding.Alike.advice {a : Binding ν} {b : Binding μ} (h : a.Alike R b) {q : Plan μ}
    (hq : b.plan? = some q) : ∃ p, a.plan? = some p ∧ p.advice = q.advice := by
  cases h with
  | literal => cases hq
  | construction h => exact ⟨_,rfl,Option.some.inj hq ▸ h.advice⟩
  | provider _ _ h => exact ⟨_,rfl,Option.some.inj hq ▸ h.advice⟩
  | nullObject => cases hq

/-- Graphs that are alike have the same keys in their tables. -/
theorem Container.Alike.tabled {c : Container ν} {d : Container μ} (h : c.Alike R d)
    (hc : c.Tabled) : d.Tabled where
  bindings := by
    have hkeys : List.Forall₂ Eq (c.bindings.map Prod.fst) (d.bindings.map Prod.fst) := by
      rw [List.forall₂_map_left_iff,List.forall₂_map_right_iff]
      exact h.bindings.imp fun _ _ hb => hb.1
    rw [List.forall₂_eq_eq_eq] at hkeys
    exact hkeys ▸ hc.bindings
  maps := h.maps ▸ hc.maps
  advice d hd q hq := by
    obtain ⟨b,hb,_,halike⟩ := mem_of_forall₂ h.bindings hd
    obtain ⟨p,hp,hadvice⟩ := halike.advice hq
    exact hadvice ▸ hc.advice b hb p hp

end Tabled

/-- What can be told of the answer of a computation that starts in some state, where the states
only go on. -/
structure Judgment (m : Type → Type) [Monad m] (ω : Type) where
  later : ω → ω → Prop
  trans : ∀ {w w' w''}, later w w' → later w' w'' → later w w''
  gives : {α : Type} → ω → m α → (ω → α → Prop) → Prop
  pure : ∀ {α : Type} {w : ω} {a : α} {P : ω → α → Prop}, P w a → gives w (pure a) P
  bind : ∀ {α β : Type} {w : ω} {x : m α} {f : α → m β} {P : ω → α → Prop} {Q : ω → β → Prop},
    gives w x P → (∀ w' a, later w w' → P w' a → gives w' (f a) Q) → gives w (x >>= f) Q

namespace Judgment

variable {m : Type → Type} [Monad m] {ω : Type} (J : Judgment m ω)

/-- The relation, once it holds, goes on to hold. -/
def Lasts {α β : Type} (T : ω → α → β → Prop) : Prop :=
  ∀ w w' a b, J.later w w' → T w a b → T w' a b

/-- From this state on, the computation gives something related. -/
def Relates {α β : Type} (T : ω → α → β → Prop) (w : ω) (f : α → m β) (a : α) : Prop :=
  ∀ w', J.later w w' → J.gives w' (f a) fun w b => T w a b

variable {J} [LawfulMonad m] {w : ω}

theorem relates_list {α β : Type} {T : ω → α → β → Prop} (hT : J.Lasts T) {f : α → m β}
    {as : List α} (h : ∀ a ∈ as, J.Relates T w f a) :
    J.Relates (fun w => List.Forall₂ (T w)) w (List.mapM f) as := by
  intro w₀ hw₀
  induction as generalizing w₀ with
  | nil =>
    rw [List.mapM_nil]
    exact J.pure .nil
  | cons a rest ih =>
    rw [List.mapM_cons]
    refine J.bind (h a List.mem_cons_self _ hw₀) fun w₁ b hw₁ hb => ?_
    have hrest := ih (fun d hd => h d (List.mem_cons_of_mem _ hd)) w₁ (J.trans hw₀ hw₁)
    refine J.bind hrest fun w₂ bs hw₂ hbs => J.pure ?_
    exact .cons (hT _ _ _ _ hw₂ hb) hbs

theorem relates_option {α β : Type} {T : ω → α → β → Prop} {f : α → m β} {a? : Option α}
    (h : ∀ a ∈ a?.toList, J.Relates T w f a) :
    J.Relates (fun w => Option.Rel (T w)) w (Option.mapM f) a? := by
  intro w₀ hw₀
  cases a? with
  | none => exact J.pure .none
  | some a =>
    have hmap : Option.mapM f (some a) = f a >>= fun b => Pure.pure (some b) :=
      (bind_pure_comp some (f a)).symm
    rw [hmap]
    exact J.bind (h a (List.mem_singleton_self a) _ hw₀) fun _ _ _ hb => J.pure (.some hb)

variable {T : ω → ν → μ → Prop} (hT : J.Lasts T) {f : ν → m μ}
include hT

theorem relates_argument {a : Argument ν} (h : ∀ v ∈ a.values, J.Relates T w f v) :
    J.Relates (fun w => Argument.Alike (T w)) w (Argument.mapM f) a := by
  intro w₀ hw₀
  have hfallback := relates_option fun v hv => h v (List.mem_append_left _ hv)
  have hqualifier := relates_option fun v hv => h v (List.mem_append_right _ hv)
  refine J.bind (hfallback _ hw₀) fun w₁ fallback hw₁ hf => ?_
  refine J.bind (hqualifier _ (J.trans hw₀ hw₁)) fun w₂ qualifier hw₂ hq => J.pure ?_
  exact ⟨rfl,rfl,optionRel_imp (fun _ _ => hT _ _ _ _ hw₂) hf,hq,rfl⟩

theorem relates_arguments {as : List (Argument ν)}
    (h : ∀ v ∈ as.flatMap Argument.values, J.Relates T w f v) :
    J.Relates (fun w => List.Forall₂ (Argument.Alike (T w))) w (List.mapM (Argument.mapM f)) as :=
  relates_list (fun _ _ _ _ hw ha => ha.imp fun _ _ => hT _ _ _ _ hw) fun a ha =>
    relates_argument hT fun v hv => h v (List.mem_flatMap.mpr ⟨a,ha,hv⟩)

theorem relates_plan {p : Plan ν} (h : ∀ v ∈ p.values, J.Relates T w f v) :
    J.Relates (fun w => Plan.Alike (T w)) w (Plan.mapM f) p := by
  intro w₀ hw₀
  have harguments := relates_arguments hT fun v hv => h v (List.mem_append_left _ hv)
  refine J.bind (harguments _ hw₀) fun w₁ arguments hw₁ ha => ?_
  have hsetters : J.Relates (fun w => List.Forall₂ (SetterCall.Alike (T w))) w
      (List.mapM fun s => do
        return { method := s.method, arguments := ← s.arguments.mapM (Argument.mapM f),
                 optional := s.optional : SetterCall μ }) p.setters := by
    refine relates_list (fun _ _ _ _ hw hs => hs.imp fun _ _ => hT _ _ _ _ hw) fun s hs => ?_
    intro w' hw'
    have hcall := relates_arguments hT fun v hv =>
      h v (List.mem_append_right _ (List.mem_flatMap.mpr ⟨s,hs,hv⟩))
    exact J.bind (hcall _ hw') fun _ _ _ hb => J.pure ⟨rfl,hb,rfl⟩
  refine J.bind (hsetters _ (J.trans hw₀ hw₁)) fun w₂ setters hw₂ hs => J.pure ?_
  have harguments' := ha.imp fun _ _ hb => hb.imp fun _ _ => hT _ _ _ _ hw₂
  exact ⟨rfl,harguments',hs,rfl,rfl,rfl⟩

theorem relates_binding {b : Binding ν} (h : ∀ v ∈ b.values, J.Relates T w f v) :
    J.Relates (fun w => Binding.Alike (T w)) w (Binding.mapM f) b := by
  intro w₀ hw₀
  cases b with
  | literal v =>
    have hmap : Binding.mapM f (.literal v) = f v >>= fun u => Pure.pure (.literal u) :=
      (bind_pure_comp _ _).symm
    rw [hmap]
    exact J.bind (h v (List.mem_singleton_self v) _ hw₀) fun _ _ _ hu => J.pure (.literal hu)
  | construction p =>
    have hmap : Binding.mapM f (.construction p) =
        p.mapM f >>= fun q => Pure.pure (.construction q) := (bind_pure_comp _ _).symm
    rw [hmap]
    exact J.bind (relates_plan hT h _ hw₀) fun _ _ _ hq => J.pure (.construction hq)
  | provider p shared context =>
    have hmap : Binding.mapM f (.provider p shared context) =
        p.mapM f >>= fun q => Pure.pure (.provider q shared context) := (bind_pure_comp _ _).symm
    rw [hmap]
    exact J.bind (relates_plan hT h _ hw₀) fun _ _ _ hq => J.pure (.provider shared context hq)
  | nullObject interface => exact J.pure (.nullObject interface)

/-- To compute a related value for each value of a graph gives a graph that is alike. -/
theorem relates_container {c : Container ν} (h : ∀ v ∈ c.values, J.Relates T w f v) :
    J.Relates (fun w => Container.Alike (T w)) w (Container.mapM f) c := by
  intro w₀ hw₀
  have hbindings : J.Relates
      (fun w => List.Forall₂ fun (a : Key × Binding ν) (b : Key × Binding μ) =>
        a.1 = b.1 ∧ a.2.Alike (T w) b.2) w
      (List.mapM fun b => do return (b.1,← b.2.mapM f)) c.bindings := by
    refine relates_list (fun _ _ _ _ hw hb => ⟨hb.1,hb.2.imp fun _ _ => hT _ _ _ _ hw⟩)
      fun b hb => ?_
    intro w' hw'
    have hbinding := relates_binding hT fun v hv => h v (List.mem_flatMap.mpr ⟨b,hb,hv⟩)
    exact J.bind (hbinding _ hw') fun _ _ _ hd => J.pure ⟨rfl,hd⟩
  exact J.bind (hbindings _ hw₀) fun _ _ _ hb => J.pure ⟨hb,rfl,rfl⟩

end Judgment
end Wiring
