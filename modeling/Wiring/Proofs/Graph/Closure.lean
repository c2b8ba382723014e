import Mathlib
import Wiring.Graph.Module
import Wiring.Proofs.Classes.Rooted
import Wiring.Proofs.Graph.Merging

/-!
# The classes that bindings ask for are bound

To bind a class is to bind the concrete classes that it asks for as well, and theirs in turn.
Each round binds one more of the classes that lookups can find, so the rounds do not end before
all of them are bound. Installing and overriding modules take no key away. So in the graph of a
module every concrete class that a binding asks for under any name is bound, and so is every
concrete interceptor. All that is needed of the lookups is that they find finitely many names,
fewer than there are rounds.
-/
namespace Wiring

theorem eq_of_splitLast {mark : Char} {l before after : List Char}
    (h : splitLast mark l = some (before,after)) : l = before ++ mark :: after := by
  induction l generalizing before with
  | nil => cases h
  | cons c rest ih =>
    rw [splitLast] at h
    cases hrest : splitLast mark rest with
    | some parts =>
      rw [hrest] at h
      obtain ⟨rfl,rfl⟩ := Prod.mk.inj (Option.some.inj h)
      rw [ih hrest,List.cons_append]
    | none =>
      rw [hrest] at h
      dsimp only at h
      split at h
      next hc =>
        obtain ⟨rfl,rfl⟩ := Prod.mk.inj (Option.some.inj h)
        rw [hc,List.nil_append]
      next => cases h

/-- A key that asks for any name is that of its interface. -/
theorem Key.any_interface {key : Key} (h : key.isAny = true) : Key.any key.interface = key := by
  obtain ⟨text⟩ := key
  unfold Key.isAny Key.name at h
  unfold Key.any Key.of Key.interface
  cases hsplit : splitLast '-' text.toList with
  | none =>
    rw [hsplit] at h
    cases h
  | some parts =>
    rw [hsplit] at h
    have hafter : String.ofList parts.2 = "*" := beq_iff_eq.mp h
    rw [Key.mk.injEq]
    apply String.toList_inj.mp
    rw [eq_of_splitLast hsplit,← String.toList_ofList (l := parts.2),hafter]
    simp [Key.anyName]

namespace Registry

/-- No class that is looked up is read from a file. -/
def Fixed (r : Registry) (fs : Files) : Prop := ∀ className, r.Unread fs className

/-- A class of this name is registered, and objects of it can be made. -/
def Concrete (r : Registry) (className : String) : Prop :=
  ∃ c, r.classes.find? className = some c ∧ c.isConcrete = true

end Registry

/-- The registry and the files are known; the heap may be any. -/
structure Standing (r : Registry) (fs : Files) (site : Site) : Prop where
  registry : site.registry = r
  files : site.files = fs

/-- As long as the invariant holds, lookups find classes of some of the names only, among them
the concrete ones of the registry, and there are more rounds than names. -/
structure Surveyed (r : Registry) (names : Finset String) (I : Site → Prop) : Prop where
  find? : ∀ className, (Classes.find? className).Finishes I fun c =>
    (c.isSome = true → className ∈ names) ∧
      (r.Concrete className → ∃ d, c = some d ∧ d.isConcrete = true)
  walkFuel : Classes.walkFuel.Finishes I fun fuel => names.card < fuel
  build : ∀ tree, (Work.build none tree).Finishes I fun _ => True

namespace Binding

/-- No interceptors are recorded. -/
def Unwoven : Binding Value → Prop
  | construction plan => plan.advice = []
  | _ => True

theorem Unwoven.share {b : Binding Value} (h : b.Unwoven) : b.share.Unwoven := by
  cases b <;> exact h

theorem candidates_share (b : Binding Value) : b.share.candidates = b.candidates := by
  cases b <;> rfl

end Binding

namespace Graph

open Work

variable {r : Registry} {fs : Files} {g g' g'' : Graph} {names : Finset String}
  {I : Site → Prop}

theorem has_of_get? {key : Key} {b : Binding Value} (h : g.get? key = some b) :
    g.has key = true := by
  rw [Container.has,Table.has,← Container.get?,h]
  rfl

theorem get?_of_has {key : Key} (h : g.has key = true) : ∃ b, g.get? key = some b :=
  Option.isSome_iff_exists.mp h

theorem get?_add_self (g : Graph) (key : Key) (b : Binding Value) :
    (g.add key b).get? key = some b := Table.find?_put_self ..

theorem get?_add_of_ne (g : Graph) {key other : Key} (b : Binding Value) (h : other ≠ key) :
    (g.add key b).get? other = g.get? other := Table.find?_put_of_ne _ _ h

theorem has_add {key other : Key} (b : Binding Value) (h : g.has other = true) :
    (g.add key b).has other = true := by
  by_cases hk : other = key
  · subst hk
    exact has_of_get? (get?_add_self ..)
  · obtain ⟨b',hb'⟩ := get?_of_has h
    exact has_of_get? ((get?_add_of_ne g b hk).trans hb')

/-- The concrete classes that a fresh binding asks for are bound. -/
structure Complete (r : Registry) (g : Graph) (b : Binding Value) : Prop where
  unwoven : b.Unwoven
  bound : ∀ c ∈ b.candidates, r.Concrete c → g.has (.any c) = true

theorem Complete.mono {b : Binding Value} (h : Complete r g b)
    (hg : ∀ key, g.has key = true → g'.has key = true) : Complete r g' b :=
  ⟨h.unwoven,fun c hc hconcrete => hg _ (h.bound c hc hconcrete)⟩

theorem Complete.share {b : Binding Value} (h : Complete r g b) : Complete r g b.share := by
  refine ⟨h.unwoven.share,?_⟩
  rw [Binding.candidates_share]
  exact h.bound

section Rounds

/-- The second graph has all bindings of the first one, and those it has besides are complete. -/
structure Extends (r : Registry) (g g' : Graph) : Prop where
  nodup : (g.bindings.map Prod.fst).Nodup → (g'.bindings.map Prod.fst).Nodup
  pointcuts : g'.pointcuts = g.pointcuts
  kept : ∀ key b, g.get? key = some b → g'.get? key = some b
  complete : ∀ key b, g'.get? key = some b → g.get? key = some b ∨ Complete r g' b

namespace Extends

theorem refl (g : Graph) : Extends r g g := ⟨id,rfl,fun _ _ h => h,fun _ _ h => .inl h⟩

theorem has (h : Extends r g g') (key : Key) (hkey : g.has key = true) : g'.has key = true := by
  obtain ⟨b,hb⟩ := get?_of_has hkey
  exact has_of_get? (h.kept key b hb)

theorem trans (h : Extends r g g') (h' : Extends r g' g'') : Extends r g g'' where
  nodup hg := h'.nodup (h.nodup hg)
  pointcuts := h'.pointcuts.trans h.pointcuts
  kept key b hb := h'.kept key b (h.kept key b hb)
  complete key b hb := by
    rcases h'.complete key b hb with hb | hcomplete
    · exact (h.complete key b hb).imp_right fun hcomplete => hcomplete.mono h'.has
    · exact .inr hcomplete

/-- A binding of a free key is in the graph from then on. -/
theorem of_add {key : Key} {b : Binding Value} (hfree : g.has key = false)
    (h : Extends r (g.add key b) g') (hb : Complete r g' b) : Extends r g g' where
  nodup hg := h.nodup (Table.nodup_put key b hg)
  pointcuts := h.pointcuts
  kept other b' hb' := by
    have hne : other ≠ key := by
      rintro rfl
      rw [has_of_get? hb'] at hfree
      cases hfree
    exact h.kept other b' ((get?_add_of_ne g b hne).trans hb')
  complete other b' hb' := by
    refine (h.complete other b' hb').elim (fun hadd => ?_) .inr
    by_cases hk : other = key
    · subst hk
      rw [get?_add_self] at hadd
      exact .inr (Option.some.inj hadd ▸ hb)
    · rw [get?_add_of_ne g b hk] at hadd
      exact .inl hadd

end Extends

/-- The names that are not bound to themselves. -/
def free (names : Finset String) (g : Graph) : Finset String :=
  names.filter fun c => g.has (.any c) = false

theorem Extends.card_free_le (h : Extends r g g') : (free names g').card ≤ (free names g).card := by
  refine Finset.card_le_card fun c hc => ?_
  obtain ⟨hmem,hfree⟩ := Finset.mem_filter.mp hc
  refine Finset.mem_filter.mpr ⟨hmem,?_⟩
  by_contra hhas
  rw [h.has _ (Bool.not_eq_false _ ▸ hhas)] at hfree
  cases hfree

theorem card_free_add {className : String} (b : Binding Value) (hname : className ∈ names)
    (hfree : g.has (.any className) = false) :
    (free names (g.add (.any className) b)).card < (free names g).card := by
  refine Finset.card_lt_card (Finset.ssubset_iff_subset_ne.mpr ⟨fun d hd => ?_,fun he => ?_⟩)
  · obtain ⟨hmem,hd⟩ := Finset.mem_filter.mp hd
    refine Finset.mem_filter.mpr ⟨hmem,?_⟩
    by_contra hhas
    rw [has_add b (Bool.not_eq_false _ ▸ hhas)] at hd
    cases hd
  · have hmem : className ∈ free names g := Finset.mem_filter.mpr ⟨hname,hfree⟩
    rw [← he] at hmem
    have hstill := (Finset.mem_filter.mp hmem).2
    rw [has_of_get? (get?_add_self ..)] at hstill
    cases hstill

/-- What binding one class by rounds of this many comes to. -/
def Rounds (r : Registry) (names : Finset String) (I : Site → Prop) (fuel : Nat) : Prop :=
  ∀ g className, (free names g).card < fuel →
    (untarget fuel g className).Finishes I fun g' =>
      Extends r g g' ∧ (r.Concrete className → g'.has (.any className) = true)

theorem Rounds.all {fuel : Nat} (h : Rounds r names I fuel) (classNames : List String) (g : Graph)
    (hfuel : (free names g).card < fuel) :
    (classNames.foldlM (untarget fuel) g).Finishes I fun g' =>
      Extends r g g' ∧ ∀ c ∈ classNames, r.Concrete c → g'.has (.any c) = true := by
  induction classNames generalizing g with
  | nil => exact .pure ⟨.refl g,nofun⟩
  | cons className rest ih =>
    rw [List.foldlM_cons]
    refine (h g className hfuel).bind fun g' ⟨hextends,hbound⟩ => ?_
    refine (ih g' (hextends.card_free_le.trans_lt hfuel)).imp fun g'' ⟨hmore,hrest⟩ => ?_
    exact ⟨hextends.trans hmore,
      List.forall_mem_cons.mpr ⟨fun hc => hmore.has _ (hbound hc),hrest⟩⟩

/-- As long as there are more rounds left than free names, a concrete class is bound with all
that it asks for. The induction is on the rounds; each round leaves one name less free. -/
theorem rounds (hlook : Surveyed r names I) (fuel : Nat) : Rounds r names I fuel := by
  induction fuel with
  | zero => exact fun g className hfuel => absurd hfuel (Nat.not_lt_zero _)
  | succ fuel ih =>
    intro g className hfuel
    rw [untarget]
    split
    next hhas => exact .pure ⟨.refl g,fun _ => hhas⟩
    next hhas =>
      have hfree : g.has (.any className) = false := Bool.not_eq_true _ ▸ hhas
      refine (hlook.find? className).bind fun c ⟨hname,hc⟩ => ?_
      cases c with
      | none =>
        refine .pure ⟨.refl g,fun hconcrete => ?_⟩
        obtain ⟨d,hd,_⟩ := hc hconcrete
        cases hd
      | some c =>
        dsimp only
        split
        next =>
          have hless := card_free_add (.construction (.ofDecl className c)) (hname rfl) hfree
          refine (ih.all _ _ (Nat.lt_of_lt_of_le hless (Nat.lt_succ_iff.mp hfuel))).imp
            fun g' ⟨hextends,hbound⟩ => ?_
          exact ⟨hextends.of_add hfree ⟨rfl,hbound⟩,
            fun _ => hextends.has _ (has_of_get? (get?_add_self ..))⟩
        next habstract =>
          refine .pure ⟨.refl g,fun hconcrete => ?_⟩
          obtain ⟨d,hd,hconcrete⟩ := hc hconcrete
          obtain rfl := Option.some.inj hd
          exact absurd hconcrete habstract

theorem untargetAll_extends (hlook : Surveyed r names I) (classNames : List String) (g : Graph) :
    (do classNames.foldlM (untarget (← Classes.walkFuel)) g : Work Graph).Finishes I fun g' =>
      Extends r g g' ∧ ∀ c ∈ classNames, r.Concrete c → g'.has (.any c) = true :=
  hlook.walkFuel.bind fun fuel hfuel =>
    (rounds hlook fuel).all classNames g ((Finset.card_filter_le _ _).trans_lt hfuel)

end Rounds

theorem first_or_second {α : Type} {first second : Option α} {a : α}
    (h : (first <|> second) = some a) : first = some a ∨ second = some a := by
  cases first with
  | none => exact .inr h
  | some _ => exact .inl h

/-- All bindings are complete, and the concrete interceptors of the pointcuts are bound. -/
structure Closed (r : Registry) (g : Graph) : Prop where
  nodup : (g.bindings.map Prod.fst).Nodup
  complete : ∀ key b, g.get? key = some b → Complete r g b
  interceptors : ∀ p ∈ g.pointcuts, ∀ i ∈ p.interceptors, r.Concrete i → g.has (.any i) = true

namespace Closed

theorem empty : Closed r Container.empty := ⟨List.nodup_nil,nofun,nofun⟩

theorem grow (h : Closed r g) (hg : Extends r g g') : Closed r g' where
  nodup := hg.nodup h.nodup
  complete key b hb := (hg.complete key b hb).elim
    (fun hb => (h.complete key b hb).mono hg.has) id
  interceptors p hp i hi hconcrete := hg.has _
    (h.interceptors p (hg.pointcuts ▸ hp) i hi hconcrete)

/-- A key may be bound anew if its binding is complete in the end. -/
theorem of_add (h : Closed r g) {key : Key} {b : Binding Value}
    (hg : Extends r (g.add key b) g') (hb : Complete r g' b) : Closed r g' where
  nodup := hg.nodup (Table.nodup_put key b h.nodup)
  complete other b' hb' := by
    refine (hg.complete other b' hb').elim (fun hadd => ?_) id
    by_cases hk : other = key
    · subst hk
      rw [get?_add_self] at hadd
      exact Option.some.inj hadd ▸ hb
    · rw [get?_add_of_ne g b hk] at hadd
      exact (h.complete other b' hadd).mono fun _ hhas => hg.has _ (has_add b hhas)
  interceptors p hp i hi hconcrete := hg.has _ (has_add b
    (h.interceptors p (hg.pointcuts ▸ hp) i hi hconcrete))

theorem share (h : Closed r g) (key : Key) : Closed r (g.share key) := by
  unfold Container.share
  cases hb : g.get? key with
  | none => exact h
  | some b =>
    exact h.of_add (.refl _) ((h.complete key b hb).share.mono fun _ => has_add _)

theorem setMap (h : Closed r g) (interface : String) (m : MapBinding) :
    Closed r (g.setMap interface m) where
  nodup := h.nodup
  complete key b hb := (h.complete key b hb).mono fun _ hhas => hhas
  interceptors := h.interceptors

theorem addPointcut (h : Closed r g) {p : Pointcut}
    (hp : ∀ i ∈ p.interceptors, r.Concrete i → g.has (.any i) = true) :
    Closed r { g with pointcuts := g.pointcuts ++ [p] } where
  nodup := h.nodup
  complete key b hb := (h.complete key b hb).mono fun _ hhas => hhas
  interceptors q hq := by
    rcases List.mem_append.mp hq with hq | hq
    · exact h.interceptors q hq
    · rw [List.mem_singleton.mp hq]
      exact hp

/-- Two closed graphs make a closed one in any way that keeps what both have. -/
theorem merge (h : Closed r g) (h' : Closed r g')
    (hnodup : (g''.bindings.map Prod.fst).Nodup)
    (hpointcuts : g''.pointcuts = g.pointcuts ++ g'.pointcuts)
    (hget : ∀ key, g''.get? key = (g.get? key <|> g'.get? key) ∨
      g''.get? key = (g'.get? key <|> g.get? key)) : Closed r g'' := by
  have hleft (key : Key) (hkey : g.has key = true) : g''.has key = true := by
    obtain ⟨b,hb⟩ := get?_of_has hkey
    rw [Container.has,Table.has,← Container.get?]
    rcases hget key with hk | hk <;> rw [hk,hb] <;> cases g'.get? key <;> rfl
  have hright (key : Key) (hkey : g'.has key = true) : g''.has key = true := by
    obtain ⟨b,hb⟩ := get?_of_has hkey
    rw [Container.has,Table.has,← Container.get?]
    rcases hget key with hk | hk <;> rw [hk,hb] <;> cases g.get? key <;> rfl
  refine ⟨hnodup,fun key b hb => ?_,fun p hp i hi hconcrete => ?_⟩
  · have horigin : g.get? key = some b ∨ g'.get? key = some b := by
      rcases hget key with hk | hk
      · exact first_or_second (hk ▸ hb)
      · exact (first_or_second (hk ▸ hb)).symm
    exact horigin.elim (fun hb => (h.complete key b hb).mono hleft)
      fun hb => (h'.complete key b hb).mono hright
  · rw [hpointcuts] at hp
    exact (List.mem_append.mp hp).elim (fun hp => hleft _ (h.interceptors p hp i hi hconcrete))
      fun hp => hright _ (h'.interceptors p hp i hi hconcrete)

theorem fill (h : Closed r g) (h' : Closed r g') : Closed r (g.fill g') :=
  h.merge h' (Table.nodup_foldl_putNew _ h.nodup) rfl fun key => .inl (Container.get?_fill g g' key)

theorem override (h : Closed r g) (h' : Closed r g') : Closed r (g.override g') :=
  h.merge h' (Table.nodup_foldl_put _ h.nodup) rfl fun key =>
    .inr (Container.get?_override g g' key h'.nodup)

end Closed

theorem bind_closed (hlook : Surveyed r names I) (h : Closed r g) (key : Key) {b : Binding Value}
    (hb : b.Unwoven) : (bind g key b).Finishes I (Closed r) :=
  (untargetAll_extends hlook b.candidates (g.add key b)).imp
    fun _ ⟨hextends,hbound⟩ => h.of_add hextends ⟨hb,hbound⟩

theorem ofClass_unwoven (hlook : Surveyed r names I) (className : String) :
    (Plan.ofClass className).Finishes I fun plan => plan.advice = [] := by
  have hfind : (Classes.find className).Finishes I fun _ => True := by
    refine (hlook.find? className).bind fun c _ => ?_
    cases c with
    | none => exact .throw nofun
    | some c => exact .pure trivial
  exact hfind.bind fun c _ => .pure rfl

theorem bindingOf_unwoven (hlook : Surveyed r names I) (interface : String) (target : Target) :
    (bindingOf interface target).Finishes I
      fun b => ∀ binding, b = some binding → binding.Unwoven := by
  cases target with
  | «to» className =>
    refine (ofClass_unwoven hlook className).bind fun plan hplan => .pure ?_
    rintro _ ⟨⟩
    exact hplan
  | untargeted =>
    refine (ofClass_unwoven hlook interface).bind fun plan hplan => .pure ?_
    rintro _ ⟨⟩
    exact hplan
  | literal tree =>
    refine (hlook.build tree).bind fun v _ => .pure ?_
    rintro _ ⟨⟩
    trivial
  | provider className context =>
    refine (ofClass_unwoven hlook className).bind fun plan _ => .pure ?_
    rintro _ ⟨⟩
    trivial
  | nullObject =>
    refine .pure ?_
    rintro _ ⟨⟩
    trivial
  | unfinished => exact .pure nofun

theorem bindTarget_closed (hlook : Surveyed r names I) (h : Closed r g) (interface name : String)
    (target : Target) (shared : Bool) :
    (bindTarget g interface name target shared).Finishes I (Closed r) := by
  unfold bindTarget
  refine (bindingOf_unwoven hlook interface target).bind fun b hb => ?_
  cases b with
  | none => exact .pure h
  | some b =>
    refine (bind_closed hlook h _ (hb b rfl)).bind fun g' hg' => .pure ?_
    split
    · exact hg'.share _
    · exact hg'

theorem intercept_closed (hlook : Surveyed r names I) (h : Closed r g) (p : Pointcut) :
    (intercept g p).Finishes I (Closed r) :=
  (untargetAll_extends hlook p.interceptors g).bind fun _ ⟨hextends,hbound⟩ =>
    .pure ((h.grow hextends).addPointcut hbound)

mutual

theorem runStatement_closed (hlook : Surveyed r names I) {g : Graph} (h : Closed r g) :
    (statement : ModuleStatement) → (runStatement g statement).Finishes I (Closed r)
  | .bind interface name target shared => by
      rw [runStatement]
      exact bindTarget_closed hlook h _ _ _ _
  | .element interface key name target shared => by
      rw [runStatement]
      exact bindTarget_closed hlook (h.setMap _ _) _ _ _ _
  | .install statements => by
      rw [runStatement]
      exact (runAll_closed hlook .empty statements).bind fun _ hother => .pure (h.fill hother)
  | .override statements => by
      rw [runStatement]
      exact (runAll_closed hlook .empty statements).bind fun _ hother => .pure (h.override hother)
  | .intercept pointcut => by
      rw [runStatement]
      exact intercept_closed hlook h pointcut

/-- Every statement takes a closed graph to a closed graph. -/
theorem runAll_closed (hlook : Surveyed r names I) {g : Graph} (h : Closed r g) :
    (statements : List ModuleStatement) → (runAll g statements).Finishes I (Closed r)
  | [] => by
      rw [runAll]
      exact .pure h
  | statement :: rest => by
      rw [runAll]
      exact (runStatement_closed hlook h statement).bind fun _ hnext =>
        runAll_closed hlook hnext rest

end

section Fixed

theorem find?_standing (hfixed : r.Fixed fs) (className : String) :
    (Classes.find? className).Maintains (Standing r fs)
      fun c => c = r.classes.find? className := by
  intro site hsite
  have hfind : Classes.find? className site =
      (.ok (site.registry.classes.find? className),site) :=
    Classes.find?_unread site (by rw [hsite.registry,hsite.files]; exact hfixed className)
  rw [hfind,hsite.registry]
  exact ⟨hsite,fun c hc => (Except.ok.inj hc).symm⟩

/-- Where no class is read from a file, only registered classes are found. -/
theorem surveyed_standing (hfixed : r.Fixed fs) :
    Surveyed r r.classes.keys.toFinset (Standing r fs) where
  find? className := by
    refine ⟨(find?_standing hfixed className).imp ?_,fun site hsite hrun => ?_⟩
    · rintro _ rfl
      exact ⟨fun hc => List.mem_toFinset.mpr (Table.mem_keys_of_has hc),id⟩
    · rw [Classes.find?_unread site (by rw [hsite.registry,hsite.files]; exact hfixed className)]
        at hrun
      cases hrun
  walkFuel := by
    refine ⟨fun site hsite => ?_,fun site _ hrun => by cases hrun⟩
    rw [Classes.walkFuel_run,hsite.registry]
    refine ⟨hsite,fun fuel hfuel => ?_⟩
    obtain rfl := Except.ok.inj hfuel
    have hcard := List.toFinset_card_le r.classes.keys
    have hkeys : r.classes.keys.length = r.classes.length := List.length_map _
    omega
  build tree := ⟨fun site hsite => ⟨⟨hsite.registry,hsite.files⟩,fun _ _ => trivial⟩,
    fun site _ hrun => by cases hrun⟩

theorem ofModule_closed (hfixed : r.Fixed fs) (statements : List ModuleStatement) :
    (ofModule statements).Maintains (Standing r fs) (Closed r) :=
  (runAll_closed (surveyed_standing hfixed) .empty statements).maintains

end Fixed

end Graph
end Wiring
