import Mathlib
import Wiring.Proofs.Compile.Defaults

/-!
# Optional setters are left out whole

The arguments of a call are supplied from left to right, and the first that cannot be supplied ends
the call. For the constructor and for most setters this ends the compile of the plan too. Only where
the setter is optional and the failure says that a key is not bound is the setter left out: then no
statement calls it, and no qualifier of its arguments is kept, also not of those that were supplied
before the failure.
-/
namespace Wiring.Compile

open Work
open Script (Expr Statement)

/-- The arguments are supplied one after another. -/
inductive Supplied (g : Graph) (scope : Option ScopeOf) :
    Site → List (Argument Value) → List Expr → Site → Prop where
  | nil {site : Site} : Supplied g scope site [] [] site
  | cons {a : Argument Value} {rest : List (Argument Value)} {e : Expr} {es : List Expr}
      {kept : List Qualifier} {site next last : Site}
      (ha : argument g scope a site = (.ok (e,kept),next))
      (hrest : Supplied g scope next rest es last) :
      Supplied g scope site (a :: rest) (e :: es) last

/-- One of the arguments is the first that cannot be supplied, with this failure. -/
inductive Stuck (g : Graph) (scope : Option ScopeOf) (site : Site) (as : List (Argument Value))
    (f : Failure) (last : Site) : Prop where
  | intro {before after : List (Argument Value)} {a : Argument Value} {es : List Expr} {next : Site}
      (hsplit : as = before ++ a :: after) (hbefore : Supplied g scope site before es next)
      (ha : argument g scope a next = (.error f,last))

/-- The setters one after another, those that are called with what their arguments are. One is left
out if it is optional and its first failing argument, whatever comes after it, is unbound. -/
inductive Called (g : Graph) (scope : Option ScopeOf) :
    Site → List (SetterCall Value) → List (SetterCall Value × List Expr) → Site → Prop where
  | nil {site : Site} : Called g scope site [] [] site
  | call {s : SetterCall Value} {rest : List (SetterCall Value)} {es : List Expr}
      {calls : List (SetterCall Value × List Expr)} {site next last : Site}
      (hs : Supplied g scope site s.arguments es next) (hrest : Called g scope next rest calls last) :
      Called g scope site (s :: rest) ((s,es) :: calls) last
  | leave {s : SetterCall Value} {rest : List (SetterCall Value)} {f : Failure}
      {calls : List (SetterCall Value × List Expr)} {site next last : Site}
      (hs : Stuck g scope site s.arguments f next) (hf : f.isUnbound = true)
      (hoptional : s.optional = true) (hrest : Called g scope next rest calls last) :
      Called g scope site (s :: rest) calls last

/-- One of the setters is the first that can neither be called nor left out. -/
inductive Blocked (g : Graph) (scope : Option ScopeOf) (site : Site) (ss : List (SetterCall Value))
    (f : Failure) (last : Site) : Prop where
  | intro {earlier later : List (SetterCall Value)} {s : SetterCall Value}
      {calls : List (SetterCall Value × List Expr)} {next : Site}
      (hsplit : ss = earlier ++ s :: later) (hearlier : Called g scope site earlier calls next)
      (hs : Stuck g scope next s.arguments f last)
      (hfinal : f.isUnbound = false ∨ s.optional = false)

/-- A provider supplies the argument. -/
def provided (g : Graph) (a : Argument Value) : Bool :=
  a.key.interface != Key.pointInterface && a.set.isNone &&
    match g.get? a.key with
    | some (.provider _ _ _) => true
    | _ => false

/-- The qualifiers of the arguments that providers supply. -/
def qualifiersOf (g : Graph) (as : List (Argument Value)) : List Qualifier :=
  (as.filter (provided g)).flatMap fun a => a.qualifier.toList.map fun q => (a.parameter,q)

/-- The call of a setter. -/
def callOf (call : SetterCall Value × List Expr) : Statement :=
  .expr (.callMethod instanceVar call.1.method call.2)

/-- The call of the hook, if there is one. -/
def hookOf (plan : Plan Value) : List Statement :=
  plan.postConstruct.toList.map fun method => .expr (.callMethod instanceVar method [])

variable {g : Graph} {scope : Option ScopeOf} {site last : Site} {f : Failure}

section Arguments

variable {as : List (Argument Value)} {es : List Expr}

theorem qualifiersOf_append (g : Graph) (as bs : List (Argument Value)) :
    qualifiersOf g (as ++ bs) = qualifiersOf g as ++ qualifiersOf g bs := by
  unfold qualifiersOf
  rw [List.filter_append,List.flatMap_append]

/-- An argument keeps its qualifier just where a provider supplies it. -/
theorem argument_keeps (a : Argument Value) :
    (argument g scope a).Ensures fun r => r.2 = qualifiersOf g [a] := by
  have hothers (h : provided g a = false) : qualifiersOf g [a] = [] := by
    rw [qualifiersOf,List.filter_cons_of_neg (by simp [h])]
    rfl
  unfold argument
  split
  next hpoint =>
    exact .pure (hothers (by simp [provided,bne,hpoint])).symm
  next hpoint =>
    rw [Bool.not_eq_true] at hpoint
    cases hset : a.set with
    | some interface =>
      have hnone := hothers (by simp [provided,hset])
      exact (Ensures.any _).bind fun _ _ => .pure hnone.symm
    | none =>
      dsimp only
      cases hb : g.get? a.key with
      | none =>
        have hnone := hothers (by simp [provided,hb])
        exact (Ensures.any _).bind fun _ _ => .pure hnone.symm
      | some b =>
        cases b with
        | literal v =>
          have hnone := hothers (by simp [provided,hb])
          exact (Ensures.any _).bind fun _ _ => .pure hnone.symm
        | provider plan shared context =>
          have hprovided : provided g a = true := by simp [provided,bne,hpoint,hset,hb]
          apply Ensures.pure
          rw [qualifiersOf,List.filter_cons_of_pos hprovided,List.filter_nil,
            List.flatMap_singleton]
        | construction plan => exact .pure (hothers (by simp [provided,hb])).symm
        | nullObject interface => exact .pure (hothers (by simp [provided,hb])).symm

theorem Supplied.run (h : Supplied g scope site as es last) :
    arguments g scope as site = (.ok (es,qualifiersOf g as),last) := by
  induction h with
  | nil => rfl
  | @cons a rest e es kept site next last ha hrest ih =>
    have hkept : kept = qualifiersOf g [a] := argument_keeps a site (e,kept) next ha
    have hsplit : a :: rest = [a] ++ rest := rfl
    rw [arguments,run_bind ha,hsplit,qualifiersOf_append,← hkept]
    exact run_bind ih

theorem Stuck.run (h : Stuck g scope site as f last) :
    arguments g scope as site = (.error f,last) := by
  cases h with
  | intro hsplit hbefore ha =>
    rw [hsplit]
    exact arguments_fail hbefore.run ha

/-- A further argument may be supplied before the one that cannot be. -/
theorem Stuck.cons {a : Argument Value} {e : Expr} {kept : List Qualifier} {next : Site}
    (ha : argument g scope a site = (.ok (e,kept),next)) (h : Stuck g scope next as f last) :
    Stuck g scope site (a :: as) f last := by
  cases h with
  | @intro before after b es middle hsplit hbefore hb =>
    subst hsplit
    have hcons : a :: (before ++ b :: after) = (a :: before) ++ b :: after := rfl
    exact .intro hcons (.cons ha hbefore) hb

/-- Either all arguments are supplied, or one of them is the first that is not. -/
theorem supplied_or_stuck (g : Graph) (scope : Option ScopeOf) (site : Site)
    (as : List (Argument Value)) : (∃ es last,Supplied g scope site as es last) ∨
      ∃ f last,Stuck g scope site as f last := by
  induction as generalizing site with
  | nil => exact .inl ⟨[],site,.nil⟩
  | cons a rest ih =>
    have hfirst : a :: rest = [] ++ a :: rest := rfl
    cases ha : argument g scope a site with
    | mk answer next =>
      cases answer with
      | error f => exact .inr ⟨f,next,.intro hfirst .nil ha⟩
      | ok supply =>
        rcases ih next with ⟨es,last,hrest⟩ | ⟨f,last,hrest⟩
        · exact .inl ⟨_,last,.cons ha hrest⟩
        · exact .inr ⟨f,last,hrest.cons ha⟩

end Arguments

section Setters

variable {ss : List (SetterCall Value)} {s : SetterCall Value} {es : List Expr} {next : Site}
  {calls : List (SetterCall Value × List Expr)}

theorem Supplied.setter_run (h : Supplied g scope site s.arguments es last) :
    setter g scope s site = (.ok ([callOf (s,es)],qualifiersOf g s.arguments),last) := by
  have hattempt : Work.attempt (arguments g scope s.arguments) site =
      (.ok (.ok (es,qualifiersOf g s.arguments)),last) := by
    rw [attempt_run,h.run]
  rw [setter,run_bind hattempt]
  rfl

theorem Stuck.setter_run (h : Stuck g scope site s.arguments f last) : setter g scope s site =
    (if f.isUnbound && s.optional then .ok ([],[]) else .error f,last) := by
  have hattempt : Work.attempt (arguments g scope s.arguments) site = (.ok (.error f),last) := by
    rw [attempt_run,h.run]
  rw [setter,run_bind hattempt]
  dsimp only
  split <;> rfl

/-- Nothing comes of a setter that is left out. -/
theorem Called.run (h : Called g scope site ss calls last) : setters g scope ss site =
    (.ok (calls.map callOf,qualifiersOf g (calls.flatMap fun call => call.1.arguments)),last) := by
  induction h with
  | nil => rfl
  | call hs _ ih =>
    rw [setters,run_bind hs.setter_run,List.flatMap_cons,qualifiersOf_append]
    exact run_bind ih
  | leave hs hf hoptional _ ih =>
    have hleft := hs.setter_run
    rw [hf,hoptional,Bool.and_self,if_pos rfl] at hleft
    rw [setters,run_bind hleft]
    exact run_bind ih

theorem Blocked.run (h : Blocked g scope site ss f last) :
    setters g scope ss site = (.error f,last) := by
  cases h with
  | @intro earlier later s calls next hsplit hearlier hs hfinal =>
    have hcall := hs.setter_run
    have hfails : ¬(f.isUnbound && s.optional) = true := by
      rcases hfinal with hf | hs
      · simp [hf]
      · simp [hs]
    rw [if_neg hfails] at hcall
    rw [hsplit]
    exact setters_fail hearlier.run hcall

theorem Blocked.after_call (hs : Supplied g scope site s.arguments es next)
    (h : Blocked g scope next ss f last) : Blocked g scope site (s :: ss) f last := by
  cases h with
  | @intro earlier later t calls middle hsplit hearlier ht hfinal =>
    subst hsplit
    have hcons : s :: (earlier ++ t :: later) = (s :: earlier) ++ t :: later := rfl
    exact .intro hcons (.call hs hearlier) ht hfinal

theorem Blocked.after_leave {e : Failure} (hs : Stuck g scope site s.arguments e next)
    (he : e.isUnbound = true) (hoptional : s.optional = true)
    (h : Blocked g scope next ss f last) : Blocked g scope site (s :: ss) f last := by
  cases h with
  | @intro earlier later t calls middle hsplit hearlier ht hfinal =>
    subst hsplit
    have hcons : s :: (earlier ++ t :: later) = (s :: earlier) ++ t :: later := rfl
    exact .intro hcons (.leave hs he hoptional hearlier) ht hfinal

/-- Either each setter is called or left out, or one is the first that is neither. -/
theorem called_or_blocked (g : Graph) (scope : Option ScopeOf) (site : Site)
    (ss : List (SetterCall Value)) : (∃ calls last,Called g scope site ss calls last) ∨
      ∃ f last,Blocked g scope site ss f last := by
  induction ss generalizing site with
  | nil => exact .inl ⟨[],site,.nil⟩
  | cons s rest ih =>
    rcases supplied_or_stuck g scope site s.arguments with ⟨es,next,hs⟩ | ⟨f,next,hs⟩
    · rcases ih next with ⟨calls,last,hrest⟩ | ⟨f,last,hrest⟩
      · exact .inl ⟨_,last,.call hs hrest⟩
      · exact .inr ⟨f,last,hrest.after_call hs⟩
    · by_cases hleft : f.isUnbound = true ∧ s.optional = true
      · rcases ih next with ⟨calls,last,hrest⟩ | ⟨e,last,hrest⟩
        · exact .inl ⟨calls,last,.leave hs hleft.1 hleft.2 hrest⟩
        · exact .inr ⟨e,last,hrest.after_leave hs hleft.1 hleft.2⟩
      · have hfirst : s :: rest = [] ++ s :: rest := rfl
        have hfinal : f.isUnbound = false ∨ s.optional = false := by
          rwa [not_and_or,Bool.not_eq_true,Bool.not_eq_true] at hleft
        exact .inr ⟨f,next,.intro hfirst .nil hs hfinal⟩

end Setters

section Plans

variable {plan : Plan Value} {es : List Expr} {made : Site}
  {calls : List (SetterCall Value × List Expr)}

theorem Stuck.factory_run (h : Stuck g scope site plan.arguments f last) :
    factory g scope plan site = (.error f,last) := run_bind_error _ h.run

theorem Blocked.factory_run (hes : Supplied g scope site plan.arguments es made)
    (h : Blocked g scope made plan.setters f last) :
    factory g scope plan site = (.error f,last) := by
  rw [factory,run_bind hes.run]
  exact run_bind_error _ h.run

theorem Called.factory_run (hes : Supplied g scope site plan.arguments es made)
    (h : Called g scope made plan.setters calls last) : factory g scope plan site =
      (.ok (.expr (.assign instanceName (.construct plan.className es)) ::
        calls.map callOf ++ hookOf plan,qualifiersOf g
          (plan.arguments ++ calls.flatMap fun call => call.1.arguments)),last) := by
  rw [factory,run_bind hes.run,qualifiersOf_append]
  exact run_bind h.run

/-- What the compile of a plan gives. It fails where an argument of the constructor does, or else
where a setter does that cannot be left out. Otherwise the construction is followed by the calls of
the setters whose arguments are all supplied and by that of the hook, and the qualifiers are those
of the constructor and of the setters that are called. -/
theorem factory_leaves_setters_out_whole (g : Graph) (scope : Option ScopeOf) (plan : Plan Value)
    (site last : Site) :
    (∀ f,factory g scope plan site = (.error f,last) ↔
      Stuck g scope site plan.arguments f last ∨ ∃ es made,
        Supplied g scope site plan.arguments es made ∧ Blocked g scope made plan.setters f last) ∧
    ∀ statements qualifiers,factory g scope plan site = (.ok (statements,qualifiers),last) ↔
      ∃ es made calls,Supplied g scope site plan.arguments es made ∧
        Called g scope made plan.setters calls last ∧
        statements = .expr (.assign instanceName (.construct plan.className es)) ::
          calls.map callOf ++ hookOf plan ∧
        qualifiers = qualifiersOf g
          (plan.arguments ++ calls.flatMap fun call => call.1.arguments) := by
  -- each outcome has one run, and one of them always comes about
  constructor
  · intro f
    constructor
    · intro hrun
      rcases supplied_or_stuck g scope site plan.arguments with ⟨es,made,hes⟩ | ⟨e,next,he⟩
      · rcases called_or_blocked g scope made plan.setters with ⟨calls,next,h⟩ | ⟨e,next,h⟩
        · cases hrun.symm.trans (h.factory_run hes)
        · cases hrun.symm.trans (h.factory_run hes)
          exact .inr ⟨es,made,hes,h⟩
      · cases hrun.symm.trans he.factory_run
        exact .inl he
    · rintro (h | ⟨es,made,hes,h⟩)
      · exact h.factory_run
      · exact h.factory_run hes
  · intro statements qualifiers
    constructor
    · intro hrun
      rcases supplied_or_stuck g scope site plan.arguments with ⟨es,made,hes⟩ | ⟨e,next,he⟩
      · rcases called_or_blocked g scope made plan.setters with ⟨calls,next,h⟩ | ⟨e,next,h⟩
        · cases hrun.symm.trans (h.factory_run hes)
          exact ⟨es,made,calls,hes,h,rfl,rfl⟩
        · cases hrun.symm.trans (h.factory_run hes)
      · cases hrun.symm.trans he.factory_run
    · rintro ⟨es,made,calls,hes,h,rfl,rfl⟩
      exact h.factory_run hes

/-- The horn is supplied and the radio is not, so no qualifier of the horn is kept. -/
example :
    let horn : Argument Value :=
      ⟨.any "Horn",⟨"Car","tune","horn"⟩,none,some (.text "loud"),none⟩
    let radio : Argument Value := ⟨.any "Radio",⟨"Car","tune","radio"⟩,none,none,none⟩
    let g : Graph := ⟨[(.any "Horn",.provider ⟨"Maker",[],[],none,false,[]⟩ true none)],[],[]⟩
    (factory g none ⟨"Car",[],[⟨"tune",[horn,radio],true⟩],none,false,[]⟩ {}).1.toOption =
      some ([.expr (.assign instanceName (.construct "Car" []))],[]) := rfl

end Plans

end Wiring.Compile
