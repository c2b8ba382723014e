import Mathlib
import Wiring.Proofs.Compile.Sparing

/-!
# Where defaults stand in

A default stands in for a key only where nothing is known of it: the graph does not bind it, nothing
was compiled for it, and it asks for no concrete class. What else goes wrong when the scope of a key
is told ends the compile of the unit, whether the parameter has a default or not.
-/
namespace Wiring

open Work
open Script (Expr Statement)

namespace Compile

variable {g : Graph} {scope : Option ScopeOf} {a : Argument Value} {site site' start : Site}

/-- The argument is supplied, and would not be but for its default. -/
structure ByDefault (g : Graph) (scope : Option ScopeOf) (a : Argument Value) (site : Site) :
    Prop where
  supplied : ∃ supply, (argument g scope a site).1 = .ok supply
  needed : ∃ f, (argument g scope { a with fallback := none } site).1 = .error f

/-- The graph has no part in what the argument is. -/
structure Outside (g : Graph) (a : Argument Value) : Prop where
  noPoint : a.key.interface ≠ Key.pointInterface
  noMap : a.set = none
  unbound : g.get? a.key = none

theorem Outside.argument_eq (h : Outside g a) (scope : Option ScopeOf) :
    argument g scope a = do return (← outside scope a,[]) := by
  have hpoint : ¬(a.key.interface == Key.pointInterface) = true := by simpa using h.noPoint
  rw [argument,if_neg hpoint,h.noMap,h.unbound]

/-- Inside the graph, a default plays no part. -/
theorem Outside.of_default (h : argument g scope { a with fallback := none } ≠ argument g scope a) :
    Outside g a := by
  refine ⟨fun hpoint => h ?_,?_,?_⟩
  · simp only [argument,hpoint,beq_self_eq_true,if_true]
  · cases hset : a.set with
    | none => rfl
    | some interface =>
      refine absurd ?_ h
      simp only [argument,hset]
  · cases hb : g.get? a.key with
    | none => rfl
    | some b =>
      refine absurd ?_ h
      simp only [argument,hb]
      cases b <;> rfl

theorem ByDefault.outside (h : ByDefault g scope a site) : Outside g a := by
  have hdiffers : argument g scope { a with fallback := none } ≠ argument g scope a := by
    intro hsame
    obtain ⟨supply,hsupply⟩ := h.supplied
    obtain ⟨f,hf⟩ := h.needed
    rw [hsame,hsupply] at hf
    cases hf
  exact .of_default hdiffers

/-- Nobody tells a scope of the key. -/
theorem ByDefault.untold (h : ByDefault g scope a site) :
    (scopeOutside scope a.key site).1 = .ok none := by
  obtain ⟨supply,hsupply⟩ := h.supplied
  obtain ⟨f,hf⟩ := h.needed
  have houtside : Outside g { a with fallback := none } :=
    ⟨h.outside.noPoint,h.outside.noMap,h.outside.unbound⟩
  rw [h.outside.argument_eq] at hsupply
  rw [houtside.argument_eq] at hf
  cases hscope : scopeOutside scope a.key site with
  | mk answer told =>
    cases answer with
    | error e =>
      have hfails : Compile.outside scope a site = (.error e,told) := run_bind_error _ hscope
      rw [run_bind_error _ hfails] at hsupply
      cases hsupply
    | ok known =>
      cases known with
      | none => rfl
      | some shared =>
        have hpull : Compile.outside scope { a with fallback := none } site =
            (.ok (pull shared a.key),told) := run_bind hscope
        rw [run_bind hpull] at hf
        cases hf

/-- No class tells it either. -/
theorem inferredScope_of_untold (hread : ∀ scopeOf, scope = some scopeOf → ∀ key site,
      (scopeOf key site).2 = site) {key : Key} (h : (scopeOutside scope key site).1 = .ok none) :
    (inferredScope key site).1 = .ok none := by
  cases scope with
  | none => exact h
  | some scopeOf =>
    have hsame := hread scopeOf rfl key site
    have hattempt := attempt_run (scopeOf key) site
    rw [hsame] at hattempt
    rw [scopeOutside,run_bind hattempt] at h
    cases hanswer : (scopeOf key site).1 with
    | ok shared =>
      rw [hanswer] at h
      cases h
    | error f =>
      rw [hanswer] at h
      cases f <;> first | exact h | cases h

/-- Where no scope is inferred for a key, it asks for no class, or for none that is concrete. -/
theorem find?_of_inferredScope {key : Key} (h : (inferredScope key site).1 = .ok none)
    (hany : key.isAny = true) (hname : key.interface ≠ "") :
    ∃ found, (Classes.find? key.interface site).1 = .ok found ∧
      ∀ c, found = some c → c.isConcrete = false := by
  have hasks : ¬(!key.isAny || key.interface == "") = true := by simp [hany,hname]
  rw [inferredScope,if_neg hasks] at h
  cases hfind : Classes.find? key.interface site with
  | mk answer looked =>
    cases answer with
    | error f =>
      rw [run_bind_error _ hfind] at h
      cases h
    | ok found =>
      refine ⟨found,rfl,fun c hc => ?_⟩
      subst hc
      rw [run_bind hfind] at h
      by_contra hconcrete
      rw [Bool.not_eq_false] at hconcrete
      have hshared : (some c.shared : Option Bool) = none := by
        simpa [hconcrete] using Except.ok.inj h
      cases hshared

section Aborting

variable {scopeOf : ScopeOf} {f : Failure} {plan : Plan Value}

/-- The compile of a plan comes to an argument when all before it have been supplied. -/
inductive Reaches (g : Graph) (scope : Option ScopeOf) (start : Site) (plan : Plan Value)
    (a : Argument Value) (site : Site) : Prop where
  | inConstructor {before after : List (Argument Value)} {supplies : List Expr × List Qualifier}
      (hsplit : plan.arguments = before ++ a :: after)
      (hbefore : arguments g scope before start = (.ok supplies,site)) :
      Reaches g scope start plan a site
  | inSetter {constructed called : Site} {earlier later : List (SetterCall Value)}
      {s : SetterCall Value} {before after : List (Argument Value)}
      {supplies more : List Expr × List Qualifier} {calls : List Statement × List Qualifier}
      (hmade : arguments g scope plan.arguments start = (.ok supplies,constructed))
      (hsetters : plan.setters = earlier ++ s :: later)
      (hearlier : setters g scope earlier constructed = (.ok calls,called))
      (hsplit : s.arguments = before ++ a :: after)
      (hbefore : arguments g scope before called = (.ok more,site)) :
      Reaches g scope start plan a site

theorem arguments_fail {before after : List (Argument Value)}
    {supplies : List Expr × List Qualifier}
    (hbefore : arguments g scope before start = (.ok supplies,site))
    (ha : argument g scope a site = (.error f,site')) :
    arguments g scope (before ++ a :: after) start = (.error f,site') := by
  induction before generalizing start supplies with
  | nil =>
    obtain rfl : start = site := congrArg Prod.snd hbefore
    exact run_bind_error _ ha
  | cons b rest ih =>
    rw [List.cons_append,arguments]
    rw [arguments] at hbefore
    obtain ⟨supply,next,hfirst,hrest⟩ := Work.run_bind_ok hbefore
    obtain ⟨others,last,hothers,hend⟩ := Work.run_bind_ok hrest
    obtain rfl : last = site := congrArg Prod.snd hend
    rw [run_bind hfirst]
    exact run_bind_error _ (ih hothers)

theorem setters_fail {earlier later : List (SetterCall Value)} {s : SetterCall Value}
    {calls : List Statement × List Qualifier}
    (hearlier : setters g scope earlier start = (.ok calls,site))
    (hs : setter g scope s site = (.error f,site')) :
    setters g scope (earlier ++ s :: later) start = (.error f,site') := by
  induction earlier generalizing start calls with
  | nil =>
    obtain rfl : start = site := congrArg Prod.snd hearlier
    exact run_bind_error _ hs
  | cons t rest ih =>
    rw [List.cons_append,setters]
    rw [setters] at hearlier
    obtain ⟨call,next,hfirst,hrest⟩ := Work.run_bind_ok hearlier
    obtain ⟨others,last,hothers,hend⟩ := Work.run_bind_ok hrest
    obtain rfl : last = site := congrArg Prod.snd hend
    rw [run_bind hfirst]
    exact run_bind_error _ (ih hothers)

end Aborting

end Compile

/-- Reading changes nothing. -/
theorem Work.readIfExists_stays (path : String) (site : Site) :
    (Work.onFiles (Files.readIfExists path)).Maintains (· = site) fun _ => True := by
  intro after hafter
  rw [onFiles_run,Classes.readIfExists_files]
  exact ⟨hafter,fun _ _ => trivial⟩

namespace Demand

variable {key : Key} {site site' : Site} {f : Failure} {α : Type}

end Demand

theorem Files.read_fails {fs : Files} {path : String} {f : Failure}
    (h : (Files.read path fs).1 = .error f) : f = .unreadable path := by
  have hget : (get : FileWork Files) fs = (.ok fs,fs) := rfl
  rw [Files.read,run_bind hget] at h
  cases hstatus : fs.status path with
  | file contents => rw [hstatus] at h; cases h
  | directory => rw [hstatus] at h; exact (Except.error.inj h).symm
  | missing => rw [hstatus] at h; exact (Except.error.inj h).symm
  | blocked => rw [hstatus] at h; exact (Except.error.inj h).symm

theorem Files.readIfExists_fails {fs : Files} {path : String} {f : Failure}
    (h : (Files.readIfExists path fs).1 = .error f) : f = .unreadable path := by
  have hget : (get : FileWork Files) fs = (.ok fs,fs) := rfl
  rw [Files.readIfExists,run_bind hget] at h
  split at h
  · cases hanswer : Files.read path fs with
    | mk answer next =>
      cases answer with
      | ok text =>
        rw [run_bind hanswer] at h
        cases h
      | error e =>
        rw [run_bind_error _ hanswer] at h
        obtain rfl := Except.error.inj h
        exact Files.read_fails (congrArg Prod.fst hanswer)
  · cases h

namespace Resolve

variable {g : Graph} {dir : String} {key : Key} {site : Site} {f : Failure}

/-- To tell a scope from what was saved changes nothing. -/
theorem scopeIn_site (dir : String) (g : Graph) (key : Key) (site : Site) :
    (scopeIn dir g key site).2 = site := by
  have hsaved : (Save.scope? dir key).Maintains (· = site) fun _ => True := by
    unfold Save.scope?
    refine (Work.readIfExists_stays _ site).bind fun text _ => ?_
    cases text with
    | none => exact .pure trivial
    | some text => exact (Compile.decode_maintains _ _).bind fun _ _ => .pure trivial
  have hsame : (scopeIn dir g key).Maintains (· = site) fun _ => True := by
    unfold scopeIn
    cases g.get? key with
    | some b => exact .pure trivial
    | none =>
      refine hsaved.bind fun shared _ => ?_
      cases shared with
      | none => exact .throw _
      | some shared => exact .pure trivial
  exact (hsame site rfl).1

/-- What is saved may not be read, or not be a scope. -/
theorem scope?_fails (h : (Save.scope? dir key site).1 = .error f) : f.isUnbound = false := by
  unfold Save.scope? at h
  cases hanswer : Work.onFiles (Files.readIfExists (Layout.metaPath dir key)) site with
  | mk answer next =>
    cases answer with
    | error e =>
      rw [run_bind_error _ hanswer] at h
      obtain rfl := Except.error.inj h
      have hread : (Files.readIfExists (Layout.metaPath dir key) site.files).1 = .error e := by
        rw [onFiles_run] at hanswer
        exact congrArg Prod.fst hanswer
      rw [Files.readIfExists_fails hread]
      rfl
    | ok text =>
      rw [run_bind hanswer] at h
      cases text with
      | none => cases h
      | some text =>
        dsimp only at h
        unfold Work.decode at h
        cases hdecoded : (Json.read? text).bind Save.scopeOfJson? with
        | none =>
          rw [hdecoded] at h
          obtain rfl := Except.error.inj h
          rfl
        | some shared =>
          rw [hdecoded] at h
          cases h

theorem scopeIn_fails (h : (scopeIn dir g key site).1 = .error f) :
    f = .notCompiled key.text ∨ f.isUnbound = false := by
  cases hb : g.get? key with
  | some b =>
    rw [scopeIn,hb] at h
    cases h
  | none =>
    rw [scopeIn,hb] at h
    dsimp only at h
    cases hsaved : Save.scope? dir key site with
    | mk answer next =>
      cases answer with
      | error e =>
        rw [run_bind_error _ hsaved] at h
        exact .inr (Except.error.inj h ▸ scope?_fails (congrArg Prod.fst hsaved))
      | ok shared =>
        rw [run_bind hsaved] at h
        cases shared with
        | none => exact .inl (Except.error.inj h).symm
        | some shared => cases h

theorem directScope_site (g : Graph) (key : Key) (site : Site) :
    (directScope g key site).2 = site := by
  unfold directScope
  cases g.get? key <;> rfl

theorem directScope_fails (h : (directScope g key site).1 = .error f) :
    f = .notCompiled key.text := by
  unfold directScope at h
  cases hb : g.get? key with
  | some b =>
    rw [hb] at h
    cases h
  | none =>
    rw [hb] at h
    exact (Except.error.inj h).symm

end Resolve

end Wiring
