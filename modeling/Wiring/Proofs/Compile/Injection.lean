import Mathlib
import Wiring.Proofs.Compile.Delivery
import Wiring.Proofs.Results

/-!
# Units run as deliveries are performed

A unit that is written for a delivery asks its surroundings for the same things in the same
order and comes to the same outcome, in every lawful monad. Expressions leave the variables
as they are, so only the instance has to be carried from statement to statement.
-/
namespace Wiring

open Script (Expr Statement Surroundings Run eval evalAll evalEntries fault pulled)

section Running

variable {m : Type → Type} [Monad m] {α β : Type} {l : Script.Locals} {x : Run m α}
  {act : ExceptT Failure m α}

/-- With these variables the run does what the action does, and leaves them as they are. -/
def Acts (l : Script.Locals) (x : Run m α) (act : ExceptT Failure m α) : Prop :=
  x l = act >>= fun a => pure (a,l)

theorem Acts.lift (act : ExceptT Failure m α) : Acts l (StateT.lift act : Run m α) act := rfl

theorem Acts.of_eq {act' : ExceptT Failure m α} (h : Acts l x act) (he : act = act') :
    Acts l x act' := he ▸ h

theorem Acts.throw (f : Failure) : Acts l (MonadExcept.throw f : Run m α) (MonadExcept.throw f) :=
  lift (MonadExcept.throw f)

variable [LawfulMonad m]

namespace Acts

theorem pure (a : α) : Acts l (Pure.pure a : Run m α) (Pure.pure a) := by
  unfold Acts
  rw [pure_bind]
  rfl

theorem run_bind (h : Acts l x act) (f : α → Run m β) :
    (x >>= f) l = act >>= fun a => f a l := by
  have hrun : (x >>= f) l = x l >>= fun p => f p.1 p.2 := rfl
  unfold Acts at h
  rw [hrun,h,bind_assoc]
  simp only [pure_bind]

theorem bind {f : α → Run m β} {k : α → ExceptT Failure m β} (h : Acts l x act)
    (hf : ∀ a, Acts l (f a) (k a)) : Acts l (x >>= f) (act >>= k) := by
  rw [Acts,h.run_bind,bind_assoc]
  congr 1
  funext a
  exact hf a

/-- A run goes on from a value that needs no asking. -/
theorem known {a : α} {f : α → Run m β} {k : ExceptT Failure m β} (h : Acts l x (Pure.pure a))
    (hf : Acts l (f a) k) : Acts l (x >>= f) k := by
  rw [Acts,h.run_bind,pure_bind]
  exact hf

end Acts

variable {s : Surroundings m} {unit : String}

theorem evalAll_acts {γ : Type} {f : γ → ExceptT Failure m Value} {es : List Expr}
    {xs : List γ} (h : List.Forall₂ (fun x e => Acts l (eval s unit e) (f x)) xs es) :
    Acts l (evalAll s unit es) (xs.mapM f) := by
  induction h with
  | nil =>
    rw [evalAll,List.mapM_nil]
    exact .pure []
  | cons hx _ ih =>
    rw [evalAll,List.mapM_cons]
    exact hx.bind fun v => ih.bind fun vs => .pure (v :: vs)

theorem evalEntries_acts {γ : Type} {f : γ → ExceptT Failure m Value}
    {es : List (ArrayKey × Expr)} {xs : List γ} {key : γ → ArrayKey}
    (h : List.Forall₂ (fun x e => e.1 = key x ∧ Acts l (eval s unit e.2) (f x)) xs es) :
    Acts l (evalEntries s unit es) (xs.mapM fun x => do return (key x,← f x)) := by
  induction h with
  | nil =>
    rw [evalEntries,List.mapM_nil]
    exact .pure []
  | @cons x e xs es hx _ ih =>
    obtain ⟨k,e⟩ := e
    obtain ⟨rfl,hx⟩ := hx
    rw [evalEntries,List.mapM_cons,bind_assoc]
    refine hx.bind fun v => ?_
    rw [pure_bind]
    exact ih.bind fun vs => .pure ((key x,v) :: vs)

theorem callFunction_acts {acts : List (ExceptT Failure m Value)} {es : List Expr} (name : String)
    (h : List.Forall₂ (fun act e => Acts l (eval s unit e) act) acts es) :
    Acts l (eval s unit (.callFunction name es))
      (do Script.callFunction s unit name (← acts.mapM id)) := by
  rw [Expr.callFunction,eval]
  exact (evalAll_acts h).bind fun vs => .lift _

theorem construct_acts {γ : Type} {f : γ → ExceptT Failure m Value} {es : List Expr}
    {xs : List γ} (className : String)
    (h : List.Forall₂ (fun x e => Acts l (eval s unit e) (f x)) xs es) :
    Acts l (eval s unit (.construct className es))
      (do s.construct className (← xs.mapM f)) := by
  rw [Expr.construct,eval]
  exact (evalAll_acts h).bind fun vs => .lift _

theorem text_acts (t : String) : Acts l (eval s unit (.text t)) (pure (.text t)) := by
  rw [Expr.text,eval]
  exact .pure _

theorem keyed_acts {entries : List (ArrayKey × Expr)}
    {act : ExceptT Failure m (List (ArrayKey × Value))}
    (h : Acts l (evalEntries s unit entries) act) :
    Acts l (eval s unit (.keyed entries)) (do return .array (.ofEntries (← act))) := by
  rw [eval]
  exact h.bind fun es => .pure _

theorem remakeEntries_congr {entries : List (ArrayKey × Tree)} {f g : List (ArrayKey × Value) → α}
    (h : ∀ es, es.map Prod.fst = entries.map Prod.fst → f es = g es) :
    (do return f (← Tree.remakeEntries s entries)) =
      (do return g (← Tree.remakeEntries s entries) : ExceptT Failure m α) := by
  induction entries generalizing f g with
  | nil =>
    rw [Tree.remakeEntries,pure_bind,pure_bind,h [] rfl]
  | cons e rest ih =>
    obtain ⟨key,tree⟩ := e
    rw [Tree.remakeEntries]
    simp only [bind_assoc,pure_bind]
    congr 1
    funext v
    refine ih (f := fun es => f ((key,v) :: es)) (g := fun es => g ((key,v) :: es)) ?_
    exact fun es hes => h _ (by rw [List.map_cons,List.map_cons,hes])

mutual

/-- The source of a tree makes a value of its shape. -/
theorem remake_acts : ∀ (t : Tree) (e : Expr), t.toExpr = .ok e →
    Acts l (eval s unit e) (t.remake s)
  | .null, e, h | .bool _, e, h | .int _, e, h | .float _, e, h => by
    simp only [Tree.toExpr,Except.ok.injEq] at h
    subst h
    rw [eval,Tree.remake]
    exact .pure _
  | .text t, e, h => by
    simp only [Tree.toExpr,Except.ok.injEq] at h
    subst h
    exact text_acts t
  | .array ⟨entries,next⟩, e, h => by
    simp only [Tree.toExpr] at h
    obtain ⟨items,hitems,h⟩ := bind_eq_ok.mp h
    simp only [pure_ok,Except.ok.injEq] at h
    obtain ⟨hentries,hvalues⟩ := remakeEntries_acts entries items hitems
    subst h
    rw [Tree.remake]
    split
    next hlist =>
      have hsame : (do return Value.list ((← Tree.remakeEntries s entries).map Prod.snd)) =
          (do return Value.array (.ofEntries (← Tree.remakeEntries s entries)) :
            ExceptT Failure m Value) := remakeEntries_congr ?_
      · rw [← hsame,eval]
        have hbind := hvalues.bind fun vs => Acts.pure (l := l) (Value.list vs)
        simp only [bind_assoc,pure_bind] at hbind
        exact hbind
      · intro es hes
        rw [Value.list,Keyed.ofValues_of_isList]
        rw [← Keyed.isListFrom_keys hes]
        exact hlist
    next => exact keyed_acts hentries
  | .object className properties, e, h => by
    simp only [Tree.toExpr] at h
    obtain ⟨items,hitems,h⟩ := bind_eq_ok.mp h
    have hproperties := remakeProperties_acts properties items hitems
    simp only [pure_ok,Except.ok.injEq] at h
    subst h
    have hcall := callFunction_acts "restore"
      (.cons (text_acts className) (.cons (keyed_acts hproperties) .nil))
    simp only [List.mapM_cons,List.mapM_nil,id,bind_assoc,pure_bind,Script.callFunction_restore,
      Script.propertiesOf_texts] at hcall
    exact hcall
  | .blob typeName bytes, e, h => by
    simp only [Tree.toExpr,Except.ok.injEq] at h
    subst h
    have hcall : Acts l (eval s unit _) _ := callFunction_acts "unserialize"
      (.cons (text_acts typeName) (.cons (text_acts (Base64.encode bytes)) .nil))
    simp only [List.mapM_cons,List.mapM_nil,id,pure_bind,Script.callFunction_unserialize] at hcall
    exact hcall
  | .foreign typeName none, e, h => by
    simp only [Tree.toExpr] at h
    cases h
  | .foreign typeName (some source), e, h => by
    simp only [Tree.toExpr] at h
    obtain ⟨argument,hargument,h⟩ := bind_eq_ok.mp h
    have hsource := remake_acts source argument hargument
    simp only [pure_ok,Except.ok.injEq] at h
    subst h
    have hmade := construct_acts (f := id) typeName (.cons hsource .nil)
    simp only [List.mapM_cons,List.mapM_nil,id,bind_assoc,pure_bind] at hmade
    exact hmade
  | .injector, e, h => by
    simp only [Tree.toExpr,Except.ok.injEq] at h
    subst h
    have hcall : Acts l (eval s unit _) _ := callFunction_acts "injector" .nil
    rw [List.mapM_nil,pure_bind] at hcall
    exact hcall

theorem remakeEntries_acts : ∀ (entries : List (ArrayKey × Tree)) (es : List (ArrayKey × Expr)),
    Tree.entriesToExpr entries = .ok es →
      Acts l (evalEntries s unit es) (Tree.remakeEntries s entries) ∧
      Acts l (evalAll s unit (es.map Prod.snd))
        (do return (← Tree.remakeEntries s entries).map Prod.snd)
  | [], es, h => by
    simp only [Tree.entriesToExpr,Except.ok.injEq] at h
    subst h
    rw [Tree.remakeEntries,evalEntries,pure_bind,List.map_nil,List.map_nil,evalAll]
    exact ⟨.pure _,.pure _⟩
  | (key,t) :: rest, es, h => by
    simp only [Tree.entriesToExpr] at h
    obtain ⟨first,hfirst,h⟩ := bind_eq_ok.mp h
    obtain ⟨more,hmore,h⟩ := bind_eq_ok.mp h
    simp only [pure_ok,Except.ok.injEq] at h
    subst h
    have ht := remake_acts t first hfirst
    obtain ⟨hentries,hvalues⟩ := remakeEntries_acts rest more hmore
    rw [Tree.remakeEntries,evalEntries,List.map_cons,evalAll]
    constructor
    · exact ht.bind fun v => hentries.bind fun vs => .pure _
    · simp only [bind_assoc,pure_bind]
      refine ht.bind fun v => ?_
      have hbind := hvalues.bind fun vs => Acts.pure (l := l) (v :: vs)
      simp only [bind_assoc,pure_bind] at hbind
      exact hbind

theorem remakeProperties_acts : ∀ (properties : List (String × Tree))
    (es : List (ArrayKey × Expr)), Tree.propertiesToExpr properties = .ok es →
      Acts l (evalEntries s unit es)
        (do return (← Tree.remakeProperties s properties).map fun p => (ArrayKey.text p.1,p.2))
  | [], es, h => by
    simp only [Tree.propertiesToExpr,Except.ok.injEq] at h
    subst h
    rw [Tree.remakeProperties,evalEntries,pure_bind]
    exact .pure _
  | (name,t) :: rest, es, h => by
    simp only [Tree.propertiesToExpr] at h
    obtain ⟨first,hfirst,h⟩ := bind_eq_ok.mp h
    obtain ⟨more,hmore,h⟩ := bind_eq_ok.mp h
    simp only [pure_ok,Except.ok.injEq] at h
    subst h
    rw [Tree.remakeProperties,evalEntries]
    simp only [bind_assoc,pure_bind]
    refine (remake_acts t first hfirst).bind fun v => ?_
    have hbind := (remakeProperties_acts rest more hmore).bind
      fun vs => Acts.pure (l := l) ((ArrayKey.text name,v) :: vs)
    simp only [bind_assoc,pure_bind] at hbind
    exact hbind

end

theorem pull_acts (shared : Bool) (key : Key) :
    Acts l (eval s unit (Compile.pull shared key)) (pulled s shared key none) := by
  have hcall : Acts l (eval s unit _) _ := callFunction_acts (Compile.pullName shared)
    (.cons (text_acts key.text) .nil)
  simp only [List.mapM_cons,List.mapM_nil,id,pure_bind,Script.callFunction_pull] at hcall
  exact hcall

theorem pullAt_acts (shared : Bool) (key : Key) (p : Parameter) :
    Acts l (eval s unit (Compile.pullAt shared key p)) (pulled s shared key (some p)) := by
  have hpoint : Acts l (eval s unit (.list [.text p.className,.text p.method,.text p.name]))
      (pure (.list [.text p.className,.text p.method,.text p.name])) := by
    rw [eval]
    have hall : Acts l (evalAll s unit _) _ := evalAll_acts (f := id)
      (.cons (text_acts p.className) (.cons (text_acts p.method) (.cons (text_acts p.name) .nil)))
    have hlist := hall.bind fun vs => Acts.pure (Value.list vs)
    simp only [List.mapM_cons,List.mapM_nil,id,pure_bind] at hlist
    exact hlist
  have hcall := callFunction_acts (Compile.pullName shared)
    (.cons (text_acts key.text) (.cons hpoint .nil))
  simp only [List.mapM_cons,List.mapM_nil,id,pure_bind,Script.callFunction_pullAt] at hcall
  exact hcall

theorem Element.Written.acts {x : Element} {e : Expr} (h : x.Written e) :
    Acts l (eval s unit e) (x.perform s) := by
  cases h with
  | literal h => exact remake_acts _ _ h
  | pull shared key => exact pull_acts shared key

theorem Supply.Written.acts {x : Supply} {e : Expr} (h : x.Written e) :
    Acts l (eval s unit e) (x.perform s) := by
  cases h with
  | literal h => exact remake_acts _ _ h
  | point =>
    have hcall : Acts l (eval s unit _) _ := callFunction_acts "injection_point" .nil
    rw [List.mapM_nil,pure_bind] at hcall
    exact hcall
  | map h =>
    exact keyed_acts (evalEntries_acts (h.imp fun x e ⟨hkey,hx⟩ => ⟨hkey,hx.acts⟩))
  | pull shared key => exact pull_acts shared key
  | pullAt shared key p => exact pullAt_acts shared key p

theorem supplied_acts {xs : List Supply} {es : List Expr} (h : List.Forall₂ Supply.Written xs es) :
    List.Forall₂ (fun x e => Acts l (eval s unit e) (x.perform s)) xs es :=
  h.imp fun _ _ hx => hx.acts

/-- The variables of a unit once its instance is there. -/
def holding (made : Value) : Script.Locals := [(Compile.instanceName,made)]

theorem instanceVar_acts (made : Value) :
    Acts (holding made) (eval s unit Compile.instanceVar) (pure made) := by
  have hget : Acts (holding made) (get : Run m Script.Locals) (pure (holding made)) := .pure _
  rw [Compile.instanceVar,eval]
  exact hget.known (.pure made)

theorem callMethod_acts {γ : Type} {f : γ → ExceptT Failure m Value} {es : List Expr}
    {xs : List γ} {made : Value} (method : String)
    (h : List.Forall₂ (fun x e => Acts (holding made) (eval s unit e) (f x)) xs es) :
    Acts (holding made) (eval s unit (.callMethod Compile.instanceVar method es))
      (do invoked s unit made method (← xs.mapM f)) := by
  rw [Expr.callMethod,eval]
  refine (instanceVar_acts made).known ((evalAll_acts h).bind fun vs => ?_)
  cases made with
  | object ref => exact .lift _
  | _ => exact .throw _

open Script (steps runUnit)

variable {rest : List Statement} {e : Expr} {actValue : ExceptT Failure m Value}

theorem steps_expr (h : Acts l (eval s unit e) actValue) :
    steps s unit (.expr e :: rest) l = actValue >>= fun _ => steps s unit rest l := by
  rw [steps,Script.step,bind_assoc,h.run_bind]
  simp only [pure_bind]

theorem steps_assign (name : String) (h : Acts l (eval s unit e) actValue) :
    steps s unit (.expr (.assign name e) :: rest) l =
      actValue >>= fun v => steps s unit rest (l.put name v) := by
  have hmodify (v : Value) (k : Unit → Run m (Value × Bool)) :
      (modify (·.put name v) >>= k) l = k () (l.put name v) := by
    change (pure ((),l.put name v) >>= fun p => k p.1 p.2) = _
    rw [pure_bind]
  rw [steps,Script.step,eval]
  simp only [bind_assoc]
  rw [h.run_bind]
  simp only [hmodify,pure_bind]

theorem steps_yield (rest : List Statement) (shared : Bool) (h : Acts l (eval s unit e) actValue) :
    Acts l (steps s unit (.yieldPair e shared :: rest)) (do return (← actValue,shared)) := by
  have hflag : Acts l (eval s unit (.literal (.bool shared))) (pure (.bool shared)) := by
    rw [eval]
    exact .pure _
  rw [Statement.yieldPair,steps,Script.step,bind_assoc]
  refine h.bind fun v => ?_
  rw [bind_assoc]
  exact hflag.known (Acts.known (.pure _) (.pure _))

/-- The statement calls the setter with what is supplied to it. -/
theorem steps_calls {made : Value} {xs : List (String × List Supply)}
    {statements : List Statement} (h : List.Forall₂ CallWritten xs statements) :
    steps s unit (statements ++ rest) (holding made) =
      called s unit made xs >>= fun _ => steps s unit rest (holding made) := by
  unfold called
  induction h with
  | nil =>
    rw [List.forM_nil,pure_bind]
    rfl
  | @cons call _ _ _ hcall _ ih =>
    obtain ⟨es,hes,rfl⟩ := hcall
    rw [List.cons_append,calls,steps_expr (callMethod_acts call.1 (supplied_acts hes)),ih,
      List.forM_cons]
    simp only [bind_assoc,pure_bind]
    rfl

theorem hook_written (methods : List String) :
    List.Forall₂ CallWritten (methods.map fun method => (method,[]))
      (methods.map (calls · [])) := by
  rw [List.forall₂_map_left_iff,List.forall₂_map_right_iff]
  exact List.forall₂_same.mpr fun method _ => ⟨[],.nil,rfl⟩

theorem context_written (texts : List String) :
    List.Forall₂ CallWritten (texts.map fun text => ("setContext",[.literal (.text text)]))
      (texts.map fun text => calls "setContext" [.text text]) := by
  rw [List.forall₂_map_left_iff,List.forall₂_map_right_iff]
  refine List.forall₂_same.mpr fun text _ => ⟨[.text text],.cons (.literal ?_) .nil,rfl⟩
  rw [Tree.toExpr]

/-- The statements of an object leave it in its variable. -/
theorem Assembly.Written.run {a : Assembly} {statements : List Statement}
    (h : a.Written statements) (rest : List Statement) :
    steps s unit (statements ++ rest) [] =
      a.perform s unit >>= fun made => steps s unit rest (holding made) := by
  cases h with
  | @intro es setters hes hsetters =>
    rw [Assembly.perform]
    simp only [List.cons_append,List.append_assoc,bind_assoc,pure_bind]
    rw [steps_assign _ (construct_acts a.className (supplied_acts hes)),bind_assoc]
    congr 1
    funext vs
    congr 1
    funext made
    exact (steps_calls hsetters).trans (by rw [steps_calls (hook_written _)])

theorem interceptors_acts (classNames : List String) :
    Acts l (eval s unit (.list (classNames.map fun c => Compile.pull true (.any c))))
      (interceptors s classNames) := by
  have hpulls : List.Forall₂ (fun c e => Acts l (eval s unit e) (s.singleton (.any c) none))
      classNames (classNames.map fun c => Compile.pull true (.any c)) :=
    List.forall₂_map_right_iff.mpr (List.forall₂_same.mpr fun c _ => pull_acts true (.any c))
  rw [eval]
  exact (evalAll_acts hpulls).bind fun vs => .pure _

theorem throw_then (f : Failure) (k : α → ExceptT Failure m β) :
    (throw f >>= k : ExceptT Failure m β) = throw f := by
  apply ExceptT.ext
  simp

theorem steps_advice {made : Value} (advice : Table String (List String)) :
    steps s unit (adviceStatement advice :: rest) (holding made) =
      advise s unit made advice >>= fun _ => steps s unit rest (holding made) := by
  have hentries : Acts (holding made) (evalEntries s unit (advice.map fun a =>
      (.text a.1,.list (a.2.map fun c => Compile.pull true (.any c)))))
      (advice.mapM fun a => do return (ArrayKey.text a.1,← interceptors s a.2)) :=
    evalEntries_acts (List.forall₂_map_right_iff.mpr
      (List.forall₂_same.mpr fun a _ => ⟨rfl,interceptors_acts a.2⟩))
  have hset : Acts (holding made) (eval s unit (.setProp Compile.instanceVar "bindings"
      (.keyed (advice.map fun a => (.text a.1,.list (a.2.map fun c => Compile.pull true (.any c)))))))
      (do
        let entries ← advice.mapM fun a => do return (ArrayKey.text a.1,← interceptors s a.2)
        stored s unit made "bindings" (.array (.ofEntries entries))
        return .array (.ofEntries entries)) := by
    rw [eval]
    refine (instanceVar_acts made).known (((keyed_acts hentries).bind
      (k := fun v => do stored s unit made "bindings" v; return v) fun v => ?_).of_eq (by
        simp only [bind_assoc,pure_bind]))
    cases made with
    | object ref => exact (Acts.lift (s.setProperty ref "bindings" v)).bind fun _ => .pure v
    | _ => exact (Acts.throw _).of_eq (throw_then _ _).symm
  rw [adviceStatement,steps_expr hset,advise]
  simp only [bind_assoc,pure_bind]

theorem run'_acts {x : Run m α} (h : Acts l x act) : x.run' l = act := by
  have hrun : x.run' l = Prod.fst <$> x l := rfl
  unfold Acts at h
  rw [hrun,h,map_bind]
  simp only [map_pure,bind_pure]

/-- What a run returns after an action that it starts with. -/
theorem run'_bind {x : Run m β} {k : α → Run m β} {next : α → Script.Locals}
    (h : x l = act >>= fun a => k a (next a)) :
    x.run' l = act >>= fun a => (k a).run' (next a) := by
  have hrun (x : Run m β) (l : Script.Locals) : x.run' l = Prod.fst <$> x l := rfl
  rw [hrun,h,map_bind]
  rfl

theorem run'_instance (made : Value) (shared : Bool) :
    (steps s unit [.yieldPair Compile.instanceVar shared]).run' (holding made) =
      pure (made,shared) := by
  have hvar : Acts (holding made) (eval s unit Compile.instanceVar) (pure made) :=
    instanceVar_acts made
  have hyield := steps_yield [] shared hvar
  rw [pure_bind] at hyield
  exact run'_acts hyield

/-- A unit of a class or provider starts with its object. -/
theorem Assembly.Written.runUnit {a : Assembly} {statements : List Statement}
    (h : a.Written statements) (rest : List Statement) :
    Script.runUnit s unit (.namespaced Compile.unitNamespace :: statements ++ rest) =
      a.perform s unit >>= fun made => (Script.steps s unit rest).run' (holding made) := by
  have hnone : Acts ([] : Script.Locals)
      (Script.step s unit (.namespaced Compile.unitNamespace)) (pure none) := by
    rw [Script.step]
    exact .pure none
  refine run'_bind ?_
  rw [List.cons_append,Script.steps,hnone.run_bind,pure_bind]
  exact h.run rest

/-- A unit written for a delivery runs as the delivery is performed. -/
theorem Delivery.Written.run {d : Delivery} {statements : List Statement}
    (h : d.Written statements) : Script.runUnit s unit statements = d.perform s unit := by
  cases h with
  | literal h => exact run'_acts (steps_yield [] false (remake_acts _ _ h))
  | @made assembly statements h advice shared =>
    rw [List.append_assoc,h.runUnit,Delivery.perform]
    congr 1
    funext made
    by_cases hempty : advice.isEmpty = true
    · rw [if_pos hempty,List.nil_append,run'_instance]
      simp [hempty]
    · rw [if_neg hempty,List.singleton_append,run'_bind (steps_advice advice),
        if_pos (by simp [hempty])]
      simp only [run'_instance]
  | @provided assembly statements h context shared =>
    rw [List.append_assoc,h.runUnit,Delivery.perform]
    congr 1
    funext provider
    rw [run'_bind (steps_calls (context_written _))]
    congr 1
    funext _
    have hget : Acts (holding provider) (eval s unit (.callMethod Compile.instanceVar "get" [])) _ :=
      callMethod_acts (f := fun x : Supply => x.perform s) "get" .nil
    have hyield := steps_yield [] shared hget
    simp only [List.mapM_nil,pure_bind] at hyield
    exact run'_acts hyield

end Running
end Wiring
