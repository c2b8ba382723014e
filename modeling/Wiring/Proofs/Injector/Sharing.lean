import Mathlib
import Wiring.Proofs.Injector.Keeping

/-!
# Shared instances are unique and stable

An instance is kept for a key after the unit of the key has run, and other units run inside
that run. If no key is asked for inside its own run, none of them comes to keep an instance for
it meanwhile; so an instance is kept only where there was none, and it stays. That no key is
asked for in this way is told by comparison with a guard that refuses such requests.
-/
namespace Wiring

variable {running : Running} {w w' : World} {id : InjectorId} {key : Key} {v : Value} {α : Type}

theorem World.kept_withInjector (w : World) (id other : InjectorId) (key : Key)
    (f : Injector → Injector) : (w.withInjector id f).kept other key =
      if other = id then (w.injector? id).bind fun i => (f i).singletons.find? key
      else w.kept other key := by
  rw [World.kept,World.injector?_withInjector]
  split
  · cases w.injector? id <;> rfl
  · rfl

theorem Injector.singletons_remember (i : Injector) (key : Key) (v : Value) :
    (i.remember key v).singletons = i.singletons.put key v := by
  cases i <;> rfl

/-- The world after an instance has been kept. -/
def World.remember (w : World) (id : InjectorId) (key : Key) (v : Value) : World :=
  w.withInjector id fun i => i.remember key v

theorem World.kept_remember_self (h : w.lives id = true) : (w.remember id key v).kept id key = some v := by
  obtain ⟨i,hi⟩ := Option.isSome_iff_exists.mp h
  have hi : w.injector? id = some i := hi
  rw [World.remember,World.kept_withInjector,if_pos rfl,hi,Option.bind_some,
    Injector.singletons_remember]
  exact Table.find?_put_self ..

theorem World.kept_remember_of_ne {other : InjectorId} {another : Key}
    (h : (other,another) ≠ (id,key)) :
    (w.remember id key v).kept other another = w.kept other another := by
  rw [World.remember,World.kept_withInjector]
  split
  next hid =>
    subst hid
    have hkey : another ≠ key := fun hk => h (by rw [hk])
    rw [World.kept]
    congr 1
    funext i
    rw [Injector.singletons_remember]
    exact Table.find?_put_of_ne _ _ hkey
  next => rfl

theorem World.lives_withInjector (f : Injector → Injector) {other : InjectorId}
    (h : w.lives other = true) : (w.withInjector id f).lives other = true := by
  have hsome : (w.injector? other).isSome = true := h
  show ((w.withInjector id f).injector? other).isSome = true
  rw [World.injector?_withInjector]
  split
  next hid =>
    subst hid
    rw [Option.isSome_map]
    exact hsome
  next => exact hsome

/-- An instance may be kept for a key that was free, unless the key is running. -/
theorem Preserves.remember (h : Preserves running w w') (hfree : w.kept id key = none)
    (hnot : (id,key) ∉ running) : Preserves running w (w'.remember id key v) where
  lives other hw := World.lives_withInjector _ (h.lives other hw)
  kept other another u hu := by
    have hkept := h.kept other another u hu
    have hne : (other,another) ≠ (id,key) := by
      intro he
      obtain ⟨rfl,rfl⟩ := Prod.mk.inj he
      rw [hfree] at hu
      cases hu
    rw [World.kept_remember_of_ne hne]
    exact hkept
  free other another hm hu := by
    have hne : (other,another) ≠ (id,key) := fun he => hnot (he ▸ hm)
    rw [World.kept_remember_of_ne hne]
    exact h.free other another hm hu

namespace Resolve

open Act

/-- Runs nested to a depth that are refused to the keys whose units are running. -/
def guarded : Nat → Running → RunKey
  | 0, _, _, _ => throw .exhausted
  | depth + 1, running, id, key =>
      if (id,key) ∈ running then throw .exhausted
      else runWith (guarded depth ((id,key) :: running)) id key

/-- Running a key keeps everything, and the key itself free. Keys that are running are not run
again. -/
structure Careful (running : Running) (run : RunKey) : Prop where
  keeps : ∀ id key, (run id key).Keeps ((id,key) :: running)
  refuses : ∀ id key, (id,key) ∈ running → ∀ w r w', run id key w ≠ (.ok r,w')

section Requests

variable {run : RunKey}

theorem injector_run {i : Injector} (h : w.injector? id = some i) :
    Act.injector id w = (.ok i,w) := by
  have hget : (get : Act World) w = (.ok w,w) := rfl
  rw [Act.injector,Work.run_bind hget,h]
  rfl

theorem injector_gone (h : w.injector? id = none) :
    Act.injector id w = (.error (.running .injectorGone),w) := by
  have hget : (get : Act World) w = (.ok w,w) := rfl
  rw [Act.injector,Work.run_bind hget,h]
  rfl

theorem find?_of_kept {i : Injector} (hi : w.injector? id = some i) {o : Option Value}
    (h : w.kept id key = o) : i.singletons.find? key = o := by
  rw [World.kept,hi] at h
  exact h

theorem injector_of_kept (h : w.kept id key = some v) : ∃ i, w.injector? id = some i := by
  rw [World.kept] at h
  exact Option.isSome_iff_exists.mp (Option.isSome_of_isSome_bind (by rw [h]; rfl))

theorem resolve_kept (h : w.kept id key = some v) : resolve run id key w = (.ok v,w) := by
  obtain ⟨i,hi⟩ := injector_of_kept h
  rw [resolve,Work.run_bind (injector_run hi),find?_of_kept hi h]
  rfl

theorem singleton_kept (point : Option Parameter) (h : w.kept id key = some v) :
    singleton run id key point w = (.ok v,w) := by
  obtain ⟨i,hi⟩ := injector_of_kept h
  rw [singleton,Work.run_bind (injector_run hi),find?_of_kept hi h]
  rfl

variable {i : Injector} {r : Value × Bool} {f : Failure}

theorem resolve_ran (hi : w.injector? id = some i) (h : w.kept id key = none)
    (hrun : run id key w = (.ok r,w')) : resolve run id key w =
      (.ok r.1,if r.2 then w'.remember id key r.1 else w') := by
  rw [resolve,Work.run_bind (injector_run hi),find?_of_kept hi h]
  dsimp only
  rw [Work.run_bind hrun]
  obtain ⟨value,shared⟩ := r
  cases shared <;> rfl

theorem resolve_failed (hi : w.injector? id = some i) (h : w.kept id key = none)
    (hrun : run id key w = (.error f,w')) : resolve run id key w = (.error f,w') := by
  rw [resolve,Work.run_bind (injector_run hi),find?_of_kept hi h]
  exact Work.run_bind_error _ hrun

theorem singleton_ran {point : Option Parameter} (hi : w.injector? id = some i)
    (h : w.kept id key = none) (hrun : withPoint id point (run id key) w = (.ok r,w')) :
    singleton run id key point w = (.ok r.1,w'.remember id key r.1) := by
  rw [singleton,Work.run_bind (injector_run hi),find?_of_kept hi h]
  dsimp only
  rw [Work.run_bind hrun]
  rfl

theorem singleton_failed {point : Option Parameter} (hi : w.injector? id = some i)
    (h : w.kept id key = none) (hrun : withPoint id point (run id key) w = (.error f,w')) :
    singleton run id key point w = (.error f,w') := by
  rw [singleton,Work.run_bind (injector_run hi),find?_of_kept hi h]
  exact Work.run_bind_error _ hrun

/-- The former parameter comes back whatever becomes of the action. -/
theorem withPoint_run (point : Option Parameter) (a : Act α) (hi : w.injector? id = some i) :
    withPoint id point a w = ((a (w.withInjector id (·.setPoint point))).1,
      (a (w.withInjector id (·.setPoint point))).2.withInjector id (·.setPoint i.point)) := by
  rw [withPoint,Work.run_bind (injector_run hi),Work.run_bind (modifyInjector_run id _ w)]
  cases ha : a (w.withInjector id (·.setPoint point)) with
  | mk answer after =>
    have hattempt : Act.attempt a (w.withInjector id (·.setPoint point)) = (.ok answer,after) := by
      show (Except.ok (a (w.withInjector id (·.setPoint point))).1,
        (a (w.withInjector id (·.setPoint point))).2) = _
      rw [ha]
    rw [Work.run_bind hattempt,Work.run_bind (modifyInjector_run id _ after)]
    cases answer <;> rfl

theorem withPoint_gone (point : Option Parameter) (a : Act α) (hi : w.injector? id = none) :
    withPoint id point a w = (.error (.running .injectorGone),w) :=
  Work.run_bind_error _ (injector_gone hi)

theorem withPoint_ok {point : Option Parameter} {a : Act α} {x : α}
    (h : withPoint id point a w = (.ok x,w')) : ∃ before after, a before = (.ok x,after) := by
  cases hi : w.injector? id with
  | none =>
    rw [withPoint_gone point a hi] at h
    cases congrArg Prod.fst h
  | some i =>
    rw [withPoint_run point a hi] at h
    have hok : (a (w.withInjector id (·.setPoint point))).1 = .ok x := congrArg Prod.fst h
    exact ⟨_,_,Prod.ext hok rfl⟩

theorem resolve_keeps_of (h : (run id key).Keeps running)
    (hrefuses : (id,key) ∈ running → ∀ w r w', run id key w ≠ (.ok r,w')) :
    (resolve run id key).Keeps running := by
  intro w
  cases hi : w.injector? id with
  | none =>
    rw [resolve,Work.run_bind_error _ (injector_gone hi)]
    exact .refl w
  | some i =>
    cases hkept : w.kept id key with
    | some v =>
      rw [resolve_kept hkept]
      exact .refl w
    | none =>
      have hkeeps := h w
      cases hrun : run id key w with
      | mk answer after =>
        rw [hrun] at hkeeps
        cases answer with
        | error f =>
          rw [resolve_failed hi hkept hrun]
          exact hkeeps
        | ok r =>
          rw [resolve_ran hi hkept hrun]
          dsimp only
          split
          · exact hkeeps.remember hkept fun hm => hrefuses hm _ _ _ hrun
          · exact hkeeps

theorem singleton_keeps_of (h : (run id key).Keeps running)
    (hrefuses : (id,key) ∈ running → ∀ w r w', run id key w ≠ (.ok r,w'))
    (point : Option Parameter) : (singleton run id key point).Keeps running := by
  intro w
  cases hi : w.injector? id with
  | none =>
    rw [singleton,Work.run_bind_error _ (injector_gone hi)]
    exact .refl w
  | some i =>
    cases hkept : w.kept id key with
    | some v =>
      rw [singleton_kept point hkept]
      exact .refl w
    | none =>
      have hkeeps := withPoint_keeps id point h w
      cases hrun : withPoint id point (run id key) w with
      | mk answer after =>
        rw [hrun] at hkeeps
        cases answer with
        | error f =>
          rw [singleton_failed hi hkept hrun]
          exact hkeeps
        | ok r =>
          rw [singleton_ran hi hkept hrun]
          refine hkeeps.remember hkept fun hm => ?_
          obtain ⟨before,next,hran⟩ := withPoint_ok hrun
          exact hrefuses hm _ _ _ hran

theorem surroundings_keep_of (hresolve : ∀ id key, (resolve run id key).Keeps running)
    (hsingleton : ∀ id key point, (singleton run id key point).Keeps running) (id : InjectorId) :
    (surroundings run id).Keep running where
  prototype key point := withPoint_keeps id point (hresolve id key)
  singleton key point := hsingleton id key point
  injectionPoint := .of_steady (injectionPoint_steady id)
  injector := .pure _
  construct className arguments :=
    (Objects.construct_keeps arguments hresolve className).bind fun _ => .pure _
  invoke self method arguments := Objects.invoke_keeps arguments hresolve self method
  property _ _ := Keeps.heap.bind fun _ => .pure _
  setProperty _ _ _ := .onSite _
  restore _ _ := (Keeps.onSite _).bind fun _ => .pure _
  decode _ _ := .onSite _

theorem runWith_keeps_of (h : (surroundings run id).Keep running) (key : Key) :
    (runWith run id key).Keeps running := by
  refine (Keeps.injector id).bind fun i => ?_
  cases i with
  | script s =>
    exact (Keeps.of_steady (loadUnit_steady id key)).bind fun statements =>
      Script.runUnit_keeps _ h statements
  | direct d =>
    exact (Keeps.of_steady (codeOf_steady id d key)).bind fun code =>
      Script.runUnit_keeps _ h code.statements

theorem resolve_keeps (h : Careful running run) (id : InjectorId) (key : Key) :
    (resolve run id key).Keeps running :=
  resolve_keeps_of (fun w => (h.keeps id key w).mono (List.subset_cons_self _ _)) (h.refuses id key)

theorem surroundings_keep (h : Careful running run) (id : InjectorId) :
    (surroundings run id).Keep running :=
  surroundings_keep_of (resolve_keeps h) (fun id key => singleton_keeps_of
    (fun w => (h.keeps id key w).mono (List.subset_cons_self _ _)) (h.refuses id key)) id

end Requests

/-- The induction is on the depth: what runs below a key counts the key as running. -/
theorem guarded_careful (depth : Nat) (running : Running) :
    Careful running (guarded depth running) := by
  induction depth generalizing running with
  | zero => exact ⟨fun _ _ => .throw _,fun _ _ _ w r w' hrun => by cases congrArg Prod.fst hrun⟩
  | succ depth ih =>
    refine ⟨fun id key => ?_,fun id key hm w r w' hrun => ?_⟩
    · rw [guarded]
      split
      · exact .throw _
      · exact runWith_keeps_of (surroundings_keep (ih _) id) key
    · rw [guarded,if_pos hm] at hrun
      cases congrArg Prod.fst hrun

end Resolve

/-- What is asked of an injector from outside. -/
inductive Operation where
  | get (interface name : String)
  | compile
  | clear
  | snapshot
  deriving DecidableEq, Repr

namespace Operation

open Resolve

def act (id : InjectorId) : Operation → Act Unit
  | get interface name => do
      let _ ← request id interface name
  | compile => compileAll id
  | clear => Act.clear id
  | snapshot => do
      let _ ← Act.snapshot? id

/-- No key is asked for inside its own run: to refuse such requests changes nothing. -/
def Acyclic (id : InjectorId) (w : World) : Operation → Prop
  | get interface name => w.kept id (.of interface name) = none →
      guarded depthLimit [] id (.of interface name) w =
        runKey depthLimit id (.of interface name) w
  | _ => True

end Operation

/-- Operations that are asked of an injector one after another, whatever becomes of each. -/
abbrev Session := List Operation

namespace Session

def after (id : InjectorId) (s : Session) (w : World) : World :=
  s.foldl (fun w op => (op.act id w).2) w

/-- All operations of the session are acyclic where they take place. -/
def Acyclic (id : InjectorId) : Session → World → Prop
  | [], _ => True
  | op :: rest, w => op.Acyclic id w ∧ Acyclic id rest (op.act id w).2

end Session

namespace Operation

open Resolve

theorem acyclic_run {interface name : String} (h : (get interface name).Acyclic id w)
    (hfree : w.kept id (.of interface name) = none) :
    Preserves [(id,.of interface name)] w (runKey depthLimit id (.of interface name) w).2 := by
  rw [← h hfree]
  exact (guarded_careful depthLimit []).keeps id (.of interface name) w

/-- A request that is acyclic does what it would do under the guard. -/
theorem request_eq {interface name : String} (h : (get interface name).Acyclic id w) :
    request id interface name w = resolve (guarded depthLimit []) id (.of interface name) w := by
  rw [request]
  cases hi : w.injector? id with
  | none =>
    rw [resolve,Work.run_bind_error _ (injector_gone hi),resolve,
      Work.run_bind_error _ (injector_gone hi)]
  | some i =>
    cases hkept : w.kept id (.of interface name) with
    | some v => rw [resolve_kept hkept,resolve_kept hkept]
    | none =>
      have hrun := h hkept
      cases hguarded : guarded depthLimit [] id (.of interface name) w with
      | mk answer after =>
        rw [hguarded] at hrun
        cases answer with
        | error f => rw [resolve_failed hi hkept hrun.symm,resolve_failed hi hkept hguarded]
        | ok r => rw [resolve_ran hi hkept hrun.symm,resolve_ran hi hkept hguarded]

theorem clear_keeps (id : InjectorId) : (Act.clear id).Keeps running :=
  (Act.Keeps.scriptInjector id).bind fun _ =>
    (Act.Keeps.of_steady (Act.modifyScript_steady id fun _ => by rfl)).bind fun _ => .onSite _

theorem snapshot?_keeps (id : InjectorId) : (Act.snapshot? id).Keeps running := by
  refine (Act.Keeps.injector id).bind fun i => ?_
  cases i with
  | direct d => exact .pure _
  | script s =>
    dsimp only
    split
    · exact (Act.Keeps.of_steady (graphOf_steady id)).bind fun _ => (Act.Keeps.onSite _).bind fun _ =>
        Act.Keeps.heap.bind fun _ => .pure _
    · exact Act.Keeps.heap.bind fun _ => .pure _

/-- One operation preserves everything, whether it fails or not. -/
theorem act_preserves (op : Operation) (h : op.Acyclic id w) :
    Preserves [] w (op.act id w).2 := by
  cases op with
  | get interface name =>
    have hrequest := resolve_keeps (guarded_careful depthLimit []) id (.of interface name) w
    rw [← request_eq h] at hrequest
    rw [act]
    cases hanswer : request id interface name w with
    | mk answer after =>
      rw [hanswer] at hrequest
      cases answer with
      | ok v =>
        rw [Work.run_bind hanswer]
        exact hrequest
      | error f =>
        rw [Work.run_bind_error _ hanswer]
        exact hrequest
  | compile => exact Act.Keeps.of_steady (compileAll_steady id) w
  | clear => exact clear_keeps id w
  | snapshot =>
    rw [act]
    exact (snapshot?_keeps id).bind (fun _ => .pure ()) w

end Operation

theorem Session.after_preserves {s : Session} (h : s.Acyclic id w) :
    Preserves [] w (s.after id w) := by
  induction s generalizing w with
  | nil => exact .refl w
  | cons op rest ih => exact (op.act_preserves h.1).trans (ih h.2)

open Resolve in
/-- Shared instances are unique and stable. Whatever an injector keeps before acyclic operations,
of which some may fail, it keeps after them; and each thing that a unit asks for while it runs
leaves all of it as it is. A request or a singleton pull gives the instance that is kept,
whatever it would be to run the unit. What a request gives is kept from then on, unless the unit
has run and declares it not shared. -/
theorem shared_instances_are_stable {s : Session} (h : s.Acyclic id w) :
    (∀ other key v, w.kept other key = some v → (s.after id w).kept other key = some v) ∧
    (∀ depth running other, (surroundings (guarded depth running) other).Keep running) ∧
    (∀ key v, w.kept id key = some v → ∀ run,
      resolve run id key (s.after id w) = (.ok v,s.after id w) ∧
        ∀ point, singleton run id key point (s.after id w) = (.ok v,s.after id w)) ∧
    ∀ interface name v w', (Operation.get interface name).Acyclic id (s.after id w) →
      request id interface name (s.after id w) = (.ok v,w') →
        w'.kept id (.of interface name) = some v ∨
          runKey depthLimit id (.of interface name) (s.after id w) = (.ok (v,false),w') := by
  have hafter := Session.after_preserves h
  have hinside (depth : Nat) (running : Running) (other : InjectorId) :
      (surroundings (guarded depth running) other).Keep running :=
    surroundings_keep (guarded_careful depth running) other
  refine ⟨hafter.kept,hinside,fun key v hv run => ?_,
    fun interface name v w' hacyclic hrequest => ?_⟩
  · have hkept := hafter.kept id key v hv
    exact ⟨resolve_kept hkept,fun point => singleton_kept point hkept⟩
  generalize s.after id w = now at hacyclic hrequest ⊢
  rw [request] at hrequest
  cases hi : now.injector? id with
  | none =>
    rw [resolve,Work.run_bind_error _ (injector_gone hi)] at hrequest
    cases congrArg Prod.fst hrequest
  | some i =>
    cases hkept : now.kept id (.of interface name) with
    | some u =>
      rw [resolve_kept hkept] at hrequest
      obtain ⟨hu,rfl⟩ := Prod.mk.inj hrequest
      exact .inl (hkept.trans (congrArg some (Except.ok.inj hu)))
    | none =>
      have hpreserves := Operation.acyclic_run hacyclic hkept
      cases hrun : runKey depthLimit id (.of interface name) now with
      | mk answer ran =>
        rw [hrun] at hpreserves
        cases answer with
        | error f =>
          rw [resolve_failed hi hkept hrun] at hrequest
          cases congrArg Prod.fst hrequest
        | ok r =>
          obtain ⟨u,shared⟩ := r
          rw [resolve_ran hi hkept hrun] at hrequest
          obtain ⟨hu,hw⟩ := Prod.mk.inj hrequest
          obtain rfl := Except.ok.inj hu
          cases shared with
          | false => exact .inr (by rw [← hw]; rfl)
          | true =>
            have hlives : ran.lives id = true := hpreserves.lives id (congrArg Option.isSome hi)
            rw [← hw]
            exact .inl (World.kept_remember_self hlives)

/-- The units of a car that pulls its engine, and of a wreck that returns nothing. All of them
have been read before. -/
def yard : World where
  injectors :=
    [(⟨0⟩,.script
      { dir := "s"
        source := none
        lasting := true
        strict := false
        singletons := []
        units :=
          [(.any "Car",[.yieldPair (.list [Compile.pull true (.any "Engine")]) true]),
            (.any "Engine",[.yieldPair (.text "engine") true]),(.any "Wreck",[])]
        graph := none })]
  made := 1

/-- What is done after the engine has been asked for; asking for the wreck fails. -/
def outing : Session := [.get "Car" "*",.get "Wreck" "*",.snapshot]

/-- The engine is kept once it has been asked for, and stays while the car is made of it. -/
theorem shared_instances_are_stable_sample : ∃ w,
    Resolve.request ⟨0⟩ "Engine" "*" yard = (.ok (.text "engine"),w) ∧
      w.kept ⟨0⟩ (.any "Engine") = some (.text "engine") ∧ outing.Acyclic ⟨0⟩ w ∧
      (outing.after ⟨0⟩ w).kept ⟨0⟩ (.any "Engine") = some (.text "engine") := by
  have hengine : Resolve.request ⟨0⟩ "Engine" "*" yard =
      (.ok (.text "engine"),yard.remember ⟨0⟩ (.any "Engine") (.text "engine")) := by cbv
  have hstart : Session.Acyclic ⟨0⟩ [] yard := trivial
  have hasked : (Operation.get "Engine" "*").Acyclic ⟨0⟩ yard := fun _ => by cbv
  have hacyclic : outing.Acyclic ⟨0⟩ (yard.remember ⟨0⟩ (.any "Engine") (.text "engine")) := by
    refine ⟨fun _ => ?_,fun _ => ?_,trivial,trivial⟩
    · cbv
    · cbv
  refine ⟨_,hengine,?_⟩
  rcases (shared_instances_are_stable hstart).2.2.2 _ _ _ _ hasked hengine with hkept | hunshared
  · exact ⟨hkept,hacyclic,(shared_instances_are_stable hacyclic).1 _ _ _ hkept⟩
  · have hflag : (Resolve.runKey Resolve.depthLimit ⟨0⟩ (.of "Engine" "*") yard).1 =
        .ok (.text "engine",true) := by cbv
    rw [show Session.after ⟨0⟩ [] yard = yard from rfl] at hunshared
    rw [hunshared] at hflag
    cases hflag

end Wiring
