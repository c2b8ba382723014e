import Mathlib
import Wiring.Proofs.Classes.Rooted
import Wiring.Proofs.Compile.Correct

/-!
# Compiling a binding again

Compiling a binding asks the heap for the values in it, and the registry for the classes of
the arguments whose keys the graph does not bind. Where no class file is read for the latter,
the unit depends on the heap and the registry alone, and compiling changes nothing. Even
where class files are read, no file changes.
-/
namespace Wiring

/-- The files of the table stay as they are. -/
theorem Files.read_files (text : String) (fs : Files) : (Files.read text fs).2 = fs := by
  have hget : (get : FileWork Files) fs = (.ok fs,fs) := rfl
  rw [Files.read,Work.run_bind hget]
  cases fs.status text <;> rfl

namespace Classes

open Work

variable {fs : Files}

theorem readIfExists_files (text : String) (fs : Files) :
    (Files.readIfExists text fs).2 = fs := by
  have hget : (get : FileWork Files) fs = (.ok fs,fs) := rfl
  have hread := Files.read_files text fs
  rw [Files.readIfExists,run_bind hget]
  by_cases hexists : fs.exists? text = true
  · rw [if_pos hexists]
    cases hw : Files.read text fs with
    | mk answer fs' =>
      rw [hw] at hread
      obtain rfl : fs' = fs := hread
      cases answer with
      | ok contents =>
        rw [run_bind hw]
        rfl
      | error e => rw [run_bind_error _ hw]
  · rw [if_neg hexists]
    rfl

theorem load_files (className : String) (dirs : List String) :
    (load className dirs).Maintains (fun site => site.files = fs) fun _ => True := by
  induction dirs with
  | nil => exact .pure trivial
  | cons dir rest ih =>
    have hread : (Work.onFiles (Files.readIfExists (classPath dir className))).Maintains
        (fun site => site.files = fs) fun _ => True := by
      intro site hsite
      rw [onFiles_run,readIfExists_files]
      exact ⟨hsite,fun _ _ => trivial⟩
    have hdecode (text : String) : (Work.decode text GeneratedClass.ofJson?).Maintains
        (fun site => site.files = fs) fun _ => True := by
      unfold Work.decode
      cases (Json.read? text).bind GeneratedClass.ofJson? with
      | none => exact .throw _
      | some c => exact .pure trivial
    unfold load
    refine hread.bind fun text _ => ?_
    cases text with
    | none => exact ih
    | some text => exact (hdecode text).bind fun _ _ => .pure trivial

/-- Looking up a class changes no file. -/
theorem find?_files (className : String) :
    (find? className).Maintains (fun site => site.files = fs) fun _ => True := by
  have hregistry : Work.registry.Maintains (fun site => site.files = fs) fun _ => True :=
    fun _ hsite => ⟨hsite,fun _ _ => trivial⟩
  have hmodify (f : Registry → Registry) : (Work.modifyRegistry f).Maintains
      (fun site => site.files = fs) fun _ => True := fun _ hsite => ⟨hsite,fun _ _ => trivial⟩
  unfold find?
  refine hregistry.bind fun r _ => ?_
  cases r.classes.find? className with
  | some c => exact .pure trivial
  | none =>
    refine (load_files className r.scriptDirs).bind fun c _ => ?_
    cases c with
    | none => exact .pure trivial
    | some c => exact (hmodify _).bind fun _ _ => hregistry.bind fun _ _ => .pure trivial

end Classes

/-- The arguments of the plan that makes the instance or its provider. -/
def Binding.allArguments : Binding Value → List (Argument Value)
  | literal _ => []
  | construction plan => plan.allArguments
  | provider plan _ _ => plan.allArguments
  | nullObject _ => []

namespace Compile

open Work

variable {g : Graph}

theorem inferredScope_files {fs : Files} (key : Key) :
    (inferredScope key).Maintains (fun site => site.files = fs) fun _ => True := by
  unfold inferredScope
  split
  · exact .pure trivial
  · refine (Classes.find?_files key.interface).bind fun c _ => ?_
    cases c with
    | none => exact .pure trivial
    | some c => exact .pure trivial

/-- Compiling a binding changes no file. -/
theorem unitOf_files (g : Graph) (b : Binding Value) (site : Site) :
    (unitOf g none b site).2.files = site.files := by
  have hpassed : Passed none site (unitOf g none b site).2 :=
    (unitOf_delivers b site .start).1
  generalize (unitOf g none b site).2 = after at hpassed ⊢
  induction hpassed with
  | start => rfl
  | told key _ ih => exact (inferredScope_files key _ ih).1

/-- The heap and the registry are known, and no file is read for the classes asked for. -/
structure Calm (h : Heap) (r : Registry) (asked : String → Prop) (site : Site) : Prop where
  heap : site.heap = h
  registry : site.registry = r
  unread : ∀ className, asked className → r.Unread site.files className

variable {h : Heap} {r : Registry} {asked : String → Prop}

theorem sourceOf_fixed (v : Value) : (sourceOf v).Fixed (Calm h r asked) := by
  have hheap : Work.heap.Fixed (Calm h r asked) := ⟨.ok h,fun site hsite => by
    show (Except.ok site.heap,site) = _
    rw [hsite.heap]⟩
  unfold sourceOf
  refine hheap.bind fun heap => ?_
  cases heap.source v with
  | ok e => exact .pure e
  | error f => exact .throw f

theorem element_fixed (key : Key) : (element g key).Fixed (Calm h r asked) := by
  unfold element
  cases g.get? key with
  | none => exact .throw _
  | some b =>
    cases b with
    | literal v => exact sourceOf_fixed v
    | construction plan => exact .pure _
    | provider plan shared context => exact .pure _
    | nullObject interface => exact .pure _

theorem mapOf_fixed (interface : String) : (mapOf g interface).Fixed (Calm h r asked) := by
  unfold mapOf
  cases g.map? interface with
  | none => exact .throw _
  | some m =>
    refine Work.Fixed.bind (.mapM fun e _ => ?_) fun _ => .pure _
    exact (element_fixed e.2).bind fun _ => .pure _

theorem inferredScope_fixed (key : Key)
    (hkey : key.isAny = true → key.interface ≠ "" → asked key.interface) :
    (inferredScope key).Fixed (Calm h r asked) := by
  unfold inferredScope
  split
  · exact .pure none
  next hany =>
    simp only [Bool.or_eq_true,Bool.not_eq_true',beq_iff_eq,not_or,Bool.not_eq_false] at hany
    have hfind : (Classes.find? key.interface).Fixed (Calm h r asked) := by
      refine ⟨.ok (r.classes.find? key.interface),fun site hsite => ?_⟩
      have hunread := hsite.unread _ (hkey hany.1 hany.2)
      rw [← hsite.registry] at hunread ⊢
      exact Classes.find?_unread site hunread
    refine hfind.bind fun c => ?_
    cases c with
    | none => exact .pure none
    | some c => exact .pure _

/-- Compiling looks up the class that the argument asks for: its key is not bound, and no
point and no map is supplied for it. -/
def looksUp (g : Graph) (a : Argument Value) : Bool :=
  a.key.interface != Key.pointInterface && a.set.isNone && !g.has a.key && a.key.isAny &&
    a.key.interface != ""

theorem argument_fixed (a : Argument Value)
    (ha : looksUp g a = true → asked a.key.interface) :
    (argument g none a).Fixed (Calm h r asked) := by
  unfold argument
  split
  · exact .pure _
  next hpoint =>
    cases hset : a.set with
    | some interface => exact (mapOf_fixed interface).bind fun _ => .pure _
    | none =>
      cases hb : g.get? a.key with
      | none =>
        have hfree : g.has a.key = false := congrArg Option.isSome hb
        have houtside : (outside none a).Fixed (Calm h r asked) := by
          refine Fixed.bind (inferredScope_fixed a.key fun hany hne => ha ?_) fun shared => ?_
          · simp [looksUp,hset,hfree,hany,hne,bne,hpoint]
          cases shared with
          | some shared => exact .pure _
          | none =>
            cases a.fallback with
            | some v => exact sourceOf_fixed v
            | none => exact .throw _
        exact houtside.bind fun _ => .pure _
      | some b =>
        cases b with
        | literal v => exact (sourceOf_fixed v).bind fun _ => .pure _
        | construction plan => exact .pure _
        | provider plan shared context => exact .pure _
        | nullObject interface => exact .pure _

/-- The classes that are looked up for the arguments are among those asked for. -/
def Within (g : Graph) (asked : String → Prop) (as : List (Argument Value)) : Prop :=
  ∀ a ∈ as, looksUp g a = true → asked a.key.interface

theorem arguments_fixed {as : List (Argument Value)} (has : Within g asked as) :
    (arguments g none as).Fixed (Calm h r asked) := by
  induction as with
  | nil => exact .pure _
  | cons a rest ih =>
    obtain ⟨ha,hrest⟩ := List.forall_mem_cons.mp has
    unfold arguments
    exact (argument_fixed a ha).bind fun _ => (ih hrest).bind fun _ => .pure _

theorem setters_fixed {ss : List (SetterCall Value)}
    (hss : ∀ s ∈ ss, Within g asked s.arguments) :
    (setters g none ss).Fixed (Calm h r asked) := by
  induction ss with
  | nil => exact .pure _
  | cons s rest ih =>
    obtain ⟨hs,hrest⟩ := List.forall_mem_cons.mp hss
    have hsetter : (setter g none s).Fixed (Calm h r asked) := by
      unfold setter
      refine (arguments_fixed hs).attempt.bind fun answer => ?_
      cases answer with
      | ok kept => exact .pure _
      | error f =>
        dsimp only
        split
        · exact .pure _
        · exact .throw f
    unfold setters
    exact hsetter.bind fun _ => (ih hrest).bind fun _ => .pure _

theorem factory_fixed {plan : Plan Value} (hplan : Within g asked plan.allArguments) :
    (factory g none plan).Fixed (Calm h r asked) := by
  have hss : ∀ s ∈ plan.setters, Within g asked s.arguments := fun s hs a ha =>
    hplan a (List.mem_append_right _ (List.mem_flatMap.mpr ⟨s,hs,ha⟩))
  unfold factory
  refine (arguments_fixed fun a ha => hplan a (List.mem_append_left _ ha)).bind fun _ => ?_
  exact (setters_fixed hss).bind fun _ => .pure _

/-- The unit of a binding depends on the heap and the registry alone. -/
theorem unitOf_fixed {b : Binding Value} (hb : Within g asked b.allArguments) :
    (unitOf g none b).Fixed (Calm h r asked) := by
  cases b with
  | literal v => exact (sourceOf_fixed v).bind fun _ => .pure _
  | construction plan => exact (factory_fixed hb).bind fun _ => .pure _
  | provider plan shared context => exact (factory_fixed hb).bind fun _ => .pure _
  | nullObject interface => exact .throw _

end Compile
end Wiring
