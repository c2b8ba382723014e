import Mathlib
import Wiring.Proofs.Compile.Agreeing
import Wiring.Proofs.Compile.Weaving
import Wiring.Proofs.Compile.Whole
import Wiring.Proofs.Graph.Module

/-!
# What becomes of the files

Everything but saving leaves the files as they are: classes are looked up, modules built, bindings
compiled and saved texts read. A batch saves, and takes nothing away, whether or not it comes to
its end.
-/
namespace Wiring

open Work

variable {α β : Type} {fs : Files} {g : Graph}

/-- Where the files are these, the work leaves them so. -/
def Work.Leaves (w : Work α) (fs : Files) : Prop :=
  w.Maintains (fun site => site.files = fs) fun _ => True

/-- The work takes nothing away that was there. -/
def Work.Grows (w : Work α) (fs : Files) : Prop :=
  w.Maintains (fun site => Files.Grows fs site.files) fun _ => True

theorem Work.Leaves.of {w : Work α} (h : ∀ site, (w site).2.files = site.files) : w.Leaves fs :=
  fun site hsite => ⟨(h site).trans hsite,fun _ _ => trivial⟩

theorem Work.Leaves.same {w : Work α} (h : ∀ fs, w.Leaves fs) (site : Site) :
    (w site).2.files = site.files := (h site.files site rfl).1

theorem Work.Leaves.grows {w : Work α} (h : ∀ fs, w.Leaves fs) : w.Grows fs := by
  refine fun site hsite => ⟨?_,fun _ _ => trivial⟩
  beta_reduce
  rwa [Leaves.same h site]

namespace Work

theorem onHeap_leaves (f : Heap → α × Heap) : (onHeap f).Leaves fs := .of fun _ => rfl

theorem build_leaves (handle : Handle) (t : Tree) : (build handle t).Leaves fs := onHeap_leaves _

theorem readIfExists_leaves (text : String) :
    (onFiles (Files.readIfExists text)).Leaves fs := .of fun site => by
  rw [onFiles_run,Classes.readIfExists_files]

end Work

namespace Classes

theorem keep_leaves : Keep fun site => site.files = fs := find?_files

theorem find_leaves (className : String) : (find className).Leaves fs := keep_leaves.find className

theorem body?_leaves (c : ClassDecl) (method : String) : (body? c method).Leaves fs :=
  Keep.walkFuel.bind fun fuel _ => keep_leaves.bodyTo method fuel c

theorem setter?_leaves (c : ClassDecl) (method : String) : (setter? c method).Leaves fs :=
  Keep.walkFuel.bind fun fuel _ => keep_leaves.setterTo method fuel c

theorem registry_leaves : Work.registry.Leaves fs := .of fun _ => rfl

theorem decodeNative_leaves (typeName : String) (bytes : List UInt8) :
    (decodeNative typeName bytes).Leaves fs := by
  unfold decodeNative
  refine registry_leaves.bind fun r _ => ?_
  dsimp only
  split
  · exact build_leaves _ _
  · exact .throw _
  · exact build_leaves _ _

end Classes

theorem Plan.ofClass_leaves (className : String) : (Plan.ofClass className).Leaves fs :=
  (Classes.find_leaves className).bind fun _ _ => .pure trivial

theorem Demand.infer_leaves (key : Key) : (Demand.infer key).Leaves fs := by
  unfold Demand.infer
  refine (Classes.find?_files key.interface).bind fun c _ => ?_
  cases c with
  | none => exact .throw _
  | some c =>
    dsimp only
    split
    · exact Plan.ofClass_leaves _
    · exact .throw _

namespace Save

theorem qualifier?_leaves (dir : String) (p : Parameter) : (qualifier? dir p).Leaves fs := by
  refine (readIfExists_leaves _).bind fun text _ => ?_
  cases text with
  | none => exact .pure trivial
  | some text =>
    refine Maintains.bind (Compile.decode_maintains text _) fun t _ => ?_
    exact (build_leaves none t).bind fun _ _ => .pure trivial

theorem graph?_leaves (dir : String) : (graph? dir).Leaves fs := by
  refine (readIfExists_leaves _).bind fun text _ => ?_
  cases text with
  | none => exact .pure trivial
  | some text =>
    have hread : (readGraph text).Leaves fs :=
      (Compile.decode_maintains text _).bind fun c _ => onHeap_leaves _
    exact hread.bind fun _ _ => .pure trivial

end Save

namespace Compile

theorem scopeOutside_leaves {scope : Option ScopeOf}
    (hscope : ∀ scopeOf, scope = some scopeOf → ∀ key, (scopeOf key).Leaves fs) (key : Key) :
    (scopeOutside scope key).Leaves fs := by
  cases scope with
  | none => exact inferredScope_files key
  | some scopeOf =>
    refine (Maintains.attempt (hscope scopeOf rfl key)).bind fun answer _ => ?_
    split
    · exact .pure trivial
    · exact inferredScope_files key
    · exact .throw _

/-- Compiling a binding changes no file if telling scopes does not. -/
theorem unitOf_leaves {scope : Option ScopeOf}
    (hscope : ∀ scopeOf, scope = some scopeOf → ∀ fs key, (scopeOf key).Leaves fs)
    (b : Binding Value) : (unitOf g scope b).Leaves fs := .of fun site => by
  have hpassed : Passed scope site (unitOf g scope b site).2 := (unitOf_delivers b site .start).1
  generalize (unitOf g scope b site).2 = after at hpassed ⊢
  induction hpassed with
  | start => rfl
  | told key _ ih =>
    exact (scopeOutside_leaves (fun scopeOf hs => hscope scopeOf hs _) key _ ih).1

end Compile

namespace Resolve

theorem directScope_leaves (key : Key) : (directScope g key).Leaves fs := by
  unfold directScope
  cases g.get? key with
  | some b => exact .pure trivial
  | none => exact .throw _

/-- A direct injector saves nothing of what it compiles. -/
theorem directCode_leaves (key : Key) : (do
    let binding ← directBinding g key
    Compile.unitOf g (some (directScope g)) binding : Work Code).Leaves fs := by
  have hbinding : (directBinding g key).Leaves fs := by
    unfold directBinding
    cases g.get? key with
    | some b => exact .pure trivial
    | none =>
      refine (Demand.infer_leaves key).bind fun plan _ => ?_
      exact (Classes.keep_leaves.weave g.pointcuts plan).bind fun _ _ => .pure trivial
  refine hbinding.bind fun b _ => Compile.unitOf_leaves (fun scopeOf hscope fs key => ?_) b
  obtain rfl := Option.some.inj hscope
  exact directScope_leaves key

end Resolve

/-- Building a module changes no file. -/
theorem Graph.ofModule_leaves (statements : List ModuleStatement) :
    (Graph.ofModule statements).Leaves fs := .of fun site => by
  have hreached : Reached site (Graph.ofModule statements site).2 :=
    (Graph.runAll_accounts .empty statements site .start).1
  generalize (Graph.ofModule statements site).2 = after at hreached ⊢
  induction hreached with
  | start => rfl
  | looked className _ ih => exact (Classes.find?_files className _ ih).1
  | built tree _ ih => exact ih

namespace Weave

theorem graph_leaves (g : Graph) : (graph g).Leaves fs := graph_keeps Classes.keep_leaves g

end Weave

namespace Prepare

theorem nullObject_grows (dir interface : String) : (nullObject dir interface).Grows fs := by
  have hdeclared : (Classes.nullObject interface).Grows fs := Leaves.grows fun _ =>
    (Classes.Keep.walkFuel.bind fun fuel _ =>
      Classes.keep_leaves.declaredTo fuel interface []).bind fun _ _ => .pure trivial
  have hregister (c : ClassDecl) : (Work.modifyRegistry (·.register c)).Grows fs :=
    Leaves.grows fun _ => .of fun _ => rfl
  refine hdeclared.bind fun c _ => (Batch.onFiles_grows (Files.write_grows _ _)).bind fun _ _ => ?_
  exact (hregister c.toClass).bind fun _ _ => Leaves.grows fun _ => Plan.ofClass_leaves c.name

theorem nullObjects_grows (dir : String) (g : Graph) : (nullObjects dir g).Grows fs :=
  Maintains.foldlM trivial fun n _ _ _ => (nullObject_grows dir n.2).bind fun _ _ => .pure trivial

/-- Preparing a graph saves the classes of null objects. -/
theorem graph_grows (dir : String) (g : Graph) : (graph dir g).Grows fs := by
  refine (nullObjects_grows dir g).bind fun g _ => ?_
  refine (Leaves.grows fun _ => Weave.graph_leaves g).bind fun woven _ => ?_
  obtain ⟨woven,failure⟩ := woven
  cases failure with
  | some f => exact .throw f
  | none => exact .pure trivial

end Prepare

namespace Batch

theorem make_grows (dir : String) (g : Graph) : (make dir g).Grows fs := by
  have hensure : (onFiles (Files.ensureDirectory dir)).Grows fs :=
    onFiles_grows fun fs => by
      rw [Files.ensureDirectory_run]
      exact (Files.makeDirectory_roomier dir fs).grows
  exact hensure.bind fun _ _ => (Prepare.graph_grows dir g).bind fun _ _ => .pure trivial

theorem compileUnits_grows (b : Batch) : b.compileUnits.Grows fs :=
  (log_grows _).bind fun _ _ => compileKeys_grows _

end Batch
end Wiring
