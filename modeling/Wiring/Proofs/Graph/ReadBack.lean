import Mathlib
import Wiring.Compile.Save
import Wiring.Proofs.Graph.JsonForm
import Wiring.Proofs.Site

/-!
# Saved graphs are read back

The text of a graph is there exactly if no value of the graph reaches a native that is not known by
its bytes. Wherever it is read, it gives a graph with the same bindings, arguments, pointcuts and
maps in the same order, and copies of the values in the same places.
-/
namespace Wiring

open Heap (Grown Copied)

namespace Judgment

/-- Answers alone. -/
def plain : Judgment Id Unit where
  later _ _ := True
  trans _ _ := trivial
  gives _ x P := P () x.run
  pure h := h
  bind h hf := hf () _ trivial h

/-- Answers with a heap that only grows. -/
def growing : Judgment (StateM Heap) Heap where
  later := Grown
  trans := .trans
  gives h x P := Grown h (x.run h).2 ∧ P (x.run h).2 (x.run h).1
  pure h := ⟨.refl _,h⟩
  bind h hf := by
    obtain ⟨hgrown,hanswer⟩ := h
    obtain ⟨hnext,hlast⟩ := hf _ _ hgrown hanswer
    exact ⟨hgrown.trans hnext,hlast⟩

end Judgment

namespace Container

/-- A graph is written out value by value. -/
theorem alike_unfold (c : Container Value) (h : Heap) {P : Value → Prop}
    (hP : ∀ v ∈ c.values, P v) : c.Alike (fun v t => P v ∧ h.unfold v = t) (c.unfold h) :=
  Judgment.relates_container (J := .plain) (T := fun _ v t => P v ∧ h.unfold v = t)
    (fun _ _ _ _ _ h => h) (w := ()) (fun v hv _ _ => ⟨hP v hv,rfl⟩) () trivial

/-- A graph is built tree by tree. -/
theorem alike_build (c : Container Tree) (h : Heap) :
    Grown h (c.build h).2 ∧
      c.Alike (fun t v => Tree.Built h (c.build h).2 none v t) (c.build h).1 := by
  refine Judgment.relates_container (J := .growing) (T := fun h' t v => Tree.Built h h' none v t)
    (fun _ _ _ _ hg hb => hb.widen (.refl h) hg) (w := h) (fun t _ => ?_) h (.refl h)
  intro h' hg
  have hb := Tree.built_build none t h'
  exact ⟨hb.grown,hb.widen hg (.refl _)⟩

/-- What is built of a graph that was written out is a graph of copies. -/
theorem alike_copies {c : Container Value} {h : Heap} (hc : ∀ v ∈ c.values, h.Literal v)
    (base : Heap) :
    c.Alike (Copied none h base ((c.unfold h).build base).2) ((c.unfold h).build base).1 :=
  (c.alike_unfold h hc).comp
    (fun _ _ _ hv hb => hv.1.copied (hv.2 ▸ hb)) ((c.unfold h).alike_build base).2

/-- The trees of a graph are those of its values. -/
theorem forall_values_unfold {c : Container Value} {h : Heap} {P : Tree → Prop} :
    (∀ t ∈ (c.unfold h).values, P t) ↔ ∀ v ∈ c.values, P (h.unfold v) := by
  have hvalues := (c.alike_unfold h (P := fun _ => True) fun _ _ => trivial).values
  constructor
  · intro hP v hv
    obtain ⟨t,ht,_,rfl⟩ := mem_of_forall₂ hvalues.flip hv
    exact hP _ ht
  · intro hP t ht
    obtain ⟨v,hv,_,rfl⟩ := mem_of_forall₂ hvalues ht
    exact hP v hv

end Container

namespace Save

/-- The text of a graph is that of its JSON form, if it has one. -/
theorem graphText_run (g : Graph) (site : Site) : Save.graphText g site =
    match (g.unfold site.heap).toJson? with
    | some j => (.ok j.compact,site)
    | none => (.error .malformed,site) := by
  have hheap : Work.heap site = (.ok site.heap,site) := rfl
  unfold Save.graphText
  rw [Work.run_bind hheap]
  cases hj : (g.unfold site.heap).toJson? with
  | none => exact Work.run_bind_error _ rfl
  | some j => rfl

/-- A text that holds the JSON form of a graph is read as what is built of the graph. -/
theorem readGraph_run {text : String} {c : Container Tree}
    (h : (Json.read? text).bind Container.ofJson? = some c) (site : Site) :
    Save.readGraph text site =
      (.ok (c.build site.heap).1,{ site with heap := (c.build site.heap).2 }) := by
  have hdecode : (Work.decode text Container.ofJson?) site = (.ok c,site) := by
    unfold Work.decode
    rw [h]
    rfl
  unfold Save.readGraph
  rw [Work.run_bind hdecode]
  rfl

end Save

/-- A graph without values that contain themselves cannot be saved exactly if one of them reaches
a native that is not known by its bytes. If its values are literals whose floating point numbers
keep their value in a text, and its JSON form does not nest too deep, then its text is read
everywhere, and what is read is the graph over copies of its values, with detached handles. -/
theorem saved_graphs_are_read_back (g : Graph) (site : Site) :
    ((∀ v ∈ g.values, site.heap.Acyclic v) →
      ((∃ f, (Save.graphText g site).1 = .error f) ↔
        ∃ v ∈ g.values, ∃ ref, site.heap.Reaches v (.native ref) ∧
          ∀ bytes, site.heap.native? ref ≠ some (.blob bytes))) ∧
    (g.Tabled → (∀ v ∈ g.values, site.heap.Savable v) →
      (∀ j, (g.unfold site.heap).toJson? = some j → j.nesting < Json.depthLimit) →
      ∃ text, Save.graphText g site = (.ok text,site) ∧
        ∀ reader : Site, ∃ copy heap,
          Save.readGraph text reader = (.ok copy,{ reader with heap }) ∧
          Grown reader.heap heap ∧
          g.Alike (Copied none site.heap reader.heap heap) copy) := by
  constructor
  · intro hacyclic
    have hfails : (∃ f, (Save.graphText g site).1 = .error f) ↔
        ¬(g.unfold site.heap).toJson?.isSome := by
      rw [Save.graphText_run]
      cases (g.unfold site.heap).toJson? <;> simp
    rw [hfails,Container.toJson_isSome,Container.forall_values_unfold,not_forall]
    refine exists_congr fun v => ?_
    rw [Classical.not_imp]
    refine and_congr_right fun hv => ?_
    rw [← (hacyclic v hv).toJson_eq_none,Option.not_isSome_iff_eq_none]
  · intro htabled hsavable hnesting
    have hliteral : ∀ v ∈ g.values, site.heap.Literal v := fun v hv => (hsavable v hv).literal
    have hsome : (g.unfold site.heap).toJson?.isSome := by
      rw [Container.toJson_isSome,Container.forall_values_unfold]
      intro v hv
      exact Option.isSome_iff_exists.mpr (hsavable v hv).toJson
    obtain ⟨j,hj⟩ := Option.isSome_iff_exists.mp hsome
    have hexact : j.Exact := by
      refine Container.exact_toJson hj ?_
      rw [Container.forall_values_unfold]
      exact fun v hv => (hsavable v hv).floatsFit
    have hfits : j.Fits := ⟨hexact,hnesting j hj⟩
    have hread : (Json.read? j.compact).bind Container.ofJson? = some (g.unfold site.heap) := by
      rw [hfits.read_compact,Option.bind_some]
      refine Container.ofJson_toJson hj ?_ ?_ hfits
      · exact (g.alike_unfold site.heap (P := fun _ => True) fun _ _ => trivial).tabled htabled
      · rw [Container.forall_values_unfold]
        exact fun v hv => (hliteral v hv).unfold
    refine ⟨j.compact,?_,fun reader => ?_⟩
    · rw [Save.graphText_run,hj]
    · exact ⟨_,_,Save.readGraph_run hread reader,
        ((g.unfold site.heap).alike_build reader.heap).1,
        Container.alike_copies hliteral reader.heap⟩

/-- An object that holds an injector, and natives with and without bytes. -/
def mailHeap : Heap where
  objects := #[[("from'",.text "a\nb"),("by",.injector (some ⟨3⟩))]]
  natives := #[.blob [0,255],.foreign none]

def half : Binary64 := .ofBits 0x3fe0000000000000

/-- A list in which a text is a key next to the integer that it looks like. -/
def mailParts : Value :=
  .array ⟨[(.int 1,.object ⟨0,"App\\Mailer"⟩),(.text "1",.float half),
    (.text "hash",.native ⟨0,"Hash"⟩)],2⟩

def mailPlan : Plan Value where
  className := "App\\Mailer"
  arguments := [⟨⟨"Clock-*"⟩,⟨"App\\Mailer","__construct","clock"⟩,some .null,none,none⟩]
  setters := [⟨"setLog",[⟨⟨"Log-*"⟩,⟨"App\\Mailer","setLog","log"⟩,none,some mailParts,
    some "Log"⟩],true⟩]
  postConstruct := some "open"
  shared := true
  advice := [("send",["App\\Timer","App\\Retry"])]

def mailGraph : Graph where
  bindings := [(⟨"-parts"⟩,.literal mailParts),(⟨"Mailer-*"⟩,.construction mailPlan),
    (⟨"Clock-*"⟩,.provider mailPlan false (some "mail")),(⟨"Log-*"⟩,.nullObject "Log")]
  pointcuts := [⟨.subclassesOf "App\\Mailer",.startsWith "send",["App\\Timer"]⟩]
  maps := [("Log",⟨[(.text "0",⟨"Log-@0"⟩),(.int 0,⟨"Log-@s0"⟩)]⟩)]

theorem half_fits : Json.FloatFits half := by
  have hchars : Json.floatChars half = ['0','.','5'] := by decide +kernel
  have hread : Json.readNumber ['0','.','5'] = some ((Decimal.approximate ⟨5,-1⟩).elim .unreadable
      fun x => .float (.ofMagnitude false x.magnitude),[]) := rfl
  have hvalue : Decimal.approximate ⟨5,-1⟩ = some half := by decide +kernel
  have hpositive : Binary64.ofMagnitude false half.magnitude = half := by decide +kernel
  rw [Json.FloatFits,hchars,hread,hvalue,Option.elim_some,hpositive]

theorem mailParts_savable : mailHeap.Savable mailParts := by
  have hliteral : mailHeap.Literal mailParts := by
    refine Heap.literal_of_held rfl ?_
    rintro u (⟨hm⟩ | _ | _)
    simp only [List.mem_cons,Prod.mk.injEq,List.not_mem_nil,or_false] at hm
    rcases hm with ⟨_,rfl⟩ | ⟨_,rfl⟩ | ⟨_,rfl⟩
    · refine Heap.literal_of_held ⟨by decide,by decide⟩ ?_
      rintro u (_ | ⟨hm⟩ | _)
      have hm' : (_,u) ∈ [("from'",Value.text "a\nb"),("by",Value.injector (some ⟨3⟩))] := hm
      simp only [List.mem_cons,Prod.mk.injEq,List.not_mem_nil,or_false] at hm'
      rcases hm' with ⟨_,rfl⟩ | ⟨_,rfl⟩
      · exact Heap.literal_of_held trivial fun u hu => by cases hu
      · exact Heap.literal_of_held trivial fun u hu => by cases hu
    · exact Heap.literal_of_held trivial fun u hu => by cases hu
    · refine Heap.literal_of_held ⟨[0,255],rfl⟩ fun u hu => ?_
      rcases hu with _ | _ | hs
      cases hs
  refine hliteral.savable fun x hx => ?_
  have hx' : Tree.float x ∈ [mailHeap.unfold mailParts,
    mailHeap.unfold (.object ⟨0,"App\\Mailer"⟩),.text "a\nb",.injector,.float half,
    .blob "Hash" [0,255]] := hx
  have harray : Tree.float x ≠ mailHeap.unfold mailParts := fun h => by cases h
  have hobject : Tree.float x ≠ mailHeap.unfold (.object ⟨0,"App\\Mailer"⟩) :=
    fun h => by cases h
  have hhalf : x = half := by simpa [harray,hobject] using hx'
  exact hhalf ▸ half_fits

theorem mailGraph_tabled : mailGraph.Tabled where
  bindings := by decide
  maps := by decide
  advice := by decide

theorem mailGraph_nesting (j : Json) (hj : (mailGraph.unfold mailHeap).toJson? = some j) :
    j.nesting < Json.depthLimit := by
  have hform : ((mailGraph.unfold mailHeap).toJson?).all (·.nesting < Json.depthLimit) := by
    decide +kernel
  rw [hj] at hform
  simpa using hform

theorem saved_graphs_are_read_back_sample :
    (∃ text, Save.graphText mailGraph { heap := mailHeap } = (.ok text,{ heap := mailHeap }) ∧
      ∃ copy heap, Save.readGraph text {} = (.ok copy,{ heap }) ∧
        mailGraph.Alike (Copied none mailHeap {} heap) copy) ∧
    ∃ f, (Save.graphText ⟨[(⟨"Socket-*"⟩,.literal (.native ⟨1,"Socket"⟩))],[],[]⟩
      { heap := mailHeap }).1 = .error f := by
  constructor
  · have hliteral : mailHeap.Literal .null := Heap.literal_of_held trivial fun u hu => by cases hu
    have hnull : mailHeap.Savable .null := hliteral.savable fun x hx => by
      cases List.mem_singleton.mp hx
    have hsavable : ∀ v ∈ mailGraph.values, mailHeap.Savable v := by
      show ∀ v ∈ [mailParts,.null,mailParts,.null,mailParts],_
      simp only [List.forall_mem_cons]
      exact ⟨mailParts_savable,hnull,mailParts_savable,hnull,mailParts_savable,
        fun _ h => by cases h⟩
    obtain ⟨text,hsaved,hread⟩ := (saved_graphs_are_read_back mailGraph { heap := mailHeap }).2
      mailGraph_tabled hsavable mailGraph_nesting
    obtain ⟨copy,heap,hcopy,_,halike⟩ := hread {}
    exact ⟨text,hsaved,copy,heap,hcopy,halike⟩
  · refine ((saved_graphs_are_read_back _ { heap := mailHeap }).1 fun v hv => ?_).mpr ?_
    · obtain rfl := List.mem_singleton.mp hv
      refine Heap.acyclic_of_held fun u hu => ?_
      rcases hu with _ | _ | hs
      cases hs
    · refine ⟨_,List.mem_singleton_self _,⟨1,"Socket"⟩,.refl,fun bytes hb => ?_⟩
      cases hb

end Wiring
