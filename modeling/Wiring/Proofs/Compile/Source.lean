import Mathlib
import Wiring.Compile.Source
import Wiring.Injector.Resolve
import Wiring.Proofs.Results
import Wiring.Proofs.Script.Calls
import Wiring.Proofs.Script.Reparsing
import Wiring.Proofs.Site
import Wiring.Proofs.Text.Base64
import Wiring.Proofs.Value.Literal

/-!
# Values survive as source

A value has a source unless it reaches a native with neither bytes nor a source, and the
first of these, depth first, is what the failure names. The text of the source is read
back, and running it builds the tree of the value again.
-/
namespace Wiring

open Script (Expr isNameText)

namespace Tree

/-- The type of a native with neither bytes nor a source. -/
def bareType? : Tree → Option String
  | foreign typeName none => some typeName
  | _ => none

/-- The types of the natives with neither bytes nor a source, depth first. -/
def bareNatives (t : Tree) : List String := t.nodes.filterMap bareType?

/-- An answer if there are no bare natives, else a failure that names the first. -/
def Outcome {α : Type} (bare : List String) (answer : Except Failure α) : Prop :=
  match bare with
  | [] => ∃ a, answer = .ok a
  | name :: _ => answer = .error (.invalidInstance name)

theorem Outcome.map {α β : Type} {bare : List String} {answer : Except Failure α} (f : α → β)
    (h : Outcome bare answer) : Outcome bare (answer >>= fun a => pure (f a)) := by
  cases bare with
  | nil =>
    obtain ⟨a,rfl⟩ := h
    exact ⟨f a,rfl⟩
  | cons name rest =>
    have he : answer = .error (.invalidInstance name) := h
    rw [he]
    rfl

/-- Rows are done one after another, so the first failure is that of the first row with
one. -/
theorem Outcome.row {α β γ : Type} {bare more : List String} {first : Except Failure α}
    {rest : Except Failure β} (f : α → β → γ) (h : Outcome bare first) (hr : Outcome more rest) :
    Outcome (bare ++ more) (first >>= fun a => rest >>= fun b => pure (f a b)) := by
  cases bare with
  | nil =>
    obtain ⟨a,rfl⟩ := h
    exact hr.map (f a)
  | cons name others =>
    have he : first = .error (.invalidInstance name) := h
    rw [he]
    rfl

mutual

theorem toExpr_outcome : ∀ t : Tree, Outcome t.bareNatives t.toExpr
  | null | bool _ | int _ | float _ | text _ | blob _ _ | injector => by
    simp only [toExpr]
    exact ⟨_,rfl⟩
  | array ⟨entries,next⟩ => by
    simp only [bareNatives,nodes,toExpr]
    exact (entriesToExpr_outcome entries).map _
  | object className properties => by
    simp only [bareNatives,nodes,toExpr]
    exact (propertiesToExpr_outcome properties).map _
  | foreign typeName none => by
    simp only [bareNatives,nodes,toExpr]
    rfl
  | foreign typeName (some source) => by
    simp only [bareNatives,nodes,toExpr]
    exact (toExpr_outcome source).map _

theorem entriesToExpr_outcome : ∀ entries : List (ArrayKey × Tree),
    Outcome ((entriesNodes entries).filterMap bareType?) (entriesToExpr entries)
  | [] => by
    simp only [entriesNodes,entriesToExpr]
    exact ⟨_,rfl⟩
  | (key,t) :: rest => by
    simp only [entriesNodes,entriesToExpr,List.filterMap_append]
    exact (toExpr_outcome t).row _ (entriesToExpr_outcome rest)

theorem propertiesToExpr_outcome : ∀ properties : List (String × Tree),
    Outcome ((propertiesNodes properties).filterMap bareType?) (propertiesToExpr properties)
  | [] => by
    simp only [propertiesNodes,propertiesToExpr]
    exact ⟨_,rfl⟩
  | (name,t) :: rest => by
    simp only [propertiesNodes,propertiesToExpr,List.filterMap_append]
    exact (toExpr_outcome t).row _ (propertiesToExpr_outcome rest)

end

/-- What a literal shows is a literal. -/
theorem Literal.of_node {t : Tree} (ht : t.Literal) : ∀ u ∈ t.nodes, u.Literal := by
  induction ht with
  | @array entries next hw h ih =>
    intro u hu
    simp only [nodes,List.mem_cons,mem_entriesNodes] at hu
    rcases hu with rfl | ⟨e,he,hu⟩
    · exact .array hw h
    · exact ih e he u hu
  | @object properties className hn h ih =>
    intro u hu
    simp only [nodes,List.mem_cons,mem_propertiesNodes] at hu
    rcases hu with rfl | ⟨p,hp,hu⟩
    · exact .object className hn h
    · exact ih p hp u hu
  | null => exact fun u hu => List.mem_singleton.mp hu ▸ .null
  | bool b => exact fun u hu => List.mem_singleton.mp hu ▸ .bool b
  | int i => exact fun u hu => List.mem_singleton.mp hu ▸ .int i
  | float x => exact fun u hu => List.mem_singleton.mp hu ▸ .float x
  | text s => exact fun u hu => List.mem_singleton.mp hu ▸ .text s
  | blob typeName bytes => exact fun u hu => List.mem_singleton.mp hu ▸ .blob typeName bytes
  | injector => exact fun u hu => List.mem_singleton.mp hu ▸ .injector

theorem Literal.bareNatives_eq {t : Tree} (ht : t.Literal) : t.bareNatives = [] := by
  refine List.filterMap_eq_nil_iff.mpr fun u hu => ?_
  cases ht.of_node u hu <;> rfl

end Tree

namespace Heap

variable {h : Heap}

/-- A native with neither bytes nor a source. -/
def Bare (h : Heap) (ref : NativeRef) : Prop :=
  match h.native? ref with
  | some (.blob _) => False
  | some (.foreign (some _)) => False
  | _ => True

theorem Acyclic.bareType_unfold {v : Value} (ha : h.Acyclic v) (name : String) :
    (h.unfold v).bareType? = some name ↔
      ∃ ref, v = .native ref ∧ h.Bare ref ∧ ref.typeName = name := by
  cases v with
  | native ref =>
    rw [ha.unfold_native]
    unfold unfoldNative Bare
    cases hn : h.native? ref with
    | none => simp [Tree.bareType?,hn]
    | some native =>
      cases native with
      | blob bytes => simp [Tree.bareType?,hn]
      | point p q => simp [Tree.bareType?,hn]
      | foreign source =>
        cases source with
        | none => simp [Tree.bareType?,hn]
        | some value => simp [Tree.bareType?,hn]
  | array items =>
    obtain ⟨entries,next⟩ := items
    rw [unfold_array]
    simp [Tree.bareType?]
  | object ref =>
    rw [ha.unfold_object]
    simp [Tree.bareType?]
  | null | bool | int | float | text | injector =>
    constructor
    · exact fun hm => by cases hm
    · rintro ⟨ref,hv,_⟩
      cases hv

/-- The bare natives of the tree of a value are those that the value reaches. -/
theorem Acyclic.mem_bareNatives {v : Value} (ha : h.Acyclic v) (name : String) :
    name ∈ (h.unfold v).bareNatives ↔
      ∃ ref, h.Reaches v (.native ref) ∧ h.Bare ref ∧ ref.typeName = name := by
  unfold Tree.bareNatives
  rw [List.mem_filterMap]
  constructor
  · rintro ⟨t,ht,hname⟩
    obtain ⟨u,hu,rfl⟩ := (ha.mem_nodes t).mp ht
    obtain ⟨ref,rfl,hb,hn⟩ := ((ha.of_reaches hu).bareType_unfold name).mp hname
    exact ⟨ref,hu,hb,hn⟩
  · rintro ⟨ref,hu,hb,hn⟩
    refine ⟨_,(ha.mem_nodes _).mpr ⟨_,hu,rfl⟩,?_⟩
    exact ((ha.of_reaches hu).bareType_unfold name).mpr ⟨ref,rfl,hb,hn⟩

end Heap

namespace Tree

/-- The type of a native that is made again from a source. -/
def sourceType? : Tree → Option String
  | foreign typeName (some _) => some typeName
  | _ => none

/-- The types of the natives that are made again from a source are names. -/
def SourcesNamed (nodes : List Tree) : Prop :=
  ∀ t ∈ nodes, ∀ name ∈ t.sourceType?, isNameText name = true

theorem SourcesNamed.append {ts us : List Tree} (h : SourcesNamed (ts ++ us)) :
    SourcesNamed ts ∧ SourcesNamed us :=
  ⟨fun t ht => h t (List.mem_append_left _ ht),fun t ht => h t (List.mem_append_right _ ht)⟩

theorem SourcesNamed.tail {t : Tree} {ts : List Tree} (h : SourcesNamed (t :: ts)) :
    SourcesNamed ts := fun u hu => h u (List.mem_cons_of_mem _ hu)

open Script.Expr (list_reparsed_printable keyed_reparsed_printable callFunction_reparsed_printable
  construct_reparsed_printable)

mutual

/-- The source of a tree can be printed and read back, but for empty arrays with keys. -/
theorem toExpr_printable : ∀ (t : Tree) (e : Expr), t.toExpr = .ok e →
    SourcesNamed t.nodes → e.reparsed.printable = true
  | null, e, h, _ | bool _, e, h, _ | int _, e, h, _ | float _, e, h, _ | text _, e, h, _ => by
    simp only [toExpr,Except.ok.injEq] at h
    subst h
    rfl
  | array ⟨entries,next⟩, e, h, hn => by
    simp only [toExpr] at h
    simp only [nodes] at hn
    obtain ⟨items,hitems,h⟩ := bind_eq_ok.mp h
    have hp := entriesToExpr_printable entries items hitems hn.tail
    simp only [pure_ok,Except.ok.injEq] at h
    subst h
    split
    · refine list_reparsed_printable fun e he => ?_
      obtain ⟨d,hd,rfl⟩ := List.mem_map.mp he
      exact hp d hd
    · exact keyed_reparsed_printable hp
  | object className properties, e, h, hn => by
    simp only [toExpr] at h
    simp only [nodes] at hn
    obtain ⟨entries,hentries,h⟩ := bind_eq_ok.mp h
    have hp := propertiesToExpr_printable properties entries hentries
      hn.tail
    simp only [pure_ok,Except.ok.injEq] at h
    subst h
    refine callFunction_reparsed_printable (by decide) fun e he => ?_
    rcases List.mem_cons.mp he with rfl | he
    · rfl
    · obtain rfl := List.mem_singleton.mp he
      exact keyed_reparsed_printable hp
  | blob typeName bytes, e, h, _ => by
    simp only [toExpr,Except.ok.injEq] at h
    subst h
    refine callFunction_reparsed_printable (by decide) fun e he => ?_
    rcases List.mem_cons.mp he with rfl | he
    · rfl
    · obtain rfl := List.mem_singleton.mp he
      rfl
  | foreign typeName none, e, h, _ => by
    simp only [toExpr] at h
    cases h
  | foreign typeName (some source), e, h, hn => by
    simp only [toExpr] at h
    obtain ⟨arg,harg,h⟩ := bind_eq_ok.mp h
    simp only [nodes] at hn
    have hp := toExpr_printable source arg harg hn.tail
    simp only [pure_ok,Except.ok.injEq] at h
    subst h
    refine construct_reparsed_printable (hn _ List.mem_cons_self typeName rfl) fun e he => ?_
    obtain rfl := List.mem_singleton.mp he
    exact hp
  | injector, e, h, _ => by
    simp only [toExpr,Except.ok.injEq] at h
    subst h
    exact callFunction_reparsed_printable (by decide) fun e he => by cases he

theorem entriesToExpr_printable : ∀ (entries : List (ArrayKey × Tree)) (es : List (ArrayKey × Expr)),
    entriesToExpr entries = .ok es →
    SourcesNamed (entriesNodes entries) →
    ∀ e ∈ es, e.2.reparsed.printable = true
  | [], es, h, _ => by
    simp only [entriesToExpr,Except.ok.injEq] at h
    subst h
    exact fun e he => by cases he
  | (key,t) :: rest, es, h, hn => by
    simp only [entriesToExpr] at h
    obtain ⟨first,hfirst,h⟩ := bind_eq_ok.mp h
    obtain ⟨more,hmore,h⟩ := bind_eq_ok.mp h
    simp only [pure_ok,Except.ok.injEq] at h
    simp only [entriesNodes] at hn
    subst h
    intro e he
    rcases List.mem_cons.mp he with rfl | he
    · exact toExpr_printable t first hfirst hn.append.1
    · exact entriesToExpr_printable rest more hmore hn.append.2 e he

theorem propertiesToExpr_printable : ∀ (properties : List (String × Tree))
    (es : List (ArrayKey × Expr)), propertiesToExpr properties = .ok es →
    SourcesNamed (propertiesNodes properties) →
    ∀ e ∈ es, e.2.reparsed.printable = true
  | [], es, h, _ => by
    simp only [propertiesToExpr,Except.ok.injEq] at h
    subst h
    exact fun e he => by cases he
  | (name,t) :: rest, es, h, hn => by
    simp only [propertiesToExpr] at h
    obtain ⟨first,hfirst,h⟩ := bind_eq_ok.mp h
    obtain ⟨more,hmore,h⟩ := bind_eq_ok.mp h
    simp only [pure_ok,Except.ok.injEq] at h
    simp only [propertiesNodes] at hn
    subst h
    intro e he
    rcases List.mem_cons.mp he with rfl | he
    · exact toExpr_printable t first hfirst hn.append.1
    · exact propertiesToExpr_printable rest more hmore hn.append.2 e he

end

/-- The type of a native that is made from its bytes. -/
def blobType? : Tree → Option String
  | blob typeName _ => some typeName
  | _ => none

/-- No type of a native that is made from its bytes has a decoder. -/
def Undecoded (decoders : Table String Decoder) (nodes : List Tree) : Prop :=
  ∀ t ∈ nodes, ∀ name ∈ t.blobType?, decoders.find? name = none

theorem Undecoded.append {decoders : Table String Decoder} {ts us : List Tree}
    (h : Undecoded decoders (ts ++ us)) : Undecoded decoders ts ∧ Undecoded decoders us :=
  ⟨fun t ht => h t (List.mem_append_left _ ht),fun t ht => h t (List.mem_append_right _ ht)⟩

theorem Undecoded.tail {decoders : Table String Decoder} {t : Tree} {ts : List Tree}
    (h : Undecoded decoders (t :: ts)) : Undecoded decoders ts :=
  fun u hu => h u (List.mem_cons_of_mem _ hu)

theorem Literal.sourcesNamed {t : Tree} (ht : t.Literal) : SourcesNamed t.nodes := by
  intro u hu name hname
  cases ht.of_node u hu <;> cases hname

end Tree

/-- The same world with another heap. -/
def World.withHeap (w : World) (h : Heap) : World := { w with site := { w.site with heap := h } }

namespace Script

/-- Surroundings whose injector is held by the handle, and whose objects and natives are
made in the heap of the world. What they pull, supply or construct may be anything. -/
structure MakesValues (s : Surroundings (StateM World)) (handle : Handle) : Prop where
  injector : s.injector = pure (.injector handle)
  restore : ∀ className properties, s.restore className properties =
    (Value.object <$> Objects.newObject className properties : Act Value)
  decode : ∀ typeName bytes, s.decode typeName bytes =
    Act.onSite (Classes.decodeNative typeName bytes)

theorem surroundings_makesValues (run : RunKey) (id : InjectorId) :
    MakesValues (Resolve.surroundings run id) (some id) :=
  ⟨rfl,fun _ _ => rfl,fun _ _ => rfl⟩

variable {s : Surroundings (StateM World)} {unit : String} {handle : Handle}

theorem run_bind {α β : Type} {a : Run (StateM World) α} {f : α → Run (StateM World) β}
    {l l' : Locals} {w w' : World} {x : α} (h : a l w = (.ok (x,l'),w')) :
    (a >>= f) l w = f x l' w' := by
  simp only [bind,StateT.bind,ExceptT.bind,ExceptT.mk,h]
  rfl

theorem run_lift {α : Type} {a : Act α} {w w' : World} {x : α} (h : a w = (.ok x,w')) (l : Locals) :
    (liftM a : Run (StateM World) α) l w = (.ok (x,l),w') := by
  simp only [liftM,monadLift,MonadLift.monadLift,StateT.lift,bind,ExceptT.bind,ExceptT.mk,
    StateT.bind,h]
  rfl

theorem decodeNative_run {typeName : String} {w : World}
    (h : w.site.registry.decoders.find? typeName = none) (bytes : List UInt8) :
    Act.onSite (Classes.decodeNative typeName bytes) w =
      (.ok (.native (w.site.heap.newNative typeName (.blob bytes)).1),
        w.withHeap (w.site.heap.newNative typeName (.blob bytes)).2) := by
  have hsite : Classes.decodeNative typeName bytes w.site =
      Work.build none (.blob typeName bytes) w.site := by
    have hregistry : Work.registry w.site = (.ok w.site.registry,w.site) := rfl
    unfold Classes.decodeNative
    rw [Work.run_bind hregistry,h]
  have hworld : Act.onSite (Classes.decodeNative typeName bytes) w =
      ((Classes.decodeNative typeName bytes w.site).1,
        { w with site := (Classes.decodeNative typeName bytes w.site).2 }) := rfl
  rw [hworld,hsite]
  simp only [Work.build,Work.onHeap,Tree.build]
  rfl

/-- An expression makes a value and leaves the variables as they are. -/
def Makes (s : Surroundings (StateM World)) (unit : String) (e : Expr) (w : World) (v : Value)
    (h : Heap) : Prop := ∀ l, eval s unit e l w = (.ok (v,l),w.withHeap h)

/-- The source of a tree builds it, whatever the heap is. -/
def Rebuilds (s : Surroundings (StateM World)) (unit : String) (handle : Handle) (t : Tree) : Prop :=
  ∀ e, t.toExpr = .ok e → ∀ w : World, Tree.Undecoded w.site.registry.decoders t.nodes →
    Makes s unit e w (t.build handle w.site.heap).1 (t.build handle w.site.heap).2

theorem rebuilds_entries {entries : List (ArrayKey × Tree)}
    (ih : ∀ e ∈ entries, Rebuilds s unit handle e.2) : ∀ items, Tree.entriesToExpr entries = .ok items →
    ∀ w : World, Tree.Undecoded w.site.registry.decoders (Tree.entriesNodes entries) → ∀ l,
      evalEntries s unit items l w = (.ok ((Tree.buildEntries handle entries w.site.heap).1,l),
        w.withHeap (Tree.buildEntries handle entries w.site.heap).2) ∧
      evalAll s unit (items.map Prod.snd) l w =
        (.ok ((Tree.buildEntries handle entries w.site.heap).1.map Prod.snd,l),
          w.withHeap (Tree.buildEntries handle entries w.site.heap).2) := by
  induction entries with
  | nil =>
    intro items h w _ l
    simp only [Tree.entriesToExpr,Except.ok.injEq] at h
    subst h
    simp only [List.map_nil,evalEntries,evalAll,Tree.buildEntries]
    exact ⟨rfl,rfl⟩
  | cons entry rest ihRest =>
    obtain ⟨key,t⟩ := entry
    intro items h w hd l
    simp only [Tree.entriesToExpr] at h
    obtain ⟨first,hfirst,h⟩ := bind_eq_ok.mp h
    obtain ⟨more,hmore,h⟩ := bind_eq_ok.mp h
    simp only [pure_ok,Except.ok.injEq] at h
    simp only [Tree.entriesNodes] at hd
    subst h
    have hValue := ih _ List.mem_cons_self first hfirst w hd.append.1 l
    obtain ⟨hEntries,hAll⟩ := ihRest (fun e he => ih e (List.mem_cons_of_mem _ he)) more hmore
      (w.withHeap (t.build handle w.site.heap).2) hd.append.2 l
    simp only [List.map_cons,evalEntries,evalAll,Tree.buildEntries]
    constructor
    · rw [run_bind hValue,run_bind hEntries]
      rfl
    · rw [run_bind hValue,run_bind hAll]
      rfl

theorem rebuilds_properties {properties : List (String × Tree)}
    (ih : ∀ p ∈ properties, Rebuilds s unit handle p.2) : ∀ items,
    Tree.propertiesToExpr properties = .ok items →
    ∀ w : World, Tree.Undecoded w.site.registry.decoders (Tree.propertiesNodes properties) → ∀ l,
      evalEntries s unit items l w =
        (.ok ((Tree.buildProperties handle properties w.site.heap).1.map
            fun p => (ArrayKey.text p.1,p.2),l),
          w.withHeap (Tree.buildProperties handle properties w.site.heap).2) := by
  induction properties with
  | nil =>
    intro items h w _ l
    simp only [Tree.propertiesToExpr,Except.ok.injEq] at h
    subst h
    simp only [evalEntries,Tree.buildProperties]
    rfl
  | cons property rest ihRest =>
    obtain ⟨name,t⟩ := property
    intro items h w hd l
    simp only [Tree.propertiesToExpr] at h
    obtain ⟨first,hfirst,h⟩ := bind_eq_ok.mp h
    obtain ⟨more,hmore,h⟩ := bind_eq_ok.mp h
    simp only [pure_ok,Except.ok.injEq] at h
    simp only [Tree.propertiesNodes] at hd
    subst h
    have hValue := ih _ List.mem_cons_self first hfirst w hd.append.1 l
    have hRest := ihRest (fun e he => ih e (List.mem_cons_of_mem _ he)) more hmore
      (w.withHeap (t.build handle w.site.heap).2) hd.append.2 l
    simp only [evalEntries,Tree.buildProperties]
    rw [run_bind hValue,run_bind hRest]
    rfl

theorem rebuilds (hs : MakesValues s handle) {t : Tree} (ht : t.Literal) :
    Rebuilds s unit handle t := by
  induction ht with
  | null | bool | int | float | text =>
    intro e h w _ l
    simp only [Tree.toExpr,Except.ok.injEq] at h
    subst h
    simp only [Expr.text,eval,Tree.build]
    rfl
  | injector =>
    intro e h w _ l
    simp only [Tree.toExpr,Except.ok.injEq] at h
    subst h
    have hcall : callFunction s unit "injector" [] = s.injector := rfl
    simp only [Expr.callFunction,eval,evalAll,pure_bind,hcall,hs.injector,Tree.build]
    rfl
  | blob typeName bytes =>
    intro e h w hd l
    simp only [Tree.toExpr,Except.ok.injEq] at h
    subst h
    have hnone : w.site.registry.decoders.find? typeName = none :=
      hd _ List.mem_cons_self typeName rfl
    simp only [Expr.callFunction,Expr.text,eval,evalAll,pure_bind,Literal.value,
      callFunction_unserialize,hs.decode,Tree.build]
    exact run_lift (decodeNative_run hnone bytes) l
  | @array entries next hw hl ih =>
    intro e h w hd l
    simp only [Tree.toExpr] at h
    obtain ⟨items,hitems,h⟩ := bind_eq_ok.mp h
    simp only [pure_ok,Except.ok.injEq] at h
    simp only [Tree.nodes] at hd
    have hkeys := (Tree.built_buildEntries handle entries w.site.heap).keys
    obtain ⟨hEntries,hAll⟩ := rebuilds_entries ih items hitems w hd.tail l
    subst h
    split
    next hlist =>
      have hlist' : Keyed.isListFrom 0 (Tree.buildEntries handle entries w.site.heap).1 = true := by
        rw [← Keyed.isListFrom_keys hkeys]
        exact hlist
      simp only [eval,Tree.build]
      rw [run_bind hAll,Value.list,Keyed.ofValues_of_isList hlist',hw.of_keys hkeys]
      rfl
    next =>
      simp only [eval,Tree.build]
      rw [run_bind hEntries]
      rw [hw.of_keys hkeys]
      rfl
  | @object properties className hn hl ih =>
    intro e h w hd l
    simp only [Tree.toExpr] at h
    obtain ⟨items,hitems,h⟩ := bind_eq_ok.mp h
    simp only [pure_ok,Except.ok.injEq] at h
    simp only [Tree.nodes] at hd
    have hRows := rebuilds_properties ih items hitems w hd.tail l
    have hkeys := (Tree.built_buildProperties handle properties w.site.heap).keys
    subst h
    simp only [Expr.callFunction,Expr.text,eval,evalAll,pure_bind,bind_assoc,Literal.value,Tree.build]
    have hnodup := hkeys ▸ hn
    rw [run_bind hRows]
    simp only [callFunction_restore,propertiesOf_texts,Table.ofRows_nodup hnodup,hs.restore]
    exact run_lift rfl l

theorem evaluate_makes {e : Expr} {w : World} {v : Value} {h : Heap}
    (hm : Makes s "<expression>" e w v h) : evaluate s e w = (.ok v,w.withHeap h) := by
  have hrun : evaluate s e w = (Prod.fst <$> eval s "<expression>" e [] : Act Value) w := rfl
  rw [hrun]
  simp only [Functor.map,ExceptT.map,ExceptT.mk,bind,StateT.bind,hm []]
  rfl

end Script

namespace Heap

variable {h : Heap}

theorem Literal.undecoded {v : Value} (hl : h.Literal v) {decoders : Table String Decoder}
    (hd : ∀ ref, h.Reaches v (.native ref) → decoders.find? ref.typeName = none) :
    Tree.Undecoded decoders (h.unfold v).nodes := by
  intro t ht name hname
  obtain ⟨u,hu,rfl⟩ := (hl.acyclic.mem_nodes t).mp ht
  have hshow := shown_value (h := h) h.depth u
  cases hshape : h.unfold u with
  | blob typeName bytes =>
    have hblob : h.unfoldTo h.depth u = .blob typeName bytes := hshape
    rw [hblob] at hshow
    obtain ⟨ref,rfl,htype,_⟩ := hshow
    rw [hshape] at hname
    obtain rfl := Option.some.inj hname
    exact htype ▸ hd ref hu
  | _ => simp [hshape,Tree.blobType?] at hname

/-- Cells that were made after a heap are not among those a literal of it reaches. -/
theorem Literal.not_made {v : Value} (hl : h.Literal v) {base : Heap} (hg : Grown h base)
    {handle : Handle} {u : Value} {c : Cell} (hu : h.Reaches v u) (hc : cellOf u = some c)
    {made : Value} (hm : Tree.Made base handle made) : cellOf made ≠ some c := by
  have hin := hl.reached u hu
  intro hmc
  cases u with
  | object ref =>
    obtain rfl := Option.some.inj hc
    have hlt : ref.index < h.objects.size := hin.1
    have hle := hg.objects_le
    cases made with
    | object other =>
      have hi : other.index = ref.index := by simpa [cellOf] using hmc
      have hfresh : base.objects.size ≤ other.index := hm
      omega
    | _ => simp [cellOf] at hmc
  | native ref =>
    obtain rfl := Option.some.inj hc
    obtain ⟨bytes,hb⟩ := hin
    have hlt := lt_of_native hb
    have hle := hg.natives_le
    cases made with
    | native other =>
      have hi : other.index = ref.index := by simpa [cellOf] using hmc
      have hfresh : base.natives.size ≤ other.index := hm
      omega
    | _ => simp [cellOf] at hmc
  | _ => cases hc

end Heap

open Heap (Grown)

/-- Literal values survive as source: the source of a literal is printed and read back,
and running it in any surroundings makes a value that unfolds to the same tree, in new
cells and with the handles of the surroundings; in the heap of the literal it is equal to
it and shares no cell with it. A value without cycles has no source exactly if it reaches
a native with neither bytes nor a source, and the failure names the first of them. -/
theorem literals_survive_source :
    (∀ (h : Heap) (v : Value), h.Literal v →
      ∃ e parsed, h.source v = .ok e ∧ Script.parseExpression e.print = .ok parsed ∧
        ∀ (s : Script.Surroundings (StateM World)) (handle : Handle) (w : World),
          Script.MakesValues s handle →
          (∀ ref, h.Reaches v (.native ref) → w.site.registry.decoders.find? ref.typeName = none) →
          ∃ r h', Script.evaluate s parsed w = (.ok r,w.withHeap h') ∧
            h'.unfold r = h.unfold v ∧ Grown w.site.heap h' ∧
            (∀ u, h'.Reaches r u → Tree.Made w.site.heap handle u) ∧
            (Grown h w.site.heap → h'.equal r v = true ∧
              ∀ a b c, h'.Reaches r a → h.Reaches v b → Heap.cellOf b = some c →
                Heap.cellOf a ≠ some c)) ∧
    (∀ (h : Heap) (v : Value), h.Acyclic v →
      ((∃ f, h.source v = .error f) ↔ ∃ ref, h.Reaches v (.native ref) ∧ h.Bare ref) ∧
      ∀ f, h.source v = .error f →
        ∃ name rest, (h.unfold v).bareNatives = name :: rest ∧ f = .invalidInstance name) := by
  constructor
  · intro h v hl
    have hTree := hl.unfold
    have hOutcome := Tree.toExpr_outcome (h.unfold v)
    rw [hTree.bareNatives_eq] at hOutcome
    obtain ⟨e,he⟩ := hOutcome
    refine ⟨e,e.reparsed,he,Script.parseExpression_reparsed
      (Tree.toExpr_printable _ e he hTree.sourcesNamed),fun s handle w hs hd => ?_⟩
    have hBuilt := Tree.built_build handle (h.unfold v) w.site.heap
    have hMakes : Script.Makes s "<expression>" e w _ _ :=
      Script.rebuilds hs hTree e he w (hl.undecoded hd)
    refine ⟨_,_,?_,?_,hBuilt.grown,fun u hu => hBuilt.made _ (.refl _) u hu,fun hg =>
      ⟨hl.equal_build hg hBuilt,fun a b c ha hb hc =>
        hl.not_made hg hb hc (hBuilt.made _ (.refl _) a ha)⟩⟩
    · rw [Script.evaluate_reparsed]
      exact Script.evaluate_makes hMakes
    · have hcount := hBuilt.count_le
      refine hBuilt.shows _ (.refl _) _ ?_
      unfold Heap.count at hcount
      unfold Heap.depth
      omega
  · intro h v ha
    have hOutcome := Tree.toExpr_outcome (h.unfold v)
    have hMem := ha.mem_bareNatives
    cases hb : (h.unfold v).bareNatives with
    | nil =>
      rw [hb] at hOutcome hMem
      obtain ⟨e,he⟩ := hOutcome
      have hok : h.source v = .ok e := he
      rw [hok]
      constructor
      · constructor
        · rintro ⟨f,hf⟩
          cases hf
        · rintro ⟨ref,hr,hbare⟩
          exact absurd ((hMem ref.typeName).mpr ⟨ref,hr,hbare,rfl⟩) List.not_mem_nil
      · intro f hf
        cases hf
    | cons name rest =>
      rw [hb] at hOutcome hMem
      have herror : h.source v = .error (.invalidInstance name) := hOutcome
      rw [herror]
      obtain ⟨ref,hr,hbare,_⟩ := (hMem name).mp List.mem_cons_self
      exact ⟨⟨fun _ => ⟨ref,hr,hbare⟩,fun _ => ⟨_,rfl⟩⟩,
        fun f hf => ⟨name,rest,rfl,(Except.error.inj hf).symm⟩⟩

/-- An object with a handle, a native with bytes and a native with nothing. -/
def sampleHeap : Heap where
  objects := #[[("to'",.text "a\nb"),("by",.injector none)]]
  natives := #[.blob [0,255],.foreign none]

def sampleLiteral : Value :=
  .array ⟨[(.int (-1),.object ⟨0,"App\\Mailer"⟩),(.text "1",.float .nan),
    (.text "hash",.native ⟨0,"Hash"⟩)],0⟩

theorem sampleLiteral_literal : sampleHeap.Literal sampleLiteral := by
  refine Heap.literal_of_held rfl ?_
  rintro u (⟨hm⟩ | _ | _)
  simp only [List.mem_cons,Prod.mk.injEq,List.not_mem_nil,or_false] at hm
  rcases hm with ⟨_,rfl⟩ | ⟨_,rfl⟩ | ⟨_,rfl⟩
  · refine Heap.literal_of_held ⟨by decide,by decide⟩ ?_
    rintro u (_ | ⟨hm⟩ | _)
    have hm' : (_,u) ∈ [("to'",Value.text "a\nb"),("by",Value.injector none)] := hm
    simp only [List.mem_cons,Prod.mk.injEq,List.not_mem_nil,or_false] at hm'
    rcases hm' with ⟨_,rfl⟩ | ⟨_,rfl⟩
    · exact Heap.literal_of_held trivial fun u hu => by cases hu
    · exact Heap.literal_of_held trivial fun u hu => by cases hu
  · exact Heap.literal_of_held trivial fun u hu => by cases hu
  · refine Heap.literal_of_held ⟨[0,255],rfl⟩ fun u hu => ?_
    rcases hu with _ | _ | hs
    cases hs

theorem literals_survive_source_sample :
    (∃ e parsed, sampleHeap.source sampleLiteral = .ok e ∧
      Script.parseExpression e.print = .ok parsed ∧
      ∃ r h', Script.evaluate (Resolve.surroundings (Resolve.runKey 0) ⟨0⟩) parsed
        { site := { heap := sampleHeap } } = (.ok r,World.withHeap { } h') ∧
        h'.equal r sampleLiteral = true) ∧
    ∃ f, sampleHeap.source (.native ⟨1,"Socket"⟩) = .error f := by
  constructor
  · obtain ⟨e,parsed,he,hparsed,hrun⟩ :=
      literals_survive_source.1 sampleHeap sampleLiteral sampleLiteral_literal
    obtain ⟨r,h',hr,_,_,_,hequal⟩ := hrun (Resolve.surroundings (Resolve.runKey 0) ⟨0⟩) (some ⟨0⟩)
      { site := { heap := sampleHeap } } (Script.surroundings_makesValues _ _) fun _ _ => rfl
    exact ⟨e,parsed,he,hparsed,r,h',hr,(hequal (.refl _)).1⟩
  · have hacyclic : sampleHeap.Acyclic (.native ⟨1,"Socket"⟩) := by
      refine Heap.acyclic_of_held fun u hu => ?_
      rcases hu with _ | _ | hs
      cases hs
    exact (literals_survive_source.2 _ _ hacyclic).1.mpr ⟨_,.refl,trivial⟩

end Wiring
