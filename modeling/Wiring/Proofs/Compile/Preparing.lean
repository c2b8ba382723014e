import Mathlib
import Wiring.Proofs.Compile.Growing
import Wiring.Proofs.Compile.Reweaving

/-!
# Preparing a graph again

A prepared graph has no null objects left, it binds the injector and the script directory, and
its literals and providers are those of the graph it was made of. To prepare it again converts
nothing and adds no key; and where lookups are sincere, weaving changes nothing.
-/
namespace Wiring

open Work

section Attested

open Files

/-- Every class that a file describes has its own file in the directory and is registered as it is
described there. -/
def Site.Attested (dir : String) (site : Site) : Prop :=
  ∀ path text generated, ¬Temporary path → Classes.isClassPath path = true →
    site.files.contents.find? path = some text →
    (Json.read? text).bind GeneratedClass.ofJson? = some generated →
      path = Path.ofText (Classes.classPath dir generated.name) ∧
        site.registry.classes.find? generated.name = some generated.toClass

namespace Site.Attested

variable {dir : String} {site : Site}

theorem loaded (h : site.Attested dir) {className : String} {dirs : List String} {c : ClassDecl}
    (hc : Classes.loaded site.files className dirs = .ok (some c)) :
    site.registry.classes.find? c.name = some c := by
  rcases Classes.loaded_eq site.files className dirs with hnone | ⟨other,_,hother⟩
  · cases hnone.symm.trans hc
  · obtain ⟨text,generated,hstatus,hread,rfl⟩ := Classes.described_some (hother.symm.trans hc)
    exact (h _ text generated (ofText_not_temporary _) (Classes.isClassPath_classPath ..)
      (find?_of_status hstatus) hread).2

/-- No lookup changes anything. -/
theorem find? (h : site.Attested dir) (className : String) :
    (Classes.find? className site).2 = site := by
  have hlooks := Classes.find?_looks className site
  generalize Classes.find? className site = result at hlooks ⊢
  cases hlooks with
  | registered hc => rfl
  | unreadable hc hload => rfl
  | absent hc hload => rfl
  | read hc hload =>
    dsimp only
    rw [Registry.register,Table.put_found (h.loaded hload)]

theorem sincere (h : site.Attested dir) : site.Sincere := fun className c _ hload => by
  rw [Classes.find?_answer,Classes.answer,h.loaded hload]

theorem keep (dir : String) : Classes.Keep (Site.Attested dir) := fun className site hsite => by
  rw [hsite.find? className]
  exact ⟨hsite,fun _ _ => trivial⟩

variable {fs : Files}

theorem of_keeps (h : site.Attested dir)
    (hkeeps : Keeps site.files.contents fs.contents fun _ => False) :
    Site.Attested dir { site with files := fs } := by
  intro path text generated ht hclass hfind hread
  exact h path text generated ht hclass ((hkeeps path ht id).symm.trans hfind) hread

/-- The class that is registered with its file may be another one than before. -/
theorem describe (h : site.Attested dir) {generated : GeneratedClass}
    (hthere : fs.contents.find? (Path.ofText (Classes.classPath dir generated.name)) =
      some generated.toJson.pretty)
    (hkeeps : Keeps site.files.contents fs.contents
      (· = Path.ofText (Classes.classPath dir generated.name))) :
    Site.Attested dir
      { site with files := fs, registry := site.registry.register generated.toClass } := by
  intro path text other ht hclass hfind hread
  by_cases hpath : path = Path.ofText (Classes.classPath dir generated.name)
  · have hsame : some text = some generated.toJson.pretty :=
      hfind.symm.trans ((congrArg fs.contents.find? hpath).trans hthere)
    rw [Option.some.inj hsame,GeneratedClass.read_toJson] at hread
    obtain rfl := Option.some.inj hread
    exact ⟨hpath,Table.find?_put_self ..⟩
  · obtain ⟨hown,hregistered⟩ :=
      h path text other ht hclass ((hkeeps path ht hpath).symm.trans hfind) hread
    refine ⟨hown,(Table.find?_put_of_ne _ _ ?_).trans hregistered⟩
    intro hname
    exact hpath (hown.trans (congrArg (fun name => Path.ofText (Classes.classPath dir name)) hname))

end Site.Attested

end Attested

namespace Prepare

open Weave
open Watch (Rewoven)

variable {dir : String} {g converted : Graph}

/-- The graph has no null objects left. -/
def Nullless (g : Graph) : Prop :=
  ∀ row ∈ g.bindings, ∀ interface, row.2 ≠ .nullObject interface

theorem nullObjectsOf_eq_nil (h : Nullless g) : nullObjectsOf g = [] := by
  refine List.filterMap_eq_nil_iff.mpr fun row hrow => ?_
  have hnot := h row hrow
  obtain ⟨key,b⟩ := row
  cases b with
  | nullObject interface => exact absurd rfl (hnot interface)
  | literal v => rfl
  | construction plan => rfl
  | provider plan shared context => rfl

/-- What becomes of a graph some of whose keys are bound to classes instead. -/
structure Converts (keys : List Key) (g g' : Graph) : Prop where
  pointcuts : g'.pointcuts = g.pointcuts
  nodup : (g.bindings.map Prod.fst).Nodup → (g'.bindings.map Prod.fst).Nodup
  kept : ∀ key, key ∉ keys → g'.get? key = g.get? key
  classes : ∀ key ∈ keys, ∃ plan, g'.get? key = some (.construction plan)

theorem foldlM_converts (nulls : List (Key × String)) (g : Graph) :
    (nulls.foldlM (fun g n => do return g.add n.1 (.construction (← nullObject dir n.2))) g :
      Work Graph).Ensures (Converts (nulls.map Prod.fst) g) := by
  induction nulls generalizing g with
  | nil => exact .pure ⟨rfl,id,fun _ _ => rfl,nofun⟩
  | cons n rest ih =>
    rw [List.foldlM_cons]
    have hfirst : (do return g.add n.1 (.construction (← nullObject dir n.2)) :
        Work Graph).Ensures fun g' => ∃ plan, g' = g.add n.1 (.construction plan) :=
      (Ensures.any _).bind fun plan _ => .pure ⟨plan,rfl⟩
    refine hfirst.bind fun _ ⟨plan,hplan⟩ => ?_
    subst hplan
    intro site g' site' hrun
    have hrest := ih _ site g' site' hrun
    have hself : ∃ plan, g'.get? n.1 = some (.construction plan) := by
      by_cases hmem : n.1 ∈ rest.map Prod.fst
      · exact hrest.classes n.1 hmem
      · exact ⟨plan,(hrest.kept n.1 hmem).trans (Graph.get?_add_self ..)⟩
    refine ⟨hrest.pointcuts,fun hnodup => hrest.nodup (Table.nodup_put _ _ hnodup),
      fun key hkey => ?_,List.forall_mem_cons.mpr ⟨hself,hrest.classes⟩⟩
    rw [List.map_cons,List.mem_cons,not_or] at hkey
    exact (hrest.kept key hkey.2).trans (Graph.get?_add_of_ne g _ hkey.1)

theorem nullObjects_converts (dir : String) (g : Graph) : (nullObjects dir g).Ensures
    (Converts ((nullObjectsOf g).map Prod.fst) g) := foldlM_converts _ g

/-- Literals and providers, as opposed to classes and null objects. -/
def Given (b : Binding Value) : Prop := b.kind ≠ "class" ∧ b.kind ≠ "null_object"

theorem Converts.given (h : Converts ((nullObjectsOf g).map Prod.fst) g converted)
    (hnodup : (g.bindings.map Prod.fst).Nodup) (key : Key) {b : Binding Value} (hb : Given b) :
    converted.get? key = some b ↔ g.get? key = some b := by
  by_cases hkey : key ∈ (nullObjectsOf g).map Prod.fst
  · obtain ⟨plan,hplan⟩ := h.classes key hkey
    obtain ⟨⟨other,interface⟩,hn,hother⟩ := List.mem_map.mp hkey
    obtain rfl : key = other := hother.symm
    have hnull : g.get? key = some (.nullObject interface) :=
      Table.find?_of_mem hnodup (mem_nullObjectsOf_iff.mp hn)
    rw [hplan,hnull]
    constructor
    · rintro ⟨⟩
      exact absurd rfl hb.1
    · rintro ⟨⟩
      exact absurd rfl hb.2
  · rw [h.kept key hkey]

theorem Converts.nullless (h : Converts ((nullObjectsOf g).map Prod.fst) g converted)
    (hnodup : (g.bindings.map Prod.fst).Nodup) : Nullless converted := by
  rintro ⟨key,_⟩ hrow interface rfl
  have hget : converted.get? key = some (.nullObject interface) :=
    Table.find?_of_mem (h.nodup hnodup) hrow
  by_cases hkey : key ∈ (nullObjectsOf g).map Prod.fst
  · obtain ⟨plan,hplan⟩ := h.classes key hkey
    cases hplan.symm.trans hget
  · rw [h.kept key hkey] at hget
    exact hkey (List.mem_map_of_mem (mem_nullObjectsOf_iff.mpr (Table.mem_of_find? hget)))

/-- The graph with the two bindings that every prepared graph has. -/
def furnished (dir : String) (g : Graph) : Graph :=
  (bindInjector g).add Key.scriptDir (.literal (.text dir))

theorem has_bindInjector (g : Graph) :
    (bindInjector g).has (.any Key.injectorInterface) = true := by
  unfold bindInjector
  dsimp only
  split
  next hhas => exact hhas
  next => exact Graph.has_of_get? (Graph.get?_add_self ..)

theorem has_furnished (dir : String) (g : Graph) :
    (furnished dir g).has (.any Key.injectorInterface) = true ∧
      (furnished dir g).get? Key.scriptDir = some (.literal (.text dir)) :=
  ⟨Graph.has_add _ (has_bindInjector g),Graph.get?_add_self ..⟩

/-- A graph that has both bindings is furnished as it is. -/
theorem furnished_eq (hinjector : g.has (.any Key.injectorInterface) = true)
    (hdir : g.get? Key.scriptDir = some (.literal (.text dir))) : furnished dir g = g := by
  have hkept : bindInjector g = g := if_pos hinjector
  rw [furnished,hkept,Container.add,Table.put_found hdir]

theorem nodup_furnished (dir : String) (h : (g.bindings.map Prod.fst).Nodup) :
    ((furnished dir g).bindings.map Prod.fst).Nodup := by
  refine Table.nodup_put _ _ ?_
  unfold bindInjector
  dsimp only
  split
  · exact h
  · exact Table.nodup_put _ _ h

theorem pointcuts_furnished (dir : String) (g : Graph) :
    (furnished dir g).pointcuts = g.pointcuts := by
  unfold furnished bindInjector
  dsimp only
  split <;> rfl

theorem mem_furnished {row : Key × Binding Value} (h : row ∈ (furnished dir g).bindings) :
    row ∈ g.bindings ∨ ∃ v, row.2 = .literal v := by
  rcases Table.mem_put h with h | h
  · unfold bindInjector at h
    dsimp only at h
    split at h
    · exact .inl h
    · exact (Table.mem_put h).imp_right fun hv => ⟨_,hv⟩
  · exact .inr ⟨_,h⟩

theorem get?_furnished (dir : String) (g : Graph) {key : Key}
    (hinjector : key ≠ .any Key.injectorInterface) (hdir : key ≠ Key.scriptDir) :
    (furnished dir g).get? key = g.get? key := by
  refine (Graph.get?_add_of_ne _ _ hdir).trans ?_
  unfold bindInjector
  dsimp only
  split
  · rfl
  · exact Graph.get?_add_of_ne _ _ hinjector

theorem graph_ok {P : Graph} {site named made : Site}
    (hnull : nullObjects dir g site = (.ok converted,named))
    (hrun : Prepare.graph dir g site = (.ok P,made)) :
    ∃ woven, Weave.graph converted named = (.ok (woven,none),made) ∧ P = furnished dir woven := by
  rw [Prepare.graph,run_bind hnull] at hrun
  obtain ⟨⟨woven,failure⟩,next,hwoven,hend⟩ := Work.run_bind_ok hrun
  cases failure with
  | some f => cases congrArg Prod.fst hend
  | none =>
    obtain ⟨hanswer,rfl⟩ := Prod.mk.inj hend
    exact ⟨woven,hwoven,(Except.ok.inj hanswer).symm⟩

theorem nullless_rewoven {woven : Graph} (h : Nullless converted)
    (hwoven : Rewoven converted.bindings woven.bindings) : Nullless woven := by
  intro row hrow interface hnull
  obtain ⟨old,hold,_,advice,hrewoven⟩ := mem_of_forall₂ hwoven hrow
  rw [hrewoven] at hnull
  cases hb : old.2 with
  | nullObject i => exact h old hold i hb
  | literal v =>
    rw [hb] at hnull
    cases hnull
  | construction plan =>
    rw [hb] at hnull
    cases hnull
  | provider plan shared context =>
    rw [hb] at hnull
    cases hnull

theorem nullless_furnished (dir : String) (h : Nullless g) : Nullless (furnished dir g) := by
  intro row hrow interface hnull
  rcases mem_furnished hrow with hrow | ⟨v,hv⟩
  · exact h row hrow interface hnull
  · cases hv.symm.trans hnull

theorem given_rewoven {woven : Graph} (hwoven : Rewoven converted.bindings woven.bindings)
    (key : Key) {b : Binding Value} (hb : Given b) :
    woven.get? key = some b ↔ converted.get? key = some b := by
  obtain ⟨advice,hfind⟩ := find?_rewoven hwoven key
  rw [Container.get?,Container.get?,hfind]
  cases hold : converted.bindings.find? key with
  | none => rfl
  | some old =>
    cases old with
    | construction plan =>
      constructor
      · rintro ⟨⟩
        exact absurd rfl hb.1
      · rintro ⟨⟩
        exact absurd rfl hb.1
    | literal v => rfl
    | provider plan shared context => rfl
    | nullObject interface => rfl

/-- What a prepared graph has to do with the graph it was made of. -/
structure From (dir : String) (g P : Graph) : Prop where
  nullless : Nullless P
  nodup : (P.bindings.map Prod.fst).Nodup
  injector : P.has (.any Key.injectorInterface) = true
  scriptDir : P.get? Key.scriptDir = some (.literal (.text dir))
  given : ∀ key, key ≠ .any Key.injectorInterface → key ≠ Key.scriptDir → ∀ b, Given b →
    (P.get? key = some b ↔ g.get? key = some b)

theorem graph_from (hkeys : (g.bindings.map Prod.fst).Nodup) (dir : String) :
    (Prepare.graph dir g).Ensures (From dir g) := by
  refine (nullObjects_converts dir g).bind fun converted hconverted => ?_
  refine (graph_rewoven converted).bind fun woven ⟨rows,hrows,hrewoven⟩ => ?_
  obtain ⟨woven,failure⟩ := woven
  obtain rfl : woven = { converted with bindings := rows } := hrows
  have hnodup : (rows.map Prod.fst).Nodup := hrewoven.keys ▸ hconverted.nodup hkeys
  cases failure with
  | some f => exact .throw f
  | none =>
    refine .pure ⟨?_,nodup_furnished dir hnodup,(has_furnished dir _).1,(has_furnished dir _).2,
      fun key hinjector hdir b hb => ?_⟩
    · exact nullless_furnished dir (nullless_rewoven (hconverted.nullless hkeys) hrewoven)
    · refine (Iff.of_eq (congrArg (· = some b) (get?_furnished dir _ hinjector hdir))).trans ?_
      exact (given_rewoven hrewoven key hb).trans (hconverted.given hkeys key hb)

theorem nullObject_attested (dir interface : String) :
    (nullObject dir interface).Maintains (Site.Attested dir) fun _ => True := by
  have hkeep := Site.Attested.keep dir
  have hnull : (Classes.nullObject interface).Maintains (Site.Attested dir) fun _ => True :=
    Classes.Keep.walkFuel.bind fun fuel _ =>
      (hkeep.declaredTo fuel interface []).bind fun _ _ => .pure trivial
  have hplan (className : String) :
      (Plan.ofClass className).Maintains (Site.Attested dir) fun _ => True :=
    (hkeep.find className).bind fun _ _ => .pure trivial
  refine hnull.bind fun generated _ => ?_
  intro site hsite
  have hrun := onFiles_run
    (Files.write (Classes.classPath dir generated.name) generated.toJson.pretty) site
  obtain ⟨new,_,⟨_,⟨path,hwrite⟩,hkeeps⟩ | ⟨_,hwrite,hthere,hkeeps⟩⟩ :=
    Files.write_cases (Classes.classPath dir generated.name) generated.toJson.pretty site.files
  · rw [hwrite] at hrun
    rw [run_bind_error _ hrun]
    exact ⟨hsite.of_keeps hkeeps,nofun⟩
  · rw [hwrite] at hrun
    rw [run_bind hrun]
    exact hplan generated.name _ (hsite.describe hthere hkeeps)

theorem nullObjects_attested (dir : String) (g : Graph) :
    (nullObjects dir g).Maintains (Site.Attested dir) fun _ => True :=
  .foldlM trivial fun n _ _ _ => (nullObject_attested dir n.2).bind fun _ _ => .pure trivial

variable {P : Graph}

theorem nullObjects_again (h : From dir g P) (site : Site) :
    nullObjects dir P site = (.ok P,site) := by
  rw [nullObjects,nullObjectsOf_eq_nil h.nullless]
  rfl

/-- Preparing a prepared graph changes nothing but interceptors. -/
theorem graph_rewoven (h : From dir g P) : (Prepare.graph dir P).Ensures fun again =>
    ∃ rows, again = { P with bindings := rows } ∧ Rewoven P.bindings rows := by
  intro site again site' hrun
  obtain ⟨woven,hwoven,rfl⟩ := graph_ok (nullObjects_again h site) hrun
  obtain ⟨rows,hrows,hrewoven⟩ := Weave.graph_rewoven P _ _ _ hwoven
  obtain rfl : woven = { P with bindings := rows } := hrows
  refine ⟨rows,furnished_eq ?_ ?_,hrewoven⟩
  · obtain ⟨b,hb⟩ := Graph.get?_of_has h.injector
    obtain ⟨advice,hfind⟩ := find?_rewoven hrewoven (.any Key.injectorInterface)
    refine Graph.has_of_get? (b := b.rewoven advice) ?_
    rw [Container.get?,hfind,← Container.get?,hb]
    rfl
  · obtain ⟨advice,hfind⟩ := find?_rewoven hrewoven Key.scriptDir
    rw [Container.get?,hfind,← Container.get?,h.scriptDir]
    rfl

/-- Where lookups are sincere once the null objects are made, a prepared graph is prepared again to
itself. -/
theorem graph_recurs {named site made : Site} (h : From dir g P) (hsincere : named.Sincere)
    (hnull : nullObjects dir g site = (.ok converted,named))
    (hrun : Prepare.graph dir g site = (.ok P,made)) :
    SameAnswers named made ∧ (Prepare.graph dir P).Recurs named made.size P := by
  obtain ⟨woven,hwoven,rfl⟩ := graph_ok hnull hrun
  obtain ⟨hmade,hstay⟩ := graph_stays (.refl hsincere) hwoven
  refine ⟨hmade,?_⟩
  have hagain : (Weave.graph (furnished dir woven)).Recurs named made.size
      (furnished dir woven,none) := by
    refine Weave.graph_recurs fun hne row hrow => ?_
    rw [pointcuts_furnished] at hne ⊢
    rcases mem_furnished hrow with hrow | ⟨v,hv⟩
    · exact hstay hne row hrow
    · exact fun p hp => by cases hv.symm.trans hp
  have hnone : (nullObjects dir (furnished dir woven)).Recurs named made.size
      (furnished dir woven) := fun site' hsite' _ =>
    ⟨site',nullObjects_again h site',hsite',Nat.le_refl _⟩
  have hend : (pure (furnished dir (furnished dir woven)) : Work Graph).Recurs named made.size
      (furnished dir woven) := by
    rw [furnished_eq h.injector h.scriptDir]
    exact .pure _
  exact hnone.bind (hagain.bind hend)

end Prepare

namespace Batch

variable {dir : String} {g converted : Graph} {start opened named made : Site} {b : Batch}

theorem make_ok (h : make dir g start = (.ok b,made)) : ∃ opened,
    Work.onFiles (Files.ensureDirectory dir) start = (.ok (),opened) ∧
      Prepare.graph dir g opened = (.ok b.graph,made) ∧ b = ⟨dir,b.graph⟩ := by
  obtain ⟨_,opened,hopen,hrest⟩ := Work.run_bind_ok h
  obtain ⟨P,next,hprepare,hend⟩ := Work.run_bind_ok hrest
  obtain ⟨hanswer,rfl⟩ := Prod.mk.inj hend
  obtain rfl := Except.ok.inj hanswer
  exact ⟨opened,hopen,hprepare,rfl⟩

/-- The directory that a graph was prepared for need not be made again. -/
theorem reopen (hopen : Work.onFiles (Files.ensureDirectory dir) start = (.ok (),opened))
    (hgrows : Files.Grows opened.files made.files) :
    Work.onFiles (Files.ensureDirectory dir) made = (.ok (),made) := by
  have hmade : made.files.makeDirectory dir = (true,made.files) := by
    rw [onFiles_run,Files.ensureDirectory_run] at hopen
    obtain ⟨hanswer,rfl⟩ := Prod.mk.inj hopen
    have hfirst : (start.files.makeDirectory dir).1 = true := by
      by_contra hno
      rw [if_neg hno] at hanswer
      cases hanswer
    rcases Files.makeDirectory_made (Prod.ext hfirst rfl) with rfl | hthere
    · rfl
    · exact Files.makeDirectory_there (hgrows.status_directory hthere)
  rw [onFiles_run,Files.ensureDirectory_run,hmade]
  rfl

/-- Making the null objects keeps lookups sincere where all classes are attested. -/
theorem sincere_named (h : start.Attested dir)
    (hopen : Work.onFiles (Files.ensureDirectory dir) start = (.ok (),opened))
    (hnull : Prepare.nullObjects dir g opened = (.ok converted,named)) : named.Sincere := by
  have hopened : opened.Attested dir := by
    have hcontents := (Files.makeDirectory_roomier dir start.files).contents
    rw [onFiles_run,Files.ensureDirectory_run] at hopen
    obtain ⟨-,rfl⟩ := Prod.mk.inj hopen
    exact h.of_keeps fun path _ _ => congrArg (Table.find? · path) hcontents
  have hnamed := (Prepare.nullObjects_attested dir g opened hopened).1
  rw [hnull] at hnamed
  exact hnamed.sincere

/-- A prepared graph has no null objects left, one binding of the injector and one of the script
directory, and the literals and providers of the graph that it was made of. To prepare it again
changes nothing but interceptors. If all classes are attested, or at least lookups are sincere once
the null objects are made, it succeeds and changes nothing at all. -/
theorem preparing_again_changes_nothing (hkeys : (g.bindings.map Prod.fst).Nodup)
    (hopen : Work.onFiles (Files.ensureDirectory dir) start = (.ok (),opened))
    (hnull : Prepare.nullObjects dir g opened = (.ok converted,named))
    (hmake : make dir g start = (.ok b,made)) :
    (start.Attested dir ∨ named.Sincere →
        ∃ r, make dir b.graph made = (.ok b,{ made with registry := r })) ∧
      (∀ again last, make dir b.graph made = (.ok again,last) → ∃ rows,
        again = ⟨dir,{ b.graph with bindings := rows }⟩ ∧ Watch.Rewoven b.graph.bindings rows) ∧
      (∀ row ∈ b.graph.bindings, ∀ interface, row.2 ≠ .nullObject interface) ∧
      (b.graph.bindings.map Prod.fst).count (.any Key.injectorInterface) = 1 ∧
      (b.graph.bindings.map Prod.fst).count Key.scriptDir = 1 ∧
      ∀ key, key ≠ .any Key.injectorInterface → key ≠ Key.scriptDir →
        ∀ binding, Prepare.Given binding →
          (b.graph.get? key = some binding ↔ g.get? key = some binding) := by
  obtain ⟨opened',hopen',hprepare,hb⟩ := make_ok hmake
  obtain rfl : opened = opened' := (Prod.mk.inj (hopen.symm.trans hopen')).2
  have hfrom := Prepare.graph_from hkeys dir opened b.graph made hprepare
  have hgrows : Files.Grows opened.files made.files := by
    have h := (Prepare.graph_grows dir g opened (.refl opened.files)).1
    rwa [hprepare] at h
  have hreopen := reopen hopen hgrows
  have hcount {key : Key} (h : b.graph.has key = true) :
      (b.graph.bindings.map Prod.fst).count key = 1 :=
    List.count_eq_one_of_mem hfrom.nodup (Table.mem_keys_of_has h)
  refine ⟨fun hcase => ?_,fun again last hagain => ?_,hfrom.nullless,hcount hfrom.injector,
    hcount (Graph.has_of_get? hfrom.scriptDir),hfrom.given⟩
  · have hsincere : named.Sincere := hcase.elim (sincere_named · hopen hnull) id
    obtain ⟨hmade,hrecurs⟩ := Prepare.graph_recurs hfrom hsincere hnull hprepare
    obtain ⟨last,hrun,hlast,_⟩ := hrecurs made hmade (Nat.le_refl _)
    have hsite : last = { made with registry := last.registry } := by
      obtain ⟨heap,registry,files⟩ := last
      rw [show heap = made.heap from hlast.heap.trans hmade.heap.symm,
        show files = made.files from hlast.files.trans hmade.files.symm]
    refine ⟨last.registry,?_⟩
    rw [make,run_bind hreopen,run_bind hrun,← hsite,hb]
    rfl
  · obtain ⟨opened',hopen',hprepare',hagain⟩ := make_ok hagain
    obtain rfl : made = opened' := (Prod.mk.inj (hreopen.symm.trans hopen')).2
    obtain ⟨rows,hrows,hrewoven⟩ := Prepare.graph_rewoven hfrom _ _ _ hprepare'
    exact ⟨rows,hagain.trans (by rw [hrows]),hrewoven⟩

/-- A null object that weaving guards. -/
def guardedGraph : Graph where
  bindings :=
    [(.any "Loom",.nullObject "Loom"),(.any "Guard",.construction ⟨"Guard",[],[],none,true,[]⟩)]
  pointcuts := [⟨.subclassesOf "Loom",.any,["Guard"]⟩]
  maps := []

def guardedSite : Site where
  registry :=
    { classes := [("Loom",{ name := "Loom", kind := .interface, declared := ["weave"] }),
        ("Guard",{ name := "Guard" })]
      scriptDirs := ["s"] }

/-- The interceptors of the class that the key is bound to. -/
def interceptors (b : Batch) (key : Key) : Table String (List String) :=
  match b.graph.get? key with
  | some (.construction plan) => plan.advice
  | _ => []

theorem preparing_again_changes_nothing_sample : ∃ b made r,
    make "s" guardedGraph guardedSite = (.ok b,made) ∧
      make "s" b.graph made = (.ok b,{ made with registry := r }) ∧
      b.interceptors (.any "Loom") = [("weave",["Guard"])] := by
  have hattested : guardedSite.Attested "s" := fun _ _ _ _ _ hfind => by cases hfind
  have hrun : ((do
      let b ← make "s" guardedGraph
      return b.interceptors (.any "Loom") : Work (Table String (List String))) guardedSite).1 =
        .ok [("weave",["Guard"])] := by
    decide +kernel
  obtain ⟨b,made,hmake,hwoven⟩ := Work.run_bind_ok (Prod.ext hrun rfl)
  obtain ⟨opened,hopen,hprepare,-⟩ := make_ok hmake
  obtain ⟨converted,named,hnull,-⟩ := Work.run_bind_ok hprepare
  obtain ⟨hagain,-⟩ := preparing_again_changes_nothing (by decide) hopen hnull hmake
  obtain ⟨r,hr⟩ := hagain (.inl hattested)
  exact ⟨b,made,r,hmake,hr,Except.ok.inj (congrArg Prod.fst hwoven)⟩

/-- The shuttle implements a class that is registered, the thread one whose file describes that
class as a loom. -/
def describedSite : Site where
  registry :=
    { classes :=
        [("Mill\\Loom",{ name := "Mill\\Loom", kind := .interface }),
          ("Mill\\LoomNull",{ name := "Mill\\LoomNull" }),
          ("Shuttle",
            { name := "Shuttle", interfaces := ["Mill\\LoomNull"], methods := [("run",[])] }),
          ("Thread",
            { name := "Thread", interfaces := ["Mill_LoomNull"], methods := [("run",[])] }),
          ("Guard",{ name := "Guard" })]
      scriptDirs := ["s"] }
  files :=
    { directories := [["s"]]
      contents := [(["s","Mill_LoomNull.class.json"],
        (GeneratedClass.toJson ⟨"Mill\\LoomNull",["Mill\\Loom"],[]⟩).pretty)] }

def describedGraph : Graph where
  bindings :=
    [(.any "Shuttle",.construction ⟨"Shuttle",[],[],none,false,[]⟩),
      (.any "Thread",.construction ⟨"Thread",[],[],none,false,[]⟩),
      (.any "Guard",.construction ⟨"Guard",[],[],none,true,[]⟩)]
  pointcuts := [⟨.subclassesOf "Mill\\Loom",.any,["Guard"]⟩]
  maps := []

/-- The interceptors of a class in a graph that is prepared, and where that is prepared again. -/
def wovenTwice (dir : String) (g : Graph) (key : Key) :
    Work (Table String (List String) × Table String (List String)) := do
  let first ← make dir g
  let second ← make dir first.graph
  return (first.interceptors key,second.interceptors key)

theorem wovenTwice_ok {key : Key} {before after : Table String (List String)}
    (h : (wovenTwice dir g key start).1 = .ok (before,after)) : ∃ first made second last,
      make dir g start = (.ok first,made) ∧ make dir first.graph made = (.ok second,last) ∧
        first.interceptors key = before ∧ second.interceptors key = after := by
  obtain ⟨first,made,hfirst,hrest⟩ := Work.run_bind_ok (Prod.ext h rfl)
  obtain ⟨second,last,hsecond,hend⟩ := Work.run_bind_ok hrest
  obtain ⟨hbefore,hafter⟩ := Prod.mk.inj (Except.ok.inj (congrArg Prod.fst hend))
  exact ⟨first,made,second,last,hfirst,hsecond,hbefore,hafter⟩

/-- Weaving the thread registers a class anew, for which the shuttle is woven the second time. -/
theorem preparing_again_weaves_more : (describedGraph.bindings.map Prod.fst).Nodup ∧
    ∃ first made second last, make "s" describedGraph describedSite = (.ok first,made) ∧
      make "s" first.graph made = (.ok second,last) ∧
      first.interceptors (.any "Shuttle") = [] ∧
      second.interceptors (.any "Shuttle") = [("run",["Guard"])] ∧ second ≠ first := by
  have hrun : (wovenTwice "s" describedGraph (.any "Shuttle") describedSite).1 =
      .ok ([],[("run",["Guard"])]) := by
    decide +kernel
  obtain ⟨first,made,second,last,hfirst,hsecond,hbefore,hafter⟩ := wovenTwice_ok hrun
  refine ⟨by decide,first,made,second,last,hfirst,hsecond,hbefore,hafter,?_⟩
  rintro rfl
  cases hbefore.symm.trans hafter

end Batch
end Wiring
