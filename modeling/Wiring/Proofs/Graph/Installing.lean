import Mathlib
import Wiring.Proofs.Graph.Blending
import Wiring.Proofs.Graph.Elements
import Wiring.Proofs.Graph.Module
import Wiring.Proofs.Graph.Numbering
import Wiring.Proofs.Number.ReadBack

/-!
# Elements of installed modules

Every module numbers its unnamed elements by itself, and a module that installs others goes on
behind the numbers of those that it has installed by then. Two modules that do not know of each
other give the same numbers, and of two elements under one number only the first is kept. So the
map of an interface has one element for each key that any statement of the modules was given, in the
order of the statements, and an element that nothing but unnamed elements can be is what the first
finished statement of its number binds.
-/
namespace Wiring

section Labels

theorem ArrayKey.digit_of_mem_label {i : Int64} {c : Char}
    (h : c ∈ (ArrayKey.int i).label.toList) : c.isDigit = true ∨ c = '-' := by
  rw [label,Int.toString_eq_repr,Int.repr_eq_if] at h
  split at h
  · rw [Nat.toList_repr] at h
    exact .inl (Decimal.isDigit_of_mem_digits h)
  · rw [String.toList_append,Nat.toList_repr] at h
    rcases List.mem_append.mp h with h | h
    · exact .inr (List.mem_singleton.mp h)
    · exact .inl (Decimal.isDigit_of_mem_digits h)

theorem ArrayKey.label_int_ne_nil (i : Int64) : (ArrayKey.int i).label.toList ≠ [] := by
  rw [label,Int.toString_eq_repr,Int.repr_eq_if]
  split
  · rw [Nat.toList_repr]
    exact Nat.toDigits_ne_nil
  · rw [String.toList_append,Nat.toList_repr]
    exact List.append_ne_nil_of_right_ne_nil _ Nat.toDigits_ne_nil

theorem MapBinding.toList_elementKey (interface : String) (key : ArrayKey) :
    (elementKey interface key).text.toList =
      (interface.toList ++ ['-']) ++ '@' :: key.label.toList := by
  simp [elementKey,elementName,Key.of]

/-- Elements under numbers are one binding only if they are one element. -/
theorem MapBinding.elementKey_int_inj {interface other : String} {i j : Int64}
    (h : elementKey interface (.int i) = elementKey other (.int j)) : interface = other ∧ i = j := by
  have hmark (k : Int64) : '@' ∉ (ArrayKey.int k).label.toList := by
    intro hmem
    rcases ArrayKey.digit_of_mem_label hmem with hdigit | hdash
    · exact absurd hdigit (by decide)
    · exact absurd hdash (by decide)
  have hsplit := congrArg (fun key => splitLast '@' key.text.toList) h
  simp only [toList_elementKey,splitLast_append (hmark _),Option.some.injEq,Prod.mk.injEq] at hsplit
  obtain ⟨hinterface,hlabel⟩ := hsplit
  have hsame : interface = other := String.toList_inj.mp (List.append_cancel_right hinterface)
  have hnumber : (ArrayKey.int i).label = (ArrayKey.int j).label := String.toList_inj.mp hlabel
  rcases ArrayKey.label_eq_iff.mp hnumber with heq | ⟨_,⟨_,htext⟩ | ⟨_,htext⟩⟩
  · exact ⟨hsame,ArrayKey.int.inj heq⟩
  · cases htext
  · cases htext

/-- No class is bound to itself under the key of an element that has a number. -/
theorem MapBinding.elementKey_int_ne_any (interface className : String) (i : Int64) :
    elementKey interface (.int i) ≠ Key.any className := by
  intro h
  have hlast := congrArg (fun key => key.text.toList.getLast?) h
  have hany : (Key.any className).text.toList = (className.toList ++ ['-']) ++ ['*'] := by
    simp [Key.any,Key.of,Key.anyName]
  have hlabel := ArrayKey.label_int_ne_nil i
  rw [toList_elementKey,hany,List.getLast?_append,List.getLast?_cons_of_ne_nil hlabel,
    List.getLast?_eq_some_getLast hlabel,Option.some_or,List.getLast?_concat] at hlast
  have hstar : '*' ∈ (ArrayKey.int i).label.toList :=
    Option.some.inj hlast ▸ List.getLast_mem hlabel
  rcases ArrayKey.digit_of_mem_label hstar with hdigit | hdash
  · exact absurd hdigit (by decide)
  · exact absurd hdash (by decide)

end Labels

mutual

/-- Somewhere in the statement a module overrides another one. -/
def ModuleStatement.overrides : ModuleStatement → Bool
  | .install statements => overridesAny statements
  | .override _ => true
  | _ => false

def ModuleStatement.overridesAny : List ModuleStatement → Bool
  | [] => false
  | statement :: rest => statement.overrides || overridesAny rest

end

open ModuleStatement (overridesAny)

namespace Ledger

/-- What one explicit statement enters in the ledger of its module. -/
structure Line where
  /-- The interface and the key of the element that is added to a map, if one is. -/
  element : Option (String × ArrayKey)
  /-- The element has no key and no name but those that its number gives it. -/
  unnamed : Bool
  key : Key
  /-- What the key is bound to, unless the statement is unfinished. -/
  origin : Option Origin

/-- How a statement with this target binds its key, if it does. -/
def originOf (interface : String) (target : Target) (shared : Bool) : Option Origin :=
  match target with
  | .unfinished => none
  | target => some (.stated interface target shared)

mutual

/-- The lines of a statement that comes at a ledger; the lines of another module start over. -/
def lines (l : Ledger) : ModuleStatement → List Line
  | .bind interface name target shared =>
      [⟨none,false,.of interface (name.getD Key.anyName),originOf interface target shared⟩]
  | .element interface key name target shared =>
      let own := key.getD (.int (l.elements interface).nextIndex)
      [⟨some (interface,own),key.isNone && name.isNone,
        .of interface (name.getD (MapBinding.elementName own)),originOf interface target shared⟩]
  | .install statements => linesAll .empty statements
  | .override statements => linesAll .empty statements
  | .intercept _ => []

def linesAll (l : Ledger) : List ModuleStatement → List Line
  | [] => []
  | statement :: rest => lines l statement ++ linesAll (l.state statement) rest

end

/-- The keys of the elements that lines add to the map of an interface. -/
def given (interface : String) (ls : List Line) : List ArrayKey :=
  ls.filterMap fun line => line.element.bind fun e => if e.1 = interface then some e.2 else none

/-- What the first of the lines that bind a key binds it to. -/
def first (key : Key) (ls : List Line) : Option Origin :=
  ls.findSome? fun line => if line.key = key then line.origin else none

theorem given_append (interface : String) (ls ms : List Line) :
    given interface (ls ++ ms) = given interface ls ++ given interface ms :=
  List.filterMap_append

theorem first_append (key : Key) (ls ms : List Line) :
    first key (ls ++ ms) = (first key ls <|> first key ms) := by
  rw [first,List.findSome?_append]
  change (first key ls).or (first key ms) = _
  cases first key ls <;> rfl

section Maps

variable {l o : Ledger} {interface : String}

/-- The maps of a ledger as those of a graph. -/
def graph (l : Ledger) : Graph := ⟨[],[],l.maps⟩

theorem elements_collect_self (l : Ledger) (interface : String) (key : ArrayKey) :
    (l.collect interface key).elements interface =
      (l.elements interface).insert key (MapBinding.elementKey interface key) := by
  rw [elements,collect,Table.find?_put_self]
  rfl

theorem elements_collect_of_ne (l : Ledger) {interface other : String} (key : ArrayKey)
    (h : other ≠ interface) : (l.collect interface key).elements other = l.elements other := by
  rw [elements,collect,Table.find?_put_of_ne _ _ h]
  rfl

theorem maps_enter (l : Ledger) (interface name : String) (target : Target) (shared : Bool) :
    (l.enter interface name target shared).maps = l.maps := by
  cases target <;> rfl

theorem elements_enter (l : Ledger) (interface name other : String) (target : Target)
    (shared : Bool) :
    (l.enter interface name target shared).elements other = l.elements other := by
  rw [elements,maps_enter]
  rfl

theorem elements_fill (ho : o.graph.Keyed) (interface : String) :
    (l.fill o).elements interface =
      (l.elements interface).blend .earlier (o.elements interface) := by
  have hmap : (l.fill o).elements interface =
      ((l.graph.fill o.graph).map? interface).getD .empty := rfl
  rw [hmap,Container.fill_eq,Container.map?_blend _ ho]
  have hother : o.elements interface = (o.graph.map? interface).getD .empty := rfl
  rw [hother]
  cases o.graph.map? interface <;> rfl

theorem elements_override (ho : o.graph.Keyed) (interface : String) :
    (l.override o).elements interface =
      (l.elements interface).blend .later (o.elements interface) := by
  have hmap : (l.override o).elements interface =
      ((l.graph.override o.graph).map? interface).getD .empty := rfl
  rw [hmap,Container.override_eq,Container.map?_blend _ ho]
  have hother : o.elements interface = (o.graph.map? interface).getD .empty := rfl
  rw [hother]
  cases o.graph.map? interface <;> rfl

theorem elements_keyed (h : l.graph.Keyed) (interface : String) : (l.elements interface).Keyed :=
  Container.getD_keyed fun _ hm => h.elements _ (Table.mem_of_find? hm)

theorem keyed_empty : empty.graph.Keyed := Container.empty_keyed

theorem keyed_collect (h : l.graph.Keyed) (interface : String) (key : ArrayKey) :
    (l.collect interface key).graph.Keyed where
  bindings := List.nodup_nil
  interfaces := Table.nodup_put _ _ h.interfaces
  elements row hrow := by
    rcases Table.mem_put hrow with hrow | hrow
    · exact h.elements row hrow
    · rw [hrow]
      exact Table.nodup_put _ _ (elements_keyed h interface)

theorem keyed_enter (h : l.graph.Keyed) (interface name : String) (target : Target)
    (shared : Bool) : (l.enter interface name target shared).graph.Keyed := by
  rw [graph,maps_enter]
  exact h

theorem keyed_blend {p : Preference} (h : l.graph.Keyed) (ho : o.graph.Keyed) :
    (l.graph.blend p o.graph).Keyed where
  bindings := List.nodup_nil
  interfaces := Table.nodup_blend h.interfaces
  elements := Table.mem_blend h.elements ho.elements fun _ _ hm _ =>
    (Container.getD_keyed hm).blend p _

theorem keyed_fill (h : l.graph.Keyed) (ho : o.graph.Keyed) : (l.fill o).graph.Keyed := by
  have hmaps : (l.fill o).graph = l.graph.fill o.graph := rfl
  rw [hmaps,Container.fill_eq]
  exact keyed_blend h ho

theorem keyed_override (h : l.graph.Keyed) (ho : o.graph.Keyed) :
    (l.override o).graph.Keyed := by
  have hmaps : (l.override o).graph = l.graph.override o.graph := rfl
  rw [hmaps,Container.override_eq]
  exact keyed_blend h ho

/-- The elements of the maps are stored under the keys that they are named for. -/
def Named (l : Ledger) : Prop := ∀ interface, ∀ row ∈ (l.elements interface).elements,
  row.2 = MapBinding.elementKey interface row.1

theorem named_collect (h : l.Named) (interface : String) (key : ArrayKey) :
    (l.collect interface key).Named := by
  intro other row hrow
  by_cases hother : other = interface
  · subst hother
    rw [elements_collect_self] at hrow
    rcases Table.mem_put_row hrow with hrow | rfl
    · exact h other row hrow
    · rfl
  · rw [elements_collect_of_ne _ _ hother] at hrow
    exact h other row hrow

theorem named_blend {p : Preference} (hp : ∀ (o : Option Key) v, p.pick o v = v ∨
    o = some (p.pick o v)) {m n : MapBinding} (hm : ∀ row ∈ m.elements,
      row.2 = MapBinding.elementKey interface row.1)
    (hn : ∀ row ∈ n.elements, row.2 = MapBinding.elementKey interface row.1) :
    ∀ row ∈ (m.blend p n).elements, row.2 = MapBinding.elementKey interface row.1 := by
  obtain ⟨rows⟩ := m
  obtain ⟨more⟩ := n
  rw [MapBinding.blend]
  induction more generalizing rows with
  | nil => exact hm
  | cons first rest ih =>
    obtain ⟨hfirst,hrest⟩ := List.forall_mem_cons.mp hn
    refine ih (rows.put first.1 (p.pick (Table.find? rows first.1) first.2))
      (fun row hrow => ?_) hrest
    rcases Table.mem_put_row hrow with hrow | rfl
    · exact hm row hrow
    · rcases hp (Table.find? rows first.1) first.2 with hlater | hearlier
      · exact hlater.trans hfirst
      · exact hm _ (Table.mem_of_find? hearlier)

/-- The tables have distinct keys, and elements are named for theirs. -/
structure Tidy (l : Ledger) : Prop where
  keyed : l.graph.Keyed
  named : l.Named

theorem tidy_empty : empty.Tidy := ⟨keyed_empty,fun _ _ hrow => absurd hrow List.not_mem_nil⟩

theorem Tidy.enter (h : l.Tidy) (interface name : String) (target : Target) (shared : Bool) :
    (l.enter interface name target shared).Tidy where
  keyed := keyed_enter h.keyed ..
  named other := by
    rw [elements_enter]
    exact h.named other

theorem Tidy.fill (h : l.Tidy) (ho : o.Tidy) : (l.fill o).Tidy where
  keyed := keyed_fill h.keyed ho.keyed
  named interface := by
    rw [elements_fill ho.keyed]
    refine named_blend (fun o v => ?_) (h.named interface) (ho.named interface)
    cases o with
    | none => exact .inl rfl
    | some u => exact .inr rfl

theorem Tidy.override (h : l.Tidy) (ho : o.Tidy) : (l.override o).Tidy where
  keyed := keyed_override h.keyed ho.keyed
  named interface := by
    rw [elements_override ho.keyed]
    exact named_blend (fun _ _ => .inl rfl) (h.named interface) (ho.named interface)

mutual

theorem Tidy.state {l : Ledger} (h : l.Tidy) :
    (statement : ModuleStatement) → (l.state statement).Tidy
  | .bind .. => by
      rw [Ledger.state]
      exact h.enter ..
  | .element .. => by
      rw [Ledger.state]
      exact Tidy.enter ⟨keyed_collect h.keyed _ _,named_collect h.named _ _⟩ ..
  | .install statements => by
      rw [Ledger.state]
      exact h.fill (tidy_empty.stateAll statements)
  | .override statements => by
      rw [Ledger.state]
      exact h.override (tidy_empty.stateAll statements)
  | .intercept _ => by
      rw [Ledger.state]
      exact h

theorem Tidy.stateAll {l : Ledger} (h : l.Tidy) :
    (statements : List ModuleStatement) → (l.stateAll statements).Tidy
  | [] => by
      rw [Ledger.stateAll]
      exact h
  | statement :: rest => by
      rw [Ledger.stateAll]
      exact (h.state statement).stateAll rest

end

end Maps

section Keys

variable {l : Ledger} {interface : String}

/-- The keys of the map of an interface, in order. -/
def keys (l : Ledger) (interface : String) : List ArrayKey :=
  (l.elements interface).elements.map Prod.fst

theorem keys_blend {p : Preference} {m n : MapBinding} (hm : m.Keyed) (hn : n.Keyed) :
    (m.blend p n).elements.map Prod.fst =
      (m.elements.map Prod.fst ++ n.elements.map Prod.fst).eraseDups := by
  rw [MapBinding.blend,Table.keys_blend hn,List.eraseDups_append,eraseDups_of_nodup hm,
    List.removeAll,eraseDups_of_nodup (hn.sublist List.filter_sublist)]
  congr 1
  refine List.filter_congr fun key _ => ?_
  simp

theorem keys_merged (h : l.graph.Keyed) {own given : List ArrayKey}
    (hown : own = ((empty.keys interface) ++ given).eraseDups) :
    (l.keys interface ++ own).eraseDups = (l.keys interface ++ given).eraseDups := by
  have hkeys := eraseDups_of_nodup (elements_keyed h interface)
  have hgiven : own = given.eraseDups := hown
  calc (l.keys interface ++ own).eraseDups
      = ((l.keys interface).eraseDups ++ given.eraseDups).eraseDups := by rw [hgiven,keys,hkeys]
    _ = (l.keys interface ++ given).eraseDups := eraseDups_append_eraseDups _ _

mutual

/-- What a statement adds to the keys of a map are those that its lines give. -/
theorem keys_state {l : Ledger} (h : l.Tidy) (interface : String) :
    (statement : ModuleStatement) → (l.state statement).keys interface =
      (l.keys interface ++ given interface (l.lines statement)).eraseDups
  | .bind other name target shared => by
      rw [state,lines,keys,elements_enter]
      simp only [given,List.filterMap_cons,List.filterMap_nil,Option.bind_none,List.append_nil]
      exact (eraseDups_of_nodup (elements_keyed h.keyed interface)).symm
  | .element other key name target shared => by
      rw [state,lines,keys,elements_enter]
      by_cases hother : interface = other
      · subst hother
        rw [elements_collect_self,MapBinding.insert,
          Table.keys_put_eraseDups (elements_keyed h.keyed interface)]
        simp only [given,List.filterMap_cons,List.filterMap_nil,Option.bind_some,if_true]
        rfl
      · rw [elements_collect_of_ne _ _ hother]
        simp only [given,List.filterMap_cons,List.filterMap_nil,Option.bind_some,
          if_neg (Ne.symm hother),List.append_nil]
        exact (eraseDups_of_nodup (elements_keyed h.keyed interface)).symm
  | .install statements => by
      have hother := (tidy_empty.stateAll statements).keyed
      rw [state,lines,keys,elements_fill hother,
        keys_blend (elements_keyed h.keyed interface) (elements_keyed hother interface)]
      exact keys_merged h.keyed (keys_stateAll tidy_empty interface statements)
  | .override statements => by
      have hother := (tidy_empty.stateAll statements).keyed
      rw [state,lines,keys,elements_override hother,
        keys_blend (elements_keyed h.keyed interface) (elements_keyed hother interface)]
      exact keys_merged h.keyed (keys_stateAll tidy_empty interface statements)
  | .intercept _ => by
      rw [state,lines]
      simp only [given,List.filterMap_nil,List.append_nil]
      exact (eraseDups_of_nodup (elements_keyed h.keyed interface)).symm

/-- The map of an interface has the keys that the lines give, in the order of the lines. -/
theorem keys_stateAll {l : Ledger} (h : l.Tidy) (interface : String) :
    (statements : List ModuleStatement) → (l.stateAll statements).keys interface =
      (l.keys interface ++ given interface (l.linesAll statements)).eraseDups
  | [] => by
      rw [stateAll,linesAll]
      simp only [given,List.filterMap_nil,List.append_nil]
      exact (eraseDups_of_nodup (elements_keyed h.keyed interface)).symm
  | statement :: rest => by
      rw [stateAll,linesAll,keys_stateAll (h.state statement) interface rest,
        keys_state h interface statement,given_append,← List.append_assoc]
      exact eraseDups_append_left _ _

end

end Keys

section Origins

variable {interface : String} {n : Int64}

theorem state_enter (l : Ledger) (interface name : String) (target : Target) (shared : Bool)
    (key : Key) : (l.enter interface name target shared).origins key =
      if .of interface name = key then (originOf interface target shared <|> l.origins key)
      else l.origins key := by
  split
  next h =>
    subst h
    cases target with
    | unfinished => rfl
    | _ => exact put_self ..
  next h =>
    cases target with
    | unfinished => rfl
    | _ => exact put_of_ne _ _ (Ne.symm h)

/-- An element that is bound under a number is in the map. -/
def Knows (l : Ledger) (interface : String) (n : Int64) : Prop :=
  (l.origins (MapBinding.elementKey interface (.int n))).isSome = true → .int n ∈ l.keys interface

theorem knows_empty : empty.Knows interface n := nofun

theorem mem_keys_fill {l o : Ledger} (hl : l.Tidy) (ho : o.Tidy) {key : ArrayKey}
    (h : key ∈ l.keys interface ∨ key ∈ o.keys interface) : key ∈ (l.fill o).keys interface := by
  rw [keys,elements_fill ho.keyed,keys_blend (elements_keyed hl.keyed _) (elements_keyed ho.keyed _),
    List.mem_eraseDups]
  exact List.mem_append.mpr h

theorem mem_keys_collect {l : Ledger} (h : l.Tidy) {other : String} {key own : ArrayKey}
    (hkey : key ∈ l.keys interface ∨ interface = other ∧ key = own) :
    key ∈ (l.collect other own).keys interface := by
  by_cases hother : interface = other
  · subst hother
    rw [keys,elements_collect_self,MapBinding.insert,
      Table.keys_put_eraseDups (elements_keyed h.keyed _),List.mem_eraseDups]
    rcases hkey with hkey | ⟨-,rfl⟩
    · exact List.mem_append_left _ hkey
    · exact List.mem_append_right _ List.mem_cons_self
  · rw [keys,elements_collect_of_ne _ _ hother]
    exact hkey.resolve_right fun hown => hother hown.1

/-- The number of an unnamed element is free, and nothing is bound under it. -/
theorem unbound_of_unnamed {l : Ledger} (hn : n ≠ Int64.maxValue) (hknows : l.Knows interface n)
    {other : String} (heq : MapBinding.elementKey other (.int (l.elements other).nextIndex) =
      MapBinding.elementKey interface (.int n)) :
    interface = other ∧ n = (l.elements other).nextIndex ∧
      l.origins (MapBinding.elementKey interface (.int n)) = none := by
  obtain ⟨rfl,rfl⟩ := MapBinding.elementKey_int_inj heq
  refine ⟨rfl,rfl,?_⟩
  cases hown : l.origins (MapBinding.elementKey other (.int (l.elements other).nextIndex)) with
  | none => rfl
  | some origin =>
    have hmem := hknows (by rw [hown]; rfl)
    exact absurd hmem (MapBinding.nextIndex_free hn)

theorem origins_element {l : Ledger} (h : l.Tidy) (hn : n ≠ Int64.maxValue)
    (hknows : l.Knows interface n) (other : String) (key : Option ArrayKey) (name : Option String)
    (target : Target) (shared : Bool)
    (hlines : ∀ line ∈ l.lines (.element other key name target shared),
      line.key = MapBinding.elementKey interface (.int n) → line.unnamed = true) :
    (l.state (.element other key name target shared)).origins
        (MapBinding.elementKey interface (.int n)) =
        (l.origins (MapBinding.elementKey interface (.int n)) <|>
          first (MapBinding.elementKey interface (.int n))
            (l.lines (.element other key name target shared))) ∧
      (l.state (.element other key name target shared)).Knows interface n := by
  rw [lines] at hlines
  rw [state,lines,first,List.findSome?_cons,Knows,state_enter,keys,elements_enter]
  dsimp only at hlines ⊢
  have hcollect (own : ArrayKey) : (l.collect other own).origins = l.origins := rfl
  split
  next heq =>
    have hunnamed := hlines _ List.mem_cons_self heq
    rw [Bool.and_eq_true,Option.isNone_iff_eq_none,Option.isNone_iff_eq_none] at hunnamed
    obtain ⟨rfl,rfl⟩ := hunnamed
    obtain ⟨hother,hnumber,hfree⟩ := unbound_of_unnamed hn hknows heq
    rw [hcollect,hfree]
    refine ⟨?_,fun _ => mem_keys_collect h (.inr ⟨hother,?_⟩)⟩
    · cases originOf other target shared <;> rfl
    · rw [hnumber]
      rfl
  next hne =>
    rw [hcollect]
    refine ⟨?_,fun hsome => mem_keys_collect h (.inl (hknows hsome))⟩
    cases l.origins (MapBinding.elementKey interface (.int n)) <;> rfl

mutual

/-- If nothing but unnamed elements can be the element of a number, then an earlier statement of the
number stands, in this module or in an installed one. -/
theorem origins_state {l : Ledger} (h : l.Tidy) (hn : n ≠ Int64.maxValue)
    (hknows : l.Knows interface n) : (statement : ModuleStatement) → statement.overrides = false →
      (∀ line ∈ l.lines statement, line.key = MapBinding.elementKey interface (.int n) →
        line.unnamed = true) →
      (l.state statement).origins (MapBinding.elementKey interface (.int n)) =
          (l.origins (MapBinding.elementKey interface (.int n)) <|>
            first (MapBinding.elementKey interface (.int n)) (l.lines statement)) ∧
        (l.state statement).Knows interface n
  | .bind other name target shared => fun _ hlines => by
      rw [lines] at hlines
      have hne : ¬Key.of other (name.getD Key.anyName) =
          MapBinding.elementKey interface (.int n) := fun heq => by
        cases hlines _ List.mem_cons_self heq
      rw [state,lines,first,List.findSome?_cons,if_neg hne,Knows,state_enter,if_neg hne,keys,
        elements_enter]
      refine ⟨?_,hknows⟩
      cases l.origins (MapBinding.elementKey interface (.int n)) <;> rfl
  | .element other key name target shared => fun _ hlines =>
      origins_element h hn hknows other key name target shared hlines
  | .install statements => fun hover hlines => by
      rw [ModuleStatement.overrides] at hover
      rw [lines] at hlines
      have ho := tidy_empty.stateAll statements
      obtain ⟨horigin,hother⟩ :=
        origins_stateAll tidy_empty hn knows_empty statements hover hlines
      rw [state,lines]
      have hfill : (l.fill (stateAll empty statements)).origins
          (MapBinding.elementKey interface (.int n)) =
          (l.origins (MapBinding.elementKey interface (.int n)) <|>
            (stateAll empty statements).origins (MapBinding.elementKey interface (.int n))) := rfl
      refine ⟨by rw [hfill,horigin]; rfl,fun hsome => mem_keys_fill h ho ?_⟩
      rw [hfill] at hsome
      cases hown : l.origins (MapBinding.elementKey interface (.int n)) with
      | some origin => exact .inl (hknows (by rw [hown]; rfl))
      | none =>
        rw [hown] at hsome
        exact .inr (hother hsome)
  | .override statements => fun hover => by cases hover
  | .intercept _ => fun _ _ => by
      rw [state,lines]
      refine ⟨?_,hknows⟩
      cases l.origins (MapBinding.elementKey interface (.int n)) <;> rfl

theorem origins_stateAll {l : Ledger} (h : l.Tidy) (hn : n ≠ Int64.maxValue)
    (hknows : l.Knows interface n) : (statements : List ModuleStatement) →
      overridesAny statements = false →
      (∀ line ∈ l.linesAll statements, line.key = MapBinding.elementKey interface (.int n) →
        line.unnamed = true) →
      (l.stateAll statements).origins (MapBinding.elementKey interface (.int n)) =
          (l.origins (MapBinding.elementKey interface (.int n)) <|>
            first (MapBinding.elementKey interface (.int n)) (l.linesAll statements)) ∧
        (l.stateAll statements).Knows interface n
  | [] => fun _ _ => by
      rw [stateAll,linesAll]
      refine ⟨?_,hknows⟩
      cases l.origins (MapBinding.elementKey interface (.int n)) <;> rfl
  | statement :: rest => fun hover hlines => by
      rw [overridesAny,Bool.or_eq_false_iff] at hover
      rw [linesAll] at hlines
      obtain ⟨hfirst,hknown⟩ := origins_state h hn hknows statement hover.1 fun line hline =>
        hlines line (List.mem_append_left _ hline)
      obtain ⟨hrest,hlast⟩ := origins_stateAll (h.state statement) hn hknown rest hover.2
        fun line hline => hlines line (List.mem_append_right _ hline)
      rw [stateAll,linesAll,first_append]
      refine ⟨?_,hlast⟩
      rw [hrest,hfirst]
      cases l.origins (MapBinding.elementKey interface (.int n)) <;> rfl

end

end Origins

end Ledger

open Ledger (given first)

/-- Elements of installed modules give way to nothing but an element of the same key. If a module
without overriding ones builds, the map of an interface has one element for each key that any
statement of the modules was given, in the order of the statements, so it has as many elements as
there are statements exactly if they were given different keys. Where all that could bind the
element of a number are unnamed elements, it is bound as the first statement of this number says. -/
theorem installed_elements_are_kept {statements : List ModuleStatement} {site site' : Site}
    {g : Graph} (h : Graph.ofModule statements site = (.ok g,site'))
    (hinstall : overridesAny statements = false) (interface : String) :
    (g.mapOf interface).elements =
        (given interface (Ledger.empty.linesAll statements)).eraseDups.map (fun key =>
          (key,MapBinding.elementKey interface key)) ∧
      ((g.mapOf interface).elements.length =
          (given interface (Ledger.empty.linesAll statements)).length ↔
        (given interface (Ledger.empty.linesAll statements)).Nodup) ∧
      ∀ n, n ≠ Int64.maxValue →
        (∀ line ∈ Ledger.empty.linesAll statements,
          line.key = MapBinding.elementKey interface (.int n) → line.unnamed = true) →
        Option.Rel (Describes site)
          (first (MapBinding.elementKey interface (.int n)) (Ledger.empty.linesAll statements))
          (g.get? (MapBinding.elementKey interface (.int n))) := by
  obtain ⟨l,hl,hg⟩ := (Graph.runAll_accounts .empty statements site .start).2 g
    (congrArg Prod.fst h)
  have hresembles := hl.resembles (.refl _)
  have htidy := Ledger.tidy_empty.stateAll statements
  have hmap : g.mapOf interface = (Ledger.empty.stateAll statements).elements interface := by
    rw [hg.mapOf,hresembles.elements]
  have hkeys : (g.mapOf interface).elements.map Prod.fst =
      (given interface (Ledger.empty.linesAll statements)).eraseDups := by
    rw [hmap]
    exact Ledger.keys_stateAll Ledger.tidy_empty interface statements
  have helements : (g.mapOf interface).elements =
      (given interface (Ledger.empty.linesAll statements)).eraseDups.map (fun key =>
        (key,MapBinding.elementKey interface key)) := by
    rw [← hkeys,List.map_map]
    refine (List.map_id _).symm.trans (List.map_congr_left fun row hrow => ?_)
    rw [hmap] at hrow
    exact Prod.ext rfl (htidy.named interface row hrow)
  refine ⟨helements,?_,fun n hn hlines => ?_⟩
  · rw [helements,List.length_map]
    exact length_eraseDups_eq_iff
  · obtain ⟨horigin,-⟩ := Ledger.origins_stateAll Ledger.tidy_empty hn
      Ledger.knows_empty statements hinstall hlines
    have hbound := hg.bound (MapBinding.elementKey interface (.int n))
    rcases hresembles.2 (MapBinding.elementKey interface (.int n)) with hsame | ⟨c,hc,-⟩
    · rwa [hsame,horigin] at hbound
    · exact absurd hc (MapBinding.elementKey_int_ne_any interface c n)

/-- An unnamed wheel. -/
def wheel (side : String) : ModuleStatement :=
  .element "Wheel" none none (.literal (.text side)) false

/-- One module adds two wheels, another one the spare, and a trailer has its own. -/
def wheels : List ModuleStatement :=
  [.install [wheel "left",wheel "right"],.install [wheel "spare"],wheel "trailer"]

/-- The spare wheel is not kept, for its number is that of the left one. -/
theorem installed_elements_are_kept_sample :
    ∃ g site, Graph.ofModule wheels {} = (.ok g,site) ∧ overridesAny wheels = false ∧
      (g.mapOf "Wheel").elements.map Prod.fst = [.int 0,.int 1,.int 2] ∧
      (∀ line ∈ Ledger.empty.linesAll wheels,
        line.key = MapBinding.elementKey "Wheel" (.int 0) → line.unnamed = true) ∧
      ∃ b, g.get? (MapBinding.elementKey "Wheel" (.int 0)) = some b ∧
        Describes {} (.stated "Wheel" (.literal (.text "left")) false) b := by
  have hrun : ∃ g site, Graph.ofModule wheels {} = (.ok g,site) := ⟨_,_,rfl⟩
  obtain ⟨g,site,hrun⟩ := hrun
  have hinstall : overridesAny wheels = false := rfl
  have hlines : ∀ line ∈ Ledger.empty.linesAll wheels,
      line.key = MapBinding.elementKey "Wheel" (.int 0) → line.unnamed = true := by
    have hall : (Ledger.empty.linesAll wheels).all Ledger.Line.unnamed = true := by decide
    exact fun line hline _ => List.all_eq_true.mp hall line hline
  obtain ⟨helements,-,hbound⟩ := installed_elements_are_kept hrun hinstall "Wheel"
  have hleft := hbound 0 (by decide) hlines
  refine ⟨g,site,hrun,hinstall,?_,hlines,rel_some hleft⟩
  rw [helements]
  decide

/-- Of two unnamed elements that two installed modules add, the second one is lost. -/
theorem installed_element_lost :
    ∃ g site, Graph.ofModule [.install [wheel "left"],.install [wheel "right"]] {} = (.ok g,site) ∧
      (given "Wheel" (Ledger.empty.linesAll
        [.install [wheel "left"],.install [wheel "right"]])).length = 2 ∧
      (g.mapOf "Wheel").elements = [(.int 0,MapBinding.elementKey "Wheel" (.int 0))] ∧
      ∀ key b, g.get? key = some b → b = .literal (.text "left") := by
  refine ⟨_,_,rfl,rfl,rfl,fun key b hb => ?_⟩
  have hmem : (key,b) ∈ [(MapBinding.elementKey "Wheel" (.int 0),
      Binding.literal (Value.text "left"))] := Table.mem_of_find? hb
  exact (Prod.mk.inj (List.mem_singleton.mp hmem)).2

end Wiring
