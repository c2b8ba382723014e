import Mathlib
import Wiring.Proofs.Graph.Closure

/-!
# Elements of a map stand apart

An element is bound under a name that is read off its key in the map. Two integers are read
differently, and so are two texts, but an integer is read like the text of its digits, and then the
two elements are one binding. Where keys are read differently, to bind one element leaves the
bindings of the others as they are. A key is its text, so an element key may also be that of another
interface and name; this takes a hyphen in the key of the element or in the other name.
-/
namespace Wiring

open Work

/-- Two keys of arrays are read alike if they are the same, or one is the text of the other. -/
theorem ArrayKey.label_eq_iff {a b : ArrayKey} : a.label = b.label ↔
    a = b ∨ ∃ i : Int64,(a = .int i ∧ b = .text (toString i.toInt)) ∨
      (b = .int i ∧ a = .text (toString i.toInt)) := by
  cases a with
  | int i =>
    cases b with
    | int j =>
      constructor
      · intro h
        exact .inl (congrArg ArrayKey.int (Int64.toInt_inj.mp (Int.repr_injective h)))
      · rintro (h | ⟨k,⟨-,h⟩ | ⟨-,h⟩⟩)
        · rw [h]
        · cases h
        · cases h
    | text s =>
      constructor
      · intro h
        exact .inr ⟨i,.inl ⟨rfl,congrArg ArrayKey.text h.symm⟩⟩
      · rintro (h | ⟨k,⟨hi,hs⟩ | ⟨h,-⟩⟩)
        · cases h
        · rw [hi,hs]
          rfl
        · cases h
  | text s =>
    cases b with
    | int j =>
      constructor
      · intro h
        exact .inr ⟨j,.inr ⟨rfl,congrArg ArrayKey.text h⟩⟩
      · rintro (h | ⟨k,⟨h,-⟩ | ⟨hj,hs⟩⟩)
        · cases h
        · cases h
        · rw [hj,hs]
          rfl
    | text t =>
      constructor
      · intro h
        exact .inl (congrArg ArrayKey.text h)
      · rintro (h | ⟨k,⟨h,-⟩ | ⟨h,-⟩⟩)
        · rw [h]
        · cases h
        · cases h

namespace MapBinding

variable {interface : String} {a b : ArrayKey}

/-- Two elements of a map are one binding just where their keys are read alike. -/
theorem elementKey_eq_iff : elementKey interface a = elementKey interface b ↔
    a.label = b.label := by
  unfold elementKey Key.of elementName
  rw [Key.mk.injEq,String.append_right_inj,String.append_right_inj]

/-- The element under an integer is that under its digits. -/
example : elementKey "Wheel" (.int 1) = elementKey "Wheel" (.text "1") := rfl

/-- The keys under which elements are added one after another, where a missing key is the next
index. -/
def addedKeys (interface : String) (m : MapBinding) : List (Option ArrayKey) → List ArrayKey
  | [] => []
  | key :: rest =>
      let key := key.getD (.int m.nextIndex)
      key :: addedKeys interface (m.insert key (elementKey interface key)) rest

end MapBinding

section Hyphens

theorem splitLast_append {mark : Char} {after : List Char} (h : mark ∉ after)
    (before : List Char) : splitLast mark (before ++ mark :: after) = some (before,after) := by
  have hnone {l : List Char} (hl : mark ∉ l) : splitLast mark l = none := by
    induction l with
    | nil => rfl
    | cons c rest ih =>
      obtain ⟨hc,hrest⟩ := not_or.mp (List.mem_cons.not.mp hl)
      rw [splitLast,ih hrest]
      exact if_neg (Ne.symm hc)
  induction before with
  | nil =>
    rw [List.nil_append,splitLast,hnone h]
    exact if_pos rfl
  | cons c rest ih => rw [List.cons_append,splitLast,ih]

/-- A key tells its interface and its name if there is no hyphen in the name. -/
theorem Key.of_inj {interface other name label : String} (hname : '-' ∉ name.toList)
    (hlabel : '-' ∉ label.toList) (h : Key.of interface name = Key.of other label) :
    interface = other ∧ name = label := by
  have hparts (i n : String) : (Key.of i n).text.toList = i.toList ++ '-' :: n.toList := by
    simp [Key.of]
  have htext := congrArg (fun key => splitLast '-' key.text.toList) h
  rw [hparts,hparts,splitLast_append hname,splitLast_append hlabel] at htext
  obtain ⟨hinterface,hsame⟩ := Prod.mk.inj (Option.some.inj htext)
  exact ⟨String.toList_inj.mp hinterface,String.toList_inj.mp hsame⟩

/-- An element is stored under the key of another interface or name only if the name or the key of
the element has a hyphen. -/
theorem MapBinding.elementKey_apart {interface other name : String} {key : ArrayKey}
    (hname : '-' ∉ name.toList) (hlabel : '-' ∉ key.label.toList)
    (h : Key.of other name = elementKey interface key) :
    other = interface ∧ name = elementName key := by
  apply Key.of_inj hname _ h
  have hlist : (elementName key).toList = '@' :: key.label.toList := by simp [elementName]
  rw [hlist]
  simp [hlabel]

/-- A hyphen in the key of an element lets the name of an ordinary binding in. -/
example : MapBinding.elementKey "Wheel" (.text "front-left") = Key.of "Wheel-@front" "left" := rfl

end Hyphens

namespace Graph

variable {g g' : Graph}

/-- The second graph has the maps and all bindings of the first one. -/
structure Keeps (g g' : Graph) : Prop where
  maps : g'.maps = g.maps
  bound : ∀ key b,g.get? key = some b → g'.get? key = some b

theorem Keeps.trans {g'' : Graph} (h : Keeps g g') (h' : Keeps g' g'') : Keeps g g'' :=
  ⟨h'.maps.trans h.maps,fun key b hb => h'.bound key b (h.bound key b hb)⟩

theorem keeps_add {key : Key} (b : Binding Value) (hfree : ¬g.has key = true) :
    Keeps g (g.add key b) where
  maps := rfl
  bound other b' hb' := by
    have hne : other ≠ key := by
      rintro rfl
      exact hfree (has_of_get? hb')
    exact (get?_add_of_ne g b hne).trans hb'

theorem untarget_keeps (fuel : Nat) (g : Graph) (className : String) :
    (untarget fuel g className).Ensures (Keeps g) := by
  induction fuel generalizing g className with
  | zero => exact .throw _
  | succ fuel ih =>
    rw [untarget]
    split
    next => exact .pure ⟨rfl,fun _ _ h => h⟩
    next hfree =>
      refine (Ensures.any _).bind fun c _ => ?_
      cases c with
      | none => exact .pure ⟨rfl,fun _ _ h => h⟩
      | some c =>
        dsimp only
        split
        next =>
          refine .foldlM (keeps_add _ hfree) fun other _ next hnext site last site' hrun => ?_
          exact hnext.trans (ih next other site last site' hrun)
        next => exact .pure ⟨rfl,fun _ _ h => h⟩

/-- To bind one key leaves all other bindings and the maps as they are. -/
theorem bindTarget_spares (g : Graph) (interface name : String) (target : Target)
    (shared : Bool) : (bindTarget g interface name target shared).Ensures fun g' =>
      g'.maps = g.maps ∧ ∀ key b,key ≠ .of interface name → g.get? key = some b →
        g'.get? key = some b := by
  unfold bindTarget
  refine (Ensures.any _).bind fun binding _ => ?_
  cases binding with
  | none => exact .pure ⟨rfl,fun _ _ _ hb => hb⟩
  | some binding =>
    have hbind : (g.bind (.of interface name) binding).Ensures
        (Keeps (g.add (.of interface name) binding)) := by
      refine (Ensures.any _).bind fun fuel _ => .foldlM ⟨rfl,fun _ _ hb => hb⟩ ?_
      intro other _ next hnext site last site' hrun
      exact hnext.trans (untarget_keeps fuel next other site last site' hrun)
    refine hbind.bind fun bound hbound => .pure ?_
    have hspared (key : Key) (b : Binding Value) (hne : key ≠ .of interface name)
        (hb : g.get? key = some b) : bound.get? key = some b :=
      hbound.bound key b ((get?_add_of_ne g binding hne).trans hb)
    cases shared with
    | false => exact ⟨hbound.maps,hspared⟩
    | true =>
      rw [if_pos rfl]
      unfold Container.share
      cases bound.get? (.of interface name) with
      | none => exact ⟨hbound.maps,hspared⟩
      | some own =>
        exact ⟨hbound.maps,fun key b hne hb =>
          (get?_add_of_ne bound own.share hne).trans (hspared key b hne hb)⟩

/-- The statements that bind elements of one map, each with its key, if it has one, its target and
whether it is shared. -/
def elementStatements (interface : String) (rows : List (Option ArrayKey × Target × Bool)) :
    List ModuleStatement :=
  rows.map fun row => .element interface row.1 none row.2.1 row.2.2

/-- Whatever elements are bound, an element whose key is read differently from theirs keeps its
binding. The induction is on the statements; each of them adds one key to the map. -/
theorem elements_stand_apart (interface : String) {other : ArrayKey} {b : Binding Value}
    (rows : List (Option ArrayKey × Target × Bool))
    (hapart : ∀ key ∈ MapBinding.addedKeys interface (g.mapOf interface) (rows.map Prod.fst),
      key.label ≠ other.label)
    (hb : g.get? (MapBinding.elementKey interface other) = some b) :
    (runAll g (elementStatements interface rows)).Ensures fun g' =>
      g'.get? (MapBinding.elementKey interface other) = some b := by
  induction rows generalizing g with
  | nil =>
    rw [elementStatements,List.map_nil,runAll]
    exact .pure hb
  | cons row rest ih =>
    rw [List.map_cons,MapBinding.addedKeys] at hapart
    obtain ⟨hown,hlater⟩ := List.forall_mem_cons.mp hapart
    have hne : MapBinding.elementKey interface other ≠
        MapBinding.elementKey interface (row.1.getD (.int (g.mapOf interface).nextIndex)) :=
      fun heq => hown (MapBinding.elementKey_eq_iff.mp heq).symm
    rw [elementStatements,List.map_cons,runAll,runStatement]
    refine (bindTarget_spares _ _ _ _ _).bind fun next ⟨hmaps,hspares⟩ => ?_
    apply ih
    · have hmap : next.mapOf interface = (g.mapOf interface).insert
          (row.1.getD (.int (g.mapOf interface).nextIndex)) (MapBinding.elementKey interface
            (row.1.getD (.int (g.mapOf interface).nextIndex))) := by
        rw [Container.mapOf,Container.map?,hmaps,Container.setMap,Table.find?_put_self]
        rfl
      rw [hmap]
      exact hlater
    · exact hspares _ b hne hb

end Graph
end Wiring
