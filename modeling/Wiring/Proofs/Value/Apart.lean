import Mathlib
import Wiring.Proofs.Value.Attaching

/-!
# What is built is apart

A literal stays a literal however the heap grows, and reaches nothing else. What is built of the
tree of a literal is a literal again. All cells that it reaches are between the two ends of the
heap, so values that are built one after another have no cell in common.
-/
namespace Wiring

open Heap (Grown)

namespace Heap

variable {h h' base : Heap} {u v w : Value}

theorem Literal.holds_grown (hl : h.Literal v) (hg : Grown h h') :
    h'.Holds v u ↔ h.Holds v u := by
  have hv := hl.reached v .refl
  have hobject (ref : ObjectRef) (heq : v = .object ref) :
      h'.properties ref = h.properties ref := by
    subst heq
    exact hg.properties_eq hv.1
  have hnative (ref : NativeRef) (heq : v = .native ref) : h'.native? ref = h.native? ref := by
    subst heq
    obtain ⟨bytes,hb⟩ := hv
    exact hg.native_eq (Array.getElem?_eq_some_iff.mp hb).1
  constructor
  · rintro (⟨hm⟩ | ⟨hm⟩ | ⟨hs⟩)
    · exact .entry hm
    · exact .property (hobject _ rfl ▸ hm)
    · exact .source (hnative _ rfl ▸ hs)
  · rintro (⟨hm⟩ | ⟨hm⟩ | ⟨hs⟩)
    · exact .entry hm
    · exact .property ((hobject _ rfl).symm ▸ hm)
    · exact .source ((hnative _ rfl).symm ▸ hs)

theorem Literal.reaches_grown (hl : h.Literal v) (hg : Grown h h') (hr : h'.Reaches v u) :
    h.Reaches v u := by
  induction hr using Relation.ReflTransGen.head_induction_on with
  | refl => exact .refl
  | head hh _ ih =>
    have hheld := (hl.holds_grown hg).mp hh
    exact (ih (hl.of_holds hheld)).head hheld

theorem IsLiteral.grown (hv : h.IsLiteral v) (hg : Grown h h') : h'.IsLiteral v := by
  cases v with
  | object ref =>
    constructor
    · exact hv.1.trans_le hg.objects_le
    · rw [hg.properties_eq hv.1]
      exact hv.2
  | native ref =>
    obtain ⟨bytes,hb⟩ := hv
    exact ⟨bytes,(hg.native_eq (Array.getElem?_eq_some_iff.mp hb).1).trans hb⟩
  | array items => exact hv
  | null | bool | int | float | text | injector => trivial

/-- A literal is one in every later heap. -/
theorem Literal.grown (hl : h.Literal v) (hg : Grown h h') : h'.Literal v := by
  refine hl.induction (motive := h'.Literal) fun v hl ih => ?_
  apply literal_of_held
  · exact (hl.reached v .refl).grown hg
  · exact fun u hu => ih u ((hl.holds_grown hg).mp hu)

/-- The values reach no object and no native in common. -/
def Apart (h : Heap) (v w : Value) : Prop :=
  ∀ u x c, h.Reaches v u → h.Reaches w x → cellOf u = some c → cellOf x ≠ some c

/-- What is made after a literal is apart from it. -/
theorem Literal.apart (hl : base.Literal v) (hg : Grown base h) {handle : Handle}
    (hw : ∀ x, h.Reaches w x → Tree.Made base handle x) : h.Apart v w := by
  intro u x c hu hx hcell hsame
  -- the cell of the literal is below the base, the other one is not
  have hold := hl.reached u (hl.reaches_grown hg hu)
  have hnew := hw x hx
  cases u with
  | object ref =>
    obtain rfl := Option.some.inj hcell
    cases x with
    | object other =>
      have heq : other.index = ref.index := Cell.object.inj (Option.some.inj hsame)
      exact absurd hold.1 (Nat.not_lt_of_le (heq ▸ hnew))
    | _ => cases hsame
  | native ref =>
    obtain rfl := Option.some.inj hcell
    obtain ⟨bytes,hb⟩ := hold
    cases x with
    | native other =>
      have heq : other.index = ref.index := Cell.native.inj (Option.some.inj hsame)
      exact absurd (Array.getElem?_eq_some_iff.mp hb).1 (Nat.not_lt_of_le (heq ▸ hnew))
    | _ => cases hsame
  | _ => cases hcell

end Heap

namespace Tree

namespace BuildsRows

variable {κ : Type} {buildRows : Handle → List (κ × Tree) → Heap → List (κ × Value) × Heap}

/-- Rows that are built of literals are rows of literals. -/
theorem literal (hb : BuildsRows buildRows) (handle : Handle) {rows : List (κ × Tree)}
    (hr : ∀ r ∈ rows, ∀ h, (r.2.build handle h).2.Literal (r.2.build handle h).1) (h : Heap) :
    ∀ r ∈ (buildRows handle rows h).1, (buildRows handle rows h).2.Literal r.2 := by
  induction rows generalizing h with
  | nil =>
    rw [hb.nil]
    exact fun r hm => by cases hm
  | cons r rest ih =>
    rw [hb.cons]
    refine List.forall_mem_cons.mpr ⟨?_,?_⟩
    · exact (hr r List.mem_cons_self h).grown (hb.grown handle rest _)
    · exact ih (fun d hd => hr d (List.mem_cons_of_mem _ hd)) _

end BuildsRows

/-- What is built of a literal is a literal. -/
theorem Literal.literal_build {t : Tree} (ht : t.Literal) (handle : Handle) (h : Heap) :
    (t.build handle h).2.Literal (t.build handle h).1 := by
  induction ht generalizing h with
  | null | bool | int | float | text | injector =>
    exact Heap.literal_of_held trivial fun u hu => by cases hu
  | @array entries next hw _ ih =>
    have hrows := buildsRows_entries.literal handle ih h
    simp only [build]
    apply Heap.literal_of_held
    · exact hw.of_keys (built_buildEntries handle entries h).keys
    · rintro u ⟨hm⟩
      exact hrows _ hm
  | @object properties className hn _ ih =>
    -- the rows are literals before the object that holds them is made
    have hrows := buildsRows_properties.literal handle ih h
    have hkeys := (built_buildProperties handle properties h).keys
    simp only [build]
    have hmade := Heap.properties_newObject (buildProperties handle properties h).2 className
      (buildProperties handle properties h).1
    apply Heap.literal_of_held
    · constructor
      · simp [Heap.newObject]
      · rw [hmade,hkeys]
        exact hn
    · intro u hu
      cases hu with
      | property hm =>
        rw [hmade] at hm
        exact (hrows _ hm).grown (.newObject _ className _)
  | blob typeName bytes =>
    have hmade := Heap.native_newNative h typeName (.blob bytes)
    simp only [build]
    apply Heap.literal_of_held
    · exact ⟨bytes,hmade⟩
    · intro u hu
      cases hu with
      | source hs => cases hmade.symm.trans hs

end Tree
end Wiring
