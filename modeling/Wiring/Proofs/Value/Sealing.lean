import Mathlib
import Wiring.Proofs.Value.Building

/-!
# Objects that are not written to

The values of a graph stay what they are while objects made by units are written to: natives
never change, and the objects among these values are none of those that units make. A seal
records what may be relied on: some objects of a heap, and all its natives.
-/
namespace Wiring

open Heap (Grown)

/-- Some objects of a heap, by number, and all its natives. -/
structure Seal where
  objects : Nat → Prop
  heap : Heap

namespace Seal

variable {σ τ : Seal} {h h' : Heap}

/-- The heap has grown out of that of the seal, and what is sealed has not changed. -/
structure Holds (σ : Seal) (h : Heap) : Prop where
  objects_le : σ.heap.objects.size ≤ h.objects.size
  natives_le : σ.heap.natives.size ≤ h.natives.size
  objects : ∀ i, σ.objects i → i < σ.heap.objects.size ∧ h.objects[i]? = σ.heap.objects[i]?
  natives : ∀ i < σ.heap.natives.size, h.natives[i]? = σ.heap.natives[i]?

theorem Holds.of_grown (hσ : σ.Holds h) (hg : Grown h h') : σ.Holds h' where
  objects_le := hσ.objects_le.trans hg.objects_le
  natives_le := hσ.natives_le.trans hg.natives_le
  objects i hi := by
    obtain ⟨hlt,hsame⟩ := hσ.objects i hi
    exact ⟨hlt,(hg.objects i (hlt.trans_le hσ.objects_le)).trans hsame⟩
  natives i hi := (hg.natives i (hi.trans_le hσ.natives_le)).trans (hσ.natives i hi)

theorem size_setProperty (h : Heap) (ref : ObjectRef) (name : String) (value : Value) :
    (h.setProperty ref name value).objects.size = h.objects.size := Array.size_setIfInBounds

/-- Other objects than the sealed ones may be written to. -/
theorem Holds.setProperty (hσ : σ.Holds h) {ref : ObjectRef} (hr : ¬σ.objects ref.index)
    (name : String) (value : Value) : σ.Holds (h.setProperty ref name value) where
  objects_le := by
    rw [size_setProperty]
    exact hσ.objects_le
  natives_le := hσ.natives_le
  objects i hi := by
    have hne : ref.index ≠ i := fun he => hr (he ▸ hi)
    obtain ⟨hlt,hsame⟩ := hσ.objects i hi
    exact ⟨hlt,(Array.getElem?_setIfInBounds_ne hne).trans hsame⟩
  natives := hσ.natives

/-- What the second seal lets happen, the first one does as well. -/
def Within (σ τ : Seal) : Prop := ∀ h, τ.Holds h → σ.Holds h

/-- The seal with the objects besides that one heap has more than the other. -/
def widen (σ : Seal) (h h' : Heap) : Seal where
  objects i := σ.objects i ∨ h.objects.size ≤ i ∧ i < h'.objects.size
  heap := h'

theorem holds_widen (hσ : σ.Holds h) (hg : Grown h h') : (σ.widen h h').Holds h' where
  objects_le := Nat.le_refl _
  natives_le := Nat.le_refl _
  objects i hi := by
    refine ⟨?_,rfl⟩
    rcases hi with hi | hi
    · exact ((hσ.objects i hi).1.trans_le hσ.objects_le).trans_le hg.objects_le
    · exact hi.2
  natives _ _ := rfl

theorem within_widen (hσ : σ.Holds h) (hg : Grown h h') : σ.Within (σ.widen h h') := by
  intro later hlater
  refine ⟨?_,?_,fun i hi => ?_,fun i hi => ?_⟩
  · exact (hσ.objects_le.trans hg.objects_le).trans hlater.objects_le
  · exact (hσ.natives_le.trans hg.natives_le).trans hlater.natives_le
  · obtain ⟨hlt,hsame⟩ := hσ.objects i hi
    refine ⟨hlt,(hlater.objects i (.inl hi)).2.trans ?_⟩
    exact (hg.objects i (hlt.trans_le hσ.objects_le)).trans hsame
  · have hlt : i < h.natives.size := hi.trans_le hσ.natives_le
    refine (hlater.natives i (hlt.trans_le hg.natives_le)).trans ?_
    exact (hg.natives i hlt).trans (hσ.natives i hi)

end Seal
end Wiring
