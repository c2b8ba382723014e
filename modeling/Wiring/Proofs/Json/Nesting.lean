import Mathlib
import Wiring.Proofs.Json.ReadBack

/-!
# How deep a JSON tree nests

A tree that is legible to some depth is legible to every depth that its containers do not reach.
So whether a text is read back depends on two things that can be told apart: the numbers in it,
and how deep it nests.
-/
namespace Wiring.Json

mutual

/-- The number of containers that lie within one another. -/
def nesting : Json → Nat
  | list items => itemsNesting items + 1
  | record fields => fieldsNesting fields + 1
  | null | bool _ | int _ | float _ | text _ | unreadable => 0

def itemsNesting : List Json → Nat
  | [] => 0
  | item :: rest => max (nesting item) (itemsNesting rest)

def fieldsNesting : List (String × Json) → Nat
  | [] => 0
  | (_,value) :: rest => max (nesting value) (fieldsNesting rest)

end

/-- The numbers in the tree keep their value in a text, and nothing in it is unreadable. -/
def Exact (j : Json) : Prop := ∃ depth, Legible depth j

/-- The text of the tree is read back. -/
structure Fits (j : Json) : Prop where
  exact : j.Exact
  nesting_lt : j.nesting < depthLimit

variable {j : Json} {items : List Json} {fields : List (String × Json)} {depth : Nat}

theorem nesting_le_of_item {item : Json} (hm : item ∈ items) :
    item.nesting ≤ itemsNesting items := by
  induction items with
  | nil => cases hm
  | cons first rest ih =>
    rw [itemsNesting]
    rcases List.mem_cons.mp hm with rfl | hm
    · exact Nat.le_max_left _ _
    · exact (ih hm).trans (Nat.le_max_right _ _)

theorem nesting_le_of_field {field : String × Json} (hm : field ∈ fields) :
    field.2.nesting ≤ fieldsNesting fields := by
  induction fields with
  | nil => cases hm
  | cons first rest ih =>
    rw [fieldsNesting]
    rcases List.mem_cons.mp hm with rfl | hm
    · exact Nat.le_max_left _ _
    · exact (ih hm).trans (Nat.le_max_right _ _)

/-- Only the containers need the depth. -/
theorem Legible.of_nesting (h : Legible depth j) {limit : Nat} (hn : j.nesting < limit) :
    Legible limit j := by
  induction h generalizing limit with
  | null => exact .null limit
  | bool _ b => exact .bool limit b
  | int _ hi => exact .int limit hi
  | float _ hx => exact .float limit hx
  | text _ s => exact .text limit s
  | @list _ items _ ih =>
    rw [nesting] at hn
    obtain ⟨n,rfl⟩ : ∃ n, limit = n + 2 := ⟨limit - 2,by omega⟩
    apply Legible.list
    intro item hitem
    have hle := nesting_le_of_item hitem
    exact ih item hitem (by omega)
  | @record _ fields _ ih =>
    rw [nesting] at hn
    obtain ⟨n,rfl⟩ : ∃ n, limit = n + 2 := ⟨limit - 2,by omega⟩
    apply Legible.record
    intro field hfield
    have hle := nesting_le_of_field hfield
    exact ih field hfield (by omega)

theorem areWhole_of (h : ∀ item ∈ items, item.isWhole = true) : areWhole items = true := by
  induction items with
  | nil => rfl
  | cons item rest ih =>
    rw [areWhole,h item List.mem_cons_self,Bool.true_and]
    exact ih fun d hd => h d (List.mem_cons_of_mem _ hd)

theorem fieldsAreWhole_of (h : ∀ field ∈ fields, field.2.isWhole = true) :
    fieldsAreWhole fields = true := by
  induction fields with
  | nil => rfl
  | cons field rest ih =>
    rw [fieldsAreWhole,h field List.mem_cons_self,Bool.true_and]
    exact ih fun d hd => h d (List.mem_cons_of_mem _ hd)

theorem Legible.isWhole (h : Legible depth j) : j.isWhole = true := by
  induction h with
  | null | bool | int | float | text => rfl
  | list _ ih => exact areWhole_of ih
  | record _ ih => exact fieldsAreWhole_of ih

namespace Exact

theorem null : Exact .null := ⟨0,.null 0⟩

theorem bool (b : Bool) : Exact (.bool b) := ⟨0,.bool 0 b⟩

theorem int {i : Int} (h : intFits i = true) : Exact (.int i) := ⟨0,.int 0 h⟩

theorem float {x : Binary64} (h : FloatFits x) : Exact (.float x) := ⟨0,.float 0 h⟩

theorem text (s : String) : Exact (.text s) := ⟨0,.text 0 s⟩

theorem list (h : ∀ item ∈ items, item.Exact) : Exact (.list items) := by
  refine ⟨itemsNesting items + 2,.list fun item hitem => ?_⟩
  obtain ⟨_,hlegible⟩ := h item hitem
  exact hlegible.of_nesting (Nat.lt_succ_of_le (nesting_le_of_item hitem))

theorem record (h : ∀ field ∈ fields, field.2.Exact) : Exact (.record fields) := by
  refine ⟨fieldsNesting fields + 2,.record fun field hfield => ?_⟩
  obtain ⟨_,hlegible⟩ := h field hfield
  exact hlegible.of_nesting (Nat.lt_succ_of_le (nesting_le_of_field hfield))

theorem item (h : Exact (.list items)) {item : Json} (hm : item ∈ items) : item.Exact := by
  obtain ⟨_,h⟩ := h
  cases h with
  | list h => exact ⟨_,h item hm⟩

theorem field (h : Exact (.record fields)) {field : String × Json} (hm : field ∈ fields) :
    field.2.Exact := by
  obtain ⟨_,h⟩ := h
  cases h with
  | record h => exact ⟨_,h field hm⟩

theorem list_nil : Exact (.list []) := list fun _ hm => by cases hm

theorem list_cons {item : Json} (hi : item.Exact) (h : Exact (.list items)) :
    Exact (.list (item :: items)) :=
  list (List.forall_mem_cons.mpr ⟨hi,fun _ hm => h.item hm⟩)

theorem record_nil : Exact (.record []) := record fun _ hm => by cases hm

theorem record_cons {key : String} {value : Json} (hv : value.Exact) (h : Exact (.record fields)) :
    Exact (.record ((key,value) :: fields)) :=
  record (List.forall_mem_cons.mpr ⟨hv,fun _ hm => h.field hm⟩)

theorem isWhole (h : j.Exact) : j.isWhole = true := by
  obtain ⟨_,h⟩ := h
  exact h.isWhole

end Exact

namespace Fits

theorem legible (h : j.Fits) : Legible depthLimit j := by
  obtain ⟨_,hlegible⟩ := h.exact
  exact hlegible.of_nesting h.nesting_lt

theorem read_compact (h : j.Fits) : read? j.compact = some j := Json.read_compact h.legible

theorem item (h : Fits (.list items)) {item : Json} (hm : item ∈ items) : item.Fits where
  exact := h.exact.item hm
  nesting_lt := by
    have hlt := h.nesting_lt
    have hle := nesting_le_of_item hm
    rw [nesting] at hlt
    omega

theorem field (h : Fits (.record fields)) {field : String × Json} (hm : field ∈ fields) :
    field.2.Fits where
  exact := h.exact.field hm
  nesting_lt := by
    have hlt := h.nesting_lt
    have hle := nesting_le_of_field hm
    rw [nesting] at hlt
    omega

/-- The field at a place fits. -/
theorem nth (h : Fits (.record fields)) (i : Nat) {field : String × Json}
    (hi : fields[i]? = some field) : field.2.Fits := h.field (List.mem_of_getElem? hi)

end Fits
end Wiring.Json
