import Mathlib
import Wiring.Proofs.Json.ReadBack
import Wiring.Proofs.Results
import Wiring.Proofs.Text.Base64
import Wiring.Proofs.Value.Literal
import Wiring.Value.Json

/-!
# The JSON form of literals is read back

A literal tree whose JSON form is legible is decoded from that form, whether the form is
decoded while its text is read or from what was kept of it.
-/
namespace Wiring

open Json (Legible Timing)

theorem int64_toInt (i : Int64) : int64? i.toInt = some i := by
  have hlow := i.minValue_le_toInt
  have hhigh := i.toInt_le
  unfold int64?
  rw [if_pos ⟨hlow,hhigh⟩,Int64.ofInt_toInt]

theorem ArrayKey.ofJson_toJson (key : ArrayKey) : ArrayKey.ofJson? key.toJson = some key := by
  cases key with
  | int i =>
    show ((Json.int i.toInt).asInt64).map ArrayKey.int = _
    rw [Json.asInt64,int64_toInt,Option.map_some]
  | text s => rfl

namespace Tree

theorem variant_tagged (timing : Timing) (names : List String) (type : String) (content : Json) :
    (tagged type content).variant timing names = some ⟨type,.given content,timing⟩ := by
  simp [tagged,Json.variant,Json.tag]

theorem variant_bare (timing : Timing) (names : List String) (type : String) :
    (Json.record [("type",.text type)]).variant timing names = some ⟨type,.absent,timing⟩ := by
  simp [Json.variant,Json.tag]

theorem entriesToJson_forall₂ {entries : List (ArrayKey × Tree)} {items : List Json}
    (h : entriesToJson? entries = some items) :
    List.Forall₂ (fun e item => ∃ j, e.2.toJson? = some j ∧ item = .list [e.1.toJson,j])
      entries items := by
  induction entries generalizing items with
  | nil =>
    obtain rfl := Option.some.inj h
    exact .nil
  | cons e rest ih =>
    simp only [entriesToJson?,Option.bind_eq_bind,Option.bind_eq_some_iff,Option.pure_def,
      Option.some.injEq] at h
    obtain ⟨j,hj,items,hrest,rfl⟩ := h
    exact .cons ⟨j,hj,rfl⟩ (ih hrest)

theorem propertiesToJson_forall₂ {properties : List (String × Tree)} {items : List Json}
    (h : propertiesToJson? properties = some items) :
    List.Forall₂ (fun p item => ∃ j, p.2.toJson? = some j ∧ item = .list [.text p.1,j])
      properties items := by
  induction properties generalizing items with
  | nil =>
    obtain rfl := Option.some.inj h
    exact .nil
  | cons p rest ih =>
    simp only [propertiesToJson?,Option.bind_eq_bind,Option.bind_eq_some_iff,Option.pure_def,
      Option.some.injEq] at h
    obtain ⟨j,hj,items,hrest,rfl⟩ := h
    exact .cons ⟨j,hj,rfl⟩ (ih hrest)

/-- The parts of a legible container are legible. -/
theorem legible_tagged {depth : Nat} {type : String} {content : Json}
    (h : Legible depth (tagged type content)) :
    ∃ d, depth = d + 2 ∧ Legible (d + 1) content := by
  cases h with
  | @record d _ h => exact ⟨d,rfl,h ("value",content) (by simp)⟩

theorem legible_item {depth : Nat} {items : List Json} {k j : Json}
    (h : Legible depth (.list items)) (hm : .list [k,j] ∈ items) :
    ∃ d, depth = d + 3 ∧ Legible (d + 1) j := by
  cases h with
  | @list d _ h =>
    have hpair := h _ hm
    generalize hd : d + 1 = e at hpair
    cases hpair with
    | @list d' _ h' => exact ⟨d',by omega,h' j (by simp)⟩

theorem decode_pairs {κ : Type} {key : Json → Option κ} {encode : κ → Json}
    (hkey : ∀ k, key (encode k) = some k) {rows : List (κ × Tree)} {items : List Json}
    (hr : List.Forall₂ (fun e item => ∃ j, e.2.toJson? = some j ∧ item = .list [encode e.1,j])
      rows items) {inner : Json → Option Tree}
    (hi : ∀ e ∈ rows, ∀ j, e.2.toJson? = some j → .list [encode e.1,j] ∈ items →
      inner j = some e.2) :
    Json.asList (pair? key inner) (.list items) = some rows := by
  refine mapM_eq_some.mpr (List.Forall₂.flip ?_)
  induction hr with
  | nil => exact .nil
  | @cons e item rows items he hr ih =>
    obtain ⟨j,hj,rfl⟩ := he
    have hinner := hi e List.mem_cons_self j hj List.mem_cons_self
    refine .cons ?_ (ih fun e' he' j' hj' hm =>
      hi e' (List.mem_cons_of_mem _ he') j' hj' (List.mem_cons_of_mem _ hm))
    show (key (encode e.1)).bind (fun k => (inner j).bind fun v => some (k,v)) = some e
    rw [hkey,hinner]
    rfl

/-- The JSON form of a literal tree is decoded to the tree. -/
theorem Literal.ofJsonTo_toJson {t : Tree} (ht : t.Literal) : ∀ {j : Json} {depth : Nat},
    t.toJson? = some j → Legible depth j → ∀ (n : Nat) (timing : Timing), depth ≤ n →
    ofJsonTo n timing j = some t := by
  induction ht with
  | null | injector =>
    intro j depth hj hl n timing hn
    obtain rfl := Option.some.inj hj
    cases hl with
    | record h =>
      obtain ⟨n,rfl⟩ : ∃ m, n = m + 1 := ⟨n - 1,by omega⟩
      rw [ofJsonTo,ofJsonWith,variant_bare]
      rfl
  | bool | float | text =>
    intro j depth hj hl n timing hn
    obtain rfl := Option.some.inj hj
    obtain ⟨d,rfl,_⟩ := legible_tagged hl
    obtain ⟨n,rfl⟩ : ∃ m, n = m + 1 := ⟨n - 1,by omega⟩
    rw [ofJsonTo,ofJsonWith,variant_tagged]
    rfl
  | int i =>
    intro j depth hj hl n timing hn
    obtain rfl := Option.some.inj hj
    obtain ⟨d,rfl,_⟩ := legible_tagged hl
    obtain ⟨n,rfl⟩ : ∃ m, n = m + 1 := ⟨n - 1,by omega⟩
    rw [ofJsonTo,ofJsonWith,variant_tagged]
    show ((Json.int i.toInt).asInt64).map Tree.int = _
    rw [Json.asInt64,int64_toInt,Option.map_some]
  | @array entries next hw h ih =>
    intro j depth hj hl n timing hn
    obtain ⟨items,hitems,rfl⟩ := Option.map_eq_some_iff.mp hj
    obtain ⟨d,rfl,hlist⟩ := legible_tagged hl
    obtain ⟨n,rfl⟩ : ∃ m, n = m + 1 := ⟨n - 1,by omega⟩
    have hdecode : Json.asList (pair? ArrayKey.ofJson? (ofJsonTo n timing)) (.list items) =
        some entries := by
      refine decode_pairs ArrayKey.ofJson_toJson (entriesToJson_forall₂ hitems)
        fun e he j hj hm => ?_
      obtain ⟨d',hd,hlegible⟩ := legible_item hlist hm
      exact ih e he hj hlegible n timing (by omega)
    have hentries : Keyed.ofEntries entries = ⟨entries,next⟩ := hw
    simp [ofJsonTo,ofJsonWith,variant_tagged,Json.Slot.required,hdecode,hentries]
  | @object properties className hn' h ih =>
    intro j depth hj hl n timing hn
    obtain ⟨items,hitems,rfl⟩ := Option.map_eq_some_iff.mp hj
    obtain ⟨d,rfl,hrecord⟩ := legible_tagged hl
    obtain ⟨n,rfl⟩ : ∃ m, n = m + 1 := ⟨n - 1,by omega⟩
    have hlist : ∃ d', d + 1 = d' + 2 ∧ Legible (d' + 1) (.list items) := by
      generalize hd : d + 1 = e at hrecord
      cases hrecord with
      | @record d' _ h => exact ⟨d',rfl,h ("properties",.list items) (by simp)⟩
    obtain ⟨d',hd',hlist⟩ := hlist
    have hdecode : Json.asList (pair? Json.asText (ofJsonTo n timing)) (.list items) =
        some properties := by
      have hkey : ∀ name, Json.asText (Json.text name) = some name := fun _ => rfl
      refine decode_pairs hkey (propertiesToJson_forall₂ hitems)
        fun p hp j hj hm => ?_
      obtain ⟨d'',hd'',hlegible⟩ := legible_item hlist hm
      exact ih p hp hj hlegible n timing (by omega)
    simp [ofJsonTo,ofJsonWith,variant_tagged,Json.Slot.required,Json.fieldSlots,Json.valuesAt,
      Json.asText,hdecode,Table.ofRows_nodup hn']
  | blob typeName bytes =>
    intro j depth hj hl n timing hn
    obtain rfl := Option.some.inj hj
    obtain ⟨d,rfl,_⟩ := legible_tagged hl
    obtain ⟨n,rfl⟩ : ∃ m, n = m + 1 := ⟨n - 1,by omega⟩
    simp [ofJsonTo,ofJsonWith,variant_tagged,Json.Slot.required,Json.fieldSlots,Json.valuesAt,
      Json.asText,Base64.decode_encode]

/-- What is saved of a literal tree is read back. -/
theorem Literal.read_toJson {t : Tree} (ht : t.Literal) {j : Json} (hj : t.toJson? = some j)
    (hl : Legible Json.depthLimit j) (timing : Timing) :
    (Json.read? j.compact).bind (ofJson? timing) = some t := by
  rw [Json.read_compact hl,Option.bind_some]
  exact ht.ofJsonTo_toJson hj hl _ timing (Nat.le_refl _)

end Tree
end Wiring
