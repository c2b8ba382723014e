import Mathlib
import Wiring.Proofs.Graph.Pointcuts
import Wiring.Proofs.Graph.Values
import Wiring.Proofs.Value.Saving

/-!
# The JSON form of graphs is read back

A graph of trees has a JSON form exactly if all its values have one, and the form is exact if the
values are. From a form that fits, every part of the graph is decoded as it was: what is optional
tells apart nothing and null, and the tables keep their order as long as their keys are distinct.
-/
namespace Wiring

open Json (Exact Fits Slot)
open Wiring.Tree (FloatsFit)

variable {α : Type}

theorem mapM_isSome {β : Type} {f : α → Option β} {as : List α} :
    (as.mapM f).isSome ↔ ∀ a ∈ as, (f a).isSome := by
  induction as with
  | nil => simp
  | cons a rest ih =>
    rw [List.mapM_cons,List.forall_mem_cons,← ih]
    cases f a <;> cases rest.mapM f <;> simp

theorem exact_forms {f : α → Option Json} {as : List α} {js : List Json}
    (hjs : as.mapM f = some js) (h : ∀ a ∈ as, ∀ j, f a = some j → j.Exact) : (Json.list js).Exact := by
  refine .list fun j hj => ?_
  obtain ⟨a,ha,hf⟩ := mem_of_forall₂ (mapM_eq_some.mp hjs) hj
  exact h a ha j hf

/-- Items are decoded from the forms of them. -/
theorem asList_forms {f : α → Option Json} {decode : Json → Option α} {as : List α}
    {js : List Json} (hjs : as.mapM f = some js) (hfits : (Json.list js).Fits)
    (h : ∀ a ∈ as, ∀ j, f a = some j → j.Fits → decode j = some a) :
    Json.asList decode (.list js) = some as := by
  have hforms := (List.forall₂_and_left _ _).mpr ⟨h,mapM_eq_some.mp hjs⟩
  have hitems := (List.forall₂_and_left _ _).mpr ⟨fun j hj => hfits.item hj,hforms.flip⟩
  exact mapM_eq_some.mpr (hitems.imp fun j a ⟨hj,ha,hf⟩ => ha j hf hj)

/-- The only value of a field is the one of its row. -/
theorem Json.valuesAt_nodup {fields : List (String × Json)} (hn : (fields.map Prod.fst).Nodup) :
    ∀ f ∈ fields, Json.valuesAt fields f.1 = [f.2] := by
  unfold Json.valuesAt
  induction fields with
  | nil => exact fun f hf => by cases hf
  | cons g rest ih =>
    rw [List.map_cons,List.nodup_cons] at hn
    have hother : ∀ f ∈ rest, f.1 ≠ g.1 := fun f hf heq =>
      hn.1 (heq ▸ List.mem_map_of_mem hf)
    refine List.forall_mem_cons.mpr ⟨?_,fun f hf => ?_⟩
    · have hnone : rest.filterMap (fun f => if f.1 = g.1 then some f.2 else none) = [] := by
        refine List.filterMap_eq_nil_iff.mpr fun f hf => ?_
        rw [if_neg (hother f hf)]
      rw [List.filterMap_cons,if_pos rfl,hnone]
    · rw [List.filterMap_cons,if_neg (hother f hf).symm]
      exact ih hn.2 f hf

/-- A record that is written with all its fields has them all in their slots. -/
theorem Json.slots_record {fields : List (String × Json)} {names : List String}
    (h : fields.map Prod.fst = names) (hn : names.Nodup) :
    (Json.record fields).slots names = some (fields.map fun f => .given f.2) := by
  subst h
  rw [Json.slots,Json.fieldSlots]
  · refine mapM_eq_some.mpr ?_
    rw [List.forall₂_map_left_iff,List.forall₂_map_right_iff,List.forall₂_same]
    intro f hf
    rw [Json.valuesAt_nodup hn f hf]
  · exact fun items hitems => by cases hitems

theorem exact_ofOption (s? : Option String) : (Json.ofOption .text s?).Exact := by
  cases s? with
  | none => exact .null
  | some s => exact .text s

theorem optional_ofOption (s? : Option String) :
    (Slot.given (Json.ofOption .text s?)).optional Json.asText = some s? := by
  cases s? <;> rfl

theorem exact_texts (names : List String) : (Json.texts names).Exact := by
  refine .list fun j hj => ?_
  obtain ⟨name,_,rfl⟩ := List.mem_map.mp hj
  exact .text name

section Rows

/-- A table whose keys are distinct is decoded row by row. -/
theorem asTable_rows {decode : Json → Option α} {rows : Table String α}
    {fields : List (String × Json)} (hn : (rows.map Prod.fst).Nodup)
    (h : List.Forall₂ (fun f r => f.1 = r.1 ∧ decode f.2 = some r.2) fields rows) :
    Json.asTable decode (.record fields) = some rows := by
  have hrows : fields.mapM (Json.decodeField decode) = some rows := by
    refine mapM_eq_some.mpr (h.imp fun f r hr => ?_)
    rw [Json.decodeField,hr.2,Option.map_some,hr.1]
  rw [Json.asTable,hrows,Option.map_some,Table.ofRows_nodup hn]

/-- What is saved of a row of a table of keys. -/
def keyRow? (encode : α → Option Json) (r : Key × α) : Option (String × Json) := do
  return (r.1.text,← encode r.2)

variable {encode : α → Option Json} {rows : Table Key α} {fields : List (String × Json)}

theorem keyRows_isSome :
    (rows.mapM (keyRow? encode)).isSome ↔ ∀ r ∈ rows, (encode r.2).isSome := by
  rw [mapM_isSome]
  refine forall₂_congr fun r _ => ?_
  rw [keyRow?]
  cases encode r.2 <;> simp

theorem keyRows_forall₂ (h : rows.mapM (keyRow? encode) = some fields) :
    List.Forall₂ (fun r f => r.1.text = f.1 ∧ encode r.2 = some f.2) rows fields := by
  refine (mapM_eq_some.mp h).imp fun r f hf => ?_
  simp only [keyRow?,Option.bind_eq_bind,Option.bind_eq_some_iff,Option.pure_def,
    Option.some.injEq] at hf
  obtain ⟨j,hj,rfl⟩ := hf
  exact ⟨rfl,hj⟩

theorem exact_keyRows (h : rows.mapM (keyRow? encode) = some fields)
    (hr : ∀ r ∈ rows, ∀ j, encode r.2 = some j → j.Exact) : (Json.record fields).Exact := by
  refine .record fun f hf => ?_
  obtain ⟨r,hm,_,hj⟩ := mem_of_forall₂ (keyRows_forall₂ h) hf
  exact hr r hm f.2 hj

/-- A table of keys is decoded from the rows that are saved of it. -/
theorem asTable_keyRows {decode : Json → Option α} (h : rows.mapM (keyRow? encode) = some fields)
    (hn : (rows.map Prod.fst).Nodup) (hfits : (Json.record fields).Fits)
    (hr : ∀ r ∈ rows, ∀ j, encode r.2 = some j → j.Fits → decode j = some r.2) :
    Json.asTable decode (.record fields) = some (rows.map fun r => (r.1.text,r.2)) := by
  have hrows := (List.forall₂_and_left _ _).mpr ⟨hr,keyRows_forall₂ h⟩
  have hfields := (List.forall₂_and_left _ _).mpr ⟨fun f hf => hfits.field hf,hrows.flip⟩
  refine asTable_rows ?_ ?_
  · have htexts : (rows.map Prod.fst).map Key.text =
        (rows.map fun r => (r.1.text,r.2)).map Prod.fst := by
      rw [List.map_map,List.map_map]
      rfl
    rw [← htexts]
    exact hn.map fun _ _ heq => congrArg Key.mk heq
  · rw [List.forall₂_map_right_iff]
    exact hfields.imp fun f r ⟨hf,hdecode,hkey,hform⟩ => ⟨hkey.symm,hdecode f.2 hform hf⟩

/-- The keys are made of their texts again. -/
theorem keys_again (rows : Table Key α) :
    (rows.map fun r => (r.1.text,r.2)).map (fun r => (Key.mk r.1,r.2)) = rows := by
  rw [List.map_map]
  exact List.map_id rows

end Rows

section Options

theorem optionToJson_isSome (t? : Option Tree) :
    (optionToJson? t?).isSome ↔ ∀ t ∈ t?.toList, t.toJson?.isSome := by
  cases t? <;> simp [optionToJson?]

theorem exact_optionToJson {t? : Option Tree} {j : Json} (hj : optionToJson? t? = some j)
    (h : ∀ t ∈ t?.toList, FloatsFit t.nodes) : j.Exact := by
  cases t? with
  | none =>
    obtain rfl := Option.some.inj hj
    exact .null
  | some t => exact t.exact_toJson j hj (h t (List.mem_singleton_self t))

/-- The form of a tree is a record, so it is told apart from nothing. -/
theorem Tree.toJson_ne_null {t : Tree} {j : Json} (hj : t.toJson? = some j) : j ≠ .null := by
  rintro rfl
  cases t with
  | array items =>
    obtain ⟨entries,next⟩ := items
    obtain ⟨_,_,h⟩ := Option.map_eq_some_iff.mp hj
    cases h
  | object className properties =>
    obtain ⟨_,_,h⟩ := Option.map_eq_some_iff.mp hj
    cases h
  | _ => cases hj

theorem optional_optionToJson {t? : Option Tree} {j : Json} (hj : optionToJson? t? = some j)
    (ht : ∀ t ∈ t?.toList, t.Literal) (hfits : j.Fits) :
    (Slot.given j).optional (Tree.ofJson? .kept) = some t? := by
  cases t? with
  | none =>
    obtain rfl := Option.some.inj hj
    rfl
  | some t =>
    have hne := Tree.toJson_ne_null hj
    have hread := (ht t (List.mem_singleton_self t)).ofJson_toJson hj hfits .kept
    cases j with
    | null => exact absurd rfl hne
    | _ => rw [Slot.optional,hread,Option.map_some]; exact hne

end Options

theorem Parameter.exact_toJson (p : Parameter) : p.toJson.Exact :=
  .record_cons (.text _) (.record_cons (.text _) (.record_cons (.text _) .record_nil))

theorem Parameter.ofJson_toJson (p : Parameter) : Parameter.ofJson? p.toJson = some p := by
  rw [ofJson?,toJson,Json.slots_record]
  · rfl
  · rfl
  · decide

namespace Argument

theorem toJson_isSome (a : Argument Tree) :
    a.toJson?.isSome ↔ ∀ t ∈ a.values, t.toJson?.isSome := by
  unfold values
  rw [List.forall_mem_append,← optionToJson_isSome,← optionToJson_isSome]
  unfold toJson?
  cases optionToJson? a.fallback <;> cases optionToJson? a.qualifier <;> simp

theorem toJson_eq_some {a : Argument Tree} {j : Json} (hj : a.toJson? = some j) :
    ∃ f q, optionToJson? a.fallback = some f ∧ optionToJson? a.qualifier = some q ∧
      j = .record [("key",.text a.key.text),("parameter",a.parameter.toJson),("default",f),
        ("qualifier",q),("set",Json.ofOption .text a.set)] := by
  simp only [toJson?,Option.bind_eq_bind,Option.bind_eq_some_iff,Option.pure_def,
    Option.some.injEq] at hj
  obtain ⟨f,hf,q,hq,rfl⟩ := hj
  exact ⟨f,q,hf,hq,rfl⟩

theorem exact_toJson {a : Argument Tree} {j : Json} (hj : a.toJson? = some j)
    (h : ∀ t ∈ a.values, FloatsFit t.nodes) : j.Exact := by
  obtain ⟨f,q,hf,hq,rfl⟩ := toJson_eq_some hj
  obtain ⟨hfallback,hqualifier⟩ := List.forall_mem_append.mp h
  apply Exact.record_cons (.text _)
  apply Exact.record_cons a.parameter.exact_toJson
  apply Exact.record_cons (exact_optionToJson hf hfallback)
  apply Exact.record_cons (exact_optionToJson hq hqualifier)
  exact .record_cons (exact_ofOption a.set) .record_nil

theorem ofJson_toJson {a : Argument Tree} {j : Json} (hj : a.toJson? = some j)
    (h : ∀ t ∈ a.values, t.Literal) (hfits : j.Fits) : ofJson? j = some a := by
  obtain ⟨f,q,hf,hq,rfl⟩ := toJson_eq_some hj
  obtain ⟨hfallback,hqualifier⟩ := List.forall_mem_append.mp h
  have hf' := optional_optionToJson hf hfallback (hfits.nth 2 rfl)
  have hq' := optional_optionToJson hq hqualifier (hfits.nth 3 rfl)
  have hset := optional_ofOption a.set
  rw [ofJson?,Json.slots_record]
  · simp only [List.map_cons,List.map_nil,Option.bind_eq_bind,Option.bind_some,Option.map_some,
      Slot.required,Key.ofJson?,Json.asText,a.parameter.ofJson_toJson,hf',hq',hset]
    rfl
  · rfl
  · decide

theorem list_isSome (as : List (Argument Tree)) :
    (as.mapM toJson?).isSome ↔ ∀ t ∈ as.flatMap values, t.toJson?.isSome := by
  rw [mapM_isSome,List.forall_mem_flatMap]
  exact forall₂_congr fun a _ => a.toJson_isSome

theorem exact_list {as : List (Argument Tree)} {js : List Json} (hjs : as.mapM toJson? = some js)
    (h : ∀ t ∈ as.flatMap values, FloatsFit t.nodes) : (Json.list js).Exact :=
  exact_forms hjs fun _ ha _ hj => exact_toJson hj (List.forall_mem_flatMap.mp h _ ha)

theorem asList_toJson {as : List (Argument Tree)} {js : List Json}
    (hjs : as.mapM toJson? = some js) (h : ∀ t ∈ as.flatMap values, t.Literal)
    (hfits : (Json.list js).Fits) : Json.asList ofJson? (.list js) = some as :=
  asList_forms hjs hfits fun _ ha _ hj =>
    ofJson_toJson hj (List.forall_mem_flatMap.mp h _ ha)

end Argument

namespace SetterCall

theorem toJson_isSome (s : SetterCall Tree) :
    s.toJson?.isSome ↔ ∀ t ∈ s.values, t.toJson?.isSome := by
  rw [values,← Argument.list_isSome,toJson?]
  cases s.arguments.mapM Argument.toJson? <;> simp

theorem toJson_eq_some {s : SetterCall Tree} {j : Json} (hj : s.toJson? = some j) :
    ∃ arguments, s.arguments.mapM Argument.toJson? = some arguments ∧
      j = .record [("method",.text s.method),("arguments",.list arguments),
        ("is_optional",.bool s.optional)] := by
  simp only [toJson?,Option.bind_eq_bind,Option.bind_eq_some_iff,Option.pure_def,
    Option.some.injEq] at hj
  obtain ⟨arguments,ha,rfl⟩ := hj
  exact ⟨arguments,ha,rfl⟩

theorem exact_toJson {s : SetterCall Tree} {j : Json} (hj : s.toJson? = some j)
    (h : ∀ t ∈ s.values, FloatsFit t.nodes) : j.Exact := by
  obtain ⟨arguments,ha,rfl⟩ := toJson_eq_some hj
  apply Exact.record_cons (.text _)
  apply Exact.record_cons (Argument.exact_list ha h)
  exact .record_cons (.bool _) .record_nil

theorem ofJson_toJson {s : SetterCall Tree} {j : Json} (hj : s.toJson? = some j)
    (h : ∀ t ∈ s.values, t.Literal) (hfits : j.Fits) : ofJson? j = some s := by
  obtain ⟨arguments,ha,rfl⟩ := toJson_eq_some hj
  have harguments := Argument.asList_toJson ha h (hfits.nth 1 rfl)
  rw [ofJson?,Json.slots_record]
  · simp only [List.map_cons,List.map_nil,Option.bind_eq_bind,Option.bind_some,Slot.required,
      Json.asText,Json.asBool,harguments]
    rfl
  · rfl
  · decide

end SetterCall

namespace Plan

theorem setters_isSome (ss : List (SetterCall Tree)) :
    (ss.mapM SetterCall.toJson?).isSome ↔
      ∀ t ∈ ss.flatMap SetterCall.values, t.toJson?.isSome := by
  rw [mapM_isSome,List.forall_mem_flatMap]
  exact forall₂_congr fun s _ => s.toJson_isSome

theorem fields_isSome (p : Plan Tree) :
    p.fields?.isSome ↔ ∀ t ∈ p.values, t.toJson?.isSome := by
  rw [values,List.forall_mem_append,← Argument.list_isSome,← setters_isSome,fields?]
  cases p.arguments.mapM Argument.toJson? <;> cases p.setters.mapM SetterCall.toJson? <;> simp

theorem fields_eq_some {p : Plan Tree} {fields : List (String × Json)}
    (hf : p.fields? = some fields) :
    ∃ arguments setters, p.arguments.mapM Argument.toJson? = some arguments ∧
      p.setters.mapM SetterCall.toJson? = some setters ∧
      fields = [("new_instance",.record [("class",.text p.className),
          ("arguments",.list arguments),("setters",.list setters)]),
        ("post_construct",Json.ofOption .text p.postConstruct),("is_singleton",.bool p.shared),
        ("bindings",.record (p.advice.map fun a => (a.1,Json.texts a.2)))] := by
  simp only [fields?,Option.bind_eq_bind,Option.bind_eq_some_iff,Option.pure_def,
    Option.some.injEq] at hf
  obtain ⟨arguments,ha,setters,hs,rfl⟩ := hf
  exact ⟨arguments,setters,ha,hs,rfl⟩

theorem exact_advice (advice : Table String (List String)) :
    (Json.record (advice.map fun a => (a.1,Json.texts a.2))).Exact := by
  refine .record fun field hfield => ?_
  obtain ⟨a,_,rfl⟩ := List.mem_map.mp hfield
  exact exact_texts a.2

theorem exact_fields {p : Plan Tree} {fields : List (String × Json)}
    (hf : p.fields? = some fields) (h : ∀ t ∈ p.values, FloatsFit t.nodes) :
    (Json.record fields).Exact := by
  obtain ⟨arguments,setters,ha,hs,rfl⟩ := fields_eq_some hf
  obtain ⟨harguments,hsetters⟩ := List.forall_mem_append.mp h
  have hcalls : (Json.list setters).Exact :=
    exact_forms hs fun _ hm _ hj =>
      SetterCall.exact_toJson hj (List.forall_mem_flatMap.mp hsetters _ hm)
  have hconstruction : (Json.record [("class",.text p.className),("arguments",.list arguments),
      ("setters",.list setters)]).Exact := by
    apply Exact.record_cons (.text _)
    apply Exact.record_cons (Argument.exact_list ha harguments)
    exact .record_cons hcalls .record_nil
  apply Exact.record_cons hconstruction
  apply Exact.record_cons (exact_ofOption p.postConstruct)
  apply Exact.record_cons (.bool _)
  exact .record_cons (exact_advice p.advice) .record_nil

theorem ofJson_fields {p : Plan Tree} {fields : List (String × Json)}
    (hf : p.fields? = some fields) (hn : (p.advice.map Prod.fst).Nodup)
    (h : ∀ t ∈ p.values, t.Literal) (hfits : (Json.record fields).Fits) :
    ofJson? (.record fields) = some p := by
  obtain ⟨arguments,setters,ha,hs,rfl⟩ := fields_eq_some hf
  obtain ⟨hvalues,hcalls⟩ := List.forall_mem_append.mp h
  have hconstruction := hfits.nth 0 rfl
  have harguments := Argument.asList_toJson ha hvalues (hconstruction.nth 1 rfl)
  have hsetters : Json.asList SetterCall.ofJson? (.list setters) = some p.setters :=
    asList_forms hs (hconstruction.nth 2 rfl) fun _ hm _ hj =>
      SetterCall.ofJson_toJson hj (List.forall_mem_flatMap.mp hcalls _ hm)
  have hpost := optional_ofOption p.postConstruct
  have hadvice : Json.asTable (Json.asList Json.asText)
      (.record (p.advice.map fun a => (a.1,Json.texts a.2))) = some p.advice := by
    refine asTable_rows hn ?_
    rw [List.forall₂_map_left_iff,List.forall₂_same]
    exact fun a _ => ⟨rfl,asList_texts a.2⟩
  have hslots : (Json.record [("class",.text p.className),("arguments",.list arguments),
      ("setters",.list setters)]).slots ["class","arguments","setters"] =
        some [.given (.text p.className),.given (.list arguments),.given (.list setters)] :=
    Json.slots_record rfl (by decide)
  rw [ofJson?,Json.slots_record]
  · simp only [List.map_cons,List.map_nil,ofSlots?,Option.bind_eq_bind,Option.bind_some,
      Slot.required,Slot.defaulted,Json.asText,Json.asBool,hslots,harguments,hsetters,hpost,hadvice]
    rfl
  · rfl
  · decide

end Plan

namespace Binding

theorem toJson_isSome (b : Binding Tree) :
    b.toJson?.isSome ↔ ∀ t ∈ b.values, t.toJson?.isSome := by
  cases b with
  | literal t =>
    rw [values,List.forall_mem_singleton,toJson?]
    cases t.toJson? <;> simp
  | construction p =>
    rw [values,← p.fields_isSome,toJson?]
    cases p.fields? <;> simp
  | provider p shared context =>
    rw [values,← p.fields_isSome,toJson?]
    cases p.fields? <;> simp
  | nullObject interface => simp [toJson?,values]

/-- The fields that belong to the kind of a binding. -/
inductive Form : Binding Tree → List (String × Json) → Prop where
  | literal {t : Tree} {value : Json} (h : t.toJson? = some value) :
      Form (.literal t) [("value",value)]
  | construction {p : Plan Tree} {fields : List (String × Json)} (h : p.fields? = some fields) :
      Form (.construction p) fields
  | provider {p : Plan Tree} {fields : List (String × Json)} (shared : Bool)
      (context : Option String) (h : p.fields? = some fields) :
      Form (.provider p shared context) [("dependency",.record fields),
        ("is_singleton",.bool shared),("context",Json.ofOption .text context)]
  | nullObject (interface : String) : Form (.nullObject interface) [("interface",.text interface)]

theorem form_of_toJson {b : Binding Tree} {j : Json} (hj : b.toJson? = some j) :
    ∃ fields, b.Form fields ∧ j = kinded b.kind fields := by
  cases b with
  | literal t =>
    simp only [toJson?,Option.bind_eq_bind,Option.bind_eq_some_iff,Option.pure_def,
      Option.some.injEq] at hj
    obtain ⟨value,hvalue,rfl⟩ := hj
    exact ⟨_,.literal hvalue,rfl⟩
  | construction p =>
    simp only [toJson?,Option.bind_eq_bind,Option.bind_eq_some_iff,Option.pure_def,
      Option.some.injEq] at hj
    obtain ⟨fields,hfields,rfl⟩ := hj
    exact ⟨_,.construction hfields,rfl⟩
  | provider p shared context =>
    simp only [toJson?,Option.bind_eq_bind,Option.bind_eq_some_iff,Option.pure_def,
      Option.some.injEq] at hj
    obtain ⟨fields,hfields,rfl⟩ := hj
    exact ⟨_,.provider shared context hfields,rfl⟩
  | nullObject interface => exact ⟨_,.nullObject interface,(Option.some.inj hj).symm⟩

theorem Form.exact {b : Binding Tree} {fields : List (String × Json)} (hb : b.Form fields)
    (h : ∀ t ∈ b.values, FloatsFit t.nodes) : (Json.record fields).Exact := by
  cases hb with
  | @literal t value hvalue =>
    exact .record_cons (t.exact_toJson value hvalue (h t (List.mem_singleton_self t))) .record_nil
  | construction hfields => exact Plan.exact_fields hfields h
  | provider shared context hfields =>
    apply Exact.record_cons (Plan.exact_fields hfields h)
    exact .record_cons (.bool shared) (.record_cons (exact_ofOption context) .record_nil)
  | nullObject interface => exact .record_cons (.text interface) .record_nil

theorem exact_toJson {b : Binding Tree} {j : Json} (hj : b.toJson? = some j)
    (h : ∀ t ∈ b.values, FloatsFit t.nodes) : j.Exact := by
  obtain ⟨fields,hform,rfl⟩ := form_of_toJson hj
  exact .record_cons (.text b.kind) (hform.exact h)

/-- No field is taken for a kind. -/
theorem Form.ne_kind {b : Binding Tree} {fields : List (String × Json)} (hb : b.Form fields) :
    ∀ f ∈ fields, f.1 ≠ "kind" := by
  cases hb with
  | construction hfields =>
    obtain ⟨arguments,setters,_,_,rfl⟩ := Plan.fields_eq_some hfields
    simp
  | _ => simp

/-- The kind is taken off, whatever the other fields are. -/
theorem withoutKind_kinded {fields : List (String × Json)} (kind : String)
    (h : ∀ f ∈ fields, f.1 ≠ "kind") :
    withoutKind (kinded kind fields) = some (kind,.record fields) := by
  have hnone : fields.filterMap (fun f => if f.1 = "kind" then some f.2 else none) = [] := by
    refine List.filterMap_eq_nil_iff.mpr fun f hf => ?_
    rw [if_neg (h f hf)]
  have hkeep : fields.filter (fun f => f.1 != "kind") = fields := by
    refine List.filter_eq_self.mpr fun f hf => ?_
    rw [bne_iff_ne]
    exact h f hf
  simp [withoutKind,kinded,Json.valuesAt,hnone,hkeep]

theorem fits_unkinded {kind : String} {fields : List (String × Json)}
    (h : (kinded kind fields).Fits) : (Json.record fields).Fits where
  exact := .record fun f hf => h.exact.field (List.mem_cons_of_mem _ hf)
  nesting_lt := by
    have hlt := h.nesting_lt
    simp only [kinded,Json.nesting,Json.fieldsNesting] at hlt ⊢
    omega

theorem ofJson_toJson {b : Binding Tree} {j : Json} (hj : b.toJson? = some j)
    (hn : ∀ p, b.plan? = some p → (p.advice.map Prod.fst).Nodup)
    (h : ∀ t ∈ b.values, t.Literal) (hfits : j.Fits) : ofJson? j = some b := by
  obtain ⟨fields,hform,rfl⟩ := form_of_toJson hj
  have hcontent := fits_unkinded hfits
  have hkind := withoutKind_kinded b.kind hform.ne_kind
  have hwhole := hcontent.exact.isWhole
  unfold ofJson?
  rw [hkind]
  cases hform with
  | @literal t value hvalue =>
    have ht := (h t (List.mem_singleton_self t)).ofJson_toJson hvalue (hcontent.nth 0 rfl) .kept
    have hslots : (Json.record [("value",value)]).slots ["value"] = some [.given value] :=
      Json.slots_record rfl (by decide)
    simp [hwhole,kind,hslots,Slot.required,ht]
  | @construction p _ hfields =>
    have hp := Plan.ofJson_fields hfields (hn p rfl) h hcontent
    simp [hwhole,kind,hp]
  | @provider p own shared context hfields =>
    have hp := Plan.ofJson_fields hfields (hn p rfl) h (hcontent.nth 0 rfl)
    have hcontext := optional_ofOption context
    have hslots : (Json.record [("dependency",.record own),("is_singleton",.bool shared),
        ("context",Json.ofOption .text context)]).slots ["dependency","is_singleton","context"] =
          some [.given (.record own),.given (.bool shared),.given (Json.ofOption .text context)] :=
      Json.slots_record rfl (by decide)
    simp [hwhole,kind,hslots,Slot.required,Json.asBool,hp,hcontext]
  | nullObject interface =>
    have hslots : (Json.record [("interface",.text interface)]).slots ["interface"] =
        some [.given (.text interface)] := Json.slots_record rfl (by decide)
    simp [hwhole,kind,hslots,Slot.required,Json.asText]

end Binding

namespace MapBinding

theorem exact_toJson (m : MapBinding) : m.toJson.Exact := by
  refine .record_cons (.list fun item hitem => ?_) .record_nil
  obtain ⟨e,_,rfl⟩ := List.mem_map.mp hitem
  exact .list_cons e.1.exact_toJson (.list_cons (.text _) .list_nil)

theorem ofJson_toJson (m : MapBinding) : ofJson? m.toJson = some m := by
  have helements : Json.asList (Tree.pair? ArrayKey.ofJson? Key.ofJson?)
      (.list (m.elements.map fun e => .list [e.1.toJson,.text e.2.text])) = some m.elements := by
    refine mapM_eq_some.mpr ?_
    rw [List.forall₂_map_left_iff,List.forall₂_same]
    intro e _
    simp [Tree.pair?,e.1.ofJson_toJson,Key.ofJson?,Json.asText]
  rw [ofJson?,toJson,Json.slots_record]
  · simp [Slot.required,helements]
  · rfl
  · decide

end MapBinding

namespace Container

/-- A graph has a JSON form exactly if all its values have one. -/
theorem toJson_isSome (c : Container Tree) :
    c.toJson?.isSome ↔ ∀ t ∈ c.values, t.toJson?.isSome := by
  have hrows : (c.bindings.mapM (keyRow? Binding.toJson?)).isSome ↔
      ∀ t ∈ c.values, t.toJson?.isSome := by
    rw [keyRows_isSome,values,List.forall_mem_flatMap]
    exact forall₂_congr fun b _ => b.2.toJson_isSome
  have hform : c.toJson? = (c.bindings.mapM (keyRow? Binding.toJson?)).map fun rows => .record
      [("bindings",.record rows),("pointcuts",.list (c.pointcuts.map Pointcut.toJson)),
        ("multi_bindings",.record (c.maps.map fun m => (m.1,m.2.toJson)))] :=
    Option.map_eq_bind.symm
  rw [← hrows,hform,Option.isSome_map]

theorem toJson_eq_some {c : Container Tree} {j : Json} (hj : c.toJson? = some j) :
    ∃ rows, c.bindings.mapM (keyRow? Binding.toJson?) = some rows ∧
      j = .record [("bindings",.record rows),
        ("pointcuts",.list (c.pointcuts.map Pointcut.toJson)),
        ("multi_bindings",.record (c.maps.map fun m => (m.1,m.2.toJson)))] := by
  obtain ⟨rows,hrows,heq⟩ := Option.bind_eq_some_iff.mp hj
  exact ⟨rows,hrows,(Option.some.inj heq).symm⟩

/-- The JSON form of a graph is exact if its values are. -/
theorem exact_toJson {c : Container Tree} {j : Json} (hj : c.toJson? = some j)
    (h : ∀ t ∈ c.values, FloatsFit t.nodes) : j.Exact := by
  obtain ⟨rows,hrows,rfl⟩ := toJson_eq_some hj
  have hbindings : (Json.record rows).Exact :=
    exact_keyRows hrows fun b hb _ hform =>
      Binding.exact_toJson hform (List.forall_mem_flatMap.mp h b hb)
  have hpointcuts : (Json.list (c.pointcuts.map Pointcut.toJson)).Exact := by
    refine .list fun item hitem => ?_
    obtain ⟨p,_,rfl⟩ := List.mem_map.mp hitem
    exact ⟨_,p.legible 0⟩
  have hmaps : (Json.record (c.maps.map fun m => (m.1,m.2.toJson))).Exact := by
    refine .record fun field hfield => ?_
    obtain ⟨m,_,rfl⟩ := List.mem_map.mp hfield
    exact m.2.exact_toJson
  exact .record_cons hbindings (.record_cons hpointcuts (.record_cons hmaps .record_nil))

/-- A graph is decoded from its JSON form. -/
theorem ofJson_toJson {c : Container Tree} {j : Json} (hj : c.toJson? = some j) (hc : c.Tabled)
    (h : ∀ t ∈ c.values, t.Literal) (hfits : j.Fits) : ofJson? j = some c := by
  obtain ⟨rows,hrows,rfl⟩ := toJson_eq_some hj
  have hbindings : Json.asTable Binding.ofJson? (.record rows) =
      some (c.bindings.map fun b => (b.1.text,b.2)) :=
    asTable_keyRows hrows hc.bindings (hfits.nth 0 rfl) fun b hb _ hform =>
      Binding.ofJson_toJson hform (hc.advice b hb) (List.forall_mem_flatMap.mp h b hb)
  have hpointcuts : Json.asList Pointcut.ofJson? (.list (c.pointcuts.map Pointcut.toJson)) =
      some c.pointcuts := by
    refine mapM_eq_some.mpr ?_
    rw [List.forall₂_map_left_iff,List.forall₂_same]
    exact fun p _ => p.ofJson_toJson
  have hmaps : Json.asTable MapBinding.ofJson?
      (.record (c.maps.map fun m => (m.1,m.2.toJson))) = some c.maps := by
    refine asTable_rows hc.maps ?_
    rw [List.forall₂_map_left_iff,List.forall₂_same]
    exact fun m _ => ⟨rfl,m.2.ofJson_toJson⟩
  rw [ofJson?,Json.slots_record]
  · simp [-List.map_map,Slot.required,Slot.defaulted,hbindings,hpointcuts,hmaps,keys_again]
  · rfl
  · decide

end Container
end Wiring
