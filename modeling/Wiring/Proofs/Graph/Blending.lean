import Mathlib
import Wiring.Proofs.Graph.Merging

/-!
# The algebra of putting graphs together

Overriding and filling differ only in which of two values of one key stays. In either way what
is there keeps its place and what is new goes to the end, so graphs can be put together in
groups, and the empty graph adds nothing. To fill a graph with a second one finds the same as to
override the second one with the first; only the places differ.
-/
namespace Wiring

namespace Table

variable {κ α : Type} [DecidableEq κ]

/-- The rows of the second table stored one after another in the first one; what is stored
depends on what is found there. -/
def blend (f : Option α → α → α) (t u : Table κ α) : Table κ α :=
  u.foldl (fun t row => t.put row.1 (f (t.find? row.1) row.2)) t

/-- Tables of distinct keys are the same if they have the same keys in the same order and find
the same. -/
theorem eq_of_keys {t u : Table κ α} (hkeys : t.map Prod.fst = u.map Prod.fst)
    (hnodup : (t.map Prod.fst).Nodup) (hfind : ∀ key, t.find? key = u.find? key) : t = u := by
  induction t generalizing u with
  | nil =>
    cases u with
    | nil => rfl
    | cons row rest => cases hkeys
  | cons row rest ih =>
    obtain ⟨k,a⟩ := row
    cases u with
    | nil => cases hkeys
    | cons other more =>
      obtain ⟨j,b⟩ := other
      rw [List.map_cons,List.map_cons] at hkeys
      obtain ⟨rfl,hrest⟩ : k = j ∧ rest.map Prod.fst = more.map Prod.fst := List.cons.inj hkeys
      rw [List.map_cons,List.nodup_cons] at hnodup
      have hfirst := hfind k
      rw [find?,if_pos rfl,find?,if_pos rfl] at hfirst
      obtain rfl := Option.some.inj hfirst
      rw [ih hrest hnodup.2]
      intro key
      by_cases hk : k = key
      · subst hk
        rw [find?_none hnodup.1,find?_none (hrest ▸ hnodup.1)]
      · have hkey := hfind key
        rwa [find?,if_neg hk,find?,if_neg hk] at hkey

section Blend

variable {f : Option α → α → α} {t u w : Table κ α}

/-- The keys that are there stay where they are, and the new ones follow in their order. -/
theorem keys_blend (hu : (u.map Prod.fst).Nodup) : (blend f t u).map Prod.fst =
    t.map Prod.fst ++ (u.map Prod.fst).filter (· ∉ t.map Prod.fst) := by
  induction u generalizing t with
  | nil => simp [blend]
  | cons row rest ih =>
    rw [List.map_cons,List.nodup_cons] at hu
    rw [blend,List.foldl_cons]
    refine (ih hu.2).trans ?_
    rw [List.map_cons]
    by_cases hrow : row.1 ∈ t.map Prod.fst
    · rw [keys_put _ hrow,List.filter_cons_of_neg (by simpa using hrow)]
    · have hrest : (rest.map Prod.fst).filter (· ∉ t.map Prod.fst ++ [row.1]) =
          (rest.map Prod.fst).filter (· ∉ t.map Prod.fst) := by
        refine List.filter_congr fun key hkey => ?_
        have hne : key ≠ row.1 := fun h => hu.1 (h ▸ hkey)
        simp [hne]
      rw [put_new hrow,List.map_append,List.map_singleton,hrest,
        List.filter_cons_of_pos (by simpa using hrow),List.append_assoc,List.singleton_append]

theorem find?_blend (hu : (u.map Prod.fst).Nodup) (key : κ) :
    (blend f t u).find? key = ((u.find? key).map (f (t.find? key)) <|> t.find? key) := by
  induction u generalizing t with
  | nil => rfl
  | cons row rest ih =>
    obtain ⟨k,a⟩ := row
    rw [List.map_cons,List.nodup_cons] at hu
    rw [blend,List.foldl_cons]
    refine (ih hu.2).trans ?_
    rw [find?]
    by_cases hk : k = key
    · subst hk
      rw [find?_none hu.1,find?_put_self,if_pos rfl]
      rfl
    · rw [find?_put_of_ne _ _ (Ne.symm hk),if_neg hk]

theorem nodup_blend (ht : (t.map Prod.fst).Nodup) : ((blend f t u).map Prod.fst).Nodup := by
  induction u generalizing t with
  | nil => exact ht
  | cons row rest ih => exact ih (nodup_put _ _ ht)

theorem mem_blend {P : α → Prop} (ht : ∀ row ∈ t, P row.2) (hu : ∀ row ∈ u, P row.2)
    (hf : ∀ o v, (∀ a, o = some a → P a) → P v → P (f o v)) : ∀ row ∈ blend f t u, P row.2 := by
  induction u generalizing t with
  | nil => exact ht
  | cons row rest ih =>
    obtain ⟨hrow,hrest⟩ := List.forall_mem_cons.mp hu
    refine ih (fun other hother => ?_) hrest
    rcases mem_put hother with hother | hother
    · exact ht other hother
    · rw [hother]
      exact hf _ _ (fun a ha => ht _ (mem_of_find? ha)) hrow

/-- The keys of three tables that are blended, in whichever groups. -/
theorem keys_blend_blend (hu : (u.map Prod.fst).Nodup) (hw : (w.map Prod.fst).Nodup) :
    (blend f (blend f t u) w).map Prod.fst = (blend f t (blend f u w)).map Prod.fst := by
  rw [keys_blend hw,keys_blend hu,keys_blend (nodup_blend hu),keys_blend hw,List.filter_append,
    List.append_assoc,List.filter_filter]
  congr 2
  refine List.filter_congr fun key _ => ?_
  simp only [List.mem_append,List.mem_filter,decide_eq_true_eq]
  grind

/-- To blend in groups is the same if it is for the values under each key. -/
theorem blend_assoc {P : α → Prop}
    (halone : ∀ o w, P w → f o (f none w) = f o w)
    (hgroup : ∀ o v w, (∀ a ∈ o, P a) → P v → P w → f (some (f o v)) w = f o (f (some v) w))
    (ht : (t.map Prod.fst).Nodup) (hu : (u.map Prod.fst).Nodup) (hw : (w.map Prod.fst).Nodup)
    (hPt : ∀ row ∈ t, P row.2) (hPu : ∀ row ∈ u, P row.2) (hPw : ∀ row ∈ w, P row.2) :
    blend f (blend f t u) w = blend f t (blend f u w) := by
  refine eq_of_keys (keys_blend_blend hu hw) (nodup_blend (nodup_blend ht)) fun key => ?_
  rw [find?_blend hw,find?_blend hu,find?_blend (nodup_blend hu),find?_blend hw]
  cases hfw : w.find? key with
  | none => cases u.find? key <;> rfl
  | some c =>
    have hc := hPw _ (mem_of_find? hfw)
    cases hfu : u.find? key with
    | none => exact congrArg some (halone _ c hc).symm
    | some b =>
      have hb := hPu _ (mem_of_find? hfu)
      exact congrArg some (hgroup _ b c (fun a ha => hPt _ (mem_of_find? ha)) hb hc)

theorem blend_nil_left (hu : (u.map Prod.fst).Nodup) (hf : ∀ row ∈ u, f none row.2 = row.2) :
    blend f [] u = u := by
  refine eq_of_keys ?_ (nodup_blend List.nodup_nil) fun key => ?_
  · rw [keys_blend hu]
    simp
  · rw [find?_blend hu]
    cases hfind : u.find? key with
    | none => rfl
    | some a => exact congrArg some (hf _ (mem_of_find? hfind))

theorem putNew_eq (t : Table κ α) (key : κ) (value : α) :
    t.putNew key value = t.put key ((t.find? key).getD value) := by
  unfold putNew has
  cases hfind : t.find? key with
  | none =>
    have hnew : key ∉ t.map Prod.fst := fun hmem => by
      have hhas := has_of_mem_keys hmem
      rw [has,hfind] at hhas
      cases hhas
    exact (put_new hnew).symm
  | some a => exact (put_found hfind).symm

end Blend
end Table

/-- Which of two values of one key stays: what it depends on is only which of them there are,
and whether two of three are compared first makes no difference. -/
structure Preference where
  pick : {α : Type} → Option α → α → α
  alone : ∀ {α : Type} (v : α), pick none v = v
  group : ∀ {α : Type} (o : Option α) (v w : α), pick (some (pick o v)) w = pick o (pick (some v) w)

namespace Preference

/-- The value that comes second stays. -/
def later : Preference := ⟨fun _ v => v,fun _ => rfl,fun _ _ _ => rfl⟩

/-- The value that is there stays. -/
def earlier : Preference :=
  ⟨fun o v => o.getD v,fun _ => rfl,fun o _ _ => by cases o <;> rfl⟩

end Preference

namespace MapBinding

/-- No key has two elements. -/
def Keyed (m : MapBinding) : Prop := (m.elements.map Prod.fst).Nodup

instance (m : MapBinding) : Decidable m.Keyed :=
  inferInstanceAs (Decidable (m.elements.map Prod.fst).Nodup)

variable (p : Preference) {m n o : MapBinding}

/-- The elements of the second map stored in the first one. -/
def blend (m n : MapBinding) : MapBinding := ⟨Table.blend p.pick m.elements n.elements⟩

theorem override_eq (m n : MapBinding) : m.override n = m.blend .later n := by
  obtain ⟨rows⟩ := m
  obtain ⟨more⟩ := n
  rw [override,blend,Table.blend]
  induction more generalizing rows with
  | nil => rfl
  | cons row rest ih => exact ih _

theorem fill_eq (m n : MapBinding) : m.fill n = m.blend .earlier n := by
  obtain ⟨rows⟩ := m
  obtain ⟨more⟩ := n
  rw [fill,blend,Table.blend]
  induction more generalizing rows with
  | nil => rfl
  | cons row rest ih =>
    have hstep : (if contains ⟨rows⟩ row.1 then (⟨rows⟩ : MapBinding)
        else insert ⟨rows⟩ row.1 row.2) =
        ⟨Table.put rows row.1 (Preference.earlier.pick (Table.find? rows row.1) row.2)⟩ := by
      unfold contains insert Table.has
      cases hfind : Table.find? rows row.1 with
      | none => rfl
      | some a => exact congrArg MapBinding.mk (Table.put_found hfind).symm
    rw [List.foldl_cons,List.foldl_cons,hstep]
    exact ih _

theorem blend_assoc (hm : m.Keyed) (hn : n.Keyed) (ho : o.Keyed) :
    (m.blend p n).blend p o = m.blend p (n.blend p o) :=
  congrArg MapBinding.mk (Table.blend_assoc (P := fun _ => True)
    (fun _ w _ => by rw [p.alone w]) (fun o v w _ _ _ => p.group o v w) hm hn ho
    (fun _ _ => trivial) (fun _ _ => trivial) fun _ _ => trivial)

theorem empty_blend (hm : m.Keyed) : empty.blend p m = m :=
  congrArg MapBinding.mk (Table.blend_nil_left hm fun row _ => p.alone row.2)

theorem empty_keyed : empty.Keyed := List.nodup_nil

theorem Keyed.blend (hm : m.Keyed) (n : MapBinding) : (m.blend p n).Keyed :=
  Table.nodup_blend hm

/-- The same element under each key, in whichever places. -/
def Same (m n : MapBinding) : Prop := ∀ key, Table.find? m.elements key = Table.find? n.elements key

theorem same_swapped (hm : m.Keyed) (hn : n.Keyed) : (m.blend .earlier n).Same (n.blend .later m) := by
  intro key
  rw [blend,blend,Table.find?_blend hn,Table.find?_blend hm]
  cases Table.find? m.elements key <;> cases Table.find? n.elements key <;> rfl

theorem keys_blend (hn : n.Keyed) :
    m.elements.map Prod.fst <+: (m.blend p n).elements.map Prod.fst := by
  rw [blend,Table.keys_blend hn]
  exact List.prefix_append _ _

end MapBinding

namespace Container

variable {ν : Type}

/-- No key is bound twice, no interface has two maps, and no key has two elements of a map. -/
structure Keyed (c : Container ν) : Prop where
  bindings : (c.bindings.map Prod.fst).Nodup
  interfaces : (c.maps.map Prod.fst).Nodup
  elements : ∀ row ∈ c.maps, row.2.Keyed

instance (c : Container ν) : Decidable c.Keyed :=
  decidable_of_iff ((c.bindings.map Prod.fst).Nodup ∧ (c.maps.map Prod.fst).Nodup ∧
      ∀ row ∈ c.maps, row.2.Keyed)
    ⟨fun ⟨hbindings,hinterfaces,helements⟩ => ⟨hbindings,hinterfaces,helements⟩,
      fun h => ⟨h.bindings,h.interfaces,h.elements⟩⟩

/-- The map of the second graph put together with the one that is there, if any. -/
def blendMap (p : Preference) (o : Option MapBinding) (m : MapBinding) : MapBinding :=
  (o.getD .empty).blend p m

/-- The second graph stored in the first one. -/
def blend (p : Preference) (c other : Container ν) : Container ν where
  bindings := Table.blend p.pick c.bindings other.bindings
  pointcuts := c.pointcuts ++ other.pointcuts
  maps := Table.blend (blendMap p) c.maps other.maps

theorem override_eq (a b : Container ν) : a.override b = a.blend .later b := by
  have hmaps : (fun (t : Table String MapBinding) (row : String × MapBinding) =>
      t.put row.1 (((t.find? row.1).getD .empty).override row.2)) =
      fun t row => t.put row.1 (blendMap .later (t.find? row.1) row.2) := by
    funext t row
    rw [MapBinding.override_eq,blendMap]
  rw [override,hmaps,blend]
  rfl

theorem fill_eq (a b : Container ν) : a.fill b = a.blend .earlier b := by
  have hmaps : (fun (t : Table String MapBinding) (row : String × MapBinding) =>
      t.put row.1 (((t.find? row.1).getD .empty).fill row.2)) =
      fun t row => t.put row.1 (blendMap .earlier (t.find? row.1) row.2) := by
    funext t row
    rw [MapBinding.fill_eq,blendMap]
  have hbindings : (fun (t : Table Key (Binding ν)) (row : Key × Binding ν) =>
      t.putNew row.1 row.2) =
      fun t row => t.put row.1 (Preference.earlier.pick (t.find? row.1) row.2) := by
    funext t row
    exact Table.putNew_eq t row.1 row.2
  rw [fill,hmaps,hbindings,blend]
  rfl

section Laws

variable (p : Preference) {a b c : Container ν}

theorem empty_keyed : (empty : Container ν).Keyed :=
  ⟨List.nodup_nil,List.nodup_nil,fun _ hrow => absurd hrow List.not_mem_nil⟩

theorem getD_keyed {o : Option MapBinding} (ho : ∀ m ∈ o, m.Keyed) : (o.getD .empty).Keyed := by
  cases o with
  | none => exact MapBinding.empty_keyed
  | some m => exact ho m rfl

theorem blend_assoc (ha : a.Keyed) (hb : b.Keyed) (hc : c.Keyed) :
    (a.blend p b).blend p c = a.blend p (b.blend p c) := by
  have hbindings : Table.blend p.pick (Table.blend p.pick a.bindings b.bindings) c.bindings =
      Table.blend p.pick a.bindings (Table.blend p.pick b.bindings c.bindings) :=
    Table.blend_assoc (P := fun _ => True) (fun _ w _ => by rw [p.alone w])
      (fun o v w _ _ _ => p.group o v w) ha.bindings hb.bindings hc.bindings
      (fun _ _ => trivial) (fun _ _ => trivial) fun _ _ => trivial
  have hmaps : Table.blend (blendMap p) (Table.blend (blendMap p) a.maps b.maps) c.maps =
      Table.blend (blendMap p) a.maps (Table.blend (blendMap p) b.maps c.maps) := by
    refine Table.blend_assoc (P := MapBinding.Keyed) (fun o w hw => ?_)
      (fun o v w ho hv hw => ?_) ha.interfaces hb.interfaces hc.interfaces
      ha.elements hb.elements hc.elements
    · exact congrArg (blendMap p o) (MapBinding.empty_blend p hw)
    · exact MapBinding.blend_assoc p (getD_keyed ho) hv hw
  rw [blend,blend,blend,blend,hbindings,hmaps,List.append_assoc]

theorem blend_empty : a.blend p empty = a := by
  rw [blend,empty,List.append_nil]
  rfl

theorem empty_blend (ha : a.Keyed) : empty.blend p a = a := by
  have hbindings : Table.blend p.pick [] a.bindings = a.bindings :=
    Table.blend_nil_left ha.bindings fun row _ => p.alone row.2
  have hmaps : Table.blend (blendMap p) [] a.maps = a.maps :=
    Table.blend_nil_left ha.interfaces fun row hrow =>
      MapBinding.empty_blend p (ha.elements row hrow)
  rw [blend,empty,hbindings,hmaps,List.nil_append]

theorem get?_blend (hb : b.Keyed) (key : Key) :
    (a.blend p b).get? key = ((b.get? key).map (p.pick (a.get? key)) <|> a.get? key) :=
  Table.find?_blend hb.bindings key

theorem map?_blend (hb : b.Keyed) (interface : String) : (a.blend p b).map? interface =
    ((b.map? interface).map (blendMap p (a.map? interface)) <|> a.map? interface) :=
  Table.find?_blend hb.interfaces interface

/-- What the first graph has comes first in the second one, in the same order. -/
structure Leads (c result : Container ν) : Prop where
  bindings : c.bindings.map Prod.fst <+: result.bindings.map Prod.fst
  pointcuts : c.pointcuts <+: result.pointcuts
  interfaces : c.maps.map Prod.fst <+: result.maps.map Prod.fst
  elements : ∀ interface, ∀ m ∈ c.map? interface, ∃ n ∈ result.map? interface,
    m.elements.map Prod.fst <+: n.elements.map Prod.fst

theorem leads_blend (hb : b.Keyed) : a.Leads (a.blend p b) where
  bindings := by
    rw [blend,Table.keys_blend hb.bindings]
    exact List.prefix_append _ _
  pointcuts := List.prefix_append _ _
  interfaces := by
    rw [blend,Table.keys_blend hb.interfaces]
    exact List.prefix_append _ _
  elements := by
    intro interface m hm
    have ha : a.map? interface = some m := hm
    rw [map?_blend p hb,ha]
    cases hn : b.map? interface with
    | none => exact ⟨m,rfl,List.prefix_refl _⟩
    | some n =>
      exact ⟨_,rfl,MapBinding.keys_blend p (hb.elements _ (Table.mem_of_find? hn))⟩

end Laws

section Swapped

variable {a b : Container ν}

/-- To fill a graph and to override what fills it find the same binding. -/
theorem get?_swapped (ha : a.Keyed) (hb : b.Keyed) (key : Key) :
    (a.blend .earlier b).get? key = (b.blend .later a).get? key := by
  rw [get?_blend _ hb,get?_blend _ ha]
  cases a.get? key <;> cases b.get? key <;> rfl

/-- To fill a graph and to override what fills it find maps of the same elements. -/
theorem map?_swapped (ha : a.Keyed) (hb : b.Keyed) (interface : String) : Option.Rel MapBinding.Same
    ((a.blend .earlier b).map? interface) ((b.blend .later a).map? interface) := by
  rw [map?_blend _ hb,map?_blend _ ha]
  cases hfa : a.map? interface with
  | none =>
    cases hfb : b.map? interface with
    | none => exact .none
    | some n =>
      refine .some ?_
      rw [blendMap,Option.getD_none,
        MapBinding.empty_blend _ (hb.elements _ (Table.mem_of_find? hfb))]
      exact fun _ => rfl
  | some m =>
    have hm := ha.elements _ (Table.mem_of_find? hfa)
    cases hfb : b.map? interface with
    | none =>
      refine .some ?_
      rw [blendMap,Option.getD_none,MapBinding.empty_blend _ hm]
      exact fun _ => rfl
    | some n => exact .some (MapBinding.same_swapped hm (hb.elements _ (Table.mem_of_find? hfb)))

end Swapped

/-- Both ways of putting graphs together are associative with the empty graph as their unit,
they find the same with the graphs exchanged, and what is there keeps its place. -/
theorem override_and_fill_are_ordered {a b c : Container ν} (ha : a.Keyed) (hb : b.Keyed)
    (hc : c.Keyed) :
    ((a.override b).override c = a.override (b.override c) ∧
      (a.fill b).fill c = a.fill (b.fill c)) ∧
    (a.override empty = a ∧ empty.override a = a ∧ a.fill empty = a ∧ empty.fill a = a) ∧
    (∀ key, (a.fill b).get? key = (b.override a).get? key) ∧
    (∀ interface, Option.Rel MapBinding.Same
      ((a.fill b).map? interface) ((b.override a).map? interface)) ∧
    a.Leads (a.override b) ∧ a.Leads (a.fill b) := by
  simp only [override_eq,fill_eq]
  refine ⟨⟨blend_assoc _ ha hb hc,blend_assoc _ ha hb hc⟩,
    ⟨blend_empty _,empty_blend _ ha,blend_empty _,empty_blend _ ha⟩,
    get?_swapped ha hb,map?_swapped ha hb,leads_blend _ hb,leads_blend _ hb⟩

/-- A graph that binds an interface and has a map of it with two elements. -/
def twoElements (value : Int) (i j : ArrayKey) : Container Int :=
  ⟨[(.any "Engine",.literal value),(MapBinding.elementKey "Engine" i,.literal value),
      (MapBinding.elementKey "Engine" j,.literal value)],
    [⟨.any,.any,["Logger"]⟩],
    [("Engine",⟨[(i,MapBinding.elementKey "Engine" i),(j,MapBinding.elementKey "Engine" j)]⟩)]⟩

/-- Three graphs that bind the same interface and have maps of it that share keys. -/
theorem override_and_fill_are_ordered_sample :
    let a := twoElements 1 (.int 0) (.text "spare")
    let b := twoElements 2 (.int 7) (.int 0)
    let c := twoElements 3 (.text "spare") (.int 7)
    (a.Keyed ∧ b.Keyed ∧ c.Keyed) ∧ (a.override b).override c = a.override (b.override c) ∧
      (a.fill b).fill c = a.fill (b.fill c) := by
  intro a b c
  have ha : a.Keyed := by decide +kernel
  have hb : b.Keyed := by decide +kernel
  have hc : c.Keyed := by decide +kernel
  exact ⟨⟨ha,hb,hc⟩,(override_and_fill_are_ordered ha hb hc).1⟩

end Container
end Wiring
