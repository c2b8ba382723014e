import Mathlib
import Wiring.Proofs.Classes.Rooted

/-!
# The line of a class

A class that is registered with its parent, the parent's parent and so on has a line that ends
there. The classes of a line are different ones, so walks along parents come to their end. They
find the methods of the whole line, those of the oldest class first and each once, and of the
bodies of a method the one that is nearest.
-/
namespace Wiring

open Work

/-- The class is registered with its parents; the line names them with the oldest first. -/
inductive Registry.Line (r : Registry) : String → List (String × ClassDecl) → Prop where
  | eldest {name : String} {c : ClassDecl} (hc : r.classes.find? name = some c)
      (hp : c.parent = none) : Line r name [(name,c)]
  | child {name parent : String} {c : ClassDecl} {line : List (String × ClassDecl)}
      (hc : r.classes.find? name = some c) (hp : c.parent = some parent)
      (h : Line r parent line) : Line r name (line ++ [(name,c)])

/-- The methods of the class itself; what a constructor call runs is none of them. -/
def ClassDecl.ownMethods (c : ClassDecl) : List String :=
  c.methods.keys.filter fun m => m != ClassDecl.constructorName

/-- The methods of a line, those of the oldest class first. -/
def Classes.methodsOf (line : List (String × ClassDecl)) : List String :=
  (line.flatMap fun row => row.2.ownMethods).eraseDups

/-- The body that a call of the method runs: that of the youngest class that has one. -/
def Classes.bodyIn (method : String) (line : List (String × ClassDecl)) : Option Body :=
  line.reverse.findSome? fun row => row.2.methods.find? method

namespace Registry.Line

variable {r : Registry} {name : String} {c : ClassDecl} {line other : List (String × ClassDecl)}

theorem found (h : r.Line name line) : ∃ c,r.classes.find? name = some c := by
  cases h with
  | eldest hc _ => exact ⟨_,hc⟩
  | child hc _ _ => exact ⟨_,hc⟩

theorem mono {r' : Registry} (h : r.Line name line)
    (hr : ∀ name c,r.classes.find? name = some c → r'.classes.find? name = some c) :
    r'.Line name line := by
  induction h with
  | eldest hc hp => exact .eldest (hr _ _ hc) hp
  | child hc hp _ ih => exact .child (hr _ _ hc) hp ih

theorem unique (h : r.Line name line) (h' : r.Line name other) : line = other := by
  induction h generalizing other with
  | eldest hc hp =>
    cases h' with
    | eldest hc' _ => rw [Option.some.inj (hc.symm.trans hc')]
    | child hc' hp' _ =>
      obtain rfl := Option.some.inj (hc.symm.trans hc')
      cases hp.symm.trans hp'
  | child hc hp _ ih =>
    cases h' with
    | eldest hc' hp' =>
      obtain rfl := Option.some.inj (hc.symm.trans hc')
      cases hp.symm.trans hp'
    | child hc' hp' h' =>
      obtain rfl := Option.some.inj (hc.symm.trans hc')
      obtain rfl := Option.some.inj (hp.symm.trans hp')
      rw [ih h']

/-- Every class of a line has a line of its own, which is no longer. -/
theorem of_mem (h : r.Line name line) {row : String × ClassDecl} (hrow : row ∈ line) :
    r.classes.find? row.1 = some row.2 ∧ ∃ older,r.Line row.1 older ∧ older.length ≤ line.length := by
  induction h with
  | eldest hc hp =>
    obtain rfl := List.mem_singleton.mp hrow
    exact ⟨hc,_,.eldest hc hp,Nat.le_refl _⟩
  | @child name parent c line hc hp h ih =>
    rcases List.mem_append.mp hrow with hold | hown
    · obtain ⟨hfound,older,holder,hle⟩ := ih hold
      refine ⟨hfound,older,holder,?_⟩
      rw [List.length_append]
      omega
    · obtain rfl := List.mem_singleton.mp hown
      exact ⟨hc,_,.child hc hp h,Nat.le_refl _⟩

theorem nodup (h : r.Line name line) : (line.map Prod.fst).Nodup := by
  induction h with
  | eldest hc hp => exact List.nodup_singleton _
  | @child name parent c line hc hp h ih =>
    rw [List.map_append,List.map_singleton]
    apply List.nodup_append.mpr
    refine ⟨ih,List.nodup_singleton _,fun a ha b hb hab => ?_⟩
    obtain rfl := List.mem_singleton.mp hb
    obtain ⟨row,hrow,rfl⟩ := List.mem_map.mp ha
    -- a class that came up twice would have lines of two lengths
    obtain ⟨_,older,holder,hle⟩ := h.of_mem hrow
    rw [hab] at holder
    have hlength := congrArg List.length (holder.unique (.child hc hp h))
    rw [List.length_append,List.length_singleton] at hlength
    omega

theorem length_le (h : r.Line name line) : line.length ≤ r.classes.length := by
  have hsub : line.map Prod.fst ⊆ r.classes.keys := by
    intro d hd
    obtain ⟨row,hrow,rfl⟩ := List.mem_map.mp hd
    apply Table.mem_keys_of_has
    rw [Table.has,(h.of_mem hrow).1]
    rfl
  have hle := (h.nodup.subperm hsub).length_le
  rwa [Table.keys,List.length_map,List.length_map] at hle

/-- A class that is registered with its ancestors has a line. -/
theorem of_rooted (h : r.Rooted name) : ∃ line,r.Line name line := by
  induction h with
  | @intro name c hc _ hp _ ih =>
    cases hparent : c.parent with
    | none => exact ⟨_,.eldest hc hparent⟩
    | some parent =>
      obtain ⟨line,hline⟩ := ih parent hparent
      exact ⟨_,.child hc hparent hline⟩

end Registry.Line

namespace Classes

variable {r : Registry} {name method : String} {c : ClassDecl} {line : List (String × ClassDecl)}

/-- Adding new names one by one drops the later duplicates. -/
theorem appendNew_eraseDups (names more : List String) :
    appendNew names.eraseDups more = (names ++ more).eraseDups := by
  induction more generalizing names with
  | nil => rw [List.append_nil]; rfl
  | cons n rest ih =>
    have hstep : (if names.eraseDups.contains n then names.eraseDups else names.eraseDups ++ [n]) =
        (names ++ [n]).eraseDups := by
      rw [eraseDups_concat]
      simp only [List.contains_iff_mem,List.mem_eraseDups]
    have happend : names ++ n :: rest = names ++ [n] ++ rest := by simp
    rw [happend,← ih,← hstep]
    rfl

theorem methodsOf_concat (line : List (String × ClassDecl)) (name : String) (c : ClassDecl) :
    methodsOf (line ++ [(name,c)]) = appendNew (methodsOf line) c.ownMethods := by
  unfold methodsOf
  rw [appendNew_eraseDups,List.flatMap_append,List.flatMap_singleton]

theorem methodNamesTo_line (h : r.Line name line) {fuel : Nat} (hfuel : line.length ≤ fuel)
    {site : Site} (hsite : site.registry = r) :
    methodNamesTo fuel name site = (.ok (methodsOf line),site) := by
  subst hsite
  induction h generalizing fuel with
  | @eldest name c hc hp =>
    obtain ⟨fuel,rfl⟩ : ∃ n,fuel = n + 1 := Nat.exists_eq_add_of_le' hfuel
    rw [methodNamesTo,run_bind (find_registered hc),hp]
    rw [← List.nil_append [(name,c)],methodsOf_concat]
    rfl
  | @child name parent c line hc hp h ih =>
    rw [List.length_append,List.length_singleton] at hfuel
    obtain ⟨fuel,rfl⟩ : ∃ n,fuel = n + 1 := ⟨fuel - 1,by omega⟩
    have hleft : line.length ≤ fuel := by omega
    have habove := ih hleft
    rw [methodNamesTo,run_bind (find_registered hc),hp,methodsOf_concat]
    dsimp only
    rw [run_bind habove]
    rfl

theorem methodNames_line {site : Site} (h : site.registry.Line name line) :
    methodNames name site = (.ok (methodsOf line),site) := by
  have hle := h.length_le
  rw [methodNames,run_bind (walkFuel_run site)]
  apply methodNamesTo_line h _ rfl
  omega

theorem bodyIn_concat (method : String) (line : List (String × ClassDecl)) (name : String)
    (c : ClassDecl) : bodyIn method (line ++ [(name,c)]) =
      (c.methods.find? method).or (bodyIn method line) := by
  unfold bodyIn
  rw [List.reverse_append,List.reverse_singleton,List.singleton_append,List.findSome?_cons]
  cases c.methods.find? method <;> rfl

theorem bodyTo_line (method : String) (h : r.Line name line)
    (hc : r.classes.find? name = some c) {fuel : Nat} (hfuel : line.length ≤ fuel) {site : Site}
    (hsite : site.registry = r) : bodyTo method fuel c site = (.ok (bodyIn method line),site) := by
  subst hsite
  induction h generalizing fuel c with
  | @eldest name own hown hp =>
    obtain rfl := Option.some.inj (hown.symm.trans hc)
    obtain ⟨fuel,rfl⟩ : ∃ n,fuel = n + 1 := Nat.exists_eq_add_of_le' hfuel
    rw [← List.nil_append [(name,own)],bodyIn_concat,bodyTo,hp]
    cases own.methods.find? method <;> rfl
  | @child name parent own line hown hp h ih =>
    obtain rfl := Option.some.inj (hown.symm.trans hc)
    rw [List.length_append,List.length_singleton] at hfuel
    obtain ⟨fuel,rfl⟩ : ∃ n,fuel = n + 1 := ⟨fuel - 1,by omega⟩
    obtain ⟨above,habove⟩ := h.found
    rw [bodyIn_concat,bodyTo,hp]
    cases own.methods.find? method with
    | some body => rfl
    | none =>
      dsimp only
      rw [run_bind (find_registered habove),Option.none_or]
      exact ih (by omega) habove

theorem body?_line (method : String) {site : Site} (h : site.registry.Line name line)
    (hc : site.registry.classes.find? name = some c) :
    body? c method site = (.ok (bodyIn method line),site) := by
  have hle := h.length_le
  rw [body?,run_bind (walkFuel_run site)]
  apply bodyTo_line method h hc _ rfl
  omega

/-- The methods of a line are those that have a body in it, but for the constructor's. -/
theorem mem_methodsOf {method : String} : method ∈ methodsOf line ↔
    method ≠ ClassDecl.constructorName ∧ (bodyIn method line).isSome = true := by
  have hrow (c : ClassDecl) : method ∈ c.methods.keys ↔ (c.methods.find? method).isSome = true :=
    ⟨Table.has_of_mem_keys,Table.mem_keys_of_has⟩
  unfold methodsOf bodyIn ClassDecl.ownMethods
  rw [List.mem_eraseDups,List.mem_flatMap,List.findSome?_isSome_iff]
  simp only [List.mem_filter,bne_iff_ne,hrow,List.mem_reverse]
  constructor
  · rintro ⟨row,hmem,hbody,hne⟩
    exact ⟨hne,row,hmem,hbody⟩
  · rintro ⟨hne,row,hmem,hbody⟩
    exact ⟨row,hmem,hbody,hne⟩

end Classes
end Wiring
