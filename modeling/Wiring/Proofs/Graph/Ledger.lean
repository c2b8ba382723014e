import Mathlib
import Wiring.Graph.Module

/-!
# Which statement binds a key

A ledger keeps, for each key, the statement that bound it. Statements are entered in two
ways. The explicit ledger of a module knows nothing of the bindings that come with others:
a later statement wins, an installing module wins over what it installs and an overriding
one over what it overrides. A ledger that settles a module also has entries for classes
that were bound without a statement. They are made for free keys only, and any statement of
the same module replaces them; but where two modules are put together they count like every
other entry of the module they were made in.
-/
namespace Wiring

/-- How a key came to be bound. -/
inductive Origin where
  | stated (interface : String) (target : Target) (shared : Bool)
  /-- Along with another class that asks for this one, or with a pointcut that names it. -/
  | implied (className : String)

structure Ledger where
  origins : Key → Option Origin
  maps : Table String MapBinding

namespace Ledger

def empty : Ledger := ⟨fun _ => none,[]⟩

def put (l : Ledger) (key : Key) (origin : Origin) : Ledger :=
  { l with origins := Function.update l.origins key (some origin) }

theorem put_self (l : Ledger) (key : Key) (origin : Origin) :
    (l.put key origin).origins key = some origin := Function.update_self ..

theorem put_of_ne (l : Ledger) {key other : Key} (origin : Origin) (h : other ≠ key) :
    (l.put key origin).origins other = l.origins other := Function.update_of_ne h ..

/-- Enters what a statement binds, if it binds anything. -/
def enter (l : Ledger) (interface name : String) (target : Target) (shared : Bool) : Ledger :=
  match target with
  | .unfinished => l
  | target => l.put (.of interface name) (.stated interface target shared)

def elements (l : Ledger) (interface : String) : MapBinding :=
  (l.maps.find? interface).getD .empty

/-- Enters an element of the map of an interface, but not yet what it is bound to. -/
def collect (l : Ledger) (interface : String) (key : ArrayKey) : Ledger :=
  { l with
    maps := l.maps.put interface
      ((l.elements interface).insert key (MapBinding.elementKey interface key)) }

/-- The entries of the second ledger where the first one has none. -/
def fill (l other : Ledger) : Ledger where
  origins key := l.origins key <|> other.origins key
  maps := other.maps.foldl
    (fun t m => t.put m.1 (((t.find? m.1).getD .empty).fill m.2)) l.maps

/-- The entries of the second ledger on top of those of the first one. -/
def override (l other : Ledger) : Ledger where
  origins key := other.origins key <|> l.origins key
  maps := other.maps.foldl
    (fun t m => t.put m.1 (((t.find? m.1).getD .empty).override m.2)) l.maps

mutual

/-- Enters a statement, as if it bound nothing but its own key. -/
def state (l : Ledger) : ModuleStatement → Ledger
  | .bind interface name target shared =>
      l.enter interface (name.getD Key.anyName) target shared
  | .element interface key name target shared =>
      let key := key.getD (.int (l.elements interface).nextIndex)
      (l.collect interface key).enter interface (name.getD (MapBinding.elementName key))
        target shared
  | .install statements => l.fill (stateAll .empty statements)
  | .override statements => l.override (stateAll .empty statements)
  | .intercept _ => l

def stateAll (l : Ledger) : List ModuleStatement → Ledger
  | [] => l
  | statement :: rest => stateAll (l.state statement) rest

end

/-- What explicit statements alone bind. -/
def explicit (statements : List ModuleStatement) : Ledger := stateAll .empty statements

/-- The second ledger has more entries, for classes bound to themselves at keys that are free
in the first one. -/
def Implies (l l' : Ledger) : Prop :=
  l'.maps = l.maps ∧ ∀ key, l'.origins key = l.origins key ∨
    l.origins key = none ∧ ∃ c, key = .any c ∧ l'.origins key = some (.implied c)

mutual

/-- Entering a statement and what it implies can give the second ledger. -/
def Settles (l : Ledger) : ModuleStatement → Ledger → Prop
  | .bind interface name target shared, l' =>
      Implies (l.enter interface (name.getD Key.anyName) target shared) l'
  | .element interface key name target shared, l' =>
      let key := key.getD (.int (l.elements interface).nextIndex)
      Implies ((l.collect interface key).enter interface
        (name.getD (MapBinding.elementName key)) target shared) l'
  | .install statements, l' => ∃ other, SettlesAll .empty statements other ∧ l' = l.fill other
  | .override statements, l' =>
      ∃ other, SettlesAll .empty statements other ∧ l' = l.override other
  | .intercept _, l' => Implies l l'

def SettlesAll (l : Ledger) : List ModuleStatement → Ledger → Prop
  | [], l' => l' = l
  | statement :: rest, l' => ∃ next, Settles l statement next ∧ SettlesAll next rest l'

end

section Implied

variable {l l' l'' : Ledger}

theorem Implies.refl (l : Ledger) : Implies l l := ⟨rfl,fun _ => .inl rfl⟩

theorem Implies.trans (h : Implies l l') (h' : Implies l' l'') : Implies l l'' := by
  refine ⟨h'.1.trans h.1,fun key => ?_⟩
  rcases h'.2 key with hkey' | ⟨hfree',hclass⟩
  · rw [hkey']
    exact h.2 key
  · rcases h.2 key with hkey | ⟨_,c,_,himplied⟩
    · exact .inr ⟨hkey ▸ hfree',hclass⟩
    · rw [hfree'] at himplied
      cases himplied

theorem implies_put {c : String} (h : l.origins (.any c) = none) :
    Implies l (l.put (.any c) (.implied c)) := by
  refine ⟨rfl,fun key => ?_⟩
  by_cases hkey : key = .any c
  · subst hkey
    exact .inr ⟨h,c,rfl,put_self ..⟩
  · exact .inl (put_of_ne l _ hkey)

theorem Implies.stands (h : Implies l l') {key : Key} {origin : Origin}
    (hl : l.origins key = some origin) : l'.origins key = some origin := by
  rcases h.2 key with hkey | ⟨hfree,_⟩
  · rw [hkey,hl]
  · rw [hl] at hfree
    cases hfree

/-- What is implied beside an entry is still implied if the entry is another one. -/
theorem Implies.put_other {key : Key} {origin : Origin} (other : Origin)
    (h : Implies (l.put key origin) l') : Implies (l.put key other) (l'.put key other) := by
  refine ⟨h.1,fun k => ?_⟩
  by_cases hk : k = key
  · subst hk
    rw [put_self,put_self]
    exact .inl rfl
  · rw [put_of_ne l' _ hk,put_of_ne l _ hk,← put_of_ne l origin hk]
    exact h.2 k

end Implied

/-- The second ledger differs from the first one only by entries for classes bound to
themselves. -/
def Resembles (e l : Ledger) : Prop :=
  l.maps = e.maps ∧ ∀ key, l.origins key = e.origins key ∨
    ∃ c, key = .any c ∧ l.origins key = some (.implied c)

/-- All entries of the first ledger are in the second one. -/
def Within (e l : Ledger) : Prop :=
  ∀ key origin, e.origins key = some origin → l.origins key = some origin

variable {e e' l l' : Ledger}

theorem Resembles.refl (l : Ledger) : Resembles l l := ⟨rfl,fun _ => .inl rfl⟩

theorem Within.refl (l : Ledger) : Within l l := fun _ _ h => h

theorem Resembles.implies (h : Resembles e l) (hi : Implies l l') : Resembles e l' := by
  refine ⟨hi.1.trans h.1,fun key => ?_⟩
  rcases hi.2 key with hkey | ⟨_,hclass⟩
  · rw [hkey]
    exact h.2 key
  · exact .inr hclass

theorem Within.implies (h : Within e l) (hi : Implies l l') : Within e l' :=
  fun key origin horigin => hi.stands (h key origin horigin)

theorem Resembles.put (h : Resembles e l) (key : Key) (origin : Origin) :
    Resembles (e.put key origin) (l.put key origin) := by
  refine ⟨h.1,fun k => ?_⟩
  by_cases hk : k = key
  · subst hk
    rw [put_self,put_self]
    exact .inl rfl
  · rw [put_of_ne l _ hk,put_of_ne e _ hk]
    exact h.2 k

theorem Within.put (h : Within e l) (key : Key) (origin : Origin) :
    Within (e.put key origin) (l.put key origin) := by
  intro k o ho
  by_cases hk : k = key
  · subst hk
    rw [put_self] at ho ⊢
    exact ho
  · rw [put_of_ne _ _ hk] at ho ⊢
    exact h k o ho

theorem Resembles.enter (h : Resembles e l) (interface name : String) (target : Target)
    (shared : Bool) :
    Resembles (e.enter interface name target shared) (l.enter interface name target shared) := by
  cases target with
  | unfinished => exact h
  | _ => exact h.put _ _

theorem Within.enter (h : Within e l) (interface name : String) (target : Target)
    (shared : Bool) :
    Within (e.enter interface name target shared) (l.enter interface name target shared) := by
  cases target with
  | unfinished => exact h
  | _ => exact h.put _ _

theorem Resembles.elements (h : Resembles e l) (interface : String) :
    l.elements interface = e.elements interface := by
  rw [Ledger.elements,Ledger.elements,h.1]

theorem Resembles.collect (h : Resembles e l) (interface : String) (key : ArrayKey) :
    Resembles (e.collect interface key) (l.collect interface key) := by
  refine ⟨?_,h.2⟩
  rw [Ledger.collect,Ledger.collect,h.elements,h.1]

theorem Resembles.fill (h : Resembles e l) (h' : Resembles e' l') :
    Resembles (e.fill e') (l.fill l') := by
  refine ⟨?_,fun key => ?_⟩
  · rw [Ledger.fill,Ledger.fill,h.1,h'.1]
  · change (l.origins key <|> l'.origins key) = (e.origins key <|> e'.origins key) ∨ _
    change _ ∨ ∃ c, key = .any c ∧ (l.origins key <|> l'.origins key) = some (.implied c)
    rcases h.2 key with hkey | ⟨c,hc,himplied⟩
    · rw [hkey]
      cases e.origins key with
      | some origin => exact .inl rfl
      | none => exact h'.2 key
    · rw [himplied]
      exact .inr ⟨c,hc,rfl⟩

theorem Resembles.override (h : Resembles e l) (h' : Resembles e' l') :
    Resembles (e.override e') (l.override l') := by
  refine ⟨?_,(h'.fill h).2⟩
  rw [Ledger.override,Ledger.override,h.1,h'.1]

mutual

theorem Settles.resembles {e l l' : Ledger} (h : Resembles e l) :
    (statement : ModuleStatement) → Settles l statement l' → Resembles (e.state statement) l'
  | .bind interface name target shared => fun hs => by
      rw [Settles] at hs
      rw [state]
      exact (h.enter ..).implies hs
  | .element interface key name target shared => fun hs => by
      rw [Settles,h.elements] at hs
      rw [state]
      exact ((h.collect ..).enter ..).implies hs
  | .install statements => fun hs => by
      rw [Settles] at hs
      obtain ⟨other,hother,rfl⟩ := hs
      rw [state]
      exact h.fill (SettlesAll.resembles (.refl _) statements hother)
  | .override statements => fun hs => by
      rw [Settles] at hs
      obtain ⟨other,hother,rfl⟩ := hs
      rw [state]
      exact h.override (SettlesAll.resembles (.refl _) statements hother)
  | .intercept _ => fun hs => by
      rw [Settles] at hs
      rw [state]
      exact h.implies hs

/-- A module puts nothing in the place of its explicit bindings but classes bound to
themselves, and binds no other keys but to such. -/
theorem SettlesAll.resembles {e l l' : Ledger} (h : Resembles e l) :
    (statements : List ModuleStatement) → SettlesAll l statements l' →
      Resembles (e.stateAll statements) l'
  | [] => fun hs => by
      rw [SettlesAll] at hs
      rw [stateAll,hs]
      exact h
  | statement :: rest => fun hs => by
      rw [SettlesAll] at hs
      obtain ⟨next,hnext,hrest⟩ := hs
      rw [stateAll]
      exact SettlesAll.resembles (Settles.resembles h statement hnext) rest hrest

end

end Ledger

/-- The statement puts the graph of another module together with this one. -/
def ModuleStatement.merges : ModuleStatement → Bool
  | .install _ | .override _ => true
  | _ => false

namespace Ledger

theorem Settles.within {e l l' : Ledger} (hr : Resembles e l) (h : Within e l)
    {statement : ModuleStatement} (hm : statement.merges = false)
    (hs : Settles l statement l') : Within (e.state statement) l' := by
  cases statement with
  | bind interface name target shared =>
    rw [Settles] at hs
    rw [state]
    exact Within.implies (Within.enter h interface _ target shared) hs
  | element interface key name target shared =>
    rw [Settles,hr.elements] at hs
    rw [state]
    have hcollect (k : ArrayKey) : Within (e.collect interface k) (l.collect interface k) := h
    exact Within.implies (Within.enter (hcollect _) interface _ target shared) hs
  | install statements => cases hm
  | override statements => cases hm
  | intercept pointcut =>
    rw [Settles] at hs
    rw [state]
    exact h.implies hs

/-- Where no modules are put together, every explicit binding stands. -/
theorem SettlesAll.within {statements : List ModuleStatement} {e l l' : Ledger}
    (hr : Resembles e l) (h : Within e l) (hm : ∀ s ∈ statements, s.merges = false)
    (hs : SettlesAll l statements l') : Within (e.stateAll statements) l' := by
  induction statements generalizing e l with
  | nil =>
    rw [SettlesAll] at hs
    rw [stateAll,hs]
    exact h
  | cons statement rest ih =>
    rw [SettlesAll] at hs
    obtain ⟨next,hnext,hrest⟩ := hs
    obtain ⟨hfirst,hmrest⟩ := List.forall_mem_cons.mp hm
    rw [stateAll]
    exact ih (hnext.resembles hr) (hnext.within hr h hfirst) hmrest hrest

end Ledger
end Wiring
