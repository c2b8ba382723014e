import Mathlib
import Wiring.Compile.Unit
import Wiring.Proofs.Text.Base64
import Wiring.Proofs.Value.Keyed
import Wiring.Script.Run

/-!
# Calls of functions that are written by the compiler

With the arguments that compiled source gives them, the functions of a unit are asks of the
surroundings.
-/
namespace Wiring

namespace Table

variable {κ κ' α : Type} [DecidableEq κ] [DecidableEq κ']

theorem put_map {f : κ → κ'} (hf : f.Injective) (t : Table κ α) (key : κ) (value : α) :
    put (t.map fun r => (f r.1,r.2)) (f key) value = (put t key value).map fun r => (f r.1,r.2) := by
  induction t with
  | nil => rfl
  | cons row rest ih =>
    obtain ⟨k,a⟩ := row
    rw [List.map_cons,put,put]
    by_cases h : k = key
    · rw [if_pos h,if_pos (congrArg f h)]
      rfl
    · rw [if_neg h,if_neg fun e => h (hf e),ih]
      rfl

/-- Rows are stored alike under other names for their keys. -/
theorem ofRows_map {f : κ → κ'} (hf : f.Injective) (rows : List (κ × α)) :
    ofRows (rows.map fun r => (f r.1,r.2)) = (ofRows rows).map fun r => (f r.1,r.2) := by
  have hfold : ∀ (rows : List (κ × α)) (t : Table κ α),
      (rows.map fun r => (f r.1,r.2)).foldl (fun t r => put t r.1 r.2)
        (t.map fun r => (f r.1,r.2)) =
        (rows.foldl (fun t r => put t r.1 r.2) t).map fun r => (f r.1,r.2) := by
    intro rows
    induction rows with
    | nil => exact fun _ => rfl
    | cons row rest ih =>
      intro t
      rw [List.map_cons,List.foldl_cons,List.foldl_cons,put_map hf,ih]
  exact hfold rows []

end Table

namespace Script

/-- An array with text keys gives its entries as properties. -/
theorem propertiesOf_texts (rows : List (String × Value)) :
    propertiesOf (some (.array (.ofEntries (rows.map fun p => (ArrayKey.text p.1,p.2))))) =
      .ofRows rows := by
  have htexts : Function.Injective ArrayKey.text := fun a b hab => by simpa using hab
  have hlabels : ((Table.ofRows rows).map fun p => (ArrayKey.text p.1,p.2)).map
      (fun e => (e.1.label,e.2)) = Table.ofRows rows := by
    rw [List.map_map]
    exact List.map_id'' (fun _ => rfl) _
  rw [Keyed.ofEntries_eq,Table.ofRows_map htexts]
  unfold propertiesOf
  simp only [hlabels]
  exact Table.ofRows_nodup (Table.nodup_ofRows rows)

variable {m : Type → Type} [Monad m]

theorem orFail_ok {α : Type} (a : α) : (orFail (.ok a) : ExceptT Failure m α) = pure a := rfl

variable [LawfulMonad m] {s : Surroundings m} {unit : String}

theorem callFunction_restore (className : String) (properties : Value) :
    callFunction s unit "restore" [.text className,properties] =
      s.restore className (propertiesOf (some properties)) := by
  simp [callFunction,textArgument,orFail_ok]

theorem callFunction_unserialize (typeName : String) (bytes : List UInt8) :
    callFunction s unit "unserialize" [.text typeName,.text (Base64.encode bytes)] =
      s.decode typeName bytes := by
  simp [callFunction,textArgument,orFail_ok,Base64.decode_encode]

/-- The instance of a key in a scope. -/
def pulled (s : Surroundings m) (shared : Bool) (key : Key) (parameter : Option Parameter) :
    ExceptT Failure m Value :=
  if shared then s.singleton key parameter else s.prototype key parameter

theorem callFunction_pull (shared : Bool) (key : Key) :
    callFunction s unit (Compile.pullName shared) [.text key.text] = pulled s shared key none := by
  cases shared <;>
    simp [callFunction,Compile.pullName,textArgument,pointArgument,orFail_ok,pulled]

theorem callFunction_pullAt (shared : Bool) (key : Key) (p : Parameter) :
    callFunction s unit (Compile.pullName shared)
      [.text key.text,.list [.text p.className,.text p.method,.text p.name]] =
      pulled s shared key (some p) := by
  have hpoint (function : String) : pointArgument unit function
      [.text key.text,.list [.text p.className,.text p.method,.text p.name]] = .ok (some p) := rfl
  cases shared <;>
    simp [callFunction,Compile.pullName,textArgument,hpoint,orFail_ok,pulled]

end Script
end Wiring
