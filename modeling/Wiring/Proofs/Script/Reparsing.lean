import Mathlib
import Wiring.Proofs.Results
import Wiring.Proofs.Script.Printing
import Wiring.Script.Run

/-!
# Empty arrays with keys

An array with keys but no entry is printed like an empty list, and read as one. Nothing
else is lost between printing and reading, and a run cannot tell the two apart.
-/
namespace Wiring.Script

namespace Expr

mutual

/-- The tree that is read from the text of a tree. -/
def reparsed : Expr → Expr
  | var name => .var name
  | assign name value => .assign name (reparsed value)
  | prop receiver name => .prop (reparsed receiver) name
  | setProp receiver name value => .setProp (reparsed receiver) name (reparsed value)
  | call callee arguments => .call (reparsed callee) (reparsedAll arguments)
  | new className arguments => .new (reparsed className) (reparsedAll arguments)
  | literal value => .literal value
  | list items => .list (reparsedAll items)
  | keyed [] => .list []
  | keyed (entry :: entries) => .keyed (reparsedEntries (entry :: entries))
  | classRef name => .classRef name
  | tuple parts => .tuple (reparsedAll parts)

def reparsedAll : List Expr → List Expr
  | [] => []
  | e :: rest => reparsed e :: reparsedAll rest

def reparsedEntries : List (ArrayKey × Expr) → List (ArrayKey × Expr)
  | [] => []
  | (key,e) :: rest => (key,reparsed e) :: reparsedEntries rest

end

mutual

theorem chars_reparsed : ∀ e : Expr, e.reparsed.chars = e.chars
  | var _ | literal _ | classRef _ => by simp only [reparsed]
  | assign _ value => by simp only [reparsed,chars,chars_reparsed value]
  | prop receiver _ => by simp only [reparsed,chars,chars_reparsed receiver]
  | setProp receiver _ value => by
    simp only [reparsed,chars,chars_reparsed receiver,chars_reparsed value]
  | call callee arguments => by
    simp only [reparsed,chars,chars_reparsed callee,allChars_reparsed arguments]
  | new className arguments => by
    simp only [reparsed,chars,chars_reparsed className,allChars_reparsed arguments]
  | list items => by simp only [reparsed,chars,allChars_reparsed items]
  | keyed [] => by simp only [reparsed,chars,allChars,entryChars]
  | keyed (entry :: entries) => by
    simp only [reparsed,chars,entryChars_reparsed (entry :: entries)]
  | tuple parts => by simp only [reparsed,chars,allChars_reparsed parts]

theorem allChars_reparsed : ∀ es : List Expr, allChars (reparsedAll es) = allChars es
  | [] => by simp only [reparsedAll]
  | [e] => by simp only [reparsedAll,allChars,chars_reparsed e]
  | e :: d :: es => by
    have h := allChars_reparsed (d :: es)
    simp only [reparsedAll] at h
    simp only [reparsedAll,allChars,chars_reparsed e,h]

theorem entryChars_reparsed : ∀ es : List (ArrayKey × Expr),
    entryChars (reparsedEntries es) = entryChars es
  | [] => by simp only [reparsedEntries]
  | [(key,e)] => by simp only [reparsedEntries,entryChars,chars_reparsed e]
  | (key,e) :: (next,d) :: es => by
    have h := entryChars_reparsed ((next,d) :: es)
    simp only [reparsedEntries] at h
    simp only [reparsedEntries,entryChars,chars_reparsed e,h]

end

theorem allPrintable_reparsed {es : List Expr} (h : ∀ e ∈ es, e.reparsed.printable = true) :
    allPrintable (reparsedAll es) = true := by
  induction es with
  | nil => rfl
  | cons e rest ih =>
    simp only [reparsedAll,allPrintable,Bool.and_eq_true]
    exact ⟨h e List.mem_cons_self,ih fun d hd => h d (List.mem_cons_of_mem _ hd)⟩

theorem entriesPrintable_reparsed {es : List (ArrayKey × Expr)}
    (h : ∀ e ∈ es, e.2.reparsed.printable = true) :
    entriesPrintable (reparsedEntries es) = true := by
  induction es with
  | nil => rfl
  | cons e rest ih =>
    simp only [reparsedEntries,entriesPrintable,Bool.and_eq_true]
    exact ⟨h e List.mem_cons_self,ih fun d hd => h d (List.mem_cons_of_mem _ hd)⟩

theorem list_reparsed_printable {es : List Expr} (h : ∀ e ∈ es, e.reparsed.printable = true) :
    (list es).reparsed.printable = true := by
  simp only [reparsed,printable]
  exact allPrintable_reparsed h

theorem keyed_reparsed_printable {es : List (ArrayKey × Expr)}
    (h : ∀ e ∈ es, e.2.reparsed.printable = true) : (keyed es).reparsed.printable = true := by
  cases es with
  | nil => rfl
  | cons e rest =>
    have hes := entriesPrintable_reparsed h
    simp only [reparsedEntries] at hes
    simp only [reparsed,reparsedEntries,printable,List.isEmpty_cons,Bool.not_false,Bool.true_and]
    exact hes

theorem callFunction_reparsed_printable {name : String} {es : List Expr}
    (hn : isVariableText name = true) (h : ∀ e ∈ es, e.reparsed.printable = true) :
    (callFunction name es).reparsed.printable = true := by
  simp only [callFunction,reparsed,printable,isAssignment,hn,allPrintable_reparsed h,Bool.not_false,
    Bool.and_self]

theorem construct_reparsed_printable {name : String} {es : List Expr} (hn : isNameText name = true)
    (h : ∀ e ∈ es, e.reparsed.printable = true) :
    (construct name es).reparsed.printable = true := by
  simp only [construct,reparsed,printable,isClassRef,hn,allPrintable_reparsed h,Bool.and_self]

theorem print_reparsed (e : Expr) : e.reparsed.print = e.print := by
  unfold print
  rw [chars_reparsed]

end Expr

namespace Statement

def reparsed : Statement → Statement
  | namespaced name => .namespaced name
  | expr e => .expr e.reparsed
  | yield e => .yield e.reparsed

theorem chars_reparsed (s : Statement) : s.reparsed.chars = s.chars := by
  cases s with
  | namespaced name => rfl
  | expr e => exact congrArg (· ++ ";\n".toList) e.chars_reparsed
  | yield e => exact congrArg ("return ".toList ++ · ++ ";\n".toList) e.chars_reparsed

end Statement

theorem printUnit_reparsed (statements : List Statement) :
    printUnit (statements.map Statement.reparsed) = printUnit statements := by
  unfold printUnit
  rw [List.flatMap_map]
  simp only [Statement.chars_reparsed]

/-- What is printed is read up to empty arrays with keys. -/
theorem parseUnit_reparsed (file : String) {statements : List Statement}
    (h : ∀ s ∈ statements, s.reparsed.printable = true) :
    parseUnit file (printUnit statements) = .ok (statements.map Statement.reparsed) := by
  rw [← printUnit_reparsed]
  refine parseUnit_printUnit file fun s hs => ?_
  obtain ⟨r,hr,rfl⟩ := List.mem_map.mp hs
  exact h r hr

theorem parseExpression_reparsed {e : Expr} (h : e.reparsed.printable = true) :
    parseExpression e.print = .ok e.reparsed := by
  rw [← Expr.print_reparsed]
  exact parseExpression_print h

section Running

variable {m : Type → Type} [Monad m] (s : Surroundings m) (unit : String)

mutual

/-- A run does not tell a tree from the one that is read from its text. -/
theorem eval_reparsed [LawfulMonad m] : ∀ e : Expr, eval s unit e.reparsed = eval s unit e
  | .var _ | .literal _ | .classRef _ => by simp only [Expr.reparsed]
  | .assign name value => by
    simp only [Expr.reparsed,eval,eval_reparsed value]
  | .prop receiver name => by
    simp only [Expr.reparsed,eval,eval_reparsed receiver]
  | .setProp receiver name value => by
    simp only [Expr.reparsed,eval,eval_reparsed receiver,eval_reparsed value]
  | .call (.var name) arguments => by
    simp only [Expr.reparsed,eval,evalAll_reparsed arguments]
  | .call (.prop receiver method) arguments => by
    simp only [Expr.reparsed,eval,eval_reparsed receiver,evalAll_reparsed arguments]
  | .call (.keyed []) _ | .call (.keyed (_ :: _)) _ | .call (.assign _ _) _
  | .call (.setProp _ _ _) _ | .call (.call _ _) _ | .call (.new _ _) _ | .call (.literal _) _
  | .call (.list _) _ | .call (.classRef _) _ | .call (.tuple _) _ => by
    simp only [Expr.reparsed,eval]
  | .new (.classRef className) arguments => by
    simp only [Expr.reparsed,eval,evalAll_reparsed arguments]
  | .new (.keyed []) _ | .new (.keyed (_ :: _)) _ | .new (.assign _ _) _
  | .new (.setProp _ _ _) _ | .new (.call _ _) _ | .new (.new _ _) _ | .new (.literal _) _
  | .new (.list _) _ | .new (.var _) _ | .new (.prop _ _) _ | .new (.tuple _) _ => by
    simp only [Expr.reparsed,eval]
  | .list items => by simp only [Expr.reparsed,eval,evalAll_reparsed items]
  | .keyed [] => by
    simp only [Expr.reparsed,eval,evalAll,evalEntries,pure_bind]
    rfl
  | .keyed (entry :: entries) => by
    simp only [Expr.reparsed,eval,evalEntries_reparsed (entry :: entries)]
  | .tuple parts => by simp only [Expr.reparsed,eval,evalAll_reparsed parts]

theorem evalAll_reparsed [LawfulMonad m] : ∀ es : List Expr,
    evalAll s unit (Expr.reparsedAll es) = evalAll s unit es
  | [] => by simp only [Expr.reparsedAll]
  | e :: es => by
    simp only [Expr.reparsedAll,evalAll,eval_reparsed e,evalAll_reparsed es]

theorem evalEntries_reparsed [LawfulMonad m] : ∀ es : List (ArrayKey × Expr),
    evalEntries s unit (Expr.reparsedEntries es) = evalEntries s unit es
  | [] => by simp only [Expr.reparsedEntries]
  | (key,e) :: es => by
    simp only [Expr.reparsedEntries,evalEntries,eval_reparsed e,evalEntries_reparsed es]

end

theorem step_reparsed [LawfulMonad m] : ∀ statement : Statement,
    step s unit statement.reparsed = step s unit statement
  | .namespaced _ => rfl
  | .expr e => by simp only [Statement.reparsed,step,eval_reparsed s unit e]
  | .yield (.tuple [a,b]) => by
    simp only [Statement.reparsed,Expr.reparsed,Expr.reparsedAll,step,eval_reparsed s unit a,
      eval_reparsed s unit b]
  | .yield (.tuple []) | .yield (.tuple [_]) | .yield (.tuple (_ :: _ :: _ :: _))
  | .yield (.keyed []) | .yield (.keyed (_ :: _)) | .yield (.var _) | .yield (.assign _ _)
  | .yield (.prop _ _) | .yield (.setProp _ _ _) | .yield (.call _ _) | .yield (.new _ _)
  | .yield (.literal _) | .yield (.list _) | .yield (.classRef _) => by
    simp only [Statement.reparsed,Expr.reparsed,Expr.reparsedAll,step]

theorem steps_reparsed [LawfulMonad m] (statements : List Statement) :
    steps s unit (statements.map Statement.reparsed) = steps s unit statements := by
  induction statements with
  | nil => rfl
  | cons statement rest ih => simp only [List.map_cons,steps,step_reparsed,ih]

theorem runUnit_reparsed [LawfulMonad m] (statements : List Statement) :
    runUnit s unit (statements.map Statement.reparsed) = runUnit s unit statements := by
  unfold runUnit
  rw [steps_reparsed]

theorem evaluate_reparsed [LawfulMonad m] (e : Expr) : evaluate s e.reparsed = evaluate s e := by
  unfold evaluate
  rw [eval_reparsed]

end Running
end Wiring.Script
