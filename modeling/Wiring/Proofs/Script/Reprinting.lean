import Mathlib
import Wiring.Proofs.Script.Accepting
import Wiring.Proofs.Script.Printing

/-!
# Parsed units are printed and read back

The printer writes parentheses around tuples only. So a parsed tree can be printed if it needs
no others: no property or call is put after an assignment, and no property after a number,
which would take the point for its own. All else that makes a tree printable holds of whatever
has been parsed, because names come from tokens.
-/
namespace Wiring.Script

section Names

/-- A token that counts as a name has the text of one, and that of a variable if it is no
keyword. -/
structure Token.WellNamed (t : Token) : Prop where
  var : t.kind = .identifier → isVariableText t.text = true
  name : t.isName = true → isNameText t.text = true

/-- The token at the front of a text has the text of a name only if it is one. -/
theorem splitToken_wellNamed {cs left : List Char} {lexeme : Lexeme}
    (h : splitToken cs = some (lexeme,left)) (start stop : Nat) :
    Token.WellNamed ⟨lexeme.kind,start,stop,lexeme.text⟩ := by
  cases cs with
  | nil => cases h
  | cons c rest =>
    by_cases hc : (isIdentifierStart c || c == '\\') = true
    · simp only [splitToken,hc,if_true] at h
      obtain ⟨rfl,rfl⟩ := Prod.mk.inj (Option.some.inj h)
      generalize hname : rest.takeWhile isIdentifierPart = name
      have hparts : ∀ d ∈ name, isIdentifierPart d = true := by
        rw [← hname]
        exact fun d hd => List.mem_takeWhile_imp hd
      have hsplit := splitToken_name hc hparts numberEnds_nil.name
      rw [List.append_nil] at hsplit
      have hkind : kindOf? (Lexeme.ofName (c :: name)).text = some (Lexeme.ofName (c :: name)).kind := by
        have htext : (Lexeme.ofName (c :: name)).text.toList = c :: name := String.toList_ofList
        rw [kindOf?,htext,hsplit]
      refine ⟨fun hk => ?_,fun hn => ?_⟩
      · rw [isVariableText,hkind]
        exact beq_iff_eq.mpr (congrArg some hk)
      · rw [isNameText,hkind]
        simpa [Token.isName] using hn
    · obtain ⟨hi,hk⟩ := splitToken_not_name h hc
      exact ⟨fun h => absurd h hi,fun hn => by simp [Token.isName,hi,hk] at hn⟩

/-- All tokens that count as names have the texts of names. -/
def WellNamed (ts : List Token) : Prop := ∀ t ∈ ts, t.WellNamed

theorem tokensFrom_wellNamed (fuel offset : Nat) (cs : List Char) :
    WellNamed (tokensFrom fuel offset cs) := by
  induction fuel generalizing offset cs with
  | zero => exact fun t ht => by cases ht
  | succ fuel ih =>
    simp only [tokensFrom]
    cases h : splitToken (splitBlank cs).2 with
    | none => exact fun t ht => by cases ht
    | some found =>
      obtain ⟨lexeme,left⟩ := found
      have hfirst := splitToken_wellNamed h (offset + byteLength (splitBlank cs).1)
        (offset + byteLength (splitBlank cs).1 + byteLength lexeme.covered)
      dsimp only
      split
      · exact List.forall_mem_singleton.mpr hfirst
      · exact List.forall_mem_cons.mpr ⟨hfirst,ih _ left⟩

theorem tokenize_wellNamed (text : String) : WellNamed (tokenize text) :=
  tokensFrom_wellNamed _ _ _

end Names

namespace Expr

mutual

/-- Trees that need no parentheses but those of tuples: no assignment is called or has a property
read or written, and neither has a number that ends with a digit. -/
def bare : Expr → Bool
  | var _ | literal _ | classRef _ => true
  | assign _ value => bare value
  | prop receiver _ => bare receiver && !receiver.isAssignment && !receiver.endsInDigit
  | setProp receiver _ value =>
      bare receiver && !receiver.isAssignment && !receiver.endsInDigit && bare value
  | call callee arguments => bare callee && !callee.isAssignment && allBare arguments
  | new className arguments => bare className && allBare arguments
  | list items => allBare items
  | keyed entries => entriesBare entries
  | tuple parts => allBare parts

def allBare : List Expr → Bool
  | [] => true
  | e :: rest => bare e && allBare rest

def entriesBare : List (ArrayKey × Expr) → Bool
  | [] => true
  | (_,e) :: rest => bare e && entriesBare rest

end

end Expr

def Statement.bare : Statement → Bool
  | namespaced _ => true
  | expr e | yield e => e.bare

namespace Phrase

/-- The trees of a phrase need no parentheses. -/
def bare : Phrase → Bool
  | expr e | chain e | primary e => e.bare
  | arguments es | items es => Expr.allBare es
  | entries es => Expr.entriesBare es

/-- The trees of a phrase can be printed. -/
def printable : Phrase → Bool
  | expr e | chain e | primary e => e.printable
  | arguments es | items es => Expr.allPrintable es
  | entries es => Expr.entriesPrintable es

end Phrase

theorem Derives.entries_ne_nil {ts : List Token} {es : List (ArrayKey × Expr)}
    (h : Derives ts (.entries es)) : es ≠ [] := by
  cases h <;> exact List.cons_ne_nil _ _

section Parsed

variable {ts us : List Token} {t : Token} {φ : Phrase}

theorem wellNamed_append : WellNamed (ts ++ us) ↔ WellNamed ts ∧ WellNamed us :=
  List.forall_mem_append

theorem wellNamed_cons : WellNamed (t :: us) ↔ t.WellNamed ∧ WellNamed us := List.forall_mem_cons

/-- An assignment can be printed if what it assigns to and the value can. -/
theorem Assigns.printable {target value e : Expr} (h : Assigns target value e)
    (ht : target.bare = true → target.printable = true)
    (hv : value.bare = true → value.printable = true) (hb : e.bare = true) :
    e.printable = true := by
  cases h with
  | var name =>
    rw [Expr.printable,Bool.and_eq_true]
    exact ⟨by simpa only [Expr.printable] using ht (by simp only [Expr.bare]),
      hv (by simpa only [Expr.bare] using hb)⟩
  | prop receiver name =>
    rw [Expr.bare,Bool.and_eq_true] at hb
    rw [Expr.printable,Bool.and_eq_true]
    exact ⟨by simpa only [Expr.printable] using ht (by simpa only [Expr.bare] using hb.1),hv hb.2⟩

/-- What is read from tokens that are named well can be printed if it needs no parentheses. -/
theorem Derives.printable (h : Derives ts φ) (ht : WellNamed ts) (hb : φ.bare = true) :
    φ.printable = true := by
  induction h with
  | ofChain _ ih => exact ih ht hb
  | assign _ _ _ hAssigns ihTarget ihValue =>
    obtain ⟨hts,hus⟩ := wellNamed_append.mp ht
    exact hAssigns.printable (ihTarget hts) (ihValue (wellNamed_cons.mp hus).2) hb
  | ofPrimary _ ih => exact ih ht hb
  | prop _ _ hName ih =>
    obtain ⟨hts,hus⟩ := wellNamed_append.mp ht
    have hname := (hus _ (List.mem_cons_of_mem _ List.mem_cons_self)).name hName
    simp only [Phrase.bare,Expr.bare,Bool.and_eq_true] at hb
    simp only [Phrase.printable,Expr.printable,Bool.and_eq_true]
    exact ⟨⟨⟨ih hts hb.1.1,hb.1.2⟩,hb.2⟩,hname⟩
  | call _ _ _ _ ih ihArguments =>
    obtain ⟨hts,hus⟩ := wellNamed_append.mp ht
    obtain ⟨hus,-⟩ := wellNamed_append.mp (wellNamed_cons.mp hus).2
    simp only [Phrase.bare,Expr.bare,Bool.and_eq_true] at hb
    simp only [Phrase.printable,Expr.printable,Bool.and_eq_true]
    exact ⟨⟨ih hts hb.1.1,hb.1.2⟩,ihArguments hus hb.2⟩
  | noArguments => rfl
  | ofItems _ ih => exact ih ht hb
  | item _ ih =>
    simp only [Phrase.bare,Expr.allBare,Bool.and_true] at hb
    simp only [Phrase.printable,Expr.allPrintable,Bool.and_true]
    exact ih ht hb
  | items _ _ _ ih ihItems =>
    obtain ⟨hts,hus⟩ := wellNamed_append.mp ht
    simp only [Phrase.bare,Expr.allBare,Bool.and_eq_true] at hb
    simp only [Phrase.printable,Expr.allPrintable,Bool.and_eq_true]
    exact ⟨ih hts hb.1,ihItems (wellNamed_cons.mp hus).2 hb.2⟩
  | entry _ _ _ _ _ ih =>
    obtain ⟨-,hus⟩ := wellNamed_append.mp ht
    simp only [Phrase.bare,Expr.entriesBare,Bool.and_true] at hb
    simp only [Phrase.printable,Expr.entriesPrintable,Bool.and_true]
    exact ih (wellNamed_cons.mp hus).2 hb
  | entries _ _ _ _ _ _ _ ih ihEntries =>
    obtain ⟨-,hus⟩ := wellNamed_append.mp ht
    obtain ⟨hus,hvs⟩ := wellNamed_append.mp (wellNamed_cons.mp hus).2
    simp only [Phrase.bare,Expr.entriesBare,Bool.and_eq_true] at hb
    simp only [Phrase.printable,Expr.entriesPrintable,Bool.and_eq_true]
    exact ⟨ih hus hb.1,ihEntries (wellNamed_cons.mp hvs).2 hb.2⟩
  | constant | number | negative | negativeInfinity | text =>
    simp only [Phrase.printable,Expr.text,Expr.printable]
  | new _ hName _ _ _ ih =>
    obtain ⟨hclass,hus⟩ := wellNamed_cons.mp (wellNamed_cons.mp ht).2
    obtain ⟨hts,-⟩ := wellNamed_append.mp (wellNamed_cons.mp hus).2
    simp only [Phrase.bare,Expr.construct,Expr.bare,Bool.true_and] at hb
    simp only [Phrase.printable,Expr.construct,Expr.printable,Bool.and_eq_true]
    exact ⟨hclass.name hName,ih hts hb⟩
  | var h =>
    simp only [Phrase.printable,Expr.printable]
    exact (wellNamed_cons.mp ht).1.var h
  | noItems => simp only [Phrase.printable,Expr.printable,Expr.allPrintable]
  | list _ _ _ ih =>
    obtain ⟨hts,-⟩ := wellNamed_append.mp (wellNamed_cons.mp ht).2
    simp only [Phrase.bare,Expr.bare] at hb
    simp only [Phrase.printable,Expr.printable]
    exact ih hts hb
  | keyed _ h _ ih =>
    obtain ⟨hts,-⟩ := wellNamed_append.mp (wellNamed_cons.mp ht).2
    simp only [Phrase.bare,Expr.bare] at hb
    simp only [Phrase.printable,Expr.printable,Bool.and_eq_true,Bool.not_eq_true',
      List.isEmpty_eq_false_iff]
    exact ⟨h.entries_ne_nil,ih hts hb⟩
  | group _ _ _ ih =>
    obtain ⟨hts,-⟩ := wellNamed_append.mp (wellNamed_cons.mp ht).2
    exact ih hts hb
  | tuple _ _ _ hItems _ ih ihItems =>
    obtain ⟨hts,hus⟩ := wellNamed_append.mp (wellNamed_cons.mp ht).2
    obtain ⟨hus,-⟩ := wellNamed_append.mp (wellNamed_cons.mp hus).2
    have hlength := List.length_pos_iff.mpr hItems.items_ne_nil
    simp only [Phrase.bare,Expr.bare,Expr.allBare,Bool.and_eq_true] at hb
    simp only [Phrase.printable,Expr.printable,Expr.allPrintable,Bool.and_eq_true,
      decide_eq_true_eq,List.length_cons]
    exact ⟨Nat.succ_le_succ hlength,ih hts hb.1,ihItems hus hb.2⟩

theorem DerivesStatement.printable {s : Statement} (h : DerivesStatement ts s) (ht : WellNamed ts)
    (hb : s.bare = true) : s.printable = true := by
  cases h with
  | namespaced _ hName => exact (wellNamed_cons.mp (wellNamed_cons.mp ht).2).1.name hName
  | yield _ h _ =>
    exact h.printable (wellNamed_append.mp (wellNamed_cons.mp ht).2).1 hb
  | expr h _ => exact h.printable (wellNamed_append.mp ht).1 hb

theorem DerivesUnit.printable {ss : List Statement} (h : DerivesUnit ts ss) (ht : WellNamed ts)
    (hb : ∀ s ∈ ss, s.bare = true) : ∀ s ∈ ss, s.printable = true := by
  induction h with
  | nil => exact fun s hs => by cases hs
  | cons h _ ih =>
    obtain ⟨hts,hus⟩ := wellNamed_append.mp ht
    obtain ⟨hs,hss⟩ := List.forall_mem_cons.mp hb
    exact List.forall_mem_cons.mpr ⟨h.printable hts hs,ih hus hss⟩

end Parsed

/-- What has been parsed and needs no parentheses is printed as a text that is parsed to the same,
in a file of any name. So to print it again gives the same text. -/
theorem reprinting_keeps_meaning :
    (∀ (file text : String) (ss : List Statement), parseUnit file text = .ok ss →
      (∀ s ∈ ss, s.bare = true) →
      ∀ again : String, parseUnit again (printUnit ss) = .ok ss) ∧
    (∀ (text : String) (e : Expr), parseExpression text = .ok e → e.bare = true →
      parseExpression e.print = .ok e) := by
  refine ⟨fun file text ss h hb again => ?_,fun text e h hb => ?_⟩
  · have hd := parseUnit_eq_ok.mp h
    exact parseUnit_printUnit again (hd.printable (tokenize_wellNamed text) hb)
  · have hd := parseExpression_eq_ok.mp h
    exact parseExpression_print (hd.printable (tokenize_wellNamed text) hb)

/-- Parentheses that are not needed and a comment are left out, parentheses in a text stay. -/
theorem reprinting_keeps_meaning_sample :
    parseUnit "unit" (printUnit [.expr (.call (.prop (.var "a") "new") [.text "(b = c).d"])]) =
        .ok [.expr (.call (.prop (.var "a") "new") [.text "(b = c).d"])] ∧
      parseExpression (Expr.print (.prop (.literal (.float .nan)) "x")) =
        .ok (.prop (.literal (.float .nan)) "x") :=
  ⟨reprinting_keeps_meaning.1 "other" "((a).new)('(b = c).d') ; // end"
      [.expr (.call (.prop (.var "a") "new") [.text "(b = c).d"])] (by cbv) (by decide) "unit",
    reprinting_keeps_meaning.2 "(NAN) . x" _ (by cbv) (by decide)⟩

/-- The parentheses around an assignment are lost, and the property that was read from it becomes
one of the value. The blank between a number and the point of a property is lost as well. -/
theorem lost_parentheses_change_meaning :
    (¬∀ (file text : String) (ss : List Statement), parseUnit file text = .ok ss →
      ∀ again : String, parseUnit again (printUnit ss) = .ok ss) ∧
    ¬∀ (text : String) (e : Expr), parseExpression text = .ok e → parseExpression e.print = .ok e := by
  refine ⟨fun h => ?_,fun h => ?_⟩
  · have hparsed : parseUnit "unit" "(a = b).c;" =
        .ok [.expr (.prop (.assign "a" (.var "b")) "c")] := by cbv
    have htext : printUnit [.expr (.prop (.assign "a" (.var "b")) "c")] = "a = b.c;\n" := rfl
    have hlost : parseUnit "unit" "a = b.c;\n" =
        .ok [.expr (.assign "a" (.prop (.var "b") "c"))] := by cbv
    have hkept := h _ _ _ hparsed "unit"
    rw [htext,hlost] at hkept
    cases hkept
  · have hparsed : parseExpression "1 .x" = .ok (.prop (.literal (.int 1)) "x") := by cbv
    have htext : Expr.print (.prop (.literal (.int 1)) "x") = "1.x" := rfl
    have hlost : parseExpression "1.x" =
        .error (.badSyntax "<expression>" 2 (.unexpectedToken "x")) := rfl
    have hkept := h _ _ hparsed
    rw [htext,hlost] at hkept
    cases hkept

end Wiring.Script
