import Mathlib
import Wiring.Proofs.Script.Tokenizing

/-!
# Quoted texts keep to themselves

Between quotes any text is one token, which says what the text is and ends with the closing quote.
What comes after that is scanned as if nothing had come before it, so no text that is quoted can
change how the rest is read. The characters that would end the line or widen it are not written as
they are.
-/
namespace Wiring.Script

/-- The token lies so many bytes further on. -/
def Token.shift (n : Nat) (t : Token) : Token :=
  { t with start := n + t.start, stop := n + t.stop }

/-- Where a text begins makes no difference to its tokens but that they lie further on. -/
theorem tokensFrom_shift (n fuel offset : Nat) (cs : List Char) :
    tokensFrom fuel (n + offset) cs = (tokensFrom fuel offset cs).map (Token.shift n) := by
  induction fuel generalizing offset cs with
  | zero => rfl
  | succ fuel ih =>
    simp only [tokensFrom]
    cases splitToken (splitBlank cs).2 with
    | none => rfl
    | some found =>
      obtain ⟨lexeme,left⟩ := found
      dsimp only
      rw [Nat.add_assoc,Nat.add_assoc]
      split
      next => rfl
      next =>
        rw [ih]
        rfl

theorem tokensAt_shift (n : Nat) (cs : List Char) :
    tokensAt n cs = (tokensAt 0 cs).map (Token.shift n) :=
  tokensFrom_shift n _ 0 cs

theorem tokenize_eq (text : String) : tokenize text = tokensAt 0 text.toList := rfl

/-- What is written for a character does not break the line. -/
theorem escapeChar_unbroken {c d : Char} (h : d ∈ escapeChar c) : d ≠ '\n' ∧ d ≠ '\r' ∧ d ≠ '\t' := by
  unfold escapeChar at h
  split at h
  case h_6 hline hreturn htab _ _ =>
    obtain rfl := List.mem_singleton.mp h
    exact ⟨hline,hreturn,htab⟩
  all_goals
    rcases List.mem_cons.mp h with rfl | h
    · decide
    · rw [List.mem_singleton.mp h]
      decide

theorem quotedChars_unbroken {s : String} {c : Char} (h : c ∈ quotedChars s) :
    c ≠ '\n' ∧ c ≠ '\r' ∧ c ≠ '\t' := by
  have hquote : '\'' ≠ '\n' ∧ '\'' ≠ '\r' ∧ '\'' ≠ '\t' := by decide
  rcases List.mem_append.mp h with h | h
  · rcases List.mem_cons.mp h with rfl | h
    · exact hquote
    · obtain ⟨d,_,hd⟩ := List.mem_flatMap.mp h
      exact escapeChar_unbroken hd
  · rw [List.mem_singleton.mp h]
    exact hquote

/-- Whatever comes after a quoted text, the first token says the text and covers the bytes between
the quotes and the quotes themselves, and then come the tokens of what is after it. The quoted text
has no line feed, no carriage return and no tab. -/
theorem quoted_keeps_to_itself (s rest : String) :
    splitToken (quoted s ++ rest).toList = some (⟨.text,s,(quoted s).toList⟩,rest.toList) ∧
      tokenize (quoted s ++ rest) = ⟨.text,0,(quoted s).utf8ByteSize,s⟩ ::
        (tokenize rest).map (Token.shift (quoted s).utf8ByteSize) ∧
      ∀ c ∈ (quoted s).toList, c ≠ '\n' ∧ c ≠ '\r' ∧ c ≠ '\t' := by
  have hchars : (quoted s).toList = quotedChars s := String.toList_ofList
  have hsize : byteLength (quotedChars s) = (quoted s).utf8ByteSize := by
    rw [← hchars,byteLength_toList]
  have hwhole : (quoted s ++ rest).toList = quotedChars s ++ rest.toList := by
    rw [String.toList_append,hchars]
  refine ⟨?_,?_,fun c hc => quotedChars_unbroken (hchars ▸ hc)⟩
  · rw [hwhole,hchars]
    exact splitToken_quoted s rest.toList
  · rw [tokenize_eq,tokenize_eq,hwhole,tokensAt_quoted_eq,Nat.zero_add,hsize,tokensAt_shift]

/-- A text that tries to close its quotes and to go on after them stays between them. -/
example : tokenize (quoted "'\\" ++ ";") =
    [⟨.text,0,6,"'\\"⟩,⟨.character,6,7,";"⟩] := by decide +kernel

end Wiring.Script
