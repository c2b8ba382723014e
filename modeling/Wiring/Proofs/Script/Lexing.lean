import Mathlib
import Wiring.Script.Token

/-!
# Where tokens begin and end

A split of a text loses nothing: what is taken and what is left make the text again. So
every token shortens the text, and the tokens of a text are those of its front followed
by those of the rest, provided that the rest cannot go on with the last token.
-/
namespace Wiring.Script

section Splits

mutual

theorem splitBlank_append : ∀ cs : List Char, (splitBlank cs).1 ++ (splitBlank cs).2 = cs
  | [] => by
    unfold splitBlank
    rfl
  | c :: rest => by
    have hb := splitBlank_append rest
    unfold splitBlank
    split
    next _ more heq =>
      have hc := splitComment_append more
      rw [heq]
      simp only [List.cons_append,hc]
    next _ d more _ heq =>
      obtain ⟨rfl,rfl⟩ : c = d ∧ rest = more := by simpa using heq
      by_cases h : isBlank c = true
      · simp only [h,if_true,List.cons_append,hb]
      · simp only [h,Bool.false_eq_true,if_false,List.nil_append]
    next heq => cases heq
termination_by cs => cs.length
decreasing_by
  · simp
  · simp_all only [List.cons.injEq,List.length_cons]
    omega

theorem splitComment_append : ∀ cs : List Char, (splitComment cs).1 ++ (splitComment cs).2 = cs
  | [] => by
    unfold splitComment
    rfl
  | c :: rest => by
    have hb := splitBlank_append rest
    have hc := splitComment_append rest
    unfold splitComment
    by_cases h : c = '\n'
    · simp only [h,if_true,List.cons_append,hb]
    · simp only [h,if_false,List.cons_append,hc]
termination_by cs => cs.length

end

theorem splitNumber_append (cs : List Char) : (splitNumber cs).1 ++ (splitNumber cs).2 = cs := by
  fun_induction splitNumber cs <;> simp_all

theorem splitQuoted_append {cs quoted left : List Char} (h : splitQuoted cs = some (quoted,left)) :
    quoted ++ left = cs := by
  fun_induction splitQuoted cs generalizing quoted left with
  | case1 => cases h
  | case2 rest =>
    obtain ⟨rfl,rfl⟩ : ['\''] = quoted ∧ rest = left := by simpa using h
    rfl
  | case3 c rest ih =>
    obtain ⟨⟨q,l⟩,hq,heq⟩ := Option.map_eq_some_iff.mp h
    obtain ⟨rfl,rfl⟩ : '\\' :: c :: q = quoted ∧ l = left := by simpa using heq
    simp only [List.cons_append,ih hq]
  | case4 => cases h
  | case5 c rest _ _ _ ih =>
    obtain ⟨⟨q,l⟩,hq,heq⟩ := Option.map_eq_some_iff.mp h
    obtain ⟨rfl,rfl⟩ : c :: q = quoted ∧ l = left := by simpa using heq
    simp only [List.cons_append,ih hq]

/-- A token covers the characters between the text and what is left, and at least one. -/
theorem splitToken_append {cs left : List Char} {lexeme : Lexeme}
    (h : splitToken cs = some (lexeme,left)) : lexeme.covered ++ left = cs ∧ lexeme.covered ≠ [] := by
  cases cs with
  | nil => cases h
  | cons c rest =>
    simp only [splitToken] at h
    split at h
    next =>
      obtain ⟨rfl,rfl⟩ := Prod.mk.inj (Option.some.inj h)
      simp [Lexeme.ofName,Lexeme.verbatim]
    split at h
    next hDigit =>
      obtain ⟨rfl,rfl⟩ := Prod.mk.inj (Option.some.inj h)
      have hc : (Lexeme.ofNumber (splitNumber (c :: rest)).1).covered =
          (splitNumber (c :: rest)).1 := by
        unfold Lexeme.ofNumber
        split <;> rfl
      rw [hc]
      refine ⟨splitNumber_append _,?_⟩
      unfold splitNumber
      simp [hDigit]
    split at h
    next =>
      obtain ⟨rfl,rfl⟩ := Prod.mk.inj (Option.some.inj h)
      simp [Lexeme.verbatim]
    split at h
    next =>
      split at h
      next quoted left' heq =>
        obtain ⟨rfl,rfl⟩ := Prod.mk.inj (Option.some.inj h)
        simp [splitQuoted_append heq]
      next =>
        obtain ⟨rfl,rfl⟩ := Prod.mk.inj (Option.some.inj h)
        simp
    split at h
    next =>
      obtain ⟨rfl,rfl⟩ := Prod.mk.inj (Option.some.inj h)
      simp [Lexeme.verbatim]
    split at h
    next =>
      split at h
      next =>
        obtain ⟨rfl,rfl⟩ := Prod.mk.inj (Option.some.inj h)
        simp [Lexeme.verbatim]
      next =>
        obtain ⟨rfl,rfl⟩ := Prod.mk.inj (Option.some.inj h)
        simp [Lexeme.verbatim]
    next =>
      obtain ⟨rfl,rfl⟩ := Prod.mk.inj (Option.some.inj h)
      simp

theorem kind_ofNumber (number : List Char) :
    (Lexeme.ofNumber number).kind = .number ∨ (Lexeme.ofNumber number).kind = .error := by
  unfold Lexeme.ofNumber
  split
  · exact .inr rfl
  · exact .inl rfl

/-- Only what begins like a name is one. -/
theorem splitToken_not_name {c : Char} {rest left : List Char} {lexeme : Lexeme}
    (h : splitToken (c :: rest) = some (lexeme,left))
    (hc : ¬(isIdentifierStart c || c == '\\') = true) :
    lexeme.kind ≠ .identifier ∧ lexeme.kind ≠ .keyword := by
  simp only [splitToken,hc,Bool.false_eq_true,if_false] at h
  split at h
  next =>
    obtain ⟨rfl,rfl⟩ := Prod.mk.inj (Option.some.inj h)
    rcases kind_ofNumber (splitNumber (c :: rest)).1 with hk | hk
    · simp [hk]
    · simp [hk]
  next =>
    split at h
    next =>
      obtain ⟨rfl,rfl⟩ := Prod.mk.inj (Option.some.inj h)
      simp [Lexeme.verbatim]
    next =>
      split at h
      next =>
        split at h
        all_goals
          obtain ⟨rfl,rfl⟩ := Prod.mk.inj (Option.some.inj h)
          simp
      next =>
        split at h
        next =>
          obtain ⟨rfl,rfl⟩ := Prod.mk.inj (Option.some.inj h)
          simp [Lexeme.verbatim]
        next =>
          split at h
          next =>
            split at h
            all_goals
              obtain ⟨rfl,rfl⟩ := Prod.mk.inj (Option.some.inj h)
              simp [Lexeme.verbatim]
          next =>
            obtain ⟨rfl,rfl⟩ := Prod.mk.inj (Option.some.inj h)
            simp

theorem splitBlank_length (cs : List Char) : (splitBlank cs).2.length ≤ cs.length := by
  have h := congrArg List.length (splitBlank_append cs)
  rw [List.length_append] at h
  omega

theorem splitToken_length {cs left : List Char} {lexeme : Lexeme}
    (h : splitToken cs = some (lexeme,left)) : left.length < cs.length := by
  obtain ⟨happend,hne⟩ := splitToken_append h
  have hlength := congrArg List.length happend
  have hpos : 0 < lexeme.covered.length := List.length_pos_iff.mpr hne
  rw [List.length_append] at hlength
  omega

end Splits

/-- The tokens of a text that starts so many bytes into the whole. -/
def tokensAt (offset : Nat) (cs : List Char) : List Token :=
  tokensFrom (cs.length + 1) offset cs

theorem tokensFrom_enough {fuel enough : Nat} (offset : Nat) (cs : List Char)
    (hf : cs.length < fuel) (he : cs.length < enough) :
    tokensFrom fuel offset cs = tokensFrom enough offset cs := by
  induction fuel generalizing enough offset cs with
  | zero => exact absurd hf (Nat.not_lt_zero _)
  | succ fuel ih =>
    obtain ⟨n,rfl⟩ : ∃ n, enough = n + 1 := ⟨enough - 1,by omega⟩
    have hblank := splitBlank_length cs
    simp only [tokensFrom]
    cases h : splitToken (splitBlank cs).2 with
    | none => rfl
    | some found =>
      obtain ⟨lexeme,left⟩ := found
      have hleft := splitToken_length h
      simp only [ih _ left (by omega : left.length < fuel) (by omega : left.length < n)]

/-- What comes before the first token is passed over. -/
theorem tokensAt_blank {c : Char} (hb : isBlank c = true) (hc : c ≠ '/') (offset : Nat)
    (cs : List Char) : tokensAt offset (c :: cs) = tokensAt (offset + c.utf8Size) cs := by
  have hsplit : splitBlank (c :: cs) = (c :: (splitBlank cs).1,(splitBlank cs).2) := by
    conv => lhs; unfold splitBlank
    split
    next heq =>
      exact absurd (List.cons.inj heq).1 hc
    next _ d more _ heq =>
      obtain ⟨rfl,rfl⟩ : c = d ∧ cs = more := by simpa using heq
      simp only [hb,if_true]
    next heq => cases heq
  have hoffset : offset + byteLength (c :: (splitBlank cs).1) =
      offset + c.utf8Size + byteLength (splitBlank cs).1 := by
    simp only [byteLength,List.foldr_cons]
    omega
  have hblank := splitBlank_length cs
  simp only [tokensAt,tokensFrom,hsplit,hoffset]
  cases h : splitToken (splitBlank cs).2 with
  | none => rfl
  | some found =>
    obtain ⟨lexeme,left⟩ := found
    have hleft := splitToken_length h
    have hl : left.length < (c :: cs).length := by
      rw [List.length_cons]
      omega
    simp only [tokensFrom_enough _ left hl (by omega : left.length < cs.length)]

/-- A token where the text begins is followed by the tokens of what is left. -/
theorem tokensAt_token {cs left : List Char} {lexeme : Lexeme} (hb : splitBlank cs = ([],cs))
    (h : splitToken cs = some (lexeme,left)) (hk : lexeme.kind ≠ .error) (offset : Nat) :
    tokensAt offset cs =
      ⟨lexeme.kind,offset,offset + byteLength lexeme.covered,lexeme.text⟩ ::
        tokensAt (offset + byteLength lexeme.covered) left := by
  have hleft := splitToken_length h
  have hzero : offset + byteLength [] = offset := Nat.add_zero _
  have hEnough := fun o => tokensFrom_enough o left hleft (Nat.lt_succ_self _)
  simp only [tokensAt,tokensFrom,hb,h,hk,if_false,hzero,hEnough]

end Wiring.Script
