import Mathlib
import Wiring.Json.Reader

/-!
# JSON texts of texts

A text is read back from its escaped characters between quotes, whatever follows it.
-/
namespace Wiring.Json

theorem hexValue_hexDigit {n : Nat} (h : n < 16) : hexValue? (hexDigit n) = some n := by
  have hall : ∀ m : Fin 16, hexValue? (hexDigit m) = some m.val := by decide
  exact hall ⟨n,h⟩

/-- The pieces of an escaped character are the character. -/
theorem readPieces_escapeChar (c : Char) {cs rest : List Char} {pieces : List Piece}
    (h : readPieces cs = some (pieces,rest)) :
    readPieces (escapeChar c ++ cs) = some (.char c :: pieces,rest) := by
  unfold escapeChar
  split
  · simp [readPieces,simpleEscape?,h]
  · simp [readPieces,simpleEscape?,h]
  · simp [readPieces,simpleEscape?,h]
  · simp [readPieces,simpleEscape?,h]
  · simp [readPieces,simpleEscape?,h]
  · simp [readPieces,simpleEscape?,h]
  · simp [readPieces,simpleEscape?,h]
  next hquote hslash _ _ _ _ _ =>
    split
    next hcontrol =>
      have hzero : hexValue? '0' = some 0 := by decide
      have hhigh : hexValue? (hexDigit (c.toNat / 16)) = some (c.toNat / 16) :=
        hexValue_hexDigit (by omega)
      have hlow : hexValue? (hexDigit (c.toNat % 16)) = some (c.toNat % 16) :=
        hexValue_hexDigit (by omega)
      have hunit : unit? '0' '0' (hexDigit (c.toNat / 16)) (hexDigit (c.toNat % 16)) =
          some c.toNat := by
        have hsum : c.toNat / 16 * 16 + c.toNat % 16 = c.toNat := by omega
        simp [unit?,hzero,hhigh,hlow,hsum]
      have hpiece : Piece.ofUnit c.toNat = .char c := by
        have hlt : c.toNat < 0xd800 := by omega
        simp [Piece.ofUnit,hlt]
      simp [readPieces,hunit,h,hpiece]
    next hcontrol =>
      have hread : readPieces (c :: cs) = if c.toNat < 32 ∨ c = '\\' then none else
          (readPieces cs).bind fun p => some (.char c :: p.1,p.2) := by
        rw [readPieces]
        · cases readPieces cs <;> rfl
        · exact hquote
        · exact fun _ _ _ _ _ hc _ => hslash hc
        · exact fun _ _ hc _ => hslash hc
      have hno : ¬(c.toNat < 32 ∨ c = '\\') := by
        rintro (hlt | hc)
        · exact hcontrol hlt
        · exact hslash hc
      rw [List.singleton_append,hread,if_neg hno,h]
      rfl

theorem readPieces_escaped (cs rest : List Char) :
    readPieces (cs.flatMap escapeChar ++ '"' :: rest) = some (cs.map Piece.char,rest) := by
  induction cs with
  | nil => simp [readPieces]
  | cons c cs ih =>
    rw [List.flatMap_cons,List.append_assoc,readPieces_escapeChar c ih]
    rfl

theorem joinPieces_chars (cs : List Char) : joinPieces (cs.map Piece.char) = some cs := by
  induction cs with
  | nil => rfl
  | cons c cs ih => simp only [List.map_cons,joinPieces,ih,Option.map_some]

theorem readText_escaped (s : String) (rest : List Char) :
    readText (s.toList.flatMap escapeChar ++ '"' :: rest) = some (some s,rest) := by
  unfold readText
  rw [readPieces_escaped]
  simp [joinPieces_chars]

end Wiring.Json
