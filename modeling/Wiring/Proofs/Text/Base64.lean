import Mathlib
import Wiring.Text.Base64

/-!
# Encoded bytes are read back

Three bytes are a number of twenty-four bits, four letters give its four digits to the
base of sixty-four, and the digits give the number back.
-/
namespace Wiring.Base64

theorem value_letter {n : Nat} (h : n < 64) : value? (letter n) = some n := by
  have hall : ∀ i : Fin 64, value? (letter i) = some i.val := by decide +kernel
  exact hall ⟨n,h⟩

theorem letter_ne_padding {n : Nat} (h : n < 64) : letter n ≠ '=' := by
  have hall : ∀ i : Fin 64, letter i ≠ '=' := by decide +kernel
  exact hall ⟨n,h⟩

theorem byte_eq (a : UInt8) {n : Nat} (h : n = a.toNat) : UInt8.ofNat n = a := by
  rw [h,UInt8.ofNat_toNat]

theorem group_letters (a b c : UInt8) {n : Nat}
    (hn : n = a.toNat * 65536 + b.toNat * 256 + c.toNat) :
    group? (letter (n / 262144)) (letter (n / 4096 % 64)) (letter (n / 64 % 64)) (letter (n % 64)) =
      some [a,b,c] := by
  have ha := a.toNat_lt
  have hb := b.toNat_lt
  have hc := c.toNat_lt
  have hdigits : (n / 262144 * 64 + n / 4096 % 64) * 4096 + n / 64 % 64 * 64 + n % 64 = n := by omega
  unfold group?
  rw [value_letter (by omega),value_letter (by omega),value_letter (by omega),
    value_letter (by omega)]
  simp only [Option.bind_eq_bind,Option.bind_some,hdigits]
  rw [byte_eq a (by omega),byte_eq b (by omega),byte_eq c (by omega)]
  rfl

theorem lastGroup_letters (a b c : Char) {n : Nat} (h : n < 64) :
    lastGroup? a b c (letter n) = group? a b c (letter n) := by
  have hd := letter_ne_padding h
  unfold lastGroup?
  simp only [hd,and_false,if_false]

theorem decode_two (a b : UInt8) : decodeChars? (encodeChars [a,b]) = some [a,b] := by
  have ha := a.toNat_lt
  have hb := b.toNat_lt
  obtain ⟨n,hn⟩ : ∃ n, n = a.toNat * 256 + b.toNat := ⟨_,rfl⟩
  have hpadding : letter (n * 4 % 64) ≠ '=' := letter_ne_padding (by omega)
  simp only [encodeChars,← hn,decodeChars?,lastGroup?,hpadding,false_and,if_false,if_true]
  rw [value_letter (by omega),value_letter (by omega),value_letter (by omega)]
  have hdigits : (n / 1024 * 64 + n / 16 % 64) * 64 + n * 4 % 64 = n * 4 := by omega
  simp only [Option.bind_eq_bind,Option.bind_some,hdigits]
  rw [if_pos (by omega),byte_eq a (by omega),byte_eq b (by omega)]

theorem decode_one (a : UInt8) : decodeChars? (encodeChars [a]) = some [a] := by
  have ha := a.toNat_lt
  simp only [encodeChars,decodeChars?,lastGroup?,and_self,if_true]
  rw [value_letter (by omega),value_letter (by omega)]
  have hdigits : a.toNat / 4 * 64 + a.toNat * 16 % 64 = a.toNat * 16 := by omega
  simp only [Option.bind_eq_bind,Option.bind_some,hdigits]
  rw [if_pos (by omega),byte_eq a (by omega)]

/-- Four letters of a full group are taken off the front, whether or not more follow. -/
theorem decodeChars_group (a b c : Char) {n : Nat} (h : n < 64) (rest : List Char) :
    decodeChars? (a :: b :: c :: letter n :: rest) =
      (group? a b c (letter n)).bind fun bytes => (decodeChars? rest).map (bytes ++ ·) := by
  cases rest with
  | nil =>
    have hlast : decodeChars? [a,b,c,letter n] = lastGroup? a b c (letter n) := rfl
    rw [hlast,lastGroup_letters a b c h]
    cases group? a b c (letter n) with
    | none => rfl
    | some bytes => simp [decodeChars?]
  | cons d more =>
    conv => lhs; unfold decodeChars?
    cases group? a b c (letter n) with
    | none => rfl
    | some bytes =>
      cases decodeChars? (d :: more) with
      | none => rfl
      | some others => rfl

theorem decodeChars_encodeChars : ∀ bytes : List UInt8, decodeChars? (encodeChars bytes) = some bytes
  | [] => rfl
  | [a] => decode_one a
  | [a,b] => decode_two a b
  | a :: b :: c :: rest => by
    have ih := decodeChars_encodeChars rest
    simp only [encodeChars]
    rw [decodeChars_group _ _ _ (Nat.mod_lt _ (by decide)),group_letters a b c rfl,ih]
    rfl

theorem decode_encode (bytes : List UInt8) : decode? (encode bytes) = some bytes := by
  rw [decode?,encode,String.toList_ofList,decodeChars_encodeChars]

end Wiring.Base64
