import Mathlib
import Wiring.Json.Reader
import Wiring.Proofs.Number.ReadBack

/-!
# JSON texts of numbers

A number is read back from what is written for it before whatever does not go on with a
number. Integers keep their value if they fit in sixty-four bits; a floating point number
need not, for it is read with rounding at every step.
-/
namespace Wiring.Json

open Decimal (AllDigits digits)

/-- What stands here does not go on with a number. -/
def NumberStops (rest : List Char) : Prop :=
  ∀ c ∈ rest.head?, c.isDigit = false ∧ c ≠ '.' ∧ c ≠ 'e' ∧ c ≠ 'E'

theorem numberStops_nil : NumberStops [] := by
  intro c hc
  cases hc

theorem numberStops_cons {c : Char} {rest : List Char}
    (h : c.isDigit = false ∧ c ≠ '.' ∧ c ≠ 'e' ∧ c ≠ 'E') : NumberStops (c :: rest) := by
  intro d hd
  obtain rfl : c = d := by simpa using hd
  exact h

theorem numberStops_comma (rest : List Char) : NumberStops (',' :: rest) :=
  numberStops_cons (by decide)

theorem digits_head_ne {n : Nat} (h : 0 < n) : (digits n).head? ≠ some '0' := by
  induction n using Nat.strong_induction_on with
  | _ n ih =>
    unfold digits
    rw [Nat.toDigits_eq_if (by decide)]
    split
    next hlt =>
      have hall : ∀ m : Fin 10, 0 < m.val → [Nat.digitChar m.val].head? ≠ some '0' := by decide
      exact hall ⟨n,hlt⟩ h
    next hge =>
      have hne : Nat.toDigits 10 (n / 10) ≠ [] := Nat.toDigits_ne_nil
      rw [List.head?_append_of_ne_nil _ hne]
      exact ih (n / 10) (by omega) (by omega)

/-- The digits of a number stand alone: a zero comes first only if there is nothing else. -/
theorem leadingZero_digits (n : Nat) :
    ((digits n).isEmpty || ((digits n).head? == some '0' && (digits n).length != 1)) = false := by
  have hne := Decimal.digits_ne_nil n
  rcases Nat.eq_zero_or_pos n with rfl | h
  · rfl
  · have hhead := digits_head_ne h
    simp [hne,hhead]

theorem takeWhile_stop {cs rest : List Char} (hd : AllDigits cs) (h : NumberStops rest) :
    (cs ++ rest).takeWhile Char.isDigit = cs := by
  cases rest with
  | nil =>
    rw [List.append_nil]
    exact List.takeWhile_eq_self_iff.mpr hd
  | cons c more => exact Decimal.takeWhile_digits hd (h c rfl).1

theorem dropWhile_stop {cs rest : List Char} (hd : AllDigits cs) (h : NumberStops rest) :
    (cs ++ rest).dropWhile Char.isDigit = rest := by
  cases rest with
  | nil =>
    rw [List.append_nil]
    exact List.dropWhile_eq_nil_iff.mpr hd
  | cons c more => exact Decimal.dropWhile_digits hd (h c rfl).1

/-- Where nothing goes on with a number, there is neither a point nor an exponent. -/
theorem takeFraction_stop {rest : List Char} (h : NumberStops rest) :
    takeFraction rest = (none,rest) := by
  unfold takeFraction
  split
  next tail => exact absurd rfl (h '.' rfl).2.1
  · rfl

theorem readScaled_stop (negative : Bool) (whole : List Char) (fraction : Option (List Char))
    {rest : List Char} (h : NumberStops rest) :
    readScaled negative whole fraction rest = some (readPlain negative whole fraction,rest) := by
  cases rest with
  | nil => rfl
  | cons c tail =>
    obtain ⟨_,_,he,hE⟩ := h c rfl
    rw [readScaled,if_neg (by simp [he,hE])]

theorem readNumber_digits (n : Nat) {rest : List Char} (h : NumberStops rest) :
    readNumber (digits n ++ rest) = some (readWhole false (digits n),rest) := by
  have hd := AllDigits.digits n
  have hminus : ((digits n ++ rest).head? == some '-') = false := by
    obtain ⟨c,cs,hc⟩ := List.exists_cons_of_ne_nil (Decimal.digits_ne_nil n)
    have hdigit : c.isDigit = true := hd c (hc ▸ List.mem_cons_self)
    have hne : c ≠ '-' := by
      rintro rfl
      exact absurd hdigit (by decide)
    simp [hc,hne]
  unfold readNumber
  simp only [hminus,Bool.false_eq_true,if_false,takeWhile_stop hd h,dropWhile_stop hd h,
    leadingZero_digits,takeFraction_stop h]
  exact readScaled_stop _ _ _ h

theorem readNumber_minus_digits (n : Nat) {rest : List Char} (h : NumberStops rest) :
    readNumber ('-' :: (digits n ++ rest)) = some (readWhole true (digits n),rest) := by
  have hd := AllDigits.digits n
  unfold readNumber
  simp only [List.head?_cons,beq_self_eq_true,if_true,List.tail_cons,takeWhile_stop hd h,
    dropWhile_stop hd h,leadingZero_digits,Bool.false_eq_true,if_false,takeFraction_stop h]
  exact readScaled_stop _ _ _ h

/-- The integers that keep their value in a JSON text. -/
def intFits (i : Int) : Bool := decide (-9223372036854775808 ≤ i ∧ i < 18446744073709551616)

theorem readNumber_int {i : Int} (hi : intFits i = true) {rest : List Char} (h : NumberStops rest) :
    readNumber ((toString i).toList ++ rest) = some (.int i,rest) := by
  obtain ⟨hlow,hhigh⟩ := of_decide_eq_true hi
  cases i with
  | ofNat n =>
    have htext : (toString (Int.ofNat n)).toList = digits n := by
      show (Nat.repr n).toList = _
      exact Nat.toList_repr
    have hn : n < wordCount := Int.ofNat_lt.mp hhigh
    rw [htext,readNumber_digits n h]
    unfold readWhole
    simp [Decimal.ofDigits_digits,hn]
  | negSucc n =>
    have htext : (toString (Int.negSucc n)).toList = '-' :: digits (n + 1) := by
      show ("-" ++ Nat.repr (n + 1)).toList = _
      rw [String.toList_append,Nat.toList_repr]
      rfl
    have hn : n + 1 ≤ negativeCount := by
      unfold negativeCount
      omega
    rw [htext,List.cons_append,readNumber_minus_digits _ h]
    unfold readWhole
    simp [Decimal.ofDigits_digits,hn]
    omega

theorem span_digits (cs : List Char) {rest : List Char} (h : NumberStops rest) :
    (cs ++ rest).takeWhile Char.isDigit = cs.takeWhile Char.isDigit ∧
      (cs ++ rest).dropWhile Char.isDigit = cs.dropWhile Char.isDigit ++ rest := by
  induction cs with
  | nil =>
    constructor
    · exact takeWhile_stop (show AllDigits [] from fun c hc => by cases hc) h
    · exact dropWhile_stop (show AllDigits [] from fun c hc => by cases hc) h
  | cons c cs ih =>
    rw [List.cons_append]
    by_cases hc : c.isDigit = true
    · simp [hc,ih.1,ih.2]
    · simp [hc]

theorem takeDigits_append {cs left rest : List Char} {n : Nat}
    (hn : takeDigits cs = some (n,left)) (h : NumberStops rest) :
    takeDigits (cs ++ rest) = some (n,left ++ rest) := by
  obtain ⟨htake,hdrop⟩ := span_digits cs h
  unfold takeDigits at hn ⊢
  rw [htake,hdrop]
  dsimp only at hn ⊢
  split at hn
  · cases hn
  next hdigits =>
    obtain ⟨rfl,rfl⟩ := Prod.mk.inj (Option.some.inj hn)
    rw [if_neg hdigits]

theorem takeExponent_append {cs left rest : List Char} {e : Int}
    (he : takeExponent cs = some (e,left)) (h : NumberStops rest) :
    takeExponent (cs ++ rest) = some (e,left ++ rest) := by
  have hmap {f : Nat → Int} {ds : List Char}
      (hd : (takeDigits ds).map (fun r => (f r.1,r.2)) = some (e,left)) :
      (takeDigits (ds ++ rest)).map (fun r => (f r.1,r.2)) = some (e,left ++ rest) := by
    obtain ⟨⟨n,left'⟩,hn,heq⟩ := Option.map_eq_some_iff.mp hd
    obtain ⟨rfl,rfl⟩ := Prod.mk.inj heq
    rw [takeDigits_append hn h,Option.map_some]
  unfold takeExponent at he
  split at he
  · exact hmap he
  · exact hmap (f := fun n => -(n : Int)) he
  next hplus hminus =>
    cases cs with
    | nil => cases he
    | cons c cs =>
      rw [List.cons_append,takeExponent]
      · exact hmap he
      · exact fun tail hc => hplus cs (by rw [(List.cons.inj hc).1])
      · exact fun tail hc => hminus cs (by rw [(List.cons.inj hc).1])

theorem takeFraction_append (cs : List Char) {rest : List Char} (h : NumberStops rest) :
    takeFraction (cs ++ rest) = ((takeFraction cs).1,(takeFraction cs).2 ++ rest) := by
  cases cs with
  | nil => exact takeFraction_stop h
  | cons c cs =>
    by_cases hc : c = '.'
    · subst hc
      obtain ⟨htake,hdrop⟩ := span_digits cs h
      rw [List.cons_append,takeFraction,takeFraction,htake,hdrop]
    · rw [List.cons_append,takeFraction,takeFraction]
      · rfl
      · exact fun tail ht => hc (List.cons.inj ht).1
      · exact fun tail ht => hc (List.cons.inj ht).1

theorem readScaled_append {negative : Bool} {whole cs left rest : List Char}
    {fraction : Option (List Char)} {j : Json}
    (hj : readScaled negative whole fraction cs = some (j,left)) (h : NumberStops rest) :
    readScaled negative whole fraction (cs ++ rest) = some (j,left ++ rest) := by
  cases cs with
  | nil =>
    obtain ⟨rfl,rfl⟩ := Prod.mk.inj (Option.some.inj hj)
    exact readScaled_stop _ _ _ h
  | cons c tail =>
    rw [List.cons_append,readScaled]
    rw [readScaled] at hj
    split at hj
    next he =>
      rw [if_pos he]
      obtain ⟨⟨e,left'⟩,hexp,heq⟩ := Option.map_eq_some_iff.mp hj
      obtain ⟨rfl,rfl⟩ := Prod.mk.inj heq
      rw [takeExponent_append hexp h,Option.map_some]
    next he =>
      rw [if_neg he]
      obtain ⟨rfl,rfl⟩ := Prod.mk.inj (Option.some.inj hj)
      rfl

/-- A number stays the same before anything that does not go on with it. -/
theorem readNumber_append {cs left rest : List Char} {j : Json}
    (hj : readNumber cs = some (j,left)) (h : NumberStops rest) :
    readNumber (cs ++ rest) = some (j,left ++ rest) := by
  have hne : cs ≠ [] := by
    rintro rfl
    cases hj
  have hhead : (cs ++ rest).head? = cs.head? := List.head?_append_of_ne_nil cs hne
  have hbody : (if (cs.head? == some '-') = true then (cs ++ rest).tail else cs ++ rest) =
      (if (cs.head? == some '-') = true then cs.tail else cs) ++ rest := by
    split
    · exact List.tail_append_of_ne_nil hne
    · rfl
  unfold readNumber at hj ⊢
  dsimp only at hj ⊢
  rw [hhead,hbody]
  generalize (if (cs.head? == some '-') = true then cs.tail else cs) = body at hj ⊢
  obtain ⟨htake,hdrop⟩ := span_digits body h
  rw [htake,hdrop,takeFraction_append _ h]
  split at hj
  · cases hj
  next hwhole =>
    rw [if_neg hwhole]
    split at hj
    · cases hj
    next hfraction =>
      rw [if_neg hfraction]
      exact readScaled_append hj h

/-- The floating point numbers that keep their value in a JSON text. -/
def FloatFits (x : Binary64) : Prop := readNumber (floatChars x) = some (.float x,[])

end Wiring.Json
