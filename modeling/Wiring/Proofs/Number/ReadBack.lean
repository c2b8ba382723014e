import Mathlib
import Wiring.Proofs.Number.Rounding

/-!
# Decimal texts read back

Every layout of the digits of a decimal is read as a decimal of the same value, so the
text of a finite number is read as the number.
-/
namespace Wiring
namespace Decimal

theorem ofDigits_digits (n : Nat) : ofDigits (digits n) = n := Nat.ofDigitChars_ten_toDigits

theorem isDigit_of_mem_digits {n : Nat} {c : Char} (h : c ∈ digits n) : c.isDigit = true :=
  Nat.isDigit_of_mem_toDigits (by decide) (by decide) h

theorem digits_ne_nil (n : Nat) : digits n ≠ [] := Nat.toDigits_ne_nil

theorem ofDigits_append (cs ds : List Char) :
    ofDigits (cs ++ ds) = 10 ^ ds.length * ofDigits cs + ofDigits ds := by
  have h := Nat.ofDigitChars_append (b := 10) (l := cs) (m := ds) 0
  rw [Nat.ofDigitChars_eq_ofDigitChars_zero (l := ds)] at h
  exact h

theorem ofDigits_zeros (n : Nat) : ofDigits (List.replicate n '0') = 0 := by
  have h : ofDigits (List.replicate n '0') = 10 ^ n * 0 := Nat.ofDigitChars_replicate_zero
  rw [h,Nat.mul_zero]

/-- A run of digits; it may be empty. -/
def AllDigits (cs : List Char) : Prop := ∀ c ∈ cs, c.isDigit = true

namespace AllDigits

theorem digits (n : Nat) : AllDigits (digits n) := fun _ => isDigit_of_mem_digits

theorem zeros (n : Nat) : AllDigits (List.replicate n '0') := by
  intro c hc
  rw [List.eq_of_mem_replicate hc]
  rfl

theorem append {cs ds : List Char} (hc : AllDigits cs) (hd : AllDigits ds) :
    AllDigits (cs ++ ds) := by
  intro c h
  rcases List.mem_append.mp h with h | h
  · exact hc c h
  · exact hd c h

theorem take {cs : List Char} (h : AllDigits cs) (n : Nat) : AllDigits (cs.take n) :=
  fun c hc => h c (List.mem_of_mem_take hc)

theorem drop {cs : List Char} (h : AllDigits cs) (n : Nat) : AllDigits (cs.drop n) :=
  fun c hc => h c (List.mem_of_mem_drop hc)

end AllDigits

/-- The texts of an exponent after its letter. -/
inductive ExponentText : List Char → Int → Prop where
  | plain (n : Nat) : ExponentText (digits n) n
  | plus (n : Nat) : ExponentText ('+' :: digits n) n
  | minus (n : Nat) : ExponentText ('-' :: digits n) (-n)

/-- Texts with a point or an exponent, a digit first, and the decimals they are read
as. -/
inductive FloatText : List Char → Decimal → Prop where
  | point (whole fraction : List Char) (hw : AllDigits whole) (hf : AllDigits fraction)
      (hne : whole ≠ []) :
      FloatText (whole ++ '.' :: fraction) ⟨ofDigits (whole ++ fraction),-(fraction.length : Int)⟩
  | exponent {whole rest : List Char} {e : Int} (hw : AllDigits whole) (hne : whole ≠ [])
      (he : ExponentText rest e) : FloatText (whole ++ 'e' :: rest) ⟨ofDigits whole,e⟩
  | pointExponent {whole fraction rest : List Char} {e : Int} (hw : AllDigits whole)
      (hf : AllDigits fraction) (hne : whole ≠ []) (he : ExponentText rest e) :
      FloatText (whole ++ '.' :: (fraction ++ 'e' :: rest))
        ⟨ofDigits (whole ++ fraction),e - fraction.length⟩

section Reading

variable {whole rest : List Char}

theorem takeWhile_digits {c : Char} (hw : AllDigits whole) (hc : c.isDigit = false) :
    (whole ++ c :: rest).takeWhile Char.isDigit = whole := by
  rw [List.takeWhile_append_of_pos hw,List.takeWhile_cons_of_neg (by simp [hc]),List.append_nil]

theorem dropWhile_digits {c : Char} (hw : AllDigits whole) (hc : c.isDigit = false) :
    (whole ++ c :: rest).dropWhile Char.isDigit = c :: rest := by
  rw [List.dropWhile_append_of_pos hw,List.dropWhile_cons_of_neg (by simp [hc])]

theorem readExponent_text {rest : List Char} {e : Int} (h : ExponentText rest e) :
    readExponent rest = some e := by
  have hall : ∀ n, (digits n).all Char.isDigit = true :=
    fun n => List.all_eq_true.mpr (AllDigits.digits n)
  have hempty : ∀ n, (digits n).isEmpty = false := fun n => by simpa using digits_ne_nil n
  cases h with
  | plain n =>
    unfold readExponent
    split
    next rest h =>
      have := AllDigits.digits n '-' (by rw [h]; exact List.mem_cons_self)
      exact absurd this (by decide)
    next rest h =>
      have := AllDigits.digits n '+' (by rw [h]; exact List.mem_cons_self)
      exact absurd this (by decide)
    next =>
      simp only [hall,hempty,ofDigits_digits,Bool.not_true,Bool.or_false,Bool.false_eq_true,if_false]
      rfl
  | plus n =>
    simp only [readExponent,hall,hempty,ofDigits_digits,Bool.not_true,Bool.or_false,
      Bool.false_eq_true,if_false]
    rfl
  | minus n =>
    simp only [readExponent,hall,hempty,ofDigits_digits,Bool.not_true,Bool.or_false,
      Bool.false_eq_true,if_false]
    rfl

theorem read_floatText {cs : List Char} {d : Decimal} (h : FloatText cs d) :
    read? cs = some d := by
  cases h with
  | point whole fraction hw hf hne =>
    have he : whole.isEmpty = false := by simpa using hne
    have htake : fraction.takeWhile Char.isDigit = fraction := List.takeWhile_eq_self_iff.mpr hf
    have hdrop : fraction.dropWhile Char.isDigit = [] := List.dropWhile_eq_nil_iff.mpr hf
    simp only [read?,takeWhile_digits hw (c := '.') (by decide),
      dropWhile_digits hw (c := '.') (by decide),htake,hdrop,he,Bool.false_and,
      Bool.false_eq_true,if_false]
  | exponent hw hne hexp =>
    rename_i whole rest e
    have he : whole.isEmpty = false := by simpa using hne
    have hread : read? (whole ++ 'e' :: rest) =
        (readExponent rest).map fun e => ⟨ofDigits (whole ++ []),e - ([] : List Char).length⟩ := by
      unfold read?
      rw [takeWhile_digits hw (by decide),dropWhile_digits hw (by decide)]
      simp only [he,Bool.false_and,Bool.false_eq_true,if_false]
      rfl
    rw [hread,readExponent_text hexp,List.append_nil,List.length_nil]
    simp only [Option.map_some,Int.natCast_zero,Int.sub_zero]
  | pointExponent hw hf hne hexp =>
    rename_i whole fraction rest e
    have he : whole.isEmpty = false := by simpa using hne
    simp only [read?,takeWhile_digits hw (c := '.') (by decide),
      dropWhile_digits hw (c := '.') (by decide),takeWhile_digits hf (c := 'e') (by decide),
      dropWhile_digits hf (c := 'e') (by decide),he,Bool.false_and,Bool.false_eq_true,if_false,
      true_or,if_true,readExponent_text hexp,Option.map_some]

end Reading
end Decimal

namespace FloatStyle

open Decimal

theorem exponentText (plus : Bool) (power : Int) :
    ExponentText ((if power < 0 then ['-'] else if plus then ['+'] else []) ++
      digits power.natAbs) power := by
  by_cases h : power < 0
  · have e : power = -(power.natAbs : Int) := by omega
    have := ExponentText.minus power.natAbs
    rw [← e] at this
    simpa only [h,if_true,List.cons_append,List.nil_append] using this
  · have e : power = (power.natAbs : Int) := by omega
    cases plus with
    | true =>
      have := ExponentText.plus power.natAbs
      rw [← e] at this
      simpa only [h,if_false,if_true,List.cons_append,List.nil_append] using this
    | false =>
      have := ExponentText.plain power.natAbs
      rw [← e] at this
      simpa only [h,if_false,Bool.false_eq_true,List.nil_append] using this

theorem scientific_text (style : FloatStyle) (c : Nat) (e : Int) :
    FloatText (style.scientific (digits c) (e + (digits c).length)) ⟨c,e⟩ := by
  have hvalue := ofDigits_digits c
  have hdigits := AllDigits.digits c
  cases hd : digits c with
  | nil => exact absurd hd (digits_ne_nil c)
  | cons first others =>
    rw [hd] at hvalue hdigits
    have hw : AllDigits [first] := hdigits.take 1
    have hf : AllDigits others := hdigits.drop 1
    have hexp := exponentText style.plus (e + (first :: others).length - 1)
    cases ho : others with
    | nil =>
      rw [ho] at hvalue hexp
      have h := FloatText.exponent hw (List.cons_ne_nil _ _) hexp
      have he : e + ([first].length : Nat) - 1 = e := by simp
      rw [hvalue,he] at h
      simpa [scientific] using h
    | cons second more =>
      rw [ho] at hvalue hexp hf
      have h := FloatText.pointExponent hw hf (List.cons_ne_nil _ _) hexp
      have he : e + ((first :: second :: more).length : Nat) - 1 - (second :: more).length = e := by
        simp only [List.length_cons]
        omega
      have hc : ofDigits ([first] ++ second :: more) = c := hvalue
      rw [hc,he] at h
      simpa [scientific] using h

theorem positional_text (c : Nat) (e : Int) :
    ∃ d, FloatText (positional (digits c) (e + (digits c).length)) d ∧
      d.nearest = (Decimal.mk c e).nearest := by
  have hvalue := ofDigits_digits c
  have hdigits := AllDigits.digits c
  have hne := digits_ne_nil c
  generalize digits c = ds at hvalue hdigits hne
  unfold positional
  by_cases hp : e + ds.length ≤ 0
  · -- Zeros between the point and the digits.
    rw [if_pos hp]
    have hz := (AllDigits.zeros (-(e + ds.length)).toNat).append hdigits
    have h := FloatText.point ['0'] _ (AllDigits.zeros 1) hz (List.cons_ne_nil _ _)
    refine ⟨_,h,?_⟩
    have hc : ofDigits (['0'] ++ (List.replicate (-(e + ds.length)).toNat '0' ++ ds)) = c := by
      have hzero : ofDigits ['0'] = 0 := ofDigits_zeros 1
      rw [ofDigits_append,ofDigits_append,ofDigits_zeros,hzero,hvalue]
      omega
    have hl : -((List.replicate (-(e + ds.length)).toNat '0' ++ ds).length : Int) = e := by
      rw [List.length_append,List.length_replicate]
      omega
    rw [hc,hl]
  · rw [if_neg hp]
    by_cases hlen : ds.length ≤ (e + ds.length).toNat
    · -- Zeros between the digits and the point.
      simp only [hlen,if_true]
      have hz := hdigits.append (AllDigits.zeros ((e + ds.length).toNat - ds.length))
      have h := FloatText.point _ ['0'] hz (AllDigits.zeros 1) (by simp [hne])
      refine ⟨_,h,?_⟩
      obtain ⟨z,hz⟩ : ∃ z, z = (e + ds.length).toNat - ds.length := ⟨_,rfl⟩
      rw [← hz]
      have hc : ofDigits (ds ++ List.replicate z '0' ++ ['0']) = c * 10 ^ (z + 1) := by
        rw [List.append_assoc,← List.replicate_succ',ofDigits_append,ofDigits_zeros,hvalue,
          List.length_replicate,Nat.mul_comm,Nat.add_zero]
      have he : -((['0'] : List Char).length : Int) + (z + 1 : Nat) = e := by
        simp only [List.length_cons,List.length_nil]
        omega
      rw [hc,nearest_shift,he]
    · -- The point among the digits.
      simp only [hlen,if_false]
      have hw : ds.take (e + ds.length).toNat ≠ [] := by
        intro h
        have hl := congrArg List.length h
        rw [List.length_take,List.length_nil] at hl
        omega
      have h := FloatText.point _ _ (hdigits.take (e + ds.length).toNat)
        (hdigits.drop (e + ds.length).toNat) hw
      refine ⟨_,h,?_⟩
      have hl : -((ds.drop (e + ds.length).toNat).length : Int) = e := by
        rw [List.length_drop]
        omega
      rw [List.take_append_drop,hvalue,hl]

/-- The text of a finite magnitude is read as a decimal nearest to it. -/
theorem magnitudeChars_text (style : FloatStyle) {p : Nat} (hp : p ≤ Binary64.infinityBits) :
    ∃ d, FloatText (style.magnitudeChars p) d ∧ d.nearest = p := by
  unfold magnitudeChars
  by_cases hz : p = 0
  · rw [if_pos hz,hz]
    exact ⟨_,FloatText.point ['0'] _ (AllDigits.zeros 1) (AllDigits.zeros 1)
      (List.cons_ne_nil _ _),nearest_zero_coefficient rfl⟩
  · rw [if_neg hz]
    have hshort := nearest_shortest style.tie hp
    generalize shortest style.tie p = d at hshort
    by_cases hpos : style.low ≤ d.exponent + (digits d.coefficient).length ∧
        d.exponent + (digits d.coefficient).length ≤ style.high
    · simp only [hpos,and_self,if_true]
      obtain ⟨r,hr,hn⟩ := positional_text d.coefficient d.exponent
      exact ⟨r,hr,hn.trans hshort⟩
    · simp only [hpos,if_false]
      exact ⟨d,scientific_text style d.coefficient d.exponent,hshort⟩

end FloatStyle

namespace Binary64

theorem ofMagnitude_negative_magnitude (x : Binary64) :
    ofMagnitude x.negative x.magnitude = x := by
  have hx : x.bits.toNat < 2 ^ 64 := x.bits.toNat_lt
  have hcount : negativeCount = 2 ^ 63 := rfl
  have hbits : UInt64.ofNat (x.magnitude + if x.negative then negativeCount else 0) = x.bits := by
    have h : x.magnitude + (if x.negative then negativeCount else 0) = x.bits.toNat := by
      unfold magnitude negative
      rw [hcount]
      by_cases hn : 2 ^ 63 ≤ x.bits.toNat
      · rw [decide_eq_true hn,if_pos rfl]
        omega
      · rw [decide_eq_false hn,if_neg (by simp)]
        omega
    rw [h,UInt64.ofNat_toNat]
  unfold ofMagnitude ofBits
  rw [hbits]
  by_cases h : infinityBits < x.bits.toNat % negativeCount
  · rw [dif_pos h]
    exact Binary64.mk.injEq .. ▸ (x.oneNaN h).symm
  · rw [dif_neg h]

end Binary64
end Wiring
