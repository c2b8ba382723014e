import Mathlib
import Wiring.Number.Decimal

/-!
# Rounding decimals

The pattern nearest to a ratio depends on the ratio alone, and the count of a finite
pattern rounds to the pattern itself. A decimal is rounded by its value: the bounds
beyond which `Decimal.nearest` works nothing out are those beyond which the answer is
infinity or zero anyway.
-/
namespace Wiring
namespace Binary64

theorem infinityBits_eq : infinityBits = 2047 * 2 ^ 52 := rfl

theorem divideEven_mul {k : Nat} (hk : 0 < k) (a d : Nat) :
    divideEven (k * a) (k * d) = divideEven a d := by
  have hq : k * a / (k * d) = a / d := Nat.mul_div_mul_left a d hk
  have hr : k * a % (k * d) = k * (a % d) := Nat.mul_mod_mul_left k a d
  have hlt : k * d < 2 * (k * (a % d)) ↔ d < 2 * (a % d) := by
    rw [show 2 * (k * (a % d)) = k * (2 * (a % d)) by ring]
    exact Nat.mul_lt_mul_left hk
  have heq : k * d = 2 * (k * (a % d)) ↔ d = 2 * (a % d) := by
    rw [show 2 * (k * (a % d)) = k * (2 * (a % d)) by ring]
    exact Nat.mul_right_inj (Nat.pos_iff_ne_zero.mp hk)
  simp only [divideEven,hq,hr,hlt,heq]

/-- Only the ratio counts. -/
theorem nearest_mul {k : Nat} (hk : 0 < k) (a d : Nat) :
    nearest (k * a) (k * d) = nearest a d := by
  have hq : k * a / (k * d) = a / d := Nat.mul_div_mul_left a d hk
  simp only [nearest,hq,Nat.mul_assoc,divideEven_mul hk]

theorem divideEven_of_dvd {a d q : Nat} (hd : 0 < d) (h : a = q * d) : divideEven a d = q := by
  subst h
  have hq : q * d / d = q := Nat.mul_div_cancel q hd
  have hr : q * d % d = 0 := Nat.mul_mod_left q d
  simp only [divideEven,hq,hr]
  rw [if_neg]
  omega

theorem nearest_zero (d : Nat) : nearest 0 d = 0 := by
  have hd : divideEven 0 (d * power 2 0) = 0 := by
    simp only [divideEven,Nat.zero_div,Nat.zero_mod]
    rw [if_neg]
    omega
  have hl : Nat.log2 (0 / d) - 52 = 0 := by rw [Nat.zero_div]; rfl
  simp only [nearest,hl,hd]
  omega

/-- Less than half of the smallest number rounds to zero. -/
theorem nearest_eq_zero {a d : Nat} (h : 2 * a < d) : nearest a d = 0 := by
  have hq : a / d = 0 := Nat.div_eq_of_lt (by omega)
  have hl : Nat.log2 (a / d) - 52 = 0 := by rw [hq]; rfl
  have he : divideEven a (d * power 2 0) = 0 := by
    have hm : d * power 2 0 = d := Nat.mul_one d
    have hr : a % d = a := Nat.mod_eq_of_lt (by omega)
    simp only [divideEven,hm,hq,hr]
    rw [if_neg]
    omega
  simp only [nearest,hl,he]
  omega

/-- A count of too many bits rounds to infinity. -/
theorem nearest_eq_infinity {a k : Nat} (hk : 2099 ≤ k) (h : 2 ^ k ≤ a) :
    nearest a 1 = infinityBits := by
  have hlog : k ≤ Nat.log2 a := (Nat.le_log2 (by have := Nat.two_pow_pos k; omega)).mpr h
  have hone : a / 1 = a := Nat.div_one a
  simp only [nearest,hone]
  apply Nat.min_eq_left
  have hs : 2047 ≤ Nat.log2 a - 52 := by omega
  calc
    infinityBits = 2047 * power 2 52 := rfl
    _ ≤ (Nat.log2 a - 52) * power 2 52 := Nat.mul_le_mul_right _ hs
    _ ≤ _ := Nat.le_add_right _ _

theorem log2_normal {f k : Nat} (hf : f < 2 ^ 52) :
    Nat.log2 ((2 ^ 52 + f) * 2 ^ k) = 52 + k := by
  have hk := Nat.two_pow_pos k
  have hne : (2 ^ 52 + f) * 2 ^ k ≠ 0 := by
    apply Nat.mul_ne_zero <;> omega
  rw [Nat.log2_eq_iff hne]
  constructor
  · rw [Nat.pow_add]
    exact Nat.mul_le_mul_right _ (Nat.le_add_right _ _)
  · rw [show 52 + k + 1 = 53 + k by omega,Nat.pow_add]
    exact Nat.mul_lt_mul_of_pos_right (by omega) hk

/-- The count of a finite pattern rounds to the pattern. -/
theorem nearest_scaledOf {p : Nat} (hp : p ≤ infinityBits) : nearest (scaledOf p) 1 = p := by
  have hsplit : 2 ^ 52 * (p / 2 ^ 52) + p % 2 ^ 52 = p := Nat.div_add_mod p (2 ^ 52)
  have hf : p % 2 ^ 52 < 2 ^ 52 := Nat.mod_lt p (Nat.two_pow_pos 52)
  have hone : ∀ a : Nat, a / 1 = a := Nat.div_one
  by_cases he : p / 2 ^ 52 = 0
  · have hs : scaledOf p = p % 2 ^ 52 := if_pos he
    have hl : Nat.log2 (p % 2 ^ 52) - 52 = 0 := by
      have : Nat.log2 (p % 2 ^ 52) < 52 ∨ p % 2 ^ 52 = 0 := by
        by_cases h0 : p % 2 ^ 52 = 0
        · exact .inr h0
        · exact .inl ((Nat.log2_lt h0).mpr hf)
      rcases this with h | h
      · omega
      · rw [h]; rfl
    have hd : divideEven (p % 2 ^ 52) (1 * power 2 0) = p % 2 ^ 52 :=
      divideEven_of_dvd Nat.one_pos (Nat.mul_one _).symm
    simp only [nearest,hs,hone,hl,hd]
    rw [he] at hsplit
    omega
  · obtain ⟨k,hk⟩ : ∃ k, p / 2 ^ 52 = k + 1 := ⟨p / 2 ^ 52 - 1,by omega⟩
    have hs : scaledOf p = (2 ^ 52 + p % 2 ^ 52) * 2 ^ k := by
      have : scaledOf p = (2 ^ 52 + p % 2 ^ 52) * 2 ^ (p / 2 ^ 52 - 1) := if_neg he
      rw [this,hk,Nat.add_sub_cancel]
    have hl : Nat.log2 ((2 ^ 52 + p % 2 ^ 52) * 2 ^ k) - 52 = k := by
      rw [log2_normal hf]
      omega
    have hd : divideEven ((2 ^ 52 + p % 2 ^ 52) * 2 ^ k) (1 * power 2 k) = 2 ^ 52 + p % 2 ^ 52 :=
      divideEven_of_dvd (Nat.mul_pos Nat.one_pos (Nat.two_pow_pos k)) (by rw [Nat.one_mul]; rfl)
    simp only [nearest,hs,hone,hl,hd]
    rw [hk] at hsplit
    have hpow : power 2 52 = 2 ^ 52 := rfl
    rw [hpow,infinityBits_eq] at *
    omega

end Binary64

namespace Decimal

open Binary64 (smallestCount)

theorem two_pow_le_ten_pow (n : Nat) : 2 ^ (93 * n) ≤ 10 ^ (28 * n) := by
  rw [Nat.pow_mul,Nat.pow_mul]
  exact Nat.pow_le_pow_left (by decide) n

/-- The exponent is kept apart from its value, which nobody should work out. -/
theorem exists_smallestCount : ∃ n, n = 1074 ∧ smallestCount = 2 ^ n := ⟨1074,rfl,rfl⟩

theorem infinite_count {c e : Nat} (hc : c ≠ 0) (he : 310 < e) :
    ∃ k, 2099 ≤ k ∧ 2 ^ k ≤ c * 10 ^ e * smallestCount := by
  obtain ⟨n,hn,hs⟩ := exists_smallestCount
  have h₁ : 2 ^ (93 * 11 + 9) ≤ 10 ^ e := by
    calc
      2 ^ (93 * 11 + 9) = 2 ^ (93 * 11) * 2 ^ 9 := Nat.pow_add ..
      _ ≤ 10 ^ (28 * 11) * 10 ^ 3 := Nat.mul_le_mul (two_pow_le_ten_pow 11) (by decide)
      _ = 10 ^ (28 * 11 + 3) := (Nat.pow_add ..).symm
      _ ≤ 10 ^ e := Nat.pow_le_pow_right (by decide) (by omega)
  refine ⟨93 * 11 + 9 + n,by omega,?_⟩
  rw [Nat.pow_add,hs]
  exact Nat.mul_le_mul_right _ (Nat.le_trans h₁ (Nat.le_mul_of_pos_left _ (by omega)))

theorem zero_count {c k : Nat} (hc : c ≠ 0) (hk : Nat.log2 c + 400 < k) :
    2 * (c * smallestCount) < 10 ^ k := by
  obtain ⟨n,hn,hs⟩ := exists_smallestCount
  have hlt : c < 2 ^ (Nat.log2 c + 1) := (Nat.log2_lt hc).mp (Nat.lt_succ_self _)
  have hten : 2 ^ (2 + n) ≤ 10 ^ (28 * 14) := by
    calc
      2 ^ (2 + n) ≤ 2 ^ (93 * 14) := Nat.pow_le_pow_right (by decide) (by omega)
      _ ≤ 10 ^ (28 * 14) := two_pow_le_ten_pow 14
  calc
    2 * (c * smallestCount) < 2 * (2 ^ (Nat.log2 c + 1) * 2 ^ n) := by
      rw [hs]
      exact Nat.mul_lt_mul_of_pos_left (Nat.mul_lt_mul_of_pos_right hlt (Nat.two_pow_pos n))
        (by decide)
    _ = 2 ^ Nat.log2 c * 2 ^ (2 + n) := by ring
    _ ≤ 10 ^ Nat.log2 c * 10 ^ (28 * 14) := Nat.mul_le_mul (Nat.pow_le_pow_left (by decide) _) hten
    _ = 10 ^ (Nat.log2 c + 28 * 14) := (Nat.pow_add ..).symm
    _ ≤ 10 ^ k := Nat.pow_le_pow_right (by decide) (by omega)

/-- A decimal is rounded by its value, written here as a ratio over any power of ten
that makes it one of integers. -/
theorem nearest_eq (c n : Nat) (e : Int) (h : 0 ≤ e + n) :
    nearest ⟨c,e⟩ = Binary64.nearest (c * 10 ^ (e + n).toNat * smallestCount) (10 ^ n) := by
  have hten : ∀ k, 0 < 10 ^ k := fun k => Nat.pow_pos (by decide)
  unfold nearest
  dsimp only
  by_cases hc : c = 0
  · rw [if_pos hc,hc,Nat.zero_mul,Nat.zero_mul,Binary64.nearest_zero]
  rw [if_neg hc]
  by_cases hneg : e < 0
  · obtain ⟨k,rfl⟩ : ∃ k : Nat, e = -k := ⟨e.natAbs,by omega⟩
    obtain ⟨m,rfl⟩ : ∃ m, n = k + m := ⟨n - k,by omega⟩
    have hm : (-(k : Int) + (k + m : Nat)).toNat = m := by omega
    have hk : (-(-(k : Int))).toNat = k := by omega
    have hnum : c * 10 ^ m * smallestCount = 10 ^ m * (c * smallestCount) := by ring
    have hden : 10 ^ (k + m) = 10 ^ m * 10 ^ k := by ring
    rw [hm,hk,hnum,hden,Binary64.nearest_mul (hten m),if_neg (by omega)]
    by_cases hlow : -(k : Int) < -(Nat.log2 c + 400 : Int)
    · rw [if_pos hlow,Binary64.nearest_eq_zero (zero_count hc (by omega))]
    · rw [if_neg hlow,if_neg (by omega)]
      rfl
  · obtain ⟨k,rfl⟩ : ∃ k : Nat, e = k := ⟨e.natAbs,by omega⟩
    have hm : ((k : Int) + n).toNat = k + n := by omega
    have hk : (k : Int).toNat = k := by omega
    have hnum : c * 10 ^ (k + n) * smallestCount = 10 ^ n * (c * 10 ^ k * smallestCount) := by ring
    have hscale := Binary64.nearest_mul (hten n) (c * 10 ^ k * smallestCount) 1
    rw [Nat.mul_one] at hscale
    rw [hm,hk,hnum,hscale]
    by_cases hhigh : (310 : Int) < k
    · obtain ⟨b,hb,hle⟩ := infinite_count hc (show 310 < k by omega)
      rw [if_pos hhigh,Binary64.nearest_eq_infinity hb hle]
    · rw [if_neg hhigh,if_neg (by omega),if_pos (by omega)]
      rfl

theorem nearest_shift (c k : Nat) (e : Int) : nearest ⟨c * 10 ^ k,e⟩ = nearest ⟨c,e + k⟩ := by
  have hn : 0 ≤ e + (e.natAbs : Nat) := by omega
  rw [nearest_eq _ e.natAbs e hn,nearest_eq _ e.natAbs (e + k) (by omega)]
  have : (e + k + e.natAbs).toNat = k + (e + e.natAbs).toNat := by omega
  rw [this,Nat.pow_add,Nat.mul_assoc c]

theorem nearest_stripped (fuel : Nat) (d : Decimal) : (stripped fuel d).nearest = d.nearest := by
  induction fuel generalizing d with
  | zero => rfl
  | succ fuel ih =>
      rw [stripped]
      split
      next h =>
        rw [ih]
        obtain ⟨c,e⟩ := d
        have hc : c / 10 * 10 ^ 1 = c := Nat.div_mul_cancel (Nat.dvd_of_mod_eq_zero h.2)
        have hs := nearest_shift (c / 10) 1 e
        rw [hc] at hs
        exact hs.symm
      next => rfl

theorem nearest_exact {p : Nat} (hp : p ≤ Binary64.infinityBits) :
    (exact (Binary64.scaledOf p)).nearest = p := by
  obtain ⟨n,hn,hs⟩ := exists_smallestCount
  have hexact : exact (Binary64.scaledOf p) = ⟨Binary64.scaledOf p * 5 ^ n,-(n : Int)⟩ := by
    rw [hn]
    rfl
  have hexponent : (-(n : Int) + n).toNat = 0 := by omega
  have hscale := Binary64.nearest_mul (Nat.pow_pos (by decide) : 0 < 10 ^ n) (Binary64.scaledOf p) 1
  have hnum : Binary64.scaledOf p * 5 ^ n * 10 ^ 0 * smallestCount = 10 ^ n * Binary64.scaledOf p := by
    have hten : 10 ^ n = 5 ^ n * 2 ^ n := by rw [← Nat.mul_pow]
    rw [hs,hten]
    ring
  rw [Nat.mul_one] at hscale
  rw [hexact,nearest_eq _ n _ (by omega),hexponent,hnum,hscale,Binary64.nearest_scaledOf hp]

/-- What is found on a grid was read again. -/
theorem nearest_onGrid {tie : Tie} {p a : Nat} {grid : Int} {d : Decimal}
    (h : onGrid tie p a grid = some d) : d.nearest = p := by
  unfold onGrid at h
  extract_lets num den lower upper at h
  clear_value num den lower upper
  have hcases : (d = lower ∧ lower.nearest = p) ∨ (d = upper ∧ upper.nearest = p) := by
    by_cases hl : lower.nearest = p <;> by_cases hu : upper.nearest = p
    · simp only [hl,hu,decide_true] at h
      split at h
      · exact .inl ⟨(Option.some.inj h).symm,hl⟩
      split at h
      · exact .inr ⟨(Option.some.inj h).symm,hu⟩
      cases tie with
      | up => exact .inr ⟨(Option.some.inj h).symm,hu⟩
      | even =>
          have h := Option.some.inj h
          split at h
          · exact .inl ⟨h.symm,hl⟩
          · exact .inr ⟨h.symm,hu⟩
    · simp only [hl,hu,decide_true,decide_false] at h
      exact .inl ⟨(Option.some.inj h).symm,hl⟩
    · simp only [hl,hu,decide_true,decide_false] at h
      exact .inr ⟨(Option.some.inj h).symm,hu⟩
    · simp only [hl,hu,decide_false] at h
      cases h
  rcases hcases with ⟨rfl,h⟩ | ⟨rfl,h⟩ <;> exact h

/-- The digits chosen for a finite pattern read back. -/
theorem nearest_shortest (tie : Tie) {p : Nat} (hp : p ≤ Binary64.infinityBits) :
    (shortest tie p).nearest = p := by
  rw [shortest,nearest_stripped]
  cases hf : (List.range 17).findSome? fun n =>
      onGrid tie p (Binary64.scaledOf p) (position (Binary64.scaledOf p) - (n + 1 : Nat)) with
  | none => exact nearest_exact hp
  | some d =>
      obtain ⟨n,_,hn⟩ := List.exists_of_findSome?_eq_some hf
      exact nearest_onGrid hn

theorem nearest_zero_coefficient {d : Decimal} (h : d.coefficient = 0) : d.nearest = 0 := if_pos h

end Decimal
end Wiring
