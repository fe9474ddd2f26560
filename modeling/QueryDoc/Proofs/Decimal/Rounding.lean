import Mathlib.Algebra.Group.Nat.Defs
import QueryDoc.Decimal.Binary64

/-! Rounding depends on the value of a ratio alone, so a decimal may be written with more or fewer
zeros at its end, and the ratio that a finite magnitude stands for is rounded to that magnitude. -/

namespace QueryDoc

theorem roundHalfEven_mul_right {k : Nat} (hk : 0 < k) (num den : Nat) :
    roundHalfEven (num * k) (den * k) = roundHalfEven num den := by
  have hq : num * k / (den * k) = num / den := Nat.mul_div_mul_right _ _ hk
  have hr : num * k % (den * k) = num % den * k := Nat.mul_mod_mul_right ..
  have hlt : 2 * (num % den * k) < den * k ↔ 2 * (num % den) < den := by
    rw [← Nat.mul_assoc]
    exact Nat.mul_lt_mul_right hk
  have hgt : den * k < 2 * (num % den * k) ↔ den < 2 * (num % den) := by
    rw [← Nat.mul_assoc]
    exact Nat.mul_lt_mul_right hk
  simp only [roundHalfEven, hq, hr, hlt, hgt]

theorem roundHalfEven_mul_self {den : Nat} (hden : 0 < den) (n : Nat) :
    roundHalfEven (n * den) den = n := by
  simp [roundHalfEven, Nat.mul_div_cancel _ hden, hden]

theorem roundHalfEven_of_lt {num den : Nat} (h : 2 * num < den) : roundHalfEven num den = 0 := by
  have hlt : num < den := by omega
  simp [roundHalfEven, Nat.div_eq_of_lt hlt, Nat.mod_eq_of_lt hlt, h]

namespace Binary64

theorem nearest_eq (num den : Nat) :
    nearest num den =
      min (((num * 2 ^ 1074 / den).log2 - 52) * binade +
        roundHalfEven (num * 2 ^ 1074) (den * 2 ^ ((num * 2 ^ 1074 / den).log2 - 52))) infinite := by
  unfold nearest
  -- The power is not computed.
  generalize 1074 = places
  rfl

theorem nearest_mul_right {k : Nat} (hk : 0 < k) (num den : Nat) :
    nearest (num * k) (den * k) = nearest num den := by
  rw [nearest_eq, nearest_eq, Nat.mul_right_comm num k, Nat.mul_div_mul_right _ _ hk,
    Nat.mul_right_comm den k, roundHalfEven_mul_right hk]

theorem nearest_eq_of_mul_eq {a b c d : Nat} (hb : 0 < b) (hd : 0 < d) (h : a * d = c * b) :
    nearest a b = nearest c d := by
  rw [← nearest_mul_right hd a b, h, Nat.mul_comm b d, nearest_mul_right hb]

theorem le_log2_scaled {num den places : Nat} (hden : 0 < den) (h : den * 2 ^ places ≤ num)
    (more : Nat) : places + more ≤ (num * 2 ^ more / den).log2 := by
  have hscaled : 2 ^ (places + more) ≤ num * 2 ^ more / den := by
    rw [Nat.le_div_iff_mul_le hden, Nat.pow_add, Nat.mul_right_comm, Nat.mul_comm _ den]
    exact Nat.mul_le_mul_right _ h
  have hne : num * 2 ^ more / den ≠ 0 :=
    Nat.ne_of_gt (Nat.lt_of_lt_of_le (Nat.two_pow_pos (places + more)) hscaled)
  exact (Nat.le_log2 hne).mpr hscaled

theorem nearest_of_le {num den places : Nat} (hden : 0 < den) (hplaces : 1200 ≤ places)
    (h : den * 2 ^ places ≤ num) : nearest num den = infinite := by
  have hlog := le_log2_scaled hden h 1074
  rw [nearest_eq, Nat.min_eq_right]
  refine Nat.le_trans ?_ (Nat.le_add_right _ _)
  have hshift : 2222 ≤ (num * 2 ^ 1074 / den).log2 - 52 := by omega
  have hinfinite : infinite ≤ 2222 * binade := by decide
  exact Nat.le_trans hinfinite (Nat.mul_le_mul_right _ hshift)

theorem nearest_of_lt {num den : Nat} (h : 2 * (num * 2 ^ 1074) < den) : nearest num den = 0 := by
  rw [nearest_eq]
  generalize num * 2 ^ 1074 = scaled at h ⊢
  have hzero : scaled / den = 0 := Nat.div_eq_of_lt (by omega)
  simp [hzero, roundHalfEven_of_lt h]

theorem two_pow_le_ten_pow (k : Nat) : 2 ^ (3 * k) ≤ 10 ^ k := by
  rw [Nat.pow_mul]
  exact Nat.pow_le_pow_left (by decide) k

theorem twice_scaled_lt_ten_pow {digits places k : Nat} (h : digits.log2 + places + 2 ≤ 3 * k) :
    2 * (digits * 2 ^ places) < 10 ^ k := by
  calc 2 * (digits * 2 ^ places) = digits * 2 ^ (places + 1) := by
        rw [Nat.mul_left_comm, ← Nat.pow_add_one']
    _ < 2 ^ (digits.log2 + 1) * 2 ^ (places + 1) :=
        Nat.mul_lt_mul_of_pos_right Nat.lt_log2_self (Nat.two_pow_pos _)
    _ = 2 ^ (digits.log2 + 1 + (places + 1)) := (Nat.pow_add ..).symm
    _ ≤ 2 ^ (3 * k) := Nat.pow_le_pow_right (by decide) (by omega)
    _ ≤ 10 ^ k := two_pow_le_ten_pow k

/-- The guards of `nearestDecimal` do not matter. -/
theorem nearestDecimal_eq_nearest (digits : Nat) (exponent : Int) :
    nearestDecimal digits exponent =
      nearest (digits * 10 ^ exponent.toNat) (10 ^ (-exponent).toNat) := by
  unfold nearestDecimal
  split
  · next hzero =>
    rw [hzero, Nat.zero_mul, nearest_of_lt]
    rw [Nat.zero_mul, Nat.mul_zero]
    exact Nat.pow_pos (by decide)
  · next hpos =>
    split
    · next hlarge =>
      have hexp : (-exponent).toNat = 0 := by omega
      have hplaces : 1200 ≤ 3 * exponent.toNat := by omega
      refine (nearest_of_le (Nat.pow_pos (by decide)) hplaces ?_).symm
      calc 10 ^ (-exponent).toNat * 2 ^ (3 * exponent.toNat) = 2 ^ (3 * exponent.toNat) := by
            rw [hexp, Nat.pow_zero, Nat.one_mul]
        _ ≤ 10 ^ exponent.toNat := two_pow_le_ten_pow _
        _ ≤ digits * 10 ^ exponent.toNat := Nat.le_mul_of_pos_left _ (Nat.pos_of_ne_zero hpos)
    · split
      · next hsmall =>
        have hexp : exponent.toNat = 0 := by omega
        rw [hexp, Nat.pow_zero, Nat.mul_one, nearest_of_lt (twice_scaled_lt_ten_pow (by omega))]
      · rfl

theorem nearestDecimal_mul_pow (digits k : Nat) (exponent : Int) :
    nearestDecimal (digits * 10 ^ k) exponent = nearestDecimal digits (exponent + k) := by
  rw [nearestDecimal_eq_nearest, nearestDecimal_eq_nearest]
  refine nearest_eq_of_mul_eq (Nat.pow_pos (by decide)) (Nat.pow_pos (by decide)) ?_
  have hexp : k + exponent.toNat + (-(exponent + k)).toNat =
      (exponent + k).toNat + (-exponent).toNat := by omega
  simp only [Nat.mul_assoc, ← Nat.pow_add, hexp]

theorem significandOf_lt (m : Nat) : significandOf m < 2 * binade := by
  simp only [significandOf, shiftOf, binade]
  omega

theorem binade_le_significandOf {m : Nat} (h : binade ≤ m) : binade ≤ significandOf m := by
  simp only [significandOf, shiftOf, binade] at h ⊢
  omega

theorem shiftOf_mul_add_significandOf (m : Nat) : shiftOf m * binade + significandOf m = m := by
  simp only [significandOf, shiftOf, binade]
  omega

theorem numerator_eq (m : Nat) : numerator m = significandOf m * 2 ^ shiftOf m := rfl

theorem log2_numerator (m : Nat) : (numerator m).log2 - 52 = shiftOf m := by
  rw [numerator_eq]
  by_cases hm : binade ≤ m
  · have hle := binade_le_significandOf hm
    have hlt := significandOf_lt m
    have hpow : 0 < 2 ^ shiftOf m := Nat.two_pow_pos _
    have hlow : 2 ^ (52 + shiftOf m) ≤ significandOf m * 2 ^ shiftOf m := by
      rw [Nat.pow_add]
      exact Nat.mul_le_mul_right _ hle
    have hhigh : significandOf m * 2 ^ shiftOf m < 2 ^ (53 + shiftOf m) := by
      rw [Nat.pow_add]
      exact Nat.mul_lt_mul_of_pos_right hlt hpow
    have hne : significandOf m * 2 ^ shiftOf m ≠ 0 :=
      Nat.ne_of_gt (Nat.lt_of_lt_of_le (Nat.two_pow_pos _) hlow)
    have hge := (Nat.le_log2 hne).mpr hlow
    have hlog := (Nat.log2_lt hne).mpr hhigh
    omega
  · have hshift : shiftOf m = 0 := by
      simp only [shiftOf, binade] at hm ⊢
      omega
    have hsig : significandOf m = m := by
      simpa [hshift] using shiftOf_mul_add_significandOf m
    rw [hshift, hsig, Nat.pow_zero, Nat.mul_one]
    by_cases hzero : m = 0
    · rw [hzero]
      rfl
    · have hlog : m.log2 < 52 := (Nat.log2_lt hzero).mpr (Nat.lt_of_not_le hm)
      omega

/-- Every finite magnitude is the one nearest to what it stands for. -/
theorem nearest_numerator {m : Nat} (hm : m < infinite) : nearest (numerator m) (2 ^ 1074) = m := by
  rw [nearest_eq]
  generalize 1074 = places
  have hpow : 0 < 2 ^ places := Nat.two_pow_pos _
  rw [Nat.mul_div_cancel _ hpow, log2_numerator, numerator_eq, Nat.mul_assoc,
    Nat.mul_comm _ (2 ^ places), roundHalfEven_mul_self (Nat.mul_pos hpow (Nat.two_pow_pos _)),
    shiftOf_mul_add_significandOf]
  exact Nat.min_eq_left (Nat.le_of_lt hm)

end Binary64

end QueryDoc
