import QueryDoc.Decimal.Shortest
import QueryDoc.Proofs.Decimal.Rounding

/-! The decimal that is chosen for a finite magnitude reads back to it: a hit on a grid was tried
before it was taken, and all digits of a magnitude stand for exactly its value. -/

namespace QueryDoc.Decimal

open Binary64

variable {tie : Tie} {m : Nat}

/-- All digits of a magnitude stand for its value. -/
theorem exactDigits_mul (m : Nat) :
    (exactDigits m).digits * 10 ^ (exactDigits m).exponent.toNat * 2 ^ 1074 =
      numerator m * 10 ^ (-(exactDigits m).exponent).toNat := by
  have hcast : (1074 : Int) = (1074 : Nat) := rfl
  rw [numerator_eq]
  unfold exactDigits
  rw [hcast]
  -- The power is not computed.
  generalize 1074 = places
  by_cases hshift : places ≤ shiftOf m
  · have hexp : shiftOf m - places + places = shiftOf m := by omega
    simp only [if_pos hshift, Nat.pow_eq]
    rw [Int.toNat_zero, Int.neg_zero, Int.toNat_zero, Nat.pow_zero, Nat.mul_one, Nat.mul_one,
      Nat.mul_assoc, ← Nat.pow_add, hexp]
  · have hpos : ((shiftOf m : Int) - places).toNat = 0 := by omega
    have hneg : (-((shiftOf m : Int) - places)).toNat = places - shiftOf m := by omega
    have hexp : shiftOf m + (places - shiftOf m) = places := by omega
    have hunit : 2 ^ places = 2 ^ shiftOf m * 2 ^ (places - shiftOf m) := by
      rw [← Nat.pow_add, hexp]
    have hsplit : 10 ^ (places - shiftOf m) = 5 ^ (places - shiftOf m) * 2 ^ (places - shiftOf m) :=
      Nat.mul_pow 5 2 _
    simp only [if_neg hshift, Nat.pow_eq]
    rw [hpos, hneg, Nat.pow_zero, Nat.mul_one, hsplit, hunit]
    ac_rfl

theorem exactDigits_readsBack (hm : m < infinite) :
    nearestDecimal (exactDigits m).digits (exactDigits m).exponent = m := by
  have hten : 0 < 10 ^ (-(exactDigits m).exponent).toNat := Nat.pow_pos (by decide)
  have hunit : 0 < 2 ^ 1074 := by
    generalize 1074 = places
    exact Nat.two_pow_pos places
  rw [nearestDecimal_eq_nearest, nearest_eq_of_mul_eq hten hunit (exactDigits_mul m),
    nearest_numerator hm]

theorem onGrid?_readsBack {exponent : Int} {found : Scaled}
    (h : onGrid? tie m exponent = some found) : nearestDecimal found.digits found.exponent = m := by
  simp only [onGrid?, readsBack, Bool.and_eq_true, beq_iff_eq] at h
  split at h
  · next hbelow =>
    split at h
    · next hupper =>
      cases h
      exact hupper.2
    · cases h
      exact hbelow
  · split at h
    · next habove =>
      cases h
      exact habove
    · cases h

theorem search_readsBack (hm : m < infinite) (leading : Int) (count tries : Nat) :
    nearestDecimal (search tie m leading count tries).digits
      (search tie m leading count tries).exponent = m := by
  induction tries generalizing count with
  | zero => exact exactDigits_readsBack hm
  | succ tries ih =>
    rw [search]
    cases hgrid : onGrid? tie m (leading - count + 1) with
    | some found => exact onGrid?_readsBack hgrid
    | none => exact ih (count + 1)

theorem shortest_readsBack (tie : Tie) (hm : m < infinite) :
    nearestDecimal (shortest tie m).digits (shortest tie m).exponent = m :=
  search_readsBack hm _ _ _

theorem shortest_digits_pos (tie : Tie) (hpos : 0 < m) (hm : m < infinite) :
    0 < (shortest tie m).digits := by
  have hh := shortest_readsBack tie hm
  refine Nat.pos_of_ne_zero fun hzero => ?_
  rw [hzero] at hh
  simp only [nearestDecimal, if_true] at hh
  omega

end QueryDoc.Decimal
