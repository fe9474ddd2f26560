import Mathlib.Algebra.Group.Nat.Defs
import QueryDoc.Atom
import QueryDoc.Decimal.Literal
import QueryDoc.Proofs.Source.Ignored

/-! Decimal digits and integers: what is written is read back, and zeros at either end of a list of
digits only shift it. -/

namespace QueryDoc.Decimal

theorem natOfDigits_eq_ofDigitChars (cs : List Char) : natOfDigits cs = Nat.ofDigitChars 10 cs 0 := rfl

theorem natOfDigits_toDigits (n : Nat) : natOfDigits (Nat.toDigits 10 n) = n :=
  Nat.ofDigitChars_ten_toDigits

theorem isDigit_of_mem_toDigits {n : Nat} : ∀ c ∈ Nat.toDigits 10 n, c.isDigit = true :=
  fun _ hc => Nat.isDigit_of_mem_toDigits (by decide) (by decide) hc

theorem natOfDigits_append_zeros (cs : List Char) (k : Nat) :
    natOfDigits (cs ++ List.replicate k '0') = natOfDigits cs * 10 ^ k := by
  rw [natOfDigits_eq_ofDigitChars, Nat.ofDigitChars_append, Nat.ofDigitChars_replicate_zero,
    Nat.mul_comm]
  rfl

theorem natOfDigits_zeros_append (k : Nat) (cs : List Char) :
    natOfDigits (List.replicate k '0' ++ cs) = natOfDigits cs := by
  rw [natOfDigits_eq_ofDigitChars, Nat.ofDigitChars_append, Nat.ofDigitChars_replicate_zero,
    Nat.mul_zero]
  rfl

theorem stripZeros_append (digits : List Char) :
    (stripZeros digits).1 ++ List.replicate (stripZeros digits).2 '0' = digits := by
  have hzeros : ∀ c ∈ digits.reverse.takeWhile (· == '0'), c = '0' := by
    intro c hc
    simpa using List.mem_takeWhile_imp hc
  have hsplit : (stripZeros digits).1 ++ (digits.reverse.takeWhile (· == '0')).reverse = digits := by
    rw [stripZeros, ← List.reverse_append, List.takeWhile_append_dropWhile, List.reverse_reverse]
  have hlength := congrArg List.length hsplit
  rw [List.length_append, List.length_reverse] at hlength
  have hcount : (digits.reverse.takeWhile (· == '0')).length = (stripZeros digits).2 := by
    change _ = digits.length - (stripZeros digits).1.length
    omega
  have hreplicate : (digits.reverse.takeWhile (· == '0')).reverse =
      List.replicate (stripZeros digits).2 '0' :=
    List.eq_replicate_iff.mpr ⟨by rw [List.length_reverse, hcount], by simpa using hzeros⟩
  rw [← hreplicate, hsplit]

theorem natOfDigits_stripZeros (digits : List Char) :
    natOfDigits (stripZeros digits).1 * 10 ^ (stripZeros digits).2 = natOfDigits digits := by
  rw [← natOfDigits_append_zeros, stripZeros_append]

theorem stripZeros_toDigits {n : Nat} (hn : 0 < n) :
    (stripZeros (Nat.toDigits 10 n)).1 ≠ [] ∧
    (∀ c ∈ (stripZeros (Nat.toDigits 10 n)).1, c.isDigit = true) ∧
    natOfDigits (stripZeros (Nat.toDigits 10 n)).1 * 10 ^ (stripZeros (Nat.toDigits 10 n)).2 = n := by
  have hsplit := stripZeros_append (Nat.toDigits 10 n)
  have hvalue := natOfDigits_stripZeros (Nat.toDigits 10 n)
  rw [natOfDigits_toDigits] at hvalue
  refine ⟨fun hnil => ?_, fun c hc => ?_, hvalue⟩
  · rw [hnil] at hvalue
    simp [natOfDigits] at hvalue
    omega
  · exact isDigit_of_mem_toDigits c (hsplit ▸ List.mem_append_left _ hc)

theorem splitSign_of_isDigit {c : Char} (hc : c.isDigit = true) (cs : List Char) :
    splitSign (c :: cs) = (false, c :: cs) := by
  unfold splitSign
  split
  · next heq =>
    obtain ⟨rfl, -⟩ := List.cons.inj heq
    cases hc
  · next heq =>
    obtain ⟨rfl, -⟩ := List.cons.inj heq
    cases hc
  · rfl

theorem splitSign_of_isDigits {cs : List Char} (hcs : ∀ c ∈ cs, c.isDigit = true) :
    splitSign cs = (false, cs) := by
  cases cs with
  | nil => rfl
  | cons c cs => exact splitSign_of_isDigit (hcs c List.mem_cons_self) cs

theorem isDigits_toDigits (n : Nat) : isDigits (Nat.toDigits 10 n) = true := by
  simp only [isDigits, Bool.and_eq_true, Bool.not_eq_true', List.isEmpty_eq_false_iff,
    List.all_eq_true]
  exact ⟨Nat.toDigits_ne_nil, isDigit_of_mem_toDigits⟩

theorem int?_toDigits (n : Nat) : int? (Nat.toDigits 10 n) = some (n : Int) := by
  simp only [int?, splitSign_of_isDigits isDigit_of_mem_toDigits, isDigits_toDigits, if_true,
    natOfDigits_toDigits, signed, Bool.false_eq_true, if_false]

theorem int?_minus (n : Nat) : int? ('-' :: Nat.toDigits 10 n) = some (-(n : Int)) := by
  simp only [int?, splitSign, isDigits_toDigits, if_true, natOfDigits_toDigits, signed]

theorem int?_plus (n : Nat) : int? ('+' :: Nat.toDigits 10 n) = some (n : Int) := by
  simp only [int?, splitSign, isDigits_toDigits, if_true, natOfDigits_toDigits, signed,
    Bool.false_eq_true, if_false]

theorem int?_exponentText (plusSign : Bool) (e : Int) : int? (exponentText plusSign e) = some e := by
  by_cases he : e < 0
  · have hh : -(e.natAbs : Int) = e := by omega
    rw [exponentText, if_pos he, List.singleton_append, int?_minus, hh]
  · have hh : (e.natAbs : Int) = e := by omega
    cases plusSign with
    | true => simp only [exponentText, if_neg he, if_true, List.singleton_append, int?_plus, hh]
    | false =>
      simp only [exponentText, if_neg he, Bool.false_eq_true, if_false, List.nil_append,
        int?_toDigits, hh]

theorem int64?_intText (n : Int64) : int64? (Atom.intText n) = some n := by
  have hint : int? (Atom.intText n) = some n.toInt := int?_exponentText false n.toInt
  rw [int64?, hint, Option.bind_some, if_pos ⟨n.minValue_le_toInt, n.toInt_le⟩, Int64.ofInt_toInt]

theorem isDigits_iff {cs : List Char} :
    isDigits cs = true ↔ cs ≠ [] ∧ ∀ c ∈ cs, c.isDigit = true := by
  simp [isDigits]

/-- An integer is written as digits, possibly after a sign. -/
theorem int?_eq_some_iff {cs : List Char} {n : Int} :
    int? cs = some n ↔ ∃ sign digits, cs = sign ++ digits ∧ sign ∈ [[], ['+'], ['-']] ∧
      isDigits digits = true ∧ n = signed (sign == ['-']) (natOfDigits digits) := by
  constructor
  · intro h
    simp only [int?, Option.ite_none_right_eq_some, Option.some.injEq] at h
    obtain ⟨hdigits, rfl⟩ := h
    unfold splitSign at hdigits ⊢
    split at hdigits
    · next ds => exact ⟨['-'], ds, rfl, by decide, hdigits, rfl⟩
    · next ds => exact ⟨['+'], ds, rfl, by decide, hdigits, rfl⟩
    · exact ⟨[], cs, rfl, by decide, hdigits, rfl⟩
  · rintro ⟨sign, digits, rfl, hsign, hdigits, rfl⟩
    simp only [List.mem_cons, List.not_mem_nil, or_false] at hsign
    rcases hsign with rfl | rfl | rfl
    · rw [List.nil_append, int?, splitSign_of_isDigits (isDigits_iff.mp hdigits).2]
      exact if_pos hdigits
    · exact if_pos hdigits
    · exact if_pos hdigits

theorem int64?_eq_some_iff {cs : List Char} {n : Int64} : int64? cs = some n ↔ int? cs = some n.toInt := by
  unfold int64?
  constructor
  · intro h
    obtain ⟨k, hk, h⟩ := Option.bind_eq_some_iff.mp h
    rw [Option.ite_none_right_eq_some, Option.some.injEq] at h
    obtain ⟨⟨hmin, hmax⟩, rfl⟩ := h
    rw [hk, Int64.toInt_ofInt_of_le hmin (Int.lt_add_one_of_le hmax)]
  · intro h
    rw [h, Option.bind_some, if_pos ⟨n.minValue_le_toInt, n.toInt_le⟩, Int64.ofInt_toInt]

end QueryDoc.Decimal
