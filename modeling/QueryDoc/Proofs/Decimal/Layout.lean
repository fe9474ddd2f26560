import QueryDoc.Decimal.Layout
import QueryDoc.Proofs.Decimal.Digits
import QueryDoc.Proofs.Decimal.Shortest
import QueryDoc.Source.Alphabet

/-! The text of a finite floating point number is a decimal that reads back to it, whatever the
format, and it cannot be taken for an integer. -/

namespace QueryDoc.Decimal

open Binary64

/-- A text without a sign that writes a decimal of which a magnitude is the nearest. A point or an
exponent keeps it apart from the integers. -/
structure WritesMagnitude (text : List Char) (m : Nat) : Prop where
  parses : ∃ x, Literal.parse? text = some x ∧ x.negative = false ∧
    nearestDecimal (natOfDigits (x.whole ++ x.fraction)) (x.exponent - x.fraction.length) = m
  begins : ∃ c cs, text = c :: cs ∧ c.isDigit = true
  continues : ∀ c ∈ text, isNumberContinue c = true
  marked : '.' ∈ text ∨ 'e' ∈ text

theorem isNumberContinue_of_isDigit {c : Char} (hc : c.isDigit = true) :
    isNumberContinue c = true := by
  simp [isNumberContinue, hc]

theorem parse?_point {whole fraction tail : List Char} {e : Int} (hwhole : ∀ c ∈ whole, c.isDigit = true)
    (hne : whole ≠ []) (hfraction : ∀ c ∈ fraction, c.isDigit = true)
    (htail : EndsRun Char.isDigit tail) (he : exponent? tail = some e) :
    Literal.parse? (whole ++ '.' :: (fraction ++ tail)) = some ⟨false, whole, fraction, e⟩ := by
  obtain ⟨c, cs, rfl⟩ := List.exists_cons_of_ne_nil hne
  have hsign := splitSign_of_isDigit (hwhole c List.mem_cons_self) (cs ++ '.' :: (fraction ++ tail))
  have hpoint : EndsRun Char.isDigit ('.' :: (fraction ++ tail)) := endsRun_cons.mpr (by decide)
  rw [← List.cons_append] at hsign
  simp only [Literal.parse?, hsign, takeWhile_append_of_endsRun hwhole hpoint,
    dropWhile_append_of_endsRun hwhole hpoint, splitFraction,
    takeWhile_append_of_endsRun hfraction htail, dropWhile_append_of_endsRun hfraction htail, he]
  simp

theorem parse?_whole {whole tail : List Char} {e : Int} (hwhole : ∀ c ∈ whole, c.isDigit = true)
    (hne : whole ≠ []) (he : exponent? ('e' :: tail) = some e) :
    Literal.parse? (whole ++ 'e' :: tail) = some ⟨false, whole, [], e⟩ := by
  obtain ⟨c, cs, rfl⟩ := List.exists_cons_of_ne_nil hne
  have hsign := splitSign_of_isDigit (hwhole c List.mem_cons_self) (cs ++ 'e' :: tail)
  have hmark : EndsRun Char.isDigit ('e' :: tail) := endsRun_cons.mpr (by decide)
  rw [← List.cons_append] at hsign
  simp only [Literal.parse?, hsign, takeWhile_append_of_endsRun hwhole hmark,
    dropWhile_append_of_endsRun hwhole hmark, splitFraction]
  simp [he]

theorem isNumberContinue_of_mem_exponentText {plusSign : Bool} {e : Int} :
    ∀ c ∈ exponentText plusSign e, isNumberContinue c = true := by
  intro c hc
  rcases List.mem_append.mp hc with hsign | hdigit
  · by_cases he : e < 0
    · simp only [if_pos he, List.mem_singleton] at hsign
      rw [hsign]
      decide
    · cases plusSign with
      | true =>
        simp only [if_neg he, if_true, List.mem_singleton] at hsign
        rw [hsign]
        decide
      | false => simp [he] at hsign
  · exact isNumberContinue_of_isDigit (isDigit_of_mem_toDigits c hdigit)

theorem writes_point {whole fraction tail : List Char} {e : Int} {m : Nat}
    (hwhole : ∀ c ∈ whole, c.isDigit = true) (hne : whole ≠ [])
    (hfraction : ∀ c ∈ fraction, c.isDigit = true) (htail : EndsRun Char.isDigit tail)
    (he : exponent? tail = some e) (hchars : ∀ c ∈ tail, isNumberContinue c = true)
    (h : nearestDecimal (natOfDigits (whole ++ fraction)) (e - fraction.length) = m) :
    WritesMagnitude (whole ++ '.' :: (fraction ++ tail)) m where
  parses := ⟨_, parse?_point hwhole hne hfraction htail he, rfl, h⟩
  begins := by
    obtain ⟨c, cs, rfl⟩ := List.exists_cons_of_ne_nil hne
    exact ⟨c, _, rfl, hwhole c List.mem_cons_self⟩
  continues := by
    simp only [List.mem_append, List.mem_cons]
    rintro c (hc | rfl | hc | hc)
    · exact isNumberContinue_of_isDigit (hwhole c hc)
    · decide
    · exact isNumberContinue_of_isDigit (hfraction c hc)
    · exact hchars c hc
  marked := .inl (by simp)

theorem writes_whole {whole tail : List Char} {e : Int} {m : Nat}
    (hwhole : ∀ c ∈ whole, c.isDigit = true) (hne : whole ≠ [])
    (he : exponent? ('e' :: tail) = some e) (hchars : ∀ c ∈ tail, isNumberContinue c = true)
    (h : nearestDecimal (natOfDigits whole) e = m) : WritesMagnitude (whole ++ 'e' :: tail) m where
  parses := ⟨_, parse?_whole hwhole hne he, rfl, by simpa using h⟩
  begins := by
    obtain ⟨c, cs, rfl⟩ := List.exists_cons_of_ne_nil hne
    exact ⟨c, _, rfl, hwhole c List.mem_cons_self⟩
  continues := by
    simp only [List.mem_append, List.mem_cons]
    rintro c (hc | rfl | hc)
    · exact isNumberContinue_of_isDigit (hwhole c hc)
    · decide
    · exact hchars c hc
  marked := .inr (by simp)

theorem isDigit_of_mem_zeros {k : Nat} : ∀ c ∈ List.replicate k '0', c.isDigit = true := by
  intro c hc
  rw [List.eq_of_mem_replicate hc]
  decide

theorem isDigit_of_mem_zero : ∀ c ∈ ['0'], c.isDigit = true :=
  isDigit_of_mem_zeros (k := 1)

section Notations

variable {digits : List Char} {m : Nat} {leading : Int}

theorem positional_small (h : leading < 0) :
    positional digits leading =
      ['0'] ++ '.' :: ((List.replicate (-leading - 1).toNat '0' ++ digits) ++ []) := by
  simp [positional, h]

theorem positional_padded (h : ¬leading < 0) (hlength : digits.length ≤ leading.toNat + 1) :
    positional digits leading =
      digits ++ List.replicate (leading.toNat + 1 - digits.length) '0' ++ '.' :: (['0'] ++ []) := by
  simp [positional, h, hlength, List.take_of_length_le hlength]

theorem positional_split (h : ¬leading < 0) (hlength : leading.toNat + 1 < digits.length) :
    positional digits leading =
      digits.take (leading.toNat + 1) ++ '.' :: (digits.drop (leading.toNat + 1) ++ []) := by
  have hpad : leading.toNat + 1 - digits.length = 0 := by omega
  have hne : digits.drop (leading.toNat + 1) ≠ [] := by simpa using hlength
  simp [positional, h, hpad, List.isEmpty_eq_false_iff.mpr hne]

theorem positional_writes (hne : digits ≠ []) (hdigits : ∀ c ∈ digits, c.isDigit = true)
    (h : nearestDecimal (natOfDigits digits) (leading + 1 - digits.length) = m) :
    WritesMagnitude (positional digits leading) m := by
  have hpadded : ∀ {k cs}, (∀ c ∈ cs, c.isDigit = true) →
      ∀ c ∈ List.replicate k '0' ++ cs, c.isDigit = true := by
    intro k cs hcs c hc
    exact (List.mem_append.mp hc).elim (isDigit_of_mem_zeros c) (hcs c)
  by_cases hleading : leading < 0
  · rw [positional_small hleading]
    refine writes_point isDigit_of_mem_zero (List.cons_ne_nil _ _) (hpadded hdigits) (.nil _) rfl
      (by simp) ?_
    have hvalue : natOfDigits (['0'] ++ (List.replicate (-leading - 1).toNat '0' ++ digits)) =
        natOfDigits digits :=
      (natOfDigits_zeros_append 1 _).trans (natOfDigits_zeros_append _ _)
    have hexp : (0 : Int) - (List.replicate (-leading - 1).toNat '0' ++ digits).length =
        leading + 1 - digits.length := by
      simp only [List.length_append, List.length_replicate]
      omega
    rw [hvalue, hexp, h]
  by_cases hlength : digits.length ≤ leading.toNat + 1
  · rw [positional_padded hleading hlength]
    refine writes_point ?_ (by simp [hne]) isDigit_of_mem_zero (.nil _) rfl (by simp) ?_
    · intro c hc
      exact (List.mem_append.mp hc).elim (hdigits c) (isDigit_of_mem_zeros c)
    · -- The zero behind the point makes up for one more place.
      have hvalue : natOfDigits (digits ++
          List.replicate (leading.toNat + 1 - digits.length) '0' ++ ['0']) =
          natOfDigits digits * 10 ^ (leading.toNat + 1 - digits.length + 1) := by
        rw [← natOfDigits_append_zeros, List.append_assoc]
        simp [List.replicate_succ']
      have hexp : (0 : Int) - (['0'].length : Int) +
          ((leading.toNat + 1 - digits.length + 1 : Nat) : Int) = leading + 1 - digits.length := by
        simp only [List.length_singleton]
        omega
      rw [hvalue, nearestDecimal_mul_pow, hexp, h]
  · rw [positional_split hleading (by omega)]
    refine writes_point (fun c hc => hdigits c (List.mem_of_mem_take hc)) (by simp [hne])
      (fun c hc => hdigits c (List.mem_of_mem_drop hc)) (.nil _) rfl (by simp) ?_
    have hexp : (0 : Int) - (digits.drop (leading.toNat + 1)).length =
        leading + 1 - digits.length := by
      rw [List.length_drop]
      omega
    rw [List.take_append_drop, hexp, h]

theorem scientific_writes (plusSign : Bool) (hne : digits ≠ [])
    (hdigits : ∀ c ∈ digits, c.isDigit = true)
    (h : nearestDecimal (natOfDigits digits) (leading + 1 - digits.length) = m) :
    WritesMagnitude (scientific plusSign digits leading) m := by
  have he : exponent? ('e' :: exponentText plusSign leading) = some leading := by
    rw [exponent?, if_pos (.inl rfl), int?_exponentText]
  obtain ⟨d, ds, rfl⟩ := List.exists_cons_of_ne_nil hne
  cases ds with
  | nil =>
    refine writes_whole hdigits hne he isNumberContinue_of_mem_exponentText ?_
    rw [← h, List.length_singleton]
    congr 1
    omega
  | cons c cs =>
    have htext : scientific plusSign (d :: c :: cs) leading =
        [d] ++ '.' :: ((c :: cs) ++ 'e' :: exponentText plusSign leading) := by
      simp [scientific]
    have hh := List.forall_mem_cons.mp hdigits
    rw [htext]
    refine writes_point (by simpa using hh.1) (List.cons_ne_nil _ _) hh.2
      (endsRun_cons.mpr (by decide)) he ?_ ?_
    · exact List.forall_mem_cons.mpr ⟨by decide, isNumberContinue_of_mem_exponentText⟩
    · rw [← h]
      simp only [List.length_cons, List.singleton_append]
      congr 1
      omega

end Notations

theorem magnitudeText_writes (format : Format) {m : Nat} (hm : m < infinite) :
    WritesMagnitude (magnitudeText format m) m := by
  unfold magnitudeText
  split
  · next hzero =>
    have hh : WritesMagnitude (['0'] ++ '.' :: (['0'] ++ [])) 0 :=
      writes_point isDigit_of_mem_zero (List.cons_ne_nil _ _) isDigit_of_mem_zero (.nil _) rfl
        (by simp) rfl
    rw [hzero]
    exact hh
  · next hne =>
    have hpos := shortest_digits_pos format.tie (Nat.pos_of_ne_zero hne) hm
    have hback := shortest_readsBack format.tie hm
    generalize shortest format.tie m = found at *
    obtain ⟨hnonempty, hall, hvalue⟩ := stripZeros_toDigits hpos
    have hleading : ∀ {zeros length : Nat},
        found.exponent + zeros + length - 1 + 1 - length = found.exponent + zeros := by
      intro zeros length
      omega
    dsimp only
    split
    · exact positional_writes hnonempty hall
        (by rw [hleading, ← nearestDecimal_mul_pow, hvalue, hback])
    · exact scientific_writes format.plusSign hnonempty hall
        (by rw [hleading, ← nearestDecimal_mul_pow, hvalue, hback])

theorem WritesMagnitude.splitSign {text : List Char} {m : Nat} (h : WritesMagnitude text m) :
    splitSign text = (false, text) := by
  obtain ⟨c, cs, rfl, hc⟩ := h.begins
  exact splitSign_of_isDigit hc cs

theorem WritesMagnitude.int? {text : List Char} {m : Nat} (h : WritesMagnitude text m)
    (negative : Bool) : int? ((if negative then ['-'] else []) ++ text) = none := by
  have hdigits : isDigits text = false := by
    have hnot : ∀ c ∈ text, c.isDigit = false → isDigits text = false := by
      intro c hc hdigit
      simp only [isDigits, Bool.and_eq_false_iff, List.all_eq_false]
      exact .inr ⟨c, hc, by simp [hdigit]⟩
    rcases h.marked with hc | hc
    · exact hnot _ hc (by decide)
    · exact hnot _ hc (by decide)
  cases negative with
  | false => simp [Decimal.int?, h.splitSign, hdigits]
  | true => simp [Decimal.int?, Decimal.splitSign, hdigits]

theorem WritesMagnitude.int64? {text : List Char} {m : Nat} (h : WritesMagnitude text m)
    (negative : Bool) : int64? ((if negative then ['-'] else []) ++ text) = none := by
  rw [Decimal.int64?, h.int? negative, Option.bind_none]

theorem WritesMagnitude.float? {text : List Char} {m : Nat} (h : WritesMagnitude text m)
    (negative : Bool) : ∃ x, float? ((if negative then ['-'] else []) ++ text) = some x ∧
      x.negative = negative ∧ x.magnitude = m := by
  obtain ⟨x, hparse, hsign, hvalue⟩ := h.parses
  cases negative with
  | false =>
    refine ⟨x.toBinary64, ?_, hsign, hvalue⟩
    simp [Decimal.float?, hparse]
  | true =>
    have hneg : Literal.parse? ('-' :: text) = some { x with negative := true } := by
      simp only [Literal.parse?, h.splitSign] at hparse
      simp only [Literal.parse?, Decimal.splitSign]
      split at hparse
      · cases hparse
      · next hne =>
        rw [if_neg hne]
        obtain ⟨e, he, rfl⟩ := Option.map_eq_some_iff.mp hparse
        rw [he]
        rfl
    refine ⟨{ x with negative := true }.toBinary64, ?_, rfl, hvalue⟩
    simp [Decimal.float?, hneg]

variable {x : Binary64}

theorem magnitude_lt_infinite (hx : x.isFinite = true) : x.magnitude < infinite := by
  simpa [Binary64.isFinite] using hx

theorem float?_finiteText (format : Format) (hx : x.isFinite = true) :
    float? (finiteText format x) = some x := by
  obtain ⟨y, hy, hsign, hmagnitude⟩ :=
    (magnitudeText_writes format (magnitude_lt_infinite hx)).float? x.negative
  rw [finiteText, hy]
  cases x
  cases y
  cases hsign
  cases hmagnitude
  rfl

theorem int?_finiteText (format : Format) (hx : x.isFinite = true) :
    int? (finiteText format x) = none :=
  (magnitudeText_writes format (magnitude_lt_infinite hx)).int? x.negative

theorem int64?_finiteText (format : Format) (hx : x.isFinite = true) :
    int64? (finiteText format x) = none :=
  (magnitudeText_writes format (magnitude_lt_infinite hx)).int64? x.negative

theorem finiteText_eq_cons (format : Format) (hx : x.isFinite = true) :
    ∃ c cs, finiteText format x = c :: cs ∧ isNumberStart c = true ∧
      ∀ d ∈ cs, isNumberContinue d = true := by
  have hwrites := magnitudeText_writes format (magnitude_lt_infinite hx)
  rw [finiteText]
  cases x.negative with
  | true => exact ⟨'-', _, rfl, by decide, hwrites.continues⟩
  | false =>
    obtain ⟨c, cs, htext, hc⟩ := hwrites.begins
    refine ⟨c, cs, htext, by simp [isNumberStart, hc], fun d hd => ?_⟩
    exact hwrites.continues d (htext ▸ List.mem_cons_of_mem _ hd)

end QueryDoc.Decimal
