import QueryDoc.Json.Basic
import QueryDoc.Proofs.Atom.Spelling
import QueryDoc.Proofs.Decimal.Layout

/-! The strings and numbers of JSON texts. Where a text goes on after one of them, it tells which one it
was, and it tells integers from floating point numbers. -/

namespace QueryDoc.Json

/-! ### Strings -/

def isEscaped (c : Char) : Bool :=
  c == '"' || c == '\\' || decide (c.toNat < 0x20)

/-- The characters that are escaped. -/
def escapedChars : List Char :=
  '"' :: '\\' :: (List.range 0x20).map Char.ofNat

theorem mem_escapedChars {c : Char} (hc : isEscaped c = true) : c ∈ escapedChars := by
  simp only [isEscaped, Bool.or_eq_true, beq_iff_eq, decide_eq_true_eq] at hc
  rcases hc with (rfl | rfl) | hc
  · exact .head _
  · exact .tail _ (.head _)
  · refine .tail _ (.tail _ (List.mem_map.mpr ⟨c.toNat, List.mem_range.mpr hc, ?_⟩))
    exact c.ofNat_toNat

theorem escapeChar_of_isEscaped {c : Char} (hc : isEscaped c = true) :
    ∃ cs, escapeChar c = '\\' :: cs := by
  have hall : (escapedChars.all fun c => (escapeChar c).head? == some '\\') = true := by decide
  exact List.head?_eq_some_iff.mp (eq_of_beq (List.all_eq_true.mp hall c (mem_escapedChars hc)))

theorem escapeChar_of_not_isEscaped {c : Char} (hc : isEscaped c = false) : escapeChar c = [c] := by
  have hne : ∀ d, isEscaped d = true → c ≠ d := by
    rintro d hd rfl
    exact Bool.false_ne_true (hc.symm.trans hd)
  have hnat : ¬c.toNat < 0x20 := by
    simp only [isEscaped, Bool.or_eq_false_iff, decide_eq_false_iff_not] at hc
    exact hc.2
  rw [escapeChar, if_neg (hne _ (by decide)), if_neg (hne _ (by decide)), if_neg (hne _ (by decide)),
    if_neg (hne _ (by decide)), if_neg (hne _ (by decide)), if_neg (hne _ (by decide)),
    if_neg (hne _ (by decide)), if_neg (by omega), if_neg hnat]

theorem head?_escapeChar (c : Char) : ∃ d cs, escapeChar c = d :: cs ∧ d ≠ '"' := by
  cases hc : isEscaped c with
  | true =>
    obtain ⟨cs, hcs⟩ := escapeChar_of_isEscaped hc
    exact ⟨'\\', cs, hcs, by decide⟩
  | false =>
    refine ⟨c, [], escapeChar_of_not_isEscaped hc, ?_⟩
    rintro rfl
    cases hc

/-- No escape goes on as another one. -/
theorem eq_of_escapeChar_begins {c d : Char} (h : escapeChar c <+: escapeChar d) : c = d := by
  cases hc : isEscaped c with
  | true =>
    obtain ⟨cs, hcs⟩ := escapeChar_of_isEscaped hc
    cases hd : isEscaped d with
    | true =>
      have hall : (escapedChars.all fun c => escapedChars.all fun d =>
          !(escapeChar c).isPrefixOf (escapeChar d) || c == d) = true := by decide +kernel
      have hpair := List.all_eq_true.mp (List.all_eq_true.mp hall c (mem_escapedChars hc)) d
        (mem_escapedChars hd)
      rw [List.isPrefixOf_iff_prefix.mpr h] at hpair
      exact eq_of_beq hpair
    | false =>
      rw [hcs, escapeChar_of_not_isEscaped hd, List.cons_prefix_cons] at h
      obtain ⟨rfl, -⟩ := h
      cases hd
  | false =>
    rw [escapeChar_of_not_isEscaped hc] at h
    cases hd : isEscaped d with
    | true =>
      obtain ⟨ds, hds⟩ := escapeChar_of_isEscaped hd
      rw [hds, List.cons_prefix_cons] at h
      obtain ⟨rfl, -⟩ := h
      cases hc
    | false =>
      rw [escapeChar_of_not_isEscaped hd, List.cons_prefix_cons] at h
      exact h.1

theorem escapeChar_append_inj {c d : Char} {rest rest' : List Char}
    (h : escapeChar c ++ rest = escapeChar d ++ rest') : c = d ∧ rest = rest' := by
  have heq : c = d := by
    have hleft : escapeChar c <+: escapeChar c ++ rest := List.prefix_append _ _
    have hright : escapeChar d <+: escapeChar c ++ rest := h ▸ List.prefix_append _ _
    rcases List.prefix_or_prefix_of_prefix hleft hright with hh | hh
    · exact eq_of_escapeChar_begins hh
    · exact (eq_of_escapeChar_begins hh).symm
  subst heq
  exact ⟨rfl, List.append_cancel_left h⟩

theorem escaped_append_inj {cs ds rest rest' : List Char}
    (h : cs.flatMap escapeChar ++ '"' :: rest = ds.flatMap escapeChar ++ '"' :: rest') :
    cs = ds ∧ rest = rest' := by
  induction cs generalizing ds with
  | nil =>
    cases ds with
    | nil => exact ⟨rfl, (List.cons.inj h).2⟩
    | cons d ds =>
      obtain ⟨e, es, he, hne⟩ := head?_escapeChar d
      rw [List.flatMap_cons, he] at h
      exact absurd (List.cons.inj h).1.symm hne
  | cons c cs ih =>
    cases ds with
    | nil =>
      obtain ⟨e, es, he, hne⟩ := head?_escapeChar c
      rw [List.flatMap_cons, he] at h
      exact absurd (List.cons.inj h).1 hne
    | cons d ds =>
      rw [List.flatMap_cons, List.flatMap_cons, List.append_assoc, List.append_assoc] at h
      obtain ⟨rfl, hh⟩ := escapeChar_append_inj h
      obtain ⟨rfl, hrest⟩ := ih hh
      exact ⟨rfl, hrest⟩

theorem stringText_append_inj {s t : String} {rest rest' : List Char}
    (h : stringText s ++ rest = stringText t ++ rest') : s = t ∧ rest = rest' := by
  simp only [stringText, List.cons_append, List.append_assoc, List.nil_append] at h
  obtain ⟨hchars, hrest⟩ := escaped_append_inj (List.cons.inj h).2
  exact ⟨String.toList_inj.mp hchars, hrest⟩

/-! ### Numbers -/

/-- A number, which goes on as long as there are number characters. -/
structure IsNumber (text : List Char) : Prop where
  begins : ∃ c cs, text = c :: cs ∧ isNumberStart c = true
  continues : ∀ c ∈ text, isNumberContinue c = true

theorem IsNumber.append_inj {text text' rest rest' : List Char} (h : IsNumber text)
    (h' : IsNumber text') (hrest : EndsRun isNumberContinue rest)
    (hrest' : EndsRun isNumberContinue rest') (heq : text ++ rest = text' ++ rest') :
    text = text' ∧ rest = rest' := by
  have htext := congrArg (List.takeWhile isNumberContinue) heq
  rw [takeWhile_append_of_endsRun h.continues hrest,
    takeWhile_append_of_endsRun h'.continues hrest'] at htext
  subst htext
  exact ⟨rfl, List.append_cancel_left heq⟩

theorem int?_intText (n : Int) : Decimal.int? (intText n) = some n :=
  Decimal.int?_exponentText false n

theorem isNumber_intText (n : Int) : IsNumber (intText n) := by
  refine ⟨?_, @Decimal.isNumberContinue_of_mem_exponentText false n⟩
  by_cases hn : n < 0
  · exact ⟨'-', Nat.toDigits 10 n.natAbs, by rw [intText, if_pos hn, List.singleton_append], by decide⟩
  · obtain ⟨c, cs, hcs⟩ := List.exists_cons_of_ne_nil (Nat.toDigits_ne_nil (b := 10) (n := n.natAbs))
    have hc : c.isDigit = true := Decimal.isDigit_of_mem_toDigits c (hcs ▸ List.mem_cons_self)
    exact ⟨c, cs, by rw [intText, if_neg hn, List.nil_append, hcs], by simp [isNumberStart, hc]⟩

theorem isNumber_floatText {x : Binary64} (hx : x.isFinite = true) : IsNumber (floatText x) := by
  obtain ⟨c, cs, hcs, hc, hrest⟩ := Decimal.finiteText_eq_cons floatFormat hx
  rw [floatText, if_pos hx, hcs]
  exact ⟨⟨c, cs, rfl, hc⟩,
    List.forall_mem_cons.mpr ⟨isNumberContinue_of_isNumberStart hc, hrest⟩⟩

/-- The number that a text writes. Whatever can be an integer is one. -/
def number? (text : List Char) : Option Json :=
  match Decimal.int? text with
  | some n => some (int n)
  | none => (Decimal.float? text).map float

theorem number?_intText (n : Int) : number? (intText n) = some (int n) := by
  rw [number?, int?_intText]

theorem number?_floatText {x : Binary64} (hx : x.isFinite = true) :
    number? (floatText x) = some (float x) := by
  rw [floatText, if_pos hx, number?, Decimal.int?_finiteText floatFormat hx,
    Decimal.float?_finiteText floatFormat hx, Option.map_some]

end QueryDoc.Json
