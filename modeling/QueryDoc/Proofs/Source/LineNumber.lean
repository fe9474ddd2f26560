import QueryDoc.Proofs.Source.Stretch
import QueryDoc.Proofs.Text.Lines

/-! The line that a position counts and the line that is shown for it. A text is cut into lines at its
line feeds, while a position counts a carriage return that stands alone as a line break too. So the
numbers agree as long as no carriage return has stood alone, and from the first one on they do not. -/

namespace QueryDoc

namespace Text

variable {before after : List Char}

/-- What stands before a place on its line, given all that stands before it. -/
def lineBefore (before : List Char) : List Char :=
  before.rtakeWhile (· != '\n')

/-- The line of a place, given what stands before and after it. A line break belongs to the line that
it ends, but it is not shown. -/
def lineAround (before after : List Char) : List Char :=
  if '\n' ∈ after then dropReturn (lineBefore before ++ after.takeWhile (· != '\n'))
  else lineBefore before ++ after

theorem newline_not_mem_lineBefore (before : List Char) : '\n' ∉ lineBefore before :=
  fun h => absurd (List.mem_rtakeWhile_imp h) (by decide)

theorem lineBefore_of_not_mem (h : '\n' ∉ before) : lineBefore before = before := by
  refine List.rtakeWhile_eq_self_iff.mpr fun c hc => ?_
  simpa using fun he : c = '\n' => h (he ▸ hc)

theorem lineBefore_append_newline (front rest : List Char) :
    lineBefore (front ++ '\n' :: rest) = lineBefore rest := by
  induction rest using List.reverseRecOn with
  | nil => exact List.rtakeWhile_concat_neg _ _ _ (by decide)
  | append_singleton rest c ih =>
    rw [lineBefore, lineBefore] at ih
    rw [← List.cons_append, ← List.append_assoc, lineBefore, List.rtakeWhile_concat, ih, lineBefore,
      List.rtakeWhile_concat]

theorem lineBefore_eq_nil_iff :
    lineBefore before = [] ↔ before = [] ∨ before.getLast? = some '\n' := by
  induction before using List.reverseRecOn with
  | nil => simp [lineBefore]
  | append_singleton before c => simp [lineBefore, List.rtakeWhile_concat]

/-- What stands before a place is whole lines and the beginning of the line it is on. -/
theorem exists_front (before : List Char) :
    ∃ front, before = front ++ lineBefore before ∧
      (front = [] ∨ front.getLast? = some '\n') := by
  refine ⟨before.rdropWhile (· != '\n'), List.rdropWhile_append_rtakeWhile.symm, ?_⟩
  by_cases hnil : before.rdropWhile (· != '\n') = []
  · exact .inl hnil
  · have hlast := List.rdropWhile_last_not _ _ hnil
    exact .inr (by rw [List.getLast?_eq_some_getLast hnil]; simpa using hlast)

theorem lineAround_append_newline (front before after : List Char) :
    lineAround (front ++ '\n' :: before) after = lineAround before after := by
  rw [lineAround, lineAround, lineBefore_append_newline]

theorem getElem?_lines_zero (h : '\n' ∉ before) :
    (lines (before ++ after))[0]? =
      if after = [] ∧ before = [] then none else some (lineAround before after) := by
  rw [lineAround, lineBefore_of_not_mem h]
  by_cases hafter : '\n' ∈ after
  · obtain ⟨text, rest, rfl, htext⟩ := List.eq_append_cons_of_mem hafter
    have hline : '\n' ∉ before ++ text := by simp [h, htext]
    have hends : EndsRun (· != '\n') ('\n' :: rest) := endsRun_cons.mpr (by decide)
    have hrun : ∀ c ∈ text, (c != '\n') = true := by
      intro c hc
      simpa using fun he : c = '\n' => htext (he ▸ hc)
    rw [← List.append_assoc, lines_append_newline hline, if_pos hafter,
      takeWhile_append_of_endsRun hrun hends]
    simp
  · rw [if_neg hafter]
    by_cases hnil : before ++ after = []
    · obtain ⟨rfl, rfl⟩ := List.append_eq_nil_iff.mp hnil
      rfl
    · have hline : '\n' ∉ before ++ after := by simp [h, hafter]
      have hne : ¬(after = [] ∧ before = []) := by simpa [and_comm] using hnil
      rw [lines_of_not_mem hline hnil, if_neg hne]
      rfl

/-- As many lines stand before the line of a place as line feeds before the place. At the end of a
text there may be no line any more. -/
theorem getElem?_lines_count (before after : List Char) :
    (lines (before ++ after))[before.count '\n']? =
      if after = [] ∧ lineBefore before = [] then none else some (lineAround before after) := by
  induction hn : before.length using Nat.strongRecOn generalizing before with
  | ind n ih =>
    by_cases hmem : '\n' ∈ before
    · obtain ⟨first, rest, rfl, hfirst⟩ := List.eq_append_cons_of_mem hmem
      have hlen : rest.length < n := by
        rw [List.length_append, List.length_cons] at hn
        omega
      rw [List.append_assoc, List.cons_append, lines_append_newline hfirst, List.count_append,
        List.count_eq_zero.mpr hfirst, List.count_cons_self, Nat.zero_add, List.getElem?_cons_succ,
        ih _ hlen rest rfl, lineBefore_append_newline, lineAround_append_newline]
    · rw [List.count_eq_zero.mpr hmem, getElem?_lines_zero hmem, lineBefore_of_not_mem hmem]

theorem dropReturn_append (line : List Char) {text : List Char} (h : text ≠ []) :
    dropReturn (line ++ text) = line ++ dropReturn text := by
  cases text using List.reverseRecOn with
  | nil => exact absurd rfl h
  | append_singleton text c =>
    rw [← List.append_assoc, dropReturn, dropReturn]
    simp only [List.getLast?_concat, List.dropLast_concat]
    split <;> simp

theorem lineBefore_prefix_lineAround (h : '\r' ∉ lineBefore before) (after : List Char) :
    lineBefore before <+: lineAround before after := by
  rw [lineAround]
  split
  · by_cases hnil : after.takeWhile (· != '\n') = []
    · have hlast : (lineBefore before).getLast? ≠ some '\r' := fun hh => h (List.mem_of_getLast? hh)
      have hself : dropReturn (lineBefore before ++ []) = lineBefore before := by
        rw [List.append_nil, dropReturn_eq_self hlast]
      exact ⟨[], by rw [hnil, hself, List.append_nil]⟩
    · rw [dropReturn_append _ hnil]
      exact List.prefix_append _ _
  · exact List.prefix_append _ _

end Text

/-- Whether each carriage return of a text has a line feed right after it. -/
def returnsPaired : List Char → Bool
  | [] => true
  | c :: cs => (c != '\r' || cs.head? == some '\n') && returnsPaired cs

theorem returnsPaired_cons_iff {c : Char} {cs : List Char} :
    returnsPaired (c :: cs) = true ↔
      (c = '\r' → cs.head? = some '\n') ∧ returnsPaired cs = true := by
  simp [returnsPaired, imp_iff_not_or]

theorem head?_of_returnsPaired {before after : List Char}
    (h : returnsPaired (before ++ '\r' :: after) = true) : after.head? = some '\n' := by
  induction before with
  | nil => exact (returnsPaired_cons_iff.mp h).1 rfl
  | cons c before ih => exact ih (returnsPaired_cons_iff.mp h).2

theorem returnsPaired_of_append {before after : List Char} (hclean : CleanCut before after)
    (h : returnsPaired (before ++ after) = true) : returnsPaired before = true := by
  induction before with
  | nil => rfl
  | cons c before ih =>
    obtain ⟨hc, hh⟩ := returnsPaired_cons_iff.mp h
    cases before with
    | nil =>
      have hne : c ≠ '\r' := fun he => hclean (he ▸ rfl) (hc he)
      exact returnsPaired_cons_iff.mpr ⟨fun he => absurd he hne, rfl⟩
    | cons d before =>
      have hclean' : CleanCut (d :: before) after := fun hlast => hclean (by simpa using hlast)
      exact returnsPaired_cons_iff.mpr ⟨hc, ih hclean' hh⟩

/-- A position counts a line for each line feed, and some more unless all carriage returns before it
are parts of line breaks with a line feed. -/
theorem lineBreaks_eq_count_iff (cs : List Char) :
    cs.count '\n' ≤ lineBreaks cs ∧
      (lineBreaks cs = cs.count '\n' ↔ returnsPaired cs = true) := by
  induction cs using lineBreaks.induct with
  | case1 => simp [lineBreaks, returnsPaired]
  | case2 cs ih =>
    have hcount : ('\r' :: '\n' :: cs).count '\n' = cs.count '\n' + 1 := by
      rw [List.count_cons_of_ne (by decide), List.count_cons_self]
    have hpaired : returnsPaired ('\r' :: '\n' :: cs) = returnsPaired cs := by
      simp [returnsPaired]
    rw [hcount, hpaired, lineBreaks, Nat.add_right_cancel_iff]
    exact ⟨by omega, ih.2⟩
  | case3 c cs hpair ih =>
    rw [lineBreaks.eq_3 c cs hpair, returnsPaired_cons_iff, ← ih.2]
    by_cases hnew : c = '\n'
    · subst hnew
      rw [List.count_cons_self, if_pos (by decide), Nat.add_right_cancel_iff]
      exact ⟨by omega, by simp⟩
    by_cases hreturn : c = '\r'
    · have hhead : cs.head? ≠ some '\n' := by
        intro hh
        obtain ⟨ds, hds⟩ := List.head?_eq_some_iff.mp hh
        exact hpair ds hreturn hds
      subst hreturn
      rw [List.count_cons_of_ne (by decide), if_pos (by decide)]
      exact ⟨by omega, by simp [hhead]; omega⟩
    · have hline : isLineEnd c = false := by simp [isLineEnd, hnew, hreturn]
      rw [List.count_cons_of_ne hnew, hline]
      simpa [hreturn] using ih.1

theorem lastLine_of_returnsPaired {cs : List Char} (h : returnsPaired cs = true) :
    lastLine cs = Text.lineBefore cs := by
  induction cs using List.reverseRecOn with
  | nil => rfl
  | append_singleton cs c ih =>
    rw [lastLine_concat, Text.lineBefore, List.rtakeWhile_concat]
    by_cases hnew : c = '\n'
    · subst hnew
      rfl
    · have hreturn : c ≠ '\r' := by
        rintro rfl
        cases head?_of_returnsPaired h
      have hline : isLineEnd c = false := by simp [isLineEnd, hnew, hreturn]
      have hih := ih (returnsPaired_of_append (cleanCut_cons hnew cs []) h)
      simp [hline, hnew, hih, Text.lineBefore]

end QueryDoc
