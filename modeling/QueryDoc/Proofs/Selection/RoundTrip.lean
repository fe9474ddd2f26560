import QueryDoc.Proofs.Grammar.Separated
import QueryDoc.Proofs.Selection.Body
import QueryDoc.Proofs.Text.Lines
import QueryDoc.Proofs.Text.Trim
import QueryDoc.Selection

/-! The text of a selection set is written between blanks, which trimming takes off again. A scan of
it may end in a comment, because a line feed is written after a text whose last line may be one. -/

namespace QueryDoc

namespace BodyScan

variable {d : Nat} {cs blanks : List Char}

theorem not_mem_of_isBlank {c : Char} (hc : Text.isBlank c = true) : c ∉ ['{', '}', '"', '#'] := by
  simp only [List.mem_cons, List.not_mem_nil, or_false, not_or]
  refine ⟨?_, ?_, ?_, ?_⟩ <;>
  · rintro rfl
    exact absurd hc (by decide)

theorem run_blanks (h : ∀ c ∈ blanks, Text.isBlank c = true) (d : Nat) (cs : List Char) :
    run ⟨.code, d + 1⟩ (blanks ++ cs) = run ⟨.code, d + 1⟩ cs := by
  induction blanks with
  | nil => rfl
  | cons c blanks ih =>
    obtain ⟨hc, hblanks⟩ := List.forall_mem_cons.mp h
    rw [List.cons_append, run_plain (not_mem_of_isBlank hc), ih hblanks]

theorem run_blanks_in_comment (h : ∀ c ∈ blanks, Text.isBlank c = true) (d : Nat) :
    ∃ place, run ⟨.comment, d + 1⟩ blanks = some ⟨place, d + 1⟩ := by
  induction blanks with
  | nil => exact ⟨.comment, rfl⟩
  | cons c blanks ih =>
    obtain ⟨hc, hblanks⟩ := List.forall_mem_cons.mp h
    by_cases hend : isLineEnd c = true
    · refine ⟨.code, ?_⟩
      have hh := run_blanks hblanks d []
      rw [List.append_nil] at hh
      rw [run_line_end hend, hh]
      rfl
    · obtain ⟨place, hplace⟩ := ih hblanks
      refine ⟨place, ?_⟩
      rw [← hplace]
      simp [run, step, hend]

theorem endsInComment_of_after (h : BodyPlace.after .code cs = .comment) :
    endsInComment cs = true := by
  obtain ⟨front, text, rfl, htext⟩ := BodyPlace.exists_number_sign h
  have hnot : '\n' ∉ text := fun hm => absurd (htext _ hm) (by decide)
  obtain ⟨line, hline, hmem⟩ := Text.mem_getLast_lines_append (c := '#') (by decide) front hnot
  rw [endsInComment, hline]
  simpa using hmem

/-- What is left of a balanced text once it is trimmed closes all braces that it opens, and at most
a comment is open at its end. -/
theorem run_trim (h : Balanced cs) :
    ∃ place, place ≠ .string ∧ run ⟨.code, 1⟩ (Text.trim cs) = some ⟨place, 1⟩ := by
  obtain ⟨front, back, hcs, hfront, hback⟩ := Text.exists_blanks_trim cs
  have hrun := balanced_iff_run.mp h
  rw [hcs, List.append_assoc, run_blanks hfront, run_append, Option.bind_eq_some_iff] at hrun
  obtain ⟨⟨place, depth⟩, htrim, hend⟩ := hrun
  obtain ⟨d, rfl⟩ := Nat.exists_eq_add_of_le' (depth_pos_of_run Nat.zero_lt_one htrim)
  cases place with
  | code =>
    have hh := run_blanks hback d []
    rw [List.append_nil, hend] at hh
    cases hh
    exact ⟨.code, by decide, htrim⟩
  | string =>
    have hnot : '"' ∉ back := fun hm => absurd (hback _ hm) (by decide)
    rw [run_in_string hnot] at hend
    cases hend
  | comment =>
    obtain ⟨place, hplace⟩ := run_blanks_in_comment hback d
    rw [hplace] at hend
    cases hend
    exact ⟨.comment, by decide, htrim⟩

end BodyScan

open BodyScan

theorem Style.isBlank_of_mem_gap (style : Style) : ∀ c ∈ style.gap, Text.isBlank c = true := by
  cases style with
  | pretty => exact List.forall_mem_singleton.mpr (by decide)
  | minified => simp [Style.gap]

/-- What is written between a text that is kept and the brace after it. -/
def bodyPadding (style : Style) (body : List Char) : List Char :=
  if endsInComment body then ['\n'] else style.gap

theorem isBlank_of_mem_bodyPadding (style : Style) (body : List Char) :
    ∀ c ∈ bodyPadding style body, Text.isBlank c = true := by
  unfold bodyPadding
  split
  · exact List.forall_mem_singleton.mpr (by decide)
  · exact style.isBlank_of_mem_gap

/-- The padding ends a comment that is open at the end of the text. -/
theorem balanced_padded (style : Style) {body : List Char} {place : BodyPlace}
    (hplace : place ≠ .string) (hrun : run ⟨.code, 1⟩ body = some ⟨place, 1⟩) :
    Balanced (body ++ bodyPadding style body) := by
  rw [balanced_iff_run, run_append, hrun, Option.bind_some]
  cases place with
  | code =>
    have hh := run_blanks (isBlank_of_mem_bodyPadding style body) 0 []
    rwa [List.append_nil] at hh
  | string => exact absurd rfl hplace
  | comment =>
    rw [bodyPadding, if_pos (endsInComment_of_after (place_of_run hrun).symm)]
    rfl

/-- A text that is trimmed and closes its braces is what is kept of the selection set it is
written as. -/
theorem SelectionSet.exists_inside {set : SelectionSet} (style : Style) (hfields : set.fields = [])
    (htrim : Text.trim set.body.toList = set.body.toList) {place : BodyPlace}
    (hplace : place ≠ .string) (hrun : run ⟨.code, 1⟩ set.body.toList = some ⟨place, 1⟩) :
    ∃ inside, set.chars style = '{' :: (inside ++ ['}']) ∧ Text.trim inside = set.body.toList ∧
      Balanced inside := by
  obtain ⟨fields, body⟩ := set
  cases hfields
  by_cases hbody : body = ""
  · subst hbody
    exact ⟨[], rfl, rfl, .nil⟩
  · have hempty : body.isEmpty = false := by simpa using hbody
    refine ⟨style.gap ++ (body.toList ++ bodyPadding style body.toList), ?_, ?_,
      balanced_iff_run.mpr ?_⟩
    · simp [SelectionSet.chars, Field.charsEach, hempty, separated_cons, bodyPadding]
    · rw [Text.trim_blanks_append style.isBlank_of_mem_gap,
        Text.trim_append_blanks (isBlank_of_mem_bodyPadding style _), htrim]
    · rw [run_blanks style.isBlank_of_mem_gap]
      exact balanced_iff_run.mp (balanced_padded style hplace hrun)

end QueryDoc
