import QueryDoc.Diagnostic.Report
import QueryDoc.Proofs.Abreast.Document
import QueryDoc.Proofs.Source.LineNumber

/-! The lines that are shown with an error, and the marks under them. A span is shown on the line whose
number its start counts, and its marks stand under the characters it spans. The line is the one that the
span is on as long as every carriage return before it is part of a line break with a line feed. -/

namespace QueryDoc

open Text

variable {source : List Char} {options : ReadOptions} {e : ReadError}

/-- The spans of an error that one of the three parsers gives. -/
theorem exists_stretch_of_parse_error (he : Document.parse source options = .error e ∨
      Atom.parse source options = .error e ∨ TypeRef.parse source options = .error e)
    {span : Span} (hspan : span ∈ e.spans) :
    ∃ before text after, source = before ++ (text ++ after) ∧ CleanCut before (text ++ after) ∧
      span = .across options.file ⟨before, text⟩ := by
  rcases he with he | he | he
  · exact exists_stretch_of_maps (fun R => R.readDocument_agree options.depth) he hspan
  · exact exists_stretch_of_maps
      (fun R => (R.readAtom_agree options.depth options.depth).then_finish) he hspan
  · exact exists_stretch_of_maps (g := fun _ => id)
      (fun R => (R.readType_agree options.depth options.depth).then_finish) he hspan

namespace Snippet

theorem of?_across (source : List Char) (file : Option String) (x : Stretch) :
    of? source (.across file x) = (lines source)[lineBreaks x.before]?.map fun text =>
      { number := lineBreaks x.before + 1, text, indent := (lastLine x.before).length,
        length := max x.text.length 1 } := by
  have hline : (Span.across file x).stop.line = (Span.across file x).start.line :=
    Position.line_pastAll _ _
  have hcolumn : (Span.across file x).stop.column =
      (Span.across file x).start.column + x.text.length := Position.column_pastAll _ _
  have hlength : (if (Span.across file x).stop.line = (Span.across file x).start.line ∧
      (Span.across file x).start.column < (Span.across file x).stop.column then
      (Span.across file x).stop.column - (Span.across file x).start.column else 1) =
      max x.text.length 1 := by
    rw [hline, hcolumn]
    split <;> omega
  rw [of?, hlength]
  rfl

/-- The number of the line, set to the right in a column of its own. -/
def numberColumn (snippet : Snippet) : List Char :=
  List.replicate (snippet.gutter - snippet.digits.length) ' ' ++ snippet.digits

theorem length_numberColumn (snippet : Snippet) : snippet.numberColumn.length = snippet.gutter := by
  have hle : snippet.digits.length ≤ snippet.gutter := Nat.le_max_right _ _
  rw [numberColumn, List.length_append, List.length_replicate, Nat.sub_add_cancel hle]

theorem render_eq (snippet : Snippet) (marker : Char) :
    snippet.render marker = String.ofList (
      List.replicate snippet.numberColumn.length ' ' ++ " |\n".toList ++
      (snippet.numberColumn ++ " | ".toList ++ snippet.text ++ ['\n']) ++
      (List.replicate snippet.numberColumn.length ' ' ++ " | ".toList ++
        List.replicate snippet.indent ' ' ++ List.replicate snippet.length marker ++ ['\n'])) := by
  rw [render, length_numberColumn]
  refine congrArg String.ofList ?_
  simp [blankRow, textRow, markerRow, numberColumn]

/-- The snippet shows the text of the line before the span just as it stands in the source, and the
marks begin right under the span and are as many as it has characters. -/
structure Aligned (snippet : Snippet) (source : List Char) (span : Span) : Prop where
  lead : ∃ front lead after, source = front ++ (lead ++ after) ∧
    (front = [] ∨ front.getLast? = some '\n') ∧ '\n' ∉ lead ∧
    span.start.offset = byteLength (front ++ lead) ∧ span.start.column = lead.length ∧
    snippet.text.take span.start.column = lead
  rows : ∃ slice number pad, span.slice? source = some slice ∧
    number = List.replicate pad ' ' ++ Nat.toDigits 10 (span.start.line + 1) ∧
    ∀ marker, snippet.render marker = String.ofList (
      List.replicate number.length ' ' ++ " |\n".toList ++
      (number ++ " | ".toList ++ snippet.text ++ ['\n']) ++
      (List.replicate number.length ' ' ++ " | ".toList ++
        List.replicate span.start.column ' ' ++ List.replicate (max slice.length 1) marker ++ ['\n']))

end Snippet

/-- The message in full has the snippet right after its head. -/
theorem ReadError.detailed_of_snippet (e : ReadError) {snippet : Snippet}
    (h : Snippet.of? source e.span = some snippet) :
    e.detailed (some source) = s!"error: {e.message}\n  --> {e.location}\n" ++
      snippet.render '^' ++ String.join (e.notes.map (·.render (some source))) := by
  rw [detailed, snippetText, Option.bind_some, h]
  rfl

theorem snippetFits_of_column_le {span : Span} (h : span.start.column ≤ Snippet.indentLimit)
    (source : Option (List Char)) : snippetFits source span = true := by
  rw [snippetFits, Option.all_eq_true]
  intro snippet hsnippet
  obtain ⟨cs, -, hof⟩ := Option.bind_eq_some_iff.mp hsnippet
  obtain ⟨text, -, rfl⟩ := Option.map_eq_some_iff.mp hof
  exact decide_eq_true h

/-- An error can be reported unless one of its spans starts too far to the right. -/
theorem ReadError.report?_eq_some (h : ∀ span ∈ e.spans, span.start.column ≤ Snippet.indentLimit)
    (source : Option (List Char)) : e.report? source = some (e.detailed source) := by
  refine if_pos (Bool.and_eq_true_iff.mpr ⟨?_, List.all_eq_true.mpr fun note hnote => ?_⟩)
  · exact snippetFits_of_column_le (h _ List.mem_cons_self) source
  · rw [Option.all_eq_true]
    intro span hspan
    refine snippetFits_of_column_le (h span (List.mem_cons_of_mem _ ?_)) source
    exact List.mem_filterMap.mpr ⟨note, hnote, hspan⟩

theorem ReadError.detailed_of_report? {source : Option (List Char)} {text : String}
    (h : e.report? source = some text) : e.detailed source = text :=
  Option.some.inj (Option.ite_none_right_eq_some.mp h).2

theorem ReadError.exists_of_report?_eq_none {source : Option (List Char)}
    (h : e.report? source = none) : ∃ span ∈ e.spans, Snippet.indentLimit < span.start.column := by
  by_contra hnone
  push Not at hnone
  rw [ReadError.report?_eq_some hnone] at h
  cases h

/-- Further to the right no mark can be set. -/
theorem ReadError.report?_eq_none {cs : List Char}
    (hline : (lines source)[e.span.start.line]? = some cs)
    (h : Snippet.indentLimit < e.span.start.column) : e.report? (some source) = none := by
  refine if_neg fun hfits => ?_
  have hfit := (Bool.and_eq_true_iff.mp hfits).1
  rw [snippetFits, Option.bind_some, Snippet.of?, hline] at hfit
  exact Nat.not_le.mpr h (of_decide_eq_true hfit)

/-- A brace that closes nothing is refused however many blanks stand before it, but behind too many of
them the error cannot be reported. -/
theorem Document.exists_refused_behind_blanks (n : Nat) (file : Option String) :
    ∃ e, parse (List.replicate n ' ' ++ ['}']) { file } = .error e ∧ e.span.start.column = n ∧
      (Snippet.indentLimit < n → e.report? (some (List.replicate n ' ' ++ ['}'])) = none) := by
  let s := Scanner.start (List.replicate n ' ' ++ ['}']) file
  have hskip : s.skipIgnored =
      { rest := ['}'], file, position := { line := 0, column := n, column16 := n, offset := n } } := by
    have hblanks := Scanner.skipIgnored_blanks n {} file
    simp only [Nat.zero_add] at hblanks
    exact hblanks
  have hsignificant : significant s.rest = ['}'] := by rw [← Scanner.rest_skipIgnored, hskip]
  obtain ⟨e, s', he, hline, hcolumn⟩ : ∃ e s', Operation.read defaultDepth s = .error e s' ∧
      e.span.start.line = 0 ∧ e.span.start.column = n := by
    rw [Operation.read, ReadM.bind_of_ok (Token.peek_of_significant hsignificant), hskip]
    exact ⟨_, _, rfl, rfl, rfl⟩
  have hparse : parse (List.replicate n ' ' ++ ['}']) { file } = .error e := by
    change ReadM.onText (Document.read defaultDepth) (List.replicate n ' ' ++ ['}']) file = .error e
    rw [ReadM.onText, Document.read, ReadM.bind_of_error he]
  have hshown : (lines (List.replicate n ' ' ++ ['}']))[e.span.start.line]? =
      some (List.replicate n ' ' ++ ['}']) := by
    rw [hline, lines_of_not_mem (by simp) (by simp)]
    rfl
  exact ⟨e, hparse, hcolumn, fun hn => e.report?_eq_none hshown (hcolumn ▸ hn)⟩

section Place

variable {before spanned after : List Char} {file : Option String}

/-- Where all carriage returns are parts of line breaks, a span is shown on its line. -/
theorem Snippet.of?_across_of_returnsPaired (h : returnsPaired before = true) :
    Snippet.of? (before ++ (spanned ++ after)) (.across file ⟨before, spanned⟩) =
      if spanned ++ after = [] ∧ lineBefore before = [] then none
      else some
        { number := before.count '\n' + 1, text := lineAround before (spanned ++ after),
          indent := (lineBefore before).length, length := max spanned.length 1 } := by
  have hline := (lineBreaks_eq_count_iff before).2.mpr h
  rw [of?_across, hline, getElem?_lines_count, lastLine_of_returnsPaired h]
  split <;> rfl

/-- Its indentation is then what stands before the span on the line. -/
theorem take_lineAround (h : returnsPaired before = true) (after : List Char) :
    (lineAround before after).take (lineBefore before).length = lineBefore before := by
  have hreturn : '\r' ∉ lineBefore before := by
    rw [← lastLine_of_returnsPaired h]
    exact fun hmem => absurd (List.mem_rtakeWhile_imp hmem) (by decide)
  exact (List.prefix_iff_eq_take.mp (lineBefore_prefix_lineAround hreturn after)).symm

theorem Snippet.aligned_of_returnsPaired (h : returnsPaired before = true) {snippet : Snippet}
    (hsnippet : Snippet.of? (before ++ (spanned ++ after)) (.across file ⟨before, spanned⟩) =
      some snippet) :
    snippet.Aligned (before ++ (spanned ++ after)) (.across file ⟨before, spanned⟩) := by
  have hline : (Span.across file ⟨before, spanned⟩).start.line = before.count '\n' :=
    (lineBreaks_eq_count_iff before).2.mpr h
  have hcolumn : (Span.across file ⟨before, spanned⟩).start.column = (lineBefore before).length :=
    congrArg List.length (lastLine_of_returnsPaired h)
  obtain ⟨front, hfront, hends⟩ := exists_front before
  have hoffset : (Span.across file ⟨before, spanned⟩).start.offset =
      byteLength (front ++ lineBefore before) := congrArg byteLength hfront
  have hmarks : (Span.across file ⟨before, spanned⟩).Marks (before ++ (spanned ++ after))
      ⟨before, spanned⟩ := Span.across_marks file ⟨after, List.append_assoc _ _ _⟩
  rw [of?_across_of_returnsPaired h, ite_eq_iff] at hsnippet
  obtain ⟨-, hnone⟩ | ⟨-, hsome⟩ := hsnippet
  · cases hnone
  have htext : snippet.text = lineAround before (spanned ++ after) := by
    rw [← Option.some.inj hsome]
  constructor
  · refine ⟨front, lineBefore before, spanned ++ after, ?_, hends, newline_not_mem_lineBefore _,
      hoffset, hcolumn, ?_⟩
    · rw [← List.append_assoc front, ← hfront]
    · rw [hcolumn, htext, take_lineAround h]
  · refine ⟨spanned, snippet.numberColumn, snippet.gutter - snippet.digits.length, hmarks.slice, ?_, ?_⟩
    · rw [hline, numberColumn, digits, ← Option.some.inj hsome]
    · intro marker
      rw [render_eq, hcolumn, ← Option.some.inj hsome]

end Place

/-- With line feeds for line breaks, alone or after carriage returns, the snippets of an error are
aligned with the source. A span at the very end of a text that has no further line there is the only one
without a snippet. -/
theorem snippets_aligned (source : List Char) (hreturns : returnsPaired source = true)
    (options : ReadOptions) (e : ReadError)
    (he : Document.parse source options = .error e ∨ Atom.parse source options = .error e ∨
      TypeRef.parse source options = .error e) (span : Span) (hspan : span ∈ e.spans) :
    (Snippet.of? source span = none ↔ span.start.offset = byteLength source ∧
      (source = [] ∨ source.getLast? = some '\n')) ∧
    ∀ snippet, Snippet.of? source span = some snippet → snippet.Aligned source span := by
  obtain ⟨before, text, after, rfl, hclean, rfl⟩ := exists_stretch_of_parse_error he hspan
  have hbefore := returnsPaired_of_append hclean hreturns
  refine ⟨?_, fun snippet => Snippet.aligned_of_returnsPaired hbefore⟩
  have hend : (Span.across options.file ⟨before, text⟩).start.offset =
      byteLength (before ++ (text ++ after)) ↔ text ++ after = [] := by
    rw [byteLength_append, ← byteLength_eq_zero_iff]
    exact Nat.left_eq_add
  rw [Snippet.of?_across_of_returnsPaired hbefore, hend]
  simp only [ite_eq_left_iff, reduceCtorEq, imp_false, not_not]
  refine and_congr_right fun hnil => ?_
  rw [hnil, List.append_nil]
  exact lineBefore_eq_nil_iff

theorem snippets_aligned_unclosed_body :
    ∃ e, Document.parse "query\r\n \x7b\r\n é".toList = .error e ∧ e.spans.length = 2 ∧
      ∀ span ∈ e.spans, ∃ snippet, Snippet.of? "query\r\n \x7b\r\n é".toList span = some snippet ∧
        snippet.Aligned "query\r\n \x7b\r\n é".toList span := by
  obtain ⟨e, he, hlength⟩ : ∃ e, Document.parse "query\r\n \x7b\r\n é".toList = .error e ∧
      e.spans.length = 2 := ⟨_, rfl, rfl⟩
  refine ⟨e, he, hlength, fun span hspan => ?_⟩
  obtain ⟨hnone, haligned⟩ := snippets_aligned _ (by decide) {} e (.inl he) span hspan
  cases hsnippet : Snippet.of? "query\r\n \x7b\r\n é".toList span with
  | none => exact absurd (hnone.mp hsnippet).2 (by decide)
  | some snippet => exact ⟨snippet, rfl, haligned snippet hsnippet⟩

/-- On a text whose carriage returns may stand alone, the line number of an error is that of its line
exactly if none of those before it does. Then the snippet shows that line. -/
theorem Document.snippet_shows_line (source : List Char) (options : ReadOptions) (e : ReadError)
    (he : parse source options = .error e) (hstart : e.span.start.offset < byteLength source) :
    ∃ before c after, source = before ++ c :: after ∧
      e.span.start.offset = byteLength before ∧
      (lines source)[before.count '\n']? = some (lineAround before (c :: after)) ∧
      before.count '\n' ≤ e.span.start.line ∧
      (e.span.start.line = before.count '\n' ↔ returnsPaired before = true) ∧
      (returnsPaired before = true → ∃ snippet head tail, Snippet.of? source e.span = some snippet ∧
        snippet.text = lineAround before (c :: after) ∧
        e.detailed (some source) = head ++ snippet.render '^' ++ tail ∧
        ((∀ span ∈ e.spans, span.start.column ≤ Snippet.indentLimit) →
          e.report? (some source) = some (head ++ snippet.render '^' ++ tail))) := by
  obtain ⟨before, text, after, rfl, -, hspan⟩ :=
    exists_stretch_of_parse_error (.inl he) (List.mem_cons_self : e.span ∈ e.spans)
  have hoffset : e.span.start.offset = byteLength before := by rw [hspan]; rfl
  obtain ⟨c, rest, hrest⟩ : ∃ c rest, text ++ after = c :: rest := by
    refine List.exists_cons_of_ne_nil fun hnil => ?_
    rw [hoffset, hnil, List.append_nil] at hstart
    exact Nat.lt_irrefl _ hstart
  have hline : (lines (before ++ (text ++ after)))[before.count '\n']? =
      some (lineAround before (text ++ after)) := by
    rw [getElem?_lines_count, if_neg (by simp [hrest])]
  have hnumber : e.span.start.line = lineBreaks before := by rw [hspan]; rfl
  obtain ⟨hle, hnumber_eq⟩ := lineBreaks_eq_count_iff before
  refine ⟨before, c, rest, by rw [hrest], hoffset, hrest ▸ hline, hnumber ▸ hle, hnumber ▸ hnumber_eq,
    fun hreturns => ?_⟩
  obtain ⟨snippet, hsnippet, htext⟩ :
      ∃ snippet, Snippet.of? (before ++ (text ++ after)) e.span = some snippet ∧
        snippet.text = lineAround before (text ++ after) := by
    rw [hspan, Snippet.of?_across_of_returnsPaired hreturns, if_neg (by simp [hrest])]
    exact ⟨_, rfl, rfl⟩
  have hdetailed := e.detailed_of_snippet hsnippet
  refine ⟨snippet, _, _, hsnippet, hrest ▸ htext, hdetailed, fun hcolumns => ?_⟩
  rw [ReadError.report?_eq_some hcolumns, hdetailed]

theorem Document.snippet_shows_line_paired_return :
    ∃ (e : ReadError) (snippet : Snippet) (head tail : String), parse "a\r\n@\nb".toList = .error e ∧
      e.span.start.offset < byteLength "a\r\n@\nb".toList ∧ snippet.text = ['@'] ∧
      e.detailed (some "a\r\n@\nb".toList) = head ++ snippet.render '^' ++ tail := by
  obtain ⟨e, he, hoffset⟩ : ∃ e, parse "a\r\n@\nb".toList = .error e ∧
      e.span.start.offset = 3 := ⟨_, rfl, rfl⟩
  have hstart : e.span.start.offset < byteLength "a\r\n@\nb".toList := by
    rw [hoffset]
    decide
  obtain ⟨before, c, after, hsource, hbefore, -, -, -, hshown⟩ :=
    Document.snippet_shows_line _ {} e he hstart
  have hrest : c :: after = "@\nb".toList := by
    have hdrop := dropBytes?_byteLength before (c :: after)
    rw [← hsource, ← hbefore, hoffset] at hdrop
    exact (Option.some.inj hdrop).symm
  obtain rfl : before = "a\r\n".toList := by
    rw [hrest] at hsource
    exact (List.append_cancel_right (by rw [← hsource]; rfl)).symm
  rw [hrest] at hshown
  obtain ⟨snippet, head, tail, -, htext, hdetailed, -⟩ := hshown rfl
  exact ⟨e, snippet, head, tail, he, hstart, htext, hdetailed⟩

/-- The line feed here ends the first line that is shown, but the carriage return ends the first line
that is counted. -/
theorem Document.snippet_past_line_lone_return :
    ∃ e, parse "a\r@\nb".toList = .error e ∧ e.span.start.offset = 2 ∧
      dropBytes? 2 "a\r@\nb".toList = some "@\nb".toList ∧
      lines "a\r@\nb".toList = ["a\r@".toList, "b".toList] ∧
      (Snippet.of? "a\r@\nb".toList e.span).map (·.text) = some ['b'] ∧
      e.detailed (some "a\r@\nb".toList) =
        "error: directives on operation definitions are not supported yet\n" ++
          "  --> <input>:2:1\n   |\n 2 | b\n   | ^\n" := by
  refine ⟨_, rfl, rfl, rfl, rfl, rfl, ?_⟩
  decide

end QueryDoc
