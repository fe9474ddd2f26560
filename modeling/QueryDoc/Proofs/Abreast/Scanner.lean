import QueryDoc.Proofs.Abreast.Basic

/-! Moving two scanners abreast. A move that ends before the same rest on both sides leads to the same
place again, and what is passed over on the second side is what is passed over on the first side, with
its line breaks written in the other way. -/

namespace QueryDoc

theorem endsRun_significant (cs : List Char) : EndsRun isLineEnd (significant cs) := by
  cases hs : significant cs with
  | nil => exact .nil _
  | cons c rest =>
    exact endsRun_cons.mpr (isLineEnd_of_isSignificant (isSignificant_of_significant hs))

theorem Scanner.endsRun_skipIgnored (s : Scanner) : EndsRun isLineEnd s.skipIgnored.rest :=
  s.rest_skipIgnored ▸ endsRun_significant s.rest

namespace Respelling

open Scanner

variable {R : Respelling} {passed now text : List Char} {s s' t t' : Scanner}

theorem Beside.rest (h : R.Beside passed s s') : s'.rest = R.lineBreak.respell s.rest := by
  have hh := h.there.split
  rw [← h.here.split, LineBreak.respell_append] at hh
  exact List.append_cancel_left hh

theorem At.now_eq (h : R.At passed s s') (ht : R.At now t t') (hs : s.rest = text ++ t.rest) :
    now = passed ++ text := by
  have hh := ht.here.split.trans h.here.split.symm
  rw [hs, ← List.append_assoc] at hh
  exact List.append_cancel_right hh

theorem At.exists_text (h : R.At passed s s') (ht : R.At now t t') (hnow : passed <+: now) :
    ∃ text, now = passed ++ text ∧ s.rest = text ++ t.rest := by
  obtain ⟨text, rfl⟩ := hnow
  have hh := h.here.split.trans ht.here.split.symm
  rw [List.append_assoc] at hh
  exact ⟨text, rfl, List.append_cancel_left hh⟩

theorem At.length_le (h : R.At passed s s') (ht : R.At now t t') (hnow : passed <+: now) :
    t.rest.length ≤ s.rest.length := by
  obtain ⟨text, -, hs⟩ := h.exists_text ht hnow
  rw [hs, List.length_append]
  exact Nat.le_add_left _ _

theorem At.length_le_there (h : R.At passed s s') : s.rest.length ≤ s'.rest.length :=
  h.rest ▸ R.lineBreak.length_le_length_respell s.rest

theorem Beside.advanceBy (h : R.Beside passed s s') {m n : Nat}
    (hs : s.rest = text ++ (s.advanceBy m).rest)
    (hrest : (s'.advanceBy n).rest = R.lineBreak.respell (s.advanceBy m).rest) :
    R.Beside (passed ++ text) (s.advanceBy m) (s'.advanceBy n) := by
  have hs' : s'.rest = R.lineBreak.respell text ++ (s'.advanceBy n).rest := by
    rw [h.rest, hs, LineBreak.respell_append, hrest]
  have hthere := h.there.advanceBy_of_split hs'
  rw [← LineBreak.respell_append] at hthere
  exact ⟨h.here.advanceBy_of_split hs, hthere, (file_advanceBy s m).trans h.file,
    (file_advanceBy s' n).trans h.file'⟩

theorem At.peek? (h : R.At passed s s') (hs : EndsRun isLineEnd s.rest) : s'.peek? = s.peek? := by
  rw [Scanner.peek?, h.rest, Scanner.peek?]
  cases hrest : s.rest with
  | nil => rw [LineBreak.respell_nil]
  | cons c cs =>
    have hc : isLineEnd c = false := endsRun_cons.mp (hrest ▸ hs)
    rw [LineBreak.respell_cons (LineBreak.ne_newline_of_isLineEnd hc), List.head?_cons,
      List.head?_cons]

theorem At.skipIgnored (h : R.At passed s s') :
    ∃ now, passed <+: now ∧ R.At now s.skipIgnored s'.skipIgnored := by
  obtain ⟨text, htext⟩ := (ignored_significant s.rest).suffix
  have hs : s.rest = text ++ s.skipIgnored.rest := by rw [rest_skipIgnored, htext]
  have hrest : s'.skipIgnored.rest = R.lineBreak.respell s.skipIgnored.rest := by
    rw [rest_skipIgnored, h.rest, LineBreak.significant_respell, rest_skipIgnored]
  exact ⟨passed ++ text, List.prefix_append _ _, h.advanceBy hs hrest,
    s.endsRun_skipIgnored.cleanCut _⟩

theorem Beside.advance (h : R.Beside passed s s') {c : Char} {cs : List Char}
    (hs : s.rest = c :: cs) (hc : c ≠ '\n') :
    R.Beside (passed ++ [c]) s.advance s'.advance := by
  have hadvance : s.advance.rest = cs := by rw [rest_advance, hs, List.tail_cons]
  have hrest : s'.advance.rest = R.lineBreak.respell s.advance.rest := by
    rw [rest_advance, h.rest, hs, LineBreak.respell_cons hc, List.tail_cons, hadvance]
  exact h.advanceBy (m := 1) (n := 1) (by rw [hs]; exact congrArg (c :: ·) hadvance.symm) hrest

/-- A line feed stands abreast of a whole line break. -/
theorem Beside.advance_newline (h : R.Beside passed s s') {cs : List Char}
    (hs : s.rest = '\n' :: cs) :
    R.Beside (passed ++ ['\n']) s.advance (s'.advanceBy R.lineBreak.chars.length) := by
  have hadvance : s.advance.rest = cs := by rw [rest_advance, hs, List.tail_cons]
  have hrest : (s'.advanceBy R.lineBreak.chars.length).rest =
      R.lineBreak.respell s.advance.rest := by
    rw [rest_advanceBy, h.rest, hs, LineBreak.respell_newline, List.drop_left, hadvance]
  exact h.advanceBy (m := 1) (by rw [hs]; exact congrArg ('\n' :: ·) hadvance.symm) hrest

section Run

variable {p : Char → Bool}

theorem At.run (h : R.At passed s s') (hp : ∀ c, isLineEnd c = true → p c = p '\n') :
    s'.run p = R.lineBreak.respell (s.run p) := by
  rw [Scanner.run, h.rest, LineBreak.takeWhile_respell hp, Scanner.run]

theorem isLineEnd_of_mem_run (hp : ∀ c, isLineEnd c = true → p c = false) :
    ∀ c ∈ s.run p, isLineEnd c = false := by
  intro c hc
  have hh := List.mem_takeWhile_imp hc
  refine Bool.eq_false_iff.mpr fun hend => ?_
  rw [hp c hend] at hh
  cases hh

theorem At.skipRun (h : R.At passed s s') (hp : ∀ c, isLineEnd c = true → p c = p '\n') :
    R.At (passed ++ s.run p) (s.skipRun p) (s'.skipRun p) := by
  have hrest : (s'.skipRun p).rest = R.lineBreak.respell (s.skipRun p).rest := by
    rw [rest_skipRun, h.rest, LineBreak.dropWhile_respell hp, rest_skipRun]
  have hsplit := (run_append_rest_skipRun s p).symm
  refine ⟨h.advanceBy hsplit hrest, ?_⟩
  -- Either no line end is passed over, or none comes next.
  cases hnew : p '\n' with
  | false =>
    have hline := isLineEnd_of_mem_run (s := s) fun c hc => (hp c hc).trans hnew
    exact CleanCut.append (hsplit ▸ h.clean) hline
  | true =>
    have hends : EndsRun p (s.skipRun p).rest := s.rest_skipRun p ▸ endsRun_dropWhile p s.rest
    intro _ hhead
    cases hnew.symm.trans (hends '\n' hhead)

/-- A run of characters that end no line is the same on both sides. -/
theorem At.run_eq (h : R.At passed s s') (hp : ∀ c, isLineEnd c = true → p c = false) :
    s'.run p = s.run p := by
  have hsame : ∀ c, isLineEnd c = true → p c = p '\n' :=
    fun c hc => (hp c hc).trans (hp '\n' rfl).symm
  rw [h.run hsame, LineBreak.respell_eq_self (isLineEnd_of_mem_run hp)]

end Run

section Spans

theorem At.clean_of_split (h : R.At passed s s') :
    ∀ after, passed ++ after = R.source → CleanCut passed after := by
  intro after hafter
  rw [List.append_cancel_left (hafter.trans h.here.split.symm)]
  exact h.clean

theorem At.over_spanFrom (h : R.At passed s s') (ht : R.At now t t') (hs : s.rest = text ++ t.rest)
    (htext : ∀ c ∈ text, isLineEnd c = false) :
    R.Over ⟨passed, text⟩ (t.spanFrom s.position) (t'.spanFrom s'.position) := by
  obtain rfl := h.now_eq ht hs
  refine ⟨⟨t.rest, ht.here.split⟩, h.clean_of_split, ?_, ?_⟩
  · rw [spanFrom, Span.across, Position.pastAll_ofPrefix _ htext, h.here.position, ht.here.position,
      ht.file]
  · have hthere := ht.there.position
    rw [LineBreak.respell_append, LineBreak.respell_eq_self htext] at hthere
    rw [spanFrom, Span.across, Position.pastAll_ofPrefix _ htext, h.there.position, hthere, ht.file']

theorem At.over_nextSpan (h : R.At passed s s') {c : Char} {cs : List Char} (hs : s.rest = c :: cs) :
    R.Over ⟨passed, [c]⟩ s.nextSpan s'.nextSpan := by
  have hsplit : passed ++ [c] ++ cs = R.source := by
    rw [← h.here.split, hs, List.append_assoc, List.singleton_append]
  refine ⟨⟨cs, hsplit⟩, h.clean_of_split, ?_, ?_⟩
  · rw [h.here.nextSpan_eq hs, h.file]
  · by_cases hc : c = '\n'
    · obtain ⟨d, ds, hds, hd⟩ := R.lineBreak.chars_eq_cons
      have hrest : s'.rest = d :: (ds ++ R.lineBreak.respell cs) := by
        rw [h.rest, hs, hc, LineBreak.respell_newline, hds, List.cons_append]
      rw [nextSpan_cons hrest, Position.past_lineEnd _ hd (show isLineEnd c = true from hc ▸ rfl),
        h.there.position, h.file']
      rfl
    · have hrest : s'.rest = c :: R.lineBreak.respell cs := by
        rw [h.rest, hs, LineBreak.respell_cons hc]
      rw [nextSpan_cons hrest, h.there.position, h.file']
      rfl

theorem At.over_nextSpan_end (h : R.At passed s s') (hs : s.rest = []) :
    R.Over ⟨R.source, []⟩ s.nextSpan s'.nextSpan := by
  have hpassed : passed = R.source := by rw [← h.here.split, hs, List.append_nil]
  have hs' : s'.rest = [] := by rw [h.rest, hs, LineBreak.respell_nil]
  have hspan : R.Over ⟨passed, []⟩ (s.spanFrom s.position) (s'.spanFrom s'.position) :=
    h.over_spanFrom h rfl (by simp)
  rw [nextSpan, hs, nextSpan, hs', ← hpassed]
  exact hspan

end Spans

section Errors

theorem At.endOfInput (h : R.At passed s s') (hs : s.rest = []) (expected : List String) :
    R.SameFault (s.endOfInput expected) (s'.endOfInput expected) :=
  .of_over (h.over_nextSpan_end hs) (h.over_nextSpan_end hs).marks

theorem At.unexpected (h : R.At passed s s') (hs : EndsRun isLineEnd s.rest)
    (expected : List String) : R.SameFault (s.unexpected expected) (s'.unexpected expected) := by
  rw [Scanner.unexpected, Scanner.unexpected, h.peek? hs, Scanner.peek?]
  cases hrest : s.rest with
  | nil => exact h.endOfInput hrest expected
  | cons c cs =>
    have hspan := h.over_nextSpan hrest
    exact .of_over hspan (.inl ⟨passed, hspan.marks⟩)

theorem At.unclosed (h : R.At passed s s') (hs : s.rest = []) {delimiter : String}
    {before : List Char} {opening opening' : Span}
    (hopening : R.Over ⟨before, delimiter.toList⟩ opening opening') :
    R.SameFault (s.unclosed delimiter opening) (s'.unclosed delimiter opening') :=
  .of_over_noted (h.over_nextSpan_end hs) hopening
    ⟨(h.over_nextSpan_end hs).marks, before, hopening.marks⟩

end Errors

end Respelling

end QueryDoc
