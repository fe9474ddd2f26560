import QueryDoc.Proofs.Document.Lines
import QueryDoc.Proofs.Session.Assembly

/-! What a session has written is input for another one. The documents of a session come from lines
that are not blank, so they are written on such lines, and a session that reads them again writes them
as if it had read the first input. -/

namespace QueryDoc.Session

open Text

variable {style : Style} {s : Session} {line : List Char}

theorem joined_cons {lines : List (List Char)} (line : List Char) (h : lines ≠ []) :
    joined (line :: lines) = line ++ '\n' :: joined lines := by
  have hh := joined_append (List.cons_ne_nil line []) h
  simpa [joined, separated_cons] using hh

theorem joined_singleton (line : List Char) : joined [line] = line := by
  simp [joined, separated_cons]

theorem ended_eq_joined {lines : List (List Char)} (h : lines ≠ []) :
    ended lines = joined lines ++ ['\n'] := by
  induction lines with
  | nil => exact absurd rfl h
  | cons line lines ih =>
    by_cases hnil : lines = []
    · simp [hnil, ended, joined_singleton]
    · have hh := ih hnil
      rw [ended] at hh
      rw [ended, List.flatMap_cons, hh, joined_cons line hnil]
      simp

/-- Lines that a session may hold: none of them is blank. -/
structure IsHeld (line : List Char) : Prop where
  unbroken : '\n' ∉ line
  noReturn : line.getLast? ≠ some '\r'
  notBlank : ¬IsBlank line

/-- The last line of a document may be anything. -/
theorem tight_joined {held : List (List Char)} (hheld : ∀ line ∈ held, IsHeld line)
    (hline : '\n' ∉ line) : Tight ('\n' :: joined (held ++ [line])) := by
  induction held with
  | nil =>
    rw [List.nil_append, joined_singleton]
    exact tight_newline_cons hline
  | cons first held ih =>
    obtain ⟨hfirst, hheld⟩ := List.forall_mem_cons.mp hheld
    rw [List.cons_append, joined_cons first (by simp)]
    exact Tight.cons_line hfirst.unbroken hfirst.noReturn hfirst.notBlank (ih hheld)

theorem exists_joined (text : List Char) :
    ∃ lines, lines ≠ [] ∧ joined lines = text ∧ ∀ line ∈ lines, '\n' ∉ line := by
  induction text with
  | nil => exact ⟨[[]], by simp, rfl, by simp⟩
  | cons c text ih =>
    obtain ⟨ls, hne, rfl, hls⟩ := ih
    obtain ⟨first, ls, rfl⟩ := List.exists_cons_of_ne_nil hne
    by_cases hc : c = '\n'
    · refine ⟨[] :: first :: ls, by simp, ?_, List.forall_mem_cons.mpr ⟨List.not_mem_nil, hls⟩⟩
      rw [joined_cons [] (List.cons_ne_nil _ _), hc, List.nil_append]
    · obtain ⟨hfirst, hls⟩ := List.forall_mem_cons.mp hls
      refine ⟨(c :: first) :: ls, by simp, ?_, List.forall_mem_cons.mpr ⟨?_, hls⟩⟩
      · simp [joined, separated_cons]
      · simp [Ne.symm hc, hfirst]

/-- What stands around a line. -/
theorem exists_context (front back : List (List Char)) (line : List Char) :
    ∃ before after, joined (front ++ line :: back) = before ++ (line ++ after) ∧
      (before = [] ∨ ∃ cs, before = cs ++ ['\n']) ∧ (after = [] ∨ ∃ cs, after = '\n' :: cs) := by
  have hback : ∃ after, joined (line :: back) = line ++ after ∧
      (after = [] ∨ ∃ cs, after = '\n' :: cs) := by
    by_cases hnil : back = []
    · exact ⟨[], by rw [hnil, joined_singleton, List.append_nil], .inl rfl⟩
    · exact ⟨_, joined_cons line hnil, .inr ⟨_, rfl⟩⟩
  obtain ⟨after, hafter, hline⟩ := hback
  by_cases hnil : front = []
  · exact ⟨[], after, by rw [hnil, List.nil_append, hafter, List.nil_append], .inl rfl, hline⟩
  · refine ⟨joined front ++ ['\n'], after, ?_, .inr ⟨_, rfl⟩, hline⟩
    rw [joined_append hnil (List.cons_ne_nil _ _), hafter]
    simp

theorem isHeld_of_solid {lines : List (List Char)} (h : Solid (joined lines))
    (hlines : ∀ line ∈ lines, '\n' ∉ line) : ∀ line ∈ lines, IsHeld line := by
  intro line hline
  obtain ⟨front, back, rfl⟩ := List.append_of_mem hline
  obtain ⟨before, after, hcontext, hbefore, hafter⟩ := exists_context front back line
  rw [hcontext] at h
  exact ⟨hlines line hline, h.getLast?_ne_return hafter, h.trim_ne_nil hbefore hafter⟩

/-- What a document is written as is made of lines that a session holds up to the last one. -/
theorem exists_documentLines (style : Style) {source : List Char} {d : Document}
    (hsource : Tight source) (hparse : Document.parse source = .ok d) :
    ∃ lines, DocumentLines lines d ∧ joined lines = d.chars style := by
  have hwell := Document.wellFormed_of_parse hparse
  have hsolid := Document.solid_chars style (Document.parse_ok_iff.mp hparse).1 hsource
  obtain ⟨lines, hne, hjoined, hlines⟩ := exists_joined (d.chars style)
  have hheld := isHeld_of_solid (hjoined ▸ hsolid) hlines
  refine ⟨lines, ⟨hlines, fun line hline => (hheld line hline).noReturn,
    fun line hline => (hheld line hline).notBlank, ?_, ?_⟩, hjoined⟩
  · rw [hjoined]
    exact Document.parse_chars_of_wellFormed hwell style
  · rintro front back e rfl hback hfront
    by_cases hnil : front = []
    · subst hnil
      cases hfront
    · obtain ⟨op, hd, hop⟩ := hwell.single
      have hspells := spells_operation style hop []
      have hchars : op.chars style ++ [] = joined front ++ '\n' :: joined back := by
        rw [List.append_nil, ← joined_append hnil hback, hjoined, Document.chars, hd]
        simp [separated_cons]
      rw [hchars] at hspells
      exact Document.parse_ne_ok_of_spells hspells {} e hfront

/-- Documents as a session writes them. -/
def written (style : Style) (documents : List Document) : List Char :=
  documents.flatMap fun d => d.chars style ++ ['\n']

/-- A document that has been read from a tight text. -/
def IsAssembled (d : Document) : Prop :=
  ∃ source, Tight source ∧ Document.parse source = .ok d

/-- What comes of a line, whatever the style is: the session afterwards, the documents that are written,
and whether the program breaks down. -/
structure YieldsAt (s : Session) (line : List Char) (t : Session) (documents : List Document)
    (brokenDown : Bool) : Prop where
  next : ∀ style, (s.step style line).1 = t
  output : ∀ style, (happening (s.step style line).2).flatMap Event.output = written style documents
  brokenDown : ∀ style, (s.step style line).2.any Event.isBreakdown = brokenDown
  assembled : ∀ d ∈ documents, IsAssembled d

theorem YieldsAt.of_step {t : Session} {events : Style → List Event} {ds : List Document}
    {brokenDown : Bool} (hstep : ∀ style, s.step style line = (t, events style))
    (houtput : ∀ style, (happening (events style)).flatMap Event.output = written style ds)
    (hbroken : ∀ style, (events style).any Event.isBreakdown = brokenDown)
    (hds : ∀ d ∈ ds, IsAssembled d) : s.YieldsAt line t ds brokenDown where
  next style := by rw [hstep]
  output style := by rw [hstep, houtput]
  brokenDown style := by rw [hstep, hbroken]
  assembled := hds

/-- The documents that a session writes when it takes in some lines, whatever the style is. -/
structure Yields (s : Session) (lines : List (List Char)) (documents : List Document) : Prop where
  output : ∀ style, (happening (s.through style lines).2).flatMap Event.output =
    written style documents
  assembled : ∀ d ∈ documents, IsAssembled d

/-- The documents of further lines are only written if the program has not broken down. -/
theorem YieldsAt.yields_cons {lines : List (List Char)} {t : Session} {ds es : List Document}
    {brokenDown : Bool} (h : s.YieldsAt line t ds brokenDown) (h' : t.Yields lines es) :
    s.Yields (line :: lines) (if brokenDown then ds else ds ++ es) := by
  cases brokenDown with
  | true =>
    refine ⟨fun style => ?_, h.assembled⟩
    rw [through, happening_append_of_any (h.brokenDown style), h.output, if_pos rfl]
  | false =>
    refine ⟨fun style => ?_, List.forall_mem_append.mpr ⟨h.assembled, h'.assembled⟩⟩
    have hfirst := h.output style
    rw [happening_eq_self (h.brokenDown style)] at hfirst
    rw [through, happening_append_of_any_eq_false (h.brokenDown style), List.flatMap_append, hfirst,
      h.next, h'.output, if_neg Bool.false_ne_true, written, written, written, List.flatMap_append]

theorem any_isBreakdown_evaluationEvents (text : List Char) :
    (evaluationEvents text).any Event.isBreakdown = false :=
  any_isBreakdown_of_noReport fun _ => not_report_mem_evaluationEvents text

/-- After a line a session holds that one too, or holds nothing, or passes over it. -/
theorem Holds.exists_yieldsAt {held : List (List Char)} (h : s.Holds held)
    (hheld : ∀ l ∈ held, IsHeld l) (hline : '\n' ∉ line) (hreturn : line.getLast? ≠ some '\r') :
    ∃ t held' ds brokenDown, t.Holds held' ∧ (∀ l ∈ held', IsHeld l) ∧
      s.YieldsAt line t ds brokenDown := by
  have hstep := fun style => h.step_eq style line
  by_cases hskip : (held.isEmpty && (trim line).isEmpty) = true
  · simp only [if_pos hskip] at hstep
    exact ⟨s, held, [], false, h, hheld, .of_step hstep (fun _ => rfl) (fun _ => rfl) (by simp)⟩
  simp only [if_neg hskip] at hstep
  cases hparse : Document.parse (joined (held ++ [line])) with
  | ok d =>
    have hassembled : IsAssembled d :=
      ⟨_, (tight_joined hheld hline).mono (List.suffix_cons _ _).isInfix, hparse⟩
    simp only [hparse] at hstep
    have hbroken : ∀ style, (evaluationEvents (joined (held ++ [line])) ++
        [Event.rendering (d.chars style)]).any Event.isBreakdown = false := fun style => by
      rw [List.any_append, any_isBreakdown_evaluationEvents]
      rfl
    refine ⟨_, [], [d], false, holds_nil, by simp, .of_step hstep (fun style => ?_) hbroken
      (by simpa using hassembled)⟩
    rw [happening_eq_self (hbroken style)]
    simp [output_evaluationEvents, Event.output, written]
  | error e =>
    simp only [hparse] at hstep
    by_cases hwait : (e.isIncomplete && !(trim line).isEmpty) = true
    · have hblank : ¬IsBlank line := by
        simpa [IsBlank] using (Bool.and_eq_true_iff.mp hwait).2
      simp only [if_pos hwait] at hstep
      refine ⟨{ s with pending := joined (held ++ [line]) }, held ++ [line], [], false, ⟨rfl, ?_⟩, ?_,
        .of_step hstep (fun _ => flatMap_happening_eq_nil (output_evaluationEvents _))
          (fun _ => any_isBreakdown_evaluationEvents _) (by simp)⟩
      · exact List.forall_mem_append.mpr ⟨h.notBlank, by simpa using hblank⟩
      · exact List.forall_mem_append.mpr ⟨hheld, by simpa using ⟨hline, hreturn, hblank⟩⟩
    · simp only [if_neg hwait] at hstep
      refine ⟨_, [], [], _, holds_nil, by simp, .of_step hstep (fun _ => flatMap_happening_eq_nil ?_)
        (fun _ => rfl) (by simp)⟩
      simp [output_evaluationEvents, Event.output]

theorem Holds.exists_yields {held lines : List (List Char)} (h : s.Holds held)
    (hheld : ∀ l ∈ held, IsHeld l)
    (hlines : ∀ line ∈ lines, '\n' ∉ line ∧ line.getLast? ≠ some '\r') :
    ∃ ds, s.Yields lines ds := by
  induction lines generalizing s held with
  | nil => exact ⟨[], fun _ => rfl, by simp⟩
  | cons line lines ih =>
    obtain ⟨⟨hline, hreturn⟩, hlines⟩ := List.forall_mem_cons.mp hlines
    obtain ⟨t, held', ds, brokenDown, ht, hheld', hfirst⟩ := h.exists_yieldsAt hheld hline hreturn
    obtain ⟨es, hrest⟩ := ih ht hheld' hlines
    exact ⟨_, hfirst.yields_cons hrest⟩

/-- Documents that have been written in one style are lines that are written in another. -/
theorem exists_lines_of_written (first : Style) {ds : List Document}
    (hds : ∀ d ∈ ds, IsAssembled d) :
    ∃ lines, ended lines = written first ds ∧
      (∀ line ∈ lines, '\n' ∉ line ∧ line.getLast? ≠ some '\r') ∧
      ∀ (second : Style) (s : Session), s.Holds [] → s.Writes second lines (written second ds) := by
  induction ds with
  | nil => exact ⟨[], rfl, by simp, fun _ s h => h.writes_nil⟩
  | cons d ds ih =>
    obtain ⟨⟨source, hsource, hparse⟩, hds⟩ := List.forall_mem_cons.mp hds
    obtain ⟨lines, hlines, hjoined⟩ := exists_documentLines first hsource hparse
    obtain ⟨more, hmore, hunbroken, hwrites⟩ := ih hds
    refine ⟨lines ++ more, ?_, List.forall_mem_append.mpr ⟨fun line hline => ?_, hunbroken⟩, ?_⟩
    · rw [ended, List.flatMap_append, ← ended, ← ended, ended_eq_joined hlines.ne_nil, hjoined, hmore,
        written, written, List.flatMap_cons]
    · exact ⟨hlines.unbroken line hline, hlines.noReturn line hline⟩
    · intro second s h
      exact (h.writes_document hlines rfl hlines.ne_nil).append fun t ht => hwrites second t ht

/-- What a session has written, in whatever style and with whatever errors beside it, is written again
by another one without any error, as if that one had taken in the first input. No line of that input
must end in a carriage return, apart from the one that belongs to a line break. -/
theorem run_stdout_run (text : List Char) (first second : Style)
    (hreturn : ∀ line ∈ lines text, line.getLast? ≠ some '\r') :
    let out := (run { style := first, prompts := false } (Utf8.encode text)).stdout
    let again := run { style := second, prompts := false } (Utf8.encode out.toList)
    again.stderr = "" ∧ again.succeeded = true ∧
      again.stdout = (run { style := second, prompts := false } (Utf8.encode text)).stdout := by
  have hempty : Holds {} [] := holds_nil
  obtain ⟨ds, hyields⟩ : ∃ ds, Yields {} (lines text) ds :=
    hempty.exists_yields (by simp) fun line hline =>
      ⟨newline_not_mem_of_mem_lines hline, hreturn line hline⟩
  obtain ⟨ls, hended, hls, hwrites⟩ := exists_lines_of_written first hyields.assembled
  have hlines : lines (written first ds) = ls := by
    have hsame : ls.map dropReturn = ls.map id := List.map_congr_left fun line hline =>
      dropReturn_eq_self (hls line hline).2
    rw [← hended, lines_ended fun line hline => (hls line hline).1, hsame, List.map_id]
  have hrerun := hwrites second {} hempty
  rw [← hlines] at hrerun
  obtain ⟨hout, herr, hok⟩ := hrerun.run_eq
  dsimp only
  rw [stdout_run, hyields.output, String.toList_ofList, stdout_run second text, hyields.output]
  exact ⟨herr, hok, hout⟩

theorem run_stdout_run_after_error :
    let text := "\x7d\r\nquery Q \x7b\na # b\n\x7d\n".toList
    let out := (run { style := .pretty, prompts := false } (Utf8.encode text)).stdout
    let again := run { style := .minified, prompts := false } (Utf8.encode out.toList)
    again.stderr = "" ∧ again.succeeded = true ∧
      again.stdout = (run { style := .minified, prompts := false } (Utf8.encode text)).stdout :=
  run_stdout_run "\x7d\r\nquery Q \x7b\na # b\n\x7d\n".toList .pretty .minified (by decide)

end QueryDoc.Session
