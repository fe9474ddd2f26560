import QueryDoc.Proofs.Session.Input
import QueryDoc.Proofs.Session.Reports
import QueryDoc.Proofs.Text.Trim

/-! What an interactive session writes. The lines of a document are held until the last of them has
come, because every shorter text of its lines only lacks its end. Then the document is written once,
and the session is as it was before, so documents may follow one another with blank lines between
them. -/

namespace QueryDoc.Session

open Text

variable {style : Style} {s : Session} {line : List Char}

/-- The session after some lines, and what happens on the way if nothing is prompted. -/
def through (style : Style) (s : Session) : List (List Char) → Session × List Event
  | [] => (s, [])
  | line :: lines =>
    let (next, events) := s.step style line
    let (last, more) := through style next lines
    (last, events ++ more)

theorem through_append (style : Style) (s : Session) (front back : List (List Char)) :
    s.through style (front ++ back) =
      (((s.through style front).1.through style back).1,
        (s.through style front).2 ++ ((s.through style front).1.through style back).2) := by
  induction front generalizing s with
  | nil => rfl
  | cons line front ih => simp only [List.cons_append, through, ih, List.append_assoc]

theorem feed_eq_through (style : Style) (s : Session) (lines : List (List Char)) :
    feed { style, prompts := false } s (lines.map .ok) =
      ((s.through style lines).2, .ok (s.through style lines).1) := by
  induction lines generalizing s with
  | nil => rfl
  | cons line lines ih =>
    simp only [List.map_cons, feed, ih, through]
    rfl

/-- Reading a text is only recorded. -/
theorem flatMap_evaluationEvents {f : Event → List Char} (hf : ∀ r, f (.record r) = [])
    (text : List Char) : (evaluationEvents text).flatMap f = [] := by
  unfold evaluationEvents
  cases Document.parse text <;> simp [hf]

theorem output_evaluationEvents (text : List Char) :
    (evaluationEvents text).flatMap Event.output = [] :=
  flatMap_evaluationEvents (fun _ => rfl) text

theorem errors_evaluationEvents (text : List Char) :
    (evaluationEvents text).flatMap Event.errors = [] :=
  flatMap_evaluationEvents (fun _ => rfl) text

theorem happening_append_of_any_eq_false {front : List Event}
    (h : front.any Event.isBreakdown = false) (back : List Event) :
    happening (front ++ back) = front ++ happening back :=
  List.takeWhile_append_of_pos fun event hm => by simpa using List.any_eq_false.mp h event hm

theorem happening_eq_self {events : List Event} (h : events.any Event.isBreakdown = false) :
    happening events = events := by
  have hh := happening_append_of_any_eq_false h []
  rwa [List.append_nil, show happening [] = [] from rfl, List.append_nil] at hh

/-- Nothing happens after a breakdown. -/
theorem happening_append_of_any {front : List Event} (h : front.any Event.isBreakdown = true)
    (back : List Event) : happening (front ++ back) = happening front := by
  induction front with
  | nil => cases h
  | cons event front ih =>
    cases hevent : event.isBreakdown with
    | true => simp [happening, hevent]
    | false =>
      rw [List.any_cons, hevent, Bool.false_or] at h
      have hh := ih h
      unfold happening at hh ⊢
      simp [hevent, hh]

theorem happening_sublist (events : List Event) : (happening events).Sublist events :=
  List.takeWhile_sublist _

theorem flatMap_happening_eq_nil {f : Event → List Char} {events : List Event}
    (h : events.flatMap f = []) : (happening events).flatMap f = [] := by
  rw [List.flatMap_eq_nil_iff] at h ⊢
  exact fun event hm => h event ((happening_sublist events).mem hm)

/-- Events that write nothing may be left out at the end. -/
theorem flatMap_happening_append {f : Event → List Char} {back : List Event}
    (h : back.flatMap f = []) (front : List Event) :
    (happening (front ++ back)).flatMap f = (happening front).flatMap f := by
  cases hfront : front.any Event.isBreakdown with
  | true => rw [happening_append_of_any hfront]
  | false =>
    rw [happening_append_of_any_eq_false hfront, happening_eq_self hfront, List.flatMap_append,
      flatMap_happening_eq_nil h, List.append_nil]

theorem output_close (s : Session) : s.close.2.flatMap Event.output = [] := by
  unfold close
  split
  · rfl
  · cases Document.parse s.pending <;> simp [output_evaluationEvents, Event.output]

/-- A run on some lines is made of what the session does on the way and what it does at the end. -/
theorem run_of_inputLines {input : List UInt8} {ls : List (List Char)}
    (h : inputLines input = ls.map .ok) :
    let (s, events) := ({} : Session).through style ls
    run { style, prompts := false } input =
      outcome (events ++ s.close.2 ++ [.record s.close.1.summary]) none := by
  rw [run_eq, h, feed_eq_through]

/-- A run writes what its lines make the session write. -/
theorem stdout_of_inputLines {input : List UInt8} {ls : List (List Char)}
    (h : inputLines input = ls.map .ok) :
    (run { style, prompts := false } input).stdout =
      String.ofList ((happening (({} : Session).through style ls).2).flatMap Event.output) := by
  have hlast : (({} : Session).through style ls).1.close.2.flatMap Event.output ++
      [.record (({} : Session).through style ls).1.close.1.summary].flatMap Event.output = [] := by
    rw [output_close]
    rfl
  rw [run_of_inputLines h, outcome, List.append_assoc,
    flatMap_happening_append (by rwa [List.flatMap_append])]

theorem stderr_of_inputLines {input : List UInt8} {ls : List (List Char)}
    (h : inputLines input = ls.map .ok) :
    (run { style, prompts := false } input).stderr =
      String.ofList ((happening ((({} : Session).through style ls).2 ++
        (({} : Session).through style ls).1.close.2)).flatMap Event.errors) := by
  have hlast : [Event.record (({} : Session).through style ls).1.close.1.summary].flatMap
      Event.errors = [] := rfl
  rw [run_of_inputLines h, outcome, flatMap_happening_append hlast]
  simp

theorem stdout_run (style : Style) (text : List Char) :
    (run { style, prompts := false } (Utf8.encode text)).stdout =
      String.ofList ((happening (({} : Session).through style (lines text)).2).flatMap
        Event.output) :=
  stdout_of_inputLines (inputLines_encode text)

theorem close_of_pending_eq_nil (h : s.pending = []) : s.close = (s, []) := by
  rw [close, h]
  rfl

/-- The session takes in some lines, writes a text and reports nothing, and then holds nothing. -/
structure Writes (style : Style) (s : Session) (lines : List (List Char)) (text : List Char) :
    Prop where
  holds : (s.through style lines).1.Holds []
  output : (s.through style lines).2.flatMap Event.output = text
  noReport : ∀ message, .report message ∉ (s.through style lines).2

theorem Holds.writes_nil (h : s.Holds []) : s.Writes style [] [] :=
  ⟨h, rfl, fun _ => List.not_mem_nil⟩

theorem Writes.append {front back : List (List Char)} {first second : List Char}
    (h : s.Writes style front first)
    (hback : ∀ t : Session, t.Holds [] → t.Writes style back second) :
    s.Writes style (front ++ back) (first ++ second) := by
  have hh := hback _ h.holds
  constructor
  · rw [through_append]
    exact hh.holds
  · rw [through_append, List.flatMap_append, h.output, hh.output]
  · intro message hm
    rw [through_append] at hm
    exact (List.mem_append.mp hm).elim (h.noReport message) (hh.noReport message)

theorem any_isBreakdown_of_noReport {events : List Event}
    (h : ∀ message, .report message ∉ events) : events.any Event.isBreakdown = false := by
  rw [List.any_eq_false]
  intro event hm hevent
  cases event with
  | report message => exact h message hm
  | _ => cases hevent

theorem flatMap_errors_of_noReport {events : List Event} (h : ∀ message, .report message ∉ events) :
    events.flatMap Event.errors = [] := by
  rw [List.flatMap_eq_nil_iff]
  intro event hm
  cases event with
  | report message => exact absurd hm (h message)
  | _ => rfl

theorem Writes.run_eq {text out : List Char}
    (h : ({} : Session).Writes style (Text.lines text) out) :
    let o := run { style, prompts := false } (Utf8.encode text)
    o.stdout = String.ofList out ∧ o.stderr = "" ∧ o.succeeded = true := by
  have hpending : (({} : Session).through style (Text.lines text)).1.pending = [] := by
    rw [h.holds.pending]
    rfl
  have hunbroken := any_isBreakdown_of_noReport h.noReport
  refine ⟨?_, ?_, ?_⟩
  · rw [stdout_run, happening_eq_self hunbroken, h.output]
  · rw [stderr_of_inputLines (inputLines_encode text), close_of_pending_eq_nil hpending,
      List.append_nil, happening_eq_self hunbroken, flatMap_errors_of_noReport h.noReport]
  · rw [run_of_inputLines (inputLines_encode text), close_of_pending_eq_nil hpending]
    simp [outcome, hunbroken, Event.isBreakdown]

/-- Where a session holds nothing, blank lines are passed over. -/
theorem Holds.writes_blanks (h : s.Holds []) {blanks : List (List Char)}
    (hblanks : ∀ line ∈ blanks, IsBlank line) : s.Writes style blanks [] := by
  induction blanks with
  | nil => exact h.writes_nil
  | cons line blanks ih =>
    obtain ⟨hline, hblanks⟩ := List.forall_mem_cons.mp hblanks
    have hstep : s.step style line = (s, []) := by
      rw [h.step_eq]
      simp [show trim line = [] from hline]
    have hh := ih hblanks
    constructor
    · simpa only [through, hstep] using hh.holds
    · simpa only [through, hstep, List.nil_append] using hh.output
    · simpa only [through, hstep, List.nil_append] using hh.noReport

/-- Lines that make a document all together, but not without the last ones. -/
structure DocumentLines (lines : List (List Char)) (d : Document) : Prop where
  unbroken : ∀ line ∈ lines, '\n' ∉ line
  noReturn : ∀ line ∈ lines, line.getLast? ≠ some '\r'
  notBlank : ∀ line ∈ lines, ¬IsBlank line
  parse : Document.parse (joined lines) = .ok d
  minimal : ∀ front back e, lines = front ++ back → back ≠ [] →
    Document.parse (joined front) ≠ .ok e

/-- The last line of a document completes it. -/
theorem Holds.step_last {held : List (List Char)} {d : Document} (h : s.Holds held)
    (hline : ¬IsBlank line) (hparse : Document.parse (joined (held ++ [line])) = .ok d) :
    s.step style line = ({ documents := s.documents + 1, failures := s.failures },
      evaluationEvents (joined (held ++ [line])) ++ [.rendering (d.chars style)]) := by
  have hblank : (trim line).isEmpty = false := by
    simpa [IsBlank] using hline
  rw [h.step_eq]
  simp [hblank, hparse]

/-- Any other line is held, because what is read up to there only lacks its end. -/
theorem Holds.step_earlier {held further : List (List Char)} {d : Document} (h : s.Holds held)
    (hline : ¬IsBlank line)
    (hparse : Document.parse (joined (held ++ line :: further)) = .ok d)
    (hshort : ∀ e, Document.parse (joined (held ++ [line])) ≠ .ok e) :
    s.step style line = ({ s with pending := joined (held ++ [line]) },
      evaluationEvents (joined (held ++ [line]))) := by
  have hblank : (trim line).isEmpty = false := by
    simpa [IsBlank] using hline
  cases he : Document.parse (joined (held ++ [line])) with
  | ok e => exact absurd he (hshort e)
  | error e =>
    have hincomplete : e.isIncomplete = true := by
      by_contra hdefinite
      have hhopeless := hopeless_of_definite (by simp) he (by simpa using hdefinite)
      exact hhopeless further d (by simpa using hparse)
    rw [h.step_eq]
    simp [hblank, he, hincomplete]

theorem Holds.writes_document {lines held rest : List (List Char)} {d : Document} (h : s.Holds held)
    (hlines : DocumentLines lines d) (hsplit : lines = held ++ rest) (hrest : rest ≠ []) :
    s.Writes style rest (d.chars style ++ ['\n']) := by
  induction rest generalizing s held with
  | nil => exact absurd rfl hrest
  | cons line rest ih =>
    have hline : ¬IsBlank line := hlines.notBlank line (by simp [hsplit])
    have hparse := hlines.parse
    rw [hsplit] at hparse
    by_cases hlast : rest = []
    · subst hlast
      have hstep : s.step style line = _ := h.step_last hline hparse
      constructor
      · simp only [through, hstep]
        exact holds_nil
      · simp [through, hstep, output_evaluationEvents, Event.output]
      · simp [through, hstep, not_report_mem_evaluationEvents]
    · have hsplit' : lines = (held ++ [line]) ++ rest := by rw [hsplit, List.append_assoc]; rfl
      have hstep : s.step style line = _ :=
        h.step_earlier hline hparse fun e => hlines.minimal _ _ e hsplit' hlast
      have hholds : Holds { s with pending := joined (held ++ [line]) } (held ++ [line]) :=
        ⟨rfl, List.forall_mem_append.mpr ⟨h.notBlank, by simpa using hline⟩⟩
      have hh := ih hholds hsplit' hlast
      constructor
      · simpa only [through, hstep] using hh.holds
      · simpa only [through, hstep, List.flatMap_append, output_evaluationEvents,
          List.nil_append] using hh.output
      · intro message hm
        simp only [through, hstep, List.mem_append, not_report_mem_evaluationEvents,
          false_or] at hm
        exact hh.noReport message hm

/-- A document in the input of a session, with the blank lines before it. -/
structure Entry where
  blanks : List (List Char)
  lines : List (List Char)
  document : Document

structure Entry.Valid (e : Entry) : Prop where
  unbroken : ∀ line ∈ e.blanks, '\n' ∉ line
  blank : ∀ line ∈ e.blanks, IsBlank line
  document : DocumentLines e.lines e.document

def Entry.allLines (e : Entry) : List (List Char) :=
  e.blanks ++ e.lines

/-- A text of lines, each of them ended by a line feed. -/
def ended (lines : List (List Char)) : List Char :=
  lines.flatMap (· ++ ['\n'])

theorem lines_ended {ls : List (List Char)} (h : ∀ line ∈ ls, '\n' ∉ line) :
    lines (ended ls) = ls.map dropReturn := by
  induction ls with
  | nil => rfl
  | cons line ls ih =>
    obtain ⟨hline, hls⟩ := List.forall_mem_cons.mp h
    have hcons : ended (line :: ls) = line ++ '\n' :: ended ls := by simp [ended]
    rw [hcons, lines_append_newline hline, ih hls, List.map_cons]

theorem isBlank_dropReturn (h : IsBlank line) : IsBlank (dropReturn line) := by
  unfold IsBlank at h ⊢
  rw [trim_eq_nil_iff] at h ⊢
  exact fun c hc => h c ((dropReturn_sublist line).mem hc)

theorem DocumentLines.ne_nil {ls : List (List Char)} {d : Document} (h : DocumentLines ls d) :
    ls ≠ [] := by
  rintro rfl
  cases h.parse

/-- The lines may have been changed as long as those of the documents are the same and blank ones are
still blank. -/
theorem Holds.writes_entries (h : s.Holds []) {change : List Char → List Char}
    (hchange : ∀ ⦃line⦄, IsBlank line → IsBlank (change line)) {entries : List Entry}
    (hentries : ∀ e ∈ entries, e.Valid ∧ e.lines.map change = e.lines) :
    s.Writes style ((entries.flatMap Entry.allLines).map change)
      (entries.flatMap fun e => e.document.chars style ++ ['\n']) := by
  induction entries generalizing s with
  | nil => exact h.writes_nil
  | cons e entries ih =>
    obtain ⟨⟨hvalid, hsame⟩, hentries⟩ := List.forall_mem_cons.mp hentries
    have hblanks : ∀ line ∈ e.blanks.map change, IsBlank line :=
      List.forall_mem_map.mpr fun line hline => hchange (hvalid.blank line hline)
    rw [List.flatMap_cons, List.flatMap_cons, List.map_append, Entry.allLines, List.map_append, hsame]
    refine Writes.append ?_ fun t ht => ih ht hentries
    exact (h.writes_blanks hblanks).append fun t ht =>
      ht.writes_document hvalid.document rfl hvalid.document.ne_nil

/-- Documents on lines of their own are written one after the other, each of them once, and nothing is
reported, whatever blank lines stand before, between and after them. Each line is ended by a line feed,
or else the text has the same lines in some other way. -/
theorem run_entries (style : Style) (entries : List Entry) (blanks : List (List Char))
    (hentries : ∀ e ∈ entries, e.Valid) (hblanks : ∀ line ∈ blanks, '\n' ∉ line ∧ IsBlank line)
    (text : List Char) (htext : text = ended (entries.flatMap Entry.allLines ++ blanks) ∨
      lines text = entries.flatMap Entry.allLines ++ blanks) :
    let o := run { style, prompts := false } (Utf8.encode text)
    o.stdout = String.ofList (entries.flatMap fun e => e.document.chars style ++ ['\n']) ∧
      o.stderr = "" ∧ o.succeeded = true := by
  -- The session takes in the lines with or without a carriage return at their end.
  have hlines : ∃ change : List Char → List Char,
      lines text = (entries.flatMap Entry.allLines ++ blanks).map change ∧
      (∀ ⦃line⦄, IsBlank line → IsBlank (change line)) ∧
      ∀ e ∈ entries, e.lines.map change = e.lines := by
    rcases htext with rfl | htext
    · refine ⟨dropReturn, lines_ended ?_, fun _ => isBlank_dropReturn, fun e he => ?_⟩
      · refine List.forall_mem_append.mpr ⟨?_, fun line hline => (hblanks line hline).1⟩
        rw [List.forall_mem_flatMap]
        intro e he
        exact List.forall_mem_append.mpr
          ⟨(hentries e he).unbroken, (hentries e he).document.unbroken⟩
      · have hsame : e.lines.map dropReturn = e.lines.map id := List.map_congr_left
          fun line hline => dropReturn_eq_self ((hentries e he).document.noReturn line hline)
        rwa [List.map_id] at hsame
    · exact ⟨id, by simpa using htext, fun _ h => h, by simp⟩
  obtain ⟨change, hlines, hchange, hsame⟩ := hlines
  have hempty : Holds {} [] := holds_nil
  have hblanks' : ∀ line ∈ blanks.map change, IsBlank line :=
    List.forall_mem_map.mpr fun line hline => hchange (hblanks line hline).2
  have hdocuments : Writes style {} ((entries.flatMap Entry.allLines).map change)
      (entries.flatMap fun e => e.document.chars style ++ ['\n']) :=
    hempty.writes_entries hchange fun e he => ⟨hentries e he, hsame e he⟩
  have hwrites := hdocuments.append fun t ht => ht.writes_blanks hblanks'
  rw [← List.map_append, ← hlines, List.append_nil] at hwrites
  exact hwrites.run_eq

theorem documentLines_two_lines :
    DocumentLines ["query Q \x7b".toList, "a \x7d".toList]
      { definitions := [{ name := "Q", selectionSet := .ofBody "a" }] } := by
  refine ⟨by decide, by decide, ?_, rfl, ?_⟩
  · simp only [List.forall_mem_cons, IsBlank]
    decide
  · intro front back e hsplit hback hparse
    rcases front with _ | ⟨first, _ | ⟨second, front⟩⟩
    · cases hparse
    · cases hsplit
      cases hparse
    · simp only [List.cons_append, List.cons.injEq, List.nil_eq, List.append_eq_nil_iff] at hsplit
      exact hback hsplit.2.2.2

theorem run_entries_two_lines :
    let o := run { style := .minified, prompts := false }
      (Utf8.encode " \r\nquery Q \x7b\na \x7d\n\n".toList)
    o.stdout = "query Q\x7ba\x7d\n" ∧ o.stderr = "" ∧ o.succeeded = true := by
  have hentry : Entry.Valid { blanks := [[' ', '\r']], lines := _, document := _ } :=
    ⟨by decide, by simp only [List.forall_mem_singleton, IsBlank]; decide, documentLines_two_lines⟩
  have hblanks : ∀ line ∈ [([] : List Char)], '\n' ∉ line ∧ IsBlank line := by
    simp only [List.forall_mem_singleton, IsBlank]
    decide
  have hh := run_entries .minified [_] [[]] (List.forall_mem_singleton.mpr hentry) hblanks
    " \r\nquery Q \x7b\na \x7d\n\n".toList (.inl rfl)
  have hout : String.ofList "query Q\x7ba\x7d\n".toList = "query Q\x7ba\x7d\n" :=
    String.ofList_toList
  exact ⟨hh.1.trans hout, hh.2⟩

end QueryDoc.Session
