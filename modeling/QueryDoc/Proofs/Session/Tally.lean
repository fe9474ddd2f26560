import QueryDoc.Proofs.Session.Pending

/-! What an interactive session counts. A document counts when it is written or reported, and once more
among the failures when it is reported. Only one that the end of the input cuts off counts as a failure
without counting as a document. -/

namespace QueryDoc.Session

open Text

variable {settings : Settings} {style : Style} {s : Session} {held lines : List (List Char)}
  {line : List Char} {before : List Event}

def Event.rendering? : Event → Option (List Char)
  | rendering text => some text
  | prompt _ | report _ | record _ => none

/-- The documents that are written. -/
def renderings (events : List Event) : List (List Char) :=
  events.filterMap Event.rendering?

@[simp] theorem renderings_append (first second : List Event) :
    renderings (first ++ second) = renderings first ++ renderings second :=
  List.filterMap_append

@[simp] theorem renderings_report (text : Option String) : renderings [.report text] = [] := rfl

@[simp] theorem renderings_rendering (text : List Char) : renderings [.rendering text] = [text] := rfl

@[simp] theorem renderings_evaluationEvents (text : List Char) :
    renderings (evaluationEvents text) = [] :=
  filterMap_evaluationEvents (fun _ => rfl) text

theorem filterMap_promptEvents {α : Type} {f : Event → Option α} (hf : ∀ text, f (.prompt text) = none)
    (settings : Settings) (s : Session) : (promptEvents settings s).filterMap f = [] := by
  unfold promptEvents
  split <;> simp [hf]

@[simp] theorem reports_promptEvents (settings : Settings) (s : Session) :
    reports (promptEvents settings s) = [] :=
  filterMap_promptEvents (fun _ => rfl) settings s

@[simp] theorem renderings_promptEvents (settings : Settings) (s : Session) :
    renderings (promptEvents settings s) = [] :=
  filterMap_promptEvents (fun _ => rfl) settings s

/-- The counts of a session are those of what has happened in it. -/
structure Tallies (s : Session) (events : List Event) : Prop where
  failures : s.failures = (reports events).length
  documents : s.documents = (renderings events).length + (reports events).length

theorem Tallies.failures_le (h : s.Tallies before) : s.failures ≤ s.documents := by
  rw [h.failures, h.documents]
  exact Nat.le_add_left _ _

theorem Tallies.append_promptEvents (h : s.Tallies before) (settings : Settings) (t : Session) :
    s.Tallies (before ++ promptEvents settings t) := by
  constructor
  · simpa using h.failures
  · simpa using h.documents

theorem Tallies.step (h : s.Tallies before) (hholds : s.Holds held) (style : Style)
    (line : List Char) : (s.step style line).1.Tallies (before ++ (s.step style line).2) := by
  obtain ⟨hfailures, hdocuments⟩ := h
  have htakes := hholds.takes style line
  generalize s.step style line = next at htakes ⊢
  cases htakes with
  | skipped _ _ => exact ⟨by simpa using hfailures, by simpa using hdocuments⟩
  | completed _ =>
    constructor
    · simpa using hfailures
    · simp [hdocuments]
      omega
  | awaited _ _ _ => exact ⟨by simpa using hfailures, by simpa using hdocuments⟩
  | refused _ _ =>
    constructor
    · simpa using hfailures
    · simp [hdocuments]
      omega

theorem Tallies.through (h : s.Tallies before) (hholds : s.Holds held) (settings : Settings)
    (lines : List (List Char)) :
    (s.through settings.style lines).1.Tallies (before ++ (feed settings s (lines.map .ok)).1) := by
  induction lines generalizing s held before with
  | nil => exact h.append_promptEvents settings s
  | cons line lines ih =>
    have hstep := (h.append_promptEvents settings s).step hholds settings.style line
    obtain ⟨held', hholds'⟩ : ∃ held', (s.step settings.style line).1.Holds held' :=
      hholds.step.elim (fun hh => ⟨_, hh⟩) fun hh => ⟨_, hh⟩
    have hlines := ih hstep hholds'
    simpa only [List.map_cons, feed, Session.through, List.append_assoc] using hlines

/-- What is pending at the end of the input is reported and fails, but does not count as a document. -/
theorem Awaits.tallies_close {e : ReadError} (h : s.Awaits held e) (hpending : s.pending ≠ [])
    (htallies : s.Tallies before) :
    { s.close.1 with documents := s.close.1.documents + 1 }.Tallies (before ++ s.close.2) := by
  obtain ⟨hfailures, hdocuments⟩ := htallies
  rw [close, if_neg (by simpa using hpending), h.refused]
  constructor
  · simpa using hfailures
  · simp [hdocuments]
    omega

/-- The counts that a run ends with. Its failures are the errors that it reports. Its documents are
those that it writes or reports, apart from one that the end of the input cuts off. -/
theorem run_tallies (settings : Settings) (lines : List (List Char)) (input : List UInt8)
    (hinput : inputLines input = lines.map .ok) :
    ∃ events s, feed settings {} (inputLines input) = (events, .ok s) ∧
      let last := s.close.1
      let printed := events ++ s.close.2
      run settings input = outcome (printed ++ [.record last.summary]) none ∧
        last.failures = (reports printed).length ∧
        (s.pending = [] → last.documents = (renderings printed).length + (reports printed).length ∧
          last.failures ≤ last.documents) ∧
        (s.pending ≠ [] →
          last.documents + 1 = (renderings printed).length + (reports printed).length) := by
  have hprompt := atPrompt_through settings lines
  have hempty : Tallies {} [] := ⟨rfl, rfl⟩
  have htallies := hempty.through holds_nil settings lines
  obtain ⟨events, hreached⟩ := hprompt.reached
  have hfeed := hreached []
  rw [List.append_nil] at hfeed
  rw [List.nil_append, hfeed] at htallies
  set s := (({} : Session).through settings.style lines).1
  refine ⟨_, s, by rw [hinput, hfeed]; rfl, by rw [run_eq, hinput, hfeed]; rfl, ?_⟩
  by_cases hpending : s.pending = []
  · rw [close_of_pending_eq_nil hpending, List.append_nil]
    exact ⟨htallies.failures, fun _ => ⟨htallies.documents, htallies.failures_le⟩,
      fun hne => absurd hpending hne⟩
  · obtain ⟨held, e, -, -, hawaits⟩ := hprompt.pending.resolve_left hpending
    have hclose := hawaits.tallies_close hpending htallies
    exact ⟨hclose.failures, fun hnil => absurd hnil hpending, fun _ => hclose.documents⟩

/-- An input that writes one document and is cut off in another. -/
theorem run_tallies_second_cut_off :
    ∃ events s, feed {} {} (inputLines (Utf8.encode "\x7ba\x7d\n\x7b\n".toList)) = (events, .ok s) ∧
      s.pending = ['\x7b'] ∧ s.close.1.failures = 1 ∧ s.close.1.documents = 1 ∧
      (reports (events ++ s.close.2)).length = 1 ∧
      s.close.1.documents + 1 =
        (renderings (events ++ s.close.2)).length + (reports (events ++ s.close.2)).length := by
  obtain ⟨events, s, hfeed, -, hfailures, -, hcut⟩ :=
    run_tallies {} ["\x7ba\x7d".toList, ['\x7b']] (Utf8.encode "\x7ba\x7d\n\x7b\n".toList)
      (inputLines_encode _)
  have hlast : (feed {} {} (inputLines (Utf8.encode "\x7ba\x7d\n\x7b\n".toList))).2 =
      .ok { pending := ['\x7b'], documents := 1 } := by decide
  rw [hfeed] at hlast
  obtain rfl := Except.ok.inj hlast
  exact ⟨events, _, hfeed, rfl, rfl, rfl, hfailures.symm, hcut (by decide)⟩

/-- Here an error is reported, but no document counts. -/
theorem documents_lt_reports_cut_off :
    ∃ events s, feed {} {} (inputLines (Utf8.encode "\x7b\n".toList)) = (events, .ok s) ∧
      (renderings (events ++ s.close.2)).length = 0 ∧ (reports (events ++ s.close.2)).length = 1 ∧
      s.close.1.documents = 0 ∧ s.close.1.failures = 1 ∧
      s.close.1.summary = ⟨.debug, "Read 0 document(s), 1 failed."⟩ := by
  refine ⟨_, { pending := ['\x7b'] }, Prod.ext rfl (by decide), by decide, by decide, rfl, rfl, ?_⟩
  decide

end QueryDoc.Session
