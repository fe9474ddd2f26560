import QueryDoc.Diagnostic.Report
import QueryDoc.Document
import QueryDoc.Log
import QueryDoc.Log.Reading
import QueryDoc.Text.Utf8

/-! An interactive session reads documents line by line and writes each one back as soon as it is
complete. A blank line gives up on a document that is not. -/

/-! ### Input as lines of text -/

namespace QueryDoc.Session

def chunks : List UInt8 → List (List UInt8)
  | [] => []
  | byte :: bytes =>
    if byte = 10 then [byte] :: chunks bytes
    else
      match chunks bytes with
      | [] => [[byte]]
      | chunk :: more => (byte :: chunk) :: more

/-- Takes off a line feed at the end, and one carriage return before it. -/
def dropLineBreak (chunk : List UInt8) : List UInt8 :=
  match chunk.reverse with
  | 10 :: 13 :: bytes => bytes.reverse
  | 10 :: bytes => bytes.reverse
  | _ => chunk

/-- The text of a line that may still have its line break, which is no part of it: a character that
the line break cuts short is cut short by the end of the line. A line that is not UTF-8 is a
fault. -/
def decodeLine (chunk : List UInt8) : Except Text.Utf8.Fault (List Char) :=
  Text.Utf8.decode (dropLineBreak chunk)

/-- The line that was read last, or nothing at the end of the input, where no bytes are left. -/
def lineOf? (chunk : List UInt8) : Option (Except Text.Utf8.Fault (List Char)) :=
  if chunk.isEmpty then none else some (decodeLine chunk)

def inputLines (bytes : List UInt8) : List (Except Text.Utf8.Fault (List Char)) :=
  (chunks bytes).map decodeLine

end QueryDoc.Session

/-! ### Taking in lines -/

namespace QueryDoc

structure Session where
  /-- The lines of a document that is not complete yet, joined by line feeds. -/
  pending : List Char := []
  documents : Nat := 0
  failures : Nat := 0
deriving DecidableEq, Repr

namespace Session

structure Settings where
  style : Style := .pretty
  prompts : Bool := true
deriving Repr

inductive Event where
  | prompt (text : String)
  | rendering (text : List Char)
  /-- An error is reported, or the program breaks down over it. -/
  | report (text : Option String)
  | record (record : Log.Record)
deriving DecidableEq, Repr

/-- What is asked of the user next: a document, or more of the one that is pending. -/
def prompt (s : Session) : String :=
  if s.pending.isEmpty then "lisfy> " else "  ...> "

def promptEvents (settings : Settings) (s : Session) : List Event :=
  if settings.prompts then [.prompt s.prompt] else []

/-- The records of evaluating a text, which are those of reading it and one more on success. -/
def evaluationEvents (text : List Char) : List Event :=
  (Document.records text).map .record ++
    match Document.parse text with
    | .ok _ => [.record ⟨.debug, "Evaluated a document."⟩]
    | .error _ => []

def step (style : Style) (s : Session) (line : List Char) : Session × List Event :=
  let blank := (Text.trim line).isEmpty
  if s.pending.isEmpty && blank then (s, [])
  else
    let text := if s.pending.isEmpty then line else s.pending ++ '\n' :: line
    let events := evaluationEvents text
    match Document.parse text with
    | .ok d =>
      ({ documents := s.documents + 1, failures := s.failures },
        events ++ [.rendering (d.chars style)])
    | .error e =>
      if e.isIncomplete && !blank then ({ s with pending := text }, events)
      else
        ({ documents := s.documents + 1, failures := s.failures + 1 },
          events ++ [.report (e.report? (some text))])

/-- Ends the input. What is still pending is reported as failed. -/
def close (s : Session) : Session × List Event :=
  if s.pending.isEmpty then (s, [])
  else
    let events := evaluationEvents s.pending
    match Document.parse s.pending with
    | .ok _ => (s, events)
    | .error e =>
      ({ s with failures := s.failures + 1 }, events ++ [.report (e.report? (some s.pending))])

def summary (s : Session) : Log.Record :=
  ⟨.debug, s!"Read {s.documents} document(s), {s.failures} failed."⟩

/-- Takes in the next line, or the end of the input where there is none, and gives the session that goes
on or the message with which the run is broken off. -/
def turn (settings : Settings) (s : Session) :
    Option (Except Text.Utf8.Fault (List Char)) → List Event × Except (Option String) Session
  | some (.ok line) =>
    let (next, events) := s.step settings.style line
    (events, .ok next)
  | some (.error fault) => ([], .error (some fault.message))
  | none =>
    let (last, events) := s.close
    (events ++ [.record last.summary], .error none)

/-- Goes on with the session, turn by turn, until it ends. -/
def play (settings : Settings) (s : Session) :
    List (Except Text.Utf8.Fault (List Char)) → List Event × Option String
  | [] => (promptEvents settings s ++ (s.turn settings none).1, none)
  | line :: lines =>
    match s.turn settings (some line) with
    | (events, .ok next) =>
      let (more, failure) := play settings next lines
      (promptEvents settings s ++ events ++ more, failure)
    | (events, .error failure) => (promptEvents settings s ++ events, failure)

def Event.output : Event → List Char
  | prompt text => text.toList
  | rendering text => text ++ ['\n']
  | report _ | record _ => []

def Event.errors : Event → List Char
  | report text => (text.map String.toList).getD []
  | prompt _ | rendering _ | record _ => []

def Event.record? : Event → Option Log.Record
  | record r => some r
  | prompt _ | rendering _ | report _ => none

def Event.isBreakdown : Event → Bool
  | report text => text.isNone
  | prompt _ | rendering _ | record _ => false

/-- The events up to a breakdown, since nothing happens after one. -/
def happening (events : List Event) : List Event :=
  events.takeWhile fun event => !event.isBreakdown

/-- Events as the outcome of a run, with a last message if the run was broken off. -/
def outcome (events : List Event) (failure : Option String) : Outcome :=
  let brokenDown := events.any Event.isBreakdown
  let failure := if brokenDown then none else failure.map fun message => message ++ "\n"
  { succeeded := !brokenDown && failure.isNone
    brokenDown
    stdout := String.ofList ((happening events).flatMap Event.output)
    stderr := String.ofList ((happening events).flatMap Event.errors) ++ failure.getD ""
    records := (happening events).filterMap Event.record? }

def run (settings : Settings) (input : List UInt8) : Outcome :=
  let (events, failure) := play settings {} (inputLines input)
  outcome events failure

end Session

end QueryDoc
