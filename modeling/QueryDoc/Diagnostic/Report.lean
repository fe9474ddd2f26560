import QueryDoc.Diagnostic.ReadError
import QueryDoc.Text.Layout

/-! How an error is shown: on one line, or in full with the lines of the source it points to. -/

namespace QueryDoc

/-- A line of a source with a stretch of it to be marked. -/
structure Snippet where
  /-- The line's number, counted from one. -/
  number : Nat
  text : List Char
  indent : Nat
  length : Nat
deriving DecidableEq, Repr

namespace Snippet

/-- The line on which a span starts, if the source has it. A span that goes on to a further line,
or is empty, is marked at its first character alone. -/
def of? (source : List Char) (span : Span) : Option Snippet :=
  (Text.lines source)[span.start.line]?.map fun text =>
    { number := span.start.line + 1
      text
      indent := span.start.column
      length :=
        if span.stop.line = span.start.line ∧ span.start.column < span.stop.column then
          span.stop.column - span.start.column
        else 1 }

def digits (snippet : Snippet) : List Char :=
  Nat.toDigits 10 snippet.number

def gutter (snippet : Snippet) : Nat :=
  max 2 snippet.digits.length

def blankRow (snippet : Snippet) : List Char :=
  List.replicate snippet.gutter ' ' ++ [' ', '|']

def textRow (snippet : Snippet) : List Char :=
  List.replicate (snippet.gutter - snippet.digits.length) ' ' ++ snippet.digits ++
    ' ' :: '|' :: ' ' :: snippet.text

def markerRow (snippet : Snippet) (marker : Char) : List Char :=
  List.replicate snippet.gutter ' ' ++ ' ' :: '|' :: ' ' ::
    (List.replicate snippet.indent ' ' ++ List.replicate snippet.length marker)

/-- How far to the right marks can be set. -/
def indentLimit : Nat := 65535

def fits (snippet : Snippet) : Bool :=
  snippet.indent ≤ indentLimit

def render (snippet : Snippet) (marker : Char) : String :=
  String.ofList (snippet.blankRow ++ '\n' :: snippet.textRow ++ '\n' ::
    snippet.markerRow marker ++ ['\n'])

end Snippet

/-- The marked line of a span, or nothing without a source that has the line. -/
def snippetText (source : Option (List Char)) (span : Span) (marker : Char) : String :=
  ((source.bind (Snippet.of? · span)).map (·.render marker)).getD ""

/-- Whether the marks of a span can be set. -/
def snippetFits (source : Option (List Char)) (span : Span) : Bool :=
  (source.bind (Snippet.of? · span)).all (·.fits)

def NoteKind.label : NoteKind → String
  | general => "note"
  | help => "help"

def Note.render (note : Note) (source : Option (List Char)) : String :=
  s!"   = {note.kind.label}: {note.message}\n" ++
    (note.span.map (snippetText source · '-')).getD ""

namespace ReadError

/-- The place of an error, with line and column counted from one. -/
def location (e : ReadError) : String :=
  s!"{e.span.fileName}:{e.span.start.line + 1}:{e.span.start.column + 1}"

def oneline (e : ReadError) : String :=
  s!"{e.location}: error: {e.message}"

/-- An error in full, whether or not its marks can be set. -/
def detailed (e : ReadError) (source : Option (List Char)) : String :=
  s!"error: {e.message}\n  --> {e.location}\n" ++ snippetText source e.span '^' ++
    String.join (e.notes.map (·.render source))

/-- Whether all marks of an error can be set, its own and those of its notes. -/
def fits (e : ReadError) (source : Option (List Char)) : Bool :=
  snippetFits source e.span && e.notes.all fun note => note.span.all (snippetFits source)

/-- The error in full as it is reported. Marks that cannot be set break the program down. -/
def report? (e : ReadError) (source : Option (List Char)) : Option String :=
  if e.fits source then some (e.detailed source) else none

end ReadError

end QueryDoc
