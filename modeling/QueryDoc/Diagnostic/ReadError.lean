import QueryDoc.Diagnostic.Cause
import QueryDoc.Source.Scanner
import QueryDoc.Text.Escape

/-! The error with which reading stops, and the errors that a scanner meets where it stands. -/

namespace QueryDoc

inductive NoteKind where
  | general
  | help
deriving DecidableEq, Repr

/-- A remark on an error, which may point to a place of its own. -/
structure Note where
  kind : NoteKind
  message : String
  span : Option Span := none
deriving DecidableEq, Repr

structure ReadError where
  message : String
  span : Span
  cause : Cause
  notes : List Note := []
deriving DecidableEq, Repr

namespace ReadError

def addNote (e : ReadError) (message : String) (span : Option Span := none) : ReadError :=
  { e with notes := e.notes ++ [⟨.general, message, span⟩] }

def addHelp (e : ReadError) (message : String) : ReadError :=
  { e with notes := e.notes ++ [⟨.help, message, none⟩] }

def isIncomplete (e : ReadError) : Bool :=
  e.cause.isIncomplete

def unsupported (feature : Feature) (span : Span) : ReadError :=
  { message := s!"{feature.describe} are not supported yet", span, cause := .unsupported feature }

def invalidNumber (text : String) (span : Span) : ReadError :=
  { message := s!"invalid number `{text}`", span, cause := .invalidNumber text }

def unterminatedString (opening : Span) : ReadError :=
  { message := "unterminated string literal", span := opening, cause := .unterminatedString,
    notes := [⟨.general, "reached end of input before the closing `\"`", none⟩] }

def duplicateField (name : String) (span first : Span) : ReadError :=
  { message := s!"duplicate object field `{name}`", span, cause := .duplicateField name,
    notes := [⟨.general, s!"`{name}` first defined here", some first⟩] }

def emptyVariables (closing : Span) : ReadError :=
  { message := "empty variable definitions", span := closing, cause := .emptyConstruct "()",
    notes := [⟨.help, "remove the parentheses or define at least one variable", none⟩] }

def nestedTooDeep (limit : Nat) (span : Span) : ReadError :=
  { message := "maximum nesting depth exceeded", span, cause := .nestedTooDeep limit }

/-- A whole word stands where a keyword was expected. The character reported is the first one that
differs, or the one after the keyword, or else the first one. -/
def wrongKeyword (keyword word : List Char) (span : Span) : ReadError :=
  let differing := (word.zip keyword).find? fun pair => pair.1 != pair.2
  let found := (differing.map (·.1)).getD
    ((word.drop keyword.length).head?.getD (word.head?.getD '\x00'))
  { message := s!"expected `{String.ofList keyword}`, found `{String.ofList word}`", span,
    cause := .unexpectedCharacter [String.ofList keyword] found }

end ReadError

/-- Whether an expected item describes what should stand there instead of spelling it. -/
def isDescription (item : String) : Bool :=
  item.toList.contains ' ' || item == "name" || item == "value" || item == "type"

/-- Expected items as a message names them. Spelled items are quoted, descriptions are not. -/
def describeExpected (expected : List String) : String :=
  " or ".intercalate <| expected.map fun item =>
    if isDescription item then item else s!"`{item}`"

namespace Scanner

def endOfInput (s : Scanner) (expected : List String) : ReadError :=
  { message := s!"expected {describeExpected expected}, found end of input", span := s.nextSpan,
    cause := .unexpectedEnd expected }

def unexpected (s : Scanner) (expected : List String) : ReadError :=
  match s.peek? with
  | none => s.endOfInput expected
  | some found =>
    { message := s!"expected {describeExpected expected}, found `{Text.shown found}`",
      span := s.nextSpan, cause := .unexpectedCharacter expected found }

def unclosed (s : Scanner) (delimiter : String) (opening : Span) : ReadError :=
  { message := s!"unclosed `{delimiter}`", span := s.nextSpan, cause := .unclosed delimiter,
    notes := [⟨.general, s!"opening `{delimiter}` here", some opening⟩] }

end Scanner

end QueryDoc
