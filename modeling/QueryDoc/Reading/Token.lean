import QueryDoc.Reading.Basic

/-! The tokens of a document. Each of these actions passes over ignored input first. -/

namespace QueryDoc.Token

open ReadM

def peek? : ReadM (Option Char) := do
  modify Scanner.skipIgnored
  return (← get).peek?

/-- The next significant character. The text must not end here, where `expected` should stand. -/
def peek (expected : String) : ReadM Char := do
  match ← peek? with
  | some c => return c
  | none => failWith (·.endOfInput [expected])

/-- The next significant character inside a delimiter that has been opened. -/
def peekInside (delimiter : String) (opening : Span) : ReadM Char := do
  match ← peek? with
  | some c => return c
  | none => failWith (·.unclosed delimiter opening)

/-- Passes over the given characters, or stops at the first one that is different. -/
def passOver (text : String) : List Char → ReadM Unit
  | [] => return ()
  | c :: cs => do
    if (← get).peek? = some c then
      modify Scanner.advance
      passOver text cs
    else failWith (·.unexpected [text])

def literal (text : String) : ReadM Span := do
  modify Scanner.skipIgnored
  let start ← get
  passOver text text.toList
  return (← get).spanFrom start.position

/-- Exactly the given word, which must not run on into a longer name. -/
def keyword (word : String) : ReadM Span := do
  modify Scanner.skipIgnored
  let start ← get
  match start.name? with
  | none => failWith (·.unexpected [word])
  | some found =>
    if found = word.toList then literal word
    else
      set (start.skipRun isNameContinue)
      failWith fun s => .wrongKeyword word.toList found (s.spanFrom start.position)

def name? : ReadM (Option String) := do
  match ← peek? with
  | none => return none
  | some c =>
    if isNameStart c then
      let s ← get
      set (s.skipRun isNameContinue)
      return some (String.ofList (s.run isNameContinue))
    else return none

def name : ReadM String := do
  let _ ← peek "name"
  match ← name? with
  | some n => return n
  | none => failWith (·.unexpected ["name"])

/-- A string, which ends at the next quote. There are no escapes. -/
def string : ReadM String := do
  let opening ← literal "\""
  match (← get).until? 34 with
  | some (contents, s) =>
    set s.advance
    return String.ofList contents
  | none => failWith fun _ => .unterminatedString opening

def finish : ReadM Unit := do
  match ← peek? with
  | none => return ()
  | some _ => failWith (·.unexpected ["end of input"])

end QueryDoc.Token
