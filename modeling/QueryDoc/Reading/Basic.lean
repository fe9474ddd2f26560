import QueryDoc.Diagnostic.ReadError

/-! Reading moves a scanner over a text and stops at the first error. The scanner stays where the
error was noticed, so that a caller may go on from there. -/

namespace QueryDoc

abbrev ReadM := EStateM ReadError Scanner

namespace ReadM

/-- Stops with an error about the place where the scanner stands. -/
def failWith (error : Scanner → ReadError) : ReadM α := fun s =>
  .error (error s) s

/-- Stops at the next character because it begins a form that is not read. -/
def unsupportedHere (feature : Feature) : ReadM α :=
  failWith fun s => .unsupported feature s.nextSpan

/-- Adds a hint to the error with which an action stops. -/
def withHelp (message : String) (act : ReadM α) : ReadM α := fun s =>
  match act s with
  | .ok a s => .ok a s
  | .error e s => .error (e.addHelp message) s

def onText (act : ReadM α) (source : List Char) (file : Option String := none) :
    Except ReadError α :=
  match act (Scanner.start source file) with
  | .ok a _ => .ok a
  | .error e _ => .error e

end ReadM

/-- How deep values and types may nest when nothing else is asked for. -/
def defaultDepth : Nat := 64

structure ReadOptions where
  depth : Nat := defaultDepth
  file : Option String := none
deriving Repr

end QueryDoc
