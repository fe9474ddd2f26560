import QueryDoc.Batch
import QueryDoc.CommandLine
import QueryDoc.Session

/-! The program: arguments, environment, files and streams. -/

namespace QueryDoc.Program

/-- Writes records of at least the given level to standard error. -/
def writeRecords (level : Log.Level) (records : List Log.Record) : IO Unit :=
  (Log.visible level records).forM fun r => IO.eprintln r.render

partial def readChunk (input : IO.FS.Stream) (taken : Array UInt8) : IO (List UInt8) := do
  let bytes ← input.read 1
  match bytes.toList with
  | [] => return taken.toList
  | byte :: _ =>
    let taken := taken.push byte
    if byte = 10 then return taken.toList else readChunk input taken

/-- Lets events take place, as far as they do. -/
def writeEvents (level : Log.Level) (events : List Session.Event) : IO Unit := do
  let output ← IO.getStdout
  for event in Session.happening events do
    output.putStr (String.ofList event.output)
    output.flush
    IO.eprint (String.ofList event.errors)
    writeRecords level event.record?.toList

partial def serve (level : Log.Level) (settings : Session.Settings) (s : Session) : IO UInt32 := do
  writeEvents level (Session.promptEvents settings s)
  let (events, next) := s.turn settings (Session.lineOf? (← readChunk (← IO.getStdin) #[]))
  writeEvents level events
  if events.any Session.Event.isBreakdown then return 101
  match next with
  | .ok next => serve level settings next
  | .error failure =>
    failure.forM IO.eprintln
    return if failure.isNone then 0 else 1

/-- Why the system has refused something. -/
def faultOf : IO.Error → PathFault
  | .noFileOrDirectory .. => .notFound
  | .inappropriateType .. => .notDirectory
  | .invalidArgument .. => .nameTooLong
  | .permissionDenied .. => .other "Permission denied (os error 13)"
  | e => .other (toString e)

def attempt (action : IO α) : IO (Except PathFault α) := do
  try return .ok (← action) catch e => return .error (faultOf e)

/-- What stands at a path with all that is in it. -/
partial def readTree (path : Path) : IO FileTree := do
  let place := (← IO.currentDir) / path.display
  match (← place.metadata).type with
  | .dir =>
    match ← attempt place.readDir with
    | .error fault => return .closed fault
    | .ok entries =>
      return .dir (← entries.toList.mapM fun entry => do
        let name := Text.Utf8.encode entry.fileName.toList
        return (name, ← readTree (path.join name)))
  | .file => return .file
  | _ => return .special

def readContent (path : Path) : IO (List UInt8) := do
  return (← IO.FS.readBinFile ((← IO.currentDir) / path.display)).toList

def lookUp (path : Path) (known : List (Path × Except PathFault α)) : Except PathFault α :=
  (known.lookup path).getD (.error .notFound)

def render (level : Log.Level) (c : CommandLine) : IO UInt32 := do
  let paths := c.paths.map Path.ofText
  let places ← paths.mapM fun path => return (path, ← attempt (readTree path))
  let found : Batch.Request :=
    { system := { place := (lookUp · places), content := fun _ => .error .notFound }
      paths, extensions := c.extensions, style := c.style, json := c.json }
  -- Only the files that are found are read.
  let contents ← found.search.files.mapM fun path => return (path, ← attempt (readContent path))
  let outcome := Batch.run
    { found with system := { found.system with content := (lookUp · contents) } }
  writeRecords level outcome.records
  IO.print outcome.stdout
  IO.eprint outcome.stderr
  return outcome.exitCode

end QueryDoc.Program

open QueryDoc in
def main (arguments : List String) : IO UInt32 := do
  match CommandLine.parse arguments with
  | .error message =>
    IO.eprintln s!"error: {message}"
    return 2
  | .ok c =>
    let (level, records) := Log.setUp c.verbose (← IO.getEnv "LOG_LEVEL")
    Program.writeRecords level records
    match c.command with
    | some .render => Program.render level c
    | _ => Program.serve level { style := c.style, prompts := c.prompts } {}
