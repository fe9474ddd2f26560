import QueryDoc.Diagnostic.Report
import QueryDoc.Document
import QueryDoc.Files.Search
import QueryDoc.Json.Encoding
import QueryDoc.Keyed
import QueryDoc.Log
import QueryDoc.Log.Reading
import QueryDoc.Text.Utf8

/-! Writing back the documents of many files. A file that fails does not keep the others from being
written. -/

namespace QueryDoc

namespace FileSystem

def text (system : FileSystem) (path : Path) : Except String (List Char) :=
  match system.content path with
  | .error fault => .error s!"{fault.message}: {path.quoted}"
  | .ok bytes =>
    match Text.Utf8.decode bytes with
    | .error _ => .error s!"stream did not contain valid UTF-8: {path.quoted}"
    | .ok source => .ok source

/-- The document under a path, or the error to report, if it can be reported. -/
def read (system : FileSystem) (path : Path) : Except (Option String) Document :=
  match system.text path with
  | .error message => .error (some message)
  | .ok source =>
    match Document.parse source { file := some path.display } with
    | .ok d => .ok d
    | .error e => .error (e.report? (some source))

def records (system : FileSystem) (path : Path) : List Log.Record :=
  match system.text path with
  | .error _ => []
  | .ok source => Document.records source { file := some path.display }

def error? (system : FileSystem) (path : Path) : Option String :=
  match system.read path with
  | .ok _ => none
  | .error message => message

/-- Whether the program breaks down over the file under a path. -/
def breaksDown (system : FileSystem) (path : Path) : Bool :=
  match system.read path with
  | .ok _ => false
  | .error message => message.isNone

/-- The text of a file's document, headed by the file's path if it stands among others. -/
def block? (system : FileSystem) (style : Style) (headed : Bool) (path : Path) : Option String :=
  match system.read path with
  | .ok d => some (if headed then s!"# {path.display}\n{d.render style}" else d.render style)
  | .error _ => none

end FileSystem

namespace Batch

structure Request where
  system : FileSystem
  paths : List Path
  /-- The values of the option that says which extensions are looked for. -/
  extensions : List String := []
  style : Style := .pretty
  json : Bool := false

def Request.search (request : Request) : Search :=
  Search.ofTargets (Search.wanted request.extensions) (request.system.targets request.paths)

/-- Adds the document of a file under the file's path as it is displayed, if it can be read. -/
def addMember (system : FileSystem) (members : List (String × Json)) (path : Path) :
    List (String × Json) :=
  match system.read path with
  | .ok d => Keyed.insert path.display (Node.document d).toJson members
  | .error _ => members

def documentsJson (system : FileSystem) (files : List Path) : Json :=
  (Json.object (files.foldl (addMember system) [])).sortKeys

def blocks (request : Request) (files : List Path) : List String :=
  if request.json then [String.ofList ((documentsJson request.system files).indented 0)]
  else files.filterMap (request.system.block? request.style (1 < files.length))

def errorLine (count : Nat) : String :=
  s!"❌ Encountered {count} error(s) while rendering."

/-- The records of reading files one after the other, up to one over which the program breaks down. -/
def readingRecords (system : FileSystem) : List Path → List Log.Record
  | [] => []
  | path :: files =>
    system.records path ++ if system.breaksDown path then [] else readingRecords system files

/-- Nothing is written before all files have been read, so a breakdown leaves records only. -/
def run (request : Request) : Outcome :=
  let search := request.search
  let brokenDown := search.files.any request.system.breaksDown
  let errors := search.errors ++ search.files.filterMap request.system.error?
  let written := blocks request search.files
  let count := search.files.length
  { succeeded := !brokenDown && errors.isEmpty
    brokenDown
    stdout := if brokenDown || written.isEmpty then "" else "\n\n".intercalate written ++ "\n"
    stderr :=
      if brokenDown || errors.isEmpty then ""
      else
        "\n".intercalate errors ++ "\n" ++ errorLine errors.length ++ "\n"
    records :=
      search.records ++ [⟨.debug, s!"Found {count} GraphQL files to be rendered."⟩] ++
        readingRecords request.system search.files ++
        if !brokenDown && errors.isEmpty then [⟨.info, s!"✅ Rendered {count} GraphQL files."⟩]
        else [] }

end Batch

end QueryDoc
