import QueryDoc.Text.Escape
import QueryDoc.Text.Utf8

/-! Paths. A path is a string of bytes with slashes between its parts. The bytes need not be text, and
where they are not a replacement character is displayed, so that two paths may be displayed alike. -/

namespace QueryDoc

structure Path where
  bytes : List UInt8
deriving DecidableEq, Repr, Inhabited

/-- What a directory calls an entry. -/
abbrev FileName := List UInt8

namespace Path

def ofText (text : String) : Path :=
  ⟨Text.Utf8.encode text.toList⟩

def slash : UInt8 := 47

def dot : UInt8 := 46

def isAbsolute (path : Path) : Bool :=
  path.bytes.head? == some slash

def parts (path : Path) : List FileName :=
  path.bytes.splitOn slash

/-- An empty part and a single dot stay where they are. -/
def stays (part : FileName) : Bool :=
  part == [] || part == [dot]

/-- Two dots go back. -/
def goesBack (part : FileName) : Bool :=
  part == [dot, dot]

def nameLimit : Nat := 255

def pathLimit : Nat := 4095

def isTooLong (path : Path) : Bool :=
  pathLimit < path.bytes.length

def join (path : Path) (name : FileName) : Path :=
  match path.bytes.getLast? with
  | none => ⟨name⟩
  | some last => ⟨if last = slash then path.bytes ++ name else path.bytes ++ slash :: name⟩

/-- The name that a path ends with, if it ends with one. -/
def fileName? (path : Path) : Option FileName :=
  (path.parts.filter (!stays ·)).getLast?.filter (!goesBack ·)

/-- What follows the last dot of a path's name, unless that dot comes first. -/
def extension? (path : Path) : Option String :=
  path.fileName?.bind fun name =>
    match name.reverse.dropWhile (· != dot) with
    | [] | [_] => none
    | _ :: _ =>
      some (String.ofList (Text.Utf8.lossy (name.reverse.takeWhile (· != dot)).reverse))

def display (path : Path) : String :=
  String.ofList (Text.Utf8.lossy path.bytes)

/-- A path inside a message, where every byte that is not text is shown by itself. -/
def quoted (path : Path) : String :=
  let pieces := (Text.Utf8.pieces path.bytes).flatMap fun
    | .ok c => Text.escapeChar ['"'] c
    | .error stretch => stretch.flatMap Text.byteEscape
  String.ofList ('"' :: pieces ++ ['"'])

end Path

end QueryDoc
