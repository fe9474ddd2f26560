import QueryDoc.Files.Path

/-! File trees, as far as a walk sees them, and all that a walk meets below a path. -/

namespace QueryDoc

/-- Why a path leads nowhere, or cannot be read. -/
inductive PathFault where
  | notFound
  | notDirectory
  | isDirectory
  | nameTooLong
  /-- Any other reason, such as a permission that is missing, in the words of the system. -/
  | other (message : String)
deriving DecidableEq, Repr

def PathFault.message : PathFault → String
  | notFound => "No such file or directory (os error 2)"
  | notDirectory => "Not a directory (os error 20)"
  | isDirectory => "Is a directory (os error 21)"
  | nameTooLong => "File name too long (os error 36)"
  | other message => message

inductive FileTree where
  | file
  /-- Neither a file nor a directory. -/
  | special
  /-- A directory with its entries, in the order in which they are listed. -/
  | dir (entries : List (FileName × FileTree))
  /-- A directory that cannot be opened. -/
  | closed (fault : PathFault)
deriving Inhabited, Repr

/-- A place met on a walk. -/
structure WalkEntry where
  path : Path
  isFile : Bool
deriving DecidableEq, Repr

/-- A place that a walk does not get past. -/
structure WalkFault where
  path : Path
  fault : PathFault
deriving DecidableEq, Repr

mutual

/-- All places of a tree, a directory before what is in it. A directory is also met if it cannot be
opened, as one whose path is too long. -/
def FileTree.walk (path : Path) : FileTree → List (Except WalkFault WalkEntry)
  | .file => [.ok ⟨path, true⟩]
  | .special => [.ok ⟨path, false⟩]
  | .dir entries =>
    .ok ⟨path, false⟩ ::
      if path.isTooLong then [.error ⟨path, .nameTooLong⟩] else FileTree.walkEntries path entries
  | .closed fault =>
    [.ok ⟨path, false⟩, .error ⟨path, if path.isTooLong then .nameTooLong else fault⟩]

def FileTree.walkEntries (path : Path) :
    List (FileName × FileTree) → List (Except WalkFault WalkEntry)
  | [] => []
  | (name, t) :: entries => t.walk (path.join name) ++ FileTree.walkEntries path entries

end

/-- What the system shows of its files. -/
structure FileSystem where
  /-- What stands at a path, as far as a walk from there sees it. -/
  place : Path → Except PathFault FileTree
  /-- The bytes that are read under a path. -/
  content : Path → Except PathFault (List UInt8)

end QueryDoc
