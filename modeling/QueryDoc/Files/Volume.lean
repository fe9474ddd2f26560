import QueryDoc.Files.Tree

/-! File systems that are a single tree. A path is followed from the root of the tree if it begins with a
slash, and otherwise from the working directory. -/

namespace QueryDoc

namespace FileTree

def child? (name : FileName) : FileTree → Option FileTree
  | dir entries => entries.lookup name
  | file | special | closed _ => none

/-- What stands at the place that names lead to. -/
def at? : List FileName → FileTree → Option FileTree
  | [], t => some t
  | name :: names, t => (t.child? name).bind (at? names)

def isDirectory : FileTree → Bool
  | dir _ | closed _ => true
  | file | special => false

end FileTree

/-- A file tree with the contents of its files, which are told by the names that lead to them. -/
structure Volume where
  root : FileTree
  content : List FileName → Except PathFault (List UInt8)
  workingDirectory : List FileName := []

namespace Volume

/-- Follows the parts of a path from a place. Only a directory can be followed further, even by a part
that stays there, and nothing lies above the root. -/
def follow (v : Volume) (place : List FileName) : List FileName → Except PathFault (List FileName)
  | [] => .ok place
  | part :: rest =>
    match v.root.at? place with
    | none => .error .notFound
    | some here =>
      if !here.isDirectory then .error .notDirectory
      else if Path.stays part then v.follow place rest
      else if Path.goesBack part then v.follow place.dropLast rest
      else if Path.nameLimit < part.length then .error .nameTooLong
      else v.follow (place ++ [part]) rest

/-- The place that a path leads to, by the names from the root, and what stands there. -/
def find (v : Volume) (path : Path) : Except PathFault (List FileName × FileTree) :=
  if path.bytes = [] then .error .notFound
  else if path.isTooLong then .error .nameTooLong
  else
    match v.follow (if path.isAbsolute then [] else v.workingDirectory) path.parts with
    | .error fault => .error fault
    | .ok place =>
      match v.root.at? place with
      | none => .error .notFound
      | some t => .ok (place, t)

/-- The tree as a file system. -/
def system (v : Volume) : FileSystem where
  place path := (v.find path).map Prod.snd
  content path :=
    match v.find path with
    | .error fault => .error fault
    | .ok (place, t) => if t.isDirectory then .error .isDirectory else v.content place

end Volume

end QueryDoc
