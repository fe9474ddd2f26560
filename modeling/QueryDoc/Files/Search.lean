import QueryDoc.Files.Tree
import QueryDoc.Log

/-! Searching paths for files to read. -/

namespace QueryDoc

/-- A path that was asked for and what stands there. -/
structure Target where
  path : Path
  place : Except PathFault FileTree

/-- What a walk from a target meets, which is only a fault if nothing stands there. -/
def Target.visits (target : Target) : List (Except WalkFault WalkEntry) :=
  match target.place with
  | .ok t => t.walk target.path
  | .error fault => [.error ⟨target.path, fault⟩]

/-- What stands at the paths that are asked for. -/
def FileSystem.targets (system : FileSystem) (paths : List Path) : List Target :=
  paths.map fun path => ⟨path, system.place path⟩

structure Search where
  /-- The paths of the files that were found. -/
  files : List Path
  errors : List String
  records : List Log.Record

namespace Search

/-- The extensions that are looked for, given the values of the option for them. Each value may
name several, between commas, with or without leading dots. -/
def wanted (values : List String) : List String :=
  if values.isEmpty then ["graphql", "graphqls"]
  else
    ((values.flatMap (·.splitOn ",")).map fun ext =>
      String.ofList (ext.toList.dropWhile (· == '.'))).eraseDups

def walkError (target : Path) (fault : WalkFault) : String :=
  s!"Failed to walk files at/under {target.quoted}: " ++
    s!"IO error for operation on {fault.path.display}: " ++
    s!"{fault.fault.message}: {fault.fault.message}"

def fault? : Except WalkFault WalkEntry → Option WalkFault
  | .error fault => some fault
  | .ok _ => none

def entryRecord (entry : WalkEntry) : Log.Record :=
  if entry.isFile then ⟨.trace, s!"Found file at {entry.path.quoted}."⟩
  else ⟨.trace, s!"Skipping non-file: {entry.path.quoted}."⟩

/-- The path of an entry of a walk if it is a file with a wanted extension. -/
def matching? (wanted : List String) (entry : WalkEntry) : Option Path :=
  match entry.isFile, entry.path.extension? with
  | true, some ext => if ext ∈ wanted then some entry.path else none
  | _, _ => none

def ofTarget (wanted : List String) (target : Target) : Search :=
  let visits := target.visits
  let entries := visits.filterMap Except.toOption
  { files := entries.filterMap (matching? wanted)
    errors := (visits.filterMap fault?).map (walkError target.path)
    records := entries.map entryRecord }

/-- The extensions as a warning lists them, in the order of what a log shows of them. -/
def describe (wanted : List String) : String :=
  let quoted := wanted.map fun ext => s!"`.{ext}`"
  ", ".intercalate (quoted.mergeSort fun a b => !decide (Log.shown b < Log.shown a))

def explicitFileWarning (path : Path) (wanted : List String) : Log.Record :=
  ⟨.warn, s!"Proceeding to render {path.quoted} even though it doesn't match any of the " ++
    s!"--graphql-file-exts ({describe wanted})."⟩

/-- The file that is asked for if there is a single target and it is a file. -/
def explicitFile? (targets : List Target) : Option Path :=
  match targets with
  | [⟨path, .ok .file⟩] => some path
  | _ => none

/-- Searches all targets in order. A file that was asked for by itself is taken even if its
extension is not wanted, and to find nothing at all is an error. -/
def ofTargets (wanted : List String) (targets : List Target) : Search :=
  let parts := targets.map (ofTarget wanted)
  let files := parts.flatMap (·.files)
  let errors := parts.flatMap (·.errors)
  let records := ⟨.debug, s!"Scanning {targets.length} input paths..."⟩ ::
    parts.flatMap (·.records)
  if files.isEmpty then
    match explicitFile? targets with
    | some path =>
      { files := [path], errors
        records := records ++ [explicitFileWarning path wanted] }
    | none =>
      { files
        errors :=
          if errors.isEmpty then ["❌ No GraphQL files found under the given paths."] else errors
        records }
  else { files, errors, records }

end Search

end QueryDoc
