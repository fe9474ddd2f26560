import QueryDoc.Style

/-! The arguments of the program. Without a command it starts a session. -/

namespace QueryDoc

inductive Command where
  | session
  | render
deriving DecidableEq, Repr

structure CommandLine where
  command : Option Command := none
  style : Style := .pretty
  verbose : Bool := false
  prompts : Bool := true
  json : Bool := false
  extensions : List String := []
  paths : List String := []
deriving Repr

namespace CommandLine

def extensionOption : String := "--graphql-file-exts"

def valueOf? (option argument : String) : Option String :=
  let head := option.toList ++ ['=']
  if head.isPrefixOf argument.toList then
    some (String.ofList (argument.toList.drop head.length))
  else none

/-- Takes in a single argument that stands before a double dash. -/
def add (c : CommandLine) (argument : String) : Except String CommandLine :=
  if argument = "--minify" then .ok { c with style := .minified }
  else if argument = "--verbose" ∨ argument = "-v" then .ok { c with verbose := true }
  else
    match c.command with
    | none =>
      if argument = "repl" then .ok { c with command := some .session }
      else if argument = "render" then .ok { c with command := some .render }
      else .error s!"unexpected argument '{argument}'"
    | some .session =>
      if argument = "--no-prompt" then .ok { c with prompts := false }
      else .error s!"unexpected argument '{argument}'"
    | some .render =>
      if argument = "--json" then .ok { c with json := true }
      else
        match valueOf? extensionOption argument with
        | some value => .ok { c with extensions := c.extensions ++ [value] }
        | none =>
          if argument.startsWith "-" then .error s!"unexpected argument '{argument}'"
          else .ok { c with paths := c.paths ++ [argument] }

/-- Takes in arguments one after the other. Behind a double dash all of them are paths. -/
def addAll (c : CommandLine) : List String → Except String CommandLine
  | [] => .ok c
  | [argument] => if argument = "--" then .ok c else c.add argument
  | argument :: next :: rest =>
    if argument = "--" ∧ c.command = some .render then
      .ok { c with paths := c.paths ++ next :: rest }
    else if argument = extensionOption ∧ c.command = some .render then
      addAll { c with extensions := c.extensions ++ [next] } rest
    else
      match c.add argument with
      | .ok c => addAll c (next :: rest)
      | .error message => .error message

/-- Rendering needs a path at least. -/
def parse (arguments : List String) : Except String CommandLine :=
  match addAll {} arguments with
  | .error message => .error message
  | .ok c =>
    if c.command = some .render ∧ c.paths = [] then .error "no file or directory is given"
    else .ok c

end CommandLine

end QueryDoc
