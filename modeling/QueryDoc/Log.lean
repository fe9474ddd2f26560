import QueryDoc.Text.Layout

/-! What a run of the program leaves behind: log records, of which those from a level on are kept, and
the texts that are written. -/

namespace QueryDoc.Log

inductive Level where
  | trace
  | debug
  | info
  | warn
deriving DecidableEq, Repr

namespace Level

def rank : Level → Nat
  | trace => 0
  | debug => 1
  | info => 2
  | warn => 3

def label : Level → String
  | trace => "TRACE"
  | debug => "DEBUG"
  | info => "INFO"
  | warn => "WARN"

/-- The level that a setting names, in capitals or small letters. -/
def ofSetting? (setting : String) : Option Level :=
  if setting = "DEBUG" ∨ setting = "debug" then some debug
  else if setting = "INFO" ∨ setting = "info" then some info
  else if setting = "TRACE" ∨ setting = "trace" then some trace
  else if setting = "VERBOSE" ∨ setting = "verbose" then some debug
  else if setting = "WARN" ∨ setting = "warn" then some warn
  else none

def default : Level := warn

end Level

structure Record where
  level : Level
  message : String
deriving DecidableEq, Repr

/-- Characters with which a message could steer a terminal are written as escapes. -/
def escapeChar (c : Char) : List Char :=
  if c = '\x1b' ∨ c = '\x07' ∨ c = '\x08' ∨ c = '\x0c' ∨ c = '\x7f' then
    '\\' :: 'x' :: (if c.toNat < 16 then ['0'] else []) ++ Nat.toDigits 16 c.toNat
  else if 0x80 ≤ c.toNat ∧ c.toNat ≤ 0x9F then
    '\\' :: 'u' :: '{' :: Nat.toDigits 16 c.toNat ++ ['}']
  else [c]

def shown (text : String) : String :=
  String.ofList (text.toList.flatMap escapeChar)

def Record.render (r : Record) : String :=
  s!"{r.level.label} {shown r.message}"

/-- The level that a run logs at, and the records that its choice gives rise to. Asking for verbose
output settles the level; without that a setting may name it. -/
def setUp (verbose : Bool) (setting : Option String) : Level × List Record :=
  let setting := setting.map fun text => String.ofList (Text.trim text.toList)
  let (level, warnings) :=
    if verbose then (Level.debug, [])
    else
      match setting with
      | none => (Level.default, [])
      | some text =>
        match Level.ofSetting? text with
        | some level => (level, [])
        | none =>
          (Level.default,
            [⟨.warn, s!"Invalid `LOG_LEVEL` environment variable value: `{text}`"⟩])
  (level, ⟨.trace, s!"Initial logging level set to `{level.label}`."⟩ :: warnings)

def visible (level : Level) (records : List Record) : List Record :=
  records.filter fun r => level.rank ≤ r.level.rank

end QueryDoc.Log

namespace QueryDoc

structure Outcome where
  succeeded : Bool
  /-- Whether the run did not come to its end. What the runtime writes then is left out. -/
  brokenDown : Bool := false
  stdout : String
  stderr : String
  records : List Log.Record
deriving Repr

namespace Outcome

def exitCode (o : Outcome) : UInt32 :=
  if o.brokenDown then 101 else if o.succeeded then 0 else 1

/-- Puts the records of setting up in front and keeps those that the level admits. -/
def logged (o : Outcome) (verbose : Bool) (setting : Option String) : Outcome :=
  let (level, first) := Log.setUp verbose setting
  { o with records := Log.visible level (first ++ o.records) }

end Outcome

end QueryDoc
