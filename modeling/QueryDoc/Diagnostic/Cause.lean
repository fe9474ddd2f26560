/-! Why a text is not accepted. -/

namespace QueryDoc

/-- A form that is recognised but not read. -/
inductive Feature where
  | variableDirectives
  | operationDirectives
  | fragmentDefinitions
  | multipleDefinitions
deriving DecidableEq, Repr

def Feature.describe : Feature → String
  | variableDirectives => "directives on variable definitions"
  | operationDirectives => "directives on operation definitions"
  | fragmentDefinitions => "fragment definitions"
  | multipleDefinitions => "documents with more than one definition"

inductive Cause where
  | unexpectedCharacter (expected : List String) (found : Char)
  | unexpectedEnd (expected : List String)
  | invalidNumber (text : String)
  | unterminatedString
  | duplicateField (name : String)
  | emptyConstruct (construct : String)
  | unclosed (delimiter : String)
  | nestedTooDeep (limit : Nat)
  | unsupported (feature : Feature)
deriving DecidableEq, Repr

namespace Cause

def describe : Cause → String
  | unexpectedCharacter _ found => s!"unexpected character: `{found}`"
  | unexpectedEnd _ => "unexpected end of input"
  | invalidNumber text => s!"invalid number: `{text}`"
  | unterminatedString => "unterminated string literal"
  | duplicateField name => s!"duplicate object field: `{name}`"
  | emptyConstruct construct => s!"invalid empty construct: `{construct}`"
  | unclosed delimiter => s!"unclosed delimiter: `{delimiter}`"
  | nestedTooDeep limit => s!"maximum nesting depth of {limit} exceeded"
  | unsupported feature => s!"unsupported: {feature.describe}"

def feature? : Cause → Option Feature
  | unsupported feature => some feature
  | _ => none

/-- Whether the text may only be missing its end. -/
def isIncomplete : Cause → Bool
  | unexpectedEnd _ | unclosed _ | unterminatedString => true
  | _ => false

end Cause

end QueryDoc
