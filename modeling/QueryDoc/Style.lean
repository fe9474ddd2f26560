/-! The two ways to write a document, which differ in optional white space only. -/

namespace QueryDoc

inductive Style where
  | pretty
  | minified
deriving DecidableEq, Repr

namespace Style

def itemSeparator : Style → List Char
  | pretty => [',', ' ']
  | minified => [',']

def keySeparator : Style → List Char
  | pretty => [':', ' ']
  | minified => [':']

def defaultSeparator : Style → List Char
  | pretty => [' ', '=', ' ']
  | minified => ['=']

def gap : Style → List Char
  | pretty => [' ']
  | minified => []

def definitionSeparator : Style → List Char
  | pretty => ['\n', '\n']
  | minified => [' ']

end Style

def separated (separator : List Char) (texts : List (List Char)) : List Char :=
  separator.intercalate texts

end QueryDoc
