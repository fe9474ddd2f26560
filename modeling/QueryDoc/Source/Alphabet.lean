/-! The classes of characters from which documents are written. -/

namespace QueryDoc

def isNameStart (c : Char) : Bool :=
  c.isAlpha || c == '_'

def isNameContinue (c : Char) : Bool :=
  c.isAlphanum || c == '_'

def isNumberStart (c : Char) : Bool :=
  c.isDigit || c == '-' || c == '+'

/-- The characters of a number after its first one, in any order. -/
def isNumberContinue (c : Char) : Bool :=
  c.isDigit || c == 'e' || c == 'E' || c == '.' || c == '+' || c == '-'

def punctuators : List Char :=
  ['!', '$', '&', '(', ')', ':', '=', '@', '[', ']', '{', '|', '}']

def isPunctuator (c : Char) : Bool :=
  punctuators.contains c

/-- White space between tokens: spaces, tabs, line ends and the byte order mark. -/
def isSpace (c : Char) : Bool :=
  c == ' ' || c == '\t' || c == '\n' || c == '\r' || c == '\ufeff'

def isLineEnd (c : Char) : Bool :=
  c == '\n' || c == '\r'

/-- A name is a letter or underscore followed by letters, digits and underscores. -/
def isName (cs : List Char) : Bool :=
  match cs with
  | [] => false
  | c :: cs => isNameStart c && cs.all isNameContinue

end QueryDoc
