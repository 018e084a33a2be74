import EchoLang.Location

namespace EchoLang

inductive TokenKind where
  | keyword
  | number
  | identifier
  | operator
  | openParen
  | closeParen
deriving DecidableEq

-- A token carries its text as written and the place of its first character.
structure Token where
  kind : TokenKind
  value : String
  loc : Location
deriving DecidableEq

namespace TokenKind

def name : TokenKind → String
  | keyword => "Keyword"
  | number => "Number"
  | identifier => "Identifier"
  | operator => "Operator"
  | openParen => "OpenParen"
  | closeParen => "CloseParen"

end TokenKind

namespace Token

-- A run of letters is a keyword only if the whole run is one of these.
def keywords : List String :=
  ["echo", "let", "while", "if", "else", "end", "proc", "export"]

-- No operator comes after a proper beginning of itself, so that the first one
-- that fits is also the longest.
def operators : List (List Char) :=
  [['<', '='], ['>', '='], ['=', '='], ['<', '<'], ['>', '>'], ['&', '&'], ['|', '|'],
    ['+'], ['-'], ['*'], ['/'], ['%'], ['<'], ['>'], ['=']]

def isKeyword (t : Token) (word : String) : Bool :=
  t.kind = .keyword && t.value = word

def isAssignSign (t : Token) : Bool :=
  t.kind = .operator && t.value = "="

-- The text of a token as messages quote it.
def quoted (t : Token) : String :=
  s!"`{t.value}`"

end Token

end EchoLang
