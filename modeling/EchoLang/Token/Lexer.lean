import EchoLang.Decimal.Reader
import EchoLang.Error
import EchoLang.Token.Blank

namespace EchoLang.Token

-- Every lexical class is a function that gives the longest beginning of a text that belongs to
-- the class, and the empty text if there is none.

-- A comment runs up to the end of its line and leaves the line feed alone.
def comment : List Char → List Char
  | '/' :: '/' :: rest => '/' :: '/' :: rest.takeWhile (· ≠ '\n')
  | _ => []

-- Words are made of the 52 ASCII letters.
def word (cs : List Char) : List Char :=
  cs.takeWhile Char.isAlpha

def digits (cs : List Char) : List Char :=
  cs.takeWhile Char.isDigit

-- A point belongs to a number only if a digit follows it.
def fraction : List Char → List Char
  | '.' :: rest => if digits rest = [] then [] else '.' :: digits rest
  | _ => []

-- So does the letter that announces an exponent. A minus sign may stand
-- between them, a plus sign may not.
def exponent : List Char → List Char
  | 'e' :: '-' :: rest => if digits rest = [] then [] else 'e' :: '-' :: digits rest
  | 'e' :: rest => if digits rest = [] then [] else 'e' :: digits rest
  | _ => []

def magnitude (cs : List Char) : List Char :=
  let whole := digits cs
  if whole = [] then
    []
  else
    let part := fraction (cs.drop whole.length)
    whole ++ part ++ exponent (cs.drop (whole.length + part.length))

-- A minus sign in front of a digit is part of the number, never an operator.
def number : List Char → List Char
  | '-' :: rest => if magnitude rest = [] then [] else '-' :: magnitude rest
  | cs => magnitude cs

def operator (cs : List Char) : List Char :=
  (operators.find? (·.isPrefixOf cs)).getD []

def blank : List Char → List Char
  | c :: _ => if isBlank c then [c] else []
  | [] => []

def wordKind (text : List Char) : TokenKind :=
  if String.ofList text ∈ keywords then .keyword else .identifier

-- What stands at the beginning of a text. A gap carries no token.
inductive Lexeme where
  | gap (text : List Char)
  | token (kind : TokenKind) (text : List Char)

def Lexeme.text : Lexeme → List Char
  | gap text => text
  | token _ text => text

-- The first class that fits.
def lexeme? (cs : List Char) : Option Lexeme :=
  if comment cs ≠ [] then some (.gap (comment cs))
  else if word cs ≠ [] then some (.token (wordKind (word cs)) (word cs))
  else if number cs ≠ [] then some (.token .number (number cs))
  else if cs.head? = some '(' then some (.token .openParen ['('])
  else if cs.head? = some ')' then some (.token .closeParen [')'])
  else if operator cs ≠ [] then some (.token .operator (operator cs))
  else if blank cs ≠ [] then some (.gap (blank cs))
  else none

-- A number has to be a numeral that can be read.
def Lexeme.check (loc : Location) : Lexeme → Except CompileError Unit
  | gap _ => .ok ()
  | token kind text =>
    if kind = .number ∧ (Decimal.read? (String.ofList text)).isNone then
      .error (.lexical loc (.invalidNumber (String.ofList text)))
    else
      .ok ()

-- The tokens of a text that starts at the given place.
def scan (loc : Location) : List Char → Except CompileError (List Token)
  | [] => .ok []
  | c :: rest =>
    match lexeme? (c :: rest) with
    | none => .error (.lexical loc (.unexpected c))
    | some item => do
      item.check loc
      -- a lexeme is never empty, so dropping one less from the tail is exact
      let later ← scan (loc.advance item.text) (rest.drop (item.text.length - 1))
      match item with
      | .gap _ => return later
      | .token kind text => return ⟨kind, String.ofList text, loc⟩ :: later
termination_by cs => cs.length
decreasing_by simp only [List.length_drop, List.length_cons]; omega

def ofSource (source : String) : Except CompileError (List Token) :=
  scan .start source.toList

end EchoLang.Token
