import EchoLang.Error
import EchoLang.Decimal.Reader
import EchoLang.Program.Basic

namespace EchoLang.Parser

-- Each expression and each block of statements is one level of nesting. The functions below
-- recurse on the levels that are left.
def maxNesting : Nat := 256

-- What was read, and the tokens behind it.
abbrev Parsed (α : Type) := α × List Token

def fail {α : Type} (loc : Location) (fault : GrammarFault) : Except CompileError α :=
  .error (.grammar loc fault)

-- The operand that starts with `t`. The argument `inner` reads what stands in
-- parentheses.
def operand (inner : List Token → Except CompileError (Parsed Expr)) (t : Token)
    (rest : List Token) : Except CompileError (Parsed Expr) :=
  match t.kind with
  | .number =>
    match Decimal.read? t.value with
    | some bits => .ok (.number bits t.loc, rest)
    | none => fail t.loc (.invalidNumber t)
  | .identifier => .ok (.var t.value t.loc, rest)
  | .openParen => do
    let (e, rest) ← inner rest
    match rest with
    | [] => fail t.loc .unclosedParen
    | close :: rest =>
      if close.kind = .closeParen then
        return (.paren e t.loc, rest)
      else
        fail t.loc .unclosedParen
  | _ => fail t.loc (.expectedOperand t)

-- The rest of an expression whose first operand has been read. An operator takes all of it as
-- its right operand, so that `a - b + c` is `a - (b + c)`.
def continuation (right : List Token → Except CompileError (Parsed Expr)) (left : Expr)
    (ts : List Token) : Except CompileError (Parsed Expr) :=
  match ts with
  | [] => .ok (left, [])
  | t :: rest =>
    if t.kind = .operator then
      match Operator.ofSymbol? t.value with
      | none => fail t.loc (.notAnOperator t)
      | some op => do
        let (r, rest) ← right rest
        return (.binary left op r t.loc, rest)
    else
      .ok (left, t :: rest)

-- Input that ends too early is reported at `final`, the place of the last token.
def expression (final : Location) : Nat → List Token → Except CompileError (Parsed Expr)
  | _, [] => fail final .unexpectedEnd
  | 0, t :: _ => fail t.loc (.tooDeep maxNesting)
  | level + 1, t :: rest => do
    let (left, rest) ← operand (expression final level) t rest
    continuation (expression final level) left rest

-- The parenthesised condition of a `while` or an `if`.
def condition (final : Location) (level : Nat) (construct : Construct) (ts : List Token) :
    Except CompileError (Parsed Expr) :=
  match ts with
  | [] => fail final .unexpectedEnd
  | t :: rest =>
    if t.kind = .openParen then do
      let (e, rest) ← expression final level rest
      match rest with
      | [] => fail t.loc (.unclosedCondition construct)
      | close :: rest =>
        if close.kind = .closeParen then
          return (e, rest)
        else
          fail close.loc (.missingCloseParen construct close)
    else
      fail t.loc (.missingOpenParen construct t)

-- What a `let` declares. The argument `found` is the token behind the keyword.
def declaration (final : Location) (level : Nat) (found : Token) (ts : List Token) :
    Except CompileError (Parsed Stmt) :=
  if found.kind = .identifier then
    match ts with
    | [] => fail found.loc (.missingInitializer found.value)
    | sign :: rest =>
      if sign.isAssignSign then do
        let (value, rest) ← expression final level rest
        return (.declare found.value value found.loc, rest)
      else
        fail found.loc (.missingInitializer found.value)
  else
    fail found.loc (.expectedVariableName found)

-- The word that ended a block.
inductive Closer where
  | byEnd
  | byElse
deriving DecidableEq

-- Reads a block that was opened at a place by a construct. The flag tells
-- whether `else` may end it.
abbrev BlockReader :=
  Location → Construct → Bool → List Token → Except CompileError (Parsed (List Stmt × Closer))

-- The statement that starts with the keyword `t`.
def keywordStatement (final : Location) (level : Nat) (block : BlockReader) (t : Token)
    (rest : List Token) : Except CompileError (Parsed Stmt) :=
  match t.value with
  | "echo" => do
    let (value, rest) ← expression final level rest
    return (.echo value t.loc, rest)
  | "let" =>
    match rest with
    | [] => fail final .unexpectedEnd
    | found :: rest => declaration final level found rest
  | "while" => do
    let (test, rest) ← condition final level .loop rest
    let ((body, _), rest) ← block t.loc .loop false rest
    return (.loop test body t.loc, rest)
  | "if" => do
    let (test, rest) ← condition final level .conditional rest
    let ((first, closer), rest) ← block t.loc .conditional true rest
    match closer with
    | .byEnd => return (.ifThen test first t.loc, rest)
    | .byElse =>
      let ((second, _), rest) ← block t.loc .conditional false rest
      return (.ifElse test first second t.loc, rest)
  | "proc" => fail t.loc .nestedProcedure
  | "export" => fail t.loc .nestedProcedure
  | _ => fail t.loc (.unknownStatement t)

-- The statement that starts with `t`.
def statement (final : Location) (level : Nat) (block : BlockReader) (t : Token)
    (rest : List Token) : Except CompileError (Parsed Stmt) :=
  match t.kind, rest with
  | .keyword, _ => keywordStatement final level block t rest
  | .identifier, sign :: rest =>
    if sign.isAssignSign then do
      let (value, rest) ← expression final level rest
      return (.assign t.value value t.loc, rest)
    else
      fail t.loc (.unknownToken t)
  | _, _ => fail t.loc (.unknownToken t)

def closer? (mayElse : Bool) (t : Token) : Option Closer :=
  if t.isKeyword "end" then some .byEnd
  else if mayElse && t.isKeyword "else" then some .byElse
  else none

-- Statements up to the word that ends the block. Every statement takes a token
-- at least, so as many rounds as there are tokens reach the end.
def statements (opened : Location) (construct : Construct) (mayElse : Bool)
    (read : Token → List Token → Except CompileError (Parsed Stmt)) :
    Nat → List Token → Except CompileError (Parsed (List Stmt × Closer))
  | 0, _ => fail opened (.unclosedBlock construct)
  | _, [] => fail opened (.unclosedBlock construct)
  | rounds + 1, t :: rest =>
    match closer? mayElse t with
    | some closer => .ok (([], closer), rest)
    | none => do
      let (first, rest) ← read t rest
      let ((others, closer), rest) ← statements opened construct mayElse read rounds rest
      return ((first :: others, closer), rest)

def block (final : Location) : Nat → BlockReader
  | 0, opened, _, _, _ => fail opened (.tooDeep maxNesting)
  | level + 1, opened, construct, mayElse, ts =>
    statements opened construct mayElse (statement final level (block final level)) ts.length ts

-- The procedure whose keyword `proc` has been read.
def procedure (final : Location) (opened : Location) (exported : Bool) (ts : List Token) :
    Except CompileError (Parsed Stmt) :=
  match ts with
  | [] => fail final .unexpectedEnd
  | t :: rest =>
    if t.kind = .identifier then do
      let ((body, _), rest) ← block final maxNesting opened .procedure false rest
      return (.procedure t.value exported body opened, rest)
    else
      fail t.loc (.expectedProcedureName t)

-- What starts with `t` at the top level. Only there are procedures declared.
def topLevel (final : Location) (t : Token) (rest : List Token) :
    Except CompileError (Parsed Stmt) :=
  if t.isKeyword "proc" then
    procedure final t.loc false rest
  else if t.isKeyword "export" then
    match rest with
    | [] => fail final .unexpectedEnd
    | found :: rest =>
      if found.isKeyword "proc" then
        procedure final t.loc true rest
      else
        fail found.loc (.exportWithoutProc found)
  else
    statement final maxNesting (block final maxNesting) t rest

-- All of the input. As above, every round takes a token at least.
def topLevels (final : Location) : Nat → List Token → Except CompileError Program
  | _, [] => .ok []
  | 0, t :: _ => fail t.loc (.unknownToken t)
  | rounds + 1, t :: rest => do
    let (first, rest) ← topLevel final t rest
    let others ← topLevels final rounds rest
    return first :: others

end EchoLang.Parser

namespace EchoLang

-- The place that is reported when the input ends too early.
def Token.finalPlace (ts : List Token) : Location :=
  (ts.getLast?.map (·.loc)).getD .start

def Program.ofTokens (ts : List Token) : Except CompileError Program :=
  Parser.topLevels (Token.finalPlace ts) ts.length ts

end EchoLang
