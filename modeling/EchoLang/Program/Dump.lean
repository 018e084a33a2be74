import EchoLang.Decimal.Format
import EchoLang.Program.Basic
import EchoLang.Token.Basic

namespace EchoLang.Dump

-- The lines of one value.
abbrev Lines := List String

def onFirst (f : String → String) : Lines → Lines
  | [] => []
  | line :: rest => f line :: rest

def onLast (f : String → String) : Lines → Lines
  | [] => []
  | [line] => [f line]
  | line :: rest => line :: onLast f rest

-- A value inside another one.
def inside (value : Lines) : Lines :=
  (onLast (· ++ ",") value).map ("    " ++ ·)

def field (name : String) (value : Lines) : Lines :=
  inside (onFirst (name ++ ": " ++ ·) value)

-- A record has a line for each of its fields, and every field ends with a comma.
def record (name : String) (fields : List Lines) : Lines :=
  (name ++ " \x7b") :: (fields.flatten ++ ["\x7d"])

def sequence (items : List Lines) : Lines :=
  if items = [] then ["[]"] else "[" :: (items.flatMap inside ++ ["]"])

-- Names are runs of letters and need no escapes.
def quoted (text : String) : String :=
  "\"" ++ text ++ "\""

def location (loc : Location) : Lines :=
  record "Location" [field "line" [toString loc.line], field "column" [toString loc.column]]

def expr : Expr → Lines
  | .number bits loc =>
      record "NumberLiteral"
        [field "value" [NumberFormat.marked.write bits.value], field "location" (location loc)]
  | .var name loc =>
      record "Identifier" [field "name" [quoted name], field "location" (location loc)]
  | .binary left op right loc =>
      record "BinaryExpr"
        [field "left" (expr left), field "op" [op.name], field "right" (expr right),
          field "location" (location loc)]
  | .paren inner loc =>
      record "SubExpr" [field "expression" (expr inner), field "location" (location loc)]

mutual

def stmt : Stmt → Lines
  | .echo value loc =>
      record "Print" [field "expression" (expr value), field "location" (location loc)]
  | .procedure name exported body loc =>
      record "ProcDecl"
        [field "name" [quoted name], field "export" [toString exported],
          field "body" (sequence (stmts body)), field "location" (location loc)]
  | .declare name value loc =>
      record "VarDeclAssign"
        [field "name" [quoted name], field "value" (expr value), field "location" (location loc)]
  | .assign name value loc =>
      record "VarAssign"
        [field "name" [quoted name], field "value" (expr value), field "location" (location loc)]
  | .loop condition body loc =>
      record "While"
        [field "condition" (expr condition), field "body" (sequence (stmts body)),
          field "location" (location loc)]
  | .ifThen condition body loc =>
      record "If"
        [field "condition" (expr condition), field "then_branch" (sequence (stmts body)),
          field "else_branch" ["None"], field "location" (location loc)]
  | .ifElse condition first second loc =>
      record "If"
        [field "condition" (expr condition), field "then_branch" (sequence (stmts first)),
          field "else_branch" ("Some(" :: (inside (sequence (stmts second)) ++ [")"])),
          field "location" (location loc)]

def stmts : List Stmt → List Lines
  | [] => []
  | s :: rest => stmt s :: stmts rest

end

def program (p : Program) : String :=
  String.intercalate "\n" (record "Program" [field "statements" (sequence (stmts p))])

-- A token takes one line.
def token (t : Token) : String :=
  s!"Token \x7b kind: {t.kind.name}, value: {quoted t.value}, " ++
    s!"location: Location \x7b line: {t.loc.line}, column: {t.loc.column} \x7d \x7d"

end EchoLang.Dump
