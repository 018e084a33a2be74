import EchoLang.Decimal.Reader
import EchoLang.Program.Basic
import EchoLang.Token.Basic

namespace EchoLang

-- The relations are between tokens and the trees that they derive:
--   program   := top*
--   top       := ["export"] "proc" IDENTIFIER body "end" | statement
--   body      := statement*
--   statement := "echo" expr | "let" IDENTIFIER "=" expr | IDENTIFIER "=" expr
--              | "while" condition body "end" | "if" condition body ["else" body] "end"
--   condition := "(" expr ")"
--   expr      := operand [OPERATOR expr]
--   operand   := NUMBER | IDENTIFIER | "(" expr ")"
namespace Grammar

mutual

-- An operator is the place of its expression.
inductive Expression : List Token → Expr → Prop where
  | operand {ts : List Token} {e : Expr} (h : Operand ts e) : Expression ts e
  | binary {ts us : List Token} {t : Token} {left right : Expr} {op : Operator}
      (hleft : Operand ts left) (hkind : t.kind = .operator) (hop : t.value = op.symbol)
      (hright : Expression us right) : Expression (ts ++ t :: us) (.binary left op right t.loc)

inductive Operand : List Token → Expr → Prop where
  | number {t : Token} {bits : FloatBits} (hkind : t.kind = .number)
      (hread : Decimal.read? t.value = some bits) : Operand [t] (.number bits t.loc)
  | var {t : Token} (hkind : t.kind = .identifier) : Operand [t] (.var t.value t.loc)
  | paren {opening closing : Token} {ts : List Token} {e : Expr} (hopen : opening.kind = .openParen)
      (h : Expression ts e) (hclose : closing.kind = .closeParen) :
      Operand (opening :: (ts ++ [closing])) (.paren e opening.loc)

end

inductive Condition : List Token → Expr → Prop where
  | intro {opening closing : Token} {ts : List Token} {e : Expr} (hopen : opening.kind = .openParen)
      (h : Expression ts e) (hclose : closing.kind = .closeParen) :
      Condition (opening :: (ts ++ [closing])) e

mutual

-- The place of a declaration is its name, that of any other statement its first token.
inductive Statement : List Token → Stmt → Prop where
  | echo {t : Token} {ts : List Token} {e : Expr} (ht : t.isKeyword "echo")
      (h : Expression ts e) : Statement (t :: ts) (.echo e t.loc)
  | declare {t name sign : Token} {ts : List Token} {e : Expr} (ht : t.isKeyword "let")
      (hname : name.kind = .identifier) (hsign : sign.isAssignSign) (h : Expression ts e) :
      Statement (t :: name :: sign :: ts) (.declare name.value e name.loc)
  | assign {name sign : Token} {ts : List Token} {e : Expr} (hname : name.kind = .identifier)
      (hsign : sign.isAssignSign) (h : Expression ts e) :
      Statement (name :: sign :: ts) (.assign name.value e name.loc)
  | loop {t last : Token} {ts us : List Token} {e : Expr} {body : List Stmt}
      (ht : t.isKeyword "while") (hcondition : Condition ts e) (hbody : Body us body)
      (hend : last.isKeyword "end") : Statement (t :: (ts ++ (us ++ [last]))) (.loop e body t.loc)
  | ifThen {t last : Token} {ts us : List Token} {e : Expr} {body : List Stmt}
      (ht : t.isKeyword "if") (hcondition : Condition ts e) (hbody : Body us body)
      (hend : last.isKeyword "end") :
      Statement (t :: (ts ++ (us ++ [last]))) (.ifThen e body t.loc)
  | ifElse {t middle last : Token} {ts us vs : List Token} {e : Expr} {first second : List Stmt}
      (ht : t.isKeyword "if") (hcondition : Condition ts e) (hfirst : Body us first)
      (helse : middle.isKeyword "else") (hsecond : Body vs second) (hend : last.isKeyword "end") :
      Statement (t :: (ts ++ (us ++ [middle] ++ (vs ++ [last])))) (.ifElse e first second t.loc)

inductive Body : List Token → List Stmt → Prop where
  | nil : Body [] []
  | cons {ts us : List Token} {s : Stmt} {rest : List Stmt} (first : Statement ts s)
      (later : Body us rest) : Body (ts ++ us) (s :: rest)

end

inductive TopLevel : List Token → Stmt → Prop where
  | procedure {t name last : Token} {ts : List Token} {body : List Stmt} (ht : t.isKeyword "proc")
      (hname : name.kind = .identifier) (hbody : Body ts body) (hend : last.isKeyword "end") :
      TopLevel (t :: name :: (ts ++ [last])) (.procedure name.value false body t.loc)
  | exported {t found name last : Token} {ts : List Token} {body : List Stmt}
      (ht : t.isKeyword "export") (hfound : found.isKeyword "proc")
      (hname : name.kind = .identifier) (hbody : Body ts body) (hend : last.isKeyword "end") :
      TopLevel (t :: found :: name :: (ts ++ [last])) (.procedure name.value true body t.loc)
  | statement {ts : List Token} {s : Stmt} (h : Statement ts s) : TopLevel ts s

-- Every token belongs to one statement at the top level, in the order of both.
inductive Derives : List Token → Program → Prop where
  | nil : Derives [] []
  | cons {ts us : List Token} {s : Stmt} {p : Program} (first : TopLevel ts s)
      (later : Derives us p) : Derives (ts ++ us) (s :: p)

end Grammar

-- Each expression is one level. The first operand of an operator is no expression of
-- its own and stands on the level of the whole one.
def Expr.levels : Expr → Nat
  | number _ _ => 1
  | var _ _ => 1
  | binary left _ right _ => max left.levels (right.levels + 1)
  | paren inner _ => inner.levels + 1

mutual

-- Each body is one level, an empty one too.
def Stmt.levels : Stmt → Nat
  | .echo value _ => value.levels
  | .procedure _ _ body _ => bodyLevels body + 1
  | .declare _ value _ => value.levels
  | .assign _ value _ => value.levels
  | .loop condition body _ => max condition.levels (bodyLevels body + 1)
  | .ifThen condition body _ => max condition.levels (bodyLevels body + 1)
  | .ifElse condition first second _ =>
      max condition.levels (max (bodyLevels first + 1) (bodyLevels second + 1))

-- The most levels inside of statements, their own body not counted.
def bodyLevels : List Stmt → Nat
  | [] => 0
  | s :: rest => max s.levels (bodyLevels rest)

end

def Program.levels (p : Program) : Nat := bodyLevels p

mutual

-- There is no procedure in a statement, at any level.
def Stmt.ProcedureFree : Stmt → Prop
  | .procedure .. => False
  | .loop _ body _ => BodyProcedureFree body
  | .ifThen _ body _ => BodyProcedureFree body
  | .ifElse _ first second _ => BodyProcedureFree first ∧ BodyProcedureFree second
  | .echo .. => True
  | .declare .. => True
  | .assign .. => True

def BodyProcedureFree : List Stmt → Prop
  | [] => True
  | s :: rest => s.ProcedureFree ∧ BodyProcedureFree rest

end

-- Procedures stand at the top level only.
def Program.ProceduresOnTop (p : Program) : Prop :=
  ∀ s ∈ p, s.ProcedureFree ∨
    ∃ name exported body loc, s = .procedure name exported body loc ∧ BodyProcedureFree body

end EchoLang
