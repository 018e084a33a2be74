import EchoLang.FloatBits
import EchoLang.Location
import EchoLang.Program.Operator

namespace EchoLang

inductive Expr where
  | number (bits : FloatBits) (loc : Location)
  | var (name : String) (loc : Location)
  | binary (left : Expr) (op : Operator) (right : Expr) (loc : Location)
  | paren (inner : Expr) (loc : Location)
deriving DecidableEq

-- A procedure inside a procedure is a tree like any other. Parsing never
-- builds one, and lowering refuses it.
inductive Stmt where
  | echo (value : Expr) (loc : Location)
  | procedure (name : String) (exported : Bool) (body : List Stmt) (loc : Location)
  | declare (name : String) (value : Expr) (loc : Location)
  | assign (name : String) (value : Expr) (loc : Location)
  | loop (condition : Expr) (body : List Stmt) (loc : Location)
  | ifThen (condition : Expr) (body : List Stmt) (loc : Location)
  | ifElse (condition : Expr) (first second : List Stmt) (loc : Location)

-- A program is the list of its top-level statements.
abbrev Program := List Stmt

namespace Stmt

def loc : Stmt → Location
  | echo _ loc => loc
  | procedure _ _ _ loc => loc
  | declare _ _ loc => loc
  | assign _ _ loc => loc
  | loop _ _ loc => loc
  | ifThen _ _ loc => loc
  | ifElse _ _ _ loc => loc

def isProcedure : Stmt → Bool
  | procedure .. => true
  | _ => false

def isProcedureNamed (name : String) : Stmt → Bool
  | procedure own _ _ _ => own = name
  | _ => false

end Stmt

end EchoLang
