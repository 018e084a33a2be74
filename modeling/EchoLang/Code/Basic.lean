import EchoLang.Code.Arithmetic
import EchoLang.Code.Label
import EchoLang.FloatBits

namespace EchoLang

inductive NumKind where
  | f32
  | i32
deriving DecidableEq

-- What works on operands and slots alone.
inductive Operation where
  | floatConst (bits : FloatBits)
  | intConst (value : Int32)
  | floatOp (op : FloatOp)
  | floatTest (test : FloatTest)
  | intOp (op : IntOp)
  | isZero
  | remainder
  | truncate
  | saturate
  | ofSigned
  | ofUnsigned
  | get (slot : Nat)
  | set (slot : Nat)
deriving DecidableEq

-- Blocks and loops own their bodies, and a branch names the scope that it leaves or
-- restarts.
inductive Instr where
  | operate (op : Operation)
  | call (name : String)
  | block (label : Label) (body : List Instr)
  | loop (label : Label) (body : List Instr)
  | branch (label : Label)
  | branchIf (label : Label)

-- Code without calls and branches.
def straight (code : List Operation) : List Instr :=
  code.map .operate

-- A function of the host. It takes one number and returns nothing.
structure Effect where
  name : String
  module : String
  field : String
  param : NumKind
deriving DecidableEq

def Effect.echo : Effect := ⟨"echo", "env", "echo", .f32⟩

-- The slots of a function hold floats. Their names stand in slot order.
structure FunctionDef where
  name : String
  exported : Bool
  locals : List String
  body : List Instr

-- Code for one unit. Names need not be unique.
structure CodeModule where
  unit : String
  imports : List Effect
  functions : List FunctionDef

namespace CodeModule

def empty (unit : String) : CodeModule := ⟨unit, [], []⟩

-- The first function of a name.
def function? (m : CodeModule) (name : String) : Option FunctionDef :=
  m.functions.find? (·.name = name)

def effect? (m : CodeModule) (name : String) : Option Effect :=
  m.imports.find? (·.name = name)

end CodeModule

end EchoLang
