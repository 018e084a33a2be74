import EchoLang.Code.Basic
import EchoLang.Error
import EchoLang.Lowering.Slots
import EchoLang.Program.Basic

namespace EchoLang

-- What an expression leaves on the stack. A flag is the integer 0 or 1.
inductive Shape where
  | float
  | int
  | flag
deriving DecidableEq

-- A flag serves as an integer without conversion.
def Shape.convert : Shape → Shape → List Operation
  | .int, .float => [.ofSigned]
  | .flag, .float => [.ofUnsigned]
  | .float, .int => [.saturate]
  | .float, .flag => [.floatConst 0, .floatTest .ne]
  | .int, .flag => [.intConst 0, .intOp .ne]
  | _, _ => []

namespace Operator

-- What an operator needs of both operands.
def operandShape : Operator → Shape
  | add | subtract | multiply | divide => .float
  | less | greater | lessEqual | greaterEqual | equal => .float
  | shiftLeft | shiftRight | remainder => .int
  | and | or => .flag

def resultShape : Operator → Shape
  | add | subtract | multiply | divide | remainder => .float
  | less | greater | lessEqual | greaterEqual | equal => .flag
  | shiftLeft | shiftRight => .int
  | and | or => .flag

def code : Operator → List Operation
  | add => [.floatOp .add]
  | subtract => [.floatOp .sub]
  | multiply => [.floatOp .mul]
  | divide => [.floatOp .div]
  | remainder => [.remainder, .ofUnsigned]
  | less => [.floatTest .lt]
  | greater => [.floatTest .gt]
  | lessEqual => [.floatTest .le]
  | greaterEqual => [.floatTest .ge]
  | equal => [.floatTest .eq]
  | shiftLeft => [.intOp .shl]
  | shiftRight => [.intOp .shr]
  | and => [.intOp .and]
  | or => [.intOp .or]

-- The remainder does not accept floats out of range, the shifts do.
def convertOperand (op : Operator) (shape : Shape) : List Operation :=
  if op = remainder ∧ shape = .float then
    [.truncate]
  else
    shape.convert op.operandShape

end Operator

def Slots.require (s : Slots) (name : String) (loc : Location) : Except CompileError Nat :=
  match s.resolve? name with
  | some slot => .ok slot
  | none => .error (.naming loc (.unknownVariable name))

-- The code of an expression, and what it leaves on the stack. Behind each operand stands the
-- conversion into what the operator needs: `x % y` becomes
-- `<x>; truncate; <y>; truncate; remainder; ofUnsigned`.
def Expr.lower (slots : Slots) : Expr → Except CompileError (List Operation × Shape)
  | number bits _ => .ok ([.floatConst bits], .float)
  | var name loc => do
    let slot ← slots.require name loc
    return ([.get slot], .float)
  | paren inner _ => inner.lower slots
  | binary left op right _ => do
    let (leftCode, leftShape) ← left.lower slots
    let (rightCode, rightShape) ← right.lower slots
    return (leftCode ++ op.convertOperand leftShape ++
      (rightCode ++ op.convertOperand rightShape) ++ op.code, op.resultShape)

-- The code of an expression that leaves what its use needs.
def Expr.lowerAs (slots : Slots) (shape : Shape) (e : Expr) :
    Except CompileError (List Operation) := do
  let (code, own) ← e.lower slots
  return code ++ own.convert shape

end EchoLang
