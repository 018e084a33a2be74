namespace EchoLang

inductive Operator where
  | add
  | subtract
  | multiply
  | divide
  | remainder
  | less
  | greater
  | lessEqual
  | greaterEqual
  | equal
  | shiftLeft
  | shiftRight
  | and
  | or
deriving DecidableEq

namespace Operator

def all : List Operator :=
  [add, subtract, multiply, divide, remainder, less, greater, lessEqual, greaterEqual, equal,
    shiftLeft, shiftRight, and, or]

def symbol : Operator → String
  | add => "+"
  | subtract => "-"
  | multiply => "*"
  | divide => "/"
  | remainder => "%"
  | less => "<"
  | greater => ">"
  | lessEqual => "<="
  | greaterEqual => ">="
  | equal => "=="
  | shiftLeft => "<<"
  | shiftRight => ">>"
  | and => "&&"
  | or => "||"

def name : Operator → String
  | add => "Add"
  | subtract => "Subtract"
  | multiply => "Multiply"
  | divide => "Divide"
  | remainder => "Remainder"
  | less => "Less"
  | greater => "Greater"
  | lessEqual => "LessEqual"
  | greaterEqual => "GreaterEqual"
  | equal => "Equal"
  | shiftLeft => "ShiftLeft"
  | shiftRight => "ShiftRight"
  | and => "And"
  | or => "Or"

-- The operator that a symbol stands for. The sign of assignment is none.
def ofSymbol? (text : String) : Option Operator :=
  all.find? (·.symbol = text)

theorem mem_all (op : Operator) : op ∈ all := by
  cases op <;> simp [all]

end Operator

end EchoLang
