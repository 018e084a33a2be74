import EchoLang.Code.Arithmetic
import EchoLang.Program.Basic

namespace EchoLang

-- What an expression is worth.
inductive Datum where
  | float (x : Float32)
  | int (n : Int32)
  | flag (b : Bool)
deriving DecidableEq

-- Why an expression has no value.
inductive Fault where
  | divisionByZero
  | invalidConversion (value : Float32)
deriving DecidableEq

namespace Datum

-- Integers are signed here, and flags are 0 or 1.
def toFloat : Datum → Float32
  | float x => x
  | int n => floatOfSigned n
  | flag b => floatOfUnsigned (EchoLang.flag b)

def toInt : Datum → Int32
  | float x => saturate x
  | int n => n
  | flag b => EchoLang.flag b

def toFlag : Datum → Bool
  | float x => x != 0
  | int n => n != 0
  | flag b => b

-- The conversion that refuses floats out of range.
def toIntInRange : Datum → Except Fault Int32
  | float x =>
    match truncate? x with
    | some n => .ok n
    | none => .error (.invalidConversion x)
  | d => .ok d.toInt

end Datum

namespace Operator

-- An operand in the domain of the operator.
def convert (d : Datum) : Operator → Except Fault Datum
  | add | subtract | multiply | divide => .ok (.float d.toFloat)
  | less | greater | lessEqual | greaterEqual | equal => .ok (.float d.toFloat)
  | shiftLeft | shiftRight => .ok (.int d.toInt)
  | and | or => .ok (.flag d.toFlag)
  | remainder => d.toIntInRange.map .int

-- The operator on operands in its domain. Both operands of `&&` and `||` have
-- been evaluated by then. The remainder takes its operands as unsigned.
def combine (a b : Datum) : Operator → Except Fault Datum
  | add => .ok (.float (a.toFloat + b.toFloat))
  | subtract => .ok (.float (a.toFloat - b.toFloat))
  | multiply => .ok (.float (a.toFloat * b.toFloat))
  | divide => .ok (.float (a.toFloat / b.toFloat))
  | less => .ok (.flag (a.toFloat < b.toFloat))
  | greater => .ok (.flag (a.toFloat > b.toFloat))
  | lessEqual => .ok (.flag (a.toFloat ≤ b.toFloat))
  | greaterEqual => .ok (.flag (a.toFloat ≥ b.toFloat))
  | equal => .ok (.flag (a.toFloat == b.toFloat))
  | shiftLeft => .ok (.int (a.toInt <<< b.toInt))
  | shiftRight => .ok (.int (a.toInt >>> b.toInt))
  | and => .ok (.flag (a.toFlag && b.toFlag))
  | or => .ok (.flag (a.toFlag || b.toFlag))
  | remainder =>
    if b.toInt = 0 then .error .divisionByZero
    else .ok (.float (a.toInt.toUInt32 % b.toInt.toUInt32).toFloat32)

end Operator

def Expr.eval (vars : String → Float32) : Expr → Except Fault Datum
  | number bits _ => .ok (.float bits.value)
  | var name _ => .ok (.float (vars name))
  | paren inner _ => inner.eval vars
  | binary left op right _ => do
    let a ← op.convert (← left.eval vars)
    let b ← op.convert (← right.eval vars)
    op.combine a b

-- The variables of a procedure and what it has printed, the first print first.
structure Memory where
  vars : String → Float32
  printed : List Float32

namespace Memory

def start : Memory := ⟨fun _ => 0, []⟩

def assign (mem : Memory) (name : String) (x : Float32) : Memory :=
  { mem with vars := fun other => if other = name then x else mem.vars other }

def print (mem : Memory) (x : Float32) : Memory :=
  { mem with printed := mem.printed ++ [x] }

end Memory

-- An evaluation that comes to an end leaves a memory, and a fault if it did not
-- get to the end of its statements. One that goes on forever has no result.
abbrev Evaluation := Memory → Option (Memory × Option Fault)

namespace Evaluation

def done : Evaluation := fun mem => some (mem, none)

def andThen (first second : Evaluation) : Evaluation := fun mem => do
  match ← first mem with
  | (mem, none) => second mem
  | (mem, some fault) => some (mem, some fault)

def withValue (e : Expr) (use : Datum → Evaluation) : Evaluation := fun mem =>
  match e.eval mem.vars with
  | .ok d => use d mem
  | .error fault => some (mem, some fault)

-- One round of a repetition, and the rest of it.
def round (condition : Expr) (body rest : Evaluation) : Evaluation :=
  withValue condition fun d => if d.toFlag then body.andThen rest else done

-- A repetition that is given up after a number of rounds.
def rounds (condition : Expr) (body : Evaluation) : Nat → Evaluation
  | 0 => fun _ => none
  | n + 1 => round condition body (rounds condition body n)

open Classical in
-- It ends as it does in any number of rounds that is enough for it.
noncomputable def repeatWhile (condition : Expr) (body : Evaluation) : Evaluation := fun mem =>
  if h : ∃ r n, rounds condition body n mem = some r then some h.choose else none

end Evaluation

open Evaluation

mutual

-- A procedure inside a procedure does nothing. Lowering never accepts one.
noncomputable def Stmt.eval : Stmt → Evaluation
  | .echo value _ => withValue value fun d mem => some (mem.print d.toFloat, none)
  | .declare name value _ => withValue value fun d mem => some (mem.assign name d.toFloat, none)
  | .assign name value _ => withValue value fun d mem => some (mem.assign name d.toFloat, none)
  | .loop condition body _ => repeatWhile condition (evalBody body)
  | .ifThen condition body _ =>
    withValue condition fun d => if d.toFlag then evalBody body else done
  | .ifElse condition first second _ =>
    withValue condition fun d => if d.toFlag then evalBody first else evalBody second
  | .procedure .. => done

noncomputable def evalBody : List Stmt → Evaluation
  | [] => done
  | stmt :: rest => stmt.eval.andThen (evalBody rest)

end

-- What the body of a procedure prints, and the fault that ends it if any does.
noncomputable def evalProcedure (body : List Stmt) : Option (List Float32 × Option Fault) :=
  (evalBody body .start).map fun (mem, fault) => (mem.printed, fault)

end EchoLang
