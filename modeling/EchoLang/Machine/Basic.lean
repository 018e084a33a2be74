import EchoLang.Code.Text

namespace EchoLang

inductive Value where
  | f32 (x : Float32)
  | i32 (n : Int32)
deriving DecidableEq

namespace Value

def kind : Value → NumKind
  | f32 _ => .f32
  | i32 _ => .i32

def render : Value → String
  | f32 x => NumberFormat.plain.write x ++ ":f32"
  | i32 n => toString n.toInt ++ ":i32"

end Value

-- Why a run stopped before its end.
inductive Trap where
  | typeMismatch (instr : String) (expected found : NumKind)
  | stackUnderflow (instr : String)
  | unknownLocal (function : String) (slot : Nat)
  | unknownFunction (name : String)
  | unknownLabel (label : Label)
  | invalidConversion (value : Float32)
  | divisionByZero
  | stepLimit (limit : Nat)
  | callStackOverflow (depth : Nat)
deriving DecidableEq

def Trap.message : Trap → String
  | typeMismatch instr expected found =>
      s!"type mismatch in `{instr}`: expected {expected.name}, found {found.name}"
  | stackUnderflow instr => s!"stack underflow in `{instr}`"
  | unknownLocal function slot => s!"unknown local {slot} in function `{function}`"
  | unknownFunction name => s!"unknown function `{name}`"
  | unknownLabel label => s!"branch to {label.render} outside of its scope"
  | invalidConversion value =>
      "invalid conversion to integer: " ++ NumberFormat.plain.write value
  | divisionByZero => "integer remainder by zero"
  | stepLimit limit => s!"step limit of {limit} reached"
  | callStackOverflow depth => s!"call stack exhausted at depth {depth}"

-- An executed instruction with the operands right after it.
structure TraceEntry where
  step : Nat
  function : String
  instr : String
  stack : List Value
deriving DecidableEq

structure MachineConfig where
  maxSteps : Nat
  trace : Bool
deriving DecidableEq

def MachineConfig.default : MachineConfig := ⟨1000000, false⟩

-- The top of the operand stack comes first. The slots are those of the function
-- that is running, and the frames count the functions that have been entered
-- and not left.
structure State where
  stack : List Value
  slots : Array Float32
  frames : Nat
  steps : Nat
  printed : Array Float32
  trace : Array TraceEntry
deriving DecidableEq

def State.initial : State := ⟨[], #[], 0, 0, #[], #[]⟩

-- A machine keeps the state that its last run left.
structure Machine where
  config : MachineConfig
  state : State
deriving DecidableEq

def Machine.new (config : MachineConfig) : Machine := ⟨config, .initial⟩

end EchoLang
