import EchoLang.Machine.Operate

namespace EchoLang

-- How an instruction ends if it does not trap.
inductive Flow where
  | next
  | branch (label : Label)
deriving DecidableEq

namespace Machine

def maxFrames : Nat := 64

-- Counts an instruction before it runs.
def countStep (config : MachineConfig) : Exec Unit := do
  if (← get).steps = config.maxSteps then
    throw (.stepLimit config.maxSteps)
  else
    modify fun s => { s with steps := s.steps + 1 }

def record (config : MachineConfig) (function : String) (i : Instr) : Exec Unit := do
  if config.trace then
    modify fun s =>
      { s with trace := s.trace.push ⟨s.steps, function, i.mnemonic, s.stack⟩ }

-- Keeps the lowest operands, as many as there are in a stack of the given
-- height.
def truncateTo (height : Nat) : Exec Unit :=
  modify fun s => { s with stack := s.stack.drop (s.stack.length - height) }

-- Runs the body of a block to its end or to a branch that leaves the block.
def runBlock (label : Label) (body : Exec Flow) : Exec Flow := do
  let height := (← get).stack.length
  match ← body with
  | .next => return .next
  | .branch target =>
    if target = label then
      truncateTo height
      return .next
    else
      return .branch target

-- Runs the body of a loop until it ends or branches elsewhere. Each round but
-- the last takes a step, so the number of rounds is never the limit.
def repeatLoop (config : MachineConfig) (label : Label) (height : Nat) (body : Exec Flow) :
    Nat → Exec Flow
  | 0 => throw (.stepLimit config.maxSteps)
  | rounds + 1 => do
    match ← body with
    | .next => return .next
    | .branch target =>
      if target = label then
        truncateTo height
        repeatLoop config label height body rounds
      else
        return .branch target

def runLoop (config : MachineConfig) (label : Label) (body : Exec Flow) : Exec Flow := do
  let s ← get
  repeatLoop config label s.stack.length body (config.maxSteps - s.steps + 1)

-- What a call does: an effect of the host comes before a function of the same
-- name. The only effect a host has is `echo`.
def callNamed (m : CodeModule) (enter : FunctionDef → Exec Unit) (name : String) :
    Exec Unit := do
  match m.effect? name with
  | some e =>
    if e.field = Effect.echo.field then
      Exec.print (← Exec.popFloat (Instr.call name).mnemonic)
    else
      throw (.unknownFunction name)
  | none =>
    match m.function? name with
    | some f => enter f
    | none => throw (.unknownFunction name)

-- All of running recurses on the code or on a number: a call on the frames that are left, and a
-- loop on the steps that are left, because without a step there is no branch back.
mutual

-- Runs one instruction of a function. The argument `enter` runs a function that
-- is called. Scopes are recorded when they are entered and everything else when
-- it has run.
def execInstr (config : MachineConfig) (m : CodeModule) (enter : FunctionDef → Exec Unit)
    (function : String) : Instr → Exec Flow
  | .block label body => do
    countStep config
    record config function (.block label body)
    runBlock label (execBody config m enter function body)
  | .loop label body => do
    countStep config
    record config function (.loop label body)
    runLoop config label (execBody config m enter function body)
  | .branch label => do
    countStep config
    record config function (.branch label)
    return .branch label
  | .branchIf label => do
    countStep config
    let n ← Exec.popInt (Instr.branchIf label).mnemonic
    record config function (.branchIf label)
    return if n = 0 then .next else .branch label
  | .call name => do
    countStep config
    callNamed m enter name
    record config function (.call name)
    return .next
  | .operate op => do
    countStep config
    op.run function
    record config function (.operate op)
    return .next

def execBody (config : MachineConfig) (m : CodeModule) (enter : FunctionDef → Exec Unit)
    (function : String) : List Instr → Exec Flow
  | [] => return .next
  | i :: rest => do
    match ← execInstr config m enter function i with
    | .next => execBody config m enter function rest
    | .branch label => return .branch label

end

-- Runs the body of a function in a frame of its own. The frame is gone and the
-- slots of the caller are back when the body is over, also after a trap.
def inFrame (slots : Array Float32) (body : Exec Flow) : Exec Flow := fun s =>
  match body { s with slots := slots, frames := s.frames + 1 } with
  | .ok flow t => .ok flow { t with slots := s.slots, frames := t.frames - 1 }
  | .error trap t => .error trap { t with slots := s.slots, frames := t.frames - 1 }

-- Runs a function, of which all slots are zero, if there is a frame left.
def enterFunction (config : MachineConfig) (m : CodeModule) : Nat → FunctionDef → Exec Unit
  | 0, _ => throw (.callStackOverflow maxFrames)
  | left + 1, f => do
    let slots := Array.replicate f.locals.length 0
    match ← inFrame slots (execBody config m (enterFunction config m left) f.name f.body) with
    | .next => return
    | .branch label => throw (.unknownLabel label)

-- Runs the first function of a name. What an earlier run left is discarded
-- first. The trap tells why the run stopped before its end.
def run (machine : Machine) (m : CodeModule) (entry : String) : Option Trap × Machine :=
  match m.function? entry with
  | none => (some (.unknownFunction entry), new machine.config)
  | some f =>
    match enterFunction machine.config m maxFrames f .initial with
    | .ok _ s => (none, { machine with state := s })
    | .error trap s => (some trap, { machine with state := s })

end Machine

end EchoLang
