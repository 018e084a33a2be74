import EchoLang.Machine.Basic

namespace EchoLang

-- A computation that changes the state and can trap. A trap keeps the changes.
abbrev Exec := EStateM Trap State

namespace Exec

def push (v : Value) : Exec Unit :=
  modify fun s => { s with stack := v :: s.stack }

-- Messages name the instruction that needs the operand.
def pop (instr : String) : Exec Value := do
  match (← get).stack with
  | [] => throw (.stackUnderflow instr)
  | v :: rest =>
    modify fun s => { s with stack := rest }
    return v

-- An operand that was popped is gone, also when it turns out to be of the wrong kind.
def popFloat (instr : String) : Exec Float32 := do
  match ← pop instr with
  | .f32 x => return x
  | v => throw (.typeMismatch instr .f32 v.kind)

def popInt (instr : String) : Exec Int32 := do
  match ← pop instr with
  | .i32 n => return n
  | v => throw (.typeMismatch instr .i32 v.kind)

def readSlot (function : String) (slot : Nat) : Exec Float32 := do
  match (← get).slots[slot]? with
  | some x => return x
  | none => throw (.unknownLocal function slot)

def writeSlot (function : String) (slot : Nat) (x : Float32) : Exec Unit := do
  if slot < (← get).slots.size then
    modify fun s => { s with slots := s.slots.setIfInBounds slot x }
  else
    throw (.unknownLocal function slot)

def print (x : Float32) : Exec Unit :=
  modify fun s => { s with printed := s.printed.push x }

end Exec

open Exec

-- Carries an operation out. The right operand is on top.
def Operation.run (function : String) (o : Operation) : Exec Unit := do
  match o with
  | floatConst bits => push (.f32 bits.value)
  | intConst n => push (.i32 n)
  | floatOp op =>
    let b ← popFloat o.mnemonic
    let a ← popFloat o.mnemonic
    push (.f32 (op.apply a b))
  | floatTest test =>
    let b ← popFloat o.mnemonic
    let a ← popFloat o.mnemonic
    push (.i32 (flag (test.holds a b)))
  | intOp op =>
    let b ← popInt o.mnemonic
    let a ← popInt o.mnemonic
    push (.i32 (op.apply a b))
  | isZero =>
    let n ← popInt o.mnemonic
    push (.i32 (flag (n = 0)))
  | remainder =>
    let b ← popInt o.mnemonic
    let a ← popInt o.mnemonic
    match unsignedRemainder? a b with
    | some n => push (.i32 n)
    | none => throw .divisionByZero
  | truncate =>
    let x ← popFloat o.mnemonic
    match truncate? x with
    | some n => push (.i32 n)
    | none => throw (.invalidConversion x)
  | saturate =>
    let x ← popFloat o.mnemonic
    push (.i32 (EchoLang.saturate x))
  | ofSigned =>
    let n ← popInt o.mnemonic
    push (.f32 (floatOfSigned n))
  | ofUnsigned =>
    let n ← popInt o.mnemonic
    push (.f32 (floatOfUnsigned n))
  | get slot => push (.f32 (← readSlot function slot))
  | set slot => writeSlot function slot (← popFloat o.mnemonic)

end EchoLang
