import EchoLang.Proofs.Machine.Straight

namespace EchoLang

variable {α : Type} {function : String}

-- The operands or the slots are not what the code needs.
def Trap.OfOperands : Trap → Prop
  | typeMismatch .. | stackUnderflow _ | unknownLocal .. => True
  | invalidConversion _ | divisionByZero => True
  | unknownFunction _ | unknownLabel _ | stepLimit _ | callStackOverflow _ => False

namespace Exec

-- The computation returns, or traps for its operands.
abbrev NeedsOperands (c : Exec α) : Prop :=
  Obeys (fun _ => True) Trap.OfOperands c

theorem needsOperands_push (v : Value) : NeedsOperands (push v) := fun _ => trivial

theorem needsOperands_pop (instr : String) : NeedsOperands (pop instr) := by
  intro s
  unfold pop
  rw [ends_bind, ends_get]
  cases s.stack with
  | nil => trivial
  | cons v rest => trivial

theorem needsOperands_popFloat (instr : String) : NeedsOperands (popFloat instr) := by
  refine (needsOperands_pop instr).after fun v => ?_
  cases v with
  | f32 x => exact obeys_pure trivial
  | i32 n => exact obeys_throw trivial

theorem needsOperands_popInt (instr : String) : NeedsOperands (popInt instr) := by
  refine (needsOperands_pop instr).after fun v => ?_
  cases v with
  | f32 x => exact obeys_throw trivial
  | i32 n => exact obeys_pure trivial

theorem needsOperands_readSlot (slot : Nat) : NeedsOperands (readSlot function slot) := by
  intro s
  unfold readSlot
  rw [ends_bind, ends_get]
  cases s.slots[slot]? with
  | none => trivial
  | some x => trivial

theorem needsOperands_writeSlot (slot : Nat) (x : Float32) :
    NeedsOperands (writeSlot function slot x) := by
  intro s
  unfold writeSlot
  rw [ends_bind, ends_get]
  split
  · trivial
  · trivial

end Exec

open Exec

theorem Operation.run_needsOperands (function : String) (op : Operation) :
    NeedsOperands (op.run function) := by
  cases op with
  | floatConst x => exact needsOperands_push _
  | intConst n => exact needsOperands_push _
  | floatOp op =>
      exact (needsOperands_popFloat _).after fun _ => (needsOperands_popFloat _).after fun _ =>
        needsOperands_push _
  | floatTest test =>
      exact (needsOperands_popFloat _).after fun _ => (needsOperands_popFloat _).after fun _ =>
        needsOperands_push _
  | intOp op =>
      exact (needsOperands_popInt _).after fun _ => (needsOperands_popInt _).after fun _ =>
        needsOperands_push _
  | isZero => exact (needsOperands_popInt _).after fun _ => needsOperands_push _
  | remainder =>
      refine (needsOperands_popInt _).after fun b => (needsOperands_popInt _).after fun a => ?_
      cases unsignedRemainder? a b with
      | none => exact obeys_throw trivial
      | some n => exact needsOperands_push _
  | truncate =>
      refine (needsOperands_popFloat _).after fun x => ?_
      cases truncate? x with
      | none => exact obeys_throw trivial
      | some n => exact needsOperands_push _
  | saturate => exact (needsOperands_popFloat _).after fun _ => needsOperands_push _
  | ofSigned => exact (needsOperands_popInt _).after fun _ => needsOperands_push _
  | ofUnsigned => exact (needsOperands_popInt _).after fun _ => needsOperands_push _
  | get slot => exact (needsOperands_readSlot slot).after fun _ => needsOperands_push _
  | set slot => exact (needsOperands_popFloat _).after fun x => needsOperands_writeSlot slot x

end EchoLang
