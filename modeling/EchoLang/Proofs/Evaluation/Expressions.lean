import EchoLang.Lowering.Expr
import EchoLang.Proofs.Evaluation.Basic
import EchoLang.Proofs.Lowering.Rules
import EchoLang.Proofs.Machine.Straight

namespace EchoLang

variable {function : String}

def Fault.trap : Fault → Trap
  | divisionByZero => .divisionByZero
  | invalidConversion value => .invalidConversion value

namespace Datum

def shape : Datum → Shape
  | float _ => .float
  | int _ => .int
  | flag _ => .flag

def value : Datum → Value
  | float x => .f32 x
  | int n => .i32 n
  | flag b => .i32 (EchoLang.flag b)

def convertTo (d : Datum) : Shape → Datum
  | .float => .float d.toFloat
  | .int => .int d.toInt
  | .flag => .flag d.toFlag

end Datum

-- The operations that ran left a value on top of `base`, or stopped at a fault.
def Yields (base : State) (x : Except Fault Datum) (r : EStateM.Result Trap State Unit) : Prop :=
  match x with
  | .ok d => r = .ok () (base.push d.value)
  | .error fault => ∃ t, r = .error fault.trap t

-- Code that goes on with the value of the code before it.
theorem Yields.bind {s base base' : State} {x : Except Fault Datum}
    {k : Datum → Except Fault Datum} {first second : List Operation}
    (hx : Yields base x (runAll function first s))
    (hk : ∀ d, x = .ok d → Yields base' (k d) (runAll function second (base.push d.value))) :
    Yields base' (x >>= k) (runAll function (first ++ second) s) := by
  cases x with
  | ok d =>
      rw [runAll_append_of_ok hx]
      exact hk d rfl
  | error fault =>
      obtain ⟨t, ht⟩ := hx
      exact ⟨t, runAll_append_of_error ht⟩

theorem runAll_convert (d : Datum) (shape : Shape) (s : State) :
    runAll function (d.shape.convert shape) (s.push d.value) =
      .ok () (s.push (d.convertTo shape).value) := by
  cases d <;> cases shape <;> rfl

theorem popFloat_push (instr : String) (x : Float32) (s : State) :
    Exec.popFloat instr (s.push (.f32 x)) = .ok x s := rfl

theorem popInt_push (instr : String) (n : Int32) (s : State) :
    Exec.popInt instr (s.push (.i32 n)) = .ok n s := rfl

theorem yields_truncate (x : Float32) (s : State) :
    Yields s ((Datum.float x).toIntInRange.map .int)
      (runAll function [.truncate] (s.push (.f32 x))) := by
  simp only [Datum.toIntInRange, runAll, Operation.run, bind, EStateM.bind, popFloat_push]
  cases truncate? x with
  | some n => rfl
  | none => exact ⟨s, rfl⟩

theorem yields_convertOperand (op : Operator) (d : Datum) (s : State) :
    Yields s (op.convert d) (runAll function (op.convertOperand d.shape) (s.push d.value)) := by
  by_cases hop : op = .remainder
  · subst hop
    cases d with
    | float x => exact yields_truncate x s
    | int n => rfl
    | flag b => rfl
  · have hcode : op.convertOperand d.shape = d.shape.convert op.operandShape := by
      simp [Operator.convertOperand, hop]
    have hvalue : op.convert d = .ok (d.convertTo op.operandShape) := by
      cases op <;> first | rfl | exact absurd rfl hop
    rw [hcode, hvalue]
    exact runAll_convert d _ s

-- The operand has the shape that the operator needs.
theorem shape_of_convert {op : Operator} {d a : Datum} (h : op.convert d = .ok a) :
    a.shape = op.operandShape := by
  cases op with
  | remainder =>
      unfold Operator.convert at h
      cases hint : d.toIntInRange with
      | ok n =>
          rw [hint] at h
          cases h
          rfl
      | error fault =>
          rw [hint] at h
          cases h
  | _ =>
      cases h
      rfl

theorem yields_remainder (m n : Int32) (s : State) :
    Yields s (Operator.remainder.combine (.int m) (.int n))
      (runAll function Operator.remainder.code ((s.push (.i32 m)).push (.i32 n))) := by
  simp only [Operator.combine, Operator.code, Datum.toInt, runAll, Operation.run, bind,
    EStateM.bind, popInt_push, unsignedRemainder?]
  by_cases hn : n = 0
  · simp only [hn, if_true]
    exact ⟨s, rfl⟩
  · simp only [hn, if_false]
    rfl

theorem flag_and (a b : Bool) : flag a &&& flag b = flag (a && b) := by
  cases a <;> cases b <;> decide

theorem flag_or (a b : Bool) : flag a ||| flag b = flag (a || b) := by
  cases a <;> cases b <;> decide

theorem yields_code {op : Operator} {a b : Datum} (ha : a.shape = op.operandShape)
    (hb : b.shape = op.operandShape) (s : State) :
    Yields s (op.combine a b) (runAll function op.code ((s.push a.value).push b.value)) := by
  cases a <;> cases b <;> cases op <;> cases ha <;> cases hb
  case int.int.remainder m n => exact yields_remainder m n s
  case flag.flag.and a b =>
    simp only [Operator.combine, Datum.toFlag, Yields, Datum.value, ← flag_and]
    rfl
  case flag.flag.or a b =>
    simp only [Operator.combine, Datum.toFlag, Yields, Datum.value, ← flag_or]
    rfl
  all_goals rfl

theorem shape_of_combine {op : Operator} {a b d : Datum} (h : op.combine a b = .ok d) :
    d.shape = op.resultShape := by
  cases op with
  | remainder =>
      simp only [Operator.combine] at h
      split at h
      · cases h
      · cases h
        rfl
  | _ =>
      cases h
      rfl

-- The slots hold the variables.
def Slots.Hold (slots : Slots) (vars : String → Float32) (s : State) : Prop :=
  ∀ name slot, slots.resolve? name = some slot → s.slots[slot]? = some (vars name)

theorem runAll_get {slot : Nat} {s : State} {x : Float32} (h : s.slots[slot]? = some x) :
    runAll function [.get slot] s = .ok () (s.push (.f32 x)) := by
  simp only [runAll, Operation.run, Exec.readSlot, bind, EStateM.bind, Machine.get_apply,
    h]
  rfl

theorem Expr.yields_lower (function : String) {slots : Slots} {vars : String → Float32}
    (e : Expr) {s : State} {code : List Operation} {shape : Shape}
    (h : e.lower slots = .ok (code, shape)) (hs : slots.Hold vars s) :
    Yields s (e.eval vars) (runAll function code s) ∧
      ∀ d, e.eval vars = .ok d → d.shape = shape := by
  induction e generalizing s code shape with
  | number value loc =>
      rw [Expr.lower] at h
      cases h
      refine ⟨rfl, ?_⟩
      intro d hd
      cases hd
      rfl
  | var name loc =>
      rw [Expr.lower] at h
      obtain ⟨slot, hslot, h⟩ := exists_of_bind_eq_ok h
      cases h
      refine ⟨runAll_get (hs name slot (Slots.of_require hslot)), ?_⟩
      intro d hd
      cases hd
      rfl
  | paren inner loc ih =>
      rw [Expr.lower] at h
      exact ih h hs
  | binary left op right loc ihLeft ihRight =>
      rw [Expr.lower] at h
      obtain ⟨⟨leftCode, leftShape⟩, hleft, h⟩ := exists_of_bind_eq_ok h
      obtain ⟨⟨rightCode, rightShape⟩, hright, h⟩ := exists_of_bind_eq_ok h
      cases h
      constructor
      · rw [List.append_assoc, List.append_assoc, List.append_assoc]
        obtain ⟨hy, hshape⟩ := ihLeft hleft hs
        refine hy.bind fun l hl => ?_
        rw [← hshape l hl]
        refine (yields_convertOperand op l s).bind fun a ha => ?_
        -- the right operand is evaluated on top of the converted left one
        obtain ⟨hy, hshape⟩ := ihRight (s := s.push a.value) hright hs
        refine hy.bind fun r hr => ?_
        rw [← hshape r hr]
        refine (yields_convertOperand op r _).bind fun b hb => ?_
        exact yields_code (shape_of_convert ha) (shape_of_convert hb) s
      · intro d hd
        obtain ⟨l, _, hd⟩ := exists_of_bind_eq_ok hd
        obtain ⟨a, _, hd⟩ := exists_of_bind_eq_ok hd
        obtain ⟨r, _, hd⟩ := exists_of_bind_eq_ok hd
        obtain ⟨b, _, hd⟩ := exists_of_bind_eq_ok hd
        exact shape_of_combine hd

theorem Expr.yields_lowerAs (function : String) {slots : Slots} {vars : String → Float32}
    {e : Expr} {s : State} {code : List Operation} {shape : Shape}
    (h : e.lowerAs slots shape = .ok code) (hs : slots.Hold vars s) :
    Yields s ((e.eval vars).map (·.convertTo shape)) (runAll function code s) := by
  obtain ⟨⟨own, ownShape⟩, hown, h⟩ := exists_of_bind_eq_ok h
  cases h
  obtain ⟨hy, hshape⟩ := e.yields_lower function hown hs
  refine hy.bind (k := fun d => .ok (d.convertTo shape)) fun d hd => ?_
  rw [← hshape d hd]
  exact runAll_convert d shape s

end EchoLang
