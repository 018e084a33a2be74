import EchoLang.Code.Basic

namespace EchoLang

-- The constant that an operation on two float constants leaves.
def Operation.fold? (a b : FloatBits) : Operation → Option Operation
  | floatOp op => some (floatConst (.ofValue (op.apply a.value b.value)))
  | floatTest test => some (intConst (flag (test.holds a.value b.value)))
  | _ => none

namespace Instr

-- Appends an instruction to code that is kept in reverse.
def pushFolding (done : List Instr) (i : Instr) : List Instr :=
  match done, i with
  | operate (.floatConst b) :: operate (.floatConst a) :: earlier, operate op =>
    match op.fold? a b with
    | some value => operate value :: earlier
    | none => i :: done
  | _, _ => i :: done

-- A result can be the operand of the next operation, so one pass folds a whole
-- chain of them.
def foldConstants (body : List Instr) : List Instr :=
  (body.foldl pushFolding []).reverse

def cutAfterBranch : List Instr → List Instr
  | [] => []
  | branch label :: _ => [branch label]
  | i :: rest => i :: cutAfterBranch rest

mutual

-- Applies a pass to the bodies inside an instruction.
def mapBodies (pass : List Instr → List Instr) : Instr → Instr
  | block label body => block label (pass (mapAllBodies pass body))
  | loop label body => loop label (pass (mapAllBodies pass body))
  | operate op => operate op
  | call name => call name
  | branch label => branch label
  | branchIf label => branchIf label

def mapAllBodies (pass : List Instr → List Instr) : List Instr → List Instr
  | [] => []
  | i :: rest => i.mapBodies pass :: mapAllBodies pass rest

end

-- Applies a pass at every level of nesting, the innermost first.
def everywhere (pass : List Instr → List Instr) (body : List Instr) : List Instr :=
  pass (mapAllBodies pass body)

-- Carries out the operations on constants, then drops what follows a branch in its body.
def simplify (body : List Instr) : List Instr :=
  everywhere cutAfterBranch (everywhere foldConstants body)

end Instr

def FunctionDef.simplify (f : FunctionDef) : FunctionDef :=
  { f with body := Instr.simplify f.body }

def CodeModule.simplify (m : CodeModule) : CodeModule :=
  { m with functions := m.functions.map (·.simplify) }

end EchoLang
