import EchoLang.Lowering.Expr
import EchoLang.Lowering.Labels

namespace EchoLang

-- The variables declared so far and the labels still free.
structure Context where
  slots : Slots
  labels : LabelCounter
deriving DecidableEq

namespace Context

def declare (ctx : Context) (name : String) : Nat × Context :=
  let (slot, slots) := ctx.slots.declare name
  (slot, { ctx with slots := slots })

def takeLabel (ctx : Context) (loc : Location) : Except CompileError (Nat × Context) := do
  let (id, labels) ← ctx.labels.take loc
  return (id, { ctx with labels := labels })

end Context

-- Leaves the block of the given label if the condition is false.
def Expr.lowerGuard (slots : Slots) (label : Label) (e : Expr) :
    Except CompileError (List Instr) := do
  let code ← e.lowerAs slots .flag
  return straight (code ++ [.isZero]) ++ [.branchIf label]

-- while (c) s end      block exit (loop head (<c>; isZero; branchIf exit; <s>; branch head))
-- if (c) s end         block then (<c>; isZero; branchIf then; <s>)
-- if (c) s else t end  block exit (block then (<c>; isZero; branchIf then; <s>; branch exit); <t>)
mutual

def Stmt.lower : Stmt → Context → Except CompileError (List Instr × Context)
  | .echo value _, ctx => do
    let code ← value.lowerAs ctx.slots .float
    return (straight code ++ [.call Effect.echo.name], ctx)
  | .declare name value _, ctx => do
    let code ← value.lowerAs ctx.slots .float
    let (slot, ctx) := ctx.declare name
    return (straight (code ++ [.set slot]), ctx)
  | .assign name value loc, ctx => do
    let code ← value.lowerAs ctx.slots .float
    let slot ← ctx.slots.require name loc
    return (straight (code ++ [.set slot]), ctx)
  | .loop condition body loc, ctx => do
    let (id, ctx) ← ctx.takeLabel loc
    let guard ← condition.lowerGuard ctx.slots ⟨.whileExit, id⟩
    let (code, ctx) ← lowerBody body ctx
    return ([.block ⟨.whileExit, id⟩
      [.loop ⟨.whileLoop, id⟩ (guard ++ code ++ [.branch ⟨.whileLoop, id⟩])]], ctx)
  | .ifThen condition body loc, ctx => do
    let (id, ctx) ← ctx.takeLabel loc
    let guard ← condition.lowerGuard ctx.slots ⟨.ifThen, id⟩
    let (code, ctx) ← lowerBody body ctx
    return ([.block ⟨.ifThen, id⟩ (guard ++ code)], ctx)
  | .ifElse condition first second loc, ctx => do
    let (id, ctx) ← ctx.takeLabel loc
    let guard ← condition.lowerGuard ctx.slots ⟨.ifThen, id⟩
    let (firstCode, ctx) ← lowerBody first ctx
    let (secondCode, ctx) ← lowerBody second ctx
    return ([.block ⟨.ifExit, id⟩
      (.block ⟨.ifThen, id⟩ (guard ++ firstCode ++ [.branch ⟨.ifExit, id⟩]) :: secondCode)], ctx)
  | .procedure _ _ _ loc, _ => .error (.lowering loc .nestedProcedure)

def lowerBody : List Stmt → Context → Except CompileError (List Instr × Context)
  | [], ctx => .ok ([], ctx)
  | s :: rest, ctx => do
    let (code, ctx) ← s.lower ctx
    let (others, ctx) ← lowerBody rest ctx
    return (code ++ others, ctx)

end

-- Procedures have variables of their own and share the labels. The first
-- argument holds the names of the procedures before.
def lowerProcedures (declared : List String) (labels : LabelCounter) :
    Program → Except CompileError (List FunctionDef)
  | [] => .ok []
  | .procedure name exported body loc :: rest =>
    if name ∈ declared then
      .error (.naming loc (.duplicateProcedure name))
    else do
      let (code, ctx) ← lowerBody body ⟨.empty, labels⟩
      let others ← lowerProcedures (name :: declared) ctx.labels rest
      return ⟨name, exported, ctx.slots.names, code⟩ :: others
  | s :: _ => .error (.grammar s.loc .strayStatement)

def Program.lower (p : Program) : Except CompileError (List FunctionDef) :=
  lowerProcedures [] .start p

end EchoLang
