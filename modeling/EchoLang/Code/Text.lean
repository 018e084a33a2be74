import EchoLang.Code.Basic
import EchoLang.Decimal.Format

namespace EchoLang

def NumKind.name : NumKind → String
  | f32 => "f32"
  | i32 => "i32"

def FloatOp.mnemonic : FloatOp → String
  | add => "f32.add"
  | sub => "f32.sub"
  | mul => "f32.mul"
  | div => "f32.div"

def FloatTest.mnemonic : FloatTest → String
  | lt => "f32.lt"
  | gt => "f32.gt"
  | le => "f32.le"
  | ge => "f32.ge"
  | eq => "f32.eq"
  | ne => "f32.ne"

def IntOp.mnemonic : IntOp → String
  | shl => "i32.shl"
  | shr => "i32.shr_s"
  | and => "i32.and"
  | or => "i32.or"
  | ne => "i32.ne"

def Operation.mnemonic : Operation → String
  | floatConst bits => "f32.const " ++ NumberFormat.plain.write bits.value
  | intConst value => "i32.const " ++ toString value.toInt
  | floatOp op => op.mnemonic
  | floatTest test => test.mnemonic
  | intOp op => op.mnemonic
  | isZero => "i32.eqz"
  | remainder => "i32.rem_u"
  | truncate => "i32.trunc_f32_s"
  | saturate => "i32.trunc_sat_f32_s"
  | ofSigned => "f32.convert_i32_s"
  | ofUnsigned => "f32.convert_i32_u"
  | get slot => s!"local.get {slot}"
  | set slot => s!"local.set {slot}"

namespace Instr

-- The instruction without its body.
def mnemonic : Instr → String
  | operate op => op.mnemonic
  | call name => s!"call ${name}"
  | block label _ => "block " ++ label.render
  | loop label _ => "loop " ++ label.render
  | branch label => "br " ++ label.render
  | branchIf label => "br_if " ++ label.render

def indent (depth : Nat) : String :=
  String.ofList (List.replicate (2 * depth) ' ')

mutual

def lines (depth : Nat) : Instr → List String
  | block label body =>
      (indent depth ++ (block label body).mnemonic) ::
        (bodyLines (depth + 1) body ++ [indent depth ++ "end"])
  | loop label body =>
      (indent depth ++ (loop label body).mnemonic) ::
        (bodyLines (depth + 1) body ++ [indent depth ++ "end"])
  | operate op => [indent depth ++ op.mnemonic]
  | call name => [indent depth ++ (call name).mnemonic]
  | branch label => [indent depth ++ (branch label).mnemonic]
  | branchIf label => [indent depth ++ (branchIf label).mnemonic]

def bodyLines (depth : Nat) : List Instr → List String
  | [] => []
  | i :: rest => i.lines depth ++ bodyLines depth rest

end

end Instr

def Effect.line (e : Effect) : String :=
  s!"  (import \"{e.module}\" \"{e.field}\" (func ${e.name} (param {e.param.name})))"

namespace FunctionDef

def head (f : FunctionDef) : String :=
  let exported := if f.exported then s!" (export \"{f.name}\")" else ""
  s!"  (func ${f.name}" ++ exported ++ String.join (f.locals.map fun l => s!" (local ${l} f32)")

def lines (f : FunctionDef) : List String :=
  f.head :: (Instr.bodyLines 2 f.body ++ ["  )"])

end FunctionDef

namespace CodeModule

def lines (m : CodeModule) : List String :=
  s!"(module ${m.unit}" :: (m.imports.map (·.line) ++ m.functions.flatMap (·.lines) ++ [")"])

-- Every line ends with a line feed, the last one too.
def listing (m : CodeModule) : String :=
  String.join (m.lines.map (· ++ "\n"))

end CodeModule

end EchoLang
