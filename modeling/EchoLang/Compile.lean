import EchoLang.Code.Text
import EchoLang.Target
import EchoLang.Wasm.Encode
import EchoLang.Wasm.Printer

namespace EchoLang

-- A compiled unit as text and as bytes.
structure Artifact where
  unit : String
  text : String
  binary : List UInt8
deriving DecidableEq

-- A listing has no binary form. The text of a WebAssembly module is what the printer makes of
-- its binary.
def CodeModule.emit (printer : Wasm.Printer) (target : Target) (m : CodeModule) :
    Except CompileError Artifact :=
  match target with
  | .listing => .ok ⟨m.unit, m.listing, []⟩
  | .wasm => do
    let binary ← Wasm.encode m
    match printer binary with
    | .ok text => return ⟨m.unit, text, binary⟩
    | .error reason => .error (.target (.unprintable reason))

def CodeModule.simplifyIf (optimize : Bool) (m : CodeModule) : CodeModule :=
  if optimize then m.simplify else m

-- The module of a source text, alone in its unit.
def CodeModule.ofSource (target : Target) (unit source : String) (optimize : Bool) :
    Except CompileError CodeModule :=
  match (CodeModule.empty unit).addSource target source with
  | (_, some e) => .error e
  | (m, none) => .ok (m.simplifyIf optimize)

def compile (printer : Wasm.Printer) (target : Target) (unit source : String)
    (optimize : Bool) : Except CompileError Artifact := do
  let m ← CodeModule.ofSource target unit source optimize
  m.emit printer target

end EchoLang
