import EchoLang.Code.Simplify
import EchoLang.Lowering.Stmt
import EchoLang.Program.Entry
import EchoLang.Program.Parser
import EchoLang.Token.Lexer

namespace EchoLang

inductive Target where
  | wasm
  | listing
deriving DecidableEq

namespace Target

def all : List Target := [wasm, listing]

def name : Target → String
  | wasm => "wasm"
  | listing => "listing"

def description : Target → String
  | wasm => "WebAssembly module (.wat text and .wasm binary)"
  | listing => "Structured instruction listing (.lst)"

def ofName? (text : String) : Option Target :=
  all.find? (·.name = text)

-- The name under which a WebAssembly module exports its memory.
def memoryName : String := "memory"

end Target

namespace CodeModule

-- In WebAssembly the imported functions are numbered before all others.
def addEffect (target : Target) (m : CodeModule) (e : Effect) : Except CompileError CodeModule :=
  if target = .wasm ∧ m.functions ≠ [] then
    .error (.target (.lateImport e.name))
  else
    .ok { m with imports := m.imports ++ [e] }

def addFunction (target : Target) (m : CodeModule) (f : FunctionDef) :
    Except CompileError CodeModule :=
  if target = .wasm ∧ f.exported ∧ f.name = Target.memoryName then
    .error (.target (.reservedExport f.name))
  else
    .ok { m with functions := m.functions ++ [f] }

-- Adds functions up to the first one that is refused. The module keeps those
-- before it.
def addFunctions (target : Target) (m : CodeModule) :
    List FunctionDef → CodeModule × Option CompileError
  | [] => (m, none)
  | f :: rest =>
    match m.addFunction target f with
    | .ok m => m.addFunctions target rest
    | .error e => (m, some e)

-- Adds the code of a program. Nothing is added before all of it is lowered.
def addProgram (target : Target) (m : CodeModule) (p : Program) :
    CodeModule × Option CompileError :=
  match p.lower with
  | .error e => (m, some e)
  | .ok functions =>
    match m.addEffect target .echo with
    | .error e => (m, some e)
    | .ok m => m.addFunctions target functions

end CodeModule

def Program.ofSource (source : String) : Except CompileError Program := do
  Program.ofTokens (← Token.ofSource source)

-- Adds the code of a source text.
def CodeModule.addSource (target : Target) (m : CodeModule) (source : String) :
    CodeModule × Option CompileError :=
  match Program.ofSource source with
  | .error e => (m, some e)
  | .ok p => m.addProgram target p.withEntry

end EchoLang
