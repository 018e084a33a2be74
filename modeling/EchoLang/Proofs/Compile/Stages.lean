import EchoLang.Compile
import EchoLang.Proofs.Lowering.Modules

namespace EchoLang

def functionsOfTokens (ts : List Token) : Except CompileError (List FunctionDef) := do
  let p ← Program.ofTokens ts
  p.withEntry.lower

def functionsOfSource (source : String) : Except CompileError (List FunctionDef) := do
  functionsOfTokens (← Token.ofSource source)

theorem functionsOfSource_of_ofSource {source : String} {ts : List Token}
    (h : Token.ofSource source = .ok ts) : functionsOfSource source = functionsOfTokens ts := by
  rw [functionsOfSource, h]
  rfl

theorem functionsOfSource_eq (source : String) :
    functionsOfSource source = Program.ofSource source >>= fun p => p.withEntry.lower := by
  unfold functionsOfSource Program.ofSource
  cases Token.ofSource source with
  | error e => rfl
  | ok ts => rfl

-- The module that functions are added to.
def CodeModule.printing (unit : String) : CodeModule := ⟨unit, [.echo], []⟩

-- What a target makes of functions.
def emitFunctions (printer : Wasm.Printer) (target : Target) (unit : String) (optimize : Bool)
    (functions : List FunctionDef) : Except CompileError Artifact :=
  match (CodeModule.printing unit).addFunctions target functions with
  | (_, some e) => .error e
  | (m, none) => (m.simplifyIf optimize).emit printer target

-- A module is asked for the first time when the functions are there.
theorem CodeModule.addSource_eq (target : Target) (m : CodeModule) (source : String) :
    m.addSource target source =
      match functionsOfSource source with
      | .error e => (m, some e)
      | .ok functions =>
        match m.addEffect target .echo with
        | .error e => (m, some e)
        | .ok m => m.addFunctions target functions := by
  rw [functionsOfSource_eq, addSource]
  cases Program.ofSource source with
  | error e => rfl
  | ok p => rfl

theorem CodeModule.addSource_empty (target : Target) (unit source : String) :
    (CodeModule.empty unit).addSource target source =
      match functionsOfSource source with
      | .error e => (CodeModule.empty unit, some e)
      | .ok functions => (CodeModule.printing unit).addFunctions target functions := by
  rw [addSource_eq, addEffect_empty]
  rfl

-- A listing takes all functions.
theorem CodeModule.addSource_listing (unit : String) {source : String}
    {functions : List FunctionDef} (h : functionsOfSource source = .ok functions) :
    (CodeModule.empty unit).addSource .listing source = (⟨unit, [.echo], functions⟩, none) := by
  rw [addSource_empty, h]
  exact addFunctions_listing _ _

theorem compile_eq (printer : Wasm.Printer) (target : Target) (unit source : String)
    (optimize : Bool) :
    compile printer target unit source optimize =
      functionsOfSource source >>= emitFunctions printer target unit optimize := by
  unfold compile CodeModule.ofSource
  rw [CodeModule.addSource_empty]
  cases functionsOfSource source with
  | error e => rfl
  | ok functions =>
      dsimp only [bind, Except.bind]
      unfold emitFunctions
      cases (CodeModule.printing unit).addFunctions target functions with
      | mk m refusal =>
          cases refusal with
          | some e => rfl
          | none => rfl

section Error

variable {source : String} {e : CompileError}

-- A text without functions leaves the module as it was, whatever the target.
theorem CodeModule.addSource_of_error (h : functionsOfSource source = .error e) (target : Target)
    (unit : String) :
    (CodeModule.empty unit).addSource target source = (CodeModule.empty unit, some e) := by
  rw [addSource_empty, h]

theorem compile_of_error (h : functionsOfSource source = .error e) (printer : Wasm.Printer)
    (target : Target) (unit : String) (optimize : Bool) :
    compile printer target unit source optimize = .error e := by
  rw [compile_eq, h]
  rfl

end Error

end EchoLang
