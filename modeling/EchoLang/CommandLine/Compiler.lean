import EchoLang.CommandLine.Arguments
import EchoLang.CommandLine.Padding
import EchoLang.CommandLine.Script
import EchoLang.Compile
import EchoLang.Program.Dump

namespace EchoLang.CommandLine.Compiler

def anyText : String → Bool := fun _ => true

def compileSpec : CommandSpec where
  options :=
    [⟨"target", some 't', some anyText⟩, ⟨"output", some 'o', some anyText⟩,
      ⟨"optimize", none, none⟩, ⟨"show-ast", none, none⟩, ⟨"show-tokens", none, none⟩]
  operands := 1
  hasVersion := false

def parseSpec : CommandSpec := ⟨[], 1, false⟩

def targetsSpec : CommandSpec := ⟨[], 0, false⟩

def topSpec : CommandSpec := ⟨[], 0, true⟩

def usage : String :=
  "Usage: pixel compile <INPUT> [-t <TARGET>] [-o <OUTPUT>]\n" ++
  "           [--optimize] [--show-ast] [--show-tokens]\n" ++
  "       pixel parse <INPUT>\n" ++
  "       pixel targets\n"

def fileWording (reason : String) : String :=
  "IO error: " ++ reason

def onOk {α : Type} (result : Except CompileError α) (next : α → Script) : Script :=
  match result with
  | .ok value => next value
  | .error e => .fail e.message

def tokenLine (t : Token) : String :=
  s!"{t.loc.render}\t{t.kind.name} {t.quoted}\n"

def showTokens (source : String) (next : Script) : Script :=
  .print "=== TOKENS ===\n" <| onOk (Token.ofSource source) fun tokens =>
    .print (String.join (tokens.map tokenLine)) next

def showProgram (source : String) (next : Script) : Script :=
  onOk (Program.ofSource source) fun p =>
    .print ("=== AST ===\n" ++ Dump.program p.withEntry ++ "\n") next

def writeArtifact (target : Target) (base : String) (artifact : Artifact) : Script :=
  match target with
  | .wasm =>
    let bytes := ByteArray.mk artifact.binary.toArray
    .writeFile fileWording (base ++ ".wat") artifact.text.toUTF8 <|
    .writeFile fileWording (base ++ ".wasm") bytes <|
    .print (s!"Compiled to: {base}.wat and {base}.wasm\n" ++
      s!"Module size: {artifact.binary.length} bytes\n") <|
    .exit 0
  | .listing =>
    .writeFile fileWording (base ++ ".lst") artifact.text.toUTF8 <|
    .print s!"Listing written to: {base}.lst\n" <|
    .exit 0

-- The target is checked before anything else, and a part of the report is out
-- before what comes after it can fail.
def compileScript (printer : Wasm.Printer) (a : Arguments) (input : String) : Script :=
  let targetName := (a.value? "target").getD Target.wasm.name
  match Target.ofName? targetName with
  | none => .fail (CompileError.target (.unknownTarget targetName)).message
  | some target =>
    .print s!"Compiling {input} for {targetName}...\n" <|
    .readText fileWording input fun source =>
      let write :=
        onOk (compile printer target (unitName input) source (a.has "optimize"))
          (writeArtifact target ((a.value? "output").getD (outputBase input)))
      let shown := if a.has "show-ast" then showProgram source write else write
      if a.has "show-tokens" then showTokens source shown else shown

def parseScript (input : String) : Script :=
  .print s!"Parsing {input}...\n" <|
  .readText fileWording input fun source =>
    .print ("=== SOURCE ===\n" ++ source ++ "\n=== TOKENS ===\n") <|
    onOk (Token.ofSource source) fun tokens =>
      .print (String.join (tokens.map fun t => Dump.token t ++ "\n") ++ "=== AST ===\n") <|
      onOk (Program.ofTokens tokens) fun p =>
        .print (Dump.program p ++ "\n") <|
        .exit 0

def targetLine (t : Target) : String :=
  s!"  {padRight 8 t.name} - {t.description}\n"

def targetsScript : Script :=
  .print ("Supported targets:\n" ++ String.join (Target.all.map targetLine)) (.exit 0)

def respond (request : Request) (script : Arguments → Script) : Script :=
  match request with
  | .invalid => .complain usage (.exit 2)
  | .help => .print usage (.exit 0)
  | .version => .print "pixel 0.1.0\n" (.exit 0)
  | .perform a => script a

-- What the command does with its arguments.
def command (printer : Wasm.Printer) (args : List String) : Script :=
  match args with
  | "compile" :: rest =>
      respond (compileSpec.read rest) fun a => compileScript printer a (a.operands.headD "")
  | "parse" :: rest => respond (parseSpec.read rest) fun a => parseScript (a.operands.headD "")
  | "targets" :: rest => respond (targetsSpec.read rest) fun _ => targetsScript
  | _ => respond (topSpec.read args) fun _ => .complain usage (.exit 2)

end EchoLang.CommandLine.Compiler
