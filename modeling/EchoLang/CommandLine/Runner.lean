import EchoLang.CommandLine.Arguments
import EchoLang.CommandLine.Padding
import EchoLang.CommandLine.Script
import EchoLang.Compile
import EchoLang.Machine.Exec

namespace EchoLang.CommandLine.Runner

def spec : CommandSpec where
  options :=
    [⟨"entry", none, some fun _ => true⟩, ⟨"max-steps", none, some fun t => (word64? t).isSome⟩,
      ⟨"trace", none, none⟩, ⟨"optimize", none, none⟩]
  operands := 1
  hasVersion := true

def usage : String :=
  "Usage: svm <INPUT> [--entry <ENTRY>] [--max-steps <MAX_STEPS>] [--trace] [--optimize]\n"

def tableRow (step function instr stack : String) : String :=
  padLeft 6 step ++ "  " ++ padRight 12 function ++ " " ++ padRight 28 instr ++ " " ++ stack ++ "\n"

def entryRow (e : TraceEntry) : String :=
  tableRow (toString e.step) e.function e.instr
    ("[" ++ String.intercalate ", " (e.stack.reverse.map (·.render)) ++ "]")

def traceTable (entries : List TraceEntry) : String :=
  "=== TRACE ===\n" ++ tableRow "step" "function" "instruction" "stack" ++
    String.join (entries.map entryRow)

def printedText (printed : List Float32) : String :=
  String.join (printed.map fun x => NumberFormat.plain.write x ++ "\n")

-- What was printed and traced is shown also when the run trapped.
def report (trap? : Option Trap) (machine : Machine) : Script :=
  let table := if machine.config.trace then traceTable machine.state.trace.toList else ""
  .print (printedText machine.state.printed.toList ++ table) <|
    match trap? with
    | none => .exit 0
    | some trap => .fail trap.message

def runScript (a : Arguments) (input : String) : Script :=
  let steps := ((a.value? "max-steps").bind word64?).getD MachineConfig.default.maxSteps
  let config : MachineConfig := ⟨steps, a.has "trace"⟩
  let entry := (a.value? "entry").getD Program.entryName
  .readText id input fun source =>
    match CodeModule.ofSource .listing (unitName input) source (a.has "optimize") with
    | .error e => .fail e.message
    | .ok m =>
      let (trap?, machine) := (Machine.new config).run m entry
      report trap? machine

-- What the command does with its arguments.
def command (args : List String) : Script :=
  match spec.read args with
  | .invalid => .complain usage (.exit 2)
  | .help => .print usage (.exit 0)
  | .version => .print "svm 0.1.0\n" (.exit 0)
  | .perform a => runScript a (a.operands.headD "")

end EchoLang.CommandLine.Runner
