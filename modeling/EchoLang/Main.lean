import EchoLang.CommandLine.Compiler
import EchoLang.CommandLine.Runner

namespace EchoLang.CommandLine

def fileErrorOf (e : IO.Error) : FileError :=
  match e with
  | .noFileOrDirectory .. => .missing
  | .inappropriateType _ code _ => if code = 21 then .isADirectory else .notADirectory
  | .permissionDenied .. => .other "Permission denied (os error 13)"
  | other => .other (toString other)

def attempt {α : Type} (action : IO α) : IO (Except FileError α) := do
  try
    return .ok (← action)
  catch e =>
    return .error (fileErrorOf e)

-- Carries a script out in the file system.
def Script.perform : Script → IO UInt32
  | exit code => return code.toUInt32
  | print text next => do
    IO.print text
    next.perform
  | complain text next => do
    IO.eprint text
    next.perform
  | read path next => do
    (next (← attempt (IO.FS.readBinFile path))).perform
  | write path content next => do
    (next (← attempt (IO.FS.writeBinFile path content))).perform

end EchoLang.CommandLine

-- The first argument says which of the two commands is meant.
def main (args : List String) : IO UInt32 :=
  match args with
  | "pixel" :: rest => (EchoLang.CommandLine.Compiler.command .quoting rest).perform
  | "svm" :: rest => (EchoLang.CommandLine.Runner.command rest).perform
  | _ =>
    (EchoLang.CommandLine.Script.complain
      (EchoLang.CommandLine.Compiler.usage ++ EchoLang.CommandLine.Runner.usage)
      (.exit 2)).perform
