import EchoLang.CommandLine.Path

namespace EchoLang.CommandLine

inductive FileError where
  | missing
  | notADirectory
  | isADirectory
  | other (text : String)
deriving DecidableEq

def FileError.message : FileError → String
  | missing => "No such file or directory (os error 2)"
  | notADirectory => "Not a directory (os error 20)"
  | isADirectory => "Is a directory (os error 21)"
  | other text => text

-- What a command does, as a value: it goes on according to the outcome of reading and
-- writing files.
inductive Script where
  | exit (code : Nat)
  | print (text : String) (next : Script)
  | complain (text : String) (next : Script)
  | read (path : String) (next : Except FileError ByteArray → Script)
  | write (path : String) (content : ByteArray) (next : Except FileError Unit → Script)

namespace Script

def fail (reason : String) : Script :=
  .complain (reason ++ "\n") (.exit 1)

-- The text of a file. The reason of a failure is put into words by `wording`.
def readText (wording : String → String) (path : String) (next : String → Script) : Script :=
  .read path fun
    | .error e => fail (wording e.message)
    | .ok bytes =>
      match String.fromUTF8? bytes with
      | some text => next text
      | none => fail (wording "stream did not contain valid UTF-8")

def writeFile (wording : String → String) (path : String) (content : ByteArray) (next : Script) :
    Script :=
  .write path content fun
    | .error e => fail (wording e.message)
    | .ok _ => next

end Script

-- Files by their steps from the directory. The directories are those on the way
-- to a file.
structure Directory where
  files : List (List String × ByteArray)

namespace Directory

def file? (d : Directory) (steps : List String) : Option ByteArray :=
  (d.files.find? (·.1 = steps)).map (·.2)

def isDirectory (d : Directory) (steps : List String) : Bool :=
  steps = [] || d.files.any fun (name, _) => steps.isPrefixOf name && steps ≠ name

-- Follows a path up to its last step, which need not exist.
def walk (d : Directory) (here : List String) : List String → Except FileError (List String)
  | [] => .ok here
  | step :: rest =>
    if d.isDirectory here then
      d.walk (if step = ".." then here.dropLast else here ++ [step]) rest
    else if (d.file? here).isSome then
      .error .notADirectory
    else
      .error .missing

-- Paths are relative. A path that starts elsewhere leads to no file.
def locate (d : Directory) (path : String) : Except FileError (List String) :=
  if path = "" ∨ path.toList.head? = some '/' then .error .missing else d.walk [] (pathSteps path)

-- A path that ends with a separator asks for a directory.
def asksForDirectory (path : String) : Bool :=
  path.toList.getLast? = some '/'

def read (d : Directory) (path : String) : Except FileError ByteArray := do
  let steps ← d.locate path
  match d.file? steps with
  | some content => if asksForDirectory path then .error .notADirectory else .ok content
  | none => if d.isDirectory steps then .error .isADirectory else .error .missing

def write (d : Directory) (path : String) (content : ByteArray) : Except FileError Directory := do
  let steps ← d.locate path
  if d.isDirectory steps ∨ asksForDirectory path then
    .error .isADirectory
  else
    return ⟨(steps, content) :: d.files.filter (·.1 ≠ steps)⟩

end Directory

structure Output where
  exit : Nat
  stdout : String
  stderr : String
  directory : Directory

namespace Script

def runIn (directory : Directory) (stdout stderr : String) : Script → Output
  | exit code => ⟨code, stdout, stderr, directory⟩
  | print text next => next.runIn directory (stdout ++ text) stderr
  | complain text next => next.runIn directory stdout (stderr ++ text)
  | read path next => (next (directory.read path)).runIn directory stdout stderr
  | write path content next =>
    match directory.write path content with
    | .ok changed => (next (.ok ())).runIn changed stdout stderr
    | .error e => (next (.error e)).runIn directory stdout stderr

end Script

end EchoLang.CommandLine
