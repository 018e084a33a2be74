namespace EchoLang.CommandLine

def sourceSuffix : String := ".pix"

-- The steps of a path. Empty steps and those to the same directory lead
-- nowhere.
def pathSteps (path : String) : List String :=
  ((path.splitOn "/").filter (· ≠ "")).filter (· ≠ ".")

-- What stands before the last point. A point in front of all else separates
-- nothing.
def dropExtension (name : List Char) : List Char :=
  let before := ((name.reverse.dropWhile (· ≠ '.')).drop 1).reverse
  if before = [] then name else before

-- The name of the unit in a file.
def unitName (path : String) : String :=
  match (pathSteps path).getLast? with
  | none => "module"
  | some name => if name = ".." then "module" else String.ofList (dropExtension name.toList)

-- The path without the suffix of source files.
def outputBase (path : String) : String :=
  if sourceSuffix.toList.isSuffixOf path.toList then
    String.ofList (path.toList.take (path.length - sourceSuffix.length))
  else
    path

end EchoLang.CommandLine
