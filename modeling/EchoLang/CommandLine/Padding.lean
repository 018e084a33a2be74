namespace EchoLang.CommandLine

def blanks (n : Nat) : String :=
  String.ofList (List.replicate n ' ')

-- Widths count characters, and a text that is too wide is left as it is.
def padLeft (width : Nat) (text : String) : String :=
  blanks (width - text.length) ++ text

def padRight (width : Nat) (text : String) : String :=
  text ++ blanks (width - text.length)

end EchoLang.CommandLine
