import EchoLang.Program.Basic

namespace EchoLang.Program

def entryName : String := "main"

def declaresEntry (p : Program) : Bool :=
  p.any (·.isProcedureNamed entryName)

def procedures (p : Program) : List Stmt :=
  p.filter (·.isProcedure)

def freeStatements (p : Program) : List Stmt :=
  p.filter (!·.isProcedure)

-- The entry point made of the free statements. It starts where the first of
-- them does.
def entry (p : Program) : Stmt :=
  .procedure entryName true p.freeStatements
    ((p.freeStatements.head?.map (·.loc)).getD .start)

-- The program with an entry point. One that declares it is left as it is, and
-- keeps its free statements outside. In any other the free statements become the
-- entry point.
def withEntry (p : Program) : Program :=
  if p.declaresEntry then p else p.entry :: p.procedures

end EchoLang.Program
