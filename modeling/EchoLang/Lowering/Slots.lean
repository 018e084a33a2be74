namespace EchoLang

-- The variables of a procedure. The slots of the names are numbered from zero, in the order
-- in which the names were first declared.
structure Slots where
  names : List String
deriving DecidableEq

namespace Slots

def empty : Slots := ⟨[]⟩

def resolve? (s : Slots) (name : String) : Option Nat :=
  s.names.idxOf? name

-- The slot of a name, and the table with it. A second declaration of a name
-- denotes the same variable.
def declare (s : Slots) (name : String) : Nat × Slots :=
  match s.resolve? name with
  | some slot => (slot, s)
  | none => (s.names.length, ⟨s.names ++ [name]⟩)

def size (s : Slots) : Nat :=
  s.names.length

end Slots

end EchoLang
