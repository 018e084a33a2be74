import EchoLang.Error

namespace EchoLang

-- The number that the next `while` or `if` gets.
structure LabelCounter where
  next : Nat
deriving DecidableEq

namespace LabelCounter

def start : LabelCounter := ⟨0⟩

-- Numbers have 32 bits, and the last of them is never given out.
def limit : Nat := 0xFFFFFFFF

def take (c : LabelCounter) (loc : Location) : Except CompileError (Nat × LabelCounter) :=
  if c.next = limit then
    .error (.lowering loc .tooManyBlocks)
  else
    .ok (c.next, ⟨c.next + 1⟩)

end LabelCounter

end EchoLang
