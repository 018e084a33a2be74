namespace EchoLang

-- A line and a column, both counted from one. Columns count characters.
structure Location where
  line : Nat
  column : Nat
deriving DecidableEq

namespace Location

def start : Location := ⟨1, 1⟩

-- The place behind one more character. Only a line feed opens a new line.
def step (loc : Location) (c : Char) : Location :=
  if c = '\n' then ⟨loc.line + 1, 1⟩ else ⟨loc.line, loc.column + 1⟩

-- The place behind a piece of text.
def advance (loc : Location) (text : List Char) : Location :=
  text.foldl step loc

@[simp] theorem advance_nil (loc : Location) : loc.advance [] = loc := rfl

theorem advance_append (loc : Location) (first second : List Char) :
    loc.advance (first ++ second) = (loc.advance first).advance second := by
  simp [advance]

def render (loc : Location) : String :=
  s!"{loc.line}:{loc.column}"

end Location

end EchoLang
