namespace EchoLang

-- A `while` has a block around it and a loop inside. An `if` has a block for
-- its first branch, and a second one around both branches if it has an `else`.
inductive LabelKind where
  | whileExit
  | whileLoop
  | ifThen
  | ifExit
deriving DecidableEq

def LabelKind.name : LabelKind → String
  | whileExit => "while_exit"
  | whileLoop => "while_loop"
  | ifThen => "if_then"
  | ifExit => "if_exit"

structure Label where
  kind : LabelKind
  id : Nat
deriving DecidableEq

def Label.render (label : Label) : String :=
  s!"${label.kind.name}{label.id}"

end EchoLang
