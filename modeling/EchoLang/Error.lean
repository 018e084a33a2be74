import EchoLang.Token.Basic
import EchoLang.Code.Label

namespace EchoLang

-- The constructs that own a block of statements.
inductive Construct where
  | procedure
  | loop
  | conditional
deriving DecidableEq

def Construct.keyword : Construct → String
  | procedure => "proc"
  | loop => "while"
  | conditional => "if"

-- A text that cannot be cut into tokens.
inductive LexicalFault where
  | unexpected (found : Char)
  | invalidNumber (text : String)
deriving DecidableEq

def LexicalFault.message : LexicalFault → String
  | unexpected found => s!"Unexpected character: '{found}'"
  | invalidNumber text => s!"Invalid number literal: {text}"

-- A violation of the grammar.
inductive GrammarFault where
  | unexpectedEnd
  | tooDeep (limit : Nat)
  | nestedProcedure
  | unknownStatement (found : Token)
  | unknownToken (found : Token)
  | exportWithoutProc (found : Token)
  | expectedProcedureName (found : Token)
  | expectedVariableName (found : Token)
  | missingInitializer (name : String)
  | missingOpenParen (construct : Construct) (found : Token)
  | missingCloseParen (construct : Construct) (found : Token)
  | unclosedCondition (construct : Construct)
  | unclosedBlock (construct : Construct)
  | notAnOperator (found : Token)
  | invalidNumber (found : Token)
  | unclosedParen
  | expectedOperand (found : Token)
  | strayStatement
deriving DecidableEq

namespace GrammarFault

def message : GrammarFault → String
  | unexpectedEnd => "Unexpected end of input"
  | tooDeep limit => s!"Nesting deeper than {limit} levels"
  | nestedProcedure => "Procedures can only be declared at the top level"
  | unknownStatement found => s!"Unrecognized statement: {found.quoted}"
  | unknownToken found => s!"Unrecognized token: {found.quoted}"
  | exportWithoutProc found => s!"Expected `proc` after `export`, found {found.quoted}"
  | expectedProcedureName found => s!"Expected procedure name, found {found.quoted}"
  | expectedVariableName found => s!"Expected variable name after `let`, found {found.quoted}"
  | missingInitializer name => s!"A variable must be initialized: `{name}`"
  | missingOpenParen construct found =>
      s!"`{construct.keyword}` should be followed by an open parenthesis, found {found.quoted}"
  | missingCloseParen construct found =>
      s!"`{construct.keyword}` condition should end with a close parenthesis, found {found.quoted}"
  | unclosedCondition construct => s!"Unclosed parenthesis in `{construct.keyword}` condition"
  | unclosedBlock construct => s!"`{construct.keyword}` is never closed, expected `end`"
  | notAnOperator found => s!"{found.quoted} cannot be used inside an expression"
  | invalidNumber found => s!"Invalid number literal {found.quoted}"
  | unclosedParen => "Unclosed parenthesis"
  | expectedOperand found => s!"Expected number, identifier, or '(', found {found.quoted}"
  | strayStatement => "Statement outside of a procedure in a program that declares `main`"

end GrammarFault

-- A name that does not denote what its use needs.
inductive NameFault where
  | duplicateProcedure (name : String)
  | unknownVariable (name : String)
deriving DecidableEq

def NameFault.message : NameFault → String
  | duplicateProcedure name => s!"Procedure `{name}` is already declared"
  | unknownVariable name => s!"Unknown identifier `{name}`"

-- A program that is well formed as text and still has no code.
inductive LoweringFault where
  | nestedProcedure
  | tooManyBlocks
deriving DecidableEq

def LoweringFault.message : LoweringFault → String
  | nestedProcedure => "Procedure declaration inside a procedure body"
  | tooManyBlocks => "too many blocks in one unit"

-- A module that its target refuses.
inductive TargetFault where
  | unknownTarget (name : String)
  | lateImport (name : String)
  | reservedExport (name : String)
  | branchOutOfScope (label : Label)
  | unknownCallee (name : String)
  | unprintable (reason : String)
deriving DecidableEq

def TargetFault.message : TargetFault → String
  | unknownTarget name => s!"unknown target `{name}`"
  | lateImport name => s!"effect `{name}` must be imported before any function is added"
  | reservedExport name =>
      s!"cannot export function `{name}`: the name is taken by the module memory"
  | branchOutOfScope label => s!"branch to {label.render} outside of its scope"
  | unknownCallee name => s!"call to unknown function `{name}`"
  | unprintable reason => s!"failed to print module: {reason}"

-- Each error names its cause. The wording is in the messages alone.
inductive CompileError where
  | lexical (loc : Location) (fault : LexicalFault)
  | grammar (loc : Location) (fault : GrammarFault)
  | naming (loc : Location) (fault : NameFault)
  | lowering (loc : Location) (fault : LoweringFault)
  | target (fault : TargetFault)
deriving DecidableEq

namespace CompileError

-- The place an error points at. A target judges whole modules and has none.
def location? : CompileError → Option Location
  | lexical loc _ => some loc
  | grammar loc _ => some loc
  | naming loc _ => some loc
  | lowering loc _ => some loc
  | target _ => none

def message : CompileError → String
  | lexical loc fault => s!"Lexical error at {loc.render}: {fault.message}"
  | grammar loc fault => s!"Syntax error at {loc.render}: {fault.message}"
  | naming loc fault => s!"Resolution error at {loc.render}: {fault.message}"
  | lowering loc fault => s!"Codegen error at {loc.render}: {fault.message}"
  | target fault => s!"Backend error: {fault.message}"

end CompileError

end EchoLang
