import EchoLang.Program.Parser
import EchoLang.Proofs.Except

namespace EchoLang

section Moving

variable (f : Location → Location)

def Token.moved (t : Token) : Token := { t with loc := f t.loc }

def Expr.moved : Expr → Expr
  | number value loc => number value (f loc)
  | var name loc => var name (f loc)
  | binary left op right loc => binary left.moved op right.moved (f loc)
  | paren inner loc => paren inner.moved (f loc)

mutual

def Stmt.moved : Stmt → Stmt
  | .echo value loc => .echo (value.moved f) (f loc)
  | .procedure name exported body loc => .procedure name exported (movedBody body) (f loc)
  | .declare name value loc => .declare name (value.moved f) (f loc)
  | .assign name value loc => .assign name (value.moved f) (f loc)
  | .loop condition body loc => .loop (condition.moved f) (movedBody body) (f loc)
  | .ifThen condition body loc => .ifThen (condition.moved f) (movedBody body) (f loc)
  | .ifElse condition first second loc =>
      .ifElse (condition.moved f) (movedBody first) (movedBody second) (f loc)

def movedBody : List Stmt → List Stmt
  | [] => []
  | s :: rest => s.moved :: movedBody rest

end

def GrammarFault.moved : GrammarFault → GrammarFault
  | unknownStatement found => unknownStatement (found.moved f)
  | unknownToken found => unknownToken (found.moved f)
  | exportWithoutProc found => exportWithoutProc (found.moved f)
  | expectedProcedureName found => expectedProcedureName (found.moved f)
  | expectedVariableName found => expectedVariableName (found.moved f)
  | missingOpenParen construct found => missingOpenParen construct (found.moved f)
  | missingCloseParen construct found => missingCloseParen construct (found.moved f)
  | notAnOperator found => notAnOperator (found.moved f)
  | invalidNumber found => invalidNumber (found.moved f)
  | expectedOperand found => expectedOperand (found.moved f)
  | fault => fault

def CompileError.moved : CompileError → CompileError
  | lexical loc fault => lexical (f loc) fault
  | grammar loc fault => grammar (f loc) (fault.moved f)
  | naming loc fault => naming (f loc) fault
  | lowering loc fault => lowering (f loc) fault
  | target fault => target fault

@[simp] theorem Token.moved_kind (t : Token) : (t.moved f).kind = t.kind := rfl

@[simp] theorem Token.moved_value (t : Token) : (t.moved f).value = t.value := rfl

@[simp] theorem Token.moved_loc (t : Token) : (t.moved f).loc = f t.loc := rfl

theorem movedBody_eq_map (body : List Stmt) : movedBody f body = body.map (Stmt.moved f) := by
  induction body with
  | nil => rw [movedBody, List.map_nil]
  | cons s rest ih => rw [movedBody, List.map_cons, ih]

theorem Token.map_moved_id (ts : List Token) : ts.map (Token.moved id) = ts :=
  List.map_id ts

theorem GrammarFault.moved_id (fault : GrammarFault) : fault.moved id = fault := by
  cases fault <;> rfl

end Moving

namespace Parser

-- What was read and the tokens behind it, all of them moved.
def movedParsed {α : Type} (f : Location → Location) (move : α → α) (r : Parsed α) : Parsed α :=
  (move r.1, r.2.map (Token.moved f))

section Reading

variable {f : Location → Location} {g : CompileError → CompileError} {final : Location}

-- Errors of the grammar move too. Nothing is asked of other errors, because reading
-- has none.
def MovesFaults (f : Location → Location) (g : CompileError → CompileError) : Prop :=
  ∀ loc fault, g (.grammar loc fault) = .grammar (f loc) (fault.moved f)

theorem fail_moved (hg : MovesFaults f g) {α β : Type} {move : α → β} {loc loc' : Location}
    {fault fault' : GrammarFault} (hloc : loc' = f loc) (hfault : fault' = fault.moved f) :
    fail loc' fault' = translate g move (fail loc fault) := by
  rw [hloc, hfault]
  exact congrArg Except.error (hg loc fault).symm

-- The reader `read'` does to moved tokens what `read` does to the tokens themselves.
def ReadsMoved {α : Type} (f : Location → Location) (g : CompileError → CompileError)
    (move : α → α) (read read' : List Token → Except CompileError (Parsed α)) : Prop :=
  ∀ ts, read' (ts.map (Token.moved f)) = translate g (movedParsed f move) (read ts)

theorem operand_moved (hg : MovesFaults f g)
    {inner inner' : List Token → Except CompileError (Parsed Expr)}
    (hinner : ReadsMoved f g (Expr.moved f) inner inner') (t : Token) :
    ReadsMoved f g (Expr.moved f) (operand inner t) (operand inner' (t.moved f)) := by
  intro ts
  unfold operand
  rw [Token.moved_kind]
  cases t.kind with
  | number =>
      dsimp only [Token.moved_value]
      cases Decimal.read? t.value with
      | none => exact fail_moved hg rfl rfl
      | some value => rfl
  | identifier => rfl
  | openParen =>
      dsimp only
      rw [hinner]
      refine bind_translate _ fun (e, rest) => ?_
      cases rest with
      | nil => exact fail_moved hg rfl rfl
      | cons close rest => exact ite_translate Iff.rfl rfl (fail_moved hg rfl rfl)
  | keyword | operator | closeParen => exact fail_moved hg rfl rfl

theorem continuation_moved (hg : MovesFaults f g)
    {right right' : List Token → Except CompileError (Parsed Expr)}
    (hright : ReadsMoved f g (Expr.moved f) right right') (left : Expr) :
    ReadsMoved f g (Expr.moved f) (continuation right left)
      (continuation right' (left.moved f)) := by
  intro ts
  cases ts with
  | nil => rfl
  | cons t rest =>
      refine ite_translate Iff.rfl ?_ rfl
      rw [Token.moved_value]
      cases Operator.ofSymbol? t.value with
      | none => exact fail_moved hg rfl rfl
      | some op =>
          dsimp only
          rw [hright]
          exact bind_translate _ fun _ => rfl

theorem expression_moved (hg : MovesFaults f g) (level : Nat) :
    ReadsMoved f g (Expr.moved f) (expression final level) (expression (f final) level) := by
  induction level with
  | zero =>
      intro ts
      cases ts with
      | nil => exact fail_moved hg rfl rfl
      | cons t rest => exact fail_moved hg rfl rfl
  | succ level ih =>
      intro ts
      cases ts with
      | nil => exact fail_moved hg rfl rfl
      | cons t rest =>
          rw [List.map_cons, expression, expression, operand_moved hg ih]
          exact bind_translate _ fun (left, rest) => continuation_moved hg ih left rest

theorem condition_moved (hg : MovesFaults f g) (level : Nat) (construct : Construct) :
    ReadsMoved f g (Expr.moved f) (condition final level construct)
      (condition (f final) level construct) := by
  intro ts
  cases ts with
  | nil => exact fail_moved hg rfl rfl
  | cons t rest =>
      refine ite_translate Iff.rfl ?_ (fail_moved hg rfl rfl)
      rw [expression_moved hg]
      refine bind_translate _ fun (e, rest) => ?_
      cases rest with
      | nil => exact fail_moved hg rfl rfl
      | cons close rest => exact ite_translate Iff.rfl rfl (fail_moved hg rfl rfl)

theorem declaration_moved (hg : MovesFaults f g) (level : Nat) (found : Token) :
    ReadsMoved f g (Stmt.moved f) (declaration final level found)
      (declaration (f final) level (found.moved f)) := by
  intro ts
  refine ite_translate Iff.rfl ?_ (fail_moved hg rfl rfl)
  cases ts with
  | nil => exact fail_moved hg rfl rfl
  | cons sign rest =>
      refine ite_translate Iff.rfl ?_ (fail_moved hg rfl rfl)
      rw [expression_moved hg]
      exact bind_translate _ fun (value, rest) => rfl

-- The same for readers of blocks, whose result has a word in it that is not moved.
def ReadsMovedBlocks (f : Location → Location) (g : CompileError → CompileError)
    (block block' : BlockReader) : Prop :=
  ∀ opened construct mayElse, ReadsMoved f g (Prod.map (movedBody f) id)
    (block opened construct mayElse) (block' (f opened) construct mayElse)

theorem keywordStatement_moved (hg : MovesFaults f g) {block block' : BlockReader}
    (hblock : ReadsMovedBlocks f g block block') (level : Nat) (t : Token) :
    ReadsMoved f g (Stmt.moved f) (keywordStatement final level block t)
      (keywordStatement (f final) level block' (t.moved f)) := by
  intro ts
  unfold keywordStatement
  rw [Token.moved_value]
  split
  · rw [expression_moved hg]
    exact bind_translate _ fun (value, rest) => rfl
  · cases ts with
    | nil => exact fail_moved hg rfl rfl
    | cons found rest => exact declaration_moved hg level found rest
  · rw [condition_moved hg]
    refine bind_translate _ fun (test, rest) => ?_
    dsimp only [movedParsed, Token.moved_loc]
    rw [hblock]
    exact bind_translate _ fun ((body, closer), rest) => rfl
  · rw [condition_moved hg]
    refine bind_translate _ fun (test, rest) => ?_
    dsimp only [movedParsed, Token.moved_loc]
    rw [hblock]
    refine bind_translate _ fun ((first, closer), rest) => ?_
    cases closer with
    | byEnd => rfl
    | byElse =>
        dsimp only [movedParsed, Prod.map, id]
        rw [hblock]
        exact bind_translate _ fun ((second, closer), rest) => rfl
  · exact fail_moved hg rfl rfl
  · exact fail_moved hg rfl rfl
  · exact fail_moved hg rfl rfl

theorem statement_moved (hg : MovesFaults f g) {block block' : BlockReader}
    (hblock : ReadsMovedBlocks f g block block') (level : Nat) (t : Token) :
    ReadsMoved f g (Stmt.moved f) (statement final level block t)
      (statement (f final) level block' (t.moved f)) := by
  intro ts
  unfold statement
  rw [Token.moved_kind]
  cases t.kind with
  | keyword => exact keywordStatement_moved hg hblock level t ts
  | identifier =>
      cases ts with
      | nil => exact fail_moved hg rfl rfl
      | cons sign rest =>
          refine ite_translate Iff.rfl ?_ (fail_moved hg rfl rfl)
          rw [expression_moved hg]
          exact bind_translate _ fun (value, rest) => rfl
  | number | operator | openParen | closeParen => exact fail_moved hg rfl rfl

theorem statements_moved (hg : MovesFaults f g)
    {read read' : Token → List Token → Except CompileError (Parsed Stmt)}
    (hread : ∀ t, ReadsMoved f g (Stmt.moved f) (read t) (read' (t.moved f))) (opened : Location)
    (construct : Construct) (mayElse : Bool) (rounds : Nat) :
    ReadsMoved f g (Prod.map (movedBody f) id) (statements opened construct mayElse read rounds)
      (statements (f opened) construct mayElse read' rounds) := by
  induction rounds with
  | zero =>
      intro ts
      exact fail_moved hg rfl rfl
  | succ rounds ih =>
      intro ts
      cases ts with
      | nil => exact fail_moved hg rfl rfl
      | cons t rest =>
          have hcloser : closer? mayElse (t.moved f) = closer? mayElse t := rfl
          rw [List.map_cons, statements, statements, hcloser]
          cases closer? mayElse t with
          | some closer => rfl
          | none =>
              dsimp only
              rw [hread]
              refine bind_translate _ fun (first, rest) => ?_
              dsimp only [movedParsed]
              rw [ih]
              exact bind_translate _ fun ((others, closer), rest) => rfl

theorem block_moved (hg : MovesFaults f g) (level : Nat) :
    ReadsMovedBlocks f g (block final level) (block (f final) level) := by
  induction level with
  | zero =>
      intro opened construct mayElse ts
      exact fail_moved hg rfl rfl
  | succ level ih =>
      intro opened construct mayElse ts
      rw [block, block, List.length_map]
      exact statements_moved hg (statement_moved hg ih level) opened construct mayElse ts.length ts

theorem procedure_moved (hg : MovesFaults f g) (opened : Location) (exported : Bool) :
    ReadsMoved f g (Stmt.moved f) (procedure final opened exported)
      (procedure (f final) (f opened) exported) := by
  intro ts
  cases ts with
  | nil => exact fail_moved hg rfl rfl
  | cons t rest =>
      refine ite_translate Iff.rfl ?_ (fail_moved hg rfl rfl)
      rw [block_moved hg]
      exact bind_translate _ fun ((body, closer), rest) => rfl

theorem topLevel_moved (hg : MovesFaults f g) (t : Token) :
    ReadsMoved f g (Stmt.moved f) (topLevel final t) (topLevel (f final) (t.moved f)) := by
  intro ts
  refine ite_translate Iff.rfl (procedure_moved hg t.loc false ts) ?_
  refine ite_translate Iff.rfl ?_ (statement_moved hg (block_moved hg maxNesting) maxNesting t ts)
  cases ts with
  | nil => exact fail_moved hg rfl rfl
  | cons found rest =>
      exact ite_translate Iff.rfl (procedure_moved hg t.loc true rest) (fail_moved hg rfl rfl)

theorem topLevels_moved (hg : MovesFaults f g) (rounds : Nat) (ts : List Token) :
    topLevels (f final) rounds (ts.map (Token.moved f)) =
      translate g (movedBody f) (topLevels final rounds ts) := by
  induction rounds generalizing ts with
  | zero =>
      cases ts with
      | nil => rfl
      | cons t rest => exact fail_moved hg rfl rfl
  | succ rounds ih =>
      cases ts with
      | nil => rfl
      | cons t rest =>
          rw [List.map_cons, topLevels, topLevels, topLevel_moved hg]
          refine bind_translate _ fun (first, rest) => ?_
          dsimp only [movedParsed]
          rw [ih]
          exact bind_translate _ fun others => rfl

end Reading

end Parser

-- The place of the last token moves too. Without tokens nothing is read.
theorem Program.ofTokens_moved {f : Location → Location} {g : CompileError → CompileError}
    (hg : Parser.MovesFaults f g) (ts : List Token) :
    Program.ofTokens (ts.map (Token.moved f)) =
      translate g (movedBody f) (Program.ofTokens ts) := by
  by_cases hempty : ts = []
  · subst hempty
    rfl
  · have hfinal : Token.finalPlace (ts.map (Token.moved f)) = f (Token.finalPlace ts) := by
      simp [Token.finalPlace, List.getLast?_eq_some_getLast hempty]
    unfold Program.ofTokens
    rw [hfinal, List.length_map]
    exact Parser.topLevels_moved hg ts.length ts

-- Puts one error of the grammar in the place of all that are none.
def CompileError.asGrammar : CompileError → CompileError
  | grammar loc fault => grammar loc fault
  | _ => grammar .start .unexpectedEnd

-- Only violations of the grammar are reported. If others were replaced, the outcome
-- would be the same.
theorem Program.exists_grammar_of_ofTokens {ts : List Token} {e : CompileError}
    (h : Program.ofTokens ts = .error e) : ∃ loc fault, e = .grammar loc fault := by
  have hg : Parser.MovesFaults id CompileError.asGrammar := by
    intro loc fault
    rw [GrammarFault.moved_id]
    rfl
  have hmoved := Program.ofTokens_moved hg ts
  rw [Token.map_moved_id, h] at hmoved
  have he : e = e.asGrammar := Except.error.inj hmoved
  cases e with
  | grammar loc fault => exact ⟨loc, fault, rfl⟩
  | _ => exact ⟨_, _, he⟩

end EchoLang
