import EchoLang.Proofs.Program.Derivation

namespace EchoLang

theorem Operator.ofSymbol?_symbol (op : Operator) : ofSymbol? op.symbol = some op := by
  cases op <;> decide

theorem Expr.levels_pos (e : Expr) : 0 < e.levels := by
  cases e with
  | number value loc => exact Nat.one_pos
  | var name loc => exact Nat.one_pos
  | binary left op right loc =>
      exact Nat.lt_of_lt_of_le right.levels.succ_pos (Nat.le_max_right _ _)
  | paren inner loc => exact inner.levels.succ_pos

namespace Token

theorem isKeyword_iff {t : Token} {word : String} :
    t.isKeyword word ↔ t.kind = .keyword ∧ t.value = word := by
  simp [isKeyword]

theorem isKeyword_unique {t : Token} {word other : String} (h : t.isKeyword word)
    (h' : t.isKeyword other) : word = other := by
  rw [← (isKeyword_iff.mp h).2, (isKeyword_iff.mp h').2]

theorem kind_ne_operator_of_isKeyword {t : Token} {word : String} (h : t.isKeyword word) :
    t.kind ≠ .operator := by
  rw [(isKeyword_iff.mp h).1]
  decide

end Token

namespace Parser

open Grammar

variable {ts us rest : List Token} {final : Location} {level : Nat}

-- The tokens do not go on with an expression that ends before them.
def Stops (rest : List Token) : Prop :=
  ∀ t ∈ rest.head?, t.kind ≠ .operator

theorem stops_nil : Stops [] := by
  intro t ht
  cases ht

theorem stops_cons {t : Token} (h : t.kind ≠ .operator) : Stops (t :: rest) := by
  intro u hu
  cases hu
  exact h

theorem stops_keyword {t : Token} {word : String} (h : t.isKeyword word) : Stops (t :: rest) :=
  stops_cons (Token.kind_ne_operator_of_isKeyword h)

theorem stops_closeParen {t : Token} (h : t.kind = .closeParen) : Stops (t :: rest) := by
  apply stops_cons
  rw [h]
  decide

-- All expressions of at most so many levels are read.
def GivesExpression (level : Nat) (read : List Token → Except CompileError (Parsed Expr)) : Prop :=
  ∀ ts e rest, Expression ts e → e.levels ≤ level → Stops rest →
    read (ts ++ rest) = .ok (e, rest)

theorem operand_of_derived {inner : List Token → Except CompileError (Parsed Expr)}
    (hinner : GivesExpression level inner) {e : Expr} (h : Operand ts e)
    (hlevels : e.levels ≤ level + 1) :
    ∃ t us, ts = t :: us ∧ ∀ rest, operand inner t (us ++ rest) = .ok (e, rest) := by
  cases h with
  | @number t value hkind hvalue =>
      refine ⟨t, [], rfl, fun rest => ?_⟩
      simp [operand, hkind, hvalue]
  | @var t hkind =>
      refine ⟨t, [], rfl, fun rest => ?_⟩
      simp [operand, hkind]
  | @paren opening closing us e hopen he hclose =>
      refine ⟨opening, us ++ [closing], rfl, fun rest => ?_⟩
      have hread := hinner us e (closing :: rest) he (Nat.le_of_succ_le_succ hlevels)
        (stops_closeParen hclose)
      rw [List.append_assoc, List.singleton_append]
      simp [operand, hopen, hread, hclose, bind, Except.bind, pure, Except.pure]

theorem continuation_of_stops {right : List Token → Except CompileError (Parsed Expr)}
    (left : Expr) (h : Stops rest) : continuation right left rest = .ok (left, rest) := by
  cases rest with
  | nil => rfl
  | cons t rest => simp [continuation, h t rfl]

theorem givesExpression_expression (final : Location) (level : Nat) :
    GivesExpression level (expression final level) := by
  induction level with
  | zero =>
      intro ts e rest _ hlevels _
      exact absurd e.levels_pos (Nat.not_lt.mpr hlevels)
  | succ level ih =>
      intro ts e rest he hlevels hstops
      cases he with
      | operand he =>
          obtain ⟨t, us, rfl, hread⟩ := operand_of_derived ih he hlevels
          rw [List.cons_append, expression, hread]
          exact continuation_of_stops e hstops
      | @binary ts us t left right op hleft hkind hop hright =>
          obtain ⟨hfirst, hlater⟩ := Nat.max_le.mp hlevels
          obtain ⟨u, vs, rfl, hread⟩ := operand_of_derived ih hleft hfirst
          have hlast := ih us right rest hright (Nat.le_of_succ_le_succ hlater) hstops
          have hsymbol : Operator.ofSymbol? t.value = some op := by
            rw [hop, Operator.ofSymbol?_symbol]
          rw [List.append_assoc, List.cons_append, expression, hread]
          simp [continuation, hkind, hsymbol, hlast, bind, Except.bind, pure, Except.pure]

theorem condition_of_derived (final : Location) {e : Expr} (h : Condition ts e)
    (hlevels : e.levels ≤ level) (construct : Construct) (rest : List Token) :
    condition final level construct (ts ++ rest) = .ok (e, rest) := by
  cases h with
  | @intro opening closing us e hopen he hclose =>
      have hread := givesExpression_expression final level us e (closing :: rest) he hlevels
        (stops_closeParen hclose)
      rw [List.cons_append, List.append_assoc, List.singleton_append]
      simp [condition, hopen, hread, hclose, bind, Except.bind, pure, Except.pure]

-- The token begins a statement.
def Begins (t : Token) : Prop :=
  t.kind = .identifier ∨ ∃ word, t.isKeyword word ∧ word ∈ ["echo", "let", "while", "if"]

theorem begins_of_statement {s : Stmt} (h : Statement ts s) : ∃ t us, ts = t :: us ∧ Begins t := by
  cases h with
  | @echo t us e ht => exact ⟨t, us, rfl, .inr ⟨_, ht, by simp⟩⟩
  | @declare t name sign us e ht => exact ⟨t, _, rfl, .inr ⟨_, ht, by simp⟩⟩
  | @assign name sign us e hname => exact ⟨name, _, rfl, .inl hname⟩
  | @loop t last us vs e body ht => exact ⟨t, _, rfl, .inr ⟨_, ht, by simp⟩⟩
  | @ifThen t last us vs e body ht => exact ⟨t, _, rfl, .inr ⟨_, ht, by simp⟩⟩
  | @ifElse t middle last us vs ws e first second ht => exact ⟨t, _, rfl, .inr ⟨_, ht, by simp⟩⟩

theorem Begins.kind_ne_operator {t : Token} (h : Begins t) : t.kind ≠ .operator := by
  rcases h with hkind | ⟨word, hword, -⟩
  · rw [hkind]
    decide
  · exact Token.kind_ne_operator_of_isKeyword hword

theorem Begins.isKeyword_eq_false {t : Token} (h : Begins t) {word : String}
    (hword : word ∉ ["echo", "let", "while", "if"]) : t.isKeyword word = false := by
  rw [Bool.eq_false_iff]
  intro ht
  rcases h with hkind | ⟨other, hother, hmem⟩
  · rw [(Token.isKeyword_iff.mp ht).1] at hkind
    cases hkind
  · rw [Token.isKeyword_unique ht hother] at hword
    exact hword hmem

theorem closer?_of_begins {t : Token} (h : Begins t) (mayElse : Bool) :
    closer? mayElse t = none := by
  have hend := h.isKeyword_eq_false (show "end" ∉ _ by decide)
  have helse := h.isKeyword_eq_false (show "else" ∉ _ by decide)
  simp [closer?, hend, helse]

theorem closer?_of_isKeyword {t : Token} {mayElse : Bool} {closer : Closer}
    (h : t.isKeyword closer.word) (hmay : mayElse = false → closer = .byEnd) :
    closer? mayElse t = some closer := by
  cases closer with
  | byEnd => exact if_pos h
  | byElse =>
      have hend : ¬t.isKeyword "end" := by
        intro hend
        exact absurd (Token.isKeyword_unique h hend) (by decide)
      cases mayElse with
      | false => cases hmay rfl
      | true =>
          have helse : t.isKeyword "else" := h
          simp [closer?, hend, helse]

-- All blocks of at most so many levels are read.
def GivesBlock (level : Nat) (block : BlockReader) : Prop :=
  ∀ opened construct mayElse used read rest, Block level mayElse used read →
    block opened construct mayElse (used ++ rest) = .ok (read, rest)

theorem statement_of_derived {block : BlockReader} (hblock : GivesBlock level block) {t : Token}
    {s : Stmt} (h : Statement (t :: us) s) (hlevels : s.levels ≤ level) (hstops : Stops rest) :
    statement final level block t (us ++ rest) = .ok (s, rest) := by
  have hexpression := givesExpression_expression final level
  cases h with
  | @echo t us e ht he =>
      obtain ⟨hkind, hvalue⟩ := Token.isKeyword_iff.mp ht
      have hread := hexpression us e rest he hlevels hstops
      simp [statement, hkind, keywordStatement, hvalue, hread, bind, Except.bind, pure, Except.pure]
  | @declare t name sign us e ht hname hsign he =>
      obtain ⟨hkind, hvalue⟩ := Token.isKeyword_iff.mp ht
      have hread := hexpression us e rest he hlevels hstops
      simp [statement, hkind, keywordStatement, hvalue, declaration, hname, hsign, hread, bind,
        Except.bind, pure, Except.pure]
  | @assign name sign us e hname hsign he =>
      have hread := hexpression us e rest he hlevels hstops
      simp [statement, hname, hsign, hread, bind, Except.bind, pure, Except.pure]
  | @loop t last vs ws e body ht hcondition hbody hend =>
      obtain ⟨hkind, hvalue⟩ := Token.isKeyword_iff.mp ht
      obtain ⟨houter, hinner⟩ := Nat.max_le.mp hlevels
      have htest := condition_of_derived final hcondition houter .loop
        ((ws ++ [last]) ++ rest)
      have hread := hblock t.loc .loop false (ws ++ [last]) (body, .byEnd) rest
        ⟨⟨ws, last, rfl, hbody, hend⟩, fun _ => rfl, hinner⟩
      rw [List.append_assoc vs]
      simp only [statement, hkind, keywordStatement, hvalue, htest, hread, bind, Except.bind, pure,
        Except.pure]
  | @ifThen t last vs ws e body ht hcondition hbody hend =>
      obtain ⟨hkind, hvalue⟩ := Token.isKeyword_iff.mp ht
      obtain ⟨houter, hinner⟩ := Nat.max_le.mp hlevels
      have htest := condition_of_derived final hcondition houter .conditional
        ((ws ++ [last]) ++ rest)
      have hread := hblock t.loc .conditional true (ws ++ [last]) (body, .byEnd) rest
        ⟨⟨ws, last, rfl, hbody, hend⟩, fun _ => rfl, hinner⟩
      rw [List.append_assoc vs]
      simp only [statement, hkind, keywordStatement, hvalue, htest, hread, bind, Except.bind, pure,
        Except.pure]
  | @ifElse t middle last vs ws xs e first second ht hcondition hfirst helse hsecond hend =>
      obtain ⟨hkind, hvalue⟩ := Token.isKeyword_iff.mp ht
      obtain ⟨houter, hinner⟩ := Nat.max_le.mp hlevels
      obtain ⟨hthen, hother⟩ := Nat.max_le.mp hinner
      have htest := condition_of_derived final hcondition houter .conditional
        ((ws ++ [middle]) ++ ((xs ++ [last]) ++ rest))
      have hread := hblock t.loc .conditional true (ws ++ [middle]) (first, .byElse)
        ((xs ++ [last]) ++ rest) ⟨⟨ws, middle, rfl, hfirst, helse⟩, nofun, hthen⟩
      have hlast := hblock t.loc .conditional false (xs ++ [last]) (second, .byEnd) rest
        ⟨⟨xs, last, rfl, hsecond, hend⟩, fun _ => rfl, hother⟩
      rw [List.append_assoc vs, List.append_assoc (ws ++ [middle])]
      simp only [statement, hkind, keywordStatement, hvalue, htest, hread, hlast, bind, Except.bind,
        pure, Except.pure]

theorem stops_body {body : List Stmt} (h : Body us body) (hrest : Stops rest) :
    Stops (us ++ rest) := by
  cases h with
  | nil => exact hrest
  | cons first later =>
      obtain ⟨t, vs, rfl, hbegins⟩ := begins_of_statement first
      exact stops_cons hbegins.kind_ne_operator

theorem statements_of_derived {read : Token → List Token → Except CompileError (Parsed Stmt)}
    (hread : ∀ t us s rest, Statement (t :: us) s → s.levels ≤ level → Stops rest →
      read t (us ++ rest) = .ok (s, rest))
    {opened : Location} {construct : Construct} {mayElse : Bool} {last : Token} {closer : Closer}
    {body : List Stmt} {rounds : Nat} (hbody : Body us body) (hlevels : bodyLevels body ≤ level)
    (hlast : last.isKeyword closer.word) (hmay : mayElse = false → closer = .byEnd)
    (hrounds : us.length < rounds) :
    statements opened construct mayElse read rounds (us ++ last :: rest) =
      .ok ((body, closer), rest) := by
  induction body generalizing us rounds with
  | nil =>
      cases hbody
      obtain ⟨rounds, rfl⟩ := Nat.exists_eq_add_one_of_ne_zero (Nat.ne_zero_of_lt hrounds)
      rw [List.nil_append, statements, closer?_of_isKeyword hlast hmay]
  | cons s body ih =>
      obtain ⟨rounds, rfl⟩ := Nat.exists_eq_add_one_of_ne_zero (Nat.ne_zero_of_lt hrounds)
      obtain ⟨hfirst, hlater⟩ := Nat.max_le.mp hlevels
      cases hbody with
      | @cons vs ws s body first later =>
          obtain ⟨t, vs, rfl, hbegins⟩ := begins_of_statement first
          have hs := hread t vs s (ws ++ last :: rest) first hfirst
            (stops_body later (stops_keyword hlast))
          have hlength : ws.length < rounds := by
            simp only [List.cons_append, List.length_cons, List.length_append] at hrounds
            omega
          have hothers := ih later hlater hlength
          rw [List.append_assoc, List.cons_append, statements, closer?_of_begins hbegins]
          simp only [hs, hothers, bind, Except.bind, pure, Except.pure]

theorem givesBlock_block (final : Location) (level : Nat) :
    GivesBlock level (block final level) := by
  induction level with
  | zero =>
      rintro opened construct mayElse used read rest ⟨-, -, hlevels⟩
      cases hlevels
  | succ level ih =>
      rintro opened construct mayElse used ⟨body, closer⟩ rest
        ⟨⟨us, last, rfl, hbody, hlast⟩, hmay, hlevels⟩
      rw [List.append_assoc, List.singleton_append, block]
      have hlength : us.length < (us ++ last :: rest).length := by
        rw [List.length_append, List.length_cons]
        omega
      exact statements_of_derived (fun t us s rest => statement_of_derived ih) hbody
        (Nat.le_of_succ_le_succ hlevels) hlast hmay hlength

theorem procedure_of_derived {name last : Token} {body : List Stmt}
    (hname : name.kind = .identifier) (hbody : Body us body) (hend : last.isKeyword "end")
    (hlevels : bodyLevels body + 1 ≤ maxNesting) (opened : Location) (exported : Bool)
    (rest : List Token) :
    procedure final opened exported (name :: (us ++ [last]) ++ rest) =
      .ok (.procedure name.value exported body opened, rest) := by
  have hread := givesBlock_block final maxNesting opened .procedure false (us ++ [last])
    (body, .byEnd) rest ⟨⟨us, last, rfl, hbody, hend⟩, fun _ => rfl, hlevels⟩
  rw [List.cons_append]
  simp only [procedure, hname, if_true, hread, bind, Except.bind, pure, Except.pure]

theorem topLevel_of_derived {t : Token} {s : Stmt} (h : TopLevel (t :: us) s)
    (hlevels : s.levels ≤ maxNesting) (hstops : Stops rest) :
    topLevel final t (us ++ rest) = .ok (s, rest) := by
  cases h with
  | @procedure t name last us body ht hname hbody hend =>
      unfold topLevel
      rw [if_pos ht]
      exact procedure_of_derived hname hbody hend hlevels t.loc false rest
  | @exported t found name last us body ht hfound hname hbody hend =>
      have hproc : ¬t.isKeyword "proc" := by
        intro hproc
        exact absurd (Token.isKeyword_unique ht hproc) (by decide)
      unfold topLevel
      rw [if_neg hproc, if_pos ht, List.cons_append]
      dsimp only
      rw [if_pos hfound]
      exact procedure_of_derived hname hbody hend hlevels t.loc true rest
  | statement hs =>
      obtain ⟨u, vs, heq, hbegins⟩ := begins_of_statement hs
      cases heq
      have hproc := hbegins.isKeyword_eq_false (show "proc" ∉ _ by decide)
      have hexport := hbegins.isKeyword_eq_false (show "export" ∉ _ by decide)
      unfold topLevel
      rw [hproc, hexport]
      exact statement_of_derived (givesBlock_block final maxNesting) hs hlevels hstops

theorem begins_of_topLevel {s : Stmt} (h : TopLevel ts s) :
    ∃ t us, ts = t :: us ∧ t.kind ≠ .operator := by
  cases h with
  | @procedure t name last us body ht =>
      exact ⟨t, _, rfl, Token.kind_ne_operator_of_isKeyword ht⟩
  | @exported t found name last us body ht =>
      exact ⟨t, _, rfl, Token.kind_ne_operator_of_isKeyword ht⟩
  | statement hs =>
      obtain ⟨t, us, rfl, hbegins⟩ := begins_of_statement hs
      exact ⟨t, us, rfl, hbegins.kind_ne_operator⟩

theorem stops_derived {p : Program} (h : Derives ts p) : Stops ts := by
  cases h with
  | nil => exact stops_nil
  | cons first later =>
      obtain ⟨t, vs, rfl, hkind⟩ := begins_of_topLevel first
      exact stops_cons hkind

theorem topLevels_of_derived {p : Program} {rounds : Nat} (h : Derives ts p)
    (hlevels : p.levels ≤ maxNesting) (hrounds : ts.length ≤ rounds) :
    topLevels final rounds ts = .ok p := by
  induction h generalizing rounds with
  | nil => cases rounds <;> rfl
  | @cons us vs s p first later ih =>
      obtain ⟨hfirst, hlater⟩ := Nat.max_le.mp hlevels
      obtain ⟨t, us, rfl, -⟩ := begins_of_topLevel first
      have hlength : us.length + vs.length + 1 ≤ rounds := by
        simpa [Nat.add_right_comm] using hrounds
      obtain ⟨rounds, rfl⟩ := Nat.exists_eq_add_one_of_ne_zero (Nat.ne_zero_of_lt hlength)
      have hothers : topLevels final rounds vs = .ok p := ih hlater (by omega)
      rw [List.cons_append, topLevels, topLevel_of_derived first hfirst (stops_derived later)]
      simp only [hothers, bind, Except.bind, pure, Except.pure]

end Parser

open Grammar

mutual

theorem procedureFree_of_statement {ts : List Token} :
    ∀ s : Stmt, Statement ts s → s.ProcedureFree
  | .procedure .., h => nomatch h
  | .loop _ body _, .loop _ _ hbody _ => procedureFree_of_body body hbody
  | .ifThen _ body _, .ifThen _ _ hbody _ => procedureFree_of_body body hbody
  | .ifElse _ first second _, .ifElse _ _ hfirst _ hsecond _ =>
      ⟨procedureFree_of_body first hfirst, procedureFree_of_body second hsecond⟩
  | .echo .., _ => trivial
  | .declare .., _ => trivial
  | .assign .., _ => trivial

theorem procedureFree_of_body {ts : List Token} :
    ∀ body : List Stmt, Body ts body → BodyProcedureFree body
  | [], _ => trivial
  | s :: rest, .cons first later =>
      ⟨procedureFree_of_statement s first, procedureFree_of_body rest later⟩

end

theorem proceduresOnTop_of_derives {ts : List Token} {p : Program} (h : Derives ts p) :
    p.ProceduresOnTop := by
  induction h with
  | nil => exact nofun
  | @cons us vs s p first later ih =>
      intro r hr
      rcases List.mem_cons.mp hr with rfl | hmem
      · cases first with
        | @procedure t name last us body ht hname hbody hend =>
            exact .inr ⟨_, _, _, _, rfl, procedureFree_of_body body hbody⟩
        | @exported t found name last us body ht hfound hname hbody hend =>
            exact .inr ⟨_, _, _, _, rfl, procedureFree_of_body body hbody⟩
        | statement hs => exact .inl (procedureFree_of_statement r hs)
      · exact ih r hmem

theorem ofTokens_eq_ok_iff {ts : List Token} {p : Program} :
    Program.ofTokens ts = .ok p ↔ Derives ts p ∧ p.levels ≤ 256 := by
  constructor
  · intro h
    exact Parser.derives_of_topLevels h
  · rintro ⟨h, hlevels⟩
    exact Parser.topLevels_of_derived h hlevels (Nat.le_refl _)

-- The tokens of a program, all of them and in their order, derive the tree that is
-- read from them, and no other tree of at most 256 levels.
theorem parser_accepts_grammar (ts : List Token) :
    (∀ p, Program.ofTokens ts = .ok p ↔ Derives ts p ∧ p.levels ≤ 256) ∧
      (∀ p q, Derives ts p → p.levels ≤ 256 → Derives ts q → q.levels ≤ 256 → p = q) ∧
      ∀ p, Program.ofTokens ts = .ok p → p.ProceduresOnTop := by
  refine ⟨fun p => ofTokens_eq_ok_iff, ?_, ?_⟩
  · intro p q hp hplevels hq hqlevels
    have hread := ofTokens_eq_ok_iff.mpr ⟨hp, hplevels⟩
    rw [ofTokens_eq_ok_iff.mpr ⟨hq, hqlevels⟩] at hread
    exact (Except.ok.inj hread).symm
  · intro p h
    exact proceduresOnTop_of_derives (ofTokens_eq_ok_iff.mp h).1

end EchoLang
