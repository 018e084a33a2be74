import EchoLang.Program.Parser
import EchoLang.Proofs.Except
import EchoLang.Proofs.Program.Grammar

namespace EchoLang

theorem Operator.symbol_of_ofSymbol? {text : String} {op : Operator}
    (h : ofSymbol? text = some op) : text = op.symbol := by
  have hsymbol := List.find?_some h
  exact (of_decide_eq_true hsymbol).symm

namespace Parser

open Grammar

variable {α β : Type} {ts rest : List Token} {final : Location} {level : Nat}

-- If it succeeds, it has taken tokens from the front that `good` relates to what was read.
def Takes (good : List Token → α → Prop) (ts : List Token)
    (r : Except CompileError (Parsed α)) : Prop :=
  ∀ a rest, r = .ok (a, rest) → ∃ used, ts = used ++ rest ∧ good used a

variable {good : List Token → α → Prop} {good' : List Token → β → Prop}
  {r : Except CompileError (Parsed α)}

theorem takes_fail (loc : Location) (fault : GrammarFault) : Takes good ts (fail loc fault) := by
  intro a rest hr
  cases hr

theorem takes_ok {a : α} (used : List Token) (ha : good used a) :
    Takes good (used ++ rest) (.ok (a, rest)) := by
  intro b left hr
  cases hr
  exact ⟨used, rfl, ha⟩

theorem Takes.cons {t : Token} (h : Takes (fun used a => good (t :: used) a) ts r) :
    Takes good (t :: ts) r := by
  intro a rest hr
  obtain ⟨used, rfl, ha⟩ := h a rest hr
  exact ⟨t :: used, rfl, ha⟩

theorem Takes.bind {f : Parsed α → Except CompileError (Parsed β)} (hr : Takes good ts r)
    (hf : ∀ a used rest, good used a →
      Takes (fun more b => good' (used ++ more) b) rest (f (a, rest))) :
    Takes good' ts (r >>= f) := by
  intro b rest h
  obtain ⟨⟨a, middle⟩, hread, h⟩ := exists_of_bind_eq_ok h
  obtain ⟨used, rfl, ha⟩ := hr a middle hread
  obtain ⟨more, rfl, hb⟩ := hf a used middle ha b rest h
  exact ⟨used ++ more, (List.append_assoc _ _ _).symm, hb⟩

-- The last step takes no token of its own.
theorem Takes.last {f : Parsed α → Except CompileError (Parsed β)} (hr : Takes good ts r)
    (hf : ∀ a used rest, good used a → ∃ b, f (a, rest) = .ok (b, rest) ∧ good' used b) :
    Takes good' ts (r >>= f) := by
  refine hr.bind ?_
  intro a used rest ha
  obtain ⟨b, hfinal, hb⟩ := hf a used rest ha
  rw [hfinal]
  refine takes_ok [] ?_
  rwa [List.append_nil]

-- An expression is taken that has at most so many levels.
def TakesExpression (level : Nat) (ts : List Token) (r : Except CompileError (Parsed Expr)) :
    Prop :=
  Takes (fun used e => Expression used e ∧ e.levels ≤ level) ts r

theorem takes_operand {inner : List Token → Except CompileError (Parsed Expr)}
    (hinner : ∀ ts, TakesExpression level ts (inner ts)) (t : Token) (ts : List Token) :
    Takes (fun used e => Operand (t :: used) e ∧ e.levels ≤ level + 1) ts (operand inner t ts) := by
  unfold operand
  split
  · rename_i hkind
    split
    · rename_i value hvalue
      exact takes_ok [] ⟨.number hkind hvalue, by simp [Expr.levels]⟩
    · exact takes_fail _ _
  · rename_i hkind
    exact takes_ok [] ⟨.var hkind, by simp [Expr.levels]⟩
  · rename_i hkind
    refine (hinner ts).bind ?_
    rintro e used rest ⟨he, hlevels⟩
    cases rest with
    | nil => exact takes_fail _ _
    | cons close rest =>
        dsimp only
        split
        · rename_i hclose
          exact takes_ok [close] ⟨.paren hkind he hclose, Nat.succ_le_succ hlevels⟩
        · exact takes_fail _ _
  · exact takes_fail _ _

theorem takes_continuation {right : List Token → Except CompileError (Parsed Expr)}
    (hright : ∀ ts, TakesExpression level ts (right ts)) {us : List Token} {left : Expr}
    (hleft : Operand us left) (hlevels : left.levels ≤ level + 1) (ts : List Token) :
    Takes (fun used e => Expression (us ++ used) e ∧ e.levels ≤ level + 1) ts
      (continuation right left ts) := by
  have hstop : ∀ ts, Takes (fun used e => Expression (us ++ used) e ∧ e.levels ≤ level + 1) ts
      (.ok (left, ts)) := by
    intro ts
    refine takes_ok [] ⟨?_, hlevels⟩
    rw [List.append_nil]
    exact .operand hleft
  unfold continuation
  cases ts with
  | nil => exact hstop []
  | cons t rest =>
      dsimp only
      split
      · rename_i hkind
        split
        · exact takes_fail _ _
        · rename_i op hop
          refine Takes.cons ((hright rest).last ?_)
          rintro e used rest ⟨he, hright⟩
          exact ⟨_, rfl, .binary hleft hkind (Operator.symbol_of_ofSymbol? hop) he,
            Nat.max_le.mpr ⟨hlevels, Nat.succ_le_succ hright⟩⟩
      · exact hstop (t :: rest)

theorem takes_expression (level : Nat) (ts : List Token) :
    TakesExpression level ts (expression final level ts) := by
  induction level generalizing ts with
  | zero =>
      cases ts with
      | nil => exact takes_fail _ _
      | cons t rest => exact takes_fail _ _
  | succ level ih =>
      cases ts with
      | nil => exact takes_fail _ _
      | cons t rest =>
          rw [expression]
          refine Takes.cons ((takes_operand ih t rest).bind ?_)
          rintro left used rest ⟨hleft, hlevels⟩
          exact takes_continuation ih hleft hlevels rest

theorem takes_condition (level : Nat) (construct : Construct) (ts : List Token) :
    Takes (fun used e => Condition used e ∧ e.levels ≤ level) ts
      (condition final level construct ts) := by
  unfold condition
  cases ts with
  | nil => exact takes_fail _ _
  | cons t rest =>
      dsimp only
      split
      · rename_i hopen
        refine Takes.cons ((takes_expression level rest).bind ?_)
        rintro e used rest ⟨he, hlevels⟩
        cases rest with
        | nil => exact takes_fail _ _
        | cons close rest =>
            dsimp only
            split
            · rename_i hclose
              exact takes_ok [close] ⟨.intro hopen he hclose, hlevels⟩
            · exact takes_fail _ _
      · exact takes_fail _ _

-- A statement is taken whose first token is `t`.
def TakesStatement (level : Nat) (t : Token) (ts : List Token)
    (r : Except CompileError (Parsed Stmt)) : Prop :=
  Takes (fun used s => Statement (t :: used) s ∧ s.levels ≤ level) ts r

theorem takes_declaration {t : Token} (ht : t.isKeyword "let") (level : Nat) (found : Token)
    (ts : List Token) :
    TakesStatement level t (found :: ts) (declaration final level found ts) := by
  unfold declaration
  split
  · rename_i hname
    cases ts with
    | nil => exact takes_fail _ _
    | cons sign rest =>
        dsimp only
        split
        · rename_i hsign
          refine Takes.cons (Takes.cons ((takes_expression level rest).last ?_))
          rintro e used rest ⟨he, hlevels⟩
          exact ⟨_, rfl, .declare ht hname hsign he, hlevels⟩
        · exact takes_fail _ _
  · exact takes_fail _ _

-- The word that ends a block.
def Closer.word : Closer → String
  | .byEnd => "end"
  | .byElse => "else"

-- The tokens of a block are those of its statements and the word behind them. The
-- block is a level of its own.
structure Block (level : Nat) (mayElse : Bool) (used : List Token) (read : List Stmt × Closer) :
    Prop where
  tokens : ∃ us last, used = us ++ [last] ∧ Body us read.1 ∧ last.isKeyword read.2.word
  closer : mayElse = false → read.2 = .byEnd
  levels : bodyLevels read.1 + 1 ≤ level

def TakesBlock (level : Nat) (block : BlockReader) : Prop :=
  ∀ opened construct mayElse ts,
    Takes (Block level mayElse) ts (block opened construct mayElse ts)

theorem takes_keywordStatement {block : BlockReader} (hblock : TakesBlock level block) {t : Token}
    (hkind : t.kind = .keyword) (ts : List Token) :
    TakesStatement level t ts (keywordStatement final level block t ts) := by
  have hword : ∀ {word : String}, t.value = word → t.isKeyword word := by
    intro word hvalue
    simp [Token.isKeyword, hkind, hvalue]
  unfold keywordStatement
  split
  · rename_i hvalue
    refine (takes_expression level ts).last ?_
    rintro e used rest ⟨he, hlevels⟩
    exact ⟨_, rfl, .echo (hword hvalue) he, hlevels⟩
  · rename_i hvalue
    cases ts with
    | nil => exact takes_fail _ _
    | cons found rest => exact takes_declaration (hword hvalue) level found rest
  · rename_i hvalue
    refine (takes_condition level .loop ts).bind ?_
    rintro e used rest ⟨he, hlevels⟩
    refine (hblock t.loc .loop false rest).last ?_
    rintro ⟨body, closer⟩ _ rest ⟨⟨us, last, rfl, hbody, hlast⟩, hcloser, hinner⟩
    cases hcloser rfl
    exact ⟨_, rfl, .loop (hword hvalue) he hbody hlast, Nat.max_le.mpr ⟨hlevels, hinner⟩⟩
  · rename_i hvalue
    refine (takes_condition level .conditional ts).bind ?_
    rintro e used rest ⟨he, hlevels⟩
    refine (hblock t.loc .conditional true rest).bind ?_
    rintro ⟨first, closer⟩ _ rest ⟨⟨us, last, rfl, hfirst, hlast⟩, -, hinner⟩
    cases closer with
    | byEnd =>
        refine takes_ok [] ⟨?_, Nat.max_le.mpr ⟨hlevels, hinner⟩⟩
        rw [List.append_nil]
        exact .ifThen (hword hvalue) he hfirst hlast
    | byElse =>
        refine (hblock t.loc .conditional false rest).last ?_
        rintro ⟨second, closer⟩ _ rest ⟨⟨vs, final, rfl, hsecond, hfinal⟩, hcloser, hother⟩
        cases hcloser rfl
        exact ⟨_, rfl, .ifElse (hword hvalue) he hfirst hlast hsecond hfinal,
          Nat.max_le.mpr ⟨hlevels, Nat.max_le.mpr ⟨hinner, hother⟩⟩⟩
  · exact takes_fail _ _
  · exact takes_fail _ _
  · exact takes_fail _ _

theorem takes_statement {block : BlockReader} (hblock : TakesBlock level block) (t : Token)
    (ts : List Token) : TakesStatement level t ts (statement final level block t ts) := by
  unfold statement
  split
  · rename_i hkind
    exact takes_keywordStatement hblock hkind _
  · rename_i sign rest hkind
    split
    · rename_i hsign
      refine Takes.cons ((takes_expression level rest).last ?_)
      rintro e used rest ⟨he, hlevels⟩
      exact ⟨_, rfl, .assign hkind hsign he, hlevels⟩
    · exact takes_fail _ _
  · exact takes_fail _ _

theorem of_closer? {mayElse : Bool} {t : Token} {closer : Closer}
    (h : closer? mayElse t = some closer) :
    t.isKeyword closer.word ∧ (mayElse = false → closer = .byEnd) := by
  unfold closer? at h
  split at h
  · rename_i hend
    cases h
    exact ⟨hend, fun _ => rfl⟩
  · split at h
    · rename_i helse
      cases h
      rw [Bool.and_eq_true] at helse
      refine ⟨helse.2, fun hmay => ?_⟩
      rw [hmay] at helse
      cases helse.1
    · cases h

theorem takes_statements (opened : Location) (construct : Construct) (mayElse : Bool)
    {read : Token → List Token → Except CompileError (Parsed Stmt)}
    (hread : ∀ t ts, TakesStatement level t ts (read t ts)) (rounds : Nat) (ts : List Token) :
    Takes (Block (level + 1) mayElse) ts (statements opened construct mayElse read rounds ts) := by
  induction rounds generalizing ts with
  | zero => exact takes_fail _ _
  | succ rounds ih =>
      cases ts with
      | nil => exact takes_fail _ _
      | cons t rest =>
          rw [statements]
          split
          · rename_i closer hcloser
            obtain ⟨hlast, hend⟩ := of_closer? hcloser
            exact takes_ok [t] ⟨⟨[], t, rfl, .nil, hlast⟩, hend, by simp [bodyLevels]⟩
          · refine Takes.cons ((hread t rest).bind ?_)
            rintro s used rest ⟨hs, hlevels⟩
            refine (ih rest).last ?_
            rintro ⟨others, closer⟩ _ rest ⟨⟨us, last, rfl, hothers, hlast⟩, hend, hinner⟩
            have hboth := Nat.max_le.mpr ⟨hlevels, Nat.le_of_succ_le_succ hinner⟩
            exact ⟨_, rfl, ⟨t :: used ++ us, last, by simp, .cons hs hothers, hlast⟩, hend,
              Nat.succ_le_succ hboth⟩

theorem takes_block (level : Nat) : TakesBlock level (block final level) := by
  induction level with
  | zero =>
      intro opened construct mayElse ts
      exact takes_fail _ _
  | succ level ih =>
      intro opened construct mayElse ts
      exact takes_statements opened construct mayElse (takes_statement ih) ts.length ts

theorem takes_procedure (opened : Location) (exported : Bool) (ts : List Token) :
    Takes (fun used s => ∃ name us last body, used = name :: (us ++ [last]) ∧
        name.kind = .identifier ∧ Body us body ∧ last.isKeyword "end" ∧
        s = .procedure name.value exported body opened ∧ bodyLevels body + 1 ≤ maxNesting) ts
      (procedure final opened exported ts) := by
  unfold procedure
  cases ts with
  | nil => exact takes_fail _ _
  | cons name rest =>
      dsimp only
      split
      · rename_i hname
        refine Takes.cons ((takes_block maxNesting opened .procedure false rest).last ?_)
        rintro ⟨body, closer⟩ _ rest ⟨⟨us, last, rfl, hbody, hlast⟩, hcloser, hlevels⟩
        cases hcloser rfl
        exact ⟨_, rfl, name, us, last, body, rfl, hname, hbody, hlast, rfl, hlevels⟩
      · exact takes_fail _ _

theorem takes_topLevel (t : Token) (ts : List Token) :
    Takes (fun used s => TopLevel (t :: used) s ∧ s.levels ≤ maxNesting) ts
      (topLevel final t ts) := by
  unfold topLevel
  split
  · rename_i hproc
    intro s rest h
    obtain ⟨_, rfl, name, us, last, body, rfl, hname, hbody, hend, rfl, hlevels⟩ :=
      takes_procedure t.loc false ts s rest h
    exact ⟨_, rfl, .procedure hproc hname hbody hend, hlevels⟩
  · split
    · rename_i hexport
      cases ts with
      | nil => exact takes_fail _ _
      | cons found left =>
          dsimp only
          split
          · rename_i hproc
            refine Takes.cons ?_
            intro s rest h
            obtain ⟨_, rfl, name, us, last, body, rfl, hname, hbody, hend, rfl, hlevels⟩ :=
              takes_procedure t.loc true left s rest h
            exact ⟨_, rfl, .exported hexport hproc hname hbody hend, hlevels⟩
          · exact takes_fail _ _
    · intro s rest h
      obtain ⟨used, rfl, hs, hlevels⟩ := takes_statement (takes_block maxNesting) t ts s rest h
      exact ⟨used, rfl, .statement hs, hlevels⟩

theorem derives_of_topLevels {rounds : Nat} {p : Program}
    (h : topLevels final rounds ts = .ok p) : Derives ts p ∧ p.levels ≤ maxNesting := by
  induction rounds generalizing ts p with
  | zero =>
      cases ts with
      | nil =>
          cases h
          exact ⟨.nil, Nat.zero_le _⟩
      | cons t rest => cases h
  | succ rounds ih =>
      cases ts with
      | nil =>
          cases h
          exact ⟨.nil, Nat.zero_le _⟩
      | cons t rest =>
          rw [topLevels] at h
          obtain ⟨⟨first, left⟩, hfirst, h⟩ := exists_of_bind_eq_ok h
          obtain ⟨others, hothers, h⟩ := exists_of_bind_eq_ok h
          cases h
          obtain ⟨used, rfl, hs, hlevels⟩ := takes_topLevel t rest first left hfirst
          obtain ⟨hlater, hinner⟩ := ih hothers
          exact ⟨.cons hs hlater, Nat.max_le.mpr ⟨hlevels, hinner⟩⟩

end Parser

end EchoLang
