import EchoLang.Lowering.Stmt
import EchoLang.Program.Entry
import EchoLang.Proofs.Errors
import EchoLang.Proofs.Lowering.Rules
import EchoLang.Proofs.Program.Grammar

namespace EchoLang

mutual

-- How many numbers for labels a statement takes, one for each `while` and each `if`.
def Stmt.branchings : Stmt → Nat
  | .echo .. => 0
  | .procedure _ _ body _ => bodyBranchings body
  | .declare .. => 0
  | .assign .. => 0
  | .loop _ body _ => 1 + bodyBranchings body
  | .ifThen _ body _ => 1 + bodyBranchings body
  | .ifElse _ first second _ => 1 + bodyBranchings first + bodyBranchings second

def bodyBranchings : List Stmt → Nat
  | [] => 0
  | s :: rest => s.branchings + bodyBranchings rest

end

def Program.branchings (p : Program) : Nat := bodyBranchings p

-- Lowering gives out one number for each of them.
theorem Lowers.next_eq {ctx after : Context} {body : List Stmt} {code : List Instr}
    (h : Lowers ctx body code after) :
    after.labels.next = ctx.labels.next + bodyBranchings body := by
  induction h with
  | nil => rfl
  | echo _ _ ih | assign _ _ _ ih =>
      rw [ih, bodyBranchings, Stmt.branchings, Nat.zero_add]
  | declare _ _ ih =>
      rw [ih, bodyBranchings, Stmt.branchings, Nat.zero_add]
      rfl
  | loop _ _ _ _ ihInner ihLater | ifThen _ _ _ _ ihInner ihLater =>
      rw [ihLater, ihInner, Context.next_afterLabel, bodyBranchings, Stmt.branchings]
      omega
  | ifElse _ _ _ _ _ ihFirst ihSecond ihLater =>
      rw [ihLater, ihSecond, ihFirst, Context.next_afterLabel, bodyBranchings, Stmt.branchings]
      omega

section Statements

theorem outcome_require (slots : Slots) (name : String) (loc : Location) :
    Outcome [.naming] (fun _ => True) (slots.require name loc) := by
  unfold Slots.require
  cases slots.resolve? name with
  | some slot => trivial
  | none => exact List.mem_singleton_self _

theorem outcome_lower (slots : Slots) (e : Expr) :
    Outcome [.naming] (fun _ => True) (e.lower slots) := by
  induction e with
  | number value loc => trivial
  | var name loc => exact (outcome_require slots name loc).bind fun _ _ => trivial
  | paren inner loc ih => exact ih
  | binary left op right loc ihLeft ihRight =>
      exact ihLeft.bind fun _ _ => ihRight.bind fun _ _ => trivial

theorem outcome_lowerAs (slots : Slots) (shape : Shape) (e : Expr) :
    Outcome [.naming] (fun _ => True) (e.lowerAs slots shape) :=
  (outcome_lower slots e).bind fun _ _ => trivial

theorem outcome_lowerGuard (slots : Slots) (label : Label) (e : Expr) :
    Outcome [.naming] (fun _ => True) (e.lowerGuard slots label) :=
  (outcome_lowerAs slots .flag e).bind fun _ _ => trivial

theorem takeLabel_of_lt {ctx : Context} (h : ctx.labels.next < LabelCounter.limit)
    (loc : Location) : ctx.takeLabel loc = .ok (ctx.labels.next, ctx.afterLabel) :=
  takeLabel_of_ne (Nat.ne_of_lt h) loc

-- So many numbers have been given out.
def TakesLabels (ctx : Context) (count : Nat) (r : List Instr × Context) : Prop :=
  r.2.labels.next = ctx.labels.next + count

mutual

theorem outcome_stmt : ∀ (s : Stmt) (ctx : Context), s.ProcedureFree →
    ctx.labels.next + s.branchings ≤ LabelCounter.limit →
      Outcome [.naming] (TakesLabels ctx s.branchings) (s.lower ctx)
  | .echo value loc, ctx, _, _ => by
      rw [Stmt.lower]
      exact (outcome_lowerAs _ _ value).bind fun _ _ => rfl
  | .declare name value loc, ctx, _, _ => by
      rw [Stmt.lower]
      exact (outcome_lowerAs _ _ value).bind fun _ _ => rfl
  | .assign name value loc, ctx, _, _ => by
      rw [Stmt.lower]
      refine (outcome_lowerAs _ _ value).bind fun _ _ => ?_
      exact (outcome_require _ name loc).bind fun _ _ => rfl
  | .loop condition body loc, ctx, hfree, hlabels => by
      rw [Stmt.branchings] at hlabels
      have hinside := ctx.next_afterLabel
      rw [Stmt.lower, takeLabel_of_lt (by omega)]
      refine (outcome_lowerGuard _ _ condition).bind fun guard _ => ?_
      refine (outcome_body body ctx.afterLabel hfree (by omega)).bind fun r hr => ?_
      exact hr.trans (by rw [Stmt.branchings]; omega)
  | .ifThen condition body loc, ctx, hfree, hlabels => by
      rw [Stmt.branchings] at hlabels
      have hinside := ctx.next_afterLabel
      rw [Stmt.lower, takeLabel_of_lt (by omega)]
      refine (outcome_lowerGuard _ _ condition).bind fun guard _ => ?_
      refine (outcome_body body ctx.afterLabel hfree (by omega)).bind fun r hr => ?_
      exact hr.trans (by rw [Stmt.branchings]; omega)
  | .ifElse condition first second loc, ctx, hfree, hlabels => by
      rw [Stmt.branchings] at hlabels
      have hinside := ctx.next_afterLabel
      rw [Stmt.lower, takeLabel_of_lt (by omega)]
      refine (outcome_lowerGuard _ _ condition).bind fun guard _ => ?_
      refine (outcome_body first ctx.afterLabel hfree.1 (by omega)).bind fun r hr => ?_
      have hmiddle : r.2.labels.next = _ := hr
      refine (outcome_body second r.2 hfree.2 (by omega)).bind fun r' hr' => ?_
      exact hr'.trans (by rw [Stmt.branchings]; omega)
  | .procedure name exported body loc, ctx, hfree, _ => hfree.elim

theorem outcome_body : ∀ (body : List Stmt) (ctx : Context), BodyProcedureFree body →
    ctx.labels.next + bodyBranchings body ≤ LabelCounter.limit →
      Outcome [.naming] (TakesLabels ctx (bodyBranchings body)) (lowerBody body ctx)
  | [], ctx, _, _ => rfl
  | s :: rest, ctx, hfree, hlabels => by
      rw [bodyBranchings] at hlabels
      rw [lowerBody]
      refine (outcome_stmt s ctx hfree.1 (by omega)).bind fun r hr => ?_
      have hmiddle : r.2.labels.next = _ := hr
      refine (outcome_body rest r.2 hfree.2 (by omega)).bind fun r' hr' => ?_
      exact hr'.trans (by rw [bodyBranchings]; omega)

end

end Statements

section Programs

theorem outcome_procedures {p : Program} (hp : p.ProceduresOnTop) (declared : List String)
    (labels : LabelCounter) (hlabels : labels.next + p.branchings ≤ LabelCounter.limit) :
    Outcome [.grammar, .naming] (fun _ => True) (lowerProcedures declared labels p) := by
  induction p generalizing declared labels with
  | nil => trivial
  | cons s rest ih =>
      have hrest : Program.ProceduresOnTop rest := fun s hs => hp s (List.mem_cons_of_mem _ hs)
      have hcount : Program.branchings (s :: rest) = s.branchings + Program.branchings rest := rfl
      rcases hp s List.mem_cons_self with hfree | ⟨name, exported, body, loc, rfl, hfree⟩
      · -- It is a statement and stands between the procedures.
        cases s with
        | procedure name exported body loc => exact hfree.elim
        | _ => exact List.mem_cons_self
      · rw [lowerProcedures]
        split
        · exact List.mem_cons_of_mem _ List.mem_cons_self
        · rw [Stmt.branchings] at hcount
          have hbody := outcome_body body ⟨.empty, labels⟩ hfree (by dsimp only; omega)
          refine (hbody.mono (by simp)).bind fun r hr => ?_
          have hnext : r.2.labels.next = labels.next + bodyBranchings body := hr
          exact (ih hrest (name :: declared) r.2.labels (by omega)).bind fun _ _ => trivial

theorem bodyProcedureFree_of_forall {body : List Stmt} (h : ∀ s ∈ body, s.ProcedureFree) :
    BodyProcedureFree body := by
  induction body with
  | nil => trivial
  | cons s rest ih =>
      exact ⟨h s List.mem_cons_self, ih fun r hr => h r (List.mem_cons_of_mem _ hr)⟩

theorem branchings_filter (choose : Stmt → Bool) (body : List Stmt) :
    bodyBranchings (body.filter (!choose ·)) + bodyBranchings (body.filter choose) =
      bodyBranchings body := by
  induction body with
  | nil => rfl
  | cons s rest ih =>
      by_cases hchoose : choose s
      · rw [List.filter_cons_of_pos hchoose, List.filter_cons_of_neg (by simp [hchoose]),
          bodyBranchings, bodyBranchings]
        omega
      · rw [List.filter_cons_of_neg hchoose, List.filter_cons_of_pos (by simp [hchoose]),
          bodyBranchings, bodyBranchings]
        omega

namespace Program

variable {p : Program}

-- The entry point takes statements from the top level and adds none.
theorem branchings_withEntry (p : Program) : p.withEntry.branchings = p.branchings := by
  unfold withEntry
  split
  · rfl
  · change (entry p).branchings + bodyBranchings p.procedures = bodyBranchings p
    rw [entry, Stmt.branchings]
    exact branchings_filter _ p

theorem ProceduresOnTop.withEntry (h : p.ProceduresOnTop) : p.withEntry.ProceduresOnTop := by
  unfold Program.withEntry
  split
  · exact h
  · intro s hs
    rcases List.mem_cons.mp hs with rfl | hs
    · refine .inr ⟨_, _, _, _, rfl, bodyProcedureFree_of_forall ?_⟩
      intro r hr
      obtain ⟨hmem, hother⟩ := List.mem_filter.mp hr
      rcases h r hmem with hfree | ⟨name, exported, body, loc, rfl, _⟩
      · exact hfree
      · cases hother
    · exact h s (List.mem_of_mem_filter hs)

theorem outcome_lower_withEntry (h : p.ProceduresOnTop)
    (hlabels : p.branchings ≤ LabelCounter.limit) :
    Outcome [.grammar, .naming] (fun _ => True) p.withEntry.lower := by
  apply outcome_procedures h.withEntry
  rw [branchings_withEntry]
  simpa [LabelCounter.start] using hlabels

end Program

end Programs

end EchoLang
