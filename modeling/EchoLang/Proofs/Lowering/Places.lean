import EchoLang.Lowering.Stmt
import EchoLang.Program.Entry
import EchoLang.Proofs.Program.Places

namespace EchoLang

variable {f : Location → Location} {g : CompileError → CompileError}

-- Errors that have a place move. Nothing is asked of others, because lowering has none.
def MovesPlaces (f : Location → Location) (g : CompileError → CompileError) : Prop :=
  ∀ e : CompileError, e.location?.isSome → g e = e.moved f

theorem error_moved (hg : MovesPlaces f g) {α β : Type} {move : α → β} {e e' : CompileError}
    (he : e.location?.isSome) (hmoved : e' = e.moved f) :
    .error e' = translate g move (.error e) := by
  rw [hmoved]
  exact congrArg Except.error (hg e he).symm

theorem Slots.require_moved (hg : MovesPlaces f g) (slots : Slots) (name : String)
    (loc : Location) :
    slots.require name (f loc) = translate g id (slots.require name loc) := by
  unfold Slots.require
  cases slots.resolve? name with
  | some slot => rfl
  | none => exact error_moved hg rfl rfl

theorem Context.takeLabel_moved (hg : MovesPlaces f g) (ctx : Context) (loc : Location) :
    ctx.takeLabel (f loc) = translate g id (ctx.takeLabel loc) := by
  have htake : ctx.labels.take (f loc) = translate g id (ctx.labels.take loc) :=
    ite_translate Iff.rfl (error_moved hg rfl rfl) rfl
  unfold Context.takeLabel
  rw [htake]
  exact bind_translate _ fun _ => rfl

theorem Expr.lower_moved (hg : MovesPlaces f g) (slots : Slots) (e : Expr) :
    (e.moved f).lower slots = translate g id (e.lower slots) := by
  induction e with
  | number value loc => rfl
  | var name loc =>
      rw [Expr.moved, Expr.lower, Expr.lower, Slots.require_moved hg]
      exact bind_translate _ fun _ => rfl
  | paren inner loc ih => exact ih
  | binary left op right loc ihLeft ihRight =>
      rw [Expr.moved, Expr.lower, Expr.lower, ihLeft]
      refine bind_translate _ fun (leftCode, leftShape) => ?_
      dsimp only [id]
      rw [ihRight]
      exact bind_translate _ fun _ => rfl

theorem Expr.lowerAs_moved (hg : MovesPlaces f g) (slots : Slots) (shape : Shape) (e : Expr) :
    (e.moved f).lowerAs slots shape = translate g id (e.lowerAs slots shape) := by
  unfold Expr.lowerAs
  rw [Expr.lower_moved hg]
  exact bind_translate _ fun _ => rfl

theorem Expr.lowerGuard_moved (hg : MovesPlaces f g) (slots : Slots) (label : Label) (e : Expr) :
    (e.moved f).lowerGuard slots label = translate g id (e.lowerGuard slots label) := by
  unfold Expr.lowerGuard
  rw [Expr.lowerAs_moved hg]
  exact bind_translate _ fun _ => rfl

-- A `while` and an `if` begin with a label and a guard.
theorem opening_moved (hg : MovesPlaces f g) (ctx : Context) (condition : Expr) (loc : Location)
    {label : Nat → Label} {α : Type}
    {next next' : Nat × Context → List Instr → Except CompileError α}
    (hnext : ∀ inside guard, next' inside guard = translate g id (next inside guard)) :
    (ctx.takeLabel (f loc) >>= fun inside =>
      (condition.moved f).lowerGuard inside.2.slots (label inside.1) >>= next' inside) =
    translate g id (ctx.takeLabel loc >>= fun inside =>
      condition.lowerGuard inside.2.slots (label inside.1) >>= next inside) := by
  rw [Context.takeLabel_moved hg]
  refine bind_translate _ fun inside => ?_
  dsimp only [id]
  rw [Expr.lowerGuard_moved hg]
  exact bind_translate _ fun guard => hnext inside guard

mutual

theorem Stmt.lower_moved (hg : MovesPlaces f g) : ∀ (s : Stmt) (ctx : Context),
    (s.moved f).lower ctx = translate g id (s.lower ctx)
  | .echo value loc, ctx => by
      rw [Stmt.moved, Stmt.lower, Stmt.lower, Expr.lowerAs_moved hg]
      exact bind_translate _ fun _ => rfl
  | .declare name value loc, ctx => by
      rw [Stmt.moved, Stmt.lower, Stmt.lower, Expr.lowerAs_moved hg]
      exact bind_translate _ fun _ => rfl
  | .assign name value loc, ctx => by
      rw [Stmt.moved, Stmt.lower, Stmt.lower, Expr.lowerAs_moved hg]
      refine bind_translate _ fun code => ?_
      rw [Slots.require_moved hg]
      exact bind_translate _ fun _ => rfl
  | .loop condition body loc, ctx => by
      rw [Stmt.moved, Stmt.lower, Stmt.lower]
      refine opening_moved hg ctx condition loc fun inside guard => ?_
      rw [lowerBody_moved hg body inside.2]
      exact bind_translate _ fun _ => rfl
  | .ifThen condition body loc, ctx => by
      rw [Stmt.moved, Stmt.lower, Stmt.lower]
      refine opening_moved hg ctx condition loc fun inside guard => ?_
      rw [lowerBody_moved hg body inside.2]
      exact bind_translate _ fun _ => rfl
  | .ifElse condition first second loc, ctx => by
      rw [Stmt.moved, Stmt.lower, Stmt.lower]
      refine opening_moved hg ctx condition loc fun inside guard => ?_
      rw [lowerBody_moved hg first inside.2]
      refine bind_translate _ fun (firstCode, middle) => ?_
      dsimp only [id]
      rw [lowerBody_moved hg second middle]
      exact bind_translate _ fun _ => rfl
  | .procedure name exported body loc, ctx => by
      rw [Stmt.moved, Stmt.lower, Stmt.lower]
      exact error_moved hg rfl rfl

theorem lowerBody_moved (hg : MovesPlaces f g) : ∀ (body : List Stmt) (ctx : Context),
    lowerBody (movedBody f body) ctx = translate g id (lowerBody body ctx)
  | [], ctx => by
      rw [movedBody, lowerBody]
      rfl
  | s :: rest, ctx => by
      rw [movedBody, lowerBody, lowerBody, Stmt.lower_moved hg s ctx]
      refine bind_translate _ fun (code, middle) => ?_
      dsimp only [id]
      rw [lowerBody_moved hg rest middle]
      exact bind_translate _ fun _ => rfl

end

theorem lowerProcedures_moved (hg : MovesPlaces f g) (declared : List String)
    (labels : LabelCounter) (p : Program) :
    lowerProcedures declared labels (movedBody f p) =
      translate g id (lowerProcedures declared labels p) := by
  induction p generalizing declared labels with
  | nil =>
      rw [movedBody, lowerProcedures]
      rfl
  | cons s rest ih =>
      rw [movedBody]
      cases s with
      | procedure name exported body loc =>
          rw [Stmt.moved, lowerProcedures, lowerProcedures]
          refine ite_translate Iff.rfl (error_moved hg rfl rfl) ?_
          rw [lowerBody_moved hg]
          refine bind_translate _ fun (code, after) => ?_
          dsimp only [id]
          rw [ih]
          exact bind_translate _ fun _ => rfl
      | _ =>
          rw [Stmt.moved]
          exact error_moved hg rfl rfl

theorem Stmt.isProcedure_moved (s : Stmt) : (s.moved f).isProcedure = s.isProcedure := by
  cases s <;> rfl

theorem Stmt.isProcedureNamed_moved (name : String) (s : Stmt) :
    (s.moved f).isProcedureNamed name = s.isProcedureNamed name := by
  cases s <;> rfl

namespace Program

-- The entry point comes first, so that no procedure before it has its name and its place is
-- never reported.
theorem lower_procedure_cons (name : String) (exported : Bool) (body : List Stmt)
    (loc loc' : Location) (rest : Program) :
    Program.lower (.procedure name exported body loc :: rest) =
      Program.lower (.procedure name exported body loc' :: rest) := by
  unfold Program.lower
  rw [lowerProcedures, lowerProcedures]
  simp

theorem lower_withEntry_moved (hg : MovesPlaces f g) (p : Program) :
    Program.lower (Program.withEntry (movedBody f p)) =
      translate g id p.withEntry.lower := by
  have hdeclares : Program.declaresEntry (movedBody f p) = p.declaresEntry := by
    rw [movedBody_eq_map]
    simp [Program.declaresEntry, Function.comp_def, Stmt.isProcedureNamed_moved]
  have hprocedures : Program.procedures (movedBody f p) = movedBody f p.procedures := by
    simp only [movedBody_eq_map, Program.procedures, List.filter_map, Function.comp_def,
      Stmt.isProcedure_moved]
  have hfree : Program.freeStatements (movedBody f p) = movedBody f p.freeStatements := by
    simp only [movedBody_eq_map, Program.freeStatements, List.filter_map, Function.comp_def,
      Stmt.isProcedure_moved]
  unfold Program.withEntry
  rw [hdeclares]
  by_cases hentry : p.declaresEntry
  · rw [if_pos hentry, if_pos hentry]
    exact lowerProcedures_moved hg [] .start p
  · rw [if_neg hentry, if_neg hentry, hprocedures]
    have hmoved : Program.lower (Program.entry (movedBody f p) :: movedBody f p.procedures) =
        Program.lower (movedBody f (p.entry :: p.procedures)) := by
      unfold Program.entry
      rw [movedBody, Stmt.moved, hfree]
      exact lower_procedure_cons _ _ _ _ _ _
    rw [hmoved]
    exact lowerProcedures_moved hg [] .start _

end Program

end EchoLang
