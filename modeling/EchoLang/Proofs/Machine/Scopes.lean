import EchoLang.Proofs.Lowering.Labels
import EchoLang.Proofs.Machine.Advance
import EchoLang.Proofs.Machine.Operands
import EchoLang.Proofs.Typing.Soundness

namespace EchoLang

open Exec Machine

variable {α : Type}

-- The computation returns something good or traps, and not because of a branch without scope.
abbrev Stays (good : α → Prop) (c : Exec α) : Prop :=
  Obeys good (fun trap => ∀ label, trap ≠ .unknownLabel label) c

theorem Exec.NeedsOperands.stays {c : Exec α} (hc : NeedsOperands c) : Stays (fun _ => True) c := by
  refine hc.mono ?_
  rintro trap htrap label rfl
  exact htrap

theorem stays_print (x : Float32) : Stays (fun _ => True) (print x) := fun _ => trivial

section Code

variable {config : MachineConfig} {m : CodeModule} {enter : FunctionDef → Exec Unit}
  {function : String} {scopes : List Label} {label : Label} {body : Exec Flow}

theorem stays_countStep : Stays (fun _ => True) (countStep config) := by
  intro s
  rw [ends_countStep]
  split
  · simp
  · trivial

theorem stays_record (i : Instr) : Stays (fun _ => True) (record config function i) := by
  intro s
  rw [ends_record]
  trivial

theorem stays_runBlock (hb : Stays (Flow.Within (label :: scopes)) body) :
    Stays (Flow.Within scopes) (runBlock label body) := by
  intro s
  rw [ends_runBlock]
  refine (hb s).imp ?_ fun _ _ h => h
  intro flow t hflow
  split
  · exact .inl rfl
  · exact hflow.of_ne ‹_›

theorem stays_repeatLoop (hb : Stays (Flow.Within (label :: scopes)) body) (height rounds : Nat) :
    Stays (Flow.Within scopes) (repeatLoop config label height body rounds) := by
  induction rounds with
  | zero => exact obeys_throw (by simp)
  | succ rounds ih =>
      rw [repeatLoop_succ]
      refine hb.bind fun flow hflow s => ?_
      rw [ends_nextRound]
      split
      · exact ih _
      · exact hflow.of_ne ‹_›

theorem stays_callNamed (henter : ∀ f ∈ m.functions, Stays (fun _ => True) (enter f))
    (name : String) : Stays (fun _ => True) (callNamed m enter name) := by
  unfold callNamed
  cases m.effect? name with
  | some e =>
      dsimp only
      split
      · exact (needsOperands_popFloat _).stays.after fun x => stays_print x
      · exact obeys_throw (by simp)
  | none =>
      cases hf : m.function? name with
      | some f => exact henter f (List.mem_of_find?_eq_some hf)
      | none => exact obeys_throw (by simp)

theorem stays_inFrame {good : Flow → Prop} {slots : Array Float32} (hb : Stays good body) :
    Stays good (inFrame slots body) := by
  intro s
  rw [ends_inFrame]
  exact hb _

mutual

-- By recursion on the code. The scopes around it say where its branches may lead.
theorem stays_perform (henter : ∀ f ∈ m.functions, Stays (fun _ => True) (enter f)) :
    ∀ (i : Instr) {scopes : List Label}, i.BranchesInside scopes →
      Stays (Flow.Within scopes) (perform config m enter function i)
  | .block _ body, _, h =>
      (stays_record _).after fun _ => stays_runBlock (stays_execBody henter body h)
  | .loop _ body, _, h => by
      refine (stays_record _).after fun _ s => ?_
      exact stays_repeatLoop (stays_execBody henter body h) _ _ s
  | .branch label, _, h => (stays_record _).after fun _ => obeys_pure (.inr ⟨label, h, rfl⟩)
  | .branchIf label, _, h => by
      refine (needsOperands_popInt _).stays.after fun n =>
        (stays_record _).after fun _ => obeys_pure ?_
      split
      · exact .inl rfl
      · exact .inr ⟨label, h, rfl⟩
  | .call name, _, _ =>
      (stays_callNamed henter name).after fun _ => (stays_record _).after fun _ =>
        obeys_pure (.inl rfl)
  | .operate op, _, _ =>
      (op.run_needsOperands _).stays.after fun _ =>
        (stays_record _).after fun _ => obeys_pure (.inl rfl)

theorem stays_execBody (henter : ∀ f ∈ m.functions, Stays (fun _ => True) (enter f)) :
    ∀ (body : List Instr) {scopes : List Label}, CodeBranchesInside scopes body →
      Stays (Flow.Within scopes) (execBody config m enter function body)
  | [], _, _ => by
      rw [execBody]
      exact obeys_pure (.inl rfl)
  | i :: rest, _, h => by
      rw [execBody_cons, execInstr_eq]
      refine (stays_countStep.after fun _ => stays_perform henter i h.1).bind fun flow hflow => ?_
      cases flow with
      | next => exact stays_execBody henter rest h.2
      | branch label => exact obeys_pure hflow

end

-- By induction on the frames that are left.
theorem stays_enterFunction (hinside : ∀ f ∈ m.functions, CodeBranchesInside [] f.body)
    (left : Nat) : ∀ f ∈ m.functions, Stays (fun _ => True) (enterFunction config m left f) := by
  induction left with
  | zero => exact fun f _ => obeys_throw (by simp)
  | succ left ih =>
      intro f hf
      rw [enterFunction]
      refine (stays_inFrame (stays_execBody ih f.body (hinside f hf))).bind fun flow hflow => ?_
      rcases hflow with rfl | ⟨label, hlabel, -⟩
      · exact obeys_pure trivial
      · cases hlabel

-- No run of the module ends because a branch has no scope to go to.
theorem run_ne_unknownLabel (hinside : ∀ f ∈ m.functions, CodeBranchesInside [] f.body)
    (machine : Machine) (entry : String) (label : Label) :
    (machine.run m entry).1 ≠ some (.unknownLabel label) := by
  cases hf : m.function? entry with
  | none =>
      unfold Machine.run
      rw [hf]
      simp
  | some f =>
      refine ends_run (fun trap _ => trap ≠ some (.unknownLabel label)) machine hf ?_
      refine (stays_enterFunction hinside maxFrames f (List.mem_of_find?_eq_some hf) _).imp ?_ ?_
      · simp
      · intro trap t htrap
        simpa using htrap label

end Code

end EchoLang
