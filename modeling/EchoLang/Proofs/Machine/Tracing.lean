import EchoLang.Proofs.Machine.Lockstep

namespace EchoLang

open Exec Machine

-- The states differ in the trace at most.
def SameButTrace (s s' : State) : Prop :=
  s' = { s with trace := s'.trace }

-- Both machines are out of steps at once, so that neither is ever late.
theorem matches_countStep_of_same {config config' : MachineConfig}
    (hlimit : config'.maxSteps = config.maxSteps) {s s' : State}
    (h : SameButTrace s s') (hs : s.steps ≤ config.maxSteps) :
    Matches (fun s s' => SameButTrace s s' ∧ s.steps ≤ config.maxSteps) (fun _ _ => False)
      (countStep config s) (countStep config' s') := by
  have hsteps : s'.steps = s.steps := by rw [h]
  rw [countStep_apply, countStep_apply, hlimit, hsteps]
  by_cases hout : s.steps = config.maxSteps
  · rw [if_pos hout, if_pos hout]
    exact .trap ⟨h, hs⟩
  · rw [if_neg hout, if_neg hout]
    refine .ok ⟨?_, Nat.lt_of_le_of_ne hs hout⟩
    rw [h]
    rfl

-- A run beside another one that may keep a trace where the first one keeps none.
def alongside {config config' : MachineConfig} (hlimit : config'.maxSteps = config.maxSteps) :
    Lockstep where
  config := config
  config' := config'
  rel s s' := SameButTrace s s' ∧ s.steps ≤ config.maxSteps
  late _ _ := False
  stack_eq h := by rw [h.1]
  slots_eq h := by rw [h.1]
  within h := h.2
  within' h := by
    rw [h.1, hlimit]
    exact h.2
  rel_stack _ h := by
    rw [h.1]
    exact ⟨rfl, h.2⟩
  rel_frame _ _ h := by
    rw [h.1]
    exact ⟨rfl, h.2⟩
  rel_print _ h := by
    rw [h.1]
    exact ⟨rfl, h.2⟩
  rel_record _ _ h := by
    refine ⟨?_, h.2⟩
    rw [h.1]
    rfl
  meets_count h := matches_countStep_of_same hlimit h.1 h.2
  late_advance h _ := h
  late_frame _ _ _ _ h := h

namespace Machine

-- The machine after some runs, each of a function of a module.
def afterRuns (machine : Machine) (runs : List (CodeModule × String)) : Machine :=
  runs.foldl (fun machine (m, entry) => (machine.run m entry).2) machine

theorem config_run (machine : Machine) (m : CodeModule) (entry : String) :
    (machine.run m entry).2.config = machine.config := by
  unfold run
  cases m.function? entry with
  | none => rfl
  | some f =>
      dsimp only
      split <;> rfl

theorem config_afterRuns (machine : Machine) (runs : List (CodeModule × String)) :
    (machine.afterRuns runs).config = machine.config := by
  induction runs generalizing machine with
  | nil => rfl
  | cons first rest ih => exact (ih _).trans (machine.config_run first.1 first.2)

theorem run_same_but_trace (m : CodeModule) (entry : String) {machine machine' : Machine}
    (hlimit : machine'.config.maxSteps = machine.config.maxSteps) :
    (machine'.run m entry).1 = (machine.run m entry).1 ∧
      SameButTrace (machine.run m entry).2.state (machine'.run m entry).2.state := by
  have hrun := (Lockstep.related_self (L := alongside hlimit) m).run
    ⟨rfl, Nat.zero_le _⟩ machine machine' rfl rfl entry
  rcases hrun with ⟨htrap, hsame, -⟩ | ⟨-, hlate⟩
  · exact ⟨htrap, hsame⟩
  · exact hlate.elim

-- Neither the choice to keep a trace nor what a machine ran before, to its end or into a trap,
-- shows in the result of a run, in what it prints, in the operands that are left or in its
-- steps.
theorem run_ignores_trace_and_history (m : CodeModule) (entry : String) (maxSteps : Nat)
    (trace trace' : Bool) (earlier earlier' : List (CodeModule × String)) :
    let result := ((new ⟨maxSteps, trace⟩).afterRuns earlier).run m entry
    let result' := ((new ⟨maxSteps, trace'⟩).afterRuns earlier').run m entry
    result'.1 = result.1 ∧ result'.2.state.printed = result.2.state.printed ∧
      result'.2.state.stack = result.2.state.stack ∧
      result'.2.state.steps = result.2.state.steps := by
  have hlimit : ((new ⟨maxSteps, trace'⟩).afterRuns earlier').config.maxSteps =
      ((new ⟨maxSteps, trace⟩).afterRuns earlier).config.maxSteps := by
    rw [config_afterRuns, config_afterRuns]
    rfl
  obtain ⟨htrap, hsame⟩ := run_same_but_trace m entry hlimit
  dsimp only
  rw [hsame]
  exact ⟨htrap, rfl, rfl, rfl⟩

end Machine

end EchoLang
