import EchoLang.Proofs.Evaluation.Control
import EchoLang.Proofs.Lowering.Modules

namespace EchoLang

open Machine Evaluation

variable {p : Program} {m : CodeModule} {f : FunctionDef} {name : String} {exported : Bool}
  {body : List Stmt} {loc : Location}

-- A fresh frame holds the variables before anything was assigned.
theorem Slots.hold_start (slots : Slots) (s : State)
    (hs : s.slots = Array.replicate slots.size 0) : slots.Hold Memory.start.vars s := by
  intro name slot hslot
  rw [hs, Array.getElem?_replicate, if_pos (lt_size_of_resolve? hslot)]
  rfl

theorem ends_enterFunction_of_lowersTo (h : Lowered p m)
    (hf : LowersTo (.procedure name exported body loc) f) :
    ∃ n, ∀ config, Ends (enterFunction config m maxFrames f) .initial
      (fun _ t => ∃ mem, evalBody body .start = some (mem, none) ∧
        t.printed.toList = mem.printed)
      (Setting.Stopped config (evalBody body .start) n .initial) := by
  cases hf with
  | @procedure _ _ _ _ labels code after hlowers =>
      let S : Setting :=
        { module := m, enter := fun config => enterFunction config m 63, function := name,
          slots := after.slots, echo_imported := h.effect?_echo,
          advances := fun config f => enterFunction_advances 63 f }
      obtain ⟨n, hn⟩ := Setting.implements_of_lowers (S := S) hlowers
        (Slots.Extends.refl _) .start
      refine ⟨n, fun config => ?_⟩
      change Ends (enterFunction config m (63 + 1) _) _ _ _
      rw [enterFunction]
      simp only [ends_bind, ends_inFrame]
      have hstart : S.Represents .start
          { State.initial with slots := Array.replicate after.slots.size 0, frames := 0 + 1 } :=
        ⟨Slots.hold_start _ _ rfl, rfl⟩
      refine (hn config _ (Nat.zero_le _) hstart).imp ?_ ?_
      · rintro flow t ⟨rfl, hfin⟩
        obtain ⟨mem, hmem, hrep⟩ := hfin.memory
        exact ⟨mem, hmem, hrep.printed⟩
      · intro trap t hstop
        exact hstop

-- The run ends as the evaluation does, or for want of steps.
theorem run_of_lowersTo (h : Lowered p m) (hproc : .procedure name exported body loc ∈ p) :
    ∃ n, ∀ machine : Machine,
      (∃ fault, evalProcedure body = some ((machine.run m name).2.state.printed.toList, fault) ∧
        (machine.run m name).1 = fault.map Fault.trap) ∨
      ((machine.run m name).1 = some (.stepLimit machine.config.maxSteps) ∧
        (evalProcedure body ≠ none → machine.config.maxSteps < n)) := by
  obtain ⟨f, hf, hlookup⟩ := h.exists_function hproc
  obtain ⟨n, hn⟩ := ends_enterFunction_of_lowersTo h hf
  cases hf
  refine ⟨n, fun machine => ?_⟩
  refine ends_run (fun trap t =>
    (∃ fault, evalProcedure body = some (t.printed.toList, fault) ∧ trap = fault.map Fault.trap) ∨
      (trap = some (.stepLimit machine.config.maxSteps) ∧
        (evalProcedure body ≠ none → machine.config.maxSteps < n))) machine hlookup ?_
  unfold evalProcedure
  refine (hn machine.config).imp ?_ ?_
  · rintro _ t ⟨mem, hmem, hprinted⟩
    exact .inl ⟨none, by simp [hmem, hprinted], rfl⟩
  · rintro trap t (⟨htrap, hlimit⟩ | ⟨fault, mem, htrap, hmem, hprinted⟩)
    · refine .inr ⟨congrArg some htrap, fun hend => ?_⟩
      have hlt := hlimit (by simpa using hend)
      simpa [State.initial] using hlt
    · exact .inl ⟨some fault, by simp [hmem, hprinted], by rw [htrap]; rfl⟩

-- A run that its limit does not stop agrees with the evaluation, and a limit that is
-- high enough stops no run of which the evaluation ends.
theorem run_agrees_with_evalProcedure {target : Target} {unit : String}
    (hadd : (CodeModule.empty unit).addProgram target p = (m, none))
    (hproc : .procedure name exported body loc ∈ p) :
    (∀ machine : Machine, ¬ OutOfSteps (machine.run m name).1 →
      ∃ fault, evalProcedure body = some ((machine.run m name).2.state.printed.toList, fault) ∧
        (machine.run m name).1 = fault.map Fault.trap) ∧
    ∀ printed fault, evalProcedure body = some (printed, fault) →
      ∃ n, ∀ machine : Machine, n ≤ machine.config.maxSteps →
        (machine.run m name).1 = fault.map Fault.trap ∧
          (machine.run m name).2.state.printed.toList = printed := by
  obtain ⟨n, hn⟩ := run_of_lowersTo (lowered_of_addProgram hadd) hproc
  constructor
  · intro machine hlimit
    cases hn machine with
    | inl hagrees => exact hagrees
    | inr hstop => exact absurd ⟨_, hstop.1⟩ hlimit
  · intro printed fault heval
    refine ⟨n, fun machine hle => ?_⟩
    cases hn machine with
    | inl hagrees =>
        obtain ⟨own, hown, htrap⟩ := hagrees
        rw [heval] at hown
        cases hown
        exact ⟨htrap, rfl⟩
    | inr hstop =>
        have hlt := hstop.2 (by simp [heval])
        omega

-- Prints 3, 2 and 1.
def countdown : List Stmt :=
  [.declare "x" (.number 3 .start) .start,
    .loop (.var "x" .start)
      [.echo (.var "x" .start) .start,
        .assign "x" (.binary (.var "x" .start) .subtract (.number 1 .start) .start) .start]
      .start]

def countdownProgram : Program :=
  [.procedure "main" true countdown .start,
    .procedure "once" false [.echo (.number 7 .start) .start] .start]

theorem run_agrees_with_evalProcedure_countdown :
    ∃ m, (CodeModule.empty "demo").addProgram .listing countdownProgram = (m, none) ∧
      (∀ machine : Machine, ¬ OutOfSteps (machine.run m "main").1 →
        ∃ fault,
          evalProcedure countdown = some ((machine.run m "main").2.state.printed.toList, fault) ∧
            (machine.run m "main").1 = fault.map Fault.trap) ∧
      ∃ n, ∀ machine : Machine, n ≤ machine.config.maxSteps →
        (machine.run m "once").1 = none ∧
          (machine.run m "once").2.state.printed.toList = [7] := by
  obtain ⟨m, hm⟩ : ∃ m, (CodeModule.empty "demo").addProgram .listing countdownProgram =
      (m, none) := ⟨_, rfl⟩
  have hmain := run_agrees_with_evalProcedure hm (.head _)
  have honce := run_agrees_with_evalProcedure hm (.tail _ (.head _))
  exact ⟨m, hm, hmain.1, honce.2 [7] none rfl⟩

end EchoLang
