import EchoLang.Proofs.Machine.Lockstep
import EchoLang.Proofs.Machine.Operands

namespace EchoLang

open Exec Machine

variable {α β : Type} {config : MachineConfig}

-- Within its limit the computation stays within it, and it is out of steps only when all
-- of them are taken.
def Exhausts (config : MachineConfig) (c : Exec α) : Prop :=
  ∀ s, s.steps ≤ config.maxSteps →
    Ends c s (fun _ t => t.steps ≤ config.maxSteps)
      (fun trap t => OutOfSteps (some trap) → t.steps = config.maxSteps)

theorem Exhausts.bind {c : Exec α} {f : α → Exec β} (hc : Exhausts config c)
    (hf : ∀ a, Exhausts config (f a)) : Exhausts config (c >>= f) := by
  intro s hs
  rw [ends_bind]
  exact (hc s hs).imp (fun a t ht => hf a t ht) fun _ _ h => h

theorem exhausts_pure (a : α) : Exhausts config (pure a) := fun _ hs => hs

theorem exhausts_throw {trap : Trap} (h : ∀ limit, trap ≠ .stepLimit limit) :
    Exhausts config (throw trap : Exec α) := by
  rintro s - ⟨limit, hlimit⟩
  exact absurd (Option.some.inj hlimit) (h limit)

theorem exhausts_print (x : Float32) : Exhausts config (print x) := fun _ hs => hs

-- Operands and slots have nothing to do with steps.
theorem Exec.Local.exhausts {c : Exec α} (hlocal : Local c) (hc : NeedsOperands c) :
    Exhausts config c := by
  intro s hs
  refine ((hlocal.ends s).and (hc s)).imp ?_ ?_
  · rintro _ t ⟨ht, -⟩
    rw [ht]
    exact hs
  · rintro trap t ⟨-, htrap⟩ ⟨limit, hlimit⟩
    cases hlimit
    exact htrap.elim

section Code

variable {m : CodeModule} {enter : FunctionDef → Exec Unit} {function : String}

theorem exhausts_countStep : Exhausts config (countStep config) := by
  intro s hs
  rw [ends_countStep]
  split
  · rename_i hlimit
    exact fun _ => hlimit
  · exact Nat.lt_of_le_of_ne hs ‹_›

theorem exhausts_record (i : Instr) : Exhausts config (record config function i) := by
  intro s hs
  rw [ends_record]
  exact hs

theorem exhausts_runBlock {label : Label} {body : Exec Flow} (hb : Exhausts config body) :
    Exhausts config (runBlock label body) := by
  intro s hs
  rw [ends_runBlock]
  refine (hb s hs).imp ?_ fun _ _ h => h
  intro flow t ht
  split
  · exact ht
  · exact ht

-- By induction on the steps that are left. A round that is not the last one takes a step.
theorem exhausts_loopFrom {label : Label} {height : Nat} {body : Exec Flow}
    (hb : Exhausts config body) (hp : Progresses config body) :
    Exhausts config (loopFrom config label height body) := by
  intro s hs
  induction hleft : config.maxSteps - s.steps using Nat.strongRecOn generalizing s with
  | ind left ih =>
      rw [ends_loopFrom hp hs]
      refine ((hb s hs).and (hp s)).imp ?_ fun _ _ h => h.1
      rintro flow t ⟨ht, hst, hlt⟩
      split
      · rename_i hflow
        have hstep : s.steps < t.steps := hlt (by simp [hflow])
        exact ih (config.maxSteps - t.steps) (by omega) (cut height t) ht rfl
      · exact ht

theorem exhausts_inFrame {slots : Array Float32} {body : Exec Flow} (hb : Exhausts config body) :
    Exhausts config (inFrame slots body) := by
  intro s hs
  rw [ends_inFrame]
  exact hb _ hs

theorem exhausts_callNamed (henter : ∀ f, Exhausts config (enter f)) (name : String) :
    Exhausts config (callNamed m enter name) := by
  unfold callNamed
  cases m.effect? name with
  | some e =>
      dsimp only
      split
      · exact ((local_popFloat _).exhausts (needsOperands_popFloat _)).bind fun x =>
          exhausts_print x
      · exact exhausts_throw (by simp)
  | none =>
      cases m.function? name with
      | some f => exact henter f
      | none => exact exhausts_throw (by simp)

mutual

theorem exhausts_perform (hadvances : ∀ f, Advances config (enter f))
    (henter : ∀ f, Exhausts config (enter f)) :
    ∀ i : Instr, Exhausts config (perform config m enter function i)
  | .block _ body =>
      (exhausts_record _).bind fun _ =>
        exhausts_runBlock (exhausts_execBody hadvances henter body)
  | .loop _ body =>
      (exhausts_record _).bind fun _ s hs =>
        exhausts_loopFrom (exhausts_execBody hadvances henter body)
          (execBody_progresses hadvances body) s hs
  | .branch _ => (exhausts_record _).bind fun _ => exhausts_pure _
  | .branchIf _ =>
      ((local_popInt _).exhausts (needsOperands_popInt _)).bind fun _ =>
        (exhausts_record _).bind fun _ => exhausts_pure _
  | .call name =>
      (exhausts_callNamed henter name).bind fun _ => (exhausts_record _).bind fun _ =>
        exhausts_pure _
  | .operate op =>
      ((op.run_local _).exhausts (op.run_needsOperands _)).bind fun _ =>
        (exhausts_record _).bind fun _ => exhausts_pure _

theorem exhausts_execBody (hadvances : ∀ f, Advances config (enter f))
    (henter : ∀ f, Exhausts config (enter f)) :
    ∀ body : List Instr, Exhausts config (execBody config m enter function body)
  | [] => by
      rw [execBody]
      exact exhausts_pure _
  | i :: rest => by
      rw [execBody_cons, execInstr_eq]
      refine (exhausts_countStep.bind fun _ => exhausts_perform hadvances henter i).bind ?_
      intro flow
      cases flow with
      | next => exact exhausts_execBody hadvances henter rest
      | branch label => exact exhausts_pure _

end

end Code

theorem exhausts_enterFunction {m : CodeModule} (left : Nat) (f : FunctionDef) :
    Exhausts config (enterFunction config m left f) := by
  induction left generalizing f with
  | zero => exact exhausts_throw (by simp)
  | succ left ih =>
      rw [enterFunction]
      refine (exhausts_inFrame (exhausts_execBody (enterFunction_advances left) ih f.body)).bind ?_
      intro flow
      cases flow with
      | next => exact exhausts_pure _
      | branch label => exact exhausts_throw (by simp)

theorem steps_eq_of_outOfSteps {m : CodeModule} {entry : String} {machine : Machine}
    (h : OutOfSteps (machine.run m entry).1) :
    (machine.run m entry).2.state.steps = machine.config.maxSteps := by
  cases hf : m.function? entry with
  | none =>
      unfold Machine.run at h
      rw [hf] at h
      obtain ⟨limit, hlimit⟩ := h
      cases hlimit
  | some f =>
      refine ends_run (fun trap t => OutOfSteps trap → t.steps = machine.config.maxSteps)
        machine hf ?_ h
      refine (exhausts_enterFunction maxFrames f .initial (Nat.zero_le _)).imp ?_ fun _ _ ht => ht
      rintro _ t - ⟨limit, hlimit⟩
      cases hlimit

-- The first state was left by a run that its limit stopped. The second one is that of a run
-- which did the same up to there and perhaps more.
structure Behind (config : MachineConfig) (s t : State) : Prop where
  steps : config.maxSteps ≤ t.steps
  printed : s.printed.toList <+: t.printed.toList
  trace : s.trace.toList <+: t.trace.toList

theorem behind_self {s : State} (h : s.steps = config.maxSteps) : Behind config s s :=
  ⟨Nat.le_of_eq h.symm, List.prefix_refl _, List.prefix_refl _⟩

theorem Behind.advance {config' : MachineConfig} {s t u : State} (h : Behind config s t)
    (hu : Advance config' t u) : Behind config s u :=
  ⟨Nat.le_trans h.steps hu.steps_le, h.printed.trans hu.printed, h.trace.trans hu.trace⟩

-- A step that the higher limit admits is only late if the lower one does not.
theorem matches_countStep {config' : MachineConfig} (hle : config.maxSteps ≤ config'.maxSteps)
    {s : State} (hs : s.steps ≤ config.maxSteps) :
    Matches (fun s s' => s' = s ∧ s.steps ≤ config.maxSteps) (Behind config)
      (countStep config s) (countStep config' s) := by
  rw [countStep_apply, countStep_apply]
  by_cases hlimit : s.steps = config.maxSteps
  · rw [if_pos hlimit]
    refine .limit ?_
    split
    · exact behind_self hlimit
    · rename_i hgoes
      exact (behind_self hlimit).advance (advance_count hgoes)
  · have hlt := Nat.lt_of_le_of_ne hs hlimit
    rw [if_neg hlimit, if_neg (Nat.ne_of_lt (Nat.lt_of_lt_of_le hlt hle))]
    exact .ok ⟨rfl, hlt⟩

-- A run beside one with a higher limit. Their states are the same until the first one is
-- stopped.
def extending {config config' : MachineConfig} (htrace : config'.trace = config.trace)
    (hle : config.maxSteps ≤ config'.maxSteps) : Lockstep where
  config := config
  config' := config'
  rel s s' := s' = s ∧ s.steps ≤ config.maxSteps
  late := Behind config
  stack_eq h := by rw [h.1]
  slots_eq h := by rw [h.1]
  within h := h.2
  within' h := by
    rw [h.1]
    exact Nat.le_trans h.2 hle
  rel_stack _ h := by
    rw [h.1]
    exact ⟨rfl, h.2⟩
  rel_frame _ _ h := by
    rw [h.1]
    exact ⟨rfl, h.2⟩
  rel_print _ h := by
    rw [h.1]
    exact ⟨rfl, h.2⟩
  rel_record _ _ h := by
    rw [h.1]
    exact ⟨by simp only [recorded, htrace], h.2⟩
  meets_count := by
    rintro s _ ⟨rfl, hs⟩
    exact matches_countStep hle hs
  late_advance := Behind.advance
  late_frame _ _ _ _ h := ⟨h.steps, h.printed, h.trace⟩

-- A run that is not stopped by its limit is the same under every higher one. A run that is
-- stopped has taken all its steps, and a higher limit only adds to what it did.
theorem run_mono_limit (m : CodeModule) (entry : String) (machine machine' : Machine)
    (htrace : machine'.config.trace = machine.config.trace)
    (hle : machine.config.maxSteps ≤ machine'.config.maxSteps) :
    (¬OutOfSteps (machine.run m entry).1 →
      (machine'.run m entry).1 = (machine.run m entry).1 ∧
        (machine'.run m entry).2.state = (machine.run m entry).2.state) ∧
    (OutOfSteps (machine.run m entry).1 →
      (machine.run m entry).2.state.steps = machine.config.maxSteps ∧
        machine.config.maxSteps ≤ (machine'.run m entry).2.state.steps ∧
        (machine.run m entry).2.state.printed.toList <+:
          (machine'.run m entry).2.state.printed.toList ∧
        (machine.run m entry).2.state.trace.toList <+:
          (machine'.run m entry).2.state.trace.toList) := by
  have hrun := (Lockstep.related_self (L := extending htrace hle) m).run
    ⟨rfl, Nat.zero_le _⟩ machine machine' rfl rfl entry
  constructor
  · intro hends
    rcases hrun with ⟨htrap, hstate, -⟩ | ⟨hlimit, -⟩
    · exact ⟨htrap, hstate⟩
    · exact absurd hlimit hends
  · intro hlimit
    have hsteps := steps_eq_of_outOfSteps hlimit
    have hbehind : Behind machine.config (machine.run m entry).2.state
        (machine'.run m entry).2.state := by
      rcases hrun with ⟨-, hstate, -⟩ | ⟨-, hlate⟩
      · rw [hstate]
        exact behind_self hsteps
      · exact hlate
    exact ⟨hsteps, hbehind.steps, hbehind.printed, hbehind.trace⟩

-- One function prints without end, the other one calls itself until it has no frame left.
def tickModule : CodeModule where
  unit := "tick"
  imports := [.echo]
  functions :=
    [⟨"spin", true, [], [.loop ⟨.whileLoop, 0⟩
        [.operate (.floatConst 1), .call "echo", .branch ⟨.whileLoop, 0⟩]]⟩,
      ⟨"sink", true, [], [.call "sink"]⟩]

theorem run_mono_limit_tick :
    ∃ short long : Machine, short.config = ⟨65, true⟩ ∧ long.config = ⟨99, true⟩ ∧
      (OutOfSteps (short.run tickModule "spin").1 ∧
        (short.run tickModule "spin").2.state.steps = 65 ∧
        65 ≤ (long.run tickModule "spin").2.state.steps ∧
        (short.run tickModule "spin").2.state.printed.toList <+:
          (long.run tickModule "spin").2.state.printed.toList ∧
        (short.run tickModule "spin").2.state.trace.toList <+:
          (long.run tickModule "spin").2.state.trace.toList) ∧
      ((short.run tickModule "sink").1 = some (.callStackOverflow 64) ∧
        (long.run tickModule "sink").1 = (short.run tickModule "sink").1 ∧
        (long.run tickModule "sink").2.state = (short.run tickModule "sink").2.state) := by
  have hmono (entry : String) := run_mono_limit tickModule entry (new ⟨65, true⟩) (new ⟨99, true⟩)
    rfl (by decide)
  have hlimit : OutOfSteps ((new ⟨65, true⟩).run tickModule "spin").1 := ⟨65, by decide +kernel⟩
  have htrap : ((new ⟨65, true⟩).run tickModule "sink").1 = some (.callStackOverflow 64) := by
    decide +kernel
  have hends : ¬OutOfSteps ((new ⟨65, true⟩).run tickModule "sink").1 := by
    rw [htrap]
    rintro ⟨limit, hlimit⟩
    cases hlimit
  exact ⟨new ⟨65, true⟩, new ⟨99, true⟩, rfl, rfl, ⟨hlimit, (hmono "spin").2 hlimit⟩,
    htrap, (hmono "sink").1 hends⟩

end EchoLang
