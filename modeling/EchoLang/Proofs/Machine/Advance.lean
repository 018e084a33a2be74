import EchoLang.Proofs.Machine.Straight

namespace EchoLang

open Exec

variable {α β : Type} {config : MachineConfig} {s t u : State}

structure Advance (config : MachineConfig) (s t : State) : Prop where
  steps_le : s.steps ≤ t.steps
  within : s.steps ≤ config.maxSteps → t.steps ≤ config.maxSteps
  printed : s.printed.toList <+: t.printed.toList
  trace : s.trace.toList <+: t.trace.toList

theorem Advance.refl (s : State) : Advance config s s :=
  ⟨Nat.le_refl _, id, List.prefix_refl _, List.prefix_refl _⟩

theorem Advance.trans (h : Advance config s t) (h' : Advance config t u) : Advance config s u :=
  ⟨Nat.le_trans h.steps_le h'.steps_le, fun hs => h'.within (h.within hs),
    h.printed.trans h'.printed, h.trace.trans h'.trace⟩

instance : Tolerant (Advance config) where
  refl := Advance.refl
  trans _ _ _ := Advance.trans
  working _ _ := ⟨Nat.le_refl _, id, List.prefix_refl _, List.prefix_refl _⟩
  print _ _ := ⟨Nat.le_refl _, id, by simp, List.prefix_refl _⟩

-- The computation only adds to the state.
abbrev Advances (config : MachineConfig) (c : Exec α) : Prop :=
  Follows (Advance config) c

namespace Machine

variable {m : CodeModule} {enter : FunctionDef → Exec Unit} {function : String}

theorem advances_record (i : Instr) : Advances config (record config function i) := by
  intro s
  rw [ends_record]
  refine ⟨Nat.le_refl _, id, List.prefix_refl _, ?_⟩
  simp only [recorded]
  split
  · simp
  · exact List.prefix_refl _

theorem advance_count (h : s.steps ≠ config.maxSteps) :
    Advance config s { s with steps := s.steps + 1 } :=
  ⟨Nat.le_succ _, fun hs => by dsimp only; omega, List.prefix_refl _, List.prefix_refl _⟩

theorem advance_cut (height : Nat) (s : State) : Advance config s (cut height s) :=
  ⟨Nat.le_refl _, id, List.prefix_refl _, List.prefix_refl _⟩

theorem advances_runBlock {label : Label} {body : Exec Flow} (hb : Advances config body) :
    Advances config (runBlock label body) := by
  intro s
  rw [ends_runBlock]
  refine (hb s).imp ?_ fun _ _ h => h
  intro flow t ht
  split
  · exact ht.trans (advance_cut _ t)
  · exact ht

theorem advances_nextRound {label : Label} {height : Nat} {again : Exec Flow}
    (h : Advances config again) (flow : Flow) :
    Advances config (nextRound label height again flow) := by
  intro s
  rw [ends_nextRound]
  split
  · have hcut : Advance config s (cut height s) := advance_cut height s
    exact (h (cut height s)).imp (fun _ _ ht => hcut.trans ht) fun _ _ ht => hcut.trans ht
  · exact Advance.refl s

theorem advances_repeatLoop {label : Label} {height : Nat} {body : Exec Flow}
    (hb : Advances config body) (rounds : Nat) :
    Advances config (repeatLoop config label height body rounds) := by
  induction rounds with
  | zero => exact follows_throw _
  | succ rounds ih =>
      rw [repeatLoop_succ]
      exact hb.bind fun flow => advances_nextRound ih flow

theorem advances_inFrame {slots : Array Float32} {body : Exec Flow} (hb : Advances config body) :
    Advances config (inFrame slots body) := by
  intro s
  rw [ends_inFrame]
  refine (hb _).imp ?_ ?_ <;>
  · intro _ t ht
    exact ⟨ht.steps_le, ht.within, ht.printed, ht.trace⟩

-- What an instruction does once it has been counted.
def perform (config : MachineConfig) (m : CodeModule) (enter : FunctionDef → Exec Unit)
    (function : String) (i : Instr) : Exec Flow := do
  match i with
  | .block label body =>
    record config function i
    runBlock label (execBody config m enter function body)
  | .loop label body =>
    record config function i
    runLoop config label (execBody config m enter function body)
  | .branch label =>
    record config function i
    return .branch label
  | .branchIf label =>
    let n ← popInt i.mnemonic
    record config function i
    return if n = 0 then .next else .branch label
  | .call name =>
    callNamed m enter name
    record config function i
    return .next
  | .operate op =>
    op.run function
    record config function i
    return .next

theorem execInstr_eq (i : Instr) :
    execInstr config m enter function i =
      (do countStep config; perform config m enter function i) := by
  cases i <;> (rw [execInstr]; rfl)

-- An instruction advances and takes a step if what it does advances.
theorem ends_execInstr_of_perform {i : Instr}
    (h : Advances config (perform config m enter function i)) (s : State) :
    Ends (execInstr config m enter function i) s
      (fun _ t => Advance config s t ∧ s.steps < t.steps) (fun _ t => Advance config s t) := by
  rw [execInstr_eq, ends_bind, ends_countStep]
  split
  · exact Advance.refl s
  · rename_i hlimit
    have hcount := advance_count hlimit
    refine (h _).imp ?_ fun _ t ht => hcount.trans ht
    intro flow t ht
    exact ⟨hcount.trans ht, ht.steps_le⟩

-- All code advances, and takes a step before it branches.
def Progresses (config : MachineConfig) (body : Exec Flow) : Prop :=
  ∀ s, Ends body s
    (fun flow t => Advance config s t ∧ (flow ≠ .next → s.steps < t.steps))
    (fun _ t => Advance config s t)

theorem Progresses.advances {body : Exec Flow} (h : Progresses config body) :
    Advances config body :=
  fun s => (h s).imp (fun _ _ ht => ht.1) fun _ _ ht => ht

mutual

theorem perform_advances (henter : ∀ f, Advances config (enter f)) :
    ∀ i : Instr, Advances config (perform config m enter function i)
  | .block label body =>
      (advances_record _).bind fun _ =>
        advances_runBlock (execBody_progresses henter body).advances
  | .loop label body => by
      refine (advances_record _).bind fun _ => ?_
      intro s
      exact advances_repeatLoop (execBody_progresses henter body).advances _ s
  | .branch _ => (advances_record _).bind fun _ => follows_pure _
  | .branchIf _ =>
      (local_popInt _).follows.bind fun _ => (advances_record _).bind fun _ => follows_pure _
  | .call name =>
      (follows_callNamed henter name).bind fun _ => (advances_record _).bind fun _ =>
        follows_pure _
  | .operate op =>
      (op.run_local _).follows.bind fun _ => (advances_record _).bind fun _ => follows_pure _

theorem execBody_progresses (henter : ∀ f, Advances config (enter f)) :
    ∀ body : List Instr, Progresses config (execBody config m enter function body)
  | [] => by
      intro s
      rw [execBody, ends_pure]
      exact ⟨Advance.refl s, fun h => absurd rfl h⟩
  | i :: rest => by
      intro s
      rw [execBody_cons, ends_bind]
      refine (ends_execInstr_of_perform (perform_advances henter i) s).imp ?_ fun _ _ h => h
      rintro flow t ⟨hst, hlt⟩
      cases flow with
      | branch label => exact ⟨hst, fun _ => hlt⟩
      | next =>
          refine (execBody_progresses henter rest t).imp ?_ fun _ _ h => hst.trans h
          rintro flow u ⟨htu, _⟩
          exact ⟨hst.trans htu, fun _ => Nat.lt_of_lt_of_le hlt htu.steps_le⟩

end

theorem enterFunction_advances (left : Nat) (f : FunctionDef) :
    Advances config (enterFunction config m left f) := by
  induction left generalizing f with
  | zero => exact follows_throw _
  | succ left ih =>
      rw [enterFunction]
      refine (advances_inFrame (execBody_progresses ih f.body).advances).bind ?_
      intro flow
      cases flow with
      | next => exact follows_pure _
      | branch label => exact follows_throw _

-- The loop with as many rounds as it can need from a state on.
def loopFrom (config : MachineConfig) (label : Label) (height : Nat) (body : Exec Flow) :
    Exec Flow := fun s =>
  repeatLoop config label height body (config.maxSteps - s.steps + 1) s

theorem advances_loopFrom {label : Label} {height : Nat} {body : Exec Flow}
    (hb : Advances config body) : Advances config (loopFrom config label height body) :=
  fun s => advances_repeatLoop hb _ s

theorem runLoop_apply (label : Label) (body : Exec Flow) (s : State) :
    runLoop config label body s = loopFrom config label s.stack.length body s := rfl

-- If there are more rounds than steps left, their number makes no difference.
theorem repeatLoop_eq_of_lt (label : Label) (height : Nat) {body : Exec Flow}
    (hb : Progresses config body) (s : State) {rounds rounds' : Nat}
    (hs : s.steps ≤ config.maxSteps)
    (hr : config.maxSteps - s.steps < rounds) (hr' : config.maxSteps - s.steps < rounds') :
    repeatLoop config label height body rounds s =
      repeatLoop config label height body rounds' s := by
  induction rounds generalizing rounds' s with
  | zero => omega
  | succ rounds ih =>
      obtain ⟨rounds', rfl⟩ : ∃ k, rounds' = k + 1 := ⟨rounds' - 1, by omega⟩
      have hend := hb s
      unfold Ends at hend
      simp only [repeatLoop, bind, EStateM.bind]
      cases hbody : body s with
      | error trap t => rfl
      | ok flow t =>
          simp only [hbody] at hend
          cases flow with
          | next => rfl
          | branch target =>
              -- the branch took a step, so one round less is enough
              have hlt := hend.2 (by simp)
              have ht := hend.1.within hs
              by_cases htarget : target = label
              · subst htarget
                simp only [if_pos]
                exact ih (cut height t) ht
                  (show config.maxSteps - t.steps < rounds by omega)
                  (show config.maxSteps - t.steps < rounds' by omega)
              · simp only [if_neg htarget]

theorem loopFrom_apply (label : Label) (height : Nat) {body : Exec Flow}
    (hb : Progresses config body) (hs : s.steps ≤ config.maxSteps) :
    loopFrom config label height body s =
      (body >>= nextRound label height (loopFrom config label height body)) s := by
  change repeatLoop config label height body (config.maxSteps - s.steps + 1) s = _
  rw [repeatLoop_succ]
  have hend := hb s
  unfold Ends at hend
  simp only [bind, EStateM.bind]
  cases hbody : body s with
  | error trap t => rfl
  | ok flow t =>
      simp only [hbody] at hend
      cases flow with
      | next => rfl
      | branch target =>
          by_cases htarget : target = label
          · subst htarget
            have hlt := hend.2 (by simp)
            have ht := hend.1.within hs
            simp only [nextRound, if_true]
            exact repeatLoop_eq_of_lt target height hb (cut height t) ht
              (show config.maxSteps - t.steps < config.maxSteps - s.steps by omega)
              (show config.maxSteps - t.steps < config.maxSteps - t.steps + 1 by omega)
          · simp only [nextRound, if_neg htarget]

theorem ends_loopFrom {label : Label} {height : Nat} {body : Exec Flow}
    {good : Flow → State → Prop} {bad : Trap → State → Prop} (hb : Progresses config body)
    (hs : s.steps ≤ config.maxSteps) :
    Ends (loopFrom config label height body) s good bad ↔
      Ends body s
        (fun flow t =>
          if flow = .branch label then
            Ends (loopFrom config label height body) (cut height t) good bad
          else good flow t)
        bad := by
  rw [ends_congr (loopFrom_apply label height hb hs), ends_bind]
  simp only [ends_nextRound]

end Machine

end EchoLang
