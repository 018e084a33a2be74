import EchoLang.Code.Simplify
import EchoLang.Proofs.FloatBits
import EchoLang.Proofs.Machine.Lockstep

namespace EchoLang

open Machine

namespace Lockstep.Link

variable {L : Lockstep} {K : L.Link} {pass : List Instr → List Instr}

mutual

-- If a pass may be applied to the code of the second run, it may be applied at
-- every level of nesting.
theorem refines_mapBodies
    (hpass : ∀ body body', K.CodeRefines body body' → K.CodeRefines body (pass body')) :
    ∀ i : Instr, K.InstrRefines i (i.mapBodies pass)
  | .operate op => refines_operate op
  | .call name => refines_call name
  | .block label body => refines_block label (hpass _ _ (refines_mapAllBodies hpass body))
  | .loop label body => refines_loop label (hpass _ _ (refines_mapAllBodies hpass body))
  | .branch label => refines_branch label
  | .branchIf label => refines_branchIf label

theorem refines_mapAllBodies
    (hpass : ∀ body body', K.CodeRefines body body' → K.CodeRefines body (pass body')) :
    ∀ body : List Instr, K.CodeRefines body (Instr.mapAllBodies pass body)
  | [] => refines_nil
  | i :: rest => refines_cons (refines_mapBodies hpass i) (refines_mapAllBodies hpass rest)

end

theorem refines_everywhere
    (hpass : ∀ body body', K.CodeRefines body body' → K.CodeRefines body (pass body'))
    (body : List Instr) : K.CodeRefines body (Instr.everywhere pass body) :=
  hpass _ _ (refines_mapAllBodies hpass body)

end Lockstep.Link

-- Equal states up to the trace, and the second run is ahead in steps.
structure Ahead (config : MachineConfig) (s s' : State) : Prop where
  stack : s'.stack = s.stack
  slots : s'.slots = s.slots
  frames : s'.frames = s.frames
  printed : s'.printed = s.printed
  steps_le : s'.steps ≤ s.steps
  within : s.steps ≤ config.maxSteps

namespace Ahead

variable {config : MachineConfig} {s t u : State}

theorem refl (h : s.steps ≤ config.maxSteps) : Ahead config s s :=
  ⟨rfl, rfl, rfl, rfl, Nat.le_refl _, h⟩

theorem trans (h : Ahead config s t) (h' : Ahead config t u) : Ahead config s u :=
  ⟨h'.stack.trans h.stack, h'.slots.trans h.slots, h'.frames.trans h.frames,
    h'.printed.trans h.printed, Nat.le_trans h'.steps_le h.steps_le, h.within⟩

theorem printed_prefix (h : Ahead config s t) : s.printed.toList <+: t.printed.toList := by
  have hsame : s.printed.toList = t.printed.toList := congrArg Array.toList h.printed.symm
  exact hsame ▸ List.prefix_refl _

theorem meets_countStep (h : Ahead config s t) :
    Matches (Ahead config) (fun s t => s.printed.toList <+: t.printed.toList)
      (countStep config s) (countStep config t) := by
  have hle := h.steps_le
  have hwithin := h.within
  rw [countStep_apply, countStep_apply]
  by_cases hlimit : s.steps = config.maxSteps
  · rw [if_pos hlimit]
    refine .limit ?_
    split
    · exact h.printed_prefix
    · exact h.printed_prefix
  · rw [if_neg hlimit, if_neg (by omega)]
    refine .ok ⟨h.stack, h.slots, h.frames, h.printed, ?_, ?_⟩
    · exact Nat.succ_le_succ hle
    · exact Nat.lt_of_le_of_ne hwithin hlimit

end Ahead

-- Code beside faster code, with one limit for both.
def saving (config : MachineConfig) : Lockstep where
  config := config
  config' := config
  rel := Ahead config
  late s t := s.printed.toList <+: t.printed.toList
  stack_eq h := h.stack
  slots_eq h := h.slots
  within h := h.within
  within' h := Nat.le_trans h.steps_le h.within
  rel_stack _ h := ⟨rfl, h.slots, h.frames, h.printed, h.steps_le, h.within⟩
  rel_frame _ g h := ⟨h.stack, rfl, congrArg g h.frames, h.printed, h.steps_le, h.within⟩
  rel_print x h :=
    ⟨h.stack, h.slots, h.frames, congrArg (·.push x) h.printed, h.steps_le, h.within⟩
  rel_record _ _ h := ⟨h.stack, h.slots, h.frames, h.printed, h.steps_le, h.within⟩
  meets_count h := h.meets_countStep
  late_advance h ht := h.trans ht.printed
  late_frame _ _ _ _ h := h

namespace saving

open Lockstep

variable {α : Type} {config : MachineConfig}

theorem refines_trans {c c' c'' : Exec α} (h : (saving config).Refines c c')
    (h' : (saving config).Refines c' c'') : (saving config).Refines c c'' := by
  refine ⟨h'.advances, ?_⟩
  intro s s' hs
  have hfirst := h.meets hs
  have hsecond := h'.meets (Ahead.refl (Nat.le_trans hs.steps_le hs.within))
  generalize c s = r at hfirst ⊢
  generalize c' s' = r' at hfirst hsecond
  generalize c'' s' = r'' at hsecond ⊢
  cases hfirst with
  | ok ht =>
      cases hsecond with
      | ok ht' => exact .ok (ht.trans ht')
  | trap ht =>
      cases hsecond with
      | trap ht' => exact .trap (ht.trans ht')
      | limit hlate => exact .limit (List.IsPrefix.trans ht.printed_prefix hlate)
  | limit hlate =>
      refine .limit ?_
      cases hsecond with
      | ok ht' => exact List.IsPrefix.trans hlate ht'.printed_prefix
      | trap ht' => exact List.IsPrefix.trans hlate ht'.printed_prefix
      | limit hlate' => exact List.IsPrefix.trans hlate hlate'

def selfLink (config : MachineConfig) (m : CodeModule) (left : Nat) (function : String) :
    (saving config).Link where
  module := m
  module' := m
  enter := enterFunction config m left
  enter' := enterFunction config m left
  function := function
  call _ := refines_callNamed rfl (by simp) fun f =>
    (related_self m).refines_enterFunction left f
  advances := enterFunction_advances left
  advances' := enterFunction_advances left

section Passes

variable {m : CodeModule} {left : Nat} {function : String}

-- Straight code that leaves one value may be replaced by shorter code for it.
theorem refines_constant {code code' : List Operation} {v : Value}
    (hcode : ∀ s, runAll function code s = .ok () (s.push v))
    (hcode' : ∀ s, runAll function code' s = .ok () (s.push v))
    (hlength : code'.length ≤ code.length) :
    (selfLink config m left function).CodeRefines (straight code) (straight code') := by
  have hadvances (code : List Operation) : Progresses config
      (execBody config m (enterFunction config m left) function (straight code)) :=
    execBody_progresses (enterFunction_advances left) (straight code)
  refine ⟨(hadvances code').advances, ?_⟩
  intro s s' hs
  have hle := hs.steps_le
  have hwithin := hs.within
  have hfirst := (ends_straight code s s).and (hadvances code s)
  have hsecond : Ends (execBody config m (enterFunction config m left) function
      (straight code')) s' _ _ := ends_straight code' s' s'
  change Matches _ _ (execBody config m (enterFunction config m left) function (straight code) s)
    (execBody config m (enterFunction config m left) function (straight code') s')
  rw [State.working_self] at hfirst
  unfold Ends at hfirst hsecond
  cases hr : execBody config m (enterFunction config m left) function (straight code) s with
  | error trap t =>
      simp only [hr, hcode] at hfirst
      obtain ⟨⟨hprinted, hcause⟩, _⟩ := hfirst
      rcases hcause with ⟨htrap, _⟩ | ⟨w, hw⟩
      · subst htrap
        refine .limit ?_
        apply late_endState (L := saving config) (hadvances code').advances
        change t.printed.toList <+: s'.printed.toList
        rw [hprinted]
        exact hs.printed_prefix
      · cases hw
  | ok flow t =>
      simp only [hr, hcode] at hfirst
      obtain ⟨⟨hflow, w, trace, hw, ht⟩, hadvance, _⟩ := hfirst
      have hsteps := hadvance.within hwithin
      cases hw
      subst hflow ht
      dsimp only [State.working] at hsteps
      -- there are steps enough for the longer code, and so for the shorter one
      cases hr' : execBody config m (enterFunction config m left) function (straight code') s' with
      | error trap t' =>
          simp only [hr', hcode'] at hsecond
          rcases hsecond with ⟨_, ⟨_, hlimit⟩ | ⟨w, hw⟩⟩
          · omega
          · cases hw
      | ok flow t' =>
          simp only [hr', hcode'] at hsecond
          obtain ⟨hflow, w, trace, hw, ht⟩ := hsecond
          cases hw
          subst hflow ht
          refine .ok ⟨?_, hs.slots, hs.frames, hs.printed, ?_, hsteps⟩
          · exact congrArg (v :: ·) hs.stack
          · dsimp only [State.working]
            omega

theorem execBody_cutAfterBranch {enter : FunctionDef → Exec Unit} (body : List Instr) :
    execBody config m enter function (Instr.cutAfterBranch body) =
      execBody config m enter function body := by
  induction body using Instr.cutAfterBranch.induct with
  | case1 => rfl
  | case2 label rest =>
      rw [Instr.cutAfterBranch, execBody_cons, execBody_cons, execInstr]
      simp only [bind_assoc, pure_bind, continueWith]
  | case3 i rest hne ih =>
      rw [Instr.cutAfterBranch, execBody_cons, execBody_cons, ih]
      exact hne

theorem codeRefines_trans {body body' body'' : List Instr}
    (h : (selfLink config m left function).CodeRefines body body')
    (h' : (selfLink config m left function).CodeRefines body' body'') :
    (selfLink config m left function).CodeRefines body body'' :=
  refines_trans h h'

-- A folded operation leaves the value that its code leaves.
theorem refines_fold {a b : FloatBits} {op value : Operation} (h : op.fold? a b = some value) :
    (selfLink config m left function).CodeRefines
      (straight [.floatConst a, .floatConst b, op]) (straight [value]) := by
  cases op with
  | floatOp op =>
      cases h
      have hvalue := FloatBits.value_ofValue (op.apply a.value b.value)
      refine refines_constant (v := .f32 (op.apply a.value b.value)) (fun s => rfl) ?_ (by simp)
      exact fun s => congrArg (fun x => EStateM.Result.ok () (s.push (.f32 x))) hvalue
  | floatTest test =>
      cases h
      exact refines_constant (v := .i32 (flag (test.holds a.value b.value))) (fun s => rfl)
        (fun s => rfl) (by simp)
  | _ => cases h

-- One more instruction behind code that has been folded.
theorem refines_pushFolding (done : List Instr) (i : Instr) :
    (selfLink config m left function).CodeRefines (i :: done).reverse
      (Instr.pushFolding done i).reverse := by
  unfold Instr.pushFolding
  split
  · rename_i b a earlier op
    split
    · rename_i value hvalue
      have hfold : (selfLink config m left function).CodeRefines _ _ := refines_fold hvalue
      have happend := Link.refines_append (Link.refines_self earlier.reverse) hfold
      simpa [straight] using happend
    · exact Link.refines_self _
  · exact Link.refines_self _

-- By induction on what is left to fold, behind the code that is done.
theorem refines_foldl (done rest : List Instr) :
    (selfLink config m left function).CodeRefines (done.reverse ++ rest)
      (rest.foldl Instr.pushFolding done).reverse := by
  induction rest generalizing done with
  | nil =>
      rw [List.append_nil]
      exact Link.refines_self _
  | cons i rest ih =>
      have hpush : (selfLink config m left function).CodeRefines _ _ := refines_pushFolding done i
      have hstep := Link.refines_append hpush (Link.refines_self rest)
      rw [List.reverse_cons, List.append_assoc] at hstep
      exact codeRefines_trans hstep (ih _)

theorem refines_foldConstants (body : List Instr) :
    (selfLink config m left function).CodeRefines body (Instr.foldConstants body) :=
  refines_foldl [] body

theorem refines_cutAfterBranch (body : List Instr) :
    (selfLink config m left function).CodeRefines body (Instr.cutAfterBranch body) := by
  unfold Link.CodeRefines
  rw [execBody_cutAfterBranch]
  exact Link.refines_self (K := selfLink config m left function) body

theorem refines_simplify (body : List Instr) :
    (selfLink config m left function).CodeRefines body (Instr.simplify body) := by
  have hfold : (selfLink config m left function).CodeRefines body
      (Instr.everywhere Instr.foldConstants body) :=
    Link.refines_everywhere
      (fun _ body' h => codeRefines_trans h (refines_foldConstants body')) body
  have hcut : (selfLink config m left function).CodeRefines
      (Instr.everywhere Instr.foldConstants body) (Instr.simplify body) :=
    Link.refines_everywhere
      (fun _ body' h => codeRefines_trans h (refines_cutAfterBranch body')) _
  exact codeRefines_trans hfold hcut

end Passes

-- A module beside its simplified form.
theorem related_simplify (m : CodeModule) :
    (saving config).Related m m.simplify FunctionDef.simplify where
  effect? _ := rfl
  function? name := by
    unfold CodeModule.function? CodeModule.simplify
    rw [List.find?_map]
    rfl
  name _ := rfl
  locals _ := rfl
  body K left _ hmodule henter f := by
    have hself := Link.refines_self (K := K) f.body
    have hsimplify : (selfLink config m.simplify left K.function).CodeRefines _ _ :=
      refines_simplify f.body
    unfold Link.CodeRefines at hself hsimplify ⊢
    rw [hmodule, henter] at hself ⊢
    exact refines_trans hself hsimplify

end saving

-- Simplification keeps what a run prints and how it ends. It may save steps, so that
-- a run gets further before its limit stops it.
theorem run_simplify (m : CodeModule) (entry : String) (machine : Machine) :
    (¬ OutOfSteps (machine.run m entry).1 →
      (machine.run m.simplify entry).1 = (machine.run m entry).1 ∧
        (machine.run m.simplify entry).2.state.printed = (machine.run m entry).2.state.printed ∧
        (machine.run m.simplify entry).2.state.stack = (machine.run m entry).2.state.stack ∧
        (machine.run m.simplify entry).2.state.steps ≤ (machine.run m entry).2.state.steps) ∧
    (OutOfSteps (machine.run m entry).1 →
      (machine.run m entry).2.state.printed.toList <+:
        (machine.run m.simplify entry).2.state.printed.toList) ∧
    (OutOfSteps (machine.run m.simplify entry).1 → OutOfSteps (machine.run m entry).1) := by
  have hrelated : (saving machine.config).Related m m.simplify FunctionDef.simplify :=
    saving.related_simplify m
  have hrun := hrelated.run (Ahead.refl (Nat.zero_le _)) machine machine rfl rfl entry
  rcases hrun with ⟨htrap, hrel⟩ | ⟨hlimit, hlate⟩
  · refine ⟨fun _ => ⟨htrap, hrel.printed, hrel.stack, hrel.steps_le⟩, fun _ => ?_, ?_⟩
    · exact hrel.printed_prefix
    · rw [htrap]
      exact id
  · exact ⟨fun hnot => absurd hlimit hnot, fun _ => hlate, fun _ => hlimit⟩

end EchoLang
