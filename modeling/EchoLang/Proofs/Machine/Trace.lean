import EchoLang.Proofs.Except
import EchoLang.Proofs.Machine.Termination
import Mathlib.Algebra.Ring.Nat

namespace EchoLang.Machine

open Exec Moment

variable {config : MachineConfig} {m : CodeModule} {entry function caller name : String}
  {i : Instr} {rest : List Instr} {waiting : List Waiting} {s t : State} {x y z : Moment}
  {w : Waiting} {step : Nat} {pending : List Nat}

section Plain

variable {α β : Type}

def SameClock (s t : State) : Prop := t.steps = s.steps ∧ t.trace = s.trace

instance : Tolerant SameClock where
  refl _ := ⟨rfl, rfl⟩
  trans _ _ _ h h' := ⟨h'.1.trans h.1, h'.2.trans h.2⟩
  working _ _ := ⟨rfl, rfl⟩
  print _ _ := ⟨rfl, rfl⟩

-- The computation takes no step and records nothing.
abbrev Quiet (c : Exec α) : Prop :=
  Follows SameClock c

-- The computation takes no step, and if it does not trap it records the instruction once.
def Plain (config : MachineConfig) (function : String) (i : Instr) (c : Exec Flow) : Prop :=
  ∀ s, Ends c s
    (fun _ t => t.steps = s.steps ∧
      ∃ stack, t.trace = recorded config function i { s with stack := stack })
    (fun _ t => t.steps = s.steps)

theorem plain_of_quiet {c : Exec α} (hc : Quiet c) (flow : α → Flow) :
    Plain config function i (do let a ← c; record config function i; return flow a) := by
  intro s
  rw [ends_bind]
  refine (hc s).imp ?_ fun _ _ h => h.1
  rintro a t ⟨hsteps, htrace⟩
  rw [ends_bind, ends_record]
  refine ⟨hsteps, t.stack, ?_⟩
  simp only [recorded, hsteps, htrace]

-- An instruction that is no scope and enters no function.
theorem plain_perform (hscope : ∀ label body, i ≠ .block label body ∧ i ≠ .loop label body) :
    Plain config function i (perform config m (fun _ => pure ()) function i) := by
  cases i with
  | block label body => exact absurd rfl (hscope label body).1
  | loop label body => exact absurd rfl (hscope label body).2
  | branch label => exact plain_of_quiet (follows_pure ()) fun _ => .branch label
  | branchIf label =>
      exact plain_of_quiet (local_popInt _).follows fun n =>
        if n = 0 then .next else .branch label
  | call name =>
      exact plain_of_quiet (follows_callNamed (fun _ => follows_pure ()) name) fun _ => .next
  | operate op => exact plain_of_quiet (op.run_local _).follows fun _ => .next

end Plain

section Executing

-- The instruction that the next move counts, with the function it stands in.
def Moment.counted? (config : MachineConfig) : Moment → Option (String × Instr)
  | ⟨s, .running function (i :: _), _⟩ =>
    if s.steps = config.maxSteps then none else some (function, i)
  | _ => none

-- The run executes the instruction as its step of that number.
def Executes (config : MachineConfig) (m : CodeModule) (entry : String) (step : Nat)
    (function : String) (i : Instr) : Prop :=
  ∃ x, Reaches config m (start m entry) x ∧ x.counted? config = some (function, i) ∧
    step = x.state.steps + 1

theorem steps_ended {c : Exec Flow} (hc : Plain config function i c) :
    (ended function rest waiting (c s)).state.steps = s.steps := by
  have hend := hc s
  unfold Ends at hend
  cases hr : c s with
  | ok flow t =>
      simp only [hr] at hend
      cases flow <;> exact hend.1
  | error trap t =>
      simp only [hr] at hend
      exact hend

theorem steps_entering (f : FunctionDef) : (entering s f waiting).state.steps = s.steps := by
  unfold entering
  split <;> rfl

theorem steps_beginning (i : Instr) :
    (beginning config m function i rest waiting s).state.steps = s.steps := by
  cases i with
  | block label body => rfl
  | loop label body => rfl
  | call name =>
      unfold beginning
      dsimp only
      split
      · exact steps_entering _
      · exact steps_ended (plain_perform (by simp))
  | branch label => exact steps_ended (plain_perform (by simp))
  | branchIf label => exact steps_ended (plain_perform (by simp))
  | operate op => exact steps_ended (plain_perform (by simp))

theorem next?_of_counted? {counted : String × Instr} (h : x.counted? config = some counted) :
    ∃ s rest waiting, x = ⟨s, .running counted.1 (counted.2 :: rest), waiting⟩ ∧
      s.steps ≠ config.maxSteps ∧
      x.next? config m = some (beginning config m counted.1 counted.2 rest waiting
        { s with steps := s.steps + 1 }) := by
  obtain ⟨s, mode, waiting⟩ := x
  cases mode with
  | branching function label => cases h
  | trapping trap => cases h
  | running function code =>
      cases code with
      | nil => cases h
      | cons i rest =>
          rw [counted?] at h
          split at h
          · cases h
          · rename_i hlimit
            cases h
            refine ⟨s, rest, waiting, rfl, hlimit, ?_⟩
            simp only [next?, countStep_apply, if_neg hlimit]

theorem steps_of_counted? {counted : String × Instr} (h : x.counted? config = some counted)
    (hnext : x.next? config m = some y) : y.state.steps = x.state.steps + 1 := by
  obtain ⟨s, rest, waiting, rfl, -, hbegins⟩ := next?_of_counted? (m := m) h
  rw [hbegins] at hnext
  rw [← Option.some.inj hnext, steps_beginning]

theorem steps_unwind (trap : Trap) (w : Waiting) :
    (unwind trap s waiting w).state.steps = s.steps := by
  cases w <;> rfl

theorem steps_resume (w : Waiting) :
    (resume config function s waiting w).state.steps = s.steps := by
  cases w <;> rfl

theorem steps_catchBranch (label : Label) (w : Waiting) :
    (catchBranch function label s waiting w).state.steps = s.steps := by
  cases w with
  | block own height rest =>
      rw [catchBranch]
      split <;> rfl
  | loop own height body rest =>
      rw [catchBranch]
      split <;> rfl
  | frame slots => rfl
  | call caller name rest => rfl

-- A move that counts no instruction ends with a trap, or something that has waited goes on.
inductive GoesOn (config : MachineConfig) : Moment → Moment → Prop where
  | trap {x y : Moment} (htrap : y.trap?.isSome) (hsteps : y.state.steps = x.state.steps) :
      GoesOn config x y
  | resume {s : State} {function : String} {w : Waiting} {waiting : List Waiting} :
      GoesOn config ⟨s, .running function [], w :: waiting⟩ (resume config function s waiting w)
  | catchBranch {s : State} {function : String} {label : Label} {w : Waiting}
      {waiting : List Waiting} : GoesOn config ⟨s, .branching function label, w :: waiting⟩
        (catchBranch function label s waiting w)

theorem goesOn_of_next? (h : x.counted? config = none) (hnext : x.next? config m = some y) :
    GoesOn config x y := by
  obtain ⟨s, mode, waiting⟩ := x
  cases mode with
  | running function code =>
      cases code with
      | cons i rest =>
          rw [counted?] at h
          split at h
          · rename_i hlimit
            simp only [next?, countStep_apply, if_pos hlimit, Option.some.injEq] at hnext
            subst hnext
            exact .trap rfl rfl
          · cases h
      | nil =>
          cases waiting with
          | nil => cases hnext
          | cons w waiting =>
              cases hnext
              exact .resume
  | branching function label =>
      cases waiting with
      | nil =>
          cases hnext
          exact .trap rfl rfl
      | cons w waiting =>
          cases hnext
          exact .catchBranch
  | trapping trap =>
      cases waiting with
      | nil => cases hnext
      | cons w waiting =>
          cases hnext
          refine .trap ?_ (steps_unwind trap w)
          cases w <;> rfl

theorem GoesOn.steps_eq (h : GoesOn config x y) : y.state.steps = x.state.steps := by
  cases h with
  | trap _ hsteps => exact hsteps
  | resume => exact steps_resume _
  | catchBranch => exact steps_catchBranch _ _

theorem Reaches.steps_le (h : Reaches config m x y) : x.state.steps ≤ y.state.steps := by
  induction h with
  | refl => exact Nat.le_refl _
  | @tail y z _ hnext ih =>
      cases hcounted : y.counted? config with
      | some counted =>
          rw [steps_of_counted? hcounted hnext]
          omega
      | none =>
          rw [(goesOn_of_next? hcounted hnext).steps_eq]
          exact ih

-- From a moment that counts an instruction on, each later moment has taken the step.
theorem Reaches.eq_or_steps_lt {counted : String × Instr} (h : Reaches config m x y)
    (hcounted : x.counted? config = some counted) : x = y ∨ x.state.steps < y.state.steps := by
  rcases h.cases_head with heq | ⟨z, hnext, hrest⟩
  · exact .inl heq
  · have hz := steps_of_counted? hcounted hnext
    have hy : z.state.steps ≤ y.state.steps := Reaches.steps_le hrest
    exact .inr (by omega)

-- Moves are determined, so that of two moments of a run one comes before the other.
theorem Reaches.total (hx : Reaches config m z x) (hy : Reaches config m z y) :
    Reaches config m x y ∨ Reaches config m y x :=
  Relation.ReflTransGen.total_of_right_unique
    (fun _ _ _ h h' => Option.some.inj (h.symm.trans h')) hx hy

-- Each step executes one instruction.
theorem Executes.unique {function' : String} {i' : Instr}
    (h : Executes config m entry step function i) (h' : Executes config m entry step function' i') :
    function = function' ∧ i = i' := by
  obtain ⟨x, hx, hcounted, hstep⟩ := h
  obtain ⟨y, hy, hcounted', hstep'⟩ := h'
  have heq : x = y := by
    rcases hx.total hy with hxy | hyx
    · exact (hxy.eq_or_steps_lt hcounted).resolve_right (by omega)
    · exact ((hyx.eq_or_steps_lt hcounted').resolve_right (by omega)).symm
  rw [heq, hcounted'] at hcounted
  exact ⟨(congrArg Prod.fst (Option.some.inj hcounted)).symm,
    (congrArg Prod.snd (Option.some.inj hcounted)).symm⟩

-- The steps of a run are numbered from one on, up to those that it has taken at its end.
theorem Executes.step_le {last : Moment} (h : Executes config m entry step function i)
    (hlast : Reaches config m (start m entry) last) (hover : last.next? config m = none) :
    1 ≤ step ∧ step ≤ last.state.steps := by
  obtain ⟨x, hx, hcounted, rfl⟩ := h
  have hne : x ≠ last := by
    rintro rfl
    obtain ⟨s, rest, waiting, -, -, hbegins⟩ := next?_of_counted? (m := m) hcounted
    rw [hover] at hbegins
    cases hbegins
  have hreaches : Reaches config m x last := by
    rcases hx.total hlast with hxl | hlx
    · exact hxl
    · rcases hlx.cases_head with heq | ⟨z, hnext, -⟩
      · exact absurd heq.symm hne
      · rw [hover] at hnext
        cases hnext
  have hlt := (hreaches.eq_or_steps_lt hcounted).resolve_left hne
  omega

end Executing

section Accounting

-- A call that enters a function with code in it.
def EntersCode (m : CodeModule) : Instr → Prop
  | .call name => m.effect? name = none ∧ ∃ f, m.function? name = some f ∧ f.body ≠ []
  | _ => False

-- The entry is that of the instruction which the step executes. It shows the number of the
-- step, or a higher one if the instruction is a call that enters code.
def Recounts (config : MachineConfig) (m : CodeModule) (entry : String) (step : Nat)
    (e : TraceEntry) : Prop :=
  ∃ i, Executes config m entry step e.function i ∧ i.mnemonic = e.instr ∧ step ≤ e.step ∧
    (e.step = step ↔ ¬EntersCode m i)

-- How far the trace has come at a state. Its entries are those of the steps in `counted`, and
-- the steps in `pending` have none yet.
structure Tally (config : MachineConfig) (m : CodeModule) (entry : String) (s : State)
    (counted pending : List Nat) : Prop where
  recounts : List.Forall₂ (Recounts config m entry) counted s.trace.toList
  steps : (counted ++ pending).Perm (List.range' 1 s.steps)

variable {counted : List Nat} {e : TraceEntry}

theorem Tally.same (h : Tally config m entry s counted pending) (hsteps : t.steps = s.steps)
    (htrace : t.trace = s.trace) : Tally config m entry t counted pending :=
  ⟨htrace ▸ h.recounts, hsteps ▸ h.steps⟩

theorem Tally.count (h : Tally config m entry s counted pending) :
    Tally config m entry { s with steps := s.steps + 1 } counted ((s.steps + 1) :: pending) := by
  refine ⟨h.recounts, ?_⟩
  rw [List.range'_1_concat, Nat.add_comm 1]
  exact List.perm_middle.trans ((List.perm_append_singleton _ _).symm.trans
    (h.steps.append_right _))

theorem Tally.record (h : Tally config m entry s counted (step :: pending))
    (he : Recounts config m entry step e) (hsteps : t.steps = s.steps)
    (htrace : t.trace = s.trace.push e) :
    Tally config m entry t (counted ++ [step]) pending := by
  refine ⟨?_, ?_⟩
  · rw [htrace, Array.toList_push]
    exact List.rel_append h.recounts (.cons he .nil)
  · rw [hsteps, List.append_assoc]
    exact h.steps

def Waiting.call? : Waiting → Option (String × String)
  | .call function name _ => some (function, name)
  | _ => none

-- The call was executed as that step, and its function has taken steps since.
def LateCall (config : MachineConfig) (m : CodeModule) (entry : String) (steps step : Nat)
    (call : String × String) : Prop :=
  Executes config m entry step call.1 (.call call.2) ∧ EntersCode m (.call call.2) ∧ step < steps

def Settled (config : MachineConfig) (m : CodeModule) (entry : String) (steps : Nat)
    (waiting : List Waiting) (pending : List Nat) : Prop :=
  List.Forall₂ (LateCall config m entry steps) pending (waiting.filterMap Waiting.call?)

-- The steps that have no entry yet are those of the calls that wait. Only a function that was
-- entered by the last step may have taken none, and then all its code is still to be run.
inductive Standing (config : MachineConfig) (m : CodeModule) (entry : String) :
    Moment → List Nat → Prop where
  | settled {s : State} {mode : Mode} {waiting : List Waiting} {pending : List Nat}
      (h : Settled config m entry s.steps waiting pending) :
      Standing config m entry ⟨s, mode, waiting⟩ pending
  | entered {s : State} {slots : Array Float32} {caller name : String} {rest : List Instr}
      {waiting : List Waiting} {pending : List Nat} {f : FunctionDef}
      (h : Settled config m entry s.steps waiting pending)
      (hcall : Executes config m entry s.steps caller (.call name))
      (heffect : m.effect? name = none) (hf : m.function? name = some f) :
      Standing config m entry
        ⟨s, .running f.name f.body, .frame slots :: .call caller name rest :: waiting⟩
        (s.steps :: pending)
  | emptied {s : State} {function caller name : String} {rest : List Instr}
      {waiting : List Waiting} {pending : List Nat}
      (h : Settled config m entry s.steps waiting pending)
      (hcall : Executes config m entry s.steps caller (.call name))
      (hempty : ¬EntersCode m (.call name)) :
      Standing config m entry ⟨s, .running function [], .call caller name rest :: waiting⟩
        (s.steps :: pending)

theorem Settled.mono {steps steps' : Nat} (h : Settled config m entry steps waiting pending)
    (hle : steps ≤ steps') : Settled config m entry steps' waiting pending :=
  List.Forall₂.imp (fun _ _ hcall => ⟨hcall.1, hcall.2.1, Nat.lt_of_lt_of_le hcall.2.2 hle⟩) h

-- As soon as an instruction is counted, every function that was entered has taken a step.
theorem Standing.settled_of_counted
    (h : Standing config m entry ⟨s, .running function (i :: rest), waiting⟩ pending) :
    Settled config m entry (s.steps + 1) waiting pending := by
  generalize hx : (⟨s, .running function (i :: rest), waiting⟩ : Moment) = x at h
  cases h with
  | settled h =>
      cases hx
      exact h.mono (Nat.le_succ _)
  | @entered s' slots caller name rest' waiting' pending' f h hcall heffect hf =>
      injection hx with hs hmode hwaiting
      injection hmode with _ hbody
      subst hs hwaiting
      refine .cons ⟨hcall, ⟨heffect, f, hf, ?_⟩, Nat.lt_succ_self _⟩ (h.mono (Nat.le_succ _))
      rw [← hbody]
      exact List.cons_ne_nil _ _
  | emptied => cases hx

-- At a moment of a run that has not trapped, every step is accounted for.
def Accounts (config : MachineConfig) (m : CodeModule) (entry : String) (x : Moment) : Prop :=
  x.trap?.isSome ∨ ∃ counted pending, Tally config m entry x.state counted pending ∧
    Standing config m entry x pending

theorem recounts_of_not_entersCode (h : Executes config m entry step function i)
    (hi : ¬EntersCode m i) (stack : List Value) :
    Recounts config m entry step ⟨step, function, i.mnemonic, stack⟩ :=
  ⟨i, h, rfl, Nat.le_refl _, iff_of_true rfl hi⟩

theorem recounts_of_entersCode {steps : Nat} (h : Executes config m entry step function i)
    (hi : EntersCode m i) (hlt : step < steps) (stack : List Value) :
    Recounts config m entry step ⟨steps, function, i.mnemonic, stack⟩ :=
  ⟨i, h, rfl, Nat.le_of_lt hlt, iff_of_false (Nat.ne_of_gt hlt) (not_not_intro hi)⟩

theorem recorded_of_trace (htrace : config.trace = true) (function : String) (i : Instr)
    (s : State) :
    recorded config function i s = s.trace.push ⟨s.steps, function, i.mnemonic, s.stack⟩ :=
  if_pos htrace

theorem accounts_ended {c : Exec Flow} (hc : Plain config function i c)
    (htrace : config.trace = true) (htally : Tally config m entry s counted (s.steps :: pending))
    (hsettled : Settled config m entry s.steps waiting pending)
    (hexecutes : Executes config m entry s.steps function i) (hi : ¬EntersCode m i) :
    Accounts config m entry (ended function rest waiting (c s)) := by
  have hend := hc s
  unfold Ends at hend
  cases hr : c s with
  | error trap t => exact .inl rfl
  | ok flow t =>
      simp only [hr, recorded_of_trace htrace] at hend
      obtain ⟨hsteps, stack, hpushed⟩ := hend
      have ht := htally.record (recounts_of_not_entersCode hexecutes hi stack) hsteps hpushed
      rw [← hsteps] at hsettled
      cases flow with
      | next => exact .inr ⟨_, _, ht, .settled hsettled⟩
      | branch label => exact .inr ⟨_, _, ht, .settled hsettled⟩

theorem accounts_entering {f : FunctionDef}
    (htally : Tally config m entry s counted (s.steps :: pending))
    (hsettled : Settled config m entry s.steps waiting pending)
    (hexecutes : Executes config m entry s.steps caller (.call name))
    (heffect : m.effect? name = none) (hf : m.function? name = some f) :
    Accounts config m entry (entering s f (.call caller name rest :: waiting)) := by
  unfold entering
  split
  · exact .inl rfl
  · exact .inr ⟨counted, s.steps :: pending, htally.same rfl rfl,
      .entered hsettled hexecutes heffect hf⟩

theorem accounts_beginning (i : Instr) (htrace : config.trace = true)
    (htally : Tally config m entry s counted (s.steps :: pending))
    (hsettled : Settled config m entry s.steps waiting pending)
    (hexecutes : Executes config m entry s.steps function i) :
    Accounts config m entry (beginning config m function i rest waiting s) := by
  have hscope (hi : ¬EntersCode m i) : Tally config m entry
      { s with trace := recorded config function i s } (counted ++ [s.steps]) pending :=
    htally.record (recounts_of_not_entersCode hexecutes hi s.stack) rfl
      (recorded_of_trace htrace _ _ _)
  cases i with
  | block label body => exact .inr ⟨_, _, hscope id, .settled hsettled⟩
  | loop label body => exact .inr ⟨_, _, hscope id, .settled hsettled⟩
  | branch label =>
      exact accounts_ended (plain_perform (by simp)) htrace htally hsettled hexecutes id
  | branchIf label =>
      exact accounts_ended (plain_perform (by simp)) htrace htally hsettled hexecutes id
  | operate op =>
      exact accounts_ended (plain_perform (by simp)) htrace htally hsettled hexecutes id
  | call name =>
      unfold beginning
      dsimp only
      split
      · rename_i f heffect hf
        exact accounts_entering htally hsettled hexecutes heffect hf
      · rename_i hother
        refine accounts_ended (plain_perform (by simp)) htrace htally hsettled hexecutes ?_
        rintro ⟨heffect, f, hf, -⟩
        exact hother f heffect hf

theorem accounts_resume (htrace : config.trace = true)
    (htally : Tally config m entry s counted pending)
    (h : Standing config m entry ⟨s, .running function [], w :: waiting⟩ pending) :
    Accounts config m entry (resume config function s waiting w) := by
  generalize hx : (⟨s, .running function [], w :: waiting⟩ : Moment) = x at h
  cases h with
  | settled h =>
      cases hx
      cases w with
      | block label height rest => exact .inr ⟨_, _, htally, .settled h⟩
      | loop label height body rest => exact .inr ⟨_, _, htally, .settled h⟩
      | frame slots => exact .inr ⟨_, _, htally.same rfl rfl, .settled h⟩
      | call caller name rest =>
          obtain _ | ⟨⟨hexecutes, hcode, hlt⟩, hrest⟩ := h
          have hentry := recounts_of_entersCode hexecutes hcode hlt s.stack
          exact .inr ⟨_, _, htally.record hentry rfl (recorded_of_trace htrace _ _ _),
            .settled hrest⟩
  | @entered s' slots caller name rest' waiting' pending' f h hcall heffect hf =>
      injection hx with hs hmode hwaiting
      injection hmode with hname hbody
      injection hwaiting with hw hwaiting
      subst hs hw hwaiting
      refine .inr ⟨_, _, htally.same rfl rfl, .emptied h hcall ?_⟩
      rintro ⟨-, g, hg, hcode⟩
      rw [hf] at hg
      cases hg
      exact hcode hbody.symm
  | emptied h hcall hempty =>
      cases hx
      have hentry := recounts_of_not_entersCode hcall hempty s.stack
      exact .inr ⟨_, _, htally.record hentry rfl (recorded_of_trace htrace _ _ _), .settled h⟩

theorem Standing.settled_of_branching {label : Label}
    (h : Standing config m entry ⟨s, .branching function label, waiting⟩ pending) :
    Settled config m entry s.steps waiting pending := by
  generalize hx : (⟨s, .branching function label, waiting⟩ : Moment) = x at h
  cases h with
  | settled h =>
      cases hx
      exact h
  | entered => cases hx
  | emptied => cases hx

theorem accounts_catchBranch {label : Label} (htally : Tally config m entry s counted pending)
    (h : Settled config m entry s.steps (w :: waiting) pending) :
    Accounts config m entry (catchBranch function label s waiting w) := by
  cases w with
  | block own height rest =>
      rw [catchBranch]
      split
      · exact .inr ⟨_, _, htally.same rfl rfl, .settled h⟩
      · exact .inr ⟨_, _, htally, .settled h⟩
  | loop own height body rest =>
      rw [catchBranch]
      split
      · exact .inr ⟨_, _, htally.same rfl rfl, .settled h⟩
      · exact .inr ⟨_, _, htally, .settled h⟩
  | frame slots => exact .inl rfl
  | call caller name rest => exact .inl rfl

-- One move keeps the account.
theorem Accounts.next (htrace : config.trace = true) (hx : Reaches config m (start m entry) x)
    (h : Accounts config m entry x) (hnext : x.next? config m = some y) :
    Accounts config m entry y := by
  cases hcounted : x.counted? config with
  | some found =>
      have hexecutes : Executes config m entry (x.state.steps + 1) found.1 found.2 :=
        ⟨x, hx, hcounted, rfl⟩
      obtain ⟨s, rest, waiting, rfl, -, hbegins⟩ := next?_of_counted? (m := m) hcounted
      rw [hbegins] at hnext
      rw [← Option.some.inj hnext]
      rcases h with htrap | ⟨counted, pending, htally, hstanding⟩
      · cases htrap
      · exact accounts_beginning found.2 htrace htally.count hstanding.settled_of_counted hexecutes
  | none =>
      cases goesOn_of_next? hcounted hnext with
      | trap htrap _ => exact .inl htrap
      | resume =>
          rcases h with htrap | ⟨counted, pending, htally, hstanding⟩
          · cases htrap
          · exact accounts_resume htrace htally hstanding
      | catchBranch =>
          rcases h with htrap | ⟨counted, pending, htally, hstanding⟩
          · cases htrap
          · exact accounts_catchBranch htally hstanding.settled_of_branching

theorem accounts_start : Accounts config m entry (start m entry) := by
  have htally (s : State) (hsteps : s.steps = 0) (htrace : s.trace = #[]) :
      Tally config m entry s [] [] := by
    refine ⟨?_, ?_⟩
    · rw [htrace]
      exact .nil
    · rw [hsteps]
      exact .refl _
  unfold start entering
  split
  · exact .inl rfl
  · split
    · exact .inl rfl
    · exact .inr ⟨[], [], htally _ rfl rfl, .settled .nil⟩

theorem Reaches.accounts (htrace : config.trace = true)
    (h : Reaches config m (start m entry) x) : Accounts config m entry x := by
  induction h with
  | refl => exact accounts_start
  | tail hreaches hnext ih => exact ih.next htrace hreaches hnext

end Accounting

section Numbers

variable {counted : List Nat}

theorem sum_le_of_forall₂ {R : Nat → TraceEntry → Prop} {entries : List TraceEntry}
    (h : List.Forall₂ R counted entries) (hle : ∀ step e, R step e → step ≤ e.step) :
    counted.sum ≤ (entries.map (·.step)).sum := by
  induction h with
  | nil => exact Nat.le_refl _
  | cons hfirst _ ih =>
      have hstep := hle _ _ hfirst
      simp only [List.map_cons, List.sum_cons]
      omega

-- Numbers that are nowhere too low and not too high in sum are right everywhere.
theorem step_eq_of_sum_le {R : Nat → TraceEntry → Prop} {entries : List TraceEntry}
    (h : List.Forall₂ R counted entries) (hle : ∀ step e, R step e → step ≤ e.step)
    (hsum : (entries.map (·.step)).sum ≤ counted.sum) :
    List.Forall₂ (fun step e => R step e ∧ e.step = step) counted entries := by
  induction h with
  | nil => exact .nil
  | cons hfirst hrest ih =>
      have hstep := hle _ _ hfirst
      have hsums := sum_le_of_forall₂ hrest hle
      simp only [List.map_cons, List.sum_cons] at hsum
      exact .cons ⟨hfirst, by omega⟩ (ih (by omega))

-- The entries are numbered like the steps, each number once, and tell of the instruction that
-- the step executes.
structure NumbersSteps (config : MachineConfig) (m : CodeModule) (entry : String) (t : State) :
    Prop where
  nodup : (t.trace.toList.map (·.step)).Nodup
  numbers : ∀ step, step ∈ t.trace.toList.map (·.step) ↔ 1 ≤ step ∧ step ≤ t.steps
  executed : ∀ e ∈ t.trace.toList,
    ∃ i, Executes config m entry e.step e.function i ∧ i.mnemonic = e.instr

theorem mem_range'_one {n : Nat} : step ∈ List.range' 1 n ↔ 1 ≤ step ∧ step ≤ n := by
  rw [List.mem_range'_1]
  omega

theorem NumbersSteps.not_entersCode (h : NumbersSteps config m entry t)
    (htally : Tally config m entry t counted [])
    (hexecutes : Executes config m entry step function i)
    (hstep : 1 ≤ step ∧ step ≤ t.steps) : ¬EntersCode m i := by
  have hsteps := htally.steps
  rw [List.append_nil] at hsteps
  have hperm : (t.trace.toList.map (·.step)).Perm counted := by
    refine List.Perm.trans ?_ hsteps.symm
    refine (List.perm_ext_iff_of_nodup h.nodup List.nodup_range').mpr fun k => ?_
    rw [h.numbers, mem_range'_one]
  have hright := step_eq_of_sum_le htally.recounts (fun _ _ ⟨_, _, _, hle, _⟩ => hle)
    (Nat.le_of_eq hperm.sum_nat)
  have hmem : step ∈ counted := hsteps.mem_iff.mpr (mem_range'_one.mpr hstep)
  obtain ⟨e, -, ⟨i', hexecutes', -, -, hiff⟩, hsame⟩ := exists_of_forall₂ hright.flip hmem
  rw [(hexecutes.unique hexecutes').2]
  exact hiff.mp hsame

theorem Tally.numbersSteps (h : Tally config m entry t counted [])
    (hcalls : ∀ step function i, Executes config m entry step function i → ¬EntersCode m i) :
    NumbersSteps config m entry t := by
  have hsteps := h.steps
  rw [List.append_nil] at hsteps
  have hright : List.Forall₂ (fun step e => Recounts config m entry step e ∧ step = e.step)
      counted t.trace.toList :=
    h.recounts.imp fun step e he => by
      obtain ⟨i, hexecutes, _, _, hiff⟩ := id he
      exact ⟨he, (hiff.mpr (hcalls _ _ _ hexecutes)).symm⟩
  have hnumbers : counted = t.trace.toList.map (·.step) := by
    rw [← List.forall₂_eq_eq_eq, List.forall₂_map_right_iff]
    exact hright.imp fun _ _ he => he.2
  rw [hnumbers] at hsteps
  refine ⟨hsteps.nodup_iff.mpr List.nodup_range', fun k => ?_, fun e he => ?_⟩
  · rw [hsteps.mem_iff, mem_range'_one]
  · obtain ⟨_, -, ⟨i, hexecutes, hmnemonic, -⟩, rfl⟩ := exists_of_forall₂ hright he
    exact ⟨i, hexecutes, hmnemonic⟩

theorem exists_tally {machine : Machine} (htrace : machine.config.trace = true)
    (hends : (machine.run m entry).1 = none) :
    ∃ counted, Tally machine.config m entry (machine.run m entry).2.state counted [] := by
  obtain ⟨last, hreaches, -, hwaiting, hrun⟩ := exists_last machine m entry
  rw [hrun] at hends ⊢
  rcases hreaches.accounts htrace with htrap | ⟨counted, pending, htally, hstanding⟩
  · dsimp only at hends
    rw [hends] at htrap
    cases htrap
  · cases hstanding with
    | settled h =>
        dsimp only at hwaiting
        rw [hwaiting] at h
        cases h
        exact ⟨counted, htally⟩
    | entered => cases hwaiting
    | emptied => cases hwaiting

-- In a traced run that comes to its end there are as many entries as steps, one for each
-- instruction that was executed, and none shows a number below that of its instruction. They
-- are numbered like the steps if and only if no call has entered a function with code in it.
theorem trace_numbers_steps_iff (machine : Machine) (m : CodeModule) (entry : String)
    (htrace : machine.config.trace = true) (hends : (machine.run m entry).1 = none) :
    (machine.run m entry).2.state.trace.size = (machine.run m entry).2.state.steps ∧
      (∃ counted : List Nat,
        counted.Perm (List.range' 1 (machine.run m entry).2.state.steps) ∧
        List.Forall₂ (Recounts machine.config m entry) counted
          (machine.run m entry).2.state.trace.toList) ∧
      (NumbersSteps machine.config m entry (machine.run m entry).2.state ↔
        ∀ step function i, Executes machine.config m entry step function i → ¬EntersCode m i) := by
  obtain ⟨counted, htally⟩ := exists_tally htrace hends
  have hsteps := htally.steps
  rw [List.append_nil] at hsteps
  refine ⟨?_, ⟨counted, hsteps, htally.recounts⟩, ?_, htally.numbersSteps⟩
  · rw [← Array.length_toList, ← htally.recounts.length_eq, hsteps.length_eq, List.length_range']
  · intro hnumbers step function i hexecutes
    obtain ⟨last, hreaches, hover, -, hrun⟩ := exists_last machine m entry
    have hstep := hexecutes.step_le hreaches hover
    refine hnumbers.not_entersCode htally hexecutes ?_
    rw [hrun]
    exact hstep

-- Of the two functions that `main` calls, one has code in it.
def tickingModule : CodeModule where
  unit := "ticking"
  imports := []
  functions :=
    [⟨"tick", false, [], [.operate (.intConst 1)]⟩, ⟨"idle", false, [], []⟩,
      ⟨"main", true, [], [.call "idle", .call "tick"]⟩]

theorem trace_numbers_steps_iff_ticking :
    ((new ⟨10, true⟩).run tickingModule "main").1 = none ∧
      ((new ⟨10, true⟩).run tickingModule "main").2.state.trace.size =
        ((new ⟨10, true⟩).run tickingModule "main").2.state.steps ∧
      (∃ counted : List Nat,
        counted.Perm (List.range' 1 ((new ⟨10, true⟩).run tickingModule "main").2.state.steps) ∧
        List.Forall₂ (Recounts ⟨10, true⟩ tickingModule "main") counted
          ((new ⟨10, true⟩).run tickingModule "main").2.state.trace.toList) ∧
      (NumbersSteps ⟨10, true⟩ tickingModule "main"
          ((new ⟨10, true⟩).run tickingModule "main").2.state ↔
        ∀ step function i, Executes ⟨10, true⟩ tickingModule "main" step function i →
          ¬EntersCode tickingModule i) := by
  have hends : ((new ⟨10, true⟩).run tickingModule "main").1 = none := by decide +kernel
  exact ⟨hends, trace_numbers_steps_iff (new ⟨10, true⟩) tickingModule "main" rfl hends⟩

-- The call of `tick` is the second step and the instruction in it the third. Both show the
-- number three, and no entry shows the number two.
theorem trace_repeats_number_of_callee :
    ((new ⟨10, true⟩).run tickingModule "main").1 = none ∧
      ((new ⟨10, true⟩).run tickingModule "main").2.state.steps = 3 ∧
      ((new ⟨10, true⟩).run tickingModule "main").2.state.trace.toList.map
          (fun e => (e.step, e.function, e.instr)) =
        [(1, "main", "call $idle"), (3, "tick", "i32.const 1"), (3, "main", "call $tick")] ∧
      ¬NumbersSteps ⟨10, true⟩ tickingModule "main"
        ((new ⟨10, true⟩).run tickingModule "main").2.state := by
  have hnumbers : ((new ⟨10, true⟩).run tickingModule "main").2.state.trace.toList.map (·.step) =
      [1, 3, 3] := by decide +kernel
  refine ⟨by decide +kernel, by decide +kernel, by decide +kernel, fun h => ?_⟩
  have hnodup := h.nodup
  rw [hnumbers] at hnodup
  revert hnodup
  decide

end Numbers

end EchoLang.Machine
