import EchoLang.Machine.Exec
import Mathlib.Order.Defs.Unbundled

namespace EchoLang

section Rules

variable {ε σ α β : Type}

-- Started in `s`, the computation returns with `good` or traps with `bad`. Both
-- also speak of the state that is left.
def Ends (c : EStateM ε σ α) (s : σ) (good : α → σ → Prop) (bad : ε → σ → Prop) : Prop :=
  match c s with
  | .ok a t => good a t
  | .error e t => bad e t

variable {c : EStateM ε σ α} {f : α → EStateM ε σ β} {s : σ}
  {good good' : α → σ → Prop} {bad bad' : ε → σ → Prop}

theorem Ends.imp (h : Ends c s good bad) (hg : ∀ a t, good a t → good' a t)
    (hb : ∀ e t, bad e t → bad' e t) : Ends c s good' bad' := by
  unfold Ends at h ⊢
  cases hr : c s with
  | ok a t => exact hg a t (by simpa only [hr] using h)
  | error e t => exact hb e t (by simpa only [hr] using h)

theorem Ends.and (h : Ends c s good bad) (h' : Ends c s good' bad') :
    Ends c s (fun a t => good a t ∧ good' a t) (fun e t => bad e t ∧ bad' e t) := by
  unfold Ends at h h' ⊢
  cases hr : c s with
  | ok a t => exact ⟨by simpa only [hr] using h, by simpa only [hr] using h'⟩
  | error e t => exact ⟨by simpa only [hr] using h, by simpa only [hr] using h'⟩

theorem ends_congr {c' : EStateM ε σ α} (h : c s = c' s) :
    Ends c s good bad ↔ Ends c' s good bad := by
  unfold Ends
  rw [h]

theorem ends_bind {good : β → σ → Prop} :
    Ends (c >>= f) s good bad ↔ Ends c s (fun a t => Ends (f a) t good bad) bad := by
  simp only [Ends, bind, EStateM.bind]
  cases c s <;> rfl

@[simp] theorem ends_pure {a : α} : Ends (pure a) s good bad ↔ good a s := Iff.rfl

@[simp] theorem ends_throw {e : ε} : Ends (throw e) s good bad ↔ bad e s := Iff.rfl

@[simp] theorem ends_get {good : σ → σ → Prop} :
    Ends (get : EStateM ε σ σ) s good bad ↔ good s s := Iff.rfl

@[simp] theorem ends_modify {g : σ → σ} {good : Unit → σ → Prop} :
    Ends (modify g : EStateM ε σ Unit) s good bad ↔ good () (g s) := Iff.rfl

end Rules

section Follows

variable {ε σ α β : Type} {rel : σ → σ → Prop} {c : EStateM ε σ α} {f : α → EStateM ε σ β}

-- However the computation ends, the relation leads from the state at its start to the one that
-- is left.
def Follows (rel : σ → σ → Prop) (c : EStateM ε σ α) : Prop :=
  ∀ s, Ends c s (fun _ t => rel s t) (fun _ t => rel s t)

theorem Follows.bind [IsTrans σ rel] (hc : Follows rel c) (hf : ∀ a, Follows rel (f a)) :
    Follows rel (c >>= f) := by
  intro s
  rw [ends_bind]
  refine (hc s).imp ?_ fun _ _ h => h
  intro a t hst
  exact (hf a t).imp (fun _ _ h => IsTrans.trans _ _ _ hst h)
    fun _ _ h => IsTrans.trans _ _ _ hst h

theorem follows_pure [Std.Refl rel] (a : α) : Follows rel (pure a : EStateM ε σ α) :=
  fun s => Std.Refl.refl s

theorem follows_throw [Std.Refl rel] (e : ε) : Follows rel (throw e : EStateM ε σ α) :=
  fun s => Std.Refl.refl s

end Follows

section Obeys

variable {ε σ α β : Type} {good : α → Prop} {good' : β → Prop} {bad bad' : ε → Prop}
  {c : EStateM ε σ α} {f : α → EStateM ε σ β}

-- From every state on, the computation returns something good or traps for a bad reason.
def Obeys (good : α → Prop) (bad : ε → Prop) (c : EStateM ε σ α) : Prop :=
  ∀ s, Ends c s (fun a _ => good a) (fun e _ => bad e)

theorem Obeys.bind (hc : Obeys good bad c) (hf : ∀ a, good a → Obeys good' bad (f a)) :
    Obeys good' bad (c >>= f) := by
  intro s
  rw [ends_bind]
  exact (hc s).imp (fun a t ha => hf a ha t) fun _ _ h => h

-- After a computation of which the result does not matter.
theorem Obeys.after (hc : Obeys (fun _ => True) bad c) (hf : ∀ a, Obeys good' bad (f a)) :
    Obeys good' bad (c >>= f) :=
  hc.bind fun a _ => hf a

theorem Obeys.mono (hc : Obeys good bad c) (h : ∀ e, bad e → bad' e) : Obeys good bad' c :=
  fun s => (hc s).imp (fun _ _ ha => ha) fun e _ he => h e he

theorem obeys_pure {a : α} (h : good a) : Obeys good bad (pure a : EStateM ε σ α) := fun _ => h

theorem obeys_throw {e : ε} (h : bad e) : Obeys good bad (throw e : EStateM ε σ α) := fun _ => h

end Obeys

namespace Machine

variable {config : MachineConfig} {m : CodeModule} {enter : FunctionDef → Exec Unit}
  {function : String} {s : State} {bad : Trap → State → Prop}

theorem get_apply (s : State) : (get : Exec State) s = .ok s s := rfl

theorem countStep_apply (config : MachineConfig) (s : State) :
    countStep config s =
      if s.steps = config.maxSteps then .error (.stepLimit config.maxSteps) s
      else .ok () { s with steps := s.steps + 1 } := by
  by_cases h : s.steps = config.maxSteps <;>
    simp [countStep, h, bind, EStateM.bind, get_apply] <;> rfl

theorem ends_countStep {good : Unit → State → Prop} :
    Ends (countStep config) s good bad ↔
      if s.steps = config.maxSteps then bad (.stepLimit config.maxSteps) s
      else good () { s with steps := s.steps + 1 } := by
  unfold Ends
  rw [countStep_apply]
  by_cases h : s.steps = config.maxSteps
  · simp only [if_pos h]
  · simp only [if_neg h]

-- The trace after an instruction has been recorded.
def recorded (config : MachineConfig) (function : String) (i : Instr) (s : State) :
    Array TraceEntry :=
  if config.trace then s.trace.push ⟨s.steps, function, i.mnemonic, s.stack⟩ else s.trace

theorem record_apply (function : String) (i : Instr) (s : State) :
    record config function i s = .ok () { s with trace := recorded config function i s } := by
  unfold record recorded
  cases config.trace <;> rfl

theorem ends_record {i : Instr} {good : Unit → State → Prop} :
    Ends (record config function i) s good bad ↔
      good () { s with trace := recorded config function i s } := by
  unfold Ends
  rw [record_apply]

-- What is left to run after an instruction, or after the first part of a body.
def continueWith (rest : Exec Flow) : Flow → Exec Flow
  | .next => rest
  | .branch label => pure (.branch label)

theorem execBody_cons (i : Instr) (rest : List Instr) :
    execBody config m enter function (i :: rest) =
      execInstr config m enter function i >>=
        continueWith (execBody config m enter function rest) := by
  rw [execBody]
  rfl

theorem execBody_append (first second : List Instr) :
    execBody config m enter function (first ++ second) =
      execBody config m enter function first >>=
        continueWith (execBody config m enter function second) := by
  induction first with
  | nil => rw [List.nil_append, execBody, pure_bind]; rfl
  | cons i rest ih =>
      rw [List.cons_append, execBody_cons, execBody_cons, bind_assoc]
      congr 1
      funext flow
      cases flow with
      | next => exact ih
      | branch label => rfl

theorem execBody_singleton (i : Instr) :
    execBody config m enter function [i] = execInstr config m enter function i := by
  rw [execBody_cons, execBody]
  conv => rhs; rw [← bind_pure (execInstr config m enter function i)]
  congr 1
  funext flow
  cases flow <;> rfl

-- A branch out of a block or a loop body drops the operands above the scope.
def cut (height : Nat) (s : State) : State :=
  { s with stack := s.stack.drop (s.stack.length - height) }

theorem cut_eq_self {height : Nat} (h : s.stack.length = height) : cut height s = s := by
  simp [cut, h]

-- What a block does with the end of its body.
def leaveBlock (label : Label) (height : Nat) (flow : Flow) : Exec Flow :=
  match flow with
  | .next => pure .next
  | .branch target =>
    if target = label then do
      truncateTo height
      return .next
    else
      return .branch target

theorem runBlock_apply (label : Label) (body : Exec Flow) (s : State) :
    runBlock label body s = (body >>= leaveBlock label s.stack.length) s := rfl

-- What a loop does with the end of a round, if `again` runs the rounds after it.
def nextRound (label : Label) (height : Nat) (again : Exec Flow) (flow : Flow) : Exec Flow :=
  match flow with
  | .next => pure .next
  | .branch target =>
    if target = label then do
      truncateTo height
      again
    else
      return .branch target

-- A block is a loop of which no round is repeated.
theorem leaveBlock_eq (label : Label) (height : Nat) :
    leaveBlock label height = nextRound label height (pure .next) := by
  funext flow
  cases flow <;> rfl

theorem repeatLoop_succ (label : Label) (height : Nat) (body : Exec Flow) (rounds : Nat) :
    repeatLoop config label height body (rounds + 1) =
      body >>= nextRound label height (repeatLoop config label height body rounds) := rfl

theorem ends_leaveBlock {label : Label} {height : Nat} {flow : Flow}
    {good : Flow → State → Prop} :
    Ends (leaveBlock label height flow) s good bad ↔
      if flow = .branch label then good .next (cut height s) else good flow s := by
  cases flow with
  | next => simp [leaveBlock]
  | branch target =>
      by_cases h : target = label
      · subst h
        simp only [leaveBlock, if_true]
        rfl
      · simp [leaveBlock, h]

theorem ends_nextRound {label : Label} {height : Nat} {again : Exec Flow} {flow : Flow}
    {good : Flow → State → Prop} :
    Ends (nextRound label height again flow) s good bad ↔
      if flow = .branch label then Ends again (cut height s) good bad else good flow s := by
  cases flow with
  | next => simp [nextRound]
  | branch target =>
      by_cases h : target = label
      · subst h
        simp only [nextRound, if_true]
        rfl
      · simp [nextRound, h]

theorem ends_runBlock {label : Label} {body : Exec Flow} {good : Flow → State → Prop} :
    Ends (runBlock label body) s good bad ↔
      Ends body s
        (fun flow t =>
          if flow = .branch label then good .next (cut s.stack.length t) else good flow t)
        bad := by
  rw [ends_congr (runBlock_apply label body s), ends_bind]
  simp only [ends_leaveBlock]

theorem ends_inFrame {slots : Array Float32} {body : Exec Flow} {good : Flow → State → Prop} :
    Ends (inFrame slots body) s good bad ↔
      Ends body { s with slots := slots, frames := s.frames + 1 }
        (fun flow t => good flow { t with slots := s.slots, frames := t.frames - 1 })
        (fun trap t => bad trap { t with slots := s.slots, frames := t.frames - 1 }) := by
  unfold Ends inFrame
  cases body { s with slots := slots, frames := s.frames + 1 } <;> rfl

theorem ends_run (good : Option Trap → State → Prop) (machine : Machine) {entry : String}
    {f : FunctionDef} (hf : m.function? entry = some f)
    (h : Ends (enterFunction machine.config m maxFrames f) .initial
      (fun _ t => good none t) (fun trap t => good (some trap) t)) :
    good (machine.run m entry).1 (machine.run m entry).2.state := by
  unfold run
  unfold Ends at h
  rw [hf]
  dsimp only
  cases hr : enterFunction machine.config m maxFrames f .initial with
  | ok a t => simpa only [hr] using h
  | error trap t => simpa only [hr] using h

-- The run was stopped by its limit.
def OutOfSteps (trap : Option Trap) : Prop :=
  ∃ limit, trap = some (.stepLimit limit)

end Machine

end EchoLang
