import EchoLang.Proofs.Machine.Ends

namespace EchoLang

variable {α β : Type}

inductive ScopeMoment where
  | entered
  | restarted
  | left
deriving DecidableEq

-- The operands are those before a branch drops any.
structure ScopeEvent where
  moment : ScopeMoment
  label : Label
  stack : List Value
deriving DecidableEq

structure WatchedState where
  state : State
  events : List ScopeEvent

abbrev Watched := EStateM Trap WatchedState

namespace Watched

def ofExec (c : Exec α) : Watched α := fun w =>
  match c w.state with
  | .ok a s => .ok a { w with state := s }
  | .error trap s => .error trap { w with state := s }

def note (moment : ScopeMoment) (label : Label) : Watched Unit :=
  modify fun w => { w with events := w.events ++ [⟨moment, label, w.state.stack⟩] }

end Watched

open Watched

namespace Machine

-- A branch to a label farther out leaves the block as well.
def watchBlock (label : Label) (body : Watched Flow) : Watched Flow := do
  note .entered label
  let height := (← get).state.stack.length
  let flow ← body
  note .left label
  ofExec (leaveBlock label height flow)

def watchRounds (config : MachineConfig) (label : Label) (height : Nat) (body : Watched Flow) :
    Nat → Watched Flow
  | 0 => throw (.stepLimit config.maxSteps)
  | rounds + 1 => do
    let flow ← body
    if flow = .branch label then
      note .restarted label
      ofExec (truncateTo height)
      watchRounds config label height body rounds
    else
      note .left label
      return flow

def watchLoop (config : MachineConfig) (label : Label) (body : Watched Flow) : Watched Flow := do
  note .entered label
  let s := (← get).state
  watchRounds config label s.stack.length body (config.maxSteps - s.steps + 1)

def watchCall (m : CodeModule) (enter : FunctionDef → Watched Unit) (name : String) :
    Watched Unit :=
  match m.effect? name, m.function? name with
  | none, some f => enter f
  | _, _ => ofExec (callNamed m (fun _ => pure ()) name)

mutual

def watchInstr (config : MachineConfig) (m : CodeModule) (enter : FunctionDef → Watched Unit)
    (function : String) : Instr → Watched Flow
  | .block label body => do
    ofExec (countStep config)
    ofExec (record config function (.block label body))
    watchBlock label (watchBody config m enter function body)
  | .loop label body => do
    ofExec (countStep config)
    ofExec (record config function (.loop label body))
    watchLoop config label (watchBody config m enter function body)
  | .call name => do
    ofExec (countStep config)
    watchCall m enter name
    ofExec (record config function (.call name))
    return .next
  | .branch label => ofExec (execInstr config m (fun _ => pure ()) function (.branch label))
  | .branchIf label => ofExec (execInstr config m (fun _ => pure ()) function (.branchIf label))
  | .operate op => ofExec (execInstr config m (fun _ => pure ()) function (.operate op))

def watchBody (config : MachineConfig) (m : CodeModule) (enter : FunctionDef → Watched Unit)
    (function : String) : List Instr → Watched Flow
  | [] => return .next
  | i :: rest => do
    match ← watchInstr config m enter function i with
    | .next => watchBody config m enter function rest
    | .branch label => return .branch label

end

def watchFrame (slots : Array Float32) (body : Watched Flow) : Watched Flow := fun ⟨s, events⟩ =>
  match body ⟨{ s with slots := slots, frames := s.frames + 1 }, events⟩ with
  | .ok flow ⟨t, events⟩ =>
    .ok flow ⟨{ t with slots := s.slots, frames := t.frames - 1 }, events⟩
  | .error trap ⟨t, events⟩ =>
    .error trap ⟨{ t with slots := s.slots, frames := t.frames - 1 }, events⟩

def watchFunction (config : MachineConfig) (m : CodeModule) : Nat → FunctionDef → Watched Unit
  | 0, _ => throw (.callStackOverflow maxFrames)
  | left + 1, f => do
    let slots := Array.replicate f.locals.length 0
    match ← watchFrame slots (watchBody config m (watchFunction config m left) f.name f.body) with
    | .next => return
    | .branch label => throw (.unknownLabel label)

-- What `run` gives, and what was noted in the meantime.
def watch (machine : Machine) (m : CodeModule) (entry : String) :
    (Option Trap × Machine) × List ScopeEvent :=
  match m.function? entry with
  | none => ((some (.unknownFunction entry), new machine.config), [])
  | some f =>
    match watchFunction machine.config m maxFrames f ⟨.initial, []⟩ with
    | .ok _ w => ((none, { machine with state := w.state }), w.events)
    | .error trap w => ((some trap, { machine with state := w.state }), w.events)

theorem ends_watchFrame {slots : Array Float32} {body : Watched Flow} {s : State}
    {events : List ScopeEvent} {good : Flow → WatchedState → Prop}
    {bad : Trap → WatchedState → Prop} :
    Ends (watchFrame slots body) ⟨s, events⟩ good bad ↔
      Ends body ⟨{ s with slots := slots, frames := s.frames + 1 }, events⟩
        (fun flow w => good flow
          ⟨{ w.state with slots := s.slots, frames := w.state.frames - 1 }, w.events⟩)
        (fun trap w => bad trap
          ⟨{ w.state with slots := s.slots, frames := w.state.frames - 1 }, w.events⟩) := by
  unfold Ends watchFrame
  dsimp only
  cases body ⟨{ s with slots := slots, frames := s.frames + 1 }, events⟩ <;> rfl

-- The result without what was noted.
def eraseEvents : EStateM.Result Trap WatchedState α → EStateM.Result Trap State α
  | .ok a w => .ok a w.state
  | .error trap w => .error trap w.state

def Erases (c' : Watched α) (c : Exec α) : Prop :=
  ∀ w, eraseEvents (c' w) = c w.state

theorem Erases.bind {c' : Watched α} {c : Exec α} {f' : α → Watched β} {f : α → Exec β}
    (hc : Erases c' c) (hf : ∀ a, Erases (f' a) (f a)) : Erases (c' >>= f') (c >>= f) := by
  intro w
  have h := hc w
  simp only [Bind.bind, EStateM.bind, ← h]
  cases c' w with
  | ok a u => exact hf a u
  | error trap u => rfl

theorem erases_pure (a : α) : Erases (pure a) (pure a) := fun _ => rfl

theorem erases_throw (trap : Trap) : Erases (throw trap : Watched α) (throw trap) := fun _ => rfl

theorem erases_ofExec (c : Exec α) : Erases (ofExec c) c := by
  intro w
  unfold ofExec
  cases c w.state <;> rfl

theorem erases_note (moment : ScopeMoment) (label : Label) {c' : Watched α} {c : Exec α}
    (hc : Erases c' c) : Erases (do note moment label; c') c :=
  fun _ => hc _

theorem erases_watchBlock (label : Label) {body' : Watched Flow} {body : Exec Flow}
    (hb : Erases body' body) : Erases (watchBlock label body') (runBlock label body) := by
  have hrest (height : Nat) : Erases
      (do let flow ← body'; note .left label; ofExec (leaveBlock label height flow))
      (body >>= leaveBlock label height) :=
    hb.bind fun flow => erases_note _ _ (erases_ofExec _)
  intro w
  exact hrest w.state.stack.length _

theorem erases_watchRounds {config : MachineConfig} (label : Label) (height : Nat)
    {body' : Watched Flow} {body : Exec Flow} (hb : Erases body' body) (rounds : Nat) :
    Erases (watchRounds config label height body' rounds)
      (repeatLoop config label height body rounds) := by
  induction rounds with
  | zero => exact erases_throw _
  | succ rounds ih =>
      rw [repeatLoop_succ, watchRounds]
      refine hb.bind ?_
      intro flow
      cases flow with
      | next => exact erases_note _ _ (erases_pure _)
      | branch target =>
          by_cases htarget : target = label
          · simp only [nextRound, Flow.branch.injEq, if_pos htarget]
            exact erases_note _ _ ((erases_ofExec _).bind fun _ => ih)
          · simp only [nextRound, Flow.branch.injEq, if_neg htarget]
            exact erases_note _ _ (erases_pure _)

theorem erases_watchCall {m : CodeModule} {enter' : FunctionDef → Watched Unit}
    {enter : FunctionDef → Exec Unit} (henter : ∀ f, Erases (enter' f) (enter f))
    (name : String) : Erases (watchCall m enter' name) (callNamed m enter name) := by
  unfold watchCall callNamed
  cases m.effect? name with
  | some e => exact erases_ofExec _
  | none =>
      cases m.function? name with
      | some f => exact henter f
      | none => exact erases_ofExec _

theorem erases_watchFrame (slots : Array Float32) {body' : Watched Flow} {body : Exec Flow}
    (hb : Erases body' body) : Erases (watchFrame slots body') (inFrame slots body) := by
  intro ⟨s, events⟩
  have h := hb ⟨{ s with slots := slots, frames := s.frames + 1 }, events⟩
  unfold watchFrame inFrame
  dsimp only at h ⊢
  rw [← h]
  cases body' ⟨{ s with slots := slots, frames := s.frames + 1 }, events⟩ <;> rfl

mutual

theorem erases_watchInstr {config : MachineConfig} {m : CodeModule}
    {enter' : FunctionDef → Watched Unit} {enter : FunctionDef → Exec Unit}
    (henter : ∀ f, Erases (enter' f) (enter f)) {function : String} :
    ∀ i : Instr, Erases (watchInstr config m enter' function i)
      (execInstr config m enter function i)
  | .block label body => by
      rw [watchInstr, execInstr]
      exact (erases_ofExec _).bind fun _ => (erases_ofExec _).bind fun _ =>
        erases_watchBlock label (erases_watchBody henter body)
  | .loop label body => by
      rw [watchInstr, execInstr]
      refine (erases_ofExec _).bind fun _ => (erases_ofExec _).bind fun _ => ?_
      intro w
      exact erases_watchRounds label w.state.stack.length (erases_watchBody henter body)
        (config.maxSteps - w.state.steps + 1) _
  | .call name => by
      rw [watchInstr, execInstr]
      exact (erases_ofExec _).bind fun _ => (erases_watchCall henter name).bind fun _ =>
        (erases_ofExec _).bind fun _ => erases_pure _
  | .branch label => by
      rw [watchInstr, execInstr, execInstr]
      exact erases_ofExec _
  | .branchIf label => by
      rw [watchInstr, execInstr, execInstr]
      exact erases_ofExec _
  | .operate op => by
      rw [watchInstr, execInstr, execInstr]
      exact erases_ofExec _

theorem erases_watchBody {config : MachineConfig} {m : CodeModule}
    {enter' : FunctionDef → Watched Unit} {enter : FunctionDef → Exec Unit}
    (henter : ∀ f, Erases (enter' f) (enter f)) {function : String} :
    ∀ body : List Instr, Erases (watchBody config m enter' function body)
      (execBody config m enter function body)
  | [] => by
      rw [watchBody, execBody]
      exact erases_pure _
  | i :: rest => by
      rw [watchBody, execBody]
      refine (erases_watchInstr henter i).bind ?_
      intro flow
      cases flow with
      | next => exact erases_watchBody henter rest
      | branch label => exact erases_pure _

end

theorem erases_watchFunction {config : MachineConfig} {m : CodeModule} (left : Nat)
    (f : FunctionDef) : Erases (watchFunction config m left f) (enterFunction config m left f) := by
  induction left generalizing f with
  | zero => exact erases_throw _
  | succ left ih =>
      rw [watchFunction, enterFunction]
      refine (erases_watchFrame _ (erases_watchBody ih f.body)).bind ?_
      intro flow
      cases flow with
      | next => exact erases_pure _
      | branch label => exact erases_throw _

-- Watching a run does not change it.
theorem watch_fst (machine : Machine) (m : CodeModule) (entry : String) :
    (machine.watch m entry).1 = machine.run m entry := by
  unfold watch run
  cases m.function? entry with
  | none => rfl
  | some f =>
      have h : eraseEvents (watchFunction machine.config m maxFrames f ⟨.initial, []⟩) =
          enterFunction machine.config m maxFrames f .initial :=
        erases_watchFunction maxFrames f ⟨.initial, []⟩
      dsimp only
      rw [← h]
      cases watchFunction machine.config m maxFrames f ⟨.initial, []⟩ <;> rfl

theorem ends_watch (good : Option Trap → State → List ScopeEvent → Prop) (machine : Machine)
    {m : CodeModule} {entry : String} {f : FunctionDef} (hf : m.function? entry = some f)
    (h : Ends (watchFunction machine.config m maxFrames f) ⟨.initial, []⟩
      (fun _ w => good none w.state w.events) (fun trap w => good (some trap) w.state w.events)) :
    good (machine.watch m entry).1.1 (machine.watch m entry).1.2.state
      (machine.watch m entry).2 := by
  unfold watch
  unfold Ends at h
  rw [hf]
  dsimp only
  cases hr : watchFunction machine.config m maxFrames f ⟨.initial, []⟩ with
  | ok a w => simpa only [hr] using h
  | error trap w => simpa only [hr] using h

end Machine

end EchoLang
