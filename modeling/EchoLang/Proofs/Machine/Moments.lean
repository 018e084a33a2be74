import EchoLang.Proofs.Machine.Limit
import Mathlib.Data.List.Count
import Mathlib.Logic.Relation

namespace EchoLang.Machine

open Exec

-- What waits for the code at hand to end. A block and a loop know the height of the stack
-- at their entry. A frame keeps the slots of the caller, and below it the call waits to be
-- recorded.
inductive Waiting where
  | block (label : Label) (height : Nat) (rest : List Instr)
  | loop (label : Label) (height : Nat) (body rest : List Instr)
  | frame (slots : Array Float32)
  | call (function name : String) (rest : List Instr)

def Waiting.isFrame : Waiting → Bool
  | frame _ => true
  | _ => false

def activeFrames (waiting : List Waiting) : Nat :=
  waiting.countP Waiting.isFrame

-- A branch looks for its scope, and a trap for the end of the run.
inductive Mode where
  | running (function : String) (code : List Instr)
  | branching (function : String) (label : Label)
  | trapping (trap : Trap)

-- The innermost thing that waits comes first.
structure Moment where
  state : State
  mode : Mode
  waiting : List Waiting

namespace Moment

-- A piece of code has ended and the rest of its body comes next.
def ended (function : String) (rest : List Instr) (waiting : List Waiting) :
    EStateM.Result Trap State Flow → Moment
  | .ok .next s => ⟨s, .running function rest, waiting⟩
  | .ok (.branch label) s => ⟨s, .branching function label, waiting⟩
  | .error trap s => ⟨s, .trapping trap, waiting⟩

-- A function begins, or there is no frame for it.
def entering (s : State) (f : FunctionDef) (waiting : List Waiting) : Moment :=
  if s.frames = maxFrames then
    ⟨s, .trapping (.callStackOverflow maxFrames), waiting⟩
  else
    ⟨{ s with slots := Array.replicate f.locals.length 0, frames := s.frames + 1 },
      .running f.name f.body, .frame s.slots :: waiting⟩

-- An instruction that has been counted begins. Only scopes and calls of functions take
-- more than this move.
def beginning (config : MachineConfig) (m : CodeModule) (function : String) (i : Instr)
    (rest : List Instr) (waiting : List Waiting) (s : State) : Moment :=
  match i with
  | .block label body =>
    ⟨{ s with trace := recorded config function i s }, .running function body,
      .block label s.stack.length rest :: waiting⟩
  | .loop label body =>
    ⟨{ s with trace := recorded config function i s }, .running function body,
      .loop label s.stack.length body rest :: waiting⟩
  | .call name =>
    match m.effect? name, m.function? name with
    | none, some f => entering s f (.call function name rest :: waiting)
    | _, _ => ended function rest waiting (perform config m (fun _ => pure ()) function i s)
  | _ => ended function rest waiting (perform config m (fun _ => pure ()) function i s)

def leaveFrame (slots : Array Float32) (s : State) : State :=
  { s with slots := slots, frames := s.frames - 1 }

-- The code at hand has come to its end.
def resume (config : MachineConfig) (function : String) (s : State) (waiting : List Waiting) :
    Waiting → Moment
  | .block _ _ rest => ⟨s, .running function rest, waiting⟩
  | .loop _ _ _ rest => ⟨s, .running function rest, waiting⟩
  | .frame slots => ⟨leaveFrame slots s, .running function [], waiting⟩
  | .call caller name rest =>
    ⟨{ s with trace := recorded config caller (.call name) s }, .running caller rest, waiting⟩

-- The code at hand has branched. A branch never comes out of its function, so that it does
-- not meet a call.
def catchBranch (function : String) (label : Label) (s : State) (waiting : List Waiting) :
    Waiting → Moment
  | .block own height rest =>
    if label = own then ⟨cut height s, .running function rest, waiting⟩
    else ⟨s, .branching function label, waiting⟩
  | .loop own height body rest =>
    if label = own then
      ⟨cut height s, .running function body, .loop own height body rest :: waiting⟩
    else ⟨s, .branching function label, waiting⟩
  | .frame slots => ⟨leaveFrame slots s, .trapping (.unknownLabel label), waiting⟩
  | .call .. => ⟨s, .trapping (.unknownLabel label), waiting⟩

-- The code at hand has trapped. Nothing that waits goes on.
def unwind (trap : Trap) (s : State) (waiting : List Waiting) : Waiting → Moment
  | .frame slots => ⟨leaveFrame slots s, .trapping trap, waiting⟩
  | _ => ⟨s, .trapping trap, waiting⟩

-- One move. The run is over when nothing is left to run and nothing waits.
def next? (config : MachineConfig) (m : CodeModule) : Moment → Option Moment
  | ⟨s, .running function (i :: rest), waiting⟩ =>
    match countStep config s with
    | .ok _ counted => some (beginning config m function i rest waiting counted)
    | .error trap counted => some ⟨counted, .trapping trap, waiting⟩
  | ⟨s, .running function [], w :: waiting⟩ => some (resume config function s waiting w)
  | ⟨s, .branching function label, w :: waiting⟩ => some (catchBranch function label s waiting w)
  | ⟨s, .trapping trap, w :: waiting⟩ => some (unwind trap s waiting w)
  | ⟨s, .branching _ label, []⟩ => some ⟨s, .trapping (.unknownLabel label), []⟩
  | ⟨_, .running _ [], []⟩ => none
  | ⟨_, .trapping _, []⟩ => none

-- The moment after so many moves, if the run takes as many.
def after (config : MachineConfig) (m : CodeModule) (x : Moment) : Nat → Option Moment
  | 0 => some x
  | moves + 1 => (x.after config m moves).bind (next? config m)

-- The first moment of a run.
def start (m : CodeModule) (entry : String) : Moment :=
  match m.function? entry with
  | none => ⟨.initial, .trapping (.unknownFunction entry), []⟩
  | some f => entering .initial f []

-- Why the run stops, if this is its last moment.
def trap? (x : Moment) : Option Trap :=
  match x.mode with
  | .trapping trap => some trap
  | _ => none

end Moment

open Moment

variable {config : MachineConfig} {m : CodeModule} {function : String} {i : Instr}
  {rest : List Instr} {waiting : List Waiting} {s t : State} {x y : Moment} {w : Waiting}

@[simp] theorem activeFrames_cons (w : Waiting) (waiting : List Waiting) :
    activeFrames (w :: waiting) = activeFrames waiting + if w.isFrame then 1 else 0 := by
  simp [activeFrames, List.countP_cons]

section Bounds

-- What holds at every moment of a run.
structure Sound (config : MachineConfig) (x : Moment) : Prop where
  steps : x.state.steps ≤ config.maxSteps
  frames : x.state.frames = activeFrames x.waiting
  bounded : activeFrames x.waiting ≤ maxFrames
  exhausted : ∀ limit, x.mode = .trapping (.stepLimit limit) → x.state.steps = config.maxSteps

theorem Sound.steps_eq (h : Sound config x) {limit : Nat}
    (htrap : x.trap? = some (.stepLimit limit)) : x.state.steps = config.maxSteps := by
  obtain ⟨s, mode, waiting⟩ := x
  cases mode with
  | trapping trap =>
      rw [Option.some.inj htrap] at h
      exact h.exhausted limit rfl
  | _ => cases htrap

-- The bounds of a moment at which the run is not out of steps.
theorem Sound.of_running {mode : Mode} (hsteps : s.steps ≤ config.maxSteps)
    (hframes : s.frames = activeFrames waiting) (hbounded : activeFrames waiting ≤ maxFrames)
    (hmode : ∀ limit, mode ≠ .trapping (.stepLimit limit)) :
    Sound config ⟨s, mode, waiting⟩ :=
  ⟨hsteps, hframes, hbounded, fun limit h => absurd h (hmode limit)⟩

def SameFrames (s t : State) : Prop := t.frames = s.frames

instance : Tolerant SameFrames where
  refl _ := rfl
  trans _ _ _ h h' := h'.trans h
  working _ _ := rfl
  print _ _ := rfl

-- The computation neither enters a function nor leaves one.
abbrev KeepsFrames {α : Type} (c : Exec α) : Prop :=
  Follows SameFrames c

theorem keepsFrames_record (i : Instr) : KeepsFrames (record config function i) := by
  intro s
  rw [ends_record]
  rfl

-- Work of one move that enters no function keeps the bounds.
theorem sound_ended {c : Exec Flow} (ha : Advances config c) (he : Exhausts config c)
    (hk : KeepsFrames c) (hsteps : s.steps ≤ config.maxSteps)
    (hframes : s.frames = activeFrames waiting) (hbounded : activeFrames waiting ≤ maxFrames) :
    Sound config (ended function rest waiting (c s)) := by
  have hend := ((ha s).and (he s hsteps)).and (hk s)
  unfold Ends at hend
  cases hr : c s with
  | ok flow t =>
      simp only [hr] at hend
      obtain ⟨⟨-, ht⟩, hkept⟩ := hend
      cases flow with
      | next => exact .of_running ht (hkept.trans hframes) hbounded (by simp)
      | branch label => exact .of_running ht (hkept.trans hframes) hbounded (by simp)
  | error trap t =>
      simp only [hr] at hend
      obtain ⟨⟨hadvance, hlimit⟩, hkept⟩ := hend
      refine ⟨hadvance.within hsteps, hkept.trans hframes, hbounded, ?_⟩
      intro limit hmode
      injection hmode with htrap
      exact hlimit ⟨limit, congrArg some htrap⟩

theorem sound_entering (f : FunctionDef) (hsteps : s.steps ≤ config.maxSteps)
    (hframes : s.frames = activeFrames waiting) (hbounded : activeFrames waiting ≤ maxFrames) :
    Sound config (entering s f waiting) := by
  unfold entering
  split
  · exact .of_running hsteps hframes hbounded (by simp)
  · rename_i hfree
    have hcount : activeFrames (.frame s.slots :: waiting) = activeFrames waiting + 1 := by
      simp [Waiting.isFrame]
    exact .of_running hsteps (by rw [hcount, ← hframes]) (by omega) (by simp)

theorem sound_beginning (i : Instr) (hsteps : s.steps ≤ config.maxSteps)
    (hframes : s.frames = activeFrames waiting) (hbounded : activeFrames waiting ≤ maxFrames) :
    Sound config (beginning config m function i rest waiting s) := by
  have hplain (hk : KeepsFrames (perform config m (fun _ => pure ()) function i)) :
      Sound config (ended function rest waiting
        (perform config m (fun _ => pure ()) function i s)) :=
    sound_ended (perform_advances (fun _ => follows_pure _) i)
      (exhausts_perform (fun _ => follows_pure _) (fun _ => exhausts_pure _) i) hk
      hsteps hframes hbounded
  have hrecord : KeepsFrames (do record config function i; return Flow.next) :=
    (keepsFrames_record i).bind fun _ => follows_pure _
  cases i with
  | block label body =>
      exact .of_running hsteps (by simpa [Waiting.isFrame] using hframes)
        (by simpa [Waiting.isFrame] using hbounded) (by simp)
  | loop label body =>
      exact .of_running hsteps (by simpa [Waiting.isFrame] using hframes)
        (by simpa [Waiting.isFrame] using hbounded) (by simp)
  | branch label => exact hplain ((keepsFrames_record _).bind fun _ => follows_pure _)
  | branchIf label =>
      exact hplain ((local_popInt _).follows.bind fun _ =>
        (keepsFrames_record _).bind fun _ => follows_pure _)
  | operate op => exact hplain ((op.run_local _).follows.bind fun _ => hrecord)
  | call name =>
      have hcall := hplain ((follows_callNamed (fun _ => follows_pure ()) name).bind fun _ =>
        hrecord)
      unfold beginning
      dsimp only
      split
      · exact sound_entering _ hsteps (by simpa [Waiting.isFrame] using hframes)
          (by simpa [Waiting.isFrame] using hbounded)
      · exact hcall

-- A frame that is left was the last one that was entered.
theorem Sound.leave {slots : Array Float32} {mode mode' : Mode}
    (h : Sound config ⟨s, mode, .frame slots :: waiting⟩)
    (hmode : ∀ limit, mode' = .trapping (.stepLimit limit) → mode = .trapping (.stepLimit limit)) :
    Sound config ⟨leaveFrame slots s, mode', waiting⟩ := by
  have hframes := h.frames
  have hbounded := h.bounded
  simp only [activeFrames_cons, Waiting.isFrame, if_true] at hframes hbounded
  refine ⟨h.steps, ?_, Nat.le_of_lt hbounded, fun limit hlimit =>
    h.exhausted limit (hmode limit hlimit)⟩
  dsimp only [leaveFrame]
  omega

-- What waits and is no frame can go without a change to the frames.
theorem Sound.drop {mode mode' : Mode} (h : Sound config ⟨s, mode, w :: waiting⟩)
    (hw : w.isFrame = false) (hsteps : t.steps = s.steps) (hframes : t.frames = s.frames)
    (hmode : ∀ limit, mode' = .trapping (.stepLimit limit) → mode = .trapping (.stepLimit limit)) :
    Sound config ⟨t, mode', waiting⟩ := by
  have hcount : activeFrames (w :: waiting) = activeFrames waiting := by simp [hw]
  refine ⟨?_, ?_, ?_, ?_⟩
  · exact hsteps ▸ h.steps
  · exact hframes.trans (h.frames.trans hcount)
  · exact hcount ▸ h.bounded
  · intro limit hlimit
    exact hsteps.trans (h.exhausted limit (hmode limit hlimit))

theorem sound_resume (h : Sound config ⟨s, .running function [], w :: waiting⟩) :
    Sound config (resume config function s waiting w) := by
  cases w with
  | block label height rest => exact h.drop rfl rfl rfl (by simp)
  | loop label height body rest => exact h.drop rfl rfl rfl (by simp)
  | frame slots => exact h.leave (by simp)
  | call caller name rest => exact h.drop rfl rfl rfl (by simp)

theorem sound_catchBranch {label : Label}
    (h : Sound config ⟨s, .branching function label, w :: waiting⟩) :
    Sound config (catchBranch function label s waiting w) := by
  cases w with
  | block own height rest =>
      rw [catchBranch]
      split
      · exact h.drop rfl rfl rfl (by simp)
      · exact h.drop rfl rfl rfl (by simp)
  | loop own height body rest =>
      rw [catchBranch]
      split
      · exact .of_running h.steps h.frames h.bounded (by simp)
      · exact h.drop rfl rfl rfl (by simp)
  | frame slots => exact h.leave (by simp)
  | call caller name rest => exact h.drop rfl rfl rfl (by simp)

theorem sound_unwind {trap : Trap} (h : Sound config ⟨s, .trapping trap, w :: waiting⟩) :
    Sound config (unwind trap s waiting w) := by
  cases w with
  | frame slots => exact h.leave fun _ hmode => hmode
  | _ => exact h.drop rfl rfl rfl fun _ hmode => hmode

-- One move keeps the bounds.
theorem Sound.next (h : Sound config x) (hnext : x.next? config m = some y) : Sound config y := by
  obtain ⟨s, mode, waiting⟩ := x
  cases mode with
  | running function code =>
      cases code with
      | cons i rest =>
          simp only [next?, countStep_apply] at hnext
          by_cases hlimit : s.steps = config.maxSteps
          · simp only [if_pos hlimit, Option.some.injEq] at hnext
            rw [← hnext]
            exact ⟨h.steps, h.frames, h.bounded, fun _ _ => hlimit⟩
          · simp only [if_neg hlimit, Option.some.injEq] at hnext
            rw [← hnext]
            exact sound_beginning i (Nat.lt_of_le_of_ne h.steps hlimit) h.frames h.bounded
      | nil =>
          cases waiting with
          | nil => cases hnext
          | cons w waiting =>
              rw [← Option.some.inj hnext]
              exact sound_resume h
  | branching function label =>
      cases waiting with
      | nil =>
          rw [← Option.some.inj hnext]
          exact .of_running h.steps h.frames h.bounded (by simp)
      | cons w waiting =>
          rw [← Option.some.inj hnext]
          exact sound_catchBranch h
  | trapping trap =>
      cases waiting with
      | nil => cases hnext
      | cons w waiting =>
          rw [← Option.some.inj hnext]
          exact sound_unwind h

theorem sound_start (config : MachineConfig) (m : CodeModule) (entry : String) :
    Sound config (start m entry) := by
  unfold start
  split
  · exact .of_running (Nat.zero_le _) rfl (Nat.zero_le _) (by simp)
  · exact sound_entering _ (Nat.zero_le _) rfl (Nat.zero_le _)

end Bounds

section Reaching

-- The run comes from one moment to the other.
def Reaches (config : MachineConfig) (m : CodeModule) : Moment → Moment → Prop :=
  Relation.ReflTransGen fun x y => x.next? config m = some y

theorem Reaches.sound (h : Reaches config m x y) (hx : Sound config x) : Sound config y := by
  induction h with
  | refl => exact hx
  | tail _ hnext ih => exact ih.next hnext

theorem reaches_iff : Reaches config m x y ↔ ∃ moves, x.after config m moves = some y := by
  constructor
  · intro h
    induction h with
    | refl => exact ⟨0, rfl⟩
    | @tail y z _ hnext ih =>
        obtain ⟨moves, hmoves⟩ := ih
        refine ⟨moves + 1, ?_⟩
        rw [after, hmoves]
        exact hnext
  · rintro ⟨moves, hmoves⟩
    induction moves generalizing y with
    | zero =>
        rw [← Option.some.inj hmoves]
        exact .refl
    | succ moves ih =>
        obtain ⟨z, hz, hnext⟩ := Option.bind_eq_some_iff.mp hmoves
        exact (ih hz).tail hnext

end Reaching

end EchoLang.Machine
