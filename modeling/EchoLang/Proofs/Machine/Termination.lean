import EchoLang.Proofs.Machine.Moments

namespace EchoLang.Machine

open Exec Moment

variable {config : MachineConfig} {m : CodeModule} {function : String} {left : Nat}
  {code body rest : List Instr} {waiting : List Waiting} {s t : State} {x y : Moment}

theorem Reaches.frames_eq (h : Reaches config m x y) (hx : Sound config x)
    (hwaiting : y.waiting = x.waiting) : y.state.frames = x.state.frames := by
  rw [(h.sound hx).frames, hx.frames, hwaiting]

-- A function has been left, or there was no frame for it.
def Moment.returned (f : FunctionDef) (waiting : List Waiting) :
    EStateM.Result Trap State Unit → Moment
  | .ok _ s => ⟨s, .running f.name [], waiting⟩
  | .error trap s => ⟨s, .trapping trap, waiting⟩

-- With so many frames left, the moves through some code end as the computation does, and
-- the rest of the body comes next.
def Carries (config : MachineConfig) (m : CodeModule) (left : Nat) (function : String)
    (code rest : List Instr) (c : Exec Flow) : Prop :=
  ∀ s waiting, Sound config ⟨s, .running function code, waiting⟩ → s.frames + left = maxFrames →
    Reaches config m ⟨s, .running function code, waiting⟩ (ended function rest waiting (c s))

-- With so many frames left, functions that are entered come to their end.
def Returns (config : MachineConfig) (m : CodeModule) (left : Nat) : Prop :=
  ∀ f s waiting, Sound config (entering s f waiting) → s.frames + left = maxFrames →
    Reaches config m (entering s f waiting) (returned f waiting (enterFunction config m left f s))

theorem reaches_block {label : Label} {c : Exec Flow}
    (hc : Carries config m left function body [] c)
    (hs : Sound config ⟨s, .running function body, .block label s.stack.length rest :: waiting⟩)
    (hleft : s.frames + left = maxFrames) :
    Reaches config m ⟨s, .running function body, .block label s.stack.length rest :: waiting⟩
      (ended function rest waiting (runBlock label c s)) := by
  refine (hc s _ hs hleft).tail ?_
  rw [runBlock_apply]
  simp only [bind, EStateM.bind]
  cases c s with
  | error trap t => rfl
  | ok flow t =>
      cases flow with
      | next => rfl
      | branch target =>
          by_cases htarget : target = label
          · simp only [ended, next?, catchBranch, leaveBlock, if_pos htarget]
            rfl
          · simp only [ended, next?, catchBranch, leaveBlock, if_neg htarget]
            rfl

-- By induction on the steps that are left, because each round but the last takes one.
theorem reaches_loop {label : Label} {height : Nat} {c : Exec Flow}
    (hc : Carries config m left function body [] c) (hp : Progresses config c)
    (hs : Sound config ⟨s, .running function body, .loop label height body rest :: waiting⟩)
    (hleft : s.frames + left = maxFrames) :
    Reaches config m ⟨s, .running function body, .loop label height body rest :: waiting⟩
      (ended function rest waiting (loopFrom config label height c s)) := by
  induction hsteps : config.maxSteps - s.steps using Nat.strongRecOn generalizing s with
  | ind steps ih =>
      have hround := hc s _ hs hleft
      have hend := hp s
      unfold Ends at hend
      rw [loopFrom_apply label height hp hs.steps]
      simp only [bind, EStateM.bind]
      cases hr : c s with
      | error trap t =>
          rw [hr] at hround
          exact hround.tail rfl
      | ok flow t =>
          rw [hr] at hround
          simp only [hr] at hend
          cases flow with
          | next => exact hround.tail rfl
          | branch target =>
              by_cases htarget : target = label
              · have hagain : Reaches config m _ ⟨cut height t, .running function body,
                    .loop label height body rest :: waiting⟩ :=
                  hround.tail (by simp only [ended, next?, catchBranch, if_pos htarget])
                simp only [nextRound, if_pos htarget]
                have hframes : t.frames = s.frames := hagain.frames_eq hs rfl
                have hlt : s.steps < t.steps := hend.2 (by simp)
                have hle : t.steps ≤ config.maxSteps := hend.1.within hs.steps
                refine hagain.trans (ih (config.maxSteps - t.steps) (by omega)
                  (hagain.sound hs) ?_ rfl)
                change t.frames + left = maxFrames
                rw [hframes, hleft]
              · refine hround.tail ?_
                simp only [ended, next?, catchBranch, nextRound, if_neg htarget]
                rfl

theorem reaches_call (henter : Returns config m left) {name : String} {f : FunctionDef}
    (hs : Sound config (entering s f (.call function name rest :: waiting)))
    (hleft : s.frames + left = maxFrames) :
    Reaches config m (entering s f (.call function name rest :: waiting))
      (ended function rest waiting ((do
        enterFunction config m left f
        record config function (.call name)
        return Flow.next) s)) := by
  refine (henter f s _ hs hleft).tail ?_
  simp only [bind, EStateM.bind]
  cases enterFunction config m left f s with
  | error trap t => rfl
  | ok _ t =>
      simp only [record_apply]
      rfl

-- The instruction begins in one move, unless the steps are over.
theorem carries_instr {i : Instr}
    (h : ∀ s waiting, Sound config (beginning config m function i rest waiting s) →
      s.frames + left = maxFrames →
        Reaches config m (beginning config m function i rest waiting s)
          (ended function rest waiting
            (perform config m (enterFunction config m left) function i s))) :
    Carries config m left function (i :: rest) rest
      (execInstr config m (enterFunction config m left) function i) := by
  intro s waiting hs hleft
  rw [execInstr_eq]
  simp only [bind, EStateM.bind, countStep_apply]
  by_cases hlimit : s.steps = config.maxSteps
  · rw [if_pos hlimit]
    refine .single ?_
    simp only [next?, countStep_apply, if_pos hlimit]
    rfl
  · rw [if_neg hlimit]
    have hbegin : Moment.next? config m ⟨s, .running function (i :: rest), waiting⟩ =
        some (beginning config m function i rest waiting { s with steps := s.steps + 1 }) := by
      simp only [next?, countStep_apply, if_neg hlimit]
    exact .head hbegin (h _ waiting (hs.next hbegin) hleft)

theorem carries_nil : Carries config m left function [] [] (pure .next) := by
  intro s waiting _ _
  exact .refl

theorem carries_cons {i : Instr} {c c' : Exec Flow}
    (hc : Carries config m left function (i :: rest) rest c)
    (hc' : Carries config m left function rest [] c') :
    Carries config m left function (i :: rest) [] (c >>= continueWith c') := by
  intro s waiting hs hleft
  have hfirst := hc s waiting hs hleft
  simp only [bind, EStateM.bind]
  cases hr : c s with
  | error trap t =>
      rw [hr] at hfirst
      exact hfirst
  | ok flow t =>
      rw [hr] at hfirst
      cases flow with
      | branch label => exact hfirst
      | next =>
          have hframes : t.frames = s.frames := hfirst.frames_eq hs rfl
          exact hfirst.trans (hc' t waiting (hfirst.sound hs) (hframes ▸ hleft))

mutual

theorem carries_execInstr (henter : Returns config m left) : ∀ (i : Instr) (rest : List Instr),
    Carries config m left function (i :: rest) rest
      (execInstr config m (enterFunction config m left) function i)
  | .block label body, rest => by
      refine carries_instr fun s waiting hs hleft => ?_
      simp only [perform, bind, EStateM.bind, record_apply]
      exact reaches_block (carries_execBody henter body) hs hleft
  | .loop label body, rest => by
      refine carries_instr fun s waiting hs hleft => ?_
      simp only [perform, bind, EStateM.bind, record_apply]
      exact reaches_loop (carries_execBody henter body)
        (execBody_progresses (enterFunction_advances left) body) hs hleft
  | .call name, rest => by
      refine carries_instr fun s waiting hs hleft => ?_
      simp only [beginning, perform, callNamed] at hs ⊢
      cases heffect : m.effect? name with
      | some e => exact .refl
      | none =>
          simp only [heffect] at hs ⊢
          cases hfunction : m.function? name with
          | none => exact .refl
          | some f =>
              simp only [hfunction] at hs ⊢
              exact reaches_call henter hs hleft
  | .branch label, rest => carries_instr fun _ _ _ _ => .refl
  | .branchIf label, rest => carries_instr fun _ _ _ _ => .refl
  | .operate op, rest => carries_instr fun _ _ _ _ => .refl

theorem carries_execBody (henter : Returns config m left) : ∀ body : List Instr,
    Carries config m left function body []
      (execBody config m (enterFunction config m left) function body)
  | [] => by
      rw [execBody]
      exact carries_nil
  | i :: rest => by
      rw [execBody_cons]
      exact carries_cons (carries_execInstr henter i rest) (carries_execBody henter rest)

end

-- By induction on the frames that are left, of which a call takes one.
theorem returns_enterFunction (left : Nat) : Returns config m left := by
  induction left with
  | zero =>
      intro f s waiting _ hleft
      rw [entering, if_pos (by simpa using hleft)]
      exact .refl
  | succ left ih =>
      intro f s waiting hs hleft
      have hfree : s.frames ≠ maxFrames := by omega
      rw [entering, if_neg hfree] at hs ⊢
      have hbody := carries_execBody ih f.body _ _ hs (by dsimp only; omega)
      refine hbody.tail ?_
      rw [enterFunction]
      simp only [bind, EStateM.bind, inFrame]
      cases execBody config m (enterFunction config m left) f.name f.body
        { s with slots := Array.replicate f.locals.length 0, frames := s.frames + 1 } with
      | error trap t => rfl
      | ok flow t =>
          cases flow with
          | next => rfl
          | branch label => rfl

-- The moment at which a run is over.
theorem exists_last (machine : Machine) (m : CodeModule) (entry : String) :
    ∃ last, Reaches machine.config m (start m entry) last ∧
      last.next? machine.config m = none ∧ last.waiting = [] ∧
      machine.run m entry = (last.trap?, { machine with state := last.state }) := by
  have hsound := sound_start machine.config m entry
  unfold start at hsound ⊢
  unfold run
  cases hf : m.function? entry with
  | none => exact ⟨_, .refl, rfl, rfl, rfl⟩
  | some f =>
      rw [hf] at hsound
      have hreaches := returns_enterFunction (m := m) maxFrames f .initial [] hsound
        (Nat.zero_add _)
      dsimp only
      cases hr : enterFunction machine.config m maxFrames f .initial with
      | ok _ t =>
          rw [hr] at hreaches
          exact ⟨_, hreaches, rfl, rfl, rfl⟩
      | error trap t =>
          rw [hr] at hreaches
          exact ⟨_, hreaches, rfl, rfl, rfl⟩

-- Every run takes some number of moves and is over then, with the result of `run` and
-- without a frame. At each of its moments the steps are within their limit, and the frames
-- are those that wait to be left, never more than there can be. A run is out of steps only
-- when all of them are taken.
theorem run_terminates (machine : Machine) (m : CodeModule) (entry : String) :
    ∃ moves last, (start m entry).after machine.config m moves = some last ∧
      (start m entry).after machine.config m (moves + 1) = none ∧
      machine.run m entry = (last.trap?, { machine with state := last.state }) ∧
      last.state.frames = 0 ∧
      ∀ k x, (start m entry).after machine.config m k = some x →
        x.state.steps ≤ machine.config.maxSteps ∧
        x.state.frames = activeFrames x.waiting ∧ x.state.frames ≤ maxFrames ∧
        ∀ limit, x.trap? = some (.stepLimit limit) → x.state.steps = machine.config.maxSteps := by
  obtain ⟨last, hreaches, hover, hwaiting, hrun⟩ := exists_last machine m entry
  have hsound := sound_start machine.config m entry
  obtain ⟨moves, hmoves⟩ := reaches_iff.mp hreaches
  refine ⟨moves, last, hmoves, ?_, hrun, ?_, ?_⟩
  · rw [after, hmoves]
    exact hover
  · rw [(hreaches.sound hsound).frames, hwaiting]
    rfl
  · intro k x hx
    have hbounds := (reaches_iff.mpr ⟨k, hx⟩).sound hsound
    exact ⟨hbounds.steps, hbounds.frames, hbounds.frames ▸ hbounds.bounded,
      fun _ htrap => hbounds.steps_eq htrap⟩

end EchoLang.Machine
