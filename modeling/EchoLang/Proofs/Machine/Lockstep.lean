import EchoLang.Proofs.Machine.Advance

namespace EchoLang

open Exec Machine

variable {α β : Type}

-- The state that a computation leaves, also with a trap.
def endState : EStateM.Result Trap State α → State
  | .ok _ t => t
  | .error _ t => t

-- Both computations end in the same way, or the first one is out of steps.
inductive Matches (rel late : State → State → Prop) :
    EStateM.Result Trap State α → EStateM.Result Trap State α → Prop where
  | ok {a : α} {t t' : State} (h : rel t t') : Matches rel late (.ok a t) (.ok a t')
  | trap {trap : Trap} {t t' : State} (h : rel t t') :
      Matches rel late (.error trap t) (.error trap t')
  | limit {limit : Nat} {t : State} {r : EStateM.Result Trap State α}
      (h : late t (endState r)) : Matches rel late (.error (.stepLimit limit) t) r

-- What two machines agree on while they run side by side. `late` compares the
-- state in which the first one ran out of steps with every state that the second
-- one comes to from then on.
structure Lockstep where
  config : MachineConfig
  config' : MachineConfig
  rel : State → State → Prop
  late : State → State → Prop
  stack_eq : ∀ {s s'}, rel s s' → s'.stack = s.stack
  slots_eq : ∀ {s s'}, rel s s' → s'.slots = s.slots
  within : ∀ {s s'}, rel s s' → s.steps ≤ config.maxSteps
  within' : ∀ {s s'}, rel s s' → s'.steps ≤ config'.maxSteps
  rel_stack : ∀ {s s'} (stack : List Value), rel s s' →
    rel { s with stack := stack } { s' with stack := stack }
  rel_frame : ∀ {s s'} (slots : Array Float32) (g : Nat → Nat), rel s s' →
    rel { s with slots := slots, frames := g s.frames }
      { s' with slots := slots, frames := g s'.frames }
  rel_print : ∀ {s s'} (x : Float32), rel s s' →
    rel { s with printed := s.printed.push x } { s' with printed := s'.printed.push x }
  rel_record : ∀ {s s'} (function : String) (i : Instr), rel s s' →
    rel { s with trace := recorded config function i s }
      { s' with trace := recorded config' function i s' }
  meets_count : ∀ {s s'}, rel s s' → Matches rel late (countStep config s) (countStep config' s')
  late_advance : ∀ {s t u}, late s t → Advance config' t u → late s u
  late_frame : ∀ {s t} (slots slots' : Array Float32) (frames frames' : Nat), late s t →
    late { s with slots := slots, frames := frames } { t with slots := slots', frames := frames' }

namespace Lockstep

variable {L : Lockstep} {s s' t t' : State}

-- From related states on, the computations match. The second one only adds to its
-- state, so that what is late stays so.
structure Refines (L : Lockstep) (c c' : Exec α) : Prop where
  advances : Advances L.config' c'
  meets : ∀ {s s'}, L.rel s s' → Matches L.rel L.late (c s) (c' s')

theorem late_endState {c : Exec α} (hc : Advances L.config' c) (h : L.late s t) :
    L.late s (endState (c t)) := by
  have hend := hc t
  unfold Ends at hend
  cases hr : c t with
  | ok a u =>
      simp only [hr] at hend
      exact L.late_advance h hend
  | error trap u =>
      simp only [hr] at hend
      exact L.late_advance h hend

-- Two computations that match go on alike, from one pair of states.
theorem matches_bind {c c' : Exec α} {f f' : α → Exec β}
    (h : Matches L.rel L.late (c s) (c' s'))
    (hf : ∀ a t t', c s = .ok a t → L.rel t t' → Matches L.rel L.late (f a t) (f' a t'))
    (hadvances : ∀ a, Advances L.config' (f' a)) :
    Matches L.rel L.late ((c >>= f) s) ((c' >>= f') s') := by
  simp only [bind, EStateM.bind]
  generalize c s = r at h hf ⊢
  generalize c' s' = r' at h ⊢
  cases h with
  | ok h => exact hf _ _ _ rfl h
  | trap h => exact .trap h
  | limit h =>
      refine .limit ?_
      cases r' with
      | ok a t => exact late_endState (hadvances a) h
      | error trap t => exact h

theorem Refines.bind {c c' : Exec α} {f f' : α → Exec β} (hc : L.Refines c c')
    (hf : ∀ a, L.Refines (f a) (f' a)) : L.Refines (c >>= f) (c' >>= f') := by
  refine ⟨hc.advances.bind fun a => (hf a).advances, ?_⟩
  intro s s' h
  apply matches_bind (hc.meets h)
  · intro a t t' _ ht
    exact (hf a).meets ht
  · intro a
    exact (hf a).advances

theorem refines_pure (a : α) : L.Refines (pure a) (pure a) :=
  ⟨follows_pure a, fun h => .ok h⟩

theorem refines_throw (trap : Trap) : L.Refines (throw trap : Exec α) (throw trap) :=
  ⟨follows_throw trap, fun h => .trap h⟩

theorem rel_working (w : State) (h : L.rel s s') : L.rel (s.working w) (s'.working w) :=
  L.rel_frame w.slots id (L.rel_stack w.stack h)

theorem refines_of_local {c : Exec α} (hc : Local c) : L.Refines c c := by
  refine ⟨hc.follows, ?_⟩
  intro s s' h
  have hs : s'.working s = s' := by
    unfold State.working
    rw [← L.stack_eq h, ← L.slots_eq h]
  have hleft := hc s s
  have hright := hc s' s
  rw [hs] at hright
  rw [State.working_self] at hleft
  rw [hleft, hright]
  cases c s with
  | ok a t => exact .ok (rel_working t h)
  | error trap t => exact .trap (rel_working t h)

theorem refines_print (x : Float32) : L.Refines (Exec.print x) (Exec.print x) :=
  ⟨fun s => Tolerant.print s x, fun h => .ok (L.rel_print x h)⟩

theorem refines_countStep : L.Refines (countStep L.config) (countStep L.config') := by
  refine ⟨?_, L.meets_count⟩
  intro s
  rw [ends_countStep]
  split
  · exact Advance.refl s
  · rename_i hlimit
    exact advance_count hlimit

theorem refines_truncateTo (height : Nat) : L.Refines (truncateTo height) (truncateTo height) :=
  refines_of_local fun _ _ => rfl

theorem refines_record (function : String) {i i' : Instr} (hi : i.mnemonic = i'.mnemonic) :
    L.Refines (record L.config function i) (record L.config' function i') := by
  refine ⟨advances_record i', ?_⟩
  intro s s' h
  have hrecord := L.rel_record function i h
  have hsame : record L.config' function i' = record L.config' function i := by
    unfold record
    rw [hi]
  rw [hsame, record_apply, record_apply]
  exact .ok hrecord

theorem refines_leaveBlock (label : Label) (height : Nat) (flow : Flow) :
    L.Refines (leaveBlock label height flow) (leaveBlock label height flow) := by
  cases flow with
  | next => exact refines_pure _
  | branch target =>
      simp only [leaveBlock]
      split
      · exact (refines_truncateTo height).bind fun _ => refines_pure _
      · exact refines_pure _

theorem refines_runBlock (label : Label) {body body' : Exec Flow} (hb : L.Refines body body') :
    L.Refines (runBlock label body) (runBlock label body') := by
  refine ⟨advances_runBlock hb.advances, ?_⟩
  intro s s' h
  rw [runBlock_apply, runBlock_apply, L.stack_eq h]
  exact (hb.bind fun flow => refines_leaveBlock label s.stack.length flow).meets h

theorem rel_cut (height : Nat) (h : L.rel s s') : L.rel (cut height s) (cut height s') := by
  unfold cut
  rw [L.stack_eq h]
  exact L.rel_stack _ h

-- Each round takes a step, so there are fewer steps left for the rounds after it.
theorem matches_loopFrom (label : Label) (height : Nat) {body body' : Exec Flow}
    (hb : L.Refines body body') (hp : Progresses L.config body) (hp' : Progresses L.config' body')
    (h : L.rel s s') :
    Matches L.rel L.late (loopFrom L.config label height body s)
      (loopFrom L.config' label height body' s') := by
  induction hleft : L.config.maxSteps - s.steps using Nat.strongRecOn generalizing s s' with
  | ind left ih =>
      rw [loopFrom_apply label height hp (L.within h),
        loopFrom_apply label height hp' (L.within' h)]
      apply matches_bind (hb.meets h)
      · intro flow t t' hbody ht
        have hend := hp s
        unfold Ends at hend
        rw [hbody] at hend
        cases flow with
        | next => exact .ok ht
        | branch target =>
            by_cases htarget : target = label
            · have hlt := hend.2 (by simp)
              have hle := hend.1.within (L.within h)
              simp only [nextRound, if_pos htarget]
              exact ih (L.config.maxSteps - t.steps) (by omega) (rel_cut height ht) rfl
            · simp only [nextRound, if_neg htarget]
              exact .ok ht
      · intro flow
        exact advances_nextRound (advances_loopFrom hb.advances) flow

theorem refines_runLoop (label : Label) {body body' : Exec Flow} (hb : L.Refines body body')
    (hp : Progresses L.config body) (hp' : Progresses L.config' body') :
    L.Refines (runLoop L.config label body) (runLoop L.config' label body') := by
  refine ⟨fun s => advances_loopFrom hb.advances s, ?_⟩
  intro s s' h
  rw [runLoop_apply, runLoop_apply, L.stack_eq h]
  exact matches_loopFrom label s.stack.length hb hp hp' h

theorem refines_inFrame (slots : Array Float32) {body body' : Exec Flow}
    (hb : L.Refines body body') : L.Refines (inFrame slots body) (inFrame slots body') := by
  refine ⟨advances_inFrame hb.advances, ?_⟩
  intro s s' h
  have hbody := hb.meets (L.rel_frame slots (· + 1) h)
  unfold inFrame
  generalize body { s with slots := slots, frames := s.frames + 1 } = r at hbody ⊢
  generalize body' { s' with slots := slots, frames := s'.frames + 1 } = r' at hbody ⊢
  rw [L.slots_eq h]
  cases hbody with
  | ok ht => exact .ok (L.rel_frame s.slots (· - 1) ht)
  | trap ht => exact .trap (L.rel_frame s.slots (· - 1) ht)
  | limit ht =>
      refine .limit ?_
      cases r' with
      | ok flow t => exact L.late_frame _ _ _ _ ht
      | error trap t => exact L.late_frame _ _ _ _ ht

-- Where code of one module runs beside code of another one: in two functions of
-- one name, with calls that match.
structure Link (L : Lockstep) where
  module : CodeModule
  module' : CodeModule
  enter : FunctionDef → Exec Unit
  enter' : FunctionDef → Exec Unit
  function : String
  call : ∀ name, L.Refines (callNamed module enter name) (callNamed module' enter' name)
  advances : ∀ f, Advances L.config (enter f)
  advances' : ∀ f, Advances L.config' (enter' f)

namespace Link

variable {K : L.Link} {i i' : Instr} {body body' first first' second second' : List Instr}

def InstrRefines (K : L.Link) (i i' : Instr) : Prop :=
  L.Refines (execInstr L.config K.module K.enter K.function i)
    (execInstr L.config' K.module' K.enter' K.function i')

def CodeRefines (K : L.Link) (body body' : List Instr) : Prop :=
  L.Refines (execBody L.config K.module K.enter K.function body)
    (execBody L.config' K.module' K.enter' K.function body')

theorem instrRefines_of_perform
    (h : L.Refines (perform L.config K.module K.enter K.function i)
      (perform L.config' K.module' K.enter' K.function i')) :
    K.InstrRefines i i' := by
  unfold InstrRefines
  rw [execInstr_eq, execInstr_eq]
  exact refines_countStep.bind fun _ => h

theorem refines_operate (op : Operation) : K.InstrRefines (.operate op) (.operate op) := by
  apply instrRefines_of_perform
  exact (refines_of_local (op.run_local K.function)).bind fun _ =>
    (refines_record K.function rfl).bind fun _ => refines_pure _

theorem refines_branch (label : Label) : K.InstrRefines (.branch label) (.branch label) := by
  apply instrRefines_of_perform
  exact (refines_record K.function rfl).bind fun _ => refines_pure _

theorem refines_branchIf (label : Label) :
    K.InstrRefines (.branchIf label) (.branchIf label) := by
  apply instrRefines_of_perform
  exact (refines_of_local (local_popInt _)).bind fun _ =>
    (refines_record K.function rfl).bind fun _ => refines_pure _

theorem refines_call (name : String) : K.InstrRefines (.call name) (.call name) := by
  apply instrRefines_of_perform
  exact (K.call name).bind fun _ => (refines_record K.function rfl).bind fun _ => refines_pure _

theorem refines_block (label : Label) (hb : K.CodeRefines body body') :
    K.InstrRefines (.block label body) (.block label body') := by
  apply instrRefines_of_perform
  exact (refines_record K.function rfl).bind fun _ => refines_runBlock label hb

theorem refines_loop (label : Label) (hb : K.CodeRefines body body') :
    K.InstrRefines (.loop label body) (.loop label body') := by
  apply instrRefines_of_perform
  exact (refines_record K.function rfl).bind fun _ =>
    refines_runLoop label hb (execBody_progresses K.advances body)
      (execBody_progresses K.advances' body')

theorem refines_nil : K.CodeRefines [] [] := by
  unfold CodeRefines
  rw [execBody, execBody]
  exact refines_pure _

theorem refines_continueWith {rest rest' : Exec Flow} (h : L.Refines rest rest') (flow : Flow) :
    L.Refines (continueWith rest flow) (continueWith rest' flow) := by
  cases flow with
  | next => exact h
  | branch label => exact refines_pure _

theorem refines_cons (hi : K.InstrRefines i i') (hrest : K.CodeRefines body body') :
    K.CodeRefines (i :: body) (i' :: body') := by
  unfold CodeRefines
  rw [execBody_cons, execBody_cons]
  exact hi.bind fun flow => refines_continueWith hrest flow

theorem refines_append (hfirst : K.CodeRefines first first')
    (hsecond : K.CodeRefines second second') :
    K.CodeRefines (first ++ second) (first' ++ second') := by
  unfold CodeRefines
  rw [execBody_append, execBody_append]
  exact hfirst.bind fun flow => refines_continueWith hsecond flow

mutual

theorem refines_instr_self : ∀ i : Instr, K.InstrRefines i i
  | .operate op => refines_operate op
  | .call name => refines_call name
  | .block label body => refines_block label (refines_self body)
  | .loop label body => refines_loop label (refines_self body)
  | .branch label => refines_branch label
  | .branchIf label => refines_branchIf label

-- The same code matches itself.
theorem refines_self : ∀ body : List Instr, K.CodeRefines body body
  | [] => refines_nil
  | i :: rest => refines_cons (refines_instr_self i) (refines_self rest)

end

end Link

section Modules

variable {m m' : CodeModule} {g : FunctionDef → FunctionDef}

theorem refines_callNamed {enter enter' : FunctionDef → Exec Unit} {name : String}
    (heffect : m'.effect? name = m.effect? name)
    (hfunction : m'.function? name = (m.function? name).map g)
    (henter : ∀ f, L.Refines (enter f) (enter' (g f))) :
    L.Refines (callNamed m enter name) (callNamed m' enter' name) := by
  unfold callNamed
  rw [heffect, hfunction]
  cases m.effect? name with
  | some e =>
      dsimp only
      split
      · exact (refines_of_local (local_popFloat _)).bind fun x => refines_print x
      · exact refines_throw _
  | none =>
      cases m.function? name with
      | some f => exact henter f
      | none => exact refines_throw _

-- The second module has the functions of the first one, each with `g` applied to
-- it, and their bodies match where calls do.
structure Related (L : Lockstep) (m m' : CodeModule) (g : FunctionDef → FunctionDef) : Prop where
  effect? : ∀ name, m'.effect? name = m.effect? name
  function? : ∀ name, m'.function? name = (m.function? name).map g
  name : ∀ f, (g f).name = f.name
  locals : ∀ f, (g f).locals = f.locals
  body : ∀ (K : L.Link) (left : Nat), K.module = m → K.module' = m' →
    K.enter' = enterFunction L.config' m' left → ∀ f, K.CodeRefines f.body (g f).body

-- A module beside itself.
theorem related_self (m : CodeModule) : L.Related m m id where
  effect? _ := rfl
  function? _ := by simp
  name _ := rfl
  locals _ := rfl
  body _ _ _ _ _ f := Link.refines_self f.body

-- By induction on the frames that are left.
theorem Related.refines_enterFunction (h : L.Related m m' g) (left : Nat) (f : FunctionDef) :
    L.Refines (enterFunction L.config m left f) (enterFunction L.config' m' left (g f)) := by
  induction left generalizing f with
  | zero => exact refines_throw _
  | succ left ih =>
      let K : L.Link :=
        { module := m, module' := m', enter := enterFunction L.config m left,
          enter' := enterFunction L.config' m' left, function := f.name,
          call := fun name => refines_callNamed (h.effect? name) (h.function? name) ih,
          advances := enterFunction_advances left, advances' := enterFunction_advances left }
      have hbody : K.CodeRefines f.body (g f).body := h.body K left rfl rfl rfl f
      rw [enterFunction, enterFunction, h.name, h.locals]
      refine (refines_inFrame _ hbody).bind ?_
      intro flow
      cases flow with
      | next => exact refines_pure _
      | branch label => exact refines_throw _

-- Runs of both modules end alike, or the first one is out of steps.
theorem Related.run (h : L.Related m m' g) (hinitial : L.rel .initial .initial)
    (machine machine' : Machine) (hconfig : machine.config = L.config)
    (hconfig' : machine'.config = L.config') (entry : String) :
    ((machine'.run m' entry).1 = (machine.run m entry).1 ∧
        L.rel (machine.run m entry).2.state (machine'.run m' entry).2.state) ∨
      (OutOfSteps (machine.run m entry).1 ∧
        L.late (machine.run m entry).2.state (machine'.run m' entry).2.state) := by
  unfold Machine.run
  rw [h.function? entry]
  cases m.function? entry with
  | none => exact .inl ⟨rfl, hinitial⟩
  | some f =>
      have hf := (h.refines_enterFunction maxFrames f).meets hinitial
      dsimp only [Option.map]
      rw [hconfig, hconfig']
      generalize enterFunction L.config m maxFrames f .initial = r at hf ⊢
      generalize enterFunction L.config' m' maxFrames (g f) .initial = r' at hf ⊢
      cases hf with
      | ok ht => exact .inl ⟨rfl, ht⟩
      | trap ht => exact .inl ⟨rfl, ht⟩
      | @limit limit t _ ht =>
          refine .inr ⟨⟨limit, rfl⟩, ?_⟩
          cases r' with
          | ok a t' => exact ht
          | error trap t' => exact ht

end Modules

end Lockstep

end EchoLang
