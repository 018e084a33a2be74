import EchoLang.Proofs.Machine.Ends

namespace EchoLang

variable {α β : Type} {function : String}

-- A state with the operands and the slots of another one.
def State.working (r s : State) : State :=
  { r with stack := s.stack, slots := s.slots }

theorem State.working_self (s : State) : s.working s = s := rfl

def State.push (s : State) (v : Value) : State :=
  { s with stack := v :: s.stack }

-- The same end in another state.
def mapState (g : State → State) :
    EStateM.Result Trap State α → EStateM.Result Trap State α
  | .ok a t => .ok a (g t)
  | .error e t => .error e (g t)

namespace Exec

-- A computation that works on operands and slots alone. Everything else of the
-- state could be replaced before or after it.
def Local (c : Exec α) : Prop :=
  ∀ r s : State, c (r.working s) = mapState r.working (c s)

theorem Local.bind {c : Exec α} {f : α → Exec β} (hc : Local c) (hf : ∀ a, Local (f a)) :
    Local (c >>= f) := by
  intro r s
  have h := hc r s
  simp only [Bind.bind, EStateM.bind, h]
  cases c s with
  | ok a t => exact hf a r t
  | error e t => rfl

theorem local_pure (a : α) : Local (pure a) := fun _ _ => rfl

theorem local_throw (trap : Trap) : Local (throw trap : Exec α) := fun _ _ => rfl

theorem local_push (v : Value) : Local (push v) := fun _ _ => rfl

theorem local_pop (instr : String) : Local (pop instr) := by
  intro r s
  obtain ⟨stack, _, _, _, _, _⟩ := s
  cases stack <;> rfl

theorem local_popFloat (instr : String) : Local (popFloat instr) := by
  refine (local_pop instr).bind ?_
  intro v
  cases v
  · exact local_pure _
  · exact local_throw _

theorem local_popInt (instr : String) : Local (popInt instr) := by
  refine (local_pop instr).bind ?_
  intro v
  cases v
  · exact local_throw _
  · exact local_pure _

theorem local_readSlot (slot : Nat) : Local (readSlot function slot) := by
  intro r s
  simp only [readSlot, Bind.bind, EStateM.bind, Machine.get_apply, State.working]
  cases s.slots[slot]? <;> rfl

theorem local_writeSlot (slot : Nat) (x : Float32) : Local (writeSlot function slot x) := by
  intro r s
  simp only [writeSlot, Bind.bind, EStateM.bind, Machine.get_apply, State.working]
  split <;> rfl

-- The rest of the state is what it was.
theorem Local.ends {c : Exec α} (hc : Local c) (s : State) :
    Ends c s (fun _ t => t = s.working t) (fun _ t => t = s.working t) := by
  have h := hc s s
  rw [State.working_self] at h
  unfold Ends
  cases hr : c s with
  | ok a t =>
      simp only [hr, mapState] at h
      injection h with _ ht
  | error e t =>
      simp only [hr, mapState] at h
      injection h with _ ht

end Exec

-- The relation is not broken by a change of operands and slots, nor by a print.
class Tolerant (rel : State → State → Prop) : Prop extends IsPreorder State rel where
  working : ∀ s w, rel s (s.working w)
  print : ∀ s x, rel s { s with printed := s.printed.push x }

section Tolerant

variable {rel : State → State → Prop} [Tolerant rel]

theorem Exec.Local.follows {c : Exec α} (hc : Local c) : Follows rel c := by
  intro s
  refine (hc.ends s).imp ?_ ?_ <;>
  · intro _ t ht
    rw [ht]
    exact Tolerant.working s t

theorem follows_callNamed {m : CodeModule} {enter : FunctionDef → Exec Unit}
    (henter : ∀ f, Follows rel (enter f)) (name : String) :
    Follows rel (Machine.callNamed m enter name) := by
  unfold Machine.callNamed
  cases m.effect? name with
  | some e =>
      dsimp only
      split
      · exact (Exec.local_popFloat _).follows.bind fun x s => Tolerant.print s x
      · exact follows_throw _
  | none =>
      cases m.function? name with
      | some f => exact henter f
      | none => exact follows_throw _

end Tolerant

open Exec

theorem Operation.run_local (function : String) (op : Operation) : Local (op.run function) := by
  cases op with
  | floatConst x => exact local_push _
  | intConst n => exact local_push _
  | floatOp op =>
      exact (local_popFloat _).bind fun _ => (local_popFloat _).bind fun _ => local_push _
  | floatTest test =>
      exact (local_popFloat _).bind fun _ => (local_popFloat _).bind fun _ => local_push _
  | intOp op =>
      exact (local_popInt _).bind fun _ => (local_popInt _).bind fun _ => local_push _
  | isZero => exact (local_popInt _).bind fun _ => local_push _
  | remainder =>
      refine (local_popInt _).bind fun b => (local_popInt _).bind fun a => ?_
      cases unsignedRemainder? a b
      · exact local_throw _
      · exact local_push _
  | truncate =>
      refine (local_popFloat _).bind fun x => ?_
      cases truncate? x
      · exact local_throw _
      · exact local_push _
  | saturate => exact (local_popFloat _).bind fun _ => local_push _
  | ofSigned => exact (local_popInt _).bind fun _ => local_push _
  | ofUnsigned => exact (local_popInt _).bind fun _ => local_push _
  | get slot => exact (local_readSlot slot).bind fun _ => local_push _
  | set slot => exact (local_popFloat _).bind fun _ => local_writeSlot slot _

-- Carries operations out one after the other, without counting them.
def runAll (function : String) : List Operation → Exec Unit
  | [] => pure ()
  | op :: rest => do
    op.run function
    runAll function rest

theorem runAll_append (first second : List Operation) :
    runAll function (first ++ second) = (do runAll function first; runAll function second) := by
  induction first with
  | nil => rw [List.nil_append, runAll, pure_bind]
  | cons op rest ih => simp only [List.cons_append, runAll, ih, bind_assoc]

-- If the first operations succeed, the others go on from there.
theorem runAll_append_of_ok {first second : List Operation} {s t : State}
    (h : runAll function first s = .ok () t) :
    runAll function (first ++ second) s = runAll function second t := by
  rw [runAll_append]
  simp only [bind, EStateM.bind, h]

theorem runAll_append_of_error {first second : List Operation} {s t : State} {trap : Trap}
    (h : runAll function first s = .error trap t) :
    runAll function (first ++ second) s = .error trap t := by
  rw [runAll_append]
  simp only [bind, EStateM.bind, h]

namespace Machine

variable {config : MachineConfig} {m : CodeModule} {enter : FunctionDef → Exec Unit}

theorem ends_operate {op : Operation} {s : State} {good : Flow → State → Prop}
    {bad : Trap → State → Prop} :
    Ends (execInstr config m enter function (.operate op)) s good bad ↔
      if s.steps = config.maxSteps then bad (.stepLimit config.maxSteps) s
      else Ends (op.run function) { s with steps := s.steps + 1 }
        (fun _ t => good .next { t with trace := recorded config function (.operate op) t })
        bad := by
  rw [execInstr]
  simp only [ends_bind, ends_countStep, ends_record, ends_pure]

-- Straight code does what its operations do and takes a step for each of them,
-- unless there are not enough steps left.
theorem ends_straight (code : List Operation) (r s : State) :
    Ends (execBody config m enter function (straight code)) (r.working s)
      (fun flow t => flow = .next ∧ ∃ w trace, runAll function code s = .ok () w ∧
        t = State.working { r with steps := r.steps + code.length, trace := trace } w)
      (fun trap t => t.printed = r.printed ∧
        (trap = .stepLimit config.maxSteps ∧ config.maxSteps < r.steps + code.length ∨
          ∃ w, runAll function code s = .error trap w)) := by
  induction code generalizing r s with
  | nil => exact ⟨rfl, s, r.trace, rfl, rfl⟩
  | cons op rest ih =>
      change Ends (execBody _ _ _ _ (.operate op :: straight rest)) _ _ _
      rw [execBody_cons, ends_bind, ends_operate]
      by_cases hlimit : r.steps = config.maxSteps
      · rw [if_pos (show (r.working s).steps = config.maxSteps from hlimit)]
        refine ⟨rfl, .inl ⟨rfl, ?_⟩⟩
        simp only [List.length_cons]
        omega
      · rw [if_neg (show ¬(r.working s).steps = config.maxSteps from hlimit)]
        have hrun := op.run_local function { r with steps := r.steps + 1 } s
        change op.run function { r.working s with steps := r.steps + 1 } = _ at hrun
        unfold Ends
        simp only [State.working] at hrun ⊢
        rw [hrun]
        cases hop : op.run function s with
        | error trap w =>
            refine ⟨rfl, .inr ⟨w, ?_⟩⟩
            simp only [runAll, bind, EStateM.bind, hop]
        | ok _ w =>
            -- the rest starts behind the counted and recorded operation
            refine (ih { r with
              steps := r.steps + 1
              trace := recorded config function (.operate op)
                (State.working { r with steps := r.steps + 1 } w) } w).imp ?_ ?_
            · rintro flow t ⟨hflow, v, trace, hv, ht⟩
              refine ⟨hflow, v, trace, ?_, ?_⟩
              · simp only [runAll, bind, EStateM.bind, hop, hv]
              · rw [ht, List.length_cons]
                simp only [State.working, State.mk.injEq, and_true, true_and]
                omega
            · rintro trap t ⟨hprinted, hcause⟩
              refine ⟨hprinted, hcause.imp ?_ ?_⟩
              · rintro ⟨htrap, hsteps⟩
                dsimp only at hsteps
                exact ⟨htrap, by rw [List.length_cons]; omega⟩
              · rintro ⟨v, hv⟩
                exact ⟨v, by simp only [runAll, bind, EStateM.bind, hop, hv]⟩

end Machine

end EchoLang
