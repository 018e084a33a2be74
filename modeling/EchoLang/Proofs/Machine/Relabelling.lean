import EchoLang.Proofs.Machine.Advance
import EchoLang.Proofs.Machine.Alike
import EchoLang.Proofs.Typing.Soundness

namespace EchoLang

open Exec Machine

section Labels

mutual

def Instr.relabel (rename : Label → Label) : Instr → Instr
  | .operate op => .operate op
  | .call name => .call name
  | .block label body => .block (rename label) (relabelCode rename body)
  | .loop label body => .loop (rename label) (relabelCode rename body)
  | .branch label => .branch (rename label)
  | .branchIf label => .branchIf (rename label)

def relabelCode (rename : Label → Label) : List Instr → List Instr
  | [] => []
  | i :: rest => i.relabel rename :: relabelCode rename rest

end

def FunctionDef.relabel (rename : Label → Label) (f : FunctionDef) : FunctionDef :=
  { f with body := relabelCode rename f.body }

def Flow.relabel (rename : Label → Label) : Flow → Flow
  | next => .next
  | branch label => .branch (rename label)

end Labels

-- A trap without the texts in which labels show.
def Trap.anonymous : Trap → Trap
  | typeMismatch _ expected found => .typeMismatch "" expected found
  | stackUnderflow _ => .stackUnderflow ""
  | unknownLabel _ => .unknownLabel ⟨.ifThen, 0⟩
  | trap => trap

theorem Trap.eq_of_anonymous_eq {config : MachineConfig} {trap trap' : Trap}
    (hexpected : trap.Expected config) (h : trap.anonymous = trap'.anonymous) : trap = trap' := by
  cases trap <;> cases trap' <;> simp_all [anonymous, Expected]

def State.untraced (s : State) : State := { s with trace := #[] }

-- What a run comes to, without the trace.
def Machine.outcome (machine : Machine) (m : CodeModule) (entry : String) :
    Option Trap × State :=
  ((machine.run m entry).1, (machine.run m entry).2.state.untraced)

namespace Relabelling

-- Labels show in the traces and in the texts of traps.
def upToLabels : Comparison :=
  ⟨fun _ _ => True, fun trap trap' => trap.anonymous = trap'.anonymous, fun _ => rfl⟩

open Comparison

theorem alike_popInt (instr instr' : String) :
    upToLabels.Alike Eq (popInt instr) (popInt instr') := by
  rintro ⟨stack, slots, frames, steps, printed, recorded⟩ trace -
  match stack with
  | [] => exact .trap rfl trivial
  | .f32 x :: rest => exact .trap rfl trivial
  | .i32 n :: rest => exact .ok rfl trivial

section Code

variable {config : MachineConfig} {m m' : CodeModule} {enter enter' : FunctionDef → Exec Unit}
  {function : String} {rename : Label → Label} {label : Label} {body body' : Exec Flow}

theorem alike_record (i i' : Instr) :
    upToLabels.Alike Eq (record config function i) (record config function i') := by
  intro s trace _
  rw [record_apply, record_apply]
  exact .ok rfl trivial

-- The branch of the renamed code has the new name of the label.
def Renamed (rename : Label → Label) (flow flow' : Flow) : Prop :=
  flow' = flow.relabel rename

-- No two labels have one new name, so that a branch ends in the same scope.
theorem alike_nextRound (hrename : rename.Injective) {height : Nat} {again again' : Exec Flow}
    (h : upToLabels.Alike (Renamed rename) again again') (flow flow' : Flow)
    (hflow : Renamed rename flow flow') :
    upToLabels.Alike (Renamed rename) (nextRound label height again flow)
      (nextRound (rename label) height again' flow') := by
  subst hflow
  cases flow with
  | next => exact alike_pure rfl
  | branch target =>
      have htruncate : Local (truncateTo height) := fun _ _ => rfl
      simp only [nextRound, Flow.relabel, hrename.eq_iff]
      split
      · exact (alike_of_local htruncate).after fun _ => h
      · exact alike_pure rfl

theorem alike_runBlock (hrename : rename.Injective)
    (hb : upToLabels.Alike (Renamed rename) body body') :
    upToLabels.Alike (Renamed rename) (runBlock label body) (runBlock (rename label) body') := by
  have hfinish : ∀ height flow flow', Renamed rename flow flow' →
      upToLabels.Alike (Renamed rename) (leaveBlock label height flow)
        (leaveBlock (rename label) height flow') := by
    intro height
    rw [leaveBlock_eq, leaveBlock_eq]
    exact alike_nextRound hrename (alike_pure rfl)
  exact hb.inScope hfinish

theorem alike_repeatLoop (hrename : rename.Injective)
    (hb : upToLabels.Alike (Renamed rename) body body') (height rounds : Nat) :
    upToLabels.Alike (Renamed rename) (repeatLoop config label height body rounds)
      (repeatLoop config (rename label) height body' rounds) :=
  hb.rounds (alike_throw rfl) (fun _ => rfl) (fun _ => rfl)
    (fun _ _ hagain => alike_nextRound hrename hagain) rounds

theorem alike_cons {i i' : Instr} {rest rest' : List Instr}
    (hi : upToLabels.Alike (Renamed rename) (perform config m enter function i)
      (perform config m' enter' function i'))
    (hrest : upToLabels.Alike (Renamed rename) (execBody config m enter function rest)
      (execBody config m' enter' function rest')) :
    upToLabels.Alike (Renamed rename) (execBody config m enter function (i :: rest))
      (execBody config m' enter' function (i' :: rest')) := by
  rw [execBody_cons, execBody_cons, execInstr_eq, execInstr_eq]
  refine (alike_countStep.after fun _ => hi).bind ?_
  rintro flow _ rfl
  cases flow with
  | next => exact hrest
  | branch label => exact alike_pure rfl

theorem alike_callNamed_echo (hecho : m.effect? Effect.echo.name = some .echo)
    (hecho' : m'.effect? Effect.echo.name = some .echo) :
    upToLabels.Alike Eq (callNamed m enter Effect.echo.name)
      (callNamed m' enter' Effect.echo.name) := by
  unfold callNamed
  rw [hecho, hecho']
  exact (alike_of_local (local_popFloat _)).after fun x => alike_print x

-- The rules allow no call but that of the effect, so that the modules may be different ones.
theorem alike_execBody (hrename : rename.Injective)
    (hecho : m.effect? Effect.echo.name = some .echo)
    (hecho' : m'.effect? Effect.echo.name = some .echo) {n : Nat} {scopes : List Label}
    {kinds : List NumKind} {code : List Instr} (h : Typed n scopes kinds code) :
    upToLabels.Alike (Renamed rename) (execBody config m enter function code)
      (execBody config m' enter' function (relabelCode rename code)) := by
  induction h with
  | nil =>
      rw [relabelCode, execBody, execBody]
      exact alike_pure rfl
  | operate _ _ ih =>
      refine alike_cons ?_ ih
      exact (alike_of_local (Operation.run_local function _)).after fun _ =>
        (alike_record _ _).after fun _ => alike_pure rfl
  | echo _ ih =>
      refine alike_cons ?_ ih
      exact (alike_callNamed_echo hecho hecho').after fun _ =>
        (alike_record _ _).after fun _ => alike_pure rfl
  | block _ _ ihInner ihLater =>
      refine alike_cons ?_ ihLater
      exact (alike_record _ _).after fun _ => alike_runBlock hrename ihInner
  | loop _ _ ihInner ihLater =>
      refine alike_cons ?_ ihLater
      refine (alike_record _ _).after fun _ s trace htrace => ?_
      exact alike_repeatLoop hrename ihInner s.stack.length _ s trace htrace
  | branch _ =>
      refine alike_cons ?_ (alike_pure rfl)
      exact (alike_record _ _).after fun _ => alike_pure rfl
  | branchIf _ _ ih =>
      refine alike_cons ?_ ih
      refine (alike_popInt _ _).after fun n => (alike_record _ _).after fun _ => alike_pure ?_
      split
      · rfl
      · rfl

theorem alike_enterFunction (hrename : rename.Injective)
    (hecho : m.effect? Effect.echo.name = some .echo)
    (hecho' : m'.effect? Effect.echo.name = some .echo) {f : FunctionDef} (hf : f.Typed)
    (left : Nat) :
    upToLabels.Alike Eq (enterFunction config m (left + 1) f)
      (enterFunction config m' (left + 1) (f.relabel rename)) := by
  rw [enterFunction, enterFunction]
  refine (alike_inFrame _ (alike_execBody hrename hecho hecho' hf)).bind ?_
  rintro flow _ rfl
  cases flow with
  | next => exact alike_pure rfl
  | branch label => exact alike_throw rfl

end Code

end Relabelling

section Runs

variable {m m' : CodeModule} {f : FunctionDef} {rename : Label → Label}

theorem run_endsWell (hecho : m.effect? Effect.echo.name = some .echo)
    (hlookup : m.function? f.name = some f) (hf : f.Typed) (machine : Machine) :
    EndsWell machine.config (machine.run m f.name).1 (machine.run m f.name).2.state := by
  have hwatch := ends_watch
    (fun trap s events => EndsWell machine.config trap s ∧ ∀ e ∈ events, e.stack = [])
    machine hlookup (ends_watchFunction hecho hf 63)
  rw [watch_fst machine m f.name] at hwatch
  exact hwatch.1

-- A function runs in one module as it does with other labels in another one.
theorem outcome_relabel (hrename : rename.Injective)
    (hecho : m.effect? Effect.echo.name = some .echo)
    (hecho' : m'.effect? Effect.echo.name = some .echo) (hf : f.Typed)
    (hlookup : m.function? f.name = some f)
    (hlookup' : m'.function? f.name = some (f.relabel rename)) (machine : Machine) :
    machine.outcome m' f.name = machine.outcome m f.name := by
  have hends := run_endsWell hecho hlookup hf machine
  have halike : Relabelling.upToLabels.SameEnd Eq
      (enterFunction machine.config m maxFrames f .initial)
      (enterFunction machine.config m' maxFrames (f.relabel rename) .initial) :=
    Relabelling.alike_enterFunction hrename hecho hecho' hf 63 .initial #[] trivial
  unfold Machine.outcome
  unfold Machine.run at hends ⊢
  rw [hlookup] at hends ⊢
  rw [hlookup']
  dsimp only at hends ⊢
  generalize enterFunction machine.config m maxFrames f .initial = r at halike hends ⊢
  generalize enterFunction machine.config m' maxFrames (f.relabel rename) .initial = r'
    at halike ⊢
  cases halike with
  | ok _ _ => rfl
  | trap h _ =>
      rw [Trap.eq_of_anonymous_eq hends h]
      rfl

end Runs

end EchoLang
