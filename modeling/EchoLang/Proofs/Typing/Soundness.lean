import EchoLang.Proofs.Machine.Watch
import EchoLang.Proofs.Machine.Straight
import EchoLang.Proofs.Typing.Simplify

namespace EchoLang

open Exec Machine Watched

variable {n : Nat} {scopes : List Label} {kinds : List NumKind} {function : String}

section Operations

variable {s : State} {bad : Trap → State → Prop} {instr : String}

theorem ends_popFloat {good : Float32 → State → Prop}
    (h : s.stack.map Value.kind = .f32 :: kinds) (hslots : s.slots.size = n)
    (hgood : ∀ x t, t.stack.map Value.kind = kinds → t.slots.size = n → good x t) :
    Ends (popFloat instr) s good bad := by
  obtain ⟨stack, slots, frames, steps, printed, trace⟩ := s
  match stack, h with
  | .f32 x :: rest, h => exact hgood x _ (List.cons.inj h).2 hslots

theorem ends_popInt {good : Int32 → State → Prop}
    (h : s.stack.map Value.kind = .i32 :: kinds) (hslots : s.slots.size = n)
    (hgood : ∀ x t, t.stack.map Value.kind = kinds → t.slots.size = n → good x t) :
    Ends (popInt instr) s good bad := by
  obtain ⟨stack, slots, frames, steps, printed, trace⟩ := s
  match stack, h with
  | .i32 x :: rest, h => exact hgood x _ (List.cons.inj h).2 hslots

theorem ends_push (v : Value) (h : s.stack.map Value.kind = kinds) (hslots : s.slots.size = n) :
    Ends (push v) s
      (fun _ t => t.stack.map Value.kind = v.kind :: kinds ∧ t.slots.size = n) bad :=
  ⟨congrArg (v.kind :: ·) h, hslots⟩

-- An operation on operands of the right kinds traps only for what their values are.
theorem ends_run_of_operands {op : Operation} (hfits : op.Fits n)
    (hstack : s.stack.map Value.kind = op.operands ++ kinds) (hslots : s.slots.size = n) :
    Ends (op.run function) s
      (fun _ t => t.stack.map Value.kind = op.results ++ kinds ∧ t.slots.size = n)
      (fun trap _ => trap = .divisionByZero ∨ ∃ x, trap = .invalidConversion x) := by
  cases op with
  | floatConst bits => exact ends_push (.f32 bits.value) hstack hslots
  | intConst x => exact ends_push (.i32 x) hstack hslots
  | floatOp op =>
      apply ends_bind.mpr
      apply ends_popFloat hstack hslots
      intro b t ht htslots
      apply ends_bind.mpr
      apply ends_popFloat ht htslots
      intro a u hu huslots
      exact ends_push (.f32 (op.apply a b)) hu huslots
  | floatTest test =>
      apply ends_bind.mpr
      apply ends_popFloat hstack hslots
      intro b t ht htslots
      apply ends_bind.mpr
      apply ends_popFloat ht htslots
      intro a u hu huslots
      exact ends_push (.i32 (flag (test.holds a b))) hu huslots
  | intOp op =>
      apply ends_bind.mpr
      apply ends_popInt hstack hslots
      intro b t ht htslots
      apply ends_bind.mpr
      apply ends_popInt ht htslots
      intro a u hu huslots
      exact ends_push (.i32 (op.apply a b)) hu huslots
  | isZero =>
      apply ends_bind.mpr
      apply ends_popInt hstack hslots
      intro a t ht htslots
      exact ends_push (.i32 (flag (a = 0))) ht htslots
  | remainder =>
      apply ends_bind.mpr
      apply ends_popInt hstack hslots
      intro b t ht htslots
      apply ends_bind.mpr
      apply ends_popInt ht htslots
      intro a u hu huslots
      cases unsignedRemainder? a b with
      | some x => exact ends_push (.i32 x) hu huslots
      | none => exact .inl rfl
  | truncate =>
      apply ends_bind.mpr
      apply ends_popFloat hstack hslots
      intro a t ht htslots
      cases truncate? a with
      | some x => exact ends_push (.i32 x) ht htslots
      | none => exact .inr ⟨a, rfl⟩
  | saturate =>
      apply ends_bind.mpr
      apply ends_popFloat hstack hslots
      intro a t ht htslots
      exact ends_push (.i32 (saturate a)) ht htslots
  | ofSigned =>
      apply ends_bind.mpr
      apply ends_popInt hstack hslots
      intro a t ht htslots
      exact ends_push (.f32 (floatOfSigned a)) ht htslots
  | ofUnsigned =>
      apply ends_bind.mpr
      apply ends_popInt hstack hslots
      intro a t ht htslots
      exact ends_push (.f32 (floatOfUnsigned a)) ht htslots
  | get slot =>
      have hlt : slot < s.slots.size := hslots ▸ hfits
      apply ends_bind.mpr
      simp only [readSlot, ends_bind, ends_get, Array.getElem?_eq_getElem hlt, ends_pure]
      exact ends_push (.f32 s.slots[slot]) hstack hslots
  | set slot =>
      apply ends_bind.mpr
      apply ends_popFloat hstack hslots
      intro a t ht htslots
      have hlt : slot < t.slots.size := htslots ▸ hfits
      simp only [writeSlot, ends_bind, ends_get, if_pos hlt, ends_modify]
      exact ⟨ht, by rw [Array.size_setIfInBounds, htslots]⟩

end Operations

-- The traps that remain: the limit, and values that an operation has no result for.
def Trap.Expected (config : MachineConfig) : Trap → Prop
  | stepLimit limit => limit = config.maxSteps
  | divisionByZero | invalidConversion _ => True
  | _ => False

-- The watched state that code with these operands starts in.
structure Fitting (n : Nat) (kinds : List NumKind) (w : WatchedState) : Prop where
  stack : w.state.stack.map Value.kind = kinds
  slots : w.state.slots.size = n
  events : ∀ e ∈ w.events, e.stack = []

def Failed (config : MachineConfig) (trap : Trap) (w : WatchedState) : Prop :=
  trap.Expected config ∧ ∀ e ∈ w.events, e.stack = []

-- Code inside of scopes ends, or branches to one of them.
def Flow.Within (scopes : List Label) (flow : Flow) : Prop :=
  flow = .next ∨ ∃ label ∈ scopes, flow = .branch label

theorem Flow.Within.of_ne {flow : Flow} {label : Label} (h : flow.Within (label :: scopes))
    (hne : flow ≠ .branch label) : flow.Within scopes := by
  rcases h with hnext | ⟨target, htarget, hbranch⟩
  · exact .inl hnext
  · rcases List.mem_cons.mp htarget with heq | hmem
    · exact absurd (heq ▸ hbranch) hne
    · exact .inr ⟨target, hmem, hbranch⟩

-- Started with operands of these kinds, the code uses them up and runs to its end or
-- to a branch out of it, unless it traps for one of the reasons above.
def Sound (config : MachineConfig) (n : Nat) (scopes : List Label) (kinds : List NumKind)
    (c : Watched Flow) : Prop :=
  ∀ w, Fitting n kinds w → Ends c w
    (fun flow u => Fitting n [] u ∧ flow.Within scopes)
    (Failed config)

section Code

variable {config : MachineConfig} {m : CodeModule} {enter : FunctionDef → Watched Unit}
  {c body : Watched Flow} {label : Label} {w : WatchedState}

theorem ends_ofExec {α : Type} {c : Exec α} {good : α → WatchedState → Prop}
    {bad : Trap → WatchedState → Prop} :
    Ends (ofExec c) w good bad ↔
      Ends c w.state (fun a s => good a { w with state := s })
        (fun trap s => bad trap { w with state := s }) := by
  unfold Ends ofExec
  cases c w.state <;> rfl

theorem Fitting.congr {s : State} (h : Fitting n kinds w) (hstack : s.stack = w.state.stack)
    (hslots : s.slots = w.state.slots) : Fitting n kinds { w with state := s } :=
  ⟨hstack ▸ h.stack, hslots ▸ h.slots, h.events⟩

theorem sound_countStep (h : Sound config n scopes kinds c) :
    Sound config n scopes kinds (do ofExec (countStep config); c) := by
  intro w hw
  rw [ends_bind, ends_ofExec, ends_countStep]
  split
  · exact ⟨rfl, hw.events⟩
  · exact h _ (hw.congr rfl rfl)

theorem sound_record {i : Instr} (h : Sound config n scopes kinds c) :
    Sound config n scopes kinds (do ofExec (record config function i); c) := by
  intro w hw
  rw [ends_bind, ends_ofExec, ends_record]
  exact h _ (hw.congr rfl rfl)

theorem Fitting.stack_eq_nil (h : Fitting n [] w) : w.state.stack = [] :=
  List.map_eq_nil_iff.mp h.stack

-- At a border of a scope there are no operands to note.
theorem Fitting.note {moment : ScopeMoment} (h : Fitting n [] w) :
    Fitting n [] { w with events := w.events ++ [⟨moment, label, w.state.stack⟩] } := by
  refine ⟨h.stack, h.slots, ?_⟩
  intro e he
  rcases List.mem_append.mp he with he | he
  · exact h.events e he
  · rw [List.mem_singleton.mp he]
    exact h.stack_eq_nil

theorem Fitting.cut (h : Fitting n [] w) (height : Nat) :
    Fitting n [] { w with state := Machine.cut height w.state } := by
  refine ⟨?_, h.slots, h.events⟩
  simp [Machine.cut, h.stack_eq_nil]

theorem sound_watchBlock (hb : Sound config n (label :: scopes) [] body) :
    Sound config n scopes [] (watchBlock label body) := by
  intro w hw
  unfold watchBlock note
  simp only [ends_bind, ends_modify, ends_get, ends_ofExec, ends_leaveBlock]
  refine (hb _ hw.note).imp ?_ fun _ _ h => h
  intro flow u hu
  obtain ⟨hu, hflow⟩ := hu
  by_cases hlabel : flow = .branch label
  · rw [if_pos hlabel]
    exact ⟨hu.note.cut _, .inl rfl⟩
  · rw [if_neg hlabel]
    exact ⟨hu.note, hflow.of_ne hlabel⟩

-- By induction on the rounds, each of which ends where the next one can start.
theorem sound_watchRounds (hb : Sound config n (label :: scopes) [] body) (height rounds : Nat) :
    Sound config n scopes [] (watchRounds config label height body rounds) := by
  induction rounds with
  | zero =>
      intro w hw
      exact ⟨rfl, hw.events⟩
  | succ rounds ih =>
      intro w hw
      rw [watchRounds, ends_bind]
      refine (hb w hw).imp ?_ fun _ _ h => h
      intro flow u hu
      obtain ⟨hu, hflow⟩ := hu
      by_cases hlabel : flow = .branch label
      · rw [if_pos hlabel]
        exact ih _ (hu.note.cut height)
      · rw [if_neg hlabel]
        exact ⟨hu.note, hflow.of_ne hlabel⟩

theorem sound_watchLoop (hb : Sound config n (label :: scopes) [] body) :
    Sound config n scopes [] (watchLoop config label body) := by
  intro w hw
  exact sound_watchRounds hb _ _ _ hw.note

-- One instruction that leaves operands for the code behind it.
theorem sound_cons {i : Instr} {rest : List Instr} {between : List NumKind}
    (hi : ∀ w, Fitting n kinds w → Ends (watchInstr config m enter function i) w
      (fun flow u => (flow = .next ∧ Fitting n between u) ∨
        (Fitting n [] u ∧ ∃ label ∈ scopes, flow = .branch label)) (Failed config))
    (hrest : Sound config n scopes between (watchBody config m enter function rest)) :
    Sound config n scopes kinds (watchBody config m enter function (i :: rest)) := by
  intro w hw
  rw [watchBody, ends_bind]
  refine (hi w hw).imp ?_ fun _ _ h => h
  intro flow u hu
  rcases hu with ⟨hflow, hu⟩ | ⟨hu, label, hlabel, hflow⟩
  · subst hflow
    exact hrest u hu
  · subst hflow
    exact ⟨hu, .inr ⟨label, hlabel, rfl⟩⟩

theorem sound_cons_of_sound {i : Instr} {rest : List Instr}
    (hi : Sound config n scopes kinds (watchInstr config m enter function i))
    (hrest : Sound config n scopes [] (watchBody config m enter function rest)) :
    Sound config n scopes kinds (watchBody config m enter function (i :: rest)) := by
  refine sound_cons ?_ hrest
  intro w hw
  refine (hi w hw).imp ?_ fun _ _ h => h
  intro flow u hu
  obtain ⟨hu, hnext | hbranch⟩ := hu
  · exact .inl ⟨hnext, hu⟩
  · exact .inr ⟨hu, hbranch⟩

-- Code that keeps to the rules.
theorem sound_of_typed (hecho : m.effect? Effect.echo.name = some .echo) {code : List Instr}
    (h : Typed n scopes kinds code) :
    Sound config n scopes kinds (watchBody config m enter function code) := by
  induction h with
  | nil =>
      intro w hw
      rw [watchBody]
      exact ⟨hw, .inl rfl⟩
  | operate hfits later ih =>
      refine sound_cons ?_ ih
      intro w hw
      rw [watchInstr, ends_ofExec, ends_operate]
      split
      · exact ⟨rfl, hw.events⟩
      · refine (ends_run_of_operands (s := { w.state with steps := w.state.steps + 1 }) hfits
          hw.stack hw.slots).imp ?_ ?_
        · intro _ t ht
          exact .inl ⟨rfl, ht.1, ht.2, hw.events⟩
        · intro trap t ht
          rcases ht with htrap | ⟨x, htrap⟩
          · subst htrap
            exact ⟨trivial, hw.events⟩
          · subst htrap
            exact ⟨trivial, hw.events⟩
  | echo later ih =>
      refine sound_cons ?_ ih
      intro w hw
      rw [watchInstr, ends_bind, ends_ofExec, ends_countStep]
      split
      · exact ⟨rfl, hw.events⟩
      · have hcall : watchCall m enter Effect.echo.name =
            ofExec (do print (← popFloat (Instr.call Effect.echo.name).mnemonic)) := by
          simp [watchCall, callNamed, hecho]
        rw [hcall]
        simp only [ends_bind, ends_ofExec]
        apply ends_popFloat (s := { w.state with steps := w.state.steps + 1 }) hw.stack hw.slots
        intro x t ht htslots
        change Ends (record config function _) _ _ _
        rw [ends_record]
        exact .inl ⟨rfl, ht, htslots, hw.events⟩
  | block inner later ihInner ihLater =>
      refine sound_cons_of_sound ?_ ihLater
      rw [watchInstr]
      exact sound_countStep (sound_record (sound_watchBlock ihInner))
  | loop inner later ihInner ihLater =>
      refine sound_cons_of_sound ?_ ihLater
      rw [watchInstr]
      exact sound_countStep (sound_record (sound_watchLoop ihInner))
  | branch hlabel =>
      refine sound_cons_of_sound ?_ fun w hw => ⟨hw, .inl rfl⟩
      intro w hw
      rw [watchInstr, execInstr]
      simp only [ends_ofExec, ends_bind, ends_countStep, ends_record, ends_pure]
      split
      · exact ⟨rfl, hw.events⟩
      · exact ⟨hw.congr rfl rfl, .inr ⟨_, hlabel, rfl⟩⟩
  | @branchIf _ label _ hlabel later ih =>
      refine sound_cons_of_sound ?_ ih
      intro w hw
      rw [watchInstr, execInstr]
      simp only [ends_ofExec, ends_bind, ends_countStep]
      split
      · exact ⟨rfl, hw.events⟩
      · apply ends_popInt (s := { w.state with steps := w.state.steps + 1 }) hw.stack hw.slots
        intro x t ht htslots
        simp only [ends_record, ends_pure]
        refine ⟨⟨ht, htslots, hw.events⟩, ?_⟩
        split
        · exact .inl rfl
        · exact .inr ⟨label, hlabel, rfl⟩

end Code

-- The run did not go wrong: at its end there are no operands left.
def EndsWell (config : MachineConfig) : Option Trap → State → Prop
  | none, s => s.stack = []
  | some trap, _ => trap.Expected config

theorem ends_watchFunction {config : MachineConfig} {m : CodeModule} {f : FunctionDef}
    (hecho : m.effect? Effect.echo.name = some .echo) (hf : f.Typed) (left : Nat) :
    Ends (watchFunction config m (left + 1) f) ⟨.initial, []⟩
      (fun _ w => EndsWell config none w.state ∧ ∀ e ∈ w.events, e.stack = [])
      (fun trap w => EndsWell config (some trap) w.state ∧ ∀ e ∈ w.events, e.stack = []) := by
  have hbody : Sound config _ [] []
      (watchBody config m (watchFunction config m left) f.name f.body) :=
    sound_of_typed hecho hf
  have hstart : Fitting f.locals.length []
      ⟨{ State.initial with slots := Array.replicate f.locals.length 0, frames := 0 + 1 }, []⟩ :=
    ⟨rfl, Array.size_replicate, by simp⟩
  rw [watchFunction, ends_bind, ends_watchFrame]
  refine (hbody _ hstart).imp ?_ ?_
  · intro flow w hw
    obtain ⟨hw, hnext | ⟨label, hlabel, _⟩⟩ := hw
    · subst hnext
      exact ⟨hw.stack_eq_nil, hw.events⟩
    · cases hlabel
  · intro trap w hw
    exact hw

-- Lowered code, simplified or not, never goes wrong. It runs to its end and leaves no
-- operands, or stops at its limit or at a value that an operation has no result for.
-- No operands are there when a scope is entered, restarted or left, so that a branch
-- drops none.
theorem run_lowered_endsWell {target : Target} {unit : String} {p : Program} {m : CodeModule}
    (hadd : (CodeModule.empty unit).addProgram target p = (m, none)) (optimize : Bool)
    {f : FunctionDef} (hf : f ∈ (m.simplifyIf optimize).functions) (machine : Machine) :
    EndsWell machine.config (machine.run (m.simplifyIf optimize) f.name).1
        (machine.run (m.simplifyIf optimize) f.name).2.state ∧
      (machine.watch (m.simplifyIf optimize) f.name).1 =
        machine.run (m.simplifyIf optimize) f.name ∧
      ∀ e ∈ (machine.watch (m.simplifyIf optimize) f.name).2, e.stack = [] := by
  have hlowered := lowered_of_addProgram hadd
  have hecho : (m.simplifyIf optimize).effect? Effect.echo.name = some .echo := by
    rw [CodeModule.effect?, m.imports_simplifyIf optimize]
    exact hlowered.effect?_echo
  have hlookup : (m.simplifyIf optimize).function? f.name = some f := by
    apply CodeModule.function?_of_mem _ hf
    rw [m.names_simplifyIf optimize]
    exact hlowered.names
  have hwatch := ends_watch
    (fun trap s events => EndsWell machine.config trap s ∧ ∀ e ∈ events, e.stack = [])
    machine hlookup (ends_watchFunction hecho (hlowered.typed optimize f hf) 63)
  have hsame := watch_fst machine (m.simplifyIf optimize) f.name
  rw [hsame] at hwatch
  exact ⟨hwatch.1, hsame, hwatch.2⟩

-- A loop that has no end.
def spinProgram : Program :=
  [.procedure "spin" false [.loop (.number 1 .start) [.echo (.number 2 .start) .start] .start]
    .start]

theorem run_lowered_endsWell_spin :
    ∃ m f, (CodeModule.empty "demo").addProgram .listing spinProgram = (m, none) ∧
      f ∈ (m.simplifyIf true).functions ∧
      ∀ machine : Machine,
        EndsWell machine.config (machine.run (m.simplifyIf true) f.name).1
            (machine.run (m.simplifyIf true) f.name).2.state ∧
          ∀ e ∈ (machine.watch (m.simplifyIf true) f.name).2, e.stack = [] := by
  obtain ⟨m, f, hm, hf⟩ : ∃ m f,
      (CodeModule.empty "demo").addProgram .listing spinProgram = (m, none) ∧
        f ∈ (m.simplifyIf true).functions := ⟨_, _, rfl, .head _⟩
  refine ⟨m, f, hm, hf, fun machine => ?_⟩
  have hends := run_lowered_endsWell hm true hf machine
  exact ⟨hends.1, hends.2.2⟩

end EchoLang
