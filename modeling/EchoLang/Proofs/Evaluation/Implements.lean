import EchoLang.Proofs.Evaluation.Expressions
import EchoLang.Proofs.Machine.Advance
import Mathlib.Tactic.ByContra

namespace EchoLang

open Machine Exec Evaluation

namespace Evaluation

variable {first second : Evaluation} {mem next : Memory} {fault : Fault} {value : Expr}
  {use : Datum → Evaluation} {d : Datum}

theorem andThen_of_finished (h : first mem = some (next, none)) :
    first.andThen second mem = second next := by
  simp [andThen, h]

theorem andThen_of_fault (h : first mem = some (next, some fault)) :
    first.andThen second mem = some (next, some fault) := by
  simp [andThen, h]

theorem andThen_of_none (h : first mem = none) : first.andThen second mem = none := by
  simp [andThen, h]

theorem withValue_of_ok (h : value.eval mem.vars = .ok d) :
    withValue value use mem = use d mem := by
  simp only [withValue, h]

theorem withValue_of_error (h : value.eval mem.vars = .error fault) :
    withValue value use mem = some (mem, some fault) := by
  simp only [withValue, h]

end Evaluation

-- What the code of a procedure runs in. The slots are those of the whole
-- procedure, which each part of it knows a beginning of.
structure Setting where
  module : CodeModule
  enter : MachineConfig → FunctionDef → Exec Unit
  function : String
  slots : Slots
  echo_imported : module.effect? Effect.echo.name = some .echo
  advances : ∀ config f, Advances config (enter config f)

namespace Setting

variable {S : Setting} {config : MachineConfig} {s s' t : State} {mem : Memory}
  {outcome : Option (Memory × Option Fault)} {n k : Nat}

def exec (S : Setting) (config : MachineConfig) (code : List Instr) : Exec Flow :=
  execBody config S.module (S.enter config) S.function code

theorem exec_append (first second : List Instr) :
    S.exec config (first ++ second) =
      S.exec config first >>= continueWith (S.exec config second) :=
  execBody_append first second

theorem exec_cons (i : Instr) (rest : List Instr) :
    S.exec config (i :: rest) = S.exec config [i] >>= continueWith (S.exec config rest) :=
  execBody_append [i] rest

theorem exec_progresses (code : List Instr) : Progresses config (S.exec config code) :=
  execBody_progresses (S.advances config) code

-- The state holds the variables and has printed the prints of the memory.
structure Represents (S : Setting) (mem : Memory) (s : State) : Prop where
  slots : S.slots.Hold mem.vars s
  printed : s.printed.toList = mem.printed

theorem Represents.congr (h : S.Represents mem s) (hslots : t.slots = s.slots)
    (hprinted : t.printed = s.printed) : S.Represents mem t := by
  refine ⟨?_, by rw [hprinted, h.printed]⟩
  intro name slot hslot
  rw [hslots]
  exact h.slots name slot hslot

-- The evaluation has ended well, and so has the code that was started in `s`.
structure Finished (S : Setting) (outcome : Option (Memory × Option Fault)) (n : Nat)
    (s t : State) : Prop where
  steps_le : t.steps ≤ s.steps + n
  stack_eq : t.stack = s.stack
  memory : ∃ mem, outcome = some (mem, none) ∧ S.Represents mem t

-- The code has trapped, at the fault of the evaluation or for want of steps. If
-- the evaluation ends then there were fewer steps left than `n`.
def Stopped (config : MachineConfig) (outcome : Option (Memory × Option Fault)) (n : Nat)
    (s : State) (trap : Trap) (t : State) : Prop :=
  (trap = .stepLimit config.maxSteps ∧ (outcome ≠ none → config.maxSteps < s.steps + n)) ∨
    ∃ fault mem, trap = fault.trap ∧ outcome = some (mem, some fault) ∧
      t.printed.toList = mem.printed

theorem Finished.mono (h : S.Finished outcome n s' t) (hsteps : s'.steps + n ≤ s.steps + k)
    (hstack : s'.stack = s.stack) : S.Finished outcome k s t :=
  ⟨Nat.le_trans h.steps_le hsteps, h.stack_eq.trans hstack, h.memory⟩

theorem Stopped.mono {trap : Trap} (h : Stopped config outcome n s' trap t)
    (hsteps : s'.steps + n ≤ s.steps + k) : Stopped config outcome k s trap t := by
  refine h.imp ?_ id
  rintro ⟨htrap, hlimit⟩
  exact ⟨htrap, fun hend => Nat.lt_of_lt_of_le (hlimit hend) hsteps⟩

theorem stopped_of_limit {trap : Trap} (htrap : trap = .stepLimit config.maxSteps)
    (hlimit : config.maxSteps < s.steps + n) : Stopped config outcome n s trap t :=
  .inl ⟨htrap, fun _ => hlimit⟩

-- The code of a value has trapped, at the fault of the value or for want of steps.
-- It prints nothing.
def Interrupted (config : MachineConfig) (x : Except Fault Datum) (n : Nat) (s : State)
    (trap : Trap) (t : State) : Prop :=
  t.printed = s.printed ∧
    ((trap = .stepLimit config.maxSteps ∧ config.maxSteps < s.steps + n) ∨
      ∃ fault, x = .error fault ∧ trap = fault.trap)

-- A value that has a fault ends the evaluation that needs it.
theorem Interrupted.stopped {x : Except Fault Datum} {trap : Trap}
    (h : Interrupted config x n s' trap t) (hs : S.Represents mem s')
    (hfault : ∀ fault, x = .error fault → outcome = some (mem, some fault))
    (hsteps : s'.steps + n ≤ s.steps + k) : Stopped config outcome k s trap t := by
  obtain ⟨hprinted, ⟨htrap, hlimit⟩ | ⟨fault, hx, htrap⟩⟩ := h
  · exact stopped_of_limit htrap (by omega)
  · exact .inr ⟨fault, mem, htrap, hfault fault hx, by rw [hprinted, hs.printed]⟩

-- From each memory, some number of steps is enough for the code to end as the
-- evaluation does. With fewer steps, or if the evaluation does not end, nothing
-- but the limit can stop it before.
def Implements (S : Setting) (code : List Instr) (e : Evaluation) : Prop :=
  ∀ mem, ∃ n, ∀ config s, s.steps ≤ config.maxSteps → S.Represents mem s →
    Ends (S.exec config code) s
      (fun flow t => flow = .next ∧ S.Finished (e mem) n s t)
      (Stopped config (e mem) n s)

theorem implements_nil : S.Implements [] done := by
  intro mem
  refine ⟨0, fun config s hle hs => ?_⟩
  exact ⟨rfl, Nat.le_refl _, rfl, mem, rfl, hs⟩

theorem Implements.append {first second : List Instr} {e e' : Evaluation}
    (h : S.Implements first e) (h' : S.Implements second e') :
    S.Implements (first ++ second) (e.andThen e') := by
  intro mem
  obtain ⟨n, hn⟩ := h mem
  -- the second part starts in the memory that the first one leaves
  have hsecond : ∃ k, ∀ next, e mem = some (next, none) → ∀ config s,
      s.steps ≤ config.maxSteps → S.Represents next s → Ends (S.exec config second) s
        (fun flow t => flow = .next ∧ S.Finished (e' next) k s t)
        (Stopped config (e' next) k s) := by
    cases hfirst : e mem with
    | none => exact ⟨0, fun next hnext => by cases hnext⟩
    | some r =>
        obtain ⟨k, hk⟩ := h' r.1
        refine ⟨k, ?_⟩
        rintro next hnext
        cases hnext
        exact hk
  obtain ⟨k, hk⟩ := hsecond
  refine ⟨n + k, fun config s hle hs => ?_⟩
  rw [exec_append, ends_bind]
  refine ((hn config s hle hs).and (exec_progresses first s)).imp ?_ ?_
  · rintro flow t ⟨⟨rfl, hfin⟩, hadvance, _⟩
    obtain ⟨next, hnext, hrep⟩ := hfin.memory
    have hsteps := hfin.steps_le
    rw [andThen_of_finished hnext]
    refine (hk next hnext config t (hadvance.within hle) hrep).imp ?_ ?_
    · rintro flow u ⟨hflow, hu⟩
      exact ⟨hflow, hu.mono (by omega) hfin.stack_eq⟩
    · intro trap u hu
      exact hu.mono (by omega)
  · rintro trap t ⟨⟨htrap, hlimit⟩ | ⟨fault, next, htrap, hnext, hprinted⟩, _⟩
    · refine .inl ⟨htrap, fun hend => ?_⟩
      have hfirst : e mem ≠ none := fun hnone => hend (andThen_of_none hnone)
      have hlt := hlimit hfirst
      omega
    · exact .inr ⟨fault, next, htrap, andThen_of_fault hnext, hprinted⟩

-- Straight code that computes a value.
theorem ends_of_yields {code : List Operation} {x : Except Fault Datum}
    (h : Yields s x (runAll S.function code s)) :
    Ends (S.exec config (straight code)) s
      (fun flow t => flow = .next ∧ ∃ d trace, x = .ok d ∧
        t = { s.push d.value with steps := s.steps + code.length, trace := trace })
      (Interrupted config x code.length s) := by
  refine (ends_straight code s s).imp ?_ ?_
  · rintro flow t ⟨hflow, w, trace, hw, rfl⟩
    refine ⟨hflow, ?_⟩
    cases x with
    | ok d =>
        rw [show runAll S.function code s = .ok () (s.push d.value) from h] at hw
        cases hw
        exact ⟨d, trace, rfl, rfl⟩
    | error fault =>
        obtain ⟨u, hu⟩ := h
        rw [hu] at hw
        cases hw
  · rintro trap t ⟨hprinted, hcause⟩
    refine ⟨hprinted, hcause.imp id ?_⟩
    rintro ⟨w, hw⟩
    cases x with
    | ok d =>
        rw [show runAll S.function code s = .ok () (s.push d.value) from h] at hw
        cases hw
    | error fault =>
        obtain ⟨u, hu⟩ := h
        rw [hu] at hw
        cases hw
        exact ⟨fault, rfl, rfl⟩

theorem hold_of_represents {slots : Slots} (hext : S.slots.Extends slots)
    (hs : S.Represents mem s) : slots.Hold mem.vars s :=
  fun name slot hslot => hs.slots name slot (Slots.resolve?_of_extends hext hslot)

-- The code of a value leaves the value in the shape that its use needs.
theorem ends_lowerAs {slots : Slots} {value : Expr} {shape : Shape} {code : List Operation}
    (hvalue : value.lowerAs slots shape = .ok code) (hext : S.slots.Extends slots)
    (hs : S.Represents mem s) :
    Ends (S.exec config (straight code)) s
      (fun flow t => flow = .next ∧ ∃ d trace, value.eval mem.vars = .ok d ∧
        t = { s.push (d.convertTo shape).value with
          steps := s.steps + code.length, trace := trace })
      (Interrupted config (value.eval mem.vars) code.length s) := by
  have hy := Expr.yields_lowerAs S.function hvalue (hold_of_represents hext hs)
  refine (ends_of_yields hy).imp ?_ ?_
  · rintro flow t ⟨hflow, d, trace, hd, ht⟩
    refine ⟨hflow, ?_⟩
    cases hv : value.eval mem.vars with
    | error fault => rw [hv] at hd; cases hd
    | ok v =>
        rw [hv] at hd
        cases hd
        exact ⟨v, trace, rfl, ht⟩
  · rintro trap t ⟨hprinted, hcause⟩
    refine ⟨hprinted, hcause.imp id ?_⟩
    rintro ⟨fault, hfault, htrap⟩
    cases hv : value.eval mem.vars with
    | ok v => rw [hv] at hfault; cases hfault
    | error own =>
        rw [hv] at hfault
        cases hfault
        exact ⟨fault, rfl, htrap⟩

-- A value, and code that uses it up.
theorem implements_withValue {slots : Slots} {value : Expr} {shape : Shape}
    {code : List Operation} {rest : List Instr} {use : Datum → Evaluation}
    (hvalue : value.lowerAs slots shape = .ok code) (hext : S.slots.Extends slots)
    (hrest : ∀ config s mem d, S.Represents mem s →
      Ends (S.exec config rest) (s.push (d.convertTo shape).value)
        (fun flow t => flow = .next ∧ S.Finished (use d mem) n s t)
        (Stopped config (use d mem) n s)) :
    S.Implements (straight code ++ rest) (withValue value use) := by
  intro mem
  refine ⟨code.length + n, fun config s hle hs => ?_⟩
  rw [exec_append, ends_bind]
  refine (ends_lowerAs hvalue hext hs).imp ?_ ?_
  · rintro flow t ⟨rfl, d, trace, hd, rfl⟩
    rw [withValue_of_ok hd]
    have hsteps : s.steps + code.length + n ≤ s.steps + (code.length + n) := by omega
    refine (hrest config { s with steps := s.steps + code.length, trace := trace } mem d
      (hs.congr rfl rfl)).imp ?_ ?_
    · rintro flow t ⟨hflow, hfin⟩
      exact ⟨hflow, hfin.mono hsteps rfl⟩
    · intro trap t hstop
      exact hstop.mono hsteps
  · intro trap t ht
    exact ht.stopped hs (fun fault => withValue_of_error) (by omega)

theorem implements_echo {slots : Slots} {value : Expr} {code : List Operation}
    (hvalue : value.lowerAs slots .float = .ok code) (hext : S.slots.Extends slots) :
    S.Implements (straight code ++ [.call Effect.echo.name])
      (withValue value fun d mem => some (mem.print d.toFloat, none)) := by
  refine implements_withValue (n := 1) hvalue hext fun config s mem d hs => ?_
  unfold exec
  rw [execBody_singleton, execInstr_eq, ends_bind, ends_countStep]
  split
  · rename_i hlimit
    exact stopped_of_limit rfl (show config.maxSteps < s.steps + 1 from hlimit ▸ Nat.lt_succ_self _)
  · simp only [perform, callNamed, S.echo_imported, ends_bind, ends_record, ends_pure]
    refine ⟨trivial, Nat.le_refl _, rfl, _, rfl, hs.slots, ?_⟩
    simp [Memory.print, State.push, hs.printed]

-- Writing the slot of a variable changes this variable and no other.
theorem Represents.assign {name : String} {slot : Nat} {x : Float32}
    (hs : S.Represents mem s) (hslot : S.slots.resolve? name = some slot)
    (hslots : t.slots = s.slots.setIfInBounds slot x) (hprinted : t.printed = s.printed) :
    S.Represents (mem.assign name x) t := by
  refine ⟨?_, by rw [hprinted, hs.printed]; rfl⟩
  intro other slot' hslot'
  have hold := hs.slots other slot' hslot'
  rw [hslots]
  by_cases hname : other = name
  · subst hname
    rw [hslot] at hslot'
    cases hslot'
    have hlt : slot < s.slots.size := by
      by_contra hge
      rw [Array.getElem?_eq_none (by omega)] at hold
      cases hold
    simp [Memory.assign, Array.getElem?_setIfInBounds_self_of_lt hlt]
  · have hne : slot ≠ slot' := by
      rintro rfl
      exact hname (Slots.resolve?_inj hslot' hslot)
    rw [Array.getElem?_setIfInBounds_ne hne, hold]
    simp [Memory.assign, hname]

theorem implements_set {slots : Slots} {name : String} {slot : Nat} {value : Expr}
    {code : List Operation} (hvalue : value.lowerAs slots .float = .ok code)
    (hext : S.slots.Extends slots) (hslot : S.slots.resolve? name = some slot) :
    S.Implements (straight (code ++ [.set slot]))
      (withValue value fun d mem => some (mem.assign name d.toFloat, none)) := by
  rw [show straight (code ++ [.set slot]) = straight code ++ [.operate (.set slot)] by
    simp [straight]]
  refine implements_withValue (n := 1) hvalue hext fun config s mem d hs => ?_
  unfold exec
  rw [execBody_singleton, ends_operate]
  split
  · rename_i hlimit
    exact stopped_of_limit rfl (show config.maxSteps < s.steps + 1 from hlimit ▸ Nat.lt_succ_self _)
  · have hlt : slot < s.slots.size := by
      have hold := hs.slots name slot hslot
      by_contra hge
      rw [Array.getElem?_eq_none (by omega)] at hold
      cases hold
    have hrun : (Operation.set slot).run S.function
          { s.push (d.convertTo .float).value with steps := s.steps + 1 } =
        .ok () { s with
          slots := s.slots.setIfInBounds slot d.toFloat, steps := s.steps + 1 } := by
      change (Exec.writeSlot S.function slot d.toFloat) { s with steps := s.steps + 1 } = _
      simp only [Exec.writeSlot, bind, EStateM.bind, Machine.get_apply, hlt, if_true]
      rfl
    unfold Ends
    simp only [State.push] at hrun ⊢
    rw [hrun]
    exact ⟨trivial, Nat.le_refl _, rfl, _, rfl, hs.assign hslot rfl rfl⟩

end Setting

end EchoLang
