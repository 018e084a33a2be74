import EchoLang.Proofs.Except
import EchoLang.Proofs.Machine.Alike
import EchoLang.Wasm.Encode

namespace EchoLang

namespace Depths

-- Code with depths. Its labels show in traces and traps, and no branch looks at them.
inductive Code where
  | operate (op : Operation)
  | call (name : String)
  | block (label : Label) (body : List Code)
  | loop (label : Label) (body : List Code)
  | branch (depth : Nat) (label : Label)
  | branchIf (depth : Nat) (label : Label)

mutual

-- An instruction inside of the given scopes, with the depths of its branches.
def ofInstr (scopes : List Label) : Instr → Except CompileError Code
  | .operate op => .ok (.operate op)
  | .call name => .ok (.call name)
  | .block label body => .block label <$> ofBody (label :: scopes) body
  | .loop label body => .loop label <$> ofBody (label :: scopes) body
  | .branch label => (.branch · label) <$> Wasm.branchDepth scopes label
  | .branchIf label => (.branchIf · label) <$> Wasm.branchDepth scopes label

def ofBody (scopes : List Label) : List Instr → Except CompileError (List Code)
  | [] => .ok []
  | i :: rest => do
    let first ← ofInstr scopes i
    let others ← ofBody scopes rest
    return first :: others

end

-- How code ends if it does not trap: at its end, or with a branch that has as many
-- scopes to leave before the one that it is for.
inductive Exit where
  | next
  | leave (depth : Nat)
deriving DecidableEq

open Comparison Machine

-- What a scope makes of the end of its body. A branch to this scope drops the operands
-- above the entry height and goes on, and any other branch has left one scope more.
def land (height : Nat) (goOn : Exec Exit) : Exit → Exec Exit
  | .next => return .next
  | .leave 0 => do
    truncateTo height
    goOn
  | .leave (depth + 1) => return .leave depth

def runBlock (body : Exec Exit) : Exec Exit := do
  let height := (← get).stack.length
  body >>= land height (return .next)

def repeatLoop (config : MachineConfig) (height : Nat) (body : Exec Exit) : Nat → Exec Exit
  | 0 => throw (.stepLimit config.maxSteps)
  | rounds + 1 => body >>= land height (repeatLoop config height body rounds)

def runLoop (config : MachineConfig) (body : Exec Exit) : Exec Exit := do
  let s ← get
  repeatLoop config s.stack.length body (config.maxSteps - s.steps + 1)

mutual

def execCode (config : MachineConfig) (m : CodeModule) (enter : FunctionDef → Exec Unit)
    (function : String) : Code → Exec Exit
  | .block label body => do
    countStep config
    record config function (.block label [])
    runBlock (execAll config m enter function body)
  | .loop label body => do
    countStep config
    record config function (.loop label [])
    runLoop config (execAll config m enter function body)
  | .branch depth label => do
    countStep config
    record config function (.branch label)
    return .leave depth
  | .branchIf depth label => do
    countStep config
    let n ← Exec.popInt (Instr.branchIf label).mnemonic
    record config function (.branchIf label)
    return if n = 0 then .next else .leave depth
  | .call name => do
    countStep config
    callNamed m enter name
    record config function (.call name)
    return .next
  | .operate op => do
    countStep config
    op.run function
    record config function (.operate op)
    return .next

def execAll (config : MachineConfig) (m : CodeModule) (enter : FunctionDef → Exec Unit)
    (function : String) : List Code → Exec Exit
  | [] => return .next
  | c :: rest => do
    match ← execCode config m enter function c with
    | .next => execAll config m enter function rest
    | .leave depth => return .leave depth

end

-- Runs a function of a module, where `code` has the code of each function. A branch
-- that leaves all scopes ends the function.
def enterFunction (config : MachineConfig) (m : CodeModule) (code : FunctionDef → List Code) :
    Nat → FunctionDef → Exec Unit
  | 0, _ => throw (.callStackOverflow maxFrames)
  | left + 1, f => do
    let slots := Array.replicate f.locals.length 0
    let _ ← inFrame slots do
      let _ ← execAll config m (enterFunction config m code left) f.name (code f)
      return .next
    return

def run (machine : Machine) (m : CodeModule) (code : FunctionDef → List Code) (entry : String) :
    Option Trap × Machine :=
  match m.function? entry with
  | none => (some (.unknownFunction entry), new machine.config)
  | some f =>
    match enterFunction machine.config m code maxFrames f .initial with
    | .ok _ s => (none, { machine with state := s })
    | .error trap s => (some trap, { machine with state := s })

section Encoded

variable {names : List String}

mutual

theorem exists_ofInstr : ∀ (i : Instr) {scopes : List Label} {bytes : Wasm.Bytes},
    Wasm.encodeInstr names scopes i = .ok bytes → ∃ c, ofInstr scopes i = .ok c
  | .operate op, _, _, _ => ⟨_, rfl⟩
  | .call name, _, _, _ => ⟨_, rfl⟩
  | .block label body, scopes, bytes, h => by
      obtain ⟨inner, hinner, -⟩ := exists_of_bind_eq_ok h
      obtain ⟨code, hcode⟩ := exists_ofBody body hinner
      exact ⟨.block label code, by rw [ofInstr, hcode]; rfl⟩
  | .loop label body, scopes, bytes, h => by
      obtain ⟨inner, hinner, -⟩ := exists_of_bind_eq_ok h
      obtain ⟨code, hcode⟩ := exists_ofBody body hinner
      exact ⟨.loop label code, by rw [ofInstr, hcode]; rfl⟩
  | .branch label, scopes, bytes, h => by
      obtain ⟨depth, hdepth, -⟩ := exists_of_bind_eq_ok h
      exact ⟨.branch depth label, by rw [ofInstr, hdepth]; rfl⟩
  | .branchIf label, scopes, bytes, h => by
      obtain ⟨depth, hdepth, -⟩ := exists_of_bind_eq_ok h
      exact ⟨.branchIf depth label, by rw [ofInstr, hdepth]; rfl⟩

-- Where a body is encoded, all its depths are known.
theorem exists_ofBody : ∀ (body : List Instr) {scopes : List Label} {bytes : Wasm.Bytes},
    Wasm.encodeBody names scopes body = .ok bytes → ∃ code, ofBody scopes body = .ok code
  | [], _, _, _ => ⟨[], rfl⟩
  | i :: rest, scopes, bytes, h => by
      rw [Wasm.encodeBody] at h
      obtain ⟨first, hfirst, h⟩ := exists_of_bind_eq_ok h
      obtain ⟨others, hothers, -⟩ := exists_of_bind_eq_ok h
      obtain ⟨c, hc⟩ := exists_ofInstr i hfirst
      obtain ⟨code, hcode⟩ := exists_ofBody rest hothers
      exact ⟨c :: code, by rw [ofBody, hc, hcode]; rfl⟩

end

end Encoded

section Exactly

variable {α β γ : Type} {rel : α → β → Prop}

-- Nothing differs but the way in which branches are told.
def exactly : Comparison := ⟨Eq, Eq, fun _ => rfl⟩

theorem alike_self (c : Exec α) : exactly.Alike Eq c c := by
  rintro s _ rfl
  cases c s with
  | ok a t => exact .ok rfl rfl
  | error trap t => exact .trap rfl rfl

-- After the same computation.
theorem alike_after (c : Exec γ) {f : γ → Exec α} {f' : γ → Exec β}
    (h : ∀ a, exactly.Alike rel (f a) (f' a)) : exactly.Alike rel (c >>= f) (c >>= f') :=
  (alike_self c).after h

theorem eq_of_alike {c c' : Exec α} (h : exactly.Alike Eq c c') : c = c' := by
  funext s
  have hs : exactly.SameEnd Eq (c s) (c' s) := h s s.trace rfl
  generalize c s = r at hs ⊢
  generalize c' s = r' at hs ⊢
  cases hs with
  | ok h htrace =>
      cases h
      cases htrace
      rfl
  | trap h htrace =>
      cases h
      cases htrace
      rfl

end Exactly

section Agreement

variable {config : MachineConfig} {m : CodeModule} {enter enter' : FunctionDef → Exec Unit}
  {function : String} {scopes : List Label} {label : Label}

-- Inside of the scopes, a branch to a label is one by the depth of that label.
inductive Agrees (scopes : List Label) : Flow → Exit → Prop where
  | next : Agrees scopes .next .next
  | branch {label : Label} {depth : Nat} (h : Wasm.branchDepth scopes label = .ok depth) :
      Agrees scopes (.branch label) (.leave depth)

theorem eq_next_of_agrees {flow : Flow} {exit : Exit} (h : Agrees [] flow exit) : flow = .next := by
  cases h with
  | next => rfl
  | branch h => cases h

-- Seen from inside of one scope more, a label is that scope's own, or all its other
-- scopes are one further away.
theorem branchDepth_cons {target : Label} {depth : Nat}
    (h : Wasm.branchDepth (label :: scopes) target = .ok depth) :
    (target = label ∧ depth = 0) ∨
      (target ≠ label ∧
        ∃ outer, depth = outer + 1 ∧ Wasm.branchDepth scopes target = .ok outer) := by
  unfold Wasm.branchDepth at h ⊢
  rw [List.idxOf?_cons] at h
  by_cases hlabel : label = target
  · rw [if_pos (beq_iff_eq.mpr hlabel)] at h
    cases h
    exact .inl ⟨hlabel.symm, rfl⟩
  · rw [if_neg (by simpa using hlabel)] at h
    cases houter : scopes.idxOf? target with
    | none =>
        rw [houter] at h
        cases h
    | some outer =>
        rw [houter] at h
        cases h
        exact .inr ⟨Ne.symm hlabel, outer, rfl, rfl⟩

theorem alike_nextRound (height : Nat) {again : Exec Flow} {goOn : Exec Exit}
    (h : exactly.Alike (Agrees scopes) again goOn) (flow : Flow) (exit : Exit)
    (hflow : Agrees (label :: scopes) flow exit) :
    exactly.Alike (Agrees scopes) (nextRound label height again flow)
      (land height goOn exit) := by
  cases hflow with
  | next => exact alike_pure .next
  | @branch target depth hdepth =>
      rcases branchDepth_cons hdepth with ⟨rfl, rfl⟩ | ⟨htarget, outer, rfl, houter⟩
      · rw [nextRound, if_pos rfl, land]
        exact alike_after (truncateTo height) fun _ => h
      · rw [nextRound, if_neg htarget, land]
        exact alike_pure (.branch houter)

theorem alike_runBlock {body : Exec Flow} {body' : Exec Exit}
    (h : exactly.Alike (Agrees (label :: scopes)) body body') :
    exactly.Alike (Agrees scopes) (Machine.runBlock label body) (runBlock body') := by
  have hfinish : ∀ height flow exit, Agrees (label :: scopes) flow exit →
      exactly.Alike (Agrees scopes) (leaveBlock label height flow)
        (land height (return .next) exit) := by
    intro height
    rw [leaveBlock_eq]
    exact alike_nextRound height (alike_pure .next)
  exact h.inScope hfinish

theorem alike_repeatLoop (height rounds : Nat) {body : Exec Flow} {body' : Exec Exit}
    (h : exactly.Alike (Agrees (label :: scopes)) body body') :
    exactly.Alike (Agrees scopes) (Machine.repeatLoop config label height body rounds)
      (repeatLoop config height body' rounds) :=
  h.rounds (alike_throw rfl) (fun _ => rfl) (fun _ => rfl)
    (fun _ _ hagain => alike_nextRound height hagain) rounds

theorem alike_runLoop {body : Exec Flow} {body' : Exec Exit}
    (h : exactly.Alike (Agrees (label :: scopes)) body body') :
    exactly.Alike (Agrees scopes) (Machine.runLoop config label body) (runLoop config body') := by
  unfold Machine.runLoop runLoop
  exact alike_after get fun s => alike_repeatLoop _ _ h

mutual

-- By recursion on the code, with the scopes around it as the invariant.
theorem alike_execInstr (hcall : ∀ name, callNamed m enter' name = callNamed m enter name) :
    ∀ (i : Instr) {scopes : List Label} {c : Code}, ofInstr scopes i = .ok c →
      exactly.Alike (Agrees scopes) (execInstr config m enter function i)
        (execCode config m enter' function c)
  | .operate op, scopes, c, h => by
      cases h
      rw [execInstr, execCode]
      exact alike_after _ fun _ => alike_after _ fun _ => alike_after _ fun _ => alike_pure .next
  | .call name, scopes, c, h => by
      cases h
      rw [execInstr, execCode, hcall]
      exact alike_after _ fun _ => alike_after _ fun _ => alike_after _ fun _ => alike_pure .next
  | .block label body, scopes, c, h => by
      obtain ⟨code, hcode, rfl⟩ := exists_of_map_eq_ok h
      rw [execInstr, execCode]
      exact alike_after _ fun _ => alike_after _ fun _ =>
        alike_runBlock (alike_execBody hcall body hcode)
  | .loop label body, scopes, c, h => by
      obtain ⟨code, hcode, rfl⟩ := exists_of_map_eq_ok h
      rw [execInstr, execCode]
      exact alike_after _ fun _ => alike_after _ fun _ =>
        alike_runLoop (alike_execBody hcall body hcode)
  | .branch label, scopes, c, h => by
      obtain ⟨depth, hdepth, rfl⟩ := exists_of_map_eq_ok h
      rw [execInstr, execCode]
      exact alike_after _ fun _ => alike_after _ fun _ => alike_pure (.branch hdepth)
  | .branchIf label, scopes, c, h => by
      obtain ⟨depth, hdepth, rfl⟩ := exists_of_map_eq_ok h
      rw [execInstr, execCode]
      refine alike_after _ fun _ => alike_after _ fun n => alike_after _ fun _ => alike_pure ?_
      by_cases hn : n = 0
      · rw [if_pos hn, if_pos hn]
        exact .next
      · rw [if_neg hn, if_neg hn]
        exact .branch hdepth

theorem alike_execBody (hcall : ∀ name, callNamed m enter' name = callNamed m enter name) :
    ∀ (body : List Instr) {scopes : List Label} {code : List Code}, ofBody scopes body = .ok code →
      exactly.Alike (Agrees scopes) (execBody config m enter function body)
        (execAll config m enter' function code)
  | [], scopes, code, h => by
      cases h
      rw [execBody, execAll]
      exact alike_pure .next
  | i :: rest, scopes, code, h => by
      rw [ofBody] at h
      obtain ⟨c, hc, h⟩ := exists_of_bind_eq_ok h
      obtain ⟨others, hothers, h⟩ := exists_of_bind_eq_ok h
      cases h
      rw [execBody, execAll]
      refine (alike_execInstr hcall i hc).bind ?_
      intro flow exit hflow
      cases hflow with
      | next => exact alike_execBody hcall rest hothers
      | branch hdepth => exact alike_pure (.branch hdepth)

end

-- No branch leaves the body of a function, so that both bodies come to their end.
theorem alike_function (config : MachineConfig) (function : String) {body : List Instr}
    {code : List Code} (hcall : ∀ name, callNamed m enter' name = callNamed m enter name)
    (hcode : ofBody [] body = .ok code) :
    exactly.Alike (fun flow flow' : Flow => flow = .next ∧ flow' = .next)
      (execBody config m enter function body) (do
        let _ ← execAll config m enter' function code
        return Flow.next) := by
  rw [← bind_pure (execBody config m enter function body)]
  refine (alike_execBody hcall body hcode).bind ?_
  intro flow exit hflow
  exact alike_pure ⟨eq_next_of_agrees hflow, rfl⟩

theorem execBody_eq {body : List Instr} {code : List Code} (hcode : ofBody [] body = .ok code) :
    execBody config m enter function body = do
      let _ ← execAll config m enter function code
      return Flow.next := by
  have h := alike_function config function (fun name => (rfl : callNamed m enter name = _)) hcode
  refine eq_of_alike (h.imp ?_)
  rintro flow flow' ⟨rfl, rfl⟩
  rfl

theorem callNamed_congr (h : ∀ f ∈ m.functions, enter' f = enter f) (name : String) :
    callNamed m enter' name = callNamed m enter name := by
  unfold callNamed
  cases m.effect? name with
  | some e => rfl
  | none =>
      cases hf : m.function? name with
      | none => rfl
      | some f => exact h f (List.mem_of_find?_eq_some hf)

-- By induction on the frames that are left.
theorem enterFunction_eq (config : MachineConfig) {code : FunctionDef → List Code}
    (hcode : ∀ f ∈ m.functions, ofBody [] f.body = .ok (code f)) (left : Nat) :
    ∀ f ∈ m.functions,
      enterFunction config m code left f = Machine.enterFunction config m left f := by
  induction left with
  | zero =>
      intro f _
      rfl
  | succ left ih =>
      intro f hf
      refine (eq_of_alike ?_).symm
      rw [enterFunction, Machine.enterFunction]
      have hbody := alike_function config f.name (callNamed_congr ih) (hcode f hf)
      refine (alike_inFrame _ hbody).bind ?_
      rintro flow flow' ⟨rfl, rfl⟩
      exact alike_self _

theorem run_eq {code : FunctionDef → List Code}
    (hcode : ∀ f ∈ m.functions, ofBody [] f.body = .ok (code f)) (machine : Machine)
    (entry : String) : run machine m code entry = machine.run m entry := by
  unfold run Machine.run
  cases hf : m.function? entry with
  | none => rfl
  | some f =>
      have henter := congrFun (enterFunction_eq machine.config hcode maxFrames f
        (List.mem_of_find?_eq_some hf)) .initial
      dsimp only
      generalize enterFunction machine.config m code maxFrames f .initial = r at henter ⊢
      subst henter
      cases Machine.enterFunction machine.config m maxFrames f .initial with
      | ok a s => rfl
      | error trap s => rfl

-- Where every body of a module can be encoded, its functions run by depth as they run
-- by label: alone with any calls, entered in any state, and as the entry of a run.
theorem run_depths_eq_run_labels {names : List String} {m : CodeModule}
    (h : ∀ f ∈ m.functions, ∃ bytes, Wasm.encodeBody names [] f.body = .ok bytes) :
    ∃ code : FunctionDef → List Code,
      (∀ f ∈ m.functions, ofBody [] f.body = .ok (code f)) ∧
      (∀ f ∈ m.functions, ∀ config callees enter function s,
        (do let _ ← execAll config callees enter function (code f)
            return Flow.next : Exec Flow) s = execBody config callees enter function f.body s) ∧
      (∀ f ∈ m.functions, ∀ config left s,
        enterFunction config m code left f s = Machine.enterFunction config m left f s) ∧
      ∀ machine entry, run machine m code entry = machine.run m entry := by
  have hcode : ∀ f ∈ m.functions,
      ofBody [] f.body = .ok ((ofBody [] f.body).toOption.getD []) := by
    intro f hf
    obtain ⟨bytes, hbytes⟩ := h f hf
    obtain ⟨code, hcode⟩ := exists_ofBody f.body hbytes
    rw [hcode]
    rfl
  refine ⟨fun f => (ofBody [] f.body).toOption.getD [], hcode, ?_, ?_, run_eq hcode⟩
  · intro f hf config callees enter function s
    rw [execBody_eq (hcode f hf)]
  · intro f hf config left s
    rw [enterFunction_eq config hcode left f hf]

end Agreement

section Sample

def exit : Label := ⟨.whileExit, 0⟩

def round : Label := ⟨.whileLoop, 0⟩

-- Scopes of one label, inside of each other and after each other, with branches that
-- leave one or two of them and a branch that restarts the loop.
def shadowed : FunctionDef where
  name := "main"
  exported := true
  locals := []
  body :=
    [.block exit
      [.block exit [.operate (.intConst 1), .branchIf exit, .branch exit],
        .loop round
          [.block exit [.operate (.intConst 0), .branchIf round, .branch exit], .branch exit]]]

theorem run_depths_eq_run_labels_shadowed :
    ∃ code : FunctionDef → List Code,
      code shadowed =
        [.block exit
          [.block exit [.operate (.intConst 1), .branchIf 0 exit, .branch 0 exit],
            .loop round
              [.block exit [.operate (.intConst 0), .branchIf 1 round, .branch 0 exit],
                .branch 1 exit]]] ∧
      ∀ machine entry, run machine ⟨"shadowed", [], [shadowed]⟩ code entry =
        machine.run ⟨"shadowed", [], [shadowed]⟩ entry := by
  have hencoded : ∀ f ∈ (⟨"shadowed", [], [shadowed]⟩ : CodeModule).functions,
      ∃ bytes, Wasm.encodeBody [] [] f.body = .ok bytes := by
    intro f hf
    rw [List.mem_singleton.mp hf]
    exact ⟨_, rfl⟩
  obtain ⟨code, hcode, -, -, hrun⟩ := run_depths_eq_run_labels hencoded
  have hshadowed := hcode shadowed (List.mem_singleton_self _)
  exact ⟨code, (Except.ok.inj hshadowed).symm, hrun⟩

end Sample

end Depths

end EchoLang
