import EchoLang.Proofs.Lowering.Faults
import EchoLang.Proofs.Machine.Relabelling

namespace EchoLang

def Label.shift (k : Nat) (label : Label) : Label :=
  { label with id := label.id + k }

theorem Label.shift_injective (k : Nat) : (Label.shift k).Injective := by
  rintro ⟨kind, id⟩ ⟨kind', id'⟩ h
  simpa [Label.shift] using h

section Code

variable (rename : Label → Label) (k : Nat)

@[simp] theorem relabelCode_append (first second : List Instr) :
    relabelCode rename (first ++ second) =
      relabelCode rename first ++ relabelCode rename second := by
  induction first with
  | nil => rfl
  | cons i rest ih => rw [List.cons_append, relabelCode, relabelCode, ih, List.cons_append]

@[simp] theorem relabelCode_straight (code : List Operation) :
    relabelCode rename (straight code) = straight code := by
  induction code with
  | nil => rfl
  | cons op rest ih =>
      rw [straight, List.map_cons, relabelCode, ← straight, ih, Instr.relabel]

@[simp] theorem relabelCode_guardCode (label : Label) (test : List Operation) :
    relabelCode rename (guardCode label test) = guardCode (rename label) test := by
  simp [guardCode, relabelCode, Instr.relabel]

theorem relabel_loopCode (id : Nat) (test : List Operation) (body : List Instr) :
    (loopCode id test body).relabel (Label.shift k) =
      loopCode (id + k) test (relabelCode (Label.shift k) body) := by
  simp [loopCode, relabelCode, Instr.relabel, Label.shift]

theorem relabel_ifThenCode (id : Nat) (test : List Operation) (body : List Instr) :
    (ifThenCode id test body).relabel (Label.shift k) =
      ifThenCode (id + k) test (relabelCode (Label.shift k) body) := by
  simp [ifThenCode, Instr.relabel, Label.shift]

theorem relabel_ifElseCode (id : Nat) (test : List Operation) (first second : List Instr) :
    (ifElseCode id test first second).relabel (Label.shift k) =
      ifElseCode (id + k) test (relabelCode (Label.shift k) first)
        (relabelCode (Label.shift k) second) := by
  simp [ifElseCode, relabelCode, Instr.relabel, Label.shift]

end Code

section Bodies

variable {ctx after : Context} {body : List Stmt} {code : List Instr}

theorem Lowers.next_le_limit (h : Lowers ctx body code after)
    (hctx : ctx.labels.next ≤ LabelCounter.limit) : after.labels.next ≤ LabelCounter.limit := by
  induction h with
  | nil => exact hctx
  | echo _ _ ih | declare _ _ ih | assign _ _ _ ih => exact ih hctx
  | loop hlimit _ _ _ ihInner ihLater | ifThen hlimit _ _ _ ihInner ihLater =>
      exact ihLater (ihInner (Nat.lt_of_le_of_ne hctx hlimit))
  | ifElse hlimit _ _ _ _ ihFirst ihSecond ihLater =>
      exact ihLater (ihSecond (ihFirst (Nat.lt_of_le_of_ne hctx hlimit)))

-- With smaller numbers to begin with, the same body has the same code with smaller numbers.
theorem Lowers.exists_shift (h : Lowers ctx body code after)
    (hctx : ctx.labels.next ≤ LabelCounter.limit) {start k : Nat}
    (hstart : ctx.labels.next = start + k) :
    ∃ code' next, Lowers ⟨ctx.slots, ⟨start⟩⟩ body code' ⟨after.slots, ⟨next⟩⟩ ∧
      after.labels.next = next + k ∧ code = relabelCode (Label.shift k) code' := by
  induction h generalizing start with
  | nil => exact ⟨[], start, .nil, hstart, rfl⟩
  | echo hvalue _ ih =>
      obtain ⟨others, next, hothers, hnext, rfl⟩ := ih hctx hstart
      exact ⟨_, next, .echo hvalue hothers, hnext, by simp [relabelCode, Instr.relabel]⟩
  | declare hvalue _ ih =>
      obtain ⟨others, next, hothers, hnext, rfl⟩ := ih hctx hstart
      refine ⟨_, next, .declare hvalue hothers, hnext, ?_⟩
      rw [relabelCode_append, relabelCode_straight]
      rfl
  | assign hvalue hslot _ ih =>
      obtain ⟨others, next, hothers, hnext, rfl⟩ := ih hctx hstart
      refine ⟨_, next, .assign hvalue hslot hothers, hnext, ?_⟩
      rw [relabelCode_append, relabelCode_straight]
  | loop hlimit htest inner _ ihInner ihLater =>
      have hlt := Nat.lt_of_le_of_ne hctx hlimit
      have hlimit' : start ≠ LabelCounter.limit := by omega
      obtain ⟨code, middle, hcode, hmiddle, rfl⟩ :=
        ihInner hlt (hstart ▸ Nat.add_right_comm start k 1)
      obtain ⟨others, next, hothers, hnext, rfl⟩ := ihLater (inner.next_le_limit hlt) hmiddle
      refine ⟨_, next, .loop hlimit' htest hcode hothers, hnext, ?_⟩
      rw [relabelCode, relabel_loopCode, hstart]
  | ifThen hlimit htest inner _ ihInner ihLater =>
      have hlt := Nat.lt_of_le_of_ne hctx hlimit
      have hlimit' : start ≠ LabelCounter.limit := by omega
      obtain ⟨code, middle, hcode, hmiddle, rfl⟩ :=
        ihInner hlt (hstart ▸ Nat.add_right_comm start k 1)
      obtain ⟨others, next, hothers, hnext, rfl⟩ := ihLater (inner.next_le_limit hlt) hmiddle
      refine ⟨_, next, .ifThen hlimit' htest hcode hothers, hnext, ?_⟩
      rw [relabelCode, relabel_ifThenCode, hstart]
  | ifElse hlimit htest innerFirst innerSecond _ ihFirst ihSecond ihLater =>
      have hlt := Nat.lt_of_le_of_ne hctx hlimit
      have hlimit' : start ≠ LabelCounter.limit := by omega
      have hbetween := innerFirst.next_le_limit hlt
      obtain ⟨first, between, hfirst, hbetween', rfl⟩ :=
        ihFirst hlt (hstart ▸ Nat.add_right_comm start k 1)
      obtain ⟨second, middle, hsecond, hmiddle, rfl⟩ := ihSecond hbetween hbetween'
      obtain ⟨others, next, hothers, hnext, rfl⟩ :=
        ihLater (innerSecond.next_le_limit hbetween) hmiddle
      refine ⟨_, next, .ifElse hlimit' htest hfirst hsecond hothers, hnext, ?_⟩
      rw [relabelCode, relabel_ifElseCode, hstart]

end Bodies

section Procedures

variable {name : String} {exported : Bool} {body : List Stmt} {loc : Location}

-- The numbers of a procedure begin behind those of the procedures before it.
theorem exists_lowers_of_lowerProcedures {declared : List String} {labels : LabelCounter}
    {p : Program} {functions : List FunctionDef}
    (h : lowerProcedures declared labels p = .ok functions)
    (hlabels : labels.next ≤ LabelCounter.limit) {k : Nat}
    (hk : p[k]? = some (.procedure name exported body loc)) :
    ∃ ctx code after, ctx.slots = .empty ∧
      ctx.labels.next = labels.next + Program.branchings (p.take k) ∧
      ctx.labels.next ≤ LabelCounter.limit ∧ Lowers ctx body code after ∧
      functions[k]? = some ⟨name, exported, after.slots.names, code⟩ := by
  induction p generalizing declared labels functions k with
  | nil => simp at hk
  | cons stmt rest ih =>
      obtain ⟨_, _, first, _, code, after, others, rfl, _, hfirst, hothers, rfl⟩ :=
        of_lowerProcedures_cons h
      cases k with
      | zero =>
          cases hk
          exact ⟨⟨.empty, labels⟩, code, after, rfl, rfl, hlabels, hfirst, rfl⟩
      | succ k =>
          obtain ⟨ctx, code, last, hslots, hnext, hlimit, hbody, hfunction⟩ :=
            ih hothers (hfirst.next_le_limit hlabels) hk
          refine ⟨ctx, code, last, hslots, ?_, hlimit, hbody, hfunction⟩
          rw [hnext, hfirst.next_eq, Nat.add_assoc]
          rfl

theorem lower_single {code : List Instr} {after : Context}
    (h : Lowers ⟨.empty, .start⟩ body code after) :
    Program.lower [.procedure name exported body loc] =
      .ok [⟨name, exported, after.slots.names, code⟩] := by
  rw [Program.lower, lowerProcedures, if_neg (by simp), h.lowerBody_eq]
  rfl

variable {target : Target} {unit : String} {p : Program} {m : CodeModule}

-- In every program that has it, the function of a procedure is the one that it has when it is
-- alone, with other numbers.
theorem exists_function_alone (h : (CodeModule.empty unit).addProgram target p = (m, none))
    {k : Nat} (hk : p[k]? = some (.procedure name exported body loc)) :
    ∃ alone : FunctionDef, LowersTo (.procedure name exported body loc) alone ∧
      Program.lower [.procedure name exported body loc] = .ok [alone] ∧
      m.functions[k]? = some (alone.relabel (Label.shift (Program.branchings (p.take k)))) := by
  obtain ⟨functions, hlower, rfl, _⟩ := CodeModule.of_addProgram h
  obtain ⟨⟨slots, labels⟩, code, after, rfl, hnext, hlimit, hbody, hfunction⟩ :=
    exists_lowers_of_lowerProcedures hlower (Nat.zero_le _) hk
  obtain ⟨code', next, halone, _, rfl⟩ := hbody.exists_shift hlimit hnext
  exact ⟨_, .procedure halone, lower_single halone, hfunction⟩

-- A run of the procedure goes as it does when it is alone.
theorem outcome_alone (h : (CodeModule.empty unit).addProgram target p = (m, none))
    {alone : FunctionDef} (hlowers : LowersTo (.procedure name exported body loc) alone)
    {k offset : Nat} (hk : m.functions[k]? = some (alone.relabel (Label.shift offset)))
    (unit' : String) (machine : Machine) :
    machine.outcome m alone.name = machine.outcome ⟨unit', [.echo], [alone]⟩ alone.name := by
  have hlowered := lowered_of_addProgram h
  have hlookup := CodeModule.function?_of_mem hlowered.names (List.mem_of_getElem? hk)
  exact outcome_relabel (Label.shift_injective offset) (by simp [CodeModule.effect?])
    hlowered.effect?_echo (typed_of_lowersTo hlowers) (by simp [CodeModule.function?]) hlookup
    machine

end Procedures

-- Whatever else two programs hold, they have the same function for a procedure, up to the
-- numbers of its labels, and runs of it differ in their traces at most.
theorem procedures_lowered_independently {target target' : Target} {unit unit' : String}
    {p q : Program} {m m' : CodeModule}
    (h : (CodeModule.empty unit).addProgram target p = (m, none))
    (h' : (CodeModule.empty unit').addProgram target' q = (m', none)) {k l : Nat} {name : String}
    {exported : Bool} {body : List Stmt} {loc : Location}
    (hk : p[k]? = some (.procedure name exported body loc))
    (hl : q[l]? = some (.procedure name exported body loc)) :
    ∃ alone : FunctionDef, alone.name = name ∧ alone.exported = exported ∧
      (CodeModule.empty unit).addProgram target [.procedure name exported body loc] =
        (⟨unit, [.echo], [alone]⟩, none) ∧
      m.functions[k]? = some (alone.relabel (Label.shift (Program.branchings (p.take k)))) ∧
      m'.functions[l]? = some (alone.relabel (Label.shift (Program.branchings (q.take l)))) ∧
      ∀ machine : Machine,
        machine.outcome m name = machine.outcome ⟨unit, [.echo], [alone]⟩ name ∧
          machine.outcome m' name = machine.outcome m name := by
  obtain ⟨alone, hlowers, hlower, hfunction⟩ := exists_function_alone h hk
  obtain ⟨alone', _, hlower', hfunction'⟩ := exists_function_alone h' hl
  obtain rfl : alone' = alone := by simpa [hlower] using hlower'.symm
  have hadd : (CodeModule.empty unit).addProgram target [.procedure name exported body loc] =
      (⟨unit, [.echo], [alone']⟩, none) := by
    apply CodeModule.addProgram_of_lower hlower
    intro f hf
    obtain ⟨_, _, rfl, htaken⟩ := CodeModule.of_addProgram h
    have hrelabelled := htaken _ (List.mem_of_getElem? hfunction)
    rw [List.mem_singleton.mp hf]
    exact hrelabelled
  have hname : alone'.name = name ∧ alone'.exported = exported := by
    cases hlowers
    exact ⟨rfl, rfl⟩
  refine ⟨alone', hname.1, hname.2, hadd, hfunction, hfunction', ?_⟩
  intro machine
  have halone := outcome_alone h hlowers hfunction unit machine
  have halone' := outcome_alone h' hlowers hfunction' unit machine
  rw [hname.1] at halone halone'
  exact ⟨halone, halone'.trans halone.symm⟩

-- The procedure stands before others in one program and behind others in the other one.
def sharedBody : List Stmt :=
  [.declare "n" (.number 3 .start) .start,
    .loop (.var "n" .start)
      [.ifThen (.binary (.var "n" .start) .equal (.number 2 .start) .start)
          [.echo (.var "n" .start) .start] .start,
        .assign "n" (.binary (.var "n" .start) .subtract (.number 1 .start) .start) .start]
      .start]

def sharedFirst : Program :=
  [.procedure "main" true sharedBody .start,
    .procedure "tick" true [.echo (.number 1 .start) .start] .start]

def sharedLast : Program :=
  [.procedure "tock" false [.loop (.number 0 .start) [] .start] .start,
    .procedure "main" true sharedBody .start]

theorem procedures_lowered_independently_shared :
    ∃ (m m' : CodeModule) (alone : FunctionDef),
      (CodeModule.empty "").addProgram .wasm sharedFirst = (m, none) ∧
      (CodeModule.empty "").addProgram .listing sharedLast = (m', none) ∧
      m.functions[0]? = some (alone.relabel (Label.shift 0)) ∧
      m'.functions[1]? = some (alone.relabel (Label.shift 1)) ∧
      ∀ machine : Machine, machine.outcome m' "main" = machine.outcome m "main" := by
  obtain ⟨m, hm⟩ : ∃ m, (CodeModule.empty "").addProgram .wasm sharedFirst = (m, none) := ⟨_, rfl⟩
  obtain ⟨m', hm'⟩ : ∃ m, (CodeModule.empty "").addProgram .listing sharedLast = (m, none) :=
    ⟨_, rfl⟩
  obtain ⟨alone, _, _, _, hfunction, hfunction', houtcome⟩ :=
    procedures_lowered_independently hm hm' (k := 0) (l := 1) rfl rfl
  exact ⟨m, m', alone, hm, hm', hfunction, hfunction', fun machine => (houtcome machine).2⟩

end EchoLang
