import EchoLang.Proofs.Compile.Stages
import EchoLang.Proofs.Lowering.Faults
import EchoLang.Proofs.Program.Acceptance
import EchoLang.Proofs.Program.Places
import EchoLang.Proofs.Wasm.Compiled

namespace EchoLang

namespace Program

variable {p : Program}

def ExportsMemory (p : Program) : Prop :=
  ∃ body loc, .procedure Target.memoryName true body loc ∈ p

-- Procedures that are not the entry point are those of the program itself.
theorem mem_withEntry_iff {name : String} {exported : Bool} {body : List Stmt} {loc : Location}
    (hname : name ≠ entryName) :
    .procedure name exported body loc ∈ p.withEntry ↔ .procedure name exported body loc ∈ p := by
  unfold withEntry
  split
  · exact Iff.rfl
  · simp [entry, procedures, hname, Stmt.isProcedure]

-- A function has the name of the memory and is exported if and only if its procedure does.
theorem exists_reserved_iff {functions : List FunctionDef}
    (h : p.withEntry.lower = .ok functions) :
    (∃ f ∈ functions, f.exported ∧ f.name = Target.memoryName) ↔ p.ExportsMemory := by
  have hlowers : List.Forall₂ LowersTo p.withEntry functions := lowersTo_of_lowerProcedures h
  have hentry : Target.memoryName ≠ entryName := by decide
  constructor
  · rintro ⟨f, hf, hexported, hname⟩
    obtain ⟨stmt, hstmt, hto⟩ := exists_of_forall₂ hlowers hf
    cases hto with
    | @procedure name exported body loc =>
        dsimp only at hexported hname
        subst hexported hname
        exact ⟨body, loc, (mem_withEntry_iff hentry).mp hstmt⟩
  · rintro ⟨body, loc, hmem⟩
    obtain ⟨f, hf, hto⟩ := exists_of_forall₂ hlowers.flip ((mem_withEntry_iff hentry).mpr hmem)
    cases hto with
    | procedure _ => exact ⟨_, hf, rfl, rfl⟩

end Program

-- The printer has a text for every valid module.
def Wasm.Printer.PrintsValid (printer : Wasm.Printer) : Prop :=
  ∀ tree : Wasm.Module, tree.Valid → ∃ text, printer tree.write = .ok text

section Stages

variable {printer : Wasm.Printer} {source : String} {functions : List FunctionDef}

-- Up to the functions, every stage has its own kind of error.
theorem outcome_functionsOfSource
    (hlabels : ∀ p, Program.ofSource source = .ok p → p.branchings ≤ LabelCounter.limit) :
    Outcome [.lexical, .grammar, .naming] (fun _ => True) (functionsOfSource source) := by
  unfold functionsOfSource
  cases hts : Token.ofSource source with
  | error e =>
      obtain ⟨read, c, rest, _, rfl, _⟩ := Token.stuck_of_scan hts
      exact List.mem_cons_self
  | ok ts =>
      change Outcome _ _ (functionsOfTokens ts)
      unfold functionsOfTokens
      cases hp : Program.ofTokens ts with
      | error e =>
          obtain ⟨loc, fault, rfl⟩ := Program.exists_grammar_of_ofTokens hp
          exact List.mem_cons_of_mem _ List.mem_cons_self
      | ok p =>
          have hsource : Program.ofSource source = .ok p := by
            rw [Program.ofSource, hts]
            exact hp
          have htop := proceduresOnTop_of_derives (ofTokens_eq_ok_iff.mp hp).1
          have hlower := Program.outcome_lower_withEntry htop (hlabels p hsource)
          exact hlower.mono (List.subset_cons_self _ _)

theorem exists_compile_listing (printer : Wasm.Printer)
    (h : functionsOfSource source = .ok functions) (unit : String) (optimize : Bool) :
    ∃ artifact, compile printer .listing unit source optimize = .ok artifact := by
  rw [compile_eq, h]
  change ∃ artifact, emitFunctions printer .listing unit optimize functions = .ok artifact
  rw [emitFunctions, CodeModule.addFunctions_listing]
  exact ⟨_, rfl⟩

theorem exists_compile_wasm (hprints : printer.PrintsValid)
    (h : functionsOfSource source = .ok functions)
    (hfree : ¬ ∃ f ∈ functions, f.exported ∧ f.name = Target.memoryName) (unit : String)
    (optimize : Bool) : ∃ artifact, compile printer .wasm unit source optimize = .ok artifact := by
  have haccepted : ∀ f ∈ functions,
      ¬ (Target.wasm = .wasm ∧ f.exported ∧ f.name = Target.memoryName) := by
    intro f hf hreserved
    exact hfree ⟨f, hf, hreserved.2⟩
  have hmodule : CodeModule.ofSource .wasm unit source optimize =
      .ok (CodeModule.simplifyIf optimize ⟨unit, [.echo], functions⟩) := by
    rw [CodeModule.ofSource, CodeModule.addSource_empty, h]
    dsimp only
    rw [CodeModule.addFunctions_of_forall haccepted]
    rfl
  obtain ⟨tree, -, hvalid, hencode⟩ := Wasm.valid_of_ofSource hmodule
  obtain ⟨text, htext⟩ := hprints tree hvalid
  rw [compile, hmodule]
  change ∃ artifact, CodeModule.emit printer .wasm _ = .ok artifact
  rw [CodeModule.emit, hencode]
  dsimp only [bind, Except.bind]
  rw [htext]
  exact ⟨_, rfl⟩

theorem compile_wasm_of_exists (h : functionsOfSource source = .ok functions)
    (hreserved : ∃ f ∈ functions, f.exported ∧ f.name = Target.memoryName) (unit : String)
    (optimize : Bool) : compile printer .wasm unit source optimize =
      .error (.target (.reservedExport Target.memoryName)) := by
  obtain ⟨f, hf, hexported, hname⟩ := hreserved
  rw [compile_eq, h]
  change emitFunctions printer .wasm unit optimize functions = _
  obtain ⟨m, hm⟩ := CodeModule.addFunctions_of_exists (m := CodeModule.printing unit)
    ⟨f, hf, rfl, hexported, hname⟩
  rw [emitFunctions, hm]

end Stages

-- A listing fails for the text, the grammar or a name. WebAssembly fails whenever a listing
-- does and with the same error, and otherwise if and only if a procedure takes the name under
-- which the memory is exported.
theorem compile_error_kinds {printer : Wasm.Printer} (hprints : printer.PrintsValid)
    {source : String}
    (hlabels : ∀ p, Program.ofSource source = .ok p → p.branchings ≤ LabelCounter.limit)
    (unit : String) (optimize : Bool) :
    (∀ e, ((CodeModule.empty unit).addSource .listing source).2 = some e →
      e.kind ∈ [.lexical, .grammar, .naming] ∧
        compile printer .wasm unit source optimize = .error e) ∧
    (∀ e, compile printer .listing unit source optimize = .error e →
      e.kind ∈ [.lexical, .grammar, .naming]) ∧
    ((∃ e, compile printer .wasm unit source optimize = .error e ∧ e.kind = .target) ↔
      ((CodeModule.empty unit).addSource .listing source).2 = none ∧
        ∃ p, Program.ofSource source = .ok p ∧ p.ExportsMemory) ∧
    (((CodeModule.empty unit).addSource .listing source).2 = none →
      (¬ ∃ p, Program.ofSource source = .ok p ∧ p.ExportsMemory) →
        ∃ artifact, compile printer .wasm unit source optimize = .ok artifact) := by
  have houtcome := outcome_functionsOfSource hlabels
  cases hfunctions : functionsOfSource source with
  | error e =>
      have hkind : e.kind ∈ [ErrorKind.lexical, .grammar, .naming] := by
        rwa [hfunctions] at houtcome
      rw [CodeModule.addSource_of_error hfunctions, compile_of_error hfunctions,
        compile_of_error hfunctions]
      refine ⟨?_, ?_, ?_, nofun⟩
      · rintro _ ⟨⟩
        exact ⟨hkind, rfl⟩
      · rintro _ ⟨⟩
        exact hkind
      · refine ⟨?_, nofun⟩
        rintro ⟨_, ⟨⟩, htarget⟩
        rw [htarget] at hkind
        simp at hkind
  | ok functions =>
      obtain ⟨p, hp, hlower⟩ :=
        exists_of_bind_eq_ok ((functionsOfSource_eq source).symm.trans hfunctions)
      have hexports : (∃ p, Program.ofSource source = .ok p ∧ p.ExportsMemory) ↔
          ∃ f ∈ functions, f.exported ∧ f.name = Target.memoryName := by
        rw [Program.exists_reserved_iff hlower, hp]
        simp
      obtain ⟨listing, hlisting⟩ := exists_compile_listing printer hfunctions unit optimize
      rw [CodeModule.addSource_listing unit hfunctions, hlisting, hexports]
      refine ⟨nofun, nofun, ⟨?_, ?_⟩, ?_⟩
      · rintro ⟨e, he, _⟩
        refine ⟨rfl, ?_⟩
        by_contra hfree
        obtain ⟨artifact, hartifact⟩ := exists_compile_wasm hprints hfunctions hfree unit optimize
        rw [hartifact] at he
        cases he
      · rintro ⟨_, hreserved⟩
        exact ⟨_, compile_wasm_of_exists hfunctions hreserved unit optimize, rfl⟩
      · intro _ hfree
        exact exists_compile_wasm hprints hfunctions hfree unit optimize

-- An exported procedure with the name of the memory, and a loop and a choice.
def memorySource : String :=
  "export proc memory while (1 < 2) if (1) echo 1 end end end proc tick echo 2 end"

theorem compile_error_kinds_memory :
    Wasm.Printer.quoting.PrintsValid ∧
      (∀ p, Program.ofSource memorySource = .ok p → p.branchings ≤ LabelCounter.limit) ∧
      ((CodeModule.empty "unit").addSource .listing memorySource).2 = none ∧
      ∃ p, Program.ofSource memorySource = .ok p ∧ p.ExportsMemory := by
  have hcount : (Program.ofSource memorySource).map Program.branchings = .ok 2 := by
    decide +kernel
  have hlabels : ∀ p, Program.ofSource memorySource = .ok p →
      p.branchings ≤ LabelCounter.limit := by
    intro p hp
    rw [hp] at hcount
    have htwo : p.branchings = 2 := Except.ok.inj hcount
    rw [htwo]
    decide
  have hprints : Wasm.Printer.quoting.PrintsValid := fun _ _ => ⟨_, rfl⟩
  have hrefused : compile .quoting .wasm "unit" memorySource true =
      .error (.target (.reservedExport "memory")) := by decide +kernel
  exact ⟨hprints, hlabels,
    (compile_error_kinds hprints hlabels "unit" true).2.2.1.mp ⟨_, hrefused, rfl⟩⟩

end EchoLang
