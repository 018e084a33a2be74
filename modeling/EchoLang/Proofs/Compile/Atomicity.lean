import EchoLang.Proofs.Compile.Formatting

namespace EchoLang

theorem CompileError.kind_of_isSome_location? {e : CompileError} (h : e.location?.isSome) :
    e.kind ∈ [.lexical, .grammar, .naming, .lowering] := by
  cases e with
  | target fault => cases h
  | _ => simp [kind]

-- Before there are functions, the text is at fault and no target.
theorem kind_of_functionsOfSource {source : String} {e : CompileError}
    (h : functionsOfSource source = .error e) :
    e.kind ∈ [.lexical, .grammar, .naming, .lowering] := by
  cases hts : Token.ofSource source with
  | error stuck =>
      rw [functionsOfSource, hts] at h
      obtain ⟨_, _, _, _, hstuck, _⟩ := Token.stuck_of_scan hts
      rw [← Except.error.inj h, hstuck]
      exact List.mem_cons_self
  | ok ts =>
      rw [functionsOfSource_of_ofSource hts] at h
      exact CompileError.kind_of_isSome_location? (isSome_location?_of_functionsOfTokens h)

namespace CodeModule

-- The module with one more unit, whose functions print.
def withUnit (m : CodeModule) (functions : List FunctionDef) : CodeModule :=
  { m with imports := m.imports ++ [.echo], functions := m.functions ++ functions }

section Functions

variable {source : String} {functions : List FunctionDef}

theorem addSource_of_functions {target : Target} {m : CodeModule}
    (h : functionsOfSource source = .ok functions) (hfirst : target = .wasm → m.functions = []) :
    m.addSource target source = (m.withUnit []).addFunctions target functions := by
  have heffect : m.addEffect target .echo = .ok (m.withUnit []) := by
    rw [addEffect, if_neg fun hlate => hlate.2 (hfirst hlate.1)]
    simp [withUnit]
  rw [addSource_eq, h]
  dsimp only
  rw [heffect]

-- WebAssembly numbers imports first, so that no unit can follow another.
theorem addSource_wasm_late {m : CodeModule} (h : functionsOfSource source = .ok functions)
    (hheld : m.functions ≠ []) :
    m.addSource .wasm source = (m, some (.target (.lateImport Effect.echo.name))) := by
  rw [addSource_eq, h]
  dsimp only
  rw [addEffect, if_pos ⟨rfl, hheld⟩]

end Functions

-- The three ways in which a module takes the functions of a text. Which of them it is
-- depends on the target and on what the module holds, the functions do not.
theorem addSource_atomic (source : String) :
    (∃ e, functionsOfSource source = .error e ∧
      e.kind ∈ [.lexical, .grammar, .naming, .lowering] ∧
      ∀ target (m : CodeModule), m.addSource target source = (m, some e)) ∨
    ∃ functions, functionsOfSource source = .ok functions ∧ ∀ target (m : CodeModule),
      ((target = .wasm → m.functions = [] ∧
          ∀ f ∈ functions, ¬ (f.exported ∧ f.name = Target.memoryName)) ∧
        m.addSource target source = (m.withUnit functions, none)) ∨
      (target = .wasm ∧ m.functions ≠ [] ∧
        m.addSource target source = (m, some (.target (.lateImport Effect.echo.name)))) ∨
      (target = .wasm ∧ m.functions = [] ∧ ∃ before f after, functions = before ++ f :: after ∧
        (f.exported ∧ f.name = Target.memoryName) ∧
        (∀ g ∈ before, ¬ (g.exported ∧ g.name = Target.memoryName)) ∧
        m.addSource target source =
          (m.withUnit before, some (.target (.reservedExport Target.memoryName)))) := by
  cases hfunctions : functionsOfSource source with
  | error e =>
      refine .inl ⟨e, rfl, kind_of_functionsOfSource hfunctions, ?_⟩
      intro target m
      rw [addSource_eq, hfunctions]
  | ok functions =>
      refine .inr ⟨functions, rfl, ?_⟩
      intro target m
      by_cases hlate : target = .wasm ∧ m.functions ≠ []
      · obtain ⟨rfl, hheld⟩ := hlate
        exact .inr (.inl ⟨rfl, hheld, addSource_wasm_late hfunctions hheld⟩)
      have hfirst (hwasm : target = .wasm) : m.functions = [] := by
        by_contra hheld
        exact hlate ⟨hwasm, hheld⟩
      rw [addSource_of_functions hfunctions hfirst]
      by_cases hrefused : ∃ f ∈ functions,
          target = .wasm ∧ f.exported ∧ f.name = Target.memoryName
      · obtain ⟨before, f, after, hsplit, ⟨hwasm, hreserved⟩, htaken, hadd⟩ :=
          addFunctions_of_exists_first hrefused
        refine .inr (.inr ⟨hwasm, hfirst hwasm, before, f, after, hsplit, hreserved, htaken, ?_⟩)
        rw [hadd]
        simp [withUnit]
      · refine .inl ⟨?_, ?_⟩
        · intro hwasm
          exact ⟨hfirst hwasm, fun f hf hreserved => hrefused ⟨f, hf, hwasm, hreserved⟩⟩
        · rw [addFunctions_of_forall fun f hf h => hrefused ⟨f, hf, h⟩]
          simp [withUnit]

end CodeModule

end EchoLang
