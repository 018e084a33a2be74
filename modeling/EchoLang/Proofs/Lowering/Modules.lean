import EchoLang.Proofs.Lowering.Rules
import EchoLang.Target
import Mathlib.Data.List.Nodup

namespace EchoLang

variable {target : Target} {m m' : CodeModule} {p : Program} {functions : List FunctionDef}

namespace CodeModule

-- Functions that are not refused are added one after the other.
theorem addFunctions_append {before : List FunctionDef} (after : List FunctionDef)
    (h : ∀ f ∈ before, ¬ (target = .wasm ∧ f.exported ∧ f.name = Target.memoryName)) :
    m.addFunctions target (before ++ after) =
      { m with functions := m.functions ++ before }.addFunctions target after := by
  induction before generalizing m with
  | nil => simp
  | cons f rest ih =>
      rw [List.cons_append, addFunctions, addFunction, if_neg (h f List.mem_cons_self)]
      dsimp only
      rw [ih fun g hg => h g (List.mem_cons_of_mem _ hg)]
      simp

-- All functions are taken if none of them is refused.
theorem addFunctions_of_forall
    (h : ∀ f ∈ functions, ¬ (target = .wasm ∧ f.exported ∧ f.name = Target.memoryName)) :
    m.addFunctions target functions = ({ m with functions := m.functions ++ functions }, none) := by
  have happend := addFunctions_append (m := m) [] h
  rw [List.append_nil] at happend
  rw [happend, addFunctions]

theorem addFunctions_listing (m : CodeModule) (functions : List FunctionDef) :
    m.addFunctions .listing functions = ({ m with functions := m.functions ++ functions }, none) :=
  addFunctions_of_forall nofun

-- A listing refuses nothing, so that a program fails only if it has no code.
theorem snd_addProgram_listing (m : CodeModule) (p : Program) :
    (m.addProgram .listing p).2 = error? p.lower := by
  unfold addProgram
  cases p.lower with
  | error e => rfl
  | ok functions =>
      dsimp only [addEffect]
      rw [if_neg (by simp)]
      dsimp only
      rw [addFunctions_listing]
      rfl

-- The first function that is refused is where adding stops.
theorem addFunctions_of_exists_first
    (h : ∃ f ∈ functions, target = .wasm ∧ f.exported ∧ f.name = Target.memoryName) :
    ∃ before f after, functions = before ++ f :: after ∧
      (target = .wasm ∧ f.exported ∧ f.name = Target.memoryName) ∧
      (∀ g ∈ before, ¬ (g.exported ∧ g.name = Target.memoryName)) ∧
      ∀ m : CodeModule, m.addFunctions target functions =
        ({ m with functions := m.functions ++ before },
          some (.target (.reservedExport Target.memoryName))) := by
  obtain ⟨f, hf, hwasm, hreserved⟩ := h
  have hfound : (functions.find? fun f => f.exported ∧ f.name = Target.memoryName).isSome :=
    List.find?_isSome.mpr ⟨f, hf, decide_eq_true hreserved⟩
  obtain ⟨first, hfirst⟩ := Option.isSome_iff_exists.mp hfound
  obtain ⟨hrefused, before, after, rfl, hbefore⟩ := List.find?_eq_some_iff_append.mp hfirst
  have hrefused := of_decide_eq_true hrefused
  have htaken (g : FunctionDef) (hg : g ∈ before) :
      ¬ (g.exported ∧ g.name = Target.memoryName) :=
    of_decide_eq_true (by rw [decide_not]; exact hbefore g hg)
  refine ⟨before, first, after, rfl, ⟨hwasm, hrefused⟩, htaken, ?_⟩
  intro m
  rw [addFunctions_append _ fun g hg h => htaken g hg h.2, addFunctions, addFunction,
    if_pos ⟨hwasm, hrefused⟩, hrefused.2]

-- One that is refused is enough.
theorem addFunctions_of_exists
    (h : ∃ f ∈ functions, target = .wasm ∧ f.exported ∧ f.name = Target.memoryName) :
    ∃ m', m.addFunctions target functions =
      (m', some (.target (.reservedExport Target.memoryName))) := by
  obtain ⟨before, _, _, _, _, _, hadd⟩ := addFunctions_of_exists_first h
  exact ⟨_, hadd m⟩

-- Functions that are all taken stand behind those that were there before.
theorem of_addFunctions (h : m.addFunctions target functions = (m', none)) :
    m' = { m with functions := m.functions ++ functions } ∧
      ∀ f ∈ functions, ¬ (target = .wasm ∧ f.exported ∧ f.name = Target.memoryName) := by
  have htaken : ∀ f ∈ functions, ¬ (target = .wasm ∧ f.exported ∧ f.name = Target.memoryName) := by
    intro f hf hrefused
    obtain ⟨_, hadd⟩ := addFunctions_of_exists (m := m) ⟨f, hf, hrefused⟩
    rw [hadd] at h
    cases h
  rw [addFunctions_of_forall htaken] at h
  cases h
  exact ⟨rfl, htaken⟩

-- The effect that prints is taken by every target, because it is imported first.
theorem addEffect_empty (target : Target) (unit : String) :
    (empty unit).addEffect target .echo = .ok ⟨unit, [.echo], []⟩ := by
  simp [addEffect, empty]

-- A name that no other function has finds its function.
theorem function?_of_mem {f : FunctionDef} (hnames : (m.functions.map (·.name)).Nodup)
    (hf : f ∈ m.functions) : m.function? f.name = some f := by
  cases hfound : m.function? f.name with
  | none => simpa using List.find?_eq_none.mp hfound f hf
  | some g =>
      have hname : g.name = f.name := by simpa using List.find?_some hfound
      have hg := List.mem_of_find?_eq_some hfound
      rw [List.inj_on_of_nodup_map hnames hg hf hname]

end CodeModule

-- All that adding a program to an empty module does.
theorem CodeModule.of_addProgram {unit : String}
    (h : (CodeModule.empty unit).addProgram target p = (m, none)) :
    ∃ functions, p.lower = .ok functions ∧ m = ⟨unit, [.echo], functions⟩ ∧
      ∀ f ∈ functions, ¬ (target = .wasm ∧ f.exported ∧ f.name = Target.memoryName) := by
  unfold addProgram at h
  cases hlower : p.lower with
  | error e =>
      rw [hlower] at h
      cases h
  | ok functions =>
      rw [hlower] at h
      dsimp only at h
      rw [addEffect_empty] at h
      obtain ⟨hm, hreserved⟩ := of_addFunctions h
      exact ⟨functions, rfl, hm, hreserved⟩

-- A text that is taken has a program, and the module takes it with an entry point.
theorem CodeModule.of_addSource {source : String} (h : m.addSource target source = (m', none)) :
    ∃ p, Program.ofSource source = .ok p ∧ m.addProgram target p.withEntry = (m', none) := by
  unfold addSource at h
  cases hprogram : Program.ofSource source with
  | error e =>
      rw [hprogram] at h
      cases h
  | ok p =>
      rw [hprogram] at h
      exact ⟨p, rfl, h⟩

theorem CodeModule.addProgram_of_lower {unit : String} (hlower : p.lower = .ok functions)
    (htaken : ∀ f ∈ functions, ¬ (target = .wasm ∧ f.exported ∧ f.name = Target.memoryName)) :
    (CodeModule.empty unit).addProgram target p = (⟨unit, [.echo], functions⟩, none) := by
  unfold addProgram
  rw [hlower]
  dsimp only
  rw [addEffect_empty]
  exact addFunctions_of_forall htaken

def Program.Declares (p : Program) (name : String) : Prop :=
  ∃ exported body loc, .procedure name exported body loc ∈ p

-- The module holds one function for each procedure of the program and imports the
-- effect that prints.
structure Lowered (p : Program) (m : CodeModule) : Prop where
  imports : m.imports = [.echo]
  functions : List.Forall₂ LowersTo p m.functions
  names : (m.functions.map (·.name)).Nodup

theorem lowered_of_addProgram {unit : String}
    (h : (CodeModule.empty unit).addProgram target p = (m, none)) : Lowered p m := by
  obtain ⟨functions, hlower, hm, _⟩ := CodeModule.of_addProgram h
  subst hm
  exact ⟨rfl, lowersTo_of_lowerProcedures hlower, (names_of_lowerProcedures hlower).1⟩

namespace Lowered

theorem effect?_echo (h : Lowered p m) : m.effect? Effect.echo.name = some .echo := by
  simp [CodeModule.effect?, h.imports]

-- The function of a procedure.
theorem exists_function (h : Lowered p m) {stmt : Stmt} (hstmt : stmt ∈ p) :
    ∃ f, LowersTo stmt f ∧ m.function? f.name = some f := by
  obtain ⟨f, hf, hlowers⟩ := exists_of_forall₂ h.functions.flip hstmt
  exact ⟨f, hlowers, CodeModule.function?_of_mem h.names hf⟩

-- The function at the place of a procedure.
theorem getElem?_functions (h : Lowered p m) {k : Nat} {stmt : Stmt} (hk : p[k]? = some stmt) :
    ∃ f, m.functions[k]? = some f ∧ LowersTo stmt f := by
  obtain ⟨hlt, rfl⟩ := List.getElem?_eq_some_iff.mp hk
  have hlt' : k < m.functions.length := h.functions.length_eq ▸ hlt
  exact ⟨m.functions[k], List.getElem?_eq_getElem hlt', h.functions.get hlt hlt'⟩

-- The procedure of a function.
theorem exists_procedure (h : Lowered p m) {f : FunctionDef} (hf : f ∈ m.functions) :
    ∃ stmt ∈ p, LowersTo stmt f := by
  exact exists_of_forall₂ h.functions hf

-- The functions have the names of the procedures.
theorem mem_names_iff (h : Lowered p m) {name : String} :
    name ∈ m.functions.map (·.name) ↔ p.Declares name := by
  constructor
  · intro hname
    obtain ⟨f, hf, rfl⟩ := List.mem_map.mp hname
    obtain ⟨stmt, hstmt, hlowers⟩ := h.exists_procedure hf
    cases hlowers with
    | procedure _ => exact ⟨_, _, _, hstmt⟩
  · rintro ⟨exported, body, loc, hstmt⟩
    obtain ⟨f, hf, hlowers⟩ := exists_of_forall₂ h.functions.flip hstmt
    cases hlowers with
    | procedure _ => exact List.mem_map.mpr ⟨_, hf, rfl⟩

end Lowered

end EchoLang
