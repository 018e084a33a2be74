import EchoLang.Proofs.Compile.Entry
import EchoLang.Proofs.Typing.Simplify
import EchoLang.Proofs.Wasm.Validation

namespace EchoLang.Wasm

-- What a module needs to have a valid encoding.
structure Encodable (m : CodeModule) : Prop where
  imports : m.imports = [.echo]
  typed : ∀ f ∈ m.functions, f.Typed
  names : (m.functions.map (·.name)).Nodup
  echo : ∀ f ∈ m.functions, f.name ≠ Effect.echo.name
  memory : ∀ f ∈ m.functions, f.exported → f.name ≠ Target.memoryName

section Signatures

variable {m : CodeModule}

theorem getElem?_signatureIndex {s : Signature} (h : s ∈ signatures m) :
    (signatures m)[signatureIndex m s]? = some s := by
  have hlt : signatureIndex m s < (signatures m).length := List.idxOf_lt_length_of_mem h
  rw [List.getElem?_eq_getElem hlt]
  exact congrArg some (List.getElem_idxOf hlt)

theorem mem_signatures_of_import {e : Effect} (h : e ∈ m.imports) :
    some e.param ∈ signatures m := by
  unfold signatures
  rw [List.mem_eraseDups, List.mem_append]
  exact .inl (List.mem_map_of_mem h)

theorem mem_signatures_of_function {f : FunctionDef} (h : f ∈ m.functions) :
    none ∈ signatures m := by
  unfold signatures
  rw [List.mem_eraseDups, List.mem_append]
  exact .inr (List.mem_map_of_mem (f := fun _ => none) h)

end Signatures

theorem lastIndex?_of_not_mem {names : List String} {name : String} (h : name ∉ names) :
    lastIndex? names name = none := by
  induction names with
  | nil => rfl
  | cons own rest ih =>
      rw [List.mem_cons, not_or] at h
      rw [lastIndex?, ih h.2]
      exact if_neg (Ne.symm h.1)

theorem mem_of_indexedFunctions {m : CodeModule} {index : Nat} {f : FunctionDef}
    (h : (index, f) ∈ indexedFunctions m) :
    index < m.imports.length + m.functions.length ∧ f ∈ m.functions := by
  obtain ⟨⟨g, i⟩, hg, heq⟩ := List.mem_map.mp h
  cases heq
  have hget := List.mem_zipIdx_iff_getElem?.mp hg
  have hlt : i < m.functions.length := (List.getElem?_eq_some_iff.mp hget).1
  exact ⟨by omega, List.mem_of_getElem? hget⟩

namespace Encodable

variable {m : CodeModule} {tree : Module}

-- Calls of `echo` lead to the import, because no function is called like it.
theorem calleeIndex_echo (h : Encodable m) :
    calleeIndex (functionNames m) Effect.echo.name = .ok 0 := by
  have hnames : Effect.echo.name ∉ m.functions.map (·.name) := by
    intro hmem
    obtain ⟨f, hf, hname⟩ := List.mem_map.mp hmem
    exact h.echo f hf hname
  unfold calleeIndex functionNames
  rw [h.imports]
  simp [lastIndex?, lastIndex?_of_not_mem hnames]

theorem functionType?_echo (h : Encodable m) (htree : resolve m = .ok tree) :
    tree.functionType? 0 = some ⟨[Effect.echo.param], []⟩ := by
  obtain ⟨functions, _, rfl⟩ := exists_of_map_eq_ok htree
  have hmem : some Effect.echo.param ∈ signatures m :=
    mem_signatures_of_import (by rw [h.imports]; exact List.mem_singleton_self _)
  simp [Module.functionType?, h.imports, getElem?_signatureIndex hmem]

theorem valid_function (h : Encodable m) (htree : resolve m = .ok tree) {f : FunctionDef}
    (hf : f ∈ m.functions) {g : Function} (hg : resolveFunction m f = .ok g) : g.Valid tree := by
  obtain ⟨code, hcode, rfl⟩ := exists_of_map_eq_ok hg
  have hecho : ∀ index, calleeIndex (functionNames m) Effect.echo.name = .ok index →
      tree.functionType? index = some ⟨[Effect.echo.param], []⟩ := by
    intro index hindex
    rw [h.calleeIndex_echo] at hindex
    cases hindex
    exact h.functionType?_echo htree
  have hbody : SequenceHasType tree (List.replicate f.locals.length .f32) ([] : List Label).length
      code [] [] := hasType_of_typed hecho (h.typed f hf) hcode
  obtain ⟨functions, _, rfl⟩ := exists_of_map_eq_ok htree
  refine ⟨⟨[], []⟩, ?_, ?_⟩
  · simp [getElem?_signatureIndex (mem_signatures_of_function hf)]
  · have hlocals : Function.localKinds ⟨signatureIndex m none,
        if f.locals = [] then [] else [(f.locals.length, .f32)], code⟩ =
        List.replicate f.locals.length .f32 := by
      by_cases hnil : f.locals = [] <;> simp [Function.localKinds, hnil]
    rw [List.nil_append, hlocals]
    exact hbody

-- The names of the exports are the memory's and those of exported functions.
theorem nodup_exports (h : Encodable m) : ((resolveExports m).map (·.name)).Nodup := by
  have hnames : (indexedFunctions m).map (·.2.name) = m.functions.map (·.name) := by
    calc (indexedFunctions m).map (·.2.name)
        = (m.functions.zipIdx.map Prod.fst).map (·.name) := by
          rw [indexedFunctions, List.map_map, List.map_map]
          rfl
      _ = m.functions.map (·.name) := by rw [List.zipIdx_map_fst]
  have hfunctions : (((indexedFunctions m).filter (·.2.exported)).map (·.2.name)).Nodup := by
    have hsublist := (List.filter_sublist (l := indexedFunctions m) (p := (·.2.exported))).map
      (·.2.name)
    rw [hnames] at hsublist
    exact h.names.sublist hsublist
  have hmemory : Target.memoryName ∉
      ((indexedFunctions m).filter (·.2.exported)).map (·.2.name) := by
    intro hmem
    obtain ⟨⟨index, f⟩, hindexed, hname⟩ := List.mem_map.mp hmem
    obtain ⟨hf, hexported⟩ := List.mem_filter.mp hindexed
    exact h.memory f (mem_of_indexedFunctions hf).2 hexported hname
  unfold resolveExports
  rw [List.map_cons, List.map_map]
  exact List.nodup_cons.mpr ⟨hmemory, hfunctions⟩

theorem valid_export (h : resolve m = .ok tree) {e : Export} (he : e ∈ tree.exports) :
    e.item.Valid tree := by
  obtain ⟨functions, hfunctions, rfl⟩ := exists_of_map_eq_ok h
  have hlength := (forall₂_of_mapM hfunctions).length_eq
  rcases List.mem_cons.mp he with rfl | he
  · exact Nat.one_pos
  · obtain ⟨⟨index, f⟩, hindexed, rfl⟩ := List.mem_map.mp he
    have hlt := (mem_of_indexedFunctions (List.mem_filter.mp hindexed).1).1
    simpa [ExportItem.Valid, ← hlength] using hlt

theorem valid_tree (h : Encodable m) (htree : resolve m = .ok tree) : tree.Valid := by
  obtain ⟨functions, hfunctions, hfields⟩ := exists_of_map_eq_ok htree
  constructor
  case types =>
    rw [← hfields]
    simp
  case imports =>
    rw [← hfields]
    intro i hi
    obtain ⟨e, he, rfl⟩ := List.mem_map.mp hi
    rw [List.length_map]
    exact List.idxOf_lt_length_of_mem (mem_signatures_of_import he)
  case functions =>
    intro g hg
    have hg' : g ∈ functions := by
      rw [← hfields] at hg
      exact hg
    obtain ⟨f, hf, hresolved⟩ := exists_of_forall₂ (forall₂_of_mapM hfunctions) hg'
    exact h.valid_function htree hf hresolved
  case memories =>
    rw [← hfields]
    simp [pageLimit]
  case exports =>
    intro e he
    exact valid_export htree he
  case names =>
    rw [← hfields]
    exact h.nodup_exports

theorem exists_encode (h : Encodable m) : ∃ binary, encode m = .ok binary := by
  have hfunctions : ∀ f ∈ m.functions, ∃ g, resolveFunction m f = .ok g := by
    intro f hf
    obtain ⟨code, hcode⟩ := exists_resolveBody h.calleeIndex_echo (h.typed f hf)
    rw [resolveFunction, hcode]
    exact ⟨_, rfl⟩
  obtain ⟨functions, hfunctions⟩ := exists_mapM_of_forall hfunctions
  rw [encode_eq, resolve, hfunctions]
  exact ⟨_, rfl⟩

end Encodable

-- The module of a source text is that of its program with an entry point.
theorem of_ofSource {target : Target} {unit source : String} {optimize : Bool} {m : CodeModule}
    (h : CodeModule.ofSource target unit source optimize = .ok m) :
    ∃ p added, Program.ofSource source = .ok p ∧
      (CodeModule.empty unit).addProgram target p.withEntry = (added, none) ∧
      m = added.simplifyIf optimize := by
  unfold CodeModule.ofSource at h
  split at h
  · cases h
  · rename_i added hadd
    cases h
    obtain ⟨p, hprogram, hadd⟩ := CodeModule.of_addSource hadd
    exact ⟨p, added, hprogram, hadd, rfl⟩

theorem encodable_of_ofSource {unit source : String} {optimize : Bool} {m : CodeModule}
    (h : CodeModule.ofSource .wasm unit source optimize = .ok m) : Encodable m := by
  obtain ⟨p, added, hprogram, hadd, rfl⟩ := of_ofSource h
  have hlowered := lowered_of_addProgram hadd
  constructor
  case imports =>
    rw [CodeModule.imports_simplifyIf]
    exact hlowered.imports
  case typed => exact hlowered.typed optimize
  case names =>
    rw [CodeModule.names_simplifyIf]
    exact hlowered.names
  case echo =>
    intro f hf hname
    obtain ⟨g, hg, hsame, _⟩ := CodeModule.exists_of_mem_simplifyIf hf
    exact hlowered.echo_not_mem_names hprogram (List.mem_map.mpr ⟨g, hg, hsame.trans hname⟩)
  case memory =>
    intro f hf hexported hname
    obtain ⟨g, hg, hsame, hsame'⟩ := CodeModule.exists_of_mem_simplifyIf hf
    obtain ⟨functions, _, rfl, hreserved⟩ := CodeModule.of_addProgram hadd
    exact hreserved g hg ⟨rfl, hsame'.trans hexported, hsame.trans hname⟩

-- The module of a source text has a valid binary.
theorem valid_of_ofSource {unit source : String} {optimize : Bool} {m : CodeModule}
    (h : CodeModule.ofSource .wasm unit source optimize = .ok m) :
    ∃ tree, resolve m = .ok tree ∧ tree.Valid ∧ encode m = .ok tree.write := by
  have hencodable := encodable_of_ofSource h
  obtain ⟨binary, hbinary⟩ := hencodable.exists_encode
  rw [encode_eq] at hbinary ⊢
  obtain ⟨tree, htree, rfl⟩ := exists_of_map_eq_ok hbinary
  exact ⟨tree, htree, hencodable.valid_tree htree, hbinary⟩

end EchoLang.Wasm

namespace EchoLang

-- What compiling writes for WebAssembly is a valid module, simplified or not.
theorem valid_of_compile {printer : Wasm.Printer} {unit source : String} {optimize : Bool}
    {artifact : Artifact} (h : compile printer .wasm unit source optimize = .ok artifact) :
    ∃ m tree, CodeModule.ofSource .wasm unit source optimize = .ok m ∧
      Wasm.resolve m = .ok tree ∧ artifact.binary = tree.write ∧ tree.Valid := by
  obtain ⟨m, hm, hemit⟩ := exists_of_bind_eq_ok h
  obtain ⟨tree, htree, hvalid, hencode⟩ := Wasm.valid_of_ofSource hm
  refine ⟨m, tree, hm, htree, ?_, hvalid⟩
  rw [CodeModule.emit, hencode] at hemit
  dsimp only [bind, Except.bind] at hemit
  split at hemit
  · cases hemit
    rfl
  · cases hemit

-- A loop, a choice, a private procedure called like the memory and an exported one.
def countdownSource : String :=
  "let x = 3 while (x > 0) if (x == 2) echo x else echo 1 + 2 end x = x - 1 end " ++
    "proc memory end export proc tick echo 1 end"

theorem valid_of_compile_countdown :
    ∃ artifact, compile .quoting .wasm "countdown" countdownSource true = .ok artifact ∧
      ∃ m tree, CodeModule.ofSource .wasm "countdown" countdownSource true = .ok m ∧
        Wasm.resolve m = .ok tree ∧ artifact.binary = tree.write ∧ tree.Valid := by
  have hcompiles : (compile .quoting .wasm "countdown" countdownSource true).toBool = true := by
    decide +kernel
  cases hartifact : compile .quoting .wasm "countdown" countdownSource true with
  | error e =>
      rw [hartifact] at hcompiles
      cases hcompiles
  | ok artifact => exact ⟨artifact, rfl, valid_of_compile hartifact⟩

end EchoLang
