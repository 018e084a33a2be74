import EchoLang.Proofs.Except
import EchoLang.Wasm.Encode

namespace EchoLang.Wasm

-- Blocks and loops take nothing and return nothing.
inductive Code where
  | operate (op : Operation)
  | call (index : Nat)
  | block (body : List Code)
  | loop (body : List Code)
  | branch (depth : Nat)
  | branchIf (depth : Nat)

structure FunctionType where
  params : List NumKind
  results : List NumKind
deriving DecidableEq

-- A function of the host. Its type is given by a number, as all types are.
structure Import where
  module : String
  field : String
  type : Nat

-- Locals come in groups of one kind.
structure Function where
  type : Nat
  locals : List (Nat × NumKind)
  body : List Code

-- The pages of a memory, at first and at most.
structure Limits where
  min : Nat
  max : Nat

inductive ExportItem where
  | function (index : Nat)
  | memory (index : Nat)

structure Export where
  name : String
  item : ExportItem

-- The custom section only serves tools that read names.
structure Module where
  types : List FunctionType
  imports : List Import
  functions : List Function
  memories : List Limits
  exports : List Export
  custom : Bytes

section Write

mutual

def Code.write : Code → Bytes
  | .operate op => encodeOperation op
  | .call index => 0x10 :: unsigned index
  | .block body => 0x02 :: 0x40 :: (writeCode body ++ [0x0B])
  | .loop body => 0x03 :: 0x40 :: (writeCode body ++ [0x0B])
  | .branch depth => 0x0C :: unsigned depth
  | .branchIf depth => 0x0D :: unsigned depth

def writeCode : List Code → Bytes
  | [] => []
  | c :: rest => c.write ++ writeCode rest

end

def FunctionType.write (t : FunctionType) : Bytes :=
  0x60 :: (vector (t.params.map fun k => [valueType k]) ++
    vector (t.results.map fun k => [valueType k]))

def Import.write (i : Import) : Bytes :=
  text i.module ++ text i.field ++ 0x00 :: unsigned i.type

def Function.write (f : Function) : Bytes :=
  sized (vector (f.locals.map fun (count, k) => unsigned count ++ [valueType k]) ++
    writeCode f.body ++ [0x0B])

def Limits.write (l : Limits) : Bytes :=
  0x01 :: (unsigned l.min ++ unsigned l.max)

def Export.write (e : Export) : Bytes :=
  text e.name ++
    match e.item with
    | .function index => 0x00 :: unsigned index
    | .memory index => 0x02 :: unsigned index

def Module.write (m : Module) : Bytes :=
  header ++
    part 1 (vector (m.types.map (·.write))) ++
    part 2 (vector (m.imports.map (·.write))) ++
    part 3 (vector (m.functions.map fun f => unsigned f.type)) ++
    part 5 (vector (m.memories.map (·.write))) ++
    part 7 (vector (m.exports.map (·.write))) ++
    part 10 (vector (m.functions.map (·.write))) ++
    part 0 m.custom

end Write

section Resolve

mutual

def resolveInstr (names : List String) (scopes : List Label) : Instr → Except CompileError Code
  | .operate op => .ok (.operate op)
  | .call name => (calleeIndex names name).map .call
  | .block label body => (resolveBody names (label :: scopes) body).map .block
  | .loop label body => (resolveBody names (label :: scopes) body).map .loop
  | .branch label => (branchDepth scopes label).map .branch
  | .branchIf label => (branchDepth scopes label).map .branchIf

def resolveBody (names : List String) (scopes : List Label) :
    List Instr → Except CompileError (List Code)
  | [] => .ok []
  | i :: rest => do
    let first ← resolveInstr names scopes i
    let others ← resolveBody names scopes rest
    return first :: others

end

theorem of_resolveBody_cons {names : List String} {scopes : List Label} {i : Instr}
    {rest : List Instr} {code : List Code} (h : resolveBody names scopes (i :: rest) = .ok code) :
    ∃ first others, resolveInstr names scopes i = .ok first ∧
      resolveBody names scopes rest = .ok others ∧ code = first :: others := by
  rw [resolveBody] at h
  obtain ⟨first, hfirst, h⟩ := exists_of_bind_eq_ok h
  obtain ⟨others, hothers, h⟩ := exists_of_bind_eq_ok h
  cases h
  exact ⟨first, others, hfirst, hothers, rfl⟩

def resolveFunction (m : CodeModule) (f : FunctionDef) : Except CompileError Function :=
  (resolveBody (functionNames m) [] f.body).map fun body =>
    ⟨signatureIndex m none, if f.locals = [] then [] else [(f.locals.length, .f32)], body⟩

def resolveExports (m : CodeModule) : List Export :=
  ⟨Target.memoryName, .memory 0⟩ ::
    ((indexedFunctions m).filter (·.2.exported)).map fun (index, f) => ⟨f.name, .function index⟩

-- The tree of a module, or the first branch or call that leads nowhere.
def resolve (m : CodeModule) : Except CompileError Module :=
  (m.functions.mapM (resolveFunction m)).map fun functions =>
    { types := (signatures m).map fun s => ⟨s.toList, []⟩
      imports := m.imports.map fun e => ⟨e.module, e.field, signatureIndex m (some e.param)⟩
      functions := functions
      memories := [⟨1, 2⟩]
      exports := resolveExports m
      custom := nameSection m }

end Resolve

section Encode

mutual

theorem encodeInstr_eq (names : List String) (scopes : List Label) : ∀ i : Instr,
    encodeInstr names scopes i = (resolveInstr names scopes i).map Code.write
  | .operate op => by
      rw [encodeInstr, resolveInstr, Except.map, Code.write]
  | .call name => by
      rw [encodeInstr, resolveInstr]
      cases calleeIndex names name with
      | error e => rfl
      | ok index => simp only [Except.map, Code.write]; rfl
  | .block label body => by
      rw [encodeInstr, resolveInstr, encodeBody_eq names (label :: scopes) body]
      cases resolveBody names (label :: scopes) body with
      | error e => rfl
      | ok code => simp only [Except.map, Code.write]; rfl
  | .loop label body => by
      rw [encodeInstr, resolveInstr, encodeBody_eq names (label :: scopes) body]
      cases resolveBody names (label :: scopes) body with
      | error e => rfl
      | ok code => simp only [Except.map, Code.write]; rfl
  | .branch label => by
      rw [encodeInstr, resolveInstr]
      cases branchDepth scopes label with
      | error e => rfl
      | ok depth => simp only [Except.map, Code.write]; rfl
  | .branchIf label => by
      rw [encodeInstr, resolveInstr]
      cases branchDepth scopes label with
      | error e => rfl
      | ok depth => simp only [Except.map, Code.write]; rfl

theorem encodeBody_eq (names : List String) (scopes : List Label) : ∀ body : List Instr,
    encodeBody names scopes body = (resolveBody names scopes body).map writeCode
  | [] => by
      rw [encodeBody, resolveBody, Except.map, writeCode]
  | i :: rest => by
      rw [encodeBody, resolveBody, encodeInstr_eq names scopes i, encodeBody_eq names scopes rest]
      cases resolveInstr names scopes i with
      | error e => rfl
      | ok first =>
          cases resolveBody names scopes rest with
          | error e => rfl
          | ok others =>
              simp only [Except.map, bind, Except.bind, pure, Except.pure, writeCode]

end

theorem encodeFunction_eq (m : CodeModule) (f : FunctionDef) :
    encodeFunction (functionNames m) f = (resolveFunction m f).map Function.write := by
  rw [encodeFunction, resolveFunction, encodeBody_eq]
  cases resolveBody (functionNames m) [] f.body with
  | error e => rfl
  | ok code =>
      by_cases hlocals : f.locals = []
      · simp [Except.map, Function.write, encodeLocals, hlocals, bind, Except.bind, pure,
          Except.pure]
      · simp [Except.map, Function.write, encodeLocals, hlocals, bind, Except.bind, pure,
          Except.pure]

theorem type_of_resolveFunction {m : CodeModule} {f : FunctionDef} {g : Function}
    (h : resolveFunction m f = .ok g) : g.type = signatureIndex m none := by
  obtain ⟨code, _, hg⟩ := exists_of_map_eq_ok h
  rw [← hg]

theorem types_of_resolve {m : CodeModule} {fs : List FunctionDef} {gs : List Function}
    (h : List.Forall₂ (fun f g => resolveFunction m f = .ok g) fs gs) :
    gs.map (fun g => unsigned g.type) = fs.map fun _ => unsigned (signatureIndex m none) := by
  induction h with
  | nil => rfl
  | cons hf _ ih => rw [List.map_cons, List.map_cons, type_of_resolveFunction hf, ih]

theorem exports_eq (m : CodeModule) : exports m = (resolveExports m).map Export.write := by
  have hzero : unsigned 0 = [0x00] := by
    rw [unsigned]
    rfl
  simp [exports, resolveExports, Export.write, hzero, Function.comp_def]

-- Encoding resolves a module and writes it down.
theorem encode_eq (m : CodeModule) : encode m = (resolve m).map Module.write := by
  have hmemory : Limits.write ⟨1, 2⟩ = memory := by
    simp [Limits.write, unsigned, memory]
  unfold encode resolve
  rw [mapM_eq_map (encodeFunction_eq m)]
  cases hfunctions : m.functions.mapM (resolveFunction m) with
  | error e => rfl
  | ok functions =>
      have htypes := types_of_resolve (forall₂_of_mapM hfunctions)
      simp only [Except.map, bind, Except.bind, pure, Except.pure, Module.write, exports_eq,
        htypes, List.map_cons, List.map_nil, hmemory, List.map_map]
      rfl

end Encode

end EchoLang.Wasm
