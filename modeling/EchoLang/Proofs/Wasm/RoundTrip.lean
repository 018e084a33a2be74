import EchoLang.Proofs.Wasm.Compiled
import EchoLang.Proofs.Wasm.Decode
import Mathlib.Algebra.Order.BigOperators.Group.List
import Mathlib.Algebra.Order.Group.Nat
import Mathlib.Data.List.Perm.Subperm

namespace EchoLang

mutual

-- The operations in an instruction, at every level of nesting.
def Instr.operations : Instr → List Operation
  | .operate op => [op]
  | .block _ body => allOperations body
  | .loop _ body => allOperations body
  | .call _ => []
  | .branch _ => []
  | .branchIf _ => []

def allOperations : List Instr → List Operation
  | [] => []
  | i :: rest => i.operations ++ allOperations rest

end

namespace Wasm

section Resolved

mutual

-- The same instruction with numbers for names. The number of a scope says how many
-- scopes lie between the branch and the innermost scope of that label, and the number
-- of a function is the last one with that name.
inductive Resolved (names : List String) : List Label → Instr → Code → Prop where
  | operate {scopes : List Label} {op : Operation} :
      Resolved names scopes (.operate op) (.operate op)
  | call {scopes : List Label} {name : String} {index : Nat} (h : names[index]? = some name)
      (hlast : name ∉ names.drop (index + 1)) : Resolved names scopes (.call name) (.call index)
  | block {scopes : List Label} {label : Label} {body : List Instr} {code : List Code}
      (h : AllResolved names (label :: scopes) body code) :
      Resolved names scopes (.block label body) (.block code)
  | loop {scopes : List Label} {label : Label} {body : List Instr} {code : List Code}
      (h : AllResolved names (label :: scopes) body code) :
      Resolved names scopes (.loop label body) (.loop code)
  | branch {scopes : List Label} {label : Label} {depth : Nat} (h : scopes[depth]? = some label)
      (hfirst : label ∉ scopes.take depth) : Resolved names scopes (.branch label) (.branch depth)
  | branchIf {scopes : List Label} {label : Label} {depth : Nat}
      (h : scopes[depth]? = some label) (hfirst : label ∉ scopes.take depth) :
      Resolved names scopes (.branchIf label) (.branchIf depth)

inductive AllResolved (names : List String) : List Label → List Instr → List Code → Prop where
  | nil {scopes : List Label} : AllResolved names scopes [] []
  | cons {scopes : List Label} {i : Instr} {c : Code} {rest : List Instr} {code : List Code}
      (first : Resolved names scopes i c) (later : AllResolved names scopes rest code) :
      AllResolved names scopes (i :: rest) (c :: code)

end

variable {names : List String} {scopes : List Label} {name : String} {label : Label}

theorem not_mem_of_lastIndex? (h : lastIndex? names name = none) : name ∉ names := by
  induction names with
  | nil => exact List.not_mem_nil
  | cons own rest ih =>
      rw [lastIndex?] at h
      split at h
      · cases h
      · rename_i hrest
        split at h
        · cases h
        · rename_i hown
          exact List.not_mem_cons_of_ne_of_not_mem (Ne.symm hown) (ih hrest)

theorem getElem?_of_lastIndex? {index : Nat} (h : lastIndex? names name = some index) :
    names[index]? = some name ∧ name ∉ names.drop (index + 1) := by
  induction names generalizing index with
  | nil => cases h
  | cons own rest ih =>
      rw [lastIndex?] at h
      split at h
      · rename_i hrest
        cases h
        exact ih hrest
      · rename_i hrest
        split at h
        · rename_i hown
          cases h
          exact ⟨congrArg some hown, not_mem_of_lastIndex? hrest⟩
        · cases h

theorem of_calleeIndex {index : Nat} (h : calleeIndex names name = .ok index) :
    names[index]? = some name ∧ name ∉ names.drop (index + 1) := by
  unfold calleeIndex at h
  split at h
  · rename_i hfound
    cases h
    exact getElem?_of_lastIndex? hfound
  · cases h

theorem of_branchDepth {depth : Nat} (h : branchDepth scopes label = .ok depth) :
    scopes[depth]? = some label ∧ label ∉ scopes.take depth := by
  unfold branchDepth at h
  split at h
  · rename_i hfound
    cases h
    obtain ⟨hlt, hlabel, hfirst⟩ := List.idxOf?_eq_some_iff.mp hfound
    refine ⟨List.getElem?_eq_some_iff.mpr ⟨hlt, hlabel⟩, ?_⟩
    intro hmem
    obtain ⟨j, hj, hlabel'⟩ := List.mem_take_iff_getElem.mp hmem
    exact hfirst j (by omega) hlabel'
  · cases h

mutual

theorem resolved_of_resolveInstr : ∀ (i : Instr) {scopes : List Label} {c : Code},
    resolveInstr names scopes i = .ok c → Resolved names scopes i c
  | .operate op, scopes, c, h => by
      cases h
      exact .operate
  | .call name, scopes, c, h => by
      obtain ⟨index, hindex, rfl⟩ := exists_of_map_eq_ok h
      obtain ⟨hget, hlast⟩ := of_calleeIndex hindex
      exact .call hget hlast
  | .block label body, scopes, c, h => by
      obtain ⟨code, hcode, rfl⟩ := exists_of_map_eq_ok h
      exact .block (resolved_of_resolveBody body hcode)
  | .loop label body, scopes, c, h => by
      obtain ⟨code, hcode, rfl⟩ := exists_of_map_eq_ok h
      exact .loop (resolved_of_resolveBody body hcode)
  | .branch label, scopes, c, h => by
      obtain ⟨depth, hdepth, rfl⟩ := exists_of_map_eq_ok h
      obtain ⟨hget, hfirst⟩ := of_branchDepth hdepth
      exact .branch hget hfirst
  | .branchIf label, scopes, c, h => by
      obtain ⟨depth, hdepth, rfl⟩ := exists_of_map_eq_ok h
      obtain ⟨hget, hfirst⟩ := of_branchDepth hdepth
      exact .branchIf hget hfirst

theorem resolved_of_resolveBody : ∀ (body : List Instr) {scopes : List Label} {code : List Code},
    resolveBody names scopes body = .ok code → AllResolved names scopes body code
  | [], scopes, code, h => by
      cases h
      exact .nil
  | i :: rest, scopes, code, h => by
      obtain ⟨first, others, hfirst, hothers, rfl⟩ := of_resolveBody_cons h
      exact .cons (resolved_of_resolveInstr i hfirst) (resolved_of_resolveBody rest hothers)

end

end Resolved

section Small

variable {names : List String}

mutual

-- Every scope around a branch takes bytes, so that its depth is less than the size.
theorem small_of_resolved (hnames : names.length < limit) : ∀ (i : Instr) {scopes : List Label}
    {c : Code}, Resolved names scopes i c → (∀ op ∈ i.operations, op.Fits limit) →
    scopes.length + c.write.length < limit → c.Small
  | .operate op, scopes, _, .operate, hslots, _ => by
      rw [Code.Small]
      exact hslots op (by rw [Instr.operations]; exact List.mem_singleton_self op)
  | .call name, scopes, .call index, .call hget _, _, _ => by
      obtain ⟨hindex, _⟩ := List.getElem?_eq_some_iff.mp hget
      rw [Code.Small]
      exact hindex.trans hnames
  | .block label body, scopes, .block code, .block h, hslots, hsize => by
      rw [Instr.operations] at hslots
      simp only [Code.write, List.length_append, List.length_cons] at hsize
      rw [Code.Small]
      exact allSmall_of_resolved hnames body h hslots (by simp only [List.length_cons]; omega)
  | .loop label body, scopes, .loop code, .loop h, hslots, hsize => by
      rw [Instr.operations] at hslots
      simp only [Code.write, List.length_append, List.length_cons] at hsize
      rw [Code.Small]
      exact allSmall_of_resolved hnames body h hslots (by simp only [List.length_cons]; omega)
  | .branch label, scopes, .branch depth, .branch hget _, _, hsize => by
      obtain ⟨hdepth, _⟩ := List.getElem?_eq_some_iff.mp hget
      rw [Code.Small]
      omega
  | .branchIf label, scopes, .branchIf depth, .branchIf hget _, _, hsize => by
      obtain ⟨hdepth, _⟩ := List.getElem?_eq_some_iff.mp hget
      rw [Code.Small]
      omega

theorem allSmall_of_resolved (hnames : names.length < limit) : ∀ (body : List Instr)
    {scopes : List Label} {code : List Code}, AllResolved names scopes body code →
    (∀ op ∈ allOperations body, op.Fits limit) →
    scopes.length + (writeCode code).length < limit → AllSmall code
  | [], scopes, [], .nil, _, _ => by
      rw [AllSmall]
      trivial
  | i :: rest, scopes, c :: code, .cons first later, hslots, hsize => by
      rw [allOperations] at hslots
      simp only [writeCode, List.length_append] at hsize
      rw [AllSmall]
      refine ⟨?_, ?_⟩
      · exact small_of_resolved hnames i first
          (fun op hop => hslots op (List.mem_append_left _ hop)) (by omega)
      · exact allSmall_of_resolved hnames rest later
          (fun op hop => hslots op (List.mem_append_right _ hop)) (by omega)

end

end Small

section Names

-- The members of a list, each behind its position.
def numbered {α : Type} (l : List α) : List (Nat × α) :=
  l.zipIdx.map Prod.swap

theorem lt_length_of_mem_numbered {α : Type} {l : List α} {entry : Nat × α}
    (h : entry ∈ numbered l) : entry.1 < l.length := by
  obtain ⟨⟨a, i⟩, hmem, rfl⟩ := List.mem_map.mp h
  obtain ⟨hlt, _⟩ := List.getElem?_eq_some_iff.mp (List.mem_zipIdx_iff_getElem?.mp hmem)
  exact hlt

@[simp] theorem length_numbered {α : Type} (l : List α) : (numbered l).length = l.length := by
  simp [numbered]

def namesOf (m : CodeModule) : Names where
  unit := m.unit
  functions := numbered (functionNames m)
  locals := (indexedFunctions m).map fun (index, f) => (index, numbered f.locals)

theorem nameMap_eq (names : List String) :
    nameMap names = vector ((numbered names).map writeName) := by
  rw [nameMap, numbered, List.map_map]
  rfl

theorem nameSection_eq (m : CodeModule) : nameSection m = (namesOf m).write := by
  simp only [nameSection, Names.write, namesOf, nameMap_eq, List.map_map]
  rfl

theorem length_le_length_nameMap (names : List String) :
    names.length ≤ (nameMap names).length := by
  have hitems : ∀ w ∈ (numbered names).map writeName, w ≠ [] := by
    intro w hw
    obtain ⟨entry, _, rfl⟩ := List.mem_map.mp hw
    exact writeName_ne_nil entry
  simpa [nameMap_eq] using length_le_length_vector hitems

theorem length_le_length_part (id : UInt8) (content : Bytes) :
    content.length ≤ (part id content).length := by
  rw [part, sized, List.length_cons, List.length_append]
  omega

theorem length_le_length_vector_of_mem {items : List Bytes} {w : Bytes} (h : w ∈ items) :
    w.length ≤ (vector items).length := by
  have hflatten := (List.sublist_flatten_of_mem h).length_le
  rw [vector, List.length_append]
  omega

variable {m : CodeModule}

theorem length_functionNames_lt (h : (nameSection m).length < limit) :
    (functionNames m).length < limit := by
  have hmap := length_le_length_nameMap (functionNames m)
  have hpart := length_le_length_part 1 (nameMap (functionNames m))
  simp only [nameSection, List.length_append] at h
  omega

theorem exists_mem_indexedFunctions {f : FunctionDef} (h : f ∈ m.functions) :
    ∃ index, (index, f) ∈ indexedFunctions m := by
  obtain ⟨i, hi, rfl⟩ := List.getElem_of_mem h
  have hmem : (m.functions[i], i) ∈ m.functions.zipIdx :=
    List.mem_zipIdx_iff_getElem?.mpr (List.getElem?_eq_getElem hi)
  exact ⟨m.imports.length + i, List.mem_map.mpr ⟨(m.functions[i], i), hmem, rfl⟩⟩

theorem length_locals_lt (h : (nameSection m).length < limit) {f : FunctionDef}
    (hf : f ∈ m.functions) : f.locals.length < limit := by
  obtain ⟨index, hindexed⟩ := exists_mem_indexedFunctions hf
  have hmap := length_le_length_nameMap f.locals
  have hvector := length_le_length_vector_of_mem
    (List.mem_map_of_mem (f := fun entry => unsigned entry.1 ++ nameMap entry.2.locals) hindexed)
  have hpart := length_le_length_part 2 (vector ((indexedFunctions m).map fun entry =>
    unsigned entry.1 ++ nameMap entry.2.locals))
  simp only [nameSection, List.length_append] at h hvector
  omega

theorem small_namesOf (h : (nameSection m).length < limit) : (namesOf m).Small := by
  have hnames := length_functionNames_lt h
  constructor
  case functions =>
    intro entry hentry
    exact (lt_length_of_mem_numbered hentry).trans hnames
  case locals =>
    intro entry hentry
    obtain ⟨⟨index, f⟩, hf, rfl⟩ := List.mem_map.mp hentry
    obtain ⟨hindex, hmem⟩ := mem_of_indexedFunctions hf
    refine ⟨?_, ?_⟩
    · simp only [functionNames, List.length_append, List.length_map] at hnames
      dsimp only
      omega
    · intro slot hslot
      exact (lt_length_of_mem_numbered hslot).trans (length_locals_lt h hmem)

end Names

section Signatures

theorem nodup_signatures (m : CodeModule) : (signatures m).Nodup := nodup_eraseDups _

-- There are three signatures at all.
theorem length_signatures_le (m : CodeModule) : (signatures m).length ≤ 3 := by
  have hsubset : signatures m ⊆ [none, some .f32, some .i32] := by
    intro s _
    cases s with
    | none => simp
    | some k => cases k <;> simp
  exact ((nodup_signatures m).subperm hsubset).length_le

theorem signatureIndex_lt {m : CodeModule} {s : Signature} (h : s ∈ signatures m) :
    signatureIndex m s < 3 :=
  (List.idxOf_lt_length_of_mem h).trans_le (length_signatures_le m)

theorem length_unsigned_of_lt {n : Nat} (h : n < 128) : (unsigned n).length = 1 := by
  rw [unsigned, if_pos h]
  rfl

theorem length_flatten_le {items : List Bytes} {size : Nat} (h : ∀ w ∈ items, w.length ≤ size) :
    items.flatten.length ≤ items.length * size := by
  rw [List.length_flatten]
  have hsum := List.sum_le_card_nsmul (items.map List.length) size (by simpa using h)
  simpa using hsum

theorem length_types_lt (m : CodeModule) :
    (vector (((signatures m).map fun s => FunctionType.mk s.toList []).map (·.write))).length <
      limit := by
  have hsize : ∀ w ∈ ((signatures m).map fun s => FunctionType.mk s.toList []).map (·.write),
      w.length ≤ 4 := by
    intro w hw
    simp only [List.map_map, List.mem_map] at hw
    obtain ⟨s, _, rfl⟩ := hw
    cases s <;> simp [FunctionType.write, vector, length_unsigned_of_lt]
  have hflatten := length_flatten_le hsize
  have hthree := length_signatures_le m
  simp only [List.length_map] at hflatten
  rw [vector, List.length_append, List.length_map, List.length_map,
    length_unsigned_of_lt (by omega), limit]
  omega

end Signatures

section RoundTrip

-- The sizes of those sections that grow with the module and the slots in its code
-- have 32 bits. All other counts, sizes and indices are smaller than these.
structure SmallModule (m : CodeModule) : Prop where
  imports : (vector (m.imports.map (encodeImport m))).length < limit
  exports : (vector (exports m)).length < limit
  code : ∀ bodies, m.functions.mapM (encodeFunction (functionNames m)) = .ok bodies →
    (vector bodies).length < limit
  names : (nameSection m).length < limit
  slots : ∀ f ∈ m.functions, ∀ op ∈ allOperations f.body, op.Fits limit

-- The decoded module and its names say the same as the module. Types are found
-- through the list of types, in which none is twice.
structure Recovers (m : CodeModule) (tree : Module) (names : Names) : Prop where
  types : tree.types.Nodup
  imports : List.Forall₂ (fun e i => i.module = e.module ∧ i.field = e.field ∧
    tree.types[i.type]? = some ⟨[e.param], []⟩) m.imports tree.imports
  functions : List.Forall₂ (fun f g => tree.types[g.type]? = some ⟨[], []⟩ ∧
    g.localKinds = List.replicate f.locals.length .f32 ∧
    AllResolved (m.imports.map (·.name) ++ m.functions.map (·.name)) [] f.body g.body)
    m.functions tree.functions
  memories : tree.memories = [⟨1, 2⟩]
  exports : tree.exports = ⟨"memory", .memory 0⟩ ::
    (m.functions.zipIdx.filter (·.1.exported)).map fun (f, i) =>
      ⟨f.name, .function (m.imports.length + i)⟩
  unit : names.unit = m.unit
  functionNames : names.functions = numbered (m.imports.map (·.name) ++ m.functions.map (·.name))
  localNames : names.locals = m.functions.zipIdx.map fun (f, i) =>
    (m.imports.length + i, numbered f.locals)

variable {m : CodeModule} {tree : Module}

theorem localKinds_of_resolveFunction {f : FunctionDef} {g : Function}
    (h : resolveFunction m f = .ok g) : g.localKinds = List.replicate f.locals.length .f32 := by
  obtain ⟨code, _, rfl⟩ := exists_of_map_eq_ok h
  by_cases hnil : f.locals = [] <;> simp [Function.localKinds, hnil]

theorem resolved_of_resolveFunction {f : FunctionDef} {g : Function}
    (h : resolveFunction m f = .ok g) : AllResolved (functionNames m) [] f.body g.body := by
  obtain ⟨code, hcode, rfl⟩ := exists_of_map_eq_ok h
  exact resolved_of_resolveBody f.body hcode

theorem resolveExports_eq (m : CodeModule) : resolveExports m = ⟨"memory", .memory 0⟩ ::
    (m.functions.zipIdx.filter (·.1.exported)).map fun (f, i) =>
      ⟨f.name, .function (m.imports.length + i)⟩ := by
  rw [resolveExports, indexedFunctions, List.filter_map, List.map_map]
  rfl

theorem recovers_of_resolve (h : resolve m = .ok tree) : Recovers m tree (namesOf m) := by
  obtain ⟨functions, hfunctions, rfl⟩ := exists_of_map_eq_ok h
  constructor
  case types =>
    refine (nodup_signatures m).map ?_
    intro s s' hsame
    have hlist : s.toList = s'.toList := (FunctionType.mk.inj hsame).1
    cases s <;> cases s' <;> simp_all
  case imports =>
    rw [List.forall₂_map_right_iff]
    refine List.forall₂_same.mpr ?_
    intro e he
    simp [getElem?_signatureIndex (mem_signatures_of_import he)]
  case functions =>
    have hboth := (List.forall₂_and_left m.functions functions).mpr
      ⟨fun _ hf => hf, forall₂_of_mapM hfunctions⟩
    refine hboth.imp ?_
    rintro f g ⟨hf, hg⟩
    refine ⟨?_, localKinds_of_resolveFunction hg, resolved_of_resolveFunction hg⟩
    simp [type_of_resolveFunction hg, getElem?_signatureIndex (mem_signatures_of_function hf)]
  case memories => rfl
  case exports => exact resolveExports_eq m
  case unit => rfl
  case functionNames => rfl
  case localNames =>
    rw [namesOf, indexedFunctions, List.map_map]
    rfl

theorem index_lt_of_mem_resolveExports (hnames : (functionNames m).length < limit) {e : Export}
    (he : e ∈ resolveExports m) : e.item.index < limit := by
  rcases List.mem_cons.mp he with rfl | he
  · decide
  · obtain ⟨⟨index, f⟩, hindexed, rfl⟩ := List.mem_map.mp he
    have hlt := (mem_of_indexedFunctions (List.mem_filter.mp hindexed).1).1
    simp only [functionNames, List.length_append, List.length_map] at hnames
    simp only [ExportItem.index]
    omega

theorem small_of_resolveFunction (hsmall : SmallModule m) {f : FunctionDef} {g : Function}
    (hf : f ∈ m.functions) (hg : resolveFunction m f = .ok g) (hsize : g.write.length < limit) :
    g.Small := by
  have hresolved := resolved_of_resolveFunction hg
  have htype := type_of_resolveFunction hg
  have hindex := signatureIndex_lt (mem_signatures_of_function hf)
  constructor
  case type =>
    rw [htype, limit]
    omega
  case locals =>
    obtain ⟨code, _, rfl⟩ := exists_of_map_eq_ok hg
    have hlocals := length_locals_lt hsmall.names hf
    intro group hgroup
    dsimp only at hgroup
    split at hgroup
    · cases hgroup
    · rw [List.mem_singleton.mp hgroup]
      exact hlocals
  case body =>
    refine allSmall_of_resolved (length_functionNames_lt hsmall.names) f.body hresolved
      (hsmall.slots f hf) ?_
    simp only [Function.write, sized, List.length_append] at hsize
    simp only [List.length_nil]
    omega

theorem length_declared_le {functions : List Function} (h : ∀ g ∈ functions, g.type < 128) :
    (vector (functions.map fun g => unsigned g.type)).length ≤
      (vector (functions.map (·.write))).length := by
  have hone : ∀ w ∈ functions.map fun g => unsigned g.type, w.length ≤ 1 := by
    intro w hw
    obtain ⟨g, hg, rfl⟩ := List.mem_map.mp hw
    rw [length_unsigned_of_lt (h g hg)]
  have hbodies : ∀ w ∈ functions.map (·.write), w ≠ [] := by
    intro w hw
    obtain ⟨g, _, rfl⟩ := List.mem_map.mp hw
    simp [Function.write, sized, unsigned_ne_nil]
  have hdeclared := length_flatten_le hone
  have hcode := length_le_length_flatten hbodies
  simp only [List.length_map] at hdeclared hcode
  simp only [vector, List.length_append, List.length_map]
  omega

theorem small_of_resolve (hsmall : SmallModule m) (h : resolve m = .ok tree) : tree.Small := by
  obtain ⟨functions, hfunctions, rfl⟩ := exists_of_map_eq_ok h
  have hnames := length_functionNames_lt hsmall.names
  have hcode : (vector (functions.map (·.write))).length < limit := by
    apply hsmall.code
    rw [mapM_eq_map (encodeFunction_eq m), hfunctions]
    rfl
  have hsmallFunctions : ∀ g ∈ functions, g.Small := by
    intro g hg
    obtain ⟨f, hf, hresolved⟩ := exists_of_forall₂ (forall₂_of_mapM hfunctions) hg
    exact small_of_resolveFunction hsmall hf hresolved
      ((length_le_length_vector_of_mem (List.mem_map_of_mem hg)).trans_lt hcode)
  have htypes : ∀ g ∈ functions, g.type < 128 := by
    intro g hg
    obtain ⟨f, hf, hresolved⟩ := exists_of_forall₂ (forall₂_of_mapM hfunctions) hg
    have hindex := signatureIndex_lt (mem_signatures_of_function hf)
    rw [type_of_resolveFunction hresolved]
    omega
  constructor
  case sections =>
    have hexports := hsmall.exports
    rw [exports_eq] at hexports
    simp only [Module.sections, List.forall_mem_cons]
    refine ⟨length_types_lt m, ?_, (length_declared_le htypes).trans_lt hcode, ?_, hexports, hcode,
      hsmall.names, List.forall_mem_nil _⟩
    · rw [List.map_map]
      exact hsmall.imports
    · simp [Limits.write, vector, length_unsigned_of_lt, limit]
  case imports =>
    intro i hi
    obtain ⟨e, he, rfl⟩ := List.mem_map.mp hi
    have hlt := signatureIndex_lt (mem_signatures_of_import he)
    dsimp only
    rw [limit]
    omega
  case functions => exact hsmallFunctions
  case memories => simp [limit]
  case exports => exact fun e he => index_lt_of_mem_resolveExports hnames he

-- Decoding a binary recovers the module that was encoded.
theorem decode_encode {bytes : Bytes} (h : encode m = .ok bytes) (hsmall : SmallModule m) :
    ∃ tree names, decode bytes = some (tree, names) ∧ Recovers m tree names := by
  rw [encode_eq] at h
  obtain ⟨tree, htree, rfl⟩ := exists_of_map_eq_ok h
  have hcustom : tree.custom = (namesOf m).write := by
    obtain ⟨functions, _, rfl⟩ := exists_of_map_eq_ok htree
    exact nameSection_eq m
  exact ⟨tree, namesOf m, decode_write (small_of_resolve hsmall htree) (small_namesOf hsmall.names)
    hcustom, recovers_of_resolve htree⟩

-- Two imports of different kinds, a scope inside another one of the same label, two NaNs that
-- differ in sign and payload, and a unit with a name of more than 127 bytes.
def nestedModule : CodeModule where
  unit := "αβγδεζηθικλμνξοπρστυφχψωαβγδεζηθικλμνξοπρστυφχψωαβγδεζηθικλμνξοπρστυφχψω"
  imports := [.echo, ⟨"tick", "host", "tick", .i32⟩]
  functions :=
    [⟨"main", true, ["a", "b"],
      [.block ⟨.ifExit, 0⟩
        [.loop ⟨.whileLoop, 0⟩
          [.block ⟨.ifExit, 0⟩ [.operate (.get 1), .operate .saturate, .branchIf ⟨.ifExit, 0⟩],
            .operate (.intConst (-300)), .call "tick", .branch ⟨.whileLoop, 0⟩]]]⟩,
    ⟨"helper", false, [],
      [.operate (.floatConst ⟨0x7FC00001⟩), .call "echo", .operate (.floatConst ⟨0xFFC00000⟩),
        .call "echo", .call "main"]⟩]

theorem smallModule_nestedModule : SmallModule nestedModule := by
  constructor
  case imports => decide +kernel
  case exports => decide +kernel
  case code =>
    intro bodies hbodies
    have hall : ∀ bodies ∈ (nestedModule.functions.mapM
        (encodeFunction (functionNames nestedModule))).toOption,
        (vector bodies).length < limit := by
      decide +kernel
    exact hall bodies (by rw [hbodies]; rfl)
  case names => decide +kernel
  case slots => simp [nestedModule, allOperations, Instr.operations, Operation.Fits, limit]

theorem decode_encode_nestedModule : ∃ bytes, encode nestedModule = .ok bytes ∧
    ∃ tree names, decode bytes = some (tree, names) ∧ Recovers nestedModule tree names := by
  have hencodes : (encode nestedModule).toBool = true := by decide +kernel
  obtain ⟨bytes, hbytes⟩ : ∃ bytes, encode nestedModule = .ok bytes := by
    generalize encode nestedModule = result at hencodes
    cases result with
    | error e => cases hencodes
    | ok bytes => exact ⟨bytes, rfl⟩
  exact ⟨bytes, hbytes, decode_encode hbytes smallModule_nestedModule⟩

end RoundTrip

end Wasm

end EchoLang
