import EchoLang.Proofs.Typing.Rules
import EchoLang.Proofs.Wasm.Module
import EchoLang.Proofs.Wasm.Reader

namespace EchoLang.Wasm

-- What the custom section tells: names of functions and, for each function, of its
-- locals, all with their numbers.
structure Names where
  unit : String
  functions : List (Nat × String)
  locals : List (Nat × List (Nat × String))

def writeName (entry : Nat × String) : Bytes :=
  unsigned entry.1 ++ text entry.2

def writeLocalNames (entry : Nat × List (Nat × String)) : Bytes :=
  unsigned entry.1 ++ vector (entry.2.map writeName)

def Names.write (names : Names) : Bytes :=
  text "name" ++ part 0 (text names.unit) ++ part 1 (vector (names.functions.map writeName)) ++
    part 2 (vector (names.locals.map writeLocalNames))

section Readers

-- The operation that a byte stands for without further bytes.
def plainOperation? : UInt8 → Option Operation
  | 0x45 => some .isZero
  | 0x47 => some (.intOp .ne)
  | 0x5B => some (.floatTest .eq)
  | 0x5C => some (.floatTest .ne)
  | 0x5D => some (.floatTest .lt)
  | 0x5E => some (.floatTest .gt)
  | 0x5F => some (.floatTest .le)
  | 0x60 => some (.floatTest .ge)
  | 0x70 => some .remainder
  | 0x71 => some (.intOp .and)
  | 0x72 => some (.intOp .or)
  | 0x74 => some (.intOp .shl)
  | 0x75 => some (.intOp .shr)
  | 0x92 => some (.floatOp .add)
  | 0x93 => some (.floatOp .sub)
  | 0x94 => some (.floatOp .mul)
  | 0x95 => some (.floatOp .div)
  | 0xA8 => some .truncate
  | 0xB2 => some .ofSigned
  | 0xB3 => some .ofUnsigned
  | _ => none

-- An instruction without a body, behind its first byte.
def readPlain (opcode : UInt8) : Reader Code := do
  match opcode with
  | 0x0C => return .branch (← readIndex)
  | 0x0D => return .branchIf (← readIndex)
  | 0x10 => return .call (← readIndex)
  | 0x20 => return .operate (.get (← readIndex))
  | 0x21 => return .operate (.set (← readIndex))
  | 0x41 =>
    let n : Int ← readSigned 32
    return .operate (.intConst (.ofInt n))
  | 0x43 => return .operate (.floatConst (← readFloat))
  | 0xFC =>
    expect 0x00
    return .operate .saturate
  | _ => return .operate (← liftM (plainOperation? opcode))

-- Instructions up to the end of their body. Each takes a byte at least.
def readCode : Nat → Reader (List Code)
  | 0 => failure
  | rounds + 1 => do
    let opcode ← next
    match opcode with
    | 0x0B => return []
    | 0x02 =>
      expect 0x40
      let body ← readCode rounds
      let rest ← readCode rounds
      return .block body :: rest
    | 0x03 =>
      expect 0x40
      let body ← readCode rounds
      let rest ← readCode rounds
      return .loop body :: rest
    | _ =>
      let first ← readPlain opcode
      let rest ← readCode rounds
      return first :: rest

def readBody : Reader (List Code) := fun bytes => readCode bytes.length bytes

def readKind : Reader NumKind := do
  match ← next with
  | 0x7D => return .f32
  | 0x7F => return .i32
  | _ => failure

def readFunctionType : Reader FunctionType := do
  expect 0x60
  let params ← readVector readKind
  let results ← readVector readKind
  return ⟨params, results⟩

def readImport : Reader Import := do
  let module ← readText
  let field ← readText
  expect 0x00
  let type ← readIndex
  return ⟨module, field, type⟩

def readLocals : Reader (Nat × NumKind) := do
  let count ← readIndex
  let kind ← readKind
  return (count, kind)

-- The locals and the body of a function.
def readFunction : Reader (List (Nat × NumKind) × List Code) := readSized do
  let locals ← readVector readLocals
  let body ← readBody
  return (locals, body)

def readLimits : Reader Limits := do
  expect 0x01
  let min ← readIndex
  let max ← readIndex
  return ⟨min, max⟩

def readExport : Reader Export := do
  let name ← readText
  match ← next with
  | 0x00 => return ⟨name, .function (← readIndex)⟩
  | 0x02 => return ⟨name, .memory (← readIndex)⟩
  | _ => failure

-- Types and bodies of functions stand in different sections.
def joinFunctions (declared : List Nat) (bodies : List (List (Nat × NumKind) × List Code)) :
    Option (List Function) :=
  if declared.length = bodies.length then
    some (declared.zipWith (fun type (locals, body) => ⟨type, locals, body⟩) bodies)
  else
    none

def readModule : Reader Module := do
  header.forM expect
  let types ← readPart 1 (readVector readFunctionType)
  let imports ← readPart 2 (readVector readImport)
  let declared ← readPart 3 (readVector readIndex)
  let memories ← readPart 5 (readVector readLimits)
  let exports ← readPart 7 (readVector readExport)
  let bodies ← readPart 10 (readVector readFunction)
  expect 0
  let custom ← readBytes
  let functions ← liftM (joinFunctions declared bodies)
  return { types, imports, functions, memories, exports, custom }

def readName : Reader (Nat × String) := do
  let index ← readIndex
  let name ← readText
  return (index, name)

def readLocalNames : Reader (Nat × List (Nat × String)) := do
  let index ← readIndex
  let names ← readVector readName
  return (index, names)

def readNames : Reader Names := do
  let title ← readText
  if title ≠ "name" then failure
  let unit ← readPart 0 readText
  let functions ← readPart 1 (readVector readName)
  let locals ← readPart 2 (readVector readLocalNames)
  return { unit, functions, locals }

-- The module and the names of a binary that has nothing else in it.
def decode (bytes : Bytes) : Option (Module × Names) := do
  let m ← readAll readModule bytes
  let names ← readAll readNames m.custom
  return (m, names)

end Readers

section Code

mutual

-- Every number in the code has 32 bits.
def Code.Small : Code → Prop
  | .operate op => op.Fits limit
  | .call index => index < limit
  | .block body => AllSmall body
  | .loop body => AllSmall body
  | .branch depth => depth < limit
  | .branchIf depth => depth < limit

def AllSmall : List Code → Prop
  | [] => True
  | c :: rest => c.Small ∧ AllSmall rest

end

variable {c : Code} {rest : List Code} {opcode : UInt8} {later : Bytes} {rounds : Nat}

-- The first byte of the code belongs to an instruction without a body, and the
-- others to its operands.
structure IsPlain (c : Code) (opcode : UInt8) (later : Bytes) : Prop where
  write : c.write = opcode :: later
  notEnd : opcode ≠ 0x0B
  notBlock : opcode ≠ 0x02
  notLoop : opcode ≠ 0x03
  reads : Reads (readPlain opcode) later c

theorem exists_isPlain_operate (op : Operation) (h : op.Fits limit) :
    ∃ opcode later, IsPlain (.operate op) opcode later := by
  cases op with
  | floatConst x =>
      exact ⟨0x43, float x, by rw [Code.write]; rfl, by decide, by decide, by decide,
        (reads_float x).finish (reads_pure _)⟩
  | intConst n =>
      have hvalue : Reads (pure (Code.operate (.intConst (.ofInt n.toInt)))) []
          (Code.operate (.intConst n)) := by
        rw [Int32.ofInt_toInt]
        exact reads_pure _
      exact ⟨0x41, signed n.toInt, by rw [Code.write]; rfl, by decide, by decide, by decide,
        (reads_signed n).finish hvalue⟩
  | get slot =>
      exact ⟨0x20, unsigned slot, by rw [Code.write]; rfl, by decide, by decide, by decide,
        (reads_unsigned h).finish (reads_pure _)⟩
  | set slot =>
      exact ⟨0x21, unsigned slot, by rw [Code.write]; rfl, by decide, by decide, by decide,
        (reads_unsigned h).finish (reads_pure _)⟩
  | saturate =>
      exact ⟨0xFC, [0x00], by rw [Code.write]; rfl, by decide, by decide, by decide,
        (reads_expect _).finish (reads_pure _)⟩
  | floatOp op =>
      cases op <;>
        exact ⟨_, [], by rw [Code.write]; rfl, by decide, by decide, by decide, fun _ => rfl⟩
  | floatTest test =>
      cases test <;>
        exact ⟨_, [], by rw [Code.write]; rfl, by decide, by decide, by decide, fun _ => rfl⟩
  | intOp op =>
      cases op <;>
        exact ⟨_, [], by rw [Code.write]; rfl, by decide, by decide, by decide, fun _ => rfl⟩
  | _ => exact ⟨_, [], by rw [Code.write]; rfl, by decide, by decide, by decide, fun _ => rfl⟩

theorem readCode_plain (hplain : IsPlain c opcode later)
    (hrest : ∀ rounds, (writeCode rest).length < rounds →
      Reads (readCode rounds) (writeCode rest ++ [0x0B]) rest)
    (hrounds : (c.write ++ writeCode rest).length < rounds + 1) :
    Reads (readCode (rounds + 1)) (c.write ++ (writeCode rest ++ [0x0B])) (c :: rest) := by
  rw [hplain.write] at hrounds ⊢
  simp only [List.length_append, List.length_cons] at hrounds
  have hlater := hrest rounds (by omega)
  rw [readCode]
  refine (reads_next opcode).bind ?_
  split
  · exact absurd rfl hplain.notEnd
  · exact absurd rfl hplain.notBlock
  · exact absurd rfl hplain.notLoop
  · exact hplain.reads.bind (hlater.finish (reads_pure _))

-- A scope is its opening, its body and what follows.
theorem readCode_scope {body : List Code} {scope : List Code → Code}
    (hopcode : (opcode = 0x02 ∧ scope = .block) ∨ (opcode = 0x03 ∧ scope = .loop))
    (hbody : Reads (readCode rounds) (writeCode body ++ [0x0B]) body)
    (hrest : Reads (readCode rounds) (writeCode rest ++ [0x0B]) rest) :
    Reads (readCode (rounds + 1))
      (opcode :: 0x40 :: ((writeCode body ++ [0x0B]) ++ (writeCode rest ++ [0x0B])))
      (scope body :: rest) := by
  rw [readCode]
  refine (reads_next opcode).bind ?_
  obtain ⟨rfl, rfl⟩ | ⟨rfl, rfl⟩ := hopcode
  · exact (reads_expect 0x40).bind (hbody.bind (hrest.finish (reads_pure _)))
  · exact (reads_expect 0x40).bind (hbody.bind (hrest.finish (reads_pure _)))

mutual

theorem reads_code_cons : ∀ (c : Code) {rest : List Code} {rounds : Nat}, c.Small →
    (∀ rounds, (writeCode rest).length < rounds →
      Reads (readCode rounds) (writeCode rest ++ [0x0B]) rest) →
    (c.write ++ writeCode rest).length < rounds →
    Reads (readCode rounds) (c.write ++ (writeCode rest ++ [0x0B])) (c :: rest)
  | .operate op, rest, rounds + 1, hsmall, hrest, hrounds => by
      obtain ⟨opcode, later, hplain⟩ := exists_isPlain_operate op hsmall
      exact readCode_plain hplain hrest hrounds
  | .call index, rest, rounds + 1, hsmall, hrest, hrounds => by
      have hplain : IsPlain (.call index) 0x10 (unsigned index) :=
        ⟨by rw [Code.write], by decide, by decide, by decide,
          (reads_unsigned hsmall).finish (reads_pure _)⟩
      exact readCode_plain hplain hrest hrounds
  | .branch depth, rest, rounds + 1, hsmall, hrest, hrounds => by
      have hplain : IsPlain (.branch depth) 0x0C (unsigned depth) :=
        ⟨by rw [Code.write], by decide, by decide, by decide,
          (reads_unsigned hsmall).finish (reads_pure _)⟩
      exact readCode_plain hplain hrest hrounds
  | .branchIf depth, rest, rounds + 1, hsmall, hrest, hrounds => by
      have hplain : IsPlain (.branchIf depth) 0x0D (unsigned depth) :=
        ⟨by rw [Code.write], by decide, by decide, by decide,
          (reads_unsigned hsmall).finish (reads_pure _)⟩
      exact readCode_plain hplain hrest hrounds
  | .block body, rest, rounds + 1, hsmall, hrest, hrounds => by
      simp only [Code.write, List.cons_append, List.length_append, List.length_cons] at hrounds
      have hbody := reads_writeCode body hsmall rounds (by omega)
      have h := readCode_scope (.inl ⟨rfl, rfl⟩) hbody (hrest rounds (by omega))
      simpa only [Code.write, List.cons_append, List.append_assoc] using h
  | .loop body, rest, rounds + 1, hsmall, hrest, hrounds => by
      simp only [Code.write, List.cons_append, List.length_append, List.length_cons] at hrounds
      have hbody := reads_writeCode body hsmall rounds (by omega)
      have h := readCode_scope (.inr ⟨rfl, rfl⟩) hbody (hrest rounds (by omega))
      simpa only [Code.write, List.cons_append, List.append_assoc] using h

theorem reads_writeCode : ∀ code : List Code, AllSmall code → ∀ rounds,
    (writeCode code).length < rounds → Reads (readCode rounds) (writeCode code ++ [0x0B]) code
  | [], _, rounds + 1, _ => by
      rw [readCode, writeCode]
      exact (reads_next 0x0B).finish (reads_pure _)
  | c :: rest, hsmall, rounds, hrounds => by
      rw [AllSmall] at hsmall
      rw [writeCode] at hrounds ⊢
      rw [List.append_assoc]
      exact reads_code_cons c hsmall.1 (reads_writeCode rest hsmall.2) hrounds

end

theorem reads_body {code : List Code} (h : AllSmall code) :
    Reads readBody (writeCode code ++ [0x0B]) code := by
  intro later
  have hrounds : (writeCode code).length < (writeCode code ++ [0x0B] ++ later).length := by
    simp only [List.length_append, List.length_cons, List.length_nil]
    omega
  exact reads_writeCode code h _ hrounds later

end Code

section Sections

theorem reads_kind (k : NumKind) : Reads readKind [valueType k] k := by
  cases k with
  | f32 => exact (reads_next _).finish (reads_pure _)
  | i32 => exact (reads_next _).finish (reads_pure _)

theorem readsShort_kinds (kinds : List NumKind) :
    ReadsShort (readVector readKind) (vector (kinds.map fun k => [valueType k])) kinds :=
  readsShort_vector (fun k _ => (reads_kind k).short) (fun _ _ => List.cons_ne_nil _ _)

theorem readsShort_functionType (type : FunctionType) :
    ReadsShort readFunctionType type.write type :=
  (reads_expect 0x60).short.bind
    ((readsShort_kinds type.params).bind ((readsShort_kinds type.results).finish (reads_pure _)))

theorem text_ne_nil (s : String) : text s ≠ [] := by
  simp [text, unsigned_ne_nil]

theorem readsShort_import {i : Import} (h : i.type < limit) :
    ReadsShort readImport i.write i := by
  rw [Import.write, List.append_assoc]
  exact (readsShort_text i.module).bind ((readsShort_text i.field).bind
    ((reads_expect 0x00).short.bind ((reads_unsigned h).short.finish (reads_pure _))))

theorem readsShort_limits {l : Limits} (hmin : l.min < limit) (hmax : l.max < limit) :
    ReadsShort readLimits l.write l :=
  (reads_expect 0x01).short.bind
    ((reads_unsigned hmin).short.bind ((reads_unsigned hmax).short.finish (reads_pure _)))

def ExportItem.index : ExportItem → Nat
  | function index => index
  | memory index => index

theorem readsShort_export {e : Export} (h : e.item.index < limit) :
    ReadsShort readExport e.write e := by
  obtain ⟨name, item⟩ := e
  cases item with
  | function index =>
      exact (readsShort_text name).bind
        ((reads_next 0x00).short.bind ((reads_unsigned h).short.finish (reads_pure _)))
  | memory index =>
      exact (readsShort_text name).bind
        ((reads_next 0x02).short.bind ((reads_unsigned h).short.finish (reads_pure _)))

-- The numbers in a function have 32 bits.
structure Function.Small (f : Function) : Prop where
  type : f.type < limit
  locals : ∀ group ∈ f.locals, group.1 < limit
  body : AllSmall f.body

theorem readsShort_function {f : Function} (h : f.Small) :
    ReadsShort readFunction f.write (f.locals, f.body) := by
  have hlocals : ReadsShort (readVector readLocals)
      (vector (f.locals.map fun group => unsigned group.1 ++ [valueType group.2])) f.locals := by
    apply readsShort_vector
    · intro group hgroup
      exact (reads_unsigned (h.locals group hgroup)).short.bind
        ((reads_kind group.2).short.finish (reads_pure _))
    · intro group _
      simp
  rw [Function.write, List.append_assoc]
  exact readsShort_sized (hlocals.bind ((reads_body h.body).short.finish (reads_pure _)))

theorem readsShort_name {entry : Nat × String} (h : entry.1 < limit) :
    ReadsShort readName (writeName entry) entry :=
  (reads_unsigned h).short.bind ((readsShort_text entry.2).finish (reads_pure _))

theorem writeName_ne_nil (entry : Nat × String) : writeName entry ≠ [] := by
  simp [writeName, unsigned_ne_nil]

theorem readsShort_nameMap {entries : List (Nat × String)}
    (h : ∀ entry ∈ entries, entry.1 < limit) :
    ReadsShort (readVector readName) (vector (entries.map writeName)) entries :=
  readsShort_vector (fun entry hentry => readsShort_name (h entry hentry))
    (fun entry _ => writeName_ne_nil entry)

structure Names.Small (names : Names) : Prop where
  functions : ∀ entry ∈ names.functions, entry.1 < limit
  locals : ∀ entry ∈ names.locals, entry.1 < limit ∧ ∀ slot ∈ entry.2, slot.1 < limit

theorem readsShort_localNames {names : Names} (h : names.Small) :
    ReadsShort (readVector readLocalNames) (vector (names.locals.map writeLocalNames))
      names.locals := by
  apply readsShort_vector
  · intro entry hentry
    obtain ⟨hindex, hslots⟩ := h.locals entry hentry
    exact (reads_unsigned hindex).short.bind ((readsShort_nameMap hslots).finish (reads_pure _))
  · intro entry _
    simp [writeLocalNames, unsigned_ne_nil]

theorem readsShort_names {names : Names} (h : names.Small) :
    ReadsShort readNames names.write names := by
  have hlocals := readsShort_part 2 (readsShort_localNames h)
  have hfunctions := readsShort_part 1 (readsShort_nameMap h.functions)
  have hunit := readsShort_part 0 (readsShort_text names.unit)
  rw [Names.write, List.append_assoc, List.append_assoc]
  exact (readsShort_text "name").bind (hunit.bind (hfunctions.bind (hlocals.finish (reads_pure _))))

end Sections

section Modules

-- The sections of a binary, each with its number.
def Module.sections (m : Module) : List (UInt8 × Bytes) :=
  [(1, vector (m.types.map (·.write))),
    (2, vector (m.imports.map (·.write))),
    (3, vector (m.functions.map fun f => unsigned f.type)),
    (5, vector (m.memories.map (·.write))),
    (7, vector (m.exports.map (·.write))),
    (10, vector (m.functions.map (·.write))),
    (0, m.custom)]

-- The sizes of sections and the numbers in them have 32 bits.
structure Module.Small (m : Module) : Prop where
  sections : ∀ s ∈ m.sections, s.2.length < limit
  imports : ∀ i ∈ m.imports, i.type < limit
  functions : ∀ f ∈ m.functions, f.Small
  memories : ∀ l ∈ m.memories, l.min < limit ∧ l.max < limit
  exports : ∀ e ∈ m.exports, e.item.index < limit

theorem reads_expectAll (bytes : Bytes) : Reads (bytes.forM expect) bytes () := by
  induction bytes with
  | nil => exact reads_pure _
  | cons b bytes ih => exact (reads_expect b).bind ih

theorem joinFunctions_map (fs : List Function) :
    joinFunctions (fs.map (·.type)) (fs.map fun f => (f.locals, f.body)) = some fs := by
  unfold joinFunctions
  rw [List.length_map, List.length_map, if_pos rfl]
  congr 1
  induction fs with
  | nil => rfl
  | cons f fs ih => rw [List.map_cons, List.map_cons, List.zipWith_cons_cons, ih]

theorem reads_module {m : Module} (h : m.Small) : Reads readModule m.write m := by
  have hsizes := h.sections
  simp only [Module.sections, List.forall_mem_cons] at hsizes
  obtain ⟨h1, h2, h3, h5, h7, h10, h0, _⟩ := hsizes
  have htypes : ReadsShort (readVector readFunctionType) _ m.types :=
    readsShort_vector (fun type _ => readsShort_functionType type) (fun _ _ => List.cons_ne_nil _ _)
  have himports : ReadsShort (readVector readImport) _ m.imports :=
    readsShort_vector (fun i hi => readsShort_import (h.imports i hi))
      (fun i _ => by simp [Import.write])
  have hdeclared : ReadsShort (readVector readIndex) _ (m.functions.map (·.type)) :=
    readsShort_vector_map (fun f hf => (reads_unsigned (h.functions f hf).type).short)
      (fun f _ => unsigned_ne_nil f.type)
  have hmemories : ReadsShort (readVector readLimits) _ m.memories :=
    readsShort_vector (fun l hl => readsShort_limits (h.memories l hl).1 (h.memories l hl).2)
      (fun _ _ => List.cons_ne_nil _ _)
  have hexports : ReadsShort (readVector readExport) _ m.exports :=
    readsShort_vector (fun e he => readsShort_export (h.exports e he))
      (fun e _ => by simp [Export.write, text_ne_nil])
  have hbodies : ReadsShort (readVector readFunction) _
      (m.functions.map fun f => (f.locals, f.body)) :=
    readsShort_vector_map (fun f hf => readsShort_function (h.functions f hf))
      (fun f _ => by simp [Function.write, sized, unsigned_ne_nil])
  have hfunctions := reads_lift (joinFunctions_map m.functions)
  simp only [Module.write, List.append_assoc]
  exact (reads_expectAll header).bind ((reads_part 1 htypes h1).bind
    ((reads_part 2 himports h2).bind ((reads_part 3 hdeclared h3).bind
      ((reads_part 5 hmemories h5).bind ((reads_part 7 hexports h7).bind
        ((reads_part 10 hbodies h10).bind ((reads_expect 0).bind
          ((reads_bytes h0).finish (hfunctions.finish (reads_pure _))))))))))

theorem decode_write {m : Module} {names : Names} (hm : m.Small) (hnames : names.Small)
    (hcustom : m.custom = names.write) : decode m.write = some (m, names) := by
  have hsize : names.write.length < limit := by
    rw [← hcustom]
    exact hm.sections (0, m.custom) (by simp [Module.sections])
  have hmodule := readAll_of_reads (reads_module hm)
  have hread := readAll_of_reads (readsShort_names hnames hsize)
  simp [decode, hmodule, hcustom, hread]

end Modules

end EchoLang.Wasm
