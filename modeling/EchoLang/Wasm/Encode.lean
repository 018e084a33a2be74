import EchoLang.Code.Basic
import EchoLang.Error
import EchoLang.Target
import EchoLang.Wasm.Bytes

namespace EchoLang.Wasm

def valueType : NumKind → UInt8
  | .f32 => 0x7D
  | .i32 => 0x7F

-- The names of all functions by index.
def functionNames (m : CodeModule) : List String :=
  m.imports.map (·.name) ++ m.functions.map (·.name)

-- The last position of a name.
def lastIndex? : List String → String → Option Nat
  | [], _ => none
  | own :: rest, name =>
    match lastIndex? rest name with
    | some i => some (i + 1)
    | none => if own = name then some 0 else none

-- A function takes one number or nothing, and returns nothing.
abbrev Signature := Option NumKind

-- Each signature once, in the order of first use.
def signatures (m : CodeModule) : List Signature :=
  ((m.imports.map fun e : Effect => some e.param) ++
    (m.functions.map fun _ => (none : Signature))).eraseDups

def signatureIndex (m : CodeModule) (s : Signature) : Nat :=
  (signatures m).idxOf s

def encodeSignature (s : Signature) : Bytes :=
  0x60 :: (vector (s.toList.map fun k => [valueType k]) ++ vector [])

def floatOpcode : FloatOp → UInt8
  | .add => 0x92
  | .sub => 0x93
  | .mul => 0x94
  | .div => 0x95

def testOpcode : FloatTest → UInt8
  | .eq => 0x5B
  | .ne => 0x5C
  | .lt => 0x5D
  | .gt => 0x5E
  | .le => 0x5F
  | .ge => 0x60

def intOpcode : IntOp → UInt8
  | .ne => 0x47
  | .and => 0x71
  | .or => 0x72
  | .shl => 0x74
  | .shr => 0x75

-- How many scopes lie between a branch and the scope it names. The innermost
-- scope comes first.
def branchDepth (scopes : List Label) (label : Label) : Except CompileError Nat :=
  match scopes.idxOf? label with
  | some depth => .ok depth
  | none => .error (.target (.branchOutOfScope label))

def calleeIndex (names : List String) (name : String) : Except CompileError Nat :=
  match lastIndex? names name with
  | some index => .ok index
  | none => .error (.target (.unknownCallee name))

def encodeOperation : Operation → Bytes
  | .floatConst bits => 0x43 :: float bits
  | .intConst value => 0x41 :: signed value.toInt
  | .floatOp op => [floatOpcode op]
  | .floatTest test => [testOpcode test]
  | .intOp op => [intOpcode op]
  | .isZero => [0x45]
  | .remainder => [0x70]
  | .truncate => [0xA8]
  | .saturate => [0xFC, 0x00]
  | .ofSigned => [0xB2]
  | .ofUnsigned => [0xB3]
  | .get slot => 0x20 :: unsigned slot
  | .set slot => 0x21 :: unsigned slot

mutual

def encodeInstr (names : List String) (scopes : List Label) : Instr → Except CompileError Bytes
  | .operate op => .ok (encodeOperation op)
  | .call name => do
    let index ← calleeIndex names name
    return 0x10 :: unsigned index
  | .block label body => do
    let inner ← encodeBody names (label :: scopes) body
    return 0x02 :: 0x40 :: (inner ++ [0x0B])
  | .loop label body => do
    let inner ← encodeBody names (label :: scopes) body
    return 0x03 :: 0x40 :: (inner ++ [0x0B])
  | .branch label => do
    let depth ← branchDepth scopes label
    return 0x0C :: unsigned depth
  | .branchIf label => do
    let depth ← branchDepth scopes label
    return 0x0D :: unsigned depth

def encodeBody (names : List String) (scopes : List Label) :
    List Instr → Except CompileError Bytes
  | [] => .ok []
  | i :: rest => do
    let first ← encodeInstr names scopes i
    let others ← encodeBody names scopes rest
    return first ++ others

end

-- The slots of a function are one group of floats, or none.
def encodeLocals (f : FunctionDef) : Bytes :=
  if f.locals = [] then vector [] else vector [unsigned f.locals.length ++ [valueType .f32]]

def encodeFunction (names : List String) (f : FunctionDef) : Except CompileError Bytes := do
  let code ← encodeBody names [] f.body
  return sized (encodeLocals f ++ code ++ [0x0B])

def encodeImport (m : CodeModule) (e : Effect) : Bytes :=
  text e.module ++ text e.field ++ 0x00 :: unsigned (signatureIndex m (some e.param))

-- The functions that are no imports, with their indices.
def indexedFunctions (m : CodeModule) : List (Nat × FunctionDef) :=
  m.functions.zipIdx.map fun (f, i) => (m.imports.length + i, f)

-- The memory has one page and grows to two at most.
def memory : Bytes := [0x01, 0x01, 0x02]

def exports (m : CodeModule) : List Bytes :=
  (text Target.memoryName ++ [0x02, 0x00]) ::
    ((indexedFunctions m).filter (·.2.exported)).map fun (index, f) =>
      text f.name ++ 0x00 :: unsigned index

-- Names with their numbers, from zero on.
def nameMap (names : List String) : Bytes :=
  vector (names.zipIdx.map fun (name, index) => unsigned index ++ text name)

def nameSection (m : CodeModule) : Bytes :=
  text "name" ++ part 0 (text m.unit) ++ part 1 (nameMap (functionNames m)) ++
    part 2 (vector ((indexedFunctions m).map fun (index, f) =>
      unsigned index ++ nameMap f.locals))

def header : Bytes := [0x00, 0x61, 0x73, 0x6D, 0x01, 0x00, 0x00, 0x00]

-- The binary, or the first branch or call that leads nowhere.
def encode (m : CodeModule) : Except CompileError Bytes := do
  let bodies ← m.functions.mapM (encodeFunction (functionNames m))
  return header ++
    part 1 (vector ((signatures m).map encodeSignature)) ++
    part 2 (vector (m.imports.map (encodeImport m))) ++
    part 3 (vector (m.functions.map fun _ => unsigned (signatureIndex m none))) ++
    part 5 (vector [memory]) ++
    part 7 (vector (exports m)) ++
    part 10 (vector bodies) ++
    part 0 (nameSection m)

end EchoLang.Wasm
