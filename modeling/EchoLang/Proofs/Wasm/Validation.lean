import EchoLang.Proofs.Typing.Rules
import EchoLang.Proofs.Wasm.Module

namespace EchoLang.Wasm

-- The kinds of all locals, those of the parameters left out.
def Function.localKinds (f : Function) : List NumKind :=
  f.locals.flatMap fun (count, k) => List.replicate count k

-- The type of the function with a number. Imports are counted first.
def Module.functionType? (m : Module) (index : Nat) : Option FunctionType := do
  let type ← (m.imports.map (·.type) ++ m.functions.map (·.type))[index]?
  m.types[type]?

mutual

-- What code takes from the stack and what it leaves there, the top first, with
-- `labels` blocks and loops open around it. A branch takes and leaves anything,
-- because nothing behind it is ever reached.
inductive Code.HasType (m : Module) (locals : List NumKind) :
    Nat → Code → List NumKind → List NumKind → Prop where
  | numeric {labels : Nat} {op : Operation} (hget : ∀ slot, op ≠ .get slot)
      (hset : ∀ slot, op ≠ .set slot) :
      Code.HasType m locals labels (.operate op) op.operands op.results
  | get {labels slot : Nat} {k : NumKind} (h : locals[slot]? = some k) :
      Code.HasType m locals labels (.operate (.get slot)) [] [k]
  | set {labels slot : Nat} {k : NumKind} (h : locals[slot]? = some k) :
      Code.HasType m locals labels (.operate (.set slot)) [k] []
  | call {labels index : Nat} {type : FunctionType} (h : m.functionType? index = some type) :
      Code.HasType m locals labels (.call index) type.params.reverse type.results.reverse
  | block {labels : Nat} {body : List Code} (h : SequenceHasType m locals (labels + 1) body [] []) :
      Code.HasType m locals labels (.block body) [] []
  | loop {labels : Nat} {body : List Code} (h : SequenceHasType m locals (labels + 1) body [] []) :
      Code.HasType m locals labels (.loop body) [] []
  | branch {labels depth : Nat} {kinds left : List NumKind} (h : depth < labels) :
      Code.HasType m locals labels (.branch depth) kinds left
  | branchIf {labels depth : Nat} (h : depth < labels) :
      Code.HasType m locals labels (.branchIf depth) [.i32] []

-- Operands that an instruction does not touch stay below those it does.
inductive SequenceHasType (m : Module) (locals : List NumKind) :
    Nat → List Code → List NumKind → List NumKind → Prop where
  | nil {labels : Nat} {kinds : List NumKind} : SequenceHasType m locals labels [] kinds kinds
  | cons {labels : Nat} {c : Code} {rest : List Code} {kinds between below left : List NumKind}
      (first : Code.HasType m locals labels c kinds between)
      (later : SequenceHasType m locals labels rest (between ++ below) left) :
      SequenceHasType m locals labels (c :: rest) (kinds ++ below) left

end

-- The body is no scope of its own here, so that no branch can leave it.
def Function.Valid (m : Module) (f : Function) : Prop :=
  ∃ type, m.types[f.type]? = some type ∧
    SequenceHasType m (type.params ++ f.localKinds) 0 f.body [] type.results.reverse

def ExportItem.Valid (m : Module) : ExportItem → Prop
  | function index => index < m.imports.length + m.functions.length
  | memory index => index < m.memories.length

-- The most pages that a memory can have.
def pageLimit : Nat := 65536

structure Module.Valid (m : Module) : Prop where
  types : ∀ type ∈ m.types, type.results.length ≤ 1
  imports : ∀ i ∈ m.imports, i.type < m.types.length
  functions : ∀ f ∈ m.functions, f.Valid m
  memories : m.memories.length ≤ 1 ∧ ∀ l ∈ m.memories, l.min ≤ l.max ∧ l.max ≤ pageLimit
  exports : ∀ e ∈ m.exports, e.item.Valid m
  names : (m.exports.map (·.name)).Nodup

section Code

variable {m : Module} {n : Nat} {scopes : List Label} {kinds : List NumKind} {names : List String}

theorem lt_of_branchDepth {label : Label} {depth : Nat} (h : branchDepth scopes label = .ok depth) :
    depth < scopes.length := by
  unfold branchDepth at h
  split at h
  · rename_i hfound
    cases h
    obtain ⟨hlt, _⟩ := List.idxOf?_eq_some_iff.mp hfound
    exact hlt
  · cases h

theorem hasType_operate {op : Operation} (hfits : op.Fits n) (labels : Nat) :
    Code.HasType m (List.replicate n .f32) labels (.operate op) op.operands op.results := by
  cases op with
  | get slot => exact .get (List.getElem?_replicate_of_lt hfits)
  | set slot => exact .set (List.getElem?_replicate_of_lt hfits)
  | _ => exact .numeric (by simp) (by simp)

-- Code that keeps to the rules stays valid when its names are resolved, if the
-- number for `echo` is that of a function with the type of `echo`.
theorem hasType_of_typed {body : List Instr} {code : List Code}
    (hecho : ∀ index, calleeIndex names Effect.echo.name = .ok index →
      m.functionType? index = some ⟨[Effect.echo.param], []⟩)
    (h : Typed n scopes kinds body) (hcode : resolveBody names scopes body = .ok code) :
    SequenceHasType m (List.replicate n .f32) scopes.length code kinds [] := by
  induction h generalizing code with
  | nil =>
      cases hcode
      exact .nil
  | operate hfits later ih =>
      obtain ⟨first, others, hfirst, hothers, rfl⟩ := of_resolveBody_cons hcode
      cases hfirst
      exact .cons (hasType_operate hfits _) (ih hothers)
  | echo later ih =>
      obtain ⟨first, others, hfirst, hothers, rfl⟩ := of_resolveBody_cons hcode
      obtain ⟨index, hindex, hcall⟩ := exists_of_map_eq_ok hfirst
      subst hcall
      exact .cons (.call (hecho index hindex)) (ih hothers)
  | block inner later ihInner ihLater =>
      obtain ⟨first, others, hfirst, hothers, rfl⟩ := of_resolveBody_cons hcode
      obtain ⟨own, hown, hblock⟩ := exists_of_map_eq_ok hfirst
      subst hblock
      exact .cons (.block (ihInner hown)) (ihLater hothers)
  | loop inner later ihInner ihLater =>
      obtain ⟨first, others, hfirst, hothers, rfl⟩ := of_resolveBody_cons hcode
      obtain ⟨own, hown, hloop⟩ := exists_of_map_eq_ok hfirst
      subst hloop
      exact .cons (.loop (ihInner hown)) (ihLater hothers)
  | branch hlabel =>
      obtain ⟨first, others, hfirst, hothers, rfl⟩ := of_resolveBody_cons hcode
      obtain ⟨depth, hdepth, hbranch⟩ := exists_of_map_eq_ok hfirst
      subst hbranch
      cases hothers
      have hbranch : Code.HasType m (List.replicate n .f32) _ (.branch depth) [] [] :=
        .branch (lt_of_branchDepth hdepth)
      exact .cons hbranch .nil
  | branchIf hlabel later ih =>
      obtain ⟨first, others, hfirst, hothers, rfl⟩ := of_resolveBody_cons hcode
      obtain ⟨depth, hdepth, hbranch⟩ := exists_of_map_eq_ok hfirst
      subst hbranch
      exact .cons (.branchIf (lt_of_branchDepth hdepth)) (ih hothers)

theorem exists_branchDepth {label : Label} (h : label ∈ scopes) :
    ∃ depth, branchDepth scopes label = .ok depth := by
  unfold branchDepth
  cases hfound : scopes.idxOf? label with
  | some depth => exact ⟨depth, rfl⟩
  | none => exact absurd h (List.idxOf?_eq_none_iff.mp hfound)

theorem resolveBody_cons {i : Instr} {rest : List Instr} {first : Code} {others : List Code}
    (hfirst : resolveInstr names scopes i = .ok first)
    (hothers : resolveBody names scopes rest = .ok others) :
    resolveBody names scopes (i :: rest) = .ok (first :: others) := by
  rw [resolveBody, hfirst, hothers]
  rfl

-- Code that keeps to the rules branches to scopes around it and calls nothing but `echo`, so
-- that all its names can be resolved.
theorem exists_resolveBody {body : List Instr} {index : Nat}
    (hecho : calleeIndex names Effect.echo.name = .ok index) (h : Typed n scopes kinds body) :
    ∃ code, resolveBody names scopes body = .ok code := by
  induction h with
  | nil => exact ⟨[], rfl⟩
  | operate hfits later ih =>
      obtain ⟨others, hothers⟩ := ih
      exact ⟨_, resolveBody_cons rfl hothers⟩
  | echo later ih =>
      obtain ⟨others, hothers⟩ := ih
      exact ⟨_, resolveBody_cons (by rw [resolveInstr, hecho]; rfl) hothers⟩
  | block inner later ihInner ihLater =>
      obtain ⟨own, hown⟩ := ihInner
      obtain ⟨others, hothers⟩ := ihLater
      exact ⟨_, resolveBody_cons (by rw [resolveInstr, hown]; rfl) hothers⟩
  | loop inner later ihInner ihLater =>
      obtain ⟨own, hown⟩ := ihInner
      obtain ⟨others, hothers⟩ := ihLater
      exact ⟨_, resolveBody_cons (by rw [resolveInstr, hown]; rfl) hothers⟩
  | branch hlabel =>
      obtain ⟨depth, hdepth⟩ := exists_branchDepth hlabel
      exact ⟨_, resolveBody_cons (by rw [resolveInstr, hdepth]; rfl) rfl⟩
  | branchIf hlabel later ih =>
      obtain ⟨depth, hdepth⟩ := exists_branchDepth hlabel
      obtain ⟨others, hothers⟩ := ih
      exact ⟨_, resolveBody_cons (by rw [resolveInstr, hdepth]; rfl) hothers⟩

end Code

end EchoLang.Wasm
