import EchoLang.Proofs.Machine.Scopes
import EchoLang.Proofs.Simplify.NormalForm
import EchoLang.Proofs.Wasm.Compiled
import EchoLang.Proofs.Wasm.RoundTrip

namespace EchoLang

open scoped List

-- What code refers to by name. A branch refers to one of the scopes around it.
inductive Reference where
  | scope (label : Label) (around : List Label)
  | callee (name : String)
deriving DecidableEq

mutual

-- All references in the order of the text, whether a run comes to them or not.
def Instr.references (scopes : List Label) : Instr → List Reference
  | .operate _ => []
  | .call name => [.callee name]
  | .block label body => codeReferences (label :: scopes) body
  | .loop label body => codeReferences (label :: scopes) body
  | .branch label => [.scope label scopes]
  | .branchIf label => [.scope label scopes]

def codeReferences (scopes : List Label) : List Instr → List Reference
  | [] => []
  | i :: rest => i.references scopes ++ codeReferences scopes rest

end

def CodeModule.references (m : CodeModule) : List Reference :=
  m.functions.flatMap fun f => codeReferences [] f.body

-- Why a module with this reference has no binary.
def Reference.refusal? (m : CodeModule) : Reference → Option CompileError
  | scope label around =>
    if label ∈ around then none else some (.target (.branchOutOfScope label))
  | callee name =>
    if name ∈ m.imports.map (·.name) ∨ name ∈ m.functions.map (·.name) then none
    else some (.target (.unknownCallee name))

section Code

variable {pass : List Instr → List Instr}

theorem codeReferences_append (scopes : List Label) (first second : List Instr) :
    codeReferences scopes (first ++ second) =
      codeReferences scopes first ++ codeReferences scopes second := by
  induction first with
  | nil => rfl
  | cons i rest ih => rw [List.cons_append, codeReferences, ih, codeReferences, List.append_assoc]

mutual

-- A pass that adds no references to a body adds none at any level.
theorem references_mapBodies
    (hpass : ∀ scopes body, codeReferences scopes (pass body) <+ codeReferences scopes body) :
    ∀ (i : Instr) (scopes : List Label), (i.mapBodies pass).references scopes <+ i.references scopes
  | .block label body, scopes | .loop label body, scopes =>
      (hpass _ _).trans (references_mapAllBodies hpass body (label :: scopes))
  | .operate _, _ | .call _, _ | .branch _, _ | .branchIf _, _ => List.Sublist.refl _

theorem references_mapAllBodies
    (hpass : ∀ scopes body, codeReferences scopes (pass body) <+ codeReferences scopes body) :
    ∀ (body : List Instr) (scopes : List Label),
      codeReferences scopes (Instr.mapAllBodies pass body) <+ codeReferences scopes body
  | [], _ => List.Sublist.refl _
  | i :: rest, scopes =>
      (references_mapBodies hpass i scopes).append (references_mapAllBodies hpass rest scopes)

end

theorem references_cutAfterBranch (scopes : List Label) (body : List Instr) :
    codeReferences scopes (Instr.cutAfterBranch body) <+ codeReferences scopes body := by
  obtain ⟨rest, hrest⟩ := Instr.isPrefix_cutAfterBranch body
  conv => rhs; rw [← hrest, codeReferences_append]
  exact List.sublist_append_left _ _

-- Simplification only takes references away.
theorem references_simplify (scopes : List Label) (body : List Instr) :
    codeReferences scopes (Instr.simplify body) <+ codeReferences scopes body := by
  have hfold (scopes : List Label) (body : List Instr) :
      codeReferences scopes (Instr.foldConstants body) = codeReferences scopes body :=
    Instr.collect_foldConstants (codeReferences_append scopes) (fun _ => rfl) body
  have hfolded : codeReferences scopes (Instr.everywhere Instr.foldConstants body) <+
      codeReferences scopes body := by
    rw [Instr.everywhere, hfold]
    exact references_mapAllBodies (fun _ _ => by rw [hfold]) body scopes
  have hcut : codeReferences scopes (Instr.simplify body) <+
      codeReferences scopes (Instr.everywhere Instr.foldConstants body) :=
    (references_cutAfterBranch _ _).trans
      (references_mapAllBodies references_cutAfterBranch _ scopes)
  exact hcut.trans hfolded

mutual

theorem branchesInside_of_references : ∀ (i : Instr) {scopes : List Label},
    (∀ label around, .scope label around ∈ i.references scopes → label ∈ around) →
      i.BranchesInside scopes
  | .block _ body, _, h | .loop _ body, _, h => codeBranchesInside_of_references body h
  | .branch label, scopes, h | .branchIf label, scopes, h =>
      h label scopes (List.mem_singleton_self _)
  | .operate _, _, _ | .call _, _, _ => trivial

theorem codeBranchesInside_of_references : ∀ (body : List Instr) {scopes : List Label},
    (∀ label around, .scope label around ∈ codeReferences scopes body → label ∈ around) →
      CodeBranchesInside scopes body
  | [], _, _ => trivial
  | i :: rest, _, h =>
      ⟨branchesInside_of_references i fun label around hmem =>
          h label around (List.mem_append_left _ hmem),
        codeBranchesInside_of_references rest fun label around hmem =>
          h label around (List.mem_append_right _ hmem)⟩

end

end Code

namespace Wasm

variable {m : CodeModule}

section Errors

theorem error?_branchDepth (scopes : List Label) (label : Label) :
    error? (branchDepth scopes label) = (Reference.scope label scopes).refusal? m := by
  rw [branchDepth, Reference.refusal?]
  cases hfound : scopes.idxOf? label with
  | some depth =>
      obtain ⟨hlt, hlabel, -⟩ := List.idxOf?_eq_some_iff.mp hfound
      rw [if_pos (List.mem_of_getElem hlabel)]
      rfl
  | none =>
      rw [if_neg (List.idxOf?_eq_none_iff.mp hfound)]
      rfl

theorem error?_calleeIndex (name : String) :
    error? (calleeIndex (functionNames m) name) = (Reference.callee name).refusal? m := by
  have hnames : (name ∈ m.imports.map (·.name) ∨ name ∈ m.functions.map (·.name)) ↔
      name ∈ functionNames m := List.mem_append.symm
  rw [calleeIndex, Reference.refusal?]
  simp only [hnames]
  cases hfound : lastIndex? (functionNames m) name with
  | some index =>
      rw [if_pos (List.mem_of_getElem? (getElem?_of_lastIndex? hfound).1)]
      rfl
  | none =>
      rw [if_neg (not_mem_of_lastIndex? hfound)]
      rfl

mutual

theorem error?_encodeInstr : ∀ (i : Instr) (scopes : List Label),
    error? (encodeInstr (functionNames m) scopes i) =
      (i.references scopes).findSome? (Reference.refusal? m)
  | .operate op, _ => rfl
  | .call name, _ => by
      rw [encodeInstr, error?_bind fun _ => rfl, error?_calleeIndex, Instr.references,
        List.findSome?_singleton]
  | .block label body, scopes | .loop label body, scopes => by
      rw [encodeInstr, error?_bind fun _ => rfl]
      exact error?_encodeBody body (label :: scopes)
  | .branch label, scopes | .branchIf label, scopes => by
      rw [encodeInstr, error?_bind fun _ => rfl, error?_branchDepth, Instr.references,
        List.findSome?_singleton]

-- By recursion on the code, with the scopes around it.
theorem error?_encodeBody : ∀ (body : List Instr) (scopes : List Label),
    error? (encodeBody (functionNames m) scopes body) =
      (codeReferences scopes body).findSome? (Reference.refusal? m)
  | [], _ => rfl
  | i :: rest, scopes => by
      rw [encodeBody, error?_bind_or fun _ => error?_bind fun _ => rfl, error?_encodeInstr i scopes,
        error?_encodeBody rest scopes, codeReferences, List.findSome?_append]

end

-- Functions are encoded one after the other.
theorem error?_encode (m : CodeModule) :
    error? (encode m) = m.references.findSome? (Reference.refusal? m) := by
  have hfunctions (fs : List FunctionDef) :
      (fs.findSome? fun f => error? (encodeFunction (functionNames m) f)) =
        (fs.flatMap fun f => codeReferences [] f.body).findSome? (Reference.refusal? m) := by
    induction fs with
    | nil => rfl
    | cons f rest ih =>
        rw [List.findSome?_cons, ih, List.flatMap_cons, List.findSome?_append, encodeFunction,
          error?_bind fun _ => rfl, error?_encodeBody]
        cases (codeReferences [] f.body).findSome? (Reference.refusal? m) <;> rfl
  rw [encode, error?_bind fun _ => rfl, error?_mapM, hfunctions, CodeModule.references]

end Errors

theorem exists_encode_iff :
    (∃ bytes, encode m = .ok bytes) ↔ ∀ r ∈ m.references, r.refusal? m = none := by
  rw [← error?_eq_none_iff, error?_encode, List.findSome?_eq_none_iff]

theorem refusal?_simplify (m : CodeModule) (r : Reference) :
    r.refusal? m.simplify = r.refusal? m := by
  have hnames : m.simplify.functions.map (·.name) = m.functions.map (·.name) := by
    simp [CodeModule.simplify, FunctionDef.simplify]
  cases r with
  | scope label around => rfl
  | callee name =>
      unfold Reference.refusal?
      simp only [hnames]
      rfl

theorem mem_references_of_simplify {r : Reference} (h : r ∈ m.simplify.references) :
    r ∈ m.references := by
  obtain ⟨f, hf, hr⟩ := List.mem_flatMap.mp h
  obtain ⟨g, hg, rfl⟩ := List.mem_map.mp hf
  exact List.mem_flatMap.mpr ⟨g, hg, (references_simplify [] g.body).subset hr⟩

-- A module has no binary if and only if one of its branches or calls leads nowhere, and the
-- error is that of the first one. What has a binary keeps it when it is simplified, and no run
-- of it loses its way.
theorem encode_refuses_what_leads_nowhere (m : CodeModule) :
    ((∃ e, encode m = .error e) ↔ ∃ r ∈ m.references, (r.refusal? m).isSome) ∧
      (∀ e, encode m = .error e ↔ ∃ earlier r later, m.references = earlier ++ r :: later ∧
        r.refusal? m = some e ∧ ∀ other ∈ earlier, other.refusal? m = none) ∧
      ∀ bytes, encode m = .ok bytes →
        (∃ bytes', encode m.simplify = .ok bytes') ∧
          ∀ recorded : CodeModule, recorded.functions = m.functions →
            ∀ (machine : Machine) (entry : String) (label : Label),
              (machine.run recorded entry).1 ≠ some (.unknownLabel label) := by
  have herror (e : CompileError) :
      encode m = .error e ↔ m.references.findSome? (Reference.refusal? m) = some e := by
    rw [← error?_encode, error?_eq_some_iff]
  refine ⟨?_, ?_, ?_⟩
  · simp only [herror]
    rw [← Option.isSome_iff_exists, List.findSome?_isSome_iff]
  · intro e
    rw [herror, List.findSome?_eq_some_iff]
  · intro bytes h
    have hfine := exists_encode_iff.mp ⟨bytes, h⟩
    refine ⟨?_, ?_⟩
    · refine exists_encode_iff.mpr fun r hr => ?_
      rw [refusal?_simplify]
      exact hfine r (mem_references_of_simplify hr)
    · intro recorded hrecorded
      refine run_ne_unknownLabel fun f hf => ?_
      refine codeBranchesInside_of_references f.body fun label around hmem => ?_
      by_contra hlabel
      have hrefused := hfine _ (List.mem_flatMap.mpr ⟨f, hrecorded ▸ hf, hmem⟩)
      rw [Reference.refusal?, if_neg hlabel] at hrefused
      cases hrefused

-- No run comes to the call. It is refused all the same, until simplification drops it.
def deadCall : CodeModule :=
  ⟨"", [], [⟨"main", true, [], [.block ⟨.ifThen, 0⟩ [.branch ⟨.ifThen, 0⟩, .call "tick"]]⟩]⟩

example : encode deadCall = .error (.target (.unknownCallee "tick")) := by rfl

example : (encode deadCall.simplify).toBool = true := by decide +kernel

end Wasm

end EchoLang
