import EchoLang.Compile
import EchoLang.Proofs.Typing.Rules

namespace EchoLang

variable {n : Nat} {scopes : List Label} {kinds : List NumKind}

theorem Typed.of_operate {op : Operation} {rest : List Instr}
    (h : Typed n scopes kinds (.operate op :: rest)) :
    ∃ base, kinds = op.operands ++ base ∧ op.Fits n ∧ Typed n scopes (op.results ++ base) rest := by
  cases h with
  | operate hfits later => exact ⟨_, rfl, hfits, later⟩

-- Behind other code, code can be replaced by code that fits wherever it does.
theorem Typed.replace {earlier code code' : List Instr} (hne : code ≠ [])
    (hcode : ∀ {kinds}, Typed n scopes kinds code → Typed n scopes kinds code')
    (h : Typed n scopes kinds (earlier ++ code)) : Typed n scopes kinds (earlier ++ code') := by
  induction earlier generalizing kinds with
  | nil => exact hcode h
  | cons i earlier ih =>
      rw [List.cons_append] at h ⊢
      generalize hrest : earlier ++ code = rest at h ih
      cases h with
      | operate hfits later => exact .operate hfits (ih later)
      | echo later => exact .echo (ih later)
      | block inner later => exact .block inner (ih later)
      | loop inner later => exact .loop inner (ih later)
      | branch hlabel => exact absurd (List.append_eq_nil_iff.mp hrest).2 hne
      | branchIf hlabel later => exact .branchIf hlabel (ih later)

theorem typed_fold {a b : FloatBits} {op value : Operation} {rest : List Instr}
    (hfold : op.fold? a b = some value)
    (h : Typed n scopes kinds
      (.operate (.floatConst a) :: .operate (.floatConst b) :: .operate op :: rest)) :
    Typed n scopes kinds (.operate value :: rest) := by
  obtain ⟨base, hkinds, _, h⟩ := h.of_operate
  obtain ⟨base', hbase, _, h⟩ := h.of_operate
  obtain ⟨base'', hbase', _, h⟩ := h.of_operate
  cases op with
  | floatOp op =>
      cases hfold
      cases hkinds
      cases hbase
      cases hbase'
      exact typed_operate trivial rfl h
  | floatTest test =>
      cases hfold
      cases hkinds
      cases hbase
      cases hbase'
      exact typed_operate trivial rfl h
  | _ => cases hfold

theorem typed_pushFolding {done rest : List Instr} {i : Instr}
    (h : Typed n scopes kinds (done.reverse ++ i :: rest)) :
    Typed n scopes kinds ((Instr.pushFolding done i).reverse ++ rest) := by
  unfold Instr.pushFolding
  split
  · rename_i b a earlier op
    split
    · rename_i value hvalue
      simp only [List.reverse_cons, List.append_assoc, List.singleton_append] at h ⊢
      exact Typed.replace (by simp) (typed_fold hvalue) h
    · simpa using h
  · simpa using h

theorem typed_foldl (done rest : List Instr) (h : Typed n scopes kinds (done.reverse ++ rest)) :
    Typed n scopes kinds (rest.foldl Instr.pushFolding done).reverse := by
  induction rest generalizing done with
  | nil => simpa using h
  | cons i rest ih => exact ih _ (typed_pushFolding h)

theorem typed_foldConstants {body : List Instr} (h : Typed n scopes kinds body) :
    Typed n scopes kinds (Instr.foldConstants body) :=
  typed_foldl [] body h

-- Nothing follows a branch.
theorem cutAfterBranch_of_typed {body : List Instr} (h : Typed n scopes kinds body) :
    Instr.cutAfterBranch body = body := by
  induction h with
  | nil | branch => rfl
  | operate _ _ ih | echo _ ih | block _ _ _ ih | loop _ _ _ ih | branchIf _ _ ih =>
      rw [Instr.cutAfterBranch, ih]
      simp

theorem typed_mapAllBodies {pass : List Instr → List Instr}
    (hpass : ∀ {scopes body}, Typed n scopes [] body → Typed n scopes [] (pass body))
    {body : List Instr} (h : Typed n scopes kinds body) :
    Typed n scopes kinds (Instr.mapAllBodies pass body) := by
  induction h with
  | nil => exact .nil
  | operate hfits _ ih => exact .operate hfits ih
  | echo _ ih => exact .echo ih
  | block _ _ ihInner ihLater => exact .block (hpass ihInner) ihLater
  | loop _ _ ihInner ihLater => exact .loop (hpass ihInner) ihLater
  | branch hlabel => exact .branch hlabel
  | branchIf hlabel _ ih => exact .branchIf hlabel ih

theorem typed_simplify {body : List Instr} (h : Typed n scopes kinds body) :
    Typed n scopes kinds (Instr.simplify body) := by
  have hfold : Typed n scopes kinds (Instr.everywhere Instr.foldConstants body) :=
    typed_foldConstants (typed_mapAllBodies typed_foldConstants h)
  have hcut {scopes : List Label} {kinds : List NumKind} {body : List Instr}
      (h : Typed n scopes kinds body) : Typed n scopes kinds (Instr.cutAfterBranch body) := by
    rwa [cutAfterBranch_of_typed h]
  exact hcut (typed_mapAllBodies hcut hfold)

theorem FunctionDef.Typed.simplify {f : FunctionDef} (h : f.Typed) : f.simplify.Typed :=
  typed_simplify h

theorem CodeModule.imports_simplifyIf (m : CodeModule) (optimize : Bool) :
    (m.simplifyIf optimize).imports = m.imports := by
  cases optimize <;> rfl

theorem CodeModule.names_simplifyIf (m : CodeModule) (optimize : Bool) :
    (m.simplifyIf optimize).functions.map (·.name) = m.functions.map (·.name) := by
  cases optimize with
  | false => rfl
  | true => simp [CodeModule.simplifyIf, CodeModule.simplify, FunctionDef.simplify]

-- Simplifying changes neither the name of a function nor whether it is exported.
theorem CodeModule.exists_of_mem_simplifyIf {m : CodeModule} {optimize : Bool} {f : FunctionDef}
    (h : f ∈ (m.simplifyIf optimize).functions) :
    ∃ g ∈ m.functions, g.name = f.name ∧ g.exported = f.exported := by
  cases optimize with
  | false => exact ⟨f, h, rfl, rfl⟩
  | true =>
      obtain ⟨g, hg, hsimple⟩ := List.mem_map.mp h
      subst hsimple
      exact ⟨g, hg, rfl, rfl⟩

-- Every function of a lowered program keeps to the rules, simplified or not.
theorem Lowered.typed {p : Program} {m : CodeModule} (h : Lowered p m) (optimize : Bool) :
    ∀ f ∈ (m.simplifyIf optimize).functions, f.Typed := by
  intro f hf
  cases optimize with
  | false =>
      obtain ⟨stmt, _, hstmt⟩ := h.exists_procedure hf
      exact typed_of_lowersTo hstmt
  | true =>
      obtain ⟨g, hg, hsimple⟩ := List.mem_map.mp hf
      obtain ⟨stmt, _, hstmt⟩ := h.exists_procedure hg
      rw [← hsimple]
      exact (typed_of_lowersTo hstmt).simplify

end EchoLang
